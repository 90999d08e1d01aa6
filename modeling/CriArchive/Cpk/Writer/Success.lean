import CriArchive.Cpk.Capacity
import CriArchive.Cpk.Writer.Emit

set_option relaxedAutoImplicit false
set_option autoImplicit false

/-!
# When the writer succeeds

Every check of `write_with_profile` in `cpk/writer.rs`, told from its input alone: what the sizes of
the tables and the start of the contents are, which of the many range checks can fail at all, and
which payloads can be read.

## Main definitions

* `tocSize`, `itocSize`, `cpkHeaderSize` — the sizes of the tables of an archive.
* `contentStart` — where the contents of an archive start.
* `Plannable` — inputs for which an archive can be planned.
* `Readable` — entries whose payload can be read with the size they state.

## Main results

* `exists_planArchive_iff` — an archive is planned iff its input is plannable.
* `emittable_iff_readable` — a payload is put out as a whole iff its entry is readable.
-/

namespace CriArchive

open UtfTableBuilder

/-! ## The sizes of the tables -/

namespace UtfTableBuilder

/-- The strings of cells, row by row. -/
theorem cellStrings_eq (b : UtfTableBuilder) :
    b.cellStrings = b.rows.flatMap fun row => row.filterMap UtfValue.string? := by
  have hrow : ∀ (r c : ℕ) (row : List UtfValue),
      (rowCells r c row).filterMap (fun cell => cell.2.string?) = row.filterMap UtfValue.string? := by
    intro r c row
    induction row generalizing c with
    | nil => rfl
    | cons v vs ih => simp only [rowCells, List.filterMap_cons, ih]
  have hrows : ∀ (r : ℕ) (rows : List (List UtfValue)),
      (cellsFrom r rows).filterMap (fun cell => cell.2.string?) =
        rows.flatMap fun row => row.filterMap UtfValue.string? := by
    intro r rows
    induction rows generalizing r with
    | nil => rfl
    | cons row rows ih =>
      rw [cellsFrom, List.filterMap_append, hrow, ih, List.flatMap_cons]
  exact hrows 0 b.rows

/-- The size of a table without data: header, schema, rows, and every string once. -/
theorem Shaped.size_eq {b : UtfTableBuilder} (hb : b.Shaped)
    (hdata : UtfType.data ∉ b.columns.map UtfColumn.valueType) :
    b.size = 0x20 + b.columns.length * 5 + b.rowWidth * b.rows.length +
      poolSize (b.name :: (b.columns.map UtfColumn.name ++
        b.rows.flatMap fun row => row.filterMap UtfValue.string?)) := by
  have hnone : (b.cells.map dataBytes).sum = 0 := by
    refine sum_dataBytes_eq_zero fun row hrow v hv hdata' => hdata ?_
    rw [← hb.rows row hrow, ← hdata']
    exact List.mem_map_of_mem hv
  rw [size, hnone, Nat.add_zero, dataPoolStart, strings, cellStrings_eq]

end UtfTableBuilder

section Sizes

variable (files : List CpkInputFile) (profile : CpkWriterProfile)

/-- The size of the table of contents: a row of 32 bytes for each entry, and every string once. -/
def tocSize : ℕ :=
  67 + 32 * files.length + poolSize ("CpkTocInfo" :: (tocTableColumns.map UtfColumn.name ++
    files.flatMap fun f => [f.directory, f.fileName, f.userString]))

/-- The size of the ID table: rows of 10 bytes, or of 6 and 10 bytes in two nested tables. -/
def itocSize (direct : Bool) : ℕ :=
  if direct = true then 84 + 10 * files.length
  else 245 + 6 * files.countP CpkInputFile.fitsLow + 10 * files.countP (!CpkInputFile.fitsLow ·)

/-- The size of the archive header. -/
def cpkHeaderSize : ℕ :=
  298 + poolSize ("CpkHeader" :: (headerColumns.map UtfColumn.name ++
    [profile.tvers, profile.comment]))

variable {files profile}

/-- The table of a TOC is shaped. -/
theorem shaped_tocBuilder (hcount : files.length < 2 ^ 32) (offsets : List UInt64) :
    (tocBuilder files offsets).Shaped where
  columns := (by decide : 0x18 + tocTableColumns.length * 5 < 2 ^ 16)
  rowCount := by
    rw [tocBuilder, List.length_zipWith]
    exact Nat.lt_of_le_of_lt (Nat.min_le_left _ _) hcount
  rowWidth := (by decide : (tocTableColumns.map fun c => c.valueType.size).sum < 2 ^ 16)
  rows := by
    intro row hrow
    obtain ⟨i, hi, rfl⟩ := List.mem_iff_getElem.mp hrow
    simp only [tocBuilder, List.getElem_zipWith]
    rfl

/-- The strings of the rows of a table of contents. -/
theorem strings_tocValues {offsets : List UInt64} (hlen : offsets.length = files.length) :
    ((List.zipWith tocValues files offsets).flatMap fun row => row.filterMap UtfValue.string?) =
      files.flatMap fun f => [f.directory, f.fileName, f.userString] := by
  induction files generalizing offsets with
  | nil => rfl
  | cons f files ih =>
    obtain ⟨o, offsets, rfl⟩ := List.exists_of_length_succ offsets hlen
    rw [List.zipWith_cons_cons, List.flatMap_cons, List.flatMap_cons, ih (Nat.succ.inj hlen)]
    rfl

/-- The size of a table of contents. -/
theorem size_tocBuilder (hcount : files.length < 2 ^ 32) {offsets : List UInt64}
    (hlen : offsets.length = files.length) : (tocBuilder files offsets).size = tocSize files := by
  have hrows : (tocBuilder files offsets).rows.length = files.length := by
    rw [tocBuilder, List.length_zipWith, hlen, Nat.min_self]
  rw [(shaped_tocBuilder hcount offsets).size_eq (by decide : UtfType.data ∉
    tocTableColumns.map UtfColumn.valueType), hrows, tocSize, ← strings_tocValues hlen]
  rfl

/-- The table of an archive header is shaped. -/
theorem shaped_headerBuilder (n : HeaderNumbers) : (headerBuilder n profile).Shaped where
  columns := (by decide : 0x18 + headerColumns.length * 5 < 2 ^ 16)
  rowCount := (by decide : 1 < 2 ^ 32)
  rowWidth := (by decide : (headerColumns.map fun c => c.valueType.size).sum < 2 ^ 16)
  rows := List.forall_mem_singleton.mpr rfl

/-- The size of an archive header. -/
theorem size_headerBuilder (n : HeaderNumbers) :
    (headerBuilder n profile).size = cpkHeaderSize profile := by
  have hstrings : ((headerBuilder n profile).rows.flatMap fun row =>
      row.filterMap UtfValue.string?) = [profile.tvers, profile.comment] := rfl
  have hwidth : (headerBuilder n profile).rowWidth = 136 := rfl
  rw [(shaped_headerBuilder n).size_eq (by decide : UtfType.data ∉
    headerColumns.map UtfColumn.valueType), hstrings, hwidth, cpkHeaderSize]
  rfl

/-- A nested table of an ID table is shaped. -/
theorem shaped_itocBuilder {physical : List CpkInputFile} (hcount : physical.length < 2 ^ 32)
    (lowWidth : Bool) (name : String) : (itocBuilder physical lowWidth name).Shaped where
  columns := (by decide : 0x18 + 3 * 5 < 2 ^ 16)
  rowCount := by
    rw [itocBuilder, List.length_map]
    exact hcount
  rowWidth := by
    cases lowWidth
    · exact (by decide : 10 < 2 ^ 16)
    · exact (by decide : 6 < 2 ^ 16)
  rows := by
    intro row hrow
    obtain ⟨f, -, rfl⟩ := List.mem_map.mp hrow
    cases lowWidth <;> rfl

/-- The size of an ID table that holds rows. -/
theorem size_itocBuilder {physical : List CpkInputFile} (hcount : physical.length < 2 ^ 32)
    (lowWidth : Bool) (name : String) : (itocBuilder physical lowWidth name).size =
      47 + (if lowWidth = true then 6 else 10) * physical.length +
        poolSize [name, "ID", "FileSize", "ExtractSize"] := by
  have hstrings : ((itocBuilder physical lowWidth name).rows.flatMap fun row =>
      row.filterMap UtfValue.string?) = [] := by
    refine List.flatMap_eq_nil_iff.mpr fun row hrow => ?_
    obtain ⟨f, -, rfl⟩ := List.mem_map.mp hrow
    cases lowWidth <;> rfl
  have hrows : (itocBuilder physical lowWidth name).rows.length = physical.length :=
    List.length_map _
  have hdata : UtfType.data ∉
      (itocBuilder physical lowWidth name).columns.map UtfColumn.valueType := by
    cases lowWidth <;> simp [itocBuilder, itocColumns]
  rw [(shaped_itocBuilder hcount lowWidth name).size_eq hdata, hstrings, hrows]
  cases lowWidth <;> rfl

/-- The table that holds both nested tables is shaped. -/
theorem shaped_itocNestBuilder (low high : List UInt8) : (itocNestBuilder low high).Shaped where
  columns := (by decide : 0x18 + 2 * 5 < 2 ^ 16)
  rowCount := (by decide : 1 < 2 ^ 32)
  rowWidth := (by decide : 16 < 2 ^ 16)
  rows := List.forall_mem_singleton.mpr rfl

/-- The size of the table that nests the two ID tables. -/
theorem size_itocNestBuilder (low high : List UInt8) :
    (itocNestBuilder low high).size = 83 + (low.length + high.length) := by
  have hstart : (itocNestBuilder low high).dataPoolStart =
      58 + poolSize ["CpkItocInfo", "DataL", "DataH"] := rfl
  have hpool : poolSize ["CpkItocInfo", "DataL", "DataH"] = 25 := by decide +kernel
  rw [size, hstart, hpool]
  rfl

/-- **The ID table is built** of at most `2^16` entries, with the stated size.

**Proof sketch.** A table of `2 ^ 16` rows is far below the limit of `exists_build_iff`, which
settles a direct table; the two nested tables are of the same kind, and the table that holds them is
as small. -/
theorem itocTableOf_returns {physical : List CpkInputFile} (hcount : physical.length ≤ 2 ^ 16)
    (direct : Bool) :
    (itocTableOf physical direct).Returns fun table => table.length = itocSize physical direct := by
  -- a table of rows fits its header
  have hbuild : ∀ (rows : List CpkInputFile) (low : Bool) (name : String), rows.length ≤ 2 ^ 16 →
      poolSize [name, "ID", "FileSize", "ExtractSize"] < 2 ^ 16 →
      (itocBuilder rows low name).build.Returns fun table => table.length =
        47 + (if low = true then 6 else 10) * rows.length +
          poolSize [name, "ID", "FileSize", "ExtractSize"] := by
    intro rows low name hrows hpool
    have hlt : rows.length < 2 ^ 32 := by omega
    have hsize := size_itocBuilder hlt low name
    obtain ⟨table, htable⟩ := (exists_build_iff (shaped_itocBuilder hlt low name)).mpr (by
      rw [hsize]
      split_ifs <;> omega)
    exact ⟨table, htable, (length_build htable).trans hsize⟩
  unfold itocTableOf itocSize
  split_ifs with hdirect
  · have hpool : poolSize ["CpkExtendId", "ID", "FileSize", "ExtractSize"] = 37 := by
      decide +kernel
    obtain ⟨table, htable, hlen⟩ := hbuild physical false "CpkExtendId" hcount (by rw [hpool]; decide)
    refine ⟨table, htable, ?_⟩
    dsimp only
    rw [hlen, hpool, if_neg Bool.false_ne_true]
    omega
  · have hlowPool : poolSize ["CpkItocL", "ID", "FileSize", "ExtractSize"] = 34 := by
      decide +kernel
    have hhighPool : poolSize ["CpkItocH", "ID", "FileSize", "ExtractSize"] = 34 := by
      decide +kernel
    have hlowCount : (physical.filter CpkInputFile.fitsLow).length ≤ 2 ^ 16 :=
      Nat.le_trans (List.length_filter_le _ _) hcount
    have hhighCount : (physical.filter (!CpkInputFile.fitsLow ·)).length ≤ 2 ^ 16 :=
      Nat.le_trans (List.length_filter_le _ _) hcount
    refine (hbuild _ true "CpkItocL" hlowCount (by rw [hlowPool]; decide)).bind fun low hlow => ?_
    refine (hbuild _ false "CpkItocH" hhighCount (by rw [hhighPool]; decide)).bind
      fun high hhigh => ?_
    rw [hlowPool, if_pos rfl, ← List.countP_eq_length_filter] at hlow
    rw [hhighPool, if_neg Bool.false_ne_true, ← List.countP_eq_length_filter] at hhigh
    rw [← List.countP_eq_length_filter] at hlowCount hhighCount
    obtain ⟨table, htable⟩ := (exists_build_iff (shaped_itocNestBuilder low high)).mpr (by
      rw [size_itocNestBuilder]
      omega)
    refine ⟨table, htable, ?_⟩
    dsimp only
    rw [length_build htable, size_itocNestBuilder]
    omega

end Sizes

/-! ## Inputs for which an archive can be planned -/

section Plannable

variable (files : List CpkInputFile) (options : CpkWriterOptions) (profile : CpkWriterProfile)

/-- Where the chunk of an index table ends, aligned, when there is a table of a given length. -/
def indexStop (a cursor : ℕ) : Option ℕ → ℕ
  | none => cursor
  | some n => alignTo a (cursor + (0x10 + n))

/-- The length of the table of contents, when there is one. -/
def tocLength : Option ℕ := if profile.indexMode.hasToc = true then some (tocSize files) else none

/-- The length of the ID table, when there is one. -/
def itocLength : Option ℕ :=
  if profile.indexMode.hasItoc = true then some (itocSize files profile.directItoc) else none

/-- Where the contents start: after the index tables, which start at `0x800`. -/
def contentStart : ℕ :=
  alignTo options.alignment.toNat (indexStop options.alignment.toNat
    (indexStop options.alignment.toNat 0x800 (tocLength files profile)) (itocLength files profile))

/-- **Inputs for which an archive can be planned**: the alignment is a power of two, there is an
entry, with an ID table the IDs fit 16 bits, none repeats and the contents start below `2^32`, and
both the table of contents and the archive header fit their places. -/
structure Plannable : Prop where
  alignment : options.alignment.toNat.isPowerOfTwo
  nonempty : files ≠ []
  ids : profile.indexMode.hasItoc = true →
    (∀ f ∈ files, f.id.toNat < 2 ^ 16) ∧ (files.map CpkInputFile.id).Nodup
  toc : profile.indexMode.hasToc = true → tocSize files < 2 ^ 32 + 8
  contents : profile.indexMode.hasItoc = true → contentStart files options profile < 2 ^ 32
  header : 0x10 + cpkHeaderSize profile ≤ copyrightMarkerOffset

/-- The end of an index table, from its length. -/
theorem indexEnd_eq (a cursor : ℕ) (table : Option (List UInt8)) :
    indexEnd a cursor table = indexStop a cursor (table.map List.length) := by
  cases table <;> rfl

variable {files options profile}

/-- There are at most `2^16` distinct 16-bit IDs. -/
theorem length_le_of_ids (hsmall : ∀ f ∈ files, f.id.toNat < 2 ^ 16)
    (hnodup : (files.map CpkInputFile.id).Nodup) : files.length ≤ 2 ^ 16 := by
  have hvalues : ((files.map CpkInputFile.id).map UInt32.toNat).Nodup :=
    hnodup.map fun a b h => UInt32.toNat_inj.mp h
  have hsubset : (files.map CpkInputFile.id).map UInt32.toNat ⊆ List.range (2 ^ 16) := by
    intro n hn
    obtain ⟨id, hid, rfl⟩ := List.mem_map.mp hn
    obtain ⟨f, hf, rfl⟩ := List.mem_map.mp hid
    exact List.mem_range.mpr (hsmall f hf)
  have hle := (hvalues.subperm hsubset).length_le
  simpa using hle

/-- The number of entries of an archive that can be planned. -/
theorem Plannable.length_le (h : Plannable files options profile) : files.length ≤ 2 ^ 27 := by
  cases hmode : profile.indexMode with
  | toc | tocAndItoc =>
    have htoc := h.toc (by rw [hmode]; rfl)
    unfold tocSize at htoc
    omega
  | itoc =>
    obtain ⟨hsmall, hnodup⟩ := h.ids (by rw [hmode]; rfl)
    exact Nat.le_trans (length_le_of_ids hsmall hnodup) (by decide)

/-- The ID table of an archive that can be planned is small. -/
theorem Plannable.itocSize_le (h : Plannable files options profile)
    (hitoc : profile.indexMode.hasItoc = true) (direct : Bool) :
    itocSize files direct ≤ 245 + 16 * 2 ^ 16 := by
  obtain ⟨hsmall, hnodup⟩ := h.ids hitoc
  have hcount := length_le_of_ids hsmall hnodup
  have hlow := List.countP_le_length (p := CpkInputFile.fitsLow) (l := files)
  have hhigh := List.countP_le_length (p := (!CpkInputFile.fitsLow ·)) (l := files)
  unfold itocSize
  split_ifs <;> omega

/-- The end of the index tables of an archive that can be planned, and its contents.

**Proof sketch.** An index table adds its size, its chunk header and at most one alignment, which is
below `2 ^ 16`; the sizes are bounded by `toc` and by `itocSize_le`. -/
theorem Plannable.contentStart_le (h : Plannable files options profile) :
    indexStop options.alignment.toNat 0x800 (tocLength files profile) ≤ 2 ^ 34 ∧
    indexStop options.alignment.toNat
      (indexStop options.alignment.toNat 0x800 (tocLength files profile))
      (itocLength files profile) ≤ 2 ^ 35 ∧
    contentStart files options profile ≤ 2 ^ 36 ∧ 0x800 ≤ contentStart files options profile := by
  obtain ⟨k, hk⟩ := h.alignment
  have hpos : 0 < options.alignment.toNat := hk ▸ Nat.two_pow_pos k
  have halign := options.alignment.toNat_lt
  have hstop : ∀ (cursor : ℕ) (length : Option ℕ) (m : ℕ), (∀ n, length = some n → n ≤ m) →
      cursor ≤ indexStop options.alignment.toNat cursor length ∧
        indexStop options.alignment.toNat cursor length ≤ cursor + 0x10 + m + 2 ^ 16 := by
    intro cursor length m hm
    cases length with
    | none => exact ⟨Nat.le_refl _, by simp only [indexStop]; omega⟩
    | some n =>
      have hn := hm n rfl
      have hle := le_alignTo hpos (cursor + (0x10 + n))
      have hlt := alignTo_lt hpos (cursor + (0x10 + n))
      simp only [indexStop]
      omega
  obtain ⟨htocLe, htoc⟩ := hstop 0x800 (tocLength files profile) (2 ^ 33) fun n hn => by
    unfold tocLength at hn
    split_ifs at hn with hmode
    have hsize := h.toc hmode
    rw [← Option.some.inj hn]
    omega
  obtain ⟨hitocLe, hitoc⟩ := hstop
    (indexStop options.alignment.toNat 0x800 (tocLength files profile)) (itocLength files profile)
    (2 ^ 21) fun n hn => by
      unfold itocLength at hn
      split_ifs at hn with hmode
      have hsize := h.itocSize_le hmode profile.directItoc
      rw [← Option.some.inj hn]
      omega
  have hle := le_alignTo hpos (indexStop options.alignment.toNat
    (indexStop options.alignment.toNat 0x800 (tocLength files profile)) (itocLength files profile))
  have hlt := alignTo_lt hpos (indexStop options.alignment.toNat
    (indexStop options.alignment.toNat 0x800 (tocLength files profile)) (itocLength files profile))
  unfold contentStart
  omega

end Plannable

/-! ## Each step of planning -/

section Steps

variable {files : List CpkInputFile} {profile : CpkWriterProfile} {alignment : UInt64}

/-- A sum below `2^64` does not overflow. -/
theorem checkedAdd_returns {a b : UInt64} (h : a.toNat + b.toNat < 2 ^ 64) :
    (Exec.okOr (a.checkedAdd b) arithmeticOverflow).Returns fun c =>
      c.toNat = a.toNat + b.toNat := by
  have hsum : a.checkedAdd b = some (a + b) := if_pos h
  rw [hsum]
  exact ⟨_, rfl, UInt64.checkedAdd_eq_some.mp hsum⟩

/-- Rounding up by a mask returns when the sum with the mask is below `2^64`. -/
theorem writerAlignUp_returns (halign : alignment.toNat.isPowerOfTwo) {value : UInt64}
    (h : value.toNat + alignment.toNat ≤ 2 ^ 64) :
    (writerAlignUp value alignment).Returns fun w =>
      w.toNat = alignTo alignment.toNat value.toNat := by
  refine (writerAlignUp_ends halign value).returns ?_
  obtain ⟨k, hk⟩ := halign
  have hpos : 0 < alignment.toNat := hk ▸ Nat.two_pow_pos k
  have hsub : alignment.checkedSub 1 = some (alignment - 1) := if_pos hpos
  have hmask : (alignment - 1).toNat = alignment.toNat - 1 := (UInt64.checkedSub_eq_some.mp hsub).2
  obtain ⟨rounded, hrounded, -⟩ := checkedAdd_returns
    (show value.toNat + (alignment - 1).toNat < 2 ^ 64 by omega)
  rw [writerAlignUp, hsub, Exec.orFault_some, Exec.ok_bind, hrounded]
  exact ⟨_, rfl⟩

/-- The size of the chunk of a table. -/
theorem chunkSize_returns {table : List UInt8} (h : 0x10 + table.length < 2 ^ 64) :
    (chunkSize table).Returns fun n => n.toNat = 0x10 + table.length := by
  have hlength : UInt64.tryFrom table.length = some (UInt64.ofNat table.length) :=
    if_pos (by omega)
  have hvalue := UInt64.tryFrom_eq_some.mp hlength
  have hsum := checkedAdd_returns (a := 0x10) (b := UInt64.ofNat table.length) (by
    rw [hvalue]
    exact h)
  rw [hvalue] at hsum
  rw [chunkSize, hlength, Exec.okOr_some, Exec.ok_bind]
  exact hsum

/-- The chunk of an index table is placed when its aligned end is below `2^64`. -/
theorem placeIndex_returns (halign : alignment.toNat.isPowerOfTwo) {cursor : UInt64}
    {table : Option (List UInt8)}
    (h : indexStop alignment.toNat cursor.toNat (table.map List.length) + alignment.toNat ≤ 2 ^ 64) :
    (placeIndex alignment cursor table).Returns fun q =>
      q.cursor.toNat = indexStop alignment.toNat cursor.toNat (table.map List.length) := by
  cases table with
  | none => exact ⟨_, rfl, rfl⟩
  | some table =>
    obtain ⟨k, hk⟩ := halign
    have hpos : 0 < alignment.toNat := hk ▸ Nat.two_pow_pos k
    have hle := le_alignTo hpos (cursor.toNat + (0x10 + table.length))
    have hend : alignTo alignment.toNat (cursor.toNat + (0x10 + table.length)) +
      alignment.toNat ≤ 2 ^ 64 := h
    unfold placeIndex
    refine (chunkSize_returns (by omega)).bind fun size hsize => ?_
    refine (checkedAdd_returns (by omega)).bind fun stop hstop => ?_
    refine (writerAlignUp_returns ⟨k, hk⟩ (by omega)).bind fun next hnext => ?_
    refine ⟨_, rfl, ?_⟩
    change next.toNat = alignTo alignment.toNat (cursor.toNat + (0x10 + table.length))
    rw [hnext, hstop, hsize]

/-- The payloads are placed when the aligned end of the last one is below `2^64`. -/
theorem exists_planOffsets (halign : alignment.toNat.isPowerOfTwo) {order : List ℕ}
    {p : OffsetPlan} (hfiles : ∀ i ∈ order, i < files.length)
    (hlen : p.offsets.length = files.length)
    (h : placeEnd alignment.toNat p.cursor.toNat
      ((inOrder files order).map fun f => f.size.toNat) + alignment.toNat ≤ 2 ^ 64) :
    ∃ q, planOffsets files alignment order p = .ok q := by
  obtain ⟨k, hk⟩ := halign
  have hpos : 0 < alignment.toNat := hk ▸ Nat.two_pow_pos k
  induction order generalizing p with
  | nil => exact ⟨p, rfl⟩
  | cons index indices ih =>
    have hindex := hfiles index (List.mem_cons_self ..)
    rw [inOrder_cons (List.getElem?_eq_getElem hindex), List.map_cons, placeEnd] at h
    have hle := le_alignTo hpos (p.cursor.toNat + files[index].size.toNat)
    have hend := le_placeEnd hpos (alignTo alignment.toNat (p.cursor.toNat + files[index].size.toNat))
      ((inOrder files indices).map fun f => f.size.toNat)
    obtain ⟨stop, hstop, hstopValue⟩ := checkedAdd_returns (a := p.cursor)
      (b := files[index].size.toUInt64) (by rw [UInt32.toNat_toUInt64]; omega)
    rw [UInt32.toNat_toUInt64] at hstopValue
    obtain ⟨next, hnext, hnextValue⟩ := writerAlignUp_returns ⟨k, hk⟩
      (show stop.toNat + alignment.toNat ≤ 2 ^ 64 by omega)
    rw [planOffsets, Exec.store_eq (by omega), Exec.ok_bind, Exec.index_eq hindex, Exec.ok_bind,
      hstop, Exec.ok_bind, hnext, Exec.ok_bind]
    refine ih (fun i hi => hfiles i (List.mem_cons_of_mem _ hi)) (by simpa using hlen) ?_
    rw [hnextValue, hstopValue]
    exact h

/-- Offsets from the index base on are made relative to it. -/
theorem relativeOffsets_returns {offsets : List UInt64} (h : ∀ o ∈ offsets, 0x800 ≤ o.toNat) :
    (relativeOffsets offsets).Returns fun rs => rs.length = offsets.length := by
  induction offsets with
  | nil => exact ⟨[], rfl, rfl⟩
  | cons offset offsets ih =>
    obtain ⟨hoffset, hoffsets⟩ := List.forall_mem_cons.mp h
    have hsub : offset.checkedSub engineIndexBase = some (offset - engineIndexBase) := if_pos hoffset
    unfold relativeOffsets
    refine (Exec.returns_okOr hsub _).bind fun first _ => (ih hoffsets).bind fun others hothers => ?_
    exact ⟨_, rfl, congrArg (· + 1) hothers⟩

/-- The table of contents is built, with the stated size, when it fits its header. -/
theorem tocIndex_returns (hcount : files.length < 2 ^ 32)
    (htoc : profile.indexMode.hasToc = true → tocSize files < 2 ^ 32 + 8) {offsets : List UInt64}
    (hlen : profile.indexMode.hasToc = true → offsets.length = files.length) :
    (tocIndex files profile offsets).Returns fun t =>
      t.map List.length = tocLength files profile := by
  unfold tocIndex tocLength
  split_ifs with hmode
  · have hsize := size_tocBuilder hcount (hlen hmode)
    obtain ⟨table, htable⟩ := (exists_build_iff (shaped_tocBuilder hcount offsets)).mpr (by
      rw [hsize]
      exact htoc hmode)
    refine ⟨some table, by rw [buildTocTable, htable]; rfl, ?_⟩
    exact congrArg some ((length_build htable).trans hsize)
  · exact ⟨none, rfl, rfl⟩

/-- The ID table is built, with the stated size, of entries whose IDs were checked. -/
theorem itocIndex_returns {order : List ℕ} (horder : buildPhysicalOrder files profile = .ok order) :
    (itocIndex files profile order).Returns fun t =>
      t.map List.length = itocLength files profile := by
  obtain ⟨hperm, -, hids⟩ := buildPhysicalOrder_spec horder
  have hfiles := inOrder_perm hperm
  unfold itocIndex itocLength
  split_ifs with hmode
  · obtain ⟨hsmall, hsorted⟩ := hids hmode
    rw [buildItocTable_eq files order (fun i hi => List.mem_range.mp (hperm.mem_iff.mp hi))
      (fun f hf => hsmall f (hfiles.mem_iff.mp hf))]
    have hcount : (inOrder files order).length ≤ 2 ^ 16 :=
      length_le_of_ids (fun f hf => hsmall f (hfiles.mem_iff.mp hf))
        (hsorted.imp fun h => UInt32.ne_of_lt h)
    have hsize : itocSize (inOrder files order) profile.directItoc =
        itocSize files profile.directItoc := by
      simp only [itocSize, hfiles.length_eq, hfiles.countP_eq]
    exact (itocTableOf_returns hcount profile.directItoc).bind fun table htable =>
      ⟨_, rfl, congrArg some (htable.trans hsize)⟩
  · exact ⟨none, rfl, rfl⟩

end Steps

/-! ## Planning an archive -/

section Planning

variable {files : List CpkInputFile} {options : CpkWriterOptions} {profile : CpkWriterProfile}

/-- The content of an archive that can be planned ends below `2^64`. -/
theorem Plannable.end_le (h : Plannable files options profile) {physical : List CpkInputFile}
    (hperm : physical.Perm files) {start : ℕ} (hstart : start ≤ 2 ^ 36) :
    placeEnd options.alignment.toNat start (physical.map fun f => f.size.toNat) +
      options.alignment.toNat ≤ 2 ^ 64 := by
  obtain ⟨k, hk⟩ := h.alignment
  have hpos : 0 < options.alignment.toNat := hk ▸ Nat.two_pow_pos k
  have halign := options.alignment.toNat_lt
  have hsizes : ∀ n ∈ physical.map fun f => f.size.toNat, n ≤ 2 ^ 32 := fun n hn => by
    obtain ⟨f, -, rfl⟩ := List.mem_map.mp hn
    exact f.size.toNat_lt.le
  have hend := placeEnd_le hpos start hsizes
  rw [List.length_map, hperm.length_eq] at hend
  have hcount : files.length * (2 ^ 32 + options.alignment.toNat) ≤ 2 ^ 27 * (2 ^ 32 + 2 ^ 16) :=
    Nat.mul_le_mul h.length_le (by omega)
  omega

/-- An alignment that is a power of two is accepted. -/
theorem validateAlignment_returns (h : options.alignment.toNat.isPowerOfTwo) :
    (validateAlignment options.alignment).Returns fun _ => True := by
  refine Exec.returns_errIf ?_ _
  rintro (hzero | hnot)
  · obtain ⟨k, hk⟩ := h
    have hpos : 0 < options.alignment.toNat := hk ▸ Nat.two_pow_pos k
    rw [hzero] at hpos
    exact absurd hpos (by decide)
  · exact hnot h

/-- The payloads are placed, none of them before the contents start. -/
theorem Plannable.planOffsets_returns (h : Plannable files options profile) {order : List ℕ}
    (hperm : order.Perm (List.range files.length)) {contentOffset : UInt64}
    (hstart : contentOffset.toNat ≤ 2 ^ 36) :
    (planOffsets files options.alignment.toUInt64 order
      ⟨List.replicate files.length 0, contentOffset⟩).Returns fun placed =>
        placed.offsets.length = files.length ∧ contentOffset.toNat ≤ placed.cursor.toNat ∧
          ∀ o ∈ placed.offsets, contentOffset.toNat ≤ o.toNat := by
  have hsame : options.alignment.toUInt64.toNat = options.alignment.toNat :=
    UInt16.toNat_toUInt64 _
  have hpow : options.alignment.toUInt64.toNat.isPowerOfTwo := hsame.symm ▸ h.alignment
  have hpos : 0 < options.alignment.toUInt64.toNat := by
    obtain ⟨k, hk⟩ := hpow
    exact hk ▸ Nat.two_pow_pos k
  have hindices : ∀ i ∈ order, i < files.length := fun i hi =>
    List.mem_range.mp (hperm.mem_iff.mp hi)
  have hend := h.end_le (inOrder_perm hperm) hstart
  obtain ⟨placed, hplaced⟩ := exists_planOffsets hpow
    (p := ⟨List.replicate files.length 0, contentOffset⟩) hindices (List.length_replicate ..)
    (by rw [hsame]; exact hend)
  obtain ⟨hlen, -, hplace, hcursor⟩ := (planOffsets_ends hpow
    (hperm.nodup_iff.mpr List.nodup_range) _ hindices (List.length_replicate ..)).of_ok hplaced
  refine ⟨placed, hplaced, hlen, hcursor ▸ le_placeEnd hpos _ _, fun o ho => ?_⟩
  have hoffsets : (inOrder placed.offsets order).Perm placed.offsets :=
    inOrder_perm (hlen.symm ▸ hperm)
  have hmem := List.mem_map_of_mem (f := UInt64.toNat) (hoffsets.mem_iff.mpr ho)
  rw [hplace] at hmem
  exact le_of_mem_place hpos _ _ _ hmem

/-- The offsets of the table of contents, one for each entry. -/
theorem tocOffsets_returns {offsets : List UInt64} (h : ∀ o ∈ offsets, 0x800 ≤ o.toNat) :
    (tocOffsets profile offsets).Returns fun rs =>
      profile.indexMode.hasToc = true → rs.length = offsets.length := by
  unfold tocOffsets
  split_ifs with hmode
  · obtain ⟨rs, hrs, hlen⟩ := relativeOffsets_returns h
    exact ⟨rs, hrs, fun _ => hlen⟩
  · exact ⟨[], rfl, fun hmode' => absurd hmode' hmode⟩

/-- The archive header is built, and its chunk ends before the marker. -/
theorem Plannable.buildHeaderTable_returns (h : Plannable files options profile)
    (n : HeaderNumbers) : (buildHeaderTable n profile).Returns fun table =>
      ¬copyrightMarkerOffset < (buildChunk .cpk table).length := by
  have hfits := h.header
  obtain ⟨table, htable⟩ : ∃ table, (headerBuilder n profile).build = .ok table := by
    refine (exists_build_iff (shaped_headerBuilder _)).mpr ?_
    rw [copyrightMarkerOffset] at hfits
    rw [size_headerBuilder]
    omega
  have hchunk : (buildChunk .cpk table).length = 0x10 + cpkHeaderSize profile := by
    rw [length_buildChunk (by simp), length_build htable, size_headerBuilder]
  exact ⟨table, htable, Nat.not_lt.mpr (hchunk ▸ hfits)⟩

/-- **A plannable input is planned.**

**Proof sketch.** Each step returns: the tables fit their headers, so that the contents start below
`2^36`; at most `2^27` payloads of less than `2^32` bytes follow, so that no sum reaches `2^64`. -/
theorem exists_planArchive (h : Plannable files options profile) :
    ∃ p, planArchive files options profile = .ok p := by
  have hcount : files.length < 2 ^ 32 := Nat.lt_of_le_of_lt h.length_le (by decide)
  obtain ⟨htocStop, hitocStop, hstart, hbase⟩ := h.contentStart_le
  have halign := options.alignment.toNat_lt
  have hsame : options.alignment.toUInt64.toNat = options.alignment.toNat :=
    UInt16.toNat_toUInt64 _
  have hindexBase : engineIndexBase.toNat = 0x800 := rfl
  have hpow : options.alignment.toUInt64.toNat.isPowerOfTwo := hsame.symm ▸ h.alignment
  suffices hreturns : (planArchive files options profile).Returns fun _ => True by
    obtain ⟨p, hp, -⟩ := hreturns
    exact ⟨p, hp⟩
  unfold planArchive
  refine (validateAlignment_returns h.alignment).bind fun _ _ => ?_
  refine (Exec.returns_errIf h.nonempty _).bind fun _ _ => ?_
  refine (Exec.returns_okOr (if_pos hcount) _).bind fun fileCount _ => ?_
  obtain ⟨order, horder⟩ := buildPhysicalOrder_eq_ok.mpr h.ids
  obtain ⟨hperm, -, -⟩ := buildPhysicalOrder_spec horder
  rw [horder, Exec.ok_bind]
  refine (tocIndex_returns hcount h.toc fun _ => List.length_replicate ..).bind
    fun tocProbe htocProbe => ?_
  refine (itocIndex_returns horder).bind fun itocProbe hitocProbe => ?_
  refine (placeIndex_returns hpow (by rw [htocProbe, hsame, hindexBase]; omega)).bind
    fun toc htoc => ?_
  rw [htocProbe, hsame, hindexBase] at htoc
  refine (placeIndex_returns hpow (by rw [hitocProbe, hsame, htoc]; omega)).bind
    fun itoc hitoc => ?_
  rw [hitocProbe, hsame, htoc] at hitoc
  refine (writerAlignUp_returns hpow (by rw [hsame, hitoc]; omega)).bind
    fun contentOffset hcontent => ?_
  replace hcontent : contentOffset.toNat = contentStart files options profile := by
    rw [hcontent, hsame, hitoc, contentStart]
  have haddress : ¬(profile.indexMode.hasItoc = true ∧ 2 ^ 32 ≤ contentOffset.toNat) := by
    rintro ⟨hmode, hlarge⟩
    have hlt := h.contents hmode
    omega
  refine (Exec.returns_errIf haddress _).bind fun _ _ => ?_
  refine (h.planOffsets_returns hperm (hcontent ▸ hstart)).bind fun placed hplaced => ?_
  obtain ⟨hlen, hcursor, hoffsets⟩ := hplaced
  refine (Exec.returns_okOr (if_pos hcursor) _).bind fun contentSize _ => ?_
  refine (tocOffsets_returns fun o ho => Nat.le_trans (hcontent ▸ hbase) (hoffsets o ho)).bind
    fun offsets hlenOffsets => ?_
  -- the tables have the lengths that were measured
  refine (tocIndex_returns hcount h.toc fun hmode => (hlenOffsets hmode).trans hlen).bind
    fun tocTable htocTable => ?_
  refine (itocIndex_returns horder).bind fun itocTable hitocTable => ?_
  refine (Exec.returns_errIf (by rw [htocProbe, htocTable, hitocProbe, hitocTable]; simp) _).bind
    fun _ _ => ?_
  refine (h.buildHeaderTable_returns _).bind fun headerTable hfits => ?_
  exact (Exec.returns_errIf hfits _).bind fun _ _ => ⟨_, rfl, trivial⟩

/-- What was planned was plannable.

**Proof sketch.** A plan satisfies `CpkPlan.Planned`. Its tables were built, so that their lengths
are the stated sizes, within the limits of `exists_build_iff`; hence its contents start at
`contentStart`, and the checks that it has passed are those of `Plannable`. -/
theorem plannable_of_planArchive {p : CpkPlan} (h : planArchive files options profile = .ok p) :
    Plannable files options profile := by
  have hplanned := (planArchive_ends files options profile).of_ok h
  have hcount : files.length < 2 ^ 32 := hplanned.fileCount ▸ p.fileCount.toNat_lt
  have hids := buildPhysicalOrder_eq_ok.mp ⟨_, hplanned.order⟩
  -- the lengths of the index tables
  have htocLength : p.tocTable.map List.length = tocLength files profile := by
    unfold tocLength
    split_ifs with hmode
    · obtain ⟨-, offsets, table, htable, hbuild, hoffsets⟩ := hplanned.toc hmode
      rw [htable, Option.map_some, length_build hbuild,
        size_tocBuilder hcount (hoffsets.length_eq ▸ hplanned.lengthOffsets)]
    · rw [(hplanned.noToc (Bool.eq_false_iff.mpr hmode)).2, Option.map_none]
  have hitocLength : p.itocTable.map List.length = itocLength files profile := by
    cases hmode : profile.indexMode.hasItoc with
    | true =>
      obtain ⟨-, -, table, htable, hbuild⟩ := hplanned.itoc hmode
      obtain ⟨t, ht, hlen⟩ := itocIndex_returns hplanned.order
      obtain ⟨table', rfl, hbuild'⟩ := ((itocIndex_ends hplanned.order).of_ok ht).1 hmode
      rw [htable, Exec.ok.inj (hbuild.symm.trans hbuild')]
      exact hlen
    | false => rw [(hplanned.noItoc hmode).2, itocLength, hmode, if_neg Bool.false_ne_true, Option.map_none]
  refine
    { alignment := hplanned.alignment, nonempty := hplanned.nonempty, ids := hids
      toc := fun hmode => ?_, contents := fun hmode => ?_, header := ?_ }
  · obtain ⟨-, offsets, table, -, hbuild, hoffsets⟩ := hplanned.toc hmode
    rw [← size_tocBuilder hcount (hoffsets.length_eq ▸ hplanned.lengthOffsets)]
    exact (exists_build_iff (shaped_tocBuilder hcount offsets)).mp ⟨table, hbuild⟩
  · have hcontent : p.contentOffset.toNat = contentStart files options profile := by
      rw [hplanned.contentOffset, indexEnd_eq, indexEnd_eq, htocLength, hitocLength, contentStart]
    exact hcontent ▸ (hplanned.itoc hmode).2.1
  · have hfits := hplanned.headerFits
    rw [length_build hplanned.header, size_headerBuilder] at hfits
    omega

/-- **When an archive is planned**: exactly when its input is plannable. -/
theorem exists_planArchive_iff :
    (∃ p, planArchive files options profile = .ok p) ↔ Plannable files options profile :=
  ⟨fun ⟨_, h⟩ => plannable_of_planArchive h, exists_planArchive⟩

end Planning

/-! ## Entries whose payload can be read -/

section Readable

variable {fs : FileSystem} {path : P5RPath} {p5rEncryption : Bool} {file : CpkInputFile}

/-- An entry whose payload can be read with the size it states: the source file has this size; or the
archive that the packed payload is taken from has all bytes of it, at an offset the host can seek to,
and states this size too. -/
def Readable (fs : FileSystem) (file : CpkInputFile) : Prop :=
  match file.rawPayload with
  | none => ∃ content, fs file.sourcePath = some content ∧ content.length = file.size.toNat
  | some raw => raw.size = file.size ∧ raw.absoluteOffset.toNat < 2 ^ 63 ∧
      ∃ content, fs raw.archivePath = some content ∧
        (file.size = 0 ∨ raw.absoluteOffset.toNat + file.size.toNat ≤ content.length)

/-- **A payload is put out as a whole** iff its entry is readable, whether it is encrypted or not.

**Proof sketch.** By the kind of the entry. A raw payload is the window of its archive, which is as
long as stated iff the archive holds all bytes of it or there are none. A file is read as a whole,
and the transform keeps its length. -/
theorem emittable_iff_readable :
    emittable fs path p5rEncryption file = true ↔ Readable fs file := by
  have hemittable : emittable fs path p5rEncryption file = true ↔
      ∃ bytes, sourcePayload fs path p5rEncryption file = .ok bytes ∧
        bytes.length = file.size.toNat := by
    unfold emittable
    cases sourcePayload fs path p5rEncryption file <;> simp
  rw [hemittable, Readable]
  cases hraw : file.rawPayload with
  | some raw =>
    simp only [sourcePayload_raw hraw]
    constructor
    · rintro ⟨_, ⟨hsize, hseek, content, hcontent, hlen, rfl⟩, -⟩
      refine ⟨hsize, hseek, content, hcontent, ?_⟩
      rw [window, List.length_take, List.length_drop] at hlen
      rw [← UInt32.toNat_inj, UInt32.toNat_zero]
      omega
    · rintro ⟨hsize, hseek, content, hcontent, hfits⟩
      have hlen : (window content raw.absoluteOffset.toNat file.size.toNat).length =
          file.size.toNat := by
        rw [← UInt32.toNat_inj, UInt32.toNat_zero] at hfits
        rw [window, List.length_take, List.length_drop]
        omega
      exact ⟨_, ⟨hsize, hseek, content, hcontent, hlen, rfl⟩, hlen⟩
  | none =>
    unfold sourcePayload readFile
    simp only [hraw]
    split_ifs
    · simp only [P5R.decryptInPlace_eq, Exec.bind_eq_ok, Exec.okOr_eq_ok, Exec.ok.injEq]
      constructor
      · rintro ⟨_, ⟨content, hcontent, rfl⟩, hlen⟩
        exact ⟨content, hcontent, P5R.length_transform content ▸ hlen⟩
      · rintro ⟨content, hcontent, hlen⟩
        exact ⟨_, ⟨content, hcontent, rfl⟩, (P5R.length_transform content).trans hlen⟩
    · simp only [Exec.okOr_eq_ok]

end Readable

end CriArchive
