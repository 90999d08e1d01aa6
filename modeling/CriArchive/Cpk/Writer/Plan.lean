import CriArchive.Cpk.Codec
import CriArchive.Cpk.Writer.Tables
import CriArchive.Lib.Layout

set_option relaxedAutoImplicit false
set_option autoImplicit false

/-!
# The plan of a new archive

The first half of `write_with_profile` in `cpk/writer.rs`: everything is computed before the
first byte is put out. Tables are built twice, with zero offsets to learn their lengths and again
with the offsets of the payloads.

## Main definitions

* `writerAlignUp`, `chunkSize`, `buildChunk` — alignment by a mask; table chunks.
* `CpkPlan`, `planArchive` — the tables and the offsets of an archive.
* `CpkPlan.Planned` — what a plan satisfies, on natural numbers.

## Main results

* `writerAlignUp_eq_ok` — alignment by a mask is `alignTo`.
* `planOffsets_eq_ok` — payloads are placed one after another, in physical order.
* `planArchive_ends` — planning returns such a plan or fails with an error that is not an
  internal one.
-/

namespace CriArchive

open Endian

/-- `ENGINE_INDEX_BASE`: the indices start here, and offsets in a table of contents are relative
to it. -/
def engineIndexBase : UInt64 := 0x800

/-- `COPYRIGHT_MARKER_OFFSET`: the marker fills the six bytes before the indices. -/
def copyrightMarkerOffset : ℕ := 0x7fa

/-- `validate_alignment`. -/
def validateAlignment (alignment : UInt16) : Exec Error Unit :=
  Exec.errIf (alignment = 0 ∨ ¬alignment.toNat.isPowerOfTwo)
    (.writer (.invalidAlignment alignment.toUInt32))

/-- `align_up` of `cpk/writer.rs`, by a mask. -/
def writerAlignUp (value alignment : UInt64) : Exec Error UInt64 := do
  let mask ← Exec.orFault (alignment.checkedSub 1)
  let rounded ← Exec.okOr (value.checkedAdd mask) arithmeticOverflow
  pure (rounded &&& ~~~mask)

/-- `chunk_size`. -/
def chunkSize (table : List UInt8) : Exec Error UInt64 := do
  let length ← Exec.okOr (UInt64.tryFrom table.length) arithmeticOverflow
  Exec.okOr ((0x10 : UInt64).checkedAdd length) arithmeticOverflow

/-- `build_chunk`. -/
def buildChunk (kind : CpkChunkKind) (table : List UInt8) : List UInt8 :=
  -- the nonzero bytes after the magic number say that the table is stored in plaintext
  kind.magic ++ (List.replicate 4 0xff ++ (toLeBytesU64 (UInt64.ofNat table.length) ++ table))

/-! ## Computing a plan -/

/-- Where an index lies, and where the next part starts. -/
structure IndexPlace where
  offset : UInt64
  cursor : UInt64
  deriving DecidableEq, Repr

/-- Place the chunk of an index table, if there is one, at the cursor. -/
def placeIndex (alignment cursor : UInt64) : Option (List UInt8) → Exec Error IndexPlace
  | none => pure ⟨0, cursor⟩
  | some table => do
    let size ← chunkSize table
    let stop ← Exec.okOr (cursor.checkedAdd size) arithmeticOverflow
    let next ← writerAlignUp stop alignment
    pure ⟨cursor, next⟩

/-- The offsets of payloads, by the index of their entry, and the end of the last one so far. -/
structure OffsetPlan where
  offsets : List UInt64
  cursor : UInt64
  deriving DecidableEq, Repr

/-- Place the payloads of entries one after another. -/
def planOffsets (files : List CpkInputFile) (alignment : UInt64) :
    List ℕ → OffsetPlan → Exec Error OffsetPlan
  | [], p => pure p
  | index :: indices, p => do
    let offsets ← Exec.store p.offsets index p.cursor
    let file ← Exec.index files index
    let stop ← Exec.okOr (p.cursor.checkedAdd file.size.toUInt64) arithmeticOverflow
    let next ← writerAlignUp stop alignment
    planOffsets files alignment indices ⟨offsets, next⟩

/-- Offsets relative to the index base. -/
def relativeOffsets : List UInt64 → Exec Error (List UInt64)
  | [] => pure []
  | offset :: offsets => do
    let first ← Exec.okOr (offset.checkedSub engineIndexBase) arithmeticOverflow
    let others ← relativeOffsets offsets
    pure (first :: others)

section Indices

variable (files : List CpkInputFile) (profile : CpkWriterProfile)

/-- The table of contents with given absolute offsets, when the archive has one. -/
def tocIndex (offsets : List UInt64) : Exec Error (Option (List UInt8)) :=
  if profile.indexMode.hasToc = true then do
    let table ← buildTocTable files offsets
    pure (some table)
  else pure none

/-- The offsets of the table of contents, when the archive has one. -/
def tocOffsets (absoluteOffsets : List UInt64) : Exec Error (List UInt64) :=
  if profile.indexMode.hasToc = true then relativeOffsets absoluteOffsets else pure []

/-- The ID table, when the archive has one. -/
def itocIndex (physicalOrder : List ℕ) : Exec Error (Option (List UInt8)) :=
  if profile.indexMode.hasItoc = true then do
    let table ← buildItocTable files physicalOrder profile.directItoc
    pure (some table)
  else pure none

end Indices

/-- The length of the chunk of a table, zero when there is none. -/
def chunkLength (kind : CpkChunkKind) (table : Option (List UInt8)) : UInt64 :=
  (table.map fun table => UInt64.ofNat (buildChunk kind table).length).getD 0

/-- Everything that is known before the first byte is put out. -/
structure CpkPlan where
  fileCount : UInt32
  physicalOrder : List ℕ
  tocTable : Option (List UInt8)
  itocTable : Option (List UInt8)
  headerTable : List UInt8
  tocOffset : UInt64
  itocOffset : UInt64
  contentOffset : UInt64
  absoluteOffsets : List UInt64
  archiveSize : UInt64
  deriving DecidableEq, Repr

/-- The index tables of a plan with the archive header. -/
def CpkPlan.tables (p : CpkPlan) : List (List UInt8) :=
  p.headerTable :: (p.tocTable.toList ++ p.itocTable.toList)

/-- The first half of `write_with_profile`: everything before the first byte is put out. -/
def planArchive (files : List CpkInputFile) (options : CpkWriterOptions)
    (profile : CpkWriterProfile) : Exec Error CpkPlan := do
  validateAlignment options.alignment
  Exec.errIf (files = []) (.writer .emptyInput)
  let fileCount ← Exec.okOr (UInt32.tryFrom files.length) (.writer (.tooManyFiles files.length))
  let physicalOrder ← buildPhysicalOrder files profile
  let tocProbe ← tocIndex files profile (List.replicate files.length 0)
  let itocProbe ← itocIndex files profile physicalOrder
  let toc ← placeIndex options.alignment.toUInt64 engineIndexBase tocProbe
  let itoc ← placeIndex options.alignment.toUInt64 toc.cursor itocProbe
  let contentOffset ← writerAlignUp itoc.cursor options.alignment.toUInt64
  Exec.errIf (profile.indexMode.hasItoc = true ∧ 2 ^ 32 ≤ contentOffset.toNat)
    (.writer (.itocContentOffsetTooLarge contentOffset))
  let placed ← planOffsets files options.alignment.toUInt64 physicalOrder
    ⟨List.replicate files.length 0, contentOffset⟩
  let contentSize ← Exec.okOr (placed.cursor.checkedSub contentOffset) arithmeticOverflow
  let offsets ← tocOffsets profile placed.offsets
  let tocTable ← tocIndex files profile offsets
  let itocTable ← itocIndex files profile physicalOrder
  Exec.errIf (tocProbe.map List.length ≠ tocTable.map List.length ∨
      itocProbe.map List.length ≠ itocTable.map List.length)
    (.inconsistent .probeLength .arithmeticOverflow)
  let headerTable ← buildHeaderTable
    { archiveSize := placed.cursor, contentOffset, contentSize, tocOffset := toc.offset
      tocSize := chunkLength .toc tocTable, itocOffset := itoc.offset
      itocSize := chunkLength .itoc itocTable, alignment := options.alignment, fileCount } profile
  Exec.errIf (copyrightMarkerOffset < (buildChunk .cpk headerTable).length)
    (.writer (.headerTooLarge (buildChunk .cpk headerTable).length))
  pure
    { fileCount, physicalOrder, tocTable, itocTable, headerTable, tocOffset := toc.offset
      itocOffset := itoc.offset, contentOffset, absoluteOffsets := placed.offsets
      archiveSize := placed.cursor }

/-! ## What a plan satisfies -/

/-- An error that no internal check of the writer returns. -/
def External (e : Error) : Prop := ∀ check w, e ≠ .inconsistent check w

/-- A writer error that the crate declares is no internal one. -/
theorem external_writer (w : CpkWriterError) : External (.writer w) := by
  intro check w h
  cases h

/-- An overflow is no internal error. -/
theorem external_of_overflows {e : Error} (h : UtfTableBuilder.Overflows e) : External e := by
  subst h
  exact external_writer _

/-- The aligned end of the chunk of an index table placed at a position. -/
def indexEnd (a cursor : ℕ) : Option (List UInt8) → ℕ
  | none => cursor
  | some table => alignTo a (cursor + (0x10 + table.length))

/-- The numbers of the archive header of a plan. -/
def CpkPlan.headerNumbers (p : CpkPlan) (options : CpkWriterOptions) : HeaderNumbers where
  archiveSize := p.archiveSize
  contentOffset := p.contentOffset
  contentSize := p.archiveSize - p.contentOffset
  tocOffset := p.tocOffset
  tocSize := chunkLength .toc p.tocTable
  itocOffset := p.itocOffset
  itocSize := chunkLength .itoc p.itocTable
  alignment := options.alignment
  fileCount := p.fileCount

section Planned

variable (files : List CpkInputFile) (options : CpkWriterOptions) (profile : CpkWriterProfile)

/-- What a plan satisfies: its tables are those of the entries, the indices follow one another
from `0x800` on, and the payloads are placed after them in physical order. -/
structure CpkPlan.Planned (p : CpkPlan) : Prop where
  alignment : options.alignment.toNat.isPowerOfTwo
  nonempty : files ≠ []
  fileCount : p.fileCount.toNat = files.length
  order : buildPhysicalOrder files profile = .ok p.physicalOrder
  toc : profile.indexMode.hasToc = true → p.tocOffset = 0x800 ∧ ∃ offsets table,
    p.tocTable = some table ∧ buildTocTable files offsets = .ok table ∧
    List.Forall₂ (fun o r => UInt64.toNat o = 0x800 + UInt64.toNat r) p.absoluteOffsets offsets
  noToc : profile.indexMode.hasToc = false → p.tocOffset = 0 ∧ p.tocTable = none
  itoc : profile.indexMode.hasItoc = true →
    p.itocOffset.toNat = indexEnd options.alignment.toNat 0x800 p.tocTable ∧
    p.contentOffset.toNat < 2 ^ 32 ∧ ∃ table, p.itocTable = some table ∧
    itocTableOf (inOrder files p.physicalOrder) profile.directItoc = .ok table
  noItoc : profile.indexMode.hasItoc = false → p.itocOffset = 0 ∧ p.itocTable = none
  contentOffset : p.contentOffset.toNat = alignTo options.alignment.toNat
    (indexEnd options.alignment.toNat (indexEnd options.alignment.toNat 0x800 p.tocTable)
      p.itocTable)
  lengthOffsets : p.absoluteOffsets.length = files.length
  placed : (inOrder p.absoluteOffsets p.physicalOrder).map UInt64.toNat =
    place options.alignment.toNat p.contentOffset.toNat
      ((inOrder files p.physicalOrder).map fun f => f.size.toNat)
  archiveSize : p.archiveSize.toNat = placeEnd options.alignment.toNat p.contentOffset.toNat
    ((inOrder files p.physicalOrder).map fun f => f.size.toNat)
  header : buildHeaderTable (p.headerNumbers options) profile = .ok p.headerTable
  headerFits : p.headerTable.length + 0x10 ≤ copyrightMarkerOffset

end Planned

/-! ## Each step of planning -/

section Steps

variable {files : List CpkInputFile} {profile : CpkWriterProfile} {alignment : UInt64}

/-- A check that returns a public error of the writer. -/
private theorem public_ends (c : Prop) [Decidable c] (w : CpkWriterError) :
    (Exec.errIf c (Error.writer w)).Ends (fun _ => ¬c) External :=
  Exec.ends_errIf fun _ => external_writer w

/-- A checked operation that overflows. -/
private theorem overflow_ends {α : Type} (x : Option α) :
    (Exec.okOr x arithmeticOverflow).Ends (x = some ·) External :=
  Exec.ends_okOr (external_writer _)

/-- A chunk takes `0x10` bytes and its table. -/
theorem length_buildChunk {kind : CpkChunkKind} (hkind : ∀ m, kind ≠ .unknown m)
    (table : List UInt8) : (buildChunk kind table).length = 0x10 + table.length := by
  have hmagic : kind.magic.length = 4 := by
    cases kind with
    | unknown m => exact absurd rfl (hkind m)
    | _ => rfl
  simp only [buildChunk, List.length_append, hmagic, List.length_replicate, length_toLeBytesU64]
  omega

/-- **Rounding up by a mask** is rounding up, unless it overflows. -/
theorem writerAlignUp_ends (halign : alignment.toNat.isPowerOfTwo) (value : UInt64) :
    (writerAlignUp value alignment).Ends
      (fun w => w.toNat = alignTo alignment.toNat value.toNat) External := by
  obtain ⟨k, hk⟩ := halign
  have hpos : 0 < 2 ^ k := Nat.two_pow_pos k
  have hk64 : k ≤ 64 := by
    by_contra hlt
    have hbig := Nat.pow_le_pow_right (show 0 < 2 by decide) (Nat.le_of_not_le hlt)
    have := alignment.toNat_lt
    omega
  have hsub : alignment.checkedSub 1 = some (alignment - 1) := by
    rw [UInt64.checkedSub, if_pos (by rw [hk]; exact hpos)]
  have hmask : (alignment - 1).toNat = 2 ^ k - 1 := by
    rw [(UInt64.checkedSub_eq_some.mp hsub).2, hk]
    rfl
  unfold writerAlignUp
  rw [hsub, Exec.orFault_some, Exec.ok_bind]
  refine (overflow_ends _).bind fun rounded hrounded => ?_
  change (rounded &&& ~~~(alignment - 1)).toNat = _
  rw [UInt64.and_not_mask_toNat hk64 hmask, UInt64.checkedAdd_eq_some.mp hrounded, hmask, hk]
  rfl

/-- The size of a chunk, when it fits 64 bits. -/
theorem chunkSize_ends (table : List UInt8) :
    (chunkSize table).Ends (fun n => n.toNat = 0x10 + table.length) External := by
  unfold chunkSize
  refine (overflow_ends _).bind fun length hlength => ?_
  refine (overflow_ends _).mono fun size hsize => ?_
  rw [UInt64.checkedAdd_eq_some.mp hsize, UInt64.tryFrom_eq_some.mp hlength]
  rfl

/-- Placing a table of an index moves the cursor to its aligned end. -/
theorem placeIndex_ends (halign : alignment.toNat.isPowerOfTwo) (cursor : UInt64)
    (table : Option (List UInt8)) :
    (placeIndex alignment cursor table).Ends (fun q =>
      q.offset = (if table = none then 0 else cursor) ∧
      q.cursor.toNat = indexEnd alignment.toNat cursor.toNat table) External := by
  cases table with
  | none => exact ⟨rfl, rfl⟩
  | some table =>
    unfold placeIndex
    refine (chunkSize_ends table).bind fun size hsize => ?_
    refine (overflow_ends _).bind fun stop hstop => ?_
    refine (writerAlignUp_ends halign stop).bind fun next hnext => ?_
    refine ⟨rfl, ?_⟩
    simp only [indexEnd]
    rw [hnext, UInt64.checkedAdd_eq_some.mp hstop, hsize]

/-- **The payloads are placed** one after another in the given order; the offsets of other
entries are unchanged.

**Proof sketch.** By induction on the order, over every list of offsets that has been filled so far.
A round stores the cursor at the entry's index, where no later round writes because the order has no
duplicates, and then moves the cursor as `place` does. -/
theorem planOffsets_ends (halign : alignment.toNat.isPowerOfTwo) {order : List ℕ}
    (hnodup : order.Nodup) (p : OffsetPlan) (hfiles : ∀ i ∈ order, i < files.length)
    (hlen : p.offsets.length = files.length) :
    (planOffsets files alignment order p).Ends (fun q =>
      q.offsets.length = files.length ∧ (∀ i, i ∉ order → q.offsets[i]? = p.offsets[i]?) ∧
      (inOrder q.offsets order).map UInt64.toNat =
        place alignment.toNat p.cursor.toNat ((inOrder files order).map fun f => f.size.toNat) ∧
      q.cursor.toNat = placeEnd alignment.toNat p.cursor.toNat
        ((inOrder files order).map fun f => f.size.toNat)) External := by
  induction order generalizing p with
  | nil => exact ⟨hlen, fun _ _ => rfl, rfl, rfl⟩
  | cons index indices ih =>
    obtain ⟨hnew, hnodup⟩ := List.nodup_cons.mp hnodup
    have hindex := hfiles index (List.mem_cons_self ..)
    unfold planOffsets
    rw [Exec.store_eq (by omega), Exec.ok_bind, Exec.index_eq hindex, Exec.ok_bind]
    refine (overflow_ends _).bind fun stop hstop => ?_
    refine (writerAlignUp_ends halign stop).bind fun next hnext => ?_
    have hnext' : next.toNat = alignTo alignment.toNat (p.cursor.toNat + files[index].size.toNat) := by
      rw [hnext, UInt64.checkedAdd_eq_some.mp hstop, UInt32.toNat_toUInt64]
    refine (ih hnodup ⟨_, next⟩ (fun i hi => hfiles i (List.mem_cons_of_mem _ hi))
      (by simpa using hlen)).mono ?_
    rintro q ⟨hqlen, hsame, hplaced, hcursor⟩
    have hhere : q.offsets[index]? = some p.cursor := by
      rw [hsame index hnew]
      simp [hlen, hindex]
    rw [inOrder_cons (List.getElem?_eq_getElem hindex), inOrder_cons hhere]
    refine ⟨hqlen, fun i hi => ?_, ?_, ?_⟩
    · simp only [List.mem_cons, not_or] at hi
      rw [hsame i hi.2]
      exact List.getElem?_set_ne (Ne.symm hi.1)
    · simp only [List.map_cons, place, hplaced, hnext']
    · simp only [List.map_cons, placeEnd, hcursor, hnext']

/-- Offsets relative to `0x800` are the distances from it. -/
theorem relativeOffsets_ends (offsets : List UInt64) :
    (relativeOffsets offsets).Ends (List.Forall₂
      (fun o r => UInt64.toNat o = 0x800 + UInt64.toNat r) offsets) External := by
  induction offsets with
  | nil => exact .nil
  | cons offset offsets ih =>
    refine (overflow_ends _).bind fun first hfirst => ?_
    refine ih.bind fun others hothers => ?_
    obtain ⟨hle, hval⟩ := UInt64.checkedSub_eq_some.mp hfirst
    refine .cons ?_ hothers
    rw [hval]
    exact (Nat.add_sub_of_le hle).symm

/-- There is a TOC iff the index mode has one, built from the offsets. -/
theorem tocIndex_ends (offsets : List UInt64) :
    (tocIndex files profile offsets).Ends (fun t =>
      (profile.indexMode.hasToc = true →
        ∃ table, t = some table ∧ buildTocTable files offsets = .ok table) ∧
      (profile.indexMode.hasToc = false → t = none)) External := by
  unfold tocIndex
  split_ifs with htoc
  · refine ((UtfTableBuilder.build_ends _).mono_err fun _ => external_of_overflows).bind
      fun table htable => ?_
    exact ⟨fun _ => ⟨table, rfl, htable⟩, fun h => by simp [htoc] at h⟩
  · exact ⟨fun h => absurd h htoc, fun _ => rfl⟩

/-- The ID table of entries with 16-bit IDs. -/
theorem itocTableOf_ends (physical : List CpkInputFile) (direct : Bool) :
    (itocTableOf physical direct).Ends (fun table => itocTableOf physical direct = .ok table)
      External := by
  have hends : (itocTableOf physical direct).Ends (fun _ => True) External := by
    have hbuild : ∀ b : UtfTableBuilder, b.build.Ends (fun _ => True) External := fun b =>
      ((UtfTableBuilder.build_ends b).mono fun _ _ => trivial).mono_err
        fun _ => external_of_overflows
    unfold itocTableOf
    split_ifs
    · exact hbuild _
    · exact (hbuild _).bind fun low _ => (hbuild _).bind fun high _ => hbuild _
  exact hends.with_ok.mono fun _ h => h.1

/-- The ID table of entries whose IDs were checked is built without an internal error. -/
theorem itocIndex_ends {order : List ℕ} (horder : buildPhysicalOrder files profile = .ok order) :
    (itocIndex files profile order).Ends (fun t =>
      (profile.indexMode.hasItoc = true → ∃ table, t = some table ∧
        itocTableOf (inOrder files order) profile.directItoc = .ok table) ∧
      (profile.indexMode.hasItoc = false → t = none)) External := by
  obtain ⟨hperm, -, hids⟩ := buildPhysicalOrder_spec horder
  unfold itocIndex
  split_ifs with hitoc
  · have htable := buildItocTable_eq files order
      (fun i hi => List.mem_range.mp (hperm.mem_iff.mp hi))
      (fun f hf => (hids hitoc).1 f ((inOrder_perm hperm).mem_iff.mp hf)) profile.directItoc
    rw [htable]
    refine (itocTableOf_ends _ _).bind fun table h => ?_
    exact ⟨fun _ => ⟨table, rfl, h⟩, fun h => by simp [hitoc] at h⟩
  · exact ⟨fun h => absurd h hitoc, fun _ => rfl⟩

/-- The physical order is returned, or an error of the crate is. -/
theorem buildPhysicalOrder_ends :
    (buildPhysicalOrder files profile).Ends
      (fun order => buildPhysicalOrder files profile = .ok order) External := by
  have hcheck : ∀ (fs : List CpkInputFile) (used : List UInt32),
      (checkIds used fs).Ends (fun _ => True) External := by
    intro fs
    induction fs with
    | nil => exact fun _ => trivial
    | cons f fs ih =>
      intro used
      refine (public_ends _ _).bind fun _ _ => ?_
      exact (public_ends _ _).bind fun _ _ => ih _
  have hends : (buildPhysicalOrder files profile).Ends (fun _ => True) External := by
    unfold buildPhysicalOrder
    split_ifs
    · exact (hcheck _ _).bind fun _ _ => trivial
    · trivial
  exact hends.with_ok.mono fun _ h => h.1

/-- Where an index table ends depends on its length only. -/
theorem indexEnd_congr {t t' : Option (List UInt8)} (h : t.map List.length = t'.map List.length)
    (a cursor : ℕ) : indexEnd a cursor t = indexEnd a cursor t' := by
  cases t <;> cases t' <;> simp_all [indexEnd]

/-- A table of contents is the same size as its probe. -/
theorem length_tocProbe {probe table : Option (List UInt8)} {offsets offsets' : List UInt64}
    (hprobe : (profile.indexMode.hasToc = true →
        ∃ t, probe = some t ∧ buildTocTable files offsets = .ok t) ∧
      (profile.indexMode.hasToc = false → probe = none))
    (htable : (profile.indexMode.hasToc = true →
        ∃ t, table = some t ∧ buildTocTable files offsets' = .ok t) ∧
      (profile.indexMode.hasToc = false → table = none))
    (hlen : profile.indexMode.hasToc = true → offsets.length = offsets'.length) :
    probe.map List.length = table.map List.length := by
  cases htoc : profile.indexMode.hasToc with
  | true =>
    obtain ⟨t, rfl, ht⟩ := hprobe.1 htoc
    obtain ⟨t', rfl, ht'⟩ := htable.1 htoc
    simp [length_buildTocTable ht ht' (hlen htoc)]
  | false => rw [hprobe.2 htoc, htable.2 htoc]

/-- With a TOC, its offsets are the distances from `0x800`. -/
theorem tocOffsets_ends (offsets : List UInt64) :
    (tocOffsets profile offsets).Ends (fun rs => profile.indexMode.hasToc = true →
      List.Forall₂ (fun o r => UInt64.toNat o = 0x800 + UInt64.toNat r) offsets rs) External := by
  unfold tocOffsets
  split_ifs with htoc
  · exact (relativeOffsets_ends offsets).mono fun rs h _ => h
  · exact fun h => absurd h htoc

end Steps

/-- **Planning an archive** returns a plan that satisfies `CpkPlan.Planned`, or an error that no
internal check returns; it does not fault.

**Proof sketch.** Step by step, with what each function ensures when it returns. The internal check
on the probes passes: the ID table is built twice from the same order, and the length of a TOC does
not depend on its offsets (`length_tocProbe`). -/
theorem planArchive_ends (files : List CpkInputFile) (options : CpkWriterOptions)
    (profile : CpkWriterProfile) :
    (planArchive files options profile).Ends (CpkPlan.Planned files options profile) External := by
  unfold planArchive validateAlignment
  refine (public_ends _ _).bind fun _ halign => ?_
  rw [not_or, not_not] at halign
  have hpow : options.alignment.toUInt64.toNat.isPowerOfTwo := by
    rw [UInt16.toNat_toUInt64]
    exact halign.2
  refine (public_ends _ _).bind fun _ hnonempty => ?_
  refine (Exec.ends_okOr (external_writer _)).bind fun fileCount hcount => ?_
  refine buildPhysicalOrder_ends.bind fun order horder => ?_
  refine (tocIndex_ends _).bind fun tocProbe htocProbe => ?_
  refine (itocIndex_ends horder).bind fun itocProbe hitocProbe => ?_
  refine (placeIndex_ends hpow _ _).bind fun toc htocPlace => ?_
  refine (placeIndex_ends hpow _ _).bind fun itoc hitocPlace => ?_
  refine (writerAlignUp_ends hpow _).bind fun contentOffset hcontent => ?_
  refine (public_ends _ _).bind fun _ haddress => ?_
  obtain ⟨hperm, -, -⟩ := buildPhysicalOrder_spec horder
  refine (planOffsets_ends hpow (hperm.nodup_iff.mpr List.nodup_range) _
    (fun i hi => List.mem_range.mp (hperm.mem_iff.mp hi)) (List.length_replicate ..)).bind
    fun placed hplaced => ?_
  obtain ⟨hlenOffsets, -, hplace, hend⟩ := hplaced
  refine (overflow_ends _).bind fun contentSize hsize => ?_
  refine (tocOffsets_ends _).bind fun offsets hoffsets => ?_
  refine (tocIndex_ends _).bind fun tocTable htocTable => ?_
  refine (itocIndex_ends horder).bind fun itocTable hitocTable => ?_
  -- the probes have the lengths of the tables
  have htocLen : tocProbe.map List.length = tocTable.map List.length :=
    length_tocProbe htocProbe htocTable fun htoc => by
      rw [List.length_replicate, ← (hoffsets htoc).length_eq, hlenOffsets]
  have hitocEq : itocProbe = itocTable := by
    cases hitoc : profile.indexMode.hasItoc with
    | true =>
      obtain ⟨t, rfl, ht⟩ := hitocProbe.1 hitoc
      obtain ⟨t', rfl, ht'⟩ := hitocTable.1 hitoc
      rw [Exec.ok.inj (ht.symm.trans ht')]
    | false => rw [hitocProbe.2 hitoc, hitocTable.2 hitoc]
  rw [Exec.errIf_of_not (by rw [hitocEq]; simp [htocLen]), Exec.ok_bind]
  refine ((UtfTableBuilder.build_ends _).mono_err fun _ => external_of_overflows).bind
    fun headerTable hheader => ?_
  refine (public_ends _ _).bind fun _ hfits => ?_
  subst hitocEq
  rw [UInt16.toNat_toUInt64] at hplace hend hcontent htocPlace hitocPlace
  rw [indexEnd_congr htocLen] at htocPlace
  rw [htocPlace.2] at hitocPlace
  rw [length_buildChunk (by simp)] at hfits
  refine
    { alignment := halign.2, nonempty := hnonempty
      fileCount := UInt32.tryFrom_eq_some.mp hcount, order := horder
      toc := fun htoc => ?_, noToc := fun htoc => ?_, itoc := fun hitoc => ?_
      noItoc := fun hitoc => ?_, contentOffset := by rw [hcontent, hitocPlace.2]; rfl
      lengthOffsets := hlenOffsets, placed := hplace, archiveSize := hend, header := ?_
      headerFits := (by omega : headerTable.length + 0x10 ≤ copyrightMarkerOffset) }
  · obtain ⟨table, rfl, htable⟩ := htocTable.1 htoc
    obtain ⟨probe, rfl, -⟩ := htocProbe.1 htoc
    exact ⟨htocPlace.1, offsets, table, rfl, htable, hoffsets htoc⟩
  · rw [htocProbe.2 htoc, if_pos rfl] at htocPlace
    exact ⟨htocPlace.1, htocTable.2 htoc⟩
  · obtain ⟨table, rfl, htable⟩ := hitocTable.1 hitoc
    rw [if_neg (by simp)] at hitocPlace
    refine ⟨?_, Nat.lt_of_not_le fun h => haddress ⟨hitoc, h⟩, table, rfl, htable⟩
    rw [hitocPlace.1, htocPlace.2]
    rfl
  · rw [hitocTable.2 hitoc, if_pos rfl] at hitocPlace
    exact ⟨hitocPlace.1, hitocTable.2 hitoc⟩
  · have hcontentSize : contentSize = placed.cursor - contentOffset := by
      rw [UInt64.checkedSub] at hsize
      split_ifs at hsize
      exact (Option.some.inj hsize).symm
    rw [← hheader, CpkPlan.headerNumbers, hcontentSize]
    rfl

end CriArchive
