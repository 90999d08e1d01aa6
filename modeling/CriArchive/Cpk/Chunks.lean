import CriArchive.Cpk.RoundTrip.Source

set_option relaxedAutoImplicit false
set_option autoImplicit false

/-!
# Entries as a function of the chunks

What `get_files` returns depends on its reader only through the table chunks at the offsets that
the reader looks at. Here a chunk is a function of the bytes of the stream and of its position, and
the entries are a function of the chunks.

## Main definitions

* `tableSize`, `storedTable`, `plainTable`, `chunkAt` — the chunk at a position of a stream.
* `metadataOf`, `entriesOf` — the metadata and the entries, as functions of the chunks.
* `CpkReader.chunk` — the chunk at an offset of an archive.

## Main results

* `TableContainer.new_fst_eq_ok` — reading a chunk returns the chunk at the position.
* `CpkReader.getFiles_fst_eq_ok`, `CpkReader.reread_of_getFiles` — the entries that `get_files`
  returns and the metadata that it keeps are those of the chunks.
-/

namespace CriArchive

open ByteStream Endian

/-! ## Chunks of a stream -/

section Chunks

variable (bytes : List UInt8) (pos : ℕ)

/-- The size that the chunk at a position declares for its table. -/
def tableSize : ℕ := leNat (window bytes (pos + 8) 8)

/-- The table of the chunk at a position, as it is stored. -/
def storedTable : List UInt8 := window bytes (pos + 16) (tableSize bytes pos)

/-- The table of the chunk at a position, decrypted when its byte at +4 is zero. -/
def plainTable : List UInt8 :=
  if bytes[pos + 4]? = some 0 then decryptUtfScalar (storedTable bytes pos)
  else storedTable bytes pos

/-- The kind of the chunk at a position. -/
def kindAt : CpkChunkKind := CpkChunkKind.fromMagic (window bytes pos 4)

/-- What reading the chunk at a position checks: it ends inside the stream, its table has room for a
table header, an archive header stays below `0x800`, and the table has its signature. -/
structure IsChunk : Prop where
  inside : pos + 16 + tableSize bytes pos ≤ bytes.length
  header : headerSize ≤ tableSize bytes pos
  area : kindAt bytes pos = .cpk → tableSize bytes pos + 16 ≤ 0x800
  signature : utfSignature <+: plainTable bytes pos

/-- Whether a chunk stands at a position can be evaluated. -/
instance : Decidable (IsChunk bytes pos) :=
  decidable_of_iff (pos + 16 + tableSize bytes pos ≤ bytes.length ∧
      headerSize ≤ tableSize bytes pos ∧
      (kindAt bytes pos = .cpk → tableSize bytes pos + 16 ≤ 0x800) ∧
      utfSignature <+: plainTable bytes pos)
    ⟨fun ⟨h₁, h₂, h₃, h₄⟩ => ⟨h₁, h₂, h₃, h₄⟩, fun ⟨h₁, h₂, h₃, h₄⟩ => ⟨h₁, h₂, h₃, h₄⟩⟩

/-- The chunk at a position, if there is one. -/
def chunkAt : Option TableContainer :=
  if IsChunk bytes pos then some ⟨kindAt bytes pos, plainTable bytes pos⟩ else none

end Chunks

/-- A chunk is read at a position iff there is one, with its kind and its decrypted table. -/
theorem chunkAt_eq_some {bytes : List UInt8} {pos : ℕ} {c : TableContainer} :
    chunkAt bytes pos = some c ↔
      IsChunk bytes pos ∧ c = ⟨kindAt bytes pos, plainTable bytes pos⟩ := by
  unfold chunkAt
  split_ifs with h
  · rw [Option.some_inj, eq_comm]
    exact (and_iff_right h).symm
  · exact iff_of_false (fun h => nomatch h) fun hc => h hc.1

/-- Chunks with the same size, kind and table are the same, when both or neither end inside their
stream. -/
theorem chunkAt_congr {bytes bytes' : List UInt8} {pos pos' : ℕ}
    (hsize : tableSize bytes' pos' = tableSize bytes pos)
    (hinside : pos' + 16 + tableSize bytes pos ≤ bytes'.length ↔
      pos + 16 + tableSize bytes pos ≤ bytes.length)
    (hkind : kindAt bytes' pos' = kindAt bytes pos)
    (hplain : plainTable bytes' pos' = plainTable bytes pos) :
    chunkAt bytes' pos' = chunkAt bytes pos := by
  have hiff : IsChunk bytes' pos' ↔ IsChunk bytes pos := by
    constructor
    · rintro ⟨h₁, h₂, h₃, h₄⟩
      rw [hsize] at h₁ h₂ h₃
      rw [hkind] at h₃
      exact ⟨hinside.mp h₁, h₂, h₃, hplain ▸ h₄⟩
    · rintro ⟨h₁, h₂, h₃, h₄⟩
      refine ⟨?_, ?_, ?_, hplain ▸ h₄⟩ <;> rw [hsize]
      · exact hinside.mpr h₁
      · exact h₂
      · exact hkind ▸ h₃
  simp only [chunkAt, hiff, hkind, hplain]

/-- The size of a table fits 64 bits. -/
theorem tableSize_lt (bytes : List UInt8) (pos : ℕ) : tableSize bytes pos < 2 ^ 64 := by
  have hlen : (window bytes (pos + 8) 8).length ≤ 8 := List.length_take_le ..
  have hpow : (256 : ℕ) ^ (window bytes (pos + 8) 8).length ≤ 256 ^ 8 :=
    Nat.pow_le_pow_right (by decide) hlen
  exact (leNat_lt _).trans_le hpow

/-- A slice of a window is a window. -/
theorem slice_window {ε : Type} {bytes : List UInt8} {pos n lo hi : ℕ} (h₁ : lo ≤ hi) (h₂ : hi ≤ n)
    (h₃ : pos + n ≤ bytes.length) :
    (Exec.slice (window bytes pos n) lo hi : Exec ε _) = .ok (window bytes (pos + lo) (hi - lo)) := by
  rw [Exec.slice_eq h₁ (by rw [length_window h₃]; exact h₂)]
  exact congrArg Exec.ok (window_window bytes pos n lo (hi - lo) (by omega))

/-- **Reading a chunk** returns the chunk at the position.

**Proof sketch.** The checks of the source are read off one after the other and are those of
`IsChunk`: the header is inside the stream, the size is what the header declares, an archive header
ends by `0x800`, where the sum may overflow, the table is inside the stream, and it has a signature
after decryption. -/
theorem TableContainer.new_fst_eq_ok {s : ByteStream} {c : TableContainer} :
    (TableContainer.new s).1 = .ok c ↔ chunkAt s.bytes s.pos = some c := by
  obtain ⟨bytes, pos⟩ := s
  have hsize : (UInt64.ofNat (tableSize bytes pos)).toNat = tableSize bytes pos :=
    UInt64.toNat_ofNat_of_lt' (tableSize_lt bytes pos)
  -- the engine's bound on the archive header, as a sum that may overflow
  have harea : ((UInt64.ofNat (tableSize bytes pos)).checkedAdd 0x10).elim true
      (fun size => decide (0x800 < size.toNat)) = true ↔ ¬tableSize bytes pos + 16 ≤ 0x800 := by
    unfold UInt64.checkedAdd
    split_ifs with hfits
    · have hsum := (UInt64.checkedAdd_eq_some.mp (if_pos hfits : UInt64.checkedAdd _ _ = some _))
      rw [Option.elim_some, decide_eq_true_eq, hsum, hsize]
      exact Nat.not_le.symm
    · rw [hsize] at hfits
      exact iff_of_true rfl fun hle => hfits (hle.trans_lt (by decide))
  rw [chunkAt_eq_some]
  unfold TableContainer.new
  rw [readExact_bind_fst_eq_ok, cpkChunkHeaderSize]
  dsimp only
  by_cases hlen : 0x10 ≤ bytes.length - pos
  swap
  · exact iff_of_false (fun h => hlen h.1) fun h => hlen (by have := h.1.inside; omega)
  rw [and_iff_right hlen]
  have hkind : (Exec.slice (window bytes pos 0x10) 0 4 : Exec Error _) = .ok (window bytes pos 4) :=
    slice_window (by omega) (by omega) (by omega)
  have hsizeBytes : (Exec.slice (window bytes pos 0x10) 8 16 : Exec Error _) =
      .ok (window bytes (pos + 8) 8) :=
    slice_window (by omega) (by omega) (by omega)
  obtain ⟨marker, hmarker⟩ : ∃ marker, bytes[pos + 4]? = some marker :=
    ⟨_, List.getElem?_eq_getElem (by omega)⟩
  have hindex : (Exec.index (window bytes pos 0x10) 4 : Exec Error _) = .ok marker := by
    rw [Exec.index, window, List.getElem?_take_of_lt (by omega), List.getElem?_drop, hmarker]
  rw [ExecM.lift_bind_of_ok hkind, ExecM.lift_bind_of_ok hsizeBytes, ← tableSize,
    ExecM.errIf_bind_fst_eq_ok, ExecM.errIf_bind_fst_eq_ok, ExecM.errIf_bind_fst_eq_ok,
    ExecM.bind_of_ok (position_apply _), ExecM.bind_of_ok (seekEnd_apply _),
    ExecM.bind_of_ok (seek_apply _ _), ExecM.errIf_bind_fst_eq_ok, readExact_bind_fst_eq_ok,
    ExecM.lift_bind_of_ok hindex, ExecM.errIf_bind_fst_eq_ok, hsize]
  have htable : (if marker = 0 then decryptUtfScalar (window bytes (pos + 0x10)
      (tableSize bytes pos)) else window bytes (pos + 0x10) (tableSize bytes pos)) =
      plainTable bytes pos := by
    simp only [plainTable, hmarker, Option.some_inj, storedTable]
  dsimp only
  rw [htable, harea, ← kindAt, ExecM.pure_apply, Exec.ok.injEq]
  constructor
  · rintro ⟨-, h₁, h₂, h₃, -, h₄, rfl⟩
    exact ⟨⟨by omega, by omega, fun hk => by_contra fun hn => h₂ ⟨hk, hn⟩, not_not.mp h₄⟩, rfl⟩
  · rintro ⟨⟨h₁, h₂, h₃, h₄⟩, rfl⟩
    have := tableSize_lt bytes pos
    exact ⟨by omega, by omega, fun h => h.2 (h₃ h.1), by omega, by omega, not_not.mpr h₄, rfl⟩

/-! ## Entries of chunks -/

section Entries

variable (shiftJis : List UInt8 → String) (chunk : UInt64 → Option TableContainer)

/-- The table in the chunk at an offset, when the chunk has a given kind. -/
def tableOf (offset : UInt64) (kind : CpkChunkKind) : Option HighTable := do
  let container ← chunk offset
  if container.kind = kind then (HighTable.new shiftJis container.table).value? else none

/-- The metadata in the archive header. -/
def metadataOf : Option CpkMetadata := do
  let table ← tableOf shiftJis chunk 0 .cpk
  if table.rows = [] then none else some (parseMetadata table)

/-- The entries of a table of contents. -/
def tocEntries (toc : HighTable) : Exec Error (List CpkFile) := do
  let columns ← tocColumns toc
  tocRows toc columns toc.rows.length 0

/-- The entries of an ID table. -/
def itocEntries (m : CpkMetadata) (itoc : HighTable) : Exec Error (List CpkFile) := do
  let rows ← CpkReader.itocTableRows shiftJis m itoc
  Exec.errIf (hasEqualNeighbours (sortById rows)) (.reader .invalidItoc)
  materializeItocRows m.contentOffset (max m.align 1).toUInt64 0 (sortById rows)

/-- The entries of the index that the metadata point to. -/
def indexOf (m : CpkMetadata) : Option (List CpkFile) :=
  if m.tocOffset ≠ 0 then do
    let toc ← tableOf shiftJis chunk m.tocOffset .toc
    (tocEntries toc).value?
  else if m.itocOffset ≠ 0 ∧ m.contentOffset ≠ 0 ∧ m.contentOffset.toNat < 2 ^ 32 then do
    let itoc ← tableOf shiftJis chunk m.itocOffset .itoc
    (itocEntries shiftJis m itoc).value?
  else none

/-- The entries of an archive. -/
def entriesOf : Option (List CpkFile) := do
  let m ← metadataOf shiftJis chunk
  indexOf shiftJis chunk m

end Entries

namespace CpkReader

/-- The chunk at an offset of the archive, unless its position overflows. -/
def chunk (r : CpkReader) (offset : UInt64) : Option TableContainer := do
  let position ← r.startPos.checkedAdd offset
  chunkAt r.stream.bytes position.toNat

variable {shiftJis : List UInt8 → String} {r : CpkReader}

/-- A table that is read is the one in the chunk. -/
theorem readTable_fst_eq_ok {position : ℕ} {kind : CpkChunkKind} {t : HighTable} :
    (readTable shiftJis position kind r).1 = .ok t ↔ ∃ c,
      chunkAt r.stream.bytes position = some c ∧ c.kind = kind ∧
        HighTable.new shiftJis c.table = .ok t := by
  have hseek : onStream (seek position) r =
      (.ok (), { r with stream := ⟨r.stream.bytes, position⟩ }) := rfl
  unfold readTable
  rw [ExecM.bind_of_ok hseek, ExecM.bind_fst_eq_ok]
  simp only [ExecM.errIf_bind_fst_eq_ok, not_not, ExecM.lift_apply]
  constructor
  · rintro ⟨c, r', hc, hkind, ht⟩
    exact ⟨c, TableContainer.new_fst_eq_ok.mp (congrArg Prod.fst hc), hkind, ht⟩
  · rintro ⟨c, hc, hkind, ht⟩
    obtain ⟨s, hs⟩ := ExecM.exists_of_fst
      ((TableContainer.new_fst_eq_ok (s := ⟨r.stream.bytes, position⟩)).mpr hc)
    exact ⟨c, _, ExecM.zoom_of_ok hs, hkind, ht⟩

/-- A table that is read at an offset is the one in the chunk. -/
theorem tableOf_chunk {offset : UInt64} {kind : CpkChunkKind} {t : HighTable} :
    tableOf shiftJis r.chunk offset kind = some t ↔ ∃ position,
      r.startPos.checkedAdd offset = some position ∧
        (readTable shiftJis position.toNat kind r).1 = .ok t := by
  simp only [tableOf, chunk, readTable_fst_eq_ok, Option.bind_eq_bind, Option.bind_eq_some_iff,
    Option.ite_none_right_eq_some, Exec.value?_eq_some]
  constructor
  · rintro ⟨c, ⟨position, hposition, hc⟩, hkind, ht⟩
    exact ⟨position, hposition, c, hc, hkind, ht⟩
  · rintro ⟨position, hposition, c, hc, hkind, ht⟩
    exact ⟨c, ⟨position, hposition, hc⟩, hkind, ht⟩

/-- The archive header stands at the start. -/
theorem checkedAdd_zero (start : UInt64) : start.checkedAdd 0 = some start :=
  UInt64.checkedAdd_eq_some.mpr rfl

/-- The metadata that are read are those in the archive header. -/
theorem readMetadata_fst_eq_ok {m : CpkMetadata} :
    (readMetadata shiftJis r).1 = .ok m ↔ metadataOf shiftJis r.chunk = some m := by
  simp only [metadataOf, Option.bind_eq_bind, Option.bind_eq_some_iff, tableOf_chunk,
    checkedAdd_zero, Option.some_inj, exists_eq_left', Option.ite_none_left_eq_some]
  unfold readMetadata
  rw [ExecM.bind_of_ok (ExecM.get_apply r), ExecM.bind_fst_eq_ok]
  simp only [ExecM.errIf_bind_fst_eq_ok]
  constructor
  · rintro ⟨table, r', htable, hrows, hm⟩
    exact ⟨table, congrArg Prod.fst htable, hrows, Exec.ok.inj hm⟩
  · rintro ⟨table, htable, hrows, hm⟩
    obtain ⟨r', hr'⟩ := ExecM.exists_of_fst htable
    exact ⟨table, r', hr', hrows, congrArg Exec.ok hm⟩

/-- A table that is read and a value that is computed from it. -/
theorem readTable_bind_fst_eq_ok {α : Type} {position : ℕ} {kind : CpkChunkKind}
    {f : HighTable → Exec Error α} {a : α} :
    ((readTable shiftJis position kind >>= fun t => ExecM.lift (f t)) r).1 = .ok a ↔
      ∃ t, (readTable shiftJis position kind r).1 = .ok t ∧ f t = .ok a := by
  rw [ExecM.bind_fst_eq_ok]
  constructor
  · rintro ⟨t, r', ht, hf⟩
    exact ⟨t, congrArg Prod.fst ht, hf⟩
  · rintro ⟨t, ht, hf⟩
    obtain ⟨r', hr'⟩ := ExecM.exists_of_fst ht
    exact ⟨t, r', hr', hf⟩

/-- A table at an offset that is read and a value that is computed from it. -/
theorem tableOf_bind_eq_some {α : Type} {offset : UInt64} {kind : CpkChunkKind}
    {f : HighTable → Exec Error α} {a : α} :
    (do let t ← tableOf shiftJis r.chunk offset kind
        (f t).value?) = some a ↔ ∃ position, r.startPos.checkedAdd offset = some position ∧
      ((readTable shiftJis position.toNat kind >>= fun t => ExecM.lift (f t)) r).1 = .ok a := by
  simp only [Option.bind_eq_bind, Option.bind_eq_some_iff, tableOf_chunk, Exec.value?_eq_some,
    readTable_bind_fst_eq_ok]
  constructor
  · rintro ⟨t, ⟨position, hposition, ht⟩, hf⟩
    exact ⟨position, hposition, t, ht, hf⟩
  · rintro ⟨position, hposition, t, ht, hf⟩
    exact ⟨t, ⟨position, hposition, ht⟩, hf⟩

/-- What `read_toc` returns, from the chunks alone. -/
theorem readToc_fst_eq_ok {m : CpkMetadata} {files : List CpkFile} :
    (readToc shiftJis m r).1 = .ok files ↔ (do
      let toc ← tableOf shiftJis r.chunk m.tocOffset .toc
      (tocEntries toc).value?) = some files := by
  rw [tableOf_bind_eq_some]
  unfold readToc
  simp only [ExecM.bind_of_ok (ExecM.get_apply r), ExecM.lift_bind_fst_eq_ok, Exec.okOr_eq_ok,
    ExecM.lift_bind_lift]
  rfl

/-- What `read_itoc` returns, from the chunks alone. -/
theorem readItoc_fst_eq_ok {m : CpkMetadata} {files : List CpkFile} :
    (readItoc shiftJis m r).1 = .ok files ↔
      m.contentOffset ≠ 0 ∧ m.contentOffset.toNat < 2 ^ 32 ∧ (do
        let itoc ← tableOf shiftJis r.chunk m.itocOffset .itoc
        (itocEntries shiftJis m itoc).value?) = some files := by
  rw [tableOf_bind_eq_some]
  unfold readItoc
  rw [ExecM.bind_of_ok (ExecM.get_apply r), ExecM.errIf_bind_fst_eq_ok,
    ExecM.errIf_bind_fst_eq_ok, Nat.not_le]
  simp only [ExecM.lift_bind_fst_eq_ok, Exec.okOr_eq_ok, ExecM.lift_bind_lift]
  rfl

/-- The entries that are read are those of the index. -/
theorem readIndex_fst_eq_ok {m : CpkMetadata} {files : List CpkFile} :
    (readIndex shiftJis m r).1 = .ok files ↔ indexOf shiftJis r.chunk m = some files := by
  unfold readIndex indexOf
  split_ifs with htoc hitoc hitoc' hitoc'
  · exact readToc_fst_eq_ok
  · rw [readItoc_fst_eq_ok, and_iff_right hitoc'.2.1, and_iff_right hitoc'.2.2]
  · rw [readItoc_fst_eq_ok]
    exact iff_of_false (fun h => hitoc' ⟨hitoc, h.1, h.2.1⟩) fun h => nomatch h
  · exact absurd hitoc'.1 hitoc
  · exact iff_of_false (fun h => nomatch h) fun h => nomatch h

/-- The same reader but for the position of its stream and its metadata. -/
def Reread (r₀ : CpkReader) (m : Option CpkMetadata) (r : CpkReader) : Prop :=
  Moved { r₀ with metadata := m } r

/-- Reading the metadata stores them and otherwise only moves the stream. -/
theorem reread_of_readMetadata {m : CpkMetadata} {r' : CpkReader}
    (h : readMetadata shiftJis r = (.ok m, r')) : Reread r (some m) r' := by
  unfold readMetadata at h
  rw [ExecM.bind_of_ok (ExecM.get_apply r)] at h
  obtain ⟨table, r₁, htable, hrest⟩ := ExecM.bind_eq_ok.mp h
  obtain ⟨_, r₂, hrows, hset⟩ := ExecM.bind_eq_ok.mp hrest
  obtain ⟨-, rfl⟩ := ExecM.lift_eq_ok.mp hrows
  obtain ⟨pos, rfl⟩ := (keeps_readTable r _ _).of_ok htable (moved_refl r)
  obtain ⟨hm, hr'⟩ := Prod.mk.inj hset
  obtain rfl := Exec.ok.inj hm
  exact ⟨pos, hr'.symm⟩

/-- Metadata that cannot be read are not stored. -/
theorem moved_of_readMetadata (h : ∀ m, (readMetadata shiftJis r).1 ≠ .ok m) :
    Moved r (readMetadata shiftJis r).2 := by
  have hmoved := @keeps_readTable shiftJis r r.startPos.toNat .cpk r (moved_refl r)
  unfold readMetadata at h ⊢
  rw [ExecM.bind_of_ok (ExecM.get_apply r)] at h ⊢
  rcases htable : readTable shiftJis r.startPos.toNat .cpk r with ⟨table | e | _, r₁⟩ <;>
    rw [htable] at hmoved
  · rw [ExecM.bind_of_ok htable] at h ⊢
    by_cases hrows : table.rows = []
    · have herr : ExecM.lift (Exec.errIf (table.rows = []) (Error.reader .invalidHeaderChunk)) r₁ =
          (.err (.reader .invalidHeaderChunk), r₁) := congrArg (·, r₁) (if_pos hrows)
      rw [ExecM.bind_of_err herr]
      exact hmoved
    · rw [ExecM.lift_bind_of_ok (Exec.errIf_of_not hrows _)] at h
      exact absurd rfl (h (parseMetadata table))
  · rw [ExecM.bind_of_err htable]
    exact hmoved
  · rw [ExecM.bind_of_fault htable]
    exact hmoved

/-- **The metadata that are kept** are those of the chunks, or else the former ones. -/
theorem reread_of_getFiles (shiftJis : List UInt8 → String) (r : CpkReader) :
    Reread r ((metadataOf shiftJis r.chunk).or r.metadata) (getFiles shiftJis r).2 := by
  unfold getFiles
  rcases h : readMetadata shiftJis r with ⟨m | e | _, r₁⟩
  · have hsome := readMetadata_fst_eq_ok.mp (congrArg Prod.fst h)
    rw [ExecM.bind_of_ok h, hsome, Option.some_or]
    exact keeps_readIndex _ m r₁ (reread_of_readMetadata h)
  all_goals
    have hne : ∀ m, (readMetadata shiftJis r).1 ≠ .ok m := fun m hm => by
      rw [h] at hm
      cases hm
    have hnone : metadataOf shiftJis r.chunk = none :=
      Option.eq_none_iff_forall_ne_some.mpr fun m hm => hne m (readMetadata_fst_eq_ok.mpr hm)
    have hmoved := moved_of_readMetadata hne
    rw [h] at hmoved
    rw [hnone, Option.none_or]
  · rw [ExecM.bind_of_err h]
    exact hmoved
  · rw [ExecM.bind_of_fault h]
    exact hmoved

/-- **The entries that are returned** are those of the chunks. -/
theorem getFiles_fst_eq_ok {files : List CpkFile} :
    (getFiles shiftJis r).1 = .ok files ↔ entriesOf shiftJis r.chunk = some files := by
  have hchunk : ∀ {m : CpkMetadata} {r' : CpkReader}, readMetadata shiftJis r = (.ok m, r') →
      r'.chunk = r.chunk := by
    intro m r' h
    obtain ⟨pos, rfl⟩ := reread_of_readMetadata h
    rfl
  simp only [entriesOf, Option.bind_eq_bind, Option.bind_eq_some_iff, ← readMetadata_fst_eq_ok]
  unfold getFiles
  rw [ExecM.bind_fst_eq_ok]
  constructor
  · rintro ⟨m, r', hm, hfiles⟩
    rw [readIndex_fst_eq_ok, hchunk hm] at hfiles
    exact ⟨m, congrArg Prod.fst hm, hfiles⟩
  · rintro ⟨m, hm, hfiles⟩
    obtain ⟨r', hr'⟩ := ExecM.exists_of_fst hm
    rw [← hchunk hr', ← readIndex_fst_eq_ok] at hfiles
    exact ⟨m, r', hr', hfiles⟩

end CpkReader

/-! ## Archives with the same chunks -/

section Same

variable {shiftJis : List UInt8 → String} {chunk chunk' : UInt64 → Option TableContainer}

/-- A table depends on the chunk at its offset only. -/
theorem tableOf_congr {offset : UInt64} (h : chunk offset = chunk' offset) (kind : CpkChunkKind) :
    tableOf shiftJis chunk offset kind = tableOf shiftJis chunk' offset kind := by
  rw [tableOf, tableOf, h]

/-- The metadata depend on the first chunk. -/
theorem metadataOf_congr (h : chunk 0 = chunk' 0) :
    metadataOf shiftJis chunk = metadataOf shiftJis chunk' := by
  rw [metadataOf, metadataOf, tableOf_congr h]

/-- **The entries depend on the chunks** at the start and at the offsets that are not zero. -/
theorem entriesOf_congr (h₀ : chunk 0 = chunk' 0)
    (h : ∀ m, metadataOf shiftJis chunk = some m →
      (m.tocOffset ≠ 0 → chunk m.tocOffset = chunk' m.tocOffset) ∧
      (m.itocOffset ≠ 0 → chunk m.itocOffset = chunk' m.itocOffset)) :
    entriesOf shiftJis chunk = entriesOf shiftJis chunk' := by
  rw [entriesOf, entriesOf, ← metadataOf_congr h₀]
  refine Option.bind_congr fun m hm => ?_
  obtain ⟨htoc, hitoc⟩ := h m hm
  unfold indexOf
  split_ifs with h₁ h₂
  · rw [tableOf_congr (htoc h₁)]
  · rw [tableOf_congr (hitoc h₂.1)]
  · rfl

end Same

/-- An archive with two entries: its header, a table of contents, and the payloads from `0x800`
on. -/
def sampleChunks : List UInt8 :=
  [67, 80, 75, 32, 255, 255, 255, 255, 56, 0, 0, 0, 0, 0, 0, 0, 64, 85, 84, 70, 0, 0, 0, 48, 0, 1,
    0, 29, 0, 0, 0, 37, 0, 0, 0, 48, 0, 0, 0, 0, 0, 1, 0, 8, 0, 0, 0, 1, 86, 0, 0, 0, 1, 0, 0, 0,
    0, 0, 0, 0, 72, 0, 84, 111, 99, 79, 102, 102, 115, 101, 116, 0, 84, 79, 67, 32, 255, 255, 255,
    255, 129, 0, 0, 0, 0, 0, 0, 0, 64, 85, 84, 70, 0, 0, 0, 121, 0, 1, 0, 44, 0, 0, 0, 84, 0, 0, 0,
    121, 0, 0, 0, 0, 0, 4, 0, 20, 0, 0, 0, 2, 90, 0, 0, 0, 1, 84, 0, 0, 0, 10, 86, 0, 0, 0, 19, 84,
    0, 0, 0, 30, 0, 0, 0, 33, 0, 0, 0, 3, 0, 0, 0, 0, 0, 0, 0, 0, 0, 0, 0, 5, 0, 0, 0, 35, 0, 0, 0,
    2, 0, 0, 0, 0, 0, 0, 0, 3, 0, 0, 0, 4, 0, 70, 105, 108, 101, 78, 97, 109, 101, 0, 70, 105, 108,
    101, 83, 105, 122, 101, 0, 70, 105, 108, 101, 79, 102, 102, 115, 101, 116, 0, 73, 68, 0, 97, 0,
    98, 0] ++
    List.replicate 1831 0 ++ [1, 2, 3, 4, 5]

/-- A reader on that archive. -/
def sampleReader : CpkReader := CpkReader.new sampleChunks 0 (fun _ => 0) fun _ => 0

/-- The two entries. -/
def sampleChunkFiles : List CpkFile :=
  [CpkFile.new "" "a" 0 0x800 3 3 (some 5) "" none, CpkFile.new "" "b" 3 0x803 2 2 (some 4) "" none]

/-- The two entries that the chunks of the sample give. -/
theorem entriesOf_sampleReader :
    entriesOf (fun _ => "") sampleReader.chunk = some sampleChunkFiles := by
  decide +kernel

end CriArchive
