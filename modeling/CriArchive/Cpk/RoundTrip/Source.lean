import CriArchive.Cpk.RoundTrip.Index

set_option relaxedAutoImplicit false
set_option autoImplicit false

/-!
# Archives that the reader accepts

What is known of an archive whose entries were returned, without knowing who wrote it: where the
entries come from, what the reader keeps, and what it reads from then on.

## Main definitions

* `Identity` — the directory, the name, the ID and the user string of an entry.
* `CpkReader.Moved` — the same reader at another position of its stream.

## Main results

* `CpkReader.getFiles_eq_ok` — the metadata and the index behind the entries that are returned.
* `CpkReader.nulFree_of_getFiles` — the strings of the entries have no `NUL`.
* `CpkReader.readPackedFile_opened` — the packed bytes of an entry are a window of the archive.
-/

namespace CriArchive

open ByteStream

/-! ## Identities -/

/-- What an entry is looked up by. -/
structure Identity where
  directory : String
  fileName : String
  id : Option UInt32
  userString : String
  deriving DecidableEq, Repr

/-- The identity of an entry. -/
def CpkFile.identity (e : CpkFile) : Identity := ⟨e.directory, e.fileName, e.id, e.userString⟩

/-- The identity of an entry that is known by its ID. -/
def Identity.ofId (id : UInt32) : Identity := ⟨"", itocFileName id, some id, ""⟩

namespace CpkReader

/-! ## What reading keeps -/

/-- The same reader but for the position of its stream. -/
def Moved (r₀ r : CpkReader) : Prop :=
  ∃ pos, r = { r₀ with stream := ⟨r₀.stream.bytes, pos⟩ }

/-- A reader is moved from itself. -/
theorem moved_refl (r : CpkReader) : Moved r r := ⟨r.stream.pos, rfl⟩

/-- Reading bytes does not change the stream. -/
theorem keeps_readExact (bytes : List UInt8) (eof : Error) (n : ℕ) :
    (readExact eof n).Keeps fun s => s.bytes = bytes := by
  intro s hs
  unfold readExact
  split_ifs <;> exact hs

/-- Reading a chunk does not change the stream. -/
theorem keeps_tableContainer (bytes : List UInt8) :
    TableContainer.new.Keeps fun s => s.bytes = bytes := by
  unfold TableContainer.new
  refine (keeps_readExact bytes _ _).bind fun chunkHeader => ?_
  refine (ExecM.keeps_lift _).bind fun magic => (ExecM.keeps_lift _).bind fun sizeBytes => ?_
  refine (ExecM.keeps_lift _).bind fun _ => (ExecM.keeps_lift _).bind fun _ => ?_
  refine (ExecM.keeps_lift _).bind fun _ => ?_
  refine ExecM.Keeps.bind (x := position) (fun s hs => hs) fun tableStart => ?_
  refine ExecM.Keeps.bind (x := seekEnd) (fun s hs => hs) fun streamEnd => ?_
  refine ExecM.Keeps.bind (x := seek tableStart) (fun s hs => hs) fun _ => ?_
  refine (ExecM.keeps_lift _).bind fun _ => (keeps_readExact bytes _ _).bind fun table => ?_
  refine (ExecM.keeps_lift _).bind fun marker => ?_
  exact (ExecM.keeps_lift _).bind fun _ => ExecM.keeps_pure _

/-- Using the stream without changing its bytes moves the reader. -/
theorem keeps_onStream {α : Type} {x : ExecM ByteStream Error α} (r₀ : CpkReader)
    (h : x.Keeps fun s => s.bytes = r₀.stream.bytes) : (onStream x).Keeps (Moved r₀) := by
  refine h.zoom ?_ ?_
  · rintro _ ⟨pos, rfl⟩
    rfl
  · rintro _ s ⟨pos, rfl⟩ hs
    exact ⟨s.pos, by rw [← hs]⟩

variable {shiftJis : List UInt8 → String}

/-- Reading a table only moves the stream. -/
theorem keeps_readTable (r₀ : CpkReader) (position : ℕ) (kind : CpkChunkKind) :
    (readTable shiftJis position kind).Keeps (Moved r₀) := by
  unfold readTable
  refine (keeps_onStream r₀ fun s hs => hs).bind fun _ => ?_
  refine (keeps_onStream r₀ (keeps_tableContainer _)).bind fun container => ?_
  exact (ExecM.keeps_lift _).bind fun _ => ExecM.keeps_lift _

/-- **Reading an index only moves the reader.** -/
theorem keeps_readIndex (r₀ : CpkReader) (m : CpkMetadata) :
    (readIndex shiftJis m).Keeps (Moved r₀) := by
  unfold readIndex
  split_ifs
  · unfold readToc
    refine ExecM.keeps_get.bind fun r => (ExecM.keeps_lift _).bind fun position => ?_
    refine (keeps_readTable r₀ _ _).bind fun toc => ?_
    exact (ExecM.keeps_lift _).bind fun columns => ExecM.keeps_lift _
  · unfold readItoc
    refine ExecM.keeps_get.bind fun r => (ExecM.keeps_lift _).bind fun _ => ?_
    refine (ExecM.keeps_lift _).bind fun _ => (ExecM.keeps_lift _).bind fun position => ?_
    refine (keeps_readTable r₀ _ _).bind fun itoc => ?_
    refine (ExecM.keeps_lift _).bind fun rows => ?_
    exact (ExecM.keeps_lift _).bind fun _ => ExecM.keeps_lift _
  · exact ExecM.keeps_lift _

/-! ## Where entries come from -/

/-- A table that was read is a table that was parsed. -/
theorem exists_new_of_readTable {position : ℕ} {kind : CpkChunkKind} {r r' : CpkReader}
    {t : HighTable} (h : readTable shiftJis position kind r = (.ok t, r')) :
    ∃ alloc, HighTable.new shiftJis alloc = .ok t := by
  unfold readTable at h
  simp only [ExecM.bind_eq_ok, ExecM.lift_eq_ok] at h
  obtain ⟨-, -, -, container, -, -, -, -, -, ht, -⟩ := h
  exact ⟨_, ht⟩

/-- **The index behind the entries of a table of contents.** -/
theorem readToc_eq_ok {m : CpkMetadata} {r r' : CpkReader} {entries : List CpkFile}
    (h : readToc shiftJis m r = (.ok entries, r')) :
    ∃ toc alloc columns, HighTable.new shiftJis alloc = .ok toc ∧
      tocColumns toc = .ok columns ∧ tocRows toc columns toc.rows.length 0 = .ok entries := by
  unfold readToc at h
  simp only [ExecM.bind_eq_ok, ExecM.lift_eq_ok] at h
  obtain ⟨_, _, -, _, _, -, toc, _, htoc, columns, _, ⟨hcolumns, -⟩, hrows, -⟩ := h
  obtain ⟨alloc, halloc⟩ := exists_new_of_readTable htoc
  exact ⟨toc, alloc, columns, halloc, hcolumns, hrows⟩

/-- **The index behind the entries of an ID table.** -/
theorem readItoc_eq_ok {m : CpkMetadata} {r r' : CpkReader} {entries : List CpkFile}
    (h : readItoc shiftJis m r = (.ok entries, r')) :
    ∃ itoc alloc rows, HighTable.new shiftJis alloc = .ok itoc ∧
      itocTableRows shiftJis m itoc = .ok rows ∧ hasEqualNeighbours (sortById rows) = false ∧
      materializeItocRows m.contentOffset (max m.align 1).toUInt64 0 (sortById rows) =
        .ok entries := by
  unfold readItoc at h
  simp only [ExecM.bind_eq_ok, ExecM.lift_eq_ok, Exec.errIf_eq_ok] at h
  obtain ⟨_, _, -, _, _, -, _, _, -, _, _, -, itoc, _, hitoc, rows, _, ⟨hrows, -⟩, _, _,
    ⟨hne, -⟩, hentries, -⟩ := h
  obtain ⟨alloc, halloc⟩ := exists_new_of_readTable hitoc
  exact ⟨itoc, alloc, rows, halloc, hrows, Bool.not_eq_true _ ▸ hne, hentries⟩

/-- **Entries that are returned** come from the index that the metadata point to; the reader keeps
its stream and remembers the metadata. -/
theorem getFiles_eq_ok {r r' : CpkReader} {entries : List CpkFile}
    (h : getFiles shiftJis r = (.ok entries, r')) :
    ∃ m r₁, r'.metadata = some m ∧ readIndex shiftJis m r₁ = (.ok entries, r') ∧
      r'.stream.bytes = r.stream.bytes ∧ r'.startPos = r.startPos ∧ r'.freeList = r.freeList := by
  unfold getFiles readMetadata at h
  simp only [ExecM.bind_eq_ok, ExecM.lift_eq_ok, ExecM.get_apply, ExecM.set_apply,
    ExecM.pure_apply, Prod.mk.injEq, Exec.ok.injEq] at h
  obtain ⟨m, r₂, ⟨_, _, ⟨rfl, rfl⟩, table, r₁, htable, _, _, ⟨-, rfl⟩, _, _, ⟨rfl, rfl⟩, _, _,
    ⟨-, rfl⟩, rfl, rfl⟩, hindex⟩ := h
  obtain ⟨pos, rfl⟩ := (keeps_readTable r _ _).of_ok htable (moved_refl r)
  obtain ⟨pos', rfl⟩ := (keeps_readIndex _ _).of_ok hindex (moved_refl _)
  exact ⟨_, _, rfl, hindex, rfl, rfl, rfl⟩

/-- A reader that returned the entries of an archive has opened it. -/
theorem opened_of_getFiles {r r' : CpkReader} {entries : List CpkFile}
    (h : getFiles shiftJis r = (.ok entries, r')) (hstart : r.startPos = 0) :
    Opened r.stream.bytes r' := by
  obtain ⟨m, _, hm, -, hbytes, hstart', -⟩ := getFiles_eq_ok h
  exact ⟨hbytes, hstart'.trans hstart, by rw [hm]; simp⟩

/-! ## Strings -/

/-- The strings of a parsed table come from a pool that was scanned. -/
theorem exists_pool_of_new {alloc : List UInt8} {t : HighTable}
    (h : HighTable.new shiftJis alloc = .ok t) :
    ∃ stream, StringPoolFast.newBorrowed shiftJis stream t.header = .ok t.strings := by
  unfold HighTable.new HighTable.parse at h
  simp only [Exec.bind_eq_ok] at h
  obtain ⟨-, -, s, -, schema, -, -, -, -, -, rowSize, -, -, -, rows, -, pool, -, strings, hpool,
    hend⟩ := h
  obtain rfl := Exec.ok.inj hend
  exact ⟨pool, hpool⟩

section NulFree

variable (hsjis : ∀ bs, 0 ∉ bs → (shiftJis bs).NulFree)

include hsjis

/-- A string of a table has no `NUL`. -/
theorem nulFree_of_stringAt {alloc : List UInt8} {t : HighTable}
    (h : HighTable.new shiftJis alloc = .ok t) {row column : ℕ} {s : String}
    (hs : stringAt t row column = some s) : s.NulFree := by
  obtain ⟨stream, hpool⟩ := exists_pool_of_new h
  unfold stringAt at hs
  split at hs
  · split_ifs at hs
    exact StringPoolFast.nulFree_of_getString hsjis hpool hs
  · cases hs

/-- An optional string has no `NUL`. -/
theorem nulFree_optionalString {alloc : List UInt8} {t : HighTable}
    (h : HighTable.new shiftJis alloc = .ok t) (row : ℕ) (column : Option ℕ) :
    (optionalString t row column).NulFree := by
  unfold optionalString
  rcases hs : column.bind (stringAt t row) with _ | s
  · exact List.not_mem_nil
  · obtain ⟨c, -, hc⟩ := Option.bind_eq_some_iff.mp hs
    exact nulFree_of_stringAt hsjis h hc

end NulFree

/-- The rows that are read, one by one. -/
theorem tocRow_of_mem {toc : HighTable} {columns : TocColumns} {count row : ℕ}
    {entries : List CpkFile} (h : tocRows toc columns count row = .ok entries) {e : CpkFile}
    (he : e ∈ entries) : ∃ i, tocRow toc columns i = .ok e := by
  induction count generalizing row entries with
  | zero =>
    obtain rfl := Exec.ok.inj h
    cases he
  | succ count ih =>
    simp only [tocRows, Exec.bind_eq_ok, Exec.pure_eq, Exec.ok.injEq] at h
    obtain ⟨first, hfirst, others, hothers, rfl⟩ := h
    rcases List.mem_cons.mp he with rfl | he
    · exact ⟨row, hfirst⟩
    · exact ih hothers he

/-- The rows of an ID table identify their entries. -/
theorem identity_of_materialize {contentOffset alignment relativeOffset : UInt64}
    {rows : List ItocRow} {entries : List CpkFile}
    (h : materializeItocRows contentOffset alignment relativeOffset rows = .ok entries) :
    entries.map CpkFile.identity = (rows.map ItocRow.id).map Identity.ofId := by
  induction rows generalizing relativeOffset entries with
  | nil =>
    obtain rfl := Exec.ok.inj h
    rfl
  | cons row rows ih =>
    simp only [materializeItocRows, Exec.bind_eq_ok, Exec.pure_eq, Exec.ok.injEq] at h
    obtain ⟨absolute, -, padded, -, paddedSize, -, next, -, files, hfiles, rfl⟩ := h
    rw [List.map_cons, ih hfiles]
    rfl

/-- The entries of an ID table have no directory, and a name made of the ID. -/
theorem strings_of_materialize {contentOffset alignment relativeOffset : UInt64}
    {rows : List ItocRow} {entries : List CpkFile}
    (h : materializeItocRows contentOffset alignment relativeOffset rows = .ok entries)
    {e : CpkFile} (he : e ∈ entries) :
    e.directory = "" ∧ e.userString = "" ∧ ∃ id, e.id = some id ∧ e.fileName = itocFileName id := by
  have hmem : e.identity ∈ (rows.map ItocRow.id).map Identity.ofId :=
    identity_of_materialize h ▸ List.mem_map_of_mem he
  obtain ⟨id, -, hidentity⟩ := List.mem_map.mp hmem
  obtain ⟨hdirectory, hname, hid, huser⟩ := Identity.mk.inj hidentity
  exact ⟨hdirectory.symm, huser.symm, id, hid.symm, hname.symm⟩

/-- The name of an entry without a name has no `NUL`. -/
theorem nulFree_itocFileName (id : UInt32) : (itocFileName id).NulFree := by
  have hzeros : ∀ n, (Nat.repeat (fun s : String => s.push '0') n "").NulFree := by
    intro n
    induction n with
    | zero => exact List.not_mem_nil
    | succ n ih =>
      intro hmem
      rw [Nat.repeat, String.toList_push, List.mem_append] at hmem
      exact hmem.elim ih (by decide)
  have hdigits : (toString id.toNat).NulFree := by
    intro hmem
    rw [show toString id.toNat = id.toNat.repr from rfl, Nat.toList_repr] at hmem
    exact absurd (Nat.isDigit_of_mem_toDigits (by decide) (by decide) hmem) (by decide)
  unfold itocFileName
  rw [String.pushn_eq_repeat_push]
  unfold String.NulFree
  rw [String.toList_append, String.toList_append, List.mem_append, List.mem_append, not_or, not_or]
  exact ⟨⟨hzeros _, hdigits⟩, by decide⟩

/-- **The strings of the entries have no `NUL`**, provided the Shift-JIS decoder introduces
none. -/
theorem nulFree_of_getFiles (hsjis : ∀ bs, 0 ∉ bs → (shiftJis bs).NulFree) {r r' : CpkReader}
    {entries : List CpkFile} (h : getFiles shiftJis r = (.ok entries, r')) {e : CpkFile}
    (he : e ∈ entries) : e.directory.NulFree ∧ e.fileName.NulFree ∧ e.userString.NulFree := by
  obtain ⟨m, r₁, -, hindex, -⟩ := getFiles_eq_ok h
  unfold readIndex at hindex
  split_ifs at hindex
  · obtain ⟨toc, alloc, columns, htoc, -, hrows⟩ := readToc_eq_ok hindex
    obtain ⟨i, hrow⟩ := tocRow_of_mem hrows he
    unfold tocRow at hrow
    simp only [Exec.bind_eq_ok, Exec.okOr_eq_ok, Exec.pure_eq, Exec.ok.injEq] at hrow
    obtain ⟨fileName, hfileName, -, -, -, -, -, -, -, -, -, -, rfl⟩ := hrow
    exact ⟨nulFree_optionalString hsjis htoc _ _, nulFree_of_stringAt hsjis htoc hfileName,
      nulFree_optionalString hsjis htoc _ _⟩
  · obtain ⟨itoc, alloc, rows, -, -, -, hentries⟩ := readItoc_eq_ok hindex
    obtain ⟨hdirectory, huser, id, -, hname⟩ := strings_of_materialize hentries he
    rw [hdirectory, huser, hname]
    exact ⟨List.not_mem_nil, nulFree_itocFileName id, List.not_mem_nil⟩
  · cases hindex

/-- Without a table of contents entries have no user string. -/
theorem userString_of_getFiles {r r' : CpkReader} {entries : List CpkFile} {m : CpkMetadata}
    (h : getFiles shiftJis r = (.ok entries, r')) (hm : r'.metadata = some m)
    (htoc : m.tocOffset = 0) {e : CpkFile} (he : e ∈ entries) : e.userString = "" := by
  obtain ⟨m', r₁, hm', hindex, -⟩ := getFiles_eq_ok h
  obtain rfl := Option.some.inj (hm.symm.trans hm')
  rw [readIndex, if_neg (not_not.mpr htoc)] at hindex
  split_ifs at hindex
  · obtain ⟨itoc, alloc, rows, -, -, -, hentries⟩ := readItoc_eq_ok hindex
    exact (strings_of_materialize hentries he).2.1
  · cases hindex

/-! ## Packed bytes -/

/-- The packed bytes of an entry are a window of the stream, and reading them only moves the
reader. -/
theorem readPackedFile_moved {r : CpkReader} {e : CpkFile} {position : UInt64}
    (hm : r.metadata ≠ none) (hposition : r.startPos.checkedAdd e.absoluteOffset = some position) :
    ∃ r', r.Moved r' ∧ readPackedFile e r =
      (if e.fileSize.toNat ≤ r.stream.bytes.length - position.toNat then
        .ok (window r.stream.bytes position.toNat e.fileSize.toNat)
      else .err .unexpectedEof, r') := by
  have hsize : ¬2 ^ 64 ≤ e.fileSize.toNat := by
    have := e.fileSize.toNat_lt
    omega
  have hsome : Exec.okOr (r.startPos.checkedAdd e.absoluteOffset)
      (Error.reader .missingFileOffset) = .ok position := by
    rw [hposition, Exec.okOr_some]
  unfold readPackedFile onStream
  rw [ExecM.bind_of_ok (ExecM.get_apply r), ExecM.lift_bind_of_ok (Exec.errIf_of_not hm _),
    ExecM.lift_bind_of_ok hsome, ExecM.bind_of_ok (ExecM.zoom_of_ok (seek_apply _ _)),
    ExecM.lift_bind_of_ok (Exec.errIf_of_not hsize _), ExecM.zoom_apply]
  unfold readExact
  dsimp only
  split_ifs
  · exact ⟨_, ⟨_, rfl⟩, rfl⟩
  · exact ⟨_, ⟨_, rfl⟩, rfl⟩

/-- **The packed bytes of an entry** are the window of the archive that it describes, for every
reader that has opened the archive. -/
theorem readPackedFile_opened {bytes : List UInt8} {r : CpkReader} (hr : Opened bytes r)
    (e : CpkFile) : ∃ r', Opened bytes r' ∧ r'.freeList = r.freeList ∧ readPackedFile e r =
      (if e.fileSize.toNat ≤ bytes.length - e.absoluteOffset.toNat then
        .ok (window bytes e.absoluteOffset.toNat e.fileSize.toNat)
      else .err .unexpectedEof, r') := by
  obtain ⟨hbytes, hstart, hm⟩ := hr
  have hposition : r.startPos.checkedAdd e.absoluteOffset = some e.absoluteOffset := by
    rw [UInt64.checkedAdd_eq_some, hstart]
    exact (Nat.zero_add _).symm
  obtain ⟨r', ⟨pos, rfl⟩, hread⟩ := readPackedFile_moved hm hposition
  rw [hbytes] at hread
  exact ⟨{ r with stream := ⟨bytes, pos⟩ }, ⟨rfl, hstart, hm⟩, rfl, hread⟩

end CpkReader

end CriArchive
