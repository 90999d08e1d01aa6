import CriArchive.Cpk.Reader
import CriArchive.Cpk.Writer.ArchiveLayout

set_option relaxedAutoImplicit false
set_option autoImplicit false

/-!
# Reading the tables of a written archive

The accessors of the reader on tables that the builder of the writer produced: cells by column,
the header's metadata, the rows of a table of contents and of an ID table.

## Main results

* `CpkReader.readTable_eq` — the chunk of a built table is read back at its position.
* `parseMetadata_headerBuilder` — the metadata of a written archive header.
* `tocRows_tocBuilder` — the entries of a written table of contents.
* `collectItocRows_itocBuilder` — the rows of a written ID table.
* `sortById_eq` — sorting rows restores the order of the physical payloads.
-/

namespace CriArchive

open ByteStream

/-! ## Cells -/

namespace UtfTableBuilder.ReadBack

variable {b : UtfTableBuilder} {t : HighTable} (h : b.ReadBack t) {i j : ℕ} {row : List UtfValue}

include h

/-- The string of a cell; the empty string is the null pointer. -/
theorem stringAt_eq (hrow : b.rows[i]? = some row) {s : String}
    (hv : row[j]? = some (.string s)) :
    stringAt t i j = if s = "" then none else some s.nulPrefix := by
  obtain ⟨cell, hcell, offset, rfl, hget, hzero⟩ := h.value i j row _ hrow hv
  rw [stringAt, hcell]
  simp only [hzero]
  split_ifs
  · rfl
  · exact hget

/-- The string of a cell that may be missing. -/
theorem optionalString_eq (hrow : b.rows[i]? = some row) {s : String}
    (hv : row[j]? = some (.string s)) : optionalString t i (some j) = s.nulPrefix := by
  rw [optionalString, Option.bind_some, h.stringAt_eq hrow hv]
  split_ifs with hs
  · rw [hs, Option.getD_none, String.nulPrefix_empty]
  · rfl

/-- A cell that holds a number, as 64 bits. -/
theorem numericAt_eq (hrow : b.rows[i]? = some row) {v : UtfValue} {n : UInt64}
    (hv : row[j]? = some v)
    (hn : (∃ m : UInt16, v = .uInt16 m ∧ n = m.toUInt64) ∨
      (∃ m : UInt32, v = .uInt32 m ∧ n = m.toUInt64) ∨ v = .uInt64 n) :
    numericAt t i j = some n := by
  obtain ⟨cell, hcell, hdecodes⟩ := h.value i j row _ hrow hv
  rw [numericAt, hcell, Option.bind_some]
  rcases hn with ⟨m, rfl, rfl⟩ | ⟨m, rfl, rfl⟩ | rfl <;> rw [hdecodes] <;> rfl

/-- A 16-bit cell is read back as a number. -/
theorem numericAt_uInt16 (hrow : b.rows[i]? = some row) {n : UInt16}
    (hv : row[j]? = some (.uInt16 n)) : numericAt t i j = some n.toUInt64 :=
  h.numericAt_eq hrow hv (Or.inl ⟨n, rfl, rfl⟩)

/-- A 32-bit cell is read back as a number. -/
theorem numericAt_uInt32 (hrow : b.rows[i]? = some row) {n : UInt32}
    (hv : row[j]? = some (.uInt32 n)) : numericAt t i j = some n.toUInt64 :=
  h.numericAt_eq hrow hv (Or.inr (Or.inl ⟨n, rfl, rfl⟩))

/-- A 64-bit cell is read back as a number. -/
theorem numericAt_uInt64 (hrow : b.rows[i]? = some row) {n : UInt64}
    (hv : row[j]? = some (.uInt64 n)) : numericAt t i j = some n :=
  h.numericAt_eq hrow hv (Or.inr (Or.inr rfl))

/-- A number of the first row by the name of its column. -/
theorem headerU64_eq {name : String} {n : UInt64}
    (hcolumn : b.columns.findIdx? (·.name.nulPrefix == name) = some j)
    (hn : numericAt t 0 j = some n) : headerU64 t name = n := by
  rw [headerU64, HighTable.u64ByName, HighTable.valueByName, h.columnIndex, hcolumn]
  rw [numericAt] at hn
  change ((t.value 0 j).bind rowValueToU64).getD 0 = n
  rw [hn, Option.getD_some]

end UtfTableBuilder.ReadBack

/-! ## Chunks -/

/-- A table that was parsed starts with the signature and holds a header. -/
theorem HighTable.signature_of_new {shiftJis : List UInt8 → String} {alloc : List UInt8}
    {t : HighTable} (h : HighTable.new shiftJis alloc = .ok t) :
    headerSize ≤ alloc.length ∧ utfSignature <+: alloc := by
  unfold HighTable.new at h
  rw [Exec.bind_eq_ok] at h
  obtain ⟨u, hcheck, -⟩ := h
  rw [Exec.errIf_eq_ok, not_or, not_not, Nat.not_lt] at hcheck
  exact hcheck

namespace CpkReader

/-- Using the stream for a step that returns. -/
theorem onStream_of_ok {α : Type} {x : ExecM ByteStream Error α} {r : CpkReader} {s : ByteStream}
    {a : α} (h : x r.stream = (.ok a, s)) : onStream x r = (.ok a, { r with stream := s }) :=
  ExecM.zoom_of_ok h

/-- **The chunk of a built table is read back** at its position. -/
theorem readTable_eq (shiftJis : List UInt8 → String) (kind : CpkChunkKind) (position : ℕ)
    {b : UtfTableBuilder} {table rest : List UInt8} (hbuild : b.build = .ok table)
    (h32 : table.length < 2 ^ 32) (hkind : ∀ m, kind ≠ .unknown m)
    (hcpk : kind = .cpk → table.length + 0x10 ≤ 0x800) {r : CpkReader}
    (hbytes : r.stream.bytes.drop position = buildChunk kind table ++ rest) :
    ∃ t pos, readTable shiftJis position kind r =
      (.ok t, { r with stream := ⟨r.stream.bytes, pos⟩ }) ∧ b.ReadBack t := by
  obtain ⟨t, hnew, hread⟩ := UtfTableBuilder.readBack_of_build shiftJis hbuild h32
  obtain ⟨hlen, hsig⟩ := HighTable.signature_of_new hnew
  have hn : (UInt64.ofNat table.length).toNat = table.length := by
    rw [UInt64.toNat_ofNat']
    exact Nat.mod_eq_of_lt (by omega)
  have hchunk : (⟨r.stream.bytes, position⟩ : ByteStream).bytes.drop position =
      kind.magic ++ (List.replicate 4 0xff ++
        (toLeBytesU64 (UInt64.ofNat table.length) ++ (table ++ rest))) := by
    simpa [buildChunk] using hbytes
  have hcontainer := TableContainer.new_eq (s := ⟨r.stream.bytes, position⟩) hkind hn hchunk hlen
    hcpk hsig
  refine ⟨t, position + 0x10 + table.length, ?_, hread⟩
  unfold readTable
  rw [ExecM.bind_of_ok (onStream_of_ok (seek_apply position r.stream)),
    ExecM.bind_of_ok (onStream_of_ok (r := { r with stream := ⟨r.stream.bytes, position⟩ })
      hcontainer),
    ExecM.bind_of_ok (by rw [ExecM.lift_apply, Exec.errIf_of_not (by simp)]), ExecM.lift_apply, hnew]

end CpkReader

/-! ## The archive header -/

/-- The metadata of the archive header with given numbers. -/
def writtenMetadata (n : HeaderNumbers) (profile : CpkWriterProfile) : CpkMetadata where
  fileSize := n.archiveSize
  contentOffset := n.contentOffset
  contentSize := n.contentSize
  tocOffset := n.tocOffset
  tocSize := n.tocSize
  itocOffset := n.itocOffset
  itocSize := n.itocSize
  etocOffset := 0
  etocSize := 0
  gtocOffset := 0
  gtocSize := 0
  version := profile.version
  revision := profile.revision
  align := n.alignment
  sorted := false
  eid := if profile.indexMode.hasItoc && profile.directItoc then 1 else 0
  files := n.fileCount
  cpkMode := profile.indexMode.cpkMode
  enableFileName := profile.indexMode.hasToc
  updateDateTime := profile.updateDateTime
  codec := 0
  dpkItoc := 0
  enableTocCrc := false
  enableFileCrc := false

section Metadata

variable {n : HeaderNumbers} {profile : CpkWriterProfile} {t : HighTable}
  (h : (headerBuilder n profile).ReadBack t)

include h

/-- A number of the archive header is read back by the name of its column. -/
private theorem headerU64_at {name : String} {j : ℕ} {v : UtfValue} {m : UInt64}
    (hcolumn : headerColumns.findIdx? (·.name.nulPrefix == name) = some j)
    (hv : (headerValues n profile)[j]? = some v)
    (hm : (∃ k : UInt16, v = .uInt16 k ∧ m = k.toUInt64) ∨
      (∃ k : UInt32, v = .uInt32 k ∧ m = k.toUInt64) ∨ v = .uInt64 m) :
    headerU64 t name = m :=
  h.headerU64_eq hcolumn (h.numericAt_eq (List.getElem?_cons_zero (a := headerValues n profile)) hv
    hm)

/-- A 64-bit field of the archive header is read back. -/
private theorem headerU64_uInt64 {name : String} {j : ℕ} {m : UInt64}
    (hcolumn : headerColumns.findIdx? (·.name.nulPrefix == name) = some j)
    (hv : (headerValues n profile)[j]? = some (.uInt64 m)) : headerU64 t name = m :=
  headerU64_at h hcolumn hv (Or.inr (Or.inr rfl))

/-- A 32-bit field of the archive header is read back. -/
private theorem headerU32_uInt32 {name : String} {j : ℕ} {m : UInt32}
    (hcolumn : headerColumns.findIdx? (·.name.nulPrefix == name) = some j)
    (hv : (headerValues n profile)[j]? = some (.uInt32 m)) : headerU32 t name = m := by
  rw [headerU32, headerU64_at h hcolumn hv (Or.inr (Or.inl ⟨m, rfl, rfl⟩)), UInt32.toNat_toUInt64,
    UInt32.tryFrom_toNat, Option.getD_some]

/-- A 16-bit field of the archive header is read back. -/
private theorem headerU16_uInt16 {name : String} {j : ℕ} {m : UInt16}
    (hcolumn : headerColumns.findIdx? (·.name.nulPrefix == name) = some j)
    (hv : (headerValues n profile)[j]? = some (.uInt16 m)) : headerU16 t name = m := by
  rw [headerU16, headerU64_at h hcolumn hv (Or.inl ⟨m, rfl, rfl⟩), UInt16.toNat_toUInt64,
    UInt16.tryFrom_toNat, Option.getD_some]

/-- A flag of the archive header is read back. -/
private theorem headerFlag_uInt16 {name : String} {j : ℕ} {m : UInt16}
    (hcolumn : headerColumns.findIdx? (·.name.nulPrefix == name) = some j)
    (hv : (headerValues n profile)[j]? = some (.uInt16 m)) :
    (headerU64 t name != 0) = (m.toUInt64 != 0) := by
  rw [headerU64_at h hcolumn hv (Or.inl ⟨m, rfl, rfl⟩)]

/-- **The metadata of a written archive header.**

**Proof sketch.** Field by field: each is looked up by the name of its column, whose index is
evaluated, and the cell in that column is read back. -/
theorem parseMetadata_headerBuilder : parseMetadata t = writtenMetadata n profile := by
  have hflag : ((if profile.indexMode.hasToc = true then (1 : UInt16) else 0).toUInt64 != 0) =
      profile.indexMode.hasToc := by
    cases profile.indexMode.hasToc <;> rfl
  rw [parseMetadata, writtenMetadata, CpkMetadata.mk.injEq]
  refine ⟨headerU64_uInt64 h (j := 1) (by decide +kernel) rfl,
    headerU64_uInt64 h (j := 2) (by decide +kernel) rfl,
    headerU64_uInt64 h (j := 3) (by decide +kernel) rfl,
    headerU64_uInt64 h (j := 4) (by decide +kernel) rfl,
    headerU64_uInt64 h (j := 5) (by decide +kernel) rfl,
    headerU64_uInt64 h (j := 8) (by decide +kernel) rfl,
    headerU64_uInt64 h (j := 9) (by decide +kernel) rfl,
    headerU64_uInt64 h (j := 6) (by decide +kernel) rfl,
    headerU64_uInt64 h (j := 7) (by decide +kernel) rfl,
    headerU64_uInt64 h (j := 10) (by decide +kernel) rfl,
    headerU64_uInt64 h (j := 11) (by decide +kernel) rfl,
    headerU16_uInt16 h (j := 13) (by decide +kernel) rfl,
    headerU16_uInt16 h (j := 14) (by decide +kernel) rfl,
    headerU16_uInt16 h (j := 15) (by decide +kernel) rfl,
    headerFlag_uInt16 h (j := 16) (m := 0) (by decide +kernel) rfl,
    headerU16_uInt16 h (j := 17) (by decide +kernel) rfl,
    headerU32_uInt32 h (j := 12) (by decide +kernel) rfl,
    headerU32_uInt32 h (j := 19) (by decide +kernel) rfl,
    (headerFlag_uInt16 h (j := 18) (by decide +kernel) rfl).trans hflag,
    headerU64_uInt64 h (j := 0) (by decide +kernel) rfl,
    headerU32_uInt32 h (j := 22) (by decide +kernel) rfl,
    headerU32_uInt32 h (j := 23) (by decide +kernel) rfl,
    headerFlag_uInt16 h (j := 24) (m := 0) (by decide +kernel) rfl,
    headerFlag_uInt16 h (j := 25) (m := 0) (by decide +kernel) rfl⟩

end Metadata

/-! ## The table of contents -/

/-- The entry that a table of contents gives back for a packed entry. -/
def tocEntry (file : CpkInputFile) (fileOffset absoluteOffset : UInt64) : CpkFile :=
  CpkFile.new file.directory.nulPrefix file.fileName.nulPrefix fileOffset absoluteOffset file.size
    file.extractSize (some file.id) file.userString.nulPrefix none

/-- When all rows are read, each of them is. -/
theorem tocRow_of_tocRows {toc : HighTable} {columns : TocColumns} {count row : ℕ}
    {entries : List CpkFile} (h : tocRows toc columns count row = .ok entries) {i : ℕ}
    (hi : row ≤ i) (hcount : i < row + count) : ∃ e, tocRow toc columns i = .ok e := by
  induction count generalizing row entries with
  | zero => omega
  | succ count ih =>
    rw [tocRows, Exec.bind_eq_ok] at h
    obtain ⟨first, hfirst, h⟩ := h
    rw [Exec.bind_eq_ok] at h
    obtain ⟨others, hothers, -⟩ := h
    rcases eq_or_lt_of_le hi with rfl | hlt
    · exact ⟨first, hfirst⟩
    · exact ih hothers hlt (by omega)

section Toc

variable {files : List CpkInputFile} {offsets : List UInt64} {t : HighTable}
  (h : (tocBuilder files offsets).ReadBack t)

include h

/-- The columns of a written table of contents. -/
theorem tocColumns_tocBuilder : tocColumns t = .ok
    { fileName := 1, fileSize := 2, fileOffset := 4, dirName := some 0, extractSize := some 3
      id := some 5, userString := some 6, fileCrc := none } := by
  have hcolumn : ∀ (name : String) (j : Option ℕ),
      tocTableColumns.findIdx? (·.name.nulPrefix == name) = j → t.columnIndex name = j :=
    fun name j hj => (h.columnIndex name).trans hj
  unfold tocColumns
  rw [hcolumn "FileName" (some 1) (by decide +kernel), Exec.okOr_some, Exec.ok_bind,
    hcolumn "FileSize" (some 2) (by decide +kernel), Exec.okOr_some, Exec.ok_bind,
    hcolumn "FileOffset" (some 4) (by decide +kernel), Exec.okOr_some, Exec.ok_bind,
    hcolumn "DirName" (some 0) (by decide +kernel),
    hcolumn "ExtractSize" (some 3) (by decide +kernel), hcolumn "ID" (some 5) (by decide +kernel),
    hcolumn "UserString" (some 6) (by decide +kernel),
    hcolumn "FileCrc" none (by decide +kernel)]
  rfl

/-- The entry of a row of a written table of contents. -/
theorem tocRow_tocBuilder {i : ℕ} {file : CpkInputFile} {offset absolute : UInt64}
    (hfile : files[i]? = some file) (hoffset : offsets[i]? = some offset)
    (hname : file.fileName ≠ "") (habsolute : absolute.toNat = 0x800 + offset.toNat) :
    tocRow t { fileName := 1, fileSize := 2, fileOffset := 4, dirName := some 0
               extractSize := some 3, id := some 5, userString := some 6, fileCrc := none } i =
      .ok (tocEntry file offset absolute) := by
  have hrow : (tocBuilder files offsets).rows[i]? = some (tocValues file offset) := by
    rw [tocBuilder, List.getElem?_zipWith, hfile, hoffset]
  have hadd : engineTocFileBase.checkedAdd offset = some absolute :=
    UInt64.checkedAdd_eq_some.mpr habsolute
  have hu32 : ∀ v : UInt32, sizeU32 v.toUInt64 = .ok v := fun v => by
    rw [sizeU32, UInt32.toNat_toUInt64, UInt32.tryFrom_toNat, Exec.okOr_some]
  unfold tocRow
  rw [h.stringAt_eq hrow (j := 1) rfl, if_neg hname, Exec.okOr_some, Exec.ok_bind,
    h.numericAt_uInt32 hrow (j := 2) rfl, Exec.okOr_some, Exec.ok_bind, hu32, Exec.ok_bind,
    Option.bind_some, h.numericAt_uInt32 hrow (j := 3) rfl, Option.getD_some, hu32, Exec.ok_bind,
    h.numericAt_uInt64 hrow (j := 4) rfl, Exec.okOr_some, Exec.ok_bind, hadd, Exec.okOr_some,
    Exec.ok_bind, h.optionalString_eq hrow (j := 0) rfl, h.optionalString_eq hrow (j := 6) rfl]
  have hid : u32At t i (some 5) = some file.id := by
    change (numericAt t i 5).bind (fun v => UInt32.tryFrom v.toNat) = _
    rw [h.numericAt_uInt32 hrow (j := 5) rfl, Option.bind_some, UInt32.toNat_toUInt64,
      UInt32.tryFrom_toNat]
  rw [hid]
  rfl

/-- Entries are read only when no file name is empty. -/
theorem fileName_ne_of_tocRows (hlen : offsets.length = files.length) {entries : List CpkFile}
    (hentries : (do
      let columns ← tocColumns t
      tocRows t columns t.rows.length 0) = .ok entries) : ∀ f ∈ files, f.fileName ≠ "" := by
  rw [tocColumns_tocBuilder h, Exec.ok_bind] at hentries
  intro f hf hempty
  obtain ⟨i, hi, rfl⟩ := List.mem_iff_getElem.mp hf
  have hrow : (tocBuilder files offsets).rows[i]? =
      some (tocValues files[i] (getElem offsets i (by omega))) := by
    rw [tocBuilder, List.getElem?_zipWith, List.getElem?_eq_getElem hi,
      List.getElem?_eq_getElem (by omega)]
  have hcount : i < 0 + t.rows.length := by
    rw [h.rowCount, tocBuilder, List.length_zipWith]
    omega
  obtain ⟨e, he⟩ := tocRow_of_tocRows hentries (Nat.zero_le i) hcount
  unfold tocRow at he
  rw [h.stringAt_eq hrow (j := 1) rfl, if_pos hempty] at he
  cases he

/-- **The entries of a written table of contents.**

**Proof sketch.** Each row is read back by `tocRow_tocBuilder`; induction on the number of rows that
are left collects them from a given row on. -/
theorem tocRows_tocBuilder {absolutes : List UInt64} (hlen : absolutes.length = files.length)
    (hnames : ∀ f ∈ files, f.fileName ≠ "")
    (habsolutes : List.Forall₂ (fun o r => UInt64.toNat o = 0x800 + UInt64.toNat r) absolutes
      offsets) :
    ∃ entries, (do
      let columns ← tocColumns t
      tocRows t columns t.rows.length 0) = .ok entries ∧ entries.length = files.length ∧
      ∀ (i : ℕ) (f : CpkInputFile) (o : UInt64), files[i]? = some f → absolutes[i]? = some o →
        ∃ r, entries[i]? = some (tocEntry f r o) := by
  have hcount : t.rows.length = files.length := by
    rw [h.rowCount, tocBuilder, List.length_zipWith, ← habsolutes.length_eq, hlen, Nat.min_self]
  rw [tocColumns_tocBuilder h, Exec.ok_bind, hcount]
  have hrow : ∀ i < files.length, ∃ f o r, files[i]? = some f ∧ absolutes[i]? = some o ∧
      tocRow t { fileName := 1, fileSize := 2, fileOffset := 4, dirName := some 0
                 extractSize := some 3, id := some 5, userString := some 6, fileCrc := none } i =
        .ok (tocEntry f r o) := by
    intro i hi
    have hi₁ : i < absolutes.length := by omega
    have hi₂ : i < offsets.length := habsolutes.length_eq ▸ hi₁
    refine ⟨files[i], absolutes[i], offsets[i], List.getElem?_eq_getElem hi,
      List.getElem?_eq_getElem hi₁, ?_⟩
    exact tocRow_tocBuilder h (List.getElem?_eq_getElem hi) (List.getElem?_eq_getElem hi₂)
      (hnames _ (List.getElem_mem hi)) (List.forall₂_iff_get.mp habsolutes |>.2 i hi₁ hi₂)
  -- the rows from `row` on
  have hrows : ∀ count row, row + count = files.length → ∃ entries,
      tocRows t { fileName := 1, fileSize := 2, fileOffset := 4, dirName := some 0
                  extractSize := some 3, id := some 5, userString := some 6, fileCrc := none }
        count row = .ok entries ∧ entries.length = count ∧
      ∀ k f o, files[row + k]? = some f → absolutes[row + k]? = some o →
        ∃ r, entries[k]? = some (tocEntry f r o) := by
    intro count
    induction count with
    | zero =>
      intro row hend
      refine ⟨[], rfl, rfl, fun k f o hf _ => ?_⟩
      have := (List.getElem?_eq_some_iff.mp hf).1
      omega
    | succ count ih =>
      intro row hend
      obtain ⟨f, o, r, hf, ho, hfirst⟩ := hrow row (by omega)
      obtain ⟨entries, hentries, hlen', hrest⟩ := ih (row + 1) (by omega)
      refine ⟨tocEntry f r o :: entries, ?_, by simp [hlen'], fun k f' o' hf' ho' => ?_⟩
      · rw [tocRows, hfirst, Exec.ok_bind, hentries]
        rfl
      · rcases k with _ | k
        · obtain rfl := Option.some.inj (hf.symm.trans hf')
          obtain rfl := Option.some.inj (ho.symm.trans ho')
          exact ⟨r, rfl⟩
        · rw [List.getElem?_cons_succ]
          exact hrest k f' o' (by rwa [Nat.add_right_comm]) (by rwa [Nat.add_right_comm])
  obtain ⟨entries, hentries, hlen', hall⟩ := hrows files.length 0 (Nat.zero_add _)
  exact ⟨entries, hentries, hlen', fun i f o hf ho => hall i f o (by rwa [Nat.zero_add])
    (by rwa [Nat.zero_add])⟩

end Toc

/-! ## The ID table -/

/-- The row that an ID table gives back for a packed entry. -/
def itocRowRead (file : CpkInputFile) : ItocRow := ⟨file.id, file.size, file.extractSize, none⟩

section Itoc

/-- **The rows of a written ID table**, narrow or wide.

**Proof sketch.** The columns are found by name. The cells of a row are read back as numbers: IDs
have 16 bits, and the sizes have as many as the table is wide, in which they fit. Induction on the
number of rows that are left collects them. -/
theorem collectItocRows_itocBuilder {files : List CpkInputFile} {lowWidth : Bool} {name : String}
    {t : HighTable} (h : (itocBuilder files lowWidth name).ReadBack t)
    (hids : ∀ f ∈ files, f.id.toNat < 2 ^ 16)
    (hfits : lowWidth = true → ∀ f ∈ files, f.fitsLow = true) :
    collectItocRows t = .ok (files.map itocRowRead) := by
  have hcolumns : (itocBuilder files lowWidth name).columns =
      itocColumns (if lowWidth = true then .uInt16 else .uInt32) := rfl
  have hcolumn : ∀ (column : String) (j : Option ℕ),
      (∀ sizeType, (itocColumns sizeType).findIdx? (·.name.nulPrefix == column) = j) →
      t.columnIndex column = j := fun column j hj => by
    rw [h.columnIndex, hcolumns, hj]
  have hcount : t.rows.length = files.length := by
    rw [h.rowCount, itocBuilder, List.length_map]
  have hu32 : ∀ v : UInt32, sizeU32 v.toUInt64 = .ok v := fun v => by
    rw [sizeU32, UInt32.toNat_toUInt64, UInt32.tryFrom_toNat, Exec.okOr_some]
  have hu16 : ∀ v : UInt32, v.toNat < 2 ^ 16 → v.toUInt16.toUInt64 = v.toUInt64 := fun v hv => by
    rw [← UInt64.toNat_inj, UInt16.toNat_toUInt64, UInt32.toNat_toUInt16, UInt32.toNat_toUInt64,
      Nat.mod_eq_of_lt hv]
  have hrow : ∀ i (hi : i < files.length),
      itocRow t 0 1 2 none i = .ok (itocRowRead files[i]) := by
    intro i hi
    have hmem := List.getElem_mem hi
    have hrowAt : (itocBuilder files lowWidth name).rows[i]? =
        some (itocRowOf lowWidth files[i]) := by
      rw [itocBuilder, List.getElem?_map, List.getElem?_eq_getElem hi, Option.map_some]
    have hcells : numericAt t i 0 = some files[i].id.toUInt64 ∧
        numericAt t i 1 = some files[i].size.toUInt64 ∧
        numericAt t i 2 = some files[i].extractSize.toUInt64 := by
      rw [← hu16 _ (hids _ hmem)]
      cases lowWidth with
      | true =>
        obtain ⟨hsize, hextract⟩ := fitsLow_iff.mp (hfits rfl _ hmem)
        rw [← hu16 _ hsize, ← hu16 _ hextract]
        exact ⟨h.numericAt_uInt16 hrowAt rfl, h.numericAt_uInt16 hrowAt rfl,
          h.numericAt_uInt16 hrowAt rfl⟩
      | false =>
        exact ⟨h.numericAt_uInt16 hrowAt rfl, h.numericAt_uInt32 hrowAt rfl,
          h.numericAt_uInt32 hrowAt rfl⟩
    unfold itocRow
    rw [hcells.1, Exec.okOr_some, Exec.ok_bind, UInt32.toNat_toUInt64, UInt32.tryFrom_toNat,
      Exec.okOr_some, Exec.ok_bind, hcells.2.1, Exec.okOr_some, Exec.ok_bind, hu32, Exec.ok_bind,
      hcells.2.2, Option.getD_some, hu32, Exec.ok_bind]
    rfl
  have hrows : ∀ count row, row + count = files.length →
      itocRows t 0 1 2 none count row = .ok ((files.drop row).map itocRowRead) := by
    intro count
    induction count with
    | zero =>
      intro row hend
      rw [List.drop_eq_nil_of_le (by omega)]
      rfl
    | succ count ih =>
      intro row hend
      have hlt : row < files.length := by omega
      rw [itocRows, hrow row hlt, Exec.ok_bind, ih (row + 1) (by omega),
        List.drop_eq_getElem_cons hlt]
      rfl
  unfold collectItocRows
  rw [hcolumn "ID" (some 0) (by intro sizeType; cases sizeType <;> decide +kernel),
    hcolumn "FileSize" (some 1) (by intro sizeType; cases sizeType <;> decide +kernel),
    hcolumn "ExtractSize" (some 2) (by intro sizeType; cases sizeType <;> decide +kernel),
    hcolumn "FileCrc" none (by intro sizeType; cases sizeType <;> decide +kernel), hcount]
  exact hrows files.length 0 (Nat.zero_add _)

/-- **Sorting the rows** of a permutation of entries with strictly ascending IDs gives the rows of
the entries.

**Proof sketch.** Both lists are sorted by ID and permutations of each other; as no ID occurs twice,
they are equal. In a strictly ascending list no neighbours are equal. -/
theorem sortById_eq {rows : List ItocRow} {physical : List CpkInputFile}
    (hperm : rows.Perm (physical.map itocRowRead))
    (hids : (physical.map CpkInputFile.id).Pairwise (· < ·)) :
    sortById rows = physical.map itocRowRead ∧
      hasEqualNeighbours (physical.map itocRowRead) = false := by
  have hsorted : (physical.map itocRowRead).Pairwise fun a b => a.id < b.id := by
    rw [List.pairwise_map] at hids ⊢
    exact hids
  constructor
  · have hle : (physical.map itocRowRead).Pairwise fun a b => a.id ≤ b.id :=
      hsorted.imp fun hab => UInt32.le_of_lt hab
    refine List.Perm.eq_of_pairwise ?_ (List.pairwise_insertionSort _ _) hle
      ((List.perm_insertionSort _ _).trans hperm)
    -- two rows with the same ID are the same row
    intro a b ha hb hab hba
    have hid : a.id = b.id := UInt32.le_antisymm hab hba
    have ha' : a ∈ physical.map itocRowRead :=
      hperm.mem_iff.mp ((List.perm_insertionSort _ _).mem_iff.mp ha)
    obtain ⟨i, hi, rfl⟩ := List.mem_iff_getElem.mp ha'
    obtain ⟨j, hj, rfl⟩ := List.mem_iff_getElem.mp hb
    rcases Nat.lt_trichotomy i j with hij | rfl | hij
    · have hlt := List.pairwise_iff_getElem.mp hsorted i j hi hj hij
      rw [hid] at hlt
      exact absurd hlt (UInt32.lt_irrefl _)
    · rfl
    · have hlt := List.pairwise_iff_getElem.mp hsorted j i hj hi hij
      rw [hid] at hlt
      exact absurd hlt (UInt32.lt_irrefl _)
  · have hnone : ∀ rows : List ItocRow, rows.Pairwise (fun a b => a.id < b.id) →
        hasEqualNeighbours rows = false := by
      intro rows
      induction rows with
      | nil => exact fun _ => rfl
      | cons a rows ih =>
        intro hrows
        cases rows with
        | nil => rfl
        | cons b rows =>
          have hab := (List.pairwise_cons.mp hrows).1 b (List.mem_cons_self ..)
          rw [hasEqualNeighbours, ih (List.pairwise_cons.mp hrows).2, Bool.or_false,
            beq_eq_false_iff_ne]
          exact UInt32.ne_of_lt hab
    exact hnone _ hsorted

end Itoc

end CriArchive
