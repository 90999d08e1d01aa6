import Mathlib.Data.List.Sort
import CriArchive.Lib.Layout
import CriArchive.Cpk.Header
import CriArchive.Cpk.Encrypt
import CriArchive.Cpk.Compress.Layla

set_option relaxedAutoImplicit false
set_option autoImplicit false

/-!
# Reading archives

`cpk/reader.rs`, built with the CRILAYLA feature as the command line tool builds it: the archive
header and its metadata, the two kinds of index (the table of contents and the ID table), and the
payloads of entries.

## Main definitions

* `CpkMetadata`, `parseMetadata` — the fields of the archive header.
* `CpkReader` — a reader: a stream, the position the archive starts at, the metadata once it was
  read, and the decompressor's allocator.
* `CpkReader.getFiles`, `readToc`, `readItoc` — the entries of an archive.
* `CpkReader.readPackedFile`, `CpkReader.extractFile` — the payload of an entry.

## Main results

* `CpkReader.getFiles_ne_fault` — reading the entries never faults.
-/

namespace CriArchive

open ByteStream

/-- `ENGINE_TOC_FILE_BASE`: offsets in a table of contents are relative to this position. -/
def engineTocFileBase : UInt64 := 0x800

/-! ## Metadata -/

/-- The fields of the archive header. -/
structure CpkMetadata where
  fileSize : UInt64
  contentOffset : UInt64
  contentSize : UInt64
  tocOffset : UInt64
  tocSize : UInt64
  itocOffset : UInt64
  itocSize : UInt64
  etocOffset : UInt64
  etocSize : UInt64
  gtocOffset : UInt64
  gtocSize : UInt64
  version : UInt16
  revision : UInt16
  align : UInt16
  sorted : Bool
  eid : UInt16
  files : UInt32
  cpkMode : UInt32
  enableFileName : Bool
  updateDateTime : UInt64
  codec : UInt32
  dpkItoc : UInt32
  enableTocCrc : Bool
  enableFileCrc : Bool
  deriving DecidableEq, Repr

section Metadata

variable (table : HighTable)

/-- A number of the header row, zero when it is missing. -/
def headerU64 (name : String) : UInt64 := (table.u64ByName 0 name).getD 0

/-- A 32-bit number of the header row, zero when it is missing or does not fit. -/
def headerU32 (name : String) : UInt32 :=
  (UInt32.tryFrom (headerU64 table name).toNat).getD 0

/-- A 16-bit number of the header row, zero when it is missing or does not fit. -/
def headerU16 (name : String) : UInt16 :=
  (UInt16.tryFrom (headerU64 table name).toNat).getD 0

/-- `parse_metadata`. -/
def parseMetadata : CpkMetadata where
  fileSize := headerU64 table "FileSize"
  contentOffset := headerU64 table "ContentOffset"
  contentSize := headerU64 table "ContentSize"
  tocOffset := headerU64 table "TocOffset"
  tocSize := headerU64 table "TocSize"
  itocOffset := headerU64 table "ItocOffset"
  itocSize := headerU64 table "ItocSize"
  etocOffset := headerU64 table "EtocOffset"
  etocSize := headerU64 table "EtocSize"
  gtocOffset := headerU64 table "GtocOffset"
  gtocSize := headerU64 table "GtocSize"
  version := headerU16 table "Version"
  revision := headerU16 table "Revision"
  align := headerU16 table "Align"
  sorted := headerU64 table "Sorted" != 0
  eid := headerU16 table "EID"
  files := headerU32 table "Files"
  cpkMode := headerU32 table "CpkMode"
  enableFileName := headerU64 table "EnableFileName" != 0
  updateDateTime := headerU64 table "UpdateDateTime"
  codec := headerU32 table "Codec"
  dpkItoc := headerU32 table "DpkItoc"
  enableTocCrc := headerU64 table "EnableTocCrc" != 0
  enableFileCrc := headerU64 table "EnableFileCrc" != 0

end Metadata

/-! ## Cells -/

/-- `string_at`: the string of a cell; offset zero is a null pointer. -/
def stringAt (table : HighTable) (row column : ℕ) : Option String :=
  match table.value row column with
  | some (.string offset) => if offset = 0 then none else table.strings.getString offset
  | _ => none

/-- `numeric_at`: the number of a cell. -/
def numericAt (table : HighTable) (row column : ℕ) : Option UInt64 :=
  (table.value row column).bind rowValueToU64

/-- The number of a cell, when it fits 32 bits. -/
def u32At (table : HighTable) (row : ℕ) (column : Option ℕ) : Option UInt32 := do
  let column ← column
  let value ← numericAt table row column
  UInt32.tryFrom value.toNat

/-- A size that must fit 32 bits. -/
def sizeU32 (size : UInt64) : Exec Error UInt32 :=
  Exec.okOr (UInt32.tryFrom size.toNat) (.reader (.fileTooLarge size))

/-! ## The table of contents -/

/-- The columns of a table of contents. -/
structure TocColumns where
  fileName : ℕ
  fileSize : ℕ
  fileOffset : ℕ
  dirName : Option ℕ
  extractSize : Option ℕ
  id : Option ℕ
  userString : Option ℕ
  fileCrc : Option ℕ
  deriving DecidableEq, Repr

/-- The columns of a table of contents by their names; three of them are required. -/
def tocColumns (toc : HighTable) : Exec Error TocColumns := do
  let fileName ← Exec.okOr (toc.columnIndex "FileName") (.reader (.invalidTocColumn "FileName"))
  let fileSize ← Exec.okOr (toc.columnIndex "FileSize") (.reader (.invalidTocColumn "FileSize"))
  let fileOffset ← Exec.okOr (toc.columnIndex "FileOffset")
    (.reader (.invalidTocColumn "FileOffset"))
  pure
    { fileName, fileSize, fileOffset
      dirName := toc.columnIndex "DirName"
      extractSize := toc.columnIndex "ExtractSize"
      id := toc.columnIndex "ID"
      userString := toc.columnIndex "UserString"
      fileCrc := toc.columnIndex "FileCrc" }

/-- An optional string of a row, empty when it is missing. -/
def optionalString (toc : HighTable) (row : ℕ) (column : Option ℕ) : String :=
  (column.bind (stringAt toc row)).getD ""

/-- The entry of a row of a table of contents. -/
def tocRow (toc : HighTable) (columns : TocColumns) (row : ℕ) : Exec Error CpkFile := do
  let fileName ← Exec.okOr (stringAt toc row columns.fileName) (.reader .missingFileName)
  let fileSizeU64 ← Exec.okOr (numericAt toc row columns.fileSize) (.reader .missingFileSize)
  let fileSize ← sizeU32 fileSizeU64
  let extractSize ← sizeU32 ((columns.extractSize.bind (numericAt toc row)).getD fileSizeU64)
  let fileOffset ← Exec.okOr (numericAt toc row columns.fileOffset) (.reader .missingFileOffset)
  let absoluteOffset ← Exec.okOr (engineTocFileBase.checkedAdd fileOffset)
    (.reader .missingFileOffset)
  pure (CpkFile.new (optionalString toc row columns.dirName) fileName fileOffset absoluteOffset
    fileSize extractSize (u32At toc row columns.id) (optionalString toc row columns.userString)
    (u32At toc row columns.fileCrc))

/-- The entries of `count` rows from the row `row` on. -/
def tocRows (toc : HighTable) (columns : TocColumns) : ℕ → ℕ → Exec Error (List CpkFile)
  | 0, _ => pure []
  | count + 1, row => do
    let file ← tocRow toc columns row
    let files ← tocRows toc columns count (row + 1)
    pure (file :: files)

/-! ## The ID table -/

/-- A row of an ID table. -/
structure ItocRow where
  id : UInt32
  fileSize : UInt32
  extractSize : UInt32
  fileCrc : Option UInt32
  deriving DecidableEq, Repr

/-- A row of an ID table, by the columns it is read from. -/
def itocRow (table : HighTable) (idCol fileSizeCol extractSizeCol : ℕ) (crcCol : Option ℕ)
    (row : ℕ) : Exec Error ItocRow := do
  let idU64 ← Exec.okOr (numericAt table row idCol) (.reader .invalidItoc)
  let id ← Exec.okOr (UInt32.tryFrom idU64.toNat) (.reader .invalidItoc)
  let fileSizeU64 ← Exec.okOr (numericAt table row fileSizeCol) (.reader .missingFileSize)
  let fileSize ← sizeU32 fileSizeU64
  let extractSize ← sizeU32 ((numericAt table row extractSizeCol).getD fileSizeU64)
  pure ⟨id, fileSize, extractSize, u32At table row crcCol⟩

/-- The rows of an ID table, `count` of them from the row `row` on. -/
def itocRows (table : HighTable) (idCol fileSizeCol extractSizeCol : ℕ) (crcCol : Option ℕ) :
    ℕ → ℕ → Exec Error (List ItocRow)
  | 0, _ => pure []
  | count + 1, row => do
    let first ← itocRow table idCol fileSizeCol extractSizeCol crcCol row
    let others ← itocRows table idCol fileSizeCol extractSizeCol crcCol count (row + 1)
    pure (first :: others)

/-- `collect_itoc_rows`. -/
def collectItocRows (table : HighTable) : Exec Error (List ItocRow) :=
  itocRows table ((table.columnIndex "ID").getD 0) ((table.columnIndex "FileSize").getD 1)
    ((table.columnIndex "ExtractSize").getD 2) (table.columnIndex "FileCrc") table.rows.length 0

/-- Two neighbours have the same ID. -/
def hasEqualNeighbours : List ItocRow → Bool
  | first :: second :: rows => first.id == second.id || hasEqualNeighbours (second :: rows)
  | _ => false

/-- The rows in the order of their IDs; rows with equal IDs keep their order. -/
def sortById (rows : List ItocRow) : List ItocRow := rows.insertionSort fun a b => a.id ≤ b.id

/-- `align_up` of `cpk/reader.rs`, by the remainder. -/
def readerAlignUp (value alignment : UInt64) : Exec Error (Option UInt64) :=
  if alignment ≤ 1 then pure (some value)
  else do
    let remainder ← Exec.orFault (value.checkedRem alignment)
    if remainder = 0 then pure (some value)
    else do
      let missing ← Exec.orFault (alignment.checkedSub remainder)
      pure (value.checkedAdd missing)

/-- The file name of an entry without a name, `{:05}.bin`. -/
def itocFileName (id : UInt32) : String :=
  "".pushn '0' (5 - (toString id.toNat).length) ++ toString id.toNat ++ ".bin"

/-- `materialize_itoc_rows`: the entries of sorted rows, placed one after another. -/
def materializeItocRows (contentOffset alignment : UInt64) :
    UInt64 → List ItocRow → Exec Error (List CpkFile)
  | _, [] => pure []
  | relativeOffset, row :: rows => do
    let absoluteOffset ← Exec.okOr (contentOffset.checkedAdd relativeOffset)
      (.reader .missingFileOffset)
    let padded ← readerAlignUp row.fileSize.toUInt64 alignment
    let paddedSize ← Exec.okOr padded (.reader .missingFileOffset)
    let next ← Exec.okOr (relativeOffset.checkedAdd paddedSize) (.reader .missingFileOffset)
    let files ← materializeItocRows contentOffset alignment next rows
    pure (CpkFile.new "" (itocFileName row.id) relativeOffset absoluteOffset row.fileSize
      row.extractSize (some row.id) "" row.fileCrc :: files)

/-! ## The reader -/

/-- The alignment that the reader uses: zero counts as one. -/
theorem toNat_max_one (align : UInt16) : (max align 1).toUInt64.toNat = max align.toNat 1 := by
  rw [UInt16.toNat_toUInt64]
  change (if align ≤ 1 then (1 : UInt16) else align).toNat = max align.toNat (1 : UInt16).toNat
  split_ifs with h
  · exact (max_eq_right (UInt16.le_iff_toNat_le.mp h)).symm
  · exact (max_eq_left (Nat.le_of_not_le (mt UInt16.le_iff_toNat_le.mpr h))).symm

/-- **Rounding up by the remainder** is rounding up, when the result has 64 bits; it does not
fault.

**Proof sketch.** With alignment one, or a value that is a multiple, nothing is added. Otherwise the
alignment less the remainder is, which is not negative; the sum is checked. -/
theorem readerAlignUp_eq {alignment : UInt64} (h : 1 ≤ alignment.toNat) (value : UInt64) :
    ∃ padded, readerAlignUp value alignment = .ok padded ∧
      ∀ w, padded = some w ↔ w.toNat = alignTo alignment.toNat value.toNat := by
  unfold readerAlignUp
  split_ifs with h1
  · have hone : alignment.toNat = 1 := by
      have := UInt64.le_iff_toNat_le.mp h1
      simp only [UInt64.reduceToNat] at this
      omega
    refine ⟨some value, rfl, fun w => ?_⟩
    rw [hone, alignTo_of_dvd one_pos (one_dvd _), Option.some_inj, ← UInt64.toNat_inj, eq_comm]
  · have hne : alignment ≠ 0 := by
      rintro rfl
      simp at h
    rw [UInt64.checkedRem, if_neg hne, Exec.orFault_some, Exec.ok_bind]
    have hmod : (value % alignment).toNat = value.toNat % alignment.toNat := UInt64.toNat_mod ..
    split_ifs with h0
    · refine ⟨some value, rfl, fun w => ?_⟩
      have hdvd : alignment.toNat ∣ value.toNat := by
        rw [Nat.dvd_iff_mod_eq_zero, ← hmod, h0]
        rfl
      rw [alignTo_of_dvd h hdvd, Option.some_inj, ← UInt64.toNat_inj, eq_comm]
    · have hne0 : value.toNat % alignment.toNat ≠ 0 := by
        rw [← hmod]
        exact fun hz => h0 (UInt64.toNat_inj.mp hz)
      have hlt := Nat.mod_lt value.toNat h
      have hsub : alignment.checkedSub (value % alignment) =
          some (alignment - value % alignment) := by
        rw [UInt64.checkedSub, if_pos (by omega)]
      have hval := (UInt64.checkedSub_eq_some.mp hsub).2
      rw [hsub, Exec.orFault_some, Exec.ok_bind]
      refine ⟨_, rfl, fun w => ?_⟩
      rw [UInt64.checkedAdd_eq_some, hval, hmod, alignTo_eq_of_mod h hne0]

/-- `CpkReader`. -/
structure CpkReader where
  stream : ByteStream
  startPos : UInt64
  metadata : Option CpkMetadata
  freeList : FreeList

namespace CpkReader

/-- `CpkReader::new_with_encryption`, on a stream at a given position and with a new allocator
whose memory has given contents. -/
def new (bytes : List UInt8) (startPos : UInt64) (slab heap : ℕ → UInt8) : CpkReader where
  stream := ⟨bytes, startPos.toNat⟩
  startPos := startPos
  metadata := none
  freeList := FreeList.new slab heap

/-- Use the stream. -/
def onStream {α : Type} (x : ExecM ByteStream Error α) : ExecM CpkReader Error α :=
  ExecM.zoom CpkReader.stream (fun r s => { r with stream := s }) x

/-- Use the allocator. -/
def onFreeList {α : Type} (x : ExecM FreeList Error α) : ExecM CpkReader Error α :=
  ExecM.zoom CpkReader.freeList (fun r l => { r with freeList := l }) x

section Files

variable (shiftJis : List UInt8 → String)

/-- Read the chunk at a position, which must have a given kind, and parse its table. -/
def readTable (position : ℕ) (kind : CpkChunkKind) : ExecM CpkReader Error HighTable := do
  onStream (seek position)
  let container ← onStream TableContainer.new
  ExecM.lift (Exec.errIf (container.kind ≠ kind) (.reader .invalidHeaderChunk))
  ExecM.lift (HighTable.new shiftJis container.table)

/-- `read_toc`. -/
def readToc (metadata : CpkMetadata) : ExecM CpkReader Error (List CpkFile) := do
  let r ← ExecM.get
  let tocPosition ← ExecM.lift (Exec.okOr (r.startPos.checkedAdd metadata.tocOffset)
    (.reader .missingFileOffset))
  let toc ← readTable shiftJis tocPosition.toNat .toc
  let columns ← ExecM.lift (tocColumns toc)
  ExecM.lift (tocRows toc columns toc.rows.length 0)

/-- The rows of an ID table: directly in the table, or in its two nested tables. -/
def itocTableRows (metadata : CpkMetadata) (itoc : HighTable) : Exec Error (List ItocRow) :=
  if metadata.eid ≠ 0 then collectItocRows itoc
  else do
    let lowBytes ← itoc.dataByName 0 "DataL"
    let dataL ← Exec.okOr lowBytes (.reader .invalidItoc)
    let highBytes ← itoc.dataByName 0 "DataH"
    let dataH ← Exec.okOr highBytes (.reader .invalidItoc)
    let low ← HighTable.new shiftJis dataL
    let high ← HighTable.new shiftJis dataH
    let lowRows ← collectItocRows low
    let highRows ← collectItocRows high
    pure (lowRows ++ highRows)

/-- `read_itoc`. -/
def readItoc (metadata : CpkMetadata) : ExecM CpkReader Error (List CpkFile) := do
  let r ← ExecM.get
  ExecM.lift (Exec.errIf (metadata.contentOffset = 0) (.reader .missingContentOffset))
  ExecM.lift (Exec.errIf (2 ^ 32 ≤ metadata.contentOffset.toNat)
    (.reader (.itocContentOffsetTooLarge metadata.contentOffset)))
  let itocPosition ← ExecM.lift (Exec.okOr (r.startPos.checkedAdd metadata.itocOffset)
    (.reader .missingFileOffset))
  let itoc ← readTable shiftJis itocPosition.toNat .itoc
  let rows ← ExecM.lift (itocTableRows shiftJis metadata itoc)
  ExecM.lift (Exec.errIf (hasEqualNeighbours (sortById rows)) (.reader .invalidItoc))
  ExecM.lift (materializeItocRows metadata.contentOffset (max metadata.align 1).toUInt64 0
    (sortById rows))

/-- Read the index that the metadata points to. -/
def readIndex (metadata : CpkMetadata) : ExecM CpkReader Error (List CpkFile) :=
  if metadata.tocOffset ≠ 0 then readToc shiftJis metadata
  else if metadata.itocOffset ≠ 0 then readItoc shiftJis metadata
  else ExecM.raise (.reader .missingTocAndItoc)

/-- The first half of `get_files`: read the archive header and keep its metadata. -/
def readMetadata : ExecM CpkReader Error CpkMetadata := do
  let r ← ExecM.get
  let table ← readTable shiftJis r.startPos.toNat .cpk
  ExecM.lift (Exec.errIf (table.rows = []) (.reader .invalidHeaderChunk))
  let r ← ExecM.get
  ExecM.set { r with metadata := some (parseMetadata table) }
  pure (parseMetadata table)

/-- `get_files`. -/
def getFiles : ExecM CpkReader Error (List CpkFile) := do
  let metadata ← readMetadata shiftJis
  readIndex shiftJis metadata

end Files

/-- `read_packed_file`. -/
def readPackedFile (file : CpkFile) : ExecM CpkReader Error (List UInt8) := do
  let r ← ExecM.get
  ExecM.lift (Exec.errIf (r.metadata = none) (.reader .getFilesNotCalled))
  let position ← ExecM.lift (Exec.okOr (r.startPos.checkedAdd file.absoluteOffset)
    (.reader .missingFileOffset))
  onStream (seek position.toNat)
  -- `usize` has 64 bits
  ExecM.lift (Exec.errIf (2 ^ 64 ≤ file.fileSize.toNat)
    (.reader (.fileTooLarge file.fileSize.toUInt64)))
  onStream (readExact .unexpectedEof file.fileSize.toNat)

section Extract

variable (E : FileDecryptor)

/-- Decrypt the bytes of an entry that is encrypted. -/
def decrypt (file : CpkFile) (packed : List UInt8) : Exec Error (List UInt8) :=
  if E.isEncrypted file packed then E.decryptInPlace packed else pure packed

/-- Decompress bytes that are compressed. -/
def inflate (output : List UInt8) : ExecM CpkReader Error (List UInt8) := do
  let compressed ← ExecM.lift (LaylaDecompressor.isCompressed output)
  if compressed then onFreeList (LaylaDecompressor.decompress output)
  else pure output

/-- `extract_file_with_packed`. -/
def extractFileWithPacked (file : CpkFile) :
    ExecM CpkReader Error (List UInt8 × List UInt8) := do
  let packed ← readPackedFile file
  let output ← ExecM.lift (decrypt E file packed)
  let output ← inflate output
  pure (packed, output)

/-- `extract_file`. -/
def extractFile (file : CpkFile) : ExecM CpkReader Error (List UInt8) := do
  let both ← extractFileWithPacked E file
  pure both.2

end Extract

/-! ## Safety -/

section Safety

variable {shiftJis : List UInt8 → String}

/-- An optional value that is required is read safely. -/
private theorem safe_required {α : Type} (x : Option α) (e : Error) :
    (Exec.okOr x e).Safe fun _ => True :=
  (Exec.safe_okOr x e).mono fun _ _ => trivial

/-- The columns of a TOC are found or refused. -/
theorem safe_tocColumns (toc : HighTable) : (tocColumns toc).Safe fun _ => True := by
  unfold tocColumns
  refine (safe_required _ _).bind fun fileName _ => ?_
  refine (safe_required _ _).bind fun fileSize _ => ?_
  exact (safe_required _ _).bind fun fileOffset _ => trivial

/-- A row of a TOC is read or refused. -/
theorem safe_tocRow (toc : HighTable) (columns : TocColumns) (row : ℕ) :
    (tocRow toc columns row).Safe fun _ => True := by
  unfold tocRow sizeU32
  refine (safe_required _ _).bind fun fileName _ => ?_
  refine (safe_required _ _).bind fun fileSizeU64 _ => ?_
  refine (safe_required _ _).bind fun fileSize _ => ?_
  refine (safe_required _ _).bind fun extractSize _ => ?_
  refine (safe_required _ _).bind fun fileOffset _ => ?_
  exact (safe_required _ _).bind fun absoluteOffset _ => trivial

/-- The rows of a TOC are read or refused. -/
theorem safe_tocRows (toc : HighTable) (columns : TocColumns) (count row : ℕ) :
    (tocRows toc columns count row).Safe fun _ => True := by
  induction count generalizing row with
  | zero => trivial
  | succ count ih =>
    refine (safe_tocRow toc columns row).bind fun file _ => ?_
    exact (ih (row + 1)).bind fun files _ => trivial

/-- A row of an ID table is read or refused. -/
theorem safe_itocRow (table : HighTable) (idCol fileSizeCol extractSizeCol : ℕ)
    (crcCol : Option ℕ) (row : ℕ) :
    (itocRow table idCol fileSizeCol extractSizeCol crcCol row).Safe fun _ => True := by
  unfold itocRow sizeU32
  refine (safe_required _ _).bind fun idU64 _ => ?_
  refine (safe_required _ _).bind fun id _ => ?_
  refine (safe_required _ _).bind fun fileSizeU64 _ => ?_
  refine (safe_required _ _).bind fun fileSize _ => ?_
  exact (safe_required _ _).bind fun extractSize _ => trivial

/-- The rows of an ID table are collected or refused. -/
theorem safe_collectItocRows (table : HighTable) :
    (collectItocRows table).Safe fun _ => True := by
  have hrows : ∀ (idCol fileSizeCol extractSizeCol : ℕ) (crcCol : Option ℕ) (count row : ℕ),
      (itocRows table idCol fileSizeCol extractSizeCol crcCol count row).Safe fun _ => True := by
    intro idCol fileSizeCol extractSizeCol crcCol count
    induction count with
    | zero => intro row; trivial
    | succ count ih =>
      intro row
      refine (safe_itocRow table idCol fileSizeCol extractSizeCol crcCol row).bind fun _ _ => ?_
      exact (ih (row + 1)).bind fun _ _ => trivial
  exact hrows _ _ _ _ _ _

/-- Rows of an ID table are made entries, or refused; the alignment is not zero, so that rounding up
does not divide by it. -/
theorem safe_materializeItocRows (contentOffset relativeOffset : UInt64) {alignment : UInt64}
    (halign : 1 ≤ alignment.toNat) (rows : List ItocRow) :
    (materializeItocRows contentOffset alignment relativeOffset rows).Safe fun _ => True := by
  induction rows generalizing relativeOffset with
  | nil => trivial
  | cons row rows ih =>
    refine (safe_required _ _).bind fun absoluteOffset _ => ?_
    obtain ⟨padded, hpadded, -⟩ := readerAlignUp_eq halign row.fileSize.toUInt64
    rw [hpadded, Exec.ok_bind]
    refine (safe_required _ _).bind fun paddedSize _ => ?_
    refine (safe_required _ _).bind fun next _ => ?_
    exact (ih next).bind fun files _ => trivial

/-- Reading and parsing the chunk at a position does not fault. -/
theorem safe_readTable (position : ℕ) (kind : CpkChunkKind) (r : CpkReader) :
    (readTable shiftJis position kind).Safe r fun _ _ => True := by
  unfold readTable onStream
  refine (ExecM.Safe.zoom (Q := fun _ => True) ?_).bind fun _ r₁ _ => ?_
  · exact (safe_seek position r.stream).mono fun _ _ _ => trivial
  refine (ExecM.Safe.zoom (TableContainer.safe_new r₁.stream)).bind fun container r₂ _ => ?_
  refine (ExecM.safe_lift (Exec.safe_errIf _ _)).bind fun _ r₃ _ => ?_
  exact (ExecM.safe_lift (HighTable.safe_new _)).mono fun _ _ _ => trivial

/-- The TOC is read or refused. -/
theorem safe_readToc (metadata : CpkMetadata) (r : CpkReader) :
    (readToc shiftJis metadata).Safe r fun _ _ => True := by
  unfold readToc
  refine (ExecM.safe_get r).bind fun r₀ r₁ _ => ?_
  refine (ExecM.safe_lift (safe_required _ _)).bind fun tocPosition r₂ _ => ?_
  refine (safe_readTable _ _ _).bind fun toc r₃ _ => ?_
  refine (ExecM.safe_lift (safe_tocColumns toc)).bind fun columns r₄ _ => ?_
  exact (ExecM.safe_lift (safe_tocRows toc columns _ _)).mono fun _ _ _ => trivial

/-- The rows of both nested tables, or of a direct table, are read or refused. -/
theorem safe_itocTableRows (metadata : CpkMetadata) (itoc : HighTable) :
    (itocTableRows shiftJis metadata itoc).Safe fun _ => True := by
  unfold itocTableRows
  split_ifs
  · exact safe_collectItocRows itoc
  · refine (itoc.safe_dataByName 0 "DataL").bind fun lowBytes _ => ?_
    refine (safe_required _ _).bind fun dataL _ => ?_
    refine (itoc.safe_dataByName 0 "DataH").bind fun highBytes _ => ?_
    refine (safe_required _ _).bind fun dataH _ => ?_
    refine (HighTable.safe_new dataL).bind fun low _ => ?_
    refine (HighTable.safe_new dataH).bind fun high _ => ?_
    refine (safe_collectItocRows low).bind fun lowRows _ => ?_
    exact (safe_collectItocRows high).bind fun highRows _ => trivial

/-- The ID table is read or refused. -/
theorem safe_readItoc (metadata : CpkMetadata) (r : CpkReader) :
    (readItoc shiftJis metadata).Safe r fun _ _ => True := by
  unfold readItoc
  refine (ExecM.safe_get r).bind fun r₀ r₁ _ => ?_
  refine (ExecM.safe_lift (Exec.safe_errIf _ _)).bind fun _ r₂ _ => ?_
  refine (ExecM.safe_lift (Exec.safe_errIf _ _)).bind fun _ r₃ _ => ?_
  refine (ExecM.safe_lift (safe_required _ _)).bind fun itocPosition r₄ _ => ?_
  refine (safe_readTable _ _ _).bind fun itoc r₅ _ => ?_
  refine (ExecM.safe_lift (safe_itocTableRows metadata itoc)).bind fun rows r₆ _ => ?_
  refine (ExecM.safe_lift (Exec.safe_errIf _ _)).bind fun _ r₇ _ => ?_
  have halign : 1 ≤ (max metadata.align 1).toUInt64.toNat := by
    rw [toNat_max_one]
    exact le_max_right _ _
  exact (ExecM.safe_lift (safe_materializeItocRows _ _ halign _)).mono fun _ _ _ => trivial

/-- The metadata are read or refused. -/
theorem safe_readMetadata (r : CpkReader) :
    (readMetadata shiftJis).Safe r fun _ _ => True := by
  unfold readMetadata
  refine (ExecM.safe_get r).bind fun r₀ r₁ _ => ?_
  refine (safe_readTable _ _ _).bind fun table r₂ _ => ?_
  refine (ExecM.safe_lift (Exec.safe_errIf _ _)).bind fun _ r₃ _ => ?_
  refine (ExecM.safe_get r₃).bind fun r₄ r₅ _ => ?_
  exact (ExecM.safe_set _ _).bind fun _ r₆ _ => trivial

/-- **The parser never panics.** Reading the entries of any stream from any position returns or
fails with an error: no slice, index or addition faults.

**Proof sketch.** The proof follows the calls: reading the metadata does not fault, and neither does
reading either index, whatever the metadata says. -/
theorem getFiles_ne_fault (shiftJis : List UInt8 → String) (r : CpkReader) :
    (getFiles shiftJis r).1 ≠ .fault := by
  have hsafe : (getFiles shiftJis).Safe r fun _ _ => True := by
    refine (safe_readMetadata r).bind fun metadata r₁ _ => ?_
    unfold readIndex
    split_ifs
    · exact safe_readToc metadata r₁
    · exact safe_readItoc metadata r₁
    · trivial
  exact hsafe.ne_fault

end Safety

end CpkReader

end CriArchive
