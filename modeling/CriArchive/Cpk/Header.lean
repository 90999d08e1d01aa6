import CriArchive.Schema.Columns
import CriArchive.Schema.Strings

set_option relaxedAutoImplicit false
set_option autoImplicit false

/-!
# Table chunks and tables

`cpk/header.rs`: a chunk of an archive is a header of 16 bytes and an embedded `@UTF` table,
which `TableContainer` reads from the archive stream; `HighTable` parses the table into columns,
rows and strings and gives access to its cells.

## Main definitions

* `TableContainer.new` — read a chunk; `decryptUtfScalar` — the XOR stream of encrypted tables.
* `HighTable.new` — parse a table; `HighTable.columnIndex`, `value`, `valueByName`, `u64ByName`,
  `dataByName`, `data` — its accessors; `rowValueToU64` — numeric cells.

## Main results

* `HighTable.safe_new`, `TableContainer.safe_new` — neither parser faults.
* `HighTable.new_eq` — the parse of a table whose sections are in order.
* `TableContainer.new_eq` — the read of a plaintext chunk.
-/

namespace CriArchive

open ByteStream Endian

/-- The size of a chunk header. -/
def cpkChunkHeaderSize : ℕ := 0x10

/-- The signature of a table, `@UTF`. -/
def utfSignature : List UInt8 := [0x40, 0x55, 0x54, 0x46]

/-! ## Chunks -/

/-- The XOR stream from a given key on. -/
def decryptUtfLoop (key : UInt8) : List UInt8 → List UInt8
  | [] => []
  | byte :: bytes => (byte ^^^ key) :: decryptUtfLoop (key * 0x15) bytes

/-- `decrypt_utf_scalar`. -/
def decryptUtfScalar (input : List UInt8) : List UInt8 := decryptUtfLoop 0x5f input

/-- A chunk: its kind and its table in plaintext. -/
structure TableContainer where
  kind : CpkChunkKind
  table : List UInt8
  deriving DecidableEq, Repr

namespace TableContainer

/-- `TableContainer::new`: read the chunk at the position. -/
def new : ExecM ByteStream Error TableContainer := do
  let chunkHeader ← readExact .unexpectedEof cpkChunkHeaderSize
  let magic ← ExecM.lift (Exec.slice chunkHeader 0 4)
  let kind := CpkChunkKind.fromMagic magic
  let sizeBytes ← ExecM.lift (Exec.slice chunkHeader 8 16)
  let tableSize := UInt64.ofNat (leNat sizeBytes)
  -- `usize` has 64 bits
  ExecM.lift (Exec.errIf (2 ^ 64 ≤ tableSize.toNat)
    (.table (.tooLargeForPlatform tableSize.toNat)))
  ExecM.lift (Exec.errIf (tableSize.toNat < headerSize)
    (.table (.invalidTableSize kind tableSize.toNat)))
  ExecM.lift (Exec.errIf (kind = .cpk ∧
      ((tableSize.checkedAdd 0x10).elim true fun size => decide (0x800 < size.toNat)) = true)
    (.table (.headerAreaExceeded tableSize.toNat)))
  let tableStart ← position
  let streamEnd ← seekEnd
  seek tableStart
  let remaining := streamEnd - tableStart
  ExecM.lift (Exec.errIf (remaining < tableSize.toNat)
    (.table (.truncatedChunk kind tableSize.toNat remaining)))
  let table ← readExact .unexpectedEof tableSize.toNat
  let marker ← ExecM.lift (Exec.index chunkHeader 4)
  -- a zero byte at +4 marks an encrypted table
  let table := if marker = 0 then decryptUtfScalar table else table
  ExecM.lift (Exec.errIf (¬utfSignature <+: table) (.table (.notUtfTable kind)))
  pure ⟨kind, table⟩

/-- **Reading a chunk does not fault**, whatever the stream holds. -/
theorem safe_new (s : ByteStream) : new.Safe s fun _ _ => True := by
  unfold new
  refine (safe_readExact _ _ _).bind ?_
  rintro chunkHeader t ⟨hlen, -⟩
  rw [cpkChunkHeaderSize] at hlen
  refine (ExecM.safe_lift (Exec.safe_slice (by omega) (by omega))).bind ?_
  intro magic u _
  refine (ExecM.safe_lift (Exec.safe_slice (by omega) (by omega))).bind ?_
  intro sizeBytes v _
  refine (ExecM.safe_lift (Exec.safe_errIf _ _)).bind fun _ w _ => ?_
  refine (ExecM.safe_lift (Exec.safe_errIf _ _)).bind fun _ w _ => ?_
  refine (ExecM.safe_lift (Exec.safe_errIf _ _)).bind fun _ w _ => ?_
  refine (safe_position _).bind fun _ w _ => ?_
  refine (safe_seekEnd _).bind fun _ w _ => ?_
  refine (safe_seek _ _).bind fun _ w _ => ?_
  refine (ExecM.safe_lift (Exec.safe_errIf _ _)).bind fun _ w _ => ?_
  refine (safe_readExact _ _ _).bind fun table w _ => ?_
  refine (ExecM.safe_lift (Exec.safe_index (by omega))).bind fun marker x _ => ?_
  refine (ExecM.safe_lift (Exec.safe_errIf _ _)).bind fun _ y _ => ?_
  trivial

/-- **The read of a plaintext chunk.** A chunk of a known kind whose table has a signature, fills
its header and, for the archive header, stays below `0x800`, is read back whatever follows it.

**Proof sketch.** Step by step along the source: the sixteen bytes of the header are read, cut into
kind, marker and size, all checks pass, and the table is read behind them. The marker is not zero,
so that the table is not decrypted. -/
theorem new_eq {s : ByteStream} {kind : CpkChunkKind} {n : UInt64} {table rest : List UInt8}
    (hkind : ∀ m, kind ≠ .unknown m) (hn : n.toNat = table.length)
    (hbytes : s.bytes.drop s.pos =
      kind.magic ++ (List.replicate 4 0xff ++ (toLeBytesU64 n ++ (table ++ rest))))
    (hlen : headerSize ≤ table.length) (hcpk : kind = .cpk → table.length + 0x10 ≤ 0x800)
    (hsig : utfSignature <+: table) :
    new s = (.ok ⟨kind, table⟩, ⟨s.bytes, s.pos + 0x10 + table.length⟩) := by
  have hmagic : kind.magic.length = 4 := by
    cases kind with
    | unknown m => exact absurd rfl (hkind m)
    | _ => rfl
  set chunkHeader := kind.magic ++ (List.replicate 4 (0xff : UInt8) ++ toLeBytesU64 n) with hch
  have hchLen : chunkHeader.length = 0x10 := by simp [hch, hmagic]
  have hsplit : s.bytes.drop s.pos = chunkHeader ++ (table ++ rest) := by
    simp [hbytes, hch]
  have hread : readExact Error.unexpectedEof 0x10 s = (.ok chunkHeader, ⟨s.bytes, s.pos + 0x10⟩) :=
    readExact_of_drop hsplit hchLen
  have htable : s.bytes.drop (s.pos + 0x10) = table ++ rest := by
    rw [← List.drop_drop, hsplit, ← hchLen, List.drop_left]
  have hkindSlice : (Exec.slice chunkHeader 0 4 : Exec Error _) = .ok kind.magic := by
    rw [Exec.slice_eq (by omega) (by omega), List.drop_zero, Nat.sub_zero, hch, ← hmagic,
      List.take_left]
  have hsizeSlice : (Exec.slice chunkHeader 8 16 : Exec Error _) = .ok (toLeBytesU64 n) := by
    rw [Exec.slice_eq (by omega) (by omega), hch, ← List.append_assoc,
      List.drop_left' (by simp [hmagic]), List.take_of_length_le (by simp)]
  have hmarker : (Exec.index chunkHeader 4 : Exec Error UInt8) = .ok 0xff := by
    simp [Exec.index, hch, hmagic]
  have hstreamLen : table.length ≤ s.bytes.length - (s.pos + 0x10) := by
    rw [← List.length_drop, htable]
    simp
  have hguard : ¬(kind = .cpk ∧
      ((n.checkedAdd 0x10).elim true fun size => decide (0x800 < size.toNat)) = true) := by
    rintro ⟨hk, hbig⟩
    have hsmall := hcpk hk
    have hadd : n.checkedAdd 0x10 = some (n + 0x10) := by
      rw [UInt64.checkedAdd, if_pos (by rw [hn]; exact hsmall.trans_lt (by decide))]
    have hval : (n + 0x10).toNat = table.length + 0x10 := by
      rw [UInt64.checkedAdd_eq_some.mp hadd, hn]
      rfl
    rw [hadd, Option.elim_some, hval, decide_eq_true_eq] at hbig
    omega
  unfold new
  rw [cpkChunkHeaderSize, ExecM.bind_of_ok hread,
    ExecM.bind_of_ok (by rw [ExecM.lift_apply, hkindSlice]),
    ExecM.bind_of_ok (by rw [ExecM.lift_apply, hsizeSlice])]
  dsimp only
  rw [ofNat_leNat_toLeBytesU64, CpkChunkKind.fromMagic_magic_of_ne hkind,
    ExecM.bind_of_ok (by rw [ExecM.lift_apply, Exec.errIf_of_not (Nat.not_le.mpr n.toNat_lt)]),
    ExecM.bind_of_ok (by rw [ExecM.lift_apply, Exec.errIf_of_not (by omega)]),
    ExecM.bind_of_ok (by rw [ExecM.lift_apply, Exec.errIf_of_not hguard]),
    ExecM.bind_of_ok (position_apply _), ExecM.bind_of_ok (seekEnd_apply _),
    ExecM.bind_of_ok (seek_apply _ _),
    ExecM.bind_of_ok (by rw [ExecM.lift_apply, Exec.errIf_of_not (by simp only; omega)]),
    ExecM.bind_of_ok (readExact_of_drop htable hn.symm),
    ExecM.bind_of_ok (by rw [ExecM.lift_apply, hmarker]), if_neg (by decide),
    ExecM.bind_of_ok (by rw [ExecM.lift_apply, Exec.errIf_of_not (not_not.mpr hsig)]), hn]
  rfl

end TableContainer

/-! ## Tables -/

/-- A parsed table. -/
structure HighTable where
  alloc : List UInt8
  header : TableHeader
  columns : List Column
  strings : StringPoolFast
  rows : List Row

/-- `row_value_to_u64`: the value of an unsigned or non-negative integer cell. -/
def rowValueToU64 : RowValue → Option UInt64
  | .byte v => some v.toUInt64
  | .sByte v => if 0 ≤ v then some v.toInt64.toUInt64 else none
  | .uInt16 v => some v.toUInt64
  | .int16 v => if 0 ≤ v then some v.toInt64.toUInt64 else none
  | .uInt32 v => some v.toUInt64
  | .int32 v => if 0 ≤ v then some v.toInt64.toUInt64 else none
  | .uInt64 v => some v
  | .int64 v => if 0 ≤ v then some v.toUInt64 else none
  | _ => none

namespace HighTable

section New

/-- The size a table declares and the starts of its three sections. -/
structure Sections where
  declaredSize : ℕ
  rowsStart : ℕ
  stringStart : ℕ
  dataStart : ℕ
  deriving DecidableEq, Repr

/-- The section bounds in a header, checked against one another and against the number of bytes
there are. -/
def sections (header : TableHeader) (available : ℕ) : Exec Error Sections := do
  let size ← header.size
  let declaredSize ← Exec.okOr (Nat.checkedAdd64 size.toNat 8) (.table .sizeOverflow)
  Exec.errIf (available < declaredSize) (.table (.truncatedTable declaredSize available))
  let rowsStart ← header.rowsOffset
  let stringStart ← header.stringPoolOffset
  let dataStart ← header.dataPoolOffset
  Exec.errIf (rowsStart < headerSize ∨ stringStart < rowsStart ∨ dataStart < stringStart ∨
    declaredSize < dataStart) (.table .invalidSectionOffsets)
  let rowSize ← header.rowSize
  let rowCount ← header.rowCount
  let rowsBytes ← Exec.okOr (Nat.checkedMul64 rowSize.toNat rowCount.toNat)
    (.table .rowSizeOverflow)
  let rowsEnd ← Exec.okOr (Nat.checkedAdd64 rowsStart rowsBytes) (.table .rowOffsetOverflow)
  Exec.errIf (stringStart < rowsEnd) (.table .rowsOverlapStringPool)
  pure ⟨declaredSize, rowsStart, stringStart, dataStart⟩

/-- The width of the row-stored columns, unless it overflows. -/
def schemaWidth (columns : List Column) : Option ℕ :=
  (columns.filter Column.isRowStored).foldlM
    (fun total column => Nat.checkedAdd64 total column.type.getSize) 0

/-- Drop what follows the declared size. -/
def truncate (alloc : List UInt8) (declaredSize : ℕ) : List UInt8 :=
  if declaredSize < alloc.length then alloc.take declaredSize else alloc

variable (shiftJis : List UInt8 → String)

/-- Parse the schema, the rows and the string pool of a table with checked sections. -/
def parse (header : TableHeader) (s : Sections) (alloc : List UInt8) : Exec Error HighTable := do
  let schema ← (Column.newList header).runOn (ofBytes alloc)
  Exec.errIf (s.rowsStart < schema.2.pos) (.table .columnsOverlapRows)
  let rowWidth ← Exec.okOr (schemaWidth schema.1) (.table .rowSchemaOverflow)
  let rowSize ← header.rowSize
  Exec.errIf (rowSize.toNat < rowWidth) (.table .rowSchemaExceedsRowSize)
  let rows ← (Row.newList header schema.1).runOn schema.2
  let pool ← Exec.slice alloc s.stringStart s.dataStart
  let strings ← StringPoolFast.newBorrowed shiftJis pool header
  pure ⟨alloc, header, schema.1, strings, rows.1⟩

/-- `HighTable::new`: parse a table. -/
def new (alloc : List UInt8) : Exec Error HighTable := do
  Exec.errIf (alloc.length < headerSize ∨ ¬utfSignature <+: alloc) (.table .invalidOrTruncated)
  let s ← sections (TableHeader.new alloc) alloc.length
  parse shiftJis (TableHeader.new alloc) s (truncate alloc s.declaredSize)

end New

/-- `HighTable::column_index`: the first column with a name. -/
def columnIndex (t : HighTable) (name : String) : Option ℕ :=
  t.columns.findIdx? fun column => t.strings.getString column.stringOffset == some name

/-- `HighTable::value`: the cell in a row and column, or the column's constant value. -/
def value (t : HighTable) (rowIndex columnIndex : ℕ) : Option RowValue := do
  let row ← t.rows[rowIndex]?
  let value ← row[columnIndex]?
  if value = .none then do
    let column ← t.columns[columnIndex]?
    column.default
  else some value

/-- `HighTable::value_by_name`. -/
def valueByName (t : HighTable) (rowIndex : ℕ) (name : String) : Option RowValue := do
  let index ← t.columnIndex name
  t.value rowIndex index

/-- `HighTable::u64_by_name`. -/
def u64ByName (t : HighTable) (rowIndex : ℕ) (name : String) : Option UInt64 := do
  let value ← t.valueByName rowIndex name
  rowValueToU64 value

/-- `HighTable::data`: the bytes a data value refers to. -/
def data (t : HighTable) (value : DataValue) : Exec Error (Option (List UInt8)) := do
  let dataStart ← t.header.dataPoolOffset
  pure do
    let start ← Nat.checkedAdd64 dataStart value.offset.toNat
    let stop ← Nat.checkedAdd64 start value.length.toNat
    if stop ≤ t.alloc.length then some (window t.alloc start (stop - start)) else none

/-- `HighTable::data_by_name`: the bytes of a data cell that is not absent. -/
def dataByName (t : HighTable) (rowIndex : ℕ) (name : String) :
    Exec Error (Option (List UInt8)) :=
  match t.valueByName rowIndex name with
  | some (.data value) => if value.isNone then pure none else t.data value
  | _ => pure none

/-! ## Safety -/

variable {shiftJis : List UInt8 → String}

/-- Checking the sections does not fault, and checked sections are in order and inside the
declared size, which the bytes cover. -/
theorem safe_sections (header : TableHeader) (available : ℕ) :
    (sections header available).Safe fun s =>
      s.stringStart ≤ s.dataStart ∧ s.dataStart ≤ s.declaredSize ∧
        s.declaredSize ≤ available ∧ s.dataStart < 2 ^ 32 := by
  unfold sections
  rw [TableHeader.size_eq, Exec.ok_bind]
  refine (Exec.safe_okOr _ _).bind fun declaredSize _ => ?_
  refine (Exec.safe_errIf _ _).bind fun _ hfits => ?_
  rw [TableHeader.rowsOffset_eq, Exec.ok_bind, TableHeader.stringPoolOffset_eq, Exec.ok_bind,
    TableHeader.dataPoolOffset_eq, Exec.ok_bind]
  refine (Exec.safe_errIf _ _).bind fun _ hsections => ?_
  rw [TableHeader.rowSize_eq, Exec.ok_bind, TableHeader.rowCount_eq, Exec.ok_bind]
  refine (Exec.safe_okOr _ _).bind fun rowsBytes _ => ?_
  refine (Exec.safe_okOr _ _).bind fun rowsEnd _ => ?_
  refine (Exec.safe_errIf _ _).bind fun _ _ => ?_
  change _ ∧ _ ∧ _ ∧ _
  dsimp only
  omega

/-- A table is cut to the size that it declares. -/
theorem length_truncate {alloc : List UInt8} {declaredSize : ℕ}
    (h : declaredSize ≤ alloc.length) : (truncate alloc declaredSize).length = declaredSize := by
  unfold truncate
  split_ifs
  · exact List.length_take_of_le h
  · omega

/-- Parsing a table with checked sections does not fault. -/
theorem safe_parse (header : TableHeader) {s : Sections} {alloc : List UInt8}
    (h₁ : s.stringStart ≤ s.dataStart) (h₂ : s.dataStart ≤ alloc.length)
    (h₃ : s.dataStart < 2 ^ 32) : (parse shiftJis header s alloc).Safe fun _ => True := by
  unfold parse
  refine (Column.safe_newList _ _).runOn.bind fun schema _ => ?_
  refine (Exec.safe_errIf _ _).bind fun _ _ => ?_
  refine (Exec.safe_okOr _ _).bind fun rowWidth _ => ?_
  rw [TableHeader.rowSize_eq, Exec.ok_bind]
  refine (Exec.safe_errIf _ _).bind fun _ _ => ?_
  refine (Row.safe_newList _ _ _).runOn.bind fun rows _ => ?_
  refine (Exec.safe_slice h₁ h₂).bind fun pool hpool => ?_
  refine (StringPoolFast.safe_newBorrowed (by omega) _).bind fun strings _ => ?_
  trivial

/-- **Parsing a table does not fault**, whatever the bytes are: the section checks bound every
later access. -/
theorem safe_new (alloc : List UInt8) : (new shiftJis alloc).Safe fun _ => True := by
  unfold new
  refine (Exec.safe_errIf _ _).bind fun _ _ => ?_
  refine (safe_sections _ _).bind fun s hs => ?_
  obtain ⟨h₁, h₂, h₃, h₄⟩ := hs
  exact safe_parse _ h₁ (by rw [length_truncate h₃]; exact h₂) h₄

/-- A data value is read or refused. -/
theorem safe_data (t : HighTable) (value : DataValue) : (t.data value).Safe fun _ => True := by
  unfold data
  rw [TableHeader.dataPoolOffset_eq]
  trivial

/-- Data that are looked up by name are read or refused. -/
theorem safe_dataByName (t : HighTable) (rowIndex : ℕ) (name : String) :
    (t.dataByName rowIndex name).Safe fun _ => True := by
  unfold dataByName
  split
  · split_ifs
    · trivial
    · exact t.safe_data _
  · trivial

/-! ## Well-formed tables -/

/-- Sections that are in order and inside the bytes pass the checks.

**Proof sketch.** Step by step along the source. Neither of the offsets saturates and no sum
overflows, since the data start below `2 ^ 32`. -/
theorem sections_eq {header : TableHeader} {available declaredSize rowsStart stringStart dataStart
      : ℕ}
    (hsize : (header.field32 0x4).toNat + 8 = declaredSize) (hfits : declaredSize ≤ available)
    (hrows : (header.field16 0xa).toNat + 8 = rowsStart)
    (hstring : (header.field32 0xc).toNat + 8 = stringStart)
    (hdata : (header.field32 0x10).toNat + 8 = dataStart) (h32 : dataStart < 2 ^ 32)
    (h₁ : headerSize ≤ rowsStart)
    (h₂ : rowsStart + (header.field16 0x1a).toNat * (header.field32 0x1c).toNat ≤ stringStart)
    (h₃ : stringStart ≤ dataStart) (h₄ : dataStart ≤ declaredSize) :
    sections header available = .ok ⟨declaredSize, rowsStart, stringStart, dataStart⟩ := by
  have hlt := (header.field32 0x4).toNat_lt
  have hdecl : Nat.checkedAdd64 (header.field32 0x4).toNat 8 = some declaredSize :=
    Nat.checkedAdd64_eq_some.mpr ⟨by omega, hsize.symm⟩
  have hmul : Nat.checkedMul64 (header.field16 0x1a).toNat (header.field32 0x1c).toNat =
      some ((header.field16 0x1a).toNat * (header.field32 0x1c).toNat) :=
    Nat.checkedMul64_eq_some.mpr ⟨by omega, rfl⟩
  have hadd : Nat.checkedAdd64 rowsStart
      ((header.field16 0x1a).toNat * (header.field32 0x1c).toNat) = some (rowsStart + _) :=
    Nat.checkedAdd64_eq_some.mpr ⟨by omega, rfl⟩
  have hmin₁ : min ((header.field32 0xc).toNat + headerOffset) (2 ^ 32 - 1) = stringStart := by
    rw [headerOffset, hstring, Nat.min_eq_left (Nat.le_sub_one_of_lt (h₃.trans_lt h32))]
  have hmin₂ : min ((header.field32 0x10).toNat + headerOffset) (2 ^ 32 - 1) = dataStart := by
    rw [headerOffset, hdata, Nat.min_eq_left (Nat.le_sub_one_of_lt h32)]
  have hordered : ¬(rowsStart < headerSize ∨ stringStart < rowsStart ∨ dataStart < stringStart ∨
      declaredSize < dataStart) := by
    simp only [not_or, Nat.not_lt]
    exact ⟨h₁, (Nat.le_add_right _ _).trans h₂, h₃, h₄⟩
  unfold sections
  rw [TableHeader.size_eq, Exec.ok_bind, hdecl, Exec.okOr_some, Exec.ok_bind,
    Exec.errIf_of_not (Nat.not_lt.mpr hfits), Exec.ok_bind, TableHeader.rowsOffset_eq, Exec.ok_bind,
    TableHeader.stringPoolOffset_eq, Exec.ok_bind, TableHeader.dataPoolOffset_eq, Exec.ok_bind,
    hmin₁, hmin₂, headerOffset, hrows, Exec.errIf_of_not hordered, Exec.ok_bind,
    TableHeader.rowSize_eq, Exec.ok_bind, TableHeader.rowCount_eq, Exec.ok_bind, hmul,
    Exec.okOr_some, Exec.ok_bind, hadd, Exec.okOr_some, Exec.ok_bind,
    Exec.errIf_of_not (Nat.not_lt.mpr h₂), Exec.ok_bind]
  rfl

/-- A schema that is narrow enough has its width. -/
theorem schemaWidth_eq {columns : List Column} (h : Column.rowWidth columns < 2 ^ 64) :
    schemaWidth columns = some (Column.rowWidth columns) := by
  have hfold : ∀ (cs : List Column) (total : ℕ), total + Column.rowWidth cs < 2 ^ 64 →
      (cs.filter Column.isRowStored).foldlM
        (fun total column => Nat.checkedAdd64 total column.type.getSize) total =
      some (total + Column.rowWidth cs) := by
    intro cs
    induction cs with
    | nil => intro total _; rfl
    | cons c cs ih =>
      intro total htotal
      by_cases hc : c.isRowStored
      · simp only [Column.rowWidth, hc, if_true] at htotal ⊢
        have hadd : Nat.checkedAdd64 total c.type.getSize = some (total + c.type.getSize) :=
          Nat.checkedAdd64_eq_some.mpr ⟨by omega, rfl⟩
        rw [List.filter_cons_of_pos hc, List.foldlM_cons, hadd, Option.bind_eq_bind,
          Option.bind_some, ih _ (by omega), Nat.add_assoc]
      · simp only [Column.rowWidth, hc] at htotal ⊢
        rw [List.filter_cons_of_neg hc, ih _ (by simpa using htotal)]
        simp
  rw [schemaWidth, hfold columns 0 (by simpa using h), Nat.zero_add]

/-- **The parse of a well-formed table**: checked sections, a schema that ends before the rows
and is as wide as they are, and a string pool that is scanned. -/
theorem new_eq {alloc : List UInt8} {s : Sections} {columns : List Column} {pos : ℕ}
    {strings : StringPoolFast} (hsig : utfSignature <+: alloc) (hlen : headerSize ≤ alloc.length)
    (hsections : sections (TableHeader.new alloc) alloc.length = .ok s)
    (hrows : ((TableHeader.new alloc).field16 0xa).toNat + headerOffset = s.rowsStart)
    (hsize : ((TableHeader.new alloc).field16 0x1a).toNat *
      ((TableHeader.new alloc).field32 0x1c).toNat + s.rowsStart ≤ s.stringStart)
    (hpool : s.stringStart ≤ s.dataStart) (hdata : s.dataStart ≤ s.declaredSize)
    (hfull : s.declaredSize = alloc.length) (h64 : alloc.length < 2 ^ 64)
    (hcolumns : Column.newList (TableHeader.new alloc) (ofBytes alloc) =
      (.ok columns, ⟨alloc, pos⟩)) (hpos : pos ≤ s.rowsStart)
    (hvalid : ∀ c ∈ columns, c.type ≠ .invalid)
    (hwidth : Column.rowWidth columns ≤ ((TableHeader.new alloc).field16 0x1a).toNat)
    (hstrings : StringPoolFast.newBorrowed shiftJis
      (window alloc s.stringStart (s.dataStart - s.stringStart)) (TableHeader.new alloc) =
      .ok strings) :
    new shiftJis alloc = .ok
      { alloc, header := TableHeader.new alloc, columns, strings
        rows := (List.range ((TableHeader.new alloc).field32 0x1c).toNat).map fun r =>
          Row.decodeAt alloc (s.rowsStart + r * ((TableHeader.new alloc).field16 0x1a).toNat)
            columns } := by
  have hnoTrunc : truncate alloc s.declaredSize = alloc := by
    rw [truncate, hfull, if_neg (lt_irrefl _)]
  have hrow64 := ((TableHeader.new alloc).field16 0x1a).toNat_lt
  have hfits : ((TableHeader.new alloc).field16 0xa).toNat + headerOffset +
      ((TableHeader.new alloc).field16 0x1a).toNat *
        ((TableHeader.new alloc).field32 0x1c).toNat ≤ alloc.length := by
    omega
  have hrowList := Row.newList_eq hvalid hwidth (s := ⟨alloc, pos⟩) hfits (hfits.trans_lt h64)
  unfold new
  rw [Exec.errIf_of_not (by rintro (h | h); exacts [absurd h (by omega), h hsig]), Exec.ok_bind,
    hsections, Exec.ok_bind, hnoTrunc]
  unfold parse
  rw [ExecM.runOn_of_ok hcolumns, Exec.ok_bind, Exec.errIf_of_not (by simp only; omega),
    Exec.ok_bind, schemaWidth_eq (hwidth.trans_lt (by omega)), Exec.okOr_some, Exec.ok_bind,
    TableHeader.rowSize_eq, Exec.ok_bind, Exec.errIf_of_not (Nat.not_lt.mpr hwidth), Exec.ok_bind,
    ExecM.runOn_of_ok (Prod.ext hrowList rfl), Exec.ok_bind,
    Exec.slice_eq hpool (by omega), Exec.ok_bind]
  change StringPoolFast.newBorrowed shiftJis (window alloc _ _) _ >>= _ = _
  rw [hstrings, Exec.ok_bind, hrows]
  rfl

end HighTable

end CriArchive
