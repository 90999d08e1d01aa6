import Mathlib.Data.List.Nodup
import CriArchive.Cpk.Builder

set_option relaxedAutoImplicit false
set_option autoImplicit false

/-!
# Reading back a built table

The parser of `cpk/header.rs` undoes the serialiser of `cpk/writer.rs`. The proof follows the
table's sections: the header fields, the schema, the rows, the string pool, the data pool.

## Main definitions

* `UtfValue.Decodes` — a cell read from a table stands for a value.
* `UtfTableBuilder.ReadBack` — a parsed table has the columns, rows and cells of a builder.

## Main results

* `UtfTableBuilder.build_ends` — building a table returns or overflows.
* `UtfTableBuilder.readBack_of_build` — every table that was built reads back, with strings cut
  at their first `NUL`.
* `UtfTableBuilder.build_roundtrip` — the round trip for tables of `NUL`-free strings.
-/

namespace CriArchive

open ByteStream

/-! ## The header -/

/-- The window of a concatenation that is one of its parts. -/
theorem window_flatten {α : Type} {xss : List (List α)} {xs : List α} (i : ℕ) {off len : ℕ}
    (h : xss[i]? = some xs) (hoff : (xss.take i).flatten.length = off) (hlen : xs.length = len) :
    window xss.flatten off len = xs := by
  obtain ⟨hi, rfl⟩ := List.getElem?_eq_some_iff.mp h
  have hsplit : xss.flatten = (xss.take i).flatten ++ (xss[i] ++ (xss.drop (i + 1)).flatten) := by
    rw [← List.flatten_cons, ← List.drop_eq_getElem_cons hi, ← List.flatten_append,
      List.take_append_drop]
  subst hoff hlen
  rw [hsplit, window_append_middle]

namespace UtfTableBuilder

section Header

variable {f : TableFields} {n rc : UInt32} {cc rs : UInt16} {rest : List UInt8}

/-- The header takes its `0x20` bytes. -/
theorem length_encodeHeader : (encodeHeader f n cc rs rc).length = headerSize := by
  simp [encodeHeader, headerFields, utfSignature, headerSize]

/-- The header parsed from a table is the header that was put out. -/
theorem bytes_new_encodeHeader :
    (TableHeader.new (encodeHeader f n cc rs rc ++ rest)).bytes = encodeHeader f n cc rs rc := by
  rw [TableHeader.bytes_new (by simp [length_encodeHeader]), ← length_encodeHeader, List.take_left]

/-- The 16-bit field at the offset of a field that was put out. -/
private theorem field16_eq {off : ℕ} {v : UInt16} (i : ℕ)
    (h : (headerFields f n cc rs rc)[i]? = some (toBeBytesU16 v))
    (hoff : ((headerFields f n cc rs rc).take i).flatten.length = off) :
    (TableHeader.new (encodeHeader f n cc rs rc ++ rest)).field16 off = v := by
  rw [TableHeader.field16, bytes_new_encodeHeader, encodeHeader,
    window_flatten i h hoff (length_toBeBytesU16 v), ofNat_beNat_toBeBytesU16]

/-- The 32-bit field at the offset of a field that was put out. -/
private theorem field32_eq {off : ℕ} {v : UInt32} (i : ℕ)
    (h : (headerFields f n cc rs rc)[i]? = some (toBeBytesU32 v))
    (hoff : ((headerFields f n cc rs rc).take i).flatten.length = off) :
    (TableHeader.new (encodeHeader f n cc rs rc ++ rest)).field32 off = v := by
  rw [TableHeader.field32, bytes_new_encodeHeader, encodeHeader,
    window_flatten i h hoff (length_toBeBytesU32 v), ofNat_beNat_toBeBytesU32]

/-- The size of the table is read back from the header. -/
theorem field32_tableSize :
    (TableHeader.new (encodeHeader f n cc rs rc ++ rest)).field32 0x4 = f.tableSize :=
  field32_eq 1 rfl (by simp [headerFields, utfSignature])

/-- The offset of the rows is read back from the header. -/
theorem field16_rowsOffset :
    (TableHeader.new (encodeHeader f n cc rs rc ++ rest)).field16 0xa = f.rowsOffset :=
  field16_eq 4 rfl (by simp [headerFields, utfSignature])

/-- The offset of the strings is read back from the header. -/
theorem field32_stringPoolOffset :
    (TableHeader.new (encodeHeader f n cc rs rc ++ rest)).field32 0xc = f.stringPoolOffset :=
  field32_eq 5 rfl (by simp [headerFields, utfSignature])

/-- The offset of the data is read back from the header. -/
theorem field32_dataPoolOffset :
    (TableHeader.new (encodeHeader f n cc rs rc ++ rest)).field32 0x10 = f.dataPoolOffset :=
  field32_eq 6 rfl (by simp [headerFields, utfSignature])

/-- The number of columns is read back from the header. -/
theorem field16_columnCount :
    (TableHeader.new (encodeHeader f n cc rs rc ++ rest)).field16 0x18 = cc :=
  field16_eq 8 rfl (by simp [headerFields, utfSignature])

/-- The size of a row is read back from the header. -/
theorem field16_rowSize :
    (TableHeader.new (encodeHeader f n cc rs rc ++ rest)).field16 0x1a = rs :=
  field16_eq 9 rfl (by simp [headerFields, utfSignature])

/-- The number of rows is read back from the header. -/
theorem field32_rowCount :
    (TableHeader.new (encodeHeader f n cc rs rc ++ rest)).field32 0x1c = rc :=
  field32_eq 10 rfl (by simp [headerFields, utfSignature])

/-- A built table is declared to hold UTF-8 text. -/
theorem encoding_encodeHeader :
    ((TableHeader.new (encodeHeader f n cc rs rc ++ rest)).encoding :
      Exec Error StringEncoding) = .ok .utf8 := by
  have hbyte : (TableHeader.new (encodeHeader f n cc rs rc ++ rest)).bytes[0x9]? = some 1 := by
    rw [bytes_new_encodeHeader]
    simp [encodeHeader, headerFields, utfSignature]
  obtain ⟨_, hbyte⟩ := List.getElem?_eq_some_iff.mp hbyte
  rw [TableHeader.encoding_eq, hbyte]
  rfl

end Header

end UtfTableBuilder

/-! ## The schema -/

/-- The type a type code is read as. -/
def UtfType.columnType : UtfType → ColumnType
  | uInt16 => .uInt16
  | uInt32 => .uInt32
  | uInt64 => .uInt64
  | string => .string
  | data => .data

/-- The flag byte of a built column: named and stored in the rows. -/
def UtfType.flag (t : UtfType) : ColumnValue := ⟨0x50 ||| t.code⟩

/-- The column that the schema entry of a built column is read as. -/
def UtfColumn.decoded (c : UtfColumn) (nameOffset : UInt32) : Column :=
  ⟨c.valueType.flag, nameOffset, none⟩

section Schema

/-- The flag of a column says that it has a name and is stored in rows, without a default. -/
theorem contains_flag (t : UtfType) : t.flag.contains .name = true ∧
    t.flag.contains .defaultValue = false ∧ t.flag.contains .rowStorage = true := by
  cases t <;> decide

/-- The type is read back from the flag of a column. -/
theorem getType_flag (t : UtfType) : t.flag.getType = t.columnType := by
  cases t <;> decide

variable (c : UtfColumn) (o : UInt32)

/-- A column that is read back is stored in rows. -/
@[simp] theorem isRowStored_decoded : (c.decoded o).isRowStored = true :=
  (contains_flag c.valueType).2.2

/-- A column that is read back has the type of its values. -/
@[simp] theorem type_decoded : (c.decoded o).type = c.valueType.columnType :=
  getType_flag c.valueType

/-- Reader and writer agree on the size of a type. -/
@[simp] theorem getSize_columnType (t : UtfType) : t.columnType.getSize = t.size := by
  cases t <;> rfl

/-- Every type that is written is one that is read. -/
theorem columnType_ne_invalid (t : UtfType) : t.columnType ≠ .invalid := by
  cases t <;> simp [UtfType.columnType]

/-- A column takes five bytes of the schema. -/
@[simp] theorem length_encodeColumn : (encodeColumn c o).length = 5 := by
  simp [encodeColumn]

variable {c o}

/-- Reading the schema entry of a column. -/
theorem newOne_encodeColumn {defaultBytes rest : List UInt8} {s : ByteStream}
    (h : s.bytes.drop s.pos = encodeColumn c o ++ rest) :
    Column.newOne defaultBytes s = (.ok (c.decoded o, defaultBytes), ⟨s.bytes, s.pos + 5⟩) := by
  have hflag : s.bytes.drop s.pos = [0x50 ||| c.valueType.code] ++ (toBeBytesU32 o ++ rest) := by
    simp [h, encodeColumn]
  have hname : s.bytes.drop (s.pos + 1) = toBeBytesU32 o ++ rest := by
    rw [← List.drop_drop, hflag]
    rfl
  have hoffset : (fromSliceU32 .bigEndian (toBeBytesU32 o) 0 : Exec Error UInt32) = .ok o := by
    rw [fromSliceU32_eq (by simp), ← length_toBeBytesU32 o, window_zero_length]
    exact congrArg Exec.ok (ofNat_beNat_toBeBytesU32 o)
  have hstring : Column.readStringOffset c.valueType.flag ⟨s.bytes, s.pos + 1⟩ =
      (.ok o, ⟨s.bytes, s.pos + 5⟩) := by
    rw [Column.readStringOffset, if_pos (contains_flag c.valueType).1,
      ExecM.bind_of_ok (readExact_of_drop hname (length_toBeBytesU32 o)), ExecM.lift_apply, hoffset]
  have hdefault : Column.readDefault c.valueType.flag defaultBytes ⟨s.bytes, s.pos + 5⟩ =
      (.ok (none, defaultBytes), ⟨s.bytes, s.pos + 5⟩) := by
    rw [Column.readDefault, if_neg (by simp [contains_flag])]
    rfl
  have hbits : (ExecM.lift (Exec.index [0x50 ||| c.valueType.code] 0) :
      ExecM ByteStream Error UInt8) ⟨s.bytes, s.pos + 1⟩ =
      (.ok (0x50 ||| c.valueType.code), ⟨s.bytes, s.pos + 1⟩) := rfl
  unfold Column.newOne
  rw [ExecM.bind_of_ok (readExact_of_drop (n := 1) hflag rfl), ExecM.bind_of_ok hbits]
  exact (ExecM.bind_of_ok hstring _).trans (ExecM.bind_of_ok hdefault _)

/-- Reading the schema entries of a list of columns. -/
theorem newListLoop_encodeColumn {columns : List UtfColumn} {offsets : List UInt32}
    (hlen : columns.length = offsets.length) {defaultBytes rest : List UInt8} {s : ByteStream}
    (h : s.bytes.drop s.pos = (List.zipWith encodeColumn columns offsets).flatten ++ rest) :
    Column.newListLoop columns.length defaultBytes s =
      (.ok (List.zipWith UtfColumn.decoded columns offsets),
        ⟨s.bytes, s.pos + columns.length * 5⟩) := by
  induction columns generalizing offsets s with
  | nil => rfl
  | cons c columns ih =>
    rcases offsets with _ | ⟨o, offsets⟩
    · simp at hlen
    have hhead : s.bytes.drop s.pos =
        encodeColumn c o ++ ((List.zipWith encodeColumn columns offsets).flatten ++ rest) := by
      simpa using h
    have htail : s.bytes.drop (s.pos + 5) =
        (List.zipWith encodeColumn columns offsets).flatten ++ rest := by
      rw [← List.drop_drop, hhead, List.drop_left' (length_encodeColumn c o)]
    rw [List.length_cons, Column.newListLoop, ExecM.bind_of_ok (newOne_encodeColumn hhead)]
    dsimp only
    rw [ExecM.bind_of_ok (ih (by simpa using hlen) (s := ⟨s.bytes, s.pos + 5⟩) htail)]
    simp only [List.zipWith_cons_cons, ExecM.pure_apply]
    congr 2
    omega

/-- The decoded columns are as wide as a row. -/
theorem rowWidth_decoded {columns : List UtfColumn} {offsets : List UInt32}
    (hlen : columns.length = offsets.length) :
    Column.rowWidth (List.zipWith UtfColumn.decoded columns offsets) =
      (columns.map fun column => column.valueType.size).sum := by
  induction columns generalizing offsets with
  | nil => rfl
  | cons c columns ih =>
    rcases offsets with _ | ⟨o, offsets⟩
    · simp at hlen
    have hrest := @ih offsets (by simpa using hlen)
    simp [Column.rowWidth, hrest]

end Schema

/-! ## The rows -/

/-- The cells decoded where the cells' bytes lie one after another. -/
theorem decodeAt_flatten {bytes rest : List UInt8} {columnDef : List Column}
    {cells : List (List UInt8)} {pos : ℕ}
    (hcells : List.Forall₂ (fun (c : Column) bs => c.isRowStored ∧ bs.length = c.type.getSize)
      columnDef cells)
    (h : bytes.drop pos = cells.flatten ++ rest) :
    Row.decodeAt bytes pos columnDef =
      List.zipWith (fun c bs => RowValue.decode c.type bs) columnDef cells := by
  induction hcells generalizing pos with
  | nil => rfl
  | @cons c bs columnDef cells hc _ ih =>
    obtain ⟨hstored, hsize⟩ := hc
    have hsplit : bytes.drop pos = bs ++ (cells.flatten ++ rest) := by simpa using h
    have hwin : window bytes pos c.type.getSize = bs := by
      rw [window, hsplit, ← hsize, List.take_left]
    have hnext : bytes.drop (pos + c.type.getSize) = cells.flatten ++ rest := by
      rw [← List.drop_drop, hsplit, List.drop_left' hsize]
    rw [Row.decodeAt, if_pos hstored, hwin, ih hnext]
    rfl

/-! ## The table -/

/-- A cell that was read from a table stands for a value: numbers are equal, a string cell
resolves through the string pool to the string, up to its first `NUL`, and has offset zero just
when the string is empty, and a data cell refers to the bytes. -/
def UtfValue.Decodes (t : HighTable) : UtfValue → RowValue → Prop
  | uInt16 v, cell => cell = .uInt16 v
  | uInt32 v, cell => cell = .uInt32 v
  | uInt64 v, cell => cell = .uInt64 v
  | string s, cell => ∃ offset, cell = .string offset ∧
      t.strings.getString offset = some s.nulPrefix ∧ (offset = 0 ↔ s = "")
  | data bytes, cell => ∃ value, cell = .data value ∧ value.length.toNat = bytes.length ∧
      t.data value = .ok (some bytes)

/-- A parsed table has the columns, rows and cells of a builder. -/
structure UtfTableBuilder.ReadBack (b : UtfTableBuilder) (t : HighTable) : Prop where
  rowCount : t.rows.length = b.rows.length
  columnIndex : ∀ name, t.columnIndex name = b.columns.findIdx? (·.name.nulPrefix == name)
  value : ∀ i j row v, b.rows[i]? = some row → row[j]? = some v →
    ∃ cell, t.value i j = some cell ∧ v.Decodes t cell

namespace UtfTableBuilder

/-- The table that the bytes of checked parts are parsed to, with the string pool scanned from
them. -/
def Parts.table (b : UtfTableBuilder) (p : Parts) (strings : StringPoolFast) : HighTable where
  alloc := p.bytes b.columns
  header := TableHeader.new (p.bytes b.columns)
  columns := List.zipWith UtfColumn.decoded b.columns p.columnNames.1
  strings := strings
  rows := (List.range b.rows.length).map fun i =>
    Row.decodeAt (p.bytes b.columns) (p.layout.rowsStart + i * b.rowWidth)
      (List.zipWith UtfColumn.decoded b.columns p.columnNames.1)

section Table

variable {b : UtfTableBuilder} {p : Parts} (hp : p.Checked b)

/-- The schema takes five bytes for each column. -/
theorem length_schema {columns : List UtfColumn} {offsets : List UInt32}
    (hlen : columns.length = offsets.length) :
    (List.zipWith encodeColumn columns offsets).flatten.length = columns.length * 5 := by
  induction columns generalizing offsets with
  | nil => simp
  | cons c columns ih =>
    rcases offsets with _ | ⟨o, offsets⟩
    · simp at hlen
    have hrest := @ih offsets (by simpa using hlen)
    simp only [List.zipWith_cons_cons, List.flatten_cons, List.length_append, length_encodeColumn,
      hrest, List.length_cons]
    omega

include hp

/-- The pool after all strings are interned: valid, with every column name and every string of a
cell at its offset. -/
theorem interned : p.cellNames.2.Valid ∧
    List.Forall₂ (fun c offset => p.cellNames.2.offsets.lookup (UtfColumn.name c) = some offset)
      b.columns p.columnNames.1 ∧
    ∀ s ∈ b.cellStrings, ∃ offset, p.cellNames.2.offsets.lookup s = some offset := by
  obtain ⟨hvalid₁, -, -⟩ := internString_spec StringInterner.valid_initial hp.tableName
  obtain ⟨hvalid₂, -, hcolumns⟩ := internAll_spec hvalid₁ hp.columnNames
  obtain ⟨hvalid₃, hext, hcells⟩ := internAll_spec hvalid₂ hp.cellNames
  refine ⟨hvalid₃, ?_, fun s hs => ?_⟩
  · rw [List.forall₂_map_left_iff] at hcolumns
    exact hcolumns.imp fun c offset h => hext.offsets _ _ h
  · obtain ⟨i, hi, rfl⟩ := List.mem_iff_getElem.mp hs
    have hlen := hcells.length_eq
    exact ⟨_, List.forall₂_iff_get.mp hcells |>.2 i hi (hlen ▸ hi)⟩

/-- Every row has the width of the schema. -/
theorem rowWidth_eq : ∀ row ∈ b.rows, (row.map fun v => v.valueType.size).sum = b.rowWidth := by
  intro row hrow
  have hsizes : row.map (fun v => v.valueType.size) =
      b.columns.map fun column => column.valueType.size := by
    have htypes := checkRows_eq_ok hp.rows row hrow
    refine List.ext_getElem (by simp [htypes.length_eq]) fun j h₁ h₂ => ?_
    have hj := List.forall₂_iff_get.mp htypes |>.2 j (by simpa using h₁) (by simpa using h₂)
    simpa using congrArg UtfType.size hj
  rw [hsizes, rowWidth]

/-- The number of a row's values is the number of columns. -/
theorem length_row {row : List UtfValue} (hrow : row ∈ b.rows) :
    row.length = b.columns.length :=
  (checkRows_eq_ok hp.rows row hrow).length_eq

/-- Where the sections of a table lie. -/
theorem sections_bytes :
    (p.bytes b.columns).drop 0x20 =
        (List.zipWith encodeColumn b.columns p.columnNames.1).flatten ++
          (p.rowBytes ++ (p.cellNames.2.pool ++ p.data.pool)) ∧
      (p.bytes b.columns).drop p.layout.rowsStart =
        p.rowBytes ++ (p.cellNames.2.pool ++ p.data.pool) ∧
      (p.bytes b.columns).drop p.layout.stringPoolStart = p.cellNames.2.pool ++ p.data.pool ∧
      (p.bytes b.columns).drop p.layout.dataPoolStart = p.data.pool := by
  obtain ⟨hrows, hstrings, hdata, -, -⟩ := layout_eq_ok hp.layout
  have hnames := (interned hp).2.1.length_eq
  have hrowBytes := (encodeCells_cellsFrom (rowWidth_eq hp) hp.rowBytes).1
  have h₁ : (p.bytes b.columns).drop 0x20 =
      (List.zipWith encodeColumn b.columns p.columnNames.1).flatten ++
        (p.rowBytes ++ (p.cellNames.2.pool ++ p.data.pool)) :=
    List.drop_left' length_encodeHeader
  have h₂ : (p.bytes b.columns).drop p.layout.rowsStart =
      p.rowBytes ++ (p.cellNames.2.pool ++ p.data.pool) := by
    rw [hrows, ← List.drop_drop, h₁, List.drop_left' (length_schema hnames)]
  have h₃ : (p.bytes b.columns).drop p.layout.stringPoolStart =
      p.cellNames.2.pool ++ p.data.pool := by
    rw [hstrings, ← List.drop_drop, h₂, List.drop_left' hrowBytes]
  refine ⟨h₁, h₂, h₃, ?_⟩
  rw [hdata, ← List.drop_drop, h₃, List.drop_left]

/-- The bytes of checked parts have the planned length. -/
theorem length_bytes : (p.bytes b.columns).length = p.layout.totalSize := by
  obtain ⟨hrows, hstrings, hdata, htotal, -⟩ := layout_eq_ok hp.layout
  have hschema := length_schema (interned hp).2.1.length_eq
  have hrowBytes := (encodeCells_cellsFrom (rowWidth_eq hp) hp.rowBytes).1
  simp only [Parts.bytes, List.length_append, length_encodeHeader, headerSize, hschema, hrowBytes]
  omega

/-- The string pool scanned from a built table: every interned string is found at its offset, up
to its first `NUL`. -/
theorem newBorrowed_bytes (shiftJis : List UInt8 → String) (h32 : p.layout.dataPoolStart < 2 ^ 32) :
    ∃ strings, StringPoolFast.newBorrowed shiftJis
        (window (p.bytes b.columns) p.layout.stringPoolStart
          (p.layout.dataPoolStart - p.layout.stringPoolStart))
        (TableHeader.new (p.bytes b.columns)) = .ok strings ∧
      ∀ s offset, p.cellNames.2.offsets.lookup s = some offset →
        strings.getString offset = some s.nulPrefix := by
  obtain ⟨-, -, hdata, htotal, -⟩ := layout_eq_ok hp.layout
  obtain ⟨hvalid, -, -⟩ := interned hp
  obtain ⟨cs, hcs⟩ := hvalid.text
  have hpool : window (p.bytes b.columns) p.layout.stringPoolStart
      (p.layout.dataPoolStart - p.layout.stringPoolStart) = Utf8.encode cs := by
    rw [window, (sections_bytes hp).2.2.1, hdata, Nat.add_sub_cancel_left, List.take_left, hcs]
  have hclosed : Terminated.Closed (0 : UInt8) (Utf8.encode cs) := hcs ▸ hvalid.closed.2
  have hlen : (Utf8.encode cs).length < 2 ^ 64 := by
    rw [← hcs]
    omega
  obtain ⟨strings, hnew, hget⟩ :=
    StringPoolFast.getString_encode shiftJis encoding_encodeHeader hclosed hlen
  refine ⟨strings, by rw [hpool]; exact hnew, fun s offset hs => ?_⟩
  obtain ⟨pre, post, hstored, hpre, hoffset⟩ := hvalid.stored s offset hs
  exact hget pre post s offset hpre (hcs ▸ hstored) hoffset

/-- **The parse of a built table.**

**Proof sketch.** The header fields are read back as they were put out, so that the sections are
those of the layout, in order and inside the bytes. The schema is read back column by column, and
the rows fill the row section; `HighTable.new_eq` then says what is parsed. -/
theorem new_bytes (shiftJis : List UInt8 → String)
    (hlen : (p.bytes b.columns).length = p.layout.totalSize) (h32 : p.layout.dataPoolStart < 2 ^ 32) :
    ∃ strings, HighTable.new shiftJis (p.bytes b.columns) = .ok (p.table b strings) ∧
      ∀ s offset, p.cellNames.2.offsets.lookup s = some offset →
        strings.getString offset = some s.nulPrefix := by
  obtain ⟨strings, hstrings, hget⟩ := newBorrowed_bytes hp shiftJis h32
  refine ⟨strings, ?_, hget⟩
  obtain ⟨hrows, hstring, hdata, htotal, h64⟩ := layout_eq_ok hp.layout
  obtain ⟨hsizeField, hrowsField, hstringField, hdataField⟩ := fields_eq_ok hp.fields
  have hnames := (interned hp).2.1.length_eq
  have hrowSize : ((TableHeader.new (p.bytes b.columns)).field16 0x1a).toNat = b.rowWidth := by
    rw [Parts.bytes, field16_rowSize, hp.rowSize]
  have hrowCount : ((TableHeader.new (p.bytes b.columns)).field32 0x1c).toNat = b.rows.length := by
    rw [Parts.bytes, field32_rowCount, hp.rowCount]
  have hrowsOffset : ((TableHeader.new (p.bytes b.columns)).field16 0xa).toNat + 8 =
      p.layout.rowsStart := by
    rw [Parts.bytes, field16_rowsOffset, hrowsField]
    omega
  have hsections : HighTable.sections (TableHeader.new (p.bytes b.columns))
      (p.bytes b.columns).length = .ok ⟨p.layout.totalSize, p.layout.rowsStart,
        p.layout.stringPoolStart, p.layout.dataPoolStart⟩ := by
    refine HighTable.sections_eq ?_ hlen.ge hrowsOffset ?_ ?_ (by omega) ?_ ?_ (by omega)
      (by omega)
    · rw [Parts.bytes, field32_tableSize, hsizeField]
      omega
    · rw [Parts.bytes, field32_stringPoolOffset, hstringField]
      omega
    · rw [Parts.bytes, field32_dataPoolOffset, hdataField]
      omega
    · rw [headerSize]
      omega
    · rw [hrowSize, hrowCount]
      omega
  have hcolumns : Column.newList (TableHeader.new (p.bytes b.columns))
      (ofBytes (p.bytes b.columns)) =
      (.ok (List.zipWith UtfColumn.decoded b.columns p.columnNames.1),
        ⟨p.bytes b.columns, headerSize + b.columns.length * 5⟩) := by
    have hcount : ((TableHeader.new (p.bytes b.columns)).field16 0x18).toNat =
        b.columns.length := by
      rw [Parts.bytes, field16_columnCount, hp.columnCount]
    unfold Column.newList
    rw [ExecM.bind_of_ok (seek_apply _ _), TableHeader.columnCount_eq,
      ExecM.bind_of_ok (ExecM.lift_apply _ _), hcount]
    exact newListLoop_encodeColumn hnames (s := ⟨p.bytes b.columns, headerSize⟩)
      (sections_bytes hp).1
  have hvalid : ∀ c ∈ List.zipWith UtfColumn.decoded b.columns p.columnNames.1,
      c.type ≠ .invalid := by
    intro c hc
    obtain ⟨i, hi, rfl⟩ := List.mem_iff_getElem.mp hc
    rw [List.getElem_zipWith, type_decoded]
    exact columnType_ne_invalid _
  have hsig : utfSignature <+: p.bytes b.columns := List.prefix_append _ _
  have hnew := HighTable.new_eq hsig (by rw [hlen, headerSize]; omega) hsections hrowsOffset
    (by rw [hrowSize, hrowCount]; simp only; omega) (by simp only; omega) (by simp only; omega)
    hlen.symm (by omega) hcolumns (by rw [headerSize]; simp only; omega) hvalid
    (by rw [rowWidth_decoded hnames, hrowSize]; rfl) hstrings
  rw [hnew, hrowSize, hrowCount]
  rfl

omit hp in
/-- Searching the decoded columns by name searches the built columns. -/
private theorem findIdx?_decoded {strings : StringPoolFast} {columns : List UtfColumn}
    {offsets : List UInt32} (name : String)
    (h : List.Forall₂ (fun c offset => strings.getString offset =
      some (UtfColumn.name c).nulPrefix) columns offsets) :
    (List.zipWith UtfColumn.decoded columns offsets).findIdx?
        (fun column => strings.getString column.stringOffset == some name) =
      columns.findIdx? (·.name.nulPrefix == name) := by
  induction h with
  | nil => rfl
  | @cons c o columns offsets hc _ ih =>
    have hhead : (strings.getString (c.decoded o).stringOffset == some name) =
        (c.name.nulPrefix == name) := by
      change (strings.getString o == some name) = _
      rw [hc]
      rfl
    rw [List.zipWith_cons_cons, List.findIdx?_cons, List.findIdx?_cons, hhead, ih]

/-- Where the data of a data cell is found in the parsed table.

**Proof sketch.** The data pool is the end of the table, so that the window at an offset in it is
the one that was packed; no sum overflows, since the whole table is shorter than `2 ^ 32`. -/
theorem data_table (strings : StringPoolFast)
    (hlen : (p.bytes b.columns).length = p.layout.totalSize) (h32 : p.layout.dataPoolStart < 2 ^ 32)
    {key : ℕ × ℕ} {bs : List UInt8} (hkey : p.data.Holds key bs) :
    ∃ value : DataValue, p.data.locations.lookup key = some (value.offset, value.length) ∧
      value.length.toNat = bs.length ∧ (p.table b strings).data value = .ok (some bs) := by
  obtain ⟨hrows, hstring, hdata, htotal, h64⟩ := layout_eq_ok hp.layout
  obtain ⟨-, -, -, hfield⟩ := fields_eq_ok hp.fields
  obtain ⟨offset, length, hlookup, hlength, hwindow, hin⟩ := hkey
  refine ⟨⟨offset, length⟩, hlookup, hlength, ?_⟩
  have hbytes : p.data.pool = (p.bytes b.columns).drop p.layout.dataPoolStart :=
    (sections_bytes hp).2.2.2.symm
  have hpoolLen := congrArg List.length hbytes
  rw [List.length_drop] at hpoolLen
  have h₁ : Nat.checkedAdd64 p.layout.dataPoolStart offset.toNat =
      some (p.layout.dataPoolStart + offset.toNat) :=
    Nat.checkedAdd64_eq_some.mpr ⟨by omega, rfl⟩
  have h₂ : Nat.checkedAdd64 (p.layout.dataPoolStart + offset.toNat) length.toNat =
      some (p.layout.dataPoolStart + offset.toNat + length.toNat) :=
    Nat.checkedAdd64_eq_some.mpr ⟨by omega, rfl⟩
  have hfound : window (p.bytes b.columns) (p.layout.dataPoolStart + offset.toNat) length.toNat =
      bs := by
    rw [← hwindow, hbytes, window, window, List.drop_drop]
  have hstart : min (((TableHeader.new (p.bytes b.columns)).field32 0x10).toNat + headerOffset)
      (2 ^ 32 - 1) = p.layout.dataPoolStart := by
    rw [Parts.bytes, field32_dataPoolOffset, hfield, headerOffset,
      Nat.sub_add_cancel (by omega), Nat.min_eq_left (by omega)]
  rw [HighTable.data, Parts.table, TableHeader.dataPoolOffset_eq, Exec.ok_bind, hstart]
  simp only [h₁, h₂, Option.bind_eq_bind, Option.bind_some, Nat.add_sub_cancel_left, hfound]
  rw [if_pos (by omega)]
  rfl

/-- The bytes of a cell decode to a cell that stands for the value. -/
theorem decodes_encodeCell (strings : StringPoolFast)
    (hlen : (p.bytes b.columns).length = p.layout.totalSize) (h32 : p.layout.dataPoolStart < 2 ^ 32)
    (hget : ∀ s offset, p.cellNames.2.offsets.lookup s = some offset →
      strings.getString offset = some s.nulPrefix) {cell : UtfCell} {bytes : List UInt8}
    (hcell : cell ∈ b.cells)
    (h : encodeCell p.cellNames.2.offsets p.data.locations cell = .ok bytes) :
    RowValue.decode cell.2.valueType.columnType bytes ≠ .none ∧
      cell.2.Decodes (p.table b strings)
        (RowValue.decode cell.2.valueType.columnType bytes) := by
  obtain ⟨key, v⟩ := cell
  cases v with
  | uInt16 v | uInt32 v | uInt64 v =>
    obtain rfl := Exec.ok.inj h
    simp [UtfValue.valueType, UtfType.columnType, RowValue.decode, UtfValue.Decodes]
  | string s =>
    simp only [encodeCell, Exec.bind_eq_ok, Exec.okOr_eq_ok] at h
    obtain ⟨offset, hoffset, h⟩ := h
    obtain rfl := Exec.ok.inj h
    simp only [UtfValue.valueType, UtfType.columnType, RowValue.decode, ne_eq, reduceCtorEq,
      not_false_eq_true, true_and, ofNat_beNat_toBeBytesU32]
    exact ⟨offset, rfl, hget s offset hoffset, (interned hp).1.null s offset hoffset⟩
  | data bs =>
    simp only [encodeCell, Exec.bind_eq_ok, Exec.okOr_eq_ok] at h
    obtain ⟨⟨offset, length⟩, hlocation, h⟩ := h
    obtain rfl := Exec.ok.inj h
    have hholds := (packCells_spec hp.data (nodup_cellsFrom 0 b.rows)).2 key bs hcell
    obtain ⟨value, hlookup, hlength, hread⟩ := data_table hp strings hlen h32 hholds
    obtain ⟨rfl, rfl⟩ := Prod.mk.inj (Option.some.inj (hlocation.symm.trans hlookup))
    simp only [UtfValue.valueType, UtfType.columnType, RowValue.decode_data, ne_eq, reduceCtorEq,
      not_false_eq_true, true_and]
    exact ⟨value, rfl, hlength, hread⟩

/-- The cells' bytes in the row with index `i`, as the schema reads them.

**Proof sketch.** The bytes of the row lie at its index times the row width in the row section
(`encodeCells_cellsFrom`), each cell with the size of its column, and such bytes are decoded cell by
cell (`decodeAt_flatten`). -/
theorem row_table (strings : StringPoolFast) {i : ℕ} {row : List UtfValue}
    (hrow : b.rows[i]? = some row) :
    ∃ cells : List (List UInt8), (p.table b strings).rows[i]? =
        some (List.zipWith (fun c bs => RowValue.decode (Column.type c) bs)
          (List.zipWith UtfColumn.decoded b.columns p.columnNames.1) cells) ∧
      ∀ j v, row[j]? = some v → ∃ bs, cells[j]? = some bs ∧
        encodeCell p.cellNames.2.offsets p.data.locations ((i, j), v) = .ok bs := by
  have hnames := (interned hp).2.1.length_eq
  have hmem : row ∈ b.rows := List.mem_of_getElem? hrow
  have htypes := checkRows_eq_ok hp.rows row hmem
  have hcolumnsLen := length_row hp hmem
  have hi : i < b.rows.length := (List.getElem?_eq_some_iff.mp hrow).1
  obtain ⟨cells, rest, hdrop, hcellsLen, hcells⟩ :=
    (encodeCells_cellsFrom (rowWidth_eq hp) hp.rowBytes).2 i row hrow
  have hforall : List.Forall₂
      (fun (c : Column) bs => c.isRowStored ∧ bs.length = c.type.getSize)
      (List.zipWith UtfColumn.decoded b.columns p.columnNames.1) cells := by
    refine List.forall₂_iff_get.mpr ⟨by simp; omega, fun k h₁ h₂ => ?_⟩
    obtain ⟨bs, hbs, henc⟩ := hcells k row[k] (List.getElem?_eq_getElem (hcellsLen ▸ h₂))
    obtain ⟨_, rfl⟩ := List.getElem?_eq_some_iff.mp hbs
    have htype := List.forall₂_iff_get.mp htypes |>.2 k (hcellsLen ▸ h₂)
      (hcolumnsLen ▸ hcellsLen ▸ h₂)
    simp only [List.get_eq_getElem] at htype ⊢
    rw [List.getElem_zipWith, type_decoded, getSize_columnType, ← htype]
    exact ⟨isRowStored_decoded _ _, length_encodeCell henc⟩
  have hbytes : (p.bytes b.columns).drop (p.layout.rowsStart + i * b.rowWidth) =
      cells.flatten ++ (rest ++ (p.cellNames.2.pool ++ p.data.pool)) := by
    have hlen := (encodeCells_cellsFrom (rowWidth_eq hp) hp.rowBytes).1
    have hle : i * b.rowWidth ≤ p.rowBytes.length := by
      rw [hlen, Nat.mul_comm]
      exact Nat.mul_le_mul_left _ hi.le
    rw [← List.drop_drop, (sections_bytes hp).2.1, List.drop_append_of_le_length hle, hdrop,
      List.append_assoc]
  refine ⟨cells, ?_, fun j v hv => by simpa using hcells j v hv⟩
  rw [Parts.table, List.getElem?_map, List.getElem?_range hi, Option.map_some,
    decodeAt_flatten hforall hbytes]

/-- The cells of the parsed table stand for the values of the builder. -/
theorem value_table {strings : StringPoolFast}
    (hlen : (p.bytes b.columns).length = p.layout.totalSize) (h32 : p.layout.dataPoolStart < 2 ^ 32)
    (hget : ∀ s offset, p.cellNames.2.offsets.lookup s = some offset →
      strings.getString offset = some s.nulPrefix)
    {i j : ℕ} {row : List UtfValue} {v : UtfValue} (hrow : b.rows[i]? = some row)
    (hv : row[j]? = some v) :
    ∃ cell, (p.table b strings).value i j = some cell ∧ v.Decodes (p.table b strings) cell := by
  obtain ⟨cells, hrows, hcells⟩ := row_table hp strings hrow
  obtain ⟨bs, hbs, henc⟩ := hcells j v hv
  have hmem : row ∈ b.rows := List.mem_of_getElem? hrow
  have hj : j < row.length := (List.getElem?_eq_some_iff.mp hv).1
  have hj' : j < b.columns.length := length_row hp hmem ▸ hj
  have hj'' : j < p.columnNames.1.length := (interned hp).2.1.length_eq ▸ hj'
  have htype := List.forall₂_iff_get.mp (checkRows_eq_ok hp.rows row hmem) |>.2 j hj hj'
  obtain ⟨_, rfl⟩ := List.getElem?_eq_some_iff.mp hv
  have hcell : ((i, j), row[j]) ∈ b.cells :=
    mem_cellsFrom.mpr ⟨i, row, j, hrow, List.getElem?_eq_getElem hj, by simp⟩
  obtain ⟨hne, hdecodes⟩ := decodes_encodeCell hp strings hlen h32 hget hcell henc
  refine ⟨_, ?_, hdecodes⟩
  simp only [List.get_eq_getElem] at htype
  have hread : (List.zipWith (fun c bs => RowValue.decode (Column.type c) bs)
      (List.zipWith UtfColumn.decoded b.columns p.columnNames.1) cells)[j]? =
        some (RowValue.decode row[j].valueType.columnType bs) := by
    rw [List.getElem?_zipWith, List.getElem?_zipWith, List.getElem?_eq_getElem hj',
      List.getElem?_eq_getElem hj'', hbs]
    simp only [type_decoded, htype]
  rw [HighTable.value, hrows, Option.bind_eq_bind, Option.bind_some, hread, Option.bind_eq_bind,
    Option.bind_some, if_neg hne]

end Table

/-! ## How building ends -/

section BuildEnds

/-- The error of a size or an offset that does not fit its field. -/
def Overflows (e : Error) : Prop := e = arithmeticOverflow

/-- The arithmetic error is one of overflow. -/
theorem overflows : Overflows arithmeticOverflow := rfl

/-- A checked conversion or operation returns or overflows. -/
private theorem checked_ends {α : Type} (x : Option α) :
    (Exec.okOr x arithmeticOverflow).Ends (fun _ => True) Overflows :=
  (Exec.ends_okOr overflows).mono fun _ _ => trivial

/-- A check that fails with an overflow. -/
private theorem check_ends (c : Prop) [Decidable c] :
    (Exec.errIf c arithmeticOverflow).Ends (fun _ => True) Overflows :=
  (Exec.ends_errIf fun _ => overflows).mono fun _ _ => trivial

/-- Interning a string returns or overflows. -/
theorem internString_ends (value : String) (p : StringInterner) :
    (internString value p).Ends (fun _ => True) Overflows := by
  unfold internString
  split
  · trivial
  · exact (checked_ends _).bind fun _ _ => trivial

/-- Interning strings fails on overflow only. -/
theorem internAll_ends (ss : List String) (p : StringInterner) :
    (internAll ss p).Ends (fun _ => True) Overflows := by
  induction ss generalizing p with
  | nil => trivial
  | cons s ss ih =>
    refine (internString_ends s p).bind fun first _ => ?_
    exact (ih first.2).bind fun others _ => trivial

/-- Packing the data of cells fails on overflow only. -/
theorem packCells_ends (cells : List UtfCell) (d : DataPool) :
    (packCells cells d).Ends (fun _ => True) Overflows := by
  induction cells generalizing d with
  | nil => trivial
  | cons cell cells ih =>
    obtain ⟨key, v⟩ := cell
    cases v with
    | data bytes =>
      refine (checked_ends _).bind fun offset _ => ?_
      exact (checked_ends _).bind fun length _ => ih _
    | uInt16 v | uInt32 v | uInt64 v | string v => exact ih d

/-- Encoding cells fails on overflow only. -/
theorem encodeCells_ends (offsets : List (String × UInt32))
    (locations : List ((ℕ × ℕ) × (UInt32 × UInt32))) (cells : List UtfCell) :
    (encodeCells offsets locations cells).Ends (fun _ => True) Overflows := by
  have hcell : ∀ cell, (encodeCell offsets locations cell).Ends (fun _ => True)
      Overflows := by
    rintro ⟨key, v⟩
    cases v with
    | uInt16 v | uInt32 v | uInt64 v => trivial
    | string s | data bs => exact (checked_ends _).bind fun _ _ => trivial
  induction cells with
  | nil => trivial
  | cons cell cells ih => exact (hcell cell).bind fun _ _ => ih.bind fun _ _ => trivial

/-- Checking the rows fails on overflow only. -/
theorem checkRows_ends (columns : List UtfColumn) (rows : List (List UtfValue)) :
    (checkRows columns rows).Ends (fun _ => True) Overflows := by
  induction rows with
  | nil => trivial
  | cons row rows ih =>
    refine (check_ends _).bind fun _ _ => ?_
    exact (check_ends _).bind fun _ _ => ih

/-- Laying out a table fails on overflow only. -/
theorem layout_ends (b : UtfTableBuilder) (stringsLen dataLen : ℕ) :
    (b.layout stringsLen dataLen).Ends (fun _ => True) Overflows := by
  unfold layout
  iterate 6 refine (checked_ends _).bind fun _ _ => ?_
  trivial

/-- The header fields of a layout fail on overflow only. -/
theorem fields_ends (l : TableLayout) :
    (fields l).Ends (fun _ => True) Overflows := by
  unfold fields
  iterate 4 refine (checked_ends _).bind fun _ _ => ?_
  trivial

/-- Building the parts of a table fails on overflow only. -/
theorem parts_ends (b : UtfTableBuilder) :
    b.parts.Ends (fun _ => True) Overflows := by
  unfold parts
  iterate 3 refine (checked_ends _).bind fun _ _ => ?_
  refine (checkRows_ends _ _).bind fun _ _ => ?_
  refine (internString_ends _ _).bind fun tableName _ => ?_
  refine (internAll_ends _ _).bind fun columnNames _ => ?_
  refine (internAll_ends _ _).bind fun cellNames _ => ?_
  refine (packCells_ends _ _).bind fun data _ => ?_
  refine (layout_ends b _ _).bind fun l _ => ?_
  refine (fields_ends l).bind fun f _ => ?_
  exact (encodeCells_ends _ _ _).bind fun rowBytes _ => trivial

/-- **Building a table** returns or overflows: its debug assertion holds. -/
theorem build_ends (b : UtfTableBuilder) :
    b.build.Ends (fun bytes => b.build = .ok bytes) Overflows := by
  have hends : b.build.Ends (fun _ => True) Overflows := by
    unfold build
    refine (parts_ends b).with_ok.bind fun p hp => ?_
    rw [if_pos (length_bytes (checked_of_parts hp.1))]
    trivial
  exact hends.with_ok.mono fun _ h => h.1

end BuildEnds

/-- A table whose data pool starts below `2^32` is accepted as a whole, with the builder's columns,
rows and cells. -/
theorem readBack_of_checked {b : UtfTableBuilder} {p : Parts} (hp : p.Checked b)
    (shiftJis : List UInt8 → String) (h32 : p.layout.dataPoolStart < 2 ^ 32) :
    ∃ t, HighTable.new shiftJis (p.bytes b.columns) = .ok t ∧ t.alloc = p.bytes b.columns ∧
      b.ReadBack t := by
  obtain ⟨strings, hnew, hget⟩ := new_bytes hp shiftJis (length_bytes hp) h32
  refine ⟨_, hnew, rfl, by simp [Parts.table], fun name => ?_, fun i j row v hrow hv => ?_⟩
  · exact findIdx?_decoded name ((interned hp).2.1.imp fun c offset hc => hget _ _ hc)
  · exact value_table hp (length_bytes hp) h32 hget hrow hv

/-- **A built table reads back.** A table that was built and is shorter than `2^32` bytes is
accepted by the parser and has the builder's columns, rows and cells; strings are cut at their
first `NUL`. -/
theorem readBack_of_build (shiftJis : List UInt8 → String) {b : UtfTableBuilder}
    {bytes : List UInt8} (h : b.build = .ok bytes) (h32 : bytes.length < 2 ^ 32) :
    ∃ t, HighTable.new shiftJis bytes = .ok t ∧ b.ReadBack t := by
  obtain ⟨p, hp, rfl, hlen⟩ := build_eq_ok h
  obtain ⟨-, -, -, htotal, -⟩ := layout_eq_ok hp.layout
  obtain ⟨t, hnew, -, hread⟩ := readBack_of_checked hp shiftJis (by omega)
  exact ⟨t, hnew, hread⟩

/-- **Round trip of the `@UTF` codec.** A table of `NUL`-free strings with pairwise distinct
column names that was built with fewer than `2^32` bytes is accepted by the parser; it has as many
rows, finds each column by its name at its position, and every cell decodes to the built value.

**Proof sketch.** By `readBack_of_build`: strings without `NUL` are not cut, and the first column
with a name is the only one. -/
theorem build_roundtrip (shiftJis : List UInt8 → String) (b : UtfTableBuilder)
    (hdistinct : (b.columns.map UtfColumn.name).Nodup)
    (hcolumns : ∀ c ∈ b.columns, c.name.NulFree)
    (hcells : ∀ row ∈ b.rows, ∀ s, UtfValue.string s ∈ row → s.NulFree) {bytes : List UInt8}
    (h : b.build = .ok bytes) (h32 : bytes.length < 2 ^ 32) :
    ∃ t, HighTable.new shiftJis bytes = .ok t ∧ t.rows.length = b.rows.length ∧
      (∀ i c, b.columns[i]? = some c → t.columnIndex c.name = some i) ∧
      ∀ i j row v, b.rows[i]? = some row → row[j]? = some v →
        ∃ cell, t.value i j = some cell ∧
          match v with
          | .uInt16 n => cell = .uInt16 n
          | .uInt32 n => cell = .uInt32 n
          | .uInt64 n => cell = .uInt64 n
          | .string s => ∃ offset, cell = .string offset ∧ t.strings.getString offset = some s ∧
              (offset = 0 ↔ s = "")
          | .data bs => ∃ value, cell = .data value ∧ t.data value = .ok (some bs) := by
  obtain ⟨t, hnew, hread⟩ := readBack_of_build shiftJis h h32
  refine ⟨t, hnew, hread.rowCount, fun i c hc => ?_, fun i j row v hrow hv => ?_⟩
  · obtain ⟨hi, rfl⟩ := List.getElem?_eq_some_iff.mp hc
    rw [hread.columnIndex, List.findIdx?_eq_some_iff_getElem]
    refine ⟨hi, ?_, fun k hk => ?_⟩
    · simp [String.nulPrefix_of_nulFree (hcolumns _ (List.getElem_mem hi))]
    · have hk' : k < b.columns.length := hk.trans hi
      rw [String.nulPrefix_of_nulFree (hcolumns _ (List.getElem_mem hk')), beq_iff_eq]
      intro hname
      have hinj : getElem (b.columns.map UtfColumn.name) k (by simpa using hk') =
          getElem (b.columns.map UtfColumn.name) i (by simpa using hi) ↔ k = i :=
        List.Nodup.getElem_inj_iff hdistinct
      simp only [List.getElem_map] at hinj
      exact absurd (hinj.mp hname) hk.ne
  · obtain ⟨cell, hcell, hdecodes⟩ := hread.value i j row v hrow hv
    refine ⟨cell, hcell, ?_⟩
    cases v with
    | uInt16 n | uInt32 n | uInt64 n => exact hdecodes
    | string s =>
      obtain ⟨offset, hoffset, hget, hzero⟩ := hdecodes
      have hfree := hcells row (List.mem_of_getElem? hrow) s (List.mem_of_getElem? hv)
      rw [String.nulPrefix_of_nulFree hfree] at hget
      exact ⟨offset, hoffset, hget, hzero⟩
    | data bs =>
      obtain ⟨value, hvalue, -, hdata⟩ := hdecodes
      exact ⟨value, hvalue, hdata⟩

/-- A table with a string, a number and a data column. -/
def sampleTable : UtfTableBuilder :=
  ⟨"t", [⟨"s", .string⟩, ⟨"n", .uInt16⟩, ⟨"d", .data⟩],
    [[.string "s", .uInt16 5, .data [1, 2]], [.string "", .uInt16 6, .data []]]⟩

/-- The bytes of the table. -/
def sampleTableBytes : List UInt8 :=
  [0x40, 0x55, 0x54, 0x46, 0, 0, 0, 78, 0, 1, 0, 39, 0, 0, 0, 67, 0, 0, 0, 76, 0, 0, 0, 1, 0, 3,
    0, 14, 0, 0, 0, 2, 0x5a, 0, 0, 0, 3, 0x52, 0, 0, 0, 5, 0x5b, 0, 0, 0, 7, 0, 0, 0, 3, 0, 5, 0, 0,
    0, 0, 0, 0, 0, 2, 0, 0, 0, 0, 0, 6, 0, 0, 0, 2, 0, 0, 0, 0, 0, 0x74, 0, 0x73, 0, 0x6e, 0, 0x64,
    0, 1, 2]

/-- The table is read back, its number from the second row. -/
theorem build_roundtrip_sample : ∃ t, HighTable.new (fun _ => "") sampleTableBytes = .ok t ∧
    t.rows.length = 2 ∧ t.columnIndex "n" = some 1 ∧ t.value 1 1 = some (.uInt16 6) := by
  obtain ⟨t, hnew, hrows, hcolumns, hcells⟩ := build_roundtrip (fun _ => "") sampleTable
    (by decide +kernel) (by decide +kernel) (by
      intro row hrow s hs
      simp only [sampleTable, List.mem_cons, List.not_mem_nil, or_false] at hrow
      rcases hrow with rfl | rfl <;>
        simp only [List.mem_cons, UtfValue.string.injEq, reduceCtorEq, List.not_mem_nil,
          or_false] at hs <;> subst hs <;> decide +kernel)
    (show sampleTable.build = .ok sampleTableBytes by decide +kernel) (by decide)
  obtain ⟨cell, hcell, rfl⟩ := hcells 1 1 _ (.uInt16 6) rfl rfl
  exact ⟨t, hnew, hrows, hcolumns 1 ⟨"n", .uInt16⟩ rfl, hcell⟩

end UtfTableBuilder

end CriArchive
