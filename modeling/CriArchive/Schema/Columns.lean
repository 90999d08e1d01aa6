import CriArchive.Schema.Rows

set_option relaxedAutoImplicit false
set_option autoImplicit false

/-!
# Parsing columns and rows

`Column::new_list` of `schema/columns.rs` and `Row::new_list` of `schema/rows.rs`, over a
seekable stream. Both decode through one scratch buffer of 16 bytes that is reused from column
to column.

## Main definitions

* `Column`, `Column.newList` — the schema of a table.
* `Row.createRow`, `Row.newList` — the rows of a table.
* `Row.decodeAt` — the cells of the row at a position of a byte string.
* `Column.rowWidth` — the bytes the row-stored columns occupy.

## Main results

* `Row.createRow_eq`, `Row.newList_eq` — on enough bytes the row parsers return the decoded rows.
* `Column.safe_newList`, `Row.safe_newList` — neither parser faults.
-/

namespace CriArchive

open ByteStream

/-! ## The scratch buffer -/

/-- Fill the first `size` bytes of a buffer from the stream
(`read_exact(&mut buffer[..size])`). -/
def readInto (buffer : List UInt8) (size : ℕ) : ExecM ByteStream Error (List UInt8) := do
  let front ← ExecM.lift (Exec.slice buffer 0 size)
  let read ← readExact .unexpectedEof front.length
  pure (read ++ buffer.drop size)

/-- A read into a large enough buffer takes the window at the position. -/
theorem readInto_eq {buffer : List UInt8} {size : ℕ} {s : ByteStream} (hb : size ≤ buffer.length)
    (hs : s.pos + size ≤ s.bytes.length) :
    readInto buffer size s =
      (.ok (window s.bytes s.pos size ++ buffer.drop size), ⟨s.bytes, s.pos + size⟩) := by
  have hfront : ((buffer.drop 0).take (size - 0)).length = size := by simp [hb]
  unfold readInto
  rw [ExecM.bind_of_ok (by rw [ExecM.lift_apply, Exec.slice_eq (Nat.zero_le _) hb]), hfront,
    ExecM.bind_of_ok (readExact_of_le hs)]
  rfl

/-- Reading into a large enough buffer does not fault and keeps its length. -/
theorem safe_readInto {buffer : List UInt8} {size : ℕ} (hb : size ≤ buffer.length)
    (s : ByteStream) :
    (readInto buffer size).Safe s fun b _ => b.length = buffer.length := by
  unfold readInto
  refine (ExecM.safe_lift (Exec.safe_slice (Nat.zero_le _) hb)).bind ?_
  rintro front t ⟨⟨-, hfront⟩, -⟩
  refine (safe_readExact _ _ _).bind ?_
  rintro read u ⟨hread, -⟩
  exact ExecM.safe_pure (by simp; omega)

/-! ## Columns -/

/-- A column: its flag byte, the offset of its name, its constant value if it has one. -/
structure Column where
  flag : ColumnValue
  stringOffset : UInt32
  default : Option RowValue
  deriving DecidableEq, Repr

namespace Column

/-- The type of a column's cells. -/
def type (c : Column) : ColumnType := c.flag.getType

/-- Whether a column's cells are stored in the rows. -/
def isRowStored (c : Column) : Bool := c.flag.contains .rowStorage

/-- The name offset that follows the flag byte of a named column, or `u32::MAX`. -/
def readStringOffset (flag : ColumnValue) : ExecM ByteStream Error UInt32 :=
  if flag.contains .name then do
    let nameBytes ← readExact .unexpectedEof 4
    ExecM.lift (fromSliceU32 .bigEndian nameBytes 0)
  else pure 0xffffffff

/-- The constant value of a column that has one, with the scratch buffer it was read through. -/
def readDefault (flag : ColumnValue) (defaultBytes : List UInt8) :
    ExecM ByteStream Error (Option RowValue × List UInt8) :=
  if flag.contains .defaultValue then
    if flag.getType.getSize = 0 then ExecM.raise .unsupportedColumnType
    else do
      let defaultBytes ← readInto defaultBytes flag.getType.getSize
      let value ← ExecM.lift (Row.rowValue flag.getType defaultBytes)
      pure (some value, defaultBytes)
  else pure (none, defaultBytes)

/-- Parse one column, returning it with the scratch buffer for constant values. -/
def newOne (defaultBytes : List UInt8) : ExecM ByteStream Error (Column × List UInt8) := do
  let flagByte ← readExact .unexpectedEof 1
  let bits ← ExecM.lift (Exec.index flagByte 0)
  let flag := ColumnValue.mk bits
  let stringOffset ← readStringOffset flag
  let (default, defaultBytes) ← readDefault flag defaultBytes
  pure (⟨flag, stringOffset, default⟩, defaultBytes)

/-- Parse `count` columns in sequence. -/
def newListLoop : ℕ → List UInt8 → ExecM ByteStream Error (List Column)
  | 0, _ => pure []
  | count + 1, defaultBytes => do
    let (column, defaultBytes) ← newOne defaultBytes
    let columns ← newListLoop count defaultBytes
    pure (column :: columns)

/-- `Column::new_list`: parse the schema that follows the header. -/
def newList (header : TableHeader) : ExecM ByteStream Error (List Column) := do
  seek headerSize
  let count ← ExecM.lift header.columnCount
  newListLoop count.toNat (List.replicate 0x10 0)

/-- Decoding a value from a full scratch buffer is safe. -/
theorem safe_rowValue {ctype : ColumnType} {buffer : List UInt8} (h : buffer.length = 0x10) :
    (Row.rowValue ctype buffer : Exec Error RowValue).Safe fun _ => True := by
  have hsplit := List.take_append_drop ctype.getSize buffer
  have hlen : (buffer.take ctype.getSize).length = ctype.getSize := by
    have := ctype.size_le
    rw [List.length_take]
    omega
  rw [← hsplit, Row.rowValue_eq hlen]
  trivial

/-- The offset of a name is read or refused. -/
theorem safe_readStringOffset (flag : ColumnValue) (s : ByteStream) :
    (readStringOffset flag).Safe s fun _ _ => True := by
  unfold readStringOffset
  split_ifs
  · refine (safe_readExact _ _ _).bind ?_
    rintro nameBytes t ⟨hname, -⟩
    rw [fromSliceU32_eq (by omega)]
    trivial
  · trivial

/-- Reading a constant value does not fault, and the scratch buffer keeps its size. -/
theorem safe_readDefault (flag : ColumnValue) {defaultBytes : List UInt8}
    (h : defaultBytes.length = 0x10) (s : ByteStream) :
    (readDefault flag defaultBytes).Safe s fun r _ => r.2.length = 0x10 := by
  unfold readDefault
  split_ifs
  · exact ExecM.safe_raise _ _ _
  · refine (safe_readInto (by rw [h]; exact ColumnType.size_le _) _).bind ?_
    intro buffer t hbuffer
    rw [h] at hbuffer
    refine (ExecM.safe_lift (safe_rowValue hbuffer)).bind ?_
    intro value u _
    exact ExecM.safe_pure hbuffer
  · exact ExecM.safe_pure h

/-- Parsing one column does not fault, and the scratch buffer keeps its size. -/
theorem safe_newOne {defaultBytes : List UInt8} (h : defaultBytes.length = 0x10)
    (s : ByteStream) :
    (newOne defaultBytes).Safe s fun r _ => r.2.length = 0x10 := by
  unfold newOne
  refine (safe_readExact _ _ _).bind ?_
  rintro flagByte t ⟨hflag, -⟩
  refine (ExecM.safe_lift (Exec.safe_index (by omega))).bind ?_
  intro bits u _
  refine (safe_readStringOffset _ _).bind ?_
  intro offset v _
  refine (safe_readDefault _ h _).bind ?_
  intro r w hr
  exact ExecM.safe_pure hr

/-- The columns are read or refused. -/
theorem safe_newListLoop (count : ℕ) {defaultBytes : List UInt8}
    (h : defaultBytes.length = 0x10) (s : ByteStream) :
    (newListLoop count defaultBytes).Safe s fun _ _ => True := by
  induction count generalizing defaultBytes s with
  | zero => trivial
  | succ count ih =>
    refine (safe_newOne h s).bind ?_
    rintro ⟨column, buffer⟩ t hbuffer
    exact (ih hbuffer t).bind fun _ _ _ => trivial

/-- **Parsing the schema does not fault**, whatever the header and the stream hold. -/
theorem safe_newList (header : TableHeader) (s : ByteStream) :
    (newList header).Safe s fun _ _ => True := by
  refine (safe_seek headerSize s).bind ?_
  rintro - t -
  rw [TableHeader.columnCount_eq]
  exact safe_newListLoop _ (by simp) _

/-- The bytes the row-stored columns occupy in a row. -/
def rowWidth : List Column → ℕ
  | [] => 0
  | c :: cs => (if c.isRowStored then c.type.getSize else 0) + rowWidth cs

end Column

/-! ## Rows -/

namespace Row

/-- Parse the cells of one row through the scratch buffer `field`. -/
def createRowLoop : List Column → List UInt8 → ExecM ByteStream Error Row
  | [], _ => pure []
  | c :: cs, field =>
    if c.type = .invalid then ExecM.raise .unsupportedColumnType
    -- a column that is not stored in the rows is a null object here
    else if ¬c.isRowStored then do
      let row ← createRowLoop cs field
      pure (.none :: row)
    else do
      let field ← readInto field c.type.getSize
      let value ← ExecM.lift (Row.rowValue c.type field)
      let row ← createRowLoop cs field
      pure (value :: row)

/-- `Row::create_row`: parse the row at the position. -/
def createRow (columnDef : List Column) : ExecM ByteStream Error Row :=
  createRowLoop columnDef (List.replicate 0x10 0)

/-- Parse `count` rows from the row with index `rowIndex` on. The stream is moved to each row by
the declared row size, so that rows may be longer than their schema. -/
def newListLoop (rowsOffset rowSize : ℕ) (columnDef : List Column) :
    ℕ → ℕ → ExecM ByteStream Error (List Row)
  | 0, _ => pure []
  | count + 1, rowIndex => do
    let rowPosition ← ExecM.lift (Exec.okOr
      ((Nat.checkedMul64 rowIndex rowSize).bind (Nat.checkedAdd64 rowsOffset))
      .rowPositionOverflow)
    seek rowPosition
    let row ← createRow columnDef
    let rows ← newListLoop rowsOffset rowSize columnDef count (rowIndex + 1)
    pure (row :: rows)

/-- `Row::new_list`: parse the rows of a table. -/
def newList (header : TableHeader) (columnDef : List Column) :
    ExecM ByteStream Error (List Row) := do
  let rowsOffset ← ExecM.lift header.rowsOffset
  let rowSize ← ExecM.lift header.rowSize
  let rowCount ← ExecM.lift header.rowCount
  newListLoop rowsOffset rowSize.toNat columnDef rowCount.toNat 0

/-- Parsing the cells of a row does not fault; a parsed row has a cell for each column. -/
theorem safe_createRowLoop (columnDef : List Column) {field : List UInt8}
    (h : field.length = 0x10) (s : ByteStream) :
    (createRowLoop columnDef field).Safe s fun row _ => row.length = columnDef.length := by
  induction columnDef generalizing field s with
  | nil => rfl
  | cons c cs ih =>
    unfold createRowLoop
    split_ifs
    · exact ExecM.safe_raise _ _ _
    · refine (safe_readInto (by rw [h]; exact ColumnType.size_le _) _).bind ?_
      intro buffer t hbuffer
      rw [h] at hbuffer
      refine (ExecM.safe_lift (Column.safe_rowValue hbuffer)).bind ?_
      intro value u _
      refine (ih hbuffer u).bind ?_
      intro row v hrow
      exact ExecM.safe_pure (by simp [hrow])
    · refine (ih h s).bind ?_
      intro row t hrow
      exact ExecM.safe_pure (by simp [hrow])

/-- The rows are read or refused, and each has a cell for every column. -/
theorem safe_newListLoop (rowsOffset rowSize : ℕ) (columnDef : List Column) (count : ℕ)
    (rowIndex : ℕ) (s : ByteStream) :
    (newListLoop rowsOffset rowSize columnDef count rowIndex).Safe s fun rows _ =>
      rows.length = count ∧ ∀ row ∈ rows, row.length = columnDef.length := by
  induction count generalizing rowIndex s with
  | zero => exact ⟨rfl, by simp⟩
  | succ count ih =>
    refine (ExecM.safe_lift (Exec.safe_okOr _ _)).bind ?_
    intro rowPosition t _
    refine (safe_seek _ _).bind ?_
    intro _ u _
    refine (safe_createRowLoop columnDef (by simp) _).bind ?_
    intro row v hrow
    refine (ih _ _).bind ?_
    rintro rows w ⟨hlen, hrows⟩
    refine ExecM.safe_pure ⟨by simp [hlen], ?_⟩
    intro r hr
    rcases List.mem_cons.mp hr with rfl | hr
    · exact hrow
    · exact hrows r hr

/-- **Parsing the rows does not fault**; it returns as many rows as the header declares, each
with a cell for every column. -/
theorem safe_newList (header : TableHeader) (columnDef : List Column) (s : ByteStream) :
    (newList header columnDef).Safe s fun rows _ =>
      rows.length = (header.field32 0x1c).toNat ∧ ∀ row ∈ rows, row.length = columnDef.length := by
  unfold newList
  rw [TableHeader.rowsOffset_eq, TableHeader.rowSize_eq, TableHeader.rowCount_eq]
  exact safe_newListLoop _ _ _ _ _ _

/-! ## The decoded rows -/

/-- The cells of the row at position `pos` of a byte string: each row-stored column takes the
next bytes of its size, the others take none. -/
def decodeAt (bytes : List UInt8) : ℕ → List Column → Row
  | _, [] => []
  | pos, c :: cs =>
    if c.isRowStored then
      RowValue.decode c.type (window bytes pos c.type.getSize) ::
        decodeAt bytes (pos + c.type.getSize) cs
    else .none :: decodeAt bytes pos cs

/-- A row has a cell for every column. -/
@[simp] theorem length_decodeAt (bytes : List UInt8) (pos : ℕ) (columnDef : List Column) :
    (decodeAt bytes pos columnDef).length = columnDef.length := by
  induction columnDef generalizing pos with
  | nil => rfl
  | cons c cs ih =>
    unfold decodeAt
    split_ifs <;> simp [ih]

/-- Parsing a row that lies inside the stream returns its decoded cells: the scratch buffer's
leftovers never show.

**Proof sketch.** By induction on the columns. A cell that is stored is read into the front of the
scratch buffer, and its value only depends on the bytes that were read (`Row.rowValue_eq`); a cell
that is not stored reads nothing. -/
theorem createRowLoop_eq {columnDef : List Column} (hvalid : ∀ c ∈ columnDef, c.type ≠ .invalid)
    {field : List UInt8} (hfield : field.length = 0x10) {s : ByteStream}
    (hs : s.pos + Column.rowWidth columnDef ≤ s.bytes.length) :
    createRowLoop columnDef field s =
      (.ok (decodeAt s.bytes s.pos columnDef), ⟨s.bytes, s.pos + Column.rowWidth columnDef⟩) := by
  induction columnDef generalizing field s with
  | nil => rfl
  | cons c cs ih =>
    have hc : c.type ≠ .invalid := hvalid c (List.mem_cons_self ..)
    have hcs : ∀ d ∈ cs, d.type ≠ .invalid := fun d hd => hvalid d (List.mem_cons_of_mem _ hd)
    unfold createRowLoop
    rw [if_neg hc]
    by_cases hstored : c.isRowStored
    · simp only [Column.rowWidth, hstored, if_true] at hs
      have hsize := ColumnType.size_le c.type
      have hwin : (window s.bytes s.pos c.type.getSize).length = c.type.getSize :=
        length_window (by omega)
      have hbuf : (window s.bytes s.pos c.type.getSize ++ field.drop c.type.getSize).length =
          0x10 := by
        simp only [List.length_append, List.length_drop, hwin, hfield]
        omega
      rw [if_neg (by simpa using hstored),
        ExecM.bind_of_ok (readInto_eq (by omega) (by omega)),
        ExecM.bind_of_ok (by rw [ExecM.lift_apply, Row.rowValue_eq hwin]),
        ExecM.bind_of_ok (ih hcs hbuf (by simpa [Nat.add_assoc] using hs))]
      simp [decodeAt, Column.rowWidth, hstored, Nat.add_assoc]
    · simp only [Column.rowWidth, hstored] at hs
      rw [if_pos hstored, ExecM.bind_of_ok (ih hcs hfield (by simpa using hs))]
      simp [decodeAt, Column.rowWidth, hstored]

/-- **The rows of a table** are decoded from its bytes, one after the other. -/
theorem newListLoop_eq {rowsOffset rowSize : ℕ} {columnDef : List Column}
    (hvalid : ∀ c ∈ columnDef, c.type ≠ .invalid) (hwidth : Column.rowWidth columnDef ≤ rowSize)
    (count rowIndex : ℕ) {s : ByteStream}
    (hs : rowsOffset + rowSize * (rowIndex + count) ≤ s.bytes.length)
    (h64 : rowsOffset + rowSize * (rowIndex + count) < 2 ^ 64) :
    (newListLoop rowsOffset rowSize columnDef count rowIndex s).1 =
      .ok ((List.range' rowIndex count).map fun r =>
        decodeAt s.bytes (rowsOffset + r * rowSize) columnDef) := by
  induction count generalizing rowIndex s with
  | zero => rfl
  | succ count ih =>
    have hrow : rowIndex * rowSize + rowSize ≤ rowSize * (rowIndex + (count + 1)) := by
      rw [← Nat.succ_mul, Nat.mul_comm]
      exact Nat.mul_le_mul_left _ (by omega)
    have hmul : Nat.checkedMul64 rowIndex rowSize = some (rowIndex * rowSize) :=
      Nat.checkedMul64_eq_some.mpr ⟨by omega, rfl⟩
    have hadd : Nat.checkedAdd64 rowsOffset (rowIndex * rowSize) =
        some (rowsOffset + rowIndex * rowSize) :=
      Nat.checkedAdd64_eq_some.mpr ⟨by omega, rfl⟩
    have hnext : rowIndex + 1 + count = rowIndex + (count + 1) := by omega
    unfold newListLoop
    rw [ExecM.bind_of_ok (by rw [ExecM.lift_apply, hmul, Option.bind_some, hadd, Exec.okOr_some]),
      ExecM.bind_of_ok (seek_apply _ _), createRow,
      ExecM.bind_of_ok (createRowLoop_eq hvalid (by simp) (by simp only; omega))]
    have hrest := ih (rowIndex + 1)
      (s := ⟨s.bytes, rowsOffset + rowIndex * rowSize + Column.rowWidth columnDef⟩) (hnext ▸ hs)
      (hnext ▸ h64)
    rw [ExecM.bind_of_ok (Prod.ext hrest rfl)]
    simp [List.range'_succ]

/-- **Parsing the rows** of a table whose rows lie inside the stream returns the decoded rows. -/
theorem newList_eq {header : TableHeader} {columnDef : List Column}
    (hvalid : ∀ c ∈ columnDef, c.type ≠ .invalid)
    (hwidth : Column.rowWidth columnDef ≤ (header.field16 0x1a).toNat) {s : ByteStream}
    (hs : (header.field16 0xa).toNat + headerOffset +
      (header.field16 0x1a).toNat * (header.field32 0x1c).toNat ≤ s.bytes.length)
    (h64 : (header.field16 0xa).toNat + headerOffset +
      (header.field16 0x1a).toNat * (header.field32 0x1c).toNat < 2 ^ 64) :
    (newList header columnDef s).1 =
      .ok ((List.range (header.field32 0x1c).toNat).map fun r =>
        decodeAt s.bytes ((header.field16 0xa).toNat + headerOffset +
          r * (header.field16 0x1a).toNat) columnDef) := by
  unfold newList
  rw [TableHeader.rowsOffset_eq, TableHeader.rowSize_eq, TableHeader.rowCount_eq,
    ExecM.bind_of_ok (ExecM.lift_apply _ _), ExecM.bind_of_ok (ExecM.lift_apply _ _),
    ExecM.bind_of_ok (ExecM.lift_apply _ _),
    newListLoop_eq hvalid hwidth _ _ (by simpa using hs) (by simpa using h64),
    List.range_eq_range']

end Row

end CriArchive
