import CriArchive.Cpk.Builder

set_option relaxedAutoImplicit false
set_option autoImplicit false

/-!
# The tables of the layout validator

`tools/validate_cpk_layout.py` builds `@UTF` tables without the library, to check the layout of
archives against the engine. Its integers are unbounded, and what does not fit a field raises; an
exception of the script is `none`.

## Main definitions

* `Validator.Value`, `Validator.ColumnType` — the values and the types of the script.
* `Validator.buildUtf` — the function `build_utf`.
* `Validator.ofValue`, `Validator.ofColumn` — the values and the columns of the library, in the
  script.

## Main results

* `Validator.buildUtf_of_build` — a table that the library builds is the one that the script builds.
-/

namespace CriArchive

namespace Validator

open Endian

/-! ## The script -/

/-- The types of columns, the keys of `TYPE_CODE` and `TYPE_SIZE`. -/
inductive ColumnType where
  | u16
  | u32
  | u64
  | str
  | data
  deriving DecidableEq, Repr

/-- `TYPE_CODE`. -/
def ColumnType.code : ColumnType → UInt8
  | u16 => 2
  | u32 => 4
  | u64 => 6
  | str => 10
  | data => 11

/-- `TYPE_SIZE`. -/
def ColumnType.size : ColumnType → ℕ
  | u16 => 2
  | u32 => 4
  | u64 => 8
  | str => 4
  | data => 8

/-- A value of a row, which is an `int`, a `str` or `bytes`. -/
inductive Value where
  | int (n : ℕ)
  | str (s : String)
  | bytes (bs : List UInt8)
  deriving DecidableEq, Repr

/-- `struct.pack` with `>H`, `>I` or `>Q`: a number that does not fit raises. -/
def packBig (width n : ℕ) : Option (List UInt8) :=
  if n < 256 ^ width then some (beBytes width n) else none

/-- `struct.pack` with `<Q`. -/
def packLittle (width n : ℕ) : Option (List UInt8) :=
  if n < 256 ^ width then some (leBytes width n) else none

/-- The byte array `strings` and the dictionary `string_offsets`, the last insertion first. -/
structure StringPool where
  strings : List UInt8
  offsets : List (String × ℕ)
  deriving DecidableEq, Repr

/-- The pool with the empty string. -/
def StringPool.initial : StringPool := ⟨[0], [("", 0)]⟩

/-- `intern`. -/
def intern (value : String) (p : StringPool) : ℕ × StringPool :=
  match p.offsets.lookup value with
  | some offset => (offset, p)
  | none => (p.strings.length,
      ⟨p.strings ++ value.asBytes ++ [0], (value, p.strings.length) :: p.offsets⟩)

/-- `intern` for one value after the other. -/
def internEach : List String → StringPool → List ℕ × StringPool
  | [], p => ([], p)
  | value :: values, p =>
    let first := intern value p
    let others := internEach values first.2
    (first.1 :: others.1, others.2)

/-- A value with its row index, its column index and the type of its column. -/
structure Cell where
  key : ℕ × ℕ
  type : ColumnType
  value : Value
  deriving DecidableEq, Repr

/-- `enumerate(zip(columns, row))`, from the column `c` on. -/
def rowCells (r : ℕ) : ℕ → List (String × ColumnType) → List Value → List Cell
  | c, column :: columns, value :: values =>
    ⟨(r, c), column.2, value⟩ :: rowCells r (c + 1) columns values
  | _, _, _ => []

/-- The cells of the rows, from the row `r` on. -/
def cellsFrom (columns : List (String × ColumnType)) : ℕ → List (List Value) → List Cell
  | _, [] => []
  | r, row :: rows => rowCells r 0 columns row ++ cellsFrom columns (r + 1) rows

/-- The loop that interns the strings of the cells. Anything but a string raises. -/
def internCells : List Cell → StringPool → Option StringPool
  | [], p => some p
  | ⟨_, .str, .str s⟩ :: cells, p => internCells cells (intern s p).2
  | ⟨_, .str, _⟩ :: _, _ => none
  | _ :: cells, p => internCells cells p

/-- The byte array `data_pool` and the dictionary `data_locations`. -/
structure DataPool where
  pool : List UInt8
  locations : List ((ℕ × ℕ) × (ℕ × ℕ))
  deriving DecidableEq, Repr

/-- The loop that collects the byte strings of the cells. -/
def collectData : List Cell → DataPool → Option DataPool
  | [], d => some d
  | ⟨key, .data, .bytes bs⟩ :: cells, d =>
    collectData cells ⟨d.pool ++ bs, (key, (d.pool.length, bs.length)) :: d.locations⟩
  | ⟨_, .data, _⟩ :: _, _ => none
  | _ :: cells, d => collectData cells d

/-- The bytes of a cell. -/
def encodeCell (offsets : List (String × ℕ)) (locations : List ((ℕ × ℕ) × (ℕ × ℕ))) :
    Cell → Option (List UInt8)
  | ⟨_, .u16, .int n⟩ => packBig 2 n
  | ⟨_, .u32, .int n⟩ => packBig 4 n
  | ⟨_, .u64, .int n⟩ => packBig 8 n
  | ⟨_, .str, .str s⟩ => do packBig 4 (← offsets.lookup s)
  | ⟨key, .data, _⟩ => do
    let location ← locations.lookup key
    pure ((← packBig 4 location.1) ++ (← packBig 4 location.2))
  | _ => none

/-- The loop that puts out the cells. -/
def encodeCells (offsets : List (String × ℕ)) (locations : List ((ℕ × ℕ) × (ℕ × ℕ))) :
    List Cell → Option (List UInt8)
  | [] => some []
  | cell :: cells => do
    let bytes ← encodeCell offsets locations cell
    pure (bytes ++ (← encodeCells offsets locations cells))

/-- The loop that puts out the schema. -/
def encodeColumns : List (String × ColumnType) → List ℕ → Option (List UInt8)
  | column :: columns, offset :: offsets => do
    let name ← packBig 4 offset
    pure ((0x50 ||| column.2.code) :: name ++ (← encodeColumns columns offsets))
  | _, _ => some []

/-- `build_utf`. -/
def buildUtf (name : String) (columns : List (String × ColumnType)) (rows : List (List Value)) :
    Option (List UInt8) := do
  let tableName := intern name .initial
  let columnNames := internEach (columns.map Prod.fst) tableName.2
  let cells := cellsFrom columns 0 rows
  let strings ← internCells cells columnNames.2
  let data ← collectData cells ⟨[], []⟩
  let rowSize := (columns.map fun column => column.2.size).sum
  let rowsStart := 0x20 + 5 * columns.length
  let stringStart := rowsStart + rowSize * rows.length
  let dataStart := stringStart + strings.strings.length
  let totalSize := dataStart + data.pool.length
  let tableSize ← packBig 4 (totalSize - 8)
  let rowsOffset ← packBig 2 (rowsStart - 8)
  let stringOffset ← packBig 4 (stringStart - 8)
  let dataOffset ← packBig 4 (dataStart - 8)
  let nameOffset ← packBig 4 tableName.1
  let columnCount ← packBig 2 columns.length
  let rowWidth ← packBig 2 rowSize
  let rowCount ← packBig 4 rows.length
  let schema ← encodeColumns columns columnNames.1
  let body ← encodeCells strings.offsets data.locations cells
  let output := "@UTF".asBytes ++ tableSize ++ [0, 1] ++ rowsOffset ++ stringOffset ++ dataOffset ++
    nameOffset ++ columnCount ++ rowWidth ++ rowCount ++ schema ++ body ++ strings.strings ++
    data.pool
  if output.length = totalSize then some output else none

/-! ## Tables of the library -/

/-- A column type of the library. -/
def ofType : UtfType → ColumnType
  | .uInt16 => .u16
  | .uInt32 => .u32
  | .uInt64 => .u64
  | .string => .str
  | .data => .data

/-- A column of the library. -/
def ofColumn (column : UtfColumn) : String × ColumnType := (column.name, ofType column.valueType)

/-- A value of the library. -/
def ofValue : UtfValue → Value
  | .uInt16 v => .int v.toNat
  | .uInt32 v => .int v.toNat
  | .uInt64 v => .int v.toNat
  | .string s => .str s
  | .data bs => .bytes bs

/-- A cell of the library. -/
def ofCell (cell : UtfCell) : Cell := ⟨cell.1, ofType cell.2.valueType, ofValue cell.2⟩

/-- The offsets of a string pool of the library. -/
def ofOffsets (offsets : List (String × UInt32)) : List (String × ℕ) :=
  offsets.map (Prod.map id UInt32.toNat)

/-- The locations of a data pool of the library. -/
def ofLocations (locations : List ((ℕ × ℕ) × (UInt32 × UInt32))) : List ((ℕ × ℕ) × (ℕ × ℕ)) :=
  locations.map (Prod.map id (Prod.map UInt32.toNat UInt32.toNat))

/-- A string pool of the library. -/
def ofInterner (p : StringInterner) : StringPool := ⟨p.pool, ofOffsets p.offsets⟩

/-- A data pool of the library. -/
def ofData (d : CriArchive.DataPool) : DataPool := ⟨d.pool, ofLocations d.locations⟩

section Agreement

/-- A 16-bit number is packed as the writer puts it out. -/
theorem packBig_toNat16 (v : UInt16) : packBig 2 v.toNat = some (toBeBytesU16 v) :=
  if_pos v.toNat_lt

/-- A 32-bit number is packed as the writer puts it out. -/
theorem packBig_toNat32 (v : UInt32) : packBig 4 v.toNat = some (toBeBytesU32 v) :=
  if_pos v.toNat_lt

/-- A 64-bit number is packed as the writer puts it out. -/
theorem packBig_toNat64 (v : UInt64) : packBig 8 v.toNat = some (toBeBytesU64 v) :=
  if_pos v.toNat_lt

/-- Looking up in a mapped dictionary. -/
theorem lookup_map {α β γ : Type} [BEq α] (f : β → γ) (l : List (α × β)) (a : α) :
    (l.map (Prod.map id f)).lookup a = (l.lookup a).map f := by
  induction l with
  | nil => rfl
  | cons x l ih =>
    rw [List.map_cons, List.lookup_cons, List.lookup_cons, Prod.map_fst, id_eq]
    split
    · rfl
    · exact ih

/-- **One string** goes to the same place. -/
theorem intern_of_internString {s : String} {p : StringInterner} {r : UInt32 × StringInterner}
    (h : internString s p = .ok r) : intern s (ofInterner p) = (r.1.toNat, ofInterner r.2) := by
  unfold internString at h
  unfold intern
  rw [ofInterner, ofOffsets, lookup_map]
  split at h
  next offset hs =>
    obtain rfl := Exec.ok.inj h
    rw [hs]
    rfl
  next hs =>
    obtain ⟨offset, hoffset, h⟩ := Exec.bind_eq_ok.mp h
    obtain rfl := Exec.ok.inj h
    rw [Exec.okOr_eq_ok, UInt32.tryFrom_eq_some] at hoffset
    rw [hs, Option.map_none]
    dsimp only
    rw [← hoffset]
    rfl

/-- The script interns strings as the writer does. -/
theorem internEach_of_internAll {ss : List String} {p : StringInterner}
    {r : List UInt32 × StringInterner} (h : internAll ss p = .ok r) :
    internEach ss (ofInterner p) = (r.1.map UInt32.toNat, ofInterner r.2) := by
  induction ss generalizing p r with
  | nil =>
    obtain rfl := Exec.ok.inj h
    rfl
  | cons s ss ih =>
    unfold internAll at h
    obtain ⟨first, hfirst, h⟩ := Exec.bind_eq_ok.mp h
    obtain ⟨others, hothers, h⟩ := Exec.bind_eq_ok.mp h
    obtain rfl := Exec.ok.inj h
    rw [internEach, intern_of_internString hfirst]
    dsimp only
    rw [ih hothers]
    rfl

/-- The strings of cells. -/
theorem internCells_of_internAll {cells : List UtfCell} {p : StringInterner}
    {r : List UInt32 × StringInterner}
    (h : internAll (cells.filterMap fun cell => cell.2.string?) p = .ok r) :
    internCells (cells.map ofCell) (ofInterner p) = some (ofInterner r.2) := by
  induction cells generalizing p r with
  | nil =>
    obtain rfl := Exec.ok.inj h
    rfl
  | cons cell cells ih =>
    obtain ⟨key, v⟩ := cell
    cases v with
    | string s =>
      change internAll (s :: cells.filterMap fun cell => cell.2.string?) p = .ok r at h
      obtain ⟨first, hfirst, h⟩ := Exec.bind_eq_ok.mp h
      obtain ⟨others, hothers, h⟩ := Exec.bind_eq_ok.mp h
      obtain rfl := Exec.ok.inj h
      change internCells (cells.map ofCell) (intern s (ofInterner p)).2 = _
      rw [intern_of_internString hfirst]
      have hrest := ih hothers
      exact hrest
    | uInt16 v | uInt32 v | uInt64 v | data bs => exact ih h

/-- The data of cells. -/
theorem collectData_of_packCells {cells : List UtfCell} {d r : CriArchive.DataPool}
    (h : packCells cells d = .ok r) :
    collectData (cells.map ofCell) (ofData d) = some (ofData r) := by
  induction cells generalizing d with
  | nil =>
    obtain rfl := Exec.ok.inj h
    rfl
  | cons cell cells ih =>
    obtain ⟨key, v⟩ := cell
    cases v with
    | data bs =>
      unfold packCells at h
      simp only [Exec.bind_eq_ok, Exec.okOr_eq_ok, UInt32.tryFrom_eq_some] at h
      obtain ⟨offset, hoffset, length, hlength, h⟩ := h
      have hrest := ih h
      change collectData (cells.map ofCell) ⟨d.pool ++ bs, (key, (d.pool.length, bs.length)) ::
        (ofData d).locations⟩ = _
      rw [← hoffset, ← hlength]
      exact hrest
    | uInt16 v | uInt32 v | uInt64 v | string s => exact ih h

/-- **A cell** has the same bytes.

**Proof sketch.** By the kind of the cell: a number is packed by its width, and a string or data by
the offsets that both programs have recorded. -/
theorem encodeCell_of_ok {offsets : List (String × UInt32)}
    {locations : List ((ℕ × ℕ) × (UInt32 × UInt32))} {cell : UtfCell} {bytes : List UInt8}
    (h : CriArchive.encodeCell offsets locations cell = .ok bytes) :
    encodeCell (ofOffsets offsets) (ofLocations locations) (ofCell cell) = some bytes := by
  obtain ⟨key, v⟩ := cell
  cases v with
  | uInt16 v =>
    obtain rfl := Exec.ok.inj h
    exact packBig_toNat16 v
  | uInt32 v =>
    obtain rfl := Exec.ok.inj h
    exact packBig_toNat32 v
  | uInt64 v =>
    obtain rfl := Exec.ok.inj h
    exact packBig_toNat64 v
  | string s =>
    obtain ⟨offset, hoffset, h⟩ := Exec.bind_eq_ok.mp h
    obtain rfl := Exec.ok.inj h
    change (do packBig 4 (← (ofOffsets offsets).lookup s)) = _
    rw [ofOffsets, lookup_map, Exec.okOr_eq_ok.mp hoffset]
    exact packBig_toNat32 offset
  | data bs =>
    obtain ⟨location, hlocation, h⟩ := Exec.bind_eq_ok.mp h
    obtain rfl := Exec.ok.inj h
    change (do
      let location ← (ofLocations locations).lookup key
      pure ((← packBig 4 location.1) ++ (← packBig 4 location.2))) = _
    rw [ofLocations, lookup_map, Exec.okOr_eq_ok.mp hlocation]
    simp only [Option.map_some, Option.bind_eq_bind, Option.bind_some, Prod.map_fst, Prod.map_snd,
      packBig_toNat32]
    rfl

/-- The script encodes cells as the writer does. -/
theorem encodeCells_of_ok {offsets : List (String × UInt32)}
    {locations : List ((ℕ × ℕ) × (UInt32 × UInt32))} {cells : List UtfCell} {bytes : List UInt8}
    (h : CriArchive.encodeCells offsets locations cells = .ok bytes) :
    encodeCells (ofOffsets offsets) (ofLocations locations) (cells.map ofCell) = some bytes := by
  induction cells generalizing bytes with
  | nil =>
    obtain rfl := Exec.ok.inj h
    rfl
  | cons cell cells ih =>
    obtain ⟨first, hfirst, h⟩ := Exec.bind_eq_ok.mp h
    obtain ⟨others, hothers, h⟩ := Exec.bind_eq_ok.mp h
    obtain rfl := Exec.ok.inj h
    rw [List.map_cons, encodeCells, encodeCell_of_ok hfirst, ih hothers]
    rfl

/-- The schema. -/
theorem encodeColumns_eq (columns : List UtfColumn) (offsets : List UInt32) :
    encodeColumns (columns.map ofColumn) (offsets.map UInt32.toNat) =
      some (List.zipWith encodeColumn columns offsets).flatten := by
  induction columns generalizing offsets with
  | nil => rfl
  | cons column columns ih =>
    cases offsets with
    | nil => rfl
    | cons offset offsets =>
      rw [List.map_cons, List.map_cons, encodeColumns, packBig_toNat32, ih, List.zipWith_cons_cons,
        List.flatten_cons, encodeColumn]
      cases column with
      | mk name valueType => cases valueType <;> rfl

/-- The cells of a row that has a value of the right type for each column. -/
theorem rowCells_eq (r c : ℕ) {columns : List UtfColumn} {row : List UtfValue}
    (h : List.Forall₂ (fun v c => UtfValue.valueType v = UtfColumn.valueType c) row columns) :
    rowCells r c (columns.map ofColumn) (row.map ofValue) =
      (CriArchive.rowCells r c row).map ofCell := by
  induction h generalizing c with
  | nil => rfl
  | @cons v column row columns htype _ ih =>
    rw [List.map_cons, List.map_cons, rowCells, ih, CriArchive.rowCells, List.map_cons, ofCell,
      htype]
    rfl

/-- The script lists cells as the writer does. -/
theorem cellsFrom_eq (r : ℕ) {columns : List UtfColumn} {rows : List (List UtfValue)}
    (h : ∀ row ∈ rows, List.Forall₂ (fun v c => UtfValue.valueType v = UtfColumn.valueType c) row
      columns) :
    cellsFrom (columns.map ofColumn) r (rows.map (List.map ofValue)) =
      (CriArchive.cellsFrom r rows).map ofCell := by
  induction rows generalizing r with
  | nil => rfl
  | cons row rows ih =>
    rw [List.map_cons, cellsFrom, CriArchive.cellsFrom, List.map_append,
      rowCells_eq r 0 (h row (List.mem_cons_self ..)),
      ih (r + 1) fun row hrow => h row (List.mem_cons_of_mem _ hrow)]

/-- The widths of the columns are those of the library. -/
theorem size_ofType (t : UtfType) : (ofType t).size = t.size := by
  cases t <;> rfl

/-- **A table that the library builds** is the one that the script builds, byte for byte.

**Proof sketch.** The pools, the cells, the widths and the sections of the library are those of the
script, by the lemmas above, and both put the same fields behind one another. -/
theorem buildUtf_of_build {b : UtfTableBuilder} {bytes : List UInt8} (h : b.build = .ok bytes) :
    buildUtf b.name (b.columns.map ofColumn) (b.rows.map (List.map ofValue)) = some bytes := by
  obtain ⟨p, hp, hbytes, hlength⟩ := UtfTableBuilder.build_eq_ok h
  obtain ⟨hrowsStart, hstringStart, hdataStart, htotal, -⟩ := UtfTableBuilder.layout_eq_ok hp.layout
  obtain ⟨htableSize, hrowsOffset, hstringOffset, hdataOffset⟩ :=
    UtfTableBuilder.fields_eq_ok hp.fields
  -- the pools and the cells
  have hname : intern b.name .initial = (p.tableName.1.toNat, ofInterner p.tableName.2) :=
    intern_of_internString hp.tableName
  have hcolumns : internEach ((b.columns.map ofColumn).map Prod.fst) (ofInterner p.tableName.2) =
      (p.columnNames.1.map UInt32.toNat, ofInterner p.columnNames.2) := by
    rw [List.map_map]
    exact internEach_of_internAll hp.columnNames
  have hcells := cellsFrom_eq 0 (UtfTableBuilder.checkRows_eq_ok hp.rows)
  have hstrings : internCells (b.cells.map ofCell) (ofInterner p.columnNames.2) =
      some (ofInterner p.cellNames.2) := internCells_of_internAll hp.cellNames
  have hdata : collectData (b.cells.map ofCell) ⟨[], []⟩ = some (ofData p.data) :=
    collectData_of_packCells hp.data
  have hbody := encodeCells_of_ok hp.rowBytes
  have hwidth : ((b.columns.map ofColumn).map fun column => column.2.size).sum = b.rowWidth := by
    rw [List.map_map, UtfTableBuilder.rowWidth]
    exact congrArg List.sum (List.map_congr_left fun column _ => size_ofType column.valueType)
  -- the sections
  have hrows : 0x20 + 5 * (b.columns.map ofColumn).length = p.layout.rowsStart := by
    rw [List.length_map, hrowsStart, Nat.mul_comm]
  have hstart : p.layout.rowsStart + b.rowWidth * (b.rows.map (List.map ofValue)).length =
      p.layout.stringPoolStart := by rw [List.length_map, hstringStart]
  have hpool : p.layout.stringPoolStart + (ofInterner p.cellNames.2).strings.length =
      p.layout.dataPoolStart := hdataStart.symm
  have hend : p.layout.dataPoolStart + (ofData p.data).pool.length = p.layout.totalSize :=
    htotal.symm
  -- the script puts out the same fields
  rw [buildUtf]
  dsimp only
  rw [hname]
  dsimp only
  rw [hcolumns, hcells]
  dsimp only
  rw [← UtfTableBuilder.cells, hstrings, hdata]
  have hcount : (b.columns.map ofColumn).length = p.columnCount.toNat := by
    rw [List.length_map, hp.columnCount]
  have hrowCount : (b.rows.map (List.map ofValue)).length = p.rowCount.toNat := by
    rw [List.length_map, hp.rowCount]
  simp only [Option.bind_eq_bind, Option.bind_some, hwidth, hrows, hstart, hpool, hend,
    ← htableSize, ← hrowsOffset, ← hstringOffset, ← hdataOffset, packBig_toNat16, packBig_toNat32,
    encodeColumns_eq]
  rw [hcount, ← hp.rowSize, hrowCount, packBig_toNat16, packBig_toNat16, packBig_toNat32]
  simp only [Option.bind_some]
  have hbody' : encodeCells (ofInterner p.cellNames.2).offsets (ofData p.data).locations
      (b.cells.map ofCell) = some p.rowBytes := hbody
  rw [hbody', Option.bind_some]
  have houtput : "@UTF".asBytes ++ toBeBytesU32 p.fields.tableSize ++ [0, 1] ++
      toBeBytesU16 p.fields.rowsOffset ++ toBeBytesU32 p.fields.stringPoolOffset ++
      toBeBytesU32 p.fields.dataPoolOffset ++ toBeBytesU32 p.tableName.1 ++
      toBeBytesU16 p.columnCount ++ toBeBytesU16 p.rowSize ++ toBeBytesU32 p.rowCount ++
      (List.zipWith encodeColumn b.columns p.columnNames.1).flatten ++ p.rowBytes ++
      (ofInterner p.cellNames.2).strings ++ (ofData p.data).pool = bytes := by
    have hsignature : "@UTF".asBytes = utfSignature := by decide
    rw [hbytes, UtfTableBuilder.Parts.bytes, UtfTableBuilder.encodeHeader,
      UtfTableBuilder.headerFields, hsignature]
    simp only [List.flatten_cons, List.flatten_nil, List.append_assoc, List.append_nil,
      List.cons_append, List.nil_append]
    rfl
  rw [houtput, if_pos hlength]

end Agreement

end Validator

end CriArchive
