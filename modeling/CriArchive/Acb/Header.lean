import CriArchive.Lib.Insertions
import CriArchive.Schema.Columns
import CriArchive.Schema.Strings

set_option relaxedAutoImplicit false
set_option autoImplicit false

/-!
# ACB tables

`acb/header.rs`: the second reader of `@UTF` tables. It parses columns, rows and strings by the same
functions as the reader of `cpk/header.rs`, but it checks neither the signature nor the sections, and
it finds columns by a map from their names.

## Main definitions

* `Acb.HighTable` — a parsed table; `Acb.HighTable.new` parses one.
* `Acb.HighTable.getValue`, `getValueHeader` — the cells of a row and of the first row.
* `Acb.SchemaParses`, `Acb.SectionsInside` — what decides whether parsing faults.

## Main results

* `Acb.HighTable.new_ne_fault_iff` — when parsing a table does not fault.
* `Acb.HighTable.getValue_eq` — a cell of a row of the table itself is found.
-/

namespace CriArchive

namespace Acb

open ByteStream

/-- `acb::header::HighTable`: a parsed table, with the index of every named column. -/
structure HighTable where
  alloc : List UInt8
  header : TableHeader
  strings : StringPoolFast
  rows : List Row
  indices : List (String × ℕ)

namespace HighTable

variable (shiftJis : List UInt8 → String)

/-- The map from the names of the columns to their indices. -/
def columnIndices (strings : StringPoolFast) (columns : List Column) : List (String × ℕ) :=
  Insertions.ofList
    (fun col => (strings.getString col.1.stringOffset).map fun name => (name, col.2))
    columns.zipIdx

/-- `HighTable::new`: parse a table. -/
def new (alloc : List UInt8) : Exec Error HighTable := do
  let header := TableHeader.new alloc
  let schema ← (Column.newList header).runOn ⟨alloc, headerSize⟩
  let stringStart ← header.stringPoolOffset
  let dataStart ← header.dataPoolOffset
  let strRaw ← Exec.slice alloc stringStart dataStart
  let rows ← (Row.newList header schema.1).runOn schema.2
  let strings ← StringPoolFast.newBorrowed shiftJis strRaw header
  pure ⟨alloc, header, strings, rows.1, columnIndices strings schema.1⟩

/-- `HighTable::get_value`: the cell of a row in the column with a name. -/
def getValue (t : HighTable) (row : Row) (name : String) : Exec Error (Option RowValue) :=
  match t.indices.lookup name with
  | none => pure none
  | some i => do
    let value ← Exec.index row i
    pure (some value)

/-- `HighTable::get_value_header`: the cell of the first row in the column with a name. -/
def getValueHeader (t : HighTable) (name : String) : Exec Error (Option RowValue) := do
  let row ← Exec.index t.rows 0
  t.getValue row name

end HighTable

/-! ## When parsing does not fault -/

/-- The schema of a table can be read. -/
def SchemaParses (alloc : List UInt8) : Prop :=
  ∃ columns, (Column.newList (TableHeader.new alloc) ⟨alloc, headerSize⟩).1 = .ok columns

/-- The string pool and the data pool of a table start in this order and inside its bytes. -/
def SectionsInside (alloc : List UInt8) : Prop :=
  ∃ stringStart dataStart,
    ((TableHeader.new alloc).stringPoolOffset : Exec Error ℕ) = .ok stringStart ∧
    ((TableHeader.new alloc).dataPoolOffset : Exec Error ℕ) = .ok dataStart ∧
    stringStart ≤ dataStart ∧ dataStart ≤ alloc.length

namespace HighTable

variable {shiftJis : List UInt8 → String} {alloc : List UInt8} {t : HighTable}

/-- The parts of a table that was parsed. -/
theorem new_eq_ok (h : new shiftJis alloc = .ok t) : t.alloc = alloc ∧
    t.header = TableHeader.new alloc ∧ ∃ columns s u stringStart dataStart,
      Column.newList (TableHeader.new alloc) ⟨alloc, headerSize⟩ = (.ok columns, s) ∧
      ((TableHeader.new alloc).stringPoolOffset : Exec Error ℕ) = .ok stringStart ∧
      ((TableHeader.new alloc).dataPoolOffset : Exec Error ℕ) = .ok dataStart ∧
      stringStart ≤ dataStart ∧ dataStart ≤ alloc.length ∧
      Row.newList (TableHeader.new alloc) columns s = (.ok t.rows, u) ∧
      StringPoolFast.newBorrowed shiftJis (window alloc stringStart (dataStart - stringStart))
        (TableHeader.new alloc) = .ok t.strings ∧
      t.indices = columnIndices t.strings columns := by
  unfold new at h
  simp only [Exec.bind_eq_ok, Exec.pure_eq, Exec.ok.injEq, ExecM.runOn_eq_ok, Exec.slice_eq_ok] at h
  obtain ⟨schema, hschema, stringStart, hstring, dataStart, hdata, strRaw, ⟨⟨horder, hinside⟩, rfl⟩,
    rows, hrows, strings, hstrings, rfl⟩ := h
  exact ⟨rfl, rfl, schema.1, schema.2, rows.2, stringStart, dataStart, hschema, hstring, hdata,
    horder, hinside, hrows, hstrings, rfl⟩

/-- The sections are inside the bytes iff the offsets that the header gives are. -/
theorem sectionsInside_iff {stringStart dataStart : ℕ}
    (hstring : ((TableHeader.new alloc).stringPoolOffset : Exec Error ℕ) = .ok stringStart)
    (hdata : ((TableHeader.new alloc).dataPoolOffset : Exec Error ℕ) = .ok dataStart) :
    SectionsInside alloc ↔ stringStart ≤ dataStart ∧ dataStart ≤ alloc.length := by
  constructor
  · rintro ⟨a, b, ha, hb, hinside⟩
    obtain rfl := Exec.ok.inj (hstring.symm.trans ha)
    obtain rfl := Exec.ok.inj (hdata.symm.trans hb)
    exact hinside
  · exact fun hinside => ⟨_, _, hstring, hdata, hinside⟩

/-- **When parsing a table does not fault**: the sections are in order and inside the bytes, if the
schema can be read at all. Nothing else in a table that is not well formed makes parsing fault.

**Proof sketch.** The two offsets are always read, and the schema is parsed or refused. After it,
the only step that can fault is the slice of the string pool, which does iff its bounds are not in
order or not inside the bytes; rows and strings are parsed or refused. -/
theorem new_ne_fault_iff :
    new shiftJis alloc ≠ .fault ↔ (SchemaParses alloc → SectionsInside alloc) := by
  have hsafe : ((Column.newList (TableHeader.new alloc)).runOn ⟨alloc, headerSize⟩).Safe
      fun _ => True := (Column.safe_newList _ _).runOn.mono fun _ _ => trivial
  obtain ⟨stringStart, hstring⟩ : ∃ a,
      ((TableHeader.new alloc).stringPoolOffset : Exec Error ℕ) = .ok a :=
    ⟨_, TableHeader.stringPoolOffset_eq _⟩
  obtain ⟨dataStart, hdata, hsmall⟩ : ∃ b,
      ((TableHeader.new alloc).dataPoolOffset : Exec Error ℕ) = .ok b ∧ b < 2 ^ 32 :=
    ⟨_, TableHeader.dataPoolOffset_eq _, by omega⟩
  unfold new
  simp only [hstring, hdata, Exec.ok_bind]
  rcases hschema : (Column.newList (TableHeader.new alloc)).runOn ⟨alloc, headerSize⟩ with
    schema | e | _
  · have hparses : SchemaParses alloc :=
      ⟨schema.1, congrArg Prod.fst (ExecM.runOn_eq_ok.mp hschema)⟩
    rw [forall_prop_of_true hparses, sectionsInside_iff hstring hdata, Exec.ok_bind]
    by_cases hinside : stringStart ≤ dataStart ∧ dataStart ≤ alloc.length
    · refine iff_of_true (Exec.Safe.ne_fault (Q := fun _ => True) ?_) hinside
      refine (Exec.safe_slice hinside.1 hinside.2).bind fun strRaw hraw => ?_
      refine (Row.safe_newList _ _ _).runOn.bind fun rows _ => ?_
      exact (StringPoolFast.safe_newBorrowed (by omega) _).bind fun strings _ => trivial
    · refine iff_of_false ?_ hinside
      rw [Exec.slice_eq_fault.mpr hinside]
      exact fun hne => hne rfl
  · refine iff_of_true (by simp) ?_
    rintro ⟨columns, hcolumns⟩
    rw [ExecM.runOn_of_ok (Prod.ext hcolumns rfl)] at hschema
    cases hschema
  · rw [hschema] at hsafe
    exact hsafe.elim

/-! ## Cells -/

/-- The cell of a row in the column with a name, if there is one. -/
def cell (t : HighTable) (row : Row) (name : String) : Option RowValue :=
  (t.indices.lookup name).bind fun i => row[i]?

/-- Every column that has a name has a cell in every row. -/
def Rectangular (t : HighTable) : Prop :=
  ∀ row ∈ t.rows, ∀ name i, t.indices.lookup name = some i → i < row.length

/-- The columns of a parsed table have cells. -/
theorem rectangular_of_new (h : new shiftJis alloc = .ok t) : t.Rectangular := by
  obtain ⟨-, -, columns, s, u, -, -, -, -, -, -, -, hrows, -, hindices⟩ := new_eq_ok h
  have hcells := ((Row.safe_newList (TableHeader.new alloc) columns s).of_ok hrows).2
  intro row hrow name i hi
  rw [hindices, columnIndices, Insertions.lookup_ofList] at hi
  obtain ⟨before, ⟨column, j⟩, after, hsplit, hentry, -⟩ := hi
  obtain ⟨name', -, heq⟩ := Option.map_eq_some_iff.mp hentry
  obtain ⟨-, rfl⟩ := Prod.mk.inj heq
  have hmem : (column, j) ∈ columns.zipIdx := hsplit ▸ by simp
  rw [hcells row hrow]
  exact (List.getElem?_eq_some_iff.mp (List.mk_mem_zipIdx_iff_getElem?.mp hmem)).1

/-- A cell of a row of the table itself is found. -/
theorem getValue_eq (ht : t.Rectangular) {row : Row} (hrow : row ∈ t.rows) (name : String) :
    t.getValue row name = .ok (t.cell row name) := by
  unfold getValue cell
  rcases hi : t.indices.lookup name with _ | i
  · rfl
  · have hlt := ht row hrow name i hi
    rw [Option.bind_some, List.getElem?_eq_getElem hlt]
    change (Exec.index row i >>= _) = _
    rw [Exec.index_eq hlt]
    rfl

/-- A cell of the row at an index is found iff there is that row. -/
theorem index_bind_getValue (ht : t.Rectangular) (i : ℕ) (name : String) {α : Type}
    (f : Option RowValue → Exec Error α) :
    (Exec.index t.rows i >>= fun row => t.getValue row name >>= f) =
      t.rows[i]?.elim .fault fun row => f (t.cell row name) := by
  rcases hrow : t.rows[i]? with _ | row
  · rw [Exec.index_eq_fault.mpr (List.getElem?_eq_none_iff.mp hrow)]
    rfl
  · rw [Exec.index_eq_ok.mpr hrow, Exec.ok_bind, getValue_eq ht (List.mem_of_getElem? hrow)]
    rfl

/-- The first row has cells, when there is one. -/
theorem getValueHeader_eq (ht : t.Rectangular) {row : Row} (hrow : t.rows[0]? = some row)
    (name : String) : t.getValueHeader name = .ok (t.cell row name) := by
  rw [getValueHeader, Exec.index_eq_ok.mpr hrow, Exec.ok_bind,
    getValue_eq ht (List.mem_of_getElem? hrow)]

end HighTable

end Acb

end CriArchive
