import CriArchive.Acb.Header

set_option relaxedAutoImplicit false
set_option autoImplicit false

/-!
# Reading ACB files

`acb/reader.rs`: an ACB file is a table whose first row refers to further tables in its data pool. The
reader parses four of them and fills two maps, from the names of cues to their indices and from the
IDs of cues to their rows; lookups go through these maps and then into a row of the other table.

## Main definitions

* `AcbReader`, `AcbReader.new` — a reader and how it is made; `AcbReader.getTable` — a sub-table.
* `AcbReader.getName`, `getCueByName`, `getCueById` — the lookups.
* `AcbReader.HasCueId`, `HasCueName`, `HasCueIndex` — what the rows of the cue tables hold.

## Main results

* `AcbReader.new_eq_ok` — the parts of a reader.
* `AcbReader.lookup_cueNameToIndex`, `lookup_cueIdToIndex` — what the two maps hold.
-/

namespace CriArchive

namespace Acb

/-- A waveform: its index in the AWB file and its size. -/
structure Waveform where
  awbIndex : ℕ
  size : ℕ
  deriving DecidableEq, Repr

/-- A cue that was looked up. -/
structure Cue where
  name : String
  id : UInt32
  waveforms : List Waveform
  deriving DecidableEq, Repr

/-- `AcbReader`: the file, its tables, and the maps from the names of cues to their indices and from
the IDs of cues to their rows, the last insertion first. -/
structure AcbReader where
  stream : List UInt8
  header : HighTable
  cueTbl : Option HighTable
  cueNameTbl : Option HighTable
  waveformTbl : Option HighTable
  sequenceTbl : Option HighTable
  cueNameToIndex : List (String × ℕ)
  cueIdToIndex : List (UInt32 × ℕ)

/-- Checked addition of two `u32` values. -/
def addU32 (a b : ℕ) : Exec Error ℕ := if a + b < 2 ^ 32 then .ok (a + b) else .fault

namespace AcbReader

section New

variable (shiftJis : List UInt8 → String)

/-- `AcbReader::get_table`: parse the sub-table that a cell of the first row refers to. -/
def getTable (header : HighTable) (name : String) : Exec Error (Option HighTable) := do
  let value ← header.getValueHeader name
  match value with
  | some (.data data) => do
    let dataStart ← header.header.dataPoolOffset
    let fileOffset ← addU32 dataStart data.offset.toNat
    let bytes ← Exec.slice header.alloc fileOffset header.alloc.length
    let table ← HighTable.new shiftJis bytes
    pure (some table)
  | _ => pure none

/-- What a row of the name table inserts into the map from names. -/
def cueNameEntry (tbl : HighTable) (row : Row) : Exec Error (Option (String × ℕ)) := do
  let nameCell ← tbl.getValue row "CueName"
  match nameCell with
  | some (.string name) =>
    match tbl.strings.getString name with
    | some name => do
      let indexCell ← tbl.getValue row "CueIndex"
      match indexCell with
      | some (.uInt16 index) => pure (some (name, index.toNat))
      | _ => pure none
    | none => pure none
  | _ => pure none

/-- The map from the names of cues to their indices. -/
def buildCueNameToIndex : Option HighTable → Exec Error (List (String × ℕ))
  | some tbl => do
    let entries ← tbl.rows.filterMapM (cueNameEntry tbl)
    pure entries.reverse
  | none => pure []

/-- What the row of the cue table with an index inserts into the map from IDs. -/
def cueIdEntry (tbl : HighTable) (row : Row × ℕ) : Exec Error (Option (UInt32 × ℕ)) := do
  let idCell ← tbl.getValue row.1 "CueId"
  match idCell with
  | some (.uInt32 id) => pure (some (id, row.2))
  | _ => pure none

/-- The map from the IDs of cues to their rows. -/
def buildCueIdToIndex : Option HighTable → Exec Error (List (UInt32 × ℕ))
  | some tbl => do
    let entries ← tbl.rows.zipIdx.filterMapM (cueIdEntry tbl)
    pure entries.reverse
  | none => pure []

/-- `AcbReader::new`. -/
def new (stream : List UInt8) : Exec Error AcbReader := do
  let header ← HighTable.new shiftJis stream
  let cueTbl ← getTable shiftJis header "CueTable"
  let cueNameTbl ← getTable shiftJis header "CueNameTable"
  let waveformTbl ← getTable shiftJis header "WaveformTable"
  let sequenceTbl ← getTable shiftJis header "SequenceTable"
  let cueNameToIndex ← buildCueNameToIndex cueNameTbl
  let cueIdToIndex ← buildCueIdToIndex cueTbl
  pure { stream, header, cueTbl, cueNameTbl, waveformTbl, sequenceTbl, cueNameToIndex, cueIdToIndex }

end New

variable (r : AcbReader)

/-- `AcbReader::get_name`. -/
def getName : Exec Error (Option String) := do
  let value ← r.header.getValueHeader "Name"
  match value with
  | some (.string s) => pure (r.header.strings.getString s)
  | _ => pure none

/-- `AcbReader::get_cue_by_name`. -/
def getCueByName (cue : String) : Exec Error (Option Cue) :=
  if r.cueTbl.isNone then pure none
  else
    match r.cueNameToIndex.lookup cue with
    | none => pure none
    | some index => do
      let cueTbl ← Exec.orFault r.cueTbl
      let cueRow ← Exec.index cueTbl.rows index
      let value ← cueTbl.getValue cueRow "CueId"
      match value with
      | some (.uInt32 cueId) => pure (some ⟨cue, cueId, []⟩)
      | _ => pure none

/-- `AcbReader::get_cue_by_id`: the row of the cue is taken for the row of its name. -/
def getCueById (id : UInt32) : Exec Error (Option Cue) :=
  match r.cueIdToIndex.lookup id with
  | none => pure none
  | some index => do
    let cueNameTbl ← Exec.orFault r.cueNameTbl
    let cueRow ← Exec.index cueNameTbl.rows index
    let value ← cueNameTbl.getValue cueRow "CueName"
    match value with
    | some (.string s) => pure ((cueNameTbl.strings.getString s).map fun name => ⟨name, id, []⟩)
    | _ => pure none

/-! ## What rows hold -/

end AcbReader

namespace HighTable

variable (t : HighTable) (row : Row)

/-- The ID in a row of the cue table. -/
def rowId : Option UInt32 :=
  match t.cell row "CueId" with
  | some (.uInt32 id) => some id
  | _ => none

/-- The name in a row of the name table. -/
def rowName : Option String :=
  match t.cell row "CueName" with
  | some (.string s) => t.strings.getString s
  | _ => none

/-- The index in a row of the name table. -/
def rowIndex : Option ℕ :=
  match t.cell row "CueIndex" with
  | some (.uInt16 index) => some index.toNat
  | _ => none

end HighTable

namespace AcbReader

/-- The row `i` of a table holds a value. -/
def HasAt {α : Type} (f : HighTable → Row → Option α) (tbl : Option HighTable) (i : ℕ) (a : α) :
    Prop :=
  ∃ t ∈ tbl, ∃ row, t.rows[i]? = some row ∧ f t row = some a

/-- The row `i` of a cue table has an ID. -/
def HasCueId (tbl : Option HighTable) (i : ℕ) (id : UInt32) : Prop := HasAt HighTable.rowId tbl i id

/-- The row `j` of a name table has a name. -/
def HasCueName (tbl : Option HighTable) (j : ℕ) (name : String) : Prop :=
  HasAt HighTable.rowName tbl j name

/-- The row `j` of a name table has an index. -/
def HasCueIndex (tbl : Option HighTable) (j k : ℕ) : Prop := HasAt HighTable.rowIndex tbl j k

section HasAt

variable {α : Type} {f : HighTable → Row → Option α} {tbl : Option HighTable} {t : HighTable}
  {i k : ℕ}

/-- The row of a table that is there holds a value. -/
theorem hasAt_some {a : α} :
    HasAt f (some t) i a ↔ ∃ row, t.rows[i]? = some row ∧ f t row = some a := by
  simp [HasAt]

/-- The row of a cue table that is there has an ID. -/
theorem hasCueId_some {id : UInt32} :
    HasCueId (some t) i id ↔ ∃ row, t.rows[i]? = some row ∧ t.rowId row = some id := hasAt_some

/-- The row of a name table that is there has a name. -/
theorem hasCueName_some {name : String} :
    HasCueName (some t) i name ↔ ∃ row, t.rows[i]? = some row ∧ t.rowName row = some name :=
  hasAt_some

/-- The row of a name table that is there has a cue index. -/
theorem hasCueIndex_some :
    HasCueIndex (some t) i k ↔ ∃ row, t.rows[i]? = some row ∧ t.rowIndex row = some k := hasAt_some

/-- What the rows hold, read off the column of all of them. -/
theorem hasAt_iff_column {xs : List (Option α)} {a : α}
    (hcolumn : (tbl.map fun t => t.rows.map (f t)) = some xs) :
    HasAt f tbl i a ↔ xs[i]? = some (some a) := by
  obtain ⟨t, rfl, rfl⟩ := Option.map_eq_some_iff.mp hcolumn
  rw [hasAt_some, List.getElem?_map, Option.map_eq_some_iff]

end HasAt

section Entries

variable {t : HighTable} (ht : t.Rectangular)

include ht

/-- What a row of the name table itself inserts. -/
theorem cueNameEntry_eq {row : Row} (hrow : row ∈ t.rows) : cueNameEntry t row =
    .ok ((t.rowName row).bind fun name => (t.rowIndex row).map fun k => (name, k)) := by
  unfold cueNameEntry HighTable.rowName HighTable.rowIndex
  rw [HighTable.getValue_eq ht hrow, Exec.ok_bind]
  split
  · split
    · rename_i hname
      rw [HighTable.getValue_eq ht hrow, Exec.ok_bind, hname, Option.bind_some]
      split <;> rfl
    · rename_i hname
      rw [hname]
      rfl
  · rfl

/-- What a row of the cue table itself inserts. -/
theorem cueIdEntry_eq {row : Row} (hrow : row ∈ t.rows) (i : ℕ) :
    cueIdEntry t (row, i) = .ok ((t.rowId row).map fun id => (id, i)) := by
  unfold cueIdEntry HighTable.rowId
  rw [HighTable.getValue_eq ht hrow, Exec.ok_bind]
  split <;> rfl

/-- The map from names is filled from the rows of the name table. -/
theorem buildCueNameToIndex_eq : buildCueNameToIndex (some t) = .ok (Insertions.ofList
    (fun row => (t.rowName row).bind fun name => (t.rowIndex row).map fun k => (name, k))
    t.rows) := by
  rw [buildCueNameToIndex, Exec.filterMapM_of_ok fun row hrow => cueNameEntry_eq ht hrow]
  rfl

/-- The map from IDs is filled from the rows of the cue table. -/
theorem buildCueIdToIndex_eq : buildCueIdToIndex (some t) = .ok (Insertions.ofList
    (fun row => (t.rowId row.1).map fun id => (id, row.2)) t.rows.zipIdx) := by
  rw [buildCueIdToIndex, Exec.filterMapM_of_ok fun row hrow => cueIdEntry_eq ht
    (List.mem_of_getElem? (List.mk_mem_zipIdx_iff_getElem?.mp hrow)) row.2]
  rfl

end Entries

/-! ## Readers -/

/-- What holds of every reader: its tables have cells for their columns, the main one has a row, and
the maps are filled from the tables. -/
structure Sound (r : AcbReader) : Prop where
  header : r.header.Rectangular
  firstRow : ∃ row, r.header.rows[0]? = some row
  cueTbl : ∀ t ∈ r.cueTbl, t.Rectangular
  cueNameTbl : ∀ t ∈ r.cueNameTbl, t.Rectangular
  names : buildCueNameToIndex r.cueNameTbl = .ok r.cueNameToIndex
  ids : buildCueIdToIndex r.cueTbl = .ok r.cueIdToIndex

section Parts

variable {shiftJis : List UInt8 → String} {stream : List UInt8} {r : AcbReader}

/-- A sub-table was parsed by itself. -/
theorem rectangular_of_getTable {header : HighTable} {name : String} {tbl : Option HighTable}
    (h : getTable shiftJis header name = .ok tbl) : ∀ t ∈ tbl, t.Rectangular := by
  unfold getTable at h
  obtain ⟨value, -, h⟩ := Exec.bind_eq_ok.mp h
  split at h
  · simp only [Exec.bind_eq_ok, Exec.pure_eq, Exec.ok.injEq] at h
    obtain ⟨_, -, _, -, _, -, table, hnew, rfl⟩ := h
    intro t ht
    obtain rfl := Option.mem_some_iff.mp ht
    exact HighTable.rectangular_of_new hnew
  · obtain rfl := Exec.ok.inj h
    simp

/-- **The parts of a reader.** -/
theorem new_eq_ok (h : new shiftJis stream = .ok r) :
    HighTable.new shiftJis stream = .ok r.header ∧
      getTable shiftJis r.header "CueTable" = .ok r.cueTbl ∧
      getTable shiftJis r.header "CueNameTable" = .ok r.cueNameTbl ∧
      getTable shiftJis r.header "WaveformTable" = .ok r.waveformTbl ∧
      getTable shiftJis r.header "SequenceTable" = .ok r.sequenceTbl ∧
      buildCueNameToIndex r.cueNameTbl = .ok r.cueNameToIndex ∧
      buildCueIdToIndex r.cueTbl = .ok r.cueIdToIndex := by
  unfold new at h
  simp only [Exec.bind_eq_ok, Exec.pure_eq, Exec.ok.injEq] at h
  obtain ⟨header, hheader, cueTbl, hcue, cueNameTbl, hname, waveformTbl, hwaveform, sequenceTbl,
    hsequence, cueNameToIndex, hnames, cueIdToIndex, hids, rfl⟩ := h
  exact ⟨hheader, hcue, hname, hwaveform, hsequence, hnames, hids⟩

/-- **Every reader is sound.**

**Proof sketch.** By `new_eq_ok`, the tables and the maps are what the functions that build them
returned, and a table that is decoded has a cell for each column. That the main table has a row
follows from its first lookup: `getTable` reads the name of a sub-table in row 0 and would have
failed without one. -/
theorem sound_of_new (h : new shiftJis stream = .ok r) : r.Sound := by
  obtain ⟨hheader, hcue, hname, -, -, hnames, hids⟩ := new_eq_ok h
  refine ⟨HighTable.rectangular_of_new hheader, ?_, rectangular_of_getTable hcue,
    rectangular_of_getTable hname, hnames, hids⟩
  -- the first sub-table was looked up in the first row
  unfold getTable HighTable.getValueHeader at hcue
  obtain ⟨value, hvalue, -⟩ := Exec.bind_eq_ok.mp hcue
  obtain ⟨row, hrow, -⟩ := Exec.bind_eq_ok.mp hvalue
  exact ⟨row, Exec.index_eq_ok.mp hrow⟩

end Parts

/-! ## What the maps hold -/

section Maps

variable {r : AcbReader} (hr : r.Sound)

include hr

/-- The map from names holds what the last row with a name and an index says.

**Proof sketch.** Without a name table the map is empty. Otherwise it is filled row by row
(`buildCueNameToIndex_eq`), and what a map that is filled from a list holds is the last entry with
the key (`Insertions.lookup_ofList_getElem?`). -/
theorem lookup_cueNameToIndex {name : String} {k : ℕ} :
    r.cueNameToIndex.lookup name = some k ↔ ∃ j,
      HasCueName r.cueNameTbl j name ∧ HasCueIndex r.cueNameTbl j k ∧
        ∀ j' k', j < j' → HasCueName r.cueNameTbl j' name → ¬HasCueIndex r.cueNameTbl j' k' := by
  have hnames := hr.names
  rcases htbl : r.cueNameTbl with _ | t
  · rw [htbl] at hnames
    rw [← Exec.ok.inj hnames]
    simp [HasCueName, HasAt]
  · rw [htbl, buildCueNameToIndex_eq (hr.cueNameTbl t htbl)] at hnames
    have hentry : ∀ (row : Row) (n : String) (m : ℕ),
        ((t.rowName row).bind fun name => (t.rowIndex row).map fun k => (name, k)) = some (n, m) ↔
          t.rowName row = some n ∧ t.rowIndex row = some m := by
      intro row n m
      simp only [Option.bind_eq_some_iff, Option.map_eq_some_iff, Prod.mk.injEq]
      constructor
      · rintro ⟨_, hname, _, hindex, rfl, rfl⟩
        exact ⟨hname, hindex⟩
      · exact fun h => ⟨n, h.1, m, h.2, rfl, rfl⟩
    rw [← Exec.ok.inj hnames, Insertions.lookup_ofList_getElem?]
    simp only [hentry, ne_eq, hasCueName_some, hasCueIndex_some]
    constructor
    · rintro ⟨j, row, hrow, ⟨hname, hindex⟩, hlast⟩
      refine ⟨j, ⟨row, hrow, hname⟩, ⟨row, hrow, hindex⟩, ?_⟩
      rintro j' k' hj ⟨later, hlater, hsame⟩ ⟨later', hlater', hindex'⟩
      obtain rfl := Option.some.inj (hlater.symm.trans hlater')
      exact hlast j' later k' hj hlater ⟨hsame, hindex'⟩
    · rintro ⟨j, ⟨row, hrow, hname⟩, ⟨row', hrow', hindex⟩, hlast⟩
      obtain rfl := Option.some.inj (hrow.symm.trans hrow')
      refine ⟨j, row, hrow, ⟨hname, hindex⟩, ?_⟩
      rintro j' later k' hj hlater ⟨hsame, hindex'⟩
      exact hlast j' k' hj ⟨later, hlater, hsame⟩ ⟨later, hlater, hindex'⟩

/-- The map from IDs holds the last row with an ID.

**Proof sketch.** As for names, where an entry is a row together with its index. -/
theorem lookup_cueIdToIndex {id : UInt32} {i : ℕ} :
    r.cueIdToIndex.lookup id = some i ↔
      HasCueId r.cueTbl i id ∧ ∀ j, i < j → ¬HasCueId r.cueTbl j id := by
  have hids := hr.ids
  rcases htbl : r.cueTbl with _ | t
  · rw [htbl] at hids
    rw [← Exec.ok.inj hids]
    simp [HasCueId, HasAt]
  · rw [htbl, buildCueIdToIndex_eq (hr.cueTbl t htbl)] at hids
    have hrows : ∀ (j : ℕ) (x : Row × ℕ),
        t.rows.zipIdx[j]? = some x ↔ t.rows[j]? = some x.1 ∧ x.2 = j := by
      rintro j ⟨row, l⟩
      simp [List.getElem?_zipIdx, eq_comm]
    have hentry : ∀ (x : Row × ℕ) (n : UInt32) (m : ℕ),
        (t.rowId x.1).map (fun id => (id, x.2)) = some (n, m) ↔
          t.rowId x.1 = some n ∧ x.2 = m := by
      intro x n m
      simp
    rw [← Exec.ok.inj hids, Insertions.lookup_ofList_getElem?]
    simp only [hrows, hentry, ne_eq, hasCueId_some]
    constructor
    · rintro ⟨j, ⟨row, _⟩, ⟨hrow, rfl⟩, ⟨hid, rfl⟩, hlast⟩
      refine ⟨⟨row, hrow, hid⟩, ?_⟩
      rintro j hj ⟨later, hlater, hsame⟩
      exact hlast j (later, j) j hj ⟨hlater, rfl⟩ ⟨hsame, rfl⟩
    · rintro ⟨⟨row, hrow, hid⟩, hlast⟩
      refine ⟨i, (row, i), ⟨hrow, rfl⟩, ⟨hid, rfl⟩, ?_⟩
      rintro j ⟨later, _⟩ w hj ⟨hlater, rfl⟩ ⟨hsame, -⟩
      exact hlast _ hj ⟨later, hlater, hsame⟩

end Maps

end AcbReader

end Acb

end CriArchive
