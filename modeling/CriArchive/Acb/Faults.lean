import CriArchive.Acb.Lookups

set_option relaxedAutoImplicit false
set_option autoImplicit false

/-!
# Where reading ACB files faults

The reader takes the sections of a table, the positions of sub-tables and the indices of one table
into the other as the file gives them. Each of them is the bound of a slice or an index later on,
and one that is out of bounds makes it fault there.

## Main definitions

* `TableInBounds`, `HighTable.SubTablesInBounds`, `AcbReader.IndicesInBounds` — what has to be in
  bounds of one table, of its sub-tables and between two tables.
* `AcbReader.InBounds` — all of it, for the bytes of a file.
* `AcbReader.NeverPanics` — neither reading a file nor any lookup in it faults.

## Main results

* `AcbReader.new_ne_fault_iff`, `AcbReader.lookups_ne_fault_iff` — the two halves.
* `AcbReader.neverPanics_iff` — reading never panics iff everything is in bounds.
-/

namespace CriArchive

namespace Acb

/-- The sections of a table are in order and inside its bytes, if its schema can be read at all. -/
def TableInBounds (alloc : List UInt8) : Prop := SchemaParses alloc → SectionsInside alloc

namespace HighTable

variable (shiftJis : List UInt8 → String) (header : HighTable) (name : String)

/-- The first row of a table refers to a sub-table at a position in its bytes. -/
def RefersTo (pos : ℕ) : Prop :=
  ∃ row data dataStart, header.rows[0]? = some row ∧ header.cell row name = some (.data data) ∧
    (header.header.dataPoolOffset : Exec Error ℕ) = .ok dataStart ∧
    pos = dataStart + data.offset.toNat

/-- The sub-table with a name: none if the first row does not refer to one, and otherwise the table
that is parsed from its position on. -/
def IsSubTable (tbl : Option HighTable) : Prop :=
  (tbl = none ∧ ∀ pos, ¬header.RefersTo name pos) ∨
    ∃ pos t, tbl = some t ∧ header.RefersTo name pos ∧ new shiftJis (header.alloc.drop pos) = .ok t

/-- The position of a sub-table is a `u32` and inside the bytes, and the sub-table is in bounds. -/
def SubTableInBounds : Prop :=
  ∀ pos, header.RefersTo name pos →
    pos < 2 ^ 32 ∧ pos ≤ header.alloc.length ∧ TableInBounds (header.alloc.drop pos)

/-- The sub-tables with the given names are in bounds, up to the first one that is rejected. -/
def SubTablesInBounds : List String → Prop
  | [] => True
  | name :: names => header.SubTableInBounds name ∧
      ((∃ tbl, header.IsSubTable shiftJis name tbl) → SubTablesInBounds names)

end HighTable

namespace AcbReader

/-! ## Sub-tables -/

section SubTables

variable {shiftJis : List UInt8 → String} {header : HighTable} {name : String}
  (ht : header.Rectangular)

/-- The first row refers to one position at most. -/
theorem refersTo_unique {pos pos' : ℕ} (h : header.RefersTo name pos)
    (h' : header.RefersTo name pos') : pos = pos' := by
  obtain ⟨row, data, dataStart, hrow, hcell, hdata, rfl⟩ := h
  obtain ⟨row', data', dataStart', hrow', hcell', hdata', rfl⟩ := h'
  obtain rfl := Option.some.inj (hrow.symm.trans hrow')
  obtain rfl : data = data' := by simpa using hcell.symm.trans hcell'
  obtain rfl := Exec.ok.inj (hdata.symm.trans hdata')
  rfl

include ht

/-- A sub-table is parsed from the position that the first row refers to. -/
theorem getTable_of_refersTo {pos : ℕ} (h : header.RefersTo name pos) :
    getTable shiftJis header name =
      if pos < 2 ^ 32 ∧ pos ≤ header.alloc.length then
        some <$> HighTable.new shiftJis (header.alloc.drop pos)
      else .fault := by
  obtain ⟨row, data, dataStart, hrow, hcell, hdata, rfl⟩ := h
  unfold getTable addU32
  rw [HighTable.getValueHeader_eq ht hrow, Exec.ok_bind, hcell]
  dsimp only
  rw [hdata, Exec.ok_bind]
  by_cases hsmall : dataStart + data.offset.toNat < 2 ^ 32
  · rw [if_pos hsmall, Exec.ok_bind]
    by_cases hinside : dataStart + data.offset.toNat ≤ header.alloc.length
    · rw [if_pos ⟨hsmall, hinside⟩, Exec.slice_eq hinside (Nat.le_refl _), Exec.ok_bind,
        List.take_of_length_le (by rw [List.length_drop]), map_eq_pure_bind]
    · rw [if_neg fun h => hinside h.2, Exec.slice_eq_fault.mpr fun h => hinside h.1,
        Exec.fault_bind]
  · rw [if_neg hsmall, if_neg fun h => hsmall h.1, Exec.fault_bind]

variable (hfirst : ∃ row, header.rows[0]? = some row)

include hfirst

/-- A cell that does not refer to a sub-table gives none. -/
theorem getTable_of_not_refersTo (h : ∀ pos, ¬header.RefersTo name pos) :
    getTable shiftJis header name = .ok none := by
  obtain ⟨row, hrow⟩ := hfirst
  unfold getTable
  rw [HighTable.getValueHeader_eq ht hrow, Exec.ok_bind]
  split
  · rename_i data hcell
    exact absurd ⟨row, data, _, hrow, hcell, TableHeader.dataPoolOffset_eq _, rfl⟩ (h _)
  · rfl

/-- Parsing a sub-table does not fault iff it is in bounds. -/
theorem getTable_ne_fault_iff :
    getTable shiftJis header name ≠ .fault ↔ header.SubTableInBounds name := by
  by_cases h : ∃ pos, header.RefersTo name pos
  · obtain ⟨pos, hpos⟩ := h
    have hbounds : header.SubTableInBounds name ↔
        (pos < 2 ^ 32 ∧ pos ≤ header.alloc.length) ∧ TableInBounds (header.alloc.drop pos) := by
      constructor
      · exact fun h => and_assoc.mpr (h pos hpos)
      · intro h pos' hpos'
        obtain rfl := refersTo_unique hpos hpos'
        exact and_assoc.mp h
    rw [getTable_of_refersTo ht hpos, hbounds]
    split_ifs with hinside
    · rw [and_iff_right hinside, ne_eq, Exec.map_eq_fault]
      exact HighTable.new_ne_fault_iff
    · exact iff_of_false (fun hne => hne rfl) fun h => hinside h.1
  · have hnone : ∀ pos, ¬header.RefersTo name pos := fun pos hpos => h ⟨pos, hpos⟩
    rw [getTable_of_not_refersTo ht hfirst hnone]
    exact iff_of_true (by simp) fun pos hpos => absurd hpos (hnone pos)

/-- Which sub-table is returned, when it is in bounds. -/
theorem getTable_eq_ok_iff (hbounds : header.SubTableInBounds name) {tbl : Option HighTable} :
    getTable shiftJis header name = .ok tbl ↔ header.IsSubTable shiftJis name tbl := by
  by_cases h : ∃ pos, header.RefersTo name pos
  · obtain ⟨pos, hpos⟩ := h
    obtain ⟨hsmall, hinside, -⟩ := hbounds pos hpos
    rw [getTable_of_refersTo ht hpos, if_pos ⟨hsmall, hinside⟩, map_eq_pure_bind, Exec.bind_eq_ok]
    constructor
    · rintro ⟨t, hnew, heq⟩
      exact Or.inr ⟨pos, t, (Exec.ok.inj heq).symm, hpos, hnew⟩
    · rintro (⟨-, hnone⟩ | ⟨pos', t, rfl, hpos', hnew⟩)
      · exact absurd hpos (hnone pos)
      · obtain rfl := refersTo_unique hpos hpos'
        exact ⟨t, hnew, rfl⟩
  · have hnone : ∀ pos, ¬header.RefersTo name pos := fun pos hpos => h ⟨pos, hpos⟩
    rw [getTable_of_not_refersTo ht hfirst hnone, Exec.ok.injEq]
    constructor
    · rintro rfl
      exact Or.inl ⟨rfl, hnone⟩
    · rintro (⟨rfl, -⟩ | ⟨pos, -, -, hpos, -⟩)
      · rfl
      · exact absurd hpos (hnone pos)

/-- One sub-table after the other: what follows a sub-table matters if the sub-table is parsed. -/
theorem getTable_bind_ne_fault {β : Type} {f : Option HighTable → Exec Error β} {rest : Prop}
    (hrest : ∀ tbl, getTable shiftJis header name = .ok tbl → (f tbl ≠ .fault ↔ rest)) :
    (getTable shiftJis header name >>= f) ≠ .fault ↔ header.SubTableInBounds name ∧
      ((∃ tbl, header.IsSubTable shiftJis name tbl) → rest) := by
  rw [Exec.bind_ne_fault, getTable_ne_fault_iff ht hfirst]
  refine and_congr_right fun hbounds => ?_
  constructor
  · rintro h ⟨tbl, htbl⟩
    have hget := (getTable_eq_ok_iff ht hfirst hbounds).mpr htbl
    exact (hrest tbl hget).mp (h tbl hget)
  · intro h tbl hget
    exact (hrest tbl hget).mpr (h ⟨tbl, (getTable_eq_ok_iff ht hfirst hbounds).mp hget⟩)

end SubTables

/-! ## Making a reader -/

section New

variable {shiftJis : List UInt8 → String} {stream : List UInt8}

/-- The maps are filled without faults from tables that were parsed. -/
theorem buildMaps_eq_ok {cueTbl cueNameTbl : Option HighTable}
    (hcue : ∀ t ∈ cueTbl, t.Rectangular) (hname : ∀ t ∈ cueNameTbl, t.Rectangular) :
    (∃ names, buildCueNameToIndex cueNameTbl = .ok names) ∧
      ∃ ids, buildCueIdToIndex cueTbl = .ok ids := by
  constructor
  · rcases cueNameTbl with _ | t
    · exact ⟨[], rfl⟩
    · exact ⟨_, buildCueNameToIndex_eq (hname t rfl)⟩
  · rcases cueTbl with _ | t
    · exact ⟨[], rfl⟩
    · exact ⟨_, buildCueIdToIndex_eq (hcue t rfl)⟩

/-- **When making a reader does not fault**: the main table is in bounds, and if it is parsed, it has
a row and the sub-tables are in bounds.

**Proof sketch.** A sequence does not fault iff none of its steps does. The main table is
`HighTable.new_ne_fault_iff`; each of the four lookups of a sub-table is one use of
`getTable_bind_ne_fault`, which needs a first row; the maps never fault on tables whose rows are
complete. Without a row the first lookup faults. -/
theorem new_ne_fault_iff : new shiftJis stream ≠ .fault ↔ TableInBounds stream ∧
    ∀ header, HighTable.new shiftJis stream = .ok header → header.rows ≠ [] ∧
      header.SubTablesInBounds shiftJis
        ["CueTable", "CueNameTable", "WaveformTable", "SequenceTable"] := by
  unfold new
  rw [Exec.bind_ne_fault, HighTable.new_ne_fault_iff]
  refine and_congr_right fun _ => forall₂_congr fun header hheader => ?_
  have ht := HighTable.rectangular_of_new hheader
  by_cases hfirst : ∃ row, header.rows[0]? = some row
  · have hrows : header.rows ≠ [] := by
      intro hnil
      rw [hnil] at hfirst
      obtain ⟨row, hrow⟩ := hfirst
      cases hrow
    rw [and_iff_right hrows]
    refine getTable_bind_ne_fault ht hfirst fun cueTbl hcue => ?_
    refine getTable_bind_ne_fault ht hfirst fun cueNameTbl hname => ?_
    refine getTable_bind_ne_fault ht hfirst fun waveformTbl _ => ?_
    refine getTable_bind_ne_fault ht hfirst fun sequenceTbl _ => iff_of_true ?_ trivial
    obtain ⟨⟨names, hnames⟩, ids, hids⟩ :=
      buildMaps_eq_ok (rectangular_of_getTable hcue) (rectangular_of_getTable hname)
    rw [hnames, Exec.ok_bind, hids, Exec.ok_bind]
    simp
  · -- the first sub-table is looked up in a row that is not there
    have hnil : header.rows = [] := by
      rcases hrows : header.rows with _ | ⟨row, rows⟩
      · rfl
      · exact absurd ⟨row, by rw [hrows]; rfl⟩ hfirst
    refine iff_of_false (fun hne => hne ?_) fun h => h.1 hnil
    rw [getTable, HighTable.getValueHeader,
      Exec.index_eq_fault.mpr (by rw [hnil]; exact Nat.zero_le _)]
    rfl

/-- A reader has the sub-tables of its main table, and there is one for all sub-tables.

**Proof sketch.** Both directions go through the steps in order: `getTable_eq_ok_iff` turns each
lookup into `IsSubTable`, as far as the lookups before it have succeeded, and the maps are always
built. -/
theorem exists_new_iff {header : HighTable} (hheader : HighTable.new shiftJis stream = .ok header)
    (hrows : header.rows ≠ []) (hbounds : header.SubTablesInBounds shiftJis
      ["CueTable", "CueNameTable", "WaveformTable", "SequenceTable"])
    {cueTbl cueNameTbl : Option HighTable} :
    (∃ r, new shiftJis stream = .ok r ∧ r.cueTbl = cueTbl ∧ r.cueNameTbl = cueNameTbl) ↔
      header.IsSubTable shiftJis "CueTable" cueTbl ∧
      header.IsSubTable shiftJis "CueNameTable" cueNameTbl ∧
      (∃ tbl, header.IsSubTable shiftJis "WaveformTable" tbl) ∧
      ∃ tbl, header.IsSubTable shiftJis "SequenceTable" tbl := by
  have ht := HighTable.rectangular_of_new hheader
  have hfirst : ∃ row, header.rows[0]? = some row :=
    ⟨_, List.getElem?_eq_getElem (List.length_pos_of_ne_nil hrows)⟩
  obtain ⟨hcueIn, hbounds⟩ := hbounds
  constructor
  · rintro ⟨r, hnew, rfl, rfl⟩
    obtain ⟨hheader', hcue, hname, hwaveform, hsequence, -, -⟩ := new_eq_ok hnew
    obtain rfl := Exec.ok.inj (hheader.symm.trans hheader')
    have hcue := (getTable_eq_ok_iff ht hfirst hcueIn).mp hcue
    obtain ⟨hnameIn, hbounds⟩ := hbounds ⟨_, hcue⟩
    have hname := (getTable_eq_ok_iff ht hfirst hnameIn).mp hname
    obtain ⟨hwaveformIn, hbounds⟩ := hbounds ⟨_, hname⟩
    have hwaveform := (getTable_eq_ok_iff ht hfirst hwaveformIn).mp hwaveform
    obtain ⟨hsequenceIn, -⟩ := hbounds ⟨_, hwaveform⟩
    exact ⟨hcue, hname, ⟨_, hwaveform⟩, _, (getTable_eq_ok_iff ht hfirst hsequenceIn).mp hsequence⟩
  · rintro ⟨hcue, hname, ⟨waveformTbl, hwaveform⟩, sequenceTbl, hsequence⟩
    obtain ⟨hnameIn, hbounds⟩ := hbounds ⟨_, hcue⟩
    obtain ⟨hwaveformIn, hbounds⟩ := hbounds ⟨_, hname⟩
    obtain ⟨hsequenceIn, -⟩ := hbounds ⟨_, hwaveform⟩
    have hcue := (getTable_eq_ok_iff ht hfirst hcueIn).mpr hcue
    have hname := (getTable_eq_ok_iff ht hfirst hnameIn).mpr hname
    obtain ⟨⟨names, hnames⟩, ids, hids⟩ :=
      buildMaps_eq_ok (rectangular_of_getTable hcue) (rectangular_of_getTable hname)
    refine ⟨⟨stream, header, cueTbl, cueNameTbl, waveformTbl, sequenceTbl, names, ids⟩, ?_,
      rfl, rfl⟩
    rw [new, hheader, Exec.ok_bind, hcue, Exec.ok_bind, hname, Exec.ok_bind,
      (getTable_eq_ok_iff ht hfirst hwaveformIn).mpr hwaveform, Exec.ok_bind,
      (getTable_eq_ok_iff ht hfirst hsequenceIn).mpr hsequence, Exec.ok_bind, hnames, Exec.ok_bind,
      hids, Exec.ok_bind]
    rfl

end New

/-! ## Lookups -/

/-- The indices of one table into the other are in bounds: the index that the last row with a name
has, if there is a cue table, and the position of every row with an ID. -/
structure IndicesInBounds (cueTbl cueNameTbl : Option HighTable) : Prop where
  names : ∀ t ∈ cueTbl, ∀ j k name, HasCueName cueNameTbl j name → HasCueIndex cueNameTbl j k →
    (∀ j' k', j < j' → HasCueName cueNameTbl j' name → ¬HasCueIndex cueNameTbl j' k') →
    k < t.rows.length
  ids : ∀ i id, HasCueId cueTbl i id → ∃ t ∈ cueNameTbl, i < t.rows.length

section Lookups

variable {r : AcbReader} (hr : r.Sound)

include hr

/-- The name of the file is looked up in the first row. -/
theorem getName_ne_fault : r.getName ≠ .fault := by
  obtain ⟨row, hrow⟩ := hr.firstRow
  unfold getName
  rw [HighTable.getValueHeader_eq hr.header hrow, Exec.ok_bind]
  split <;> simp

/-- A lookup by name faults iff there is a cue table that does not have the row of the name. -/
theorem getCueByName_ne_fault_iff {name : String} : r.getCueByName name ≠ .fault ↔
    ∀ t ∈ r.cueTbl, ∀ k, r.cueNameToIndex.lookup name = some k → k < t.rows.length := by
  rcases hk : r.cueNameToIndex.lookup name with _ | k
  · simp [getCueByName_of_none hk]
  rcases ht : r.cueTbl with _ | t
  · simp [getCueByName, ht]
  · rw [getCueByName_of_some hr ht hk]
    rcases hrow : t.rows[k]? with _ | row
    · simpa using hrow
    · simpa using (List.getElem?_eq_some_iff.mp hrow).1

/-- A lookup by ID faults iff there is no name table with the row of the ID. -/
theorem getCueById_ne_fault_iff {id : UInt32} : r.getCueById id ≠ .fault ↔
    ∀ i, r.cueIdToIndex.lookup id = some i → ∃ t ∈ r.cueNameTbl, i < t.rows.length := by
  rcases hi : r.cueIdToIndex.lookup id with _ | i
  · simp [getCueById_of_none hi]
  rcases ht : r.cueNameTbl with _ | t
  · simp [getCueById, hi, ht]
  · rw [getCueById_of_some hr ht hi]
    rcases hrow : t.rows[i]? with _ | row
    · simpa using hrow
    · simpa using (List.getElem?_eq_some_iff.mp hrow).1

/-- An ID that a row has is in the map, with this row or a later one. -/
theorem exists_lookup_id {i : ℕ} {id : UInt32} (h : HasCueId r.cueTbl i id) :
    ∃ j, i ≤ j ∧ r.cueIdToIndex.lookup id = some j := by
  have hids := hr.ids
  obtain ⟨t, htbl, row, hrow, hid⟩ := h
  rw [Option.mem_def.mp htbl, buildCueIdToIndex_eq (hr.cueTbl t htbl)] at hids
  have hmem : (row, i) ∈ t.rows.zipIdx := List.mk_mem_zipIdx_iff_getElem?.mpr hrow
  obtain ⟨j, hj⟩ := Insertions.lookup_isSome (k := id) (v := i)
    (f := fun x : Row × ℕ => (t.rowId x.1).map fun id => (id, x.2)) hmem (by rw [hid]; rfl)
  rw [Exec.ok.inj hids] at hj
  refine ⟨j, ?_, hj⟩
  by_contra hlater
  exact ((lookup_cueIdToIndex hr).mp hj).2 i (by omega) ⟨t, htbl, row, hrow, hid⟩

/-- **When no lookup faults**: the indices between the tables are in bounds. -/
theorem lookups_ne_fault_iff : (∀ name id,
    r.getName ≠ .fault ∧ r.getCueByName name ≠ .fault ∧ r.getCueById id ≠ .fault) ↔
    IndicesInBounds r.cueTbl r.cueNameTbl := by
  constructor
  · intro h
    refine ⟨fun t ht j k name hname hindex hlast => ?_, fun i id hid => ?_⟩
    · exact (getCueByName_ne_fault_iff hr).mp (h name 0).2.1 t ht k
        ((lookup_cueNameToIndex hr).mpr ⟨j, hname, hindex, hlast⟩)
    · obtain ⟨j, hij, hlookup⟩ := exists_lookup_id hr hid
      obtain ⟨t, ht, hj⟩ := (getCueById_ne_fault_iff hr).mp (h "" id).2.2 j hlookup
      exact ⟨t, ht, hij.trans_lt hj⟩
  · rintro ⟨hnames, hids⟩ name id
    refine ⟨getName_ne_fault hr, (getCueByName_ne_fault_iff hr).mpr fun t ht k hk => ?_,
      (getCueById_ne_fault_iff hr).mpr fun i hi => ?_⟩
    · obtain ⟨j, hname, hindex, hlast⟩ := (lookup_cueNameToIndex hr).mp hk
      exact hnames t ht j k name hname hindex hlast
    · exact hids i id ((lookup_cueIdToIndex hr).mp hi).1

end Lookups

/-! ## Reading and lookups -/

section Panics

variable (shiftJis : List UInt8 → String) (stream : List UInt8)

/-- Neither making a reader of the bytes nor any lookup in it faults. -/
def NeverPanics : Prop :=
  new shiftJis stream ≠ .fault ∧ ∀ r, new shiftJis stream = .ok r → ∀ name id,
    r.getName ≠ .fault ∧ r.getCueByName name ≠ .fault ∧ r.getCueById id ≠ .fault

/-- Everything that the bytes of a file say about positions is in bounds: the sections of the main
table; when that is parsed, its first row and the sub-tables; and when these are parsed too, the
indices of the cue table and the name table into each other. -/
def InBounds : Prop :=
  TableInBounds stream ∧ ∀ header, HighTable.new shiftJis stream = .ok header →
    header.rows ≠ [] ∧
    header.SubTablesInBounds shiftJis
      ["CueTable", "CueNameTable", "WaveformTable", "SequenceTable"] ∧
    ∀ cueTbl cueNameTbl, header.IsSubTable shiftJis "CueTable" cueTbl →
      header.IsSubTable shiftJis "CueNameTable" cueNameTbl →
      (∃ tbl, header.IsSubTable shiftJis "WaveformTable" tbl) →
      (∃ tbl, header.IsSubTable shiftJis "SequenceTable" tbl) → IndicesInBounds cueTbl cueNameTbl

end Panics

/-- **When reading an ACB file never panics.** For every byte vector, neither making a reader nor any
lookup in it faults iff everything that the bytes say about positions is in bounds; nothing in
`acb/header.rs` and `acb/reader.rs` checks any of it.

**Proof sketch.** Making a reader faults at the sections of a table, at the missing first row or at
the position of a sub-table (`new_ne_fault_iff`). A reader has the sub-tables that the bytes say
(`exists_new_iff`), and its lookups fault at the indices between them (`lookups_ne_fault_iff`). -/
theorem neverPanics_iff (shiftJis : List UInt8 → String) (stream : List UInt8) :
    NeverPanics shiftJis stream ↔ InBounds shiftJis stream := by
  have hlookups : (∀ r, new shiftJis stream = .ok r → ∀ name id,
      r.getName ≠ .fault ∧ r.getCueByName name ≠ .fault ∧ r.getCueById id ≠ .fault) ↔
      ∀ r, new shiftJis stream = .ok r → IndicesInBounds r.cueTbl r.cueNameTbl :=
    forall₂_congr fun r hnew => lookups_ne_fault_iff (sound_of_new hnew)
  rw [NeverPanics, InBounds, new_ne_fault_iff, hlookups]
  constructor
  · rintro ⟨⟨htable, hheaders⟩, hreaders⟩
    refine ⟨htable, fun header hheader => ?_⟩
    obtain ⟨hrows, hsub⟩ := hheaders header hheader
    refine ⟨hrows, hsub, fun cueTbl cueNameTbl hcue hname hwaveform hsequence => ?_⟩
    obtain ⟨r, hnew, rfl, rfl⟩ :=
      (exists_new_iff hheader hrows hsub).mpr ⟨hcue, hname, hwaveform, hsequence⟩
    exact hreaders r hnew
  · rintro ⟨htable, hheaders⟩
    refine ⟨⟨htable, fun header hheader =>
      ⟨(hheaders header hheader).1, (hheaders header hheader).2.1⟩⟩, fun r hnew => ?_⟩
    obtain ⟨hrows, hsub, hindices⟩ := hheaders r.header (new_eq_ok hnew).1
    obtain ⟨hcue, hname, hwaveform, hsequence⟩ :=
      (exists_new_iff (new_eq_ok hnew).1 hrows hsub).mp ⟨r, hnew, rfl, rfl⟩
    exact hindices _ _ hcue hname hwaveform hsequence

/-- Reading no bytes at all panics: the string pool would start behind them. -/
theorem not_neverPanics : ¬∀ shiftJis stream, NeverPanics shiftJis stream := by
  intro h
  obtain ⟨htable, -⟩ := new_ne_fault_iff.mp (h (fun _ => "") []).1
  obtain ⟨columns, hcolumns, -⟩ : ∃ columns,
      (Column.newList (TableHeader.new []) ⟨[], headerSize⟩).1 = .ok columns ∧ columns = [] := by
    decide +kernel
  obtain ⟨_, dataStart, -, hdata, -, hinside⟩ := htable ⟨columns, hcolumns⟩
  obtain rfl : 8 = dataStart := Exec.ok.inj ((by decide +kernel :
    ((TableHeader.new []).dataPoolOffset : Exec Error ℕ) = .ok 8).symm.trans hdata)
  exact absurd hinside (by decide)

end AcbReader

end Acb

end CriArchive
