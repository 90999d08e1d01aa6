import CriArchive.Acb.Reader

set_option relaxedAutoImplicit false
set_option autoImplicit false

/-!
# Cue lookups

A cue is found by its name through the index in its row of the name table, and by its ID through the
position of its row in the cue table. The first lookup goes from the name table to the cue table by
`CueIndex`, the second one goes back by position, so that they are inverse only where both ways are
the same.

## Main definitions

* `AcbReader.DistinctCues` — IDs, names and indices are distinct, and indices are in range.
* `AcbReader.Inverse` — what one lookup finds, the other one finds too.
* `AcbReader.Aligned` — rows of the name table and of the cue table correspond by position.

## Main results

* `AcbReader.getCueByName_eq_some`, `getCueById_eq_some` — which cues are found.
* `AcbReader.inverse_iff` — the lookups are inverse iff the tables are aligned.
-/

namespace CriArchive

namespace Acb

namespace AcbReader

/-! ## Which cues are found -/

section Found

variable {r : AcbReader} (hr : r.Sound) {name : String} {id : UInt32} {c : Cue}

/-- A name that is not in the map is not found. -/
theorem getCueByName_of_none (hk : r.cueNameToIndex.lookup name = none) :
    r.getCueByName name = .ok none := by
  rw [getCueByName, hk]
  exact ite_self _

/-- An ID that is not in the map is not found. -/
theorem getCueById_of_none (hi : r.cueIdToIndex.lookup id = none) :
    r.getCueById id = .ok none := by
  rw [getCueById, hi]
  rfl

include hr

/-- A name that is in the map is looked up in the row of the cue table with its index. -/
theorem getCueByName_of_some {t : HighTable} {k : ℕ} (ht : r.cueTbl = some t)
    (hk : r.cueNameToIndex.lookup name = some k) : r.getCueByName name =
      match t.rows[k]? with
      | some row => .ok ((t.rowId row).map fun id => ⟨name, id, []⟩)
      | none => .fault := by
  rw [getCueByName, ht, hk, if_neg (by simp)]
  dsimp only
  rw [Exec.orFault_some, Exec.ok_bind, HighTable.index_bind_getValue (hr.cueTbl t ht)]
  rcases t.rows[k]? with _ | row
  · rfl
  · simp only [Option.elim_some, HighTable.rowId]
    split <;> rfl

/-- An ID that is in the map is looked up in the row of the name table with its position. -/
theorem getCueById_of_some {t : HighTable} {i : ℕ} (ht : r.cueNameTbl = some t)
    (hi : r.cueIdToIndex.lookup id = some i) : r.getCueById id =
      match t.rows[i]? with
      | some row => .ok ((t.rowName row).map fun name => ⟨name, id, []⟩)
      | none => .fault := by
  rw [getCueById, ht, hi]
  dsimp only
  rw [Exec.orFault_some, Exec.ok_bind, HighTable.index_bind_getValue (hr.cueNameTbl t ht)]
  rcases t.rows[i]? with _ | row
  · rfl
  · simp only [Option.elim_some, HighTable.rowName]
    split <;> rfl

/-- **Which cue a name finds**: the one with the ID in the row of the cue table that the map gives. -/
theorem getCueByName_eq_some : r.getCueByName name = .ok (some c) ↔
    ∃ k, r.cueNameToIndex.lookup name = some k ∧ HasCueId r.cueTbl k c.id ∧
      c = ⟨name, c.id, []⟩ := by
  rcases hk : r.cueNameToIndex.lookup name with _ | k
  · simp [getCueByName_of_none hk]
  rcases ht : r.cueTbl with _ | t
  · simp [getCueByName, ht, HasCueId, HasAt]
  · rw [getCueByName_of_some hr ht hk]
    simp only [hasCueId_some, Option.some.injEq, exists_eq_left']
    rcases hrow : t.rows[k]? with _ | row
    · simp
    · simp only [Exec.ok.injEq, Option.map_eq_some_iff, Option.some.injEq, exists_eq_left']
      constructor
      · rintro ⟨id, hid, rfl⟩
        exact ⟨hid, rfl⟩
      · rintro ⟨hid, hc⟩
        exact ⟨c.id, hid, hc.symm⟩

/-- **Which cue an ID finds**: the one with the name in the row of the name table that the map
gives. -/
theorem getCueById_eq_some : r.getCueById id = .ok (some c) ↔
    ∃ i, r.cueIdToIndex.lookup id = some i ∧ HasCueName r.cueNameTbl i c.name ∧
      c = ⟨c.name, id, []⟩ := by
  rcases hi : r.cueIdToIndex.lookup id with _ | i
  · simp [getCueById_of_none hi]
  rcases ht : r.cueNameTbl with _ | t
  · simp [getCueById, hi, ht, HasCueName, HasAt]
  · rw [getCueById_of_some hr ht hi]
    simp only [hasCueName_some, Option.some.injEq, exists_eq_left']
    rcases hrow : t.rows[i]? with _ | row
    · simp
    · simp only [Exec.ok.injEq, Option.map_eq_some_iff, Option.some.injEq, exists_eq_left']
      constructor
      · rintro ⟨name, hname, rfl⟩
        exact ⟨hname, rfl⟩
      · rintro ⟨hname, hc⟩
        exact ⟨c.name, hname, hc.symm⟩

end Found

/-! ## Inverse lookups -/

section Inverse

variable (r : AcbReader)

/-- No two cues have one ID, no two rows of the name table have one name or one index, and every
index is that of a row of the cue table. -/
structure DistinctCues : Prop where
  ids : ∀ i j id, HasCueId r.cueTbl i id → HasCueId r.cueTbl j id → i = j
  names : ∀ i j name, HasCueName r.cueNameTbl i name → HasCueName r.cueNameTbl j name → i = j
  indices : ∀ i j k, HasCueIndex r.cueNameTbl i k → HasCueIndex r.cueNameTbl j k → i = j
  inRange : ∀ j k, HasCueIndex r.cueNameTbl j k → ∃ t ∈ r.cueTbl, k < t.rows.length

/-- The two lookups are inverse: of a cue that one of them returns, the other one returns the same
name and ID. -/
def Inverse : Prop :=
  (∀ name c, r.getCueByName name = .ok (some c) →
    ∃ c', r.getCueById c.id = .ok (some c') ∧ c'.id = c.id ∧ c'.name = name) ∧
  ∀ id c, r.getCueById id = .ok (some c) →
    ∃ c', r.getCueByName c.name = .ok (some c') ∧ c'.id = id ∧ c'.name = c.name

/-- The rows of the two tables correspond by position: a name whose index is that of a row with an ID
stands at the position of that row, and a name that stands at the position of a row with an ID has
this position for its index. -/
structure Aligned : Prop where
  position : ∀ j k name id, HasCueName r.cueNameTbl j name → HasCueIndex r.cueNameTbl j k →
    HasCueId r.cueTbl k id → j = k
  index : ∀ i name id, HasCueName r.cueNameTbl i name → HasCueId r.cueTbl i id →
    HasCueIndex r.cueNameTbl i i

/-- Cues are distinct when the columns of both tables are. -/
theorem distinctCues_of_columns {r : AcbReader} {ids : List (Option UInt32)}
    {names : List (Option String)} {indices : List (Option ℕ)}
    (hids : (r.cueTbl.map fun t => t.rows.map t.rowId) = some ids)
    (hnames : (r.cueNameTbl.map fun t => t.rows.map t.rowName) = some names)
    (hindices : (r.cueNameTbl.map fun t => t.rows.map t.rowIndex) = some indices)
    (hdistinct : ids.Nodup ∧ names.Nodup ∧ indices.Nodup)
    (hinRange : ∀ k, some k ∈ indices → k < ids.length) : r.DistinctCues := by
  have hinj : ∀ {α : Type} {xs : List (Option α)} {a : α} (i j : ℕ), xs.Nodup →
      xs[i]? = some (some a) → xs[j]? = some (some a) → i = j := fun i j hnodup hi hj =>
    (List.getElem?_inj (List.getElem?_eq_some_iff.mp hi).1 hnodup).mp (hi.trans hj.symm)
  refine ⟨fun i j id hi hj => ?_, fun i j name hi hj => ?_, fun i j k hi hj => ?_, fun j k hk => ?_⟩
  · exact hinj i j hdistinct.1 ((hasAt_iff_column hids).mp hi) ((hasAt_iff_column hids).mp hj)
  · exact hinj i j hdistinct.2.1 ((hasAt_iff_column hnames).mp hi) ((hasAt_iff_column hnames).mp hj)
  · exact hinj i j hdistinct.2.2 ((hasAt_iff_column hindices).mp hi)
      ((hasAt_iff_column hindices).mp hj)
  · obtain ⟨t, ht, rfl⟩ := Option.map_eq_some_iff.mp hids
    have hk := hinRange k (List.mem_of_getElem? ((hasAt_iff_column hindices).mp hk))
    exact ⟨t, ht, by rwa [List.length_map] at hk⟩

end Inverse

section Distinct

variable {r : AcbReader} (hr : r.Sound) (hdistinct : r.DistinctCues) {name : String} {id : UInt32}

include hr hdistinct

/-- With distinct names, a name has the index in its row. -/
theorem lookup_name_iff {k : ℕ} : r.cueNameToIndex.lookup name = some k ↔
    ∃ j, HasCueName r.cueNameTbl j name ∧ HasCueIndex r.cueNameTbl j k := by
  rw [lookup_cueNameToIndex hr]
  constructor
  · rintro ⟨j, hname, hindex, -⟩
    exact ⟨j, hname, hindex⟩
  · rintro ⟨j, hname, hindex⟩
    refine ⟨j, hname, hindex, fun j' k' hj hname' => ?_⟩
    exact absurd (hdistinct.names j j' name hname hname') hj.ne

/-- With distinct IDs, an ID has the position of its row. -/
theorem lookup_id_iff {i : ℕ} :
    r.cueIdToIndex.lookup id = some i ↔ HasCueId r.cueTbl i id := by
  rw [lookup_cueIdToIndex hr]
  refine and_iff_left_of_imp fun hid j hj hid' => ?_
  exact absurd (hdistinct.ids i j id hid hid') hj.ne

/-- What a name finds, when cues are distinct. -/
theorem getCueByName_iff {c : Cue} : r.getCueByName name = .ok (some c) ↔ ∃ j k,
    HasCueName r.cueNameTbl j name ∧ HasCueIndex r.cueNameTbl j k ∧ HasCueId r.cueTbl k c.id ∧
      c = ⟨name, c.id, []⟩ := by
  simp only [getCueByName_eq_some hr, lookup_name_iff hr hdistinct]
  constructor
  · rintro ⟨k, ⟨j, hname, hindex⟩, hid, hc⟩
    exact ⟨j, k, hname, hindex, hid, hc⟩
  · rintro ⟨j, k, hname, hindex, hid, hc⟩
    exact ⟨k, ⟨j, hname, hindex⟩, hid, hc⟩

/-- What an ID finds, when cues are distinct. -/
theorem getCueById_iff {c : Cue} : r.getCueById id = .ok (some c) ↔ ∃ i,
    HasCueId r.cueTbl i id ∧ HasCueName r.cueNameTbl i c.name ∧ c = ⟨c.name, id, []⟩ := by
  simp only [getCueById_eq_some hr, lookup_id_iff hr hdistinct]

end Distinct

/-- **When the lookups are inverse.** For a reader of any bytes with distinct cues, they are iff the
rows of the name table and of the cue table correspond by position.

**Proof sketch.** With distinct cues both maps are given by the rows (`lookup_name_iff`,
`lookup_id_iff`). A name goes from its row `j` through its index `k` to the ID in the row `k`; this ID
goes back to the name in the row `k`, which is the first name iff `k = j`. -/
theorem inverse_iff {shiftJis : List UInt8 → String} {stream : List UInt8} {r : AcbReader}
    (hnew : new shiftJis stream = .ok r) (hdistinct : r.DistinctCues) :
    r.Inverse ↔ r.Aligned := by
  have hr := sound_of_new hnew
  constructor
  · rintro ⟨hto, hback⟩
    refine ⟨fun j k name id hname hindex hid => ?_, fun i name id hname hid => ?_⟩
    · have hfound := (getCueByName_iff hr hdistinct (c := ⟨name, id, []⟩)).mpr
        ⟨j, k, hname, hindex, hid, rfl⟩
      obtain ⟨c', hfound', -, hsame⟩ := hto name _ hfound
      obtain ⟨i, hid', hname', -⟩ := (getCueById_iff hr hdistinct).mp hfound'
      obtain rfl := hdistinct.ids k i id hid hid'
      rw [hsame] at hname'
      exact hdistinct.names j k name hname hname'
    · have hfound := (getCueById_iff hr hdistinct (c := ⟨name, id, []⟩)).mpr ⟨i, hid, hname, rfl⟩
      obtain ⟨c', hfound', hsame, -⟩ := hback id _ hfound
      obtain ⟨j, k, hname', hindex', hid', -⟩ := (getCueByName_iff hr hdistinct).mp hfound'
      obtain rfl := hdistinct.names i j name hname hname'
      rw [hsame] at hid'
      rwa [← hdistinct.ids i k id hid hid'] at hindex'
  · rintro ⟨hposition, hindex⟩
    refine ⟨fun name c hfound => ?_, fun id c hfound => ?_⟩
    · obtain ⟨j, k, hname, hk, hid, -⟩ := (getCueByName_iff hr hdistinct).mp hfound
      obtain rfl := hposition j k name c.id hname hk hid
      exact ⟨⟨name, c.id, []⟩, (getCueById_iff hr hdistinct).mpr ⟨j, hid, hname, rfl⟩, rfl, rfl⟩
    · obtain ⟨i, hid, hname, -⟩ := (getCueById_iff hr hdistinct).mp hfound
      exact ⟨⟨c.name, id, []⟩, (getCueByName_iff hr hdistinct).mpr
        ⟨i, i, hname, hindex i c.name id hname hid, hid, rfl⟩, rfl, rfl⟩

/-- A table with the given columns, each with its flags and the position of its name, rows, string
pool and data pool, all of them short. -/
def tableOf (columns : List (UInt8 × UInt8)) (rows : List (List UInt8))
    (strings data : List UInt8) : List UInt8 :=
  let rowsAt := 24 + 5 * columns.length
  let stringsAt := rowsAt + rows.flatten.length
  let dataAt := stringsAt + strings.length
  [0x40, 0x55, 0x54, 0x46, 0, 0, 0, UInt8.ofNat (dataAt + data.length), 0, 1,
    0, UInt8.ofNat rowsAt, 0, 0, 0, UInt8.ofNat stringsAt, 0, 0, 0, UInt8.ofNat dataAt, 0, 0, 0, 0,
    0, UInt8.ofNat columns.length, 0, UInt8.ofNat rows.headI.length,
    0, 0, 0, UInt8.ofNat rows.length] ++
    columns.flatMap (fun c => [c.1, 0, 0, 0, c.2]) ++ rows.flatten ++ strings ++ data

/-- The cue table of the IDs 10 and 20. -/
def cueTable : List UInt8 :=
  tableOf [(0x54, 0)] [[0, 0, 0, 10], [0, 0, 0, 20]] [0x43, 0x75, 0x65, 0x49, 0x64, 0] []

/-- The name table of `a` and `b` with the given indices. -/
def cueNameTable (a b : UInt8) : List UInt8 :=
  tableOf [(0x5a, 0), (0x52, 8)] [[0, 0, 0, 17, 0, a], [0, 0, 0, 19, 0, b]]
    [0x43, 0x75, 0x65, 0x4e, 0x61, 0x6d, 0x65, 0, 0x43, 0x75, 0x65, 0x49, 0x6e, 0x64, 0x65, 0x78, 0,
      0x61, 0, 0x62, 0] []

/-- A file with two cues, whose names have the given indices. -/
def twoCues (a b : UInt8) : List UInt8 :=
  let names := UInt8.ofNat cueTable.length
  tableOf [(0x5b, 0), (0x5b, 9)]
    [[0, 0, 0, 0, 0, 0, 0, names, 0, 0, 0, names, 0, 0, 0, UInt8.ofNat (cueNameTable a b).length]]
    [0x43, 0x75, 0x65, 0x54, 0x61, 0x62, 0x6c, 0x65, 0, 0x43, 0x75, 0x65, 0x4e, 0x61, 0x6d, 0x65,
      0x54, 0x61, 0x62, 0x6c, 0x65, 0] (cueTable ++ cueNameTable a b)

/-- The lookups are inverse when the names stand in the order of the cues. -/
theorem inverse_iff_sample : ∃ r, new (fun _ => "") (twoCues 0 1) = .ok r ∧ r.Inverse := by
  obtain ⟨r, hnew, hids, hnames, hindices⟩ : ∃ r, new (fun _ => "") (twoCues 0 1) = .ok r ∧
      (r.cueTbl.map fun t => t.rows.map t.rowId) = some [some 10, some 20] ∧
      (r.cueNameTbl.map fun t => t.rows.map t.rowName) = some [some "a", some "b"] ∧
      (r.cueNameTbl.map fun t => t.rows.map t.rowIndex) = some [some 0, some 1] := by
    decide +kernel
  refine ⟨r, hnew, (inverse_iff hnew (distinctCues_of_columns hids hnames hindices (by decide)
    (by simp))).mpr ⟨fun j k name id _ hindex _ => ?_, fun i name id hname _ => ?_⟩⟩
  · have hk := (hasAt_iff_column hindices).mp hindex
    rcases j with _ | _ | j
    · exact Option.some.inj (Option.some.inj hk)
    · exact Option.some.inj (Option.some.inj hk)
    · cases hk
  · have hi := (hasAt_iff_column hnames).mp hname
    refine (hasAt_iff_column hindices).mpr ?_
    rcases i with _ | _ | i
    · rfl
    · rfl
    · cases hi

/-- The lookups are not inverse when the names stand in another order than the cues: `a` has the ID
20, but the ID 20 has the name `b`. -/
theorem not_inverse :
    ∃ r, new (fun _ => "") (twoCues 1 0) = .ok r ∧ r.DistinctCues ∧ ¬r.Inverse := by
  obtain ⟨r, hnew, hids, hnames, hindices, hto, hback⟩ : ∃ r,
      new (fun _ => "") (twoCues 1 0) = .ok r ∧
      (r.cueTbl.map fun t => t.rows.map t.rowId) = some [some 10, some 20] ∧
      (r.cueNameTbl.map fun t => t.rows.map t.rowName) = some [some "a", some "b"] ∧
      (r.cueNameTbl.map fun t => t.rows.map t.rowIndex) = some [some 1, some 0] ∧
      r.getCueByName "a" = .ok (some ⟨"a", 20, []⟩) ∧
      r.getCueById 20 = .ok (some ⟨"b", 20, []⟩) := by
    decide +kernel
  refine ⟨r, hnew, distinctCues_of_columns hids hnames hindices (by decide) (by simp), ?_⟩
  rintro ⟨hinverse, -⟩
  obtain ⟨c, hfound, -, hname⟩ := hinverse "a" _ hto
  obtain rfl := Option.some.inj (Exec.ok.inj (hback.symm.trans hfound))
  exact absurd hname (by decide)

end AcbReader

end Acb

end CriArchive
