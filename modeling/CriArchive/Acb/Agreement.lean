import CriArchive.Acb.Header
import CriArchive.Cpk.Positions

set_option relaxedAutoImplicit false
set_option autoImplicit false

/-!
# The two table readers

The readers of `acb/header.rs` and `cpk/header.rs` parse one format. On bytes that both accept they
have the same columns, strings and rows, though the second one cuts the bytes at the declared size. A
cell is then looked up in two ways: by a map over all columns and as it stands in the row, or by the
first column with the name and with the constant value of a column that is not stored in the rows.

## Main definitions

* `HighTable.DistinctNames` — no two columns have the same name.
* `Acb.present` — a cell, with a null object counting as absent.
* `Acb.ReadersAgree` — both readers give the same value for every row and name.

## Main results

* `Acb.parts_eq` — both readers have the same columns, strings and rows.
* `Acb.readersAgree_iff` — the readers agree iff no named column has only a constant value.
-/

namespace CriArchive

open ByteStream Endian

/-! ## Schemas -/

namespace Column

/-- The bytes at a position stand for one column only. -/
theorem StandsAt.unique {bytes : List UInt8} {pos : ℕ} {c d : Column} (hc : StandsAt bytes pos c)
    (hd : StandsAt bytes pos d) : c = d := by
  obtain ⟨⟨bits⟩, stringOffset, default⟩ := c
  obtain ⟨⟨bits'⟩, stringOffset', default'⟩ := d
  obtain rfl : bits = bits' := Option.some.inj (hc.flag.symm.trans hd.flag)
  have hoffset : stringOffset = stringOffset' := hc.stringOffset.trans hd.stringOffset.symm
  have hdefault : default = default' := hc.default.trans hd.default.symm
  rw [hoffset, hdefault]

/-- Schemas of one length that stand in the same bytes are equal. -/
theorem eq_of_standsAt {bytes : List UInt8} {cs ds : List Column} (hlen : cs.length = ds.length)
    (hcs : ∀ i c, cs[i]? = some c → StandsAt bytes (schemaPos cs i) c)
    (hds : ∀ i d, ds[i]? = some d → StandsAt bytes (schemaPos ds i) d) : cs = ds := by
  have htake : ∀ i ≤ cs.length, cs.take i = ds.take i := by
    intro i
    induction i with
    | zero => exact fun _ => rfl
    | succ i ih =>
      intro hi
      have hbefore := ih (by omega)
      have hpos : schemaPos cs i = schemaPos ds i := by rw [schemaPos, schemaPos, hbefore]
      have hc := hcs i cs[i] (List.getElem?_eq_getElem (by omega))
      have hd := hds i ds[i] (List.getElem?_eq_getElem (by omega))
      rw [hpos] at hc
      rw [List.take_succ_eq_append_getElem (by omega), List.take_succ_eq_append_getElem (by omega),
        hbefore, hc.unique hd]
  have hall := htake cs.length (Nat.le_refl _)
  rwa [List.take_length, hlen, List.take_length] at hall

/-- A schema that was read has the declared number of columns. -/
theorem length_of_newList {header : TableHeader} {columns : List Column} {s u : ByteStream}
    (h : newList header s = (.ok columns, u)) : columns.length = (header.field16 0x18).toNat := by
  unfold newList at h
  rw [ExecM.bind_of_ok (seek_apply _ _), TableHeader.columnCount_eq,
    ExecM.bind_of_ok (ExecM.lift_apply _ _)] at h
  exact (newListLoop_eq_ok (by simp) h).1

end Column

namespace Row

/-- A row is decoded from its own bytes only. -/
theorem decodeAt_congr {bytes bytes' : List UInt8} {stop : ℕ}
    (hwindow : ∀ p n, p + n ≤ stop → window bytes p n = window bytes' p n) {columnDef : List Column}
    {pos : ℕ} (hstop : pos + Column.rowWidth columnDef ≤ stop) :
    decodeAt bytes pos columnDef = decodeAt bytes' pos columnDef := by
  induction columnDef generalizing pos with
  | nil => rfl
  | cons c cs ih =>
    unfold decodeAt
    by_cases hstored : c.isRowStored = true
    · rw [Column.rowWidth, if_pos hstored] at hstop
      rw [if_pos hstored, if_pos hstored, hwindow _ _ (by omega), ih (by omega)]
    · rw [Column.rowWidth, if_neg hstored] at hstop
      rw [if_neg hstored, if_neg hstored, ih (by omega)]

end Row

namespace HighTable

variable {shiftJis : List UInt8 → String} {alloc : List UInt8} {t : HighTable}

/-- The string pool of a table that was accepted. -/
theorem strings_of_new (h : new shiftJis alloc = .ok t) : ∃ s,
    sections (TableHeader.new alloc) alloc.length = .ok s ∧
      StringPoolFast.newBorrowed shiftJis
        (window (truncate alloc s.declaredSize) s.stringStart (s.dataStart - s.stringStart))
        (TableHeader.new alloc) = .ok t.strings := by
  unfold new parse at h
  simp only [TableHeader.rowSize_eq, Exec.bind_eq_ok, Exec.errIf_eq_ok, Exec.okOr_eq_ok,
    Exec.pure_eq, Exec.ok.injEq, Exec.slice_eq_ok] at h
  obtain ⟨-, -, s, hsections, schema, -, -, -, width, -, rowSize, rfl, -, -, rows, -, pool, ⟨-, rfl⟩,
    strings, hstrings, rfl⟩ := h
  exact ⟨s, hsections, hstrings⟩

/-- Where checked sections put the data pool. -/
theorem dataPoolOffset_of_sections {header : TableHeader} {available : ℕ} {s : Sections}
    (h : sections header available = .ok s) :
    (header.dataPoolOffset : Exec Error ℕ) = .ok s.dataStart := by
  unfold sections at h
  simp only [Exec.bind_eq_ok, Exec.pure_eq, Exec.ok.injEq] at h
  obtain ⟨_, -, _, -, _, -, _, -, _, -, dataStart, hdata, _, -, _, -, _, -, _, -, _, -, _, -, rfl⟩ := h
  exact hdata

/-- No two columns have the same name. -/
def DistinctNames (t : HighTable) : Prop :=
  ∀ (i j : ℕ) (c d : Column) (name : String), t.columns[i]? = some c → t.columns[j]? = some d →
    t.strings.getString c.stringOffset = some name →
    t.strings.getString d.stringOffset = some name → i = j

end HighTable

namespace Acb

variable {shiftJis : List UInt8 → String} {alloc : List UInt8} {a : HighTable}
  {t : CriArchive.HighTable}

/-- **Both readers have the same columns, strings and rows** on bytes that both accept: what the one
cuts off lies behind everything that is read.

**Proof sketch.** The second reader cuts the bytes to the size that the header declares, so that it
is enough to show that nothing is read beyond the cut. The string pool ends before the data, and
these before the end. A column that is parsed is determined by the bytes where it stands
(`Column.eq_of_standsAt`). The rows are decoded from windows of the bytes, and the last of them ends
before the strings. -/
theorem parts_eq (ha : HighTable.new shiftJis alloc = .ok a)
    (ht : CriArchive.HighTable.new shiftJis alloc = .ok t) :
    a.strings = t.strings ∧ a.rows = t.rows ∧
      a.indices = HighTable.columnIndices t.strings t.columns := by
  obtain ⟨-, -, columns, u, v, stringStart, dataStart, hschema, hstring, hdata, -, -, hrows, hstrings,
    hindices⟩ := HighTable.new_eq_ok ha
  obtain ⟨hheader, s, pos, hsections, halloc, hschema', hpos, hwidth, w, hrows'⟩ :=
    CriArchive.HighTable.new_eq_ok ht
  obtain ⟨s', hsections', hstrings'⟩ := CriArchive.HighTable.strings_of_new ht
  rw [hheader] at hsections hschema' hwidth hrows'
  obtain rfl := Exec.ok.inj (hsections.symm.trans hsections')
  obtain ⟨havailable, h64, hrowsOffset, hstringOffset, hpool, hdataEnd, hend⟩ :=
    CriArchive.HighTable.sections_eq_ok hsections
  obtain rfl : stringStart = s.stringStart := Exec.ok.inj (hstring.symm.trans hstringOffset)
  obtain rfl : dataStart = s.dataStart :=
    Exec.ok.inj (hdata.symm.trans (CriArchive.HighTable.dataPoolOffset_of_sections hsections))
  -- the string pool ends before the cut
  have hstringsEq : a.strings = t.strings := by
    rw [CriArchive.HighTable.window_truncate (by omega)] at hstrings'
    exact Exec.ok.inj (hstrings.symm.trans hstrings')
  obtain ⟨hu, hstands⟩ := Column.newList_eq_ok hschema
  obtain rfl : columns = t.columns :=
    Column.eq_of_standsAt
      ((Column.length_of_newList hschema).trans (Column.length_of_newList hschema').symm) hstands
      fun i c hc => (CriArchive.HighTable.column_standsAt ht hc).1
  refine ⟨hstringsEq, ?_, by rw [hindices, hstringsEq]⟩
  have hrowsStart := CriArchive.HighTable.rowsStart_eq hrowsOffset
  by_cases hnone : t.rows = []
  · have hcount := CriArchive.HighTable.length_rows ht
    rw [hnone, List.length_nil, ← ((Row.safe_newList _ _ _).of_ok hrows).1] at hcount
    rw [hnone, List.length_eq_zero_iff.mp hcount.symm]
  obtain ⟨hvalid, hlist⟩ := CriArchive.HighTable.rows_eq_decodeAt ht hnone
  have hdecoded := Row.newList_eq hvalid hwidth (s := u)
    (by rw [hu, hrowsStart]; dsimp only; omega) (by rw [hrowsStart]; omega)
  rw [hrows] at hdecoded
  rw [Exec.ok.inj hdecoded, hlist, hheader, hu]
  refine List.map_congr_left fun r hr => ?_
  have hrowEnd : r * ((TableHeader.new alloc).field16 0x1a).toNat +
      ((TableHeader.new alloc).field16 0x1a).toNat ≤
      ((TableHeader.new alloc).field16 0x1a).toNat * ((TableHeader.new alloc).field32 0x1c).toNat := by
    rw [← Nat.succ_mul, Nat.mul_comm]
    exact Nat.mul_le_mul_left _ (List.mem_range.mp hr)
  have hwindow : ∀ p n, p + n ≤ s.declaredSize → window alloc p n = window t.alloc p n := by
    intro p n hp
    rw [halloc, CriArchive.HighTable.window_truncate hp]
  exact Row.decodeAt_congr hwindow (by omega)

/-! ## Cells -/

/-- A cell, with a null object counting as absent. -/
def present (value : Option RowValue) : Option RowValue := value.filter (· ≠ .none)

/-- The column that is found by a name that no other column has. -/
theorem columnIndex_eq_some (hdistinct : t.DistinctNames) {name : String} {i : ℕ} :
    t.columnIndex name = some i ↔
      ∃ c, t.columns[i]? = some c ∧ t.strings.getString c.stringOffset = some name := by
  rw [CriArchive.HighTable.columnIndex, List.findIdx?_eq_some_iff_getElem]
  constructor
  · rintro ⟨hi, hname, -⟩
    exact ⟨_, List.getElem?_eq_getElem hi, by simpa using hname⟩
  · rintro ⟨c, hc, hname⟩
    obtain ⟨hi, rfl⟩ := List.getElem?_eq_some_iff.mp hc
    refine ⟨hi, by simpa using hname, fun k hk => ?_⟩
    rw [beq_iff_eq]
    intro hfirst
    exact absurd (hdistinct k i _ _ name (List.getElem?_eq_getElem (hk.trans hi)) hc hfirst hname)
      hk.ne

/-- The map finds the same column. -/
theorem lookup_columnIndices (hdistinct : t.DistinctNames) (name : String) :
    (HighTable.columnIndices t.strings t.columns).lookup name = t.columnIndex name := by
  have hentry : ∀ (x : Column × ℕ) (n : String) (i : ℕ),
      (t.strings.getString x.1.stringOffset).map (fun name => (name, x.2)) = some (n, i) ↔
        t.strings.getString x.1.stringOffset = some n ∧ x.2 = i := by
    intro x n i
    simp
  apply Option.ext
  intro i
  rw [columnIndex_eq_some hdistinct, HighTable.columnIndices, Insertions.lookup_of_unique]
  · constructor
    · rintro ⟨⟨c, j⟩, hmem, hfound⟩
      obtain ⟨hname, rfl⟩ := (hentry _ _ _).mp hfound
      exact ⟨c, List.mk_mem_zipIdx_iff_getElem?.mp hmem, hname⟩
    · rintro ⟨c, hc, hname⟩
      exact ⟨(c, i), List.mk_mem_zipIdx_iff_getElem?.mpr hc, (hentry _ _ _).mpr ⟨hname, rfl⟩⟩
  · rintro ⟨c, j⟩ hc ⟨d, k⟩ hd v w hv hw
    obtain ⟨hname, rfl⟩ := (hentry _ _ _).mp hv
    obtain ⟨hname', rfl⟩ := (hentry _ _ _).mp hw
    exact hdistinct j k c d name (List.mk_mem_zipIdx_iff_getElem?.mp hc)
      (List.mk_mem_zipIdx_iff_getElem?.mp hd) hname hname'

/-- The raw cells of a row: a null object stands for a column that is not stored in the rows. -/
theorem getElem?_row (ht : CriArchive.HighTable.new shiftJis alloc = .ok t) {r i : ℕ} {row : Row}
    {c : Column} (hrow : t.rows[r]? = some row) (hc : t.columns[i]? = some c) :
    ∃ value, row[i]? = some value ∧ (value = .none ↔ c.isRowStored = false) := by
  have hne : t.rows ≠ [] := by
    intro hnil
    rw [hnil] at hrow
    cases hrow
  obtain ⟨hvalid, hlist⟩ := CriArchive.HighTable.rows_eq_decodeAt ht hne
  rw [hlist, List.getElem?_map, Option.map_eq_some_iff] at hrow
  obtain ⟨r', -, rfl⟩ := hrow
  refine ⟨_, Row.getElem?_decodeAt _ _ hc, ?_⟩
  by_cases hstored : c.isRowStored = true
  · rw [if_pos hstored]
    exact iff_of_false (RowValue.decode_ne_none (hvalid c (List.mem_of_getElem? hc)) _)
      (by rw [hstored]; decide)
  · rw [if_neg hstored]
    exact iff_of_true rfl (Bool.eq_false_iff.mpr hstored)

/-- A column is constant only: it has a constant value and no cells of its own. -/
def ConstantOnly (c : Column) : Prop :=
  c.flag.contains .rowStorage = false ∧ c.flag.contains .defaultValue = true

/-- A column has a constant value, which is not a null object, iff its flags say so. -/
theorem present_default (ht : CriArchive.HighTable.new shiftJis alloc = .ok t) {i : ℕ} {c : Column}
    (hc : t.columns[i]? = some c) (hne : t.rows ≠ []) :
    present c.default = none ↔ c.flag.contains .defaultValue = false := by
  have hvalid := (CriArchive.HighTable.rows_eq_decodeAt ht hne).1 c (List.mem_of_getElem? hc)
  rw [(CriArchive.HighTable.column_standsAt ht hc).1.default]
  split_ifs with hconstant
  · refine iff_of_false ?_ (by rw [hconstant]; decide)
    rw [present, Option.filter_some, if_pos (by simpa using RowValue.decode_ne_none hvalid _)]
    exact Option.some_ne_none _
  · exact iff_of_true rfl (Bool.eq_false_iff.mpr hconstant)

/-- Both readers give the same value for every row and every name. -/
def ReadersAgree (a : HighTable) (t : CriArchive.HighTable) : Prop :=
  ∀ (r : ℕ) (row : Row) (name : String), a.rows[r]? = some row →
    ∃ value, a.getValue row name = .ok value ∧ present value = present (t.valueByName r name)

/-- The readers agree on the cell of a named column unless the column is constant only. -/
theorem cell_eq_iff (ha : HighTable.new shiftJis alloc = .ok a)
    (ht : CriArchive.HighTable.new shiftJis alloc = .ok t) (hdistinct : t.DistinctNames) {r i : ℕ}
    {row : Row} {c : Column} {name : String} (hrow : t.rows[r]? = some row)
    (hc : t.columns[i]? = some c) (hname : t.columnIndex name = some i) :
    present (a.cell row name) = present (t.valueByName r name) ↔ ¬ConstantOnly c := by
  obtain ⟨-, -, hindices⟩ := parts_eq ha ht
  obtain ⟨value, hvalue, hnull⟩ := getElem?_row ht hrow hc
  have hne : t.rows ≠ [] := List.ne_nil_of_mem (List.mem_of_getElem? hrow)
  have hcell : a.cell row name = some value := by
    rw [HighTable.cell, hindices, lookup_columnIndices hdistinct, hname, Option.bind_some, hvalue]
  have hread : t.valueByName r name = if value = .none then c.default else some value := by
    simp only [CriArchive.HighTable.valueByName, CriArchive.HighTable.value, hname, hrow, hvalue, hc,
      Option.bind_eq_bind, Option.bind_some]
  rw [hcell, hread]
  by_cases hstored : c.isRowStored = true
  · have hsome : value ≠ .none := fun hnone => by
      rw [hnull.mp hnone] at hstored
      cases hstored
    rw [if_neg hsome]
    refine iff_of_true rfl ?_
    rintro ⟨hnot, -⟩
    exact absurd hstored (by rw [Column.isRowStored, hnot]; decide)
  · have hnot : c.isRowStored = false := Bool.eq_false_iff.mpr hstored
    obtain rfl := hnull.mpr hnot
    rw [if_pos rfl, eq_comm]
    refine (present_default ht hc hne).trans ?_
    rw [ConstantOnly, show c.flag.contains .rowStorage = false from hnot]
    simp

/-- **When the two readers agree.** On bytes that both readers accept, with distinct column names, they
give the same value for every row and name iff the table has no rows or no named column is constant
only: the reader of `acb/header.rs` takes the null object that stands in the row for the value.

**Proof sketch.** The parts of both tables are equal (`parts_eq`) and with distinct names both find
the same column (`lookup_columnIndices`), so that only the null objects remain (`cell_eq_iff`). -/
theorem readersAgree_iff (ha : HighTable.new shiftJis alloc = .ok a)
    (ht : CriArchive.HighTable.new shiftJis alloc = .ok t) (hdistinct : t.DistinctNames) :
    ReadersAgree a t ↔ t.rows = [] ∨ ∀ c ∈ t.columns,
      (∃ name, t.strings.getString c.stringOffset = some name) → ¬ConstantOnly c := by
  obtain ⟨-, hrows, hindices⟩ := parts_eq ha ht
  have hvalue : ∀ {r : ℕ} {row : Row}, t.rows[r]? = some row → ∀ name,
      a.getValue row name = .ok (a.cell row name) := fun hrow name =>
    HighTable.getValue_eq (HighTable.rectangular_of_new ha)
      (hrows ▸ List.mem_of_getElem? hrow) name
  rw [ReadersAgree, hrows]
  constructor
  · intro hagree
    rcases hfirst : t.rows with _ | ⟨row, rows⟩
    · exact Or.inl rfl
    · refine Or.inr fun c hmem hnamed => ?_
      obtain ⟨name, hname⟩ := hnamed
      obtain ⟨i, hi, rfl⟩ := List.mem_iff_getElem.mp hmem
      have hc : t.columns[i]? = some t.columns[i] := List.getElem?_eq_getElem hi
      have hrow : t.rows[0]? = some row := by rw [hfirst, List.getElem?_cons_zero]
      obtain ⟨value, hread, hsame⟩ := hagree 0 row name hrow
      obtain rfl := Exec.ok.inj ((hvalue hrow name).symm.trans hread)
      exact (cell_eq_iff ha ht hdistinct hrow hc
        ((columnIndex_eq_some hdistinct).mpr ⟨_, hc, hname⟩)).mp hsame
  · intro hcond r row name hrow
    refine ⟨_, hvalue hrow name, ?_⟩
    rcases hname : t.columnIndex name with _ | i
    · -- no column has the name
      rw [HighTable.cell, hindices, lookup_columnIndices hdistinct, CriArchive.HighTable.valueByName,
        hname]
      rfl
    · obtain ⟨c, hc, hfound⟩ := (columnIndex_eq_some hdistinct).mp hname
      refine (cell_eq_iff ha ht hdistinct hrow hc hname).mpr ?_
      rcases hcond with hnone | hall
      · rw [hnone] at hrow
        cases hrow
      · exact hall c (List.mem_of_getElem? hc) ⟨name, hfound⟩

/-- A table with one row and one column, `a`, with the given flags, constant value and cell. -/
def columnTable (flag : UInt8) (constant cell : List UInt8) : List UInt8 :=
  [0x40, 0x55, 0x54, 0x46, 0, 0, 0, 33, 0, 1, 0, 29 + UInt8.ofNat constant.length, 0, 0, 0, 31,
    0, 0, 0, 33, 0, 0, 0, 0, 0, 1, 0, UInt8.ofNat cell.length, 0, 0, 0, 1] ++
    (flag :: 0 :: 0 :: 0 :: 0 :: constant ++ (cell ++ [0x61, 0]))

/-- Tables with one column have distinct names. -/
theorem distinctNames_of_length (h : t.columns.length = 1) : t.DistinctNames := by
  intro i j c d name hc hd _ _
  have hi := (List.getElem?_eq_some_iff.mp hc).1
  have hj := (List.getElem?_eq_some_iff.mp hd).1
  omega

/-- The readers agree on a table whose column is stored in the rows. -/
theorem readersAgree_iff_sample : ∃ a t,
    HighTable.new (fun _ => "") (columnTable 0x52 [] [1, 2]) = .ok a ∧
      CriArchive.HighTable.new (fun _ => "") (columnTable 0x52 [] [1, 2]) = .ok t ∧
      ReadersAgree a t := by
  obtain ⟨a, ha, t, ht, hcolumns⟩ : ∃ a,
      HighTable.new (fun _ => "") (columnTable 0x52 [] [1, 2]) = .ok a ∧ ∃ t,
      CriArchive.HighTable.new (fun _ => "") (columnTable 0x52 [] [1, 2]) = .ok t ∧
      t.columns = [⟨⟨0x52⟩, 0, none⟩] := by
    decide +kernel
  refine ⟨a, t, ha, ht, (readersAgree_iff ha ht
    (distinctNames_of_length (by rw [hcolumns]; rfl))).mpr (Or.inr ?_)⟩
  rw [hcolumns]
  rintro c hc - ⟨hnot, -⟩
  obtain rfl := List.mem_singleton.mp hc
  exact absurd hnot (by decide)

/-- The readers do not agree on a table whose only column has a constant value: one of them takes it
for absent. -/
theorem not_readersAgree : ∃ a t,
    HighTable.new (fun _ => "") (columnTable 0x32 [1, 2] []) = .ok a ∧
      CriArchive.HighTable.new (fun _ => "") (columnTable 0x32 [1, 2] []) = .ok t ∧
      t.DistinctNames ∧ ¬ReadersAgree a t := by
  obtain ⟨a, ha, t, ht, hcolumns, hrows, hcell, hvalue⟩ : ∃ a,
      HighTable.new (fun _ => "") (columnTable 0x32 [1, 2] []) = .ok a ∧ ∃ t,
      CriArchive.HighTable.new (fun _ => "") (columnTable 0x32 [1, 2] []) = .ok t ∧
      t.columns.length = 1 ∧ a.rows = [[.none]] ∧ a.getValue [.none] "a" = .ok (some .none) ∧
      t.valueByName 0 "a" = some (.uInt16 0x0102) := by
    decide +kernel
  refine ⟨a, t, ha, ht, distinctNames_of_length hcolumns, fun hagree => ?_⟩
  obtain ⟨value, hread, hsame⟩ := hagree 0 [.none] "a" (by rw [hrows]; rfl)
  obtain rfl := Exec.ok.inj (hcell.symm.trans hread)
  rw [hvalue] at hsame
  exact absurd hsame (by decide)

end Acb

end CriArchive
