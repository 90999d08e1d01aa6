import Mathlib.Algebra.Order.BigOperators.Group.Finset
import CriArchive.Cpk.Codec

set_option relaxedAutoImplicit false
set_option autoImplicit false

/-!
# The limits of the section offsets

`UtfTableBuilder::build` subtracts 8 from the size and the section starts of a table and checks that
the rest fits its header field, so that a table may take up to `2^32 + 7` bytes; of the right shape,
nothing else keeps a table from being built. The accessors of `schema/header.rs` add the 8 again, the
starts of the two pools with saturation at `u32::MAX`.

## Main definitions

* `poolSize` — the size of the string pool for a list of strings.
* `UtfTableBuilder.dataPoolStart`, `UtfTableBuilder.size` — the start of the data pool and the size,
  from the table to be built.
* `UtfTableBuilder.Shaped` — the shape of a table that the header can describe.
* `UtfTableBuilder.OffsetsSurvive` — the reader recovers the size and the section starts.
* `UtfTableBuilder.cellTable` — a table with one string cell.

## Main results

* `length_pool_eq` — the pool holds every distinct string once.
* `UtfTableBuilder.exists_build_iff` — a table is built iff its size less 8 fits 32 bits.
* `UtfTableBuilder.offsetsSurvive_iff` — the offsets survive iff the data pool starts below `2^32`.
-/

namespace CriArchive

/-! ## The size of the string pool -/

/-- The size of the pool for a list of strings: a terminator for the empty string, and every other
distinct string once, with its terminator. -/
def poolSize (ss : List String) : ℕ :=
  1 + ∑ s ∈ ss.toFinset.erase "", (s.asBytes.length + 1)

namespace StringInterner

/-- The strings that have an offset. -/
def keys (p : StringInterner) : Finset String := (p.offsets.map Prod.fst).toFinset

/-- The pool holds the empty string and every other mapped string once. -/
structure Tight (p : StringInterner) : Prop where
  null : "" ∈ p.keys
  size : p.pool.length = 1 + ∑ s ∈ p.keys.erase "", (s.asBytes.length + 1)

/-- The pool that the builder starts with holds no string twice. -/
theorem tight_initial : Tight initial := ⟨by simp [keys, initial], by simp [keys, initial]⟩

/-- A string has no offset iff it is not mapped. -/
theorem lookup_eq_none {p : StringInterner} {s : String} :
    p.offsets.lookup s = none ↔ s ∉ p.keys := by
  rw [List.lookup_eq_none_iff, keys, List.mem_toFinset, List.mem_map]
  constructor
  · rintro h ⟨kv, hkv, rfl⟩
    exact absurd (h kv hkv) (by simp)
  · intro h kv hkv
    rw [bne_iff_ne]
    rintro rfl
    exact h ⟨kv, hkv, rfl⟩

/-- Interning a string maps it, and the pool stays tight.

**Proof sketch.** A string that is mapped changes nothing. A new one is not empty, since the empty
string is mapped, and it adds its bytes and a terminator to both sides of the equation. -/
theorem tight_internString {s : String} {p : StringInterner} {r : UInt32 × StringInterner}
    (hp : p.Tight) (h : internString s p = .ok r) : r.2.Tight ∧ r.2.keys = insert s p.keys := by
  unfold internString at h
  split at h
  case h_1 offset hs =>
    obtain rfl := Exec.ok.inj h
    have hmem : s ∈ p.keys := by
      by_contra hnot
      rw [lookup_eq_none.mpr hnot] at hs
      cases hs
    exact ⟨hp, (Finset.insert_eq_self.mpr hmem).symm⟩
  case h_2 hs =>
    rw [Exec.bind_eq_ok] at h
    obtain ⟨offset, -, h⟩ := h
    obtain rfl := Exec.ok.inj h
    have hnew : s ∉ p.keys := lookup_eq_none.mp hs
    have hne : s ≠ "" := by
      rintro rfl
      exact hnew hp.null
    have hkeys : StringInterner.keys ⟨p.pool ++ s.asBytes ++ [0], (s, offset) :: p.offsets⟩ =
        insert s p.keys := by
      simp [keys]
    refine ⟨⟨?_, ?_⟩, hkeys⟩
    · rw [hkeys]
      exact Finset.mem_insert_of_mem hp.null
    · rw [hkeys, Finset.erase_insert_of_ne hne, Finset.sum_insert (by simp [hnew])]
      simp only [List.length_append, List.length_cons, List.length_nil, hp.size]
      omega

/-- Interning strings keeps the pool tight and gives them all offsets. -/
theorem tight_internAll {ss : List String} {p : StringInterner} {r : List UInt32 × StringInterner}
    (hp : p.Tight) (h : internAll ss p = .ok r) :
    r.2.Tight ∧ r.2.keys = ss.toFinset ∪ p.keys := by
  induction ss generalizing p r with
  | nil =>
    obtain rfl := Exec.ok.inj h
    exact ⟨hp, by simp⟩
  | cons s ss ih =>
    unfold internAll at h
    simp only [Exec.bind_eq_ok] at h
    obtain ⟨first, hfirst, others, hothers, h⟩ := h
    obtain rfl := Exec.ok.inj h
    obtain ⟨htight, hkeys⟩ := tight_internString hp hfirst
    obtain ⟨htight', hkeys'⟩ := ih htight hothers
    refine ⟨htight', ?_⟩
    rw [hkeys', hkeys, List.toFinset_cons, Finset.union_insert, Finset.insert_union]

/-- The pool of mapped strings that are among some others is no larger than a pool of those. -/
theorem Tight.length_le {p : StringInterner} (hp : p.Tight) {ss : List String}
    (hkeys : ∀ s ∈ p.keys, s = "" ∨ s ∈ ss) : p.pool.length ≤ poolSize ss := by
  rw [hp.size, poolSize]
  refine Nat.add_le_add_left (Finset.sum_le_sum_of_subset fun s hs => ?_) 1
  obtain ⟨hne, hs⟩ := Finset.mem_erase.mp hs
  exact Finset.mem_erase.mpr ⟨hne, List.mem_toFinset.mpr ((hkeys s hs).resolve_left hne)⟩

/-- A string is interned as long as the pool is shorter than `2^32`. -/
theorem exists_internString {p : StringInterner} (s : String) (h : p.pool.length < 2 ^ 32) :
    ∃ r, internString s p = .ok r := by
  unfold internString
  cases p.offsets.lookup s with
  | some offset => exact ⟨_, rfl⟩
  | none =>
    have hfits : UInt32.tryFrom p.pool.length = some (UInt32.ofNat p.pool.length) := if_pos h
    simp only [hfits, Exec.okOr_some, Exec.ok_bind]
    exact ⟨_, rfl⟩

/-- **Strings are interned** when all of them fit a pool shorter than `2^32`. -/
theorem exists_internAll {ss all : List String} {p : StringInterner} (hp : p.Tight)
    (hkeys : ∀ s ∈ p.keys, s = "" ∨ s ∈ all) (hss : ∀ s ∈ ss, s ∈ all)
    (hsize : poolSize all < 2 ^ 32) : ∃ r, internAll ss p = .ok r := by
  induction ss generalizing p with
  | nil => exact ⟨_, rfl⟩
  | cons s ss ih =>
    obtain ⟨first, hfirst⟩ :=
      exists_internString s (Nat.lt_of_le_of_lt (hp.length_le hkeys) hsize)
    obtain ⟨htight, hkeys'⟩ := tight_internString hp hfirst
    obtain ⟨others, hothers⟩ := ih htight
      (fun t ht => by
        rw [hkeys', Finset.mem_insert] at ht
        rcases ht with rfl | ht
        · exact .inr (hss _ (List.mem_cons_self ..))
        · exact hkeys t ht)
      fun t ht => hss t (List.mem_cons_of_mem _ ht)
    exact ⟨_, by rw [internAll, hfirst, Exec.ok_bind, hothers]; rfl⟩

end StringInterner

/-- **Data cells are packed** when their bytes fit a pool shorter than `2^32`. -/
theorem exists_packCells {cells : List UtfCell} {d : DataPool}
    (h : d.pool.length + (cells.map UtfTableBuilder.dataBytes).sum < 2 ^ 32) :
    ∃ r, packCells cells d = .ok r := by
  induction cells generalizing d with
  | nil => exact ⟨_, rfl⟩
  | cons cell cells ih =>
    obtain ⟨key, v⟩ := cell
    rw [List.map_cons, List.sum_cons] at h
    cases v with
    | uInt16 v | uInt32 v | uInt64 v | string v =>
      exact ih (by simpa [UtfTableBuilder.dataBytes] using h)
    | data bytes =>
      simp only [UtfTableBuilder.dataBytes] at h
      have hoffset : UInt32.tryFrom d.pool.length = some (UInt32.ofNat d.pool.length) :=
        if_pos (by omega)
      have hlength : UInt32.tryFrom bytes.length = some (UInt32.ofNat bytes.length) :=
        if_pos (by omega)
      rw [packCells, hoffset, hlength]
      exact ih (by simp only [List.length_append]; omega)

namespace UtfTableBuilder

open StringInterner

variable {b : UtfTableBuilder} {p : Parts}

/-- The strings of a table: its name, the names of its columns, its string cells. -/
def strings (b : UtfTableBuilder) : List String :=
  b.name :: (b.columns.map UtfColumn.name ++ b.cellStrings)

/-- The pool after all strings of a table were interned holds every distinct string once. -/
theorem length_pool {tableName : UInt32 × StringInterner} {columnNames cellNames :
      List UInt32 × StringInterner} (hname : internString b.name .initial = .ok tableName)
    (hcolumns : internAll (b.columns.map UtfColumn.name) tableName.2 = .ok columnNames)
    (hcells : internAll b.cellStrings columnNames.2 = .ok cellNames) :
    cellNames.2.pool.length = poolSize b.strings := by
  obtain ⟨htight₁, hkeys₁⟩ := tight_internString tight_initial hname
  obtain ⟨htight₂, hkeys₂⟩ := tight_internAll htight₁ hcolumns
  obtain ⟨htight₃, hkeys₃⟩ := tight_internAll htight₂ hcells
  have hkeys : cellNames.2.keys.erase "" = b.strings.toFinset.erase "" := by
    rw [hkeys₃, hkeys₂, hkeys₁]
    ext s
    simp only [keys, initial, strings, Finset.mem_erase, Finset.mem_union, Finset.mem_insert,
      List.mem_toFinset, List.mem_cons, List.mem_append, List.map_cons, List.map_nil,
      List.not_mem_nil, or_false]
    tauto
  rw [htight₃.size, hkeys, poolSize]

/-- The pool of a built table holds every distinct string once. -/
theorem length_pool_eq (hp : p.Checked b) : p.cellNames.2.pool.length = poolSize b.strings :=
  length_pool hp.tableName hp.columnNames hp.cellNames

/-- `data_pool_start`: the header, the schema, the rows and the string pool. -/
def dataPoolStart (b : UtfTableBuilder) : ℕ :=
  0x20 + b.columns.length * 5 + b.rowWidth * b.rows.length + poolSize b.strings

/-- The builder's `data_pool_start`. -/
theorem dataPoolStart_eq (hp : p.Checked b) : p.layout.dataPoolStart = b.dataPoolStart := by
  obtain ⟨hrows, hstrings, hdata, -⟩ := layout_eq_ok hp.layout
  rw [hdata, hstrings, hrows, length_pool_eq hp, dataPoolStart]

/-! ## When a table is built -/

/-- The size of a table, from the table to be built. -/
def size (b : UtfTableBuilder) : ℕ := b.dataPoolStart + (b.cells.map dataBytes).sum

/-- A table whose schema and counts fit the header, and whose rows match its columns. -/
structure Shaped (b : UtfTableBuilder) : Prop where
  columns : 0x18 + b.columns.length * 5 < 2 ^ 16
  rowCount : b.rows.length < 2 ^ 32
  rowWidth : b.rowWidth < 2 ^ 16
  rows : ∀ row ∈ b.rows, row.map UtfValue.valueType = b.columns.map UtfColumn.valueType

/-- Rows that match the columns pass the check. -/
theorem checkRows_of_types {columns : List UtfColumn} {rows : List (List UtfValue)}
    (h : ∀ row ∈ rows, row.map UtfValue.valueType = columns.map UtfColumn.valueType) :
    checkRows columns rows = .ok () := by
  induction rows with
  | nil => rfl
  | cons row rows ih =>
    have hrow := h row (List.mem_cons_self ..)
    rw [← List.forall₂_eq_eq_eq, List.forall₂_map_left_iff, List.forall₂_map_right_iff] at hrow
    have htypes : ¬∃ vc ∈ row.zip columns, vc.1.valueType ≠ vc.2.valueType := by
      rintro ⟨vc, hvc, hne⟩
      exact hne ((List.forall₂_iff_zip.mp hrow).2 hvc)
    rw [checkRows, Exec.errIf_of_not (not_not.mpr hrow.length_eq), Exec.ok_bind,
      Exec.errIf_of_not htypes, Exec.ok_bind]
    exact ih fun r hr => h r (List.mem_cons_of_mem _ hr)

/-- The layout of a table whose size is a `usize`. -/
theorem layout_of_lt {stringsLen dataLen : ℕ} (h : 0x20 + b.columns.length * 5 +
      b.rowWidth * b.rows.length + stringsLen + dataLen < 2 ^ 64) :
    b.layout stringsLen dataLen = .ok ⟨0x20 + b.columns.length * 5,
      0x20 + b.columns.length * 5 + b.rowWidth * b.rows.length,
      0x20 + b.columns.length * 5 + b.rowWidth * b.rows.length + stringsLen,
      0x20 + b.columns.length * 5 + b.rowWidth * b.rows.length + stringsLen + dataLen⟩ := by
  have hadd : ∀ x y : ℕ, x + y < 2 ^ 64 → Nat.checkedAdd64 x y = some (x + y) :=
    fun x y hxy => Nat.checkedAdd64_eq_some.mpr ⟨hxy, rfl⟩
  have hmul : ∀ x y : ℕ, x * y < 2 ^ 64 → Nat.checkedMul64 x y = some (x * y) :=
    fun x y hxy => Nat.checkedMul64_eq_some.mpr ⟨hxy, rfl⟩
  unfold layout
  rw [hmul _ _ (by omega), Exec.okOr_some, Exec.ok_bind, hadd _ _ (by omega), Exec.okOr_some,
    Exec.ok_bind, hmul _ _ (by omega), Exec.okOr_some, Exec.ok_bind, hadd _ _ (by omega),
    Exec.okOr_some, Exec.ok_bind, hadd _ _ (by omega), Exec.okOr_some, Exec.ok_bind,
    hadd _ _ (by omega), Exec.okOr_some, Exec.ok_bind]
  rfl

/-- The fields of a layout that fits the header. -/
theorem exists_fields {l : TableLayout} (htotal : l.totalSize - 8 < 2 ^ 32)
    (hrows : l.rowsStart - 8 < 2 ^ 16) (hstring : l.stringPoolStart - 8 < 2 ^ 32)
    (hdata : l.dataPoolStart - 8 < 2 ^ 32) : ∃ f, fields l = .ok f := by
  unfold fields UInt16.tryFrom UInt32.tryFrom
  rw [if_pos htotal, if_pos hrows, if_pos hstring, if_pos hdata]
  exact ⟨_, rfl⟩

/-- Cells are encoded when their strings and their data have a place in the pools. -/
theorem exists_encodeCells {offsets : List (String × UInt32)}
    {locations : List ((ℕ × ℕ) × (UInt32 × UInt32))} {cells : List UtfCell}
    (hstrings : ∀ key s, (key, UtfValue.string s) ∈ cells → ∃ o, offsets.lookup s = some o)
    (hdata : ∀ key bytes, (key, UtfValue.data bytes) ∈ cells →
      ∃ l, locations.lookup key = some l) :
    ∃ bytes, encodeCells offsets locations cells = .ok bytes := by
  induction cells with
  | nil => exact ⟨_, rfl⟩
  | cons cell cells ih =>
    obtain ⟨others, hothers⟩ := ih (fun key s h => hstrings key s (List.mem_cons_of_mem _ h))
      fun key bytes h => hdata key bytes (List.mem_cons_of_mem _ h)
    have hcell : ∃ bytes, encodeCell offsets locations cell = .ok bytes := by
      obtain ⟨key, v⟩ := cell
      cases v with
      | uInt16 v | uInt32 v | uInt64 v => exact ⟨_, rfl⟩
      | string s =>
        obtain ⟨o, ho⟩ := hstrings key s (List.mem_cons_self ..)
        exact ⟨_, by rw [encodeCell, ho]; rfl⟩
      | data bytes =>
        obtain ⟨l, hl⟩ := hdata key bytes (List.mem_cons_self ..)
        exact ⟨_, by rw [encodeCell, hl]; rfl⟩
    obtain ⟨bytes, hbytes⟩ := hcell
    exact ⟨_, by rw [encodeCells, hbytes, Exec.ok_bind, hothers]; rfl⟩

/-- The strings of a table are interned when their pool is shorter than `2^32`. -/
theorem exists_pool (h : poolSize b.strings < 2 ^ 32) : ∃ tableName columnNames cellNames,
    internString b.name .initial = .ok tableName ∧
      internAll (b.columns.map UtfColumn.name) tableName.2 = .ok columnNames ∧
      internAll b.cellStrings columnNames.2 = .ok cellNames := by
  have hinitial : ∀ s ∈ StringInterner.initial.keys, s = "" ∨ s ∈ b.strings := by
    simp [keys, initial]
  obtain ⟨tableName, hname⟩ : ∃ r, internString b.name .initial = .ok r :=
    exists_internString b.name (by decide)
  obtain ⟨htight₁, hkeys₁⟩ := tight_internString tight_initial hname
  have hmapped₁ : ∀ s ∈ tableName.2.keys, s = "" ∨ s ∈ b.strings := fun s hs => by
    rw [hkeys₁, Finset.mem_insert] at hs
    exact hs.elim (fun heq => .inr (by simp [strings, heq])) (hinitial s)
  have hcolumnStrings : ∀ s ∈ b.columns.map UtfColumn.name, s ∈ b.strings := fun s hs =>
    List.mem_cons_of_mem _ (List.mem_append_left _ hs)
  obtain ⟨columnNames, hcolumns⟩ := exists_internAll htight₁ hmapped₁ hcolumnStrings h
  obtain ⟨htight₂, hkeys₂⟩ := tight_internAll htight₁ hcolumns
  have hmapped₂ : ∀ s ∈ columnNames.2.keys, s = "" ∨ s ∈ b.strings := fun s hs => by
    rw [hkeys₂, Finset.mem_union, List.mem_toFinset] at hs
    exact hs.elim (fun hmem => .inr (hcolumnStrings s hmem)) (hmapped₁ s)
  have hcellStrings : ∀ s ∈ b.cellStrings, s ∈ b.strings := fun s hs =>
    List.mem_cons_of_mem _ (List.mem_append_right _ hs)
  obtain ⟨cellNames, hcells⟩ := exists_internAll htight₂ hmapped₂ hcellStrings h
  exact ⟨tableName, columnNames, cellNames, hname, hcolumns, hcells⟩

/-- The cells of a table are encoded with the pools of its strings and its data. -/
theorem exists_rowBytes {tableName : UInt32 × StringInterner} {columnNames cellNames :
      List UInt32 × StringInterner} {data : DataPool}
    (hname : internString b.name .initial = .ok tableName)
    (hcolumns : internAll (b.columns.map UtfColumn.name) tableName.2 = .ok columnNames)
    (hcells : internAll b.cellStrings columnNames.2 = .ok cellNames)
    (hdata : packCells b.cells ⟨[], []⟩ = .ok data) :
    ∃ bytes, encodeCells cellNames.2.offsets data.locations b.cells = .ok bytes := by
  obtain ⟨htight₁, -⟩ := tight_internString tight_initial hname
  obtain ⟨htight₂, -⟩ := tight_internAll htight₁ hcolumns
  obtain ⟨-, hkeys⟩ := tight_internAll htight₂ hcells
  refine exists_encodeCells (fun key s hmem => ?_) fun key bytes hmem => ?_
  · have hs : s ∈ b.cellStrings := List.mem_filterMap.mpr ⟨_, hmem, rfl⟩
    rw [← Option.ne_none_iff_exists', ne_eq, lookup_eq_none, hkeys, not_not]
    exact Finset.mem_union_left _ (List.mem_toFinset.mpr hs)
  · obtain ⟨offset, length, hlookup, -⟩ :=
      (packCells_spec hdata (nodup_cellsFrom 0 b.rows)).2 key bytes hmem
    exact ⟨_, hlookup⟩

/-- A table of the right shape is assembled when its size less 8 fits 32 bits.

**Proof sketch.** Every size is at most the size of the table, so that each conversion and each sum
in `parts` succeeds in turn: the pool of strings, the pool of data, the layout, the header fields
and the cells. -/
theorem exists_parts (hb : b.Shaped) (hsize : b.size < 2 ^ 32 + 8) : ∃ p, b.parts = .ok p := by
  have hstart : b.size = 0x20 + b.columns.length * 5 + b.rowWidth * b.rows.length +
      poolSize b.strings + (b.cells.map dataBytes).sum := rfl
  obtain ⟨tableName, columnNames, cellNames, hname, hcolumns, hcells⟩ :=
    exists_pool (show poolSize b.strings < 2 ^ 32 by omega)
  obtain ⟨data, hdata⟩ : ∃ data, packCells b.cells ⟨[], []⟩ = .ok data :=
    exists_packCells (by rw [List.length_nil]; omega)
  have hdataLen : data.pool.length = (b.cells.map dataBytes).sum := by
    rw [length_pool_packCells hdata, List.length_nil, Nat.zero_add]
  have hlayout := layout_of_lt (show 0x20 + b.columns.length * 5 + b.rowWidth * b.rows.length +
    poolSize b.strings + (b.cells.map dataBytes).sum < 2 ^ 64 by omega)
  obtain ⟨f, hf⟩ := exists_fields (l := ⟨0x20 + b.columns.length * 5,
      0x20 + b.columns.length * 5 + b.rowWidth * b.rows.length,
      0x20 + b.columns.length * 5 + b.rowWidth * b.rows.length + poolSize b.strings,
      0x20 + b.columns.length * 5 + b.rowWidth * b.rows.length + poolSize b.strings +
        (b.cells.map dataBytes).sum⟩)
    (by dsimp only; omega) (by dsimp only; have := hb.columns; omega) (by dsimp only; omega)
    (by dsimp only; omega)
  obtain ⟨rowBytes, hrowBytes⟩ := exists_rowBytes hname hcolumns hcells hdata
  have hcolumnCount : UInt16.tryFrom b.columns.length = some (UInt16.ofNat b.columns.length) :=
    if_pos (by have := hb.columns; omega)
  have hrowCount : UInt32.tryFrom b.rows.length = some (UInt32.ofNat b.rows.length) :=
    if_pos hb.rowCount
  have hrowSize : UInt16.tryFrom b.rowWidth = some (UInt16.ofNat b.rowWidth) := if_pos hb.rowWidth
  rw [parts, hcolumnCount, hrowCount, hrowSize, Exec.okOr_some, Exec.okOr_some, Exec.okOr_some,
    Exec.ok_bind, Exec.ok_bind, Exec.ok_bind, checkRows_of_types hb.rows, Exec.ok_bind, hname,
    Exec.ok_bind, hcolumns, Exec.ok_bind, hcells, Exec.ok_bind, hdata, Exec.ok_bind,
    length_pool hname hcolumns hcells, hdataLen, hlayout, Exec.ok_bind, hf, Exec.ok_bind, hrowBytes,
    Exec.ok_bind]
  exact ⟨_, rfl⟩

/-- Assembled parts are put out. -/
theorem build_of_parts (h : b.parts = .ok p) : b.build = .ok (p.bytes b.columns) := by
  rw [build, h, Exec.ok_bind, if_pos (length_bytes (checked_of_parts h))]
  rfl

/-- The length of a built table. -/
theorem length_build {bytes : List UInt8} (h : b.build = .ok bytes) : bytes.length = b.size := by
  obtain ⟨p, hp, -, hlen⟩ := build_eq_ok h
  obtain ⟨-, -, -, htotal, -⟩ := layout_eq_ok hp.layout
  rw [hlen, htotal, dataPoolStart_eq hp, length_pool_packCells hp.data, List.length_nil,
    Nat.zero_add, size]

/-- **When a table is built**: one of the right shape is, iff its size less 8 fits 32 bits. -/
theorem exists_build_iff (hb : b.Shaped) :
    (∃ bytes, b.build = .ok bytes) ↔ b.size < 2 ^ 32 + 8 := by
  constructor
  · rintro ⟨bytes, h⟩
    obtain ⟨p, hp, -, hlen⟩ := build_eq_ok h
    obtain ⟨hfield, -⟩ := fields_eq_ok hp.fields
    have hlt := p.fields.tableSize.toNat_lt
    rw [← length_build h, hlen]
    omega
  · intro hsize
    obtain ⟨p, hp⟩ := exists_parts hb hsize
    exact ⟨_, build_of_parts hp⟩

/-! ## The offsets -/

/-- From the header of a built table the reader recovers the section starts, the size and the number
of bytes of the rows that the builder computed; and the table is accepted and not cut. -/
def OffsetsSurvive (shiftJis : List UInt8 → String) (b : UtfTableBuilder) (bytes : List UInt8) :
    Prop :=
  ∃ p, b.parts = .ok p ∧
    ((TableHeader.new bytes).rowsOffset : Exec Error ℕ) = .ok p.layout.rowsStart ∧
    ((TableHeader.new bytes).stringPoolOffset : Exec Error ℕ) = .ok p.layout.stringPoolStart ∧
    ((TableHeader.new bytes).dataPoolOffset : Exec Error ℕ) = .ok p.layout.dataPoolStart ∧
    (∃ size, ((TableHeader.new bytes).size : Exec Error UInt32) = .ok size ∧
      size.toNat + 8 = p.layout.totalSize) ∧
    (∃ rowSize rowCount, ((TableHeader.new bytes).rowSize : Exec Error UInt16) = .ok rowSize ∧
      ((TableHeader.new bytes).rowCount : Exec Error UInt32) = .ok rowCount ∧
      rowSize.toNat * rowCount.toNat = b.rowWidth * b.rows.length) ∧
    ∃ t, HighTable.new shiftJis bytes = .ok t ∧ t.alloc = bytes ∧ t.rows.length = b.rows.length

/-- The start of the data pool as the reader recovers it. -/
theorem dataPoolOffset_bytes (hp : p.Checked b) :
    ((TableHeader.new (p.bytes b.columns)).dataPoolOffset : Exec Error ℕ) =
      .ok (min b.dataPoolStart (2 ^ 32 - 1)) := by
  obtain ⟨hrows, hstrings, hdata, -, -⟩ := layout_eq_ok hp.layout
  obtain ⟨-, -, -, hfield⟩ := fields_eq_ok hp.fields
  rw [TableHeader.dataPoolOffset_eq, Parts.bytes, field32_dataPoolOffset, hfield, headerOffset,
    Nat.sub_add_cancel (by omega), dataPoolStart_eq hp]

/-- A data pool that starts at `2^32` or later is not found where the builder put it. -/
theorem not_offsetsSurvive_of_le {shiftJis : List UInt8 → String} (hparts : b.parts = .ok p)
    (hlarge : 2 ^ 32 ≤ b.dataPoolStart) : ¬OffsetsSurvive shiftJis b (p.bytes b.columns) := by
  rintro ⟨p', hparts', -, -, hoffset, -⟩
  obtain rfl := Exec.ok.inj (hparts.symm.trans hparts')
  have hp := checked_of_parts hparts
  rw [dataPoolOffset_bytes hp, dataPoolStart_eq hp, Exec.ok.injEq] at hoffset
  omega

/-! ## A table at the limit -/

/-- A table with one string cell. -/
def cellTable (s : String) : UtfTableBuilder := ⟨"", [⟨"", .string⟩], [[.string s]]⟩

/-- The strings of a table with one cell. -/
theorem dataPoolStart_cellTable {s : String} (hs : s ≠ "") :
    (cellTable s).dataPoolStart = s.asBytes.length + 43 := by
  have hstrings : (cellTable s).strings = ["", "", s] := rfl
  have herase : (["", "", s].toFinset.erase "" : Finset String) = {s} := by
    ext t
    simp only [Finset.mem_erase, List.mem_toFinset, List.mem_cons, List.not_mem_nil, or_false,
      Finset.mem_singleton]
    constructor
    · rintro ⟨hne, rfl | rfl | rfl⟩
      · exact absurd rfl hne
      · exact absurd rfl hne
      · rfl
    · rintro rfl
      exact ⟨hs, Or.inr (Or.inr rfl)⟩
  have hsize : poolSize ["", "", s] = 1 + (s.asBytes.length + 1) := by
    rw [poolSize, herase, Finset.sum_singleton]
  have hrest : 0x20 + (cellTable s).columns.length * 5 +
      (cellTable s).rowWidth * (cellTable s).rows.length = 41 := rfl
  rw [dataPoolStart, hrest, hstrings, hsize]
  omega

/-- A table with one cell is assembled when its size fits the header. -/
theorem parts_cellTable {s : String} (hs : s ≠ "") (hlen : s.asBytes.length + 43 < 2 ^ 32 + 8) :
    ∃ p, (cellTable s).parts = .ok p := by
  have hshaped : (cellTable s).Shaped :=
    ⟨(by decide : 29 < 2 ^ 16), (by decide : 1 < 2 ^ 32), (by decide : 4 < 2 ^ 16),
      List.forall_mem_singleton.mpr rfl⟩
  refine exists_parts hshaped ?_
  rw [size, dataPoolStart_cellTable hs]
  exact hlen

/-- A string of `2^32 - 43` bytes. -/
def longString : String := String.ofList (List.replicate (2 ^ 32 - 43) 'a')

/-- The long string takes `2^32 - 43` bytes. -/
theorem length_longString : longString.asBytes.length = 2 ^ 32 - 43 := by
  have hlen : ∀ n, (String.ofList (List.replicate n 'a')).asBytes.length = n := by
    intro n
    induction n with
    | zero => rfl
    | succ n ih =>
      rw [String.asBytes_ofList] at ih ⊢
      rw [List.replicate_succ, Utf8.encode_cons, List.length_append, ih]
      exact Nat.add_comm 1 n
  exact hlen _

/-! ## The limit -/

/-- **Which section offsets survive.** The reader recovers every offset and size of a built table iff
its data pool starts below `2^32`: later starts saturate.

**Proof sketch.** The fields hold the starts less 8, and all but the pool starts are read without
saturation. A data pool that starts below `2^32` comes after all other starts, and the table is
accepted by `readBack_of_checked`; from `2^32` on, the start of the data pool is read as `u32::MAX`. -/
theorem offsetsSurvive_iff (shiftJis : List UInt8 → String) {bytes : List UInt8}
    (h : b.build = .ok bytes) : OffsetsSurvive shiftJis b bytes ↔ b.dataPoolStart < 2 ^ 32 := by
  have hbuild := h
  rw [build, Exec.bind_eq_ok] at h
  obtain ⟨p, hparts, -⟩ := h
  have hp := checked_of_parts hparts
  obtain rfl := Exec.ok.inj ((build_of_parts hparts).symm.trans hbuild)
  obtain ⟨hrows, hstrings, hdata, htotal, -⟩ := layout_eq_ok hp.layout
  obtain ⟨hsizeField, hrowsField, hstringField, -⟩ := fields_eq_ok hp.fields
  constructor
  · intro hsurvive
    by_contra hlarge
    exact not_offsetsSurvive_of_le hparts (Nat.le_of_not_lt hlarge) hsurvive
  · intro h32
    have hstart := dataPoolStart_eq hp
    obtain ⟨t, hnew, halloc, hread⟩ := readBack_of_checked hp shiftJis (by omega)
    refine ⟨p, hparts, ?_, ?_, ?_, ⟨p.fields.tableSize, ?_, by omega⟩,
      ⟨p.rowSize, p.rowCount, ?_, ?_, by rw [hp.rowSize, hp.rowCount]⟩, t, hnew, halloc,
      hread.rowCount⟩
    · rw [TableHeader.rowsOffset_eq, Parts.bytes, field16_rowsOffset, hrowsField, headerOffset,
        Nat.sub_add_cancel (by omega)]
    · rw [TableHeader.stringPoolOffset_eq, Parts.bytes, field32_stringPoolOffset, hstringField,
        headerOffset, Nat.sub_add_cancel (by omega), Nat.min_eq_left (by omega)]
    · rw [dataPoolOffset_bytes hp, hstart, Nat.min_eq_left (by omega)]
    · rw [TableHeader.size_eq, Parts.bytes, field32_tableSize]
    · rw [TableHeader.rowSize_eq, Parts.bytes, field16_rowSize]
    · rw [TableHeader.rowCount_eq, Parts.bytes, field32_rowCount]

/-- The offsets of a small table survive. -/
theorem offsetsSurvive_iff_sample : OffsetsSurvive (fun _ => "") sampleTable sampleTableBytes :=
  (offsetsSurvive_iff (fun _ => "")
    (show sampleTable.build = .ok sampleTableBytes by decide +kernel)).mpr (by decide +kernel)

/-- **The offsets do not survive** in the table whose only cell is the long string: its data pool
starts at `2^32`. -/
theorem not_offsetsSurvive : ∃ bytes, (cellTable longString).build = .ok bytes ∧
    ¬OffsetsSurvive (fun _ => "") (cellTable longString) bytes := by
  have hlen := length_longString
  have hne : longString ≠ "" := by
    intro hempty
    rw [hempty] at hlen
    exact absurd hlen (by decide)
  obtain ⟨p, hparts⟩ := parts_cellTable hne (by omega)
  refine ⟨_, build_of_parts hparts, not_offsetsSurvive_of_le hparts ?_⟩
  rw [dataPoolStart_cellTable hne]
  omega

end UtfTableBuilder

end CriArchive
