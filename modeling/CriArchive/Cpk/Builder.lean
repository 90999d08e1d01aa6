import Mathlib.Data.List.Forall2
import CriArchive.Cpk.Header
import CriArchive.Lib.Terminated

set_option relaxedAutoImplicit false
set_option autoImplicit false

/-!
# Building `@UTF` tables

`UtfTableBuilder` and `intern_string` of `cpk/writer.rs`: a table is built from named, typed
columns and rows of values. Strings go to one pool and are stored once; byte strings are
concatenated in a second pool; every cell is stored in the rows.

## Main definitions

* `UtfType`, `UtfColumn`, `UtfValue`, `UtfTableBuilder` — what a table is built from.
* `StringInterner`, `internString`, `internAll` — the string pool and its map.
* `DataPool`, `packCells` — the data pool and the locations in it.
* `UtfTableBuilder.build` — the serialiser.
* `UtfTableBuilder.skeleton` — a table without its numbers.

## Main results

* `UtfTableBuilder.build_eq_ok` — the parts of a table that was built.
* `UtfTableBuilder.length_build_skeleton` — the length of a table does not depend on its
  numbers.
* `UtfTableBuilder.length_build_le` — a bound on the length of a table.
-/

namespace CriArchive

/-! ## Columns and values -/

/-- The cell types the builder stores. -/
inductive UtfType where
  | uInt16
  | uInt32
  | uInt64
  | string
  | data
  deriving DecidableEq, Repr

namespace UtfType

/-- The type code, `as u8`. -/
def code : UtfType → UInt8
  | uInt16 => 2
  | uInt32 => 4
  | uInt64 => 6
  | string => 10
  | data => 11

/-- The number of bytes of a cell. -/
def size : UtfType → ℕ
  | uInt16 => 2
  | uInt32 | string => 4
  | uInt64 | data => 8

end UtfType

/-- A column: its name and the type of its cells. -/
structure UtfColumn where
  name : String
  valueType : UtfType
  deriving DecidableEq, Repr

/-- The value of a cell. -/
inductive UtfValue where
  | uInt16 (v : UInt16)
  | uInt32 (v : UInt32)
  | uInt64 (v : UInt64)
  | string (s : String)
  | data (bytes : List UInt8)
  deriving DecidableEq, Repr

/-- The type of a value. -/
def UtfValue.valueType : UtfValue → UtfType
  | uInt16 _ => .uInt16
  | uInt32 _ => .uInt32
  | uInt64 _ => .uInt64
  | string _ => .string
  | data _ => .data

/-- The name, schema and rows of a table to be built. -/
structure UtfTableBuilder where
  name : String
  columns : List UtfColumn
  rows : List (List UtfValue)
  deriving DecidableEq, Repr

/-- The error of a size or an offset that does not fit its field. -/
def arithmeticOverflow : Error := .writer .arithmeticOverflow

/-! ## Cells in order -/

/-- A cell with its row and column index. -/
abbrev UtfCell : Type := (ℕ × ℕ) × UtfValue

/-- The cells of the row `r`, from the column `c` on. -/
def rowCells (r : ℕ) : ℕ → List UtfValue → List UtfCell
  | _, [] => []
  | c, v :: vs => ((r, c), v) :: rowCells r (c + 1) vs

/-- The cells of the rows from the row `r` on, row by row. -/
def cellsFrom : ℕ → List (List UtfValue) → List UtfCell
  | _, [] => []
  | r, row :: rows => rowCells r 0 row ++ cellsFrom (r + 1) rows

/-- The string of a string cell. -/
def UtfValue.string? : UtfValue → Option String
  | string s => some s
  | _ => none

/-! ## The string pool -/

/-- The string pool under construction and the offset of every string in it
(`HashMap<String, u32>`, the last insertion first). -/
structure StringInterner where
  pool : List UInt8
  offsets : List (String × UInt32)
  deriving DecidableEq, Repr

/-- The pool that holds the empty string at offset zero, CRI's null string reference. -/
def StringInterner.initial : StringInterner := ⟨[0], [("", 0)]⟩

/-- `intern_string`: the offset of a string, which is appended to the pool at its first use. -/
def internString (value : String) (p : StringInterner) : Exec Error (UInt32 × StringInterner) :=
  match p.offsets.lookup value with
  | some offset => pure (offset, p)
  | none => do
    let offset ← Exec.okOr (UInt32.tryFrom p.pool.length) arithmeticOverflow
    pure (offset, ⟨p.pool ++ value.asBytes ++ [0], (value, offset) :: p.offsets⟩)

/-- Intern strings in sequence, returning their offsets. -/
def internAll : List String → StringInterner → Exec Error (List UInt32 × StringInterner)
  | [], p => pure ([], p)
  | s :: ss, p => do
    let first ← internString s p
    let others ← internAll ss first.2
    pure (first.1 :: others.1, others.2)

/-- A string is stored at an offset of a pool: its bytes lie there with a terminator, after a
closed part. -/
def StoredAt (pool : List UInt8) (s : String) (offset : UInt32) : Prop :=
  ∃ pre post, pool = pre ++ (s.asBytes ++ 0 :: post) ∧ Terminated.Closed 0 pre ∧
    offset.toNat = pre.length

/-- A stored string stays stored when the pool grows. -/
theorem StoredAt.mono {pool pool' : List UInt8} {s : String} {offset : UInt32}
    (h : StoredAt pool s offset) (hp : pool <+: pool') : StoredAt pool' s offset := by
  obtain ⟨pre, post, rfl, hpre, hoff⟩ := h
  obtain ⟨rest, rfl⟩ := hp
  exact ⟨pre, post ++ rest, by simp, hpre, hoff⟩

namespace StringInterner

/-- The invariant of the string pool: it is text, ends with a terminator, stores every mapped
string at its offset, and has only the empty string at offset zero. -/
structure Valid (p : StringInterner) : Prop where
  text : ∃ cs : List Char, p.pool = Utf8.encode cs
  closed : p.pool ≠ [] ∧ Terminated.Closed 0 p.pool
  stored : ∀ s offset, p.offsets.lookup s = some offset → StoredAt p.pool s offset
  null : ∀ s offset, p.offsets.lookup s = some offset → (offset = 0 ↔ s = "")
  nullMapped : p.offsets.lookup "" = some 0

/-- The pool `q` extends `p`: no byte and no offset changed. -/
structure Extends (p q : StringInterner) : Prop where
  pool : p.pool <+: q.pool
  offsets : ∀ s offset, p.offsets.lookup s = some offset → q.offsets.lookup s = some offset

/-- A pool extends itself. -/
theorem Extends.refl (p : StringInterner) : Extends p p :=
  ⟨List.prefix_refl _, fun _ _ h => h⟩

/-- Extensions compose. -/
theorem Extends.trans {p q r : StringInterner} (h₁ : Extends p q) (h₂ : Extends q r) :
    Extends p r :=
  ⟨h₁.pool.trans h₂.pool, fun s o h => h₂.offsets s o (h₁.offsets s o h)⟩

/-- The pool that the builder starts with satisfies the invariant. -/
theorem valid_initial : Valid initial where
  text := ⟨['\x00'], rfl⟩
  closed := ⟨by simp [initial], Or.inr rfl⟩
  stored s offset h := by
    simp only [initial, List.lookup_cons, List.lookup_nil] at h
    split at h
    · rename_i hs
      obtain rfl := Option.some.inj h
      obtain rfl := eq_of_beq hs
      exact ⟨[], [], rfl, Or.inl rfl, rfl⟩
    · cases h
  null s offset h := by
    simp only [initial, List.lookup_cons, List.lookup_nil] at h
    split at h
    · rename_i hs
      exact iff_of_true (Option.some.inj h).symm (eq_of_beq hs)
    · cases h
  nullMapped := rfl

end StringInterner

open StringInterner

/-- **Interning a string** keeps the invariant, only extends the pool, and returns the offset
that the pool maps the string to.

**Proof sketch.** A string that is mapped is returned as it is. A new one is put at the end of the
pool, followed by a terminator: the old bytes stay, so that what is mapped stays stored; its offset
is the old length, which is not zero as the pool starts with the empty string. -/
theorem internString_spec {s : String} {p : StringInterner} {r : UInt32 × StringInterner}
    (hp : p.Valid) (h : internString s p = .ok r) :
    r.2.Valid ∧ Extends p r.2 ∧ r.2.offsets.lookup s = some r.1 := by
  unfold internString at h
  split at h
  case h_1 offset hs =>
    obtain rfl := Exec.ok.inj h
    exact ⟨hp, .refl p, hs⟩
  case h_2 hs =>
    rw [Exec.bind_eq_ok] at h
    obtain ⟨offset, hoffset, h⟩ := h
    rw [Exec.okOr_eq_ok, UInt32.tryFrom_eq_some] at hoffset
    obtain rfl := Exec.ok.inj h
    have hhead : p.pool <+: p.pool ++ s.asBytes ++ [0] :=
      (List.prefix_append _ _).trans (List.prefix_append _ _)
    have hkeep : ∀ t o, p.offsets.lookup t = some o →
        ((s, offset) :: p.offsets).lookup t = some o := by
      intro t o ht
      have hne : t ≠ s := by
        rintro rfl
        rw [hs] at ht
        cases ht
      rw [List.lookup_cons, beq_false_of_ne hne]
      exact ht
    refine ⟨⟨?_, ?_, ?_, ?_, ?_⟩, ⟨hhead, hkeep⟩, List.lookup_cons_self⟩
    · obtain ⟨cs, hcs⟩ := hp.text
      refine ⟨cs ++ (s.toList ++ ['\x00']), ?_⟩
      simp [hcs, String.asBytes]
    · exact ⟨by simp, by rw [List.append_assoc]; exact Terminated.closed_append _ _⟩
    · intro t o ht
      rw [List.lookup_cons] at ht
      split at ht
      · rename_i hts
        obtain rfl := eq_of_beq hts
        obtain rfl := Option.some.inj ht
        exact ⟨p.pool, [], by simp, hp.closed.2, hoffset⟩
      · exact (hp.stored t o ht).mono hhead
    · intro t o ht
      rw [List.lookup_cons] at ht
      split at ht
      · rename_i hts
        obtain rfl := eq_of_beq hts
        obtain rfl := Option.some.inj ht
        -- the pool is not empty, and the empty string was already mapped
        have hpos := List.length_pos_iff.mpr hp.closed.1
        apply iff_of_false
        · rintro rfl
          simp at hoffset
          omega
        · rintro rfl
          rw [hp.nullMapped] at hs
          cases hs
      · exact hp.null t o ht
    · exact hkeep _ _ hp.nullMapped

/-- **Interning strings in sequence** keeps the invariant, only extends the pool, and returns the
offset of each. -/
theorem internAll_spec {ss : List String} {p : StringInterner} {r : List UInt32 × StringInterner}
    (hp : p.Valid) (h : internAll ss p = .ok r) :
    r.2.Valid ∧ Extends p r.2 ∧
      List.Forall₂ (fun s offset => r.2.offsets.lookup s = some offset) ss r.1 := by
  induction ss generalizing p r with
  | nil =>
    obtain rfl := Exec.ok.inj h
    exact ⟨hp, .refl p, .nil⟩
  | cons s ss ih =>
    unfold internAll at h
    simp only [Exec.bind_eq_ok] at h
    obtain ⟨first, hfirst, others, hothers, h⟩ := h
    obtain rfl := Exec.ok.inj h
    obtain ⟨hvalid, hext, hs⟩ := internString_spec hp hfirst
    obtain ⟨hvalid', hext', hss⟩ := ih hvalid hothers
    exact ⟨hvalid', hext.trans hext', .cons (hext'.offsets _ _ hs) hss⟩

/-! ## The data pool -/

/-- The data pool under construction and the location of every data cell in it, the last one
first. -/
structure DataPool where
  pool : List UInt8
  locations : List ((ℕ × ℕ) × (UInt32 × UInt32))
  deriving DecidableEq, Repr

/-- Append the bytes of the data cells to the pool, in order. -/
def packCells : List UtfCell → DataPool → Exec Error DataPool
  | [], d => pure d
  | (key, .data bytes) :: cells, d => do
    let offset ← Exec.okOr (UInt32.tryFrom d.pool.length) arithmeticOverflow
    let length ← Exec.okOr (UInt32.tryFrom bytes.length) arithmeticOverflow
    packCells cells ⟨d.pool ++ bytes, (key, (offset, length)) :: d.locations⟩
  | _ :: cells, d => packCells cells d

/-- A data cell's location holds its bytes. -/
def DataPool.Holds (d : DataPool) (key : ℕ × ℕ) (bytes : List UInt8) : Prop :=
  ∃ offset length : UInt32, d.locations.lookup key = some (offset, length) ∧
    length.toNat = bytes.length ∧ window d.pool offset.toNat length.toNat = bytes ∧
    offset.toNat + length.toNat ≤ d.pool.length

/-- **Packing data cells** with pairwise distinct keys keeps what is packed and adds every cell's
bytes at its location.

**Proof sketch.** Induction on the cells. A data cell is put at the end of the pool, where later
cells do not move it; as keys are distinct, no later cell takes its place. Other cells leave the
pool. -/
theorem packCells_spec {cells : List UtfCell} {d r : DataPool} (h : packCells cells d = .ok r)
    (hnodup : (cells.map Prod.fst).Nodup) :
    (∀ key bytes, d.Holds key bytes → key ∉ cells.map Prod.fst → r.Holds key bytes) ∧
      ∀ key bytes, (key, UtfValue.data bytes) ∈ cells → r.Holds key bytes := by
  induction cells generalizing d with
  | nil =>
    obtain rfl := Exec.ok.inj h
    exact ⟨fun key bytes hd _ => hd, fun key bytes hmem => absurd hmem (by simp)⟩
  | cons cell cells ih =>
    obtain ⟨key, v⟩ := cell
    rw [List.map_cons, List.nodup_cons] at hnodup
    obtain ⟨hnew, hnodup⟩ := hnodup
    cases v with
    | data bytes =>
      unfold packCells at h
      simp only [Exec.bind_eq_ok, Exec.okOr_eq_ok, UInt32.tryFrom_eq_some] at h
      obtain ⟨offset, hoffset, length, hlength, h⟩ := h
      obtain ⟨hkeep, hadd⟩ := ih h hnodup
      -- the new cell, before the rest is packed
      have hhere : DataPool.Holds ⟨d.pool ++ bytes, (key, (offset, length)) :: d.locations⟩ key
          bytes := by
        refine ⟨offset, length, List.lookup_cons_self, hlength, ?_, by simp [hoffset, hlength]⟩
        rw [hoffset, hlength]
        simpa using window_append_middle d.pool bytes []
      refine ⟨fun k bs hd hk => ?_, fun k bs hmem => ?_⟩
      · simp only [List.map_cons, List.mem_cons, not_or] at hk
        obtain ⟨o, l, hlookup, hl, hw, hle⟩ := hd
        refine hkeep k bs ⟨o, l, ?_, hl, ?_, by simp only [List.length_append]; omega⟩ hk.2
        · rw [List.lookup_cons, beq_false_of_ne hk.1]
          exact hlookup
        · rw [window_append_left hle]
          exact hw
      · rcases List.mem_cons.mp hmem with heq | hmem
        · simp only [Prod.mk.injEq, UtfValue.data.injEq] at heq
          obtain ⟨rfl, rfl⟩ := heq
          exact hkeep _ _ hhere hnew
        · exact hadd k bs hmem
    | uInt16 v | uInt32 v | uInt64 v | string v =>
      obtain ⟨hkeep, hadd⟩ := ih h hnodup
      refine ⟨fun k bs hd hk => hkeep k bs hd (by simp at hk ⊢; tauto), fun k bs hmem => ?_⟩
      rcases List.mem_cons.mp hmem with heq | hmem
      · simp at heq
      · exact hadd k bs hmem

/-! ### Keys -/

/-- The keys of a row's cells: its index, and the columns from `c` on. -/
theorem mem_rowCells {r c : ℕ} {row : List UtfValue} {cell : UtfCell} :
    cell ∈ rowCells r c row ↔ ∃ j, row[j]? = some cell.2 ∧ cell.1 = (r, c + j) := by
  induction row generalizing c with
  | nil => simp [rowCells]
  | cons v vs ih =>
    rw [rowCells, List.mem_cons, ih]
    constructor
    · rintro (rfl | ⟨j, hj, hkey⟩)
      · exact ⟨0, rfl, rfl⟩
      · exact ⟨j + 1, hj, by rw [hkey, Nat.add_assoc, Nat.add_comm 1]⟩
    · rintro ⟨_ | j, hj, hkey⟩
      · exact Or.inl (Prod.ext hkey (Option.some.inj hj).symm)
      · exact Or.inr ⟨j, hj, by rw [hkey, Nat.add_assoc, Nat.add_comm 1]⟩

/-- The keys of a table's cells: the row indices from `r` on, and the column indices. -/
theorem mem_cellsFrom {r : ℕ} {rows : List (List UtfValue)} {cell : UtfCell} :
    cell ∈ cellsFrom r rows ↔
      ∃ i row j, rows[i]? = some row ∧ row[j]? = some cell.2 ∧ cell.1 = (r + i, j) := by
  induction rows generalizing r with
  | nil => simp [cellsFrom]
  | cons row rows ih =>
    rw [cellsFrom, List.mem_append, ih, mem_rowCells]
    constructor
    · rintro (⟨j, hj, hkey⟩ | ⟨i, row', j, hi, hj, hkey⟩)
      · exact ⟨0, row, j, rfl, hj, by simpa using hkey⟩
      · exact ⟨i + 1, row', j, hi, hj, by rw [hkey, Nat.add_assoc, Nat.add_comm 1]⟩
    · rintro ⟨_ | i, row', j, hi, hj, hkey⟩
      · obtain rfl := Option.some.inj hi
        exact Or.inl ⟨j, hj, by simpa using hkey⟩
      · exact Or.inr ⟨i, row', j, hi, hj, by rw [hkey, Nat.add_assoc, Nat.add_comm 1]⟩

/-- The cells of a row have different places. -/
theorem nodup_rowCells (r c : ℕ) (row : List UtfValue) :
    ((rowCells r c row).map Prod.fst).Nodup := by
  induction row generalizing c with
  | nil => simp [rowCells]
  | cons v vs ih =>
    rw [rowCells, List.map_cons, List.nodup_cons]
    refine ⟨fun hmem => ?_, ih (c + 1)⟩
    obtain ⟨cell, hcell, hkey⟩ := List.mem_map.mp hmem
    obtain ⟨j, -, hj⟩ := mem_rowCells.mp hcell
    rw [hkey, Prod.mk.injEq] at hj
    omega

/-- No two cells of a table have the same key. -/
theorem nodup_cellsFrom (r : ℕ) (rows : List (List UtfValue)) :
    ((cellsFrom r rows).map Prod.fst).Nodup := by
  induction rows generalizing r with
  | nil => simp [cellsFrom]
  | cons row rows ih =>
    rw [cellsFrom, List.map_append, List.nodup_append]
    refine ⟨nodup_rowCells _ _ _, ih _, ?_⟩
    rintro key hkey key' hkey' rfl
    obtain ⟨cell, hcell, rfl⟩ := List.mem_map.mp hkey
    obtain ⟨cell', hcell', heq⟩ := List.mem_map.mp hkey'
    obtain ⟨j, -, hj⟩ := mem_rowCells.mp hcell
    obtain ⟨i, row', j', -, -, hj'⟩ := mem_cellsFrom.mp hcell'
    rw [heq, hj, Prod.mk.injEq] at hj'
    omega

/-! ## Serialisation -/

/-- The bytes of a cell. -/
def encodeCell (offsets : List (String × UInt32))
    (locations : List ((ℕ × ℕ) × (UInt32 × UInt32))) : UtfCell → Exec Error (List UInt8)
  | (_, .uInt16 v) => pure (toBeBytesU16 v)
  | (_, .uInt32 v) => pure (toBeBytesU32 v)
  | (_, .uInt64 v) => pure (toBeBytesU64 v)
  | (_, .string s) => do
    let offset ← Exec.okOr (offsets.lookup s) arithmeticOverflow
    pure (toBeBytesU32 offset)
  | (key, .data _) => do
    let location ← Exec.okOr (locations.lookup key) arithmeticOverflow
    pure (toBeBytesU32 location.1 ++ toBeBytesU32 location.2)

/-- The bytes of cells, one after another. -/
def encodeCells (offsets : List (String × UInt32))
    (locations : List ((ℕ × ℕ) × (UInt32 × UInt32))) : List UtfCell → Exec Error (List UInt8)
  | [] => pure []
  | cell :: cells => do
    let bytes ← encodeCell offsets locations cell
    let others ← encodeCells offsets locations cells
    pure (bytes ++ others)

section Encode

variable {offsets : List (String × UInt32)} {locations : List ((ℕ × ℕ) × (UInt32 × UInt32))}

/-- A cell has the number of bytes of its type. -/
theorem length_encodeCell {cell : UtfCell} {bytes : List UInt8}
    (h : encodeCell offsets locations cell = .ok bytes) :
    bytes.length = cell.2.valueType.size := by
  obtain ⟨key, v⟩ := cell
  cases v with
  | uInt16 v | uInt32 v | uInt64 v =>
    obtain rfl := Exec.ok.inj h
    simp [UtfValue.valueType, UtfType.size]
  | string s | data bs =>
    simp only [encodeCell, Exec.bind_eq_ok] at h
    obtain ⟨_, -, h⟩ := h
    obtain rfl := Exec.ok.inj h
    simp [UtfValue.valueType, UtfType.size]

/-- Cells are encoded one after the other. -/
theorem encodeCells_append {xs ys : List UtfCell} {out : List UInt8}
    (h : encodeCells offsets locations (xs ++ ys) = .ok out) :
    ∃ bs cs, encodeCells offsets locations xs = .ok bs ∧
      encodeCells offsets locations ys = .ok cs ∧ out = bs ++ cs := by
  induction xs generalizing out with
  | nil => exact ⟨[], out, rfl, h, rfl⟩
  | cons x xs ih =>
    rw [List.cons_append, encodeCells] at h
    simp only [Exec.bind_eq_ok] at h
    obtain ⟨b, hb, others, hothers, h⟩ := h
    obtain rfl := Exec.ok.inj h
    obtain ⟨bs, cs, hbs, hcs, rfl⟩ := ih hothers
    exact ⟨b ++ bs, cs, by rw [encodeCells, hb, Exec.ok_bind, hbs]; rfl, hcs, by simp⟩

/-- The bytes of a row are its cells' bytes, one after another. -/
theorem encodeCells_rowCells {r c : ℕ} {row : List UtfValue} {out : List UInt8}
    (h : encodeCells offsets locations (rowCells r c row) = .ok out) :
    ∃ cells : List (List UInt8), out = cells.flatten ∧ cells.length = row.length ∧
      ∀ j v, row[j]? = some v →
        ∃ bs, cells[j]? = some bs ∧ encodeCell offsets locations ((r, c + j), v) = .ok bs := by
  induction row generalizing c out with
  | nil =>
    obtain rfl := Exec.ok.inj h
    exact ⟨[], rfl, rfl, fun j v hv => by simp at hv⟩
  | cons v vs ih =>
    rw [rowCells, encodeCells] at h
    simp only [Exec.bind_eq_ok] at h
    obtain ⟨b, hb, others, hothers, h⟩ := h
    obtain rfl := Exec.ok.inj h
    obtain ⟨cells, rfl, hlen, hcells⟩ := ih hothers
    refine ⟨b :: cells, rfl, by simp [hlen], fun j w hw => ?_⟩
    rcases j with _ | j
    · obtain rfl := Option.some.inj hw
      exact ⟨b, rfl, hb⟩
    · obtain ⟨bs, hbs, henc⟩ := hcells j w hw
      exact ⟨bs, hbs, by rwa [Nat.add_comm j, ← Nat.add_assoc]⟩

/-- **The bytes of the rows.** Every row has the width of the schema, so the bytes of a row's
cells lie at the row index times that width.

**Proof sketch.** Induction on the rows: the bytes of the first row have the width, so that those of
the others start behind it, one row index later. -/
theorem encodeCells_cellsFrom {width r : ℕ} {rows : List (List UtfValue)} {out : List UInt8}
    (hwidth : ∀ row ∈ rows, (row.map fun v => v.valueType.size).sum = width)
    (h : encodeCells offsets locations (cellsFrom r rows) = .ok out) :
    out.length = width * rows.length ∧ ∀ i row, rows[i]? = some row →
      ∃ (cells : List (List UInt8)) (rest : List UInt8),
        out.drop (i * width) = cells.flatten ++ rest ∧ cells.length = row.length ∧
        ∀ j v, row[j]? = some v →
          ∃ bs, cells[j]? = some bs ∧ encodeCell offsets locations ((r + i, j), v) = .ok bs := by
  induction rows generalizing r out with
  | nil =>
    obtain rfl := Exec.ok.inj h
    exact ⟨rfl, fun i row hrow => by simp at hrow⟩
  | cons row rows ih =>
    rw [cellsFrom] at h
    obtain ⟨bs, cs, hbs, hcs, rfl⟩ := encodeCells_append h
    obtain ⟨hlen, hrest⟩ := ih (fun r hr => hwidth r (List.mem_cons_of_mem _ hr)) hcs
    obtain ⟨cells, rfl, hcells, henc⟩ := encodeCells_rowCells hbs
    have hrow : cells.flatten.length = width := by
      rw [← hwidth row (List.mem_cons_self ..), List.length_flatten]
      congr 1
      refine List.ext_getElem (by simp [hcells]) fun j h₁ h₂ => ?_
      simp only [List.length_map] at h₁ h₂
      obtain ⟨b, hb, henc⟩ := henc j row[j] (List.getElem?_eq_getElem h₂)
      obtain ⟨_, rfl⟩ := List.getElem?_eq_some_iff.mp hb
      simpa using length_encodeCell henc
    refine ⟨by simp only [List.length_append, hrow, hlen, List.length_cons, Nat.mul_succ]; omega,
      fun i row' hrow' => ?_⟩
    rcases i with _ | i
    · obtain rfl := Option.some.inj hrow'
      exact ⟨cells, cs, by simp, hcells, fun j v hv => by simpa using henc j v hv⟩
    · obtain ⟨cells', rest, hdrop, hlen', henc'⟩ := hrest i row' hrow'
      refine ⟨cells', rest, ?_, hlen', fun j v hv => ?_⟩
      · rw [Nat.succ_mul, Nat.add_comm, ← List.drop_drop, List.drop_left' hrow]
        exact hdrop
      · rw [← Nat.add_assoc, Nat.add_right_comm]
        exact henc' j v hv

end Encode

/-- The schema entry of a column: named and stored in the rows. -/
def encodeColumn (column : UtfColumn) (nameOffset : UInt32) : List UInt8 :=
  (0x50 ||| column.valueType.code) :: toBeBytesU32 nameOffset

/-- The section starts and the size of a table. -/
structure TableLayout where
  rowsStart : ℕ
  stringPoolStart : ℕ
  dataPoolStart : ℕ
  totalSize : ℕ
  deriving DecidableEq, Repr

/-- The header fields of a table that were range-checked. -/
structure TableFields where
  tableSize : UInt32
  rowsOffset : UInt16
  stringPoolOffset : UInt32
  dataPoolOffset : UInt32
  deriving DecidableEq, Repr

namespace UtfTableBuilder

variable (b : UtfTableBuilder)

/-- The cells in row order. -/
def cells : List UtfCell := cellsFrom 0 b.rows

/-- The number of bytes of a row. -/
def rowWidth : ℕ := (b.columns.map fun column => column.valueType.size).sum

/-- The strings of the cells in row order. -/
def cellStrings : List String := b.cells.filterMap fun cell => cell.2.string?

/-- Every row must have a value of the right type for each column. -/
def checkRows (columns : List UtfColumn) : List (List UtfValue) → Exec Error Unit
  | [] => pure ()
  | row :: rows => do
    Exec.errIf (row.length ≠ columns.length) arithmeticOverflow
    Exec.errIf (∃ vc ∈ row.zip columns, vc.1.valueType ≠ vc.2.valueType) arithmeticOverflow
    checkRows columns rows

/-- The layout of a table with pools of the given lengths. -/
def layout (stringsLen dataLen : ℕ) : Exec Error TableLayout := do
  let columnBytes ← Exec.okOr (Nat.checkedMul64 b.columns.length 5) arithmeticOverflow
  let rowsStart ← Exec.okOr (Nat.checkedAdd64 0x20 columnBytes) arithmeticOverflow
  let rowsBytes ← Exec.okOr (Nat.checkedMul64 b.rowWidth b.rows.length) arithmeticOverflow
  let stringPoolStart ← Exec.okOr (Nat.checkedAdd64 rowsStart rowsBytes) arithmeticOverflow
  let dataPoolStart ← Exec.okOr (Nat.checkedAdd64 stringPoolStart stringsLen) arithmeticOverflow
  let totalSize ← Exec.okOr (Nat.checkedAdd64 dataPoolStart dataLen) arithmeticOverflow
  pure ⟨rowsStart, stringPoolStart, dataPoolStart, totalSize⟩

/-- The header fields of a layout: sizes and offsets less 8, when they fit. -/
def fields (l : TableLayout) : Exec Error TableFields := do
  let tableSize ← Exec.okOr (UInt32.tryFrom (l.totalSize - 8)) arithmeticOverflow
  let rowsOffset ← Exec.okOr (UInt16.tryFrom (l.rowsStart - 8)) arithmeticOverflow
  let stringPoolOffset ← Exec.okOr (UInt32.tryFrom (l.stringPoolStart - 8)) arithmeticOverflow
  let dataPoolOffset ← Exec.okOr (UInt32.tryFrom (l.dataPoolStart - 8)) arithmeticOverflow
  pure ⟨tableSize, rowsOffset, stringPoolOffset, dataPoolOffset⟩

/-- The fields of the header in order: signature, size, version, encoding (UTF-8), section
offsets, the offset of the table's name and the counts. -/
def headerFields (f : TableFields) (tableNameOffset : UInt32) (columnCount rowSize : UInt16)
    (rowCount : UInt32) : List (List UInt8) :=
  [utfSignature, toBeBytesU32 f.tableSize, [0], [1], toBeBytesU16 f.rowsOffset,
    toBeBytesU32 f.stringPoolOffset, toBeBytesU32 f.dataPoolOffset, toBeBytesU32 tableNameOffset,
    toBeBytesU16 columnCount, toBeBytesU16 rowSize, toBeBytesU32 rowCount]

/-- The 32 header bytes. -/
def encodeHeader (f : TableFields) (tableNameOffset : UInt32) (columnCount rowSize : UInt16)
    (rowCount : UInt32) : List UInt8 :=
  (headerFields f tableNameOffset columnCount rowSize rowCount).flatten

/-- The parts of a table, computed before any byte is put out. -/
structure Parts where
  columnCount : UInt16
  rowCount : UInt32
  rowSize : UInt16
  tableName : UInt32 × StringInterner
  columnNames : List UInt32 × StringInterner
  cellNames : List UInt32 × StringInterner
  data : DataPool
  layout : TableLayout
  fields : TableFields
  rowBytes : List UInt8

/-- The checks and the pools of `UtfTableBuilder::build`, in its order. -/
def parts : Exec Error Parts := do
  let columnCount ← Exec.okOr (UInt16.tryFrom b.columns.length) arithmeticOverflow
  let rowCount ← Exec.okOr (UInt32.tryFrom b.rows.length) arithmeticOverflow
  let rowSize ← Exec.okOr (UInt16.tryFrom b.rowWidth) arithmeticOverflow
  checkRows b.columns b.rows
  let tableName ← internString b.name .initial
  let columnNames ← internAll (b.columns.map UtfColumn.name) tableName.2
  let cellNames ← internAll b.cellStrings columnNames.2
  let data ← packCells b.cells ⟨[], []⟩
  let l ← b.layout cellNames.2.pool.length data.pool.length
  let f ← fields l
  let rowBytes ← encodeCells cellNames.2.offsets data.locations b.cells
  pure ⟨columnCount, rowCount, rowSize, tableName, columnNames, cellNames, data, l, f, rowBytes⟩

/-- The bytes of a table: header, schema, rows, strings, data. -/
def Parts.bytes (p : Parts) (columns : List UtfColumn) : List UInt8 :=
  encodeHeader p.fields p.tableName.1 p.columnCount p.rowSize p.rowCount ++
    ((List.zipWith encodeColumn columns p.columnNames.1).flatten ++
      (p.rowBytes ++ (p.cellNames.2.pool ++ p.data.pool)))

/-- `UtfTableBuilder::build`: serialise the table. -/
def build : Exec Error (List UInt8) := do
  let p ← b.parts
  -- `debug_assert_eq!(output.len(), total_size)`
  if (p.bytes b.columns).length = p.layout.totalSize then pure (p.bytes b.columns) else .fault

/-! ## What was checked -/

/-- What the checks of `parts` settle about its result. -/
structure Parts.Checked (p : Parts) : Prop where
  columnCount : p.columnCount.toNat = b.columns.length
  rowCount : p.rowCount.toNat = b.rows.length
  rowSize : p.rowSize.toNat = b.rowWidth
  rows : checkRows b.columns b.rows = .ok ()
  tableName : internString b.name .initial = .ok p.tableName
  columnNames : internAll (b.columns.map UtfColumn.name) p.tableName.2 = .ok p.columnNames
  cellNames : internAll b.cellStrings p.columnNames.2 = .ok p.cellNames
  data : packCells b.cells ⟨[], []⟩ = .ok p.data
  layout : b.layout p.cellNames.2.pool.length p.data.pool.length = .ok p.layout
  fields : UtfTableBuilder.fields p.layout = .ok p.fields
  rowBytes : encodeCells p.cellNames.2.offsets p.data.locations b.cells = .ok p.rowBytes

variable {b}

/-- The parts of a table that was assembled passed the checks. -/
theorem checked_of_parts {p : Parts} (h : b.parts = .ok p) : p.Checked b := by
  unfold parts at h
  simp only [Exec.bind_eq_ok, Exec.okOr_eq_ok] at h
  obtain ⟨columnCount, hcolumns, rowCount, hrows, rowSize, hwidth, u, hcheck, tableName, hname,
    columnNames, hcolumnNames, cellNames, hcellNames, data, hdata, l, hlayout, f, hfields,
    rowBytes, hrowBytes, h⟩ := h
  obtain rfl := Exec.ok.inj h
  exact ⟨UInt16.tryFrom_eq_some.mp hcolumns, UInt32.tryFrom_eq_some.mp hrows,
    UInt16.tryFrom_eq_some.mp hwidth, hcheck, hname, hcolumnNames, hcellNames, hdata, hlayout,
    hfields, hrowBytes⟩

/-- **A table that was built** is the bytes of its checked parts, of the planned length. -/
theorem build_eq_ok {bytes : List UInt8} (h : b.build = .ok bytes) :
    ∃ p : Parts, p.Checked b ∧ bytes = p.bytes b.columns ∧ bytes.length = p.layout.totalSize := by
  unfold build at h
  rw [Exec.bind_eq_ok] at h
  obtain ⟨p, hp, h⟩ := h
  split_ifs at h with hlen
  obtain rfl := Exec.ok.inj h
  exact ⟨p, checked_of_parts hp, rfl, hlen⟩

/-- The sections of a layout follow one another without a gap. -/
theorem layout_eq_ok {stringsLen dataLen : ℕ} {l : TableLayout}
    (h : b.layout stringsLen dataLen = .ok l) :
    l.rowsStart = 0x20 + b.columns.length * 5 ∧
      l.stringPoolStart = l.rowsStart + b.rowWidth * b.rows.length ∧
      l.dataPoolStart = l.stringPoolStart + stringsLen ∧
      l.totalSize = l.dataPoolStart + dataLen ∧ l.totalSize < 2 ^ 64 := by
  unfold layout at h
  simp only [Exec.bind_eq_ok, Exec.okOr_eq_ok, Nat.checkedAdd64_eq_some,
    Nat.checkedMul64_eq_some] at h
  obtain ⟨_, ⟨-, rfl⟩, _, ⟨-, rfl⟩, _, ⟨-, rfl⟩, _, ⟨-, rfl⟩, _, ⟨-, rfl⟩, _, ⟨h64, rfl⟩, h⟩ := h
  obtain rfl := Exec.ok.inj h
  exact ⟨rfl, rfl, rfl, rfl, h64⟩

/-- The header fields hold the layout, less 8. -/
theorem fields_eq_ok {l : TableLayout} {f : TableFields} (h : fields l = .ok f) :
    f.tableSize.toNat = l.totalSize - 8 ∧ f.rowsOffset.toNat = l.rowsStart - 8 ∧
      f.stringPoolOffset.toNat = l.stringPoolStart - 8 ∧
      f.dataPoolOffset.toNat = l.dataPoolStart - 8 := by
  unfold fields at h
  simp only [Exec.bind_eq_ok, Exec.okOr_eq_ok, UInt32.tryFrom_eq_some,
    UInt16.tryFrom_eq_some] at h
  obtain ⟨tableSize, h₁, rowsOffset, h₂, stringPoolOffset, h₃, dataPoolOffset, h₄, h⟩ := h
  obtain rfl := Exec.ok.inj h
  exact ⟨h₁, h₂, h₃, h₄⟩

/-- The rows of a checked table have a value of the right type for each column. -/
theorem checkRows_eq_ok {columns : List UtfColumn} {rows : List (List UtfValue)}
    (h : checkRows columns rows = .ok ()) :
    ∀ row ∈ rows, List.Forall₂ (fun v c => UtfValue.valueType v = UtfColumn.valueType c) row
      columns := by
  induction rows with
  | nil => simp
  | cons row rows ih =>
    unfold checkRows at h
    simp only [Exec.bind_eq_ok, Exec.errIf_eq_ok] at h
    obtain ⟨-, hlen, -, htypes, h⟩ := h
    intro r hr
    rcases List.mem_cons.mp hr with rfl | hr
    · refine List.forall₂_iff_zip.mpr ⟨not_not.mp hlen, fun hvc => ?_⟩
      by_contra hne
      exact htypes ⟨_, hvc, hne⟩
    · exact ih h r hr

end UtfTableBuilder

/-! ## Tables without their numbers -/

/-- A value with its number, if it is one, replaced by zero. -/
def UtfValue.skeleton : UtfValue → UtfValue
  | uInt16 _ => uInt16 0
  | uInt32 _ => uInt32 0
  | uInt64 _ => uInt64 0
  | string s => string s
  | data bytes => data bytes

/-- A table with its numbers replaced by zeros. -/
def UtfTableBuilder.skeleton (b : UtfTableBuilder) : UtfTableBuilder :=
  { b with rows := b.rows.map fun row => row.map UtfValue.skeleton }

/-- Without the numbers of a row, its cells lose theirs. -/
theorem rowCells_skeleton (r c : ℕ) (row : List UtfValue) :
    rowCells r c (row.map UtfValue.skeleton) =
      (rowCells r c row).map fun cell => (cell.1, cell.2.skeleton) := by
  induction row generalizing c with
  | nil => rfl
  | cons v vs ih => simp [rowCells, ih]

/-- Without the numbers of the rows, the cells lose theirs. -/
theorem cellsFrom_skeleton (r : ℕ) (rows : List (List UtfValue)) :
    cellsFrom r (rows.map fun row => row.map UtfValue.skeleton) =
      (cellsFrom r rows).map fun cell => (cell.1, cell.2.skeleton) := by
  induction rows generalizing r with
  | nil => rfl
  | cons row rows ih => simp [cellsFrom, rowCells_skeleton, ih]

/-- The data pool does not depend on the numbers. -/
theorem packCells_skeleton (cells : List UtfCell) (d : DataPool) :
    packCells (cells.map fun cell => (cell.1, cell.2.skeleton)) d = packCells cells d := by
  induction cells generalizing d with
  | nil => rfl
  | cons cell cells ih =>
    obtain ⟨key, v⟩ := cell
    cases v with
    | uInt16 v | uInt32 v | uInt64 v | string v => exact ih d
    | data bytes =>
      change packCells ((key, .data bytes) :: _) d = _
      rw [packCells, packCells]
      simp only [ih]

namespace UtfTableBuilder

/-- The strings do not depend on the numbers. -/
theorem cellStrings_skeleton (b : UtfTableBuilder) : b.skeleton.cellStrings = b.cellStrings := by
  rw [cellStrings, cellStrings, cells, cells, skeleton, cellsFrom_skeleton, List.filterMap_map]
  congr 1
  funext cell
  obtain ⟨key, v⟩ := cell
  cases v <;> rfl

/-- **The length of a table does not depend on its numbers**: two tables that were built and agree
but for their numbers have the same length.

**Proof sketch.** The strings and the data of two tables with one skeleton are the same, and so are
the pools that are built from them; the layout only counts columns, rows and pools. -/
theorem length_build_skeleton {b b' : UtfTableBuilder} {bytes bytes' : List UInt8}
    (h : b.build = .ok bytes) (h' : b'.build = .ok bytes') (hb : b.skeleton = b'.skeleton) :
    bytes.length = bytes'.length := by
  obtain ⟨p, hp, -, hlen⟩ := build_eq_ok h
  obtain ⟨p', hp', -, hlen'⟩ := build_eq_ok h'
  have hname : b.name = b'.name := congrArg (·.name) hb
  have hcolumns : b.columns = b'.columns := congrArg (·.columns) hb
  have hrows : b.rows.length = b'.rows.length := by
    simpa [skeleton] using congrArg (·.rows.length) hb
  have hstrings : b.cellStrings = b'.cellStrings := by
    rw [← cellStrings_skeleton b, hb, cellStrings_skeleton]
  have hdata : packCells b.cells ⟨[], []⟩ = packCells b'.cells ⟨[], []⟩ := by
    rw [cells, cells, ← packCells_skeleton, ← cellsFrom_skeleton, ← packCells_skeleton (cellsFrom 0
      b'.rows), ← cellsFrom_skeleton]
    exact congrArg (fun x => packCells (cellsFrom 0 x.rows) ⟨[], []⟩) hb
  have htable : p.tableName = p'.tableName := by
    have := hp.tableName
    rw [hname, hp'.tableName] at this
    exact (Exec.ok.inj this).symm
  have hcolumnNames : p.columnNames = p'.columnNames := by
    have := hp.columnNames
    rw [hcolumns, htable, hp'.columnNames] at this
    exact (Exec.ok.inj this).symm
  have hcellNames : p.cellNames = p'.cellNames := by
    have := hp.cellNames
    rw [hstrings, hcolumnNames, hp'.cellNames] at this
    exact (Exec.ok.inj this).symm
  have hpool : p.data = p'.data := by
    have := hp.data
    rw [hdata, hp'.data] at this
    exact (Exec.ok.inj this).symm
  obtain ⟨h₁, h₂, h₃, h₄, -⟩ := layout_eq_ok hp.layout
  obtain ⟨h₁', h₂', h₃', h₄', -⟩ := layout_eq_ok hp'.layout
  have hwidth : b.rowWidth = b'.rowWidth := by rw [rowWidth, rowWidth, hcolumns]
  rw [hlen, hlen', h₄, h₃, h₂, h₁, h₄', h₃', h₂', h₁', hcellNames, hpool, hwidth, hrows, hcolumns]

/-! ## Bounds on the length of a table -/

/-- The pool bytes that a list of strings needs. -/
def poolBytes (ss : List String) : ℕ := (ss.map fun s => s.asBytes.length + 1).sum

/-- The number of bytes of a data cell. -/
def dataBytes : UtfCell → ℕ
  | (_, .data bytes) => bytes.length
  | _ => 0

/-- Interning a string adds it and its terminator at most. -/
theorem length_pool_internString {s : String} {p : StringInterner} {r : UInt32 × StringInterner}
    (h : internString s p = .ok r) : r.2.pool.length ≤ p.pool.length + (s.asBytes.length + 1) := by
  unfold internString at h
  split at h
  · obtain rfl := Exec.ok.inj h
    exact Nat.le_add_right _ _
  · rw [Exec.bind_eq_ok] at h
    obtain ⟨offset, -, h⟩ := h
    obtain rfl := Exec.ok.inj h
    simp only [List.length_append, List.length_cons, List.length_nil]
    omega

/-- Interning strings adds them and their terminators at most. -/
theorem length_pool_internAll {ss : List String} {p : StringInterner}
    {r : List UInt32 × StringInterner} (h : internAll ss p = .ok r) :
    r.2.pool.length ≤ p.pool.length + poolBytes ss := by
  induction ss generalizing p r with
  | nil =>
    obtain rfl := Exec.ok.inj h
    exact Nat.le_refl _
  | cons s ss ih =>
    unfold internAll at h
    simp only [Exec.bind_eq_ok] at h
    obtain ⟨first, hfirst, others, hothers, h⟩ := h
    obtain rfl := Exec.ok.inj h
    have h₁ := length_pool_internString hfirst
    have h₂ := ih hothers
    simp only [poolBytes, List.map_cons, List.sum_cons] at h₂ ⊢
    omega

/-- Packing cells adds their data to the pool. -/
theorem length_pool_packCells {cells : List UtfCell} {d r : DataPool}
    (h : packCells cells d = .ok r) : r.pool.length = d.pool.length + (cells.map dataBytes).sum := by
  induction cells generalizing d with
  | nil =>
    obtain rfl := Exec.ok.inj h
    rfl
  | cons cell cells ih =>
    obtain ⟨key, v⟩ := cell
    cases v with
    | data bytes =>
      unfold packCells at h
      simp only [Exec.bind_eq_ok] at h
      obtain ⟨offset, -, length, -, h⟩ := h
      rw [ih h, List.map_cons, List.sum_cons, dataBytes, List.length_append, Nat.add_assoc]
    | uInt16 v | uInt32 v | uInt64 v | string v =>
      have hrest := ih (d := d) h
      simpa [dataBytes] using hrest

/-- **A bound on the length of a table** by its schema, its rows and its strings and data. -/
theorem length_build_le {b : UtfTableBuilder} {bytes : List UInt8} (h : b.build = .ok bytes) :
    bytes.length ≤ 0x20 + b.columns.length * 5 + b.rowWidth * b.rows.length +
      (1 + (b.name.asBytes.length + 1) + poolBytes (b.columns.map UtfColumn.name) +
        poolBytes b.cellStrings) + (b.cells.map dataBytes).sum := by
  obtain ⟨p, hp, -, hlen⟩ := build_eq_ok h
  obtain ⟨h₁, h₂, h₃, h₄, -⟩ := layout_eq_ok hp.layout
  have hname := length_pool_internString hp.tableName
  have hcolumns := length_pool_internAll hp.columnNames
  have hcells := length_pool_internAll hp.cellNames
  have hdata := length_pool_packCells hp.data
  have hinitial : StringInterner.initial.pool.length = 1 := rfl
  simp only [List.length_nil, Nat.zero_add] at hdata
  omega

/-- Cells without data take no bytes of the data pool. -/
theorem sum_dataBytes_eq_zero {b : UtfTableBuilder}
    (h : ∀ row ∈ b.rows, ∀ v ∈ row, UtfValue.valueType v ≠ .data) :
    (b.cells.map dataBytes).sum = 0 := by
  refine List.sum_eq_zero_iff_forall_eq_nat.mpr fun n hn => ?_
  obtain ⟨⟨key, v⟩, hcell, rfl⟩ := List.mem_map.mp hn
  obtain ⟨i, row, j, hi, hj, -⟩ := mem_cellsFrom.mp hcell
  have hv := h row (List.mem_of_getElem? hi) v (List.mem_of_getElem? hj)
  cases v with
  | data bytes => exact absurd rfl hv
  | _ => rfl

/-- A table of numbers has no strings and no data in its cells. -/
theorem cells_of_numbers {b : UtfTableBuilder}
    (h : ∀ row ∈ b.rows, ∀ v ∈ row, v.valueType ≠ .string ∧ v.valueType ≠ .data) :
    b.cellStrings = [] ∧ (b.cells.map dataBytes).sum = 0 := by
  refine ⟨List.filterMap_eq_nil_iff.mpr fun cell hcell => ?_,
    sum_dataBytes_eq_zero fun row hrow v hv => (h row hrow v hv).2⟩
  obtain ⟨key, v⟩ := cell
  obtain ⟨i, row, j, hi, hj, -⟩ := mem_cellsFrom.mp hcell
  have hv := (h row (List.mem_of_getElem? hi) v (List.mem_of_getElem? hj)).1
  cases v <;> simp_all [UtfValue.string?, UtfValue.valueType]

end UtfTableBuilder

end CriArchive
