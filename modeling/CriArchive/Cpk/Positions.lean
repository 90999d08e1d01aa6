import CriArchive.Cpk.Header

set_option relaxedAutoImplicit false
set_option autoImplicit false

/-!
# Where the cells of a table stand

The parser reads a table front to back through a scratch buffer, moving to each row. In a table that
it accepts, every cell is nevertheless a function of the bytes at one position, which the header and
the schema determine.

## Main definitions

* `Column.entrySize`, `Column.schemaPos` — the layout of the schema.
* `Column.StandsAt` — a column is what the bytes at a position say.

## Main results

* `Column.newListLoop_eq_ok` — the columns of a schema stand one after another.
* `HighTable.new_eq_ok` — the parts of a table that was accepted.
* `HighTable.value_eq_decode` — the positional semantics of cells.
* `HighTable.length_rows_le_iff` — when the number of rows is bounded by the size of the table.
-/

namespace CriArchive

open ByteStream Endian

/-! ## The schema -/

namespace Column

/-- The bytes of the name reference of a column. -/
def nameSize (c : Column) : ℕ := if c.flag.contains .name then 4 else 0

/-- The bytes of the constant value of a column. -/
def defaultSize (c : Column) : ℕ := if c.flag.contains .defaultValue then c.type.getSize else 0

/-- The bytes of a column's entry in the schema: flags, name and constant value. -/
def entrySize (c : Column) : ℕ := 1 + c.nameSize + c.defaultSize

/-- The position of the schema entry with an index. -/
def schemaPos (columns : List Column) (i : ℕ) : ℕ :=
  headerSize + ((columns.take i).map entrySize).sum

/-- A column is what the schema entry at a position says. -/
structure StandsAt (bytes : List UInt8) (pos : ℕ) (c : Column) : Prop where
  flag : bytes[pos]? = some c.flag.bits
  stringOffset : c.stringOffset =
    if c.flag.contains .name then UInt32.ofNat (beNat (window bytes (pos + 1) 4)) else 0xffffffff
  default : c.default = if c.flag.contains .defaultValue then
    some (RowValue.decode c.type (window bytes (pos + 1 + c.nameSize) c.type.getSize)) else none
  inside : pos + c.entrySize ≤ bytes.length

/-- The row-stored columns before a row-stored column, and the column itself, fit the row. -/
theorem rowWidth_take_le {columns : List Column} {i : ℕ} {c : Column} (hc : columns[i]? = some c)
    (hstored : c.isRowStored = true) :
    rowWidth (columns.take i) + c.type.getSize ≤ rowWidth columns := by
  induction columns generalizing i with
  | nil => simp at hc
  | cons d ds ih =>
    rcases i with _ | i
    · obtain rfl := Option.some.inj hc
      simp [rowWidth, hstored]
    · have hle := ih (List.getElem?_cons_succ ▸ hc)
      simp only [List.take_succ_cons, rowWidth]
      omega

/-- The entry with an index ends where the next one starts. -/
theorem schemaPos_succ {columns : List Column} {i : ℕ} {c : Column} (hc : columns[i]? = some c) :
    schemaPos columns (i + 1) = schemaPos columns i + c.entrySize := by
  obtain ⟨hi, rfl⟩ := List.getElem?_eq_some_iff.mp hc
  rw [schemaPos, schemaPos, List.take_succ_eq_append_getElem hi, List.map_append, List.sum_append]
  simp [Nat.add_assoc]

/-- Entries stand in the order of their indices. -/
theorem schemaPos_mono {columns : List Column} {i j : ℕ} (h : i ≤ j) :
    schemaPos columns i ≤ schemaPos columns j := by
  obtain ⟨k, rfl⟩ := Nat.exists_eq_add_of_le h
  rw [schemaPos, schemaPos, List.take_add, List.map_append, List.sum_append]
  omega

/-- Reading a buffer that returned took the window at the position. -/
theorem readInto_eq_ok {buffer filled : List UInt8} {size : ℕ} {s t : ByteStream}
    (hb : size ≤ buffer.length) (h : readInto buffer size s = (.ok filled, t)) :
    size ≤ s.bytes.length - s.pos ∧ filled = window s.bytes s.pos size ++ buffer.drop size ∧
      (window s.bytes s.pos size).length = size ∧ t = ⟨s.bytes, s.pos + size⟩ := by
  have hfront : ((buffer.drop 0).take (size - 0)).length = size := by simp [hb]
  unfold readInto at h
  rw [ExecM.bind_of_ok (by rw [ExecM.lift_apply, Exec.slice_eq (Nat.zero_le _) hb]), hfront] at h
  simp only [ExecM.bind_eq_ok, ExecM.pure_apply, Prod.mk.injEq, Exec.ok.injEq] at h
  obtain ⟨read, u, hread, rfl, rfl⟩ := h
  obtain ⟨hle, rfl, hlen, rfl⟩ := readExact_eq_ok hread
  exact ⟨hle, rfl, hlen, rfl⟩

/-- A name reference that was read. -/
theorem readStringOffset_eq_ok {flag : ColumnValue} {offset : UInt32} {s t : ByteStream}
    (h : readStringOffset flag s = (.ok offset, t)) :
    offset = (if flag.contains .name then UInt32.ofNat (beNat (window s.bytes s.pos 4))
      else 0xffffffff) ∧
    (if flag.contains .name then 4 else 0) ≤ s.bytes.length - s.pos ∧
    t = ⟨s.bytes, s.pos + if flag.contains .name then 4 else 0⟩ := by
  unfold readStringOffset at h
  split_ifs at h ⊢
  · simp only [ExecM.bind_eq_ok, ExecM.lift_eq_ok] at h
    obtain ⟨nameBytes, u, hread, hvalue, rfl⟩ := h
    obtain ⟨hle, rfl, hlen, rfl⟩ := readExact_eq_ok hread
    rw [fromSliceU32_eq (by rw [hlen]), window_window _ _ _ _ _ (by omega), Nat.add_zero] at hvalue
    exact ⟨(Exec.ok.inj hvalue).symm, hle, rfl⟩
  · obtain ⟨h₁, rfl⟩ := Prod.mk.inj h
    exact ⟨(Exec.ok.inj h₁).symm, Nat.zero_le _, rfl⟩

/-- A constant value that was read, whatever was left in the buffer. -/
theorem readDefault_eq_ok {flag : ColumnValue} {buffer buffer' : List UInt8}
    (hb : buffer.length = 0x10) {default : Option RowValue} {s t : ByteStream}
    (h : readDefault flag buffer s = (.ok (default, buffer'), t)) :
    default = (if flag.contains .defaultValue then
      some (RowValue.decode flag.getType (window s.bytes s.pos flag.getType.getSize)) else none) ∧
    (if flag.contains .defaultValue then flag.getType.getSize else 0) ≤ s.bytes.length - s.pos ∧
    t = ⟨s.bytes, s.pos + if flag.contains .defaultValue then flag.getType.getSize else 0⟩ ∧
    buffer'.length = 0x10 := by
  have hsize := ColumnType.size_le flag.getType
  unfold readDefault at h
  split_ifs at h ⊢
  · cases (Prod.mk.inj h).1
  · simp only [ExecM.bind_eq_ok, ExecM.lift_eq_ok, ExecM.pure_apply, Prod.mk.injEq,
      Exec.ok.injEq] at h
    obtain ⟨filled, u, hread, value, _, ⟨hvalue, rfl⟩, ⟨rfl, rfl⟩, rfl⟩ := h
    obtain ⟨hle, rfl, hlen, rfl⟩ := readInto_eq_ok (by omega) hread
    rw [Row.rowValue_eq hlen] at hvalue
    refine ⟨by rw [← Exec.ok.inj hvalue], hle, rfl, ?_⟩
    rw [List.length_append, hlen, List.length_drop]
    omega
  · obtain ⟨h₁, rfl⟩ := Prod.mk.inj h
    obtain ⟨rfl, rfl⟩ := Prod.mk.inj (Exec.ok.inj h₁)
    exact ⟨rfl, Nat.zero_le _, rfl, hb⟩

/-- **A column that was read** stands at the position, and the stream moved behind it. -/
theorem newOne_eq_ok {buffer buffer' : List UInt8} (hb : buffer.length = 0x10) {c : Column}
    {s t : ByteStream} (h : newOne buffer s = (.ok (c, buffer'), t)) :
    StandsAt s.bytes s.pos c ∧ t = ⟨s.bytes, s.pos + c.entrySize⟩ ∧ buffer'.length = 0x10 := by
  unfold newOne at h
  simp only [ExecM.bind_eq_ok, ExecM.lift_eq_ok, ExecM.pure_apply, Prod.mk.injEq,
    Exec.ok.injEq] at h
  obtain ⟨flagByte, s₁, hflag, bits, _, ⟨hbits, rfl⟩, stringOffset, s₂, hname, ⟨default, filled⟩, s₃,
    hdefault, ⟨rfl, rfl⟩, rfl⟩ := h
  obtain ⟨hle, rfl, hlen, rfl⟩ := readExact_eq_ok hflag
  obtain ⟨hoffset, hnameLe, rfl⟩ := readStringOffset_eq_ok hname
  obtain ⟨hvalue, hdefaultLe, rfl, hfilled⟩ := readDefault_eq_ok hb hdefault
  have hbits' : s.bytes[s.pos]? = some bits := by
    rw [Exec.index_eq (by omega)] at hbits
    have hget := List.getElem?_eq_getElem (l := window s.bytes s.pos 1) (i := 0) (by omega)
    rw [Exec.ok.inj hbits, window, List.getElem?_take_of_lt (by omega), List.getElem?_drop] at hget
    exact hget
  refine ⟨⟨hbits', hoffset, hvalue, ?_⟩, ?_, hfilled⟩
  · change s.pos + (1 + (if (ColumnValue.mk bits).contains .name then 4 else 0) +
      (if (ColumnValue.mk bits).contains .defaultValue then
        (ColumnValue.mk bits).getType.getSize else 0)) ≤ s.bytes.length
    dsimp only at hnameLe hdefaultLe
    omega
  · simp only [entrySize, nameSize, defaultSize, type, Nat.add_assoc]

/-- **The columns of a schema** stand one after another. -/
theorem newListLoop_eq_ok {count : ℕ} {buffer : List UInt8} (hb : buffer.length = 0x10)
    {columns : List Column} {s t : ByteStream}
    (h : newListLoop count buffer s = (.ok columns, t)) :
    columns.length = count ∧ t = ⟨s.bytes, s.pos + (columns.map entrySize).sum⟩ ∧
      ∀ (i : ℕ) (c : Column), columns[i]? = some c →
        StandsAt s.bytes (s.pos + ((columns.take i).map entrySize).sum) c := by
  induction count generalizing buffer columns s with
  | zero =>
    obtain ⟨h₁, rfl⟩ := Prod.mk.inj h
    obtain rfl := Exec.ok.inj h₁
    exact ⟨rfl, rfl, fun i c hc => by simp at hc⟩
  | succ count ih =>
    simp only [newListLoop, ExecM.bind_eq_ok, ExecM.pure_apply, Prod.mk.injEq,
      Exec.ok.injEq] at h
    obtain ⟨⟨first, buffer'⟩, u, hfirst, others, v, hothers, rfl, rfl⟩ := h
    obtain ⟨hstands, rfl, hb'⟩ := newOne_eq_ok hb hfirst
    obtain ⟨hlen, rfl, hall⟩ := ih hb' hothers
    refine ⟨by rw [List.length_cons, hlen], ?_, fun i c hc => ?_⟩
    · rw [List.map_cons, List.sum_cons, Nat.add_assoc]
    · rcases i with _ | i
      · obtain rfl := Option.some.inj hc
        exact hstands
      · rw [List.take_succ_cons, List.map_cons, List.sum_cons, ← Nat.add_assoc]
        exact hall i c hc

/-- **A schema that was read** starts behind the header. -/
theorem newList_eq_ok {header : TableHeader} {columns : List Column} {s t : ByteStream}
    (h : newList header s = (.ok columns, t)) :
    t = ⟨s.bytes, schemaPos columns columns.length⟩ ∧
      ∀ (i : ℕ) (c : Column), columns[i]? = some c →
        StandsAt s.bytes (schemaPos columns i) c := by
  unfold newList at h
  rw [ExecM.bind_of_ok (seek_apply _ _), TableHeader.columnCount_eq,
    ExecM.bind_of_ok (ExecM.lift_apply _ _)] at h
  obtain ⟨-, rfl, hall⟩ := newListLoop_eq_ok (by simp) h
  rw [schemaPos, List.take_length]
  exact ⟨rfl, hall⟩

end Column

/-! ## The rows -/

/-- Only an invalid type has no values. -/
theorem RowValue.decode_ne_none {ctype : ColumnType} (h : ctype ≠ .invalid) (bs : List UInt8) :
    RowValue.decode ctype bs ≠ .none := by
  cases ctype <;> simp_all [RowValue.decode]

namespace Row

/-- A row is read only when every column has a type. -/
theorem valid_of_createRowLoop {columnDef : List Column} {field : List UInt8} {s t : ByteStream}
    {row : Row} (h : createRowLoop columnDef field s = (.ok row, t)) :
    ∀ c ∈ columnDef, c.type ≠ .invalid := by
  induction columnDef generalizing field s t row with
  | nil => simp
  | cons c cs ih =>
    unfold createRowLoop at h
    split_ifs at h with hinvalid hstored
    · cases (Prod.mk.inj h).1
    · simp only [ExecM.bind_eq_ok] at h
      obtain ⟨filled, u, -, value, v, -, others, w, hothers, -⟩ := h
      exact List.forall_mem_cons.mpr ⟨hinvalid, ih hothers⟩
    · simp only [ExecM.bind_eq_ok] at h
      obtain ⟨others, u, hothers, -⟩ := h
      exact List.forall_mem_cons.mpr ⟨hinvalid, ih hothers⟩

/-- Rows are read only when there are none or every column has a type. -/
theorem valid_of_newList {header : TableHeader} {columnDef : List Column} {s t : ByteStream}
    {rows : List Row} (h : newList header columnDef s = (.ok rows, t)) (hne : rows ≠ []) :
    ∀ c ∈ columnDef, c.type ≠ .invalid := by
  unfold newList at h
  simp only [ExecM.bind_eq_ok, ExecM.lift_eq_ok] at h
  obtain ⟨rowsOffset, _, -, rowSize, _, -, rowCount, s₁, -, h⟩ := h
  generalize hcount : rowCount.toNat = count at h
  cases count with
  | zero =>
    obtain rfl := Exec.ok.inj (Prod.mk.inj h).1
    exact absurd rfl hne
  | succ count =>
    simp only [newListLoop, ExecM.bind_eq_ok] at h
    obtain ⟨rowPosition, _, -, _, _, -, row, _, hrow, -⟩ := h
    exact valid_of_createRowLoop hrow

/-- The cell of a column in a decoded row. -/
theorem getElem?_decodeAt (bytes : List UInt8) (pos : ℕ) {columnDef : List Column} {i : ℕ}
    {c : Column} (hc : columnDef[i]? = some c) : (decodeAt bytes pos columnDef)[i]? =
      some (if c.isRowStored then RowValue.decode c.type
        (window bytes (pos + Column.rowWidth (columnDef.take i)) c.type.getSize) else .none) := by
  induction columnDef generalizing pos i with
  | nil => simp at hc
  | cons d ds ih =>
    rcases i with _ | i
    · obtain rfl := Option.some.inj hc
      unfold decodeAt
      split_ifs <;> rfl
    · have hd := List.getElem?_cons_succ ▸ hc
      rw [List.take_succ_cons, Column.rowWidth, decodeAt]
      by_cases hstored : d.isRowStored = true
      · rw [if_pos hstored, if_pos hstored, List.getElem?_cons_succ, ih _ hd, Nat.add_assoc]
      · rw [if_neg hstored, if_neg hstored, List.getElem?_cons_succ, ih _ hd, Nat.zero_add]

end Row

/-! ## Tables -/

namespace HighTable

/-- The bounds that checked sections have. -/
theorem sections_eq_ok {header : TableHeader} {available : ℕ} {s : Sections}
    (h : sections header available = .ok s) :
    s.declaredSize ≤ available ∧ s.declaredSize < 2 ^ 64 ∧
      (header.rowsOffset : Exec Error ℕ) = .ok s.rowsStart ∧
      (header.stringPoolOffset : Exec Error ℕ) = .ok s.stringStart ∧
      s.stringStart ≤ s.dataStart ∧ s.dataStart ≤ s.declaredSize ∧
      s.rowsStart + (header.field16 0x1a).toNat * (header.field32 0x1c).toNat ≤ s.stringStart := by
  unfold sections at h
  simp only [TableHeader.rowSize_eq, TableHeader.rowCount_eq, Exec.bind_eq_ok, Exec.errIf_eq_ok,
    Exec.okOr_eq_ok, Exec.pure_eq, Exec.ok.injEq, Nat.checkedAdd64_eq_some,
    Nat.checkedMul64_eq_some] at h
  obtain ⟨size, -, declaredSize, ⟨h64, rfl⟩, -, havailable, rowsStart, hrows, stringStart, hstring,
    dataStart, -, -, hordered, rowSize, rfl, rowCount, rfl, rowsBytes, ⟨-, rfl⟩, rowsEnd, ⟨-, rfl⟩,
    -, hend, rfl⟩ := h
  exact ⟨by dsimp only; omega, h64, hrows, hstring, by dsimp only; omega, by dsimp only; omega,
    Nat.le_of_not_lt hend⟩

/-- The width of a schema, when it does not overflow. -/
theorem schemaWidth_eq_some {columns : List Column} {width : ℕ}
    (h : schemaWidth columns = some width) : width = Column.rowWidth columns := by
  have hfold : ∀ (cs : List Column) (total : ℕ),
      (cs.filter Column.isRowStored).foldlM
        (fun total column => Nat.checkedAdd64 total column.type.getSize) total = some width →
      width = total + Column.rowWidth cs := by
    intro cs
    induction cs with
    | nil =>
      intro total h
      exact (Option.some.inj h).symm
    | cons c cs ih =>
      intro total h
      by_cases hc : c.isRowStored
      · rw [List.filter_cons_of_pos hc, List.foldlM_cons, Option.bind_eq_bind,
          Option.bind_eq_some_iff] at h
        obtain ⟨next, hnext, h⟩ := h
        obtain ⟨-, rfl⟩ := Nat.checkedAdd64_eq_some.mp hnext
        rw [ih _ h, Column.rowWidth, if_pos hc, Nat.add_assoc]
      · rw [List.filter_cons_of_neg hc] at h
        rw [ih _ h, Column.rowWidth, if_neg hc, Nat.zero_add]
  rw [hfold columns 0 h, Nat.zero_add]

/-- A window before the cut is a window of the whole. -/
theorem window_truncate {alloc : List UInt8} {declaredSize pos n : ℕ} (h : pos + n ≤ declaredSize) :
    window (truncate alloc declaredSize) pos n = window alloc pos n := by
  unfold truncate
  split_ifs
  · rw [window, window, List.drop_take, List.take_take, Nat.min_eq_left (by omega)]
  · rfl

/-- A column that stands before the cut stands in the whole. -/
theorem standsAt_of_truncate {alloc : List UInt8} {declaredSize pos : ℕ} {c : Column}
    (h : Column.StandsAt (truncate alloc declaredSize) pos c)
    (hend : pos + c.entrySize ≤ declaredSize) (hle : declaredSize ≤ alloc.length) :
    Column.StandsAt alloc pos c := by
  obtain ⟨hflag, hname, hdefault, -⟩ := h
  have hsize : c.entrySize = 1 + c.nameSize + c.defaultSize := rfl
  refine ⟨?_, ?_, ?_, by omega⟩
  · unfold truncate at hflag
    split_ifs at hflag
    · rwa [List.getElem?_take_of_lt (by omega)] at hflag
    · exact hflag
  · rw [hname]
    split_ifs with hnamed
    · have hfour : c.nameSize = 4 := if_pos hnamed
      rw [window_truncate (by omega)]
    · rfl
  · rw [hdefault]
    split_ifs with hconstant
    · have hconstantSize : c.defaultSize = c.type.getSize := if_pos hconstant
      rw [window_truncate (by omega)]
    · rfl

variable {shiftJis : List UInt8 → String} {alloc : List UInt8} {t : HighTable}

/-- **The parts of a table that was accepted.** -/
theorem new_eq_ok (h : new shiftJis alloc = .ok t) : t.header = TableHeader.new alloc ∧
    ∃ s pos, sections t.header alloc.length = .ok s ∧ t.alloc = truncate alloc s.declaredSize ∧
      Column.newList t.header (ofBytes t.alloc) = (.ok t.columns, ⟨t.alloc, pos⟩) ∧
      pos ≤ s.rowsStart ∧ Column.rowWidth t.columns ≤ (t.header.field16 0x1a).toNat ∧
      ∃ u, Row.newList t.header t.columns ⟨t.alloc, pos⟩ = (.ok t.rows, u) := by
  unfold new parse at h
  simp only [TableHeader.rowSize_eq, Exec.bind_eq_ok, Exec.errIf_eq_ok, Exec.okOr_eq_ok,
    Exec.pure_eq, Exec.ok.injEq] at h
  obtain ⟨-, -, s, hsections, schema, hschema, -, hpos, width, hwidth, rowSize, rfl, -, hfits, rows,
    hrows, pool, -, strings, -, rfl⟩ := h
  obtain ⟨hstream, -⟩ := Column.newList_eq_ok (ExecM.runOn_eq_ok.mp hschema)
  refine ⟨rfl, s, schema.2.pos, hsections, rfl, ?_, Nat.le_of_not_lt hpos, ?_, rows.2, ?_⟩
  · rw [ExecM.runOn_eq_ok.mp hschema, hstream]
    rfl
  · rw [← schemaWidth_eq_some hwidth]
    exact Nat.le_of_not_lt hfits
  · have hrows' := ExecM.runOn_eq_ok.mp hrows
    rw [hstream] at hrows' ⊢
    exact hrows'

/-- Where the rows start, by the header. -/
theorem rowsStart_eq {header : TableHeader} {rowsStart : ℕ}
    (h : (header.rowsOffset : Exec Error ℕ) = .ok rowsStart) :
    (header.field16 0xa).toNat + headerOffset = rowsStart :=
  Exec.ok.inj ((TableHeader.rowsOffset_eq header).symm.trans h)

/-- The rows of a table that was accepted are the decoded rows, when there are any. -/
theorem rows_eq_decodeAt (h : new shiftJis alloc = .ok t) (hne : t.rows ≠ []) :
    (∀ c ∈ t.columns, c.type ≠ .invalid) ∧
      t.rows = (List.range (t.header.field32 0x1c).toNat).map fun r =>
        Row.decodeAt t.alloc ((t.header.field16 0xa).toNat + headerOffset +
          r * (t.header.field16 0x1a).toNat) t.columns := by
  obtain ⟨-, s, pos, hsections, halloc, -, -, hwidth, u, hrows⟩ := new_eq_ok h
  obtain ⟨havailable, h64, hrowsOffset, -, hpool, hdata, hend⟩ := sections_eq_ok hsections
  have hlen : t.alloc.length = s.declaredSize := by rw [halloc, length_truncate havailable]
  have hrowsStart := rowsStart_eq hrowsOffset
  have hvalid := Row.valid_of_newList hrows hne
  have hdecoded := Row.newList_eq hvalid hwidth (s := ⟨t.alloc, pos⟩)
    (by rw [hrowsStart]; dsimp only; omega) (by rw [hrowsStart]; omega)
  rw [hrows] at hdecoded
  exact ⟨hvalid, Exec.ok.inj hdecoded⟩

/-- The columns of a table that is accepted stand in its bytes, before the rows. -/
theorem column_standsAt (h : new shiftJis alloc = .ok t) {i : ℕ} {c : Column}
    (hc : t.columns[i]? = some c) :
    Column.StandsAt alloc (Column.schemaPos t.columns i) c ∧
      Column.schemaPos t.columns i + c.entrySize ≤
        (t.header.field16 0xa).toNat + headerOffset := by
  obtain ⟨-, s, pos, hsections, halloc, hschema, hpos, -⟩ := new_eq_ok h
  obtain ⟨havailable, -, hrowsOffset, -, hpool, hdata, hend⟩ := sections_eq_ok hsections
  obtain ⟨hstream, hstands⟩ := Column.newList_eq_ok hschema
  obtain rfl : pos = _ := (ByteStream.mk.inj hstream).2
  have hrowsStart := rowsStart_eq hrowsOffset
  have hmono : Column.schemaPos t.columns (i + 1) ≤ Column.schemaPos t.columns t.columns.length :=
    Column.schemaPos_mono (List.getElem?_eq_some_iff.mp hc).1
  rw [Column.schemaPos_succ hc] at hmono
  have hcolumn := hstands i c hc
  rw [ofBytes, halloc] at hcolumn
  exact ⟨standsAt_of_truncate hcolumn (by omega) havailable, by omega⟩

/-- **Positional semantics of cells.** In a table that is accepted, a column is what its own schema
entry says. A cell of a row-stored column decodes the bytes at the position that the row size and
the widths of the row-stored columns before it give, inside the rows; another cell is the constant
value in the schema entry of its column, or absent when there is none.

**Proof sketch.** An accepted table has its sections in order and inside the bytes, and what is cut
off lies behind them. The rows are decoded from the row section at multiples of the row size
(`rows_eq_decodeAt`), and a cell from behind the cells before it (`Row.getElem?_decodeAt`). A column
that is not stored in rows has the value that its schema entry holds. -/
theorem value_eq_decode (h : new shiftJis alloc = .ok t) {r : ℕ} (hr : r < t.rows.length) {i : ℕ}
    {c : Column} (hc : t.columns[i]? = some c) :
    t.header = TableHeader.new alloc ∧ ∃ rowsOffset stringPoolOffset rowSize,
      (t.header.rowsOffset : Exec Error ℕ) = .ok rowsOffset ∧
      (t.header.stringPoolOffset : Exec Error ℕ) = .ok stringPoolOffset ∧
      (t.header.rowSize : Exec Error UInt16) = .ok rowSize ∧
      stringPoolOffset ≤ alloc.length ∧
      Column.StandsAt alloc (Column.schemaPos t.columns i) c ∧
      Column.schemaPos t.columns i + c.entrySize ≤ rowsOffset ∧
      (c.isRowStored = true →
        rowsOffset ≤ rowsOffset + r * rowSize.toNat + Column.rowWidth (t.columns.take i) ∧
        rowsOffset + r * rowSize.toNat + Column.rowWidth (t.columns.take i) + c.type.getSize ≤
          stringPoolOffset ∧
        t.value r i = some (RowValue.decode c.type (window alloc
          (rowsOffset + r * rowSize.toNat + Column.rowWidth (t.columns.take i)) c.type.getSize))) ∧
      (c.isRowStored = false → t.value r i =
        if c.flag.contains .defaultValue then
          some (RowValue.decode c.type (window alloc
            (Column.schemaPos t.columns i + 1 + c.nameSize) c.type.getSize))
        else none) := by
  obtain ⟨hheader, s, pos, hsections, halloc, -, -, hwidth, -⟩ := new_eq_ok h
  obtain ⟨havailable, -, hrowsOffset, hstring, hpool, hdata, hend⟩ := sections_eq_ok hsections
  obtain ⟨hcolumn, hbefore⟩ := column_standsAt h hc
  have hbytes : ∀ p n, p + n ≤ s.declaredSize → window t.alloc p n = window alloc p n :=
    fun p n hn => by rw [halloc, window_truncate hn]
  have hrowsStart := rowsStart_eq hrowsOffset
  have hne : t.rows ≠ [] := by
    intro hnil
    rw [hnil] at hr
    exact absurd hr (Nat.not_lt_zero _)
  obtain ⟨hvalid, hlist⟩ := rows_eq_decodeAt h hne
  rw [hrowsStart] at hlist
  have hcount : r < (t.header.field32 0x1c).toNat := by
    rwa [hlist, List.length_map, List.length_range] at hr
  have hrow : t.rows[r]? = some (Row.decodeAt t.alloc
      (s.rowsStart + r * (t.header.field16 0x1a).toNat) t.columns) := by
    rw [hlist, List.getElem?_map, List.getElem?_range hcount]
    rfl
  have hcell := Row.getElem?_decodeAt t.alloc (s.rowsStart + r * (t.header.field16 0x1a).toNat) hc
  have hrowEnd : r * (t.header.field16 0x1a).toNat + (t.header.field16 0x1a).toNat ≤
      (t.header.field16 0x1a).toNat * (t.header.field32 0x1c).toNat := by
    rw [← Nat.succ_mul, Nat.mul_comm]
    exact Nat.mul_le_mul_left _ hcount
  refine ⟨hheader, s.rowsStart, s.stringStart, _, hrowsOffset, hstring, TableHeader.rowSize_eq _,
    by omega, hcolumn, by omega, fun hstored => ?_, fun hstored => ?_⟩
  · have hfits := Column.rowWidth_take_le hc hstored
    refine ⟨by omega, by omega, ?_⟩
    rw [if_pos hstored] at hcell
    unfold value
    simp only [hrow, hcell, Option.bind_eq_bind, Option.bind_some,
      if_neg (RowValue.decode_ne_none (hvalid c (List.mem_of_getElem? hc)) _)]
    rw [hbytes _ _ (by omega)]
  · rw [if_neg (by rw [hstored]; decide)] at hcell
    unfold value
    simp only [hrow, hcell, hc, Option.bind_eq_bind, Option.bind_some, if_true]
    exact hcolumn.default

/-- A table with one row: a stored byte, followed by padding, and a constant 16-bit column. -/
def sampleTable : List UInt8 :=
  [0x40, 0x55, 0x54, 0x46, 0, 0, 0, 0x1e, 0, 1, 0, 0x1c, 0, 0, 0, 0x1e, 0, 0, 0, 0x1e, 0, 0, 0, 0,
    0, 2, 0, 2, 0, 0, 0, 1, 0x40, 0x22, 1, 2, 7, 0xff]

/-- The cells of the small table stand behind the header and in the schema. -/
theorem value_eq_decode_sample : ∃ t, new (fun _ => "") sampleTable = .ok t ∧
    t.value 0 0 = some (.byte 7) ∧ t.value 0 1 = some (.uInt16 0x0102) := by
  obtain ⟨t, hnew, hlen, hcolumns⟩ : ∃ t, new (fun _ => "") sampleTable = .ok t ∧
      t.rows.length = 1 ∧
      t.columns = [⟨⟨0x40⟩, 0xffffffff, none⟩, ⟨⟨0x22⟩, 0xffffffff, some (.uInt16 0x0102)⟩] := by
    decide +kernel
  have hr : 0 < t.rows.length := by omega
  obtain ⟨hheader, rowsOffset, _, rowSize, hrows, -, hsize, -, -, -, hstored, -⟩ :=
    value_eq_decode hnew hr (i := 0) (c := ⟨⟨0x40⟩, 0xffffffff, none⟩) (by rw [hcolumns]; rfl)
  obtain ⟨-, -, -, -, -, -, -, -, -, -, -, hconstant⟩ :=
    value_eq_decode hnew hr (i := 1) (c := ⟨⟨0x22⟩, 0xffffffff, some (.uInt16 0x0102)⟩)
      (by rw [hcolumns]; rfl)
  obtain rfl : 0x24 = rowsOffset := by
    rw [hheader] at hrows
    exact Exec.ok.inj ((by decide +kernel :
      ((TableHeader.new sampleTable).rowsOffset : Exec Error ℕ) = .ok 0x24).symm.trans hrows)
  refine ⟨t, hnew, (hstored (by decide)).2.2.trans ?_, (hconstant (by decide)).trans ?_⟩
  · rw [Nat.zero_mul, hcolumns]
    decide +kernel
  · rw [hcolumns]
    decide +kernel

/-- A table has as many rows as its header declares. -/
theorem length_rows (h : new shiftJis alloc = .ok t) :
    t.rows.length = ((TableHeader.new alloc).field32 0x1c).toNat := by
  obtain ⟨hheader, s, pos, -, -, -, -, -, u, hrows⟩ := new_eq_ok h
  rw [← hheader]
  exact ((Row.safe_newList t.header t.columns _).of_ok hrows).1

/-- **When the rows of a table are bounded by its size**: rows that take no bytes are not bounded by
the section checks, so the declared number must be small by itself.

**Proof sketch.** The number of rows is the header's field (`length_rows`). Where a row has a
length, the rows lie in the table one after the other, so that there are at most as many as bytes. -/
theorem length_rows_le_iff (h : new shiftJis alloc = .ok t) : t.rows.length ≤ alloc.length ↔
    (TableHeader.new alloc).field16 0x1a ≠ 0 ∨
      ((TableHeader.new alloc).field32 0x1c).toNat ≤ alloc.length := by
  rw [length_rows h]
  constructor
  · exact Or.inr
  · rintro (hsize | hcount)
    · obtain ⟨hheader, s, pos, hsections, -⟩ := new_eq_ok h
      obtain ⟨havailable, -, -, -, hpool, hdata, hend⟩ := sections_eq_ok hsections
      rw [hheader] at hend
      have hpos : 0 < ((TableHeader.new alloc).field16 0x1a).toNat :=
        Nat.pos_of_ne_zero fun hzero => hsize (UInt16.toNat_inj.mp hzero)
      have hle := Nat.le_mul_of_pos_left ((TableHeader.new alloc).field32 0x1c).toNat hpos
      omega
    · exact hcount

/-- The small table has no more rows than bytes. -/
theorem length_rows_le_iff_sample : ∃ t, new (fun _ => "") sampleTable = .ok t ∧
    t.rows.length ≤ sampleTable.length := by
  obtain ⟨t, hnew, -⟩ : ∃ t, new (fun _ => "") sampleTable = .ok t ∧ t.rows.length = 1 := by
    decide +kernel
  exact ⟨t, hnew, (length_rows_le_iff hnew).mpr (Or.inl (by decide +kernel))⟩

/-- A table without columns whose header declares 100 rows of no bytes. -/
def hostileTable : List UInt8 :=
  [0x40, 0x55, 0x54, 0x46, 0, 0, 0, 0x18, 0, 1, 0, 0x18, 0, 0, 0, 0x18, 0, 0, 0, 0x18, 0, 0, 0, 0,
    0, 0, 0, 0, 0, 0, 0, 100]

/-- The table without columns has more rows than bytes. -/
theorem not_length_rows_le : ¬∀ (shiftJis : List UInt8 → String) (alloc : List UInt8)
    (t : HighTable), new shiftJis alloc = .ok t → t.rows.length ≤ alloc.length := by
  intro hclaim
  obtain ⟨t, hnew, hrows⟩ : ∃ t, new (fun _ => "") hostileTable = .ok t ∧
      t.rows.length = 100 := by
    decide +kernel
  have hle := hclaim _ _ t hnew
  rw [hrows] at hle
  exact absurd hle (by decide)

end HighTable

end CriArchive
