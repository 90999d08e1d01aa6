import CriArchive.Cpk.Reader
import CriArchive.Cpk.Writer.Plan
import CriArchive.Lib.Search

set_option relaxedAutoImplicit false
set_option autoImplicit false

/-!
# The order of an ID table

An ID table stores no offsets: the engine searches its two nested tables for an ID and adds up the
aligned sizes before it in each of them. The reader sorts the rows of both tables together and
places them one after another. Both give the same offsets, in whatever order the rows stand.

## Main definitions

* `ItocRow.InCells`, `RowsOf` — the rows of a table, by the cells they stand in.
* `IndexRows`, `CpkReader.ReadsRows` — the rows of an ID table, by the tables they stand in.
* `engineOffset` — the offset of an ID by the engine's lookup.

## Main results

* `collectItocRows_eq_ok` — the rows that are collected are those in the cells.
* `materializeItocRows_eq_ok` — where the reader places rows.
* `CpkReader.readItoc_prefixSums` — the reader's offsets are the engine's prefix sums.
-/

namespace CriArchive

open Search

/-! ## Rows -/

/-- A row by the cells it stands in: its ID, its size and its extracted size are the numbers under
these names or, where a name is missing, in the first three columns. Without a number for it the
extracted size is the size, and the CRC is there when its cell holds 32 bits. -/
structure ItocRow.InCells (table : HighTable) (k : ℕ) (row : ItocRow) : Prop where
  id : numericAt table k ((table.columnIndex "ID").getD 0) = some row.id.toUInt64
  fileSize : numericAt table k ((table.columnIndex "FileSize").getD 1) =
    some row.fileSize.toUInt64
  extractSize : (numericAt table k ((table.columnIndex "ExtractSize").getD 2)).getD
    row.fileSize.toUInt64 = row.extractSize.toUInt64
  fileCrc : row.fileCrc = u32At table k (table.columnIndex "FileCrc")

/-- The rows of a table that holds IDs and sizes, one for each row of the table. -/
def RowsOf (table : HighTable) (rows : List ItocRow) : Prop :=
  rows.length = table.rows.length ∧
    ∀ (k : ℕ) (row : ItocRow), rows[k]? = some row → row.InCells table k

/-- A number that fits 32 bits. -/
theorem tryFrom_toNat_eq_some {v : UInt64} {w : UInt32} :
    UInt32.tryFrom v.toNat = some w ↔ v = w.toUInt64 := by
  rw [UInt32.tryFrom_eq_some, ← UInt64.toNat_inj, UInt32.toNat_toUInt64, eq_comm]

/-- A row that is collected is the one in the cells. -/
theorem itocRow_eq_ok {table : HighTable} {k : ℕ} {row : ItocRow} :
    itocRow table ((table.columnIndex "ID").getD 0) ((table.columnIndex "FileSize").getD 1)
      ((table.columnIndex "ExtractSize").getD 2) (table.columnIndex "FileCrc") k = .ok row ↔
      row.InCells table k := by
  unfold itocRow sizeU32
  simp only [Exec.bind_eq_ok, Exec.okOr_eq_ok, Exec.pure_eq, Exec.ok.injEq, tryFrom_toNat_eq_some]
  constructor
  · rintro ⟨_, hid, id, rfl, _, hfileSize, fileSize, rfl, extractSize, hextract, rfl⟩
    exact ⟨hid, hfileSize, hextract, rfl⟩
  · rintro ⟨hid, hfileSize, hextract, hcrc⟩
    exact ⟨_, hid, row.id, rfl, _, hfileSize, row.fileSize, rfl, row.extractSize, hextract,
      by rw [← hcrc]⟩

/-- **Rows are collected** iff there is the given number of them and each is read from its row. -/
theorem itocRows_eq_ok {table : HighTable} {idCol fileSizeCol extractSizeCol : ℕ}
    {crcCol : Option ℕ} {count start : ℕ} {rows : List ItocRow} :
    itocRows table idCol fileSizeCol extractSizeCol crcCol count start = .ok rows ↔
      rows.length = count ∧ ∀ (k : ℕ) (row : ItocRow), rows[k]? = some row →
        itocRow table idCol fileSizeCol extractSizeCol crcCol (start + k) = .ok row := by
  induction count generalizing start rows with
  | zero =>
    rw [itocRows, Exec.pure_eq, Exec.ok.injEq, List.length_eq_zero_iff]
    exact ⟨fun h => ⟨h.symm, fun k row hrow => by simp [← h] at hrow⟩, fun h => h.1.symm⟩
  | succ count ih =>
    simp only [itocRows, Exec.bind_eq_ok, Exec.pure_eq, Exec.ok.injEq, ih]
    constructor
    · rintro ⟨first, hfirst, others, ⟨hlen, hothers⟩, rfl⟩
      refine ⟨congrArg (· + 1) hlen, fun k row hrow => ?_⟩
      rcases k with _ | k
      · obtain rfl := Option.some.inj hrow
        exact hfirst
      · rw [Nat.add_comm k, ← Nat.add_assoc]
        exact hothers k row hrow
    · rintro ⟨hlen, hrows⟩
      obtain ⟨first, others, rfl⟩ := List.exists_cons_of_length_eq_add_one hlen
      refine ⟨first, hrows 0 first rfl, others, ⟨Nat.succ.inj hlen, fun k row hrow => ?_⟩, rfl⟩
      rw [Nat.add_assoc, Nat.add_comm 1]
      exact hrows (k + 1) row hrow

/-- **The rows that are collected** are those in the cells of the table, all of them in order. -/
theorem collectItocRows_eq_ok {table : HighTable} {rows : List ItocRow} :
    collectItocRows table = .ok rows ↔ RowsOf table rows := by
  rw [collectItocRows, itocRows_eq_ok, RowsOf]
  simp only [Nat.zero_add, itocRow_eq_ok]

/-- The rows of an ID table: those of its two nested tables or, in a direct table, its own. -/
def IndexRows (shiftJis : List UInt8 → String) (metadata : CpkMetadata) (itoc : HighTable)
    (low high : List ItocRow) : Prop :=
  if metadata.eid ≠ 0 then low = [] ∧ RowsOf itoc high
  else ∃ dataL dataH lowTable highTable,
    itoc.dataByName 0 "DataL" = .ok (some dataL) ∧ itoc.dataByName 0 "DataH" = .ok (some dataH) ∧
      HighTable.new shiftJis dataL = .ok lowTable ∧ HighTable.new shiftJis dataH = .ok highTable ∧
      RowsOf lowTable low ∧ RowsOf highTable high

/-- The reader concatenates the rows of the two tables. -/
theorem itocTableRows_eq_ok {shiftJis : List UInt8 → String} {metadata : CpkMetadata}
    {itoc : HighTable} {rows : List ItocRow} :
    CpkReader.itocTableRows shiftJis metadata itoc = .ok rows ↔
      ∃ low high, IndexRows shiftJis metadata itoc low high ∧ rows = low ++ high := by
  unfold CpkReader.itocTableRows IndexRows
  split_ifs
  · rw [collectItocRows_eq_ok]
    constructor
    · exact fun h => ⟨[], rows, ⟨rfl, h⟩, rfl⟩
    · rintro ⟨low, high, ⟨rfl, h⟩, rfl⟩
      exact h
  · simp only [Exec.bind_eq_ok, Exec.okOr_eq_ok, Exec.pure_eq, Exec.ok.injEq,
      collectItocRows_eq_ok]
    constructor
    · rintro ⟨_, hlow, dataL, rfl, _, hhigh, dataH, rfl, lowTable, hlowTable, highTable,
        hhighTable, low, hlowRows, high, hhighRows, rfl⟩
      exact ⟨low, high, ⟨dataL, dataH, lowTable, highTable, hlow, hhigh, hlowTable, hhighTable,
        hlowRows, hhighRows⟩, rfl⟩
    · rintro ⟨low, high, ⟨dataL, dataH, lowTable, highTable, hlow, hhigh, hlowTable, hhighTable,
        hlowRows, hhighRows⟩, rfl⟩
      exact ⟨_, hlow, dataL, rfl, _, hhigh, dataH, rfl, lowTable, hlowTable, highTable, hhighTable,
        low, hlowRows, high, hhighRows, rfl⟩

/-- The rows of a table are determined by its cells. -/
theorem RowsOf.unique {table : HighTable} {rows rows' : List ItocRow} (h : RowsOf table rows)
    (h' : RowsOf table rows') : rows = rows' :=
  Exec.ok.inj ((collectItocRows_eq_ok.mpr h).symm.trans (collectItocRows_eq_ok.mpr h'))

/-- The rows of an ID table are determined by its cells. -/
theorem IndexRows.unique {shiftJis : List UInt8 → String} {metadata : CpkMetadata}
    {itoc : HighTable} {low high low' high' : List ItocRow}
    (h : IndexRows shiftJis metadata itoc low high)
    (h' : IndexRows shiftJis metadata itoc low' high') : low = low' ∧ high = high' := by
  unfold IndexRows at h h'
  split_ifs at h h'
  · obtain ⟨rfl, hrows⟩ := h
    obtain ⟨rfl, hrows'⟩ := h'
    exact ⟨rfl, hrows.unique hrows'⟩
  · obtain ⟨dataL, dataH, lowTable, highTable, hL, hH, hlow, hhigh, hrowsL, hrowsH⟩ := h
    obtain ⟨dataL', dataH', lowTable', highTable', hL', hH', hlow', hhigh', hrowsL', hrowsH'⟩ := h'
    obtain rfl := Option.some.inj (Exec.ok.inj (hL.symm.trans hL'))
    obtain rfl := Option.some.inj (Exec.ok.inj (hH.symm.trans hH'))
    obtain rfl := Exec.ok.inj (hlow.symm.trans hlow')
    obtain rfl := Exec.ok.inj (hhigh.symm.trans hhigh')
    exact ⟨hrowsL.unique hrowsL', hrowsH.unique hrowsH'⟩

/-! ## Sorting -/

/-- Sorted rows without equal neighbours have strictly ascending IDs. -/
theorem pairwise_lt_of_sorted {rows : List ItocRow} (hle : rows.Pairwise fun a b => a.id ≤ b.id)
    (h : hasEqualNeighbours rows = false) : rows.Pairwise fun a b => a.id < b.id := by
  induction rows with
  | nil => exact .nil
  | cons first rows ih =>
    cases rows with
    | nil => exact List.pairwise_singleton _ _
    | cons second rows =>
      rw [hasEqualNeighbours, Bool.or_eq_false_iff, beq_eq_false_iff_ne] at h
      obtain ⟨hfirst, hrest⟩ := List.pairwise_cons.mp hle
      have hlt := ih hrest h.2
      have hsecond : first.id < second.id :=
        UInt32.lt_of_le_of_ne (hfirst second (List.mem_cons_self ..)) h.1
      refine List.pairwise_cons.mpr ⟨fun x hx => ?_, hlt⟩
      rcases List.mem_cons.mp hx with rfl | hx
      · exact hsecond
      · exact UInt32.lt_trans hsecond ((List.pairwise_cons.mp hlt).1 x hx)

/-- Sorting by ID keeps the rows. -/
theorem sortById_perm (rows : List ItocRow) : (sortById rows).Perm rows :=
  List.perm_insertionSort _ _

/-- Rows that are accepted are in strictly ascending order of their IDs. -/
theorem sortById_pairwise {rows : List ItocRow} (h : hasEqualNeighbours (sortById rows) = false) :
    (sortById rows).Pairwise fun a b => a.id < b.id :=
  pairwise_lt_of_sorted (List.pairwise_insertionSort _ _) h

/-- Rows are accepted only when no ID repeats. -/
theorem nodup_of_accepted {rows : List ItocRow} (h : hasEqualNeighbours (sortById rows) = false) :
    (rows.map ItocRow.id).Nodup := by
  refine ((sortById_perm rows).map ItocRow.id).nodup_iff.mp ?_
  rw [List.Nodup, List.pairwise_map]
  exact (sortById_pairwise h).imp fun hlt => UInt32.ne_of_lt hlt

/-- Rows without equal IDs have no equal neighbours. -/
theorem accepted_of_nodup {rows : List ItocRow} (h : (rows.map ItocRow.id).Nodup) :
    hasEqualNeighbours rows = false := by
  induction rows with
  | nil => rfl
  | cons first rows ih =>
    cases rows with
    | nil => rfl
    | cons second rows =>
      rw [List.map_cons, List.nodup_cons] at h
      rw [hasEqualNeighbours, Bool.or_eq_false_iff, beq_eq_false_iff_ne]
      exact ⟨fun heq => h.1 (by rw [heq]; exact List.mem_cons_self ..), ih h.2⟩

/-- **Sorting forgets the order** of rows with different IDs. -/
theorem sortById_congr {rows rows' : List ItocRow} (hperm : rows'.Perm rows)
    (h : hasEqualNeighbours (sortById rows) = false) : sortById rows' = sortById rows := by
  have hnodup' : (rows'.map ItocRow.id).Nodup :=
    (hperm.map ItocRow.id).nodup_iff.mpr (nodup_of_accepted h)
  have h' : hasEqualNeighbours (sortById rows') = false :=
    accepted_of_nodup (((sortById_perm rows').map ItocRow.id).nodup_iff.mpr hnodup')
  refine List.Perm.eq_of_pairwise (fun a b _ _ hab hba => ?_) (sortById_pairwise h')
    (sortById_pairwise h) ((sortById_perm rows').trans (hperm.trans (sortById_perm rows).symm))
  exact absurd (UInt32.lt_trans hab hba) (UInt32.lt_irrefl _)

/-- Whether rows are accepted does not depend on their order. -/
theorem hasEqualNeighbours_congr {rows rows' : List ItocRow} (hperm : rows'.Perm rows) :
    hasEqualNeighbours (sortById rows') = hasEqualNeighbours (sortById rows) := by
  cases h : hasEqualNeighbours (sortById rows) with
  | false => rw [sortById_congr hperm h, h]
  | true =>
    cases h' : hasEqualNeighbours (sortById rows') with
    | true => rfl
    | false =>
      rw [← sortById_congr hperm.symm h', h] at h'
      exact absurd h' (by simp)

/-! ## Placing -/

/-- The ID of a row as a number. -/
def ItocRow.number (row : ItocRow) : ℕ := row.id.toNat

/-- Rows in the order of their IDs are in the order of their numbers. -/
theorem pairwise_number {rows : List ItocRow} (h : rows.Pairwise fun a b => a.id < b.id) :
    rows.Pairwise fun a b => a.number < b.number :=
  h.imp fun hlt => UInt32.lt_iff_toNat_lt.mp hlt

/-- The room that a row takes. -/
def paddedSize (alignment : ℕ) (row : ItocRow) : ℕ := alignTo alignment row.fileSize.toNat

/-- The entry that an ID table gives back for a row. -/
def itocEntry (row : ItocRow) (relativeOffset absoluteOffset : UInt64) : CpkFile :=
  CpkFile.new "" (itocFileName row.id) relativeOffset absoluteOffset row.fileSize row.extractSize
    (some row.id) "" row.fileCrc

/-- **Where the reader places rows**: each at the sum of the room of those before it. -/
theorem materializeItocRows_eq_ok {contentOffset alignment relativeOffset : UInt64}
    (ha : 1 ≤ alignment.toNat) {rows : List ItocRow} {entries : List CpkFile}
    (h : materializeItocRows contentOffset alignment relativeOffset rows = .ok entries) :
    entries.length = rows.length ∧ ∀ (k : ℕ) (row : ItocRow), rows[k]? = some row →
      ∃ relative absolute : UInt64, entries[k]? = some (itocEntry row relative absolute) ∧
        absolute.toNat = contentOffset.toNat + (relativeOffset.toNat +
          ((rows.take k).map (paddedSize alignment.toNat)).sum) := by
  induction rows generalizing relativeOffset entries with
  | nil =>
    obtain rfl := Exec.ok.inj h
    exact ⟨rfl, fun k row hrow => by simp at hrow⟩
  | cons row rows ih =>
    obtain ⟨padded, hpadded, hvalue⟩ := readerAlignUp_eq ha row.fileSize.toUInt64
    unfold materializeItocRows at h
    simp only [hpadded, Exec.ok_bind, Exec.bind_eq_ok, Exec.okOr_eq_ok, Exec.pure_eq,
      Exec.ok.injEq] at h
    obtain ⟨absolute, habsolute, room, hroom, next, hnext, files, hfiles, rfl⟩ := h
    have hsize : room.toNat = paddedSize alignment.toNat row := by
      rw [(hvalue room).mp hroom, UInt32.toNat_toUInt64, paddedSize]
    obtain ⟨hlen, hall⟩ := ih hfiles
    refine ⟨by simp [hlen], fun k row' hrow => ?_⟩
    rcases k with _ | k
    · obtain rfl := Option.some.inj hrow
      exact ⟨_, _, rfl, by simpa using UInt64.checkedAdd_eq_some.mp habsolute⟩
    · obtain ⟨relative, absolute', hentry, hoffset⟩ := hall k row' hrow
      refine ⟨relative, absolute', hentry, ?_⟩
      rw [hoffset, UInt64.checkedAdd_eq_some.mp hnext, hsize, List.take_succ_cons, List.map_cons,
        List.sum_cons]
      omega

/-! ## The engine's lookup -/

/-- The offset of an ID by the engine's lookup: search both tables, and add up the room of the rows
before the index, or the insertion index, in each of them. -/
def engineOffset (contentOffset alignment : ℕ) (low high : List ItocRow) (id : UInt32) : Option ℕ :=
  let inLow := binarySearch ItocRow.number low id.toNat
  let inHigh := binarySearch ItocRow.number high id.toNat
  if inLow.isFound || inHigh.isFound then
    some (contentOffset + (((low.take inLow.index).map (paddedSize alignment)).sum +
      ((high.take inHigh.index).map (paddedSize alignment)).sum))
  else none

/-- In sorted tables the lookup finds the IDs there are, at the sum of the room of all rows with
smaller IDs. -/
theorem engineOffset_eq {contentOffset alignment : ℕ} {low high : List ItocRow}
    (hlow : low.Pairwise fun a b => a.id < b.id) (hhigh : high.Pairwise fun a b => a.id < b.id)
    {id : UInt32} (hid : ∃ row ∈ low ++ high, row.id = id) :
    engineOffset contentOffset alignment low high id =
      some (contentOffset +
        sumBelow ItocRow.number (paddedSize alignment) (low ++ high) id.toNat) := by
  have hlow' := pairwise_number hlow
  have hhigh' := pairwise_number hhigh
  have hfound : ((binarySearch ItocRow.number low id.toNat).isFound ||
      (binarySearch ItocRow.number high id.toNat).isFound) = true := by
    obtain ⟨row, hrow, rfl⟩ := hid
    rw [Bool.or_eq_true, (binarySearch_eq hlow' _).1, (binarySearch_eq hhigh' _).1]
    exact (List.mem_append.mp hrow).imp (fun h => ⟨row, h, rfl⟩) fun h => ⟨row, h, rfl⟩
  rw [sumBelow_append, sumBelow_eq_search hlow', sumBelow_eq_search hhigh']
  exact if_pos hfound

/-! ## Reading -/

namespace CpkReader

variable (shiftJis : List UInt8 → String)

/-- The reader finds an ID table with these rows. -/
def ReadsRows (m : CpkMetadata) (r : CpkReader) (low high : List ItocRow) : Prop :=
  ∃ (position : UInt64) (itoc : HighTable) (r' : CpkReader),
    r.startPos.checkedAdd m.itocOffset = some position ∧
      readTable shiftJis position.toNat .itoc r = (.ok itoc, r') ∧
      IndexRows shiftJis m itoc low high

variable {shiftJis} in
/-- There is only one way to read the rows of an ID table. -/
theorem ReadsRows.unique {m : CpkMetadata} {r : CpkReader} {low high low' high' : List ItocRow}
    (h : ReadsRows shiftJis m r low high) (h' : ReadsRows shiftJis m r low' high') :
    low = low' ∧ high = high' := by
  obtain ⟨position, itoc, r₁, hposition, htable, hrows⟩ := h
  obtain ⟨position', itoc', r₂, hposition', htable', hrows'⟩ := h'
  obtain rfl := Option.some.inj (hposition.symm.trans hposition')
  obtain ⟨hsame, -⟩ := Prod.mk.inj (htable.symm.trans htable')
  obtain rfl := Exec.ok.inj hsame
  exact hrows.unique hrows'

/-- What the reader makes of rows. -/
def entriesOfRows (m : CpkMetadata) (rows : List ItocRow) : Exec Error (List CpkFile) := do
  Exec.errIf (m.contentOffset = 0) (.reader .missingContentOffset)
  Exec.errIf (2 ^ 32 ≤ m.contentOffset.toNat) (.reader (.itocContentOffsetTooLarge m.contentOffset))
  Exec.errIf (hasEqualNeighbours (sortById rows)) (.reader .invalidItoc)
  materializeItocRows m.contentOffset (max m.align 1).toUInt64 0 (sortById rows)

variable {shiftJis}

/-- **Reading an ID table** depends on its rows only. -/
theorem readItoc_of_rows {m : CpkMetadata} {r : CpkReader} {low high : List ItocRow}
    (h : ReadsRows shiftJis m r low high) :
    (readItoc shiftJis m r).1 = entriesOfRows m (low ++ high) := by
  obtain ⟨position, itoc, r', hposition, htable, hrows⟩ := h
  have hrows' := itocTableRows_eq_ok.mpr ⟨low, high, hrows, rfl⟩
  unfold readItoc entriesOfRows
  rw [ExecM.bind_of_ok (ExecM.get_apply r)]
  by_cases hzero : m.contentOffset = 0
  · rw [Exec.errIf, if_pos hzero]
    rfl
  rw [Exec.errIf_of_not hzero, ExecM.bind_of_ok (ExecM.lift_apply _ _), Exec.ok_bind]
  by_cases hlarge : 2 ^ 32 ≤ m.contentOffset.toNat
  · rw [Exec.errIf, if_pos hlarge]
    rfl
  rw [Exec.errIf_of_not hlarge, ExecM.bind_of_ok (ExecM.lift_apply _ _), Exec.ok_bind,
    ExecM.bind_of_ok (by rw [ExecM.lift_apply, hposition, Exec.okOr_some]),
    ExecM.bind_of_ok htable, ExecM.bind_of_ok (by rw [ExecM.lift_apply, hrows'])]
  by_cases hequal : hasEqualNeighbours (sortById (low ++ high)) = true
  · rw [Exec.errIf, if_pos hequal]
    rfl
  rw [Exec.errIf_of_not hequal, ExecM.bind_of_ok (ExecM.lift_apply _ _), Exec.ok_bind,
    ExecM.lift_apply]

/-- An ID table that is accepted has rows. -/
theorem readsRows_of_ok {m : CpkMetadata} {r : CpkReader} {entries : List CpkFile}
    (h : (readItoc shiftJis m r).1 = .ok entries) : ∃ low high, ReadsRows shiftJis m r low high := by
  obtain ⟨r', h⟩ := ExecM.exists_of_fst h
  unfold readItoc at h
  simp only [ExecM.bind_eq_ok, ExecM.lift_eq_ok, Exec.okOr_eq_ok, ExecM.get_apply, Prod.mk.injEq,
    Exec.ok.injEq] at h
  obtain ⟨_, _, ⟨rfl, rfl⟩, _, _, ⟨-, rfl⟩, _, _, ⟨-, rfl⟩, position, _, ⟨hposition, rfl⟩, itoc,
    r₁, htable, rows, _, ⟨hrows, -⟩, -⟩ := h
  obtain ⟨low, high, hindex, -⟩ := itocTableRows_eq_ok.mp hrows
  exact ⟨low, high, position, itoc, r₁, hposition, htable, hindex⟩

/-- The entries of rows that are accepted. -/
theorem entriesOfRows_eq_ok {m : CpkMetadata} {rows : List ItocRow} {entries : List CpkFile}
    (h : entriesOfRows m rows = .ok entries) : hasEqualNeighbours (sortById rows) = false ∧
      materializeItocRows m.contentOffset (max m.align 1).toUInt64 0 (sortById rows) =
        .ok entries := by
  unfold entriesOfRows at h
  simp only [Exec.bind_eq_ok, Exec.errIf_eq_ok] at h
  obtain ⟨-, -, -, -, -, hequal, hentries⟩ := h
  exact ⟨Bool.not_eq_true _ ▸ hequal, hentries⟩

variable (shiftJis) in
/-- **The offsets of an ID table.** The entries that are returned are the rows of the table in
strictly ascending order of their IDs, each at the content offset and, by its ID, the sums of the
aligned sizes before it in the two nested tables. Rows with equal IDs are an error, and the outcome
depends neither on the order of the rows nor on the table a row stands in.

**Proof sketch.** What is returned comes from `entriesOfRows` on the rows of the table
(`readItoc_of_rows`). The sort puts the rows in ascending order of their IDs, strictly because equal
neighbours are an error, and places them one after the other (`materializeItocRows_eq_ok`); the
sizes before a row in sorted order are those of the rows with smaller IDs, of either table. Repeated
IDs would be equal neighbours. A permutation of the rows is sorted to the same list. -/
theorem readItoc_prefixSums (m : CpkMetadata) (r : CpkReader) :
    (∀ entries, (readItoc shiftJis m r).1 = .ok entries →
      ∃ low high rows, ReadsRows shiftJis m r low high ∧ rows.Perm (low ++ high) ∧
        (rows.map ItocRow.id).Pairwise (· < ·) ∧
        List.Forall₂ (fun row e => ∃ relative absolute, e = itocEntry row relative absolute ∧
          absolute.toNat = m.contentOffset.toNat +
            (sumBelow ItocRow.number (paddedSize (max m.align.toNat 1)) low row.number +
              sumBelow ItocRow.number (paddedSize (max m.align.toNat 1)) high row.number)) rows entries) ∧
    (∀ low high, ReadsRows shiftJis m r low high → ¬((low ++ high).map ItocRow.id).Nodup →
      ∃ e, (readItoc shiftJis m r).1 = .err e) ∧
    ∀ m' r' low high low' high', ReadsRows shiftJis m r low high →
      ReadsRows shiftJis m' r' low' high' → (low' ++ high').Perm (low ++ high) →
      m'.contentOffset = m.contentOffset → m'.align = m.align →
      (readItoc shiftJis m' r').1 = (readItoc shiftJis m r).1 := by
  refine ⟨fun entries h => ?_, fun low high hrows hdup => ?_, ?_⟩
  · obtain ⟨low, high, hrows⟩ := readsRows_of_ok h
    rw [readItoc_of_rows hrows] at h
    obtain ⟨hequal, hentries⟩ := entriesOfRows_eq_ok h
    have hsorted := sortById_pairwise hequal
    have halign : 1 ≤ (max m.align 1).toUInt64.toNat := by
      rw [toNat_max_one]
      exact le_max_right _ _
    obtain ⟨hlen, hall⟩ := materializeItocRows_eq_ok halign hentries
    refine ⟨low, high, _, hrows, sortById_perm _, List.pairwise_map.mpr hsorted,
      List.forall₂_iff_get.mpr ⟨hlen.symm, fun k hk hk' => ?_⟩⟩
    obtain ⟨relative, absolute, hentry, hoffset⟩ := hall k _ (List.getElem?_eq_getElem hk)
    refine ⟨relative, absolute, (List.getElem?_eq_some_iff.mp hentry).2, ?_⟩
    -- the rows before the row are those with smaller IDs, of either table
    rw [hoffset, ← sumBelow_eq_take (pairwise_number hsorted) (List.getElem?_eq_getElem hk),
      sumBelow_perm _ _ (sortById_perm _), sumBelow_append, toNat_max_one]
    rw [show (0 : UInt64).toNat = 0 from rfl, Nat.zero_add]
    rfl
  · rcases houtcome : (readItoc shiftJis m r).1 with entries | e | _
    · rw [readItoc_of_rows hrows] at houtcome
      exact absurd (nodup_of_accepted (entriesOfRows_eq_ok houtcome).1) hdup
    · exact ⟨e, rfl⟩
    · exact absurd houtcome (safe_readItoc m r).ne_fault
  · intro m' r' low high low' high' hrows hrows' hperm hcontent halign
    rw [readItoc_of_rows hrows, readItoc_of_rows hrows']
    unfold entriesOfRows
    rw [hcontent, halign, hasEqualNeighbours_congr hperm]
    cases hequal : hasEqualNeighbours (sortById (low ++ high)) with
    | true => rfl
    | false => rw [sortById_congr hperm hequal]

/-- A narrow table with the IDs 5 and 1, in this order. -/
def sampleDataL : List UInt8 :=
  (itocBuilder [⟨"", "", [], 10, 10, 5, "", none⟩, ⟨"", "", [], 7, 7, 1, "", none⟩] true
    "CpkItocL").build.value?.getD []

/-- A wide table with the ID 3. -/
def sampleDataH : List UInt8 :=
  (itocBuilder [⟨"", "", [], 4, 0x10000, 3, "", none⟩] false "CpkItocH").build.value?.getD []

/-- A reader of the chunk of an ID table that nests both. -/
def sampleItocReader : CpkReader :=
  CpkReader.new (buildChunk .itoc ((itocNestBuilder sampleDataL sampleDataH).build.value?.getD [])) 0
    (fun _ => 0) fun _ => 0

/-- Metadata with the alignment 6 and contents that start at 100. -/
def sampleItocMetadata : CpkMetadata :=
  ⟨0, 100, 0, 0, 0, 0, 0, 0, 0, 0, 0, 7, 0, 6, false, 0, 3, 0, false, 0, 0, 0, false, false⟩

/-- The rows are found in both tables. -/
theorem readsRows_sample : ReadsRows (fun _ => "") sampleItocMetadata sampleItocReader
    [⟨5, 10, 10, none⟩, ⟨1, 7, 7, none⟩] [⟨3, 4, 0x10000, none⟩] := by
  obtain ⟨itoc, htable, hL, hH⟩ : ∃ itoc,
      (readTable (fun _ => "") 0 .itoc sampleItocReader).1 = .ok itoc ∧
        itoc.dataByName 0 "DataL" = .ok (some sampleDataL) ∧
        itoc.dataByName 0 "DataH" = .ok (some sampleDataH) := by
    decide +kernel
  obtain ⟨lowTable, hlow, hrowsL⟩ : ∃ t, HighTable.new (fun _ => "") sampleDataL = .ok t ∧
      collectItocRows t = .ok [⟨5, 10, 10, none⟩, ⟨1, 7, 7, none⟩] := by
    decide +kernel
  obtain ⟨highTable, hhigh, hrowsH⟩ : ∃ t, HighTable.new (fun _ => "") sampleDataH = .ok t ∧
      collectItocRows t = .ok [⟨3, 4, 0x10000, none⟩] := by
    decide +kernel
  obtain ⟨r', hread⟩ := ExecM.exists_of_fst htable
  refine ⟨0, itoc, r', rfl, hread, (if_neg (not_not.mpr rfl)).mpr ?_⟩
  exact ⟨sampleDataL, sampleDataH, lowTable, highTable, hL, hH, hlow, hhigh,
    collectItocRows_eq_ok.mp hrowsL, collectItocRows_eq_ok.mp hrowsH⟩

/-- The entries come with the IDs 1, 3 and 5, each after those with smaller IDs of either table. -/
theorem readItoc_prefixSums_sample : ∃ (entries : List CpkFile) (low high rows : List ItocRow),
    (readItoc (fun _ => "") sampleItocMetadata sampleItocReader).1 = .ok entries ∧
      ReadsRows (fun _ => "") sampleItocMetadata sampleItocReader low high ∧
      low.length = 2 ∧ high.length = 1 ∧ rows.Perm (low ++ high) ∧
      (rows.map ItocRow.id).Pairwise (· < ·) ∧ entries.length = 3 ∧
      entries.map CpkFile.absoluteOffset = [100, 112, 118] := by
  obtain ⟨entries, hread, hoffsets⟩ : ∃ entries,
      (readItoc (fun _ => "") sampleItocMetadata sampleItocReader).1 = .ok entries ∧
        entries.map CpkFile.absoluteOffset = [100, 112, 118] := by
    decide +kernel
  obtain ⟨low, high, rows, hrows, hperm, hsorted, hentries⟩ :=
    (readItoc_prefixSums (fun _ => "") sampleItocMetadata sampleItocReader).1 entries hread
  obtain ⟨rfl, rfl⟩ := hrows.unique readsRows_sample
  have hlen : entries.length = 3 := by rw [← hentries.length_eq, hperm.length_eq]; rfl
  exact ⟨entries, _, _, rows, hread, hrows, rfl, rfl, hperm, hsorted, hlen, hoffsets⟩

end CpkReader

end CriArchive
