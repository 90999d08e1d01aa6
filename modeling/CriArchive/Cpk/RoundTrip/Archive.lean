import CriArchive.Cpk.IndexOrder
import CriArchive.Cpk.RoundTrip.Cells

set_option relaxedAutoImplicit false
set_option autoImplicit false

/-!
# Reading a written archive

The two indexes of a written archive, and its payloads, as the reader finds them. Every statement
is about a reader on the bytes that the writer put out on an empty stream.

## Main definitions

* `Written` — what is known of an archive that was written.

## Main results

* `Written.readMetadata_eq` — the archive header.
* `Written.readToc_eq`, `Written.readItoc_eq` — the entries of the two indexes.
* `Written.readPackedFile_eq` — the payload of an entry.
-/

namespace CriArchive

open ByteStream Regions CpkReader

/-! ## Placing the rows of an ID table -/

/-- **The reader places rows** as an aligned placement does, when it ends below `2 ^ 64`.

**Proof sketch.** Induction on the rows. Neither the offset of a row nor that of the next one
overflows, as the end of all rows is below `2 ^ 64`; the next offset is the aligned end of the row,
as in the placement. -/
theorem materializeItocRows_eq (contentOffset alignment : UInt64) (ha : 0 < alignment.toNat)
    (relativeOffset : UInt64) (hdvd : alignment.toNat ∣ relativeOffset.toNat) (rows : List ItocRow)
    (hend : contentOffset.toNat + placeEnd alignment.toNat relativeOffset.toNat
      (rows.map fun row => row.fileSize.toNat) < 2 ^ 64) :
    ∃ entries, materializeItocRows contentOffset alignment relativeOffset rows = .ok entries ∧
      entries.length = rows.length ∧ ∀ (k : ℕ) (row : ItocRow) (offset : ℕ), rows[k]? = some row →
        (place alignment.toNat relativeOffset.toNat
          (rows.map fun row => row.fileSize.toNat))[k]? = some offset →
        ∃ relative absolute : UInt64, absolute.toNat = contentOffset.toNat + offset ∧
          entries[k]? = some (itocEntry row relative absolute) := by
  induction rows generalizing relativeOffset with
  | nil => exact ⟨[], rfl, rfl, fun k row offset hrow _ => by simp at hrow⟩
  | cons row rows ih =>
    rw [List.map_cons, placeEnd, alignTo_add ha hdvd] at hend
    have hle := le_placeEnd ha (relativeOffset.toNat + alignTo alignment.toNat row.fileSize.toNat)
      (rows.map fun row => row.fileSize.toNat)
    -- neither of the sums overflows
    obtain ⟨absolute, habsolute⟩ : ∃ absolute : UInt64,
        absolute.toNat = contentOffset.toNat + relativeOffset.toNat :=
      ⟨UInt64.ofNat _, UInt64.toNat_ofNat_of_lt' (by rw [UInt64.size]; omega)⟩
    obtain ⟨paddedSize, hpaddedSize⟩ : ∃ paddedSize : UInt64,
        paddedSize.toNat = alignTo alignment.toNat row.fileSize.toNat :=
      ⟨UInt64.ofNat _, UInt64.toNat_ofNat_of_lt' (by rw [UInt64.size]; omega)⟩
    obtain ⟨next, hnext⟩ : ∃ next : UInt64,
        next.toNat = relativeOffset.toNat + paddedSize.toNat :=
      ⟨UInt64.ofNat _, UInt64.toNat_ofNat_of_lt' (by rw [UInt64.size]; omega)⟩
    have hnext' : next.toNat = relativeOffset.toNat + alignTo alignment.toNat row.fileSize.toNat := by
      rw [hnext, hpaddedSize]
    obtain ⟨padded, hpadded, hvalue⟩ := readerAlignUp_eq ha row.fileSize.toUInt64
    have hsome : padded = some paddedSize :=
      (hvalue paddedSize).mpr (by rw [hpaddedSize, UInt32.toNat_toUInt64])
    obtain ⟨entries, hentries, hlen, hall⟩ := ih next
      (by rw [hnext']; exact (Nat.dvd_add_right hdvd).mpr (dvd_alignTo _ _))
      (by rw [hnext']; exact hend)
    refine ⟨itocEntry row relativeOffset absolute :: entries, ?_, by simp [hlen], ?_⟩
    · unfold materializeItocRows
      rw [UInt64.checkedAdd_eq_some.mpr habsolute, Exec.okOr_some, Exec.ok_bind, hpadded,
        Exec.ok_bind, hsome, Exec.okOr_some, Exec.ok_bind, UInt64.checkedAdd_eq_some.mpr hnext,
        Exec.okOr_some, Exec.ok_bind, hentries]
      rfl
    · intro k row' offset hrow hoffset
      rw [List.map_cons, place, alignTo_add ha hdvd, ← hnext'] at hoffset
      rcases k with _ | k
      · obtain rfl := Option.some.inj hrow
        obtain rfl := Option.some.inj hoffset
        exact ⟨relativeOffset, absolute, habsolute, rfl⟩
      · exact hall k row' offset hrow hoffset

/-! ## The rows of an ID table -/

/-- The rows of the narrow entries, which a nested ID table keeps apart. -/
def lowRows (physical : List CpkInputFile) (direct : Bool) : List ItocRow :=
  if direct = true then [] else (physical.filter CpkInputFile.fitsLow).map itocRowRead

/-- The other rows. -/
def highRows (physical : List CpkInputFile) (direct : Bool) : List ItocRow :=
  if direct = true then physical.map itocRowRead
  else (physical.filter (!CpkInputFile.fitsLow ·)).map itocRowRead

/-- Both nested tables together have the rows of all entries. -/
theorem rows_perm (physical : List CpkInputFile) (direct : Bool) :
    (lowRows physical direct ++ highRows physical direct).Perm (physical.map itocRowRead) := by
  unfold lowRows highRows
  split_ifs
  · exact List.Perm.refl _
  · rw [← List.map_append]
    exact (List.filter_append_perm CpkInputFile.fitsLow physical).map itocRowRead

/-! ## A written archive -/

section Written

variable (fs : FileSystem) (path : P5RPath) (files : List CpkInputFile)
  (options : CpkWriterOptions) (profile : CpkWriterProfile)

/-- What is known of an archive that was written on an empty stream: its plan, its payloads in
physical order, and its bytes. -/
structure Written (report : CpkWriteReport) (bytes : List UInt8) where
  plan : CpkPlan
  payloads : List (List UInt8)
  plan_eq : planArchive files options profile = .ok plan
  report_eq : report = plan.report
  planned : plan.Planned files options profile
  emits : List.Forall₂ (Emits fs path options.p5rEncryption) (inOrder files plan.physicalOrder)
    payloads
  bytes_eq : bytes = assemble 0 [] (plan.regions options.alignment.toNat payloads)

variable {fs path files options profile}

/-- An archive that the writer returned was written. -/
theorem written_of_ok {report : CpkWriteReport} {out : ByteStream}
    (h : writeWithProfile fs path files options profile ⟨[], 0⟩ = (.ok report, out)) :
    Nonempty (Written fs path files options profile report out.bytes) := by
  obtain ⟨plan, payloads, hplan, hreport, hp, hpayloads, hover⟩ :=
    (writeWithProfile_ends fs path files options profile ⟨[], 0⟩).of_ok h
  exact ⟨⟨plan, payloads, hplan, hreport, hp, hpayloads, hover.bytes_eq⟩⟩

namespace Written

variable {report : CpkWriteReport} {bytes : List UInt8}
  (w : Written fs path files options profile report bytes)

/-- The metadata of the archive. -/
def metadata : CpkMetadata := writtenMetadata (w.plan.headerNumbers options) profile

include w

/-- The plan of a written archive is laid out. -/
theorem layout : w.plan.Layout files profile.indexMode options.alignment.toNat bytes := by
  have hlayout := layout_assemble w.planned w.emits
  rwa [← w.bytes_eq] at hlayout

/-- The entry with an index lies in the plan. -/
theorem offset_of_file {i : ℕ} {f : CpkInputFile} (hf : files[i]? = some f) :
    ∃ o, w.plan.absoluteOffsets[i]? = some o := by
  have hi := (List.getElem?_eq_some_iff.mp hf).1
  rw [← w.planned.lengthOffsets] at hi
  exact ⟨_, List.getElem?_eq_getElem hi⟩

/-- **The archive header is read back.** -/
theorem readMetadata_eq (shiftJis : List UInt8 → String) {r : CpkReader}
    (hbytes : r.stream.bytes = bytes) (hstart : r.startPos = 0) :
    ∃ pos, readMetadata shiftJis r =
      (.ok w.metadata, { r with stream := ⟨bytes, pos⟩, metadata := some w.metadata }) := by
  have hfits := w.planned.headerFits
  rw [copyrightMarkerOffset] at hfits
  obtain ⟨rest, hdrop⟩ := drop_of_window w.layout.header.2
  obtain ⟨t, pos, htable, hread⟩ := readTable_eq shiftJis .cpk 0 w.planned.header (by omega)
    (by simp) (fun _ => by omega) (r := r) (by rw [hbytes]; exact hdrop)
  have hrows : t.rows ≠ [] := by
    intro hnil
    have hcount := hread.rowCount
    rw [hnil] at hcount
    simp [headerBuilder] at hcount
  have hposition : r.startPos.toNat = 0 := by
    rw [hstart]
    rfl
  refine ⟨pos, ?_⟩
  unfold readMetadata
  rw [ExecM.bind_of_ok (ExecM.get_apply r), hposition, ExecM.bind_of_ok htable,
    ExecM.bind_of_ok (by rw [ExecM.lift_apply, Exec.errIf_of_not hrows]),
    ExecM.bind_of_ok (ExecM.get_apply _), ExecM.bind_of_ok (ExecM.set_apply _ _),
    ExecM.pure_apply, parseMetadata_headerBuilder hread, hbytes]
  rfl

/-- The table of contents is found, and its rows are read from a table that reads back. -/
theorem readToc_table (shiftJis : List UInt8 → String) (htoc : profile.indexMode.hasToc = true)
    (h32 : ∀ table, w.plan.tocTable = some table → table.length < 2 ^ 32) {r : CpkReader}
    (hbytes : r.stream.bytes = bytes) (hstart : r.startPos = 0) :
    ∃ t pos offsets, (tocBuilder files offsets).ReadBack t ∧
      List.Forall₂ (fun o r => UInt64.toNat o = 0x800 + UInt64.toNat r) w.plan.absoluteOffsets
        offsets ∧
      readToc shiftJis w.metadata r = ((do
        let columns ← tocColumns t
        tocRows t columns t.rows.length 0), { r with stream := ⟨bytes, pos⟩ }) := by
  obtain ⟨hoffset, offsets, table, htable, hbuild, hoffsets⟩ := w.planned.toc htoc
  obtain ⟨-, -, hwindow⟩ := w.layout.toc table htable
  obtain ⟨rest, hdrop⟩ := drop_of_window hwindow
  obtain ⟨t, pos, hread, hback⟩ := readTable_eq shiftJis .toc 0x800 hbuild (h32 table htable)
    (by simp) (by simp) (r := r) (by rw [hbytes]; exact hdrop)
  have hposition : r.startPos.checkedAdd w.metadata.tocOffset = some 0x800 := by
    rw [UInt64.checkedAdd_eq_some, hstart, metadata, writtenMetadata, CpkPlan.headerNumbers, hoffset]
    rfl
  refine ⟨t, pos, offsets, hback, hoffsets, ?_⟩
  unfold readToc
  rw [ExecM.bind_of_ok (ExecM.get_apply r),
    ExecM.bind_of_ok (by rw [ExecM.lift_apply, hposition, Exec.okOr_some])]
  refine (ExecM.bind_of_ok hread _).trans ?_
  rw [tocColumns_tocBuilder hback, Exec.ok_bind, ExecM.bind_of_ok (ExecM.lift_apply _ _),
    ExecM.lift_apply, hbytes]

/-- **The table of contents is read back.** -/
theorem readToc_eq (shiftJis : List UInt8 → String) (htoc : profile.indexMode.hasToc = true)
    (hnames : ∀ f ∈ files, f.fileName ≠ "")
    (h32 : ∀ table, w.plan.tocTable = some table → table.length < 2 ^ 32) {r : CpkReader}
    (hbytes : r.stream.bytes = bytes) (hstart : r.startPos = 0) :
    ∃ entries pos, readToc shiftJis w.metadata r =
        (.ok entries, { r with stream := ⟨bytes, pos⟩ }) ∧ entries.length = files.length ∧
      ∀ (i : ℕ) (f : CpkInputFile) (o : UInt64), files[i]? = some f →
        w.plan.absoluteOffsets[i]? = some o → ∃ rel, entries[i]? = some (tocEntry f rel o) := by
  obtain ⟨t, pos, offsets, hback, hoffsets, hread⟩ :=
    w.readToc_table shiftJis htoc h32 hbytes hstart
  obtain ⟨entries, hentries, hlen, hall⟩ := tocRows_tocBuilder hback w.planned.lengthOffsets hnames
    hoffsets
  exact ⟨entries, pos, by rw [hread, hentries], hlen, hall⟩

/-! ### The ID table -/

/-- The entries in physical order. -/
def physical : List CpkInputFile := inOrder files w.plan.physicalOrder

/-- With an ID table, the IDs fit 16 bits and are strictly ascending in physical order. -/
theorem ids_physical (hitoc : profile.indexMode.hasItoc = true) :
    (∀ f ∈ w.physical, f.id.toNat < 2 ^ 16) ∧
      (w.physical.map CpkInputFile.id).Pairwise (· < ·) := by
  obtain ⟨hperm, -, hids⟩ := buildPhysicalOrder_spec w.planned.order
  exact ⟨fun f hf => (hids hitoc).1 f ((inOrder_perm hperm).mem_iff.mp hf), (hids hitoc).2⟩

/-- There are at most as many entries as 16-bit IDs. -/
theorem length_physical_le (hitoc : profile.indexMode.hasItoc = true) :
    w.physical.length ≤ 2 ^ 16 := by
  obtain ⟨hsmall, hids⟩ := w.ids_physical hitoc
  have hnodup : (w.physical.map fun f => f.id.toNat).Nodup := by
    rw [List.pairwise_map] at hids
    rw [List.Nodup, List.pairwise_map]
    exact hids.imp fun hab heq => UInt32.ne_of_lt hab (UInt32.toNat_inj.mp heq)
  have hrange : (w.physical.map fun f => f.id.toNat) ⊆ List.range (2 ^ 16) := fun n hn => by
    obtain ⟨f, hf, rfl⟩ := List.mem_map.mp hn
    exact List.mem_range.mpr (hsmall f hf)
  have hle := hnodup.length_le_of_subset hrange
  simpa using hle

omit w in
/-- An ID table of at most `2 ^ 16` entries is small. -/
theorem length_itocBuilder_le {physical : List CpkInputFile} (hcount : physical.length ≤ 2 ^ 16)
    {lowWidth : Bool} {name : String} (hname : name.asBytes.length ≤ 0x10) {table : List UInt8}
    (h : (itocBuilder physical lowWidth name).build = .ok table) : table.length ≤ 2 ^ 20 := by
  have hle := UtfTableBuilder.length_build_le h
  obtain ⟨hstrings, hdata⟩ := UtfTableBuilder.cells_of_numbers
    (b := itocBuilder physical lowWidth name) fun row hrow v hv => by
      obtain ⟨f, -, rfl⟩ := List.mem_map.mp hrow
      cases lowWidth <;> simp [itocRowOf] at hv <;> rcases hv with rfl | rfl | rfl <;>
        simp [UtfValue.valueType]
  have hwidth : (itocBuilder physical lowWidth name).rowWidth ≤ 10 := by
    cases lowWidth <;> simp [UtfTableBuilder.rowWidth, itocBuilder, itocColumns, UtfType.size]
  have hnames : UtfTableBuilder.poolBytes
      ((itocBuilder physical lowWidth name).columns.map UtfColumn.name) = 24 := by
    have hcolumns : ∀ sizeType, UtfTableBuilder.poolBytes
        ((itocColumns sizeType).map UtfColumn.name) = 24 := fun sizeType => by
      cases sizeType <;> decide +kernel
    exact hcolumns _
  have hrows : (itocBuilder physical lowWidth name).rows.length = physical.length := by
    simp [itocBuilder]
  have hmul : (itocBuilder physical lowWidth name).rowWidth * physical.length ≤ 10 * 2 ^ 16 :=
    Nat.mul_le_mul hwidth hcount
  have hcolumns : (itocBuilder physical lowWidth name).columns.length = 3 := rfl
  have hbuilderName : (itocBuilder physical lowWidth name).name = name := rfl
  rw [hstrings, hdata, hnames, hrows, hcolumns, hbuilderName, UtfTableBuilder.poolBytes,
    List.map_nil, List.sum_nil] at hle
  omega

omit w in
/-- The table that nests two small ID tables is small. -/
theorem length_itocNestBuilder_le {low high table : List UInt8} (hlow : low.length ≤ 2 ^ 20)
    (hhigh : high.length ≤ 2 ^ 20) (h : (itocNestBuilder low high).build = .ok table) :
    table.length < 2 ^ 32 := by
  have hle := UtfTableBuilder.length_build_le h
  have hstrings : UtfTableBuilder.poolBytes (itocNestBuilder low high).cellStrings = 0 := rfl
  have hdata : ((itocNestBuilder low high).cells.map UtfTableBuilder.dataBytes).sum =
      low.length + (high.length + 0) := rfl
  have hwidth : (itocNestBuilder low high).rowWidth = 16 := rfl
  have hname : (itocNestBuilder low high).name.asBytes.length ≤ 0x10 :=
    (by decide +kernel : "CpkItocInfo".asBytes.length ≤ 0x10)
  have hnames : UtfTableBuilder.poolBytes
      ((itocNestBuilder low high).columns.map UtfColumn.name) = 12 :=
    (by decide +kernel : UtfTableBuilder.poolBytes (itocNestColumns.map UtfColumn.name) = 12)
  have hrows : (itocNestBuilder low high).rows.length = 1 := rfl
  have hcolumns : (itocNestBuilder low high).columns.length = 2 := rfl
  rw [hstrings, hdata, hwidth, hnames, hrows, hcolumns] at hle
  omega

omit w in
/-- A nested table is read back from its data cell. -/
theorem dataByName_itocNestBuilder {low high : List UInt8} {t : HighTable}
    (h : (itocNestBuilder low high).ReadBack t) (hlow : low ≠ []) (hhigh : high ≠ []) :
    t.dataByName 0 "DataL" = .ok (some low) ∧ t.dataByName 0 "DataH" = .ok (some high) := by
  have hcell : ∀ (name : String) (j : ℕ) (bs : List UInt8),
      itocNestColumns.findIdx? (·.name.nulPrefix == name) = some j →
      ([UtfValue.data low, UtfValue.data high] : List UtfValue)[j]? = some (.data bs) → bs ≠ [] →
      t.dataByName 0 name = .ok (some bs) := by
    intro name j bs hcolumn hv hne
    obtain ⟨cell, hvalue, value, rfl, hlen, hdata⟩ := h.value 0 j _ _ rfl hv
    have hname : t.valueByName 0 name = some (.data value) := by
      rw [HighTable.valueByName, h.columnIndex, itocNestBuilder, hcolumn]
      exact hvalue
    have hsome : value.isNone = false := by
      rw [DataValue.isNone, beq_eq_false_iff_ne]
      intro hzero
      rw [hzero] at hlen
      exact hne (List.eq_nil_of_length_eq_zero hlen.symm)
    rw [HighTable.dataByName, hname]
    simp only [hsome]
    exact hdata
  exact ⟨hcell "DataL" 0 low (by decide +kernel) rfl hlow,
    hcell "DataH" 1 high (by decide +kernel) rfl hhigh⟩

/-- The rows of the ID table, direct or nested, are those of the entries in physical order.

**Proof sketch.** A direct table is read back row by row. The tables of the other form are built
apart and stored as data of a third one; each is read back, its signature shows that it is not
empty, and the cells of the third table give them back. -/
theorem indexRows_eq (shiftJis : List UInt8 → String)
    (hitoc : profile.indexMode.hasItoc = true) {table : List UInt8}
    (htable : itocTableOf w.physical profile.directItoc = .ok table) :
    table.length < 2 ^ 32 ∧ ∃ b : UtfTableBuilder, b.build = .ok table ∧
      ∀ t, b.ReadBack t → IndexRows shiftJis w.metadata t (lowRows w.physical profile.directItoc)
        (highRows w.physical profile.directItoc) := by
  obtain ⟨hsmall, -⟩ := w.ids_physical hitoc
  have hcount := w.length_physical_le hitoc
  have heid : w.metadata.eid = if profile.directItoc = true then 1 else 0 := by
    rw [metadata, writtenMetadata, hitoc, Bool.true_and]
  unfold IndexRows lowRows highRows
  unfold itocTableOf at htable
  split_ifs at htable with hdirect
  · have hlen := length_itocBuilder_le hcount (by decide +kernel) htable
    refine ⟨by omega, _, htable, fun t hread => ?_⟩
    rw [heid, if_pos hdirect, if_pos hdirect, if_pos (by decide), if_pos hdirect]
    exact ⟨rfl, collectItocRows_eq_ok.mp (collectItocRows_itocBuilder hread hsmall (by simp))⟩
  · simp only [Exec.bind_eq_ok] at htable
    obtain ⟨low, hlow, high, hhigh, hnest⟩ := htable
    have hfilter : ∀ p : CpkInputFile → Bool, (w.physical.filter p).length ≤ 2 ^ 16 := fun p =>
      (List.length_filter_le p w.physical).trans hcount
    have hlowLen := length_itocBuilder_le (hfilter _) (by decide +kernel) hlow
    have hhighLen := length_itocBuilder_le (hfilter _) (by decide +kernel) hhigh
    refine ⟨length_itocNestBuilder_le hlowLen hhighLen hnest, _, hnest, fun t hread => ?_⟩
    obtain ⟨tl, hnewLow, hreadLow⟩ :=
      UtfTableBuilder.readBack_of_build shiftJis hlow (by omega)
    obtain ⟨th, hnewHigh, hreadHigh⟩ :=
      UtfTableBuilder.readBack_of_build shiftJis hhigh (by omega)
    have hne : ∀ {bs : List UInt8} {u : HighTable}, HighTable.new shiftJis bs = .ok u → bs ≠ [] := by
      rintro bs u hu rfl
      have := (HighTable.signature_of_new hu).1
      simp [headerSize] at this
    obtain ⟨hdataL, hdataH⟩ := dataByName_itocNestBuilder hread (hne hnewLow) (hne hnewHigh)
    have hrowsLow := collectItocRows_itocBuilder hreadLow
      (fun f hf => hsmall f (List.mem_of_mem_filter hf)) fun _ f hf => List.of_mem_filter hf
    have hrowsHigh := collectItocRows_itocBuilder hreadHigh
      (fun f hf => hsmall f (List.mem_of_mem_filter hf)) (by simp)
    rw [heid, if_neg hdirect, if_neg hdirect, if_neg (by decide), if_neg hdirect]
    exact ⟨low, high, tl, th, hdataL, hdataH, hnewLow, hnewHigh, collectItocRows_eq_ok.mp hrowsLow,
      collectItocRows_eq_ok.mp hrowsHigh⟩

/-- The ID table is found, with the rows of the entries. -/
theorem exists_itocTable (shiftJis : List UInt8 → String)
    (hitoc : profile.indexMode.hasItoc = true) {r : CpkReader} (hbytes : r.stream.bytes = bytes)
    (hstart : r.startPos = 0) : ∃ t pos,
      r.startPos.checkedAdd w.metadata.itocOffset = some w.plan.itocOffset ∧
      readTable shiftJis w.plan.itocOffset.toNat .itoc r =
        (.ok t, { r with stream := ⟨bytes, pos⟩ }) ∧
      IndexRows shiftJis w.metadata t (lowRows w.physical profile.directItoc)
        (highRows w.physical profile.directItoc) := by
  obtain ⟨-, -, table, htable, hbuild⟩ := w.planned.itoc hitoc
  obtain ⟨-, -, -, hwindow⟩ := w.layout.itoc table htable
  obtain ⟨rest, hdrop⟩ := drop_of_window hwindow
  obtain ⟨h32, b, hbuild', hrows⟩ := w.indexRows_eq shiftJis hitoc hbuild
  obtain ⟨t, pos, hread, hback⟩ := readTable_eq shiftJis .itoc w.plan.itocOffset.toNat hbuild' h32
    (by simp) (by simp) (r := r) (by rw [hbytes]; exact hdrop)
  refine ⟨t, pos, ?_, by rw [hread, hbytes], hrows t hback⟩
  rw [UInt64.checkedAdd_eq_some, hstart]
  exact (Nat.zero_add _).symm

/-- **The ID table is read back**: the entries come in physical order, placed where the plan
placed them.

**Proof sketch.** The rows of the table are those of the entries (`indexRows_eq`), and sorting by ID
puts them in physical order. The reader then places them as the plan did, from the content offset on
(`materializeItocRows_eq`), which ends below `2 ^ 64` because the archive does. -/
theorem readItoc_eq (shiftJis : List UInt8 → String) (hitoc : profile.indexMode.hasItoc = true)
    {r : CpkReader} (hbytes : r.stream.bytes = bytes) (hstart : r.startPos = 0) :
    ∃ entries pos, readItoc shiftJis w.metadata r =
        (.ok entries, { r with stream := ⟨bytes, pos⟩ }) ∧
      entries.length = w.physical.length ∧
      ∀ (k i : ℕ) (f : CpkInputFile) (o : UInt64), w.plan.physicalOrder[k]? = some i →
        files[i]? = some f → w.plan.absoluteOffsets[i]? = some o →
        ∃ rel, entries[k]? = some (itocEntry (itocRowRead f) rel o) := by
  obtain ⟨-, hcontent32, -⟩ := w.planned.itoc hitoc
  obtain ⟨t, pos, hposition, hread, hindex⟩ := w.exists_itocTable shiftJis hitoc hbytes hstart
  have hrowsEq := itocTableRows_eq_ok.mpr ⟨_, _, hindex, rfl⟩
  obtain ⟨hsorted, hdistinct⟩ := sortById_eq (rows_perm w.physical profile.directItoc)
    (w.ids_physical hitoc).2
  have hpos := alignment_pos w.planned
  have halign : (max w.metadata.align 1).toUInt64.toNat = options.alignment.toNat := by
    rw [toNat_max_one, metadata, writtenMetadata, CpkPlan.headerNumbers]
    exact max_eq_left hpos
  have hcontent : w.metadata.contentOffset = w.plan.contentOffset := rfl
  have hsizes : (w.physical.map itocRowRead).map (fun row => row.fileSize.toNat) =
      w.physical.map fun f => f.size.toNat := by
    rw [List.map_map]
    rfl
  have hdvd : options.alignment.toNat ∣ w.plan.contentOffset.toNat := w.layout.aligned.1
  -- the placement from zero, shifted by the content offset, is the plan's
  have hplaceEnd : w.plan.contentOffset.toNat +
      placeEnd options.alignment.toNat 0 (w.physical.map fun f => f.size.toNat) =
        w.plan.archiveSize.toNat := by
    rw [w.planned.archiveSize, ← placeEnd_add_base hpos hdvd, Nat.add_zero]
    rfl
  have harchive := w.plan.archiveSize.toNat_lt
  obtain ⟨entries, hentries, hlen, hall⟩ := materializeItocRows_eq w.metadata.contentOffset
    (max w.metadata.align 1).toUInt64 (by rw [halign]; exact hpos) 0 (Nat.dvd_zero _)
    (w.physical.map itocRowRead)
    (by
      rw [halign, hsizes, hcontent]
      exact hplaceEnd ▸ harchive)
  refine ⟨entries, pos, ?_, by simpa using hlen, fun k i f o hk hf ho => ?_⟩
  · have hnonzero : w.metadata.contentOffset ≠ 0 := by
      intro hzero
      have hmarker := w.layout.marker.2
      rw [← hcontent, hzero] at hmarker
      simp at hmarker
    unfold readItoc
    rw [ExecM.bind_of_ok (ExecM.get_apply r),
      ExecM.bind_of_ok (by rw [ExecM.lift_apply, Exec.errIf_of_not hnonzero]),
      ExecM.bind_of_ok (by
        rw [ExecM.lift_apply, Exec.errIf_of_not (by rw [hcontent]; exact Nat.not_le.mpr hcontent32)]),
      ExecM.bind_of_ok (by rw [ExecM.lift_apply, hposition, Exec.okOr_some])]
    refine (ExecM.bind_of_ok hread _).trans ?_
    rw [ExecM.bind_of_ok (by rw [ExecM.lift_apply, hrowsEq]), hsorted,
      ExecM.bind_of_ok (by rw [ExecM.lift_apply, Exec.errIf_of_not (by rw [hdistinct]; simp)]),
      ExecM.lift_apply, hentries]
  · obtain ⟨f', o', payload, hf', ho', -, -, hplace⟩ := entry_at w.planned w.emits hk
    obtain rfl := Option.some.inj (hf.symm.trans hf')
    obtain rfl := Option.some.inj (ho.symm.trans ho')
    have hall' : ∀ j ∈ w.plan.physicalOrder, j < files.length := fun j hj =>
      List.mem_range.mp (w.layout.entries.2.mem_iff.mp hj)
    have hrow : (w.physical.map itocRowRead)[k]? = some (itocRowRead f) := by
      rw [List.getElem?_map, physical, getElem?_inOrder hall' hk, hf]
      rfl
    rw [sizes_of_emits w.emits, ← Nat.add_zero w.plan.contentOffset.toNat,
      place_add_base hpos hdvd, List.getElem?_map, Option.map_eq_some_iff] at hplace
    obtain ⟨offset, hoffset', hsum⟩ := hplace
    obtain ⟨rel, absolute, habsolute, hentry⟩ := hall k _ offset hrow
      (by rw [halign, hsizes]; exact hoffset')
    have ho : absolute = o := by
      rw [← UInt64.toNat_inj, habsolute, ← hsum, hcontent]
    exact ⟨rel, ho ▸ hentry⟩

/-! ### Payloads -/

/-- **The payload of an entry is read back** by any reader of the archive that knows its
metadata. -/
theorem readPackedFile_eq {i : ℕ} {f : CpkInputFile} {o : UInt64} (hf : files[i]? = some f)
    (ho : w.plan.absoluteOffsets[i]? = some o) {r : CpkReader} (hbytes : r.stream.bytes = bytes)
    (hstart : r.startPos = 0) (hmetadata : r.metadata ≠ none) {entry : CpkFile}
    (habsolute : entry.absoluteOffset = o) (hsize : entry.fileSize = f.size) :
    ∃ payload s, emittedPayload fs path options.p5rEncryption f = .ok payload ∧
      readPackedFile entry r = (.ok payload, { r with stream := s }) ∧ s.bytes = bytes := by
  obtain ⟨payload, hemits, hwindow⟩ := window_payload w.planned w.emits hf ho
  rw [← w.bytes_eq] at hwindow
  obtain ⟨-, -, hend⟩ := w.layout.payload i f o hf ho
  rw [← w.layout.length] at hend
  have hposition : r.startPos.checkedAdd entry.absoluteOffset = some o := by
    rw [UInt64.checkedAdd_eq_some, hstart, habsolute]
    exact (Nat.zero_add _).symm
  have hread : readExact Error.unexpectedEof f.size.toNat (⟨bytes, o.toNat⟩ : ByteStream) =
      (.ok (window bytes o.toNat f.size.toNat), ⟨bytes, o.toNat + f.size.toNat⟩) :=
    readExact_of_le hend
  refine ⟨payload, ⟨bytes, o.toNat + f.size.toNat⟩, hemits.1, ?_, rfl⟩
  have hsmall := f.size.toNat_lt
  unfold readPackedFile
  rw [ExecM.bind_of_ok (ExecM.get_apply r),
    ExecM.bind_of_ok (by rw [ExecM.lift_apply, Exec.errIf_of_not hmetadata]),
    ExecM.bind_of_ok (by rw [ExecM.lift_apply, hposition, Exec.okOr_some]),
    ExecM.bind_of_ok (onStream_of_ok (seek_apply o.toNat r.stream)), hsize,
    ExecM.bind_of_ok (by rw [ExecM.lift_apply, Exec.errIf_of_not (by omega)]), hbytes]
  rw [onStream_of_ok (r := { r with stream := ⟨bytes, o.toNat⟩ }) hread, hwindow]

end Written

end Written

end CriArchive
