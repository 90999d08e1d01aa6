import CriArchive.Cpk.Writer.Dependence
import CriArchive.Validator.Archive

set_option relaxedAutoImplicit false
set_option autoImplicit false

/-!
# The library and the layout validator build the same archives

Two programs of the repository lay out archives: the writer of the library, and the script that was
written to check it. Whatever the writer writes with its default profile, the script builds as well,
byte for byte, for any index tables and any alignment.

## Main definitions

* `Validator.Mirrors` — an entry of the script that describes an input of the writer.

## Main results

* `Validator.buildToc_of_ok`, `Validator.buildItoc_of_ok` — the index tables are the same.
* `Validator.placeEntries_of_ok` — payloads are placed in the same way.
* `Validator.buildArchive_of_write` — the archives are the same.
-/

namespace CriArchive

open Endian Regions

/-! ## The steps of a plan -/

/-- The steps that led to a plan: the index tables that were measured, where the tables go, and the
relative offsets of the payloads. -/
structure PlanSteps (files : List CpkInputFile) (options : CpkWriterOptions)
    (profile : CpkWriterProfile) (p : CpkPlan) (measuredToc measuredItoc : Option (List UInt8))
    (tocPlace itocPlace : IndexPlace) (relative : List UInt64) : Prop where
  order : buildPhysicalOrder files profile = .ok p.physicalOrder
  measureToc : tocIndex files profile (List.replicate files.length 0) = .ok measuredToc
  measureItoc : itocIndex files profile p.physicalOrder = .ok measuredItoc
  placeToc : placeIndex options.alignment.toUInt64 engineIndexBase measuredToc = .ok tocPlace
  placeItoc : placeIndex options.alignment.toUInt64 tocPlace.cursor measuredItoc = .ok itocPlace
  contentOffset : writerAlignUp itocPlace.cursor options.alignment.toUInt64 = .ok p.contentOffset
  placed : planOffsets files options.alignment.toUInt64 p.physicalOrder
    ⟨List.replicate files.length 0, p.contentOffset⟩ = .ok ⟨p.absoluteOffsets, p.archiveSize⟩
  tocOffsets : tocOffsets profile p.absoluteOffsets = .ok relative
  toc : tocIndex files profile relative = .ok p.tocTable
  itoc : itocIndex files profile p.physicalOrder = .ok p.itocTable
  lengths : measuredToc.map List.length = p.tocTable.map List.length ∧
    measuredItoc.map List.length = p.itocTable.map List.length
  tocOffset : p.tocOffset = tocPlace.offset
  itocOffset : p.itocOffset = itocPlace.offset
  contentOffset_le : p.contentOffset ≤ p.archiveSize
  header : buildHeaderTable (p.headerNumbers options) profile = .ok p.headerTable
  header_le : (buildChunk .cpk p.headerTable).length ≤ copyrightMarkerOffset

/-- A plan was reached by its steps. -/
theorem exists_planSteps {files : List CpkInputFile} {options : CpkWriterOptions}
    {profile : CpkWriterProfile} {p : CpkPlan} (h : planArchive files options profile = .ok p) :
    ∃ measuredToc measuredItoc tocPlace itocPlace relative,
      PlanSteps files options profile p measuredToc measuredItoc tocPlace itocPlace relative := by
  unfold planArchive at h
  simp only [Exec.bind_eq_ok, Exec.errIf_eq_ok, Exec.pure_eq, Exec.ok.injEq] at h
  obtain ⟨_, -, _, -, fileCount, -, order, horder, measuredToc, hmeasuredToc, measuredItoc,
    hmeasuredItoc, tocPlace, htocPlace, itocPlace, hitocPlace, contentOffset, hcontentOffset, _, -,
    placed, hplaced, contentSize, hcontentSize, relative, hrelative, tocTable, htocTable, itocTable,
    hitocTable, _, hlengths, header, hheader, _, hsize, rfl⟩ := h
  rw [not_or, not_not, not_not] at hlengths
  rw [Exec.okOr_eq_ok] at hcontentSize
  obtain ⟨hle, hvalue⟩ := UInt64.checkedSub_eq_some.mp hcontentSize
  obtain rfl : contentSize = placed.cursor - contentOffset :=
    UInt64.toNat_inj.mp (by rw [hvalue, UInt64.toNat_sub_of_le _ _ hle])
  exact ⟨measuredToc, measuredItoc, tocPlace, itocPlace, relative, horder, hmeasuredToc,
    hmeasuredItoc, htocPlace, hitocPlace, hcontentOffset, hplaced, hrelative, htocTable, hitocTable,
    hlengths, rfl, rfl, hle, hheader, Nat.not_lt.mp hsize⟩

namespace Validator

/-! ## Rounding up and chunks -/

/-- **Rounding up by a mask** of unbounded integers. -/
theorem align_eq {a : ℕ} (ha : a.isPowerOfTwo) (v : ℕ) : align v a = alignTo a v := by
  obtain ⟨k, rfl⟩ := ha
  have hpos : 0 < 2 ^ k := Nat.two_pow_pos k
  rw [align, if_neg (Nat.pos_iff_ne_zero.mp hpos), Nat.add_sub_assoc hpos, alignTo]
  refine Nat.eq_of_testBit_eq fun i => ?_
  rw [Nat.testBit_ldiff, Nat.testBit_two_pow_sub_one, Nat.testBit_mul_two_pow,
    Nat.testBit_div_two_pow]
  by_cases hi : i < k
  · simp [hi, Nat.not_le.mpr hi]
  · have hle : k ≤ i := Nat.le_of_not_lt hi
    simp [hi, hle]

/-- A table that was built has a length of 64 bits. -/
theorem length_lt_of_build {b : UtfTableBuilder} {bytes : List UInt8} (h : b.build = .ok bytes) :
    bytes.length < 2 ^ 64 := by
  obtain ⟨p, hp, -, hlength⟩ := UtfTableBuilder.build_eq_ok h
  rw [hlength]
  exact (UtfTableBuilder.layout_eq_ok hp.layout).2.2.2.2

/-- **The chunk of a table.** -/
theorem chunk_eq {kind : CpkChunkKind} {magic table : List UInt8} (hmagic : magic = kind.magic)
    (hlength : table.length < 2 ^ 64) : chunk magic table = some (buildChunk kind table) := by
  have hsize : (UInt64.ofNat table.length).toNat = table.length :=
    UInt64.toNat_ofNat_of_lt' hlength
  have hfits : table.length < 256 ^ 8 := hlength
  rw [chunk, packLittle, if_pos hfits, buildChunk, toLeBytesU64, hsize, hmagic]
  simp only [Option.bind_eq_bind, Option.bind_some, List.append_assoc]
  rfl

/-! ## Entries -/

/-- An entry of the script that describes an input of the writer. -/
structure Mirrors (f : CpkInputFile) (entry : Entry) : Prop where
  directory : entry.directory = f.directory
  name : entry.name = f.fileName
  entryId : entry.entryId = f.id.toNat
  packedSize : entry.packedSize = f.size.toNat
  unpackedSize : entry.unpackedSize = f.extractSize.toNat
  user : entry.user = f.userString

section Tables

variable {files : List CpkInputFile} {entries : List Entry}

/-- The entry with an index. -/
theorem exists_entry (h : List.Forall₂ Mirrors files entries) {index : ℕ} {f : CpkInputFile}
    (hf : files[index]? = some f) : ∃ entry, entries[index]? = some entry ∧ Mirrors f entry := by
  obtain ⟨hi, rfl⟩ := List.getElem?_eq_some_iff.mp hf
  have hi' : index < entries.length := h.length_eq ▸ hi
  exact ⟨_, List.getElem?_eq_getElem hi', (List.forall₂_iff_get.mp h).2 index hi hi'⟩

/-- **The table of contents.** -/
theorem buildToc_of_ok (h : List.Forall₂ Mirrors files entries) {offsets : List UInt64}
    {table : List UInt8} (hbuild : buildTocTable files offsets = .ok table) :
    buildToc entries (offsets.map UInt64.toNat) = some table := by
  have htable := buildUtf_of_build hbuild
  have hrows : ((tocBuilder files offsets).rows.map (List.map ofValue)) =
      List.zipWith tocRow entries (offsets.map UInt64.toNat) := by
    change (List.zipWith tocValues files offsets).map (List.map ofValue) = _
    clear hbuild htable
    induction h generalizing offsets with
    | nil => rfl
    | @cons f entry files entries hentry _ ih =>
      cases offsets with
      | nil => rfl
      | cons offset offsets =>
        rw [List.zipWith_cons_cons, List.map_cons, ih, List.map_cons, List.zipWith_cons_cons, tocRow,
          hentry.directory, hentry.name, hentry.packedSize, hentry.unpackedSize, hentry.entryId,
          hentry.user]
        rfl
  rw [hrows] at htable
  exact htable

/-- The rows of the ID table. -/
theorem itocRows_of_ok (h : List.Forall₂ Mirrors files entries) {low : Bool} {indices : List ℕ}
    {rows : List (List UtfValue)} (hrows : itocValuesAt files low indices = .ok rows) :
    (indices.mapM fun index => do
      let entry ← entries[index]?
      pure [Value.int entry.entryId, .int entry.packedSize, .int entry.unpackedSize]) =
        some (rows.map (List.map ofValue)) := by
  induction indices generalizing rows with
  | nil =>
    obtain rfl := Exec.ok.inj hrows
    rfl
  | cons index indices ih =>
    simp only [itocValuesAt, Exec.bind_eq_ok, Exec.index_eq_ok, Exec.pure_eq, Exec.ok.injEq] at hrows
    obtain ⟨f, hf, row, hrow, others, hothers, rfl⟩ := hrows
    obtain ⟨entry, hentry, hmirrors⟩ := exists_entry h hf
    have hvalues : row.map ofValue =
        [.int entry.entryId, .int entry.packedSize, .int entry.unpackedSize] := by
      rw [hmirrors.entryId, hmirrors.packedSize, hmirrors.unpackedSize]
      simp only [itocValues, Exec.bind_eq_ok, Exec.okOr_eq_ok, UInt16.tryFrom_eq_some] at hrow
      obtain ⟨id, hid, hrow⟩ := hrow
      split_ifs at hrow
      · simp only [Exec.bind_eq_ok, Exec.okOr_eq_ok, UInt16.tryFrom_eq_some, Exec.pure_eq,
          Exec.ok.injEq] at hrow
        obtain ⟨size, hsize, extractSize, hextract, rfl⟩ := hrow
        simp only [List.map_cons, List.map_nil, ofValue, hid, hsize, hextract]
      · obtain rfl := Exec.ok.inj hrow
        simp only [List.map_cons, List.map_nil, ofValue, hid]
    rw [List.mapM_cons, ih hothers, hentry, List.map_cons, hvalues]
    rfl

/-- The script builds the rows of an ID table as the writer does. -/
theorem buildItocRows_of_ok (h : List.Forall₂ Mirrors files entries) {low : Bool}
    {indices : List ℕ} {name : String} {table : List UInt8}
    (hbuild : CriArchive.buildItocRows files indices low name = .ok table) :
    buildItocRows entries indices low name = some table := by
  obtain ⟨rows, hrows, hbuild⟩ := Exec.bind_eq_ok.mp hbuild
  have htable := buildUtf_of_build hbuild
  rw [buildItocRows, itocRows_of_ok h hrows]
  cases low <;> exact htable

/-- The indices of the entries with short sizes, and the others. -/
theorem filter_of_splitWidths (h : List.Forall₂ Mirrors files entries) {order : List ℕ}
    {widths : List ℕ × List ℕ} (hsplit : splitWidths files order = .ok widths) :
    order.filter (fun index => entries[index]?.any Entry.isLow) = widths.1 ∧
      order.filter (fun index => !entries[index]?.any Entry.isLow) = widths.2 := by
  induction order generalizing widths with
  | nil =>
    obtain rfl := Exec.ok.inj hsplit
    exact ⟨rfl, rfl⟩
  | cons index order ih =>
    simp only [splitWidths, Exec.bind_eq_ok, Exec.index_eq_ok, Exec.pure_eq,
      Exec.ok.injEq] at hsplit
    obtain ⟨f, hf, others, hothers, rfl⟩ := hsplit
    obtain ⟨entry, hentry, hmirrors⟩ := exists_entry h hf
    obtain ⟨hlow, hhigh⟩ := ih hothers
    have hwidth : (entries[index]?.any Entry.isLow) = f.fitsLow := by
      rw [hentry, Option.any_some, Bool.eq_iff_iff, fitsLow_iff, Entry.isLow, hmirrors.packedSize,
        hmirrors.unpackedSize, Bool.and_eq_true, decide_eq_true_eq, decide_eq_true_eq]
      omega
    rw [List.filter_cons, List.filter_cons, hwidth, hlow, hhigh]
    cases f.fitsLow <;> exact ⟨rfl, rfl⟩

/-- **The ID table.** -/
theorem buildItoc_of_ok (h : List.Forall₂ Mirrors files entries) {order : List ℕ} {direct : Bool}
    {table : List UInt8} (hbuild : buildItocTable files order direct = .ok table) :
    buildItoc entries order direct = some table := by
  unfold buildItocTable at hbuild
  unfold buildItoc
  split_ifs at hbuild ⊢
  · exact buildItocRows_of_ok h hbuild
  · simp only [Exec.bind_eq_ok] at hbuild
    obtain ⟨widths, hwidths, low, hlow, high, hhigh, hbuild⟩ := hbuild
    obtain ⟨hl, hh⟩ := filter_of_splitWidths h hwidths
    have hother : order.filter (fun index => index ∉ widths.1) = widths.2 := by
      rw [← hh, ← hl]
      refine List.filter_congr fun index hindex => ?_
      simp [List.mem_filter, hindex]
    dsimp only
    rw [hl, hother, buildItocRows_of_ok h hlow, buildItocRows_of_ok h hhigh]
    exact buildUtf_of_build hbuild

/-! ## Places -/

/-- The IDs of mirrored entries are those of the inputs. -/
theorem map_entryId (h : List.Forall₂ Mirrors files entries) :
    entries.map Entry.entryId = (files.map CpkInputFile.id).map UInt32.toNat := by
  induction h with
  | nil => rfl
  | cons hentry _ ih => rw [List.map_cons, ih, hentry.entryId, List.map_cons, List.map_cons]

/-- The key of an entry is the ID of its input. -/
theorem idAt_eq (h : List.Forall₂ Mirrors files entries) (i : ℕ) :
    idAt entries i = (CriArchive.idAt files i).toNat := by
  have hget := congrArg (·[i]?) (map_entryId h)
  simp only [List.getElem?_map] at hget
  rw [idAt, CriArchive.idAt, hget]
  cases files[i]? <;> rfl

/-- **The order of the payloads.**

**Proof sketch.** Both programs sort the same positions by the same keys, one by merging and one by
insertion. The keys are distinct, so that there is only one sorted permutation. -/
theorem itocOrder_of_ok (h : List.Forall₂ Mirrors files entries) {profile : CpkWriterProfile}
    (hitoc : profile.indexMode.hasItoc = true) {order : List ℕ}
    (horder : buildPhysicalOrder files profile = .ok order) : itocOrder entries = some order := by
  rw [buildPhysicalOrder, if_pos hitoc] at horder
  obtain ⟨⟨⟩, hcheck, horder⟩ := Exec.bind_eq_ok.mp horder
  obtain rfl := Exec.ok.inj horder
  obtain ⟨hsmall, hnodup, -⟩ := checkIds_eq_ok.mp hcheck
  have hdistinct : (entries.map Entry.entryId).Nodup := by
    rw [map_entryId h]
    exact hnodup.map fun _ _ => UInt32.toNat_inj.mp
  have hbound : ∀ entry ∈ entries, entry.entryId ≤ 0xffff := by
    intro entry hentry
    obtain ⟨id, hid, heq⟩ := List.mem_map.mp (map_entryId h ▸ List.mem_map_of_mem hentry)
    obtain ⟨f, hf, rfl⟩ := List.mem_map.mp hid
    have := hsmall f hf
    omega
  rw [itocOrder, if_pos ⟨hdistinct, hbound⟩, ← h.length_eq]
  refine congrArg some ?_
  set byKey := (List.range files.length).mergeSort fun i j => idAt entries i ≤ idAt entries j
  set byId := (List.range files.length).insertionSort
    fun i j => CriArchive.idAt files i ≤ CriArchive.idAt files j
  have hperm : byKey.Perm (List.range files.length) := List.mergeSort_perm _ _
  have hperm' : byId.Perm (List.range files.length) := List.perm_insertionSort _ _
  -- both orders are sorted by the same keys, and no key occurs twice
  have hanti : ∀ i j, i ∈ byKey → j ∈ byId → idAt entries i ≤ idAt entries j →
      idAt entries j ≤ idAt entries i → i = j := by
    intro i j hi hj hij hji
    have hi' : i < (entries.map Entry.entryId).length := by
      rw [List.length_map, ← h.length_eq]
      exact List.mem_range.mp (hperm.mem_iff.mp hi)
    have hj' : j < (entries.map Entry.entryId).length := by
      rw [List.length_map, ← h.length_eq]
      exact List.mem_range.mp (hperm'.mem_iff.mp hj)
    have hkey : ∀ (k : ℕ) (hk : k < (entries.map Entry.entryId).length),
        (entries.map Entry.entryId)[k] = idAt entries k := by
      intro k hk
      rw [idAt, ← List.getElem?_map, List.getElem?_eq_getElem hk]
      rfl
    have hsame : (entries.map Entry.entryId)[i] = (entries.map Entry.entryId)[j] := by
      rw [hkey i hi', hkey j hj']
      exact Nat.le_antisymm hij hji
    exact (List.Nodup.getElem_inj_iff hdistinct).mp hsame
  have hsorted : byKey.Pairwise fun i j => idAt entries i ≤ idAt entries j := by
    refine (List.pairwise_mergeSort ?_ ?_ _).imp fun hle => of_decide_eq_true hle
    · simp only [decide_eq_true_eq]
      exact fun _ _ _ => Nat.le_trans
    · simp only [Bool.or_eq_true, decide_eq_true_eq]
      exact fun _ _ => Nat.le_total _ _
  have hsorted' : byId.Pairwise fun i j => idAt entries i ≤ idAt entries j := by
    refine (List.pairwise_insertionSort _ _).imp fun {i j} hle => ?_
    rw [idAt_eq h, idAt_eq h]
    exact hle
  exact List.Perm.eq_of_pairwise hanti hsorted hsorted' (hperm.trans hperm'.symm)

/-- **The place of a table.** -/
theorem placeTable_of_ok {alignment cursor : UInt64} (halign : alignment.toNat.isPowerOfTwo)
    {table : Option (List UInt8)} {place : IndexPlace}
    (h : placeIndex alignment cursor table = .ok place) :
    placeTable alignment.toNat cursor.toNat table = (place.offset.toNat, place.cursor.toNat) := by
  obtain ⟨hoffset, hcursor⟩ := (placeIndex_ends halign cursor table).of_ok h
  cases table with
  | none => rw [placeTable, hoffset, hcursor, indexEnd, if_pos rfl]; rfl
  | some table =>
    rw [placeTable, hoffset, hcursor, indexEnd, if_neg (Option.some_ne_none _), align_eq halign,
      Nat.add_assoc]

/-- **The offsets of the payloads.** -/
theorem placeEntries_of_ok (h : List.Forall₂ Mirrors files entries) {alignment : UInt64}
    (halign : alignment.toNat.isPowerOfTwo) {order : List ℕ} {p q : OffsetPlan}
    (hplan : planOffsets files alignment order p = .ok q) :
    placeEntries entries alignment.toNat order (p.offsets.map UInt64.toNat, p.cursor.toNat) =
      some (q.offsets.map UInt64.toNat, q.cursor.toNat) := by
  induction order generalizing p with
  | nil =>
    obtain rfl := Exec.ok.inj hplan
    rfl
  | cons index order ih =>
    simp only [planOffsets, Exec.bind_eq_ok, Exec.index_eq_ok, Exec.okOr_eq_ok] at hplan
    obtain ⟨offsets, hoffsets, f, hf, stop, hstop, next, hnext, hplan⟩ := hplan
    obtain ⟨entry, hentry, hmirrors⟩ := exists_entry h hf
    have hset : p.offsets.set index p.cursor = offsets := by
      unfold Exec.store at hoffsets
      split_ifs at hoffsets
      exact Exec.ok.inj hoffsets
    have hcursor : align (p.cursor.toNat + entry.packedSize) alignment.toNat = next.toNat := by
      rw [align_eq halign, (writerAlignUp_ends halign stop).of_ok hnext,
        UInt64.checkedAdd_eq_some.mp hstop, UInt32.toNat_toUInt64, hmirrors.packedSize]
    rw [placeEntries, hentry]
    change placeEntries entries alignment.toNat order ((p.offsets.map UInt64.toNat).set index
      p.cursor.toNat, align (p.cursor.toNat + entry.packedSize) alignment.toNat) = _
    rw [hcursor, ← List.map_set, hset]
    exact ih hplan

/-- **Offsets relative to the index base.** -/
theorem mapM_difference {offsets relative : List UInt64}
    (h : relativeOffsets offsets = .ok relative) :
    (offsets.map UInt64.toNat).mapM (difference · indexBase) =
      some (relative.map UInt64.toNat) := by
  have hall := (relativeOffsets_ends offsets).of_ok h
  clear h
  induction hall with
  | nil => rfl
  | @cons offset first offsets relative hfirst _ ih =>
    have hle : indexBase ≤ offset.toNat := hfirst ▸ Nat.le_add_right ..
    have hvalue : offset.toNat - indexBase = first.toNat := by
      rw [hfirst]
      exact Nat.add_sub_cancel_left ..
    rw [List.map_cons, List.mapM_cons, difference, if_pos hle, ih, hvalue]
    rfl

/-! ## The tables of a plan -/

/-- The profile of the archives that the script builds. -/
def scriptProfile (mode : CpkIndexMode) (direct : Bool) : CpkWriterProfile :=
  { CpkWriterProfile.default with indexMode := mode, directItoc := direct }

section Plan

variable {mode : CpkIndexMode} {direct : Bool}

/-- The script builds a TOC when the writer does, and the same one. -/
theorem buildIf_toc (h : List.Forall₂ Mirrors files entries) {offsets : List UInt64}
    {table : Option (List UInt8)}
    (htable : tocIndex files (scriptProfile mode direct) offsets = .ok table) :
    buildIf mode.hasToc (buildToc entries (offsets.map UInt64.toNat)) = some table := by
  unfold tocIndex at htable
  split_ifs at htable with htoc
  · obtain ⟨bytes, hbytes, htable⟩ := Exec.bind_eq_ok.mp htable
    obtain rfl := Exec.ok.inj htable
    have hwanted : mode.hasToc = true := htoc
    rw [buildToc_of_ok h hbytes, buildIf, if_pos hwanted]
    rfl
  · obtain rfl := Exec.ok.inj htable
    exact if_neg htoc

/-- The script builds an ID table when the writer does, and the same one. -/
theorem buildIf_itoc (h : List.Forall₂ Mirrors files entries) {order : List ℕ}
    {table : Option (List UInt8)}
    (htable : itocIndex files (scriptProfile mode direct) order = .ok table) :
    buildIf mode.hasItoc (buildItoc entries order direct) = some table := by
  unfold itocIndex at htable
  split_ifs at htable with hitoc
  · obtain ⟨bytes, hbytes, htable⟩ := Exec.bind_eq_ok.mp htable
    obtain rfl := Exec.ok.inj htable
    have hwanted : mode.hasItoc = true := hitoc
    have hitocTable : buildItocTable files order direct = .ok bytes := hbytes
    rw [buildItoc_of_ok h hitocTable, buildIf, if_pos hwanted]
    rfl
  · obtain rfl := Exec.ok.inj htable
    exact if_neg hitoc

/-- The table of contents with the offsets of the payloads. -/
theorem buildIf_relative (h : List.Forall₂ Mirrors files entries) {offsets relative : List UInt64}
    (hrelative : tocOffsets (scriptProfile mode direct) offsets = .ok relative)
    {table : Option (List UInt8)}
    (htable : tocIndex files (scriptProfile mode direct) relative = .ok table) :
    buildIf mode.hasToc (((offsets.map UInt64.toNat).mapM (difference · indexBase)).bind
      (buildToc entries)) = some table := by
  rw [← buildIf_toc h htable]
  unfold tocOffsets at hrelative
  split_ifs at hrelative with htoc
  · rw [mapM_difference hrelative]
    rfl
  · have hunwanted : mode.hasToc = false := Bool.eq_false_iff.mpr htoc
    rw [hunwanted]
    rfl

/-- The chunk of a table that has the length of the one that was placed has a length of 64 bits. -/
theorem length_lt_of_placed {alignment cursor : UInt64} {measured : Option (List UInt8)}
    {place : IndexPlace} (h : placeIndex alignment cursor measured = .ok place) {table : List UInt8}
    (hlength : measured.map List.length = some table.length) : 0x10 + table.length < 2 ^ 64 := by
  obtain ⟨bytes, rfl, hbytes⟩ := Option.map_eq_some_iff.mp hlength
  obtain ⟨size, hsize, -⟩ := Exec.bind_eq_ok.mp h
  rw [← hbytes, ← (chunkSize_ends bytes).of_ok hsize]
  exact size.toNat_lt

/-- The script makes the same chunk of a table. -/
theorem chunkIf_eq {kind : CpkChunkKind} {magic : List UInt8} (hmagic : magic = kind.magic)
    {table : Option (List UInt8)} (hlength : ∀ bytes, table = some bytes → bytes.length < 2 ^ 64) :
    chunkIf magic table = some (table.map (buildChunk kind)) := by
  cases table with
  | none => rfl
  | some bytes => rw [chunkIf, chunk_eq hmagic (hlength bytes rfl)]; rfl

/-- The length of the chunk of a table. -/
theorem elim_length_eq {kind : CpkChunkKind} (hkind : ∀ m, kind ≠ .unknown m)
    {table : Option (List UInt8)}
    (hlength : ∀ bytes, table = some bytes → 0x10 + bytes.length < 2 ^ 64) :
    (table.map (buildChunk kind)).elim 0 List.length = (chunkLength kind table).toNat := by
  cases table with
  | none => rfl
  | some bytes =>
    have hfits : (buildChunk kind bytes).length < 2 ^ 64 :=
      length_buildChunk hkind bytes ▸ hlength bytes rfl
    exact (UInt64.toNat_ofNat_of_lt' hfits).symm

/-- The row of the archive header. -/
theorem headerRow_eq (n : HeaderNumbers) :
    headerRow n.fileCount.toNat n.archiveSize.toNat n.contentOffset.toNat n.contentSize.toNat
      n.tocOffset.toNat n.tocSize.toNat n.itocOffset.toNat n.itocSize.toNat n.alignment.toNat
      mode.hasToc mode.hasItoc direct =
      (headerValues n (scriptProfile mode direct)).map ofValue := by
  cases mode <;> cases direct <;> rfl

/-- The archive header. -/
theorem buildHeader_of_ok {n : HeaderNumbers} {profile : CpkWriterProfile} {table : List UInt8}
    (h : buildHeaderTable n profile = .ok table) :
    buildUtf "CpkHeader" headerColumns [(headerValues n profile).map ofValue] = some table := by
  have htable := buildUtf_of_build h
  exact htable

end Plan

/-! ## The bytes -/

/-- The header chunk and the marker. -/
theorem putMarker {header : List UInt8} (h : header.length ≤ copyrightMarkerOffset) :
    (extendTo indexBase header).take 0x7fa ++ "(c)CRI".asBytes ++
      (extendTo indexBase header).drop 0x800 =
      assemble 0 [] [(0, header), (copyrightMarkerOffset, copyrightMarker)] := by
  have hfits : header.length ≤ 0x7fa := h
  have hlength : (extendTo indexBase header).length = 0x800 := by
    rw [extendTo, List.length_append, List.length_replicate, indexBase]
    omega
  have hmin : min (0x7fa - header.length) (indexBase - header.length) =
      copyrightMarkerOffset - header.length := by
    rw [indexBase, copyrightMarkerOffset]
    omega
  rw [List.drop_eq_nil_of_le (Nat.le_of_eq hlength), List.append_nil, extendTo, List.take_append,
    List.take_of_length_le hfits, List.take_replicate, hmin]
  rfl

/-- The script puts a chunk where the writer has its region. -/
theorem putChunk_eq (kind : CpkChunkKind) (offset : UInt64) (table : Option (List UInt8))
    (output : List UInt8) :
    putChunk offset.toNat (table.map (buildChunk kind)) output =
      assemble 0 output (indexRegion kind offset table) := by
  cases table <;> rfl

/-- **The payloads** are put out at their offsets. -/
theorem putPayloads_eq {offsets order : List ℕ} {output : List UInt8}
    (hoffsets : ∀ i ∈ order, i < offsets.length) (hentries : ∀ i ∈ order, i < entries.length) :
    putPayloads entries offsets order output = some (assemble 0 output
      ((inOrder offsets order).zip (inOrder (entries.map Entry.payload) order))) := by
  induction order generalizing output with
  | nil => rfl
  | cons index order ih =>
    obtain ⟨hoffset, hoffsets⟩ := List.forall_mem_cons.mp hoffsets
    obtain ⟨hentry, hentries⟩ := List.forall_mem_cons.mp hentries
    have hpayload : (entries.map Entry.payload)[index]? = some entries[index].payload := by
      rw [List.getElem?_map, List.getElem?_eq_getElem hentry]
      rfl
    rw [putPayloads, List.getElem?_eq_getElem hoffset, List.getElem?_eq_getElem hentry,
      inOrder_cons (List.getElem?_eq_getElem hoffset), inOrder_cons hpayload, List.zip_cons_cons]
    exact ih hoffsets hentries

end Tables

/-! ## The archive -/

section Archive

variable {fs : FileSystem} {path : P5RPath} {inputs : List CpkInputFile}
  {options : CpkWriterOptions} {mode : CpkIndexMode} {direct : Bool} {entries : List Entry}
  {report : CpkWriteReport}

/-- An assertion that holds. -/
theorem guard_eq {c : Prop} [Decidable c] (hc : c) : (guard c : Option Unit) = some () :=
  if_pos hc

/-- A step of the script that succeeds. -/
theorem step_eq {α β : Type} {x : Option α} {a : α} {f : α → Option β} {b : β} (hx : x = some a)
    (hf : f a = some b) : (x >>= f) = some b :=
  Option.bind_eq_some_iff.mpr ⟨a, hx, hf⟩

/-- The regions of an archive with the payloads of the entries. -/
theorem putArchive_eq {out : List UInt8}
    (w : Written fs path inputs options (scriptProfile mode direct) report out)
    (h : List.Forall₂ Mirrors inputs entries)
    (hemits : List.Forall₂ (Emits fs path options.p5rEncryption) inputs
      (entries.map Entry.payload)) (output : List UInt8) :
    putPayloads entries (w.plan.absoluteOffsets.map UInt64.toNat) w.plan.physicalOrder
      (extendTo w.plan.contentOffset.toNat output) = some (assemble 0 output
        ((w.plan.contentOffset.toNat, []) :: (place options.alignment.toNat
          w.plan.contentOffset.toNat (w.payloads.map List.length)).zip w.payloads)) := by
  have horder := lt_length_of_mem_order w.planned.order
  have hpayloads : inOrder (entries.map Entry.payload) w.plan.physicalOrder = w.payloads :=
    eq_of_emits (List.forall₂_same.mpr fun _ _ _ hp => hp) w.emits
      (forall₂_inOrder hemits w.plan.physicalOrder)
  have hsizes : w.payloads.map List.length =
      (inOrder inputs w.plan.physicalOrder).map fun f => f.size.toNat := by
    have hall := w.emits
    generalize inOrder inputs w.plan.physicalOrder = files at hall
    generalize w.payloads = payloads at hall
    induction hall with
    | nil => rfl
    | cons hemit _ ih => rw [List.map_cons, List.map_cons, ih, hemit.2]
  have hoffsets : inOrder (w.plan.absoluteOffsets.map UInt64.toNat) w.plan.physicalOrder =
      place options.alignment.toNat w.plan.contentOffset.toNat (w.payloads.map List.length) := by
    rw [hsizes, ← w.planned.placed, inOrder, inOrder, List.map_filterMap]
    exact List.filterMap_congr fun i _ => List.getElem?_map ..
  rw [putPayloads_eq (fun i hi => by
      rw [List.length_map, w.planned.lengthOffsets]
      exact horder i hi) (fun i hi => h.length_eq ▸ horder i hi),
    hoffsets, hpayloads, assemble, List.append_nil]
  rfl

/-- **The script builds what the writer writes**: the same bytes, with the payloads at the same
offsets and in the same order.

**Proof sketch.** Every step of the script gives what the step of the planner gave, on natural
numbers instead of 64-bit ones: the order, the measured tables, where they are placed, the offsets
of the payloads, the tables themselves and their chunks, and the header. The script then puts the
same regions behind one another as the writer, whose bytes are the assembly of its regions. -/
theorem buildArchive_of_write {out : ByteStream}
    (hwrite : writeWithProfile fs path inputs options (scriptProfile mode direct) ⟨[], 0⟩ =
      (.ok report, out))
    (h : List.Forall₂ Mirrors inputs entries)
    (hemits : List.Forall₂ (Emits fs path options.p5rEncryption) inputs
      (entries.map Entry.payload)) :
    ∃ plan, planArchive inputs options (scriptProfile mode direct) = .ok plan ∧
      buildArchive entries mode.hasToc mode.hasItoc direct options.alignment.toNat =
        some (out.bytes, plan.absoluteOffsets.map UInt64.toNat, plan.physicalOrder) := by
  obtain ⟨w⟩ := written_of_ok hwrite
  refine ⟨w.plan, w.plan_eq, ?_⟩
  obtain ⟨measuredToc, measuredItoc, tocPlace, itocPlace, relative, steps⟩ :=
    exists_planSteps w.plan_eq
  have halign : options.alignment.toUInt64.toNat.isPowerOfTwo := w.planned.alignment
  have hcount := h.length_eq
  have hwanted : (mode.hasToc || mode.hasItoc) = true := by cases mode <;> rfl
  have horder : payloadOrder entries mode.hasItoc = some w.plan.physicalOrder := by
    unfold payloadOrder
    split_ifs with hitoc
    · exact itocOrder_of_ok h hitoc steps.order
    · rw [(buildPhysicalOrder_spec steps.order).2.1 (Bool.eq_false_iff.mpr hitoc), hcount]
  have hzeros : List.replicate entries.length 0 =
      (List.replicate inputs.length (0 : UInt64)).map UInt64.toNat := by
    rw [List.map_replicate, hcount]
    rfl
  have hmeasureToc := buildIf_toc h steps.measureToc
  obtain rfl : measuredItoc = w.plan.itocTable :=
    Exec.ok.inj (steps.measureItoc.symm.trans steps.itoc)
  have hplaceToc : placeTable options.alignment.toNat indexBase measuredToc =
      (tocPlace.offset.toNat, tocPlace.cursor.toNat) := placeTable_of_ok halign steps.placeToc
  have hplaceItoc : placeTable options.alignment.toNat tocPlace.cursor.toNat w.plan.itocTable =
      (itocPlace.offset.toNat, itocPlace.cursor.toNat) := placeTable_of_ok halign steps.placeItoc
  have hcontent : align itocPlace.cursor.toNat options.alignment.toNat =
      w.plan.contentOffset.toNat := by
    rw [align_eq w.planned.alignment]
    exact ((writerAlignUp_ends halign _).of_ok steps.contentOffset).symm
  have hplaced : placeEntries entries options.alignment.toNat w.plan.physicalOrder
      ((List.replicate inputs.length (0 : UInt64)).map UInt64.toNat, w.plan.contentOffset.toNat) =
      some (w.plan.absoluteOffsets.map UInt64.toNat, w.plan.archiveSize.toNat) :=
    placeEntries_of_ok h halign steps.placed
  have hbuildToc := buildIf_relative h steps.tocOffsets steps.toc
  have hbuildItoc := buildIf_itoc h steps.itoc
  have hfitsToc : ∀ table, w.plan.tocTable = some table → 0x10 + table.length < 2 ^ 64 :=
    fun table htable => length_lt_of_placed steps.placeToc
      (steps.lengths.1.trans (by rw [htable]; rfl))
  have hfitsItoc : ∀ table, w.plan.itocTable = some table → 0x10 + table.length < 2 ^ 64 :=
    fun table htable => length_lt_of_placed steps.placeItoc (by rw [htable]; rfl)
  have hchunkToc : chunkIf "TOC ".asBytes w.plan.tocTable =
      some (w.plan.tocTable.map (buildChunk .toc)) :=
    chunkIf_eq (by decide) fun table htable =>
      (Nat.le_add_left ..).trans_lt (hfitsToc table htable)
  have hchunkItoc : chunkIf "ITOC".asBytes w.plan.itocTable =
      some (w.plan.itocTable.map (buildChunk .itoc)) :=
    chunkIf_eq (by decide) fun table htable =>
      (Nat.le_add_left ..).trans_lt (hfitsItoc table htable)
  have hsize : difference w.plan.archiveSize.toNat w.plan.contentOffset.toNat =
      some (w.plan.archiveSize - w.plan.contentOffset).toNat := by
    rw [UInt64.toNat_sub_of_le _ _ steps.contentOffset_le]
    exact if_pos steps.contentOffset_le
  have hrow : headerRow entries.length w.plan.archiveSize.toNat w.plan.contentOffset.toNat
      (w.plan.archiveSize - w.plan.contentOffset).toNat tocPlace.offset.toNat
      ((w.plan.tocTable.map (buildChunk .toc)).elim 0 List.length) itocPlace.offset.toNat
      ((w.plan.itocTable.map (buildChunk .itoc)).elim 0 List.length) options.alignment.toNat
      mode.hasToc mode.hasItoc direct =
      (headerValues (w.plan.headerNumbers options) (scriptProfile mode direct)).map ofValue := by
    rw [elim_length_eq (by simp) hfitsToc, elim_length_eq (by simp) hfitsItoc, ← hcount,
      ← w.planned.fileCount, ← steps.tocOffset, ← steps.itocOffset]
    exact headerRow_eq (w.plan.headerNumbers options)
  have hheader : buildUtf "CpkHeader" headerColumns
      [(headerValues (w.plan.headerNumbers options) (scriptProfile mode direct)).map ofValue] =
      some w.plan.headerTable := buildHeader_of_ok steps.header
  have hchunk : chunk "CPK ".asBytes w.plan.headerTable =
      some (buildChunk .cpk w.plan.headerTable) :=
    chunk_eq (by decide) (length_lt_of_build steps.header)
  have hheaderFits : (buildChunk .cpk w.plan.headerTable).length ≤ 0x7fa := steps.header_le
  -- the bytes are put together in the same order
  have hbytes : extendTo w.plan.archiveSize.toNat (assemble 0 (assemble 0 [] w.plan.indexRegions)
      ((w.plan.contentOffset.toNat, []) :: (place options.alignment.toNat
        w.plan.contentOffset.toNat (w.payloads.map List.length)).zip w.payloads)) = out.bytes := by
    refine Eq.trans ?_ w.bytes_eq.symm
    rw [regions_eq_append, List.append_assoc, List.append_assoc, List.singleton_append,
      ← List.cons_append, assemble_append, assemble_append]
    exact (List.append_nil _).symm
  have hindices : putChunk itocPlace.offset.toNat (w.plan.itocTable.map (buildChunk .itoc))
      (putChunk tocPlace.offset.toNat (w.plan.tocTable.map (buildChunk .toc))
        (assemble 0 [] [(0, buildChunk .cpk w.plan.headerTable),
          (copyrightMarkerOffset, copyrightMarker)])) = assemble 0 [] w.plan.indexRegions := by
    rw [← steps.tocOffset, ← steps.itocOffset, putChunk_eq, putChunk_eq, ← assemble_append,
      ← assemble_append]
    rfl
  -- the steps of the script
  unfold buildArchive
  refine step_eq (guard_eq hwanted) (step_eq horder ?_)
  rw [hzeros]
  refine step_eq hmeasureToc (step_eq hbuildItoc ?_)
  dsimp only
  rw [hplaceToc]
  dsimp only
  rw [hplaceItoc]
  dsimp only
  rw [hcontent]
  refine step_eq hplaced (step_eq hbuildToc (step_eq (guard_eq steps.lengths.1.symm) ?_))
  refine step_eq hbuildItoc (step_eq (guard_eq rfl) (step_eq hchunkToc (step_eq hchunkItoc ?_)))
  refine step_eq hsize ?_
  rw [hrow]
  refine step_eq hheader (step_eq hchunk (step_eq (guard_eq hheaderFits) ?_))
  rw [putMarker hheaderFits, hindices]
  exact step_eq (putArchive_eq w h hemits _) (by rw [hbytes]; rfl)

/-- Two files. -/
def sampleSources : FileSystem := fun file =>
  if file = "in/a".asBytes then some [1, 2, 3]
  else if file = "in/b".asBytes then some [9, 8]
  else none

/-- Inputs whose order is not that of their IDs. -/
def sampleInputs : List CpkInputFile :=
  [⟨"d", "b", "in/b".asBytes, 2, 5, 7, "", none⟩, ⟨"", "a", "in/a".asBytes, 3, 3, 4, "u", none⟩]

/-- The same as entries of the script. -/
def sampleEntries : List Entry :=
  [⟨"d", "b", [9, 8], 7, some 5, ""⟩, ⟨"", "a", [1, 2, 3], 4, none, "u"⟩]

/-- Two files, one of which is found by its ID first, are laid out alike by both programs. -/
theorem buildArchive_of_write_sample : ∃ report out, writeWithProfile sampleSources .u64
      sampleInputs ⟨16, false⟩ (scriptProfile .tocAndItoc false) ⟨[], 0⟩ = (.ok report, out) ∧
    ∃ plan, planArchive sampleInputs ⟨16, false⟩ (scriptProfile .tocAndItoc false) = .ok plan ∧
      buildArchive sampleEntries true true false 16 =
        some (out.bytes, plan.absoluteOffsets.map UInt64.toNat, plan.physicalOrder) := by
  have hpackable : packable sampleSources .u64 sampleInputs ⟨16, false⟩
      (scriptProfile .tocAndItoc false) = true := by
    decide +kernel
  obtain ⟨report, out, hwrite⟩ := exists_writeWithProfile hpackable
  have hb : Mirrors ⟨"d", "b", "in/b".asBytes, 2, 5, 7, "", none⟩
      ⟨"d", "b", [9, 8], 7, some 5, ""⟩ :=
    ⟨rfl, rfl, rfl, rfl, rfl, rfl⟩
  have ha : Mirrors ⟨"", "a", "in/a".asBytes, 3, 3, 4, "u", none⟩
      ⟨"", "a", [1, 2, 3], 4, none, "u"⟩ :=
    ⟨rfl, rfl, rfl, rfl, rfl, rfl⟩
  have hmirrors : List.Forall₂ Mirrors sampleInputs sampleEntries := .cons hb (.cons ha .nil)
  have hemits : List.Forall₂ (Emits sampleSources .u64 false) sampleInputs
      (sampleEntries.map Entry.payload) :=
    .cons ⟨emittedPayload_eq_ok.mpr (by decide +kernel), rfl⟩
      (.cons ⟨emittedPayload_eq_ok.mpr (by decide +kernel), rfl⟩ .nil)
  exact ⟨report, out, hwrite, buildArchive_of_write hwrite hmirrors hemits⟩

end Archive

end Validator

end CriArchive
