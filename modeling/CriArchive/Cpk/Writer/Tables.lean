import Mathlib.Data.List.Sort
import CriArchive.Cpk.Builder

set_option relaxedAutoImplicit false
set_option autoImplicit false

/-!
# The tables of a new archive

The input of the writer in `cpk/writer.rs` and the tables it builds from it: the archive header,
the table of contents, and the ID table in its direct and its nested form.

## Main definitions

* `CpkInputFile`, `CpkWriterOptions`, `CpkWriterProfile` — what is packed, and how.
* `buildPhysicalOrder` — the order in which payloads are stored.
* `buildHeaderTable`, `buildTocTable`, `buildItocTable` — the tables.
* `inOrder` — the elements of a list in the order of a list of indices.

## Main results

* `buildPhysicalOrder_eq_ok` — when there is a physical order.
* `buildPhysicalOrder_spec` — the physical order is a permutation; with an ID table it is strictly
  ascending in the IDs, which fit 16 bits.
* `buildItocTable_eq` — the ID table is built from the rows of the entries in physical order,
  without any of its internal errors.
* `length_buildTocTable` — the length of a table of contents does not depend on the offsets.
-/

namespace CriArchive

/-! ## Input -/

/-- The packed payload of an entry of another archive. -/
structure CpkRawPayload where
  archivePath : PathBuf
  absoluteOffset : UInt64
  size : UInt32
  deriving DecidableEq, Repr

/-- An entry to be packed. -/
structure CpkInputFile where
  directory : String
  fileName : String
  /-- The extracted file that is packed in normal rebuild mode. -/
  sourcePath : PathBuf
  /-- The packed size written to `FileSize`. -/
  size : UInt32
  extractSize : UInt32
  id : UInt32
  userString : String
  /-- The packed payload that is reused instead of the extracted file. -/
  rawPayload : Option CpkRawPayload
  deriving DecidableEq, Repr

/-- The index tables of an archive. -/
inductive CpkIndexMode where
  | toc
  | itoc
  | tocAndItoc
  deriving DecidableEq, Repr

namespace CpkIndexMode

/-- `has_toc`. -/
def hasToc : CpkIndexMode → Bool
  | toc | tocAndItoc => true
  | itoc => false

/-- `has_itoc`. -/
def hasItoc : CpkIndexMode → Bool
  | itoc | tocAndItoc => true
  | toc => false

/-- `cpk_mode`. -/
def cpkMode : CpkIndexMode → UInt32
  | itoc => 0
  | toc => 1
  | tocAndItoc => 2

end CpkIndexMode

/-- `CpkWriterOptions`. -/
structure CpkWriterOptions where
  alignment : UInt16
  /-- Transform rebuilt entries that are marked as encrypted. -/
  p5rEncryption : Bool
  deriving DecidableEq, Repr

/-- `CpkWriterProfile`. -/
structure CpkWriterProfile where
  indexMode : CpkIndexMode
  /-- Whether the rows of the ID table are stored in it directly. -/
  directItoc : Bool
  version : UInt16
  revision : UInt16
  updateDateTime : UInt64
  tvers : String
  comment : String
  deriving DecidableEq, Repr

/-! ## Elements in the order of indices -/

section InOrder

variable {α β : Type}

/-- The elements of a list at given indices, in the order of the indices. -/
def inOrder (xs : List α) (order : List ℕ) : List α := order.filterMap (xs[·]?)

/-- The first entry in order is the one of the first index. -/
theorem inOrder_cons {xs : List α} {i : ℕ} {x : α} (h : xs[i]? = some x) (order : List ℕ) :
    inOrder xs (i :: order) = x :: inOrder xs order := by
  rw [inOrder, List.filterMap_cons, h]
  rfl

/-- All elements in their own order. -/
theorem inOrder_range (xs : List α) : inOrder xs (List.range xs.length) = xs := by
  have htake : ∀ n ≤ xs.length, (List.range n).filterMap (xs[·]?) = xs.take n := by
    intro n
    induction n with
    | zero => simp
    | succ n ih =>
      intro hn
      rw [List.range_succ, List.filterMap_append, ih (by omega), List.take_add_one]
      simp [List.getElem?_eq_getElem hn]
  rw [inOrder, htake _ (Nat.le_refl _), List.take_length]

/-- The elements in the order of a permutation of the indices are a permutation. -/
theorem inOrder_perm {xs : List α} {order : List ℕ} (h : order.Perm (List.range xs.length)) :
    (inOrder xs order).Perm xs := by
  have hperm := h.filterMap (xs[·]?)
  have hrange := inOrder_range xs
  rw [inOrder] at hrange
  rwa [hrange] at hperm

/-- As many entries stand in order as there are indices. -/
theorem length_inOrder {xs : List α} {order : List ℕ} (h : ∀ i ∈ order, i < xs.length) :
    (inOrder xs order).length = order.length := by
  induction order with
  | nil => rfl
  | cons i order ih =>
    have hi := h i (List.mem_cons_self ..)
    rw [inOrder_cons (List.getElem?_eq_getElem hi), List.length_cons, List.length_cons,
      ih fun j hj => h j (List.mem_cons_of_mem _ hj)]

/-- The element with the index at the position `k` of the order. -/
theorem getElem?_inOrder {xs : List α} {order : List ℕ} (h : ∀ i ∈ order, i < xs.length) {k i : ℕ}
    (hk : order[k]? = some i) : (inOrder xs order)[k]? = xs[i]? := by
  induction order generalizing k with
  | nil => simp at hk
  | cons j order ih =>
    have hj := h j (List.mem_cons_self ..)
    rw [inOrder_cons (List.getElem?_eq_getElem hj)]
    rcases k with _ | k
    · obtain rfl := Option.some.inj hk
      simp [List.getElem?_eq_getElem hj]
    · rw [List.getElem?_cons_succ]
      exact ih (fun i hi => h i (List.mem_cons_of_mem _ hi)) hk

end InOrder

/-! ## The order of the payloads -/

/-- Every ID must fit 16 bits and be new; `used` holds the IDs before. -/
def checkIds : List UInt32 → List CpkInputFile → Exec Error Unit
  | _, [] => pure ()
  | used, file :: files => do
    Exec.errIf (2 ^ 16 ≤ file.id.toNat) (.writer (.itocIdTooLarge file.id))
    Exec.errIf (file.id ∈ used) (.writer (.duplicateItocId file.id))
    checkIds (file.id :: used) files

/-- The ID of the entry with an index. -/
def idAt (files : List CpkInputFile) (index : ℕ) : UInt32 :=
  (files[index]?.map CpkInputFile.id).getD 0

/-- `build_physical_order`: with an ID table, payloads are stored in the order of their IDs. -/
def buildPhysicalOrder (files : List CpkInputFile) (profile : CpkWriterProfile) :
    Exec Error (List ℕ) :=
  if profile.indexMode.hasItoc = true then do
    checkIds [] files
    pure ((List.range files.length).insertionSort fun i j => idAt files i ≤ idAt files j)
  else pure (List.range files.length)

/-- IDs pass the check iff they fit 16 bits, are new, and pairwise distinct. -/
theorem checkIds_eq_ok {used : List UInt32} {files : List CpkInputFile} :
    checkIds used files = .ok () ↔ (∀ f ∈ files, f.id.toNat < 2 ^ 16) ∧
      (files.map CpkInputFile.id).Nodup ∧ ∀ f ∈ files, f.id ∉ used := by
  induction files generalizing used with
  | nil => simp [checkIds]
  | cons f files ih =>
    unfold checkIds
    simp only [Exec.bind_eq_ok, Exec.errIf_eq_ok, ih, List.map_cons, List.nodup_cons,
      List.mem_map, not_exists, not_and, List.mem_cons, not_or, Nat.not_le, forall_eq_or_imp]
    constructor
    · rintro ⟨-, hsmall, -, hnew, hothers, hnodup, hfresh⟩
      exact ⟨⟨hsmall, hothers⟩, ⟨fun g hg => (hfresh g hg).1, hnodup⟩, hnew,
        fun g hg => (hfresh g hg).2⟩
    · rintro ⟨⟨hsmall, hothers⟩, ⟨hdistinct, hnodup⟩, hnew, hfresh⟩
      exact ⟨(), hsmall, (), hnew, hothers, hnodup, fun g hg => ⟨hdistinct g hg, hfresh g hg⟩⟩

/-- **When there is a physical order**: always without an ID table, and with one when the IDs fit 16
bits and none repeats. -/
theorem buildPhysicalOrder_eq_ok {files : List CpkInputFile} {profile : CpkWriterProfile} :
    (∃ order, buildPhysicalOrder files profile = .ok order) ↔
      (profile.indexMode.hasItoc = true → (∀ f ∈ files, f.id.toNat < 2 ^ 16) ∧
        (files.map CpkInputFile.id).Nodup) := by
  unfold buildPhysicalOrder
  split_ifs with hitoc
  · simp only [Exec.bind_eq_ok, Exec.pure_eq, Exec.ok.injEq, hitoc, true_imp_iff]
    constructor
    · rintro ⟨-, ⟨⟩, hcheck, -⟩
      obtain ⟨hsmall, hnodup, -⟩ := checkIds_eq_ok.mp hcheck
      exact ⟨hsmall, hnodup⟩
    · rintro ⟨hsmall, hnodup⟩
      exact ⟨_, (), checkIds_eq_ok.mpr ⟨hsmall, hnodup, by simp⟩, rfl⟩
  · exact ⟨fun _ h => absurd h hitoc, fun _ => ⟨_, rfl⟩⟩

/-- **The physical order** is a permutation of the entries. Without an ID table it is the given
order; with one it is strictly ascending in the IDs, which fit 16 bits.

**Proof sketch.** Without an ID table the order is the range itself. With one it is the range sorted
by ID, a permutation; the check has found the IDs small and distinct, so that the order is strict. -/
theorem buildPhysicalOrder_spec {files : List CpkInputFile} {profile : CpkWriterProfile}
    {order : List ℕ} (h : buildPhysicalOrder files profile = .ok order) :
    order.Perm (List.range files.length) ∧
      (profile.indexMode.hasItoc = false → order = List.range files.length) ∧
      (profile.indexMode.hasItoc = true → (∀ f ∈ files, f.id.toNat < 2 ^ 16) ∧
        ((inOrder files order).map CpkInputFile.id).Pairwise (· < ·)) := by
  unfold buildPhysicalOrder at h
  split_ifs at h with hitoc
  · rw [Exec.bind_eq_ok] at h
    obtain ⟨⟨⟩, hcheck, h⟩ := h
    obtain rfl := Exec.ok.inj h
    obtain ⟨hsmall, hnodup, -⟩ := checkIds_eq_ok.mp hcheck
    have hperm := List.perm_insertionSort (fun i j => idAt files i ≤ idAt files j)
      (List.range files.length)
    refine ⟨hperm, fun hf => absurd (hitoc.symm.trans hf) (by decide), fun _ => ⟨hsmall, ?_⟩⟩
    -- sorted and without repetition is strictly sorted
    set order := (List.range files.length).insertionSort fun i j => idAt files i ≤ idAt files j
    have hle : (order.map (idAt files)).Pairwise (· ≤ ·) := by
      rw [List.pairwise_map]
      exact List.pairwise_insertionSort _ _
    have hids : (inOrder files order).map CpkInputFile.id = order.map (idAt files) := by
      have hall : ∀ i ∈ order, i < files.length := fun i hi =>
        List.mem_range.mp (hperm.mem_iff.mp hi)
      refine List.ext_getElem (by simp [length_inOrder hall]) fun k h₁ h₂ => ?_
      have hk : k < order.length := by simpa using h₂
      have hget := getElem?_inOrder hall (List.getElem?_eq_getElem hk)
      have hi := hall order[k] (List.getElem_mem hk)
      rw [List.getElem?_eq_getElem (by simpa using h₁), List.getElem?_eq_getElem hi,
        Option.some_inj] at hget
      simp only [List.getElem_map, hget, idAt, List.getElem?_eq_getElem hi, Option.map_some,
        Option.getD_some]
    have hnodup' : ((inOrder files order).map CpkInputFile.id).Nodup :=
      ((inOrder_perm hperm).map CpkInputFile.id).nodup_iff.mpr hnodup
    rw [← hids] at hle
    exact (List.Pairwise.and hle hnodup').imp fun hab =>
      UInt32.lt_of_le_of_ne hab.1 hab.2
  · obtain rfl := Exec.ok.inj h
    exact ⟨List.Perm.refl _, fun _ => rfl, fun ht => absurd ht hitoc⟩

/-! ## The archive header -/

/-- The columns of the archive header. -/
def headerColumns : List UtfColumn :=
  [⟨"UpdateDateTime", .uInt64⟩, ⟨"FileSize", .uInt64⟩, ⟨"ContentOffset", .uInt64⟩,
    ⟨"ContentSize", .uInt64⟩, ⟨"TocOffset", .uInt64⟩, ⟨"TocSize", .uInt64⟩,
    ⟨"EtocOffset", .uInt64⟩, ⟨"EtocSize", .uInt64⟩, ⟨"ItocOffset", .uInt64⟩,
    ⟨"ItocSize", .uInt64⟩, ⟨"GtocOffset", .uInt64⟩, ⟨"GtocSize", .uInt64⟩, ⟨"Files", .uInt32⟩,
    ⟨"Version", .uInt16⟩, ⟨"Revision", .uInt16⟩, ⟨"Align", .uInt16⟩, ⟨"Sorted", .uInt16⟩,
    ⟨"EID", .uInt16⟩, ⟨"EnableFileName", .uInt16⟩, ⟨"CpkMode", .uInt32⟩, ⟨"Tvers", .string⟩,
    ⟨"Comment", .string⟩, ⟨"Codec", .uInt32⟩, ⟨"DpkItoc", .uInt32⟩, ⟨"EnableTocCrc", .uInt16⟩,
    ⟨"EnableFileCrc", .uInt16⟩]

/-- The numbers of the archive header that depend on the plan of the archive. -/
structure HeaderNumbers where
  archiveSize : UInt64
  contentOffset : UInt64
  contentSize : UInt64
  tocOffset : UInt64
  tocSize : UInt64
  itocOffset : UInt64
  itocSize : UInt64
  alignment : UInt16
  fileCount : UInt32
  deriving DecidableEq, Repr

/-- The row of the archive header. -/
def headerValues (n : HeaderNumbers) (profile : CpkWriterProfile) : List UtfValue :=
  [.uInt64 profile.updateDateTime, .uInt64 n.archiveSize, .uInt64 n.contentOffset,
    .uInt64 n.contentSize, .uInt64 n.tocOffset, .uInt64 n.tocSize, .uInt64 0, .uInt64 0,
    .uInt64 n.itocOffset, .uInt64 n.itocSize, .uInt64 0, .uInt64 0, .uInt32 n.fileCount,
    .uInt16 profile.version, .uInt16 profile.revision, .uInt16 n.alignment,
    -- the table of contents is advertised as unsorted
    .uInt16 0,
    .uInt16 (if profile.indexMode.hasItoc && profile.directItoc then 1 else 0),
    .uInt16 (if profile.indexMode.hasToc then 1 else 0), .uInt32 profile.indexMode.cpkMode,
    .string profile.tvers, .string profile.comment, .uInt32 0, .uInt32 0, .uInt16 0, .uInt16 0]

/-- The archive header as a table to be built. -/
def headerBuilder (n : HeaderNumbers) (profile : CpkWriterProfile) : UtfTableBuilder :=
  ⟨"CpkHeader", headerColumns, [headerValues n profile]⟩

/-- `build_header_table`. -/
def buildHeaderTable (n : HeaderNumbers) (profile : CpkWriterProfile) : Exec Error (List UInt8) :=
  (headerBuilder n profile).build

/-! ## The table of contents -/

/-- The columns of a table of contents. -/
def tocTableColumns : List UtfColumn :=
  [⟨"DirName", .string⟩, ⟨"FileName", .string⟩, ⟨"FileSize", .uInt32⟩, ⟨"ExtractSize", .uInt32⟩,
    ⟨"FileOffset", .uInt64⟩, ⟨"ID", .uInt32⟩, ⟨"UserString", .string⟩]

/-- The row of an entry at an offset. -/
def tocValues (file : CpkInputFile) (offset : UInt64) : List UtfValue :=
  [.string file.directory, .string file.fileName, .uInt32 file.size, .uInt32 file.extractSize,
    .uInt64 offset, .uInt32 file.id, .string file.userString]

/-- The table of contents as a table to be built. -/
def tocBuilder (files : List CpkInputFile) (offsets : List UInt64) : UtfTableBuilder :=
  ⟨"CpkTocInfo", tocTableColumns, List.zipWith tocValues files offsets⟩

/-- `build_toc_table`. -/
def buildTocTable (files : List CpkInputFile) (offsets : List UInt64) : Exec Error (List UInt8) :=
  (tocBuilder files offsets).build

/-- **The length of a table of contents** does not depend on the offsets in it. -/
theorem length_buildTocTable {files : List CpkInputFile} {offsets offsets' : List UInt64}
    {table table' : List UInt8} (h : buildTocTable files offsets = .ok table)
    (h' : buildTocTable files offsets' = .ok table') (hlen : offsets.length = offsets'.length) :
    table.length = table'.length := by
  refine UtfTableBuilder.length_build_skeleton h h' ?_
  have hrows : (List.zipWith tocValues files offsets).map (List.map UtfValue.skeleton) =
      (List.zipWith tocValues files offsets').map (List.map UtfValue.skeleton) := by
    refine List.ext_getElem (by simp [hlen]) fun i h₁ h₂ => ?_
    simp [tocValues, UtfValue.skeleton]
  simp only [UtfTableBuilder.skeleton, tocBuilder, hrows]

/-! ## The ID table -/

/-- The columns of an ID table whose sizes have a given type. -/
def itocColumns (sizeType : UtfType) : List UtfColumn :=
  [⟨"ID", .uInt16⟩, ⟨"FileSize", sizeType⟩, ⟨"ExtractSize", sizeType⟩]

/-- The row of an entry, with sizes of 16 or 32 bits. -/
def itocValues (lowWidth : Bool) (file : CpkInputFile) : Exec Error (List UtfValue) := do
  let id ← Exec.okOr (UInt16.tryFrom file.id.toNat) (.inconsistent .itocId (.itocIdTooLarge file.id))
  if lowWidth = true then do
    let size ← Exec.okOr (UInt16.tryFrom file.size.toNat)
      (.inconsistent .dataLowSize .arithmeticOverflow)
    let extractSize ← Exec.okOr (UInt16.tryFrom file.extractSize.toNat)
      (.inconsistent .dataLowSize .arithmeticOverflow)
    pure [.uInt16 id, .uInt16 size, .uInt16 extractSize]
  else pure [.uInt16 id, .uInt32 file.size, .uInt32 file.extractSize]

/-- The rows of the entries with given indices. -/
def itocValuesAt (files : List CpkInputFile) (lowWidth : Bool) :
    List ℕ → Exec Error (List (List UtfValue))
  | [] => pure []
  | index :: indices => do
    let file ← Exec.index files index
    let row ← itocValues lowWidth file
    let rows ← itocValuesAt files lowWidth indices
    pure (row :: rows)

/-- `build_itoc_rows`. -/
def buildItocRows (files : List CpkInputFile) (indices : List ℕ) (lowWidth : Bool)
    (tableName : String) : Exec Error (List UInt8) := do
  let rows ← itocValuesAt files lowWidth indices
  UtfTableBuilder.build ⟨tableName, itocColumns (if lowWidth = true then .uInt16 else .uInt32), rows⟩

/-- Whether both sizes of an entry fit 16 bits. -/
def CpkInputFile.fitsLow (file : CpkInputFile) : Bool :=
  file.size ≤ 0xffff && file.extractSize ≤ 0xffff

/-- The indices of the entries whose sizes fit 16 bits, and the others. -/
def splitWidths (files : List CpkInputFile) : List ℕ → Exec Error (List ℕ × List ℕ)
  | [] => pure ([], [])
  | index :: indices => do
    let file ← Exec.index files index
    let others ← splitWidths files indices
    pure (if file.fitsLow then (index :: others.1, others.2) else (others.1, index :: others.2))

/-- The columns of the table that nests the two ID tables. -/
def itocNestColumns : List UtfColumn := [⟨"DataL", .data⟩, ⟨"DataH", .data⟩]

/-- `build_itoc_table`. -/
def buildItocTable (files : List CpkInputFile) (physicalOrder : List ℕ) (direct : Bool) :
    Exec Error (List UInt8) :=
  if direct = true then buildItocRows files physicalOrder false "CpkExtendId"
  else do
    let widths ← splitWidths files physicalOrder
    let low ← buildItocRows files widths.1 true "CpkItocL"
    let high ← buildItocRows files widths.2 false "CpkItocH"
    UtfTableBuilder.build ⟨"CpkItocInfo", itocNestColumns, [[.data low, .data high]]⟩

/-! ### Without internal errors -/

/-- The row of an entry whose ID fits 16 bits, sizes cut to 16 bits when the row is narrow. -/
def itocRowOf (lowWidth : Bool) (file : CpkInputFile) : List UtfValue :=
  if lowWidth then
    [.uInt16 file.id.toUInt16, .uInt16 file.size.toUInt16, .uInt16 file.extractSize.toUInt16]
  else [.uInt16 file.id.toUInt16, .uInt32 file.size, .uInt32 file.extractSize]

/-- A narrow or wide ID table as a table to be built. -/
def itocBuilder (files : List CpkInputFile) (lowWidth : Bool) (tableName : String) :
    UtfTableBuilder :=
  ⟨tableName, itocColumns (if lowWidth = true then .uInt16 else .uInt32),
    files.map (itocRowOf lowWidth)⟩

/-- The nested ID tables as a table to be built. -/
def itocNestBuilder (low high : List UInt8) : UtfTableBuilder :=
  ⟨"CpkItocInfo", itocNestColumns, [[.data low, .data high]]⟩

/-- The ID table of entries in physical order. -/
def itocTableOf (physical : List CpkInputFile) (direct : Bool) : Exec Error (List UInt8) :=
  if direct = true then (itocBuilder physical false "CpkExtendId").build
  else do
    let low ← (itocBuilder (physical.filter CpkInputFile.fitsLow) true "CpkItocL").build
    let high ← (itocBuilder (physical.filter (!CpkInputFile.fitsLow ·)) false "CpkItocH").build
    (itocNestBuilder low high).build

/-- Converting a value that fits 16 bits. -/
theorem tryFrom_toUInt16 {v : UInt32} (h : v.toNat < 2 ^ 16) :
    UInt16.tryFrom v.toNat = some v.toUInt16 := by
  rw [UInt16.tryFrom_eq_some, UInt32.toNat_toUInt16, Nat.mod_eq_of_lt h]

/-- An entry fits the low table iff both its sizes fit 16 bits. -/
theorem fitsLow_iff {file : CpkInputFile} :
    file.fitsLow = true ↔ file.size.toNat < 2 ^ 16 ∧ file.extractSize.toNat < 2 ^ 16 := by
  simp only [CpkInputFile.fitsLow, Bool.and_eq_true, decide_eq_true_eq, UInt32.le_iff_toNat_le,
    UInt32.reduceToNat]
  omega

/-- The row of an entry with a 16-bit ID whose sizes fit the row. -/
theorem itocValues_eq {lowWidth : Bool} {file : CpkInputFile} (hid : file.id.toNat < 2 ^ 16)
    (hfits : lowWidth = true → file.fitsLow = true) :
    itocValues lowWidth file = .ok (itocRowOf lowWidth file) := by
  unfold itocValues itocRowOf
  rw [tryFrom_toUInt16 hid, Exec.okOr_some, Exec.ok_bind]
  split_ifs with hlow
  · obtain ⟨hsize, hextract⟩ := fitsLow_iff.mp (hfits hlow)
    rw [tryFrom_toUInt16 hsize, tryFrom_toUInt16 hextract, Exec.okOr_some, Exec.ok_bind,
      Exec.okOr_some, Exec.ok_bind]
    rfl
  · rfl

/-- The rows of entries with 16-bit IDs whose sizes fit the rows. -/
theorem itocValuesAt_eq {files : List CpkInputFile} {lowWidth : Bool} {indices : List ℕ}
    (hindices : ∀ i ∈ indices, i < files.length)
    (hids : ∀ f ∈ inOrder files indices, f.id.toNat < 2 ^ 16)
    (hfits : lowWidth = true → ∀ f ∈ inOrder files indices, f.fitsLow = true) :
    itocValuesAt files lowWidth indices =
      .ok ((inOrder files indices).map (itocRowOf lowWidth)) := by
  induction indices with
  | nil => rfl
  | cons i indices ih =>
    have hi := hindices i (List.mem_cons_self ..)
    rw [inOrder_cons (List.getElem?_eq_getElem hi)] at hids hfits ⊢
    have hrow : itocValues lowWidth files[i] = .ok (itocRowOf lowWidth files[i]) :=
      itocValues_eq (hids _ (List.mem_cons_self ..)) fun h => hfits h _ (List.mem_cons_self ..)
    have hrows := ih (fun j hj => hindices j (List.mem_cons_of_mem _ hj))
      (fun f hf => hids f (List.mem_cons_of_mem _ hf))
      fun h f hf => hfits h f (List.mem_cons_of_mem _ hf)
    rw [itocValuesAt, Exec.index_eq hi, Exec.ok_bind, hrow, Exec.ok_bind, hrows]
    rfl

/-- An ID table of entries with 16-bit IDs whose sizes fit its rows. -/
theorem buildItocRows_eq {files : List CpkInputFile} (lowWidth : Bool) {indices : List ℕ}
    (hindices : ∀ i ∈ indices, i < files.length)
    (hids : ∀ f ∈ inOrder files indices, f.id.toNat < 2 ^ 16)
    (hfits : lowWidth = true → ∀ f ∈ inOrder files indices, f.fitsLow = true) (name : String) :
    buildItocRows files indices lowWidth name =
      (itocBuilder (inOrder files indices) lowWidth name).build := by
  rw [buildItocRows, itocValuesAt_eq hindices hids hfits]
  rfl

/-- The split of the entries by their width. -/
theorem splitWidths_eq {files : List CpkInputFile} {indices : List ℕ}
    (hindices : ∀ i ∈ indices, i < files.length) :
    ∃ low high, splitWidths files indices = .ok (low, high) ∧ (∀ i ∈ low, i < files.length) ∧
      (∀ i ∈ high, i < files.length) ∧
      inOrder files low = (inOrder files indices).filter CpkInputFile.fitsLow ∧
      inOrder files high = (inOrder files indices).filter (!CpkInputFile.fitsLow ·) := by
  induction indices with
  | nil => exact ⟨[], [], rfl, by simp, by simp, rfl, rfl⟩
  | cons i indices ih =>
    have hi := hindices i (List.mem_cons_self ..)
    have hget := List.getElem?_eq_getElem hi
    obtain ⟨low, high, hsplit, hlow, hhigh, hl, hh⟩ :=
      ih fun j hj => hindices j (List.mem_cons_of_mem _ hj)
    rw [splitWidths, Exec.index_eq hi, Exec.ok_bind, hsplit, Exec.ok_bind, inOrder_cons hget]
    by_cases hfits : files[i].fitsLow = true
    · refine ⟨i :: low, high, by rw [if_pos hfits]; rfl, ?_, hhigh, ?_, ?_⟩
      · exact fun j hj => (List.mem_cons.mp hj).elim (fun h => h ▸ hi) (hlow j)
      · rw [inOrder_cons hget, List.filter_cons_of_pos hfits, hl]
      · rw [List.filter_cons_of_neg (by simp [hfits]), hh]
    · refine ⟨low, i :: high, by rw [if_neg hfits]; rfl, hlow, ?_, ?_, ?_⟩
      · exact fun j hj => (List.mem_cons.mp hj).elim (fun h => h ▸ hi) (hhigh j)
      · rw [List.filter_cons_of_neg hfits, hl]
      · rw [inOrder_cons hget, List.filter_cons_of_pos (by simp [hfits]), hh]

/-- **The ID table** of entries with 16-bit IDs is built from their rows in physical order: those
of all entries, or those of the narrow and of the wide entries. No internal error occurs. -/
theorem buildItocTable_eq (files : List CpkInputFile) (order : List ℕ)
    (horder : ∀ i ∈ order, i < files.length)
    (hids : ∀ f ∈ inOrder files order, f.id.toNat < 2 ^ 16) (direct : Bool) :
    buildItocTable files order direct = itocTableOf (inOrder files order) direct := by
  unfold buildItocTable itocTableOf
  split_ifs with hdirect
  · exact buildItocRows_eq false horder hids (by simp) _
  · obtain ⟨low, high, hsplit, hlow, hhigh, hl, hh⟩ := splitWidths_eq horder
    have hlowTable := buildItocRows_eq true hlow
      (fun f hf => hids f (List.mem_of_mem_filter (hl ▸ hf)))
      (fun _ f hf => List.of_mem_filter (hl ▸ hf)) "CpkItocL"
    have hhighTable := buildItocRows_eq false hhigh
      (fun f hf => hids f (List.mem_of_mem_filter (hh ▸ hf))) (by simp) "CpkItocH"
    rw [hsplit, Exec.ok_bind, hlowTable, hhighTable, hl, hh]
    rfl

end CriArchive
