import CriArchive.Cpk.RoundTrip.Index
import CriArchive.Cpk.RoundTrip.Source

set_option relaxedAutoImplicit false
set_option autoImplicit false

/-!
# The structure of an archive

By what entries are looked up, and in which order they stand. A table of contents stores all of it;
an ID table stores nothing but IDs, in ascending order.

## Main definitions

* `CpkInputFile.identity` — what an entry that is packed should be looked up by.

## Main results

* `CpkReader.exists_ids_of_getFiles` — without a table of contents, entries are known by their IDs.
* `Written.getFiles_identity` — a written archive has the structure of the packed entries.
-/

namespace CriArchive

open CpkReader

/-- The identity that an entry to be packed should get. -/
def CpkInputFile.identity (f : CpkInputFile) : Identity :=
  ⟨f.directory, f.fileName, some f.id, f.userString⟩

/-! ## Archives that are read -/

section Source

variable {shiftJis : List UInt8 → String}

/-- **Without a table of contents** entries are known by their IDs, in ascending order. -/
theorem CpkReader.exists_ids_of_getFiles {r r' : CpkReader} {entries : List CpkFile}
    {m : CpkMetadata} (h : getFiles shiftJis r = (.ok entries, r')) (hm : r'.metadata = some m)
    (htoc : m.tocOffset = 0) :
    ∃ ids : List UInt32, ids.Pairwise (· < ·) ∧
      entries.map CpkFile.identity = ids.map Identity.ofId := by
  obtain ⟨m', r₁, hm', hindex, -⟩ := getFiles_eq_ok h
  obtain rfl := Option.some.inj (hm.symm.trans hm')
  rw [readIndex, if_neg (not_not.mpr htoc)] at hindex
  split_ifs at hindex
  · obtain ⟨itoc, alloc, rows, -, -, haccepted, hentries⟩ := readItoc_eq_ok hindex
    exact ⟨_, List.pairwise_map.mpr (sortById_pairwise haccepted), identity_of_materialize hentries⟩
  · cases hindex

end Source

/-! ## Archives that are written -/

/-- A row of a table of contents has the identity of its input. -/
theorem identity_tocEntry {f : CpkInputFile} (hdirectory : f.directory.NulFree)
    (hfileName : f.fileName.NulFree) (huserString : f.userString.NulFree) (rel o : UInt64) :
    (tocEntry f rel o).identity = f.identity := by
  change (⟨f.directory.nulPrefix, f.fileName.nulPrefix, some f.id, f.userString.nulPrefix⟩ :
    Identity) = _
  rw [String.nulPrefix_of_nulFree hdirectory, String.nulPrefix_of_nulFree hfileName,
    String.nulPrefix_of_nulFree huserString]
  rfl

namespace Written

variable {fs : FileSystem} {path : P5RPath} {files : List CpkInputFile}
  {options : CpkWriterOptions} {profile : CpkWriterProfile} {report : CpkWriteReport}
  {bytes : List UInt8} (w : Written fs path files options profile report bytes)

include w

/-- The header says which indexes there are. -/
theorem metadata_indexes :
    (w.metadata.tocOffset ≠ 0 ↔ profile.indexMode.hasToc = true) ∧
      (w.metadata.itocOffset ≠ 0 ↔ profile.indexMode.hasItoc = true) := by
  constructor
  · by_cases htoc : profile.indexMode.hasToc = true
    · have hoffset : w.metadata.tocOffset = 0x800 := (w.planned.toc htoc).1
      exact iff_of_true (by rw [hoffset]; decide) htoc
    · have hoffset : w.metadata.tocOffset = 0 :=
        (w.planned.noToc (Bool.eq_false_of_not_eq_true htoc)).1
      exact iff_of_false (not_not.mpr hoffset) htoc
  · by_cases hitoc : profile.indexMode.hasItoc = true
    · refine iff_of_true (fun hzero => ?_) hitoc
      obtain ⟨-, -, table, htable, -⟩ := w.planned.itoc hitoc
      have hle := (w.layout.itoc table htable).1
      have hoffset : w.plan.itocOffset = 0 := hzero
      rw [hoffset] at hle
      simp at hle
    · have hoffset : w.metadata.itocOffset = 0 :=
        (w.planned.noItoc (Bool.eq_false_of_not_eq_true hitoc)).1
      exact iff_of_false (not_not.mpr hoffset) hitoc

/-- A table of contents stores the identities of the packed entries. -/
theorem getFiles_identity_toc (shiftJis : List UInt8 → String)
    (htoc : profile.indexMode.hasToc = true)
    (hstrings : ∀ f ∈ files, f.directory.NulFree ∧ f.fileName.NulFree ∧ f.userString.NulFree)
    (hnames : ∀ f ∈ files, f.fileName ≠ "")
    (h32 : ∀ table, w.plan.tocTable = some table → table.length < 2 ^ 32) {r : CpkReader}
    (hbytes : r.stream.bytes = bytes) (hstart : r.startPos = 0) :
    ∃ entries r', getFiles shiftJis r = (.ok entries, r') ∧ r'.metadata = some w.metadata ∧
      entries.map CpkFile.identity = files.map CpkInputFile.identity := by
  obtain ⟨entries, r', hfiles, -, hm, hlen, hall⟩ :=
    w.getFiles_toc shiftJis htoc hnames h32 hbytes hstart
  refine ⟨entries, r', hfiles, hm, List.ext_getElem? fun i => ?_⟩
  rw [List.getElem?_map, List.getElem?_map]
  rcases hf : files[i]? with _ | f
  · rw [List.getElem?_eq_none (hlen ▸ List.getElem?_eq_none_iff.mp hf)]
    rfl
  · obtain ⟨o, ho⟩ := w.offset_of_file hf
    obtain ⟨rel, hentry⟩ := hall i f o hf ho
    obtain ⟨hdirectory, hfileName, huserString⟩ := hstrings f (List.mem_of_getElem? hf)
    rw [hentry, Option.map_some, Option.map_some, identity_tocEntry hdirectory hfileName huserString]

/-- Entries whose IDs are in ascending order are stored in their order. -/
theorem physical_eq (hitoc : profile.indexMode.hasItoc = true)
    (hids : (files.map CpkInputFile.id).Pairwise (· < ·)) : w.physical = files := by
  have hperm : w.physical.Perm files := inOrder_perm w.layout.entries.2
  refine hperm.eq_of_pairwise (fun a b _ _ hab hba => ?_)
    (List.pairwise_map.mp (w.ids_physical hitoc).2) (List.pairwise_map.mp hids)
  exact absurd (UInt32.lt_trans hab hba) (UInt32.lt_irrefl _)

/-- An ID table stores the IDs of the packed entries. -/
theorem getFiles_identity_itoc (shiftJis : List UInt8 → String) (hmode : profile.indexMode = .itoc)
    {r : CpkReader} (hbytes : r.stream.bytes = bytes) (hstart : r.startPos = 0) :
    ∃ entries r', getFiles shiftJis r = (.ok entries, r') ∧ r'.metadata = some w.metadata ∧
      entries.map CpkFile.identity = (w.physical.map CpkInputFile.id).map Identity.ofId := by
  obtain ⟨entries, r', hfiles, -, hm, hlen, hall⟩ := w.getFiles_itoc shiftJis hmode hbytes hstart
  have hindices : ∀ j ∈ w.plan.physicalOrder, j < files.length := fun j hj =>
    List.mem_range.mp (w.layout.entries.2.mem_iff.mp hj)
  refine ⟨entries, r', hfiles, hm, List.ext_getElem? fun k => ?_⟩
  rw [List.getElem?_map, List.getElem?_map, List.getElem?_map]
  rcases hk : w.plan.physicalOrder[k]? with _ | i
  · have hle : entries.length ≤ k := by
      rw [hlen, physical, length_inOrder hindices]
      exact List.getElem?_eq_none_iff.mp hk
    rw [List.getElem?_eq_none hle, List.getElem?_eq_none (hlen ▸ hle)]
    rfl
  · obtain ⟨f, o, -, hf, ho, -⟩ := entry_at w.planned w.emits hk
    obtain ⟨rel, hentry⟩ := hall k i f o hk hf ho
    rw [hentry, physical, getElem?_inOrder hindices hk, hf]
    rfl

/-- **The structure of a written archive** is that of the packed entries, provided that an ID table
alone can store it. -/
theorem getFiles_identity (shiftJis : List UInt8 → String)
    (hstrings : ∀ f ∈ files, f.directory.NulFree ∧ f.fileName.NulFree ∧ f.userString.NulFree)
    (hnames : ∀ f ∈ files, f.fileName ≠ "")
    (hstored : profile.indexMode.hasToc = false → ∃ ids : List UInt32, ids.Pairwise (· < ·) ∧
      files.map CpkInputFile.identity = ids.map Identity.ofId)
    (h32 : ∀ table, w.plan.tocTable = some table → table.length < 2 ^ 32) {r : CpkReader}
    (hbytes : r.stream.bytes = bytes) (hstart : r.startPos = 0) :
    ∃ entries r', getFiles shiftJis r = (.ok entries, r') ∧ r'.metadata = some w.metadata ∧
      entries.map CpkFile.identity = files.map CpkInputFile.identity := by
  by_cases htoc : profile.indexMode.hasToc = true
  · exact w.getFiles_identity_toc shiftJis htoc hstrings hnames h32 hbytes hstart
  · have hmode : profile.indexMode = .itoc := by
      revert htoc
      cases profile.indexMode <;> simp [CpkIndexMode.hasToc]
    obtain ⟨ids, hsorted, hidentity⟩ := hstored (Bool.eq_false_of_not_eq_true htoc)
    -- the IDs of the packed entries are the IDs that identify them
    have hids : files.map CpkInputFile.id = ids := by
      have hsome := congrArg (List.map Identity.id) hidentity
      rw [List.map_map, List.map_map] at hsome
      refine List.map_injective_iff.mpr (Option.some_injective UInt32) ?_
      rw [List.map_map]
      exact hsome
    obtain ⟨entries, r', hfiles, hm, hentries⟩ :=
      w.getFiles_identity_itoc shiftJis hmode hbytes hstart
    have hphysical := w.physical_eq (by rw [hmode]; rfl) (hids ▸ hsorted)
    exact ⟨entries, r', hfiles, hm, by rw [hentries, hphysical, hids, hidentity]⟩

end Written

end CriArchive
