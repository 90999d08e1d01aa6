import CriArchive.Cli.Rebuild
import CriArchive.Cli.Unpack
import CriArchive.Cpk.RoundTrip.Structure

set_option relaxedAutoImplicit false
set_option autoImplicit false

/-!
# Packing what was unpacked

`run_pack` of the command line, and what an archive keeps when it is unpacked and packed again. The
two commands meet in the identities of the entries: the manifest records those of the archive, the
inputs of a rebuild retain those of the manifest, and the new archive stores those of its inputs.

## Main definitions

* `runPack` — the command.
* `SameStructure` — an archive has the structure of another.
* `Separate` — the paths of entries stay below the directory, apart from the manifest's files.

## Main results

* `runPack_eq_ok` — what a pack that returned has done.
* `presentEntries_unpackedFiles`, `newFiles_unpackedFiles` — a rebuild finds the entries, and no
  other file.
* `unpack_pack_structure` — unpacking and packing keep the structure.
-/

namespace CriArchive

open StdPath CpkReader

/-! ## The command -/

/-- The options of `run_pack`. -/
structure PackOptions where
  alignmentOverride : Option UInt16
  p5r : Bool
  reuseRawEntries : Bool
  deriving DecidableEq, Repr

/-- A step of the crate, as a step of the command line. -/
def onCrate {α : Type} (x : ExecM FileSystem Error α) : ExecM FileSystem CliError α := fun fs =>
  (Exec.mapErr .crate (x fs).1, (x fs).2)

/-- `run_pack`, after its arguments were parsed, on the files that the input directory was read
from. `found` is what the traversal of `pack_directory` yields. -/
def runPack (sys : HostSystem) (path : P5RPath) (seen : List UInt8) {fs : FileSystem}
    {root : PathBuf} (d : RootDirectory sys.host root fs) (found : List (Exec Error FoundFile))
    (output : PathBuf) (o : PackOptions) : ExecM FileSystem CliError CpkWriteReport := do
  let manifest ← ExecM.lift (Manifest.read sys fs root)
  match manifest with
  | some m => do
    ExecM.lift (Exec.errIf (o.reuseRawEntries = true ∧ resolvesTo sys m.sourceArchive output = true)
      (.message ("--reuse-raw-entries cannot overwrite the source CPK because raw entry bytes " ++
        "are read from it")))
    let files ← ExecM.lift (m.buildInputs sys d output o.reuseRawEntries)
    ExecM.lift (Exec.errIf (files = []) (.message "input directory contains no packable files"))
    let alignment := o.alignmentOverride.getD (max m.alignment 1)
    let profile ← ExecM.lift m.writerProfile
    onCrate (packFilesWithProfile path output seen files ⟨alignment, m.p5r || o.p5r⟩ profile)
  | none => do
    ExecM.lift (Exec.errIf (o.reuseRawEntries = true)
      (.message "--reuse-raw-entries requires a .cri-cpk-manifest-v2 generated by unpack"))
    onCrate (packDirectory path output seen found ⟨o.alignmentOverride.getD 0x800, o.p5r⟩)

section Pack

variable {sys : HostSystem} {path : P5RPath} {seen : List UInt8} {fs fs' : FileSystem}
  {root : PathBuf} {d : RootDirectory sys.host root fs} {found : List (Exec Error FoundFile)}
  {output : PathBuf} {o : PackOptions} {report : CpkWriteReport}

/-- A step of the crate that returns. -/
theorem onCrate_eq_ok {α : Type} {x : ExecM FileSystem Error α} {a : α} :
    onCrate x fs = (.ok a, fs') ↔ x fs = (.ok a, fs') := by
  rw [onCrate, Prod.mk.injEq, Exec.mapErr_eq_ok, ← Prod.mk.injEq]

/-- **A rebuild that returned** has planned its inputs, and written an archive of them. -/
theorem runPack_eq_ok {m : Manifest} (hm : Manifest.read sys fs root = .ok (some m)) :
    runPack sys path seen d found output o fs = (.ok report, fs') ↔
      ∃ files profile out,
        ¬(o.reuseRawEntries = true ∧ resolvesTo sys m.sourceArchive output = true) ∧
        m.buildInputs sys d output o.reuseRawEntries = .ok files ∧ files ≠ [] ∧
        m.writerProfile = .ok profile ∧
        writeWithProfile (Function.update fs output (some seen)) path files
          ⟨o.alignmentOverride.getD (max m.alignment 1), m.p5r || o.p5r⟩ profile ⟨[], 0⟩ =
            (.ok report, out) ∧
        fs' = Function.update fs output (some out.bytes) := by
  rw [runPack, ExecM.lift_bind_of_ok hm]
  simp only [ExecM.bind_eq_ok, ExecM.lift_eq_ok, Exec.errIf_eq_ok, onCrate_eq_ok,
    packFilesWithProfile, Prod.mk.injEq]
  constructor
  · rintro ⟨_, _, ⟨hreuse, rfl⟩, files, _, ⟨hfiles, rfl⟩, _, _, ⟨hne, rfl⟩, profile, _,
      ⟨hprofile, rfl⟩, hreport, rfl⟩
    exact ⟨files, profile, _, hreuse, hfiles, hne, hprofile, Prod.ext hreport rfl, rfl⟩
  · rintro ⟨files, profile, out, hreuse, hfiles, hne, hprofile, hwrite, rfl⟩
    exact ⟨(), _, ⟨hreuse, rfl⟩, files, _, ⟨hfiles, rfl⟩, (), _, ⟨hne, rfl⟩, profile, _,
      ⟨hprofile, rfl⟩, congrArg Prod.fst hwrite, by rw [hwrite]⟩

/-- The profile of a rebuild is that of its manifest. -/
theorem writerProfile_eq_ok {m : Manifest} {profile : CpkWriterProfile}
    (h : m.writerProfile = .ok profile) :
    profile.indexMode.hasToc = m.hasToc ∧ profile.indexMode.hasItoc = m.hasItoc ∧
      profile.directItoc = m.directItoc ∧ profile.version = m.version ∧
      profile.revision = m.revision ∧ profile.updateDateTime = m.updateDateTime := by
  unfold Manifest.writerProfile at h
  cases htoc : m.hasToc <;> cases hitoc : m.hasItoc <;> rw [htoc, hitoc] at h
  · cases h
  · obtain rfl := Exec.ok.inj h
    exact ⟨rfl, rfl, rfl, rfl, rfl, rfl⟩
  · obtain rfl := Exec.ok.inj h
    exact ⟨rfl, rfl, rfl, rfl, rfl, rfl⟩
  · obtain rfl := Exec.ok.inj h
    exact ⟨rfl, rfl, rfl, rfl, rfl, rfl⟩

end Pack

/-! ## Identities -/

/-- The identity of an entry of a manifest. -/
def ManifestEntry.identity (e : ManifestEntry) : Identity :=
  ⟨e.directory, e.fileName, some e.id, e.userString⟩

/-- The identities of entries, where an entry without ID gets its index. -/
def numberedIdentities (index : ℕ) (files : List CpkFile) : List Identity :=
  (files.zipIdx index).map fun x =>
    { x.1.identity with id := some (x.1.id.getD (UInt32.ofNat x.2)) }

section Identities

/-- A manifest records the identities. -/
theorem identity_records (index : ℕ) {files : List CpkFile}
    {contents : List (List UInt8 × List UInt8)} (h : contents.length = files.length) :
    (records index files contents).map ManifestEntry.identity = numberedIdentities index files := by
  unfold records numberedIdentities
  induction files generalizing index contents with
  | nil => rw [List.zip_nil_left, List.zipIdx_nil, List.zipIdx_nil, List.map_nil, List.map_nil,
      List.map_nil]
  | cons file files ih =>
    cases contents with
    | nil => cases h
    | cons content contents =>
      rw [List.zip_cons_cons, List.zipIdx_cons, List.zipIdx_cons, List.map_cons, List.map_cons,
        List.map_cons, ih (index + 1) (Nat.succ.inj h)]
      rfl

/-- A rebuild retains them. -/
theorem identity_of_retains {sys : HostSystem} {root : PathBuf} {entries : List ManifestEntry}
    {files : List CpkInputFile} (h : List.Forall₂ (Retains sys root) entries files) :
    files.map CpkInputFile.identity = entries.map ManifestEntry.identity := by
  induction h with
  | nil => rfl
  | @cons entry input _ _ hretains _ ih =>
    have hidentity : input.identity = entry.identity := by
      rw [CpkInputFile.identity, ManifestEntry.identity, hretains.directory, hretains.fileName,
        hretains.id, hretains.userString]
    rw [List.map_cons, List.map_cons, ih, hidentity]

/-- Entries that have IDs keep them. -/
theorem numberedIdentities_of_ids {index : ℕ} {files : List CpkFile} {ids : List UInt32}
    (h : files.map CpkFile.identity = ids.map Identity.ofId) :
    numberedIdentities index files = ids.map Identity.ofId := by
  unfold numberedIdentities
  induction files generalizing index ids with
  | nil => rw [← h, List.map_nil, List.zipIdx_nil, List.map_nil]
  | cons file files ih =>
    obtain ⟨id, ids, rfl, hfile, hfiles⟩ := List.map_eq_cons_iff.mp h.symm
    have hid : file.id = some id := (congrArg Identity.id hfile).symm
    rw [List.zipIdx_cons, List.map_cons, List.map_cons, ih hfiles.symm, hid, ← hfile]
    rfl

/-- A numbered identity is that of an entry but for its ID. -/
theorem exists_of_mem_numbered {index : ℕ} {files : List CpkFile} {i : Identity}
    (h : i ∈ numberedIdentities index files) : ∃ e ∈ files, i.directory = e.directory ∧
      i.fileName = e.fileName ∧ i.userString = e.userString := by
  obtain ⟨x, hx, rfl⟩ := List.mem_map.mp h
  exact ⟨x.1, List.fst_mem_of_mem_zipIdx hx, rfl, rfl, rfl⟩

end Identities

/-! ## Nothing but the entries -/

section Unpacked

variable {sys : HostSystem} {root : PathBuf} {fs : FileSystem} {files : List CpkFile}
  {contents : List (List UInt8 × List UInt8)} {paths : List PathBuf} {m m' : Manifest}

/-- The entries are files of their own: their paths stay below the directory, and none is the path
that the manifest is written to first. -/
def Separate (sys : HostSystem) (root : PathBuf) (files : List CpkFile) : Prop :=
  ∀ e ∈ files, Contained sys.host root e.directory e.fileName ∧
    safeOutputPath sys.host root e.directory e.fileName ≠ .ok (temporaryPath sys.host root)

variable (fs m) in
/-- An entry is in the file at its path. -/
theorem unpackedFiles_of_entry (hpaths : List.Forall₂ (Destination sys root) files paths)
    {x : CpkFile × List UInt8 × List UInt8} (hx : x ∈ files.zip contents) {p : PathBuf}
    (hp : safeOutputPath sys.host root x.1.directory x.1.fileName = .ok p)
    (htemporary : p ≠ temporaryPath sys.host root) :
    unpackedFiles sys root fs paths contents m p ≠ none := by
  obtain ⟨hmem, hmanifest⟩ := mem_zip_of_safeOutputPath hpaths hx hp
  rw [unpackedFiles, Function.update_of_ne hmanifest, Function.update_of_ne htemporary]
  obtain ⟨w, -, -, hval⟩ | ⟨hnone, -⟩ :=
    writtenTo_cases fs paths contents p
  · rw [hval]
    exact Option.some_ne_none _
  · exact absurd rfl (hnone _ hmem)

/-- Any other file is the manifest, or was there before. -/
theorem of_unpackedFiles_ne_none (hpaths : List.Forall₂ (Destination sys root) files paths)
    {p : PathBuf} (h : unpackedFiles sys root fs paths contents m p ≠ none) :
    p = Manifest.path sys.host root ∨ fs p ≠ none ∨
      ∃ x ∈ files.zip contents, safeOutputPath sys.host root x.1.directory x.1.fileName = .ok p := by
  by_cases hmanifest : p = Manifest.path sys.host root
  · exact .inl hmanifest
  · rw [unpackedFiles, Function.update_of_ne hmanifest] at h
    by_cases htemporary : p = temporaryPath sys.host root
    · rw [htemporary, Function.update_self] at h
      exact absurd rfl h
    · rw [Function.update_of_ne htemporary] at h
      obtain ⟨w, hw, hwpath, -⟩ | ⟨-, hval⟩ :=
        writtenTo_cases fs paths contents p
      · obtain ⟨file, hfile, hdestination⟩ := (mem_zip_paths hpaths).mp hw
        exact .inr (.inr ⟨_, hfile, hwpath ▸ hdestination.1⟩)
      · exact .inr (.inl (hval ▸ h))

/-- The record of an entry. -/
theorem exists_of_mem_records {entry : ManifestEntry} (h : entry ∈ records 0 files contents) :
    ∃ x ∈ files.zip contents,
      entry.directory = x.1.directory ∧ entry.fileName = x.1.fileName := by
  obtain ⟨y, hy, rfl⟩ := List.mem_map.mp h
  exact ⟨y.1, List.fst_mem_of_mem_zipIdx hy, rfl, rfl⟩

/-- Every entry has a record. -/
theorem exists_record {x : CpkFile × List UInt8 × List UInt8} (h : x ∈ files.zip contents) :
    ∃ entry ∈ records 0 files contents,
      entry.directory = x.1.directory ∧ entry.fileName = x.1.fileName := by
  obtain ⟨i, hi⟩ := List.mem_iff_getElem?.mp h
  exact ⟨_, List.mem_map_of_mem (List.mk_mem_zipIdx_iff_getElem?.mpr hi), rfl, rfl⟩

/-- **A rebuild finds all entries.** -/
theorem presentEntries_unpackedFiles (hpaths : List.Forall₂ (Destination sys root) files paths)
    (hseparate : Separate sys root files) (hentries : m'.entries = records 0 files contents)
    (haccepted : ∀ entry ∈ m'.entries,
      entry.Accepted sys (unpackedFiles sys root fs paths contents m) root) :
    m'.presentEntries sys (unpackedFiles sys root fs paths contents m) root = m'.entries := by
  refine List.filter_eq_self.mpr fun entry hentry => ?_
  obtain ⟨relative, hrelative, -⟩ := haccepted entry hentry
  obtain ⟨x, hx, hdirectory, hfileName⟩ := exists_of_mem_records (hentries ▸ hentry)
  have hpath := (safePaths_agree sys.host root _ _).joined relative
    (safeRelativePath_of_relative? hrelative)
  rw [hdirectory, hfileName] at hpath
  have hpresent := unpackedFiles_of_entry fs m hpaths hx hpath fun htemporary =>
    (hseparate x.1 (List.of_mem_zip hx).1).2 (htemporary ▸ hpath)
  rw [ManifestEntry.isPresent, hrelative, Option.any_some]
  exact Option.isSome_iff_ne_none.mpr hpresent

/-- **A rebuild finds no other file**, when the directory was empty. -/
theorem newFiles_unpackedFiles (hempty : EmptyBelow sys.host root fs)
    (hpaths : List.Forall₂ (Destination sys root) files paths)
    (hseparate : Separate sys root files) (hentries : m'.entries = records 0 files contents)
    (haccepted : ∀ entry ∈ m'.entries,
      entry.Accepted sys (unpackedFiles sys root fs paths contents m) root)
    (d : RootDirectory sys.host root (unpackedFiles sys root fs paths contents m))
    (output : PathBuf) : m'.newFiles d output = [] := by
  refine List.eq_nil_iff_forall_not_mem.mpr fun names hnames => ?_
  have hne := ne_nil_of_mem_newFiles hnames
  have hord := ordinary_of_mem_newFiles hnames
  obtain ⟨hlisted, hexcluded, hknown⟩ := mem_newFiles.mp hnames
  obtain ⟨f, hf, rfl⟩ := List.mem_map.mp hlisted
  rcases of_unpackedFiles_ne_none hpaths (d.present f (d.files_eq ▸ hf)) with
    hmanifest | hbefore | ⟨x, hx, hpath⟩
  · -- the manifest is left out
    rw [hmanifest, isExcluded, resolvesTo, samePath_self, Bool.true_or, Bool.true_or] at hexcluded
    cases hexcluded
  · exact hbefore (hempty f.1 hne fun v hv => (hord v hv).toPlain)
  · -- the file of an entry has its names
    obtain ⟨entry, hentry, hdirectory, hfileName⟩ := exists_record hx
    rw [← hentries] at hentry
    obtain ⟨relative, hrelative, -⟩ := haccepted entry hentry
    obtain ⟨hnonempty, hrelativePath⟩ := relative?_eq_some hrelative
    rw [hdirectory, hfileName] at hnonempty hrelativePath
    obtain ⟨hordinary, hbelow⟩ := (hseparate x.1 (List.of_mem_zip hx).1).1 _ hpath
    have hsame := below_injective hord hordinary hne hnonempty hbelow
    have hrefused := hknown relative (List.mem_filterMap.mpr ⟨entry, hentry, hrelative⟩)
    rw [hrelativePath, foldl_push_nil hordinary hnonempty, ← hsame, relativePath, samePath_self]
      at hrefused
    cases hrefused

end Unpacked

/-! ## The structure -/

/-- **Two archives have the same structure:** the same entries in the same order, where one without
ID gets its index, the same indexes, of the same form, and the same header fields. -/
structure SameStructure (files : List CpkFile) (m : CpkMetadata) (files' : List CpkFile)
    (m' : CpkMetadata) : Prop where
  identities : files'.map CpkFile.identity = numberedIdentities 0 files
  toc : m'.tocOffset ≠ 0 ↔ m.tocOffset ≠ 0
  itoc : m'.itocOffset ≠ 0 ↔ m.itocOffset ≠ 0
  eid : m'.eid ≠ 0 ↔ m.itocOffset ≠ 0 ∧ m.eid ≠ 0
  align : m'.align = max m.align 1
  version : m'.version = m.version
  revision : m'.revision = m.revision
  updateDateTime : m'.updateDateTime = m.updateDateTime

section Rebuild

variable {sys : HostSystem} {fs fs' : FileSystem} {root : PathBuf} {m : Manifest}
  {d : RootDirectory sys.host root fs} {output : PathBuf} {o : PackOptions}

variable (d output o) in
/-- The tables of the archive that is packed are shorter than `2 ^ 32`. -/
def SmallTables : Prop :=
  ∀ m files profile plan, Manifest.read sys fs root = .ok (some m) →
    m.buildInputs sys d output o.reuseRawEntries = .ok files → m.writerProfile = .ok profile →
    planArchive files ⟨o.alignmentOverride.getD (max m.alignment 1), m.p5r || o.p5r⟩ profile =
      .ok plan → ∀ table ∈ plan.tables, table.length < 2 ^ 32

/-- Without new files, the inputs of a rebuild are its entries. -/
theorem identity_of_buildInputs {reuse : Bool} {inputs : List CpkInputFile}
    (h : m.buildInputs sys d output reuse = .ok inputs)
    (hpresent : m.presentEntries sys fs root = m.entries) (hnew : m.newFiles d output = []) :
    inputs.map CpkInputFile.identity = m.entries.map ManifestEntry.identity := by
  obtain ⟨retained, names, added, rfl, hplan⟩ := exists_rebuildPlan h
  have hnames : names = [] := by
    refine List.eq_nil_iff_forall_not_mem.mpr fun ns hns => ?_
    have hmem : ns ∈ m.newFiles d output := mem_newFiles.mpr ((hplan.mem_names ns).mp hns)
    rw [hnew] at hmem
    cases hmem
  subst hnames
  have hadded : added = [] := List.forall₂_nil_left_iff.mp hplan.adds
  rw [hadded, List.append_nil, identity_of_retains hplan.keeps, hpresent]

/-- **What the metadata of a rebuild say**: what its manifest said. -/
theorem metadata_of_written {fs : FileSystem} {path : P5RPath} {files : List CpkInputFile}
    {options : CpkWriterOptions} {profile : CpkWriterProfile} {report : CpkWriteReport}
    {bytes : List UInt8} (w : Written fs path files options profile report bytes)
    (h : m.writerProfile = .ok profile) :
    (w.metadata.tocOffset ≠ 0 ↔ m.hasToc = true) ∧
      (w.metadata.itocOffset ≠ 0 ↔ m.hasItoc = true) ∧
      (w.metadata.eid ≠ 0 ↔ m.hasItoc = true ∧ m.directItoc = true) ∧
      w.metadata.align = options.alignment ∧ w.metadata.version = m.version ∧
      w.metadata.revision = m.revision ∧ w.metadata.updateDateTime = m.updateDateTime := by
  obtain ⟨htoc, hitoc, hdirect, hversion, hrevision, hdate⟩ := writerProfile_eq_ok h
  obtain ⟨htocOffset, hitocOffset⟩ := w.metadata_indexes
  rw [htoc] at htocOffset
  rw [hitoc] at hitocOffset
  have heid : w.metadata.eid = if m.hasItoc && m.directItoc then 1 else 0 := by
    rw [← hitoc, ← hdirect]
    rfl
  refine ⟨htocOffset, hitocOffset, ?_, rfl, hversion, hrevision, hdate⟩
  rw [heid, ← Bool.and_eq_true]
  split
  next hboth => exact iff_of_true (by decide) hboth
  next hnot => exact iff_of_false (by decide) hnot

end Rebuild

/-- Raising an alignment of zero once is enough. -/
theorem max_one_max_one (align : UInt16) : max (max align 1) 1 = max align 1 := by
  change (if max align 1 ≤ 1 then 1 else max align 1) = max align 1
  split
  next h =>
    refine UInt16.le_antisymm ?_ h
    change 1 ≤ (if align ≤ 1 then 1 else align)
    split
    · exact UInt16.le_refl 1
    next hlt => exact UInt16.le_of_lt (UInt16.not_le.mp hlt)
  next => rfl

/-! ## A sample -/

section Sample

/-- An entry is rebuilt from its file. -/
theorem presentEntry_rebuilt {sys : HostSystem} {fs : FileSystem} {root relative : PathBuf}
    {entry : ManifestEntry} {contents : List UInt8} (m : Manifest)
    (hrelative : entry.relative? sys.host = some relative)
    (hfile : fs (join sys.host root relative) = some contents) (hsize : contents.length < 2 ^ 32) :
    m.presentEntry sys fs root false entry = .ok (relative, some
      ⟨entry.directory, entry.fileName, join sys.host root relative, UInt32.ofNat contents.length,
        UInt32.ofNat contents.length, entry.id, entry.userString, none⟩) := by
  have hlen : (UInt64.ofNat contents.length).toNat = contents.length :=
    UInt64.toNat_ofNat_of_lt' (by rw [UInt64.size]; omega)
  have htry : UInt32.tryFrom (UInt64.ofNat contents.length).toNat =
      some (UInt32.ofNat contents.length) := by
    rw [hlen]
    exact if_pos hsize
  rw [Manifest.presentEntry, safeRelativePath_of_relative? hrelative, Exec.ok_bind]
  dsimp only
  rw [hfile]
  dsimp only
  rw [hashFile_of_present hfile, Exec.ok_bind]
  dsimp only
  rw [htry]
  rfl

/-- The files after the archive of the two files was unpacked. -/
def sampleUnpacked (bytes : List UInt8) (m : Manifest) : FileSystem :=
  unpackedFiles sampleHost "out".asBytes (sampleStored bytes)
    ["out/d/b.bin".asBytes, "out/a".asBytes] sampleContents m

/-- Only paths that start like the directory have changed. -/
theorem sampleUnpacked_of_head (bytes : List UInt8) (m : Manifest) {p : PathBuf}
    (h : p.head? ≠ some 0x6f) : sampleUnpacked bytes m p = sampleStored bytes p := by
  have hne : ∀ {q : PathBuf}, q.head? = some 0x6f → p ≠ q := fun hq => by
    rintro rfl
    exact h hq
  unfold sampleUnpacked unpackedFiles writtenTo sampleContents
  rw [Function.update_of_ne (hne (by decide +kernel)),
    Function.update_of_ne (hne (by decide +kernel)), List.zip_cons_cons, List.zip_cons_cons,
    List.zip_nil_left, List.foldl_cons, List.foldl_cons, List.foldl_nil,
    Function.update_of_ne (hne (by decide +kernel)), Function.update_of_ne (hne (by decide +kernel))]

/-- The two files are there. -/
theorem sources_sampleUnpacked (bytes : List UInt8) (m : Manifest) :
    SampleSources (sampleUnpacked bytes m) := by
  unfold sampleUnpacked unpackedFiles writtenTo sampleContents
  rw [List.zip_cons_cons, List.zip_cons_cons, List.zip_nil_left, List.foldl_cons, List.foldl_cons,
    List.foldl_nil]
  constructor
  · rw [Function.update_of_ne (by decide +kernel), Function.update_of_ne (by decide +kernel),
      Function.update_of_ne (by decide +kernel), Function.update_self]
  · rw [Function.update_of_ne (by decide +kernel), Function.update_of_ne (by decide +kernel),
      Function.update_self]

/-- The directory that the two files are unpacked to. -/
def sampleOutputEntries : Entries (List UInt8) Unit :=
  .file manifestFileName () (.file [0x61] () (.dir [0x64] (.file "b.bin".asBytes () .nil) .nil))

/-- The three files that the sample is unpacked to. -/
theorem listing_sampleOutputEntries : sampleOutputEntries.listing =
    [([manifestFileName], ()), ([[0x61]], ()), ([[0x64], "b.bin".asBytes], ())] := rfl

/-- Its names are different. -/
theorem proper_sampleOutputEntries : sampleOutputEntries.Proper :=
  ⟨by decide +kernel, by decide, by decide, ⟨by decide, trivial⟩, trivial⟩

/-- Its names are ordinary. -/
theorem ordinary_sampleOutputEntries :
    ∀ f ∈ sampleOutputEntries.listing, ∀ v ∈ f.1, Ordinary .unix v := by
  have hplain : ∀ f ∈ sampleOutputEntries.listing, ∀ v ∈ f.1, v ≠ [] ∧ v ≠ [0x2e] ∧
      v ≠ [0x2e, 0x2e] ∧ ∀ c ∈ v, Host.isSep .unix c = false := by
    decide +kernel
  intro f hf v hv
  obtain ⟨hnil, hdot, hdots, hsep⟩ := hplain f hf v hv
  exact ordinary_unix ⟨hnil, hdot, hdots, hsep⟩

/-- Its files below a directory. -/
theorem below_sampleOutputEntries :
    below sampleHost.host "out".asBytes [manifestFileName] =
      Manifest.path sampleHost.host "out".asBytes ∧
    below sampleHost.host "out".asBytes [[0x61]] = "out/a".asBytes ∧
    below sampleHost.host "out".asBytes [[0x64], "b.bin".asBytes] = "out/d/b.bin".asBytes := by
  decide +kernel

/-- What a host reads of the directory. -/
def sampleOutput (bytes : List UInt8) (m : Manifest) :
    RootDirectory sampleHost.host "out".asBytes (sampleUnpacked bytes m) where
  entries := sampleOutputEntries
  proper := proper_sampleOutputEntries
  ordinary := ordinary_sampleOutputEntries
  present f hf := by
    obtain ⟨hmanifest, hsecond, hfirst⟩ := below_sampleOutputEntries
    obtain ⟨hcontent, hcontent'⟩ := sources_sampleUnpacked bytes m
    rw [listing_sampleOutputEntries, List.mem_cons, List.mem_pair] at hf
    rcases hf with rfl | rfl | rfl
    · rw [hmanifest, sampleUnpacked, unpackedFiles, Function.update_self]
      exact Option.some_ne_none _
    · rw [hsecond, hcontent']
      exact Option.some_ne_none _
    · rw [hfirst, hcontent]
      exact Option.some_ne_none _

/-- The archive of the two files was unpacked, and its manifest is read. -/
structure SampleUnpack (bytes : List UInt8) (b a : CpkFile) (cpk : CpkReader)
    (metadata : CpkMetadata) (m m₁ : Manifest) : Prop
    extends SampleArchive "a" bytes b a cpk metadata where
  unpacked : unpackWith sampleHost (fun _ => "") DummyDecryptor "/s".asBytes "out".asBytes false
    (fun _ => 0) (fun _ => 0) (sampleStored bytes) = (.ok (), sampleUnpacked bytes m)
  read : Manifest.read sampleHost (sampleUnpacked bytes m) "out".asBytes = .ok (some m₁)
  entries : m₁.entries = records 0 [b, a] sampleContents
  source : m₁.sourceArchive = "/s".asBytes
  options : m₁.alignment = 16 ∧ m₁.p5r = false ∧ m₁.hasToc = true ∧ m₁.hasItoc = true
  profile : m₁.writerProfile = .ok samplePairProfile
  newFiles : m₁.newFiles (sampleOutput bytes m) [0x6f] = []

section Unpacked

variable {bytes : List UInt8} {b a : CpkFile} {cpk : CpkReader} {metadata : CpkMetadata}

/-- The path of the file `a`. -/
theorem safeOutputPath_sample : safeOutputPath .unix "out".asBytes "" "a" = .ok "out/a".asBytes := by
  decide +kernel

/-- The two files stay below the directory. -/
theorem SampleArchive.separate (h : SampleArchive "a" bytes b a cpk metadata) :
    Separate sampleHost "out".asBytes [b, a] := by
  have hcontained : ∀ e : CpkFile, Contained sampleHost.host "out".asBytes e.directory e.fileName :=
    fun e => (contained_iff _ _ _ _).mpr fun hwin => (by cases hwin)
  obtain ⟨hfirst, hsecond⟩ := h.paths safeOutputPath_sample
  refine List.forall_mem_cons.mpr ⟨⟨hcontained b, ?_⟩,
    List.forall_mem_singleton.mpr ⟨hcontained a, ?_⟩⟩
  · rw [hfirst]
    decide +kernel
  · rw [hsecond]
    decide +kernel

/-- The paths that a manifest gives them. -/
theorem SampleArchive.relative (h : SampleArchive "a" bytes b a cpk metadata) :
    safeRelativePath sampleHost.host b.directory b.fileName = .ok "d/b.bin".asBytes ∧
      safeRelativePath sampleHost.host a.directory a.fileName = .ok "a".asBytes := by
  obtain ⟨⟨hdirectory, hfileName, -⟩, hdirectory', hfileName', -⟩ := h.strings
  rw [hdirectory, hfileName, hdirectory', hfileName']
  decide +kernel

/-- Their paths below the directory. -/
theorem join_sample : join sampleHost.host "out".asBytes "d/b.bin".asBytes = "out/d/b.bin".asBytes ∧
    join sampleHost.host "out".asBytes "a".asBytes = "out/a".asBytes := by
  decide +kernel

/-- **The sample is unpacked**, and its manifest is read.

**Proof sketch.** Unpacking the sample returns by `SampleArchive.unpack`, and the manifest is read
back by `read_unpackedFiles`. Its flags and fields are those of the metadata. Both records are
accepted, as their files hold what was extracted, so that `newFiles_unpackedFiles` finds no new
file. -/
theorem SampleArchive.exists_unpack (h : SampleArchive "a" bytes b a cpk metadata) :
    ∃ m m₁, SampleUnpack bytes b a cpk metadata m m₁ := by
  have hreserved : samePath .unix "out/a".asBytes (Manifest.path .unix "out".asBytes) = false := by
    decide +kernel
  have hpaths := h.destinations safeOutputPath_sample hreserved
  obtain ⟨m, hm⟩ : ∃ m, m = manifestOf (sampleHost.absolutePath "/s".asBytes)
    (UInt64.ofNat bytes.length, hashBytes bytes) metadata false (records 0 [b, a] sampleContents) :=
    ⟨_, rfl⟩
  obtain ⟨m₁, hm₁⟩ : ∃ m₁, m₁ = { m with
    sourceArchive := (sampleHost.lossy m.sourceArchive).asBytes } := ⟨_, rfl⟩
  have hread : Manifest.read sampleHost (sampleUnpacked bytes m) "out".asBytes = .ok (some m₁) := by
    rw [hm₁]
    exact read_unpackedFiles sampleHost "out".asBytes (sampleStored bytes) _ _
      (hm ▸ consistent_manifestOf h.files h.metadata_eq _ _ false _)
  have hentries : m₁.entries = records 0 [b, a] sampleContents := by
    rw [hm₁, hm]
    rfl
  have haccepted : ∀ entry ∈ m₁.entries,
      entry.Accepted sampleHost (sampleUnpacked bytes m) "out".asBytes := by
    obtain ⟨hfirst, hsecond⟩ := h.relative
    obtain ⟨hcontent, hcontent'⟩ := sources_sampleUnpacked bytes m
    rw [hentries]
    intro entry hentry
    rcases List.mem_pair.mp hentry with rfl | rfl
    · refine ⟨"d/b.bin".asBytes, congrArg Exec.value? hfirst, fun content hc => ?_⟩
      rw [join_sample.1, hcontent] at hc
      obtain rfl := Option.some.inj hc
      decide
    · refine ⟨"a".asBytes, congrArg Exec.value? hsecond, fun content hc => ?_⟩
      rw [join_sample.2, hcontent'] at hc
      obtain rfl := Option.some.inj hc
      decide
  obtain ⟨htoc, hitoc, heid⟩ := h.indexes
  obtain ⟨halign, hversion, hrevision, hdate⟩ := h.settings
  have hflags : m₁.hasToc = true ∧ m₁.hasItoc = true ∧ m₁.directItoc = true := by
    rw [hm₁, hm]
    exact ⟨bne_iff_ne.mpr htoc, bne_iff_ne.mpr hitoc,
      Bool.and_eq_true_iff.mpr ⟨bne_iff_ne.mpr hitoc, bne_iff_ne.mpr heid⟩⟩
  have hfields : m₁.version = 7 ∧ m₁.revision = 14 ∧ m₁.updateDateTime = 20 := by
    rw [hm₁, hm]
    exact ⟨hversion, hrevision, hdate⟩
  have halignment : m₁.alignment = 16 ∧ m₁.p5r = false := by
    rw [hm₁, hm]
    change max metadata.align 1 = 16 ∧ false = false
    rw [halign]
    decide
  have hsource : m₁.sourceArchive = "/s".asBytes := by
    have hlossy : (sampleHost.lossy (sampleHost.absolutePath "/s".asBytes)).asBytes =
        "/s".asBytes := by
      decide +kernel
    rw [hm₁]
    simp only [hm, manifestOf, hlossy]
  refine ⟨m, m₁, h, ?_, hread, hentries, hsource,
    ⟨halignment.1, halignment.2, hflags.1, hflags.2.1⟩, ?_,
    newFiles_unpackedFiles (emptyBelow_sampleStored bytes) hpaths h.separate hentries haccepted
      (sampleOutput bytes m) [0x6f]⟩
  · rw [hm]
    exact h.unpack safeOutputPath_sample hreserved
  · rw [Manifest.writerProfile, hflags.1, hflags.2.1, hflags.2.2, hfields.1, hfields.2.1,
      hfields.2.2]
    rfl

end Unpacked

/-- The archive of the two files was unpacked, and packed again. -/
structure SampleCycle (bytes rebuilt : List UInt8) (b a : CpkFile) (cpk : CpkReader)
    (metadata : CpkMetadata) (m m₁ : Manifest) (report : CpkWriteReport) : Prop
    extends SampleUnpack bytes b a cpk metadata m m₁ where
  inputs : m₁.buildInputs sampleHost (sampleOutput bytes m) [0x6f] false = .ok (samplePair "a")
  pack : runPack sampleHost .u64 [] (sampleOutput bytes m) [] [0x6f] ⟨none, false, false⟩
    (sampleUnpacked bytes m) =
      (.ok report, Function.update (sampleUnpacked bytes m) [0x6f] (some rebuilt))
  small : SmallTables (sampleOutput bytes m) [0x6f] ⟨none, false, false⟩

section Packed

variable {bytes : List UInt8} {b a : CpkFile} {cpk : CpkReader} {metadata : CpkMetadata}
  {m m₁ : Manifest}

/-- The rebuild plans the two files.

**Proof sketch.** Each record is rebuilt from its file (`presentEntry_rebuilt`), and no path is new.
The IDs are those of the records, so that the inputs are the pair that was packed. -/
theorem SampleUnpack.inputs (h : SampleUnpack bytes b a cpk metadata m m₁) :
    m₁.buildInputs sampleHost (sampleOutput bytes m) [0x6f] false = .ok (samplePair "a") := by
  obtain ⟨hrelative, hrelative'⟩ := h.relative
  obtain ⟨hcontent, hcontent'⟩ := sources_sampleUnpacked bytes m
  obtain ⟨hjoin, hjoin'⟩ := join_sample
  rw [← hjoin] at hcontent
  rw [← hjoin'] at hcontent'
  -- what the manifest says of the two files
  obtain ⟨e, he⟩ : ∃ e, e = manifestEntry b 0 [4, 5, 6, 7] [4, 5, 6, 7] := ⟨_, rfl⟩
  obtain ⟨e', he'⟩ : ∃ e', e' = manifestEntry a 1 [1, 2, 3] [1, 2, 3] := ⟨_, rfl⟩
  have hentries : m₁.entries = [e, e'] := by
    rw [h.entries, he, he']
    rfl
  have hidentity : e.directory = "d" ∧ e.fileName = "b.bin" ∧ e.id = 3 ∧ e.userString = "u" := by
    rw [he]
    exact ⟨congrArg Identity.directory h.first, congrArg Identity.fileName h.first,
      congrArg (fun i => i.id.getD 0) h.first, congrArg Identity.userString h.first⟩
  have hidentity' : e'.directory = "" ∧ e'.fileName = "a" ∧ e'.id = 7 ∧ e'.userString = "" := by
    rw [he']
    exact ⟨congrArg Identity.directory h.second, congrArg Identity.fileName h.second,
      congrArg (fun i => i.id.getD 1) h.second, congrArg Identity.userString h.second⟩
  have hpath : e.relative? sampleHost.host = some "d/b.bin".asBytes := by
    rw [he]
    exact congrArg Exec.value? hrelative
  have hpath' : e'.relative? sampleHost.host = some "a".asBytes := by
    rw [he']
    exact congrArg Exec.value? hrelative'
  have hround := presentEntry_rebuilt m₁ hpath hcontent (by decide)
  have hround' := presentEntry_rebuilt m₁ hpath' hcontent' (by decide)
  rw [hidentity.1, hidentity.2.1, hidentity.2.2.1, hidentity.2.2.2, hjoin] at hround
  rw [hidentity'.1, hidentity'.2.1, hidentity'.2.2.1, hidentity'.2.2.2, hjoin'] at hround'
  have hpaths : newPaths sampleHost [0x6f] ["d/b.bin".asBytes, "a".asBytes] (sampleOutput bytes m) =
      [] := by
    rw [← h.newFiles, Manifest.newFiles, Manifest.knownPaths, hentries,
      List.filterMap_cons_some hpath, List.filterMap_cons_some hpath']
    rfl
  rw [Manifest.buildInputs, Manifest.firstPass, hentries, List.mapM_cons, List.mapM_cons,
    List.mapM_nil, hround, hround', h.options.2.2.2]
  change (startIds true [3, 7] >>= fun ids => newInputs sampleHost (sampleUnpacked bytes m)
    "out".asBytes true ids (newPaths sampleHost [0x6f] ["d/b.bin".asBytes, "a".asBytes]
      (sampleOutput bytes m)) >>= fun inputs => pure (samplePair "a" ++ inputs)) = _
  rw [hpaths]
  rfl

/-- The rebuild is packed, with small tables. -/
theorem SampleUnpack.exists_pack (h : SampleUnpack bytes b a cpk metadata m m₁) :
    ∃ rebuilt report, SampleCycle bytes rebuilt b a cpk metadata m m₁ report := by
  have hoptions : (⟨(none : Option UInt16).getD (max m₁.alignment 1), m₁.p5r || false⟩ :
      CpkWriterOptions) = ⟨16, false⟩ := by
    rw [h.options.1, h.options.2.1]
    rfl
  have hsources : SampleSources (Function.update (sampleUnpacked bytes m) [0x6f] (some [])) := by
    obtain ⟨hfirst, hsecond⟩ := sources_sampleUnpacked bytes m
    constructor
    · rw [Function.update_of_ne (by decide +kernel), hfirst]
    · rw [Function.update_of_ne (by decide +kernel), hsecond]
  obtain ⟨report, out, hwrite⟩ := exists_writeWithProfile_samplePair hsources smallPair_a
  refine ⟨out.bytes, report, h, h.inputs, (runPack_eq_ok h.read).mpr ⟨_, _, out, ?_, h.inputs,
    List.cons_ne_nil _ _, h.profile, ?_, rfl⟩, ?_⟩
  · exact fun hreuse => absurd hreuse.1 Bool.false_ne_true
  · rw [hoptions]
    exact hwrite
  · intro m₂ files profile plan hread hbuild hprofile hplan
    obtain rfl := Option.some.inj (Exec.ok.inj (h.read.symm.trans hread))
    obtain rfl := Exec.ok.inj (h.inputs.symm.trans hbuild)
    obtain rfl := Exec.ok.inj (h.profile.symm.trans hprofile)
    rw [hoptions] at hplan
    obtain ⟨plan', hplan', hsmall, -⟩ := smallPair_a
    obtain rfl := Exec.ok.inj (hplan'.symm.trans hplan)
    exact hsmall

/-- **The sample is rebuilt:** it is unpacked, and its two files are packed again. -/
theorem exists_sampleCycle : ∃ bytes rebuilt b a cpk metadata m m₁ report,
    SampleCycle bytes rebuilt b a cpk metadata m m₁ report := by
  obtain ⟨bytes, b, a, cpk, metadata, harchive⟩ :=
    exists_sampleArchive "a" (by decide) (by decide) smallPair_a
  obtain ⟨m, m₁, hunpack⟩ := harchive.exists_unpack
  obtain ⟨rebuilt, report, hcycle⟩ := hunpack.exists_pack
  exact ⟨bytes, rebuilt, b, a, cpk, metadata, m, m₁, report, hcycle⟩

end Packed

end Sample

section Main

variable {sys : HostSystem} {shiftJis : List UInt8 → String} {E : FileDecryptor}
  {input directory : PathBuf} {p5r : Bool} {slab heap : ℕ → UInt8} {fs fs₁ fs₂ : FileSystem}

/-- **Unpacking and packing keep the structure of an archive.** Paths of entries need not differ,
and the output may be anywhere: the structure depends on neither.

**Proof sketch.** The manifest that the first run wrote is read back and records the entries. In an
empty directory their files are all that there is, so that the inputs of the second run have the
identities of the records, in order. Without a TOC these are IDs in ascending order.
`Written.getFiles_identity` reads them back from the new archive, and the metadata are those of the
manifest. -/
theorem unpack_pack_structure (hsjis : ∀ bs, 0 ∉ bs → (shiftJis bs).NulFree)
    (hempty : EmptyBelow sys.host directory fs)
    (hunpack : unpackWith sys shiftJis E input directory p5r slab heap fs = (.ok (), fs₁))
    {bytes : List UInt8} (hbytes : fs input = some bytes) {files : List CpkFile} {cpk : CpkReader}
    (hfiles : getFiles shiftJis (CpkReader.new bytes 0 slab heap) = (.ok files, cpk))
    {metadata : CpkMetadata} (hmetadata : cpk.metadata = some metadata)
    (hnames : ∀ e ∈ files, e.fileName ≠ "") (hseparate : Separate sys directory files)
    (d : RootDirectory sys.host directory fs₁) (path : P5RPath) (seen : List UInt8)
    (found : List (Exec Error FoundFile)) (output : PathBuf) (o : PackOptions)
    (hoverride : o.alignmentOverride = none) {report : CpkWriteReport}
    (hpack : runPack sys path seen d found output o fs₁ = (.ok report, fs₂))
    (h32 : SmallTables d output o) (slab' heap' : ℕ → UInt8) :
    ∃ rebuilt entries cpk' metadata', fs₂ output = some rebuilt ∧
      getFiles shiftJis (CpkReader.new rebuilt 0 slab' heap') = (.ok entries, cpk') ∧
      cpk'.metadata = some metadata' ∧ SameStructure files metadata entries metadata' := by
  obtain ⟨bytes', files', cpk', metadata', contents, paths, hbytes', hfiles', hmetadata', hcontents,
    hpaths, -, rfl⟩ := unpackWith_eq_ok.mp hunpack
  obtain rfl := Option.some.inj (hbytes.symm.trans hbytes')
  obtain ⟨hentries, rfl⟩ := Prod.mk.inj (hfiles.symm.trans hfiles')
  obtain rfl := Exec.ok.inj hentries
  obtain rfl := Option.some.inj (hmetadata.symm.trans hmetadata')
  -- the manifest is read back, and records the entries
  have hread := read_unpackedFiles sys directory fs paths contents
    (consistent_manifestOf hfiles hmetadata (sys.absolutePath input)
      (UInt64.ofNat bytes.length, hashBytes bytes) p5r (records 0 files contents))
  have hrecords := identity_records 0 (length_extractAll hcontents)
  -- the inputs of the rebuild are the entries
  obtain ⟨inputs, profile, out, -, hinputs, -, hprofile, hwrite, rfl⟩ :=
    (runPack_eq_ok hread).mp hpack
  have haccepted := (of_buildInputs_eq_ok hinputs).1.entries
  have hidentity := identity_of_buildInputs hinputs
    (presentEntries_unpackedFiles hpaths hseparate rfl haccepted)
    (newFiles_unpackedFiles hempty hpaths hseparate rfl haccepted d output)
  replace hidentity := hidentity.trans hrecords
  have hstrings : ∀ f ∈ inputs, f.fileName ≠ "" ∧
      f.directory.NulFree ∧ f.fileName.NulFree ∧ f.userString.NulFree := by
    intro f hf
    obtain ⟨e, he, hdirectory, hfileName, huserString⟩ :=
      exists_of_mem_numbered (hidentity ▸ List.mem_map_of_mem hf)
    rw [show f.directory = e.directory from hdirectory, show f.fileName = e.fileName from hfileName,
      show f.userString = e.userString from huserString]
    exact ⟨hnames e he, nulFree_of_getFiles hsjis hfiles he⟩
  -- without a table of contents, IDs are all there was
  have hstored : profile.indexMode.hasToc = false → ∃ ids : List UInt32, ids.Pairwise (· < ·) ∧
      inputs.map CpkInputFile.identity = ids.map Identity.ofId := by
    intro hnoToc
    rw [(writerProfile_eq_ok hprofile).1] at hnoToc
    obtain ⟨ids, hsorted, hids⟩ :=
      exists_ids_of_getFiles hfiles hmetadata (bne_eq_false_iff_eq.mp hnoToc)
    exact ⟨ids, hsorted, hidentity.trans (numberedIdentities_of_ids hids)⟩
  obtain ⟨w⟩ := written_of_ok hwrite
  obtain ⟨entries, cpk', hentries, hm, hsame⟩ := w.getFiles_identity shiftJis
    (fun f hf => (hstrings f hf).2) (fun f hf => (hstrings f hf).1) hstored
    (fun table h => h32 _ _ _ _ hread hinputs hprofile w.plan_eq table (by simp [CpkPlan.tables, h]))
    (r := CpkReader.new out.bytes 0 slab' heap') rfl rfl
  obtain ⟨htoc, hitoc, heid, halign, hversion, hrevision, hdate⟩ := metadata_of_written w hprofile
  refine ⟨out.bytes, entries, cpk', w.metadata, Function.update_self _ _ _, hentries, hm,
    hsame.trans hidentity, htoc.trans bne_iff_ne, hitoc.trans bne_iff_ne, ?_, ?_, hversion,
    hrevision, hdate⟩
  · rw [heid]
    change (metadata.itocOffset != 0) = true ∧
      (metadata.itocOffset != 0 && metadata.eid != 0) = true ↔ _
    rw [Bool.and_eq_true, bne_iff_ne, bne_iff_ne]
    exact ⟨fun h => h.2, fun h => ⟨h.1, h⟩⟩
  · rw [halign, hoverride, Option.getD_none]
    exact max_one_max_one metadata.align

/-- The archive of two files is unpacked and packed. -/
theorem unpack_pack_structure_sample : ∃ (bytes : List UInt8) (fs₁ fs₂ : FileSystem)
    (d : RootDirectory sampleHost.host "out".asBytes fs₁) (report : CpkWriteReport)
    (rebuilt : List UInt8) (files entries : List CpkFile) (m m' : CpkMetadata),
    unpackWith sampleHost (fun _ => "") DummyDecryptor "/s".asBytes "out".asBytes false (fun _ => 0)
      (fun _ => 0) (sampleStored bytes) = (.ok (), fs₁) ∧
    runPack sampleHost .u64 [] d [] [0x6f] ⟨none, false, false⟩ fs₁ = (.ok report, fs₂) ∧
    fs₂ [0x6f] = some rebuilt ∧
    files.map CpkFile.identity = [⟨"d", "b.bin", some 3, "u"⟩, ⟨"", "a", some 7, ""⟩] ∧
    m.tocOffset ≠ 0 ∧ m.itocOffset ≠ 0 ∧ m.eid ≠ 0 ∧ SameStructure files m entries m' := by
  obtain ⟨bytes, rebuilt, b, a, cpk, metadata, m, m₁, report, h⟩ := exists_sampleCycle
  have hnames : ∀ e ∈ [b, a], e.fileName ≠ "" := by
    rw [List.forall_mem_cons, List.forall_mem_singleton, h.strings.1.2.1, h.strings.2.2.1]
    decide
  obtain ⟨rebuilt', entries, cpk', metadata', hrebuilt, -, -, hsame⟩ :=
    unpack_pack_structure (fun _ _ => by decide) (emptyBelow_sampleStored bytes) h.unpacked
      (Function.update_self _ _ _) h.files h.metadata_eq hnames h.separate (sampleOutput bytes m)
      .u64 [] [] [0x6f] ⟨none, false, false⟩ rfl h.pack h.small (fun _ => 0) fun _ => 0
  exact ⟨bytes, _, _, _, report, rebuilt', [b, a], entries, metadata, metadata', h.unpacked, h.pack,
    hrebuilt, by rw [List.map_cons, List.map_singleton, h.first, h.second], h.indexes.1,
    h.indexes.2.1, h.indexes.2.2, hsame⟩

end Main

end CriArchive
