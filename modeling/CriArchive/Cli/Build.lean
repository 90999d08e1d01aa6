import CriArchive.Cli.Manifest
import CriArchive.Cli.Walk
import CriArchive.Lib.Supply

set_option relaxedAutoImplicit false
set_option autoImplicit false

/-!
# Planning a rebuild

`build_inputs` of the manifest: which files of a directory are packed again, in which order, and
under which IDs. A first pass goes over the entries of the manifest, and a second one over the
files of the directory that are no entries.

## Main definitions

* `RootDirectory` — the input directory, with the files that are below it.
* `Manifest.presentEntry`, `collectRelativeFiles` — a round of the first pass, and the walk.
* `IdState.takeId` — the two ways in which new files get IDs.
* `Manifest.buildInputs` — the function.

## Main results

* `takeId_supplies` — both ways hand out a queue of IDs.
* `Manifest.buildInputs_eq` — the second pass, on that queue.
-/

namespace CriArchive

open StdPath Supply

/-! ## The function -/

/-- The input directory of the host, whose files are there. -/
structure RootDirectory (host : Host) (root : PathBuf) (fs : FileSystem) extends
    Directory host Unit where
  present : ∀ f ∈ entries.listing, fs (below host root f.1) ≠ none

/-- `Manifest::writer_profile`. A manifest without index tables is `unreachable!`. -/
def Manifest.writerProfile (m : Manifest) : Exec CliError CpkWriterProfile := do
  let indexMode ← match m.hasToc, m.hasItoc with
    | true, true => .ok CpkIndexMode.tocAndItoc
    | true, false => .ok CpkIndexMode.toc
    | false, true => .ok CpkIndexMode.itoc
    | false, false => .fault
  pure { CpkWriterProfile.default with
    indexMode, directItoc := m.directItoc, version := m.version, revision := m.revision
    updateDateTime := m.updateDateTime }

section Passes

variable (sys : HostSystem) (fs : FileSystem) (root outputArchive : PathBuf)

/-- `Manifest::source_is_original` -/
def Manifest.sourceIsOriginal (m : Manifest) : Exec CliError Bool :=
  match fs m.sourceArchive with
  | none => pure false
  | some _ => do
    let archive ← hashFile fs m.sourceArchive
    pure (archive.1 == m.archiveSize && archive.2 == m.archiveHash)

/-- One round of the first pass: the relative path of an entry, and its input if it is present. -/
def Manifest.presentEntry (m : Manifest) (reuseRawEntries : Bool) (entry : ManifestEntry) :
    Exec CliError (PathBuf × Option CpkInputFile) := do
  let relative ← safeRelativePath sys.host entry.directory entry.fileName
  let sourcePath := join sys.host root relative
  match fs sourcePath with
  | none => pure (relative, none)
  | some _ => do
    let current ← hashFile fs sourcePath
    let currentSize ← Exec.okOr (UInt32.tryFrom current.1.toNat) (.fileTooLarge sourcePath)
    let unchanged := current.1 == entry.extractedSize && current.2 == entry.extractedHash
    let rawPayload : Option CpkRawPayload := if reuseRawEntries && unchanged then
      some ⟨m.sourceArchive, entry.packedOffset, entry.packedSize⟩ else none
    let extractSize ← if rawPayload.isSome then
      Exec.okOr (UInt32.tryFrom entry.extractedSize.toNat)
        (.message "manifest extracted size exceeds CPK u32 range")
      else pure currentSize
    pure (relative, some
      { directory := entry.directory, fileName := entry.fileName, sourcePath
        size := rawPayload.elim currentSize CpkRawPayload.size, extractSize, id := entry.id
        userString := entry.userString, rawPayload })

/-- The first pass: the relative path of each entry, and the inputs of those that are present. -/
def Manifest.firstPass (m : Manifest) (reuseRawEntries : Bool) :
    Exec CliError (List (PathBuf × Option CpkInputFile)) := do
  let original ← (if reuseRawEntries then m.sourceIsOriginal fs else pure true)
  Exec.errIf (original = false)
    (.message "--reuse-raw-entries requires the original source CPK to exist unchanged")
  m.entries.mapM (m.presentEntry sys fs root reuseRawEntries)

/-- Whether two paths are one path of the host, once they are absolute. -/
def resolvesTo (left right : PathBuf) : Bool :=
  samePath sys.host (sys.absolutePath left) (sys.absolutePath right)

/-- A path that the walk leaves out: a manifest, or the output. -/
def isExcluded (path : PathBuf) : Bool :=
  resolvesTo sys path (Manifest.path sys.host root) ||
    resolvesTo sys path (join sys.host root legacyManifestFileName) ||
    resolvesTo sys path outputArchive

/-- The path of a file, relative to the directory that its names start from. -/
def relativePath (names : List (List UInt8)) : PathBuf := joined sys.host.mainSep names

variable {fs root} in
/-- `collect_relative_files`, with the names of each file. -/
def collectRelativeFiles (d : RootDirectory sys.host root fs) : List (List (List UInt8)) :=
  (d.files.map Prod.fst).filter fun names =>
    !isExcluded sys root outputArchive (below sys.host root names)

variable {fs root} in
/-- The files that are no entries, in the order of their paths. -/
def newPaths (knownPaths : List PathBuf) (d : RootDirectory sys.host root fs) :
    List (List (List UInt8)) :=
  ((collectRelativeFiles sys outputArchive d).filter fun names =>
    !knownPaths.any fun known => samePath sys.host known (relativePath sys names)).mergeSort
      fun a b => decide (a ≤ b)

/-- `path_to_cri_string` of the manifest, on a relative path given by its names. -/
def relativeCriString (names : List (List UInt8)) : Exec CliError String := do
  let parts ← names.mapM fun v =>
    Exec.okOr (Utf8.decode v) (.nonUtf8Path (relativePath sys names))
  pure ("/".intercalate parts)

/-- The input of a file that is no entry. -/
def newInput (id : UInt32) (names : List (List UInt8)) : Exec CliError CpkInputFile := do
  let sourcePath := join sys.host root (relativePath sys names)
  let contents ← openFile fs sourcePath
  let size ← Exec.okOr (UInt32.tryFrom (UInt64.ofNat contents.length).toNat)
    (.fileTooLarge sourcePath)
  let fileName ← Exec.okOr (Utf8.decode (names.getLastD []))
    (.nonUtf8Path (relativePath sys names))
  let directory ← relativeCriString sys names.dropLast
  pure { directory, fileName, sourcePath, size, extractSize := size, id, userString := ""
         rawPayload := none }

end Passes

/-! ## IDs -/

/-- `u32::MAX` -/
def maxId : UInt32 := 0xffffffff

/-- What the IDs of new files are taken from. -/
structure IdState where
  freeIds : List UInt32
  nextTocId : UInt32
  usedIds : List UInt32
  deriving DecidableEq, Repr

/-- `(0..=u16::MAX)` without the IDs that are used. -/
def freeIds (usedIds : List UInt32) : List UInt32 :=
  ((List.range (2 ^ 16)).map UInt32.ofNat).filter fun id => !usedIds.contains id

/-- The largest ID that is used, or zero. -/
def largestId (usedIds : List UInt32) : UInt32 := usedIds.foldl (fun a b => if a < b then b else a) 0

/-- Where the IDs of new files start. -/
def startIds (hasItoc : Bool) (usedIds : List UInt32) : Exec CliError IdState := do
  let free := if hasItoc then freeIds usedIds else []
  let nextTocId ← (if !usedIds.isEmpty && !hasItoc then
      if largestId usedIds = maxId then invalidData "no free CPK IDs"
      else pure (largestId usedIds + 1)
    else pure (largestId usedIds))
  pure ⟨free, nextTocId, usedIds⟩

/-- An ID that is not the last one has a successor. -/
theorem toNat_add_one {id : UInt32} (h : id ≠ maxId) : (id + 1).toNat = id.toNat + 1 := by
  have hlt := id.toNat_lt
  have hne : id.toNat ≠ 2 ^ 32 - 1 := fun heq => h (UInt32.toNat_inj.mp heq)
  rw [UInt32.toNat_add, UInt32.toNat_one, Nat.mod_eq_of_lt (by omega)]

/-- The inner loop: the first ID from `next` on that is not used. -/
def skipUsed (usedIds : List UInt32) (next : UInt32) : Exec CliError UInt32 :=
  if usedIds.contains next then
    if next = maxId then invalidData "no free CPK IDs" else skipUsed usedIds (next + 1)
  else pure next
termination_by 2 ^ 32 - next.toNat
decreasing_by
  have hlt := next.toNat_lt
  rw [toNat_add_one (by assumption)]
  omega

/-- The ID of the next new file. -/
def IdState.takeId (hasItoc : Bool) (s : IdState) : Exec CliError (UInt32 × IdState) :=
  if hasItoc then
    match s.freeIds with
    | [] => invalidData "ITOC has no free 16-bit IDs"
    | id :: free => pure (id, { s with freeIds := free })
  else do
    let next ← skipUsed s.usedIds s.nextTocId
    pure (next, { s with nextTocId := if next = maxId then next else next + 1 })

/-- The loop over the new files. -/
def newInputs (sys : HostSystem) (fs : FileSystem) (root : PathBuf) (hasItoc : Bool) :
    IdState → List (List (List UInt8)) → Exec CliError (List CpkInputFile)
  | _, [] => pure []
  | s, names :: paths => do
    let taken ← s.takeId hasItoc
    let input ← newInput sys fs root taken.1 names
    let inputs ← newInputs sys fs root hasItoc
      { taken.2 with usedIds := taken.1 :: taken.2.usedIds } paths
    pure (input :: inputs)

/-- `Manifest::build_inputs` -/
def Manifest.buildInputs (sys : HostSystem) {fs : FileSystem} {root : PathBuf} (m : Manifest)
    (d : RootDirectory sys.host root fs) (outputArchive : PathBuf) (reuseRawEntries : Bool) :
    Exec CliError (List CpkInputFile) := do
  let entries ← m.firstPass sys fs root reuseRawEntries
  let files := entries.filterMap Prod.snd
  let paths := newPaths sys outputArchive (entries.map Prod.fst) d
  let ids ← startIds m.hasItoc (files.map CpkInputFile.id)
  let inputs ← newInputs sys fs root m.hasItoc ids paths
  pure (files ++ inputs)

/-! ## The first pass -/

section Entries

variable {sys : HostSystem} {fs : FileSystem} {root : PathBuf} {m : Manifest}

/-- The path that a manifest gives an entry, if it accepts it. -/
def ManifestEntry.relative? (host : Host) (entry : ManifestEntry) : Option PathBuf :=
  (safeRelativePath host entry.directory entry.fileName).value?

/-- The file of an entry is there. -/
def ManifestEntry.isPresent (sys : HostSystem) (fs : FileSystem) (root : PathBuf)
    (entry : ManifestEntry) : Bool :=
  (entry.relative? sys.host).any fun relative => (fs (join sys.host root relative)).isSome

/-- An entry that the first pass accepts: its path stays inside, and its file is not too large. -/
def ManifestEntry.Accepted (sys : HostSystem) (fs : FileSystem) (root : PathBuf)
    (entry : ManifestEntry) : Prop :=
  ∃ relative, entry.relative? sys.host = some relative ∧
    ∀ contents, fs (join sys.host root relative) = some contents →
      (UInt64.ofNat contents.length).toNat < 2 ^ 32

/-- An input that keeps what the manifest says of an entry. -/
structure Retains (sys : HostSystem) (root : PathBuf) (entry : ManifestEntry)
    (input : CpkInputFile) : Prop where
  directory : input.directory = entry.directory
  fileName : input.fileName = entry.fileName
  id : input.id = entry.id
  userString : input.userString = entry.userString
  sourcePath : ∃ relative, entry.relative? sys.host = some relative ∧
    input.sourcePath = join sys.host root relative

/-- What a round of the first pass gives for an entry. -/
def RoundGives (sys : HostSystem) (fs : FileSystem) (root : PathBuf) (entry : ManifestEntry)
    (r : PathBuf × Option CpkInputFile) : Prop :=
  entry.relative? sys.host = some r.1 ∧
    (r.2 = none ∧ entry.isPresent sys fs root = false ∨
      ∃ input, r.2 = some input ∧ entry.isPresent sys fs root = true ∧ Retains sys root entry input)

/-- The path of an entry that is accepted. -/
theorem safeRelativePath_of_relative? {host : Host} {entry : ManifestEntry} {relative : PathBuf}
    (h : entry.relative? host = some relative) :
    safeRelativePath host entry.directory entry.fileName = .ok relative :=
  Exec.value?_eq_some.mp h

/-- An entry without a path was refused, with an error of its own. -/
theorem safeRelativePath_of_none {host : Host} {entry : ManifestEntry}
    (h : entry.relative? host = none) :
    ∃ e, safeRelativePath host entry.directory entry.fileName = .err e ∧ ∀ text, e ≠ .message text := by
  unfold ManifestEntry.relative? at h
  rw [safeRelativePath_eq] at h ⊢
  split
  next hkept =>
    split
    next hnil => exact ⟨_, rfl, fun text htext => by cases htext⟩
    next hnames =>
      rw [if_pos hkept, if_neg hnames] at h
      cases h
  next hrefused => exact ⟨_, rfl, fun text htext => by cases htext⟩

/-- The hash of a file that is there. -/
theorem hashFile_of_present {path : PathBuf} {contents : List UInt8}
    (h : fs path = some contents) :
    hashFile fs path = .ok (UInt64.ofNat contents.length, hashBytes contents) := by
  rw [hashFile, openFile, h]
  rfl

/-- **A round of the first pass** returns what it should for an entry that is accepted.

**Proof sketch.** A file that is not there gives nothing. A file that is there has a size below
`2^32`, so that both conversions succeed: of its own size, and of the recorded one when the entry is
reused, since the sizes agree then. -/
theorem presentEntry_of_accepted {entry : ManifestEntry} (h : entry.Accepted sys fs root)
    (reuse : Bool) :
    ∃ r, m.presentEntry sys fs root reuse entry = .ok r ∧ RoundGives sys fs root entry r := by
  obtain ⟨relative, hrelative, hsize⟩ := h
  have hpresent : entry.isPresent sys fs root = (fs (join sys.host root relative)).isSome := by
    rw [ManifestEntry.isPresent, hrelative, Option.any_some]
  rw [Manifest.presentEntry, safeRelativePath_of_relative? hrelative, Exec.ok_bind]
  dsimp only
  rcases hfile : fs (join sys.host root relative) with _ | contents
  · rw [hfile] at hpresent
    exact ⟨_, rfl, hrelative, .inl ⟨rfl, hpresent⟩⟩
  · rw [hfile] at hpresent
    have hlt := hsize contents hfile
    have htry : UInt32.tryFrom (UInt64.ofNat contents.length).toNat =
        some (UInt32.ofNat (UInt64.ofNat contents.length).toNat) := if_pos hlt
    dsimp only
    rw [hashFile_of_present hfile, Exec.ok_bind]
    dsimp only
    rw [htry, Exec.okOr_some, Exec.ok_bind]
    -- an entry that is reused has the size of its file
    have hextract : (UInt64.ofNat contents.length == entry.extractedSize) = true →
        UInt32.tryFrom entry.extractedSize.toNat =
          some (UInt32.ofNat (UInt64.ofNat contents.length).toNat) := fun hsame => by
      rw [← eq_of_beq hsame, htry]
    split
    next hreuse =>
      rw [Bool.and_eq_true, Bool.and_eq_true] at hreuse
      rw [Option.isSome_some, if_pos rfl, hextract hreuse.2.1, Exec.okOr_some, Exec.ok_bind]
      exact ⟨_, rfl, hrelative, .inr ⟨_, rfl, hpresent, rfl, rfl, rfl, rfl, relative, hrelative, rfl⟩⟩
    next =>
      rw [Option.isSome_none, if_neg (by decide), Exec.pure_eq, Exec.ok_bind]
      exact ⟨_, rfl, hrelative, .inr ⟨_, rfl, hpresent, rfl, rfl, rfl, rfl, relative, hrelative, rfl⟩⟩

/-- It returns an error for an entry that is not accepted, and no error of another part. -/
theorem presentEntry_of_not_accepted {entry : ManifestEntry} (h : ¬entry.Accepted sys fs root)
    (reuse : Bool) :
    ∃ e, m.presentEntry sys fs root reuse entry = .err e ∧ ∀ text, e ≠ .message text := by
  rcases hrelative : entry.relative? sys.host with _ | relative
  · obtain ⟨e, he, hne⟩ := safeRelativePath_of_none hrelative
    exact ⟨e, by rw [Manifest.presentEntry, he, Exec.err_bind], hne⟩
  · rw [Manifest.presentEntry, safeRelativePath_of_relative? hrelative, Exec.ok_bind]
    dsimp only
    rcases hfile : fs (join sys.host root relative) with _ | contents
    · refine absurd ⟨relative, hrelative, fun contents hcontents => ?_⟩ h
      rw [hfile] at hcontents
      cases hcontents
    · have hlarge : ¬(UInt64.ofNat contents.length).toNat < 2 ^ 32 := by
        intro hlt
        refine h ⟨relative, hrelative, fun contents' hcontents => ?_⟩
        rw [hfile, Option.some_inj] at hcontents
        exact hcontents ▸ hlt
      have htry : UInt32.tryFrom (UInt64.ofNat contents.length).toNat = none := if_neg hlarge
      dsimp only
      rw [hashFile_of_present hfile, Exec.ok_bind]
      dsimp only
      rw [htry, Exec.okOr_none, Exec.err_bind]
      exact ⟨_, rfl, fun text htext => by cases htext⟩

/-! ### All entries -/

/-- The relative paths of the entries. -/
def Manifest.knownPaths (host : Host) (m : Manifest) : List PathBuf :=
  m.entries.filterMap fun entry => entry.relative? host

/-- The entries whose files are there. -/
def Manifest.presentEntries (sys : HostSystem) (fs : FileSystem) (root : PathBuf) (m : Manifest) :
    List ManifestEntry :=
  m.entries.filter fun entry => entry.isPresent sys fs root

/-- The IDs of the entries whose files are there. -/
def Manifest.retainedIds (sys : HostSystem) (fs : FileSystem) (root : PathBuf) (m : Manifest) :
    List UInt32 :=
  (m.presentEntries sys fs root).map ManifestEntry.id

/-- The first pass accepts the manifest. -/
structure Manifest.Accepted (sys : HostSystem) (fs : FileSystem) (root : PathBuf) (m : Manifest)
    (reuse : Bool) : Prop where
  original : reuse = true → m.sourceIsOriginal fs = .ok true
  entries : ∀ entry ∈ m.entries, entry.Accepted sys fs root

/-- What the rounds of the first pass give together. -/
theorem of_roundGives {entries : List ManifestEntry} {rs : List (PathBuf × Option CpkInputFile)}
    (h : List.Forall₂ (RoundGives sys fs root) entries rs) :
    rs.map Prod.fst = entries.filterMap (fun entry => entry.relative? sys.host) ∧
      List.Forall₂ (Retains sys root) (entries.filter fun entry => entry.isPresent sys fs root)
        (rs.filterMap Prod.snd) := by
  induction h with
  | nil => exact ⟨rfl, .nil⟩
  | @cons entry r entries rs hround _ ih =>
    obtain ⟨hpath, hinput⟩ := hround
    refine ⟨by rw [List.map_cons, ih.1, List.filterMap_cons_some hpath], ?_⟩
    rcases hinput with ⟨hnone, habsent⟩ | ⟨input, hsome, hpresent, hretains⟩
    · rw [List.filter_cons_of_neg (by simp [habsent]), List.filterMap_cons_none hnone]
      exact ih.2
    · rw [List.filter_cons_of_pos hpresent, List.filterMap_cons_some hsome]
      exact .cons hretains ih.2

/-- An error of the first pass. -/
def PassError (e : CliError) : Prop :=
  ∀ text, e = .message text →
    text = "--reuse-raw-entries requires the original source CPK to exist unchanged"

/-- Comparing the original archive always gives an answer. -/
theorem sourceIsOriginal_eq : ∃ original, m.sourceIsOriginal fs = .ok original := by
  unfold Manifest.sourceIsOriginal
  rcases hfile : fs m.sourceArchive with _ | contents
  · exact ⟨false, rfl⟩
  · exact ⟨_, by rw [hashFile_of_present hfile, Exec.ok_bind]; rfl⟩

/-- How the rounds end together. -/
theorem mapM_presentEntry_ends (m : Manifest) (reuse : Bool) :
    (m.entries.mapM (m.presentEntry sys fs root reuse)).Ends
      (List.Forall₂ (fun entry r => entry.Accepted sys fs root ∧ RoundGives sys fs root entry r)
        m.entries)
      fun e => PassError e ∧ ¬∀ entry ∈ m.entries, entry.Accepted sys fs root := by
  refine Exec.ends_mapM fun entry hentry => ?_
  by_cases h : entry.Accepted sys fs root
  · obtain ⟨r, hr, hgives⟩ := presentEntry_of_accepted (m := m) h reuse
    rw [hr]
    exact ⟨h, hgives⟩
  · obtain ⟨e, he, hne⟩ := presentEntry_of_not_accepted (m := m) h reuse
    rw [he]
    exact ⟨fun text htext => absurd htext (hne text), fun hall => h (hall entry hentry)⟩

/-- **The first pass over an accepted manifest** gives each entry its round. -/
theorem firstPass_of_accepted {reuse : Bool} (h : m.Accepted sys fs root reuse) :
    ∃ rs, m.firstPass sys fs root reuse = .ok rs ∧
      List.Forall₂ (RoundGives sys fs root) m.entries rs := by
  have hcheck : (if reuse then m.sourceIsOriginal fs else pure true) = .ok true := by
    split
    next hreuse => exact h.original hreuse
    next => rfl
  rw [Manifest.firstPass, hcheck, Exec.ok_bind, Exec.errIf_of_not (by decide), Exec.ok_bind]
  have hends : (m.entries.mapM (m.presentEntry sys fs root reuse)).Ends _ _ :=
    mapM_presentEntry_ends m reuse
  rcases hrounds : m.entries.mapM (m.presentEntry sys fs root reuse) with rs | e | _ <;>
    rw [hrounds] at hends
  · exact ⟨rs, rfl, hends.imp fun _ _ h => h.2⟩
  · exact absurd h.entries hends.2
  · exact hends.elim

/-- **The first pass over any other manifest** fails. -/
theorem firstPass_of_not_accepted {reuse : Bool} (h : ¬m.Accepted sys fs root reuse) :
    ∃ e, m.firstPass sys fs root reuse = .err e ∧ PassError e := by
  obtain ⟨original, horiginal⟩ : ∃ original,
      (if reuse then m.sourceIsOriginal fs else pure true) = .ok original := by
    split
    next => exact sourceIsOriginal_eq
    next => exact ⟨true, rfl⟩
  rw [Manifest.firstPass, horiginal, Exec.ok_bind]
  cases original with
  | false => exact ⟨_, rfl, fun text htext => (CliError.message.inj htext).symm⟩
  | true =>
    rw [Exec.errIf_of_not (by decide), Exec.ok_bind]
    have hends : (m.entries.mapM (m.presentEntry sys fs root reuse)).Ends _ _ :=
      mapM_presentEntry_ends m reuse
    rcases hrounds : m.entries.mapM (m.presentEntry sys fs root reuse) with rs | e | _ <;>
      rw [hrounds] at hends
    · exact absurd ⟨fun hreuse => by rwa [if_pos hreuse] at horiginal,
        ((List.forall₂_and_left _ _).mp hends).1⟩ h
    · exact ⟨e, rfl, hends.1⟩
    · exact hends.elim

/-- Retained entries keep their IDs. -/
theorem map_id_of_retains {entries : List ManifestEntry} {files : List CpkInputFile}
    (h : List.Forall₂ (Retains sys root) entries files) :
    files.map CpkInputFile.id = entries.map ManifestEntry.id := by
  induction h with
  | nil => rfl
  | cons hretains _ ih => rw [List.map_cons, List.map_cons, ih, hretains.id]

end Entries

/-! ## The second pass -/

section SecondPass

variable {sys : HostSystem} {fs : FileSystem} {root : PathBuf} {m : Manifest} {reuse : Bool}

/-- The files that are no entries of a manifest, in the order of their paths. -/
def Manifest.newFiles (m : Manifest) (d : RootDirectory sys.host root fs)
    (outputArchive : PathBuf) : List (List (List UInt8)) :=
  newPaths sys outputArchive (m.knownPaths sys.host) d

/-- **After the first pass:** the retained inputs come first, whatever the directory holds. -/
theorem buildInputs_of_accepted (h : m.Accepted sys fs root reuse) :
    ∃ files, List.Forall₂ (Retains sys root) (m.presentEntries sys fs root) files ∧
      ∀ (d : RootDirectory sys.host root fs) (outputArchive : PathBuf),
        m.buildInputs sys d outputArchive reuse =
          (startIds m.hasItoc (m.retainedIds sys fs root) >>= fun ids =>
            newInputs sys fs root m.hasItoc ids (m.newFiles d outputArchive) >>= fun inputs =>
              pure (files ++ inputs)) := by
  obtain ⟨rs, hrs, hrounds⟩ := firstPass_of_accepted h
  obtain ⟨hpaths, hretains⟩ := of_roundGives hrounds
  refine ⟨rs.filterMap Prod.snd, hretains, fun d outputArchive => ?_⟩
  rw [Manifest.buildInputs, hrs, Exec.ok_bind]
  dsimp only
  rw [map_id_of_retains hretains, hpaths]
  rfl

/-- A manifest that the first pass does not accept ends the call there. -/
theorem buildInputs_of_not_accepted (h : ¬m.Accepted sys fs root reuse) :
    ∃ e, PassError e ∧ ∀ (d : RootDirectory sys.host root fs) (outputArchive : PathBuf),
      m.buildInputs sys d outputArchive reuse = .err e := by
  obtain ⟨e, he, hpass⟩ := firstPass_of_not_accepted h
  exact ⟨e, hpass, fun d outputArchive => by rw [Manifest.buildInputs, he, Exec.err_bind]⟩

end SecondPass

/-! ## The supply of IDs -/

section Ids

variable {hasItoc : Bool} {usedIds : List UInt32}

/-- The error when the IDs are exhausted. -/
def exhaustedIds (hasItoc : Bool) : CliError :=
  .message (if hasItoc then "ITOC has no free 16-bit IDs" else "no free CPK IDs")

/-- The IDs from a number on. -/
def idsFrom (start : ℕ) : List UInt32 := (List.range' start (2 ^ 32 - start)).map UInt32.ofNat

/-- The IDs that new files get, in order. -/
def idQueue (hasItoc : Bool) (usedIds : List UInt32) : List UInt32 :=
  if hasItoc then freeIds usedIds
  else if usedIds = [] then idsFrom 0 else idsFrom ((largestId usedIds).toNat + 1)

/-- The next ID, which is used from then on. -/
def IdState.giveId (hasItoc : Bool) (s : IdState) : Exec CliError (UInt32 × IdState) := do
  let taken ← s.takeId hasItoc
  pure (taken.1, { taken.2 with usedIds := taken.1 :: taken.2.usedIds })

/-- The queue of the IDs that a state still gives: the free IDs, or those from the counter on, or
none once the last one was given and the counter stays on it. -/
def IdState.StandsFor (hasItoc : Bool) (s : IdState) (queue : List UInt32) : Prop :=
  if hasItoc then s.freeIds = queue
  else (queue = idsFrom s.nextTocId.toNat ∧ ∀ id ∈ s.usedIds, id < s.nextTocId) ∨
    (queue = [] ∧ s.nextTocId = maxId ∧ maxId ∈ s.usedIds)

/-- The IDs from a number on start with it. -/
theorem idsFrom_of_lt {n : ℕ} (h : n < 2 ^ 32) :
    idsFrom n = UInt32.ofNat n :: idsFrom (n + 1) := by
  rw [idsFrom, idsFrom, show 2 ^ 32 - n = 2 ^ 32 - (n + 1) + 1 by omega, List.range'_succ,
    List.map_cons]

/-- No ID follows the last one. -/
theorem idsFrom_last : idsFrom (2 ^ 32) = [] := by
  rw [idsFrom, Nat.sub_self, List.range'_zero, List.map_nil]

/-- An ID that is not used is not skipped. -/
theorem skipUsed_of_unused {next : UInt32} (h : next ∉ usedIds) :
    skipUsed usedIds next = .ok next := by
  rw [skipUsed, if_neg (by rwa [List.contains_iff_mem])]
  rfl

/-- When the last ID is used, none is left. -/
theorem skipUsed_last (h : maxId ∈ usedIds) :
    skipUsed usedIds maxId = .err (exhaustedIds false) := by
  rw [skipUsed, if_pos (List.contains_iff_mem.mpr h), if_pos rfl]
  rfl

/-- **Both ways of giving IDs** hand out the queue that their state stands for.

**Proof sketch.** By the kind of index. With an ID table the queue is the list of free IDs, and the
head is taken. Without one, the state stands for the numbers from the counter on, above every used
ID: the counter itself is free, and the next state stands for those after it, or for nothing after
the last one. -/
theorem giveId_supplies (hasItoc : Bool) :
    Supplies (IdState.giveId hasItoc) (exhaustedIds hasItoc) (IdState.StandsFor hasItoc) where
  empty {s} h := by
    cases hasItoc with
    | true =>
      have hfree : s.freeIds = [] := h
      rw [IdState.giveId, IdState.takeId, if_pos rfl, hfree]
      rfl
    | false =>
      rcases h with ⟨hqueue, -⟩ | ⟨-, hlast, hused⟩
      · rw [idsFrom_of_lt s.nextTocId.toNat_lt] at hqueue
        cases hqueue
      · rw [IdState.giveId, IdState.takeId, if_neg (by decide), hlast, skipUsed_last hused]
        rfl
  cons {s n queue} h := by
    cases hasItoc with
    | true =>
      have hfree : s.freeIds = n :: queue := h
      refine ⟨⟨queue, s.nextTocId, n :: s.usedIds⟩, ?_, rfl⟩
      rw [IdState.giveId, IdState.takeId, if_pos rfl, hfree]
      rfl
    | false =>
      rcases h with ⟨hqueue, hused⟩ | ⟨hqueue, -, -⟩
      · rw [idsFrom_of_lt s.nextTocId.toNat_lt, UInt32.ofNat_toNat] at hqueue
        obtain ⟨rfl, rfl⟩ := List.cons.inj hqueue
        have hunused : s.nextTocId ∉ s.usedIds := fun hmem => UInt32.lt_irrefl _ (hused _ hmem)
        refine ⟨⟨s.freeIds, if s.nextTocId = maxId then s.nextTocId else s.nextTocId + 1,
          s.nextTocId :: s.usedIds⟩, ?_, ?_⟩
        · rw [IdState.giveId, IdState.takeId, if_neg (by decide), skipUsed_of_unused hunused]
          rfl
        · by_cases hlast : s.nextTocId = maxId
          · refine .inr ⟨?_, by rw [if_pos hlast, hlast], hlast ▸ List.mem_cons_self⟩
            rw [hlast]
            exact idsFrom_last
          · refine .inl ⟨by rw [if_neg hlast, toNat_add_one hlast], fun id hid => ?_⟩
            have hle : id ≤ s.nextTocId := by
              rcases List.mem_cons.mp hid with rfl | hid
              · exact UInt32.le_refl _
              · exact UInt32.le_of_lt (hused id hid)
            rw [if_neg hlast, UInt32.lt_iff_toNat_lt, toNat_add_one hlast]
            exact Nat.lt_succ_of_le (UInt32.le_iff_toNat_le.mp hle)
      · cases hqueue

/-- New files take their IDs one after the other. -/
theorem newInputs_eq (sys : HostSystem) (fs : FileSystem) (root : PathBuf) (hasItoc : Bool)
    (s : IdState) (paths : List (List (List UInt8))) :
    newInputs sys fs root hasItoc s paths =
      giveEach (IdState.giveId hasItoc) (newInput sys fs root) s paths := by
  induction paths generalizing s with
  | nil => rfl
  | cons names paths ih =>
    rw [newInputs, giveEach, IdState.giveId]
    rcases s.takeId hasItoc with taken | e | _
    · simp only [Exec.ok_bind, Exec.pure_eq, ih]
    · rfl
    · rfl

/-- No used ID is larger. -/
theorem le_largestId {id : UInt32} (h : id ∈ usedIds) : id ≤ largestId usedIds := by
  have hfold : ∀ (l : List UInt32) (acc : UInt32),
      acc ≤ l.foldl (fun a b => if a < b then b else a) acc ∧
        ∀ id ∈ l, id ≤ l.foldl (fun a b => if a < b then b else a) acc := by
    intro l
    induction l with
    | nil => exact fun acc => ⟨UInt32.le_refl _, by simp⟩
    | cons b l ih =>
      intro acc
      obtain ⟨hacc, hl⟩ := ih (if acc < b then b else acc)
      have hmax : acc ≤ (if acc < b then b else acc) ∧ b ≤ (if acc < b then b else acc) := by
        split
        next hlt => exact ⟨UInt32.le_of_lt hlt, UInt32.le_refl _⟩
        next hle => exact ⟨UInt32.le_refl _, UInt32.not_lt.mp hle⟩
      exact ⟨UInt32.le_trans hmax.1 hacc,
        List.forall_mem_cons.mpr ⟨UInt32.le_trans hmax.2 hacc, hl⟩⟩
  exact (hfold usedIds 0).2 id h

/-- **How the IDs start:** with the queue of the IDs, unless the last ID is used. -/
theorem startIds_eq (h : hasItoc = true ∨ usedIds = [] ∨ largestId usedIds ≠ maxId) :
    ∃ s, startIds hasItoc usedIds = .ok s ∧ s.StandsFor hasItoc (idQueue hasItoc usedIds) := by
  cases hasItoc with
  | true =>
    refine ⟨⟨freeIds usedIds, largestId usedIds, usedIds⟩, ?_, ?_⟩
    · rw [startIds, Bool.not_true, Bool.and_false, if_neg (by decide), if_pos rfl]
      rfl
    · rw [IdState.StandsFor, if_pos rfl, idQueue, if_pos rfl]
  | false =>
    rcases usedIds with _ | ⟨id, usedIds⟩
    · refine ⟨⟨[], 0, []⟩, rfl, .inl ⟨?_, by simp⟩⟩
      rw [idQueue, if_neg (by decide), if_pos rfl, UInt32.toNat_zero]
    · have hlast : largestId (id :: usedIds) ≠ maxId :=
        (h.resolve_left (by decide)).resolve_left (List.cons_ne_nil _ _)
      refine ⟨⟨[], largestId (id :: usedIds) + 1, id :: usedIds⟩, ?_, .inl ⟨?_, fun other hother => ?_⟩⟩
      · rw [startIds, if_neg hlast]
        rfl
      · rw [idQueue, if_neg (by decide), if_neg (List.cons_ne_nil _ _), toNat_add_one hlast]
      · have hle := UInt32.le_iff_toNat_le.mp (le_largestId hother)
        rw [UInt32.lt_iff_toNat_lt, toNat_add_one hlast]
        exact Nat.lt_succ_of_le hle

/-- A retained last ID ends the call, without any new file. -/
theorem startIds_of_last (hitoc : hasItoc = false) (hused : usedIds ≠ [])
    (h : largestId usedIds = maxId) : startIds hasItoc usedIds = .err (exhaustedIds hasItoc) := by
  obtain ⟨id, usedIds, rfl⟩ := List.exists_cons_of_ne_nil hused
  subst hitoc
  rw [startIds, if_pos h]
  rfl

/-- The IDs from a number on are not below it. -/
theorem toNat_of_mem_idsFrom {start : ℕ} {id : UInt32} (h : id ∈ idsFrom start) :
    start ≤ id.toNat := by
  obtain ⟨n, hn, rfl⟩ := List.mem_map.mp h
  obtain ⟨hle, hlt⟩ := List.mem_range'_1.mp hn
  rw [UInt32.toNat_ofNat_of_lt' (by rw [UInt32.size]; omega)]
  exact hle

/-- Different small numbers are different IDs. -/
theorem nodup_map_ofNat {l : List ℕ} (h : l.Nodup) (hlt : ∀ n ∈ l, n < 2 ^ 32) :
    (l.map UInt32.ofNat).Nodup := by
  refine List.Nodup.map_on (fun a ha b hb hab => ?_) h
  have heq := congrArg UInt32.toNat hab
  rwa [UInt32.toNat_ofNat_of_lt' (hlt a ha), UInt32.toNat_ofNat_of_lt' (hlt b hb)] at heq

/-- A free ID fits 16 bits and is not used. -/
theorem mem_freeIds {id : UInt32} : id ∈ freeIds usedIds ↔ id.toNat < 2 ^ 16 ∧ id ∉ usedIds := by
  rw [freeIds, List.mem_filter, Bool.not_eq_true', Bool.eq_false_iff, Ne, List.contains_iff_mem]
  refine and_congr_left fun _ => ?_
  constructor
  · intro h
    obtain ⟨n, hn, rfl⟩ := List.mem_map.mp h
    have hlt := List.mem_range.mp hn
    rwa [UInt32.toNat_ofNat_of_lt' (by rw [UInt32.size]; omega)]
  · exact fun h => List.mem_map.mpr ⟨id.toNat, List.mem_range.mpr h, UInt32.ofNat_toNat⟩

/-- The IDs of new files are different. -/
theorem nodup_idQueue (hasItoc : Bool) (usedIds : List UInt32) :
    (idQueue hasItoc usedIds).Nodup := by
  have hfrom : ∀ start, (idsFrom start).Nodup := fun start =>
    nodup_map_ofNat List.nodup_range' fun n hn => by
      have := List.mem_range'_1.mp hn
      omega
  unfold idQueue
  split
  · refine List.Nodup.filter _ (nodup_map_ofNat List.nodup_range fun n hn => ?_)
    have := List.mem_range.mp hn
    omega
  · split
    · exact hfrom 0
    · exact hfrom _

/-- The IDs of new files are not used. -/
theorem not_mem_of_mem_idQueue {id : UInt32} (h : id ∈ idQueue hasItoc usedIds) : id ∉ usedIds := by
  intro hused
  unfold idQueue at h
  split at h
  · exact (mem_freeIds.mp h).2 hused
  · split at h
    next hnil => exact List.ne_nil_of_mem hused hnil
    next =>
      have hle := UInt32.le_iff_toNat_le.mp (le_largestId hused)
      have := toNat_of_mem_idsFrom h
      omega

end Ids

end CriArchive
