import CriArchive.Cli.Build

set_option relaxedAutoImplicit false
set_option autoImplicit false

/-!
# What a rebuild packs

The result of `build_inputs` as a plan: the entries that are still there, then the new files, with
IDs of their own; when the call stops for lack of IDs; and what keeps the output and the manifest
out of the archive.

## Main definitions

* `RebuildPlan` — what is asked of the inputs of a rebuild.
* `FailsForIds`, `RunsOut` — the call fails for lack of IDs, and when it does so needlessly.
* `KeepsApart`, `EntriesApart` — the inputs are the files of the directory, without the output and
  the manifest, and what the entries have to do with it.

## Main results

* `buildInputs_plan` — the inputs of a rebuild are planned, whatever the order of the directory.
* `fails_for_ids_iff` — when a lack of IDs is real.
* `keeps_apart_iff` — when the output and the manifest are no inputs.
-/

namespace CriArchive

open StdPath Supply

/-! ## New files -/

section NewFiles

variable {sys : HostSystem} {fs : FileSystem} {root : PathBuf} {m : Manifest}
  {d d' : RootDirectory sys.host root fs} {outputArchive : PathBuf} {names : List (List UInt8)}

/-- A new file that can be packed: it is there, it is not too large, and its names are UTF-8. -/
def NewAccepted (sys : HostSystem) (fs : FileSystem) (root : PathBuf) (names : List (List UInt8)) :
    Prop :=
  (∃ contents, fs (join sys.host root (relativePath sys names)) = some contents ∧
    (UInt64.ofNat contents.length).toNat < 2 ^ 32) ∧
  ∀ v ∈ names, (Utf8.decode v).isSome = true

/-- What is put into the input of a new file. -/
structure NewGives (sys : HostSystem) (root : PathBuf) (id : UInt32) (names : List (List UInt8))
    (input : CpkInputFile) : Prop where
  directory : input.directory.asBytes = joined 0x2f names.dropLast
  fileName : input.fileName.asBytes = names.getLastD []
  sourcePath : input.sourcePath = join sys.host root (relativePath sys names)
  id : input.id = id
  userString : input.userString = ""

/-- An error that is no text. -/
def FileError (e : CliError) : Prop := ∀ text, e ≠ .message text

/-- The string of a relative path: its names joined with slashes, when they are UTF-8. -/
theorem relativeCriString_ends (names : List (List UInt8)) :
    (relativeCriString sys names).Ends
      (fun s => (∀ v ∈ names, (Utf8.decode v).isSome = true) ∧ s.asBytes = joined 0x2f names)
      FileError := by
  have hparts : (names.mapM fun v => Exec.okOr (Utf8.decode v)
      (CliError.nonUtf8Path (relativePath sys names))).Ends
        (List.Forall₂ (fun v s => Utf8.decode v = some s) names) FileError :=
    Exec.ends_mapM fun v _ => Exec.ends_okOr fun text htext => by cases htext
  refine hparts.with_ok.bind fun parts hok => ?_
  obtain ⟨hdecode, hbytes⟩ := mapM_decode_eq_ok hok.1
  exact ⟨hdecode, by rw [asBytes_intercalate, hbytes]⟩

/-- The last name of a path that has one. -/
theorem getLastD_eq_getLast (hne : names ≠ []) : names.getLastD [] = names.getLast hne := by
  rw [List.getLastD_eq_getLast?, List.getLast?_eq_some_getLast hne, Option.getD_some]

/-- **How packing a new file ends:** with its input, or with an error about it. -/
theorem newInput_ends (id : UInt32) (names : List (List UInt8)) :
    (newInput sys fs root id names).Ends
      (fun input => NewGives sys root id names input ∧
        (names ≠ [] → NewAccepted sys fs root names))
      FileError := by
  refine (Exec.ends_okOr fun text htext => by cases htext).bind fun contents hfile => ?_
  refine (Exec.ends_okOr fun text htext => by cases htext).bind fun size hsize => ?_
  refine (Exec.ends_okOr fun text htext => by cases htext).bind fun fileName hname => ?_
  refine (relativeCriString_ends names.dropLast).bind fun directory hdirectory => ?_
  obtain ⟨hdecode, hbytes⟩ := hdirectory
  have hlt := size.toNat_lt
  rw [UInt32.tryFrom_eq_some.mp hsize] at hlt
  refine ⟨⟨hbytes, Utf8.decode_eq_some hname, rfl, rfl, rfl⟩,
    fun hne => ⟨⟨contents, hfile, hlt⟩, fun v hv => ?_⟩⟩
  have hnames : names = names.dropLast ++ [names.getLastD []] := by
    rw [getLastD_eq_getLast hne, List.dropLast_append_getLast hne]
  rw [hnames, List.mem_append, List.mem_singleton] at hv
  obtain hv | rfl := hv
  · exact hdecode v hv
  · rw [hname]
    rfl

/-- A new file that can be packed becomes an input. -/
theorem exists_newInput (hne : names ≠ []) (h : NewAccepted sys fs root names) (id : UInt32) :
    ∃ input, newInput sys fs root id names = .ok input := by
  obtain ⟨⟨contents, hfile, hsize⟩, hdecode⟩ := h
  have htry : UInt32.tryFrom (UInt64.ofNat contents.length).toNat =
      some (UInt32.ofNat (UInt64.ofNat contents.length).toNat) := if_pos hsize
  have hlast : names.getLastD [] ∈ names := by
    rw [getLastD_eq_getLast hne]
    exact List.getLast_mem hne
  obtain ⟨fileName, hname⟩ := Option.isSome_iff_exists.mp (hdecode _ hlast)
  obtain ⟨parts, hparts⟩ := exists_mapM_decode
    (fun v hv => hdecode v (List.dropLast_subset _ hv))
    (CliError.nonUtf8Path (relativePath sys names.dropLast))
  rw [newInput, openFile, hfile, Exec.okOr_some, Exec.ok_bind, htry, Exec.okOr_some, Exec.ok_bind,
    hname, Exec.okOr_some, Exec.ok_bind, relativeCriString, hparts]
  exact ⟨_, rfl⟩

/-- A new file that cannot be packed ends the call, for no lack of IDs. -/
theorem newInput_of_not_accepted (hne : names ≠ []) (h : ¬NewAccepted sys fs root names)
    (id : UInt32) : ∃ e, newInput sys fs root id names = .err e ∧ FileError e := by
  have hends : (newInput sys fs root id names).Ends _ _ := newInput_ends id names
  rcases hinput : newInput sys fs root id names with input | e | _ <;> rw [hinput] at hends
  · exact absurd (hends.2 hne) h
  · exact ⟨e, rfl, hends⟩
  · exact hends.elim

/-! ### Which files are new -/

/-- A file of the directory that is not left out, and is no entry. -/
theorem mem_newFiles : names ∈ m.newFiles d outputArchive ↔
    names ∈ d.files.map Prod.fst ∧
      isExcluded sys root outputArchive (below sys.host root names) = false ∧
      ∀ known ∈ m.knownPaths sys.host,
        samePath sys.host known (relativePath sys names) = false := by
  rw [Manifest.newFiles, newPaths, List.mem_mergeSort, List.mem_filter, collectRelativeFiles,
    List.mem_filter, and_assoc, Bool.not_eq_true', Bool.not_eq_true', List.any_eq_false]
  simp only [Bool.not_eq_true]

/-- A new file has a name. -/
theorem ne_nil_of_mem_newFiles (h : names ∈ m.newFiles d outputArchive) : names ≠ [] := by
  obtain ⟨f, hf, rfl⟩ := List.mem_map.mp (mem_newFiles.mp h).1
  exact Directory.ne_nil_of_mem_files hf

/-- The names of a new file are ordinary. -/
theorem ordinary_of_mem_newFiles (h : names ∈ m.newFiles d outputArchive) :
    ∀ v ∈ names, Ordinary sys.host v := by
  obtain ⟨f, hf, rfl⟩ := List.mem_map.mp (mem_newFiles.mp h).1
  exact Directory.ordinary_of_mem_files hf

/-- The path of a new file is below the directory. -/
theorem join_relativePath (h : names ∈ m.newFiles d outputArchive) :
    join sys.host root (relativePath sys names) = below sys.host root names :=
  join_joined (ordinary_of_mem_newFiles h) (ne_nil_of_mem_newFiles h)

/-- The names of the files of a directory are different. -/
theorem nodup_names (d : Directory sys.host Unit) : (d.files.map Prod.fst).Nodup := by
  rw [d.files_eq]
  exact List.pairwise_map.mpr ((Entries.pairwise_listing d.proper).imp fun h => h.ne)

/-- No new file is listed twice. -/
theorem nodup_newFiles : (m.newFiles d outputArchive).Nodup :=
  (List.mergeSort_perm _ _).nodup_iff.mpr
    (((nodup_names d.toDirectory).filter _).filter _)

/-- The new files are in the order of their paths. -/
theorem pairwise_newFiles : (m.newFiles d outputArchive).Pairwise (· < ·) := by
  have hle : (m.newFiles d outputArchive).Pairwise fun a b => decide (a ≤ b) = true := by
    refine List.pairwise_mergeSort (fun a b c hab hbc => ?_) (fun a b => ?_) _
    · exact decide_eq_true (List.le_trans (of_decide_eq_true hab) (of_decide_eq_true hbc))
    · rw [Bool.or_eq_true, decide_eq_true_iff, decide_eq_true_iff]
      exact List.le_total a b
  refine (hle.and nodup_newFiles).imp fun hab => ?_
  exact (List.le_iff_lt_or_eq.mp (of_decide_eq_true hab.1)).resolve_right hab.2

/-- The new files do not depend on the order in which the directory is read. -/
theorem newFiles_congr (h : d.toDirectory.Reordered d'.toDirectory) :
    m.newFiles d outputArchive = m.newFiles d' outputArchive := by
  refine List.Perm.eq_of_pairwise (fun a b _ _ hab hba => ?_) pairwise_newFiles pairwise_newFiles ?_
  · exact absurd (List.lt_trans hab hba) (List.lt_irrefl _)
  · refine (List.mergeSort_perm _ _).trans (.trans ?_ (List.mergeSort_perm _ _).symm)
    exact ((h.perm.map Prod.fst).filter _).filter _

end NewFiles

/-! ## How the call ends -/

section Ends

variable {sys : HostSystem} {fs : FileSystem} {root : PathBuf} {m : Manifest} {reuse : Bool}
  {d d' : RootDirectory sys.host root fs} {outputArchive : PathBuf}

/-- The IDs of the new files start after those of the retained entries, unless these hold the last
one. -/
def IdsStart (sys : HostSystem) (fs : FileSystem) (root : PathBuf) (m : Manifest) : Prop :=
  m.hasItoc = true ∨ m.retainedIds sys fs root = [] ∨
    largestId (m.retainedIds sys fs root) ≠ maxId

/-- **The call, on the queue of IDs.** -/
theorem buildInputs_of_idsStart (h : m.Accepted sys fs root reuse) (hids : IdsStart sys fs root m) :
    ∃ files, List.Forall₂ (Retains sys root) (m.presentEntries sys fs root) files ∧
      ∀ (d : RootDirectory sys.host root fs) (outputArchive : PathBuf),
        m.buildInputs sys d outputArchive reuse =
          (giveEach (takeHead (exhaustedIds m.hasItoc)) (newInput sys fs root)
            (idQueue m.hasItoc (m.retainedIds sys fs root)) (m.newFiles d outputArchive) >>=
              fun inputs => pure (files ++ inputs)) := by
  obtain ⟨files, hfiles, hbuild⟩ := buildInputs_of_accepted h
  obtain ⟨s, hs, hstands⟩ := startIds_eq hids
  refine ⟨files, hfiles, fun d outputArchive => ?_⟩
  rw [hbuild, hs, Exec.ok_bind, newInputs_eq, (giveId_supplies m.hasItoc).giveEach_eq hstands]

/-- A retained last ID ends the call. -/
theorem buildInputs_of_not_idsStart (h : m.Accepted sys fs root reuse)
    (hids : ¬IdsStart sys fs root m) :
    m.buildInputs sys d outputArchive reuse = .err (exhaustedIds m.hasItoc) := by
  obtain ⟨files, -, hbuild⟩ := buildInputs_of_accepted h
  simp only [IdsStart, not_or, not_not, Bool.not_eq_true] at hids
  rw [hbuild, startIds_of_last hids.1 hids.2.1 hids.2.2, Exec.err_bind]

/-- A call that returns was accepted, and its IDs started. -/
theorem of_buildInputs_eq_ok {inputs : List CpkInputFile}
    (h : m.buildInputs sys d outputArchive reuse = .ok inputs) :
    m.Accepted sys fs root reuse ∧ IdsStart sys fs root m := by
  have haccepted : m.Accepted sys fs root reuse := by
    by_contra hnot
    obtain ⟨e, -, he⟩ := buildInputs_of_not_accepted hnot
    rw [he] at h
    cases h
  refine ⟨haccepted, ?_⟩
  by_contra hnot
  rw [buildInputs_of_not_idsStart haccepted hnot] at h
  cases h

end Ends

/-! ## How many IDs there are -/

/-- How many IDs are not used, of `2^16` for an archive with an ID table and of `2^32` otherwise. -/
def unusedIds (hasItoc : Bool) (usedIds : List UInt32) : ℕ :=
  (((List.range (if hasItoc then 2 ^ 16 else 2 ^ 32)).map UInt32.ofNat).filter
    fun id => !usedIds.contains id).length

/-- How many IDs follow the last one of the retained entries. -/
def idsAfter (usedIds : List UInt32) : ℕ := 2 ^ 32 - 1 - (largestId usedIds).toNat

/-- How many IDs there are from a number on. -/
theorem length_idsFrom (start : ℕ) : (idsFrom start).length = 2 ^ 32 - start := by
  rw [idsFrom, List.length_map, List.length_range']

/-- With an ID table, or without retained entries, the queue holds all unused IDs. -/
theorem length_idQueue_of_itoc {hasItoc : Bool} {usedIds : List UInt32}
    (h : hasItoc = true ∨ usedIds = []) :
    (idQueue hasItoc usedIds).length = unusedIds hasItoc usedIds := by
  cases hasItoc with
  | true => rw [idQueue, if_pos rfl, freeIds, unusedIds, if_pos rfl]
  | false =>
    obtain rfl : usedIds = [] := h.resolve_left (by decide)
    have hall : ∀ l : List UInt32, l.filter (fun id => !([] : List UInt32).contains id) = l :=
      fun l => List.filter_eq_self.mpr fun id _ => rfl
    rw [idQueue, if_neg (by decide), if_pos rfl, length_idsFrom, unusedIds, hall, List.length_map,
      List.length_range, if_neg (by decide), Nat.sub_zero]

/-- Otherwise it holds the IDs after the retained ones. -/
theorem length_idQueue_of_toc {usedIds : List UInt32} (h : usedIds ≠ []) :
    (idQueue false usedIds).length = idsAfter usedIds := by
  rw [idQueue, if_neg (by decide), if_neg h, length_idsFrom, idsAfter]
  omega

/-- No ID follows iff the largest one is the last. -/
theorem idsAfter_eq_zero {usedIds : List UInt32} :
    idsAfter usedIds = 0 ↔ largestId usedIds = maxId := by
  have hlt := (largestId usedIds).toNat_lt
  have hmax : maxId.toNat = 2 ^ 32 - 1 := rfl
  rw [idsAfter, ← UInt32.toNat_inj, hmax]
  omega

/-! ## A sample -/

section Sample

variable {sys : HostSystem} {fs : FileSystem} {root : PathBuf} {m : Manifest} {reuse : Bool}
  {d : RootDirectory sys.host root fs} {outputArchive : PathBuf}

/-- The call returns when the first pass accepts the manifest, and the new files can be packed and
are not more than the IDs. -/
theorem exists_buildInputs (h : m.Accepted sys fs root reuse) (hids : IdsStart sys fs root m)
    (hnew : ∀ names ∈ m.newFiles d outputArchive, NewAccepted sys fs root names)
    (hlen : (m.newFiles d outputArchive).length ≤
      (idQueue m.hasItoc (m.retainedIds sys fs root)).length) :
    ∃ inputs, m.buildInputs sys d outputArchive reuse = .ok inputs := by
  obtain ⟨files, -, hbuild⟩ := buildInputs_of_idsStart h hids
  obtain ⟨added, hadded⟩ := exists_giveEach
    (fun id names hnames => exists_newInput (ne_nil_of_mem_newFiles hnames) (hnew names hnames) id) hlen
  exact ⟨files ++ added, by rw [hbuild, hadded, Exec.ok_bind, Exec.pure_eq]⟩

/-- A directory `d` with the files `a` and `b`. -/
def sampleTree : FileSystem :=
  Function.update (Function.update (fun _ => none) [0x64, 0x2f, 0x61] (some [1]))
    [0x64, 0x2f, 0x62] (some [2])

/-- What a host reads of the directory. -/
def sampleRoot : RootDirectory sampleHost.host [0x64] sampleTree where
  entries := .file [0x61] () (.file [0x62] () .nil)
  proper := ⟨by decide, by decide, trivial⟩
  ordinary f hf v hv := by
    rcases List.mem_pair.mp hf with rfl | rfl <;> rw [List.mem_singleton.mp hv] <;>
      exact ordinary_singleton (by decide) (by decide)
  present := by decide +kernel

/-- An entry for a file of the directory. -/
def sampleEntry (name : String) (id : UInt32) : ManifestEntry :=
  ⟨"", name, id, "", 1, 0, 1, 0, 0⟩

/-- A manifest of an archive without ID table. -/
def sampleRebuild (entries : List ManifestEntry) : Manifest :=
  { sampleManifest with hasItoc := false, directItoc := false, entries }

/-- The entries of the sample are accepted. -/
theorem accepted_sampleEntry {name : String} (h : name = "a" ∨ name = "b") (id : UInt32) :
    (sampleEntry name id).Accepted sampleHost sampleTree [0x64] := by
  rcases h with rfl | rfl
  · have hpath : safeRelativePath .unix "" "a" = .ok [0x61] := by decide +kernel
    have hfile : sampleTree (join .unix [0x64] [0x61]) = some [1] := by decide +kernel
    refine ⟨[0x61], congrArg Exec.value? hpath, fun contents hcontents => ?_⟩
    obtain rfl := Option.some.inj (hfile.symm.trans hcontents)
    decide
  · have hpath : safeRelativePath .unix "" "b" = .ok [0x62] := by decide +kernel
    have hfile : sampleTree (join .unix [0x64] [0x62]) = some [2] := by decide +kernel
    refine ⟨[0x62], congrArg Exec.value? hpath, fun contents hcontents => ?_⟩
    obtain rfl := Option.some.inj (hfile.symm.trans hcontents)
    decide

/-- A new file of the sample is one of the two. -/
theorem eq_of_mem_newFiles_sample {m : Manifest} {names : List (List UInt8)}
    (h : names ∈ m.newFiles sampleRoot outputArchive) : names = [[0x61]] ∨ names = [[0x62]] := by
  have hlisted := (mem_newFiles.mp h).1
  rw [sampleRoot.files_eq] at hlisted
  exact List.mem_pair.mp hlisted

/-- A rebuild of the directory with the entry `a`. -/
theorem exists_sampleRebuild (outputArchive : PathBuf) :
    ∃ inputs, (sampleRebuild [sampleEntry "a" 5]).buildInputs sampleHost sampleRoot outputArchive
      false = .ok inputs := by
  refine exists_buildInputs ⟨fun h => absurd h (by decide), ?_⟩ (.inr (.inr (by decide +kernel))) ?_ ?_
  · exact List.forall_mem_singleton.mpr (accepted_sampleEntry (.inl rfl) 5)
  · intro names hnames
    rcases eq_of_mem_newFiles_sample hnames with rfl | rfl
    · exact ⟨⟨[1], by decide +kernel, by decide⟩, by decide +kernel⟩
    · exact ⟨⟨[2], by decide +kernel, by decide⟩, by decide +kernel⟩
  · have hpair : (Manifest.newFiles (sampleRebuild [sampleEntry "a" 5]) sampleRoot
        outputArchive).length ≤ 2 :=
      (List.subperm_of_subset nodup_newFiles fun names hnames =>
        List.mem_pair.mpr (eq_of_mem_newFiles_sample hnames)).length_le
    apply hpair.trans
    rw [show (sampleRebuild [sampleEntry "a" 5]).hasItoc = false from rfl,
      length_idQueue_of_toc (by decide +kernel)]
    decide +kernel

end Sample

/-! ## The plan -/

section Plan

variable {sys : HostSystem} {fs : FileSystem} {root : PathBuf}

/-- **The plan of a rebuild:** inputs that keep the entries still present, in their order, then the
inputs of new files, given by their names, in the order of their paths. -/
structure RebuildPlan (m : Manifest) (d : RootDirectory sys.host root fs) (outputArchive : PathBuf)
    (retained : List CpkInputFile) (names : List (List (List UInt8))) (added : List CpkInputFile) :
    Prop where
  keeps : List.Forall₂ (Retains sys root) (m.presentEntries sys fs root) retained
  /-- The new files are those of the directory that are not left out, and are no entries. -/
  mem_names : ∀ ns, ns ∈ names ↔ ns ∈ d.files.map Prod.fst ∧
    isExcluded sys root outputArchive (below sys.host root ns) = false ∧
    ∀ known ∈ m.knownPaths sys.host, samePath sys.host known (relativePath sys ns) = false
  sorted : names.Pairwise (· < ·)
  adds : List.Forall₂ (fun ns input => input.sourcePath = below sys.host root ns ∧
    input.directory.asBytes = joined 0x2f ns.dropLast ∧
    input.fileName.asBytes = ns.getLastD [] ∧ input.userString = "") names added
  nodup : (added.map CpkInputFile.id).Nodup
  fresh : ∀ input ∈ added, ∀ entry ∈ retained, input.id ≠ entry.id
  fits : m.hasItoc = true → ∀ input ∈ added, input.id.toNat < 2 ^ 16

variable {m : Manifest} {d d' : RootDirectory sys.host root fs} {outputArchive : PathBuf}
  {reuse : Bool} {inputs : List CpkInputFile}

/-- The inputs of new files are those of their names. -/
theorem adds_of_giveEach {e : CliError} {queue : List UInt32} {added : List CpkInputFile}
    (h : giveEach (takeHead e) (newInput sys fs root) queue (m.newFiles d outputArchive) = .ok added) :
    List.Forall₂ (fun ns input => input.sourcePath = below sys.host root ns ∧
      input.directory.asBytes = joined 0x2f ns.dropLast ∧
      input.fileName.asBytes = ns.getLastD [] ∧ input.userString = "")
      (m.newFiles d outputArchive) added := by
  have hmade := forall₂_of_giveEach h
  have hall : ∀ ns ∈ m.newFiles d outputArchive,
      join sys.host root (relativePath sys ns) = below sys.host root ns :=
    fun ns hns => join_relativePath hns
  refine ((List.forall₂_and_left _ _).mpr ⟨hall, hmade⟩).imp ?_
  rintro ns input ⟨hpath, id, hinput⟩
  have hgives := ((newInput_ends id ns).of_ok hinput).1
  exact ⟨hgives.sourcePath.trans hpath, hgives.directory, hgives.fileName, hgives.userString⟩

/-- Their IDs are the first of the queue. -/
theorem map_id_of_giveEach {e : CliError} {queue : List UInt32} {names : List (List (List UInt8))}
    {added : List CpkInputFile}
    (h : giveEach (takeHead e) (newInput sys fs root) queue names = .ok added) :
    added.map CpkInputFile.id = queue.take names.length :=
  map_of_giveEach (fun id ns _ hinput => ((newInput_ends id ns).of_ok hinput).1.id) h

/-- The inputs of a rebuild are planned. -/
theorem exists_rebuildPlan (h : m.buildInputs sys d outputArchive reuse = .ok inputs) :
    ∃ retained names added, inputs = retained ++ added ∧
      RebuildPlan m d outputArchive retained names added := by
  obtain ⟨haccepted, hids⟩ := of_buildInputs_eq_ok h
  obtain ⟨files, hfiles, hbuild⟩ := buildInputs_of_idsStart haccepted hids
  rw [hbuild] at h
  obtain ⟨added, hadded, hinputs⟩ := Exec.bind_eq_ok.mp h
  have hids_added := map_id_of_giveEach hadded
  have hqueue : ∀ input ∈ added, input.id ∈ idQueue m.hasItoc (m.retainedIds sys fs root) := by
    intro input hinput
    refine List.mem_of_mem_take (?_ : _ ∈ List.take (m.newFiles d outputArchive).length _)
    rw [← hids_added]
    exact List.mem_map_of_mem hinput
  refine ⟨files, m.newFiles d outputArchive, added, (Exec.ok.inj hinputs).symm,
    hfiles, fun ns => mem_newFiles, pairwise_newFiles, adds_of_giveEach hadded, ?_, ?_, ?_⟩
  · rw [hids_added]
    exact (nodup_idQueue _ _).sublist (List.take_sublist _ _)
  · intro input hinput entry hentry heq
    refine not_mem_of_mem_idQueue (hqueue input hinput) ?_
    rw [heq, Manifest.retainedIds, ← map_id_of_retains hfiles]
    exact List.mem_map_of_mem hentry
  · intro hitoc input hinput
    have hmem := hqueue input hinput
    rw [hitoc, idQueue, if_pos rfl] at hmem
    exact (mem_freeIds.mp hmem).1

/-- The order in which the directory is read does not matter. -/
theorem buildInputs_congr (h : m.buildInputs sys d outputArchive reuse = .ok inputs)
    (hd' : d.toDirectory.Reordered d'.toDirectory) :
    m.buildInputs sys d' outputArchive reuse = .ok inputs := by
  obtain ⟨haccepted, hids⟩ := of_buildInputs_eq_ok h
  obtain ⟨files, -, hbuild⟩ := buildInputs_of_idsStart haccepted hids
  rw [← h, hbuild, hbuild, newFiles_congr hd']

/-- **ID and order planning of a rebuild.** -/
theorem buildInputs_plan (h : m.buildInputs sys d outputArchive reuse = .ok inputs) :
    (∃ retained names added, inputs = retained ++ added ∧
      RebuildPlan m d outputArchive retained names added) ∧
    ∀ d' : RootDirectory sys.host root fs, d.toDirectory.Reordered d'.toDirectory →
      m.buildInputs sys d' outputArchive reuse = .ok inputs :=
  ⟨exists_rebuildPlan h, fun _ hd' => buildInputs_congr h hd'⟩

/-- A file that is an entry, and one that is not, are planned. -/
theorem buildInputs_plan_sample : ∃ inputs,
    (sampleRebuild [sampleEntry "a" 5]).buildInputs sampleHost sampleRoot [0x6f] false =
      .ok inputs ∧
    (∃ retained names added, inputs = retained ++ added ∧
      RebuildPlan (sampleRebuild [sampleEntry "a" 5]) sampleRoot [0x6f] retained names added) ∧
    ∀ d' : RootDirectory sampleHost.host [0x64] sampleTree,
      sampleRoot.toDirectory.Reordered d'.toDirectory →
        (sampleRebuild [sampleEntry "a" 5]).buildInputs sampleHost d' [0x6f] false = .ok inputs := by
  obtain ⟨inputs, h⟩ := exists_sampleRebuild [0x6f]
  exact ⟨inputs, h, buildInputs_plan h⟩

end Plan

/-! ## Lack of IDs -/

section Exhaustion

variable {sys : HostSystem} {fs : FileSystem} {root : PathBuf} {m : Manifest}
  {d : RootDirectory sys.host root fs} {outputArchive : PathBuf} {reuse : Bool}

/-- The call fails for lack of IDs. -/
def FailsForIds (r : Exec CliError (List CpkInputFile)) : Prop :=
  r = .err (.message "no free CPK IDs") ∨ r = .err (.message "ITOC has no free 16-bit IDs")

/-- **The counter runs out:** there is no ID table, some entry is still there, and no ID follows
the retained ones, or fewer than there are new files, all of which can be packed up to there. -/
structure RunsOut (m : Manifest) (d : RootDirectory sys.host root fs) (outputArchive : PathBuf)
    (reuse : Bool) : Prop where
  accepted : m.Accepted sys fs root reuse
  hasItoc : m.hasItoc = false
  retains : m.retainedIds sys fs root ≠ []
  reached : idsAfter (m.retainedIds sys fs root) = 0 ∨
    idsAfter (m.retainedIds sys fs root) < (m.newFiles d outputArchive).length ∧
      ∀ names ∈ (m.newFiles d outputArchive).take (idsAfter (m.retainedIds sys fs root)),
        NewAccepted sys fs root names

/-- **The errors of exhausted IDs**, for either index. -/
theorem failsForIds_iff_exhausted {r : Exec CliError (List CpkInputFile)} :
    FailsForIds r ↔ ∃ hasItoc, r = .err (exhaustedIds hasItoc) := by
  constructor
  · rintro (h | h)
    · exact ⟨false, h⟩
    · exact ⟨true, h⟩
  · rintro ⟨hasItoc, h⟩
    cases hasItoc with
    | true => exact .inr h
    | false => exact .inl h

/-- A manifest that is not accepted fails for other reasons. -/
theorem not_failsForIds_of_not_accepted (h : ¬m.Accepted sys fs root reuse) :
    ¬FailsForIds (m.buildInputs sys d outputArchive reuse) := by
  obtain ⟨e, hpass, hbuild⟩ := buildInputs_of_not_accepted h
  rw [hbuild]
  rintro (h | h)
  · exact absurd (hpass _ (Exec.err.inj h)) (by decide)
  · exact absurd (hpass _ (Exec.err.inj h)) (by decide)

/-- **When the queue of IDs runs out.** -/
theorem failsForIds_iff (h : m.Accepted sys fs root reuse) (hids : IdsStart sys fs root m) :
    FailsForIds (m.buildInputs sys d outputArchive reuse) ↔
      (idQueue m.hasItoc (m.retainedIds sys fs root)).length <
          (m.newFiles d outputArchive).length ∧
        ∀ names ∈ (m.newFiles d outputArchive).take
            (idQueue m.hasItoc (m.retainedIds sys fs root)).length,
          NewAccepted sys fs root names := by
  obtain ⟨files, -, hbuild⟩ := buildInputs_of_idsStart h hids
  rw [hbuild, ← giveEach_eq_exhausted
    (fun id names hnames hmakes => exists_newInput (ne_nil_of_mem_newFiles hnames) hmakes id)
    (fun id names hnames hnot => ?_)]
  · rw [failsForIds_iff_exhausted]
    constructor
    · rintro ⟨hasItoc, hfails⟩
      rcases hloop : giveEach (takeHead (exhaustedIds m.hasItoc)) (newInput sys fs root)
        (idQueue m.hasItoc (m.retainedIds sys fs root)) (m.newFiles d outputArchive)
        with added | e | _ <;> rw [hloop] at hfails
      · cases hfails
      · by_contra hne
        -- an error of a file is no text
        obtain ⟨id, names, -, he⟩ := exists_of_giveEach_eq_err hloop fun heq => hne (heq ▸ rfl)
        exact (newInput_ends id names).of_err he _ (Exec.err.inj hfails)
      · cases hfails
    · intro hloop
      exact ⟨m.hasItoc, by rw [hloop, Exec.err_bind]⟩
  · obtain ⟨e, he, hfile⟩ := newInput_of_not_accepted (ne_nil_of_mem_newFiles hnames) hnot id
    exact ⟨e, he, hfile _⟩

/-- **A call without an ID table fails for lack of IDs** iff its counter runs out. -/
theorem failsForIds_iff_runsOut (hitoc : m.hasItoc = false)
    (hretains : m.retainedIds sys fs root ≠ []) :
    FailsForIds (m.buildInputs sys d outputArchive reuse) ↔ RunsOut m d outputArchive reuse := by
  by_cases haccepted : m.Accepted sys fs root reuse
  · by_cases hlast : idsAfter (m.retainedIds sys fs root) = 0
    · have hids : ¬IdsStart sys fs root m := by
        simp [IdsStart, hitoc, hretains, idsAfter_eq_zero.mp hlast]
      refine iff_of_true ?_ ⟨haccepted, hitoc, hretains, .inl hlast⟩
      rw [buildInputs_of_not_idsStart haccepted hids]
      exact failsForIds_iff_exhausted.mpr ⟨_, rfl⟩
    · have hids : IdsStart sys fs root m := .inr (.inr fun heq => hlast (idsAfter_eq_zero.mpr heq))
      rw [failsForIds_iff haccepted hids, hitoc, length_idQueue_of_toc hretains]
      exact ⟨fun h => ⟨haccepted, hitoc, hretains, .inr h⟩, fun h => h.reached.resolve_left hlast⟩
  · exact iff_of_false (not_failsForIds_of_not_accepted haccepted) fun h => haccepted h.accepted

variable (m d outputArchive reuse) in
/-- **When a lack of IDs is real.** The call fails for lack of IDs only if there are more new files
than unused IDs, unless the counter runs out while there are enough of them.

**Proof sketch.** By the kind of queue. Where it is restricted to the IDs above the retained ones,
this is `failsForIds_iff_runsOut`. Otherwise every unused ID is in the queue, so that a failure
would mean that there are fewer IDs than new files (`failsForIds_iff`), and the right side is false
because it asks for a retained ID and no index by ID. -/
theorem fails_for_ids_iff :
    (FailsForIds (m.buildInputs sys d outputArchive reuse) →
      unusedIds m.hasItoc (m.retainedIds sys fs root) < (m.newFiles d outputArchive).length) ↔
    ¬(RunsOut m d outputArchive reuse ∧
      (m.newFiles d outputArchive).length ≤ unusedIds m.hasItoc (m.retainedIds sys fs root)) := by
  rw [not_and, Nat.not_le]
  by_cases hqueue : m.hasItoc = true ∨ m.retainedIds sys fs root = []
  · refine iff_of_true (fun hfails => ?_) fun hruns => ?_
    · by_cases haccepted : m.Accepted sys fs root reuse
      · have hids : IdsStart sys fs root m := hqueue.imp_right .inl
        rw [← length_idQueue_of_itoc hqueue]
        exact ((failsForIds_iff haccepted hids).mp hfails).1
      · exact absurd hfails (not_failsForIds_of_not_accepted haccepted)
    · rcases hqueue with hitoc | hnone
      · rw [hruns.hasItoc] at hitoc
        cases hitoc
      · exact absurd hnone hruns.retains
  · obtain ⟨hitoc, hretains⟩ := not_or.mp hqueue
    rw [failsForIds_iff_runsOut (Bool.eq_false_of_not_eq_true hitoc) hretains]

/-- An entry with the last ID leaves no room for no new files. -/
theorem not_fails_for_ids : ¬∀ (sys : HostSystem) (fs : FileSystem) (root : PathBuf) (m : Manifest)
    (d : RootDirectory sys.host root fs) (outputArchive : PathBuf) (reuse : Bool),
    FailsForIds (m.buildInputs sys d outputArchive reuse) →
      unusedIds m.hasItoc (m.retainedIds sys fs root) < (m.newFiles d outputArchive).length := by
  intro hclaim
  let m := sampleRebuild [sampleEntry "a" maxId, sampleEntry "b" 7]
  have hnone : m.newFiles sampleRoot [0x6f] = [] := by
    refine List.eq_nil_iff_forall_not_mem.mpr fun names hnames => ?_
    have hknown := (mem_newFiles.mp hnames).2.2
    have hpaths : m.knownPaths sampleHost.host = [[0x61], [0x62]] := by decide +kernel
    rw [hpaths] at hknown
    rcases eq_of_mem_newFiles_sample hnames with rfl | rfl
    · exact absurd (hknown [0x61] (by simp)) (by decide +kernel)
    · exact absurd (hknown [0x62] (by simp)) (by decide +kernel)
  have hruns : RunsOut m sampleRoot [0x6f] false := by
    refine ⟨⟨fun h => absurd h (by decide), ?_⟩, rfl, by decide +kernel, .inl (by decide +kernel)⟩
    exact List.forall_mem_cons.mpr ⟨accepted_sampleEntry (.inl rfl) maxId,
      List.forall_mem_singleton.mpr (accepted_sampleEntry (.inr rfl) 7)⟩
  have hlt := hclaim sampleHost sampleTree [0x64] m sampleRoot [0x6f] false
    ((failsForIds_iff_runsOut rfl hruns.retains).mpr hruns)
  rw [hnone] at hlt
  exact absurd hlt (Nat.not_lt_zero _)

end Exhaustion

/-! ## Inputs and output -/

section Apart

variable {sys : HostSystem} {fs : FileSystem} {root : PathBuf}

/-- A file is an entry of the manifest. -/
def Manifest.IsEntry (m : Manifest) (sys : HostSystem) (names : List (List UInt8)) : Prop :=
  ∃ known ∈ m.knownPaths sys.host, samePath sys.host known (relativePath sys names) = true

/-- **The inputs are the files of the directory, without the output and the manifest.** A manifest
of the older version is only an input if it is an entry. -/
structure KeepsApart (m : Manifest) (d : RootDirectory sys.host root fs) (outputArchive : PathBuf)
    (inputs : List CpkInputFile) : Prop where
  notOutput : ∀ input ∈ inputs, resolvesTo sys input.sourcePath outputArchive = false
  notManifest : ∀ input ∈ inputs,
    resolvesTo sys input.sourcePath (Manifest.path sys.host root) = false
  complete : ∀ f ∈ d.files, resolvesTo sys (below sys.host root f.1) outputArchive = false →
    resolvesTo sys (below sys.host root f.1) (Manifest.path sys.host root) = false →
    (resolvesTo sys (below sys.host root f.1) (join sys.host root legacyManifestFileName) = true →
      m.IsEntry sys f.1) →
    ∃ input ∈ inputs, input.sourcePath = below sys.host root f.1

/-- **No entry that is still there is the output or the manifest.** -/
def EntriesApart (sys : HostSystem) (fs : FileSystem) (root : PathBuf) (m : Manifest)
    (outputArchive : PathBuf) : Prop :=
  ∀ entry ∈ m.presentEntries sys fs root, ∀ relative, entry.relative? sys.host = some relative →
    resolvesTo sys (join sys.host root relative) outputArchive = false ∧
      resolvesTo sys (join sys.host root relative) (Manifest.path sys.host root) = false

variable {m : Manifest} {d : RootDirectory sys.host root fs} {outputArchive : PathBuf}
  {reuse : Bool} {inputs : List CpkInputFile}

/-- The relative path of an entry is made of its names. -/
theorem relative?_eq_some {entry : ManifestEntry} {relative : PathBuf}
    (h : entry.relative? sys.host = some relative) :
    pathNames sys.host entry.directory entry.fileName ≠ [] ∧
      relative = (pathNames sys.host entry.directory entry.fileName).foldl (push sys.host) [] := by
  have hpath := safeRelativePath_of_relative? h
  rw [safeRelativePath_eq] at hpath
  split at hpath
  · split at hpath
    next => cases hpath
    next hne => exact ⟨hne, (Exec.ok.inj hpath).symm⟩
  · cases hpath

/-- A file of the directory that is an entry is still there. -/
theorem exists_presentEntry {f : List (List UInt8) × Unit} (hf : f ∈ d.files)
    (h : m.IsEntry sys f.1) :
    ∃ entry ∈ m.presentEntries sys fs root,
      entry.relative? sys.host = some (relativePath sys f.1) := by
  obtain ⟨known, hknown, hsame⟩ := h
  obtain ⟨entry, hentry, hrelative⟩ := List.mem_filterMap.mp hknown
  have hord := Directory.ordinary_of_mem_files hf
  have hne := Directory.ne_nil_of_mem_files hf
  obtain ⟨hnames, hpath⟩ := relative?_eq_some hrelative
  rw [hpath] at hsame
  have heq := eq_of_samePath_joined (fun v hv => plain_of_mem_pathNames hv) hnames hord hne hsame
  rw [heq, foldl_push_nil hord hne] at hpath
  subst hpath
  refine ⟨entry, List.mem_filter.mpr ⟨hentry, ?_⟩, hrelative⟩
  have hpresent := d.present f (d.files_eq ▸ hf)
  rw [ManifestEntry.isPresent, hrelative, Option.any_some, join_joined hord hne]
  exact Option.isSome_iff_ne_none.mpr hpresent

/-- What is related to an element of the left list. -/
theorem exists_of_mem_left {α β : Type} {R : α → β → Prop} {xs : List α} {ys : List β}
    (h : List.Forall₂ R xs ys) {x : α} (hx : x ∈ xs) : ∃ y ∈ ys, R x y := by
  induction h with
  | nil => cases hx
  | @cons a b _ _ hab _ ih =>
    rcases List.mem_cons.mp hx with rfl | hx
    · exact ⟨b, List.mem_cons_self, hab⟩
    · obtain ⟨y, hy, hR⟩ := ih hx
      exact ⟨y, List.mem_cons_of_mem _ hy, hR⟩

/-- The source of an input is an entry or a new file. -/
theorem exists_of_input {retained : List CpkInputFile} {names : List (List (List UInt8))}
    {added : List CpkInputFile} (h : RebuildPlan m d outputArchive retained names added)
    {input : CpkInputFile} (hinput : input ∈ retained ++ added) :
    (∃ entry ∈ m.presentEntries sys fs root, Retains sys root entry input) ∨
      isExcluded sys root outputArchive input.sourcePath = false := by
  rcases List.mem_append.mp hinput with hretained | hadded
  · exact .inl (exists_of_mem_left h.keeps.flip hretained)
  · obtain ⟨ns, hns, hpath, -⟩ := exists_of_mem_left h.adds.flip hadded
    rw [hpath]
    exact .inr ((h.mem_names ns).mp hns).2.1

/-- **When the output and the manifest are no inputs.**

**Proof sketch.** An input is a retained entry or a new file. The path of an entry is checked by
nothing, so that the condition on entries is needed; new files were filtered by `isExcluded`. For
completeness, a file of the directory that is an entry is retained, as its file is there, and any
other one is new. -/
theorem keeps_apart_iff (h : m.buildInputs sys d outputArchive reuse = .ok inputs) :
    KeepsApart m d outputArchive inputs ↔ EntriesApart sys fs root m outputArchive := by
  obtain ⟨retained, names, added, rfl, hplan⟩ := exists_rebuildPlan h
  constructor
  · intro hapart entry hentry relative hrelative
    obtain ⟨input, hinput, hretains⟩ := exists_of_mem_left hplan.keeps hentry
    obtain ⟨relative', hrelative', hsource⟩ := hretains.sourcePath
    obtain rfl := Option.some.inj (hrelative.symm.trans hrelative')
    rw [← hsource]
    have hmem : input ∈ retained ++ added := List.mem_append_left _ hinput
    exact ⟨hapart.notOutput input hmem, hapart.notManifest input hmem⟩
  · intro hentries
    have hsource : ∀ input ∈ retained ++ added,
        resolvesTo sys input.sourcePath outputArchive = false ∧
          resolvesTo sys input.sourcePath (Manifest.path sys.host root) = false := by
      intro input hinput
      rcases exists_of_input hplan hinput with ⟨entry, hentry, hretains⟩ | hexcluded
      · obtain ⟨relative, hrelative, hsource⟩ := hretains.sourcePath
        rw [hsource]
        exact hentries entry hentry relative hrelative
      · rw [isExcluded, Bool.or_eq_false_iff, Bool.or_eq_false_iff] at hexcluded
        exact ⟨hexcluded.2, hexcluded.1.1⟩
    refine ⟨fun input hinput => (hsource input hinput).1, fun input hinput => (hsource input hinput).2,
      fun f hf houtput hmanifest hlegacy => ?_⟩
    by_cases hentry : m.IsEntry sys f.1
    · obtain ⟨entry, hpresent, hrelative⟩ := exists_presentEntry hf hentry
      obtain ⟨input, hinput, hretains⟩ := exists_of_mem_left hplan.keeps hpresent
      obtain ⟨relative, hrelative', hpath⟩ := hretains.sourcePath
      obtain rfl := Option.some.inj (hrelative.symm.trans hrelative')
      exact ⟨input, List.mem_append_left _ hinput, hpath.trans (join_joined
        (Directory.ordinary_of_mem_files hf) (Directory.ne_nil_of_mem_files hf))⟩
    · have hnew : f.1 ∈ names := by
        refine (hplan.mem_names f.1).mpr ⟨List.mem_map_of_mem hf, ?_, fun known hknown => ?_⟩
        · rw [isExcluded, houtput, hmanifest, Bool.false_or, Bool.or_false]
          exact Bool.eq_false_of_not_eq_true fun hold => hentry (hlegacy hold)
        · exact Bool.eq_false_of_not_eq_true fun hsame => hentry ⟨known, hknown, hsame⟩
      obtain ⟨input, hinput, hpath, -⟩ := exists_of_mem_left hplan.adds hnew
      exact ⟨input, List.mem_append_right _ hinput, hpath⟩

/-- The file that is packed is the output of no rebuild that writes elsewhere. -/
theorem keeps_apart_iff_sample : ∃ inputs,
    (sampleRebuild [sampleEntry "a" 5]).buildInputs sampleHost sampleRoot [0x6f] false =
      .ok inputs ∧
    (KeepsApart (sampleRebuild [sampleEntry "a" 5]) sampleRoot [0x6f] inputs ↔
      EntriesApart sampleHost sampleTree [0x64] (sampleRebuild [sampleEntry "a" 5]) [0x6f]) := by
  obtain ⟨inputs, h⟩ := exists_sampleRebuild [0x6f]
  exact ⟨inputs, h, keeps_apart_iff h⟩

/-- An entry may be the output. -/
theorem not_keeps_apart : ¬∀ (sys : HostSystem) (fs : FileSystem) (root : PathBuf) (m : Manifest)
    (d : RootDirectory sys.host root fs) (outputArchive : PathBuf) (reuse : Bool)
    (inputs : List CpkInputFile), m.buildInputs sys d outputArchive reuse = .ok inputs →
      KeepsApart m d outputArchive inputs := by
  intro hclaim
  obtain ⟨inputs, h⟩ := exists_sampleRebuild [0x64, 0x2f, 0x61]
  have hapart := hclaim _ _ _ _ _ _ _ _ h
  obtain ⟨retained, names, added, rfl, hplan⟩ := exists_rebuildPlan h
  have hpresent : sampleEntry "a" 5 ∈
      (sampleRebuild [sampleEntry "a" 5]).presentEntries sampleHost sampleTree [0x64] := by
    decide +kernel
  obtain ⟨input, hinput, hretains⟩ := exists_of_mem_left hplan.keeps hpresent
  obtain ⟨relative, hrelative, hsource⟩ := hretains.sourcePath
  have hpath : (sampleEntry "a" 5).relative? sampleHost.host = some [0x61] := by decide +kernel
  obtain rfl := Option.some.inj (hpath.symm.trans hrelative)
  have houtput := hapart.notOutput input (List.mem_append_left _ hinput)
  rw [hsource] at houtput
  exact absurd houtput (by decide +kernel)

end Apart

end CriArchive
