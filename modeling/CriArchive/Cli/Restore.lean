import CriArchive.Cli.RoundTrip
import CriArchive.Cpk.Writer.Dependence

set_option relaxedAutoImplicit false
set_option autoImplicit false

/-!
# Directories that are put back

When an archive is unpacked whose entries stand for the files of a directory, that directory is
there again, below another path. Both ways of packing a directory, with and without a manifest, end
here.

## Main definitions

* `Stands` — an input stands for a file of a directory.
* `Restored` — a directory was put back.

## Main results

* `Written.restores` — unpacking a written archive puts the directory of its inputs back.
-/

namespace CriArchive

open StdPath CpkReader

/-! ## Names and paths -/

section Paths

variable {host : Host} {names : List (List UInt8)}

/-- The names of an entry whose components are names. -/
theorem pathNames_of_components {directory fileName : String}
    (h : pathComponents host directory fileName = names.map .normal) :
    pathNames host directory fileName = names := by
  rw [pathNames, namesOf, h, List.filterMap_map]
  exact List.filterMap_some

end Paths

/-! ## Paths of the manifest -/

section ManifestPaths

variable {host : Host}

/-- Bytes after the last name are written after all. -/
theorem render_append_normal (sep : Bool) (cs : List Component) (v w : List UInt8) :
    render sep (cs ++ [.normal (v ++ w)]) = render sep (cs ++ [.normal v]) ++ w := by
  induction cs generalizing sep with
  | nil => simp [render, Component.bytes]
  | cons c cs ih => simp only [List.cons_append, render, ih, List.append_assoc]

/-- A longer name makes a longer path. -/
theorem appendName_append (host : Host) (path v w : List UInt8) :
    appendName host path (v ++ w) = appendName host path v ++ w := by
  unfold appendName
  split
  · exact render_append_normal _ _ v w
  · split <;> simp

/-- The name of the manifest is an ordinary one. -/
theorem ordinary_manifestFileName (host : Host) : Ordinary host manifestFileName := by
  refine ⟨⟨by decide +kernel, by decide +kernel, by decide +kernel, ?_⟩, fun _ => by decide +kernel⟩
  cases host <;> decide +kernel

/-- The name of the temporary manifest. -/
def temporaryFileName : List UInt8 := manifestFileName ++ ".tmp".asBytes

/-- The name of the temporary manifest is an ordinary one. -/
theorem ordinary_temporaryFileName (host : Host) : Ordinary host temporaryFileName := by
  refine ⟨⟨by decide +kernel, by decide +kernel, by decide +kernel, ?_⟩, fun _ => by decide +kernel⟩
  cases host <;> decide +kernel

/-- One name below a path is appended to it. -/
theorem below_singleton (host : Host) (root : PathBuf) (v : List UInt8) :
    below host root [v] = appendName host root v := rfl

/-- The manifest and the temporary manifest are files of the directory. -/
theorem manifestPath_eq_below (host : Host) (root : PathBuf) :
    Manifest.path host root = below host root [manifestFileName] :=
  (ordinary_manifestFileName host).push_eq root

/-- The temporary manifest is a file below the root. -/
theorem temporaryPath_eq_below (host : Host) (root : PathBuf) :
    temporaryPath host root = below host root [temporaryFileName] := by
  rw [temporaryPath, manifestPath_eq_below, below_singleton, below_singleton, temporaryFileName,
    appendName_append]

end ManifestPaths

/-! ## Lists of inputs -/

section Extracting

/-- Relations between three lists. -/
theorem forall₂_trans {α β γ : Type} {R : α → β → Prop} {S : β → γ → Prop} {T : α → γ → Prop}
    {as : List α} {bs : List β} {cs : List γ} (hab : List.Forall₂ R as bs)
    (hbc : List.Forall₂ S bs cs) (h : ∀ a b c, R a b → S b c → T a c) : List.Forall₂ T as cs := by
  induction hab generalizing cs with
  | nil =>
    cases hbc
    exact .nil
  | cons hR _ ih =>
    cases hbc with
    | cons hS hbc => exact .cons (h _ _ _ hR hS) (ih hbc)

/-- What stands between two lists, one by one. -/
theorem exists_forall₂_middle {α β γ : Type} {P : α → γ → Prop} {Q : β → γ → Prop} {as : List α}
    {bs : List β} (h : List.Forall₂ (fun a b => ∃ c, P a c ∧ Q b c) as bs) :
    ∃ cs, List.Forall₂ P as cs ∧ List.Forall₂ Q bs cs := by
  induction h with
  | nil => exact ⟨[], .nil, .nil⟩
  | cons hab _ ih =>
    obtain ⟨c, hP, hQ⟩ := hab
    obtain ⟨cs, hPs, hQs⟩ := ih
    exact ⟨c :: cs, .cons hP hPs, .cons hQ hQs⟩

variable {fs : FileSystem} {path : P5RPath} {files : List CpkInputFile}
  {options : CpkWriterOptions} {profile : CpkWriterProfile} {report : CpkWriteReport}
  {bytes : List UInt8}

/-- Every input of a written archive has a payload. -/
theorem Written.exists_payload (w : Written fs path files options profile report bytes)
    {f : CpkInputFile} (hf : f ∈ files) :
    ∃ payload, emittedPayload fs path options.p5rEncryption f = .ok payload :=
  (w.exists_emits hf).imp fun _ hemits => hemits.1

end Extracting

/-! ## A directory put back -/

section Restore

/-- **A directory was put back below another path:** the files that were collected have their
contents, the manifest has one record for each of them, and nothing else is there or has changed. A
file with the name of the temporary manifest is not kept. -/
structure Restored (sys : HostSystem) (root target : PathBuf)
    (collected : List (List (List UInt8))) (before between after : FileSystem) : Prop where
  contents : ∀ names ∈ collected, names ≠ [temporaryFileName] →
    after (below sys.host target names) = before (below sys.host root names)
  nothingElse : ∀ names, names ≠ [] → (∀ v ∈ names, Ordinary sys.host v) →
    after (below sys.host target names) ≠ none → names = [manifestFileName] ∨ names ∈ collected
  frame : ∀ p, (∀ names, names ≠ [] → (∀ v ∈ names, Ordinary sys.host v) →
    p ≠ below sys.host target names) → after p = between p
  recorded : ∃ m, Manifest.read sys after target = .ok (some m) ∧
    (m.entries.map fun e => pathNames sys.host e.directory e.fileName).Perm collected

variable {sys : HostSystem}

/-- The order of the files does not matter. -/
theorem Restored.perm {root target : PathBuf} {files files' : List (List (List UInt8))}
    {before between after : FileSystem} (h : Restored sys root target files before between after)
    (hperm : files.Perm files') : Restored sys root target files' before between after := by
  obtain ⟨m, hread, hrecords⟩ := h.recorded
  exact ⟨fun names hnames => h.contents names (hperm.mem_iff.mpr hnames),
    fun names hne hord hfile => (h.nothingElse names hne hord hfile).imp_right hperm.mem_iff.mp,
    h.frame, m, hread, hrecords.trans hperm⟩

/-- The names of the records are those of the entries. -/
theorem map_pathNames_records (host : Host) (index : ℕ) {entries : List CpkFile}
    {contents : List (List UInt8 × List UInt8)} (h : contents.length = entries.length) :
    ((records index entries contents).map fun e => pathNames host e.directory e.fileName) =
      entries.map fun e => pathNames host e.directory e.fileName := by
  have hzip : (entries.zip contents).map Prod.fst = entries :=
    List.map_fst_zip (h.symm ▸ le_refl _)
  unfold records
  rw [List.map_map]
  calc ((entries.zip contents).zipIdx index).map _
      = (((entries.zip contents).zipIdx index).map Prod.fst).map
          fun x => pathNames host x.1.directory x.1.fileName := by
        rw [List.map_map]
        rfl
    _ = ((entries.zip contents).map Prod.fst).map
          fun e => pathNames host e.directory e.fileName := by
        rw [List.zipIdx_map_fst, List.map_map]
        rfl
    _ = _ := by rw [hzip]

/-- What a path holds after files were unpacked: the manifest, nothing at the temporary path, the
content of a file with that path, or what it held before. -/
theorem unpackedFiles_cases (sys : HostSystem) (target : PathBuf) (fs : FileSystem)
    {files : List (List (List UInt8))} {contents : List (List UInt8 × List UInt8)} (m : Manifest)
    (h : contents.length = files.length) {p : PathBuf} (hm : p ≠ Manifest.path sys.host target)
    (ht : p ≠ temporaryPath sys.host target) :
    (∃ x ∈ files.zip contents, below sys.host target x.1 = p ∧
      unpackedFiles sys target fs (files.map (below sys.host target)) contents m p = some x.2.2) ∨
    ((∀ names ∈ files, below sys.host target names ≠ p) ∧
      unpackedFiles sys target fs (files.map (below sys.host target)) contents m p = fs p) := by
  rw [unpackedFiles, Function.update_of_ne hm, Function.update_of_ne ht]
  obtain ⟨w, hw, heq, hval⟩ | ⟨hnone, hval⟩ :=
    writtenTo_cases fs (files.map (below sys.host target)) contents p
  · rw [List.zip_map_left, List.mem_map] at hw
    obtain ⟨x, hx, rfl⟩ := hw
    exact .inl ⟨x, hx, heq, hval⟩
  · refine .inr ⟨fun names hnames => ?_, hval⟩
    obtain ⟨i, hi⟩ := List.mem_iff_getElem?.mp hnames
    obtain ⟨c, hc⟩ : ∃ c, contents[i]? = some c :=
      ⟨_, List.getElem?_eq_getElem (h ▸ (List.getElem?_eq_some_iff.mp hi).1)⟩
    refine hnone (below sys.host target names, c) ?_
    rw [List.zip_map_left, List.mem_map]
    refine ⟨(names, c), List.mem_iff_getElem?.mpr ⟨i, ?_⟩, rfl⟩
    rw [List.getElem?_zip_eq_some]
    exact ⟨hi, hc⟩

/-- A file that is not refused for its path is not the manifest. -/
theorem ne_manifest_of_reserved {target : PathBuf} {names : List (List UInt8)}
    (h : samePath sys.host (below sys.host target names) (Manifest.path sys.host target) = false) :
    names ≠ [manifestFileName] := by
  rintro rfl
  rw [← manifestPath_eq_below, samePath_self] at h
  cases h

/-- Files of a directory: their paths are made of names that are kept apart, and none of them is the
manifest. -/
structure Listed (sys : HostSystem) (names : List (List UInt8)) : Prop where
  ne_nil : names ≠ []
  ordinary : ∀ v ∈ names, Ordinary sys.host v
  notManifest : names ≠ [manifestFileName]

/-- **Unpacked files put a directory back**, when each is written to the path of its names.

**Proof sketch.** A path below the target is the manifest, the temporary manifest, the path of an
entry or unchanged (`unpackedFiles_cases`). Different names have different paths
(`below_injective`), so that a file holds the content of its own names, and what is there was
collected or is the manifest. -/
theorem restored_unpackedFiles {root target : PathBuf} {before between : FileSystem}
    {files : List (List (List UInt8))} {contents : List (List UInt8 × List UInt8)} {m : Manifest}
    (hlisted : ∀ names ∈ files, Listed sys names)
    (hcontents : List.Forall₂ (fun names c => before (below sys.host root names) = some c.2) files
      contents)
    (hempty : EmptyBelow sys.host target between) (hconsistent : m.Consistent)
    (hrecords : (m.entries.map fun e => pathNames sys.host e.directory e.fileName).Perm files) :
    Restored sys root target files before between
      (unpackedFiles sys target between (files.map (below sys.host target)) contents m) := by
  have hlen : contents.length = files.length := hcontents.length_eq.symm
  have hzip : ∀ x ∈ files.zip contents, x.1 ∈ files ∧
      before (below sys.host root x.1) = some x.2.2 := fun x hx =>
    ⟨(List.of_mem_zip hx).1, List.forall₂_zip hcontents hx⟩
  have hone : ∀ {v : List UInt8}, Ordinary sys.host v → ∀ w ∈ [v], Ordinary sys.host w :=
    fun hv w hw => List.mem_singleton.mp hw ▸ hv
  -- the paths of different names are different
  have hpath : ∀ {names : List (List UInt8)} {v : List UInt8}, names ≠ [] →
      (∀ w ∈ names, Ordinary sys.host w) → Ordinary sys.host v → names ≠ [v] →
        below sys.host target names ≠ below sys.host target [v] := by
    intro names v hnil hnames hv hdiff hsame
    exact hdiff (below_injective hnames (hone hv) hnil (List.cons_ne_nil _ _) hsame)
  have hcases : ∀ {names : List (List UInt8)}, names ≠ [] →
      (∀ w ∈ names, Ordinary sys.host w) → names ≠ [manifestFileName] →
      names ≠ [temporaryFileName] → _ := fun {names} hnil hnames hm ht =>
    unpackedFiles_cases (p := below sys.host target names) sys target between m hlen
      (manifestPath_eq_below sys.host target ▸
        hpath hnil hnames (ordinary_manifestFileName sys.host) hm)
      (temporaryPath_eq_below sys.host target ▸
        hpath hnil hnames (ordinary_temporaryFileName sys.host) ht)
  refine ⟨fun names hnames htemporary => ?_, fun names hnil hnames hfile => ?_, fun p hp => ?_,
    ⟨_, read_unpackedFiles sys target between _ _ hconsistent, hrecords⟩⟩
  · obtain ⟨hnil, hord, hm⟩ := hlisted names hnames
    obtain ⟨x, hx, heq, hval⟩ | ⟨hnone, -⟩ := hcases hnil hord hm htemporary
    · obtain ⟨hmem, hcontent⟩ := hzip x hx
      have hx' := hlisted _ hmem
      have hsame := below_injective hx'.ordinary hord hx'.ne_nil hnil heq
      rw [hval, ← hcontent, hsame]
    · exact absurd rfl (hnone names hnames)
  · by_cases hm : names = [manifestFileName]
    · exact .inl hm
    have ht : names ≠ [temporaryFileName] := by
      rintro rfl
      rw [← temporaryPath_eq_below, unpackedFiles,
        Function.update_of_ne (temporaryPath_ne sys target), Function.update_self] at hfile
      exact hfile rfl
    obtain ⟨x, hx, heq, -⟩ | ⟨-, hval⟩ := hcases hnil hnames hm ht
    · have hmem := (hzip x hx).1
      have hx' := hlisted _ hmem
      exact .inr (below_injective hx'.ordinary hnames hx'.ne_nil hnil heq ▸ hmem)
    · rw [hval, hempty names hnil fun v hv => (hnames v hv).toPlain] at hfile
      exact absurd rfl hfile
  · obtain ⟨x, hx, heq, -⟩ | ⟨-, hval⟩ := unpackedFiles_cases sys target between m hlen
      (manifestPath_eq_below sys.host target ▸ hp _ (List.cons_ne_nil _ _)
        (hone (ordinary_manifestFileName sys.host)))
      (temporaryPath_eq_below sys.host target ▸ hp _ (List.cons_ne_nil _ _)
        (hone (ordinary_temporaryFileName sys.host)))
    · have hx' := hlisted _ (hzip x hx).1
      exact absurd heq.symm (hp _ hx'.ne_nil hx'.ordinary)
    · exact hval

/-- **An input stands for a file of a directory:** it carries the content of the file, and its
strings give the names of the file, of which none is refused. -/
structure Stands (sys : HostSystem) (root target : PathBuf) (before fs : FileSystem)
    (path : P5RPath) (p5r p5r' : Bool) (names : List (List UInt8)) (input : CpkInputFile) : Prop where
  listed : Listed sys names
  fileName : input.fileName ≠ ""
  strings : input.directory.NulFree ∧ input.fileName.NulFree
  kept : (pathComponents sys.host input.directory input.fileName).all kept = true
  pathNames : pathNames sys.host input.directory input.fileName = names
  reserved : samePath sys.host (below sys.host target names) (Manifest.path sys.host target) = false
  carries : ∃ packed content, before (below sys.host root names) = some content ∧
    Carries fs path p5r p5r' input (packed, content)

variable {fs before between : FileSystem} {path : P5RPath} {inputs : List CpkInputFile}
  {options : CpkWriterOptions} {profile : CpkWriterProfile} {report : CpkWriteReport}
  {bytes : List UInt8} {root target archive : PathBuf} {files : List (List (List UInt8))}

/-- **Unpacking a written archive puts the directory of its inputs back**, with a manifest of the
archive whose records are those of the inputs, in order.

**Proof sketch.** The contents are those that the payloads carry. `Written.extractAll_toc` extracts
them from the archive, in the order of the inputs; each entry has the names of its input and is
written to their path. `restored_unpackedFiles` says that this puts the directory back. -/
theorem Written.unpacked (w : Written fs path inputs options profile report bytes)
    (htoc : profile.indexMode.hasToc = true)
    (h32 : ∀ table, w.plan.tocTable = some table → table.length < 2 ^ 32) {p5r' : Bool}
    (hinputs : List.Forall₂ (Stands sys root target before fs path options.p5rEncryption p5r') files
      inputs)
    (harchive : between archive = some bytes) (hempty : EmptyBelow sys.host target between)
    (shiftJis : List UInt8 → String) (path' : P5RPath) (p5r : Bool) (slab heap : ℕ → UInt8) :
    ∃ after entries contents m, unpackWith sys shiftJis (decryptorFor p5r' path') archive target p5r
        slab heap between = (.ok (), after) ∧ Restored sys root target files before between after ∧
      List.Forall₂ (fun f e => ∃ rel o, e = tocEntry f rel o) inputs entries ∧
      contents.length = entries.length ∧ Manifest.read sys after target = .ok (some m) ∧
      m = manifestOf (sys.lossy (sys.absolutePath archive)).asBytes
        (UInt64.ofNat bytes.length, hashBytes bytes) w.metadata p5r (records 0 entries contents) := by
  -- the contents, beside the files and beside the inputs
  obtain ⟨contents, hfiles, hcontents⟩ := exists_forall₂_middle
    (P := fun names (c : List UInt8 × List UInt8) => before (below sys.host root names) = some c.2)
    (Q := Carries fs path options.p5rEncryption p5r') (hinputs.imp fun names input h => by
      obtain ⟨packed, content, hfile, hcarries⟩ := h.carries
      exact ⟨(packed, content), hfile, hcarries⟩)
  have hfileNames : ∀ input ∈ inputs, input.fileName ≠ "" := by
    intro input hinput
    obtain ⟨names, -, hstands⟩ := exists_of_mem_left hinputs.flip hinput
    exact hstands.fileName
  obtain ⟨entries, cpk, hread, hm, hentries, hextract⟩ := w.extractAll_toc shiftJis htoc hfileNames
    h32 path' hcontents (r := CpkReader.new bytes 0 slab heap) rfl rfl
  -- an entry is extracted to the names of its file
  have hpaths : List.Forall₂ (fun e names => Destination sys target e (below sys.host target names) ∧
      pathNames sys.host e.directory e.fileName = names) entries files := by
    refine (forall₂_trans hinputs hentries fun names input e hstands hentry => ?_).flip
    obtain ⟨rel, o, rfl⟩ := hentry
    obtain ⟨hdirectory, hfileName⟩ := hstands.strings
    have hdir : (tocEntry input rel o).directory = input.directory :=
      String.nulPrefix_of_nulFree hdirectory
    have hname : (tocEntry input rel o).fileName = input.fileName :=
      String.nulPrefix_of_nulFree hfileName
    have hpath : safeOutputPath sys.host target input.directory input.fileName =
        .ok (below sys.host target names) := by
      rw [safeOutputPath_eq, if_pos hstands.kept, hstands.pathNames,
        below_eq_foldl hstands.listed.ordinary]
    rw [← hdir, ← hname] at hpath
    refine ⟨⟨hpath, hstands.reserved⟩, ?_⟩
    rw [hdir, hname]
    exact hstands.pathNames
  have hdestinations : List.Forall₂ (Destination sys target) entries
      (files.map (below sys.host target)) :=
    List.forall₂_map_right_iff.mpr (hpaths.imp fun e names h => h.1)
  have hnames : entries.map (fun e => pathNames sys.host e.directory e.fileName) = files := by
    rw [← List.forall₂_eq_eq_eq, List.forall₂_map_left_iff]
    exact hpaths.imp fun e names h => h.2
  have hcount : entries.length ≤ 2 ^ 32 := by
    rw [← hentries.length_eq, ← w.planned.fileCount]
    exact Nat.le_of_lt w.plan.fileCount.toNat_lt
  have hrecords := (map_pathNames_records sys.host 0 (hcontents.length_eq.symm.trans
    hentries.length_eq)).trans hnames
  have hconsistent := consistent_manifestOf hread hm (sys.absolutePath archive)
    (UInt64.ofNat bytes.length, hashBytes bytes) p5r (records 0 entries contents)
  refine ⟨_, entries, contents, _, unpackWith_eq_ok.mpr ⟨bytes, entries, cpk, w.metadata, contents, _,
    harchive, hread, hm, hextract, hdestinations, fun _ => hcount, rfl⟩, ?_, hentries,
    hcontents.length_eq.symm.trans hentries.length_eq, read_unpackedFiles sys target between _ contents
      hconsistent, rfl⟩
  refine restored_unpackedFiles (fun names hnames => ?_) hfiles hempty hconsistent
    (List.Perm.of_eq hrecords)
  obtain ⟨input, -, hstands⟩ := exists_of_mem_left hinputs hnames
  exact hstands.listed

/-- **Unpacking a written archive puts the directory of its inputs back.** -/
theorem Written.restores (w : Written fs path inputs options profile report bytes)
    (htoc : profile.indexMode.hasToc = true)
    (h32 : ∀ table, w.plan.tocTable = some table → table.length < 2 ^ 32) {p5r' : Bool}
    (hinputs : List.Forall₂ (Stands sys root target before fs path options.p5rEncryption p5r') files
      inputs)
    (harchive : between archive = some bytes) (hempty : EmptyBelow sys.host target between)
    (shiftJis : List UInt8 → String) (path' : P5RPath) (p5r : Bool) (slab heap : ℕ → UInt8) :
    ∃ after, unpackWith sys shiftJis (decryptorFor p5r' path') archive target p5r slab heap between =
        (.ok (), after) ∧ Restored sys root target files before between after := by
  obtain ⟨after, -, -, -, hunpack, hrestored, -⟩ := w.unpacked htoc h32 hinputs harchive hempty
    shiftJis path' p5r slab heap
  exact ⟨after, hunpack, hrestored⟩

end Restore

end CriArchive
