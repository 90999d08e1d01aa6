import CriArchive.Cli.Restore

set_option relaxedAutoImplicit false
set_option autoImplicit false

/-!
# Packing a directory and unpacking it

`pack_directory` turns a directory into an archive, `unpack_with` turns the archive into a
directory again. Names pass through the strings of a table of contents and contents through the
payloads; what comes out is the directory that went in.

## Main definitions

* `FromNames` — the input of a file that is known by its names.
* `Transportable` — a file whose names and content survive in an archive.

## Main results

* `collectFiles_eq_ok` — the inputs of a directory are those of its files.
* `pathComponents_fromNames` — the names of an entry are those it was packed under.
* `pack_unpack_directory` — a directory that was packed is restored by unpacking.
-/

namespace CriArchive

open StdPath CpkReader

/-! ## Inputs of a directory -/

/-- The input of a file that is known by its names: the directory and the name are texts of
them. -/
structure FromNames (root : PathBuf) (host : Host) (names : List (List UInt8))
    (input : CpkInputFile) : Prop where
  directory : input.directory.asBytes = joined 0x2f names.dropLast
  fileName : input.fileName.asBytes = names.getLastD []
  sourcePath : input.sourcePath = below host root names
  userString : input.userString = ""
  rawPayload : input.rawPayload = none
  extractSize : input.extractSize = input.size

section Inputs

variable {host : Host} {root : PathBuf} {isOutput : PathBuf → Bool} {d : Directory host UInt64}

/-- The input of a file that was found has its names. -/
theorem fromNames_of_toInput {f : List (List UInt8) × UInt64} {input : CpkInputFile}
    (h : (foundFile host root isOutput f).toInput = .ok input) :
    FromNames root host f.1 input := by
  obtain ⟨fileName, hname, h⟩ := Exec.bind_eq_ok.mp h
  obtain ⟨directory, hdirectory, h⟩ := Exec.bind_eq_ok.mp h
  obtain ⟨size, -, h⟩ := Exec.bind_eq_ok.mp h
  obtain rfl := Exec.ok.inj h
  exact ⟨(pathToCriString_eq_ok hdirectory).2, Utf8.decode_eq_some (Exec.okOr_eq_ok.mp hname), rfl,
    rfl, rfl, rfl⟩

/-- The input of a file that was collected has its names. -/
theorem fromNames_of_collected {f : List (List UInt8) × UInt64} {input : CpkInputFile}
    (h : collected host root isOutput f = some input) : FromNames root host f.1 input :=
  fromNames_of_toInput (Exec.value?_eq_some.mp (Option.ite_none_right_eq_some.mp h).2)

/-- Only the ID of an input is changed when it is numbered. -/
theorem FromNames.numbered {names : List (List UInt8)} {input : CpkInputFile}
    (h : FromNames root host names input) (id : UInt32) :
    FromNames root host names { input with id } :=
  ⟨h.directory, h.fileName, h.sourcePath, h.userString, h.rawPayload, h.extractSize⟩

/-- Numbering changes nothing but the IDs. -/
theorem forall₂_numbered (index : ℕ) (files : List CpkInputFile) :
    List.Forall₂ (fun f g => ∃ id, g = { f with id }) files (numbered index files) := by
  induction files generalizing index with
  | nil => exact .nil
  | cons f files ih => exact .cons ⟨_, rfl⟩ (ih (index + 1))

/-- What is left by a filter, beside what is made of it. -/
theorem forall₂_filterMap_filter {α β : Type} {p : α → Bool} {g : α → Option β} {l : List α}
    (h : ∀ a ∈ l, p a = true ↔ (g a).isSome = true) :
    List.Forall₂ (fun b a => g a = some b) (l.filterMap g) (l.filter p) := by
  induction l with
  | nil => exact .nil
  | cons a l ih =>
    have hl := ih fun b hb => h b (List.mem_cons_of_mem _ hb)
    have ha := h a List.mem_cons_self
    rcases hga : g a with _ | b
    · rw [hga] at ha
      rw [List.filterMap_cons_none hga, List.filter_cons_of_neg (by simp [ha])]
      exact hl
    · rw [hga] at ha
      rw [List.filterMap_cons_some hga, List.filter_cons_of_pos (ha.mpr rfl)]
      exact .cons hga hl

/-- **The inputs of a directory** are those of the files that are collected, in some order.

**Proof sketch.** That the files are collected means that all can be packed and are not too many.
Each is then turned into its input, sorted and numbered; the sort is a permutation of both lists
side by side, and the number changes no name. -/
theorem collectFiles_eq_ok {inputs : List CpkInputFile}
    (h : collectFiles (d.found host root isOutput) = .ok inputs) :
    ∃ files : List (List (List UInt8) × UInt64),
      files.Perm (d.files.filter (isCollected host root isOutput)) ∧
        List.Forall₂ (fun f input => FromNames root host f.1 input) files inputs := by
  have hall : AllPackable host root isOutput d := by
    intro f hf hcollected
    by_contra hnot
    exact collectFiles_found_ne_ok (.inl ⟨f, hf, hcollected, Bool.eq_false_of_not_eq_true hnot⟩) h
  have hcount : (d.files.filter (isCollected host root isOutput)).length ≤ 2 ^ 32 := by
    by_contra hnot
    exact collectFiles_found_ne_ok (.inr (Nat.lt_of_not_le hnot)) h
  obtain rfl := Exec.ok.inj ((collectFiles_found hall hcount).symm.trans h)
  -- each input is that of its file, before the sort and after it
  have hinputs : List.Forall₂ (fun input f => collected host root isOutput f = some input)
      (d.files.filterMap (collected host root isOutput))
      (d.files.filter (isCollected host root isOutput)) := by
    refine forall₂_filterMap_filter fun f hf => ?_
    constructor
    · intro hcollected
      obtain ⟨input, hinput⟩ := exists_collected hall hf hcollected
      exact Option.isSome_of_eq_some hinput
    · intro hsome
      obtain ⟨input, hinput⟩ := Option.isSome_iff_exists.mp hsome
      exact (collected_eq_some hf hinput).1
  obtain ⟨files, hfiles, hperm⟩ := List.perm_comp_forall₂ (List.mergeSort_perm _ comesFirst) hinputs
  refine ⟨files, hperm, ?_⟩
  have hnumbered := forall₂_numbered 0
    ((d.files.filterMap (collected host root isOutput)).mergeSort comesFirst)
  refine forall₂_trans hfiles.flip hnumbered fun f input numbered hinput hnumber => ?_
  obtain ⟨id, rfl⟩ := hnumber
  exact (fromNames_of_collected hinput).numbered id

end Inputs

/-! ## Paths of entries -/

section Paths

variable {host : Host} {root : PathBuf} {names : List (List UInt8)} {input : CpkInputFile}

/-- Names that an archive keeps apart: a backslash would separate two of them, and a `NUL` would
end the string. -/
def Writable (names : List (List UInt8)) : Prop := ∀ v ∈ names, (0x5c : UInt8) ∉ v ∧ (0 : UInt8) ∉ v

/-- What is in no name is not in the joined names. -/
theorem not_mem_joined {b : UInt8} (hsep : b ≠ 0x2f) (h : ∀ v ∈ names, b ∉ v) :
    b ∉ joined 0x2f names := by
  cases names with
  | nil => exact List.not_mem_nil
  | cons v vs =>
    obtain ⟨hv, hvs⟩ := List.forall_mem_cons.mp h
    rw [joined, List.mem_append, List.mem_flatMap, not_or]
    refine ⟨hv, fun hex => ?_⟩
    obtain ⟨w, hw, hmem⟩ := hex
    rcases List.mem_cons.mp hmem with rfl | hmem
    · exact hsep rfl
    · exact hvs w hw hmem

/-- A text without backslashes is a path as it is. -/
theorem withSlashes_eq {s : String} (h : (0x5c : UInt8) ∉ s.asBytes) : withSlashes s = s.asBytes := by
  have hkeeps : ∀ b ∈ s.asBytes, (if b = 0x5c then 0x2f else b) = id b := by
    intro b hb
    rw [if_neg (ne_of_mem_of_not_mem hb h), id]
  rw [withSlashes, List.map_congr_left hkeeps, List.map_id]

/-- **The names of an entry** are those that it was packed under. -/
theorem pathComponents_fromNames (h : FromNames root host names input)
    (hord : ∀ v ∈ names, Ordinary host v) (hne : names ≠ []) (hwritable : Writable names) :
    pathComponents host input.directory input.fileName = names.map .normal := by
  have hsep : host.isSep 0x2f = true := by cases host <;> decide
  have hsplit : names = names.dropLast ++ [names.getLastD []] := by
    rw [getLastD_eq_getLast hne, List.dropLast_append_getLast hne]
  have hlast : names.getLastD [] ∈ names := by
    rw [getLastD_eq_getLast hne]
    exact List.getLast_mem hne
  have hparents : ∀ v ∈ names.dropLast, v ∈ names := fun v hv => List.dropLast_subset _ hv
  have hdirectory : (0x5c : UInt8) ∉ input.directory.asBytes := by
    rw [h.directory]
    exact not_mem_joined (by decide) fun v hv => (hwritable v (hparents v hv)).1
  have hfileName : (0x5c : UInt8) ∉ input.fileName.asBytes := by
    rw [h.fileName]
    exact (hwritable _ hlast).1
  have hname : input.fileName.asBytes = joined 0x2f [names.getLastD []] := by
    rw [h.fileName, joined, List.flatMap_nil, List.append_nil]
  rw [pathComponents, withSlashes_eq hdirectory, withSlashes_eq hfileName, h.directory, hname,
    components_joined_sep hsep fun v hv => hord v (hparents v hv),
    components_joined_sep hsep fun v hv => hord v (List.mem_singleton.mp hv ▸ hlast),
    ← List.map_append, ← hsplit]

/-- The strings of the input have no `NUL`. -/
theorem nulFree_fromNames (h : FromNames root host names input) (hne : names ≠ [])
    (hwritable : Writable names) : input.directory.NulFree ∧ input.fileName.NulFree := by
  rw [String.nulFree_iff, String.nulFree_iff, h.directory, h.fileName, getLastD_eq_getLast hne]
  exact ⟨not_mem_joined (by decide) fun v hv => (hwritable v (List.dropLast_subset _ hv)).2,
    (hwritable _ (List.getLast_mem hne)).2⟩

end Paths

/-! ## Contents -/

section Contents

variable {fs : FileSystem} {path : P5RPath}

/-- A file without user string is packed as it is. -/
theorem transformIf_empty (p5r : Bool) (content : List UInt8) :
    transformIf p5r "" content = content := by
  have hne : ("" == P5R.encryptedUserString) = false := by decide
  rw [transformIf, hne, Bool.and_false, if_neg Bool.false_ne_true]

/-- The payload of a file without user string is its content. -/
theorem fs_of_emittedPayload {p5r : Bool} {f : CpkInputFile} {payload : List UInt8}
    (hraw : f.rawPayload = none) (huser : f.userString = "")
    (h : emittedPayload fs path p5r f = .ok payload) : fs f.sourcePath = some payload := by
  rcases hfile : fs f.sourcePath with _ | content
  · rw [emittedPayload_eq_ok, sourcePayload, hraw] at h
    dsimp only at h
    rw [readFile, hfile] at h
    split_ifs at h <;> cases h
  · have hcontent := emittedPayload_rebuilt path p5r hraw hfile
    rw [huser, transformIf_empty] at hcontent
    rw [Exec.ok.inj (hcontent.symm.trans h)]

end Contents

/-! ## A directory put back -/

section Restore

/-- A file that survives in an archive: its names stay apart, what it holds does not look
compressed, and it is neither the output nor, below the new directory, the manifest. -/
structure Transportable (sys : HostSystem) (root outputFile target : PathBuf) (fs : FileSystem)
    (names : List (List UInt8)) : Prop where
  writable : Writable names
  plain : ∀ content, fs (below sys.host root names) = some content →
    LaylaDecompressor.isCompressed content = .ok false
  notOutput : below sys.host root names ≠ outputFile
  notManifest : samePath sys.host (below sys.host target names) (Manifest.path sys.host target) = false

variable {sys : HostSystem} {path path' : P5RPath} {seen : List UInt8} {root outputFile target : PathBuf}
  {isOutput : PathBuf → Bool} {d : Directory sys.host UInt64} {options : CpkWriterOptions}
  {fs fs₁ : FileSystem} {report : CpkWriteReport}

/-- The names of the files that are collected from a directory. -/
def Directory.collectedNames (d : Directory sys.host UInt64) (root : PathBuf)
    (isOutput : PathBuf → Bool) : List (List (List UInt8)) :=
  (d.files.filter (isCollected sys.host root isOutput)).map Prod.fst

/-- The input of a file that survives stands for it. -/
theorem stands_of_fromNames {inputs : List CpkInputFile} {profile : CpkWriterProfile}
    {bytes : List UInt8} {p5r' : Bool}
    (w : Written (Function.update fs outputFile (some seen)) path inputs options profile report bytes)
    {names : List (List UInt8)} (hne : names ≠ []) (hord : ∀ v ∈ names, Ordinary sys.host v)
    {input : CpkInputFile} (hnames : FromNames root sys.host names input) (hinput : input ∈ inputs)
    (h : Transportable sys root outputFile target fs names) :
    Stands sys root target fs (Function.update fs outputFile (some seen)) path
      options.p5rEncryption p5r' names input := by
  have hcomponents := pathComponents_fromNames hnames hord hne h.writable
  obtain ⟨payload, hpayload⟩ := w.exists_payload hinput
  have hfile := fs_of_emittedPayload hnames.rawPayload hnames.userString hpayload
  rw [hnames.sourcePath, Function.update_of_ne h.notOutput] at hfile
  refine ⟨⟨hne, hord, ne_manifest_of_reserved h.notManifest⟩, fun hempty => ?_,
    nulFree_fromNames hnames hne h.writable, ?_, pathNames_of_components hcomponents, h.notManifest,
    payload, payload, hfile, hpayload, ?_⟩
  · have hbytes := hnames.fileName
    rw [hempty, getLastD_eq_getLast hne] at hbytes
    exact (hord _ (List.getLast_mem hne)).ne_nil hbytes.symm
  · rw [hcomponents, List.all_map]
    exact List.all_eq_true.mpr fun v _ => rfl
  · have hplain : transformIf p5r' "".nulPrefix payload = payload := transformIf_empty p5r' payload
    dsimp only
    rw [hnames.userString, hplain]
    exact inflate_plain (h.plain payload hfile)

/-- A pack of a directory that returned has written an archive of what it collected. -/
theorem packDirectory_eq_ok {found : List (Exec Error FoundFile)} :
    packDirectory path outputFile seen found options fs = (.ok report, fs₁) ↔
      ∃ files out, gatherFiles found options = .ok files ∧
        writeWithProfile (Function.update fs outputFile (some seen)) path files options .default
          ⟨[], 0⟩ = (.ok report, out) ∧
        fs₁ = Function.update fs outputFile (some out.bytes) := by
  rw [packDirectory]
  simp only [ExecM.bind_eq_ok, ExecM.lift_eq_ok, packFiles, packFilesWithProfile, Prod.mk.injEq]
  constructor
  · rintro ⟨files, _, ⟨hfiles, rfl⟩, hreport, rfl⟩
    exact ⟨files, _, hfiles, Prod.ext hreport rfl, rfl⟩
  · rintro ⟨files, out, hfiles, hwrite, rfl⟩
    exact ⟨files, fs, ⟨hfiles, rfl⟩, congrArg Prod.fst hwrite, by rw [hwrite]⟩

/-- The files that are gathered are those that are collected. -/
theorem collectFiles_of_gatherFiles {found : List (Exec Error FoundFile)}
    {files : List CpkInputFile} (h : gatherFiles found options = .ok files) :
    collectFiles found = .ok files := by
  unfold gatherFiles at h
  simp only [Exec.bind_eq_ok, Exec.pure_eq, Exec.ok.injEq] at h
  obtain ⟨-, -, files', hfiles, -, -, rfl⟩ := h
  exact hfiles

/-- **A directory that was packed is restored by unpacking**, whatever the options of both
commands.

**Proof sketch.** `packDirectory_eq_ok` splits the command into the walk, the inputs and the written
archive, and `collectFiles_eq_ok` gives each input from the name of its file
(`stands_of_fromNames`). The extraction of a written archive restores each input's contents
(`Written.restores`), and the files outside the inputs' names are the excluded ones. -/
theorem pack_unpack_directory
    (hpack : packDirectory path outputFile seen (d.found sys.host root isOutput) options fs =
      (.ok report, fs₁))
    (hfiles : ∀ names ∈ d.collectedNames root isOutput,
      Transportable sys root outputFile target fs names)
    (h32 : ∀ files plan, collectFiles (d.found sys.host root isOutput) = .ok files →
      planArchive files options .default = .ok plan →
        ∀ table ∈ plan.tables, table.length < 2 ^ 32)
    (hempty : EmptyBelow sys.host target fs₁) (shiftJis : List UInt8 → String) (p5r p5r' : Bool)
    (slab heap : ℕ → UInt8) :
    ∃ fs₂, unpackWith sys shiftJis (decryptorFor p5r' path') outputFile target p5r slab heap fs₁ =
        (.ok (), fs₂) ∧
      Restored sys root target (d.collectedNames root isOutput) fs fs₁ fs₂ := by
  obtain ⟨inputs, out, hgather, hwrite, rfl⟩ := packDirectory_eq_ok.mp hpack
  have hcollect := collectFiles_of_gatherFiles hgather
  obtain ⟨listed, hlisted, hfrom⟩ := collectFiles_eq_ok hcollect
  obtain ⟨w⟩ := written_of_ok hwrite
  have hplan : ∀ table, w.plan.tocTable = some table → table.length < 2 ^ 32 := fun table h =>
    h32 inputs w.plan hcollect w.plan_eq table (by simp [CpkPlan.tables, h])
  -- every input stands for the file that it was collected from
  have hstands : List.Forall₂ (Stands sys root target fs (Function.update fs outputFile (some seen))
      path options.p5rEncryption p5r') (listed.map Prod.fst) inputs := by
    rw [List.forall₂_map_left_iff]
    refine List.forall₂_iff_get.mpr ⟨hfrom.length_eq, fun i hi hi' => ?_⟩
    have hnames := (List.forall₂_iff_get.mp hfrom).2 i hi hi'
    have hf := hlisted.mem_iff.mp (List.get_mem listed ⟨i, hi⟩)
    have hmem := List.mem_of_mem_filter hf
    exact stands_of_fromNames w (Directory.ne_nil_of_mem_files hmem)
      (Directory.ordinary_of_mem_files hmem) hnames (List.get_mem _ _)
      (hfiles _ (List.mem_map_of_mem hf))
  obtain ⟨fs₂, hunpack, hrestored⟩ := w.restores rfl hplan hstands
    (Function.update_self _ _ _) hempty shiftJis path' p5r slab heap
  exact ⟨fs₂, hunpack, hrestored.perm (hlisted.map Prod.fst)⟩

/-- The directory of the two files. -/
def sampleSource : Directory sampleHost.host UInt64 where
  entries := .file [0x61] 3 (.dir [0x64] (.file "b.bin".asBytes 4 .nil) .nil)
  proper := ⟨by decide, by decide, ⟨by decide, trivial⟩, trivial⟩
  ordinary f hf v hv := by
    rcases List.mem_pair.mp hf with rfl | rfl
    · exact ordinary_sampleOutputEntries ([[0x61]], ()) (by decide +kernel) v hv
    · exact ordinary_sampleOutputEntries ([[0x64], "b.bin".asBytes], ()) (by decide +kernel) v hv

/-- Its files, below `in`. -/
def sampleSourceFiles : FileSystem :=
  Function.update (Function.update (fun _ => none) "in/d/b.bin".asBytes (some [4, 5, 6, 7]))
    "in/a".asBytes (some [1, 2, 3])

/-- The two files of the sample directory are collected. -/
theorem collectedNames_sampleSource :
    sampleSource.collectedNames "in".asBytes (fun _ => false) =
      [[[0x61]], [[0x64], "b.bin".asBytes]] := by
  rw [Directory.collectedNames, sampleSource.files_eq]
  decide +kernel

/-- Its inputs. -/
def sampleCollected : List CpkInputFile :=
  [⟨"", "a", "in/a".asBytes, 3, 3, 0, "", none⟩,
    ⟨"d", "b.bin", "in/d/b.bin".asBytes, 4, 4, 1, "", none⟩]

/-- The inputs that the two files of the sample directory become. -/
theorem collectFiles_sampleSource :
    collectFiles (sampleSource.found sampleHost.host "in".asBytes fun _ => false) =
      .ok sampleCollected := by
  have hrounds : (sampleSource.found sampleHost.host "in".asBytes fun _ => false).filterMapM
      collectRound = .ok [⟨"", "a", "in/a".asBytes, 3, 3, 0, "", none⟩,
        ⟨"d", "b.bin", "in/d/b.bin".asBytes, 4, 4, 0, "", none⟩] := by
    rw [Directory.found, sampleSource.files_eq]
    decide +kernel
  rw [collectFiles_eq, hrounds, Exec.ok_bind, List.mergeSort_of_pairwise (by decide +kernel)]
  rfl

/-- What the two files hold. -/
theorem sampleSourceFiles_eq : sampleSourceFiles "in/a".asBytes = some [1, 2, 3] ∧
    sampleSourceFiles "in/d/b.bin".asBytes = some [4, 5, 6, 7] := by
  refine ⟨Function.update_self _ _ _, ?_⟩
  rw [sampleSourceFiles, Function.update_of_ne (by decide +kernel), Function.update_self]

/-- The paths of the two files. -/
theorem below_sampleSource :
    below sampleHost.host "in".asBytes [[0x61]] = "in/a".asBytes ∧
      below sampleHost.host "in".asBytes [[0x64], "b.bin".asBytes] = "in/d/b.bin".asBytes := by
  decide +kernel

/-- The sample directory is packed, and the tables of its archive are small. -/
theorem exists_pack_sampleSource : ∃ report out,
    packDirectory .u64 "x".asBytes []
      (sampleSource.found sampleHost.host "in".asBytes fun _ => false) ⟨16, true⟩ sampleSourceFiles =
        (.ok report, Function.update sampleSourceFiles "x".asBytes (some out)) ∧
    ∀ files plan, collectFiles (sampleSource.found sampleHost.host "in".asBytes fun _ => false) =
      .ok files → planArchive files ⟨16, true⟩ .default = .ok plan →
        ∀ table ∈ plan.tables, table.length < 2 ^ 32 := by
  obtain ⟨plan, hplan, hsmall⟩ : ∃ plan,
      planArchive sampleCollected ⟨16, true⟩ .default = .ok plan ∧
        ∀ table ∈ plan.tables, table.length < 2 ^ 32 := by
    decide +kernel
  have hreadable : ∀ f ∈ sampleCollected,
      Readable (Function.update sampleSourceFiles "x".asBytes (some [])) f := by
    refine List.forall_mem_cons.mpr ⟨⟨[1, 2, 3], ?_, rfl⟩,
      List.forall_mem_singleton.mpr ⟨[4, 5, 6, 7], ?_, rfl⟩⟩
    · rw [Function.update_of_ne (by decide +kernel), sampleSourceFiles_eq.1]
    · rw [Function.update_of_ne (by decide +kernel), sampleSourceFiles_eq.2]
  obtain ⟨report, out, hwrite⟩ := exists_writeWithProfile_of_readable ⟨plan, hplan⟩ hreadable
  have hgather : gatherFiles (sampleSource.found sampleHost.host "in".asBytes fun _ => false)
      ⟨16, true⟩ = .ok sampleCollected := by
    rw [gatherFiles, collectFiles_sampleSource]
    rfl
  refine ⟨report, out.bytes, packDirectory_eq_ok.mpr ⟨_, out, hgather, hwrite, rfl⟩,
    fun files plan' hfiles hplan' => ?_⟩
  obtain rfl := Exec.ok.inj (collectFiles_sampleSource.symm.trans hfiles)
  obtain rfl := Exec.ok.inj (hplan.symm.trans hplan')
  exact hsmall

/-- Nothing is below the new directory yet. -/
theorem emptyBelow_sampleSource (out : List UInt8) : EmptyBelow sampleHost.host "out".asBytes
    (Function.update sampleSourceFiles "x".asBytes (some out)) := by
  intro names hne hplain
  have hhead : (below sampleHost.host "out".asBytes names).head? = some 0x6f :=
    head?_below hne hplain
  have hpath : ∀ {p : PathBuf}, p.head? ≠ some 0x6f →
      below sampleHost.host "out".asBytes names ≠ p :=
    fun hp => ne_of_apply_ne List.head? fun h => hp (h ▸ hhead)
  rw [Function.update_of_ne (hpath (by decide +kernel)), sampleSourceFiles,
    Function.update_of_ne (hpath (by decide +kernel)),
    Function.update_of_ne (hpath (by decide +kernel))]

/-- The two files survive in an archive. -/
theorem transportable_sampleSource :
    ∀ names ∈ sampleSource.collectedNames "in".asBytes (fun _ => false),
      Transportable sampleHost "in".asBytes "x".asBytes "out".asBytes sampleSourceFiles names := by
  obtain ⟨hfile, hfile'⟩ := sampleSourceFiles_eq
  obtain ⟨hbelow, hbelow'⟩ := below_sampleSource
  rw [collectedNames_sampleSource]
  refine List.forall_mem_cons.mpr ⟨⟨by unfold Writable; decide, fun content hcontent => ?_, ?_, ?_⟩,
    List.forall_mem_singleton.mpr ⟨by unfold Writable; decide +kernel, fun content hcontent => ?_,
      ?_, ?_⟩⟩
  · rw [hbelow, hfile] at hcontent
    obtain rfl := Option.some.inj hcontent
    decide +kernel
  · rw [hbelow]
    decide +kernel
  · decide +kernel
  · rw [hbelow', hfile'] at hcontent
    obtain rfl := Option.some.inj hcontent
    decide +kernel
  · rw [hbelow']
    decide +kernel
  · decide +kernel

/-- A directory with two files is packed and put back. -/
theorem pack_unpack_directory_sample : ∃ report fs₁ fs₂,
    packDirectory .u64 "x".asBytes []
      (sampleSource.found sampleHost.host "in".asBytes fun _ => false) ⟨16, true⟩ sampleSourceFiles =
        (.ok report, fs₁) ∧
    unpackWith sampleHost (fun _ => "") (P5RDecryptor .u64) "x".asBytes "out".asBytes true
      (fun _ => 0) (fun _ => 0) fs₁ = (.ok (), fs₂) ∧
    fs₂ "out/a".asBytes = some [1, 2, 3] ∧ fs₂ "out/d/b.bin".asBytes = some [4, 5, 6, 7] := by
  obtain ⟨report, out, hpack, hsmall⟩ := exists_pack_sampleSource
  obtain ⟨fs₂, hunpack, hrestored⟩ : ∃ fs₂,
      unpackWith sampleHost (fun _ => "") (decryptorFor true .u64) "x".asBytes "out".asBytes true
        (fun _ => 0) (fun _ => 0) _ = (.ok (), fs₂) ∧ Restored sampleHost "in".asBytes "out".asBytes
          (sampleSource.collectedNames "in".asBytes fun _ => false) sampleSourceFiles _ fs₂ :=
    pack_unpack_directory hpack transportable_sampleSource hsmall (emptyBelow_sampleSource out)
      (fun _ => "") true true (fun _ => 0) fun _ => 0
  have hcontents := hrestored.contents
  rw [collectedNames_sampleSource] at hcontents
  have hsecond := hcontents [[0x61]] List.mem_cons_self (by decide +kernel)
  have hfirst := hcontents [[0x64], "b.bin".asBytes]
    (List.mem_cons_of_mem _ (List.mem_singleton_self _)) (by decide +kernel)
  rw [below_sampleSource.1, below_sampleOutputEntries.2.1, sampleSourceFiles_eq.1] at hsecond
  rw [below_sampleSource.2, below_sampleOutputEntries.2.2, sampleSourceFiles_eq.2] at hfirst
  exact ⟨report, _, fs₂, hpack, hunpack, hsecond, hfirst⟩

end Restore

end CriArchive
