import CriArchive.Cli.Manifest
import CriArchive.Cpk.RoundTrip.Extract
import CriArchive.Cpk.RoundTrip.Source
import CriArchive.Cpk.RoundTrip.Structure
import CriArchive.Cpk.Writer.Pack

set_option relaxedAutoImplicit false
set_option autoImplicit false

/-!
# Unpacking an archive

`unpack_with` of the command line, as steps on the files of the host. The archive is read as it was
when it was opened. The source reads the open file for each entry, after it has written the entries
before; `CriArchive.Cli.Failure` models this, as `unpackWithOpen`, and shows that the two agree as
long as no entry has the path of the archive.

## Main definitions

* `unpackWith` — the command.
* `extractAll` — the contents of an archive, in the order of its entries.
* `EveryEntryKept`, `RecordsEntries` — nothing is lost: every entry is in its file, and the manifest
  has one record for each of them.
* `NoClash` — entries with one path have one content, and none has the path that the manifest is
  written to first.
* `Carries` — what the payload of an input inflates to.

## Main results

* `unpackFiles_eq_ok` — what the loop over the entries writes and records.
* `Written.extractAll_toc` — the contents of a written archive are those that its inputs carry.
* `unpack_keeps_iff` — when a run that returned has lost nothing.
-/

namespace CriArchive

open StdPath CpkReader

/-! ## The command -/

/-- The record that is kept of an entry. -/
def manifestEntry (file : CpkFile) (index : UInt32) (packed extracted : List UInt8) :
    ManifestEntry where
  directory := file.directory
  fileName := file.fileName
  id := file.id.getD index
  userString := file.userString
  extractedSize := UInt64.ofNat extracted.length
  extractedHash := hashBytes extracted
  packedSize := file.fileSize
  packedOffset := file.absoluteOffset
  packedHash := hashBytes packed

section Command

variable (sys : HostSystem) (shiftJis : List UInt8 → String) (E : FileDecryptor)

/-- One round of the loop, after the entry was extracted. -/
def unpackFile (output : PathBuf) (index : ℕ) (file : CpkFile) (packed extracted : List UInt8) :
    ExecM FileSystem CliError ManifestEntry := do
  let destination ← ExecM.lift
    (safeOutputPath sys.host output file.directory file.fileName)
  ExecM.lift (Exec.errIf (samePath sys.host destination (Manifest.path sys.host output) = true)
    (.reservedName destination))
  writeFile destination extracted
  let index ← ExecM.lift (Exec.okOr (UInt32.tryFrom index) (.message "too many CPK files"))
  pure (manifestEntry file index packed extracted)

/-- The loop over the entries. -/
def unpackFiles (output : PathBuf) :
    ℕ → List CpkFile → CpkReader → ExecM FileSystem CliError (List ManifestEntry)
  | _, [], _ => pure []
  | index, file :: files, cpk => do
    let extracted ← ExecM.lift (Exec.mapErr .crate ((extractFileWithPacked E file).runOn cpk))
    let entry ← unpackFile sys output index file extracted.1.1 extracted.1.2
    let entries ← unpackFiles output (index + 1) files extracted.2
    pure (entry :: entries)

/-- The manifest of an archive with given metadata. -/
def manifestOf (sourceArchive : PathBuf) (archive : UInt64 × UInt64) (metadata : CpkMetadata)
    (p5r : Bool) (entries : List ManifestEntry) : Manifest where
  sourceArchive := sourceArchive
  archiveSize := archive.1
  archiveHash := archive.2
  alignment := max metadata.align 1
  hasToc := metadata.tocOffset != 0
  hasItoc := metadata.itocOffset != 0
  directItoc := metadata.itocOffset != 0 && metadata.eid != 0
  p5r := p5r
  version := metadata.version
  revision := metadata.revision
  updateDateTime := metadata.updateDateTime
  entries := entries

/-- `unpack_with` -/
def unpackWith (input output : PathBuf) (p5r : Bool) (slab heap : ℕ → UInt8) :
    ExecM FileSystem CliError Unit := do
  let fs ← ExecM.get
  let archive ← ExecM.lift (hashFile fs input)
  let bytes ← ExecM.lift (openFile fs input)
  let cpk ← ExecM.lift
    (Exec.mapErr .crate ((getFiles shiftJis).runOn (CpkReader.new bytes 0 slab heap)))
  let metadata ← ExecM.lift (Exec.okOr cpk.2.metadata
    (.message "CPK metadata unavailable after reading file table"))
  let entries ← unpackFiles sys E output 0 cpk.1 cpk.2
  (manifestOf (sys.absolutePath input) archive metadata p5r entries).write sys output

end Command

/-! ## The contents of an archive -/

/-- The packed and the extracted bytes of entries, extracted one after the other. -/
def extractAll (E : FileDecryptor) :
    List CpkFile → CpkReader → Exec Error (List (List UInt8 × List UInt8))
  | [], _ => pure []
  | file :: files, cpk => do
    let extracted ← (extractFileWithPacked E file).runOn cpk
    let others ← extractAll E files extracted.2
    pure (extracted.1 :: others)

/-- The records of entries, from a given index on. -/
def records (index : ℕ) (files : List CpkFile) (contents : List (List UInt8 × List UInt8)) :
    List ManifestEntry :=
  ((files.zip contents).zipIdx index).map fun x =>
    manifestEntry x.1.1 (UInt32.ofNat x.2) x.1.2.1 x.1.2.2

/-- The files after contents were written to paths, in order. -/
def writtenTo (fs : FileSystem) (paths : List PathBuf) (contents : List (List UInt8 × List UInt8)) :
    FileSystem :=
  (paths.zip contents).foldl (fun fs x => Function.update fs x.1 (some x.2.2)) fs

section Loop

variable {sys : HostSystem} {E : FileDecryptor} {output : PathBuf}

/-- A path for an entry that is not refused, nor reserved for the manifest. -/
def Destination (sys : HostSystem) (output : PathBuf) (file : CpkFile) (path : PathBuf) : Prop :=
  safeOutputPath sys.host output file.directory file.fileName = .ok path ∧
    samePath sys.host path (Manifest.path sys.host output) = false

/-- **What a round does that returns:** the entry has a path and an index, the file is written, and
a record is kept. -/
theorem unpackFile_eq_ok {index : ℕ} {file : CpkFile} {packed extracted : List UInt8}
    {fs fs' : FileSystem} {entry : ManifestEntry} :
    unpackFile sys output index file packed extracted fs = (.ok entry, fs') ↔
      ∃ path, Destination sys output file path ∧ index < 2 ^ 32 ∧
        fs' = Function.update fs path (some extracted) ∧
        entry = manifestEntry file (UInt32.ofNat index) packed extracted := by
  have hindex : ∀ {i : UInt32}, UInt32.tryFrom index = some i ↔
      index < 2 ^ 32 ∧ i = UInt32.ofNat index := by
    intro i
    rw [UInt32.tryFrom_eq_some]
    constructor
    · rintro rfl
      exact ⟨i.toNat_lt, UInt32.ofNat_toNat.symm⟩
    · rintro ⟨hlt, rfl⟩
      exact UInt32.toNat_ofNat_of_lt' hlt
  unfold unpackFile Destination
  simp only [ExecM.bind_eq_ok, ExecM.lift_eq_ok, Exec.errIf_eq_ok, Exec.okOr_eq_ok,
    writeFile_apply, ExecM.pure_apply, Prod.mk.injEq, Exec.ok.injEq, hindex, Bool.not_eq_true]
  constructor
  · rintro ⟨path, _, ⟨hpath, rfl⟩, _, _, ⟨hreserved, rfl⟩, _, _, ⟨-, rfl⟩, _, _, ⟨⟨hlt, rfl⟩, rfl⟩,
      rfl, rfl⟩
    exact ⟨path, ⟨hpath, hreserved⟩, hlt, rfl, rfl⟩
  · rintro ⟨path, ⟨hpath, hreserved⟩, hlt, rfl, rfl⟩
    exact ⟨path, _, ⟨hpath, rfl⟩, (), _, ⟨hreserved, rfl⟩, (), _, ⟨trivial, rfl⟩, _, _,
      ⟨⟨hlt, rfl⟩, rfl⟩, rfl, rfl⟩

/-- **The loop over the entries** returns when they can be extracted to paths that are not refused;
it writes their contents in order, and records each of them.

**Proof sketch.** Induction on the entries, with one round read off by `unpackFile_eq_ok`. The index
is checked in every round, which amounts to one bound on the last. -/
theorem unpackFiles_eq_ok {index : ℕ} {files : List CpkFile} {cpk : CpkReader}
    {fs fs' : FileSystem} {entries : List ManifestEntry} :
    unpackFiles sys E output index files cpk fs = (.ok entries, fs') ↔
      ∃ contents paths, extractAll E files cpk = .ok contents ∧
        List.Forall₂ (Destination sys output) files paths ∧
        (files ≠ [] → index + files.length ≤ 2 ^ 32) ∧ fs' = writtenTo fs paths contents ∧
        entries = records index files contents := by
  induction files generalizing index cpk fs fs' entries with
  | nil =>
    simp only [unpackFiles, extractAll, ExecM.pure_apply, Exec.pure_eq, Prod.mk.injEq,
      Exec.ok.injEq, List.forall₂_nil_left_iff]
    constructor
    · rintro ⟨rfl, rfl⟩
      exact ⟨[], [], rfl, rfl, fun h => absurd rfl h, rfl, rfl⟩
    · rintro ⟨_, _, rfl, rfl, -, rfl, rfl⟩
      exact ⟨rfl, rfl⟩
  | cons file files ih =>
    simp only [unpackFiles, extractAll, ExecM.bind_eq_ok, ExecM.lift_eq_ok, Exec.mapErr_eq_ok,
      unpackFile_eq_ok, ih, ExecM.pure_apply, Prod.mk.injEq, Exec.ok.injEq, Exec.bind_eq_ok,
      Exec.pure_eq, List.forall₂_cons_left_iff]
    constructor
    · rintro ⟨extracted, _, ⟨hextracted, rfl⟩, _, _, ⟨path, hpath, hlt, rfl, rfl⟩, _, _,
        ⟨contents, paths, hcontents, hpaths, hcount, rfl, rfl⟩, rfl, rfl⟩
      refine ⟨extracted.1 :: contents, path :: paths, ⟨extracted, hextracted, contents, hcontents,
        rfl⟩, ⟨path, paths, hpath, hpaths, rfl⟩, fun _ => ?_, rfl, rfl⟩
      by_cases hnil : files = []
      · subst hnil
        exact hlt
      · have := hcount hnil
        rw [List.length_cons]
        omega
    · rintro ⟨_, _, ⟨extracted, hextracted, contents, hcontents, rfl⟩,
        ⟨path, paths, hpath, hpaths, rfl⟩, hcount, rfl, rfl⟩
      have hle := hcount (List.cons_ne_nil _ _)
      rw [List.length_cons] at hle
      exact ⟨extracted, _, ⟨hextracted, rfl⟩, _, _, ⟨path, hpath, by omega, rfl, rfl⟩, _, _,
        ⟨contents, paths, hcontents, hpaths, fun _ => by omega, rfl, rfl⟩, rfl, rfl⟩

/-- Every entry has contents. -/
theorem length_extractAll {files : List CpkFile} {cpk : CpkReader}
    {contents : List (List UInt8 × List UInt8)} (h : extractAll E files cpk = .ok contents) :
    contents.length = files.length := by
  induction files generalizing cpk contents with
  | nil =>
    obtain rfl := Exec.ok.inj h
    rfl
  | cons file files ih =>
    simp only [extractAll, Exec.bind_eq_ok, Exec.pure_eq, Exec.ok.injEq] at h
    obtain ⟨extracted, -, others, hothers, rfl⟩ := h
    rw [List.length_cons, List.length_cons, ih hothers]

end Loop

/-! ## The whole run -/

section Run

variable {sys : HostSystem} {shiftJis : List UInt8 → String} {E : FileDecryptor}
  {input output : PathBuf} {p5r : Bool} {slab heap : ℕ → UInt8} {fs fs' : FileSystem}

/-- The files after unpacking: the entries, without the temporary file, and the manifest. -/
def unpackedFiles (sys : HostSystem) (output : PathBuf) (fs : FileSystem) (paths : List PathBuf)
    (contents : List (List UInt8 × List UInt8)) (m : Manifest) : FileSystem :=
  Function.update (Function.update (writtenTo fs paths contents)
    (temporaryPath sys.host output) none) (Manifest.path sys.host output)
      (some (m.encode sys.lossy))

/-- The manifest is read back after unpacking. -/
theorem read_unpackedFiles (sys : HostSystem) (output : PathBuf) (fs : FileSystem)
    (paths : List PathBuf) (contents : List (List UInt8 × List UInt8)) {m : Manifest}
    (h : m.Consistent) :
    Manifest.read sys (unpackedFiles sys output fs paths contents m) output =
      .ok (some { m with sourceArchive := (sys.lossy m.sourceArchive).asBytes }) :=
  Manifest.read_of_encode sys m output _ h (by rw [unpackedFiles, Function.update_self])

/-- **A run that returned** has read the entries, extracted all of them, written them to paths that
were not refused, and then the manifest. -/
theorem unpackWith_eq_ok :
    unpackWith sys shiftJis E input output p5r slab heap fs = (.ok (), fs') ↔
      ∃ bytes files cpk metadata contents paths, fs input = some bytes ∧
        getFiles shiftJis (CpkReader.new bytes 0 slab heap) = (.ok files, cpk) ∧
        cpk.metadata = some metadata ∧ extractAll E files cpk = .ok contents ∧
        List.Forall₂ (Destination sys output) files paths ∧
        (files ≠ [] → files.length ≤ 2 ^ 32) ∧
        fs' = unpackedFiles sys output fs paths contents
          (manifestOf (sys.absolutePath input) (UInt64.ofNat bytes.length, hashBytes bytes)
            metadata p5r (records 0 files contents)) := by
  unfold unpackWith hashFile openFile
  simp only [ExecM.bind_eq_ok, ExecM.get_apply, ExecM.lift_eq_ok, Exec.mapErr_eq_ok,
    ExecM.runOn_eq_ok, Exec.okOr_eq_ok, unpackFiles_eq_ok, Manifest.write_apply, Exec.bind_eq_ok,
    Exec.pure_eq, Prod.mk.injEq, Exec.ok.injEq, Nat.zero_add, unpackedFiles]
  constructor
  · rintro ⟨_, _, ⟨rfl, rfl⟩, _, _, ⟨⟨bytes, hbytes, rfl⟩, rfl⟩, _, _, ⟨hsame, rfl⟩, cpk, _,
      ⟨hfiles, rfl⟩, metadata, _, ⟨hmetadata, rfl⟩, _, _,
      ⟨contents, paths, hcontents, hpaths, hcount, rfl, rfl⟩, -, rfl⟩
    obtain rfl := Option.some.inj (hbytes.symm.trans hsame)
    exact ⟨bytes, cpk.1, cpk.2, metadata, contents, paths, hbytes, hfiles, hmetadata, hcontents,
      hpaths, hcount, rfl⟩
  · rintro ⟨bytes, files, cpk, metadata, contents, paths, hbytes, hfiles, hmetadata, hcontents,
      hpaths, hcount, rfl⟩
    exact ⟨_, _, ⟨rfl, rfl⟩, _, _, ⟨⟨bytes, hbytes, rfl⟩, rfl⟩, _, _, ⟨hbytes, rfl⟩, (files, cpk), _,
      ⟨hfiles, rfl⟩, metadata, _, ⟨hmetadata, rfl⟩, _, _,
      ⟨contents, paths, hcontents, hpaths, hcount, rfl, rfl⟩, trivial, rfl⟩

end Run

/-! ## Nothing is lost -/

section Kept

variable (sys : HostSystem) (output : PathBuf) (files : List CpkFile)
  (contents : List (List UInt8 × List UInt8)) (fs : FileSystem)

/-- Every entry is in the file at its path. -/
def EveryEntryKept : Prop :=
  ∀ x ∈ files.zip contents, ∀ path,
    safeOutputPath sys.host output x.1.directory x.1.fileName = .ok path → fs path = some x.2.2

/-- The manifest has one record for each entry, in order. -/
def RecordsEntries : Prop :=
  contents.length = files.length ∧
    ∃ m, Manifest.read sys fs output = .ok (some m) ∧ m.entries = records 0 files contents

/-- Entries with one path have one content, and none has the path that the manifest is written to
before it gets its name. -/
structure NoClash : Prop where
  same : ∀ x ∈ files.zip contents, ∀ y ∈ files.zip contents, ∀ path,
    safeOutputPath sys.host output x.1.directory x.1.fileName = .ok path →
    safeOutputPath sys.host output y.1.directory y.1.fileName = .ok path → x.2.2 = y.2.2
  temporary : ∀ x ∈ files.zip contents,
    safeOutputPath sys.host output x.1.directory x.1.fileName ≠ .ok (temporaryPath sys.host output)

variable {sys output files contents fs} {paths : List PathBuf}

/-- What a path holds after contents were written: the content of a path that is the same, or what
it held before. -/
theorem writtenTo_cases (fs : FileSystem) (paths : List PathBuf)
    (contents : List (List UInt8 × List UInt8)) (p : PathBuf) :
    (∃ w ∈ paths.zip contents, w.1 = p ∧ writtenTo fs paths contents p = some w.2.2) ∨
      ((∀ w ∈ paths.zip contents, w.1 ≠ p) ∧ writtenTo fs paths contents p = fs p) := by
  unfold writtenTo
  induction paths.zip contents generalizing fs with
  | nil => exact .inr ⟨fun w hw => absurd hw List.not_mem_nil, rfl⟩
  | cons w ws ih =>
    rw [List.foldl_cons]
    obtain ⟨v, hv, heq, hval⟩ | ⟨hnone, hval⟩ := ih (Function.update fs w.1 (some w.2.2))
    · exact .inl ⟨v, List.mem_cons_of_mem _ hv, heq, hval⟩
    · by_cases hp : w.1 = p
      · refine .inl ⟨w, List.mem_cons_self, hp, ?_⟩
        rw [hval, hp, Function.update_self]
      · refine .inr ⟨?_, by rw [hval, Function.update_of_ne (Ne.symm hp)]⟩
        simpa [hp] using hnone

/-- The paths of entries, beside their contents. -/
theorem mem_zip_paths (h : List.Forall₂ (Destination sys output) files paths)
    {c : List UInt8 × List UInt8} {path : PathBuf} :
    (path, c) ∈ paths.zip contents ↔
      ∃ file, (file, c) ∈ files.zip contents ∧ Destination sys output file path := by
  induction h generalizing contents with
  | nil => simp
  | @cons file p files paths hp hps ih =>
    cases contents with
    | nil => simp
    | cons d contents =>
      simp only [List.zip_cons_cons, List.mem_cons, Prod.mk.injEq, ih]
      constructor
      · rintro (⟨rfl, rfl⟩ | ⟨g, hg, hpath⟩)
        · exact ⟨file, .inl ⟨rfl, rfl⟩, hp⟩
        · exact ⟨g, .inr hg, hpath⟩
      · rintro ⟨g, ⟨rfl, rfl⟩ | hg, hpath⟩
        · exact .inl ⟨Exec.ok.inj (hpath.1.symm.trans hp.1), rfl⟩
        · exact .inr ⟨g, hg, hpath⟩

/-- The path of an entry is written to, and is not the path of the manifest. -/
theorem mem_zip_of_safeOutputPath (h : List.Forall₂ (Destination sys output) files paths)
    {x : CpkFile × List UInt8 × List UInt8} (hx : x ∈ files.zip contents) {path : PathBuf}
    (hpath : safeOutputPath sys.host output x.1.directory x.1.fileName = .ok path) :
    (path, x.2) ∈ paths.zip contents ∧ path ≠ Manifest.path sys.host output := by
  obtain ⟨i, hi, hfile⟩ := List.mem_iff_getElem.mp (List.of_mem_zip hx).1
  obtain ⟨hlen, hget⟩ := List.forall₂_iff_get.mp h
  have hpath' := hget i hi (hlen ▸ hi)
  rw [List.get_eq_getElem, List.get_eq_getElem, hfile] at hpath'
  obtain rfl := Exec.ok.inj (hpath.symm.trans hpath'.1)
  refine ⟨(mem_zip_paths h).mpr ⟨x.1, hx, hpath'⟩, ?_⟩
  intro hmanifest
  have hreserved := hpath'.2
  rw [hmanifest, samePath_self] at hreserved
  cases hreserved

/-- **Nothing is lost** exactly when no two entries clash, and none with the manifest. -/
theorem everyEntryKept_iff (h : List.Forall₂ (Destination sys output) files paths)
    (m : Manifest) :
    EveryEntryKept sys output files contents (unpackedFiles sys output fs paths contents m) ↔
      NoClash sys output files contents := by
  constructor
  · intro hkept
    refine ⟨fun x hx y hy path hpx hpy => ?_, fun x hx htemporary => ?_⟩
    · exact Option.some.inj ((hkept x hx path hpx).symm.trans (hkept y hy path hpy))
    · have hnone := hkept x hx _ htemporary
      rw [unpackedFiles, Function.update_of_ne (temporaryPath_ne sys output),
        Function.update_self] at hnone
      cases hnone
  · intro hclash x hx path hpath
    obtain ⟨hmem, hmanifest⟩ := mem_zip_of_safeOutputPath h hx hpath
    have htemporary : path ≠ temporaryPath sys.host output := by
      rintro rfl
      exact hclash.temporary x hx hpath
    rw [unpackedFiles, Function.update_of_ne hmanifest, Function.update_of_ne htemporary]
    obtain ⟨w, hw, hwpath, hval⟩ | ⟨hnone, -⟩ :=
      writtenTo_cases fs paths contents path
    · obtain ⟨file, hfile, hfilepath⟩ := (mem_zip_paths h).mp hw
      rw [hval, hclash.same x hx _ hfile path hpath (hwpath ▸ hfilepath.1)]
    · exact absurd rfl (hnone _ hmem)

end Kept

/-! ## Extracting a written archive -/

section Extracting

/-- Inflating only uses the allocator. -/
theorem inflate_opened {bytes : List UInt8} {r r' : CpkReader} {plain : List UInt8}
    {x : Exec Error (List UInt8)} (hr : Opened bytes r) (h : inflate plain r = (x, r')) :
    Opened bytes r' := by
  obtain ⟨b, hb⟩ := LaylaDecompressor.isCompressed_ok plain
  unfold inflate at h
  rw [ExecM.lift_bind_of_ok hb] at h
  cases b with
  | false =>
    obtain ⟨-, rfl⟩ := Prod.mk.inj h
    exact hr
  | true =>
    obtain ⟨-, rfl⟩ := Prod.mk.inj h
    exact hr

/-- Extraction of an entry whose packed bytes are read, decrypted and inflated. -/
theorem extractFileWithPacked_opened {E : FileDecryptor} {e : CpkFile} {bytes : List UInt8}
    {r r' : CpkReader} {packed plain content : List UInt8} (hr' : Opened bytes r')
    (hread : readPackedFile e r = (.ok packed, r')) (hdecrypt : decrypt E e packed = .ok plain)
    (hinflate : (inflate plain r').1 = .ok content) :
    ∃ r'', Opened bytes r'' ∧ extractFileWithPacked E e r = (.ok (packed, content), r'') := by
  obtain ⟨r'', hrun⟩ := ExecM.exists_of_fst hinflate
  refine ⟨r'', inflate_opened hr' hrun, ?_⟩
  unfold extractFileWithPacked
  rw [ExecM.bind_of_ok hread, ExecM.lift_bind_of_ok hdecrypt, ExecM.bind_of_ok hrun]
  rfl

/-- Entries that every reader of an archive extracts are extracted one after the other. -/
theorem extractAll_of_opened {E : FileDecryptor} {bytes : List UInt8} {entries : List CpkFile}
    {contents : List (List UInt8 × List UInt8)}
    (h : List.Forall₂ (fun e c => ∀ r, Opened bytes r →
      ∃ r', Opened bytes r' ∧ extractFileWithPacked E e r = (.ok c, r')) entries contents)
    {r : CpkReader} (hr : Opened bytes r) : extractAll E entries r = .ok contents := by
  induction h generalizing r with
  | nil => rfl
  | cons he _ ih =>
    obtain ⟨r', hr', hextract⟩ := he r hr
    rw [extractAll, ExecM.runOn_of_ok hextract, Exec.ok_bind]
    dsimp only
    rw [ih hr', Exec.ok_bind, Exec.pure_eq]

variable {fs : FileSystem} {path : P5RPath} {files : List CpkInputFile}
  {options : CpkWriterOptions} {profile : CpkWriterProfile} {report : CpkWriteReport}
  {bytes : List UInt8}

/-- What is packed and extracted of an input: its payload, and what decrypting and inflating make of
it. -/
structure Carries (fs : FileSystem) (path : P5RPath) (p5r p5r' : Bool) (f : CpkInputFile)
    (content : List UInt8 × List UInt8) : Prop where
  packed : emittedPayload fs path p5r f = .ok content.1
  inflates : ∀ r, (inflate (transformIf p5r' f.userString.nulPrefix content.1) r).1 = .ok content.2

/-- What does not look compressed is inflated as it is. -/
theorem inflate_plain {plain : List UInt8} (h : LaylaDecompressor.isCompressed plain = .ok false)
    (r : CpkReader) : (inflate plain r).1 = .ok plain := by
  rw [inflate_eq h, if_neg Bool.false_ne_true]

/-- **A written archive is extracted as a whole**, in the order of its inputs.

**Proof sketch.** Reading the files gives, for each input, its entry with the offset of its payload.
Extracting an entry reads the payload back (`Written.readsBack`), decrypts it and inflates it, which
is what is carried. -/
theorem Written.extractAll_toc (w : Written fs path files options profile report bytes)
    (shiftJis : List UInt8 → String) (htoc : profile.indexMode.hasToc = true)
    (hnames : ∀ f ∈ files, f.fileName ≠ "")
    (h32 : ∀ table, w.plan.tocTable = some table → table.length < 2 ^ 32) {p5r' : Bool}
    (path' : P5RPath) {contents : List (List UInt8 × List UInt8)}
    (hcontents : List.Forall₂ (Carries fs path options.p5rEncryption p5r') files contents)
    {r : CpkReader} (hbytes : r.stream.bytes = bytes) (hstart : r.startPos = 0) :
    ∃ entries r', getFiles shiftJis r = (.ok entries, r') ∧ r'.metadata = some w.metadata ∧
      List.Forall₂ (fun f e => ∃ rel o, e = tocEntry f rel o) files entries ∧
      extractAll (decryptorFor p5r' path') entries r' = .ok contents := by
  obtain ⟨entries, r', hfiles, hopen, hm, hlen, hall⟩ :=
    w.getFiles_toc shiftJis htoc hnames h32 hbytes hstart
  -- an entry and the input that it stands for
  have hentry : ∀ (i : ℕ) (hi : i < files.length) (hi' : i < entries.length), ∃ rel o,
      w.plan.absoluteOffsets[i]? = some o ∧ entries.get ⟨i, hi'⟩ = tocEntry (files.get ⟨i, hi⟩) rel o := by
    intro i hi hi'
    have hf : files[i]? = some (files.get ⟨i, hi⟩) := List.getElem?_eq_getElem hi
    obtain ⟨o, ho⟩ := w.offset_of_file hf
    obtain ⟨rel, he⟩ := hall i _ o hf ho
    exact ⟨rel, o, ho, Option.some.inj ((List.getElem?_eq_getElem hi').symm.trans he)⟩
  refine ⟨entries, r', hfiles, hm, List.forall₂_iff_get.mpr ⟨hlen.symm, fun i hi hi' => ?_⟩,
    extractAll_of_opened (List.forall₂_iff_get.mpr
      ⟨hlen.trans hcontents.length_eq, fun i hi hi' => ?_⟩) hopen⟩
  · obtain ⟨rel, o, -, he⟩ := hentry i hi hi'
    exact ⟨rel, o, he⟩
  · have hi'' : i < files.length := hlen ▸ hi
    obtain ⟨rel, o, ho, he⟩ := hentry i hi'' hi
    obtain ⟨hpacked, hinflates⟩ := (List.forall₂_iff_get.mp hcontents).2 i hi'' hi'
    obtain ⟨payload, hpayload, hread⟩ := (w.readsBack (List.getElem?_eq_getElem hi'') ho
      (e := entries.get ⟨i, hi⟩) (by rw [he]; rfl) (by rw [he]; rfl) (by rw [he]; rfl)
      (by rw [he]; rfl)).payload
    obtain rfl := Exec.ok.inj (hpacked.symm.trans hpayload)
    intro r₁ hr₁
    obtain ⟨r₂, hpackedFile, hr₂, -⟩ := hread r₁ hr₁
    refine extractFileWithPacked_opened hr₂ hpackedFile (decrypt_decryptorFor ..) ?_
    rw [he]
    exact hinflates r₂

end Extracting

/-! ## An archive of two files -/

section Sample

/-- An archive at `/s`. -/
def sampleStored (bytes : List UInt8) : FileSystem :=
  Function.update (fun _ => none) "/s".asBytes (some bytes)

/-- The archive is stored. -/
theorem sampleStored_eq (bytes : List UInt8) : sampleStored bytes "/s".asBytes = some bytes :=
  Function.update_self _ _ _

/-- What is packed and extracted of two files. -/
def sampleContents : List (List UInt8 × List UInt8) :=
  [([4, 5, 6, 7], [4, 5, 6, 7]), ([1, 2, 3], [1, 2, 3])]

/-- Their inputs, of which the second has a given name. -/
def samplePair (name : String) : List CpkInputFile :=
  [⟨"d", "b.bin", "out/d/b.bin".asBytes, 4, 4, 3, "u", none⟩,
    ⟨"", name, "out/a".asBytes, 3, 3, 7, "", none⟩]

/-- A profile with both indexes, and a direct ID table. -/
def samplePairProfile : CpkWriterProfile :=
  { CpkWriterProfile.default with
    indexMode := .tocAndItoc, directItoc := true, version := 7, revision := 14
    updateDateTime := 20 }

/-- The two files are where their inputs say. -/
structure SampleSources (fs : FileSystem) : Prop where
  first : fs "out/d/b.bin".asBytes = some [4, 5, 6, 7]
  second : fs "out/a".asBytes = some [1, 2, 3]

/-- There are files that the sample is packed from. -/
theorem exists_sampleSources : ∃ fs, SampleSources fs :=
  ⟨Function.update (fun _ => some [1, 2, 3]) "out/d/b.bin".asBytes (some [4, 5, 6, 7]),
    Function.update_self _ _ _, Function.update_of_ne (by decide +kernel) _ _⟩

/-- The two files have a plan, with small tables. -/
def SmallPair (name : String) : Prop :=
  ∃ plan, planArchive (samplePair name) ⟨16, false⟩ samplePairProfile = .ok plan ∧
    (∀ table ∈ plan.tables, table.length < 2 ^ 32) ∧ plan.archiveSize.toNat < 2 ^ 63

/-- With a file named `a`, the pair has a plan with small tables. -/
theorem smallPair_a : SmallPair "a" := by
  unfold SmallPair
  decide +kernel

/-- The archive of the two files, as it is read and extracted. -/
structure SampleArchive (name : String) (bytes : List UInt8) (b a : CpkFile) (cpk : CpkReader)
    (metadata : CpkMetadata) : Prop where
  files : getFiles (fun _ => "") (CpkReader.new bytes 0 (fun _ => 0) fun _ => 0) = (.ok [b, a], cpk)
  metadata_eq : cpk.metadata = some metadata
  indexes : metadata.tocOffset ≠ 0 ∧ metadata.itocOffset ≠ 0 ∧ metadata.eid ≠ 0
  settings : metadata.align = 16 ∧ metadata.version = 7 ∧ metadata.revision = 14 ∧
    metadata.updateDateTime = 20
  first : b.identity = ⟨"d", "b.bin", some 3, "u"⟩
  second : a.identity = ⟨"", name, some 7, ""⟩
  extract : extractAll DummyDecryptor [b, a] cpk = .ok sampleContents

section Written

variable {name : String} {fs : FileSystem}

/-- The payloads of the sample inflate to its contents. -/
theorem carries_samplePair (h : SampleSources fs) :
    List.Forall₂ (Carries fs .u64 false false) (samplePair name) sampleContents := by
  have hplain : LaylaDecompressor.isCompressed [4, 5, 6, 7] = .ok false ∧
      LaylaDecompressor.isCompressed [1, 2, 3] = .ok false := by
    decide +kernel
  exact .cons ⟨emittedPayload_rebuilt .u64 false rfl h.first, inflate_plain hplain.1⟩
    (.cons ⟨emittedPayload_rebuilt .u64 false rfl h.second, inflate_plain hplain.2⟩ .nil)

/-- The two files are packed. -/
theorem exists_writeWithProfile_samplePair (h : SampleSources fs) (hsmall : SmallPair name) :
    ∃ report out, writeWithProfile fs .u64 (samplePair name) ⟨16, false⟩ samplePairProfile ⟨[], 0⟩ =
      (.ok report, out) := by
  obtain ⟨plan, hplan, -⟩ := hsmall
  refine exists_writeWithProfile_of_readable ⟨plan, hplan⟩ ?_
  exact List.forall_mem_cons.mpr
    ⟨⟨_, h.first, rfl⟩, List.forall_mem_singleton.mpr ⟨_, h.second, rfl⟩⟩

/-- The archive of the two files is read and extracted. -/
theorem sampleArchive_of_written (hname : name ≠ "") (hnul : name.NulFree) (h : SampleSources fs)
    (hsmall : SmallPair name) {report : CpkWriteReport} {bytes : List UInt8}
    (w : Written fs .u64 (samplePair name) ⟨16, false⟩ samplePairProfile report bytes) :
    ∃ b a cpk, SampleArchive name bytes b a cpk w.metadata := by
  obtain ⟨plan, hplan, htables, -⟩ := hsmall
  obtain rfl := Exec.ok.inj (hplan.symm.trans w.plan_eq)
  obtain ⟨entries, cpk, hfiles, hm, hentries, hextract⟩ := w.extractAll_toc (fun _ => "") rfl
    (by simpa [samplePair] using hname) (fun table h => htables table (by simp [CpkPlan.tables, h]))
    .u64 (carries_samplePair h) (r := CpkReader.new bytes 0 (fun _ => 0) fun _ => 0) rfl rfl
  obtain ⟨b, others, ⟨rel, o, rfl⟩, hothers, rfl⟩ := List.forall₂_cons_left_iff.mp hentries
  obtain ⟨a, none, ⟨rel', o', rfl⟩, hnone, rfl⟩ := List.forall₂_cons_left_iff.mp hothers
  obtain rfl := List.forall₂_nil_left_iff.mp hnone
  obtain ⟨htoc, hitoc⟩ := w.metadata_indexes
  have heid : w.metadata.eid = 1 := rfl
  have hempty : "".NulFree := by decide
  exact ⟨_, _, cpk, hfiles, hm, ⟨htoc.mpr rfl, hitoc.mpr rfl, by rw [heid]; decide⟩,
    ⟨rfl, rfl, rfl, rfl⟩, identity_tocEntry (by decide) (by decide) (by decide) rel o,
    identity_tocEntry hempty hnul hempty rel' o', hextract⟩

variable (name) in
/-- **The archive of the sample** can be written and is read back. -/
theorem exists_sampleArchive (hname : name ≠ "") (hnul : name.NulFree) (hsmall : SmallPair name) :
    ∃ bytes b a cpk metadata, SampleArchive name bytes b a cpk metadata := by
  obtain ⟨fs, hfs⟩ := exists_sampleSources
  obtain ⟨report, out, hwrite⟩ := exists_writeWithProfile_samplePair hfs hsmall
  obtain ⟨w⟩ := written_of_ok hwrite
  obtain ⟨b, a, cpk, h⟩ := sampleArchive_of_written hname hnul hfs hsmall w
  exact ⟨out.bytes, b, a, cpk, w.metadata, h⟩

end Written

/-- Nothing is below the directory `out` when the archive is the only file. -/
theorem emptyBelow_sampleStored (bytes : List UInt8) :
    EmptyBelow .unix "out".asBytes (sampleStored bytes) := by
  intro names hne hplain
  have hhead : (below .unix "out".asBytes names).head? = some 0x6f := head?_below hne hplain
  rw [sampleStored, Function.update_of_ne]
  exact ne_of_apply_ne List.head? (by rw [hhead]; decide +kernel)

section Run

variable {name : String} {bytes : List UInt8} {b a : CpkFile} {cpk : CpkReader}
  {metadata : CpkMetadata} {path : PathBuf}

/-- The strings of the two files. -/
theorem SampleArchive.strings (h : SampleArchive name bytes b a cpk metadata) :
    (b.directory = "d" ∧ b.fileName = "b.bin" ∧ b.userString = "u") ∧
      a.directory = "" ∧ a.fileName = name ∧ a.userString = "" :=
  ⟨⟨congrArg Identity.directory h.first, congrArg Identity.fileName h.first,
      congrArg Identity.userString h.first⟩, congrArg Identity.directory h.second,
    congrArg Identity.fileName h.second, congrArg Identity.userString h.second⟩

/-- What is read of the stored archive is the archive's own entries. -/
theorem SampleArchive.read_stored (h : SampleArchive name bytes b a cpk metadata)
    {bytes' : List UInt8} {files : List CpkFile} {cpk' : CpkReader}
    (hbytes : sampleStored bytes "/s".asBytes = some bytes')
    (hfiles : getFiles (fun _ => "") (CpkReader.new bytes' 0 (fun _ => 0) fun _ => 0) =
      (.ok files, cpk')) : bytes = bytes' ∧ [b, a] = files ∧ cpk = cpk' := by
  obtain rfl := Option.some.inj ((sampleStored_eq bytes).symm.trans hbytes)
  obtain ⟨hsame, rfl⟩ := Prod.mk.inj (h.files.symm.trans hfiles)
  exact ⟨rfl, Exec.ok.inj hsame, rfl⟩

/-- The paths of the two files. -/
theorem SampleArchive.paths (h : SampleArchive name bytes b a cpk metadata)
    (hpath : safeOutputPath .unix "out".asBytes "" name = .ok path) :
    safeOutputPath sampleHost.host "out".asBytes b.directory b.fileName =
        .ok "out/d/b.bin".asBytes ∧
      safeOutputPath sampleHost.host "out".asBytes a.directory a.fileName = .ok path := by
  obtain ⟨⟨hdirectory, hfileName, -⟩, hdirectory', hfileName', -⟩ := h.strings
  rw [hdirectory, hfileName, hdirectory', hfileName']
  exact ⟨by decide +kernel, hpath⟩

/-- The paths of the entries of the sample. -/
theorem SampleArchive.destinations (h : SampleArchive name bytes b a cpk metadata)
    (hpath : safeOutputPath .unix "out".asBytes "" name = .ok path)
    (hreserved : samePath .unix path (Manifest.path .unix "out".asBytes) = false) :
    List.Forall₂ (Destination sampleHost "out".asBytes) [b, a] ["out/d/b.bin".asBytes, path] :=
  .cons ⟨(h.paths hpath).1, by decide +kernel⟩ (.cons ⟨(h.paths hpath).2, hreserved⟩ .nil)

/-- The archive of the two files is unpacked. -/
theorem SampleArchive.unpack (h : SampleArchive name bytes b a cpk metadata)
    (hpath : safeOutputPath .unix "out".asBytes "" name = .ok path)
    (hreserved : samePath .unix path (Manifest.path .unix "out".asBytes) = false) :
    unpackWith sampleHost (fun _ => "") DummyDecryptor "/s".asBytes "out".asBytes false (fun _ => 0)
      (fun _ => 0) (sampleStored bytes) =
        (.ok (), unpackedFiles sampleHost "out".asBytes (sampleStored bytes)
          ["out/d/b.bin".asBytes, path] sampleContents
          (manifestOf (sampleHost.absolutePath "/s".asBytes)
            (UInt64.ofNat bytes.length, hashBytes bytes) metadata false
            (records 0 [b, a] sampleContents))) :=
  unpackWith_eq_ok.mpr ⟨bytes, [b, a], cpk, metadata, sampleContents, _, sampleStored_eq bytes,
    h.files, h.metadata_eq, h.extract, h.destinations hpath hreserved,
    fun _ => Nat.le_of_lt (by norm_num), rfl⟩

/-- The two entries clash when their paths are the same, or the second has the path that the
manifest is written to first. -/
theorem SampleArchive.noClash_iff (h : SampleArchive name bytes b a cpk metadata)
    (hpath : safeOutputPath .unix "out".asBytes "" name = .ok path) :
    NoClash sampleHost "out".asBytes [b, a] sampleContents ↔
      path ≠ "out/d/b.bin".asBytes ∧ path ≠ temporaryPath .unix "out".asBytes := by
  obtain ⟨hfirst, hsecond⟩ := h.paths hpath
  have hmem : (b, [4, 5, 6, 7], [4, 5, 6, 7]) ∈ [b, a].zip sampleContents ∧
      (a, [1, 2, 3], [1, 2, 3]) ∈ [b, a].zip sampleContents :=
    ⟨List.mem_cons_self, List.mem_cons_of_mem _ (List.mem_singleton_self _)⟩
  constructor
  · rintro ⟨hsame, htemporary⟩
    refine ⟨?_, ?_⟩
    · rintro rfl
      have hcontents : ([4, 5, 6, 7] : List UInt8) = [1, 2, 3] :=
        hsame _ hmem.1 _ hmem.2 _ hfirst hsecond
      exact absurd hcontents (by decide)
    · rintro rfl
      exact htemporary _ hmem.2 hsecond
  · rintro ⟨hne, htemporary⟩
    have hpair : ∀ x ∈ [b, a].zip sampleContents, x = (b, [4, 5, 6, 7], [4, 5, 6, 7]) ∨
        x = (a, [1, 2, 3], [1, 2, 3]) := fun x hx => List.mem_pair.mp hx
    refine ⟨fun x hx y hy p hpx hpy => ?_, fun x hx htemp => ?_⟩
    · rcases hpair x hx with rfl | rfl <;> rcases hpair y hy with rfl | rfl
      · rfl
      · exact absurd (Exec.ok.inj (hsecond.symm.trans (hpy.trans (hpx.symm.trans hfirst)))) hne
      · exact absurd (Exec.ok.inj (hsecond.symm.trans (hpx.trans (hpy.symm.trans hfirst)))) hne
      · rfl
    · rcases hpair x hx with rfl | rfl
      · exact absurd (Exec.ok.inj (hfirst.symm.trans htemp)) (by decide +kernel)
      · exact htemporary (Exec.ok.inj (hsecond.symm.trans htemp))

end Run

end Sample

section Main

variable {sys : HostSystem} {shiftJis : List UInt8 → String} {E : FileDecryptor}
  {input output : PathBuf} {p5r : Bool} {slab heap : ℕ → UInt8} {fs fs' : FileSystem}

/-- The manifest of an archive whose entries were returned can be read. -/
theorem consistent_manifestOf {bytes : List UInt8} {files : List CpkFile} {cpk : CpkReader}
    {metadata : CpkMetadata}
    (h : getFiles shiftJis (CpkReader.new bytes 0 slab heap) = (.ok files, cpk))
    (hmetadata : cpk.metadata = some metadata) (sourceArchive : PathBuf)
    (archive : UInt64 × UInt64) (p5r : Bool) (entries : List ManifestEntry) :
    (manifestOf sourceArchive archive metadata p5r entries).Consistent := by
  obtain ⟨m, r₁, hm, hindex, -⟩ := getFiles_eq_ok h
  obtain rfl := Option.some.inj (hmetadata.symm.trans hm)
  constructor
  · by_cases htoc : metadata.tocOffset ≠ 0
    · exact .inl (bne_iff_ne.mpr htoc)
    · rw [readIndex, if_neg htoc] at hindex
      split_ifs at hindex with hitoc
      · exact .inr (bne_iff_ne.mpr hitoc)
      · cases hindex
  · intro hdirect
    exact (Bool.and_eq_true_iff.mp hdirect).1

/-- **When unpacking has lost no entry.** A run that returned has read and extracted all entries;
every entry is in the file at its path, and the manifest records each of them in order, exactly when
entries with one path have one content and no entry has the path of the temporary manifest.

**Proof sketch.** `unpackWith_eq_ok` turns the command into the entries and the records it keeps.
The records are always read back with their bytes, so that only the files can be lost, and a file is
lost iff a later entry is written to its path (`everyEntryKept_iff`). -/
theorem unpack_keeps_iff
    (h : unpackWith sys shiftJis E input output p5r slab heap fs = (.ok (), fs')) :
    ∃ bytes files cpk contents, fs input = some bytes ∧
      getFiles shiftJis (CpkReader.new bytes 0 slab heap) = (.ok files, cpk) ∧
      extractAll E files cpk = .ok contents ∧
      ((EveryEntryKept sys output files contents fs' ∧
        RecordsEntries sys output files contents fs') ↔ NoClash sys output files contents) := by
  obtain ⟨bytes, files, cpk, metadata, contents, paths, hbytes, hfiles, hmetadata, hcontents, hpaths,
    -, rfl⟩ := unpackWith_eq_ok.mp h
  refine ⟨bytes, files, cpk, contents, hbytes, hfiles, hcontents, ?_⟩
  have hrecords : RecordsEntries sys output files contents (unpackedFiles sys output fs paths contents
      (manifestOf (sys.absolutePath input) (UInt64.ofNat bytes.length, hashBytes bytes) metadata p5r
        (records 0 files contents))) := by
    have hread := read_unpackedFiles sys output fs paths contents
      (consistent_manifestOf hfiles hmetadata (sys.absolutePath input)
        (UInt64.ofNat bytes.length, hashBytes bytes) p5r (records 0 files contents))
    exact ⟨length_extractAll hcontents, _, hread, rfl⟩
  rw [everyEntryKept_iff hpaths]
  exact and_iff_left hrecords

/-- Two files are in their places after their archive was unpacked, and one of them is lost when
both have one path. -/
theorem unpack_keeps_iff_sample :
    (∃ bytes fs', unpackWith sampleHost (fun _ => "") DummyDecryptor "/s".asBytes "out".asBytes false
        (fun _ => 0) (fun _ => 0) (sampleStored bytes) = (.ok (), fs') ∧
      fs' "out/d/b.bin".asBytes = some [4, 5, 6, 7] ∧ fs' "out/a".asBytes = some [1, 2, 3]) ∧
    ∃ bytes files fs', unpackWith sampleHost (fun _ => "") DummyDecryptor "/s".asBytes "out".asBytes
        false (fun _ => 0) (fun _ => 0) (sampleStored bytes) = (.ok (), fs') ∧
      ¬(EveryEntryKept sampleHost "out".asBytes files sampleContents fs' ∧
        RecordsEntries sampleHost "out".asBytes files sampleContents fs') := by
  have hrun : ∀ {name : String} {bytes : List UInt8} {b a : CpkFile} {cpk : CpkReader}
      {metadata : CpkMetadata} {path : PathBuf}, SampleArchive name bytes b a cpk metadata →
      safeOutputPath .unix "out".asBytes "" name = .ok path →
      samePath .unix path (Manifest.path .unix "out".asBytes) = false →
      ∃ fs', unpackWith sampleHost (fun _ => "") DummyDecryptor "/s".asBytes "out".asBytes false
          (fun _ => 0) (fun _ => 0) (sampleStored bytes) = (.ok (), fs') ∧
        ((EveryEntryKept sampleHost "out".asBytes [b, a] sampleContents fs' ∧
          RecordsEntries sampleHost "out".asBytes [b, a] sampleContents fs') ↔
            path ≠ "out/d/b.bin".asBytes ∧ path ≠ temporaryPath .unix "out".asBytes) := by
    intro name bytes b a cpk metadata path h hpath hreserved
    obtain ⟨bytes', files, cpk', contents, hbytes, hfiles, hcontents, hiff⟩ :=
      unpack_keeps_iff (h.unpack hpath hreserved)
    obtain ⟨rfl, rfl, rfl⟩ := h.read_stored hbytes hfiles
    obtain rfl := Exec.ok.inj (h.extract.symm.trans hcontents)
    exact ⟨_, h.unpack hpath hreserved, hiff.trans (h.noClash_iff hpath)⟩
  constructor
  · obtain ⟨bytes, b, a, cpk, metadata, h⟩ :=
      exists_sampleArchive "a" (by decide) (by decide) smallPair_a
    have hpath : safeOutputPath .unix "out".asBytes "" "a" = .ok "out/a".asBytes := by
      decide +kernel
    obtain ⟨fs', hunpack, hiff⟩ := hrun h hpath (by decide +kernel)
    have hkept := (hiff.mpr ⟨by decide +kernel, by decide +kernel⟩).1
    exact ⟨bytes, fs', hunpack, hkept (b, [4, 5, 6, 7], [4, 5, 6, 7]) List.mem_cons_self _
      (h.paths hpath).1, hkept (a, [1, 2, 3], [1, 2, 3])
        (List.mem_cons_of_mem _ (List.mem_singleton_self _)) _ (h.paths hpath).2⟩
  · obtain ⟨bytes, b, a, cpk, metadata, h⟩ :=
      exists_sampleArchive "d/b.bin" (by decide) (by decide) (by unfold SmallPair; decide +kernel)
    have hpath : safeOutputPath .unix "out".asBytes "" "d/b.bin" = .ok "out/d/b.bin".asBytes := by
      decide +kernel
    obtain ⟨fs', hunpack, hiff⟩ := hrun h hpath (by decide +kernel)
    exact ⟨bytes, [b, a], fs', hunpack, fun hboth => (hiff.mp hboth).1 rfl⟩

/-- An entry with the name of the temporary manifest is lost. -/
theorem not_unpack_keeps : ¬∀ (sys : HostSystem) (shiftJis : List UInt8 → String)
    (E : FileDecryptor) (input output : PathBuf) (p5r : Bool) (slab heap : ℕ → UInt8)
    (fs fs' : FileSystem), sys.host = .unix →
    (E = DummyDecryptor ∨ ∃ path, E = P5RDecryptor path) → EmptyBelow sys.host output fs →
    unpackWith sys shiftJis E input output p5r slab heap fs = (.ok (), fs') →
    ∃ bytes files cpk contents, fs input = some bytes ∧
      getFiles shiftJis (CpkReader.new bytes 0 slab heap) = (.ok files, cpk) ∧
      extractAll E files cpk = .ok contents ∧ EveryEntryKept sys output files contents fs' ∧
      RecordsEntries sys output files contents fs' := by
  intro hclaim
  have hpath : safeOutputPath .unix "out".asBytes "" ".cri-cpk-manifest-v2.tmp" =
      .ok (temporaryPath .unix "out".asBytes) := by
    decide +kernel
  have hreserved : samePath .unix (temporaryPath .unix "out".asBytes)
      (Manifest.path .unix "out".asBytes) = false := by
    decide +kernel
  obtain ⟨bytes, b, a, cpk, metadata, h⟩ := exists_sampleArchive ".cri-cpk-manifest-v2.tmp"
    (by decide) (by decide) (by unfold SmallPair; decide +kernel)
  obtain ⟨bytes', files, cpk', contents, hbytes, hfiles, hcontents, hkept, -⟩ :=
    hclaim _ _ _ _ _ _ _ _ _ _ rfl (.inl rfl) (emptyBelow_sampleStored bytes)
      (h.unpack hpath hreserved)
  obtain ⟨rfl, rfl, rfl⟩ := h.read_stored hbytes hfiles
  obtain rfl := Exec.ok.inj (h.extract.symm.trans hcontents)
  have hclash := (everyEntryKept_iff (h.destinations hpath hreserved) _).mp hkept
  exact ((h.noClash_iff hpath).mp hclash).2 rfl

end Main

end CriArchive
