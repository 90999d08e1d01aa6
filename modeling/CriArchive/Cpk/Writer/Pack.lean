import Mathlib.Logic.Function.Basic
import CriArchive.Cpk.Writer.Success
import CriArchive.Lib.Utf8

set_option relaxedAutoImplicit false
set_option autoImplicit false

/-!
# Packing to a file

`pack_files_with_profile` and `pack_directory` of `cpk/writer.rs`, as steps on the files of the
host. Failures of the host itself (a directory that cannot be created, a full disk) are left out;
everything the crate checks is in.

## Main definitions

* `packFilesWithProfile`, `packDirectory` — the two entry points.
* `packable`, `Packs` — whether the writer succeeds on its input, and when it does.
* `leftByWriter` — what the writer has put out when it stops on an empty file.
* `KeepsOnErr` — a call that fails leaves the output path as it was.

## Main results

* `writeWithProfile_run` — how a run of the writer on an empty stream ends, and what it leaves.
* `packable_iff` — the writer succeeds iff its input packs.
* `pack_keepsOnErr_iff` — which calls never lose what the output path held.
-/

namespace CriArchive

open ByteStream Regions

/-! ## How the writer ends -/

section Outcome

variable (fs : FileSystem) (path : P5RPath) (files : List CpkInputFile)
  (options : CpkWriterOptions) (profile : CpkWriterProfile)

/-- Whether the writer succeeds: the archive can be planned, and every payload can be read with
the size its entry states. -/
def packable : Bool :=
  match planArchive files options profile with
  | .ok _ => files.all (emittable fs path options.p5rEncryption)
  | _ => false

/-- What the writer leaves on an empty stream when it stops early: nothing when there is no plan,
and otherwise header, marker, indices and the payloads up to the first that fails. -/
def leftByWriter : List UInt8 :=
  match planArchive files options profile with
  | .ok p => assemble 0 [] (p.indexRegions ++ [(p.contentOffset.toNat, [])] ++
      (place options.alignment.toNat p.contentOffset.toNat
        ((inOrder files p.physicalOrder).map fun f => f.size.toNat)).zip
      (putPayloads fs path options.p5rEncryption (inOrder files p.physicalOrder)))
  | _ => []

/-- **How the writer ends** on an empty stream: with a report iff its input is packable, and with
an error and the part of the archive up to the failure otherwise.

**Proof sketch.** Without a plan nothing is written. With one, the head is put out without fail
(`emitArchive_head`), and the payloads up to the first that is not emittable (`emitPayloads_run`);
the loop over the payloads returns iff all are. -/
theorem writeWithProfile_run :
    ∃ r t, writeWithProfile fs path files options profile ⟨[], 0⟩ = (r, t) ∧
      r.Ends (fun _ => packable fs path files options profile = true) fun _ =>
        packable fs path files options profile = false ∧
          t.bytes = leftByWriter fs path files options profile := by
  have hends := planArchive_ends files options profile
  unfold writeWithProfile packable leftByWriter
  rcases hplan : planArchive files options profile with p | e | _ <;> rw [hplan] at hends
  · obtain ⟨hperm, -, -⟩ := buildPhysicalOrder_spec hends.order
    obtain ⟨s, hhead, hover, hlen⟩ := emitArchive_head hends fs path ⟨[], 0⟩
    obtain ⟨r, t, hrun, hput, hresult⟩ := emitPayloads_run (alignment_pos hends)
      (fun i hi => List.mem_range.mp (hperm.mem_iff.mp hi)) hends.lengthOffsets hends.placed hover
      hlen.le
    rw [ExecM.bind_of_ok (ExecM.lift_apply _ _)]
    have hall : (∀ f ∈ inOrder files p.physicalOrder, emittable fs path options.p5rEncryption f) ↔
        files.all (emittable fs path options.p5rEncryption) = true := by
      simp only [List.all_eq_true, (inOrder_perm hperm).mem_iff]
    dsimp only
    rcases r with ⟨⟩ | e | _
    · obtain ⟨u, hu, -⟩ := fillTo_overwritten hput p.archiveSize.toNat
      have hemit : emitArchive fs path files options p ⟨[], 0⟩ = (.ok (), u) := by
        rw [hhead, ExecM.bind_of_ok hrun, ExecM.bind_of_ok (position_apply t), hu]
      exact ⟨.ok p.report, u, ExecM.bind_of_ok hemit _, hall.mp hresult⟩
    · obtain ⟨-, f, hf, hnot⟩ := hresult
      refine ⟨.err e, t, ExecM.bind_of_err (hhead.trans (ExecM.bind_of_err hrun _)) _, ?_, ?_⟩
      · exact List.all_eq_false.mpr ⟨f, (inOrder_perm hperm).mem_iff.mp hf, by simp [hnot]⟩
      · rw [hput.bytes_eq, ← assemble_append]
    · exact hresult.elim
  · exact ⟨.err e, _, rfl, rfl, rfl⟩
  · exact hends.elim

/-- **Inputs that are packed**: an archive can be planned for them, and every payload can be read
with the size its entry states. -/
def Packs : Prop := Plannable files options profile ∧ ∀ f ∈ files, Readable fs f

variable {fs path files options profile}

/-- The writer succeeds iff its input packs, on every path of the transform. -/
theorem packable_iff : packable fs path files options profile = true ↔
    Packs fs files options profile := by
  have hall : files.all (emittable fs path options.p5rEncryption) = true ↔
      ∀ f ∈ files, Readable fs f := by
    simp only [List.all_eq_true, emittable_iff_readable]
  unfold packable Packs
  rw [← exists_planArchive_iff, ← hall]
  cases planArchive files options profile <;> simp

/-- On a packable input the writer returns. -/
theorem exists_writeWithProfile (h : packable fs path files options profile = true) :
    ∃ report t, writeWithProfile fs path files options profile ⟨[], 0⟩ = (.ok report, t) := by
  obtain ⟨r, t, hrun, hends⟩ := writeWithProfile_run fs path files options profile
  rcases r with report | e | _
  · exact ⟨report, t, hrun⟩
  · rw [h] at hends
    cases hends.1
  · exact hends.elim

/-- An archive that can be planned is written when its payloads can be read. -/
theorem exists_writeWithProfile_of_readable
    (hplan : ∃ plan, planArchive files options profile = .ok plan)
    (hread : ∀ f ∈ files, Readable fs f) :
    ∃ report t, writeWithProfile fs path files options profile ⟨[], 0⟩ = (.ok report, t) :=
  exists_writeWithProfile (packable_iff.mpr ⟨exists_planArchive_iff.mp hplan, hread⟩)

end Outcome

/-! ## Packing into a file -/

/-- `CpkWriterProfile::default`. -/
def CpkWriterProfile.default : CpkWriterProfile where
  indexMode := .toc
  directItoc := false
  version := 7
  revision := 0
  updateDateTime := 0
  tvers := "7.0.0"
  comment := "Created by cri-cpk-cli"

section Pack

variable (path : P5RPath) (outputFile : PathBuf) (seen : List UInt8)

/-- `CpkWriter::pack_files_with_profile`. The output is created, which truncates it, before the
writer starts; `seen` is what a source that is the output itself shows while it is written. The
buffer of the output is put out when it is dropped, also after an error. -/
def packFilesWithProfile (files : List CpkInputFile) (options : CpkWriterOptions)
    (profile : CpkWriterProfile) : ExecM FileSystem Error CpkWriteReport := fun fs =>
  let r := writeWithProfile (Function.update fs outputFile (some seen)) path files options profile
    ⟨[], 0⟩
  (r.1, Function.update fs outputFile (some r.2.bytes))

/-- `CpkWriter::pack_files`. -/
def packFiles (files : List CpkInputFile) (options : CpkWriterOptions) :
    ExecM FileSystem Error CpkWriteReport :=
  packFilesWithProfile path outputFile seen files options .default

/-- A regular file below the input directory. -/
structure FoundFile where
  path : PathBuf
  /-- The names of the directories from the input directory to the file. -/
  parents : List (List UInt8)
  name : List UInt8
  size : UInt64
  /-- Whether its canonical path is that of the output. -/
  isOutput : Bool
  deriving DecidableEq, Repr

/-- Names joined with `/`, as a path. -/
def joinSlash (names : List (List UInt8)) : PathBuf := (names.intersperse [0x2f]).flatten

/-- `path_to_cri_string` of `cpk/writer.rs`, on a path given by its components. -/
def pathToCriString (components : List (List UInt8)) : Exec Error String := do
  let parts ← components.mapM fun c =>
    Exec.okOr (Utf8.decode c) (.writer (.nonUtf8Path (joinSlash components)))
  pure ("/".intercalate parts)

/-- Whether a file is skipped: a manifest, or the output itself. -/
def FoundFile.skipped (f : FoundFile) : Bool :=
  f.name == ".cri-cpk-manifest-v1".asBytes || f.name == ".cri-cpk-manifest-v2".asBytes ||
    f.isOutput

/-- One round of the loop of `collect_files`. -/
def FoundFile.toInput (f : FoundFile) : Exec Error CpkInputFile := do
  let fileName ← Exec.okOr (Utf8.decode f.name) (.writer (.nonUtf8Path f.path))
  let directory ← pathToCriString f.parents
  let size ← Exec.okOr (UInt32.tryFrom f.size.toNat) (.writer (.fileTooLarge f.path f.size))
  pure ⟨directory, fileName, f.path, size, size, 0, "", none⟩

/-- `engine_path_key`, as bytes: slashes of one kind, and ASCII letters in upper case. -/
def enginePathKey (f : CpkInputFile) : List UInt8 :=
  ((if f.directory = "" then [] else f.directory.asBytes ++ [0x2f]) ++ f.fileName.asBytes).map
    fun b => if b = 0x5c then 0x2f else if 0x61 ≤ b ∧ b ≤ 0x7a then b - 0x20 else b

/-- The IDs of collected files are their positions. -/
def numberFiles (count : ℕ) : ℕ → List CpkInputFile → Exec Error (List CpkInputFile)
  | _, [] => pure []
  | index, f :: files => do
    let id ← Exec.okOr (UInt32.tryFrom index) (.writer (.tooManyFiles count))
    let rest ← numberFiles count (index + 1) files
    pure ({ f with id } :: rest)

/-- `collect_files`, on what the traversal of the input directory yields, in its order. -/
def collectFiles (found : List (Exec Error FoundFile)) : Exec Error (List CpkInputFile) := do
  let result ← found.filterMapM fun entry => do
    let f ← entry
    if f.skipped then pure none else some <$> f.toInput
  numberFiles result.length 0 (result.mergeSort fun a b =>
    decide (enginePathKey a < enginePathKey b) ||
      (enginePathKey a == enginePathKey b && decide (a.id ≤ b.id)))

/-- What `pack_directory` does before it packs the files. -/
def gatherFiles (found : List (Exec Error FoundFile)) (options : CpkWriterOptions) :
    Exec Error (List CpkInputFile) := do
  validateAlignment options.alignment
  let files ← collectFiles found
  Exec.errIf (files = []) (.writer .emptyInput)
  pure files

/-- `CpkWriter::pack_directory`. -/
def packDirectory (found : List (Exec Error FoundFile)) (options : CpkWriterOptions) :
    ExecM FileSystem Error CpkWriteReport := do
  let files ← ExecM.lift (gatherFiles found options)
  packFiles path outputFile seen files options

/-- A call that fails leaves the content of the output path as it was. -/
def KeepsOnErr (call : ExecM FileSystem Error CpkWriteReport) (fs : FileSystem) : Prop :=
  ∀ e fs', call fs = (.err e, fs') → fs' outputFile = fs outputFile

variable {path outputFile seen}

/-- The directory is packed as the files that were gathered in it. -/
theorem packDirectory_of_ok {found : List (Exec Error FoundFile)} {options : CpkWriterOptions}
    {gathered : List CpkInputFile} (h : gatherFiles found options = .ok gathered)
    (fs : FileSystem) : packDirectory path outputFile seen found options fs =
      packFilesWithProfile path outputFile seen gathered options .default fs := by
  rw [packDirectory, ExecM.bind_of_ok (by rw [ExecM.lift_apply, h])]
  rfl

/-- When the files cannot be gathered, nothing is written. -/
theorem keepsOnErr_of_not_gathered {found : List (Exec Error FoundFile)}
    {options : CpkWriterOptions} (h : ∀ gathered, gatherFiles found options ≠ .ok gathered)
    (fs : FileSystem) : KeepsOnErr outputFile (packDirectory path outputFile seen found options) fs := by
  intro e fs' hcall
  rcases hgather : gatherFiles found options with gathered | e' | _
  · exact absurd hgather (h gathered)
  · have hrun : packDirectory path outputFile seen found options fs = (.err e', fs) :=
      ExecM.bind_of_err (by rw [ExecM.lift_apply, hgather]) _
    obtain ⟨-, rfl⟩ := Prod.mk.inj (hrun.symm.trans hcall)
    rfl
  · have hrun : packDirectory path outputFile seen found options fs = (.fault, fs) :=
      ExecM.bind_of_fault (by rw [ExecM.lift_apply, hgather]) _
    obtain ⟨hfault, -⟩ := Prod.mk.inj (hrun.symm.trans hcall)
    cases hfault

section PackFiles

variable (fs : FileSystem) (files : List CpkInputFile) (options : CpkWriterOptions)
  (profile : CpkWriterProfile)

/-- **A call that packs loses nothing**, as it does not fail. -/
theorem keepsOnErr_of_packs
    (h : Packs (Function.update fs outputFile (some seen)) files options profile)
    (prior : Option (List UInt8)) : KeepsOnErr outputFile
      (packFilesWithProfile path outputFile seen files options profile)
      (Function.update fs outputFile prior) := by
  have hpackable : packable (Function.update fs outputFile (some seen)) path files options profile =
      true := packable_iff.mpr h
  obtain ⟨report, t, hrun⟩ := exists_writeWithProfile hpackable
  intro e fs' hcall
  rw [packFilesWithProfile, Function.update_idem, hrun] at hcall
  cases hcall

/-- **A call that does not pack** leaves the output path as it was for one content only: what the
writer leaves on an empty file, which is nothing at all when no archive can be planned. -/
theorem keepsOnErr_iff_left
    (h : ¬Packs (Function.update fs outputFile (some seen)) files options profile) :
    ∃ left : List UInt8, (¬Plannable files options profile → left = []) ∧
      ∀ prior, KeepsOnErr outputFile
        (packFilesWithProfile path outputFile seen files options profile)
        (Function.update fs outputFile prior) ↔ prior = some left := by
  obtain ⟨r, t, hrun, hends⟩ := writeWithProfile_run (Function.update fs outputFile (some seen))
    path files options profile
  have hcall : ∀ prior, packFilesWithProfile path outputFile seen files options profile
      (Function.update fs outputFile prior) = (r, Function.update fs outputFile (some t.bytes)) := by
    intro prior
    rw [packFilesWithProfile, Function.update_idem, hrun, Function.update_idem]
  rcases r with report | e | _
  · exact absurd (packable_iff.mp hends) h
  · refine ⟨t.bytes, fun hplan => ?_, fun prior => ?_⟩
    · rw [hends.2, leftByWriter]
      rcases hplanned : planArchive files options profile with p | e' | _
      · exact absurd (plannable_of_planArchive hplanned) hplan
      · rfl
      · rfl
    · constructor
      · intro hkeeps
        have hsame := hkeeps e _ (hcall prior)
        rw [Function.update_self, Function.update_self] at hsame
        exact hsame.symm
      · rintro rfl e' fs' herr
        obtain ⟨-, rfl⟩ := Prod.mk.inj ((hcall _).symm.trans herr)
        rfl
  · exact hends.elim

/-- A call loses nothing, whatever the output path held, iff it packs. -/
theorem packFiles_keepsOnErr_iff : (∀ prior, KeepsOnErr outputFile
      (packFilesWithProfile path outputFile seen files options profile)
      (Function.update fs outputFile prior)) ↔
    Packs (Function.update fs outputFile (some seen)) files options profile := by
  refine ⟨fun hkeeps => ?_, fun h prior => keepsOnErr_of_packs fs files options profile h prior⟩
  by_contra hnot
  -- an absent output is not left absent
  obtain ⟨left, -, hleft⟩ : ∃ left : List UInt8, _ ∧ ∀ prior, KeepsOnErr outputFile
      (packFilesWithProfile path outputFile seen files options profile)
      (Function.update fs outputFile prior) ↔ prior = some left :=
    keepsOnErr_iff_left fs files options profile hnot
  exact absurd ((hleft none).mp (hkeeps none)) (by simp)

end PackFiles

variable (path outputFile seen)

/-- **Which failed packs may lose the previous archive.** A call leaves the output path as it was
whenever it fails, whatever was there before, iff its input packs and it cannot fail: with a source
that cannot be read or an input for which no archive can be planned, it is truncated first. Then one
previous content at most comes out unchanged: what the writer leaves on an empty file.

**Proof sketch.** The output is created before anything is checked, so that what is left does not
depend on what was there (`keepsOnErr_iff_left`), while there are two contents that differ. By
`packable_iff`, no call that packs fails. -/
theorem pack_keepsOnErr_iff (fs : FileSystem) (files : List CpkInputFile)
    (found : List (Exec Error FoundFile)) (options : CpkWriterOptions)
    (profile : CpkWriterProfile) :
    ((∀ prior, KeepsOnErr outputFile
        (packFilesWithProfile path outputFile seen files options profile)
        (Function.update fs outputFile prior)) ↔
      Packs (Function.update fs outputFile (some seen)) files options profile) ∧
    ((∀ prior, KeepsOnErr outputFile (packDirectory path outputFile seen found options)
        (Function.update fs outputFile prior)) ↔
      ∀ gathered, gatherFiles found options = .ok gathered →
        Packs (Function.update fs outputFile (some seen)) gathered options .default) ∧
    (¬Packs (Function.update fs outputFile (some seen)) files options profile →
      ∃ left : List UInt8, (¬Plannable files options profile → left = []) ∧
        ∀ prior, KeepsOnErr outputFile
          (packFilesWithProfile path outputFile seen files options profile)
          (Function.update fs outputFile prior) ↔ prior = some left) := by
  refine ⟨packFiles_keepsOnErr_iff fs files options profile, ?_,
    keepsOnErr_iff_left fs files options profile⟩
  by_cases hgather : ∃ gathered, gatherFiles found options = .ok gathered
  · obtain ⟨gathered, hgathered⟩ := hgather
    simp only [hgathered, Exec.ok.injEq, forall_eq', KeepsOnErr, packDirectory_of_ok hgathered]
    exact packFiles_keepsOnErr_iff fs gathered options .default
  · refine iff_of_true (fun prior => keepsOnErr_of_not_gathered ?_ _) fun gathered h => ?_
    · exact fun gathered h => hgather ⟨gathered, h⟩
    · exact absurd ⟨gathered, h⟩ hgather

/-- Packing two files with one ID fails, and empties an output that held a byte. -/
theorem not_pack_keepsOnErr : ¬∀ (path : P5RPath) (outputFile : PathBuf) (seen : List UInt8)
    (fs : FileSystem) (files : List CpkInputFile) (options : CpkWriterOptions)
    (profile : CpkWriterProfile) (found : List (Exec Error FoundFile)),
    KeepsOnErr outputFile (packFilesWithProfile path outputFile seen files options profile) fs ∧
      KeepsOnErr outputFile (packDirectory path outputFile seen found options) fs := by
  intro hclaim
  obtain ⟨hkeeps, -⟩ := hclaim .u64 [0x6f] [] (Function.update sampleFileSystem [0x6f] (some [1]))
    [⟨"d", "b", [0x62], 272, 272, 7, "u", none⟩, ⟨"d", "a", [0x61], 3, 3, 7, "", none⟩] ⟨16, false⟩
    (sampleProfile .tocAndItoc) []
  have h := hkeeps (.writer (.duplicateItocId 7)) _ (Prod.ext (by decide +kernel) rfl)
  exact absurd h (by decide +kernel)

end Pack

end CriArchive
