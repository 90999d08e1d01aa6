import Mathlib.Logic.Function.Basic
import CriArchive.Cpk.Writer.Emit
import CriArchive.Lib.Utf8
import CriArchive.Lib.Verbatim

set_option relaxedAutoImplicit false
set_option autoImplicit false

/-!
# The host of the command line

The errors of the command line, and what it does with the files of its host. A directory is there
as soon as a file below it is: creating one does nothing here, and failures of the host itself
(a directory that cannot be created, a full disk) are left out, as they are for the writer.

## Main definitions

* `CliError` — the errors of the command line.
* `HostSystem` — what the host decides.
* `openFile`, `writeFile`, `removeFile`, `renameFile` — the operations on files.
* `hashBytes` — the hash of a file's contents.
-/

namespace CriArchive

/-! ## Errors -/

/-- The errors of the command line. A text without a path is kept as it is. -/
inductive CliError where
  /-- An error of the crate. -/
  | crate (e : Error)
  /-- A file that cannot be opened or read. -/
  | io (path : PathBuf)
  /-- `unsafe path in CPK: {directory}/{file_name}` -/
  | rejectedPath (directory fileName : String)
  /-- `unsafe path in CPK manifest: {directory}/{file_name}` -/
  | rejectedManifestPath (directory fileName : String)
  /-- `empty path in CPK manifest` -/
  | emptyManifestPath
  /-- `CPK entry conflicts with reserved manifest name: {destination}` -/
  | reservedName (destination : PathBuf)
  /-- `{path} is too large for CPK` -/
  | fileTooLarge (path : PathBuf)
  /-- `non-UTF-8 path: {path}` -/
  | nonUtf8Path (path : PathBuf)
  | message (text : String)
  deriving DecidableEq, Repr

/-! ## What the host decides -/

/-- What the host decides. -/
structure HostSystem where
  /-- Its rules for paths. -/
  host : StdPath.Host
  /-- `absolute_path` -/
  absolutePath : PathBuf → PathBuf
  /-- `Path::to_string_lossy` -/
  lossy : PathBuf → String

/-- Text is not changed by `to_string_lossy`. -/
def HostSystem.KeepsText (sys : HostSystem) : Prop := ∀ s : String, sys.lossy s.asBytes = s

/-- A host without drives and links, with the root as its working directory. -/
def sampleHost : HostSystem where
  host := .unix
  absolutePath path := StdPath.join .unix [0x2f] path
  lossy path := (Utf8.decode path).getD ""

/-- The sample host keeps text. -/
theorem keepsText_sampleHost : sampleHost.KeepsText := fun s => by
  change (Utf8.decode s.asBytes).getD "" = s
  rw [String.asBytes, Utf8.decode_encode, Option.getD_some, String.ofList_toList]

/-! ## Files -/

/-- The contents of a file that must be there. -/
def openFile (fs : FileSystem) (path : PathBuf) : Exec CliError (List UInt8) :=
  Exec.okOr (fs path) (.io path)

/-- `fs::write`, and `File::create` with what is written to it. -/
def writeFile (path : PathBuf) (contents : List UInt8) : ExecM FileSystem CliError Unit :=
  fun fs => (.ok (), Function.update fs path (some contents))

/-- `fs::remove_file` -/
def removeFile (path : PathBuf) : ExecM FileSystem CliError Unit := fun fs =>
  match fs path with
  | some _ => (.ok (), Function.update fs path none)
  | none => (.err (.io path), fs)

/-- `fs::rename` -/
def renameFile (source target : PathBuf) : ExecM FileSystem CliError Unit := fun fs =>
  match fs source with
  | some contents =>
    (.ok (), Function.update (Function.update fs source none) target (some contents))
  | none => (.err (.io source), fs)

/-- Removing a file if it exists. -/
def removeExisting (path : PathBuf) : ExecM FileSystem CliError Unit := do
  let fs ← ExecM.get
  if (fs path).isSome then removeFile path else pure ()

section Apply

variable {source target path : PathBuf} {contents : List UInt8} {fs : FileSystem}

/-- Writing a file puts the contents there. -/
theorem writeFile_apply (path : PathBuf) (contents : List UInt8) (fs : FileSystem) :
    writeFile path contents fs = (.ok (), Function.update fs path (some contents)) := rfl

/-- Removing a file leaves nothing there. -/
theorem removeExisting_apply (path : PathBuf) (fs : FileSystem) :
    removeExisting path fs = (.ok (), Function.update fs path none) := by
  unfold removeExisting
  rw [ExecM.bind_of_ok (ExecM.get_apply fs)]
  rcases h : fs path with _ | contents
  · rw [Option.isSome_none, if_neg (by decide), ExecM.pure_apply, ← h, Function.update_eq_self]
  · rw [Option.isSome_some, if_pos rfl, removeFile, h]

/-- Renaming a file that is there moves its contents. -/
theorem renameFile_apply (h : fs source = some contents) (target : PathBuf) :
    renameFile source target fs =
      (.ok (), Function.update (Function.update fs source none) target (some contents)) := by
  rw [renameFile, h]

end Apply

/-- `FNV_OFFSET_BASIS` -/
def fnvOffsetBasis : UInt64 := 0xcbf29ce484222325

/-- `FNV_PRIME` -/
def fnvPrime : UInt64 := 0x100000001b3

/-- `hash_bytes`, and the loop of `hash_file`. -/
def hashBytes (bytes : List UInt8) : UInt64 :=
  bytes.foldl (fun hash byte => (hash ^^^ byte.toUInt64) * fnvPrime) fnvOffsetBasis

/-- `hash_file` -/
def hashFile (fs : FileSystem) (path : PathBuf) : Exec CliError (UInt64 × UInt64) := do
  let contents ← openFile fs path
  pure (UInt64.ofNat contents.length, hashBytes contents)

end CriArchive
