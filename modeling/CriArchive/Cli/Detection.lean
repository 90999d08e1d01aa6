import CriArchive.Cli.Repack
import CriArchive.Lib.Fnv

set_option relaxedAutoImplicit false
set_option autoImplicit false

/-!
# What the hash of the manifest sees

With reuse, an entry whose file has the recorded size and hash is copied from the original archive.
The hash is FNV-1a, so an edit could go unnoticed; an edit of up to four consecutive bytes, such as a
number that is changed in place, never does, neither in a file nor in the archive itself.

## Main results

* `hashBytes_eq_run` — the hash is FNV-1a.
* `reuse_sees_patches` — a patched file is packed anew, and a patched archive is refused.
-/

namespace CriArchive

open StdPath CpkReader

/-- The hash of the tool is the FNV-1a of the library, from its offset basis. -/
theorem hashBytes_eq_run (bytes : List UInt8) : hashBytes bytes = Fnv.run fnvOffsetBasis bytes := rfl

/-- The hash sees a patch. -/
theorem eq_of_patched {old new : List UInt8} (hpatch : Fnv.Patched old new)
    (h : hashBytes new = hashBytes old) : new = old := by
  rw [hashBytes_eq_run, hashBytes_eq_run] at h
  exact (Fnv.eq_of_patched hpatch h.symm).symm

section Reuse

variable {sys : HostSystem} {fs₂ : FileSystem} {root output : PathBuf} {m : Manifest}
  {d : RootDirectory sys.host root fs₂} {inputs : List CpkInputFile}

/-- A file that is still there, and that a rebuild made an input of. -/
theorem exists_rebuilt {reuse : Bool} (h : m.buildInputs sys d output reuse = .ok inputs)
    {entry : ManifestEntry} (hmem : entry ∈ m.entries) {path : PathBuf} {content : List UInt8}
    (hpath : safeOutputPath sys.host root entry.directory entry.fileName = .ok path)
    (hfile : fs₂ path = some content) :
    ∃ input ∈ inputs, input.sourcePath = path ∧ Rebuilt sys fs₂ root m reuse entry input := by
  obtain ⟨relative, hrelative, -⟩ := (of_buildInputs_eq_ok h).1.entries entry hmem
  have hjoined := (safePaths_agree sys.host root entry.directory entry.fileName).joined relative
    (Exec.value?_eq_some.mp hrelative)
  obtain rfl := Exec.ok.inj (hjoined.symm.trans hpath)
  have hpresent : entry ∈ m.presentEntries sys fs₂ root := by
    refine List.mem_filter.mpr ⟨hmem, ?_⟩
    rw [ManifestEntry.isPresent, hrelative, Option.any_some, hfile]
    rfl
  obtain ⟨retained, added, rfl, hretained, -, -⟩ := buildInputs_eq_ok h
  obtain ⟨i, hi, hget⟩ := List.mem_iff_getElem.mp hpresent
  obtain ⟨hlen, hrebuilt⟩ := List.forall₂_iff_get.mp hretained
  have hi' : i < retained.length := hlen ▸ hi
  have hrebuilt := hrebuilt i hi hi'
  rw [List.get_eq_getElem, List.get_eq_getElem, hget] at hrebuilt
  refine ⟨retained[i], List.mem_append_left _ (List.getElem_mem hi'), ?_, hrebuilt⟩
  obtain ⟨relative', hrelative', hsource⟩ := hrebuilt.sourcePath
  rw [hsource, Option.some.inj (hrelative.symm.trans hrelative')]

/-- A file of the recorded content is reused, and a patched one is not. -/
theorem rawPayload_of_patched {entry : ManifestEntry} {input : CpkInputFile} {old new : List UInt8}
    (h : Rebuilt sys fs₂ root m true entry input) (hfile : fs₂ input.sourcePath = some new)
    (hsize : entry.extractedSize = UInt64.ofNat old.length)
    (hhash : entry.extractedHash = hashBytes old) (hpatch : Fnv.Patched old new) :
    input.rawPayload = none ↔ new ≠ old := by
  obtain ⟨content, hcontent, hpayload⟩ := h.payload
  obtain rfl := Option.some.inj (hfile.symm.trans hcontent)
  rw [hsize, hhash] at hpayload
  by_cases hsame : new = old
  · subst hsame
    rw [if_pos ⟨rfl, rfl, rfl⟩] at hpayload
    rw [hpayload]
    simp
  · rw [if_neg fun hc => hsame (eq_of_patched hpatch hc.2.2)] at hpayload
    exact iff_of_true hpayload hsame

variable {shiftJis : List UInt8 → String} {E : FileDecryptor} {p5r : Bool} {input : PathBuf}
  {slab heap : ℕ → UInt8} {fs₀ fs₁ : FileSystem}

/-- The manifest of an unpacked archive records its entries, its size and its hash. -/
theorem read_of_unpacked
    (hunpack : unpackWith sys shiftJis E input root p5r slab heap fs₀ = (.ok (), fs₁))
    (hmanifest : fs₂ (Manifest.path sys.host root) = fs₁ (Manifest.path sys.host root))
    (hm : Manifest.read sys fs₂ root = .ok (some m)) :
    ∃ bytes files cpk contents, fs₀ input = some bytes ∧
      getFiles shiftJis (CpkReader.new bytes 0 slab heap) = (.ok files, cpk) ∧
      extractAll E files cpk = .ok contents ∧ m.entries = records 0 files contents ∧
      m.archiveSize = UInt64.ofNat bytes.length ∧ m.archiveHash = hashBytes bytes := by
  obtain ⟨bytes, files, cpk, metadata, contents, paths, hbytes, hfiles, hmetadata, hcontents, -, -,
    rfl⟩ := unpackWith_eq_ok.mp hunpack
  have hread := read_unpackedFiles sys root fs₀ paths contents
    (consistent_manifestOf hfiles hmetadata (sys.absolutePath input)
      (UInt64.ofNat bytes.length, hashBytes bytes) p5r (records 0 files contents))
  rw [← Manifest.read_congr hmanifest, hm] at hread
  have hm' := Option.some.inj (Exec.ok.inj hread)
  refine ⟨bytes, files, cpk, contents, hbytes, hfiles, hcontents, ?_⟩
  rw [hm']
  exact ⟨rfl, rfl, rfl⟩

/-- **Reuse sees patches.** An archive is unpacked, and its directory packed again with reuse. A file
of which up to four consecutive bytes were replaced is packed anew, and one that was left alone is
reused; the original archive itself has not been patched.

**Proof sketch.** `eq_of_patched` is the fact about the hash, and it is used at the whole archive:
the record of an entry keeps the offset, the size and the hash of the entry's bytes. The input that
`pack` rebuilds for the record exists by `exists_rebuilt`, and it reuses the packed bytes only when
the hash is the same, so that a patched file with another hash is read from its path
(`rawPayload_of_patched`). -/
theorem reuse_sees_patches
    (hunpack : unpackWith sys shiftJis E input root p5r slab heap fs₀ = (.ok (), fs₁))
    (hmanifest : fs₂ (Manifest.path sys.host root) = fs₁ (Manifest.path sys.host root))
    (hm : Manifest.read sys fs₂ root = .ok (some m))
    (h : m.buildInputs sys d output true = .ok inputs) :
    ∃ bytes files cpk contents, fs₀ input = some bytes ∧
      getFiles shiftJis (CpkReader.new bytes 0 slab heap) = (.ok files, cpk) ∧
      extractAll E files cpk = .ok contents ∧
      (∀ source, fs₂ m.sourceArchive = some source → Fnv.Patched bytes source → source = bytes) ∧
      ∀ x ∈ files.zip contents, ∀ path new,
        safeOutputPath sys.host root x.1.directory x.1.fileName = .ok path →
        fs₂ path = some new → Fnv.Patched x.2.2 new →
        ∃ rebuilt ∈ inputs, rebuilt.sourcePath = path ∧
          (rebuilt.rawPayload = none ↔ new ≠ x.2.2) := by
  obtain ⟨bytes, files, cpk, contents, hbytes, hfiles, hcontents, hentries, hsize, hhash⟩ :=
    read_of_unpacked hunpack hmanifest hm
  refine ⟨bytes, files, cpk, contents, hbytes, hfiles, hcontents, fun source hsource hpatch => ?_,
    fun x hx path new hpath hnew hpatch => ?_⟩
  · have horiginal := (of_buildInputs_eq_ok h).1.original rfl
    unfold Manifest.sourceIsOriginal at horiginal
    rw [hsource] at horiginal
    dsimp only at horiginal
    rw [hashFile_of_present hsource, Exec.ok_bind, hsize, hhash] at horiginal
    have hsame := Exec.ok.inj horiginal
    rw [Bool.and_eq_true, beq_iff_eq, beq_iff_eq] at hsame
    exact eq_of_patched hpatch hsame.2
  · obtain ⟨i, hi⟩ := List.mem_iff_getElem?.mp hx
    have hmem : manifestEntry x.1 (UInt32.ofNat i) x.2.1 x.2.2 ∈ m.entries := by
      rw [hentries]
      have hzip : (x, i) ∈ (files.zip contents).zipIdx := List.mk_mem_zipIdx_iff_getElem?.mpr hi
      exact List.mem_map.mpr ⟨_, hzip, rfl⟩
    obtain ⟨rebuilt, hrebuilt, hsource, hkept⟩ := exists_rebuilt h hmem hpath hnew
    exact ⟨rebuilt, hrebuilt, hsource, rawPayload_of_patched hkept (hsource ▸ hnew) rfl rfl hpatch⟩

end Reuse

section Sample

/-- The directory of the sample, with one byte of a file replaced. -/
def samplePatched (bytes : List UInt8) (m : Manifest) : FileSystem :=
  Function.update (sampleUnpacked bytes m) "out/a".asBytes (some [1, 9, 3])

/-- Patching a file leaves the manifest as it was. -/
theorem samplePatched_manifest (bytes : List UInt8) (m : Manifest) :
    samplePatched bytes m (Manifest.path .unix "out".asBytes) =
      sampleUnpacked bytes m (Manifest.path .unix "out".asBytes) :=
  Function.update_of_ne (by decide +kernel) _ _

/-- What a host reads of the directory. -/
def samplePatchedOutput (bytes : List UInt8) (m : Manifest) :
    RootDirectory sampleHost.host "out".asBytes (samplePatched bytes m) where
  entries := sampleOutputEntries
  proper := proper_sampleOutputEntries
  ordinary := ordinary_sampleOutputEntries
  present f hf := by
    by_cases hfile : below sampleHost.host "out".asBytes f.1 = "out/a".asBytes
    · rw [samplePatched, hfile, Function.update_self]
      exact Option.some_ne_none _
    · rw [samplePatched, Function.update_of_ne hfile]
      exact (sampleOutput bytes m).present f hf

/-- What the patched directory holds, and the archive that it came from. -/
theorem samplePatched_eq (bytes : List UInt8) (m : Manifest) :
    samplePatched bytes m "out/a".asBytes = some [1, 9, 3] ∧
    samplePatched bytes m "out/d/b.bin".asBytes = some [4, 5, 6, 7] ∧
    samplePatched bytes m "/s".asBytes = some bytes := by
  refine ⟨Function.update_self _ _ _, ?_, ?_⟩
  · rw [samplePatched, Function.update_of_ne (by decide +kernel),
      (sources_sampleUnpacked bytes m).first]
  · rw [samplePatched, Function.update_of_ne (by decide +kernel),
      sampleUnpacked_of_head bytes m (by decide +kernel), sampleStored_eq]

/-- The rebuild of the patched directory returns. -/
theorem SampleUnpack.exists_patched {bytes : List UInt8} {b a : CpkFile} {cpk : CpkReader}
    {metadata : CpkMetadata} {m m₁ : Manifest} (h : SampleUnpack bytes b a cpk metadata m m₁) :
    ∃ inputs, m₁.buildInputs sampleHost (samplePatchedOutput bytes m) [0x6f] true = .ok inputs := by
  have hread : Manifest.read sampleHost (samplePatched bytes m) "out".asBytes = .ok (some m₁) :=
    (Manifest.read_congr (samplePatched_manifest bytes m)).trans h.read
  obtain ⟨bytes', files, cpk', contents, hbytes, hfiles, -, -, hsize, hhash⟩ :=
    read_of_unpacked h.unpacked (samplePatched_manifest bytes m) hread
  obtain ⟨rfl, rfl, rfl⟩ := h.read_stored hbytes hfiles
  obtain ⟨hpatched, hkept, hsource⟩ := samplePatched_eq bytes m
  have hnew : m₁.newFiles (samplePatchedOutput bytes m) [0x6f] = [] := h.newFiles
  have haccepted : ∀ entry ∈ m₁.entries,
      entry.Accepted sampleHost (samplePatched bytes m) "out".asBytes := by
    obtain ⟨hrelative, hrelative'⟩ := h.relative
    rw [h.entries]
    intro entry hentry
    rcases List.mem_pair.mp hentry with rfl | rfl
    · refine ⟨"d/b.bin".asBytes, congrArg Exec.value? hrelative, fun content hc => ?_⟩
      rw [join_sample.1, hkept] at hc
      obtain rfl := Option.some.inj hc
      decide
    · refine ⟨"a".asBytes, congrArg Exec.value? hrelative', fun content hc => ?_⟩
      rw [join_sample.2, hpatched] at hc
      obtain rfl := Option.some.inj hc
      decide
  rw [← h.source] at hsource
  refine exists_buildInputs ⟨fun _ => sourceIsOriginal_of_eq hsource hsize hhash, haccepted⟩
    (.inl h.options.2.2.2) (fun names hnames => ?_) ?_
  · rw [hnew] at hnames
    cases hnames
  · rw [hnew]
    exact Nat.zero_le _

/-- A file with another second byte is packed anew, and the other file is reused. -/
theorem reuse_sees_patches_sample : ∃ bytes m m₁ inputs,
    Manifest.buildInputs sampleHost m₁ (samplePatchedOutput bytes m) [0x6f] true = .ok inputs ∧
      (∃ rebuilt ∈ inputs, rebuilt.sourcePath = "out/a".asBytes ∧ rebuilt.rawPayload = none) ∧
      ∃ rebuilt ∈ inputs, rebuilt.sourcePath = "out/d/b.bin".asBytes ∧ rebuilt.rawPayload ≠ none := by
  obtain ⟨bytes, b, a, cpk, metadata, harchive⟩ :=
    exists_sampleArchive "a" (by decide) (by decide) smallPair_a
  obtain ⟨m, m₁, h⟩ := harchive.exists_unpack
  obtain ⟨inputs, hinputs⟩ := h.exists_patched
  have hread : Manifest.read sampleHost (samplePatched bytes m) "out".asBytes = .ok (some m₁) :=
    (Manifest.read_congr (samplePatched_manifest bytes m)).trans h.read
  obtain ⟨_, _, _, _, hbytes, hfiles, hcontents, -, hall⟩ :=
    reuse_sees_patches h.unpacked (samplePatched_manifest bytes m) hread hinputs
  obtain ⟨rfl, rfl, rfl⟩ := h.read_stored hbytes hfiles
  obtain rfl := Exec.ok.inj (h.extract.symm.trans hcontents)
  obtain ⟨hfirst, hsecond⟩ := h.paths safeOutputPath_sample
  obtain ⟨hpatched, hkept, -⟩ := samplePatched_eq bytes m
  have hpatch : Fnv.Patched [1, 2, 3] [1, 9, 3] :=
    ⟨[1], [2], [9], [3], rfl, rfl, rfl, by decide⟩
  have hsame : Fnv.Patched [4, 5, 6, 7] [4, 5, 6, 7] :=
    ⟨[4, 5, 6, 7], [], [], [], rfl, rfl, rfl, by decide⟩
  have hchanged : ([1, 9, 3] : List UInt8) ≠ [1, 2, 3] := by decide
  obtain ⟨input, hmem, hinput, hraw⟩ := hall (a, [1, 2, 3], [1, 2, 3])
    (List.mem_cons_of_mem _ (List.mem_singleton_self _)) _ _ hsecond hpatched hpatch
  obtain ⟨input', hmem', hinput', hraw'⟩ := hall (b, [4, 5, 6, 7], [4, 5, 6, 7])
    List.mem_cons_self _ _ hfirst hkept hsame
  exact ⟨bytes, m, m₁, inputs, hinputs, ⟨input, hmem, hinput, hraw.mpr hchanged⟩,
    input', hmem', hinput', fun hnone => hraw'.mp hnone rfl⟩

end Sample

end CriArchive
