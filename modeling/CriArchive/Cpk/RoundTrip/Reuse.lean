import CriArchive.Cpk.RoundTrip.Extract
import CriArchive.Cpk.RoundTrip.Source
import CriArchive.Cpk.Writer.Pack

set_option relaxedAutoImplicit false
set_option autoImplicit false

/-!
# Reused entries

An entry may be packed from the packed bytes of an entry of another archive. What extraction gives
is then the same from both archives, although everything around the bytes was built anew.

## Main definitions

* `ReusedFrom` — an input file whose payload is taken from an entry of an archive.

## Main results

* `CpkReader.extractFile_congr` — what extraction depends on.
* `reused_extracts` — reused entries read and extract as they did.
-/

namespace CriArchive

open ByteStream CpkReader

/-- **What extraction depends on**: the packed bytes, and whether they count as encrypted. -/
theorem CpkReader.extractFile_congr {E : FileDecryptor} {e e' : CpkFile} {r r' : CpkReader}
    (hread : (readPackedFile e r).1 = (readPackedFile e' r').1)
    (hencrypted : ∀ packed, E.isEncrypted e packed = E.isEncrypted e' packed) :
    (extractFile E e r).1 = (extractFile E e' r').1 := by
  have hdecrypt : ∀ packed, decrypt E e packed = decrypt E e' packed := fun packed => by
    rw [decrypt, decrypt, hencrypted]
  rcases h : readPackedFile e r with ⟨packed | err | _, r₁⟩ <;>
    rcases h' : readPackedFile e' r' with ⟨_, r₁'⟩ <;> rw [h, h'] at hread <;> cases hread
  · rcases hplain : decrypt E e' packed with plain | err | _
    · obtain ⟨b, hb⟩ := LaylaDecompressor.isCompressed_ok plain
      rw [extractFile_eq h ((hdecrypt packed).trans hplain), extractFile_eq h' hplain,
        inflate_eq hb, inflate_eq hb,
        LaylaDecompressor.decompress_congr plain r₁.freeList r₁'.freeList]
    · unfold extractFile extractFileWithPacked
      rw [ExecM.bind_assoc, ExecM.bind_assoc, ExecM.bind_of_ok h, ExecM.bind_of_ok h', hdecrypt,
        hplain]
      rfl
    · unfold extractFile extractFileWithPacked
      rw [ExecM.bind_assoc, ExecM.bind_assoc, ExecM.bind_of_ok h, ExecM.bind_of_ok h', hdecrypt,
        hplain]
      rfl
  · unfold extractFile extractFileWithPacked
    rw [ExecM.bind_assoc, ExecM.bind_assoc, ExecM.bind_of_err h, ExecM.bind_of_err h']
  · unfold extractFile extractFileWithPacked
    rw [ExecM.bind_assoc, ExecM.bind_assoc, ExecM.bind_of_fault h, ExecM.bind_of_fault h']

/-- An input file whose payload is that of an entry of an archive, with its user string. The size
is checked by the writer, and nothing that is extracted depends on the other fields. -/
structure ReusedFrom (archivePath : PathBuf) (e : CpkFile) (f : CpkInputFile) : Prop where
  rawPayload : f.rawPayload = some ⟨archivePath, e.absoluteOffset, e.fileSize⟩
  userString : f.userString = e.userString

/-- The payload of a reused entry is the window of its archive. -/
theorem emittedPayload_reused {fs : FileSystem} {path : P5RPath} {p5r : Bool} {f : CpkInputFile}
    {archivePath : PathBuf} {e : CpkFile} {source payload : List UInt8}
    (hsource : fs archivePath = some source) (hreused : ReusedFrom archivePath e f)
    (h : emittedPayload fs path p5r f = .ok payload) :
    e.fileSize.toNat ≤ source.length - e.absoluteOffset.toNat ∧
      payload = window source e.absoluteOffset.toNat e.fileSize.toNat := by
  rw [emittedPayload_eq_ok, sourcePayload_raw hreused.rawPayload] at h
  obtain ⟨hsize, -, content, hcontent, hlen, rfl⟩ := h
  obtain rfl := Option.some.inj (hsource.symm.trans hcontent)
  have hfileSize : e.fileSize = f.size := hsize
  rw [hfileSize]
  refine ⟨?_, rfl⟩
  rw [window, List.length_take, List.length_drop] at hlen
  dsimp only at hlen
  omega

/-- **Reuse of packed bytes is faithful.** When entries of an archive are packed into another one,
with a table of contents iff the first has one, each of them reads back the bytes it had, and
extracts to what it extracted to, whatever the other entries are.

**Proof sketch.** The new archive holds the window of the old one that the entry was read from, so
that both readers get the same packed bytes. Extraction only looks at these and at the mark in the
user string, which is read back as it was, with a TOC or without one. -/
theorem reused_extracts (shiftJis : List UInt8 → String)
    (hsjis : ∀ bs, 0 ∉ bs → (shiftJis bs).NulFree) (fs : FileSystem) (path : P5RPath)
    (files : List CpkInputFile) (options : CpkWriterOptions) (profile : CpkWriterProfile)
    {archivePath : PathBuf} {source : List UInt8} (hsource : fs archivePath = some source)
    {slab heap : ℕ → UInt8} {entries : List CpkFile} {r : CpkReader} {m : CpkMetadata}
    (hread : getFiles shiftJis (CpkReader.new source 0 slab heap) = (.ok entries, r))
    (hm : r.metadata = some m) (htoc : profile.indexMode.hasToc = true ↔ m.tocOffset ≠ 0)
    (hnames : profile.indexMode.hasToc = true → ∀ f ∈ files, f.fileName ≠ "")
    {report : CpkWriteReport} {out : ByteStream}
    (hwrite : writeWithProfile fs path files options profile ⟨[], 0⟩ = (.ok report, out))
    (h32 : ∀ plan, planArchive files options profile = .ok plan →
      ∀ table ∈ plan.tables, table.length < 2 ^ 32) (slab' heap' : ℕ → UInt8) :
    Opened source r ∧
      ∃ entries' r', getFiles shiftJis (CpkReader.new out.bytes 0 slab' heap') = (.ok entries', r') ∧
        Opened out.bytes r' ∧ ∀ (i : ℕ) (f : CpkInputFile) (e : CpkFile), files[i]? = some f →
          e ∈ entries → ReusedFrom archivePath e f →
          (∃ e', IsEntryOf profile.indexMode entries' i f e') ∧
          ∀ e', IsEntryOf profile.indexMode entries' i f e' →
            ∀ r₁ r₂, Opened source r₁ → Opened out.bytes r₂ →
              (∃ packed, (readPackedFile e r₁).1 = .ok packed ∧
                (readPackedFile e' r₂).1 = .ok packed) ∧
              (extractFile DummyDecryptor e' r₂).1 = (extractFile DummyDecryptor e r₁).1 ∧
              ∀ path', (extractFile (P5RDecryptor path') e' r₂).1 =
                (extractFile (P5RDecryptor path') e r₁).1 := by
  obtain ⟨w⟩ := written_of_ok hwrite
  have htable : ∀ table, w.plan.tocTable = some table → table.length < 2 ^ 32 := fun table h =>
    h32 w.plan w.plan_eq table (by simp [CpkPlan.tables, h])
  obtain ⟨entries', r', hfiles, hopen, hspec⟩ := w.getFiles_spec shiftJis hnames htable
    (r := CpkReader.new out.bytes 0 slab' heap') rfl rfl
  refine ⟨opened_of_getFiles hread rfl, entries', r', hfiles, hopen, fun i f e hf he hreused => ?_⟩
  refine ⟨(hspec i f hf).1, fun e' he' r₁ r₂ hr₁ hr₂ => ?_⟩
  obtain ⟨hback, huser⟩ := (hspec i f hf).2 e' he'
  -- both archives hold the same packed bytes
  obtain ⟨payload, hpayload, hreads⟩ := hback.payload
  obtain ⟨hsize, rfl⟩ := emittedPayload_reused hsource hreused hpayload
  obtain ⟨r₂', hpacked', -, -⟩ := hreads r₂ hr₂
  obtain ⟨r₁', -, -, hpacked⟩ := readPackedFile_opened hr₁ e
  rw [if_pos hsize] at hpacked
  have hsame : (readPackedFile e' r₂).1 = (readPackedFile e r₁).1 := by rw [hpacked, hpacked']
  -- and the same user string
  have hstored : e'.userString = e.userString := by
    rw [huser, storedUserString, hreused.userString]
    split_ifs with h
    · exact String.nulPrefix_of_nulFree (nulFree_of_getFiles hsjis hread he).2.2
    · exact (userString_of_getFiles hread hm (not_not.mp (mt htoc.mpr h)) he).symm
  refine ⟨⟨_, by rw [hpacked], by rw [hpacked']⟩, extractFile_congr hsame fun _ => rfl,
    fun path' => extractFile_congr hsame fun _ => ?_⟩
  change (e'.userString == _) = (e.userString == _)
  rw [hstored]

/-- The first file of the small archive, reused from it. -/
def sampleReused : List CpkInputFile :=
  [⟨"d", "b", [], 272, 272, 7, "u", some ⟨[0x73], 2592, 272⟩⟩]

/-- A file that is reused from the small archive reads back and extracts as it did there.

**Proof sketch.** The first entry of the small archive stands at position 2592 by its plan, and the
second archive reuses the bytes there. It can be written because these bytes lie inside the source
(`exists_writeWithProfile`), and its plan has small tables. -/
theorem reused_extracts_sample : ∃ (source out : ByteStream) (entries entries' : List CpkFile)
    (r r' : CpkReader) (e e' : CpkFile),
    getFiles (fun _ => "") (CpkReader.new source.bytes 0 (fun _ => 0) fun _ => 0) =
      (.ok entries, r) ∧
    getFiles (fun _ => "") (CpkReader.new out.bytes 0 (fun _ => 0) fun _ => 0) =
      (.ok entries', r') ∧
    entries[0]? = some e ∧ e' ∈ entries' ∧
    (∃ packed, (readPackedFile e r).1 = .ok packed ∧ (readPackedFile e' r').1 = .ok packed) ∧
    (extractFile DummyDecryptor e' r').1 = (extractFile DummyDecryptor e r).1 := by
  obtain ⟨source, hsample⟩ := sampleRun_tocAndItoc
  obtain ⟨w⟩ := written_of_ok hsample
  -- the small archive and its first entry
  obtain ⟨entries, r, hread, -, hm, -, hentries⟩ := w.getFiles_toc (fun _ => "") rfl
    (by decide +kernel) (fun table h => sampleRun_tables w.plan_eq table (by simp [CpkPlan.tables, h]))
    (r := CpkReader.new source.bytes 0 (fun _ => 0) fun _ => 0) rfl rfl
  obtain ⟨plan, hplan, hoffset⟩ : ∃ plan,
      planArchive sampleFiles ⟨16, false⟩ (sampleProfile .tocAndItoc) = .ok plan ∧
        plan.absoluteOffsets[0]? = some 2592 := by
    decide +kernel
  obtain rfl := Exec.ok.inj (w.plan_eq.symm.trans hplan)
  obtain ⟨rel, he⟩ := hentries 0 ⟨"d", "b", [0x62], 272, 272, 7, "u", none⟩ 2592 rfl
    hoffset
  -- the second archive can be written
  obtain ⟨plan', hplan', hsmall⟩ : ∃ plan',
      planArchive sampleReused ⟨16, false⟩ (sampleProfile .tocAndItoc) = .ok plan' ∧
        ∀ table ∈ plan'.tables, table.length < 2 ^ 32 := by
    decide +kernel
  have hlen : source.bytes.length = 2864 := by
    have hsize : (2864 : UInt64) = w.plan.archiveSize :=
      congrArg CpkWriteReport.archiveSize w.report_eq
    rw [w.layout.length, ← hsize]
    rfl
  have hpackable : packable (fun p => if p = [0x73] then some source.bytes else none) .u64
      sampleReused ⟨16, false⟩ (sampleProfile .tocAndItoc) = true := by
    rw [packable, hplan']
    simp [sampleReused, emittable, sourcePayload, readFile, seekFile, Exec.errIf, window, hlen]
  have htoc : w.metadata.tocOffset ≠ 0 := by
    have hplanned : w.metadata.tocOffset = 0x800 := (w.planned.toc rfl).1
    rw [hplanned]
    decide
  obtain ⟨report, out, hwrite⟩ := exists_writeWithProfile hpackable
  obtain ⟨hopen, entries', r', hread', hopen', hall⟩ := reused_extracts (fun _ => "")
    (fun _ _ => by decide) _ .u64 sampleReused ⟨16, false⟩ (sampleProfile .tocAndItoc)
    (if_pos rfl) hread hm (iff_of_true rfl htoc) (fun _ => by decide +kernel) hwrite
    (fun plan h => by
      obtain rfl := Exec.ok.inj (hplan'.symm.trans h)
      exact hsmall)
    (fun _ => 0) fun _ => 0
  obtain ⟨⟨e', he'⟩, hsame⟩ := hall 0 _ _ rfl (List.mem_of_getElem? he) ⟨rfl, rfl⟩
  obtain ⟨hpacked, hextract, -⟩ := hsame e' he' r r' hopen hopen'
  exact ⟨source, out, entries, entries', r, r', _, e', hread, hread', he,
    List.mem_of_getElem? he', hpacked, hextract⟩

end CriArchive
