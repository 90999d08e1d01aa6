import CriArchive.Cpk.RoundTrip.Index
import CriArchive.Cpk.Compress.Scratch

set_option relaxedAutoImplicit false
set_option autoImplicit false

/-!
# Extraction of written entries

What extraction gives on the entries of a written archive. The writer stores a rebuilt entry as it
is, or transforms it, by its user string; the reader decides anew, by the user string it reads and
by the first bytes of the payload, what to undo.

## Main definitions

* `IsEntryOf` — the entry that stands for an input file.
* `ExtractsVerbatim` — extraction gives a content, and decompresses nothing.
* `ExtractsBack` — when extraction undoes the writing of an entry.

## Main results

* `Written.getFiles_spec` — the entries that the reader returns, for every index mode.
* `rebuilt_extracts_iff` — the contents and user strings that extraction gives back.
-/

namespace CriArchive

open ByteStream CpkReader

/-! ## The entries of a written archive -/

/-- The entry that stands for the input file with an index: the one at its position, or, without a
table of contents, the one with its ID. -/
def IsEntryOf (mode : CpkIndexMode) (entries : List CpkFile) (i : ℕ) (f : CpkInputFile)
    (e : CpkFile) : Prop :=
  if mode.hasToc = true then entries[i]? = some e else e ∈ entries ∧ e.id = some f.id

/-- The user string that the reader finds: only a table of contents stores it. -/
def storedUserString (mode : CpkIndexMode) (f : CpkInputFile) : String :=
  if mode.hasToc = true then f.userString.nulPrefix else ""

section Entries

variable {fs : FileSystem} {path : P5RPath} {files : List CpkInputFile}
  {options : CpkWriterOptions} {profile : CpkWriterProfile} {report : CpkWriteReport}
  {bytes : List UInt8}

namespace Written

variable (w : Written fs path files options profile report bytes)

include w

/-- With an ID table, an input file is known by its ID. -/
theorem eq_of_id (hitoc : profile.indexMode.hasItoc = true) {f g : CpkInputFile} (hf : f ∈ files)
    (hg : g ∈ files) (hid : f.id = g.id) : f = g := by
  have hperm : w.physical.Perm files := inOrder_perm w.layout.entries.2
  have hids := (w.ids_physical hitoc).2
  have hnodup : (w.physical.map CpkInputFile.id).Nodup :=
    hids.imp fun hlt => UInt32.ne_of_lt hlt
  exact List.inj_on_of_nodup_map ((hperm.map _).nodup_iff.mp hnodup) hf hg hid

/-- **The reader returns one entry for every input file**, with its sizes and its payload.

**Proof sketch.** By the index that the archive has. With a TOC, entries come in the order of the
inputs. With an ID table only, they come in physical order, and the entry of an input is the one
with its ID, which is no other's. -/
theorem getFiles_spec (shiftJis : List UInt8 → String)
    (hnames : profile.indexMode.hasToc = true → ∀ f ∈ files, f.fileName ≠ "")
    (h32 : ∀ table, w.plan.tocTable = some table → table.length < 2 ^ 32) {r : CpkReader}
    (hbytes : r.stream.bytes = bytes) (hstart : r.startPos = 0) :
    ∃ entries r', getFiles shiftJis r = (.ok entries, r') ∧ Opened bytes r' ∧
      ∀ (i : ℕ) (f : CpkInputFile), files[i]? = some f →
        (∃ e, IsEntryOf profile.indexMode entries i f e) ∧
        ∀ e, IsEntryOf profile.indexMode entries i f e →
          ReadsBack fs path options.p5rEncryption bytes f e ∧
          e.userString = storedUserString profile.indexMode f := by
  unfold IsEntryOf storedUserString
  by_cases htoc : profile.indexMode.hasToc = true
  · obtain ⟨entries, r', hfiles, hopen, -, -, hall⟩ :=
      w.getFiles_toc shiftJis htoc (hnames htoc) h32 hbytes hstart
    refine ⟨entries, r', hfiles, hopen, fun i f hf => ?_⟩
    obtain ⟨o, ho⟩ := w.offset_of_file hf
    obtain ⟨rel, hentry⟩ := hall i f o hf ho
    simp only [if_pos htoc]
    refine ⟨⟨_, hentry⟩, fun e he => ?_⟩
    obtain rfl := Option.some.inj (hentry.symm.trans he)
    exact ⟨w.readsBack hf ho rfl rfl rfl rfl, rfl⟩
  · have hmode : profile.indexMode = .itoc := by
      revert htoc
      cases profile.indexMode <;> simp [CpkIndexMode.hasToc]
    have hitoc : profile.indexMode.hasItoc = true := by
      rw [hmode]
      rfl
    obtain ⟨entries, r', hfiles, hopen, -, hlen, hall⟩ :=
      w.getFiles_itoc shiftJis hmode hbytes hstart
    have hperm := w.layout.entries.2
    have hindices : ∀ j ∈ w.plan.physicalOrder, j < files.length := fun j hj =>
      List.mem_range.mp (hperm.mem_iff.mp hj)
    refine ⟨entries, r', hfiles, hopen, fun i f hf => ?_⟩
    simp only [if_neg htoc]
    constructor
    · have hi : i ∈ w.plan.physicalOrder :=
        hperm.mem_iff.mpr (List.mem_range.mpr (List.getElem?_eq_some_iff.mp hf).1)
      obtain ⟨k, hk⟩ := List.mem_iff_getElem?.mp hi
      obtain ⟨o, ho⟩ := w.offset_of_file hf
      obtain ⟨rel, hentry⟩ := hall k i f o hk hf ho
      exact ⟨_, List.mem_of_getElem? hentry, rfl⟩
    · rintro e ⟨he, hid⟩
      obtain ⟨k, hk⟩ := List.mem_iff_getElem?.mp he
      have hk₀ : k < w.plan.physicalOrder.length := by
        rw [← length_inOrder hindices]
        exact hlen ▸ (List.getElem?_eq_some_iff.mp hk).1
      obtain ⟨g, o, -, hg, ho, -⟩ := entry_at w.planned w.emits (List.getElem?_eq_getElem hk₀)
      obtain ⟨rel, hentry⟩ := hall k _ g o (List.getElem?_eq_getElem hk₀) hg ho
      obtain rfl := Option.some.inj (hentry.symm.trans hk)
      obtain rfl := w.eq_of_id hitoc (List.mem_of_getElem? hg) (List.mem_of_getElem? hf)
        (Option.some.inj hid)
      exact ⟨w.readsBack hg ho rfl rfl rfl rfl, rfl⟩

/-- With a table of contents entries are returned only when no file name is empty. -/
theorem names_of_getFiles (shiftJis : List UInt8 → String)
    (htoc : profile.indexMode.hasToc = true)
    (h32 : ∀ table, w.plan.tocTable = some table → table.length < 2 ^ 32) {r r' : CpkReader}
    (hbytes : r.stream.bytes = bytes) (hstart : r.startPos = 0) {entries : List CpkFile}
    (h : getFiles shiftJis r = (.ok entries, r')) : ∀ f ∈ files, f.fileName ≠ "" := by
  obtain ⟨r₁, hmetadata, hopen, -, -⟩ := w.opened_readMetadata shiftJis hbytes hstart
  obtain ⟨t, pos, offsets, hback, hoffsets, hread⟩ :=
    w.readToc_table shiftJis htoc h32 hopen.1 hopen.2.1
  have hoffset : w.metadata.tocOffset ≠ 0 := by
    have hplan : w.metadata.tocOffset = 0x800 := (w.planned.toc htoc).1
    rw [hplan]
    decide
  unfold getFiles at h
  rw [ExecM.bind_of_ok hmetadata, readIndex, if_pos hoffset, hread] at h
  have hlen : offsets.length = files.length :=
    hoffsets.length_eq.symm.trans w.planned.lengthOffsets
  exact fileName_ne_of_tocRows hback hlen (congrArg Prod.fst h)

end Written

end Entries

/-! ## Extraction -/

/-- Extraction gives a content, and what the decryptor returned was not taken for compressed. -/
def ExtractsVerbatim (E : FileDecryptor) (e : CpkFile) (r : CpkReader) (content : List UInt8) :
    Prop :=
  (extractFile E e r).1 = .ok content ∧ ∃ packed plain,
    (readPackedFile e r).1 = .ok packed ∧ decrypt E e packed = .ok plain ∧
      LaylaDecompressor.isCompressed plain = .ok false

/-- Looking for the magic number does not fault. -/
theorem LaylaDecompressor.isCompressed_ok (input : List UInt8) :
    ∃ b, isCompressed input = .ok b := by
  unfold isCompressed
  split_ifs with h
  · have hlen : 16 ≤ input.length := h
    rw [fromSliceU64_eq (by omega)]
    exact ⟨_, rfl⟩
  · exact ⟨false, rfl⟩

/-- Extraction inflates what the decryptor makes of the packed bytes. -/
theorem extractFile_eq {E : FileDecryptor} {e : CpkFile} {r r' : CpkReader}
    {packed plain : List UInt8} (hread : readPackedFile e r = (.ok packed, r'))
    (hdecrypt : decrypt E e packed = .ok plain) :
    (extractFile E e r).1 = (inflate plain r').1 := by
  unfold extractFile extractFileWithPacked
  rw [ExecM.bind_assoc, ExecM.bind_of_ok hread, ExecM.bind_assoc,
    ExecM.bind_of_ok (by rw [ExecM.lift_apply, hdecrypt]), ExecM.bind_assoc]
  rcases hinflate : inflate plain r' with ⟨out | e | _, r''⟩
  · rw [ExecM.bind_of_ok hinflate]
    rfl
  · rw [ExecM.bind_of_err hinflate]
  · rw [ExecM.bind_of_fault hinflate]

/-- What looks compressed is decompressed, and nothing else. -/
theorem inflate_eq {plain : List UInt8} {b : Bool}
    (h : LaylaDecompressor.isCompressed plain = .ok b) (r : CpkReader) :
    (inflate plain r).1 =
      if b = true then (LaylaDecompressor.decompress plain r.freeList).1 else .ok plain := by
  unfold inflate
  rw [ExecM.bind_of_ok (by rw [ExecM.lift_apply, h])]
  split_ifs <;> rfl

/-- Extraction from the packed bytes of an entry. -/
theorem extractsVerbatim_iff {E : FileDecryptor} {e : CpkFile} {r r' : CpkReader}
    {packed plain content : List UInt8} (hread : readPackedFile e r = (.ok packed, r'))
    (hdecrypt : decrypt E e packed = .ok plain) :
    ExtractsVerbatim E e r content ↔
      plain = content ∧ LaylaDecompressor.isCompressed plain = .ok false := by
  have hextract : LaylaDecompressor.isCompressed plain = .ok false →
      (extractFile E e r).1 = .ok plain := by
    intro hplain
    rw [extractFile_eq hread hdecrypt, inflate_eq hplain, if_neg Bool.false_ne_true]
  constructor
  · rintro ⟨hout, packed', plain', hread', hdecrypt', hplain⟩
    rw [hread] at hread'
    obtain rfl := Exec.ok.inj hread'
    obtain rfl := Exec.ok.inj (hdecrypt.symm.trans hdecrypt')
    exact ⟨Exec.ok.inj ((hextract hplain).symm.trans hout), hplain⟩
  · rintro ⟨rfl, hplain⟩
    exact ⟨hextract hplain, packed, plain, by rw [hread], hdecrypt, hplain⟩

/-- The decryptor for the transform being enabled on both sides, or on neither. -/
def decryptorFor (p5r : Bool) (path : P5RPath) : FileDecryptor :=
  if p5r = true then P5RDecryptor path else DummyDecryptor

/-- The transform of an entry that is marked, when it is enabled. -/
def transformIf (p5r : Bool) (userString : String) (data : List UInt8) : List UInt8 :=
  if (p5r && userString == P5R.encryptedUserString) = true then P5R.transform data else data

/-- The decryptor of the tool undoes the transform of the writer. -/
theorem decrypt_decryptorFor (p5r : Bool) (path : P5RPath) (e : CpkFile) (packed : List UInt8) :
    decrypt (decryptorFor p5r path) e packed = .ok (transformIf p5r e.userString packed) := by
  unfold decrypt decryptorFor transformIf
  cases p5r with
  | false => rfl
  | true =>
    simp only [if_true, P5RDecryptor, Bool.true_and]
    split_ifs
    · exact P5R.decryptInPlace_eq path packed
    · rfl

/-- The payload of a rebuilt entry. -/
theorem emittedPayload_rebuilt {fs : FileSystem} (path : P5RPath) (p5r : Bool) {f : CpkInputFile}
    {content : List UInt8} (hraw : f.rawPayload = none) (hcontent : fs f.sourcePath = some content) :
    emittedPayload fs path p5r f = .ok (transformIf p5r f.userString content) := by
  rw [emittedPayload_eq_ok, sourcePayload, hraw, transformIf]
  dsimp only
  split_ifs
  · rw [readFile, hcontent, Exec.okOr_some, Exec.ok_bind, P5R.decryptInPlace_eq]
  · rw [readFile, hcontent, Exec.okOr_some]

/-- Extraction undoes the writing of an entry: the archive can be read, the content does not look
compressed, and the writer and the reader agree whether the entry is marked as encrypted, or the
transform does not change the content. -/
def ExtractsBack (p5r : Bool) (mode : CpkIndexMode) (files : List CpkInputFile) (f : CpkInputFile)
    (content : List UInt8) : Prop :=
  (mode.hasToc = true → ∀ g ∈ files, g.fileName ≠ "") ∧
    LaylaDecompressor.isCompressed content = .ok false ∧
    (p5r = true → ((storedUserString mode f = P5R.encryptedUserString ↔
      f.userString = P5R.encryptedUserString) ∨ P5R.transform content = content))

/-- What the two transforms do to a content. -/
theorem transformIf_transformIf (p5r : Bool) (stored given : String) (content : List UInt8) :
    transformIf p5r stored (transformIf p5r given content) = content ↔
      (p5r = true → ((stored = P5R.encryptedUserString ↔ given = P5R.encryptedUserString) ∨
        P5R.transform content = content)) := by
  unfold transformIf
  cases p5r with
  | false => simp
  | true =>
    by_cases hs : stored = P5R.encryptedUserString <;>
      by_cases hg : given = P5R.encryptedUserString <;>
      simp [hs, hg, P5R.transform_transform]

/-- **Which entries extraction gives back.** In an archive whose table of contents is shorter than
`2 ^ 32`, a rebuilt entry extracts to the content of its source file, with nothing decompressed,
exactly when all file names can be read back, the content does not start like compressed data, and
the user string that is read back marks the entry as encrypted iff the given one does, or the
transform keeps the content.

**Proof sketch.** A reader of the archive gets the packed bytes of the entry back, so that it
extracts the content verbatim iff these bytes, transformed again when the entry reads as marked, are
the content and do not look compressed. The transform undoes itself, so that the marks must agree
unless it changes nothing. That files are read at all means that they have names. -/
theorem rebuilt_extracts_iff (shiftJis : List UInt8 → String) (fs : FileSystem) (path : P5RPath)
    (files : List CpkInputFile) (options : CpkWriterOptions) (profile : CpkWriterProfile)
    {report : CpkWriteReport} {out : ByteStream}
    (hwrite : writeWithProfile fs path files options profile ⟨[], 0⟩ = (.ok report, out))
    (h32 : ∀ plan, planArchive files options profile = .ok plan →
      ∀ table, plan.tocTable = some table → table.length < 2 ^ 32)
    {i : ℕ} {f : CpkInputFile} {content : List UInt8} (hf : files[i]? = some f)
    (hraw : f.rawPayload = none) (hcontent : fs f.sourcePath = some content) (path' : P5RPath)
    (slab heap : ℕ → UInt8) :
    (∃ entries r e, getFiles shiftJis (CpkReader.new out.bytes 0 slab heap) = (.ok entries, r) ∧
      IsEntryOf profile.indexMode entries i f e ∧ ∀ r', Opened out.bytes r' →
        ExtractsVerbatim (decryptorFor options.p5rEncryption path') e r' content) ↔
      ExtractsBack options.p5rEncryption profile.indexMode files f content := by
  obtain ⟨w⟩ := written_of_ok hwrite
  have htable := h32 w.plan w.plan_eq
  have hemits := emittedPayload_rebuilt path options.p5rEncryption hraw hcontent
  -- extraction of an entry that stands for the input file, by any reader of the archive
  have hverbatim : ∀ e, ReadsBack fs path options.p5rEncryption out.bytes f e →
      e.userString = storedUserString profile.indexMode f → ∀ r', Opened out.bytes r' →
      (ExtractsVerbatim (decryptorFor options.p5rEncryption path') e r' content ↔
        LaylaDecompressor.isCompressed content = .ok false ∧
        (options.p5rEncryption = true →
          ((storedUserString profile.indexMode f = P5R.encryptedUserString ↔
            f.userString = P5R.encryptedUserString) ∨ P5R.transform content = content))) := by
    intro e hback huser r' hopen
    obtain ⟨payload, hpayload, hread⟩ := hback.payload
    obtain rfl := Exec.ok.inj (hemits.symm.trans hpayload)
    obtain ⟨r'', hpacked, -, -⟩ := hread r' hopen
    rw [extractsVerbatim_iff hpacked (decrypt_decryptorFor ..), huser, ← transformIf_transformIf,
      and_comm]
    refine and_congr_left fun hsame => ?_
    rw [hsame]
  constructor
  · rintro ⟨entries, r, e, hfiles, hentry, hall⟩
    have hnames : profile.indexMode.hasToc = true → ∀ g ∈ files, g.fileName ≠ "" := fun htoc =>
      w.names_of_getFiles shiftJis htoc htable (r := CpkReader.new out.bytes 0 slab heap) rfl rfl
        hfiles
    obtain ⟨entries', r', hfiles', hopen, hspec⟩ := w.getFiles_spec shiftJis hnames htable
      (r := CpkReader.new out.bytes 0 slab heap) rfl rfl
    rw [hfiles] at hfiles'
    obtain ⟨hentries, rfl⟩ := Prod.mk.inj hfiles'
    obtain rfl := Exec.ok.inj hentries
    obtain ⟨hback, huser⟩ := (hspec i f hf).2 e hentry
    exact ⟨hnames, (hverbatim e hback huser r hopen).mp (hall r hopen)⟩
  · rintro ⟨hnames, hcondition⟩
    obtain ⟨entries, r, hfiles, hopen, hspec⟩ := w.getFiles_spec shiftJis hnames htable
      (r := CpkReader.new out.bytes 0 slab heap) rfl rfl
    obtain ⟨e, hentry⟩ := (hspec i f hf).1
    obtain ⟨hback, huser⟩ := (hspec i f hf).2 e hentry
    exact ⟨entries, r, e, hfiles, hentry, fun r' hr' =>
      (hverbatim e hback huser r' hr').mpr hcondition⟩

/-- The file of the small archive that does not look compressed is given back. -/
theorem rebuilt_extracts_iff_sample : ∃ out entries r e,
    writeWithProfile sampleFileSystem .u64 sampleFiles ⟨16, false⟩ (sampleProfile .tocAndItoc)
      ⟨[], 0⟩ = (.ok ⟨2, 2048, 2288, 2576, 2864⟩, out) ∧
    getFiles (fun _ => "") (CpkReader.new out.bytes 0 (fun _ => 0) fun _ => 0) = (.ok entries, r) ∧
      entries[1]? = some e ∧ ∀ r', Opened out.bytes r' →
        ExtractsVerbatim DummyDecryptor e r' [1, 2, 3] := by
  obtain ⟨out, hwrite⟩ := sampleRun_tocAndItoc
  obtain ⟨entries, r, e, hfiles, hentry, hall⟩ := (rebuilt_extracts_iff (fun _ => "")
    sampleFileSystem .u64 sampleFiles ⟨16, false⟩ (sampleProfile .tocAndItoc) hwrite
    (fun plan h table htable => sampleRun_tables h table (by simp [CpkPlan.tables, htable]))
    (show sampleFiles[1]? = some ⟨"d", "a", [0x61], 3, 3, 3, "", none⟩ from rfl) rfl
    (show sampleFileSystem [0x61] = some [1, 2, 3] from rfl) .u64 (fun _ => 0) fun _ => 0).mpr
    ⟨fun _ => by decide +kernel, by decide, fun h => nomatch h⟩
  exact ⟨out, entries, r, e, hwrite, hfiles, hentry, hall⟩

/-- The file of the small archive that starts like compressed data is decompressed, so it is not
given back.

**Proof sketch.** The file has 272 bytes that start with the magic number and declare an empty
payload. It is packed as it is, and extracting it gives the prefix of 256 bytes that the
decompressor takes from the end. -/
theorem not_rebuilt_extracts :
    ¬∀ (shiftJis : List UInt8 → String) (fs : FileSystem) (path : P5RPath)
      (files : List CpkInputFile) (options : CpkWriterOptions) (profile : CpkWriterProfile)
      (report : CpkWriteReport) (out : ByteStream),
      (∀ g ∈ files, g.fileName ≠ "") →
      writeWithProfile fs path files options profile ⟨[], 0⟩ = (.ok report, out) →
      (∀ plan, planArchive files options profile = .ok plan →
        ∀ table ∈ plan.tables, table.length < 2 ^ 32) →
      ∀ (i : ℕ) (f : CpkInputFile) (content : List UInt8), files[i]? = some f →
      f.rawPayload = none → fs f.sourcePath = some content → ∀ slab heap : ℕ → UInt8,
      ∃ entries r e, getFiles shiftJis (CpkReader.new out.bytes 0 slab heap) = (.ok entries, r) ∧
        IsEntryOf profile.indexMode entries i f e ∧
        (extractFile (decryptorFor options.p5rEncryption path) e r).1 = .ok content := by
  intro hclaim
  obtain ⟨out, hwrite⟩ := sampleRun_tocAndItoc
  have hf : sampleFiles[0]? = some ⟨"d", "b", [0x62], 272, 272, 7, "u", none⟩ := rfl
  have hcontent : sampleFileSystem [0x62] = some sampleCompressed := by decide +kernel
  have hnames : ∀ g ∈ sampleFiles, g.fileName ≠ "" := by decide +kernel
  obtain ⟨entries, r, e, hfiles, hentry, hextract⟩ := hclaim (fun _ => "") sampleFileSystem .u64
    sampleFiles ⟨16, false⟩ (sampleProfile .tocAndItoc) _ out hnames hwrite
    (fun _ h => sampleRun_tables h) 0 _ _ hf rfl hcontent (fun _ => 0) fun _ => 0
  obtain ⟨w⟩ := written_of_ok hwrite
  obtain ⟨entries', r', hfiles', hopen, hspec⟩ := w.getFiles_spec (fun _ => "") (fun _ => hnames)
    (fun table h => sampleRun_tables w.plan_eq table (by simp [CpkPlan.tables, h]))
    (r := CpkReader.new out.bytes 0 (fun _ => 0) fun _ => 0) rfl rfl
  rw [hfiles] at hfiles'
  obtain ⟨hentries, rfl⟩ := Prod.mk.inj hfiles'
  obtain rfl := Exec.ok.inj hentries
  obtain ⟨⟨-, -, -, payload, hpayload, hread⟩, -⟩ := (hspec 0 _ hf).2 e hentry
  obtain rfl := Exec.ok.inj
    ((emittedPayload_rebuilt .u64 false rfl hcontent).symm.trans hpayload)
  obtain ⟨r₁, hpacked, -, -⟩ := hread r hopen
  -- the prefix of 256 bytes is all that is extracted
  have hdecompress : ∀ list : FreeList, (LaylaDecompressor.decompress sampleCompressed list).1 =
      .ok (List.replicate 0x100 9 ++ []) := fun list =>
    (@LaylaDecompressor.decompress_eq _ ⟨LaylaDecompressor.headerMagic, 0, 0⟩ [] []
      (by decide +kernel) (by decide +kernel) ⟨by simp, by simp, rfl, rfl⟩ list).trans
      (by decide +kernel)
  have hcompressed : LaylaDecompressor.isCompressed sampleCompressed = .ok true := by
    decide +kernel
  rw [extractFile_eq hpacked (decrypt_decryptorFor ..)] at hextract
  unfold transformIf at hextract
  simp only [Bool.false_and, Bool.false_eq_true, if_false] at hextract
  rw [inflate_eq hcompressed, if_pos rfl, hdecompress] at hextract
  exact absurd hextract (by decide +kernel)

end CriArchive
