import CriArchive.Cpk.RoundTrip.Archive

set_option relaxedAutoImplicit false
set_option autoImplicit false

/-!
# Round trips of written archives

What the reader returns on the bytes that the writer put out, for every index mode.

## Main definitions

* `CpkReader.Opened` — a reader of given bytes that has read their metadata.
* `ReadsBack` — an entry stands for a packed entry, with its payload.

## Main results

* `toc_roundtrip` — archives with a table of contents.
* `itoc_roundtrip` — archives with only an ID table, which stores no offsets.
* `toc_itoc_agree` — both indexes of an archive describe the same payloads.
-/

namespace CriArchive

open ByteStream CpkReader

/-- A reader of an archive that starts at the first byte and whose metadata was read. -/
def CpkReader.Opened (bytes : List UInt8) (r : CpkReader) : Prop :=
  r.stream.bytes = bytes ∧ r.startPos = 0 ∧ r.metadata ≠ none

/-- An entry has the ID and the sizes of a packed entry (an extract size of zero stands for the
packed size), and every reader of the archive reads the payload that was put out. -/
structure ReadsBack (fs : FileSystem) (path : P5RPath) (p5rEncryption : Bool) (bytes : List UInt8)
    (f : CpkInputFile) (e : CpkFile) : Prop where
  id : e.id = some f.id
  fileSize : e.fileSize = f.size
  extractSize : e.extractSize = if f.extractSize = 0 then f.size else f.extractSize
  payload : ∃ payload, emittedPayload fs path p5rEncryption f = .ok payload ∧
    ∀ r, Opened bytes r →
      ∃ r', readPackedFile e r = (.ok payload, r') ∧ Opened bytes r' ∧ r'.freeList = r.freeList

section RoundTrip

variable {fs : FileSystem} {path : P5RPath} {files : List CpkInputFile}
  {options : CpkWriterOptions} {profile : CpkWriterProfile} {report : CpkWriteReport}
  {bytes : List UInt8}

namespace Written

variable (w : Written fs path files options profile report bytes)

include w

/-- Reading the metadata of the archive opens it. -/
theorem opened_readMetadata (shiftJis : List UInt8 → String) {r : CpkReader}
    (hbytes : r.stream.bytes = bytes) (hstart : r.startPos = 0) :
    ∃ r', readMetadata shiftJis r = (.ok w.metadata, r') ∧ Opened bytes r' ∧
      r'.metadata = some w.metadata ∧ r'.freeList = r.freeList := by
  obtain ⟨pos, h⟩ := w.readMetadata_eq shiftJis hbytes hstart
  exact ⟨_, h, ⟨rfl, hstart, by simp⟩, rfl, rfl⟩

/-- An entry at the planned offset of a packed entry, with its ID and sizes, reads back. -/
theorem readsBack {i : ℕ} {f : CpkInputFile} {o : UInt64} (hf : files[i]? = some f)
    (ho : w.plan.absoluteOffsets[i]? = some o) {e : CpkFile} (hid : e.id = some f.id)
    (hsize : e.fileSize = f.size)
    (hextract : e.extractSize = if f.extractSize = 0 then f.size else f.extractSize)
    (habsolute : e.absoluteOffset = o) :
    ReadsBack fs path options.p5rEncryption bytes f e := by
  refine ⟨hid, hsize, hextract, ?_⟩
  obtain ⟨payload, hemits, -⟩ := window_payload w.planned w.emits hf ho
  refine ⟨payload, hemits.1, fun r hr => ?_⟩
  obtain ⟨payload', s, hemits', hread, hs⟩ :=
    w.readPackedFile_eq hf ho hr.1 hr.2.1 hr.2.2 habsolute hsize
  obtain rfl := Exec.ok.inj (hemits.1.symm.trans hemits')
  exact ⟨_, hread, ⟨hs, hr.2.1, hr.2.2⟩, rfl⟩

/-- The metadata of an archive is its report and its profile. -/
theorem metadata_eq : w.metadata.tocOffset = report.tocOffset ∧
    w.metadata.itocOffset = report.itocOffset ∧
    w.metadata.contentOffset = report.contentOffset ∧ w.metadata.fileSize = report.archiveSize ∧
    w.metadata.files = report.files ∧ w.metadata.align = options.alignment := by
  have h := w.report_eq
  exact ⟨(congrArg CpkWriteReport.tocOffset h).symm, (congrArg CpkWriteReport.itocOffset h).symm,
    (congrArg CpkWriteReport.contentOffset h).symm, (congrArg CpkWriteReport.archiveSize h).symm,
    (congrArg CpkWriteReport.files h).symm, rfl⟩

/-- Reading the entries of an archive with a table of contents. -/
theorem getFiles_toc (shiftJis : List UInt8 → String) (htoc : profile.indexMode.hasToc = true)
    (hnames : ∀ f ∈ files, f.fileName ≠ "")
    (h32 : ∀ table, w.plan.tocTable = some table → table.length < 2 ^ 32) {r : CpkReader}
    (hbytes : r.stream.bytes = bytes) (hstart : r.startPos = 0) :
    ∃ entries r', getFiles shiftJis r = (.ok entries, r') ∧ Opened bytes r' ∧
      r'.metadata = some w.metadata ∧ entries.length = files.length ∧
      ∀ (i : ℕ) (f : CpkInputFile) (o : UInt64), files[i]? = some f →
        w.plan.absoluteOffsets[i]? = some o → ∃ rel, entries[i]? = some (tocEntry f rel o) := by
  obtain ⟨r₁, hmetadata, hopen, hm, -⟩ := w.opened_readMetadata shiftJis hbytes hstart
  obtain ⟨entries, pos, hread, hlen, hall⟩ := w.readToc_eq shiftJis htoc hnames h32 hopen.1 hopen.2.1
  have hoffset : w.metadata.tocOffset ≠ 0 := by
    have hplan : w.metadata.tocOffset = 0x800 := (w.planned.toc htoc).1
    rw [hplan]
    decide
  refine ⟨entries, { r₁ with stream := ⟨bytes, pos⟩ }, ?_, ⟨rfl, hopen.2.1, hopen.2.2⟩, hm, hlen,
    hall⟩
  unfold getFiles
  rw [ExecM.bind_of_ok hmetadata, readIndex, if_pos hoffset, hread]

/-- Reading the entries of an archive with only an ID table. -/
theorem getFiles_itoc (shiftJis : List UInt8 → String) (hmode : profile.indexMode = .itoc)
    {r : CpkReader} (hbytes : r.stream.bytes = bytes) (hstart : r.startPos = 0) :
    ∃ entries r', getFiles shiftJis r = (.ok entries, r') ∧ Opened bytes r' ∧
      r'.metadata = some w.metadata ∧ entries.length = w.physical.length ∧
      ∀ (k i : ℕ) (f : CpkInputFile) (o : UInt64), w.plan.physicalOrder[k]? = some i →
        files[i]? = some f → w.plan.absoluteOffsets[i]? = some o →
        ∃ rel, entries[k]? = some (itocEntry (itocRowRead f) rel o) := by
  have hitoc : profile.indexMode.hasItoc = true := by
    rw [hmode]
    rfl
  obtain ⟨r₁, hmetadata, hopen, hm, -⟩ := w.opened_readMetadata shiftJis hbytes hstart
  obtain ⟨entries, pos, hread, hlen, hall⟩ := w.readItoc_eq shiftJis hitoc hopen.1 hopen.2.1
  have hnoToc : w.metadata.tocOffset = 0 :=
    (w.planned.noToc (by rw [hmode]; rfl)).1
  have hoffset : w.metadata.itocOffset ≠ 0 := by
    obtain ⟨-, -, table, htable, -⟩ := w.planned.itoc hitoc
    have hle := (w.layout.itoc table htable).1
    intro hzero
    have hplan : w.plan.itocOffset = 0 := hzero
    rw [hplan] at hle
    simp at hle
  refine ⟨entries, { r₁ with stream := ⟨bytes, pos⟩ }, ?_, ⟨rfl, hopen.2.1, hopen.2.2⟩, hm, hlen,
    hall⟩
  unfold getFiles
  rw [ExecM.bind_of_ok hmetadata, readIndex, if_neg (not_not.mpr hnoToc), if_pos hoffset, hread]

end Written

end RoundTrip

/-! ## The round trips -/

/-- **Round trip of archives with a table of contents.** When the strings of the packed entries
are `NUL`-free, their file names are not empty and the tables are shorter than `2 ^ 32`, the reader
returns one entry for each packed entry, in the given order, with its strings, its ID, its sizes
and its payload; and the metadata is the report and the profile.

**Proof sketch.** The index that the writer emits is read back row by row (`getFiles_toc`), and the
metadata are those of the header's table (`metadata_eq`). What is left is to compare the fields of
each file with those of its input. -/
theorem toc_roundtrip (shiftJis : List UInt8 → String) (fs : FileSystem) (path : P5RPath)
    (files : List CpkInputFile) (options : CpkWriterOptions) (profile : CpkWriterProfile)
    (htoc : profile.indexMode.hasToc = true)
    (hstrings : ∀ f ∈ files, f.directory.NulFree ∧ f.fileName.NulFree ∧ f.userString.NulFree)
    (hnames : ∀ f ∈ files, f.fileName ≠ "") {report : CpkWriteReport} {out : ByteStream}
    (hwrite : writeWithProfile fs path files options profile ⟨[], 0⟩ = (.ok report, out))
    (h32 : ∀ plan, planArchive files options profile = .ok plan →
      ∀ table ∈ plan.tables, table.length < 2 ^ 32) (slab heap : ℕ → UInt8) :
    ∃ entries r m, getFiles shiftJis (CpkReader.new out.bytes 0 slab heap) = (.ok entries, r) ∧
      Opened out.bytes r ∧ r.metadata = some m ∧
      (m.tocOffset = report.tocOffset ∧ m.itocOffset = report.itocOffset ∧
        m.contentOffset = report.contentOffset ∧ m.fileSize = report.archiveSize ∧
        m.fileSize.toNat = out.bytes.length ∧ m.files = report.files ∧
        m.files.toNat = files.length ∧ m.align = options.alignment ∧
        m.version = profile.version ∧ m.revision = profile.revision ∧
        m.updateDateTime = profile.updateDateTime ∧
        m.eid = (if profile.indexMode.hasItoc && profile.directItoc then 1 else 0) ∧
        m.cpkMode = profile.indexMode.cpkMode) ∧
      entries.length = files.length ∧
      ∀ (i : ℕ) (f : CpkInputFile), files[i]? = some f → ∃ e, entries[i]? = some e ∧
        e.directory = f.directory ∧ e.fileName = f.fileName ∧ e.userString = f.userString ∧
        ReadsBack fs path options.p5rEncryption out.bytes f e := by
  obtain ⟨w⟩ := written_of_ok hwrite
  have htable : ∀ table, w.plan.tocTable = some table → table.length < 2 ^ 32 := by
    intro table h
    exact h32 w.plan w.plan_eq table (by simp [CpkPlan.tables, h])
  obtain ⟨entries, r, hfiles, hopen, hm, hlen, hall⟩ := w.getFiles_toc shiftJis htoc hnames htable
    (r := CpkReader.new out.bytes 0 slab heap) rfl rfl
  obtain ⟨h₁, h₂, h₃, h₄, h₅, h₆⟩ := w.metadata_eq
  refine ⟨entries, r, w.metadata, hfiles, hopen, hm, ⟨h₁, h₂, h₃, h₄, ?_, h₅, ?_, h₆, rfl, rfl, rfl,
    rfl, rfl⟩, hlen, fun i f hf => ?_⟩
  · exact w.layout.length.symm
  · exact w.planned.fileCount
  · obtain ⟨o, ho⟩ := w.offset_of_file hf
    obtain ⟨rel, hentry⟩ := hall i f o hf ho
    obtain ⟨hdirectory, hfileName, huserString⟩ := hstrings f (List.mem_of_getElem? hf)
    exact ⟨_, hentry, String.nulPrefix_of_nulFree hdirectory, String.nulPrefix_of_nulFree hfileName,
      String.nulPrefix_of_nulFree huserString, w.readsBack hf ho rfl rfl rfl rfl⟩

/-- The two entries of the small archive are read back. -/
theorem toc_roundtrip_sample : ∃ out entries r,
    writeWithProfile sampleFileSystem .u64 sampleFiles ⟨16, false⟩ (sampleProfile .tocAndItoc)
      ⟨[], 0⟩ = (.ok ⟨2, 2048, 2288, 2576, 2864⟩, out) ∧
    getFiles (fun _ => "") (CpkReader.new out.bytes 0 (fun _ => 0) fun _ => 0) = (.ok entries, r) ∧
      entries.map CpkFile.fileName = ["b", "a"] := by
  obtain ⟨out, hwrite⟩ := sampleRun_tocAndItoc
  obtain ⟨entries, r, m, hfiles, -, -, -, hlen, hall⟩ := toc_roundtrip (fun _ => "")
    sampleFileSystem .u64 sampleFiles ⟨16, false⟩ (sampleProfile .tocAndItoc) rfl
    (by decide +kernel) (by decide +kernel) hwrite (fun _ h => sampleRun_tables h)
    (fun _ => 0) fun _ => 0
  refine ⟨out, entries, r, hwrite, hfiles, ?_⟩
  obtain ⟨e, he, -, hname, -⟩ := hall 0 _ rfl
  obtain ⟨e', he', -, hname', -⟩ := hall 1 _ rfl
  have hsplit : entries = [e, e'] := by
    apply List.ext_getElem?
    intro i
    rcases i with _ | _ | i
    · exact he
    · exact he'
    · rw [List.getElem?_eq_none (by rw [hlen]; simp [sampleFiles])]
      rfl
  rw [hsplit, List.map_cons, List.map_cons, List.map_nil, hname, hname']

/-- **Round trip of archives with only an ID table**, direct or nested. Although such an archive
stores no offsets, the reader returns the packed entries in strictly ascending order of their IDs,
each with its sizes and its payload.

**Proof sketch.** As for the named index: `getFiles_itoc` gives the files in the order of the IDs,
and the payload of each stands where the writer's plan put it. -/
theorem itoc_roundtrip (shiftJis : List UInt8 → String) (fs : FileSystem) (path : P5RPath)
    (files : List CpkInputFile) (options : CpkWriterOptions) (profile : CpkWriterProfile)
    (hmode : profile.indexMode = .itoc) {report : CpkWriteReport} {out : ByteStream}
    (hwrite : writeWithProfile fs path files options profile ⟨[], 0⟩ = (.ok report, out))
    (slab heap : ℕ → UInt8) :
    ∃ entries r, getFiles shiftJis (CpkReader.new out.bytes 0 slab heap) = (.ok entries, r) ∧
      Opened out.bytes r ∧ ∃ sorted : List CpkInputFile, sorted.Perm files ∧
        (sorted.map CpkInputFile.id).Pairwise (· < ·) ∧
        List.Forall₂ (ReadsBack fs path options.p5rEncryption out.bytes) sorted entries := by
  obtain ⟨w⟩ := written_of_ok hwrite
  obtain ⟨entries, r, hfiles, hopen, -, hlen, hall⟩ := w.getFiles_itoc shiftJis hmode
    (r := CpkReader.new out.bytes 0 slab heap) rfl rfl
  have hperm := w.layout.entries.2
  have hindices : ∀ j ∈ w.plan.physicalOrder, j < files.length := fun j hj =>
    List.mem_range.mp (hperm.mem_iff.mp hj)
  refine ⟨entries, r, hfiles, hopen, w.physical, inOrder_perm hperm,
    (w.ids_physical (by rw [hmode]; rfl)).2, List.forall₂_iff_get.mpr ⟨hlen.symm, fun k hk hk' => ?_⟩⟩
  have hk₀ : k < w.plan.physicalOrder.length := by
    rw [← length_inOrder hindices]
    exact hk
  obtain ⟨f, o, -, hf, ho, -⟩ := entry_at w.planned w.emits (List.getElem?_eq_getElem hk₀)
  obtain ⟨rel, hentry⟩ := hall k _ f o (List.getElem?_eq_getElem hk₀) hf ho
  have hphysical : w.physical[k] = f := by
    have hget := getElem?_inOrder hindices (List.getElem?_eq_getElem hk₀)
    rw [hf] at hget
    exact (List.getElem?_eq_some_iff.mp hget).2
  have hentry' : entries[k] = itocEntry (itocRowRead f) rel o :=
    (List.getElem?_eq_some_iff.mp hentry).2
  rw [List.get_eq_getElem, List.get_eq_getElem, hphysical, hentry']
  exact w.readsBack hf ho rfl rfl rfl rfl

/-- The two entries of the small archive are read back in the order of their IDs. -/
theorem itoc_roundtrip_sample : ∃ out entries r,
    writeWithProfile sampleFileSystem .u64 sampleFiles ⟨16, false⟩ (sampleProfile .itoc)
      ⟨[], 0⟩ = (.ok ⟨2, 0, 2048, 2336, 2624⟩, out) ∧
    getFiles (fun _ => "") (CpkReader.new out.bytes 0 (fun _ => 0) fun _ => 0) = (.ok entries, r) ∧
      entries.length = 2 := by
  obtain ⟨out, hwrite⟩ := sampleRun_itoc
  obtain ⟨entries, r, hfiles, -, sorted, hperm, -, hall⟩ := itoc_roundtrip (fun _ => "")
    sampleFileSystem .u64 sampleFiles ⟨16, false⟩ (sampleProfile .itoc) rfl hwrite (fun _ => 0)
    fun _ => 0
  exact ⟨out, entries, r, hwrite, hfiles, hall.length_eq.symm.trans hperm.length_eq⟩

/-- **One physical plan behind both indexes.** In an archive with both, the table of contents and
the ID table, each read as if it were the only one, have the same IDs, and for every ID the same
absolute offset and the same sizes.

**Proof sketch.** Both indexes are read back: the TOC has an entry for each input at its planned
offset, in order (`readToc_eq`), and the ID table one for each at the same offset, in physical order
(`readItoc_eq`). The physical order is a permutation with distinct IDs. Hence two entries with one
ID stand for one input, and offset and sizes are those of the plan and of the input. -/
theorem toc_itoc_agree (shiftJis : List UInt8 → String) (fs : FileSystem) (path : P5RPath)
    (files : List CpkInputFile) (options : CpkWriterOptions) (profile : CpkWriterProfile)
    (hmode : profile.indexMode = .tocAndItoc) (hnames : ∀ f ∈ files, f.fileName ≠ "")
    {report : CpkWriteReport} {out : ByteStream}
    (hwrite : writeWithProfile fs path files options profile ⟨[], 0⟩ = (.ok report, out))
    (h32 : ∀ plan, planArchive files options profile = .ok plan →
      ∀ table ∈ plan.tables, table.length < 2 ^ 32) (slab heap : ℕ → UInt8) :
    ∃ m r toc itoc rt ri,
      readMetadata shiftJis (CpkReader.new out.bytes 0 slab heap) = (.ok m, r) ∧
      readToc shiftJis m r = (.ok toc, rt) ∧ readItoc shiftJis m r = (.ok itoc, ri) ∧
      (∀ e ∈ toc, e.id ≠ none) ∧ (toc.map CpkFile.id).Nodup ∧
      (toc.map CpkFile.id).Perm (itoc.map CpkFile.id) ∧
      ∀ a ∈ toc, ∀ b ∈ itoc, a.id = b.id → a.absoluteOffset = b.absoluteOffset ∧
        a.fileSize = b.fileSize ∧ a.extractSize = b.extractSize := by
  obtain ⟨w⟩ := written_of_ok hwrite
  have htable : ∀ table, w.plan.tocTable = some table → table.length < 2 ^ 32 := by
    intro table h
    exact h32 w.plan w.plan_eq table (by simp [CpkPlan.tables, h])
  obtain ⟨r, hmetadata, hopen, -, -⟩ := w.opened_readMetadata shiftJis
    (r := CpkReader.new out.bytes 0 slab heap) rfl rfl
  obtain ⟨toc, pos, htoc, hlenToc, hallToc⟩ := w.readToc_eq shiftJis (by rw [hmode]; rfl) hnames
    htable hopen.1 hopen.2.1
  have hitoc : profile.indexMode.hasItoc = true := by
    rw [hmode]
    rfl
  obtain ⟨itoc, pos', hitoc', hlenItoc, hallItoc⟩ := w.readItoc_eq shiftJis hitoc hopen.1 hopen.2.1
  have hperm := w.layout.entries.2
  have hindices : ∀ j ∈ w.plan.physicalOrder, j < files.length := fun j hj =>
    List.mem_range.mp (hperm.mem_iff.mp hj)
  -- the entries of the two indexes, by the index of their packed entry
  have htocAt : ∀ i (hi : i < toc.length), ∃ (f : CpkInputFile) (o rel : UInt64),
      files[i]? = some f ∧ w.plan.absoluteOffsets[i]? = some o ∧ toc[i] = tocEntry f rel o := by
    intro i hi
    have hf := List.getElem?_eq_getElem (hlenToc ▸ hi : i < files.length)
    obtain ⟨o, ho⟩ := w.offset_of_file hf
    obtain ⟨rel, hentry⟩ := hallToc i _ o hf ho
    exact ⟨_, o, rel, hf, ho, (List.getElem?_eq_some_iff.mp hentry).2⟩
  have hitocAt : ∀ k (hk : k < itoc.length), ∃ (i : ℕ) (f : CpkInputFile) (o rel : UInt64),
      w.plan.physicalOrder[k]? = some i ∧ files[i]? = some f ∧
        w.plan.absoluteOffsets[i]? = some o ∧ itoc[k] = itocEntry (itocRowRead f) rel o := by
    intro k hk
    have hk₀ : k < w.plan.physicalOrder.length := by
      rw [← length_inOrder hindices]
      exact hlenItoc ▸ hk
    obtain ⟨f, o, -, hf, ho, -⟩ := entry_at w.planned w.emits (List.getElem?_eq_getElem hk₀)
    obtain ⟨rel, hentry⟩ := hallItoc k _ f o (List.getElem?_eq_getElem hk₀) hf ho
    exact ⟨_, f, o, rel, List.getElem?_eq_getElem hk₀, hf, ho,
      (List.getElem?_eq_some_iff.mp hentry).2⟩
  have hidsToc : toc.map CpkFile.id = files.map fun f => some f.id := by
    refine List.ext_getElem (by simp [hlenToc]) fun i h₁ h₂ => ?_
    obtain ⟨f, o, rel, hf, -, hentry⟩ := htocAt i (by simpa using h₁)
    rw [List.getElem_map, List.getElem_map, hentry, (List.getElem?_eq_some_iff.mp hf).2]
    rfl
  have hidsItoc : itoc.map CpkFile.id = w.physical.map fun f => some f.id := by
    refine List.ext_getElem (by simp [hlenItoc]) fun k h₁ h₂ => ?_
    obtain ⟨i, f, o, rel, hi, hf, -, hentry⟩ := hitocAt k (by simpa using h₁)
    have hget : w.physical[k]? = some f := (getElem?_inOrder hindices hi).trans hf
    rw [List.getElem_map, List.getElem_map, hentry, (List.getElem?_eq_some_iff.mp hget).2]
    rfl
  have hphysical : w.physical.Perm files := inOrder_perm hperm
  have hnodup : (files.map fun f => some f.id).Nodup := by
    have hids := (w.ids_physical hitoc).2
    refine ((hphysical.map fun f => some f.id).nodup_iff).mp ?_
    rw [List.pairwise_map] at hids
    rw [List.Nodup, List.pairwise_map]
    exact hids.imp fun hab heq => UInt32.ne_of_lt hab (Option.some.inj heq)
  refine ⟨w.metadata, r, toc, itoc, _, _, hmetadata, htoc, hitoc', ?_, ?_, ?_, ?_⟩
  · intro e he
    obtain ⟨i, hi, rfl⟩ := List.mem_iff_getElem.mp he
    obtain ⟨f, o, rel, -, -, hentry⟩ := htocAt i hi
    rw [hentry]
    exact Option.some_ne_none _
  · rw [hidsToc]
    exact hnodup
  · rw [hidsToc, hidsItoc]
    exact (hphysical.map _).symm
  · intro a ha b hb hid
    obtain ⟨i, hi, rfl⟩ := List.mem_iff_getElem.mp ha
    obtain ⟨k, hk, rfl⟩ := List.mem_iff_getElem.mp hb
    obtain ⟨f, o, rel, hf, ho, hentry⟩ := htocAt i hi
    obtain ⟨j, g, o', rel', -, hg, ho', hentry'⟩ := hitocAt k hk
    rw [hentry, hentry'] at hid ⊢
    have hfg : f.id = g.id := Option.some.inj hid
    -- IDs are distinct, so both entries have the same index
    have hij : i = j := by
      obtain ⟨hi', hf'⟩ := List.getElem?_eq_some_iff.mp hf
      obtain ⟨hj', hg'⟩ := List.getElem?_eq_some_iff.mp hg
      have hinj : getElem (files.map fun f => some f.id) i (by simpa using hi') =
          getElem (files.map fun f => some f.id) j (by simpa using hj') ↔ i = j :=
        List.Nodup.getElem_inj_iff hnodup
      rw [List.getElem_map, List.getElem_map, hf', hg', hfg] at hinj
      exact hinj.mp rfl
    subst hij
    obtain rfl := Option.some.inj (hf.symm.trans hg)
    obtain rfl := Option.some.inj (ho.symm.trans ho')
    exact ⟨rfl, rfl, rfl⟩

/-- Both indexes of the small archive are read, with the same IDs. -/
theorem toc_itoc_agree_sample : ∃ out m r toc itoc rt ri,
    writeWithProfile sampleFileSystem .u64 sampleFiles ⟨16, false⟩ (sampleProfile .tocAndItoc)
      ⟨[], 0⟩ = (.ok ⟨2, 2048, 2288, 2576, 2864⟩, out) ∧
    readMetadata (fun _ => "") (CpkReader.new out.bytes 0 (fun _ => 0) fun _ => 0) = (.ok m, r) ∧
      readToc (fun _ => "") m r = (.ok toc, rt) ∧ readItoc (fun _ => "") m r = (.ok itoc, ri) ∧
      (toc.map CpkFile.id).Perm (itoc.map CpkFile.id) := by
  obtain ⟨out, hwrite⟩ := sampleRun_tocAndItoc
  obtain ⟨m, r, toc, itoc, rt, ri, hmetadata, htoc, hitoc, -, -, hperm, -⟩ :=
    toc_itoc_agree (fun _ => "") sampleFileSystem .u64 sampleFiles ⟨16, false⟩
      (sampleProfile .tocAndItoc) rfl (by decide +kernel) hwrite (fun _ h => sampleRun_tables h)
      (fun _ => 0) fun _ => 0
  exact ⟨out, m, r, toc, itoc, rt, ri, hwrite, hmetadata, htoc, hitoc, hperm⟩

end CriArchive
