import CriArchive.Cpk.Relocation
import CriArchive.Cpk.Writer.Dependence

set_option relaxedAutoImplicit false
set_option autoImplicit false

/-!
# Bytes behind an archive

A writer puts an archive over the start of its stream, and leaves what the stream held behind it. A
reader does not see such bytes: whatever it returns from an archive, it returns from the archive with
bytes appended.

## Main definitions

* `Appended` — a reader of an archive, and one of the archive with bytes behind it.
* `CpkReader.ReadsAtLeast` — what one reader returns, another returns.

## Main results

* `entriesOf_mono` — the entries only depend on the chunks that are there.
* `Appended.readsAtLeast` — a reader does not see what is behind an archive.
* `writeWithProfile_over` — an archive that is written over other bytes reads like one that is
  written to an empty stream.
-/

namespace CriArchive

open ByteStream CpkReader

/-! ## More chunks -/

section Mono

variable {shiftJis : List UInt8 → String} {chunk chunk' : UInt64 → Option TableContainer}

/-- Where more chunks are found, the same tables are. -/
theorem tableOf_mono {offset : UInt64} {kind : CpkChunkKind} {t : HighTable}
    (hmono : ∀ offset c, chunk offset = some c → chunk' offset = some c)
    (h : tableOf shiftJis chunk offset kind = some t) :
    tableOf shiftJis chunk' offset kind = some t := by
  obtain ⟨container, hcontainer, htable⟩ := Option.bind_eq_some_iff.mp h
  exact Option.bind_eq_some_iff.mpr ⟨container, hmono _ _ hcontainer, htable⟩

/-- Where more chunks are found, the metadata are the same. -/
theorem metadataOf_mono {m : CpkMetadata}
    (hmono : ∀ offset c, chunk offset = some c → chunk' offset = some c)
    (h : metadataOf shiftJis chunk = some m) : metadataOf shiftJis chunk' = some m := by
  obtain ⟨table, htable, hm⟩ := Option.bind_eq_some_iff.mp h
  exact Option.bind_eq_some_iff.mpr ⟨table, tableOf_mono hmono htable, hm⟩

/-- Where more chunks are found, the entries are the same. -/
theorem indexOf_mono {m : CpkMetadata} {files : List CpkFile}
    (hmono : ∀ offset c, chunk offset = some c → chunk' offset = some c)
    (h : indexOf shiftJis chunk m = some files) : indexOf shiftJis chunk' m = some files := by
  unfold indexOf at h ⊢
  split_ifs at h ⊢ with htoc hitoc
  all_goals
    obtain ⟨table, htable, hfiles⟩ := Option.bind_eq_some_iff.mp h
    exact Option.bind_eq_some_iff.mpr ⟨table, tableOf_mono hmono htable, hfiles⟩

/-- **The entries** are still found when there are more chunks. -/
theorem entriesOf_mono {files : List CpkFile}
    (hmono : ∀ offset c, chunk offset = some c → chunk' offset = some c)
    (h : entriesOf shiftJis chunk = some files) : entriesOf shiftJis chunk' = some files := by
  obtain ⟨m, hm, hfiles⟩ := Option.bind_eq_some_iff.mp h
  exact Option.bind_eq_some_iff.mpr ⟨m, metadataOf_mono hmono hm, indexOf_mono hmono hfiles⟩

/-- A chunk stays when bytes are appended. -/
theorem chunkAt_append_left {bytes : List UInt8} {pos : ℕ} {c : TableContainer}
    (h : chunkAt bytes pos = some c) (rest : List UInt8) : chunkAt (bytes ++ rest) pos = some c := by
  have hinside := (chunkAt_eq_some.mp h).1.inside
  have hwindow : ∀ off len, off + len ≤ 16 + tableSize bytes pos →
      window (bytes ++ rest) (pos + off) len = window bytes (pos + off) len :=
    fun off len hle => window_append_left (by omega)
  have hsize : tableSize (bytes ++ rest) pos = tableSize bytes pos :=
    congrArg Endian.leNat (hwindow 8 8 (by omega))
  have hstored : storedTable (bytes ++ rest) pos = storedTable bytes pos := by
    rw [storedTable, storedTable, hsize, hwindow 16 _ (by omega)]
  have hmarker : (bytes ++ rest)[pos + 4]? = bytes[pos + 4]? :=
    List.getElem?_append_left (by omega)
  rw [← h]
  refine chunkAt_congr hsize ⟨fun _ => hinside, fun _ => ?_⟩
    (congrArg _ (hwindow 0 4 (by omega))) ?_
  · rw [List.length_append]
    omega
  · rw [plainTable, plainTable, hstored, hmarker]

end Mono

/-! ## Two readers -/

/-- A reader of an archive, and one of the archive with bytes behind it, whose metadata were read if
they are known to be. -/
structure Appended (bytes rest : List UInt8) (start : UInt64) (opened : Prop) (r r' : CpkReader) :
    Prop where
  alone : r.ReadsFrom bytes start opened
  before : r'.ReadsFrom (bytes ++ rest) start opened

section Readers

variable (shiftJis : List UInt8 → String) (E : FileDecryptor)

/-- Whatever the one reader returns, whichever calls are made in between, the other returns. -/
structure CpkReader.ReadsAtLeast (r r' : CpkReader) : Prop where
  files : ∀ entries, (getFiles shiftJis r).1 = .ok entries →
    (getFiles shiftJis r').1 = .ok entries ∧
      (getFiles shiftJis r').2.metadata = (getFiles shiftJis r).2.metadata
  packed : ∀ entries, (getFiles shiftJis r).1 = .ok entries →
    ∀ (after after' : List ReaderCall) (file : CpkFile) (content : List UInt8),
      (readPackedFile file ((getFiles shiftJis r).2.afterCalls shiftJis E after)).1 = .ok content →
      (readPackedFile file ((getFiles shiftJis r').2.afterCalls shiftJis E after')).1 = .ok content
  extracted : ∀ entries, (getFiles shiftJis r).1 = .ok entries →
    ∀ (after after' : List ReaderCall) (file : CpkFile) (content : List UInt8),
      (extractFile E file ((getFiles shiftJis r).2.afterCalls shiftJis E after)).1 = .ok content →
      (extractFile E file ((getFiles shiftJis r').2.afterCalls shiftJis E after')).1 = .ok content

variable {shiftJis E} {bytes rest : List UInt8} {start : UInt64} {opened : Prop} {r r' : CpkReader}

/-- A chunk of the archive is one of the archive with bytes behind it. -/
theorem Appended.chunk_mono (h : Appended bytes rest start opened r r') :
    ∀ offset c, r.chunk offset = some c → r'.chunk offset = some c := by
  intro offset c hchunk
  rw [CpkReader.chunk, h.alone.bytes, h.alone.startPos] at hchunk
  rw [CpkReader.chunk, h.before.bytes, h.before.startPos]
  obtain ⟨position, hposition, hc⟩ := Option.bind_eq_some_iff.mp hchunk
  exact Option.bind_eq_some_iff.mpr ⟨position, hposition, chunkAt_append_left hc rest⟩

/-- Calls keep two readers related. -/
theorem Appended.afterCalls (h : Appended bytes rest start opened r r')
    (calls calls' : List ReaderCall) :
    Appended bytes rest start opened (r.afterCalls shiftJis E calls)
      (r'.afterCalls shiftJis E calls') :=
  ⟨keeps_afterCalls calls h.alone, keeps_afterCalls calls' h.before⟩

/-- When the entries are returned, both readers keep the same metadata and have read them. -/
theorem Appended.getFiles (h : Appended bytes rest start opened r r') {entries : List CpkFile}
    (hentries : (CpkReader.getFiles shiftJis r).1 = .ok entries) :
    (CpkReader.getFiles shiftJis r').2.metadata = (CpkReader.getFiles shiftJis r).2.metadata ∧
      Appended bytes rest start True (CpkReader.getFiles shiftJis r).2
        (CpkReader.getFiles shiftJis r').2 := by
  obtain ⟨m, hm, -⟩ := Option.bind_eq_some_iff.mp (getFiles_fst_eq_ok.mp hentries)
  obtain ⟨pos, hr⟩ := reread_of_getFiles shiftJis r
  obtain ⟨pos', hr'⟩ := reread_of_getFiles shiftJis r'
  rw [hm, Option.some_or] at hr
  rw [metadataOf_mono h.chunk_mono hm, Option.some_or] at hr'
  rw [hr, hr']
  exact ⟨rfl, ⟨h.alone.bytes, h.alone.startPos, fun _ => Option.some_ne_none m⟩,
    ⟨h.before.bytes, h.before.startPos, fun _ => Option.some_ne_none m⟩⟩

/-- **Packed bytes** that are returned do not depend on what is behind the archive. -/
theorem Appended.readPackedFile (h : Appended bytes rest start True r r') {file : CpkFile}
    {content : List UInt8} (hread : (CpkReader.readPackedFile file r).1 = .ok content) :
    (CpkReader.readPackedFile file r').1 = .ok content := by
  have hm := h.alone.metadata trivial
  obtain ⟨position, hposition⟩ : ∃ position, r.startPos.checkedAdd file.absoluteOffset =
      some position := by
    by_contra hnone
    have hoverflow := Option.eq_none_iff_forall_ne_some.mpr (not_exists.mp hnone)
    unfold CpkReader.readPackedFile at hread
    rw [ExecM.bind_of_ok (ExecM.get_apply r), ExecM.lift_bind_of_ok (Exec.errIf_of_not hm _),
      hoverflow] at hread
    cases hread
  have hposition' : r'.startPos.checkedAdd file.absoluteOffset = some position := by
    rw [h.before.startPos, ← h.alone.startPos, hposition]
  rw [readPackedFile_fst hm hposition, h.alone.bytes] at hread
  rw [readPackedFile_fst (h.before.metadata trivial) hposition', h.before.bytes]
  split_ifs at hread with hfits
  obtain rfl := Exec.ok.inj hread
  rw [List.length_append, if_pos (by omega)]
  by_cases hempty : file.fileSize.toNat = 0
  · rw [hempty, window, window, List.take_zero, List.take_zero]
  · rw [window_append_left (by omega)]

/-- **A reader does not see what is behind an archive.** -/
theorem Appended.readsAtLeast (h : Appended bytes rest start opened r r') :
    ReadsAtLeast shiftJis E r r' := by
  have hpacked : ∀ entries, (CpkReader.getFiles shiftJis r).1 = .ok entries →
      ∀ (after after' : List ReaderCall) (file : CpkFile) (content : List UInt8),
        (CpkReader.readPackedFile file
          ((CpkReader.getFiles shiftJis r).2.afterCalls shiftJis E after)).1 = .ok content →
        (CpkReader.readPackedFile file
          ((CpkReader.getFiles shiftJis r').2.afterCalls shiftJis E after')).1 = .ok content :=
    fun entries hentries after after' file content hread =>
      ((h.getFiles hentries).2.afterCalls after after').readPackedFile hread
  refine ⟨fun entries hentries => ⟨?_, (h.getFiles hentries).1⟩, hpacked, ?_⟩
  · exact getFiles_fst_eq_ok.mpr (entriesOf_mono h.chunk_mono (getFiles_fst_eq_ok.mp hentries))
  · intro entries hentries after after' file content hextract
    -- the packed bytes were returned, and extraction depends on them only
    obtain ⟨both, s, hboth, -⟩ := ExecM.bind_fst_eq_ok.mp hextract
    obtain ⟨packed, s', hread, -⟩ := ExecM.bind_eq_ok.mp hboth
    have hread := congrArg Prod.fst hread
    have hread' := hpacked entries hentries after after' file packed hread
    rw [← hextract]
    exact (extractFile_congr (hread.trans hread'.symm) fun _ => rfl).symm

end Readers

/-! ## Writing over other bytes -/

section Write

variable {fs : FileSystem} {path : P5RPath} {files : List CpkInputFile} {options : CpkWriterOptions}
  {profile : CpkWriterProfile} {report : CpkWriteReport} {s t : ByteStream}

/-- An archive is written over the start of a stream, as it is written to an empty stream. -/
theorem writeWithProfile_eq_over
    (h : writeWithProfile fs path files options profile s = (.ok report, t)) :
    ∃ out, writeWithProfile fs path files options profile ⟨[], 0⟩ = (.ok report, out) ∧
      t.bytes = out.bytes ++ s.bytes.drop out.bytes.length := by
  obtain ⟨plan, payloads, hplan, rfl, hp, hemits, hover⟩ :=
    (writeWithProfile_ends fs path files options profile s).of_ok h
  have hperm := (buildPhysicalOrder_spec hp.order).1
  have hpackable : packable fs path files options profile = true := by
    rw [packable, hplan]
    refine List.all_eq_true.mpr fun f hf => ?_
    obtain ⟨i, hi, rfl⟩ := List.mem_iff_getElem.mp ((inOrder_perm hperm).mem_iff.mpr hf)
    obtain ⟨hlen, hall⟩ := List.forall₂_iff_get.mp hemits
    exact emittable_of_emits (hall i hi (hlen ▸ hi))
  obtain ⟨report', out, hwrite⟩ := exists_writeWithProfile hpackable
  obtain ⟨plan', payloads', hplan', rfl, -, hemits', hover'⟩ :=
    (writeWithProfile_ends fs path files options profile ⟨[], 0⟩).of_ok hwrite
  obtain rfl := Exec.ok.inj (hplan.symm.trans hplan')
  obtain rfl : payloads' = payloads :=
    eq_of_emits (List.forall₂_same.mpr fun _ _ _ hf => hf) hemits hemits'
  exact ⟨out, hwrite, by rw [hover.1, hover'.bytes_eq]⟩

/-- **Writing over other bytes.** Whatever a stream holds and wherever it stands, the archive that is
written to it is the one that is written to an empty stream, followed by what it did not reach; and
whatever a reader returns from the one, it returns from the other.

**Proof sketch.** `writeWithProfile_eq_over` gives the bytes that are left on the stream. A reader
of the written bytes and one of the longer stream begin in related states, and both the calls and
the reads that follow keep them related (`Appended.afterCalls`, `Appended.readsAtLeast`). -/
theorem writeWithProfile_over
    (h : writeWithProfile fs path files options profile s = (.ok report, t)) :
    ∃ out, writeWithProfile fs path files options profile ⟨[], 0⟩ = (.ok report, out) ∧
      t.bytes = out.bytes ++ s.bytes.drop out.bytes.length ∧
      ∀ (shiftJis : List UInt8 → String) (E : FileDecryptor) (slab heap slab' heap' : ℕ → UInt8)
        (before before' : List ReaderCall), ReadsAtLeast shiftJis E
          ((CpkReader.new out.bytes 0 slab heap).afterCalls shiftJis E before)
          ((CpkReader.new t.bytes 0 slab' heap').afterCalls shiftJis E before') := by
  obtain ⟨out, hwrite, hbytes⟩ := writeWithProfile_eq_over h
  refine ⟨out, hwrite, hbytes, fun shiftJis E slab heap slab' heap' before before' => ?_⟩
  have hnew : Appended out.bytes (s.bytes.drop out.bytes.length) 0 False
      (CpkReader.new out.bytes 0 slab heap) (CpkReader.new t.bytes 0 slab' heap') :=
    ⟨⟨rfl, rfl, False.elim⟩, ⟨hbytes, rfl, False.elim⟩⟩
  exact (hnew.afterCalls before before').readsAtLeast

/-- An archive of 2864 bytes is written over 2900 bytes, from a position in the middle. -/
theorem writeWithProfile_over_sample : ∃ (out t : ByteStream),
    writeWithProfile sampleFileSystem .u64 sampleFiles ⟨16, false⟩ (sampleProfile .tocAndItoc)
      ⟨List.replicate 2900 7, 5⟩ = (.ok ⟨2, 2048, 2288, 2576, 2864⟩, t) ∧
    t.bytes = out.bytes ++ (List.replicate 2900 7).drop out.bytes.length ∧
    ReadsAtLeast (fun _ => "") DummyDecryptor (CpkReader.new out.bytes 0 (fun _ => 0) fun _ => 0)
      (CpkReader.new t.bytes 0 (fun _ => 0) fun _ => 0) := by
  obtain ⟨t, hwrite⟩ : ∃ t, writeWithProfile sampleFileSystem .u64 sampleFiles ⟨16, false⟩
      (sampleProfile .tocAndItoc) ⟨List.replicate 2900 7, 5⟩ = (.ok ⟨2, 2048, 2288, 2576, 2864⟩, t) :=
    ExecM.exists_of_fst (by decide +kernel)
  obtain ⟨out, -, hbytes, hreads⟩ := writeWithProfile_over hwrite
  exact ⟨out, t, hwrite, hbytes, hreads _ _ (fun _ => 0) (fun _ => 0) (fun _ => 0) (fun _ => 0) [] []⟩

end Write

end CriArchive
