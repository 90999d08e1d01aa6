import CriArchive.Cpk.Chunks
import CriArchive.Cpk.RoundTrip.Reuse

set_option relaxedAutoImplicit false
set_option autoImplicit false

/-!
# Archives inside a stream

An archive need not start at the beginning of its stream: a reader remembers the position at which
it was created. What it reads does not depend on that position, nor on what stands before it, nor on
the calls that were made before.

## Main definitions

* `ReaderCall`, `CpkReader.afterCalls` — the calls of a reader, and what they make of it.
* `Relocated` — a reader of an archive behind other bytes, and one of the archive alone.

## Main results

* `CpkReader.keeps_afterCalls` — no call changes the stream or the start of the archive.
* `readPackedFile_relocated` — packed bytes are the same.
* `reading_relocated` — reading is position independent.
-/

namespace CriArchive

open ByteStream CpkReader

/-! ## Calls -/

/-- The calls of a reader. -/
inductive ReaderCall where
  | getFiles
  | readPackedFile (file : CpkFile)
  | extractFile (file : CpkFile)

section Calls

variable (shiftJis : List UInt8 → String) (E : FileDecryptor)

/-- The reader after a call, however the call ends. -/
def ReaderCall.after : ReaderCall → CpkReader → CpkReader
  | getFiles, r => (CpkReader.getFiles shiftJis r).2
  | readPackedFile file, r => (CpkReader.readPackedFile file r).2
  | extractFile file, r => (CpkReader.extractFile E file r).2

/-- The reader after a sequence of calls. -/
def CpkReader.afterCalls (r : CpkReader) (calls : List ReaderCall) : CpkReader :=
  calls.foldl (fun r call => call.after shiftJis E r) r

/-- A reader of an archive that starts at a position of a stream, whose metadata were read if they
are known to be. -/
structure CpkReader.ReadsFrom (bytes : List UInt8) (start : UInt64) (opened : Prop)
    (r : CpkReader) : Prop where
  bytes : r.stream.bytes = bytes
  startPos : r.startPos = start
  metadata : opened → r.metadata ≠ none

variable {shiftJis} {E} {bytes : List UInt8} {start : UInt64} {opened : Prop}

namespace CpkReader

/-- Reading packed bytes keeps what the reader stands for. -/
theorem keeps_readPackedFile (file : CpkFile) :
    (readPackedFile file).Keeps (ReadsFrom bytes start opened) := by
  have hstream : ∀ {α : Type} {x : ExecM ByteStream Error α},
      x.Keeps (fun s => s.bytes = bytes) → (onStream x).Keeps (ReadsFrom bytes start opened) :=
    fun hx => hx.zoom (fun _ h => h.bytes) fun _ _ h hs => ⟨hs, h.startPos, h.metadata⟩
  unfold readPackedFile
  refine ExecM.keeps_get.bind fun r => (ExecM.keeps_lift _).bind fun _ => ?_
  refine (ExecM.keeps_lift _).bind fun position => (hstream fun _ hs => hs).bind fun _ => ?_
  exact (ExecM.keeps_lift _).bind fun _ => hstream (keeps_readExact bytes _ _)

/-- Extracting with packed bytes keeps what the reader stands for. -/
theorem keeps_extractFileWithPacked (file : CpkFile) :
    (extractFileWithPacked E file).Keeps (ReadsFrom bytes start opened) := by
  have hinflate : ∀ output, (inflate output).Keeps (ReadsFrom bytes start opened) := by
    intro output
    unfold inflate
    refine (ExecM.keeps_lift _).bind fun compressed => ?_
    split_ifs
    · refine ExecM.Keeps.zoom (I := fun _ => True) (fun _ _ => trivial) (fun _ _ => trivial) ?_
      exact fun _ _ h _ => ⟨h.bytes, h.startPos, h.metadata⟩
    · exact ExecM.keeps_pure _
  unfold extractFileWithPacked
  refine (keeps_readPackedFile file).bind fun packed => (ExecM.keeps_lift _).bind fun output => ?_
  exact (hinflate output).bind fun output => ExecM.keeps_pure _

/-- Extracting keeps what the reader stands for. -/
theorem keeps_extractFile (file : CpkFile) :
    (extractFile E file).Keeps (ReadsFrom bytes start opened) :=
  (keeps_extractFileWithPacked file).bind fun _ => ExecM.keeps_pure _

/-- **What a call keeps.** -/
theorem keeps_after (call : ReaderCall) {r : CpkReader} (h : ReadsFrom bytes start opened r) :
    ReadsFrom bytes start opened (call.after shiftJis E r) := by
  cases call with
  | getFiles =>
    obtain ⟨pos, hr⟩ := reread_of_getFiles shiftJis r
    rw [ReaderCall.after, hr]
    refine ⟨h.bytes, h.startPos, fun hopened => ?_⟩
    have := h.metadata hopened
    simpa using fun _ => this
  | readPackedFile file => exact keeps_readPackedFile file r h
  | extractFile file => exact keeps_extractFile file r h

/-- **What calls keep**: the stream, the start of the archive, and that the metadata were read. -/
theorem keeps_afterCalls (calls : List ReaderCall) {r : CpkReader}
    (h : ReadsFrom bytes start opened r) :
    ReadsFrom bytes start opened (r.afterCalls shiftJis E calls) := by
  induction calls generalizing r with
  | nil => exact h
  | cons call calls ih => exact ih (keeps_after call h)

end CpkReader

end Calls

/-! ## Two readers -/

/-- A reader of an archive that stands behind other bytes, and one of the archive alone, whose
metadata were read if they are known to be. -/
structure Relocated (P A : List UInt8) (opened : Prop) (r r' : CpkReader) : Prop where
  start : r.startPos.toNat = P.length
  behind : r.ReadsFrom (P ++ A) r.startPos opened
  alone : r'.ReadsFrom A 0 opened

section Relocated

variable {P A : List UInt8} {opened : Prop} {r r' : CpkReader}

/-- A chunk behind other bytes is the chunk without them. -/
theorem chunkAt_append (P A : List UInt8) (pos : ℕ) :
    chunkAt (P ++ A) (P.length + pos) = chunkAt A pos := by
  have hwindow : ∀ off len, window (P ++ A) (P.length + pos + off) len = window A (pos + off) len :=
    fun off len => by
      rw [window_append_right (by omega)]
      congr 1
      omega
  have hsize : tableSize (P ++ A) (P.length + pos) = tableSize A pos :=
    congrArg Endian.leNat (hwindow 8 8)
  have hstored : storedTable (P ++ A) (P.length + pos) = storedTable A pos := by
    rw [storedTable, storedTable, hsize, hwindow]
  have hmarker : (P ++ A)[P.length + pos + 4]? = A[pos + 4]? := by
    rw [List.getElem?_append_right (by omega)]
    congr 1
    omega
  refine chunkAt_congr hsize ?_ (congrArg _ (hwindow 0 4)) ?_
  · rw [List.length_append]
    omega
  · rw [plainTable, plainTable, hstored, hmarker]

/-- Both readers look at the same chunks. A position that overflows lies behind the end. -/
theorem Relocated.chunk_eq (h : Relocated P A opened r r') (hlen : (P ++ A).length < 2 ^ 64) :
    r.chunk = r'.chunk := by
  funext offset
  have halone : r'.chunk offset = chunkAt A offset.toNat := by
    have hadd : r'.startPos.checkedAdd offset = some offset := by
      rw [UInt64.checkedAdd_eq_some, h.alone.startPos]
      exact (Nat.zero_add _).symm
    rw [CpkReader.chunk, hadd, h.alone.bytes]
    rfl
  rw [halone, CpkReader.chunk, h.behind.bytes]
  rcases hadd : r.startPos.checkedAdd offset with _ | position
  · have hover : ¬r.startPos.toNat + offset.toNat < 2 ^ 64 := fun hlt => by
      rw [UInt64.checkedAdd, if_pos hlt] at hadd
      cases hadd
    rw [h.start, List.length_append] at *
    refine (if_neg fun hchunk => ?_ : chunkAt A offset.toNat = none).symm
    have := hchunk.inside
    omega
  · rw [Option.bind_eq_bind, Option.bind_some, UInt64.checkedAdd_eq_some.mp hadd, h.start,
      chunkAt_append]

/-- The packed bytes of an entry are a window of the stream. -/
theorem readPackedFile_fst {file : CpkFile} {position : UInt64} (hm : r.metadata ≠ none)
    (hposition : r.startPos.checkedAdd file.absoluteOffset = some position) :
    (readPackedFile file r).1 =
      if file.fileSize.toNat ≤ r.stream.bytes.length - position.toNat then
        .ok (window r.stream.bytes position.toNat file.fileSize.toNat)
      else .err .unexpectedEof := by
  obtain ⟨r', -, hread⟩ := readPackedFile_moved hm hposition
  rw [hread]

/-- **Packed bytes** are the same from both readers. -/
theorem readPackedFile_relocated (h : Relocated P A True r r') {file : CpkFile}
    (hfits : P.length + file.absoluteOffset.toNat < 2 ^ 64) :
    (readPackedFile file r).1 = (readPackedFile file r').1 := by
  have hadd : r.startPos.checkedAdd file.absoluteOffset =
      some (r.startPos + file.absoluteOffset) := if_pos (by rw [h.start]; exact hfits)
  have hadd' : r'.startPos.checkedAdd file.absoluteOffset = some file.absoluteOffset := by
    rw [UInt64.checkedAdd_eq_some, h.alone.startPos]
    exact (Nat.zero_add _).symm
  have hposition := UInt64.checkedAdd_eq_some.mp hadd
  rw [readPackedFile_fst (h.behind.metadata trivial) hadd,
    readPackedFile_fst (h.alone.metadata trivial) hadd', h.behind.bytes, h.alone.bytes, hposition,
    h.start, List.length_append, window_append_right (Nat.le_add_right _ _),
    Nat.add_sub_add_left, Nat.add_sub_cancel_left]

/-- Calls keep two readers related. -/
theorem Relocated.afterCalls (shiftJis : List UInt8 → String) (E : FileDecryptor)
    (h : Relocated P A opened r r') (calls calls' : List ReaderCall) :
    Relocated P A opened (r.afterCalls shiftJis E calls) (r'.afterCalls shiftJis E calls') := by
  have hbehind : ReadsFrom _ _ opened (r.afterCalls shiftJis E calls) :=
    keeps_afterCalls calls h.behind
  have hstart := hbehind.startPos
  refine ⟨?_, ?_, keeps_afterCalls calls' h.alone⟩
  · rw [hstart, h.start]
  · rw [hstart]
    exact hbehind

/-- New readers are related. -/
theorem relocated_new {P A : List UInt8} (hlen : (P ++ A).length < 2 ^ 64)
    (slab heap slab' heap' : ℕ → UInt8) :
    Relocated P A False (CpkReader.new (P ++ A) (UInt64.ofNat P.length) slab heap)
      (CpkReader.new A 0 slab' heap') := by
  rw [List.length_append] at hlen
  have hstart : P.length < 2 ^ 64 := Nat.lt_of_le_of_lt (Nat.le_add_right _ _) hlen
  exact ⟨UInt64.toNat_ofNat_of_lt' hstart, ⟨rfl, rfl, False.elim⟩, ⟨rfl, rfl, False.elim⟩⟩

/-- When the entries are returned, both readers keep the same metadata and have read them. -/
theorem Relocated.getFiles {shiftJis : List UInt8 → String} (h : Relocated P A opened r r')
    (hlen : (P ++ A).length < 2 ^ 64) {files : List CpkFile}
    (hfiles : (CpkReader.getFiles shiftJis r).1 = .ok files) :
    (CpkReader.getFiles shiftJis r).2.metadata = (CpkReader.getFiles shiftJis r').2.metadata ∧
      Relocated P A True (CpkReader.getFiles shiftJis r).2 (CpkReader.getFiles shiftJis r').2 := by
  obtain ⟨m, hm, -⟩ := Option.bind_eq_some_iff.mp (getFiles_fst_eq_ok.mp hfiles)
  obtain ⟨pos, hr⟩ := reread_of_getFiles shiftJis r
  obtain ⟨pos', hr'⟩ := reread_of_getFiles shiftJis r'
  rw [hm, Option.some_or] at hr
  rw [← h.chunk_eq hlen, hm, Option.some_or] at hr'
  rw [hr, hr']
  exact ⟨rfl, h.start, ⟨h.behind.bytes, rfl, fun _ => Option.some_ne_none m⟩,
    ⟨h.alone.bytes, h.alone.startPos, fun _ => Option.some_ne_none m⟩⟩

end Relocated

/-- **Reading is position independent.** Of two readers, one of an archive behind other bytes and one
of the archive alone, whatever calls were made before, `get_files` returns the same entries and
keeps the same metadata; from then on, whatever calls are made, packed and extracted bytes are the
same for every entry whose position does not overflow.

**Proof sketch.** The readers of the two streams begin in related states, and every call keeps the
relation (`Relocated.afterCalls`). The chunk that is read at a relative position is then the same
(`Relocated.chunk_eq`), which gives the list of files, and the payloads follow from the positions
relative to the base. -/
theorem reading_relocated (shiftJis : List UInt8 → String) (E : FileDecryptor) (P A : List UInt8)
    (hlen : (P ++ A).length < 2 ^ 64) (slab heap slab' heap' : ℕ → UInt8)
    (before before' : List ReaderCall) :
    let r := (CpkReader.new (P ++ A) (UInt64.ofNat P.length) slab heap).afterCalls shiftJis E before
    let r' := (CpkReader.new A 0 slab' heap').afterCalls shiftJis E before'
    (∀ files, (getFiles shiftJis r).1 = .ok files ↔ (getFiles shiftJis r').1 = .ok files) ∧
    ∀ files, (getFiles shiftJis r).1 = .ok files →
      (getFiles shiftJis r).2.metadata = (getFiles shiftJis r').2.metadata ∧
      ∀ (after after' : List ReaderCall) (file : CpkFile),
        P.length + file.absoluteOffset.toNat < 2 ^ 64 →
        let s := (getFiles shiftJis r).2.afterCalls shiftJis E after
        let s' := (getFiles shiftJis r').2.afterCalls shiftJis E after'
        (readPackedFile file s).1 = (readPackedFile file s').1 ∧
          (extractFile E file s).1 = (extractFile E file s').1 := by
  intro r r'
  have hrelated : Relocated P A False r r' :=
    (relocated_new hlen slab heap slab' heap').afterCalls shiftJis E before before'
  have hchunk := hrelated.chunk_eq hlen
  refine ⟨fun files => by rw [getFiles_fst_eq_ok, getFiles_fst_eq_ok, hchunk], fun files hfiles => ?_⟩
  obtain ⟨hmetadata, hopened⟩ := hrelated.getFiles hlen hfiles
  refine ⟨hmetadata, fun after after' file hfits => ?_⟩
  have hread := readPackedFile_relocated (hopened.afterCalls shiftJis E after after') hfits
  exact ⟨hread, extractFile_congr hread fun _ => rfl⟩

/-- In an archive behind a byte the two entries are found, and the payload of the first is read. -/
theorem reading_relocated_sample :
    let r := (CpkReader.new ([7] ++ sampleChunks) (UInt64.ofNat [(7 : UInt8)].length) (fun _ => 0)
      fun _ => 0).afterCalls (fun _ => "") DummyDecryptor [.getFiles]
    (getFiles (fun _ => "") r).1 = .ok sampleChunkFiles ∧ ∃ file ∈ sampleChunkFiles,
      (readPackedFile file ((getFiles (fun _ => "") r).2.afterCalls (fun _ => "") DummyDecryptor
        [.extractFile file])).1 = .ok [1, 2, 3] := by
  intro r
  obtain ⟨hfiles, hread⟩ := reading_relocated (fun _ => "") DummyDecryptor [7] sampleChunks
    (by decide +kernel) (fun _ => 0) (fun _ => 0) (fun _ => 0) (fun _ => 0) [.getFiles] []
  have hfound : (getFiles (fun _ => "") r).1 = .ok sampleChunkFiles :=
    (hfiles _).mpr (getFiles_fst_eq_ok.mpr entriesOf_sampleReader)
  refine ⟨hfound, _, List.mem_cons_self, ?_⟩
  obtain ⟨-, hpacked⟩ := hread _ hfound
  have halone : (readPackedFile (CpkFile.new "" "a" 0 0x800 3 3 (some 5) "" none)
      (getFiles (fun _ => "") sampleReader).2).1 = .ok [1, 2, 3] := by
    decide +kernel
  rw [← halone]
  exact (hpacked [.extractFile _] [] _ (by decide +kernel)).1

end CriArchive
