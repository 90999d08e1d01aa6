import Mathlib.Data.List.Pairwise
import Mathlib.Data.Set.BooleanAlgebra
import Mathlib.Order.CompletePartialOrder
import CriArchive.Cpk.Chunks

set_option relaxedAutoImplicit false
set_option autoImplicit false

/-!
# Encrypted tables

`cpk/encrypt/table.rs`, and archives some of whose table chunks are encrypted: the XOR stream is its
own inverse, and the reader does not notice whether a chunk was stored in plaintext.

## Main definitions

* `TableDecryptor` — the public copy of the transform.
* `CpkReader.tablePositions`, `chunkRange` — the table chunks of an archive and their bytes.
* `Encrypts` — a stream some of whose chunks are replaced by encrypted ones.

## Main results

* `decryptUtfScalar_decryptUtfScalar` — the transform is its own inverse.
* `chunkAt_of_encrypts` — an encrypted chunk is read as the plaintext chunk.
* `getFiles_encrypted` — encrypting chunks does not change what `get_files` returns.
-/

namespace CriArchive

open ByteStream Endian CpkReader

/-! ## The transform -/

namespace TableDecryptor

/-- `TableDecryptor::ENCRYPTED_PREFIX`. -/
def encryptedPrefix : List UInt8 := [0x1f, 0x9e, 0xf3, 0xf5]

/-- `TableDecryptor::is_encrypted`. -/
def isEncrypted (bytes : List UInt8) : Bool := encryptedPrefix.isPrefixOf bytes

/-- The loop of `decrypt_utf_in_place`, from a given key on. -/
def decryptLoop (key : UInt8) : List UInt8 → List UInt8
  | [] => []
  | byte :: input => (byte ^^^ key) :: decryptLoop (key * 0x15) input

/-- `TableDecryptor::decrypt_utf_in_place`. -/
def decryptUtfInPlace (input : List UInt8) : List UInt8 := decryptLoop 0x5f input

end TableDecryptor

section Transform

/-- The cipher of tables keeps the length. -/
@[simp] theorem length_decryptUtfLoop (key : UInt8) (input : List UInt8) :
    (decryptUtfLoop key input).length = input.length := by
  induction input generalizing key with
  | nil => rfl
  | cons byte input ih => rw [decryptUtfLoop, List.length_cons, ih, List.length_cons]

/-- What follows a beginning does not change how the beginning is transformed. -/
theorem isPrefix_decryptUtfLoop (key : UInt8) (start rest : List UInt8) :
    decryptUtfLoop key start <+: decryptUtfLoop key (start ++ rest) := by
  induction start generalizing key with
  | nil => exact List.nil_prefix
  | cons byte start ih =>
    rw [List.cons_append, decryptUtfLoop, decryptUtfLoop, List.cons_prefix_cons]
    exact ⟨rfl, ih _⟩

/-- **The cipher of tables undoes itself.** -/
theorem decryptUtfLoop_decryptUtfLoop (key : UInt8) (input : List UInt8) :
    decryptUtfLoop key (decryptUtfLoop key input) = input := by
  induction input generalizing key with
  | nil => rfl
  | cons byte input ih =>
    rw [decryptUtfLoop, decryptUtfLoop, ih, UInt8.xor_assoc, UInt8.xor_self, UInt8.xor_zero]

/-- **The transform is its own inverse.** -/
theorem decryptUtfScalar_decryptUtfScalar (data : List UInt8) :
    decryptUtfScalar (decryptUtfScalar data) = data :=
  decryptUtfLoop_decryptUtfLoop 0x5f data

/-- The two copies of the transform agree. -/
theorem TableDecryptor.decryptUtfInPlace_eq (data : List UInt8) :
    decryptUtfInPlace data = decryptUtfScalar data := by
  have hloop : ∀ key, decryptLoop key data = decryptUtfLoop key data := by
    induction data with
    | nil => exact fun _ => rfl
    | cons byte data ih => exact fun key => congrArg (_ :: ·) (ih _)
  exact hloop 0x5f

/-- The start of a table is decrypted as the table is. -/
theorem isPrefix_decryptUtfScalar {start data : List UInt8} (h : start <+: data) :
    decryptUtfScalar start <+: decryptUtfScalar data := by
  obtain ⟨rest, rfl⟩ := h
  exact isPrefix_decryptUtfLoop 0x5f start rest

/-- **Encrypted tables are recognised** by the transform of the signature. -/
theorem TableDecryptor.isEncrypted_decryptUtfScalar (data : List UInt8) :
    isEncrypted (decryptUtfScalar data) = true ↔ utfSignature <+: data := by
  have hsignature : decryptUtfScalar utfSignature = encryptedPrefix := by decide +kernel
  have hdecrypted : decryptUtfScalar encryptedPrefix = utfSignature := by
    rw [← hsignature, decryptUtfScalar_decryptUtfScalar]
  rw [isEncrypted, List.isPrefixOf_iff_prefix]
  constructor
  · intro h
    have hback := isPrefix_decryptUtfScalar h
    rwa [hdecrypted, decryptUtfScalar_decryptUtfScalar] at hback
  · intro h
    rw [← hsignature]
    exact isPrefix_decryptUtfScalar h

end Transform

/-! ## Encrypted chunks -/

/-- The bytes of a stream that the chunk at a position occupies. -/
def chunkRange (bytes : List UInt8) (pos : ℕ) : Set ℕ :=
  {i | pos ≤ i ∧ i < pos + 16 + tableSize bytes pos ∧ i < bytes.length}

/-- A chunk in plaintext: it ends inside the stream, and its byte at +4 is not zero. -/
structure IsPlain (bytes : List UInt8) (pos : ℕ) : Prop where
  inside : pos + 16 + tableSize bytes pos ≤ bytes.length
  marker : bytes[pos + 4]? ≠ some 0

/-- The second stream is the first one with chunks at chosen positions replaced by chunks whose byte
at +4 is zero, and whose table is passed through the XOR stream. The bytes from +5 to +8 may be
different too. -/
structure Encrypts (bytes : List UInt8) (chosen : Set ℕ) (bytes' : List UInt8) : Prop where
  length : bytes'.length = bytes.length
  marker : ∀ p ∈ chosen, bytes'[p + 4]? = some 0
  table : ∀ p ∈ chosen,
    window bytes' (p + 16) (tableSize bytes p) = decryptUtfScalar (storedTable bytes p)
  rest : ∀ i, (∀ p ∈ chosen, ¬(p + 4 ≤ i ∧ i < p + 8) ∧
    ¬(p + 16 ≤ i ∧ i < p + 16 + tableSize bytes p)) → bytes'[i]? = bytes[i]?

/-- The stream with the chunk at a position encrypted. -/
def encryptAt (bytes : List UInt8) (pos : ℕ) : List UInt8 :=
  bytes.take (pos + 4) ++ (0 :: window bytes (pos + 5) 11 ++
    (decryptUtfScalar (storedTable bytes pos) ++ bytes.drop (pos + 16 + tableSize bytes pos)))

section Chunks

variable {bytes bytes' : List UInt8} {chosen : Set ℕ} {pos : ℕ}

/-- A window depends on the bytes in it. -/
theorem window_congr {off len : ℕ} (h : ∀ i, off ≤ i → i < off + len → bytes'[i]? = bytes[i]?) :
    window bytes' off len = window bytes off len := by
  apply List.ext_getElem?
  intro i
  by_cases hi : i < len
  · rw [window, window, List.getElem?_take_of_lt hi, List.getElem?_take_of_lt hi,
      List.getElem?_drop, List.getElem?_drop, h _ (by omega) (by omega)]
  · rw [List.getElem?_eq_none, List.getElem?_eq_none]
    all_goals exact (List.length_take_le ..).trans (Nat.le_of_not_lt hi)

/-- The chunk at any one position can be encrypted.

**Proof sketch.** The encrypted bytes are the old ones up to the marker, a zero, the rest of the
chunk header, the transformed table and the old bytes behind it; each position is looked up in the
part it falls in. -/
theorem encrypts_encryptAt (h : IsPlain bytes pos) :
    Encrypts bytes {pos} (encryptAt bytes pos) := by
  obtain ⟨hinside, -⟩ := h
  have hstart : (bytes.take (pos + 4)).length = pos + 4 := List.length_take_of_le (by omega)
  have hheader : (0 :: window bytes (pos + 5) 11).length = 12 := by
    rw [List.length_cons, length_window (by omega)]
  have htable : (decryptUtfScalar (storedTable bytes pos)).length = tableSize bytes pos := by
    rw [decryptUtfScalar, length_decryptUtfLoop, storedTable, length_window hinside]
  have hat : ∀ i, pos + 4 ≤ i → (encryptAt bytes pos)[i]? = (0 :: window bytes (pos + 5) 11 ++
      (decryptUtfScalar (storedTable bytes pos) ++
        bytes.drop (pos + 16 + tableSize bytes pos)))[i - (pos + 4)]? := fun i hi => by
    rw [encryptAt, List.getElem?_append_right (by omega), hstart]
  refine ⟨?_, ?_, ?_, fun i hi => ?_⟩
  · simp only [encryptAt, List.length_append, hstart, hheader, htable, List.length_drop]
    omega
  · rintro p rfl
    rw [hat _ le_rfl, Nat.sub_self]
    rfl
  · rintro p rfl
    have hdrop : (encryptAt bytes p).drop (p + 16) = decryptUtfScalar (storedTable bytes p) ++
        bytes.drop (p + 16 + tableSize bytes p) := by
      rw [encryptAt, ← List.append_assoc, List.drop_left' (by simp only [List.length_append]; omega)]
    rw [window, hdrop, ← htable, List.take_left]
  · obtain ⟨hmarker, hbody⟩ := hi pos rfl
    by_cases hlow : i < pos + 4
    · rw [encryptAt, List.getElem?_append_left (by omega), List.getElem?_take_of_lt hlow]
    · rw [hat i (by omega)]
      by_cases hhead : i < pos + 16
      · obtain ⟨j, rfl⟩ : ∃ j, i = pos + 5 + j := ⟨i - (pos + 5), by omega⟩
        rw [List.getElem?_append_left (by omega), show pos + 5 + j - (pos + 4) = j + 1 by omega,
          List.getElem?_cons_succ, window, List.getElem?_take_of_lt (by omega), List.getElem?_drop]
      · rw [List.getElem?_append_right (by omega), List.getElem?_append_right (by omega),
          List.getElem?_drop]
        congr 1
        omega

/-- Another chunk that is apart from those chosen can be encrypted after them.

**Proof sketch.** As the ranges of the chunks are disjoint, the earlier changes touch no byte of the
new chunk, which is still in plaintext, and the new change touches no byte of the earlier ones. -/
theorem Encrypts.insert (h : Encrypts bytes chosen bytes') (hplain : IsPlain bytes pos)
    (hinside : ∀ p ∈ chosen, IsPlain bytes p)
    (hapart : ∀ p ∈ chosen, Disjoint (chunkRange bytes p) (chunkRange bytes pos)) :
    Encrypts bytes (Insert.insert pos chosen) (encryptAt bytes' pos) := by
  -- the chunks chosen before do not change it
  have hsame : ∀ i, pos ≤ i → i < pos + 16 + tableSize bytes pos → bytes'[i]? = bytes[i]? := by
    intro i hlow hhigh
    have hlen : i < bytes.length := hhigh.trans_le hplain.inside
    refine h.rest i fun p hp => ?_
    have hnot : i ∉ chunkRange bytes p := fun hi =>
      Set.disjoint_left.mp (hapart p hp) hi ⟨hlow, hhigh, hlen⟩
    have hout : ¬(p ≤ i ∧ i < p + 16 + tableSize bytes p) := fun hi => hnot ⟨hi.1, hi.2, hlen⟩
    omega
  have hsize : tableSize bytes' pos = tableSize bytes pos :=
    congrArg leNat (window_congr fun i hlow hhigh => hsame i (by omega) (by omega))
  have hstored : storedTable bytes' pos = storedTable bytes pos := by
    rw [storedTable, hsize]
    exact window_congr fun i hlow hhigh => hsame i (by omega) hhigh
  have hplain' : IsPlain bytes' pos := by
    refine ⟨?_, ?_⟩
    · rw [hsize, h.length]
      exact hplain.inside
    · rw [hsame _ (by omega) (by omega)]
      exact hplain.marker
  have hnew := encrypts_encryptAt hplain'
  -- and it does not change them
  have hkept : ∀ p ∈ chosen, ∀ i, p ≤ i → i < p + 16 + tableSize bytes p →
      (encryptAt bytes' pos)[i]? = bytes'[i]? := by
    intro p hp i hlow hhigh
    have hlen : i < bytes.length := hhigh.trans_le (hinside p hp).inside
    refine hnew.rest i ?_
    rintro q rfl
    have hnot : i ∉ chunkRange bytes q := fun hi =>
      Set.disjoint_left.mp (hapart p hp) ⟨hlow, hhigh, hlen⟩ hi
    have hout : ¬(q ≤ i ∧ i < q + 16 + tableSize bytes q) := fun hi => hnot ⟨hi.1, hi.2, hlen⟩
    rw [hsize]
    omega
  refine ⟨hnew.length.trans h.length, ?_, ?_, fun i hi => ?_⟩
  · rintro p (rfl | hp)
    · exact hnew.marker p rfl
    · rw [hkept p hp _ (by omega) (by omega)]
      exact h.marker p hp
  · rintro p (rfl | hp)
    · have htable := hnew.table p rfl
      rwa [hsize, hstored] at htable
    · rw [window_congr fun i hlow hhigh => hkept p hp i (by omega) hhigh]
      exact h.table p hp
  · refine (hnew.rest i ?_).trans (h.rest i fun p hp => hi p (.inr hp))
    rintro q rfl
    rw [hsize]
    exact hi q (.inl rfl)

/-- **An encrypted chunk is read as the plaintext chunk**, and other chunks are read as before, when
no chosen chunk overlaps another.

**Proof sketch.** Other chosen chunks change no byte of this one. If it is not chosen itself, it is
as before. If it is, its marker is zero, so that its table is decrypted when it is read, which
undoes the transform. -/
theorem chunkAt_of_encrypts (h : Encrypts bytes chosen bytes')
    (hplain : ∀ p ∈ chosen, IsPlain bytes p)
    (hdisjoint : ∀ p ∈ chosen, p ≠ pos → Disjoint (chunkRange bytes p) (chunkRange bytes pos)) :
    chunkAt bytes' pos = chunkAt bytes pos := by
  -- no other chosen chunk changes a byte of this one
  have hother : ∀ i, pos ≤ i → i < pos + 16 + tableSize bytes pos →
      (pos ∈ chosen → ¬(pos + 4 ≤ i ∧ i < pos + 8) ∧ i < pos + 16) → bytes'[i]? = bytes[i]? := by
    intro i hlow hhigh hself
    by_cases hlen : i < bytes.length
    · refine h.rest i fun p hp => ?_
      by_cases heq : p = pos
      · subst heq
        have := hself hp
        omega
      · have hnot : i ∉ chunkRange bytes p := fun hi =>
          Set.disjoint_left.mp (hdisjoint p hp heq) hi ⟨hlow, hhigh, hlen⟩
        have hout : ¬(p ≤ i ∧ i < p + 16 + tableSize bytes p) := fun hi =>
          hnot ⟨hi.1, hi.2, hlen⟩
        omega
    · rw [List.getElem?_eq_none (by rw [h.length]; omega), List.getElem?_eq_none (by omega)]
  have hsize : tableSize bytes' pos = tableSize bytes pos :=
    congrArg leNat (window_congr fun i hlow hhigh =>
      hother i (by omega) (by omega) fun _ => by omega)
  refine chunkAt_congr hsize (by rw [h.length]) (congrArg _ (window_congr fun i hlow hhigh =>
    hother i (by omega) (by omega) fun _ => by omega)) ?_
  by_cases hchosen : pos ∈ chosen
  · have hstored : storedTable bytes' pos = decryptUtfScalar (storedTable bytes pos) := by
      rw [storedTable, hsize, h.table pos hchosen]
    rw [plainTable, plainTable, if_pos (h.marker pos hchosen),
      if_neg (hplain pos hchosen).marker, hstored, decryptUtfScalar_decryptUtfScalar]
  · have hstored : storedTable bytes' pos = storedTable bytes pos := by
      rw [storedTable, hsize]
      exact window_congr fun i hlow hhigh =>
        hother i (by omega) hhigh fun hmem => absurd hmem hchosen
    rw [plainTable, plainTable, hstored,
      hother (pos + 4) (by omega) (by omega) fun hmem => absurd hmem hchosen]

end Chunks

/-! ## Encrypted archives -/

section Archives

variable (shiftJis : List UInt8 → String) (r : CpkReader)

/-- The positions of the table chunks of an archive: the archive header, and the indexes that its
metadata name. -/
def CpkReader.tablePositions : List ℕ :=
  r.startPos.toNat :: match metadataOf shiftJis r.chunk with
    | none => []
    | some m => ([m.tocOffset, m.itocOffset].filter (· ≠ 0)).filterMap fun offset =>
      (r.startPos.checkedAdd offset).map UInt64.toNat

/-- The reader on other bytes. -/
def CpkReader.onBytes (bytes : List UInt8) : CpkReader :=
  { r with stream := ⟨bytes, r.stream.pos⟩ }

/-- **Table encryption is transparent.** When the table chunks of an archive occupy disjoint ranges,
encrypting some of those in plaintext changes neither the entries that are returned nor the metadata
that are kept. The transform is its own inverse, its two copies agree, and tables with a signature
are those recognised as encrypted after it.

**Proof sketch.** What is read depends on the chunks at the offsets of the tables only
(`entriesOf_congr`), and each of these chunks reads as before (`chunkAt_of_encrypts`). -/
theorem getFiles_encrypted (chosen : Set ℕ) (bytes' : List UInt8)
    (hdisjoint : (r.tablePositions shiftJis).Pairwise fun p q =>
      Disjoint (chunkRange r.stream.bytes p) (chunkRange r.stream.bytes q))
    (hchosen : ∀ p ∈ chosen, p ∈ r.tablePositions shiftJis ∧ IsPlain r.stream.bytes p)
    (h : Encrypts r.stream.bytes chosen bytes') :
    (∀ files, (getFiles shiftJis (r.onBytes bytes')).1 = .ok files ↔
      (getFiles shiftJis r).1 = .ok files) ∧
    (getFiles shiftJis (r.onBytes bytes')).2.metadata = (getFiles shiftJis r).2.metadata ∧
    ∀ data, decryptUtfScalar (decryptUtfScalar data) = data ∧
      TableDecryptor.decryptUtfInPlace data = decryptUtfScalar data ∧
      (TableDecryptor.isEncrypted (decryptUtfScalar data) = true ↔ utfSignature <+: data) := by
  have hchunk : ∀ p ∈ r.tablePositions shiftJis, chunkAt bytes' p = chunkAt r.stream.bytes p := by
    intro p hp
    refine chunkAt_of_encrypts h (fun q hq => (hchosen q hq).2) fun q hq hne => ?_
    have : Std.Symm fun p q =>
        Disjoint (chunkRange r.stream.bytes p) (chunkRange r.stream.bytes q) := ⟨fun _ _ h => h.symm⟩
    exact hdisjoint.forall (hchosen q hq).1 hp hne
  have hoffset : ∀ offset, (∀ position, r.startPos.checkedAdd offset = some position →
      position.toNat ∈ r.tablePositions shiftJis) →
        r.chunk offset = (r.onBytes bytes').chunk offset := fun offset hmem =>
    Option.bind_congr fun position hposition => (hchunk _ (hmem position hposition)).symm
  have h₀ : r.chunk 0 = (r.onBytes bytes').chunk 0 := hoffset 0 fun position hposition => by
    obtain rfl := Option.some.inj ((checkedAdd_zero r.startPos).symm.trans hposition)
    exact List.mem_cons_self
  have hentries : entriesOf shiftJis r.chunk = entriesOf shiftJis (r.onBytes bytes').chunk := by
    refine entriesOf_congr h₀ fun m hm => ?_
    have hmem : ∀ offset ∈ [m.tocOffset, m.itocOffset], offset ≠ 0 →
        r.chunk offset = (r.onBytes bytes').chunk offset := by
      intro offset hin hne
      refine hoffset offset fun position hposition => List.mem_cons_of_mem _ ?_
      rw [hm]
      refine List.mem_filterMap.mpr ⟨offset, List.mem_filter.mpr ⟨hin, by simpa using hne⟩, ?_⟩
      rw [hposition, Option.map_some]
    exact ⟨hmem _ (by simp), hmem _ (by simp)⟩
  refine ⟨fun files => ?_, ?_, fun data => ⟨decryptUtfScalar_decryptUtfScalar data,
    TableDecryptor.decryptUtfInPlace_eq data, TableDecryptor.isEncrypted_decryptUtfScalar data⟩⟩
  · rw [getFiles_fst_eq_ok, getFiles_fst_eq_ok, hentries]
  · obtain ⟨_, hr⟩ := reread_of_getFiles shiftJis r
    obtain ⟨_, hr'⟩ := reread_of_getFiles shiftJis (r.onBytes bytes')
    rw [hr, hr', metadataOf_congr h₀]
    rfl

end Archives

/-- Header and table of contents of an archive with two entries are encrypted. -/
theorem getFiles_encrypted_sample : ∃ bytes', Encrypts sampleChunks {0, 0x48} bytes' ∧
    (getFiles (fun _ => "") (sampleReader.onBytes bytes')).1 = .ok sampleChunkFiles ∧
    (getFiles (fun _ => "") (sampleReader.onBytes bytes')).2.metadata =
      (getFiles (fun _ => "") sampleReader).2.metadata := by
  have hpositions : sampleReader.tablePositions (fun _ => "") = [0, 0x48] := by decide +kernel
  have hheader : IsPlain sampleChunks 0 := ⟨by decide +kernel, by decide +kernel⟩
  have htoc : IsPlain sampleChunks 0x48 := ⟨by decide +kernel, by decide +kernel⟩
  have hapart : Disjoint (chunkRange sampleChunks 0) (chunkRange sampleChunks 0x48) := by
    have hsize : tableSize sampleChunks 0 = 56 := by decide +kernel
    refine Set.disjoint_left.mpr fun i hi hi' => ?_
    have hend : i < 0 + 16 + tableSize sampleChunks 0 := hi.2.1
    have hstart : 0x48 ≤ i := hi'.1
    omega
  have hencrypts : Encrypts sampleChunks {0, 0x48}
      (encryptAt (encryptAt sampleChunks 0x48) 0) :=
    (encrypts_encryptAt htoc).insert hheader (fun p hp => hp ▸ htoc) fun p hp => hp ▸ hapart.symm
  obtain ⟨hfiles, hmetadata, -⟩ :=
    getFiles_encrypted (fun _ => "") sampleReader {0, 0x48} _ (by
      rw [hpositions, List.pairwise_pair]
      exact hapart) (by
      rintro p (rfl | rfl)
      · exact ⟨hpositions ▸ List.mem_cons_self, hheader⟩
      · exact ⟨hpositions ▸ List.mem_cons_of_mem _ (List.mem_singleton_self _), htoc⟩) hencrypts
  refine ⟨_, hencrypts, (hfiles _).mpr ?_, hmetadata⟩
  exact getFiles_fst_eq_ok.mpr entriesOf_sampleReader

end CriArchive
