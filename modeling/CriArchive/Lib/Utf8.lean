import Mathlib.Data.List.Basic
import Mathlib.Data.List.TakeWhile
import Mathlib.Tactic.Common

set_option relaxedAutoImplicit false
set_option autoImplicit false

/-!
# UTF-8 text as byte lists, and NUL-terminated text

The UTF-8 bytes of a string as a list, decoding, and the one fact about UTF-8 that terminated
strings rest on: the byte `0` occurs in an encoding only as the encoding of `NUL`.

## Main definitions

* `Utf8.encode`, `Utf8.decode` — encoding of characters, and decoding that fails on malformed
  bytes; `String.asBytes` — the bytes of a string.
* `String.nulPrefix` — a string up to its first `NUL`; `String.NulFree`.

## Main results

* `Utf8.decode_encode`, `Utf8.decode_eq_some` — decoding inverts encoding, and only that.
* `Utf8.zero_mem_encodeChar` — only `NUL` has a zero byte.
* `Utf8.drop_encode_of_zero` — after a zero byte an encoding continues with an encoding.
* `Utf8.takeWhile_encode` — the bytes before the first zero encode the text before the first
  `NUL`.
-/

namespace Utf8

/-- The UTF-8 bytes of a list of characters. -/
def encode (cs : List Char) : List UInt8 := cs.flatMap String.utf8EncodeChar

/-- The string a list of bytes encodes, if it is valid UTF-8. -/
def decode (bs : List UInt8) : Option String := String.fromUTF8? bs.toByteArray

/-- No characters take no bytes. -/
@[simp] theorem encode_nil : encode [] = [] := rfl

/-- The bytes of the first character come first. -/
@[simp] theorem encode_cons (c : Char) (cs : List Char) :
    encode (c :: cs) = String.utf8EncodeChar c ++ encode cs := rfl

/-- A concatenation is encoded part by part. -/
@[simp] theorem encode_append (cs ds : List Char) : encode (cs ++ ds) = encode cs ++ encode ds :=
  List.flatMap_append

/-- Decoding inverts encoding. -/
theorem decode_encode (cs : List Char) : decode (encode cs) = some (String.ofList cs) := by
  have hv : (encode cs).toByteArray.IsValidUTF8 := ⟨cs, rfl⟩
  unfold decode String.fromUTF8?
  rw [dif_pos hv]
  rfl

end Utf8

/-- The UTF-8 bytes of a string. -/
def String.asBytes (s : String) : List UInt8 := Utf8.encode s.toList

/-- A string without the character `NUL`. -/
def String.NulFree (s : String) : Prop := '\x00' ∉ s.toList

/-- Whether a string holds a NUL can be evaluated. -/
instance (s : String) : Decidable s.NulFree := inferInstanceAs (Decidable ('\x00' ∉ s.toList))

/-- The part of a string before its first `NUL`. -/
def String.nulPrefix (s : String) : String := String.ofList (s.toList.takeWhile (· ≠ '\x00'))

/-- A string without `NUL` is its own prefix. -/
theorem String.nulPrefix_of_nulFree {s : String} (h : s.NulFree) : s.nulPrefix = s := by
  have hall : ∀ c ∈ s.toList, decide (c ≠ '\x00') = true := by
    intro c hc
    simp only [ne_eq, decide_not, Bool.not_eq_eq_eq_not, Bool.not_true, decide_eq_false_iff_not]
    rintro rfl
    exact h hc
  rw [nulPrefix, List.takeWhile_eq_self_iff.mpr hall, String.ofList_toList]

/-- The empty string has no prefix but itself. -/
@[simp] theorem String.nulPrefix_empty : "".nulPrefix = "" := rfl

/-- The bytes of a string are its characters, encoded. -/
@[simp] theorem String.asBytes_ofList (cs : List Char) :
    (String.ofList cs).asBytes = Utf8.encode cs := by
  rw [asBytes, String.toList_ofList]

namespace Utf8

/-- What decodes to a string are that string's bytes. -/
theorem decode_eq_some {bs : List UInt8} {s : String} (h : decode bs = some s) :
    s.asBytes = bs := by
  unfold decode String.fromUTF8? at h
  split_ifs at h with hv
  obtain ⟨cs, hcs⟩ := hv
  have hbs : bs = encode cs := by
    have := congrArg (fun b : ByteArray => b.data.toList) hcs
    simpa [List.utf8Encode, encode] using this
  have hd : decode bs = some (String.ofList cs) := hbs ▸ decode_encode cs
  unfold decode String.fromUTF8? at hd
  rw [dif_pos ⟨cs, hcs⟩] at hd
  have hs : s = String.ofList cs := Option.some.inj (h.symm.trans hd)
  rw [hs, hbs, String.asBytes_ofList]

/-- A text of ASCII bytes is decoded. -/
theorem exists_of_ascii {bs : List UInt8} (h : ∀ b ∈ bs, b.toNat < 0x80) :
    ∃ s, decode bs = some s ∧ s.asBytes = bs := by
  have hchar : ∀ n < 0x80, String.utf8EncodeChar (Char.ofNat n) = [UInt8.ofNat n] := by decide
  have hencode : encode (bs.map fun b => Char.ofNat b.toNat) = bs := by
    induction bs with
    | nil => rfl
    | cons b bs ih =>
      rw [List.map_cons, encode_cons, hchar _ (h b List.mem_cons_self), UInt8.ofNat_toNat,
        ih fun c hc => h c (List.mem_cons_of_mem _ hc)]
      rfl
  refine ⟨String.ofList (bs.map fun b => Char.ofNat b.toNat), ?_, ?_⟩
  · rw [← decode_encode, hencode]
  · rw [String.asBytes_ofList, hencode]

/-- Every character has at least one byte. -/
theorem length_encodeChar_pos (c : Char) : 0 < (String.utf8EncodeChar c).length := by
  simp [Char.utf8Size_pos]

/-- `NUL` is the byte zero. -/
@[simp] theorem encodeChar_nul : String.utf8EncodeChar '\x00' = [0] := by decide

/-- A byte of the form `n % k + 0x80` with a small remainder is not zero. -/
private theorem ofNat_add_ne_zero {n m : ℕ} (h₁ : 128 ≤ m) (h₂ : n + m < 256) :
    UInt8.ofNat (n + m) ≠ 0 := by
  intro h
  have := congrArg UInt8.toNat h
  rw [UInt8.toNat_ofNat', Nat.mod_eq_of_lt (by omega)] at this
  simp only [UInt8.toNat_zero] at this
  omega

/-- The byte zero occurs only in the encoding of `NUL`: the bytes of a longer encoding all have
their top bit set, and a one-byte encoding is the code point.

**Proof sketch.** By cases on the length of the encoding. A single byte is the code point, which is
zero only for `NUL`; each byte of a longer encoding has a number of at least `0x80` added. -/
theorem zero_mem_encodeChar {c : Char} : 0 ∈ String.utf8EncodeChar c ↔ c = '\x00' := by
  constructor
  · intro h
    fun_cases String.utf8EncodeChar c with
    | case1 v hv =>
      rw [String.utf8EncodeChar, if_pos hv, List.mem_singleton] at h
      have h0 := congrArg UInt8.toNat h
      simp only [UInt8.toNat_zero, UInt8.toNat_ofNat'] at h0
      rw [Nat.mod_eq_of_lt (by omega)] at h0
      apply Char.ext
      exact UInt32.toNat_inj.mp h0.symm
    | case2 v hv hv' =>
      rw [String.utf8EncodeChar, if_neg hv, if_pos hv'] at h
      simp only [List.mem_cons, List.not_mem_nil, or_false] at h
      rcases h with h | h <;> exact absurd h.symm (ofNat_add_ne_zero (by omega) (by omega))
    | case3 v hv hv' hv'' =>
      rw [String.utf8EncodeChar, if_neg hv, if_neg hv', if_pos hv''] at h
      simp only [List.mem_cons, List.not_mem_nil, or_false] at h
      rcases h with h | h | h <;> exact absurd h.symm (ofNat_add_ne_zero (by omega) (by omega))
    | case4 v hv hv' hv'' =>
      rw [String.utf8EncodeChar, if_neg hv, if_neg hv', if_neg hv''] at h
      simp only [List.mem_cons, List.not_mem_nil, or_false] at h
      rcases h with h | h | h | h <;>
        exact absurd h.symm (ofNat_add_ne_zero (by omega) (by omega))
  · rintro rfl
    simp

/-- A zero byte in an encoding comes from a `NUL`. -/
theorem zero_mem_encode {cs : List Char} : 0 ∈ encode cs ↔ '\x00' ∈ cs := by
  simp only [encode, List.mem_flatMap, zero_mem_encodeChar, exists_eq_right]

/-- **Resynchronisation.** After a zero byte, an encoding continues with the encoding of a
suffix of the text: the zero byte was a whole character. -/
theorem drop_encode_of_zero : ∀ (cs : List Char) (k : ℕ), (encode cs)[k]? = some 0 →
    ∃ ds es, cs = ds ++ es ∧ (encode ds).length = k + 1
  | [], k, h => by simp at h
  | c :: cs, k, h => by
    have hpos := length_encodeChar_pos c
    rw [encode_cons] at h
    by_cases hk : k < (String.utf8EncodeChar c).length
    · rw [List.getElem?_append_left hk] at h
      have hc : c = '\x00' := zero_mem_encodeChar.mp (List.mem_of_getElem? h)
      subst hc
      simp only [encodeChar_nul, List.length_singleton] at hk
      exact ⟨['\x00'], cs, rfl, by simp; omega⟩
    · rw [List.getElem?_append_right (by omega)] at h
      obtain ⟨ds, es, rfl, hlen⟩ := drop_encode_of_zero cs _ h
      exact ⟨c :: ds, es, rfl, by rw [encode_cons, List.length_append, hlen]; omega⟩

/-- The bytes before the first zero encode the text before the first `NUL`. -/
theorem takeWhile_encode (cs : List Char) :
    (encode cs).takeWhile (· ≠ 0) = encode (cs.takeWhile (· ≠ '\x00')) := by
  induction cs with
  | nil => rfl
  | cons c cs ih =>
    by_cases hc : c = '\x00'
    · subst hc
      simp
    · have hall : ∀ b ∈ String.utf8EncodeChar c, decide (b ≠ 0) = true := by
        intro b hb
        rw [decide_eq_true_eq]
        rintro rfl
        exact hc (zero_mem_encodeChar.mp hb)
      rw [encode_cons, List.takeWhile_append_of_pos hall, List.takeWhile_cons_of_pos (by simpa using hc),
        encode_cons, ih]

end Utf8

/-- A string has no `NUL` iff its bytes have no zero. -/
theorem String.nulFree_iff {s : String} : s.NulFree ↔ 0 ∉ s.asBytes :=
  Utf8.zero_mem_encode.not.symm
