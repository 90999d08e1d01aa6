import CriArchive.Cpk.File
import CriArchive.Lib.XorWindow

set_option relaxedAutoImplicit false
set_option autoImplicit false

/-!
# Decryption of entries

`cpk/encrypt/data.rs` and `cpk/encrypt/p5r.rs`: the reader is generic in a decryptor; the crate
has a dummy and the transform of Persona 5 Royal, which on x86-64 is done in blocks of 32, 16 or
8 bytes, as the build's target features select.

## Main definitions

* `FileDecryptor` — the trait; `DummyDecryptor`, `P5RDecryptor` — its implementations.
* `P5RPath` — the block width a build selects.
* `P5R.transform` — the byte-wise transform.

## Main results

* `P5R.decryptInPlace_eq` — on every path the transform is the byte-wise one and does not fault.
* `P5R.transform_transform` — the transform is its own inverse.
* `P5RDecryptor.decryptInPlace_bytes` — the decryptor byte by byte, on every path.
-/

namespace CriArchive

/-- `trait FileDecryptor`. -/
structure FileDecryptor where
  /-- Whether an entry is encrypted, by its record and its bytes. -/
  isEncrypted : CpkFile → List UInt8 → Bool
  /-- Decrypt bytes by overwriting them. -/
  decryptInPlace : List UInt8 → Exec Error (List UInt8)

/-- `DummyDecryptor`: nothing is encrypted. -/
def DummyDecryptor : FileDecryptor where
  isEncrypted _ _ := false
  decryptInPlace input := pure input

/-- The implementation of the transform that a build for x86-64 selects. -/
inductive P5RPath where
  | avx2
  | sse3
  | u64
  deriving DecidableEq, Repr

/-- The bytes of a block. -/
def P5RPath.blockBytes : P5RPath → ℕ
  | avx2 => 32
  | sse3 => 16
  | u64 => 8

namespace P5R

/-- The user string that marks encrypted entries. -/
def encryptedUserString : String := "CRI_CFATTR:ENCRYPT"

/-- The offset of the encrypted bytes. -/
def encryptedDataOffset : ℕ := 0x20

/-- The number of bytes that are encrypted. -/
def numBytesToDecrypt : ℕ := 0x400

/-- `decrypt_in_place_avx2`, `decrypt_in_place_sse3` and `decrypt_in_place_u64`. -/
def decryptBlocks (path : P5RPath) (input : List UInt8) : Exec Error (List UInt8) :=
  Xor.blocks path.blockBytes (numBytesToDecrypt / path.blockBytes) 0
    (numBytesToDecrypt / path.blockBytes) input

/-- `P5RDecryptor::decrypt_in_place`. -/
def decryptInPlace (path : P5RPath) (input : List UInt8) : Exec Error (List UInt8) :=
  if input.length < 0x820 then pure input
  else do
    let tail ← Exec.slice input encryptedDataOffset input.length
    let tail ← decryptBlocks path tail
    pure (input.take encryptedDataOffset ++ tail)

/-- The byte-wise transform: data of at least `0x820` bytes has the bytes from `0x20` to `0x420`
XORed with the bytes `0x400` later. -/
def transform (data : List UInt8) : List UInt8 :=
  if data.length < 0x820 then data
  else data.take 0x20 ++ Xor.prefixWith 0x400 0x400 (data.drop 0x20)

/-- **The transform is the byte-wise one** on every path, and does not fault. -/
theorem decryptInPlace_eq (path : P5RPath) (data : List UInt8) :
    decryptInPlace path data = .ok (transform data) := by
  unfold decryptInPlace transform
  split_ifs with hlen
  · rfl
  · have hcount : numBytesToDecrypt / path.blockBytes * path.blockBytes = 0x400 := by
      cases path <;> rfl
    have hfits : 2 * (numBytesToDecrypt / path.blockBytes) * path.blockBytes ≤
        (data.drop 0x20).length := by
      rw [Nat.mul_assoc, hcount, List.length_drop]
      omega
    have htail : ((data.drop 0x20).take (data.length - 0x20)) = data.drop 0x20 := by
      rw [← List.length_drop, List.take_length]
    rw [encryptedDataOffset, Exec.slice_eq (by omega) (Nat.le_refl _), Exec.ok_bind, htail, decryptBlocks,
      Xor.blocks_eq hfits, hcount]
    rfl

/-- The transform keeps the length. -/
@[simp] theorem length_transform (data : List UInt8) : (transform data).length = data.length := by
  unfold transform
  split_ifs with hlen
  · rfl
  · simp
    omega

/-- The transform of data that is long enough. -/
theorem transform_of_le {data : List UInt8} (h : 0x820 ≤ data.length) :
    transform data = data.take 0x20 ++ Xor.prefixWith 0x400 0x400 (data.drop 0x20) :=
  if_neg (Nat.not_lt.mpr h)

/-- **Involution.** Transforming twice restores the data. -/
theorem transform_transform (data : List UInt8) : transform (transform data) = data := by
  by_cases hlen : data.length < 0x820
  · simp [transform, hlen]
  · have hle : 0x820 ≤ data.length := Nat.le_of_not_lt hlen
    have htake : (data.take 0x20).length = 0x20 := by
      simp
      omega
    rw [transform_of_le (by rwa [length_transform]), transform_of_le hle, List.take_left' htake,
      List.drop_left' htake, Xor.prefixWith_prefixWith (Nat.le_refl _), List.take_append_drop]

/-- The bytes of transformed data that is long enough. -/
theorem getElem?_transform {data : List UInt8} (h : 0x820 ≤ data.length) (i : ℕ) :
    (transform data)[i]? = if 0x20 ≤ i ∧ i < 0x420 then
      data[i]?.map (· ^^^ data.getD (i + 0x400) 0) else data[i]? := by
  have htake : (data.take 0x20).length = 0x20 := by
    rw [List.length_take]
    omega
  rw [transform_of_le h]
  by_cases hlow : i < 0x20
  · rw [List.getElem?_append_left (by omega), List.getElem?_take_of_lt hlow,
      if_neg (by omega)]
  · rw [List.getElem?_append_right (by omega), htake, Xor.getElem?_prefixWith, List.getElem?_drop,
      List.getElem?_drop, show 0x20 + (i - 0x20) = i by omega,
      show 0x20 + (i - 0x20 + 0x400) = i + 0x400 by omega]
    by_cases hhigh : i < 0x420
    · rw [if_pos (by omega)]
      simp only [if_pos (show i - 0x20 < 0x400 by omega), List.getD_eq_getElem?_getD]
    · rw [if_neg (by omega)]
      simp only [if_neg (show ¬i - 0x20 < 0x400 by omega), Option.map_id']

end P5R

/-- `P5RDecryptor`: entries are marked by their user string. -/
def P5RDecryptor (path : P5RPath) : FileDecryptor where
  isEncrypted file _ := file.userString == P5R.encryptedUserString
  decryptInPlace := P5R.decryptInPlace path

/-- **What the decryptor does**, on every path of a build for x86-64: it accesses no byte past the
end, leaves short data alone, and XORs the bytes from `0x20` to `0x420` of other data with the bytes
`0x400` later. Any path undoes what any path does.

**Proof sketch.** Each path of the decryptor computes the one transform (`P5R.decryptInPlace_eq`),
the bytes of which are known by position, and the transform undoes itself because the key bytes lie
outside the window. -/
theorem P5RDecryptor.decryptInPlace_bytes (path path' : P5RPath) (data : List UInt8) :
    ∃ out, (P5RDecryptor path).decryptInPlace data = .ok out ∧ out.length = data.length ∧
      (data.length < 0x820 → out = data) ∧
      (0x820 ≤ data.length → ∀ i, out[i]? = if 0x20 ≤ i ∧ i < 0x420 then
        data[i]?.map (· ^^^ data.getD (i + 0x400) 0) else data[i]?) ∧
      (P5RDecryptor path').decryptInPlace out = .ok data := by
  refine ⟨P5R.transform data, P5R.decryptInPlace_eq path data, P5R.length_transform data,
    fun hlen => if_pos hlen, P5R.getElem?_transform, ?_⟩
  change P5R.decryptInPlace path' _ = _
  rw [P5R.decryptInPlace_eq, P5R.transform_transform]

end CriArchive
