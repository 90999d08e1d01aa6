import CriArchive.Cpk.Compress.BitReader
import CriArchive.Lib.Lzss

set_option relaxedAutoImplicit false
set_option autoImplicit false

/-!
# The CRILAYLA token format

The tokens as the documentation of `cpk/compress/layla.rs` describes them: a flag bit, then eight
literal bits, or thirteen distance bits and the levels of the length, of 2, 3, 5 and then 8 bits.
One turn of the decompressor reads a token of this format and writes what it stands for.

## Main definitions

* `InFormat`, `tokenBits` — the tokens that can be serialised, and their bits.
* `readToken`, `writeToken` — the two halves of a turn of the decompressor.

## Main results

* `step_eq` — a turn of the decompressor reads a token, then writes it.
* `readsAt_readToken` — the decompressor reads the token format.
-/

namespace CriArchive

open Machine LaylaDecompressorCursor Lzss

namespace LaylaDecompressor

/-! ## Serialised tokens -/

/-- A number as a level of `k` bits; a level of all ones is followed by the bits of the rest. -/
def levelled (k : ℕ) (rest : ℕ → List Bool) (n : ℕ) : List Bool :=
  if n < 2 ^ k - 1 then Bits.ofNat k n
  else Bits.ofNat k (2 ^ k - 1) ++ rest (n - (2 ^ k - 1))

/-- A number as levels of 8 bits, the last of which is not 255. -/
def levelBits (n : ℕ) : List Bool :=
  (List.replicate (n / 255) (Bits.ofNat 8 255)).flatten ++ Bits.ofNat 8 (n % 255)

/-- A copy length: levels of 2, 3, 5 and then 8 bits that add up to what exceeds 3. -/
def lengthBits (length : ℕ) : List Bool :=
  levelled 2 (levelled 3 (levelled 5 levelBits)) (length - 3)

/-- The tokens that the format has: distances of 13 bits from 3 on, lengths from 3 on. -/
def InFormat : Token UInt8 → Prop
  | .literal _ => True
  | .copy distance length => 3 ≤ distance ∧ distance ≤ 8194 ∧ 3 ≤ length

/-- Whether the format can write a token can be evaluated. -/
instance (t : Token UInt8) : Decidable (InFormat t) :=
  match t with
  | .literal _ => inferInstanceAs (Decidable True)
  | .copy _ _ => inferInstanceAs (Decidable (_ ∧ _ ∧ _))

/-- The bits of a token. -/
def tokenBits : Token UInt8 → List Bool
  | .literal b => false :: Bits.ofByte b
  | .copy distance length => true :: (Bits.ofNat 13 (distance - 3) ++ lengthBits length)

/-- The code of the format. -/
def tokenCode : BitCode (Token UInt8) := fun word t => InFormat t ∧ word = tokenBits t

/-! ## Reading a token -/

variable (input : List UInt8)

/-- The first half of a turn: read a token. -/
def readToken (c : LaylaDecompressorCursor) :
    ExecM Machine Error (Token UInt8 × LaylaDecompressorCursor) := do
  let flag ← read1 input c
  if flag.1 then do
    let offset ← read13 input flag.2
    let length ← readLength input offset.2
    pure (.copy (offset.1.toNat + minCopyLength) length.1, length.2)
  else do
    let byte ← read8 input flag.2
    pure (.literal byte.1, byte.2)

/-- The second half of a turn: write what the token stands for. -/
def writeToken (pwrite : ℤ) : Token UInt8 → ExecM Machine Error ℤ
  | .literal b => do
    storeOutput pwrite b
    pure (pwrite - 1)
  | .copy distance length => copyMatch pwrite distance length

/-- **A turn of the decompressor reads a token, then writes it.** -/
theorem step_eq (pwrite : ℤ) (c : LaylaDecompressorCursor) :
    step input pwrite c = (readToken input c >>= fun t =>
      writeToken pwrite t.1 >>= fun p => pure (p, t.2)) := by
  unfold step readToken
  rw [ExecM.bind_assoc]
  refine congrArg _ (funext fun flag => ?_)
  split_ifs
  · rw [ExecM.bind_assoc]
    refine congrArg _ (funext fun offset => ?_)
    rw [ExecM.bind_assoc]
    rfl
  · rw [ExecM.bind_assoc]
    refine congrArg _ (funext fun byte => ?_)
    rw [ExecM.pure_bind, writeToken, ExecM.bind_assoc]
    rfl

/-! ## The code of the lengths -/

/-- The 8-bit levels go on after a level of 255. -/
theorem levelBits_eq (n : ℕ) : levelBits n = levelled 8 levelBits n := by
  unfold levelled
  split_ifs with hn
  · have hlt : n < 255 := hn
    rw [levelBits, Nat.div_eq_of_lt hlt, Nat.mod_eq_of_lt hlt]
    rfl
  · have hle : 255 ≤ n := Nat.le_of_not_lt hn
    have hdiv : n / 255 = (n - 255) / 255 + 1 := by omega
    have hmod : n % 255 = (n - 255) % 255 := by omega
    rw [levelBits, hdiv, hmod, List.replicate_succ, List.flatten_cons, List.append_assoc]
    rfl

/-- The code of the numbers from `base` on, by the bits of what exceeds it. -/
def fromCode (bits : ℕ → List Bool) (base : ℕ) : BitCode ℕ := fun word v =>
  ∃ n, word = bits n ∧ v = base + n

/-- **A level is the last one, or levels follow.**

**Proof sketch.** A length below the last level is that level; any other is the last level followed
by the code of the rest. Both directions compare the number with `2 ^ k - 1`, where a level fits
eight bits. -/
theorem fromCode_levelled {k : ℕ} (hk : k ≤ 8) (rest : ℕ → List Bool) (base : ℕ) :
    fromCode (levelled k rest) base =
      (BitCode.fixed k UInt8.ofNat).andThen fun level =>
        if level ≠ UInt8.ofNat (2 ^ k - 1) then .done (base + level.toNat)
        else fromCode rest (base + level.toNat) := by
  have hpow : 0 < 2 ^ k ∧ 2 ^ k ≤ 2 ^ 8 :=
    ⟨Nat.two_pow_pos k, Nat.pow_le_pow_right (by omega) hk⟩
  have hnum : ∀ n, n < 2 ^ k → (UInt8.ofNat n).toNat = n := fun n hn =>
    UInt8.toNat_ofNat_of_lt' (lt_of_lt_of_le hn hpow.2)
  funext word v
  apply propext
  constructor
  · rintro ⟨n, rfl, rfl⟩
    unfold levelled
    split_ifs with hn
    · have hne : UInt8.ofNat n ≠ UInt8.ofNat (2 ^ k - 1) := by
        intro h
        have := congrArg UInt8.toNat h
        rw [hnum n (by omega), hnum _ (by omega)] at this
        omega
      refine ⟨_, UInt8.ofNat n, [], (List.append_nil _).symm, ⟨n, by omega, rfl, rfl⟩, ?_⟩
      exact (congrFun₂ (if_pos hne) _ _).mpr ⟨rfl, by rw [hnum n (by omega)]⟩
    · refine ⟨_, UInt8.ofNat (2 ^ k - 1), _, rfl, ⟨2 ^ k - 1, by omega, rfl, rfl⟩, ?_⟩
      refine (congrFun₂ (if_neg (not_not.mpr rfl)) _ _).mpr ⟨n - (2 ^ k - 1), rfl, ?_⟩
      rw [hnum _ (by omega)]
      omega
  · rintro ⟨_, _, second, rfl, ⟨n, hn, rfl, rfl⟩, hrest⟩
    rw [hnum n hn] at hrest
    split_ifs at hrest with hlast
    · obtain ⟨rfl, rfl⟩ := hrest
      have hlt : n < 2 ^ k - 1 := by
        refine lt_of_le_of_ne (by omega) fun h => hlast ?_
        rw [h]
      exact ⟨n, by rw [levelled, if_pos hlt, List.append_nil], rfl⟩
    · obtain ⟨m, rfl, rfl⟩ := hrest
      obtain rfl : n = 2 ^ k - 1 := by
        have := congrArg UInt8.toNat (not_not.mp hlast)
        rwa [hnum n hn, hnum _ (by omega)] at this
      refine ⟨2 ^ k - 1 + m, ?_, Nat.add_assoc ..⟩
      rw [levelled, if_neg (by omega), Nat.add_sub_cancel_left]

variable {input}

/-- **The 8-bit levels are read until one is not 255**, whenever the fuel covers the bits below. -/
theorem readsAt_readLevels {fuel : ℕ} {c : LaylaDecompressorCursor} (hc : c.Valid input)
    (hfuel : (c.remaining input).length < 8 * fuel) (length : ℕ) :
    ReadsAt input (fromCode levelBits length) c (readLevels input fuel length c) := by
  induction fuel generalizing c length with
  | zero => omega
  | succ fuel ih =>
    rw [readLevels, show levelBits = levelled 8 levelBits from funext levelBits_eq,
      fromCode_levelled (le_refl 8)]
    refine (readsAt_read8 hc).bind fun word level c' hword hc' hrem => ?_
    change ReadsAt input (if level ≠ 255 then _ else _) c' (if level ≠ 255 then _ else _)
    split_ifs with hlast
    · exact readsAt_pure hc' _
    · refine ih hc' ?_ _
      obtain ⟨n, -, rfl, -⟩ := hword
      have hlen := congrArg List.length hrem
      rw [List.length_append, Bits.length_ofNat] at hlen
      omega

/-- **The length of a copy is read by its levels.** -/
theorem readsAt_readLength {c : LaylaDecompressorCursor} (hc : c.Valid input) :
    ReadsAt input (fromCode (levelled 2 (levelled 3 (levelled 5 levelBits))) 3) c
      (readLength input c) := by
  rw [readLength, fromCode_levelled (by omega)]
  refine (readsAt_read2 hc).bind fun _ level₂ c₂ _ hc₂ _ => ?_
  change ReadsAt input (if level₂ ≠ 3 then _ else _) c₂ (if level₂ ≠ 3 then _ else _)
  split_ifs
  · exact readsAt_pure hc₂ _
  rw [fromCode_levelled (by omega)]
  refine (readsAt_readMax8 hc₂ (by omega) (by omega)).bind fun _ level₃ c₃ _ hc₃ _ => ?_
  change ReadsAt input (if level₃ ≠ 7 then _ else _) c₃ (if level₃ ≠ 7 then _ else _)
  split_ifs
  · exact readsAt_pure hc₃ _
  rw [fromCode_levelled (by omega)]
  refine (readsAt_readMax8 hc₃ (by omega) (by omega)).bind fun _ level₅ c₅ _ hc₅ _ => ?_
  change ReadsAt input (if level₅ ≠ 0x1f then _ else _) c₅ (if level₅ ≠ 0x1f then _ else _)
  split_ifs
  · exact readsAt_pure hc₅ _
  · refine readsAt_readLevels hc₅ ?_ _
    have := hc₅.bits_le
    rw [length_remaining hc₅]
    dsimp only
    omega

/-! ## The code of the tokens -/

/-- The format is a flag, then a literal or the distance and the length of a copy.

**Proof sketch.** By the first bit. A literal is its eight bits; a copy is its distance less three
in thirteen bits and then the code of its length, and the bounds of the format are those that these
widths give. -/
theorem tokenCode_eq : tokenCode =
    (BitCode.fixed 1 (· != 0)).andThen fun flag =>
      if flag then
        (BitCode.fixed 13 UInt32.ofNat).andThen fun offset =>
          (fromCode (levelled 2 (levelled 3 (levelled 5 levelBits))) 3).andThen fun length =>
            .done (.copy (offset.toNat + minCopyLength) length)
      else (BitCode.fixed 8 UInt8.ofNat).andThen fun b => .done (.literal b) := by
  funext word t
  apply propext
  constructor
  · rintro ⟨hformat, rfl⟩
    cases t with
    | literal b =>
      refine ⟨[false], false, Bits.ofByte b, rfl, ⟨0, by decide, rfl, rfl⟩, ?_⟩
      exact ⟨_, b, [], (List.append_nil _).symm,
        ⟨b.toNat, b.toNat_lt, rfl, UInt8.ofNat_toNat.symm⟩, rfl, rfl⟩
    | copy distance length =>
      obtain ⟨hmin, hmax, hlength⟩ := hformat
      have hnum : (UInt32.ofNat (distance - 3)).toNat = distance - 3 :=
        UInt32.toNat_ofNat_of_lt' (by simp only [UInt32.size]; omega)
      refine ⟨[true], true, _, rfl, ⟨1, by decide, rfl, rfl⟩, ?_⟩
      refine ⟨_, UInt32.ofNat (distance - 3), _, rfl, ⟨distance - 3, by omega, rfl, rfl⟩, ?_⟩
      refine ⟨_, length, [], (List.append_nil _).symm, ⟨length - 3, rfl, by omega⟩, rfl, ?_⟩
      rw [hnum, minCopyLength, Nat.sub_add_cancel hmin]
  · rintro ⟨_, _, rest, rfl, ⟨n, hn, rfl, rfl⟩, hrest⟩
    obtain rfl | rfl : n = 0 ∨ n = 1 := by omega
    · obtain ⟨_, _, _, rfl, ⟨k, hk, rfl, rfl⟩, rfl, rfl⟩ := hrest
      refine ⟨trivial, ?_⟩
      rw [List.append_nil, tokenBits, Bits.ofByte, UInt8.toNat_ofNat_of_lt' hk]
      rfl
    · obtain ⟨_, _, _, rfl, ⟨k, hk, rfl, rfl⟩, _, _, _, rfl, ⟨m, rfl, rfl⟩, rfl, rfl⟩ := hrest
      have hnum : (UInt32.ofNat k).toNat = k :=
        UInt32.toNat_ofNat_of_lt' (by simp only [UInt32.size]; omega)
      rw [hnum]
      refine ⟨⟨by simp only [minCopyLength]; omega, by simp only [minCopyLength]; omega, by omega⟩, ?_⟩
      rw [tokenBits, lengthBits, minCopyLength, Nat.add_sub_cancel, Nat.add_sub_cancel_left,
        List.append_nil]
      rfl

/-- **The decompressor reads the token format.** -/
theorem readsAt_readToken {c : LaylaDecompressorCursor} (hc : c.Valid input) :
    ReadsAt input tokenCode c (readToken input c) := by
  rw [readToken, tokenCode_eq]
  refine (readsAt_read1 hc).bind fun _ flag c₁ _ hc₁ _ => ?_
  change ReadsAt input (if flag = true then _ else _) c₁ (if flag = true then _ else _)
  split_ifs
  · refine (readsAt_read13 hc₁).bind fun _ offset c₂ _ hc₂ _ => ?_
    refine (readsAt_readLength hc₂).bind fun _ length c₃ _ hc₃ _ => ?_
    exact readsAt_pure hc₃ _
  · exact (readsAt_read8 hc₁).bind fun _ b c₂ _ hc₂ _ => readsAt_pure hc₂ _

end LaylaDecompressor

end CriArchive
