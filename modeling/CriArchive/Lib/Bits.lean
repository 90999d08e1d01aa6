import Mathlib.Data.List.Basic
import Mathlib.Tactic.Common
import Mathlib.Tactic.Ring
import Mathlib.Algebra.Order.Ring.Nat

set_option relaxedAutoImplicit false
set_option autoImplicit false

/-!
# Bit strings

Bit strings with the most significant bit first, the numbers they stand for, and the bits of a
byte string that is read downward, from its last byte to its first.

## Main definitions

* `Bits.toNat`, `Bits.ofNat` — the number of a bit string; the low bits of a number.
* `Bits.down` — the bits of a byte string read downward.

## Main results

* `Bits.toNat_ofNat`, `Bits.ofNat_toNat` — the two are inverse on strings of a width.
* `Bits.ofNat_add` — the high and the low part of a number's bits.
-/

namespace Bits

/-- The number a bit string stands for. -/
def toNat : List Bool → ℕ
  | [] => 0
  | b :: bs => b.toNat * 2 ^ bs.length + toNat bs

/-- The low `w` bits of a number. -/
def ofNat : ℕ → ℕ → List Bool
  | 0, _ => []
  | w + 1, n => n.testBit w :: ofNat w n

/-- A number written in `w` bits takes `w` bits. -/
@[simp] theorem length_ofNat (w n : ℕ) : (ofNat w n).length = w := by
  induction w with
  | zero => rfl
  | succ w ih => simp [ofNat, ih]

/-- `w` bits give a number below `2 ^ w`. -/
theorem toNat_lt (bs : List Bool) : toNat bs < 2 ^ bs.length := by
  induction bs with
  | nil => simp [toNat]
  | cons b bs ih =>
    have hb : b.toNat * 2 ^ bs.length ≤ 1 * 2 ^ bs.length := Nat.mul_le_mul_right _ b.toNat_le
    simp only [toNat, List.length_cons, pow_succ]
    omega

/-- The number of the low `w` bits of `n` is `n` modulo `2 ^ w`. -/
theorem toNat_ofNat (w n : ℕ) : toNat (ofNat w n) = n % 2 ^ w := by
  induction w with
  | zero => simp [ofNat, toNat, Nat.mod_one]
  | succ w ih =>
    rw [ofNat, toNat, ih, length_ofNat, Nat.testBit_eq_decide_div_mod_eq]
    have hsplit : n % 2 ^ (w + 1) = n % 2 ^ w + 2 ^ w * (n / 2 ^ w % 2) := by
      rw [pow_succ, Nat.mod_mul]
    rcases Nat.mod_two_eq_zero_or_one (n / 2 ^ w) with h | h
    · simp [hsplit, h]
    · simp [hsplit, h, Nat.add_comm]

/-- A number that fits `w` bits survives them. -/
theorem toNat_ofNat_of_lt {w n : ℕ} (h : n < 2 ^ w) : toNat (ofNat w n) = n := by
  rw [toNat_ofNat, Nat.mod_eq_of_lt h]

/-- The bits of a bit string's number are the bit string. -/
theorem ofNat_toNat (bs : List Bool) : ofNat bs.length (toNat bs) = bs := by
  have hgen : ∀ (bs : List Bool) (k : ℕ), ofNat bs.length (k * 2 ^ bs.length + toNat bs) = bs := by
    intro bs
    induction bs with
    | nil => intro k; rfl
    | cons b bs ih =>
      intro k
      have hlt := toNat_lt bs
      have hnum : k * 2 ^ (bs.length + 1) + (b.toNat * 2 ^ bs.length + toNat bs) =
          (k * 2 + b.toNat) * 2 ^ bs.length + toNat bs := by
        rw [pow_succ]
        ring
      have hbit : ((k * 2 + b.toNat) * 2 ^ bs.length + toNat bs).testBit bs.length = b := by
        rw [Nat.testBit_eq_decide_div_mod_eq, Nat.add_comm, Nat.add_mul_div_right _ _ (Nat.two_pow_pos _),
          Nat.div_eq_of_lt hlt, Nat.zero_add]
        cases b <;> simp [Nat.add_mod]
      rw [List.length_cons, ofNat, toNat, hnum, hbit, ih]
  simpa using hgen bs 0

/-- The low bits among the low bits of a number. -/
theorem drop_ofNat (k w n : ℕ) : (ofNat (k + w) n).drop k = ofNat w n := by
  induction k with
  | zero => simp
  | succ k ih => rw [Nat.add_right_comm, ofNat, List.drop_succ_cons, ih]

/-- The high bits among the low bits of a number. -/
theorem take_ofNat (k w n : ℕ) : (ofNat (k + w) n).take k = ofNat k (n / 2 ^ w) := by
  induction k with
  | zero => rfl
  | succ k ih =>
    rw [Nat.add_right_comm, ofNat, List.take_succ_cons, ih, ofNat, Nat.testBit_div_two_pow,
      Nat.add_comm]

/-- The low bits of a number are the high ones among them, then the low ones. -/
theorem ofNat_add (k w n : ℕ) : ofNat (k + w) n = ofNat k (n / 2 ^ w) ++ ofNat w n := by
  rw [← take_ofNat, ← drop_ofNat k w n, List.take_append_drop]

/-- Only the low bits of a number matter. -/
theorem ofNat_mod (w n : ℕ) : ofNat w (n % 2 ^ w) = ofNat w n := by
  have h := ofNat_toNat (ofNat w n)
  rwa [length_ofNat, toNat_ofNat] at h

/-- The bits of a byte. -/
def ofByte (b : UInt8) : List Bool := ofNat 8 b.toNat

/-- The bits of a byte string read downward: from the last byte to the first. -/
def down (bytes : List UInt8) : List Bool := bytes.reverse.flatMap ofByte

/-- No bytes give no bits. -/
@[simp] theorem down_nil : down [] = [] := rfl

/-- Read downwards, what comes last in the bytes comes first. -/
theorem down_append (xs ys : List UInt8) : down (xs ++ ys) = down ys ++ down xs := by
  simp [down]

/-- The bits below a position: those of the byte before it come first. -/
theorem down_take_succ {bytes : List UInt8} {i : ℕ} (h : i < bytes.length) :
    down (bytes.take (i + 1)) = ofByte bytes[i] ++ down (bytes.take i) := by
  rw [List.take_succ_eq_append_getElem h, down_append]
  simp [down]

/-- Every byte gives eight bits. -/
@[simp] theorem length_down (bytes : List UInt8) : (down bytes).length = 8 * bytes.length := by
  induction bytes with
  | nil => rfl
  | cons b bytes ih =>
    rw [← List.singleton_append, down_append, List.length_append, ih]
    simp [down, ofByte]
    omega

end Bits
