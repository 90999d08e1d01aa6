import Mathlib.Data.List.Basic
import Mathlib.Tactic.Common
import Mathlib.Tactic.Ring
import Mathlib.Algebra.Order.Ring.Nat

set_option relaxedAutoImplicit false
set_option autoImplicit false

/-!
# Fixed-width integers, checked arithmetic and byte order

Conversions between machine integers and their bytes, and the checked operations of fixed-width
arithmetic, each characterised by the natural number its result stands for.

## Main definitions

* `Endian.leNat`, `Endian.leBytes`, `Endian.beNat`, `Endian.beBytes` — little- and big-endian
  decoding, and encoding in a given number of bytes.
* `UInt16.tryFrom`, `UInt32.tryFrom`, `UInt64.tryFrom` — range-checked conversion.
* `UInt64.checkedAdd`, `UInt64.checkedSub`, `UInt64.checkedRem` — partial arithmetic.

## Main results

* `Endian.leNat_leBytes`, `Endian.beNat_beBytes` — decoding undoes encoding modulo the width.
* `UInt64.checkedAdd_eq_some`, `UInt64.checkedSub_eq_some` — the values checked operations return.
-/

namespace Endian

/-- The value of a byte string, least significant byte first. -/
def leNat : List UInt8 → ℕ
  | [] => 0
  | b :: bs => b.toNat + 256 * leNat bs

/-- The low `w` bytes of `n`, least significant byte first. -/
def leBytes : ℕ → ℕ → List UInt8
  | 0, _ => []
  | w + 1, n => UInt8.ofNat n :: leBytes w (n / 256)

/-- The value of a byte string, most significant byte first. -/
def beNat (bs : List UInt8) : ℕ := leNat bs.reverse

/-- The low `w` bytes of `n`, most significant byte first. -/
def beBytes (w n : ℕ) : List UInt8 := (leBytes w n).reverse

/-- A number is put out in as many bytes as it is given. -/
@[simp] theorem length_leBytes (w n : ℕ) : (leBytes w n).length = w := by
  induction w generalizing n with
  | zero => rfl
  | succ w ih => simp [leBytes, ih]

/-- A number is put out in as many bytes as it is given. -/
@[simp] theorem length_beBytes (w n : ℕ) : (beBytes w n).length = w := by
  simp [beBytes]

/-- A byte string of length `w` has a value below `256 ^ w`. -/
theorem leNat_lt (bs : List UInt8) : leNat bs < 256 ^ bs.length := by
  induction bs with
  | nil => simp [leNat]
  | cons b bs ih =>
    have hb := b.toNat_lt
    simp only [leNat, List.length_cons, pow_succ]
    omega

/-- Decoding `w` little-endian bytes of `n` gives `n` modulo `256 ^ w`. -/
theorem leNat_leBytes (w n : ℕ) : leNat (leBytes w n) = n % 256 ^ w := by
  induction w generalizing n with
  | zero => simp [leNat, leBytes, Nat.mod_one]
  | succ w ih =>
    rw [leBytes, leNat, ih, pow_succ, Nat.mul_comm (256 ^ w), Nat.mod_mul]
    simp

/-- Decoding `w` big-endian bytes of `n` gives `n` modulo `256 ^ w`. -/
theorem beNat_beBytes (w n : ℕ) : beNat (beBytes w n) = n % 256 ^ w := by
  simp [beNat, beBytes, leNat_leBytes]

/-- A value that fits `w` bytes survives them. -/
theorem beNat_beBytes_of_lt {w n : ℕ} (h : n < 256 ^ w) : beNat (beBytes w n) = n := by
  rw [beNat_beBytes, Nat.mod_eq_of_lt h]

end Endian

/-! ## Range-checked conversions -/

/-- The 16-bit value of `n`, when it has one. -/
def UInt16.tryFrom (n : ℕ) : Option UInt16 :=
  if n < 2 ^ 16 then some (UInt16.ofNat n) else none

/-- The 32-bit value of `n`, when it has one. -/
def UInt32.tryFrom (n : ℕ) : Option UInt32 :=
  if n < 2 ^ 32 then some (UInt32.ofNat n) else none

/-- The 64-bit value of `n`, when it has one. -/
def UInt64.tryFrom (n : ℕ) : Option UInt64 :=
  if n < 2 ^ 64 then some (UInt64.ofNat n) else none

/-- A conversion to 16 bits succeeds for the value itself only. -/
theorem UInt16.tryFrom_eq_some {n : ℕ} {v : UInt16} : tryFrom n = some v ↔ v.toNat = n := by
  unfold tryFrom
  split_ifs with h
  · rw [Option.some_inj, ← UInt16.toNat_inj, UInt16.toNat_ofNat', Nat.mod_eq_of_lt h, eq_comm]
  · have := v.toNat_lt
    simp only [false_iff]
    omega

/-- A conversion to 32 bits succeeds for the value itself only. -/
theorem UInt32.tryFrom_eq_some {n : ℕ} {v : UInt32} : tryFrom n = some v ↔ v.toNat = n := by
  unfold tryFrom
  split_ifs with h
  · rw [Option.some_inj, ← UInt32.toNat_inj, UInt32.toNat_ofNat', Nat.mod_eq_of_lt h, eq_comm]
  · have := v.toNat_lt
    simp only [false_iff]
    omega

/-- A conversion to 64 bits succeeds for the value itself only. -/
theorem UInt64.tryFrom_eq_some {n : ℕ} {v : UInt64} : tryFrom n = some v ↔ v.toNat = n := by
  unfold tryFrom
  split_ifs with h
  · rw [Option.some_inj, ← UInt64.toNat_inj, UInt64.toNat_ofNat', Nat.mod_eq_of_lt h, eq_comm]
  · have := v.toNat_lt
    simp only [false_iff]
    omega

/-- A value converts back to itself. -/
@[simp] theorem UInt16.tryFrom_toNat (v : UInt16) : tryFrom v.toNat = some v :=
  tryFrom_eq_some.mpr rfl

/-- A 32-bit value survives the conversion. -/
@[simp] theorem UInt32.tryFrom_toNat (v : UInt32) : tryFrom v.toNat = some v :=
  tryFrom_eq_some.mpr rfl

/-- A 64-bit value survives the conversion. -/
@[simp] theorem UInt64.tryFrom_toNat (v : UInt64) : tryFrom v.toNat = some v :=
  tryFrom_eq_some.mpr rfl

/-! ## Checked 64-bit arithmetic -/

/-- The sum of two 64-bit values, unless it overflows. -/
def Nat.checkedAdd64 (a b : ℕ) : Option ℕ :=
  if a + b < 2 ^ 64 then some (a + b) else none

/-- The product of two 64-bit values, unless it overflows. -/
def Nat.checkedMul64 (a b : ℕ) : Option ℕ :=
  if a * b < 2 ^ 64 then some (a * b) else none

/-- A checked addition gives the sum iff the sum fits 64 bits. -/
theorem Nat.checkedAdd64_eq_some {a b c : ℕ} :
    checkedAdd64 a b = some c ↔ a + b < 2 ^ 64 ∧ c = a + b := by
  unfold checkedAdd64
  split_ifs with h
  · simp only [Option.some_inj, h, true_and, eq_comm]
  · simp only [h, false_and]

/-- A checked multiplication gives the product iff the product fits 64 bits. -/
theorem Nat.checkedMul64_eq_some {a b c : ℕ} :
    checkedMul64 a b = some c ↔ a * b < 2 ^ 64 ∧ c = a * b := by
  unfold checkedMul64
  split_ifs with h
  · simp only [Option.some_inj, h, true_and, eq_comm]
  · simp only [h, false_and]

/-- The sum, unless it overflows. -/
def UInt64.checkedAdd (a b : UInt64) : Option UInt64 :=
  if a.toNat + b.toNat < 2 ^ 64 then some (a + b) else none

/-- The difference, unless it underflows. -/
def UInt64.checkedSub (a b : UInt64) : Option UInt64 :=
  if b.toNat ≤ a.toNat then some (a - b) else none

/-- The remainder, unless the divisor is zero. -/
def UInt64.checkedRem (a b : UInt64) : Option UInt64 :=
  if b = 0 then none else some (a % b)

/-- A checked addition of 64-bit values gives the exact sum. -/
theorem UInt64.checkedAdd_eq_some {a b c : UInt64} :
    checkedAdd a b = some c ↔ c.toNat = a.toNat + b.toNat := by
  unfold checkedAdd
  split_ifs with h
  · rw [Option.some_inj, ← UInt64.toNat_inj, UInt64.toNat_add, Nat.mod_eq_of_lt h, eq_comm]
  · have := c.toNat_lt
    simp only [false_iff]
    omega

/-- A checked subtraction of 64-bit values gives the exact difference. -/
theorem UInt64.checkedSub_eq_some {a b c : UInt64} :
    checkedSub a b = some c ↔ b.toNat ≤ a.toNat ∧ c.toNat = a.toNat - b.toNat := by
  unfold checkedSub
  split_ifs with h
  · rw [Option.some_inj, ← UInt64.toNat_inj, UInt64.toNat_sub_of_le _ _ h, eq_comm]
    simp [h]
  · simp [h]
