import Mathlib.Data.List.Basic
import Mathlib.Tactic.Common
import Mathlib.Tactic.Ring
import Mathlib.Algebra.Order.Ring.Nat

set_option relaxedAutoImplicit false
set_option autoImplicit false

/-!
# Aligned placement of consecutive blocks

Blocks of given sizes are laid out one after another, each at the next multiple of an alignment.
Everything here is about natural numbers; the last section connects it to the two ways code
rounds up, by a remainder and by a mask on 64-bit words.

## Main definitions

* `alignTo a v` — the least multiple of `a` that is at least `v`.
* `place a base sizes`, `placeEnd a base sizes` — the offsets of the blocks, and the aligned end.

## Main results

* `place_dvd` — every block is aligned.
* `place_add_base` — placing from an aligned base is placing from zero, shifted.
* `UInt64.and_not_mask_toNat` — masking a sum rounds up to a power of two.
-/

/-- The least multiple of `a` that is at least `v`. -/
def alignTo (a v : ℕ) : ℕ := (v + (a - 1)) / a * a

section AlignTo

variable {a : ℕ}

/-- Rounding up does not go back. -/
theorem le_alignTo (ha : 0 < a) (v : ℕ) : v ≤ alignTo a v := by
  have h := Nat.div_add_mod (v + (a - 1)) a
  have hm := Nat.mod_lt (v + (a - 1)) ha
  rw [Nat.mul_comm] at h
  unfold alignTo
  omega

/-- Rounding up adds less than the alignment. -/
theorem alignTo_lt (ha : 0 < a) (v : ℕ) : alignTo a v < v + a := by
  have h := Nat.div_mul_le_self (v + (a - 1)) a
  unfold alignTo
  omega

/-- A value that is rounded up is a multiple. -/
theorem dvd_alignTo (a v : ℕ) : a ∣ alignTo a v := Dvd.intro_left _ rfl

/-- A multiple is already aligned. -/
theorem alignTo_of_dvd (ha : 0 < a) {v : ℕ} (h : a ∣ v) : alignTo a v = v := by
  obtain ⟨k, rfl⟩ := h
  unfold alignTo
  rw [Nat.mul_add_div ha, Nat.div_eq_of_lt (by omega), Nat.add_zero, Nat.mul_comm]

/-- Adding a multiple shifts the aligned value. -/
theorem alignTo_add (ha : 0 < a) {b : ℕ} (h : a ∣ b) (v : ℕ) :
    alignTo a (b + v) = b + alignTo a v := by
  obtain ⟨k, rfl⟩ := h
  unfold alignTo
  rw [Nat.add_assoc, Nat.mul_add_div ha, Nat.add_mul, Nat.mul_comm k]

/-- Rounding up by the remainder: the missing part is added to a value that is not a
multiple. -/
theorem alignTo_eq_of_mod (ha : 0 < a) {v : ℕ} (h : v % a ≠ 0) :
    alignTo a v = v + (a - v % a) := by
  have hlt := Nat.mod_lt v ha
  have hv := Nat.div_add_mod v a
  have hup : v + (a - v % a) = a * (v / a + 1) := by
    rw [Nat.mul_add, Nat.mul_one]
    omega
  have hsplit : v + (a - 1) = a * (v / a + 1) + (v % a - 1) := by
    rw [Nat.mul_add, Nat.mul_one]
    omega
  have hlow : (v % a - 1) / a = 0 := Nat.div_eq_of_lt (by omega)
  rw [hup]
  unfold alignTo
  rw [hsplit, Nat.mul_add_div ha, hlow, Nat.add_zero, Nat.mul_comm]

end AlignTo

/-! ## Placement -/

/-- The offsets of consecutive blocks of the given sizes, from the aligned offset `base` on. -/
def place (a : ℕ) (base : ℕ) : List ℕ → List ℕ
  | [] => []
  | n :: ns => base :: place a (alignTo a (base + n)) ns

/-- The aligned offset after the last block. -/
def placeEnd (a : ℕ) (base : ℕ) : List ℕ → ℕ
  | [] => base
  | n :: ns => placeEnd a (alignTo a (base + n)) ns

section Place

variable {a : ℕ}

/-- There is one offset for each length. -/
@[simp] theorem length_place (a base : ℕ) (ns : List ℕ) : (place a base ns).length = ns.length := by
  induction ns generalizing base with
  | nil => rfl
  | cons n ns ih => simp [place, ih]

/-- The end is not before the start. -/
theorem le_placeEnd (ha : 0 < a) (base : ℕ) (ns : List ℕ) : base ≤ placeEnd a base ns := by
  induction ns generalizing base with
  | nil => exact le_rfl
  | cons n ns ih =>
    have h₁ := le_alignTo ha (base + n)
    have h₂ := ih (alignTo a (base + n))
    simp only [placeEnd]
    omega

/-- A bound on the end by the number of the blocks and a bound on their sizes. -/
theorem placeEnd_le (ha : 0 < a) {m : ℕ} (base : ℕ) {ns : List ℕ} (h : ∀ n ∈ ns, n ≤ m) :
    placeEnd a base ns ≤ base + ns.length * (m + a) := by
  induction ns generalizing base with
  | nil => simp [placeEnd]
  | cons n ns ih =>
    obtain ⟨hn, hns⟩ := List.forall_mem_cons.mp h
    have hlt := alignTo_lt ha (base + n)
    have hrest := ih (alignTo a (base + n)) hns
    rw [placeEnd, List.length_cons, Nat.succ_mul]
    omega

/-- No offset lies before the base. -/
theorem le_of_mem_place (ha : 0 < a) (base : ℕ) (ns : List ℕ) : ∀ o ∈ place a base ns, base ≤ o := by
  induction ns generalizing base with
  | nil => simp [place]
  | cons n ns ih =>
    intro o ho
    have hle := le_alignTo ha (base + n)
    rcases List.mem_cons.mp ho with rfl | ho
    · exact le_rfl
    · have hrest := ih (alignTo a (base + n)) o ho
      omega

/-- The end is aligned when the base is. -/
theorem dvd_placeEnd {base : ℕ} (h : a ∣ base) (ns : List ℕ) : a ∣ placeEnd a base ns := by
  induction ns generalizing base with
  | nil => exact h
  | cons n ns ih => exact ih (dvd_alignTo a _)

/-- Every offset is aligned when the base is. -/
theorem place_dvd {base : ℕ} (h : a ∣ base) (ns : List ℕ) : ∀ o ∈ place a base ns, a ∣ o := by
  induction ns generalizing base with
  | nil => simp [place]
  | cons n ns ih =>
    intro o ho
    rcases List.mem_cons.mp ho with rfl | ho
    · exact h
    · exact ih (dvd_alignTo a _) o ho

/-- Placing from an aligned base is placing from zero, shifted by the base. -/
theorem place_add_base (ha : 0 < a) {b : ℕ} (hb : a ∣ b) (c : ℕ) (ns : List ℕ) :
    place a (b + c) ns = (place a c ns).map (b + ·) := by
  induction ns generalizing c with
  | nil => rfl
  | cons n ns ih =>
    rw [place, place, List.map_cons, Nat.add_assoc, alignTo_add ha hb, ih]

/-- The end of a placement from an aligned base is shifted by the base. -/
theorem placeEnd_add_base (ha : 0 < a) {b : ℕ} (hb : a ∣ b) (c : ℕ) (ns : List ℕ) :
    placeEnd a (b + c) ns = b + placeEnd a c ns := by
  induction ns generalizing c with
  | nil => rfl
  | cons n ns ih => rw [placeEnd, placeEnd, Nat.add_assoc, alignTo_add ha hb, ih]

/-- The offset of a block is the sum of the aligned sizes before it. -/
theorem place_eq_sum (ha : 0 < a) {base : ℕ} (hb : a ∣ base) {ns : List ℕ} {k o : ℕ}
    (ho : (place a base ns)[k]? = some o) : o = base + ((ns.take k).map (alignTo a)).sum := by
  induction ns generalizing base k with
  | nil => simp [place] at ho
  | cons n ns ih =>
    rw [place] at ho
    rcases k with _ | k
    · obtain rfl := Option.some.inj ho
      rfl
    · rw [List.getElem?_cons_succ] at ho
      rw [ih (dvd_alignTo a _) ho, alignTo_add ha hb, List.take_succ_cons, List.map_cons,
        List.sum_cons, Nat.add_assoc]

end Place

/-! ## Rounding on 64-bit words -/

/-- Clearing the low `k` bits of a word keeps the multiple of `2 ^ k` below it. -/
theorem Nat.and_not_low_bits {y k : ℕ} (hy : y < 2 ^ 64) (hk : k ≤ 64) :
    y &&& (2 ^ 64 - 1 - (2 ^ k - 1)) = y / 2 ^ k * 2 ^ k := by
  have hpos : 0 < 2 ^ k := Nat.two_pow_pos k
  have hle : 2 ^ k ≤ 2 ^ 64 := Nat.pow_le_pow_right (by norm_num) hk
  apply Nat.eq_of_testBit_eq
  intro i
  rw [show 2 ^ 64 - 1 - (2 ^ k - 1) = 2 ^ 64 - (2 ^ k - 1 + 1) by omega, Nat.testBit_and,
    Nat.testBit_two_pow_sub_succ (by omega), Nat.testBit_two_pow_sub_one, Nat.testBit_mul_two_pow,
    Nat.testBit_div_two_pow]
  by_cases hik : k ≤ i
  · by_cases hi : i < 64
    · simp [hik, hi, Nat.sub_add_cancel hik]
    · have h0 : y.testBit i = false :=
        Nat.testBit_lt_two_pow (lt_of_lt_of_le hy (Nat.pow_le_pow_right (by norm_num) (by omega)))
      simp [hik, hi, Nat.sub_add_cancel hik, h0]
  · simp [hik, show i < k by omega]

/-- Masking a word by the complement of `2 ^ k - 1` keeps the multiple of `2 ^ k` below it. -/
theorem UInt64.and_not_mask_toNat {y m : UInt64} {k : ℕ} (hk : k ≤ 64)
    (hm : m.toNat = 2 ^ k - 1) : (y &&& ~~~m).toNat = y.toNat / 2 ^ k * 2 ^ k := by
  rw [UInt64.toNat_and, UInt64.toNat_not, hm]
  exact Nat.and_not_low_bits y.toNat_lt hk
