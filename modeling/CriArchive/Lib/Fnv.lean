import Mathlib.Algebra.Order.Ring.Int
import Mathlib.Data.UInt
import Mathlib.Tactic.Ring

set_option relaxedAutoImplicit false
set_option autoImplicit false

/-!
# FNV-1a

The hash that takes in one byte after the other, by exclusive or and a multiplication. It is no
cryptographic hash, but the step is injective in the state and in the byte, and the multiplier is so
large that a difference of a few consecutive bytes cannot cancel itself.

## Main definitions

* `Fnv.run` — the state after bytes.
* `Fnv.Patched` — bytes of which at most four consecutive ones were replaced.

## Main results

* `Fnv.run_injective` — different states stay different.
* `Fnv.eq_of_patched` — **a replacement of at most four consecutive bytes is seen.**
-/

namespace Fnv

/-- The multiplier of the 64-bit hash. -/
def prime : UInt64 := 0x100000001b3

/-- The state after one more byte. -/
def step (h : UInt64) (b : UInt8) : UInt64 := (h ^^^ b.toUInt64) * prime

/-- The state after more bytes. -/
def run (h : UInt64) (bs : List UInt8) : UInt64 := bs.foldl step h

/-! ## The step is injective -/

section Injective

/-- The multiplier is a unit. -/
theorem mul_prime_injective : Function.Injective fun x : UInt64 => x * prime := by
  intro x y hxy
  have hunit : prime * 0xce965057aff6957b = 1 := by decide
  calc x = x * prime * 0xce965057aff6957b := by rw [UInt64.mul_assoc, hunit, UInt64.mul_one]
    _ = y * prime * 0xce965057aff6957b := congrArg (· * 0xce965057aff6957b) hxy
    _ = y := by rw [UInt64.mul_assoc, hunit, UInt64.mul_one]

/-- **One step loses nothing:** for a fixed byte, different states stay different. -/
theorem step_injective (b : UInt8) : Function.Injective (step · b) := by
  intro h h' heq
  exact UInt64.xor_left_inj _ |>.mp (mul_prime_injective heq)

/-- **Different states stay different**, whatever bytes follow. -/
theorem run_injective (bs : List UInt8) : Function.Injective (run · bs) := by
  induction bs with
  | nil => exact fun _ _ h => h
  | cons b bs ih => exact fun _ _ h => step_injective b (ih h)

/-- The hash of a concatenation continues that of its first part. -/
theorem run_append (h : UInt64) (as bs : List UInt8) : run h (as ++ bs) = run (run h as) bs :=
  List.foldl_append

end Injective

/-! ## Differences between states

The difference of two states, as integers, is multiplied by the multiplier `2 ^ 40 + 435` in each
step, up to multiples of `2 ^ 64` and the little that the bytes change. -/

section Gap

variable {h h' x y : UInt64}

/-- How far a state is ahead of another. -/
def gap (h h' : UInt64) : ℤ := h.toNat - h'.toNat

/-- A byte only changes the low byte of a state. -/
theorem toNat_xor_byte (h : UInt64) (b : UInt8) :
    (h ^^^ b.toUInt64).toNat = h.toNat / 256 * 256 + (h.toNat % 256 ^^^ b.toNat) := by
  have hdiv : (h.toNat ^^^ b.toNat) / 2 ^ 8 = h.toNat / 2 ^ 8 := by
    rw [Nat.xor_div_two_pow, Nat.div_eq_of_lt b.toNat_lt, Nat.xor_zero]
  have hmod : (h.toNat ^^^ b.toNat) % 2 ^ 8 = h.toNat % 2 ^ 8 ^^^ b.toNat := by
    rw [Nat.xor_mod_two_pow, Nat.mod_eq_of_lt b.toNat_lt]
  rw [UInt64.toNat_xor, UInt8.toNat_toUInt64]
  calc h.toNat ^^^ b.toNat
      = (h.toNat ^^^ b.toNat) / 2 ^ 8 * 2 ^ 8 + (h.toNat ^^^ b.toNat) % 2 ^ 8 :=
        (Nat.div_add_mod' _ _).symm
    _ = h.toNat / 256 * 256 + (h.toNat % 256 ^^^ b.toNat) := by
      rw [hdiv, hmod]
      rfl

/-- A byte does not carry out of the low byte of the state. -/
theorem xor_byte_lt (h : UInt64) (b : UInt8) : h.toNat % 256 ^^^ b.toNat < 256 :=
  Nat.xor_lt_two_pow (n := 8) (Nat.mod_lt _ (by decide)) b.toNat_lt

/-- Bytes change a difference by little. -/
theorem gap_xor (h h' : UInt64) (a b : UInt8) : ∃ e : ℤ, -510 ≤ e ∧ e ≤ 510 ∧
    gap (h ^^^ a.toUInt64) (h' ^^^ b.toUInt64) = gap h h' + e := by
  have ha := xor_byte_lt h a
  have hb := xor_byte_lt h' b
  refine ⟨gap (h ^^^ a.toUInt64) (h' ^^^ b.toUInt64) - gap h h', ?_, ?_, by ring⟩
  all_goals
    rw [gap, gap, toNat_xor_byte, toNat_xor_byte]
    omega

/-- Equal states get less than a byte apart. -/
theorem gap_xor_self (h : UInt64) (a b : UInt8) :
    -255 ≤ gap (h ^^^ a.toUInt64) (h ^^^ b.toUInt64) ∧
      gap (h ^^^ a.toUInt64) (h ^^^ b.toUInt64) ≤ 255 := by
  have ha := xor_byte_lt h a
  have hb := xor_byte_lt h b
  rw [gap, toNat_xor_byte, toNat_xor_byte]
  omega

/-- States that meet were less than a byte apart. -/
theorem gap_of_xor_eq {a b : UInt8} (heq : h ^^^ a.toUInt64 = h' ^^^ b.toUInt64) :
    -255 ≤ gap h h' ∧ gap h h' ≤ 255 := by
  have hnat := congrArg UInt64.toNat heq
  have ha := xor_byte_lt h a
  have hb := xor_byte_lt h' b
  rw [toNat_xor_byte, toNat_xor_byte] at hnat
  unfold gap
  omega

/-- A product with the prime multiplies the gap, modulo `2 ^ 64`. -/
theorem gap_mul_prime (x y : UInt64) :
    ∃ k : ℤ, gap (x * prime) (y * prime) = gap x y * (2 ^ 40 + 435) + 2 ^ 64 * k := by
  have hx := Nat.div_add_mod (x.toNat * (2 ^ 40 + 435)) (2 ^ 64)
  have hy := Nat.div_add_mod (y.toNat * (2 ^ 40 + 435)) (2 ^ 64)
  refine ⟨(y.toNat * (2 ^ 40 + 435) / 2 ^ 64 : ℕ) - (x.toNat * (2 ^ 40 + 435) / 2 ^ 64 : ℕ), ?_⟩
  have hprime : prime.toNat = 2 ^ 40 + 435 := rfl
  rw [gap, gap, UInt64.toNat_mul, UInt64.toNat_mul, hprime]
  omega

/-- States without a gap are equal. -/
theorem eq_of_gap (h0 : gap x y = 0) : x = y :=
  UInt64.toNat_inj.mp (Int.ofNat.inj (sub_eq_zero.mp h0))

/-- **A small difference does not cancel itself** in three steps: the low part of the multiplier
keeps it apart from what the bytes can make up for, the high part then sees what is left. -/
theorem gap_eq_zero {d e f g k : ℤ} (hd : -255 ≤ d ∧ d ≤ 255) (he : -510 ≤ e ∧ e ≤ 510)
    (hf : -510 ≤ f ∧ f ≤ 510) (hg : -255 ≤ g ∧ g ≤ 255)
    (h : ((d * (2 ^ 40 + 435) + e) * (2 ^ 40 + 435) + f) * (2 ^ 40 + 435) = g + 2 ^ 64 * k) :
    d = 0 := by
  have hlow : 82312875 * d + 189225 * e + 435 * f - g = 0 := by omega
  have hhigh : ∃ k', 567675 * d + 870 * e + f = 2 ^ 24 * k' := ⟨k - 2 ^ 16 * d * (2 ^ 40 + 1305) -
    2 ^ 16 * e, by omega⟩
  obtain ⟨k', hhigh⟩ := hhigh
  have hsmall : -1 ≤ d ∧ d ≤ 1 := by omega
  have hk' : k' = 0 := by omega
  omega

end Gap

/-! ## Replaced bytes -/

section Patched

variable {h : UInt64} {as bs old new : List UInt8}

/-- One state and one result determine the byte. -/
theorem byte_eq_of_xor_eq {a b : UInt8} (heq : h ^^^ a.toUInt64 = h ^^^ b.toUInt64) : a = b := by
  have hnat := congrArg UInt64.toNat ((UInt64.xor_right_inj h).mp heq)
  rw [UInt8.toNat_toUInt64, UInt8.toNat_toUInt64] at hnat
  exact UInt8.toNat_inj.mp hnat

/-- The first of four bytes can be told from the state after them.

**Proof sketch.** Write each state before a multiplication as the product before it, with a byte put
in. A byte changes a gap by at most 255 (`gap_xor`), and a product multiplies it by the prime
(`gap_mul_prime`), so that the last gap is a combination of powers of the prime with small
coefficients, the first gap leading. By `gap_eq_zero` that one vanishes, and the bytes are equal. -/
theorem head_eq {a a₂ a₃ a₄ b b₂ b₃ b₄ : UInt8}
    (heq : run h [a, a₂, a₃, a₄] = run h [b, b₂, b₃, b₄]) : a = b := by
  -- the states before each multiplication
  obtain ⟨x₁, hx₁⟩ : ∃ x, x = h ^^^ a.toUInt64 := ⟨_, rfl⟩
  obtain ⟨y₁, hy₁⟩ : ∃ y, y = h ^^^ b.toUInt64 := ⟨_, rfl⟩
  obtain ⟨x₂, hx₂⟩ : ∃ x, x = x₁ * prime ^^^ a₂.toUInt64 := ⟨_, rfl⟩
  obtain ⟨y₂, hy₂⟩ : ∃ y, y = y₁ * prime ^^^ b₂.toUInt64 := ⟨_, rfl⟩
  obtain ⟨x₃, hx₃⟩ : ∃ x, x = x₂ * prime ^^^ a₃.toUInt64 := ⟨_, rfl⟩
  obtain ⟨y₃, hy₃⟩ : ∃ y, y = y₂ * prime ^^^ b₃.toUInt64 := ⟨_, rfl⟩
  have hmeet : x₃ * prime ^^^ a₄.toUInt64 = y₃ * prime ^^^ b₄.toUInt64 := by
    subst hx₃ hy₃ hx₂ hy₂ hx₁ hy₁
    exact mul_prime_injective heq
  have hd : -255 ≤ gap x₁ y₁ ∧ gap x₁ y₁ ≤ 255 := by
    rw [hx₁, hy₁]
    exact gap_xor_self h a b
  obtain ⟨e, he, he', hgap₂⟩ := gap_xor (x₁ * prime) (y₁ * prime) a₂ b₂
  obtain ⟨f, hf, hf', hgap₃⟩ := gap_xor (x₂ * prime) (y₂ * prime) a₃ b₃
  rw [← hx₂, ← hy₂] at hgap₂
  rw [← hx₃, ← hy₃] at hgap₃
  obtain ⟨k₁, hk₁⟩ := gap_mul_prime x₁ y₁
  obtain ⟨k₂, hk₂⟩ := gap_mul_prime x₂ y₂
  obtain ⟨k₃, hk₃⟩ := gap_mul_prime x₃ y₃
  have hzero : gap x₁ y₁ = 0 := by
    refine gap_eq_zero hd ⟨he, he'⟩ ⟨hf, hf'⟩ (gap_of_xor_eq hmeet)
      (k := -(k₁ * (2 ^ 40 + 435) ^ 2 + k₂ * (2 ^ 40 + 435) + k₃)) ?_
    rw [hk₃, hgap₃, hk₂, hgap₂, hk₁]
    ring
  exact byte_eq_of_xor_eq ((hx₁.symm.trans (eq_of_gap hzero)).trans hy₁)

/-- At most four bytes can be told from the state after them. -/
theorem eq_of_run_eq (hlen : as.length = bs.length) (hle : as.length ≤ 4)
    (heq : run h as = run h bs) : as = bs := by
  induction as generalizing h bs with
  | nil => exact (List.length_eq_zero_iff.mp hlen.symm).symm
  | cons a as ih =>
    obtain _ | ⟨b, bs⟩ := bs
    · cases hlen
    rw [List.length_cons] at hle
    have hlen' : as.length = bs.length := Nat.succ.inj hlen
    -- bytes that follow do not matter, so there may be four of them
    have hpadded := congrArg (run · (List.replicate (3 - as.length) 0)) heq
    rw [← run_append, ← run_append, List.cons_append, List.cons_append] at hpadded
    have hthree : ∀ cs : List UInt8, cs.length = as.length →
        (cs ++ List.replicate (3 - as.length) 0).length = 3 := by
      intro cs hcs
      rw [List.length_append, List.length_replicate]
      omega
    obtain ⟨a₂, a₃, a₄, has⟩ := List.length_eq_three.mp (hthree as rfl)
    obtain ⟨b₂, b₃, b₄, hbs⟩ := List.length_eq_three.mp (hthree bs hlen'.symm)
    rw [has, hbs] at hpadded
    obtain rfl := head_eq hpadded
    rw [ih hlen' (by omega) heq]

/-- At most four consecutive bytes were replaced. -/
def Patched (old new : List UInt8) : Prop :=
  ∃ before as bs after, old = before ++ as ++ after ∧ new = before ++ bs ++ after ∧
    as.length = bs.length ∧ as.length ≤ 4

/-- **A replacement of at most four consecutive bytes is seen.** The states before it are the same,
those after it are different, and stay so. -/
theorem eq_of_patched (hpatch : Patched old new) (heq : run h old = run h new) : old = new := by
  obtain ⟨before, as, bs, after, rfl, rfl, hlen, hle⟩ := hpatch
  rw [run_append, run_append, run_append, run_append] at heq
  rw [eq_of_run_eq hlen hle (run_injective after heq)]

end Patched

end Fnv
