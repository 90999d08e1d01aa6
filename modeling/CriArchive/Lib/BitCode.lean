import CriArchive.Lib.Bits

set_option relaxedAutoImplicit false
set_option autoImplicit false

/-!
# Codes

A code relates bit strings to the values they stand for. Codes are built from fixed-width numbers
by sequencing, where the second code may depend on the value of the first.

## Main definitions

* `BitCode`, `BitCode.Starts` — a code; whether a bit string starts with a codeword.
* `BitCode.done`, `BitCode.fixed`, `BitCode.andThen` — the ways to build codes.

## Main results

* `BitCode.starts_fixed` — a bit string starts with a fixed-width codeword iff it is long enough.
* `BitCode.starts_andThen` — a sequence starts a bit string iff its parts do, one after the other.
-/

/-- A code: which bit strings stand for which values. -/
def BitCode (β : Type) : Type := List Bool → β → Prop

namespace BitCode

variable {α β : Type}

/-- A bit string starts with a codeword. -/
def Starts (code : BitCode β) (bits : List Bool) : Prop :=
  ∃ word v rest, code word v ∧ bits = word ++ rest

/-- The code of one value, in no bits. -/
def done (v : β) : BitCode β := fun word w => word = [] ∧ w = v

/-- The code of the numbers of a width, through a map of the numbers to values. -/
def fixed (k : ℕ) (f : ℕ → β) : BitCode β := fun word v =>
  ∃ n, n < 2 ^ k ∧ word = Bits.ofNat k n ∧ v = f n

/-- A code followed by one that may depend on the value of the first. -/
def andThen (code : BitCode α) (f : α → BitCode β) : BitCode β := fun word w =>
  ∃ first v second, word = first ++ second ∧ code first v ∧ f v second w

/-- `done` reads nothing and gives its value, whatever follows. -/
theorem starts_done (v : β) (bits : List Bool) : Starts (done v) bits :=
  ⟨[], v, bits, ⟨rfl, rfl⟩, rfl⟩

/-- The codeword a long enough bit string starts with. -/
theorem fixed_take {k : ℕ} {bits : List Bool} (h : k ≤ bits.length) (f : ℕ → β) :
    fixed k f (bits.take k) (f (Bits.toNat (bits.take k))) := by
  have hlen : (bits.take k).length = k := List.length_take_of_le h
  have hlt := Bits.toNat_lt (bits.take k)
  have hword := Bits.ofNat_toNat (bits.take k)
  rw [hlen] at hlt hword
  exact ⟨_, hlt, hword.symm, rfl⟩

/-- What follows from a bit string starting with a fixed-width codeword. -/
theorem eq_take_of_fixed {k : ℕ} {f : ℕ → β} {word rest bits : List Bool} {v : β}
    (h : fixed k f word v) (hbits : bits = word ++ rest) :
    k ≤ bits.length ∧ v = f (Bits.toNat (bits.take k)) ∧ rest = bits.drop k := by
  obtain ⟨n, hn, rfl, rfl⟩ := h
  have hlen : (Bits.ofNat k n).length = k := Bits.length_ofNat k n
  subst hbits
  refine ⟨by simp, ?_, ?_⟩
  · rw [List.take_left' hlen, Bits.toNat_ofNat_of_lt hn]
  · rw [List.drop_left' hlen]

/-- **A bit string starts with a fixed-width codeword iff it is long enough.** -/
theorem starts_fixed {k : ℕ} {f : ℕ → β} {bits : List Bool} :
    Starts (fixed k f) bits ↔ k ≤ bits.length := by
  constructor
  · rintro ⟨word, v, rest, hword, hbits⟩
    exact (eq_take_of_fixed hword hbits).1
  · intro h
    exact ⟨_, _, bits.drop k, fixed_take h f, (List.take_append_drop k bits).symm⟩

/-- Mapping the value of a fixed-width codeword. -/
theorem fixed_map (k : ℕ) (f : ℕ → β) : ((fixed k id).andThen fun n => done (f n)) = fixed k f := by
  funext word v
  apply propext
  constructor
  · rintro ⟨_, n, _, rfl, ⟨_, hn, rfl, rfl⟩, rfl, rfl⟩
    exact ⟨n, hn, List.append_nil _, rfl⟩
  · rintro ⟨n, hn, rfl, rfl⟩
    exact ⟨_, n, [], (List.append_nil _).symm, ⟨n, hn, rfl, rfl⟩, rfl, rfl⟩

/-- A fixed-width number is read in two parts, the high one first. -/
theorem fixed_add (j k : ℕ) (f : ℕ → β) :
    fixed (j + k) f = (fixed j id).andThen fun high => fixed k fun low => f (high * 2 ^ k + low) := by
  funext word v
  apply propext
  constructor
  · rintro ⟨n, hn, rfl, rfl⟩
    have hpos : 0 < 2 ^ k := Nat.two_pow_pos k
    refine ⟨_, n / 2 ^ k, _, Bits.ofNat_add j k n, ⟨_, ?_, rfl, rfl⟩, n % 2 ^ k,
      Nat.mod_lt _ hpos, (Bits.ofNat_mod k n).symm, ?_⟩
    · rw [Nat.div_lt_iff_lt_mul hpos, ← pow_add]
      exact hn
    · change f n = f (n / 2 ^ k * 2 ^ k + n % 2 ^ k)
      rw [Nat.mul_comm, Nat.div_add_mod]
  · rintro ⟨_, high, _, rfl, ⟨_, hhigh, rfl, rfl⟩, low, hlow, rfl, rfl⟩
    change high < 2 ^ j at hhigh
    have hdiv : (high * 2 ^ k + low) / 2 ^ k = high := by
      rw [Nat.mul_comm, Nat.mul_add_div (Nat.two_pow_pos k), Nat.div_eq_of_lt hlow, Nat.add_zero]
    have hmod : (high * 2 ^ k + low) % 2 ^ k = low := by
      rw [Nat.mul_comm, Nat.mul_add_mod, Nat.mod_eq_of_lt hlow]
    refine ⟨high * 2 ^ k + low, ?_, ?_, rfl⟩
    · calc high * 2 ^ k + low < (high + 1) * 2 ^ k := by rw [Nat.add_mul, Nat.one_mul]; omega
        _ ≤ 2 ^ j * 2 ^ k := Nat.mul_le_mul_right _ hhigh
        _ = 2 ^ (j + k) := (pow_add 2 j k).symm
    · rw [Bits.ofNat_add, hdiv, ← Bits.ofNat_mod k (high * 2 ^ k + low), hmod]

/-- **A sequence starts a bit string iff its parts do**, one after the other. -/
theorem starts_andThen {code : BitCode α} {f : α → BitCode β} {bits : List Bool} :
    Starts (andThen code f) bits ↔
      ∃ word v rest, code word v ∧ bits = word ++ rest ∧ Starts (f v) rest := by
  constructor
  · rintro ⟨word, w, rest, ⟨first, v, second, rfl, hfirst, hsecond⟩, rfl⟩
    exact ⟨first, v, second ++ rest, hfirst, List.append_assoc .., second, w, rest, hsecond, rfl⟩
  · rintro ⟨first, v, _, hfirst, rfl, second, w, rest, hsecond, rfl⟩
    exact ⟨first ++ second, w, rest, ⟨first, v, second, rfl, hfirst, hsecond⟩,
      (List.append_assoc ..).symm⟩

end BitCode
