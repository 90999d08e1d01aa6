import Mathlib.Data.List.Basic
import Mathlib.Tactic.Common
import Mathlib.Algebra.Order.Ring.Nat

set_option relaxedAutoImplicit false
set_option autoImplicit false

/-!
# LZSS

The meaning of LZSS tokens over an arbitrary alphabet. The data produced so far is a list with
the newest symbol first, so that a distance is a position in the list.

## Main definitions

* `Lzss.Token` — a literal symbol, or a copy of symbols produced before.
* `Lzss.copyN`, `Lzss.expand` — a copy, symbol by symbol; the expansion of tokens.
* `Lzss.Token.size` — the number of symbols a token produces.

## Main results

* `Lzss.copyN_isSome`, `Lzss.expand_isSome` — a copy is possible iff its distance reaches back to
  data that exists, and tokens are expandable iff all their copies are.
-/

namespace Lzss

variable {α : Type}

/-- A token. -/
inductive Token (α : Type) where
  | literal (a : α)
  | copy (distance length : ℕ)
  deriving DecidableEq, Repr

/-- Produce `n` symbols, each the one at the given distance at that time. -/
def copyN (distance : ℕ) : ℕ → List α → Option (List α)
  | 0, out => some out
  | n + 1, out =>
    match out[distance - 1]? with
    | some a => copyN distance n (a :: out)
    | none => none

/-- The data after a token. -/
def Token.apply : Token α → List α → Option (List α)
  | .literal a, out => some (a :: out)
  | .copy distance length, out => copyN distance length out

/-- The data after a list of tokens. -/
def expand : List (Token α) → List α → Option (List α)
  | [], out => some out
  | t :: ts, out =>
    match t.apply out with
    | some out' => expand ts out'
    | none => none

/-- The number of symbols a token produces. -/
def Token.size : Token α → ℕ
  | .literal _ => 1
  | .copy _ length => length

/-- The number of symbols that tokens produce. -/
def size (ts : List (Token α)) : ℕ := (ts.map Token.size).sum

/-- No tokens give no symbols. -/
@[simp] theorem size_nil : size ([] : List (Token α)) = 0 := rfl

/-- A token adds its size. -/
@[simp] theorem size_cons (t : Token α) (ts : List (Token α)) :
    size (t :: ts) = t.size + size ts := by
  simp [size]

/-- A token refers to data that exists, given how much was produced before it. -/
def Token.Fits (produced : ℕ) : Token α → Prop
  | .literal _ => True
  | .copy distance _ => distance ≤ produced

/-- Every token refers to data that exists, given how much was produced before them. -/
def Fits : ℕ → List (Token α) → Prop
  | _, [] => True
  | produced, t :: ts => t.Fits produced ∧ Fits (produced + t.size) ts

/-- Whether a token fits the symbols before it can be evaluated. -/
instance Token.decidableFits (produced : ℕ) (t : Token α) : Decidable (t.Fits produced) :=
  match t with
  | .literal _ => inferInstanceAs (Decidable True)
  | .copy distance _ => inferInstanceAs (Decidable (distance ≤ produced))

/-- Whether a list of tokens fits can be evaluated, token after token. -/
instance decidableFits : (produced : ℕ) → (ts : List (Token α)) → Decidable (Fits produced ts)
  | _, [] => inferInstanceAs (Decidable True)
  | produced, t :: ts =>
    have := decidableFits (produced + t.size) ts
    inferInstanceAs (Decidable (t.Fits produced ∧ Fits (produced + t.size) ts))

/-- A copy appends as many symbols as it is told. -/
theorem length_copyN {distance n : ℕ} {out out' : List α}
    (h : copyN distance n out = some out') : out'.length = out.length + n := by
  induction n generalizing out with
  | zero =>
    cases h
    rfl
  | succ n ih =>
    rw [copyN] at h
    split at h
    · rw [ih h, List.length_cons]
      omega
    · cases h

/-- **A copy reaches back to existing data.** -/
theorem copyN_isSome {distance n : ℕ} {out : List α} (hpos : 0 < distance)
    (h : distance ≤ out.length) : (copyN distance n out).isSome := by
  induction n generalizing out with
  | zero => rfl
  | succ n ih =>
    have hget : out[distance - 1]? = some (getElem out (distance - 1) (by omega)) :=
      List.getElem?_eq_getElem (by omega)
    rw [copyN, hget]
    exact ih (by rw [List.length_cons]; omega)

/-- A copy of at least one symbol needs its distance to reach existing data. -/
theorem le_length_of_copyN {distance n : ℕ} {out out' : List α} (hpos : 0 < n)
    (h : copyN distance n out = some out') : distance ≤ out.length := by
  obtain ⟨m, rfl⟩ : ∃ m, n = m + 1 := ⟨n - 1, by omega⟩
  rw [copyN] at h
  split at h
  case h_1 a ha =>
    have := (List.getElem?_eq_some_iff.mp ha).1
    omega
  case h_2 => cases h

/-- A token appends as many symbols as its size says. -/
theorem Token.length_apply {t : Token α} {out out' : List α} (h : t.apply out = some out') :
    out'.length = out.length + t.size := by
  cases t with
  | literal a =>
    cases h
    rfl
  | copy distance length => exact length_copyN h

/-- A token with a positive distance can be expanded when it refers to data that exists. -/
theorem Token.apply_isSome {t : Token α} {out : List α}
    (hpos : ∀ distance length, t = .copy distance length → 0 < distance)
    (h : t.Fits out.length) : (t.apply out).isSome := by
  cases t with
  | literal a => rfl
  | copy distance length => exact copyN_isSome (hpos distance length rfl) h

/-- **Tokens with positive distances that refer to existing data can be expanded.** -/
theorem expand_isSome {ts : List (Token α)} {out : List α}
    (hpos : ∀ t ∈ ts, ∀ distance length, t = .copy distance length → 0 < distance)
    (h : Fits out.length ts) : (expand ts out).isSome := by
  induction ts generalizing out with
  | nil => rfl
  | cons t ts ih =>
    obtain ⟨mid, hmid⟩ := Option.isSome_iff_exists.mp
      (Token.apply_isSome (hpos t (List.mem_cons_self ..)) h.1)
    rw [expand, hmid]
    refine ih (fun t' ht' => hpos t' (List.mem_cons_of_mem t ht')) ?_
    rw [Token.length_apply hmid]
    exact h.2

/-- Tokens that can be expanded refer to existing data. -/
theorem fits_of_expand {ts : List (Token α)} {out out' : List α}
    (hpos : ∀ t ∈ ts, 0 < t.size) (h : expand ts out = some out') : Fits out.length ts := by
  induction ts generalizing out with
  | nil => trivial
  | cons t ts ih =>
    rw [expand] at h
    split at h
    case h_1 mid hmid =>
      refine ⟨?_, ?_⟩
      · cases t with
        | literal a => trivial
        | copy distance length =>
          exact le_length_of_copyN (hpos _ (List.mem_cons_self ..)) hmid
      · rw [← Token.length_apply hmid]
        exact ih (fun t' ht' => hpos t' (List.mem_cons_of_mem t ht')) h
    case h_2 => cases h

end Lzss
