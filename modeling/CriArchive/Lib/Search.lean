import Mathlib.Order.Basic
import Mathlib.Data.List.Basic
import Mathlib.Algebra.BigOperators.Group.List.Basic
import Mathlib.Algebra.Order.Ring.Nat

set_option relaxedAutoImplicit false
set_option autoImplicit false

/-!
# Searching sorted tables

Binary search of a table that is sorted by a key, and sums over the entries before a key. The
entries before a key are a prefix of a sorted table, the one that the search finds.

## Main definitions

* `Search.binarySearch` — the index of a key, or the one at which it would be inserted.
* `Search.sumBelow` — the sum of the weights of the entries whose keys are smaller.

## Main results

* `Search.binarySearch_eq` — what the search returns in a sorted table.
* `Search.sumBelow_eq_take` — in a sorted table the sum is that of a prefix.
* `Search.sumBelow_perm` — the sum does not depend on the order of the entries.
-/

namespace Search

/-- The outcome of a search. -/
inductive Result where
  /-- The key stands at an index. -/
  | found (index : ℕ)
  /-- The key is missing and would be inserted at an index. -/
  | missing (insertion : ℕ)
  deriving DecidableEq, Repr

/-- The number of entries before the key. -/
def Result.index : Result → ℕ
  | found index => index
  | missing insertion => insertion

/-- The key was found. -/
def Result.isFound : Result → Bool
  | found _ => true
  | missing _ => false

section Bisect

variable {α κ : Type} [LinearOrder κ] (key : α → κ)

/-- Halve the part from `lo` up to `hi` until it is empty or its middle has the key; `fuel` rounds
are enough when the part has at most as many entries. -/
def bisect (l : List α) (d : κ) : ℕ → ℕ → ℕ → Result
  | 0, lo, _ => .missing lo
  | fuel + 1, lo, hi =>
    match l[(lo + hi) / 2]? with
    | none => .missing lo
    | some x =>
      if hi ≤ lo then .missing lo
      else if key x < d then bisect l d fuel ((lo + hi) / 2 + 1) hi
      else if d < key x then bisect l d fuel lo ((lo + hi) / 2)
      else .found ((lo + hi) / 2)

/-- Binary search of a table. -/
def binarySearch (l : List α) (d : κ) : Result := bisect key l d l.length 0 l.length

/-- The entries before an index have smaller keys, and the ones from another index on greater
ones. -/
def Splits (l : List α) (d : κ) (lo hi : ℕ) : Prop :=
  (∀ i x, i < lo → l[i]? = some x → key x < d) ∧ ∀ i x, hi ≤ i → l[i]? = some x → d < key x

variable {key} {l : List α}

/-- In a sorted table, the keys before an entry are smaller. -/
theorem key_lt_of_lt (hsorted : l.Pairwise fun a b => key a < key b) {i j : ℕ} {x y : α}
    (hi : l[i]? = some x) (hj : l[j]? = some y) (hij : i < j) : key x < key y := by
  obtain ⟨hi', rfl⟩ := List.getElem?_eq_some_iff.mp hi
  obtain ⟨hj', rfl⟩ := List.getElem?_eq_some_iff.mp hj
  exact List.pairwise_iff_getElem.mp hsorted i j hi' hj' hij

/-- What a search result says of the table: the key stands at the index, or the table splits
there. -/
def Result.Correct (key : α → κ) (l : List α) (d : κ) : Result → Prop
  | found index => ∃ x, l[index]? = some x ∧ key x = d
  | missing insertion => insertion ≤ l.length ∧ Splits key l d insertion insertion

/-- **Halving keeps the split**, so what it ends with is correct.

**Proof sketch.** Induction on the fuel, with the invariant that all keys before `lo` are below and
all from `hi` on are above. When the middle key is below, sortedness puts all keys up to it below,
and `lo` moves behind it; when it is above, `hi` moves to it; when it is neither, it is the key. -/
theorem bisect_correct (hsorted : l.Pairwise fun a b => key a < key b) {d : κ} {fuel lo hi : ℕ}
    (hfuel : hi - lo ≤ fuel) (hle : lo ≤ hi) (hhi : hi ≤ l.length) (hsplits : Splits key l d lo hi) :
    (bisect key l d fuel lo hi).Correct key l d := by
  induction fuel generalizing lo hi with
  | zero =>
    obtain rfl : lo = hi := by omega
    exact ⟨hhi, hsplits⟩
  | succ fuel ih =>
    unfold bisect
    split
    · rename_i hnone
      have hlen := List.getElem?_eq_none_iff.mp hnone
      obtain rfl : lo = hi := by omega
      exact ⟨hhi, hsplits⟩
    · rename_i x hx
      split_ifs with hempty hbelow habove
      · obtain rfl : lo = hi := by omega
        exact ⟨hhi, hsplits⟩
      · have hlen := (List.getElem?_eq_some_iff.mp hx).1
        refine ih (by omega) (by omega) hhi ⟨fun i y hmid hy => ?_, hsplits.2⟩
        rcases Nat.lt_or_ge i ((lo + hi) / 2) with h | h
        · exact lt_trans (key_lt_of_lt hsorted hy hx h) hbelow
        · obtain rfl : i = (lo + hi) / 2 := by omega
          obtain rfl := Option.some.inj (hx.symm.trans hy)
          exact hbelow
      · refine ih (by omega) (by omega) (by omega) ⟨hsplits.1, fun i y hmid hy => ?_⟩
        rcases Nat.lt_or_ge ((lo + hi) / 2) i with h | h
        · exact lt_trans habove (key_lt_of_lt hsorted hx hy h)
        · obtain rfl : i = (lo + hi) / 2 := by omega
          obtain rfl := Option.some.inj (hx.symm.trans hy)
          exact habove
      · exact ⟨x, hx, le_antisymm (not_lt.mp habove) (not_lt.mp hbelow)⟩

/-- The entries before a point at which a table splits are those with smaller keys. -/
theorem take_eq_filter {d : κ} {n : ℕ} (hbelow : ∀ i x, i < n → l[i]? = some x → key x < d)
    (habove : ∀ i x, n ≤ i → l[i]? = some x → d ≤ key x) :
    l.take n = l.filter fun x => decide (key x < d) := by
  have htake : (l.take n).filter (fun x => decide (key x < d)) = l.take n := by
    refine List.filter_eq_self.mpr fun x hx => ?_
    obtain ⟨i, hi⟩ := List.mem_iff_getElem?.mp hx
    have hn : i < n := by
      have := (List.getElem?_eq_some_iff.mp hi).1
      rw [List.length_take] at this
      omega
    rw [List.getElem?_take_of_lt hn] at hi
    exact decide_eq_true (hbelow i x hn hi)
  have hdrop : (l.drop n).filter (fun x => decide (key x < d)) = [] := by
    refine List.filter_eq_nil_iff.mpr fun x hx => ?_
    obtain ⟨i, hi⟩ := List.mem_iff_getElem?.mp hx
    rw [List.getElem?_drop] at hi
    simpa using habove (n + i) x (Nat.le_add_right ..) hi
  conv_rhs => rw [← List.take_append_drop n l, List.filter_append, htake, hdrop, List.append_nil]

/-- In a sorted table, the entries before an entry are those with smaller keys. -/
theorem take_eq_filter_of_getElem? (hsorted : l.Pairwise fun a b => key a < key b) {k : ℕ} {x : α}
    (hx : l[k]? = some x) : l.take k = l.filter fun y => decide (key y < key x) := by
  refine take_eq_filter (fun i y hi hy => key_lt_of_lt hsorted hy hx hi) fun i y hi hy => ?_
  rcases Nat.eq_or_lt_of_le hi with rfl | hlt
  · obtain rfl := Option.some.inj (hx.symm.trans hy)
    exact le_refl _
  · exact le_of_lt (key_lt_of_lt hsorted hx hy hlt)

/-- **Binary search of a sorted table** finds a key iff an entry has it, and its index, or its
insertion index, is the number of the entries with smaller keys, which stand before it. -/
theorem binarySearch_eq (hsorted : l.Pairwise fun a b => key a < key b) (d : κ) :
    ((binarySearch key l d).isFound = true ↔ ∃ x ∈ l, key x = d) ∧
      l.take (binarySearch key l d).index = l.filter fun x => decide (key x < d) := by
  have hcorrect : (binarySearch key l d).Correct key l d := by
    refine bisect_correct hsorted (Nat.sub_le _ _) (Nat.zero_le _) (Nat.le_refl _)
      ⟨fun i x hi => absurd hi (Nat.not_lt_zero i), fun i x hi hx => ?_⟩
    exact absurd (List.getElem?_eq_some_iff.mp hx).1 (Nat.not_lt.mpr hi)
  revert hcorrect
  cases binarySearch key l d with
  | found index =>
    rintro ⟨x, hx, rfl⟩
    exact ⟨⟨fun _ => ⟨x, List.mem_of_getElem? hx, rfl⟩, fun _ => rfl⟩,
      take_eq_filter_of_getElem? hsorted hx⟩
  | missing insertion =>
    rintro ⟨-, hbelow, habove⟩
    refine ⟨⟨fun h => absurd h Bool.false_ne_true, ?_⟩,
      take_eq_filter hbelow fun i x hi hx => le_of_lt (habove i x hi hx)⟩
    rintro ⟨x, hx, rfl⟩
    obtain ⟨i, hi⟩ := List.mem_iff_getElem?.mp hx
    rcases Nat.lt_or_ge i insertion with h | h
    · exact absurd (hbelow i x h hi) (lt_irrefl _)
    · exact absurd (habove i x h hi) (lt_irrefl _)

/-! ## Sums before a key -/

variable (key) (weight : α → ℕ)

/-- The sum of the weights of the entries whose keys are smaller. -/
def sumBelow (l : List α) (d : κ) : ℕ :=
  ((l.filter fun x => decide (key x < d)).map weight).sum

/-- The sum over two tables is that of their sums. -/
theorem sumBelow_append (l l' : List α) (d : κ) :
    sumBelow key weight (l ++ l') d = sumBelow key weight l d + sumBelow key weight l' d := by
  rw [sumBelow, List.filter_append, List.map_append, List.sum_append]
  rfl

/-- **The sum does not depend on the order of the entries.** -/
theorem sumBelow_perm {l l' : List α} (h : l.Perm l') (d : κ) :
    sumBelow key weight l d = sumBelow key weight l' d :=
  ((h.filter _).map weight).sum_eq

variable {key weight}

/-- **In a sorted table the sum is that of the entries before the key.** -/
theorem sumBelow_eq_take (hsorted : l.Pairwise fun a b => key a < key b) {k : ℕ} {x : α}
    (hx : l[k]? = some x) : sumBelow key weight l (key x) = ((l.take k).map weight).sum := by
  rw [sumBelow, take_eq_filter_of_getElem? hsorted hx]

/-- The sum of the entries before the index that the search returns. -/
theorem sumBelow_eq_search (hsorted : l.Pairwise fun a b => key a < key b) (d : κ) :
    sumBelow key weight l d = ((l.take (binarySearch key l d).index).map weight).sum := by
  rw [sumBelow, (binarySearch_eq hsorted d).2]

end Bisect

end Search
