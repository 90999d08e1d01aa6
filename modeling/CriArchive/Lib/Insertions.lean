import Mathlib.Data.List.Basic
import Mathlib.Tactic.Common

set_option relaxedAutoImplicit false
set_option autoImplicit false

/-!
# Maps from insertions

A map that a loop fills by inserting what each element of a list gives is the list of the insertions,
the last one first, so that a lookup finds the last insertion with a key.

## Main definitions

* `Insertions.ofList` — the map filled from a list.

## Main results

* `Insertions.lookup_ofList`, `lookup_ofList_getElem?` — a lookup finds what the last element with
  the key gives.
* `Insertions.lookup_of_unique` — when all elements with a key agree, a lookup finds what they give.
-/

namespace Insertions

variable {α κ ν : Type} [BEq κ] [LawfulBEq κ] {f : α → Option (κ × ν)} {xs : List α} {k : κ} {v : ν}

/-- The map filled by inserting what each element gives, in order. -/
def ofList (f : α → Option (κ × ν)) (xs : List α) : List (κ × ν) := (xs.filterMap f).reverse

/-- **What a lookup finds**: what the last element with the key gives. -/
theorem lookup_ofList : (ofList f xs).lookup k = some v ↔
    ∃ before x after, xs = before ++ x :: after ∧ f x = some (k, v) ∧
      ∀ y ∈ after, ∀ w, f y ≠ some (k, w) := by
  rw [List.lookup_eq_some_iff]
  constructor
  · rintro ⟨l₁, l₂, hsplit, hnone⟩
    rw [ofList, List.reverse_eq_iff, List.reverse_append, List.reverse_cons, List.append_assoc,
      List.singleton_append, List.filterMap_eq_append_iff] at hsplit
    obtain ⟨before, rest, rfl, -, hrest⟩ := hsplit
    obtain ⟨skipped, x, after, rfl, -, hx, hafter⟩ := List.filterMap_eq_cons_iff.mp hrest
    refine ⟨before ++ skipped, x, after, by simp, hx, fun y hy w hw => ?_⟩
    have hmem : (k, w) ∈ l₁.reverse := hafter ▸ List.mem_filterMap.mpr ⟨y, hy, hw⟩
    simpa using hnone _ (List.mem_reverse.mp hmem)
  · rintro ⟨before, x, after, rfl, hx, hafter⟩
    refine ⟨ofList f after, ofList f before, by simp [ofList, hx], fun p hp => ?_⟩
    obtain ⟨y, hy, hyp⟩ := List.mem_filterMap.mp (List.mem_reverse.mp hp)
    rw [bne_iff_ne]
    rintro rfl
    exact hafter y hy p.2 hyp

/-- The same by the positions of the elements. -/
theorem lookup_ofList_getElem? : (ofList f xs).lookup k = some v ↔
    ∃ (i : ℕ) (x : α), xs[i]? = some x ∧ f x = some (k, v) ∧
      ∀ (j : ℕ) (y : α) (w : ν), i < j → xs[j]? = some y → f y ≠ some (k, w) := by
  rw [lookup_ofList]
  constructor
  · rintro ⟨before, x, after, rfl, hx, hafter⟩
    refine ⟨before.length, x, by simp, hx, fun j y w hj hy => hafter y ?_ w⟩
    obtain ⟨d, rfl⟩ := Nat.exists_eq_add_of_lt hj
    rw [List.getElem?_append_right (by omega), Nat.add_assoc, Nat.add_sub_cancel_left,
      List.getElem?_cons_succ] at hy
    exact List.mem_of_getElem? hy
  · rintro ⟨i, x, hi, hx, hafter⟩
    obtain ⟨hlt, rfl⟩ := List.getElem?_eq_some_iff.mp hi
    refine ⟨xs.take i, xs[i], xs.drop (i + 1), ?_, hx, fun y hy w => ?_⟩
    · rw [← List.drop_eq_getElem_cons hlt, List.take_append_drop]
    · obtain ⟨d, hd⟩ := List.getElem?_of_mem hy
      rw [List.getElem?_drop] at hd
      exact hafter _ y w (by omega) hd

/-- A key that some element has is found. -/
theorem lookup_isSome {x : α} (hx : x ∈ xs) (hk : f x = some (k, v)) :
    ∃ w, (ofList f xs).lookup k = some w := by
  by_contra hnone
  have hlookup : (ofList f xs).lookup k = none := by
    rcases h : (ofList f xs).lookup k with _ | w
    · rfl
    · exact absurd ⟨w, h⟩ hnone
  rw [List.lookup_eq_none_iff] at hlookup
  have hmem : (k, v) ∈ ofList f xs := List.mem_reverse.mpr (List.mem_filterMap.mpr ⟨x, hx, hk⟩)
  simpa using hlookup _ hmem

/-- When all elements with a key agree, a lookup finds what they give. -/
theorem lookup_of_unique
    (hunique : ∀ x ∈ xs, ∀ y ∈ xs, ∀ v w, f x = some (k, v) → f y = some (k, w) → v = w) :
    (ofList f xs).lookup k = some v ↔ ∃ x ∈ xs, f x = some (k, v) := by
  constructor
  · intro h
    obtain ⟨before, x, after, rfl, hx, -⟩ := lookup_ofList.mp h
    exact ⟨x, by simp, hx⟩
  · rintro ⟨x, hx, hv⟩
    obtain ⟨w, hw⟩ := lookup_isSome hx hv
    obtain ⟨before, y, after, rfl, hy, -⟩ := lookup_ofList.mp hw
    rw [hw, hunique x hx y (by simp) v w hv hy]

end Insertions
