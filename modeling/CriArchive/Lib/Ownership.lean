import Mathlib.Data.List.Basic
import Mathlib.Tactic.Common

set_option relaxedAutoImplicit false
set_option autoImplicit false

/-!
# Exclusive ownership

A pool of resources of which some are in use, and a list of owners, each of which holds some
resources. The pool is consistent when no resource has two owners and those in use are the ones
that are held.

## Main definitions

* `Ownership.Owned` — a consistent pool.

## Main results

* `Ownership.Owned.add`, `Ownership.Owned.remove` — a new owner of free resources, and an owner
  that gives its resources back.
-/

namespace Ownership

variable {α ι : Type} {owns : α → ι → Prop} {used : ι → Prop} {live : List α}

/-- No resource has two owners, and the resources in use are the owned ones. -/
structure Owned (owns : α → ι → Prop) (used : ι → Prop) (live : List α) : Prop where
  disjoint : live.Pairwise fun a b => ∀ k, owns a k → ¬owns b k
  covers : ∀ k, used k ↔ ∃ a ∈ live, owns a k

/-- A pool without owners has nothing in use. -/
theorem owned_nil : Owned owns used [] ↔ ∀ k, ¬used k := by
  constructor
  · intro h k hk
    obtain ⟨a, ha, -⟩ := (h.covers k).mp hk
    cases ha
  · intro h
    refine ⟨.nil, fun k => iff_of_false (h k) ?_⟩
    rintro ⟨a, ha, -⟩
    cases ha

/-- Only what is in use matters. -/
theorem Owned.congr (h : Owned owns used live) {used' : ι → Prop} (hsame : ∀ k, used' k ↔ used k) :
    Owned owns used' live :=
  ⟨h.disjoint, fun k => (hsame k).trans (h.covers k)⟩

/-- **A new owner** of resources that were free. -/
theorem Owned.add (h : Owned owns used live) {a : α} (hfree : ∀ k, owns a k → ¬used k) :
    Owned owns (fun k => used k ∨ owns a k) (live ++ [a]) := by
  constructor
  · refine List.pairwise_append.mpr ⟨h.disjoint, List.pairwise_singleton _ _, ?_⟩
    intro b hb c hc k hbk hck
    rw [List.mem_singleton] at hc
    subst hc
    exact hfree k hck ((h.covers k).mpr ⟨b, hb, hbk⟩)
  · intro k
    simp only [List.mem_append, List.mem_singleton, h.covers k]
    constructor
    · rintro (⟨b, hb, hbk⟩ | hak)
      · exact ⟨b, Or.inl hb, hbk⟩
      · exact ⟨a, Or.inr rfl, hak⟩
    · rintro ⟨b, hb | rfl, hbk⟩
      · exact Or.inl ⟨b, hb, hbk⟩
      · exact Or.inr hbk

/-- **An owner that gives its resources back** takes none of the others with it. -/
theorem Owned.remove (h : Owned owns used live) {i : ℕ} {a : α} (ha : live[i]? = some a) :
    Owned owns (fun k => used k ∧ ¬owns a k) (live.eraseIdx i) := by
  obtain ⟨hi, hget⟩ := List.getElem?_eq_some_iff.mp ha
  have hlive : live = live.take i ++ a :: live.drop (i + 1) := by
    rw [← hget, ← List.drop_eq_getElem_cons hi, List.take_append_drop]
  have hpair := h.disjoint
  rw [hlive, List.pairwise_append, List.pairwise_cons] at hpair
  obtain ⟨hbefore, ⟨hfirst, hafter⟩, hacross⟩ := hpair
  rw [List.eraseIdx_eq_take_drop_succ]
  constructor
  · refine List.pairwise_append.mpr ⟨hbefore, hafter, fun b hb c hc => ?_⟩
    exact hacross b hb c (List.mem_cons_of_mem _ hc)
  · intro k
    rw [h.covers k]
    constructor
    · rintro ⟨⟨b, hb, hbk⟩, hak⟩
      rw [hlive, List.mem_append, List.mem_cons] at hb
      rcases hb with hb | rfl | hb
      · exact ⟨b, List.mem_append_left _ hb, hbk⟩
      · exact absurd hbk hak
      · exact ⟨b, List.mem_append_right _ hb, hbk⟩
    · rintro ⟨b, hb, hbk⟩
      rcases List.mem_append.mp hb with hb | hb
      · exact ⟨⟨b, List.mem_of_mem_take hb, hbk⟩, hacross b hb a (List.mem_cons_self ..) k hbk⟩
      · exact ⟨⟨b, List.mem_of_mem_drop hb, hbk⟩, fun hak => hfirst b hb k hak hbk⟩

end Ownership
