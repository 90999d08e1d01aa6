import CriArchive.Lib.Exec

set_option relaxedAutoImplicit false
set_option autoImplicit false

/-!
# Supplies

A loop that takes a new value from a supply for each of its items, and stops when the supply is
exhausted. A supply may be a counter with some state of its own; what counts is the queue of the
values that it still has.

## Main definitions

* `giveEach` — the loop.
* `takeHead` — the supply that is a queue.
* `Supplies` — a supply that gives the values of queues.

## Main results

* `Supplies.giveEach_eq` — the loop only sees the queue.
* `forall₂_of_giveEach`, `map_of_giveEach` — what a loop that returns has made and given.
* `giveEach_eq_exhausted` — when the loop is stopped by the supply.
-/

namespace Supply

variable {ε σ ν ι α : Type}

/-- Take a value from a supply for each item, and make something of both. -/
def giveEach (take : σ → Exec ε (ν × σ)) (f : ν → ι → Exec ε α) : σ → List ι → Exec ε (List α)
  | _, [] => pure []
  | s, x :: xs => do
    let taken ← take s
    let a ← f taken.1 x
    let others ← giveEach take f taken.2 xs
    pure (a :: others)

/-- Take the first value of a queue. -/
def takeHead (exhausted : ε) : List ν → Exec ε (ν × List ν)
  | [] => .err exhausted
  | n :: queue => .ok (n, queue)

/-- A supply gives the values of the queues that its states stand for. -/
structure Supplies (take : σ → Exec ε (ν × σ)) (exhausted : ε) (stands : σ → List ν → Prop) :
    Prop where
  empty : ∀ {s}, stands s [] → take s = .err exhausted
  cons : ∀ {s n queue}, stands s (n :: queue) → ∃ s', take s = .ok (n, s') ∧ stands s' queue

/-- **The loop only sees the queue** that the state of the supply stands for. -/
theorem Supplies.giveEach_eq {take : σ → Exec ε (ν × σ)} {exhausted : ε}
    {stands : σ → List ν → Prop} (h : Supplies take exhausted stands) {f : ν → ι → Exec ε α}
    {s : σ} {queue : List ν} (hs : stands s queue) (xs : List ι) :
    giveEach take f s xs = giveEach (takeHead exhausted) f queue xs := by
  induction xs generalizing s queue with
  | nil => rfl
  | cons x xs ih =>
    cases queue with
    | nil => rw [giveEach, h.empty hs, giveEach, takeHead, Exec.err_bind, Exec.err_bind]
    | cons n queue =>
      obtain ⟨s', htake, hs'⟩ := h.cons hs
      rw [giveEach, htake, giveEach, takeHead, Exec.ok_bind, Exec.ok_bind]
      dsimp only
      rw [ih hs']

section Queue

variable {exhausted : ε} {f : ν → ι → Exec ε α} {queue : List ν} {xs : List ι} {ys : List α}

/-- One round of the loop on a queue. -/
theorem giveEach_cons_eq_ok {x : ι} :
    giveEach (takeHead exhausted) f queue (x :: xs) = .ok ys ↔
      ∃ n rest a others, queue = n :: rest ∧ f n x = .ok a ∧
        giveEach (takeHead exhausted) f rest xs = .ok others ∧ ys = a :: others := by
  cases queue with
  | nil => simp [giveEach, takeHead]
  | cons n rest =>
    simp only [giveEach, takeHead, Exec.ok_bind, Exec.bind_eq_ok, Exec.pure_eq, Exec.ok.injEq,
      List.cons.injEq]
    constructor
    · rintro ⟨a, ha, others, hothers, rfl⟩
      exact ⟨n, rest, a, others, ⟨rfl, rfl⟩, ha, hothers, rfl⟩
    · rintro ⟨_, _, a, others, ⟨rfl, rfl⟩, ha, hothers, rfl⟩
      exact ⟨a, ha, others, hothers, rfl⟩

/-- **What is made of the items**, in their order. -/
theorem forall₂_of_giveEach (h : giveEach (takeHead exhausted) f queue xs = .ok ys) :
    List.Forall₂ (fun x a => ∃ n, f n x = .ok a) xs ys := by
  induction xs generalizing queue ys with
  | nil =>
    obtain rfl := Exec.ok.inj h
    exact .nil
  | cons x xs ih =>
    obtain ⟨n, rest, a, others, rfl, ha, hothers, rfl⟩ := giveEach_cons_eq_ok.mp h
    exact .cons ⟨n, ha⟩ (ih hothers)

/-- **The values that are given** are the first ones of the queue. -/
theorem map_of_giveEach {value : α → ν} (hvalue : ∀ n x a, f n x = .ok a → value a = n)
    (h : giveEach (takeHead exhausted) f queue xs = .ok ys) :
    ys.map value = queue.take xs.length := by
  induction xs generalizing queue ys with
  | nil =>
    obtain rfl := Exec.ok.inj h
    rfl
  | cons x xs ih =>
    obtain ⟨n, rest, a, others, rfl, ha, hothers, rfl⟩ := giveEach_cons_eq_ok.mp h
    rw [List.map_cons, hvalue n x a ha, ih hothers, List.length_cons, List.take_succ_cons]

/-- The loop returns when the queue is long enough and something can be made of each item. -/
theorem exists_giveEach (hok : ∀ n, ∀ x ∈ xs, ∃ a, f n x = .ok a)
    (hlen : xs.length ≤ queue.length) :
    ∃ ys, giveEach (takeHead exhausted) f queue xs = .ok ys := by
  induction xs generalizing queue with
  | nil => exact ⟨[], rfl⟩
  | cons x xs ih =>
    cases queue with
    | nil => cases hlen
    | cons n rest =>
      obtain ⟨a, ha⟩ := hok n x List.mem_cons_self
      obtain ⟨others, hothers⟩ := ih (fun n x hx => hok n x (List.mem_cons_of_mem _ hx))
        (Nat.le_of_succ_le_succ hlen)
      exact ⟨_, giveEach_cons_eq_ok.mpr ⟨n, rest, a, others, rfl, ha, hothers, rfl⟩⟩

/-- **The loop is stopped by the supply** iff there are more items than values, and something can
be made of the items before. The value does not decide whether something can be made of an item. -/
theorem giveEach_eq_exhausted {makes : ι → Prop}
    (hok : ∀ n, ∀ x ∈ xs, makes x → ∃ a, f n x = .ok a)
    (hnot : ∀ n, ∀ x ∈ xs, ¬makes x → ∃ e, f n x = .err e ∧ e ≠ exhausted) :
    giveEach (takeHead exhausted) f queue xs = .err exhausted ↔
      queue.length < xs.length ∧ ∀ x ∈ xs.take queue.length, makes x := by
  induction xs generalizing queue with
  | nil => simp [giveEach]
  | cons x xs ih =>
    cases queue with
    | nil => simp [giveEach, takeHead]
    | cons n rest =>
      have hrest : giveEach (takeHead exhausted) f rest xs = .err exhausted ↔
          rest.length < xs.length ∧ ∀ x ∈ xs.take rest.length, makes x :=
        ih (fun n y hy => hok n y (List.mem_cons_of_mem _ hy))
          fun n y hy => hnot n y (List.mem_cons_of_mem _ hy)
      rw [giveEach, takeHead, Exec.ok_bind, List.length_cons, List.length_cons,
        Nat.add_lt_add_iff_right, List.take_succ_cons, List.forall_mem_cons]
      dsimp only
      by_cases hx : makes x
      · obtain ⟨a, ha⟩ := hok n x List.mem_cons_self hx
        rw [ha, Exec.ok_bind, and_iff_right hx, ← hrest]
        rcases giveEach (takeHead exhausted) f rest xs with others | e | _ <;> simp
      · obtain ⟨e, he, hne⟩ := hnot n x List.mem_cons_self hx
        rw [he, Exec.err_bind]
        simp [hx, hne]

/-- Another error of the loop is one of an item. -/
theorem exists_of_giveEach_eq_err {e : ε} (h : giveEach (takeHead exhausted) f queue xs = .err e)
    (hne : e ≠ exhausted) : ∃ n, ∃ x ∈ xs, f n x = .err e := by
  induction xs generalizing queue with
  | nil => cases h
  | cons x xs ih =>
    cases queue with
    | nil => exact absurd (Exec.err.inj h).symm hne
    | cons n rest =>
      rw [giveEach, takeHead, Exec.ok_bind] at h
      dsimp only at h
      rcases ha : f n x with a | e' | _ <;> rw [ha] at h
      · rcases hothers : giveEach (takeHead exhausted) f rest xs with others | e' | _ <;>
          simp only [hothers, Exec.ok_bind, Exec.err_bind, Exec.fault_bind, Exec.pure_eq] at h
        · cases h
        · obtain rfl := Exec.err.inj h
          obtain ⟨n', y, hy, he⟩ := ih hothers
          exact ⟨n', y, List.mem_cons_of_mem _ hy, he⟩
        · cases h
      · obtain rfl := Exec.err.inj h
        exact ⟨n, x, List.mem_cons_self, ha⟩
      · cases h

end Queue

end Supply
