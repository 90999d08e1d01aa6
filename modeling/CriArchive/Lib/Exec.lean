import Mathlib.Data.List.Basic
import Mathlib.Tactic.Common
import Mathlib.Algebra.Order.Ring.Nat

set_option relaxedAutoImplicit false
set_option autoImplicit false

/-!
# Computations that return, fail or fault

A call of a systems language ends in one of three ways: it returns a value, it returns an
error to its caller, or it does not return (a panic, an arithmetic overflow under checked
arithmetic, an access outside the memory it owns). `Exec` has one constructor for each, and
`ExecM` adds a state that survives all three.

## Main definitions

* `Exec` — the three outcomes, with their monad; `Exec.slice`, `Exec.index`, `Exec.store` are the
  partial operations that fault.
* `ExecM` — the state-passing version; the state is kept on errors and faults as well.
* `Exec.Ends`, `ExecM.Ends` — "no fault, and a returned value or error satisfies its
  postcondition"; `Exec.Safe`, `ExecM.Safe` — the same with no postcondition for errors.
* `Exec.Returns` — "a value that satisfies its postcondition is returned".

## Main results

* `Exec.bind_eq_ok` — inversion of a sequence that returned.
* `ExecM.bind_fst_eq_fault`, `ExecM.NeverFaults` — where a sequence faults.
* `Exec.Ends.bind`, `Exec.Safe.bind`, `Exec.Returns.bind`, `ExecM.Ends.bind`, `ExecM.Safe.bind` —
  the sequencing rules of the judgements.
-/

/-- The outcome of a call: a value, an error returned to the caller, or a fault. -/
inductive Exec (ε α : Type) where
  | ok (a : α)
  | err (e : ε)
  | fault
  deriving DecidableEq, Repr

namespace Exec

variable {ε α β γ : Type}

/-- Run `f` on the value of `x`, passing errors and faults through. -/
protected def bind (x : Exec ε α) (f : α → Exec ε β) : Exec ε β :=
  match x with
  | ok a => f a
  | err e => err e
  | fault => fault

/-- A computation goes on with the value of the one before it, and stops at an error or a fault. -/
instance : Monad (Exec ε) where
  pure := ok
  bind := Exec.bind

/-- A pure value is a value that is returned. -/
@[simp] theorem pure_eq (a : α) : (pure a : Exec ε α) = ok a := rfl

/-- After a value, the continuation runs on it. -/
@[simp] theorem ok_bind (a : α) (f : α → Exec ε β) : (ok a >>= f) = f a := rfl

/-- After an error, nothing runs. -/
@[simp] theorem err_bind (e : ε) (f : α → Exec ε β) : ((err e : Exec ε α) >>= f) = err e := rfl

/-- After a fault, nothing runs. -/
@[simp] theorem fault_bind (f : α → Exec ε β) : ((fault : Exec ε α) >>= f) = fault := rfl

/-- A sequence returned `b` iff its first part returned some `a` and the rest returned `b`. -/
theorem bind_eq_ok {x : Exec ε α} {f : α → Exec ε β} {b : β} :
    (x >>= f) = ok b ↔ ∃ a, x = ok a ∧ f a = ok b := by
  cases x <;> simp

/-- A sequence faults iff its first part does, or the rest after it. -/
theorem bind_eq_fault {x : Exec ε α} {f : α → Exec ε β} :
    (x >>= f) = fault ↔ x = fault ∨ ∃ a, x = ok a ∧ f a = fault := by
  cases x <;> simp

/-- A sequence does not fault iff its first part does not, nor the rest after it. -/
theorem bind_ne_fault {x : Exec ε α} {f : α → Exec ε β} :
    (x >>= f) ≠ fault ↔ x ≠ fault ∧ ∀ a, x = ok a → f a ≠ fault := by
  cases x <;> simp

/-- Mapping the value adds no fault. -/
theorem map_eq_fault {f : α → β} {x : Exec ε α} : f <$> x = fault ↔ x = fault := by
  cases x <;> simp [Functor.map, Exec.bind]

/-- The value of a computation that returned. -/
def value? : Exec ε α → Option α
  | ok a => some a
  | _ => none

/-- A value is there iff the computation returned it. -/
theorem value?_eq_some {x : Exec ε α} {a : α} : x.value? = some a ↔ x = ok a := by
  cases x <;> simp [value?]

/-- Whether a computation returns a value with a property can be evaluated. -/
instance decidableExistsOk (x : Exec ε α) (p : α → Prop) [DecidablePred p] :
    Decidable (∃ a, x = ok a ∧ p a) :=
  decidable_of_iff (x.value?.any fun a => decide (p a)) <| by
    cases x <;> simp [value?]

/-! ### Lists -/

/-- The laws of a monad hold of `Exec`. -/
instance : LawfulMonad (Exec ε) :=
  LawfulMonad.mk' _ (fun x => by cases x <;> rfl) (fun _ _ => rfl) fun x _ _ => by cases x <;> rfl

/-- A call for each element returned iff each call did. -/
theorem mapM_eq_ok {f : α → Exec ε β} {xs : List α} {ys : List β} :
    xs.mapM f = .ok ys ↔ List.Forall₂ (fun x y => f x = .ok y) xs ys := by
  induction xs generalizing ys with
  | nil =>
    rw [List.mapM_nil, pure_eq, ok.injEq]
    constructor
    · rintro rfl
      exact .nil
    · rintro ⟨⟩
      rfl
  | cons x xs ih =>
    simp only [List.mapM_cons, bind_eq_ok, pure_eq, ok.injEq, ih]
    constructor
    · rintro ⟨y, hy, zs, hzs, rfl⟩
      exact .cons hy hzs
    · rintro (_ | ⟨hy, hzs⟩)
      exact ⟨_, hy, _, hzs, rfl⟩

/-- Calls that all return keep what they return. -/
theorem filterMapM_of_ok {f : α → Exec ε (Option β)} {g : α → Option β} {xs : List α}
    (h : ∀ x ∈ xs, f x = .ok (g x)) : xs.filterMapM f = .ok (xs.filterMap g) := by
  induction xs with
  | nil => rfl
  | cons x xs ih =>
    rw [List.filterMapM_cons, h x List.mem_cons_self, ok_bind,
      ih fun y hy => h y (List.mem_cons_of_mem _ hy)]
    rcases hg : g x with _ | b
    · rw [List.filterMap_cons_none hg]
    · rw [List.filterMap_cons_some hg]
      rfl

/-- Each call returned when all did. -/
theorem exists_of_filterMapM {f : α → Exec ε (Option β)} {xs : List α} {ys : List β}
    (h : xs.filterMapM f = .ok ys) : ∀ x ∈ xs, ∃ r, f x = .ok r := by
  induction xs generalizing ys with
  | nil => simp
  | cons x xs ih =>
    rw [List.filterMapM_cons] at h
    obtain ⟨r, hr, hrest⟩ := bind_eq_ok.mp h
    have htail : ∃ zs, xs.filterMapM f = .ok zs := by
      rcases r with _ | b
      · exact ⟨ys, hrest⟩
      · obtain ⟨zs, hzs, -⟩ := bind_eq_ok.mp hrest
        exact ⟨zs, hzs⟩
    obtain ⟨zs, hzs⟩ := htail
    exact List.forall_mem_cons.mpr ⟨⟨r, hr⟩, ih hzs⟩

/-- Turn a missing value into the error `e` (`ok_or`). -/
def okOr (x : Option α) (e : ε) : Exec ε α :=
  match x with
  | some a => ok a
  | none => err e

/-- A value that is there is returned. -/
@[simp] theorem okOr_some (a : α) (e : ε) : okOr (some a) e = ok a := rfl

/-- A value that is not there is the error. -/
@[simp] theorem okOr_none (e : ε) : okOr (none : Option α) e = err e := rfl

/-- A present value is what `okOr` returned. -/
theorem okOr_eq_ok {x : Option α} {e : ε} {a : α} : okOr x e = ok a ↔ x = some a := by
  cases x <;> simp [okOr]

/-- Return the error `e` early when `c` holds. -/
def errIf (c : Prop) [Decidable c] (e : ε) : Exec ε Unit :=
  if c then err e else ok ()

/-- An early return was not taken iff its condition fails. -/
theorem errIf_eq_ok {c : Prop} [Decidable c] {e : ε} {u : Unit} : errIf c e = ok u ↔ ¬c := by
  unfold errIf
  split_ifs with h <;> simp [h]

/-- A check whose condition does not hold passes. -/
@[simp] theorem errIf_of_not {c : Prop} [Decidable c] (h : ¬c) (e : ε) : errIf c e = ok () :=
  errIf_eq_ok.mpr h

/-- Change the error of a computation. -/
def mapErr {δ : Type} (f : ε → δ) : Exec ε α → Exec δ α
  | ok a => ok a
  | err e => err (f e)
  | fault => fault

/-- Mapping the error leaves a value as it is. -/
@[simp] theorem mapErr_ok {δ : Type} (f : ε → δ) (a : α) : mapErr f (ok a) = ok a := rfl

/-- A changed error does not change what is returned. -/
theorem mapErr_eq_ok {δ : Type} {f : ε → δ} {x : Exec ε α} {a : α} :
    mapErr f x = ok a ↔ x = ok a := by
  cases x <;> simp [mapErr]

/-! ## Partial operations -/

/-- The subslice `xs[lo..hi]`; a range that is reversed or runs past the end faults. -/
def slice (xs : List α) (lo hi : ℕ) : Exec ε (List α) :=
  if lo ≤ hi ∧ hi ≤ xs.length then ok ((xs.drop lo).take (hi - lo)) else fault

/-- The element `xs[i]`; an index past the end faults. -/
def index (xs : List α) (i : ℕ) : Exec ε α :=
  match xs[i]? with
  | some a => ok a
  | none => fault

/-- The element store `xs[i] = a`; an index past the end faults. -/
def store (xs : List α) (i : ℕ) (a : α) : Exec ε (List α) :=
  if i < xs.length then ok (xs.set i a) else fault

/-- The value of a partial operation; there being none is a fault. -/
def orFault (x : Option α) : Exec ε α :=
  match x with
  | some a => ok a
  | none => fault

/-- A slice within the bounds is returned. -/
theorem slice_eq {xs : List α} {lo hi : ℕ} (h₁ : lo ≤ hi) (h₂ : hi ≤ xs.length) :
    (slice xs lo hi : Exec ε (List α)) = ok ((xs.drop lo).take (hi - lo)) :=
  if_pos ⟨h₁, h₂⟩

/-- A subslice that was taken was in bounds. -/
theorem slice_eq_ok {xs ys : List α} {lo hi : ℕ} : (slice xs lo hi : Exec ε (List α)) = ok ys ↔
    (lo ≤ hi ∧ hi ≤ xs.length) ∧ (xs.drop lo).take (hi - lo) = ys := by
  unfold slice
  split_ifs with h <;> simp [h]

/-- A subslice faults iff it is out of bounds. -/
theorem slice_eq_fault {xs : List α} {lo hi : ℕ} :
    (slice xs lo hi : Exec ε (List α)) = fault ↔ ¬(lo ≤ hi ∧ hi ≤ xs.length) := by
  unfold slice
  split_ifs with h <;> simp [h]

/-- An element within the bounds is returned. -/
theorem index_eq {xs : List α} {i : ℕ} (h : i < xs.length) :
    (index xs i : Exec ε α) = ok xs[i] := by
  simp [index, h]

/-- An indexing returns the element that is there. -/
theorem index_eq_ok {xs : List α} {i : ℕ} {a : α} :
    (index xs i : Exec ε α) = ok a ↔ xs[i]? = some a := by
  unfold index
  cases xs[i]? <;> simp

/-- An indexing faults iff there is no element. -/
theorem index_eq_fault {xs : List α} {i : ℕ} :
    (index xs i : Exec ε α) = fault ↔ xs.length ≤ i := by
  rw [← List.getElem?_eq_none_iff, index]
  cases xs[i]? <;> simp

/-- A store within the bounds succeeds. -/
theorem store_eq {xs : List α} {i : ℕ} (h : i < xs.length) (a : α) :
    (store xs i a : Exec ε (List α)) = ok (xs.set i a) :=
  if_pos h

/-- A value that is there is returned. -/
@[simp] theorem orFault_some (a : α) : (orFault (some a) : Exec ε α) = ok a := rfl

/-- A value that is not there is a fault. -/
@[simp] theorem orFault_none : (orFault none : Exec ε α) = fault := rfl

/-! ## How computations end -/

/-- `x` does not fault, a value it returns satisfies `Q`, and an error it returns `R`. -/
def Ends (x : Exec ε α) (Q : α → Prop) (R : ε → Prop) : Prop :=
  match x with
  | ok a => Q a
  | err e => R e
  | fault => False

/-- A returned value satisfies the postcondition. -/
theorem Ends.of_ok {x : Exec ε α} {Q : α → Prop} {R : ε → Prop} (h : Ends x Q R) {a : α}
    (hx : x = ok a) : Q a := by
  subst hx
  exact h

/-- A returned error satisfies its postcondition. -/
theorem Ends.of_err {x : Exec ε α} {Q : α → Prop} {R : ε → Prop} (h : Ends x Q R) {e : ε}
    (hx : x = err e) : R e := by
  subst hx
  exact h

/-- The postcondition of a returned value may be weakened. -/
theorem Ends.mono {x : Exec ε α} {Q Q' : α → Prop} {R : ε → Prop} (h : Ends x Q R)
    (hQ : ∀ a, Q a → Q' a) : Ends x Q' R := by
  cases x
  · exact hQ _ h
  · exact h
  · exact h

/-- The postcondition of a returned error may be weakened. -/
theorem Ends.mono_err {x : Exec ε α} {Q : α → Prop} {R R' : ε → Prop} (h : Ends x Q R)
    (hR : ∀ e, R e → R' e) : Ends x Q R' := by
  cases x
  · exact h
  · exact hR _ h
  · exact h

/-- What is known of a returned value may be used for its postcondition. -/
theorem Ends.with_ok {x : Exec ε α} {Q : α → Prop} {R : ε → Prop} (h : Ends x Q R) :
    Ends x (fun a => x = ok a ∧ Q a) R := by
  cases x
  · exact ⟨rfl, h⟩
  · exact h
  · exact h

/-- The sequencing rule. -/
theorem Ends.bind {x : Exec ε α} {f : α → Exec ε β} {Q : α → Prop} {Q' : β → Prop}
    {R : ε → Prop} (hx : Ends x Q R) (hf : ∀ a, Q a → Ends (f a) Q' R) :
    Ends (x >>= f) Q' R := by
  cases x
  · exact hf _ hx
  · exact hx
  · exact hx

/-- Reading an optional value ends with the value or the error. -/
theorem ends_okOr {x : Option α} {e : ε} {R : ε → Prop} (he : R e) :
    Ends (okOr x e) (x = some ·) R := by
  cases x
  · exact he
  · rfl

/-- After an early return that was not taken its condition is false. -/
theorem ends_errIf {c : Prop} [Decidable c] {e : ε} {R : ε → Prop} (he : c → R e) :
    Ends (errIf c e) (fun _ => ¬c) R := by
  unfold errIf
  split_ifs with h
  · exact he h
  · exact h

/-- A call for each element ends as each call does. -/
theorem ends_mapM {f : α → Exec ε β} {xs : List α} {Q : α → β → Prop} {R : ε → Prop}
    (h : ∀ x ∈ xs, (f x).Ends (Q x) R) : (xs.mapM f).Ends (List.Forall₂ Q xs) R := by
  induction xs with
  | nil => exact .nil
  | cons x xs ih =>
    obtain ⟨hx, hxs⟩ := List.forall_mem_cons.mp h
    rw [List.mapM_cons]
    exact hx.bind fun y hy => (ih hxs).bind fun ys hys => .cons hy hys

/-- `x` does not fault, and a value it returns satisfies `Q`. -/
def Safe (x : Exec ε α) (Q : α → Prop) : Prop := Ends x Q fun _ => True

/-- A value is safe iff it has the property. -/
@[simp] theorem safe_ok {a : α} {Q : α → Prop} : Safe (ok a : Exec ε α) Q ↔ Q a := Iff.rfl

/-- An error is always safe. -/
@[simp] theorem safe_err {e : ε} {Q : α → Prop} : Safe (err e) Q ↔ True := Iff.rfl

/-- A fault never is. -/
@[simp] theorem safe_fault {Q : α → Prop} : Safe (fault : Exec ε α) Q ↔ False := Iff.rfl

/-- A safe computation does not fault. -/
theorem Safe.ne_fault {x : Exec ε α} {Q : α → Prop} (h : Safe x Q) : x ≠ fault := by
  rintro rfl
  exact h

/-- The postcondition may be weakened. -/
theorem Safe.mono {x : Exec ε α} {Q R : α → Prop} (h : Safe x Q) (hQR : ∀ a, Q a → R a) :
    Safe x R := Ends.mono h hQR

/-- The sequencing rule. -/
theorem Safe.bind {x : Exec ε α} {f : α → Exec ε β} {Q : α → Prop} {R : β → Prop}
    (hx : Safe x Q) (hf : ∀ a, Q a → Safe (f a) R) : Safe (x >>= f) R := Ends.bind hx hf

/-- Reading an optional value is safe, and the value read was present. -/
theorem safe_okOr (x : Option α) (e : ε) : Safe (okOr x e) (x = some ·) := ends_okOr trivial

/-- After an early return that was not taken its condition is false. -/
theorem safe_errIf (c : Prop) [Decidable c] (e : ε) : Safe (errIf c e) fun _ => ¬c :=
  ends_errIf fun _ => trivial

/-- A subslice within bounds is safe and has the length asked for. -/
theorem safe_slice {xs : List α} {lo hi : ℕ} (h₁ : lo ≤ hi) (h₂ : hi ≤ xs.length) :
    Safe (slice xs lo hi : Exec ε (List α))
      fun ys => ys = (xs.drop lo).take (hi - lo) ∧ ys.length = hi - lo := by
  rw [slice_eq h₁ h₂]
  simp only [safe_ok, true_and, List.length_take, List.length_drop]
  omega

/-- An index within bounds is safe and returns the element there. -/
theorem safe_index {xs : List α} {i : ℕ} (h : i < xs.length) :
    Safe (index xs i : Exec ε α) (· = xs[i]) := by
  rw [index_eq h]
  rfl

/-- `x` returns a value that satisfies `Q`. -/
def Returns (x : Exec ε α) (Q : α → Prop) : Prop := ∃ a, x = ok a ∧ Q a

/-- A computation that returns at all ends as it was shown to end. -/
theorem Ends.returns {x : Exec ε α} {Q : α → Prop} {R : ε → Prop} (h : Ends x Q R)
    (hx : ∃ a, x = ok a) : Returns x Q := by
  obtain ⟨a, hx⟩ := hx
  exact ⟨a, hx, h.of_ok hx⟩

/-- The sequencing rule. -/
theorem Returns.bind {x : Exec ε α} {f : α → Exec ε β} {Q : α → Prop} {R : β → Prop}
    (hx : Returns x Q) (hf : ∀ a, Q a → Returns (f a) R) : Returns (x >>= f) R := by
  obtain ⟨a, rfl, ha⟩ := hx
  exact hf a ha

/-- A value that is present is read. -/
theorem returns_okOr {x : Option α} {a : α} (h : x = some a) (e : ε) :
    Returns (okOr x e) (· = a) := by
  subst h
  exact ⟨a, rfl, rfl⟩

/-- An early return whose condition is false is not taken. -/
theorem returns_errIf {c : Prop} [Decidable c] (h : ¬c) (e : ε) :
    Returns (errIf c e) fun _ => True :=
  ⟨(), errIf_of_not h e, trivial⟩

end Exec

/-! ## State -/

/-- A computation on a state that is kept whichever way the computation ends. -/
def ExecM (σ ε α : Type) : Type := σ → Exec ε α × σ

namespace ExecM

variable {σ τ ε α β : Type}

/-- Run `f` on the value and state of `x`, passing errors and faults through. -/
protected def bind (x : ExecM σ ε α) (f : α → ExecM σ ε β) : ExecM σ ε β := fun s =>
  match x s with
  | (.ok a, s') => f a s'
  | (.err e, s') => (.err e, s')
  | (.fault, s') => (.fault, s')

/-- A stateful computation goes on in the state that the one before it has left. -/
instance : Monad (ExecM σ ε) where
  pure a := fun s => (.ok a, s)
  bind := ExecM.bind

/-- A computation that does not touch the state. -/
def lift (x : Exec ε α) : ExecM σ ε α := fun s => (x, s)

/-- Return the error `e`. -/
def raise (e : ε) : ExecM σ ε α := lift (.err e)

/-- The current state. -/
def get : ExecM σ ε σ := fun s => (.ok s, s)

/-- Replace the state. -/
def set (s : σ) : ExecM σ ε Unit := fun _ => (.ok (), s)

/-- Run a computation on a part of the state, given how to read and how to replace it. -/
def zoom (rd : τ → σ) (wr : τ → σ → τ) (x : ExecM σ ε α) : ExecM τ ε α := fun t =>
  let r := x (rd t)
  (r.1, wr t r.2)

/-- The value and the final state of a computation that returns. -/
def runOn (x : ExecM σ ε α) (s : σ) : Exec ε (α × σ) :=
  match x s with
  | (.ok a, s') => .ok (a, s')
  | (.err e, _) => .err e
  | (.fault, _) => .fault

/-- What a run gives from its result and its state. -/
theorem runOn_of_ok {x : ExecM σ ε α} {s s' : σ} {a : α} (h : x s = (.ok a, s')) :
    x.runOn s = .ok (a, s') := by
  simp [runOn, h]

/-- A run returns a value and a state iff the computation ends with them. -/
theorem runOn_eq_ok {x : ExecM σ ε α} {s : σ} {r : α × σ} :
    x.runOn s = .ok r ↔ x s = (.ok r.1, r.2) := by
  rcases h : x s with ⟨_ | _ | _, t⟩ <;> simp [runOn, h, Prod.ext_iff]

/-- A computation whose outcome is a value leaves some state. -/
theorem exists_of_fst {x : ExecM σ ε α} {s : σ} {a : α} (h : (x s).1 = .ok a) :
    ∃ t, x s = (.ok a, t) :=
  ⟨(x s).2, Prod.ext h rfl⟩

/-- A pure value leaves the state as it is. -/
@[simp] theorem pure_apply (a : α) (s : σ) : (pure a : ExecM σ ε α) s = (.ok a, s) := rfl

/-- A result that needs no state leaves it as it is. -/
@[simp] theorem lift_apply (x : Exec ε α) (s : σ) : (lift x : ExecM σ ε α) s = (x, s) := rfl

/-- An error leaves the state as it is. -/
@[simp] theorem raise_apply (e : ε) (s : σ) : (raise e : ExecM σ ε α) s = (.err e, s) := rfl

/-- Reading the state returns it. -/
@[simp] theorem get_apply (s : σ) : (get : ExecM σ ε σ) s = (.ok s, s) := rfl

/-- Setting the state replaces it. -/
@[simp] theorem set_apply (s t : σ) : (set s : ExecM σ ε Unit) t = (.ok (), s) := rfl

/-- A computation on a part of the state changes that part only. -/
@[simp] theorem zoom_apply (rd : τ → σ) (wr : τ → σ → τ) (x : ExecM σ ε α) (t : τ) :
    zoom rd wr x t = ((x (rd t)).1, wr t (x (rd t)).2) := rfl

/-- A computation on a part of the state that returned. -/
theorem zoom_of_ok {rd : τ → σ} {wr : τ → σ → τ} {x : ExecM σ ε α} {t : τ} {s' : σ} {a : α}
    (h : x (rd t) = (.ok a, s')) : zoom rd wr x t = (.ok a, wr t s') := by
  rw [zoom_apply, h]

/-- A sequence whose first part returned continues with the rest. -/
theorem bind_of_ok {x : ExecM σ ε α} {s s' : σ} {a : α} (h : x s = (.ok a, s'))
    (f : α → ExecM σ ε β) : (x >>= f) s = f a s' := by
  change ExecM.bind x f s = _
  simp only [ExecM.bind, h]

/-- A pure step that returned continues with the rest. -/
theorem lift_bind_of_ok {x : Exec ε α} {a : α} (h : x = .ok a) {f : α → ExecM σ ε β} {s : σ} :
    (lift x >>= f) s = f a s := bind_of_ok (by rw [lift_apply, h]) f

/-- A sequence whose first part returned an error returns that error. -/
theorem bind_of_err {x : ExecM σ ε α} {s s' : σ} {e : ε} (h : x s = (.err e, s'))
    (f : α → ExecM σ ε β) : (x >>= f) s = (.err e, s') := by
  change ExecM.bind x f s = _
  simp only [ExecM.bind, h]

/-- A sequence whose first part faulted faults. -/
theorem bind_of_fault {x : ExecM σ ε α} {s s' : σ} (h : x s = (.fault, s'))
    (f : α → ExecM σ ε β) : (x >>= f) s = (.fault, s') := by
  change ExecM.bind x f s = _
  simp only [ExecM.bind, h]

/-- Sequences that begin alike, and go on alike with what was returned, are alike. -/
theorem bind_congr {x y : ExecM σ ε α} {f g : α → ExecM σ ε β} {s : σ} (hx : x s = y s)
    (h : ∀ a t, y s = (.ok a, t) → f a t = g a t) : (x >>= f) s = (y >>= g) s := by
  rcases hy : y s with ⟨a | e | _, t⟩
  · rw [bind_of_ok (hx.trans hy), bind_of_ok hy, h a t hy]
  · rw [bind_of_err (hx.trans hy), bind_of_err hy]
  · rw [bind_of_fault (hx.trans hy), bind_of_fault hy]

/-- After a pure value, the continuation runs on it. -/
@[simp] theorem pure_bind (a : α) (f : α → ExecM σ ε β) : (pure a >>= f) = f a := rfl

/-- Sequencing is associative. -/
theorem bind_assoc {γ : Type} (x : ExecM σ ε α) (f : α → ExecM σ ε β) (g : β → ExecM σ ε γ) :
    (x >>= f >>= g) = (x >>= fun a => f a >>= g) := by
  funext s
  rcases h : x s with ⟨_ | _ | _, s'⟩
  · rw [bind_of_ok h]
    rcases hf : f _ s' with ⟨_ | _ | _, t⟩
    · rw [bind_of_ok ((bind_of_ok h f).trans hf), bind_of_ok hf]
    · rw [bind_of_err ((bind_of_ok h f).trans hf), bind_of_err hf]
    · rw [bind_of_fault ((bind_of_ok h f).trans hf), bind_of_fault hf]
  · rw [bind_of_err (bind_of_err h f), bind_of_err h]
  · rw [bind_of_fault (bind_of_fault h f), bind_of_fault h]

/-- A sequence returned iff both its parts did, the second from the state of the first. -/
theorem bind_eq_ok {x : ExecM σ ε α} {f : α → ExecM σ ε β} {s t : σ} {b : β} :
    (x >>= f) s = (.ok b, t) ↔ ∃ a s', x s = (.ok a, s') ∧ f a s' = (.ok b, t) := by
  rcases h : x s with ⟨_ | _ | _, s'⟩
  · rw [bind_of_ok h]; simp
  · rw [bind_of_err h]; simp
  · rw [bind_of_fault h]; simp

/-- A sequence returned iff both its parts did, whatever state it left. -/
theorem bind_fst_eq_ok {x : ExecM σ ε α} {f : α → ExecM σ ε β} {s : σ} {b : β} :
    ((x >>= f) s).1 = .ok b ↔ ∃ a t, x s = (.ok a, t) ∧ (f a t).1 = .ok b := by
  constructor
  · intro h
    obtain ⟨t, ht⟩ := exists_of_fst h
    obtain ⟨a, s', hx, hf⟩ := bind_eq_ok.mp ht
    exact ⟨a, s', hx, congrArg Prod.fst hf⟩
  · rintro ⟨a, t, hx, hf⟩
    rw [bind_of_ok hx, hf]

/-- Lifted steps in sequence are the lifted sequence. -/
theorem lift_bind_lift (x : Exec ε α) (f : α → Exec ε β) :
    (lift x >>= fun a => lift (f a) : ExecM σ ε β) = lift (x >>= f) := by
  funext s
  cases x <;> rfl

/-- After a lifted step a sequence returned iff the step and the rest did. -/
theorem lift_bind_fst_eq_ok {x : Exec ε α} {f : α → ExecM σ ε β} {s : σ} {b : β} :
    ((lift x >>= f) s).1 = .ok b ↔ ∃ a, x = .ok a ∧ (f a s).1 = .ok b := by
  simp only [bind_fst_eq_ok, lift_apply, Prod.mk.injEq]
  constructor
  · rintro ⟨a, _, ⟨hx, rfl⟩, hf⟩
    exact ⟨a, hx, hf⟩
  · rintro ⟨a, hx, hf⟩
    exact ⟨a, s, ⟨hx, rfl⟩, hf⟩

/-- After a check a sequence returned iff the check did not fail and the rest returned. -/
theorem errIf_bind_fst_eq_ok {c : Prop} [Decidable c] {e : ε} {f : Unit → ExecM σ ε β} {s : σ}
    {b : β} : ((lift (Exec.errIf c e) >>= f) s).1 = .ok b ↔ ¬c ∧ (f () s).1 = .ok b := by
  simp only [lift_bind_fst_eq_ok, Exec.errIf_eq_ok]
  exact ⟨fun ⟨_, h⟩ => h, fun h => ⟨(), h⟩⟩

/-- A lifted step returned iff the pure step did; the state is unchanged. -/
theorem lift_eq_ok {x : Exec ε α} {s t : σ} {a : α} :
    (lift x : ExecM σ ε α) s = (.ok a, t) ↔ x = .ok a ∧ t = s := by
  simp [Prod.ext_iff, eq_comm]

/-- From the state `s`, `x` does not fault, a value it returns satisfies `Q` together with the
state it leaves, and an error it returns satisfies `R`. -/
def Ends (x : ExecM σ ε α) (s : σ) (Q : α → σ → Prop) (R : ε → Prop) : Prop :=
  (x s).1.Ends (fun a => Q a (x s).2) R

/-- The postcondition of a returned value may be weakened. -/
theorem Ends.mono {x : ExecM σ ε α} {s : σ} {Q Q' : α → σ → Prop} {R : ε → Prop}
    (h : Ends x s Q R) (hQ : ∀ a t, Q a t → Q' a t) : Ends x s Q' R :=
  Exec.Ends.mono h fun a ha => hQ a _ ha

/-- A returned value satisfies the postcondition, together with the state that was left. -/
theorem Ends.of_ok {x : ExecM σ ε α} {s t : σ} {a : α} {Q : α → σ → Prop} {R : ε → Prop}
    (h : Ends x s Q R) (hx : x s = (.ok a, t)) : Q a t := by
  unfold Ends at h
  rw [hx] at h
  exact h

/-- A run ends as any other with the same outcome. -/
theorem Ends.of_run {x y : ExecM σ ε α} {s t : σ} {Q : α → σ → Prop} {R : ε → Prop}
    (h : x s = y t) (hy : Ends y t Q R) : Ends x s Q R := by
  unfold Ends at hy ⊢
  rwa [h]

/-- A lifted step ends as the pure step does. -/
theorem ends_lift {x : Exec ε α} {s : σ} {Q : α → Prop} {R : ε → Prop} (h : x.Ends Q R) :
    Ends (lift x : ExecM σ ε α) s (fun a t => Q a ∧ t = s) R :=
  (Exec.Ends.mono h fun _ ha => ⟨ha, rfl⟩ : x.Ends (fun a => Q a ∧ s = s) R)

/-- The sequencing rule. -/
theorem Ends.bind {x : ExecM σ ε α} {f : α → ExecM σ ε β} {s : σ} {Q : α → σ → Prop}
    {Q' : β → σ → Prop} {R : ε → Prop} (hx : Ends x s Q R)
    (hf : ∀ a t, Q a t → Ends (f a) t Q' R) : Ends (x >>= f) s Q' R := by
  unfold Ends at hx ⊢
  rcases h : x s with ⟨_ | _ | _, s'⟩
  · rw [bind_of_ok h]
    rw [h] at hx
    exact hf _ _ hx
  · rw [bind_of_err h]
    rw [h] at hx
    exact hx
  · rw [h] at hx
    exact hx.elim

/-- A sequence whose first part is known to return continues with the rest. -/
theorem ends_bind_of_ok {x : ExecM σ ε α} {f : α → ExecM σ ε β} {s t : σ} {a : α}
    {Q : β → σ → Prop} {R : ε → Prop} (hx : x s = (.ok a, t)) (hf : Ends (f a) t Q R) :
    Ends (x >>= f) s Q R := by
  unfold Ends
  rw [bind_of_ok hx]
  exact hf

/-- From the state `s`, `x` does not fault, and a value it returns satisfies `Q` together with
the state it leaves. -/
def Safe (x : ExecM σ ε α) (s : σ) (Q : α → σ → Prop) : Prop := Ends x s Q fun _ => True

/-- A safe computation does not fault. -/
theorem Safe.ne_fault {x : ExecM σ ε α} {s : σ} {Q : α → σ → Prop} (h : Safe x s Q) :
    (x s).1 ≠ .fault :=
  Exec.Safe.ne_fault h

/-- A returned value satisfies the postcondition. -/
theorem Safe.of_ok {x : ExecM σ ε α} {s t : σ} {a : α} {Q : α → σ → Prop} (h : Safe x s Q)
    (hx : x s = (.ok a, t)) : Q a t := Ends.of_ok h hx

/-- The postcondition may be weakened. -/
theorem Safe.mono {x : ExecM σ ε α} {s : σ} {Q R : α → σ → Prop} (h : Safe x s Q)
    (hQR : ∀ a t, Q a t → R a t) : Safe x s R := Ends.mono h hQR

/-- A pure value is safe if it has the property. -/
theorem safe_pure {a : α} {s : σ} {Q : α → σ → Prop} (h : Q a s) :
    Safe (pure a : ExecM σ ε α) s Q := h

/-- Raising an error is safe for every property. -/
theorem safe_raise (e : ε) (s : σ) (Q : α → σ → Prop) : Safe (raise e : ExecM σ ε α) s Q :=
  trivial

/-- Reading the state gives the state and keeps it. -/
theorem safe_get (s : σ) : Safe (get : ExecM σ ε σ) s fun a t => a = s ∧ t = s :=
  ⟨rfl, rfl⟩

/-- Setting the state leaves the new one. -/
theorem safe_set (s t : σ) : Safe (set s : ExecM σ ε Unit) t fun _ u => u = s := rfl

/-- A lifted step is safe when the pure step is. -/
theorem safe_lift {x : Exec ε α} {s : σ} {Q : α → Prop} (h : x.Safe Q) :
    Safe (lift x : ExecM σ ε α) s fun a t => Q a ∧ t = s := ends_lift h

/-- The sequencing rule. -/
theorem Safe.bind {x : ExecM σ ε α} {f : α → ExecM σ ε β} {s : σ} {Q : α → σ → Prop}
    {R : β → σ → Prop} (hx : Safe x s Q) (hf : ∀ a t, Q a t → Safe (f a) t R) :
    Safe (x >>= f) s R := Ends.bind hx hf

/-- The value and final state of a safe computation satisfy its postcondition. -/
theorem Safe.runOn {x : ExecM σ ε α} {s : σ} {Q : α → σ → Prop} (h : Safe x s Q) :
    (x.runOn s).Safe fun r => Q r.1 r.2 := by
  unfold Safe Ends at h
  unfold ExecM.runOn
  rcases hx : x s with ⟨_ | _ | _, s'⟩ <;> rw [hx] at h
  · exact h
  · trivial
  · exact h

/-- Running on a part of the state is safe when the part's computation is. -/
theorem Safe.zoom {rd : τ → σ} {wr : τ → σ → τ} {x : ExecM σ ε α} {t : τ} {Q : α → Prop}
    (h : Safe x (rd t) fun a _ => Q a) : Safe (ExecM.zoom rd wr x) t fun a _ => Q a := h

/-! ## Faults -/

/-- A sequence faults iff its first part does, or the rest after it. -/
theorem bind_fst_eq_fault {x : ExecM σ ε α} {f : α → ExecM σ ε β} {s : σ} :
    ((x >>= f) s).1 = .fault ↔
      (x s).1 = .fault ∨ ∃ a t, x s = (.ok a, t) ∧ (f a t).1 = .fault := by
  rcases h : x s with ⟨_ | _ | _, t⟩
  · rw [bind_of_ok h]
    simp
  · rw [bind_of_err h]
    simp
  · rw [bind_of_fault h]
    simp

/-- From no state does `x` fault. -/
def NeverFaults (x : ExecM σ ε α) : Prop := ∀ s, (x s).1 ≠ .fault

/-- A pure value never faults. -/
theorem neverFaults_pure (a : α) : NeverFaults (pure a : ExecM σ ε α) := fun _ h => nomatch h

/-- A lifted result faults only if it is a fault. -/
theorem neverFaults_lift {x : Exec ε α} (h : x ≠ .fault) : NeverFaults (lift x : ExecM σ ε α) :=
  fun _ => h

/-- Reading the state never faults. -/
theorem neverFaults_get : NeverFaults (get : ExecM σ ε σ) := fun _ h => nomatch h

/-- The sequencing rule. -/
theorem NeverFaults.bind {x : ExecM σ ε α} {f : α → ExecM σ ε β} (hx : NeverFaults x)
    (hf : ∀ a, NeverFaults (f a)) : NeverFaults (x >>= f) := by
  intro s h
  obtain h | ⟨a, t, -, h⟩ := bind_fst_eq_fault.mp h
  · exact hx s h
  · exact hf a t h

/-- After a first part that never faults, a sequence faults where the rest does. -/
theorem NeverFaults.bind_fst_eq_fault {x : ExecM σ ε α} {f : α → ExecM σ ε β}
    (hx : NeverFaults x) {s : σ} :
    ((x >>= f) s).1 = .fault ↔ ∃ a t, x s = (.ok a, t) ∧ (f a t).1 = .fault := by
  rw [ExecM.bind_fst_eq_fault]
  exact or_iff_right (hx s)

/-! ## Two runs -/

/-- From related states `x` ends in the same way, and when it returns, the states it leaves are
related by `Q` at the value returned. -/
def Agree (x : ExecM σ ε α) (R : σ → σ → Prop) (Q : α → σ → σ → Prop) : Prop :=
  ∀ s s', R s s' → (x s).1 = (x s').1 ∧ ∀ a, (x s).1 = .ok a → Q a (x s).2 (x s').2

/-- A pure value agrees with itself on related states. -/
theorem agree_pure {a : α} {R : σ → σ → Prop} {Q : α → σ → σ → Prop}
    (h : ∀ s s', R s s' → Q a s s') : Agree (pure a : ExecM σ ε α) R Q := by
  intro s s' hR
  refine ⟨rfl, fun b hb => ?_⟩
  cases hb
  exact h s s' hR

/-- A lifted result agrees with itself and keeps the relation. -/
theorem agree_lift (x : Exec ε α) (R : σ → σ → Prop) :
    Agree (lift x : ExecM σ ε α) R fun _ => R :=
  fun _ _ hR => ⟨rfl, fun _ _ => hR⟩

/-- The sequencing rule. -/
theorem Agree.bind {x : ExecM σ ε α} {f : α → ExecM σ ε β} {R : σ → σ → Prop}
    {Q : α → σ → σ → Prop} {Q' : β → σ → σ → Prop} (hx : Agree x R Q)
    (hf : ∀ a, Agree (f a) (Q a) Q') : Agree (x >>= f) R Q' := by
  intro s s' hR
  obtain ⟨hsame, hQ⟩ := hx s s' hR
  rcases h : x s with ⟨_ | _ | _, t⟩ <;> rcases h' : x s' with ⟨r', t'⟩ <;>
    rw [h, h'] at hsame hQ <;> cases hsame
  · rw [bind_of_ok h, bind_of_ok h']
    exact hf _ _ _ (hQ _ rfl)
  · rw [bind_of_err h, bind_of_err h']
    exact ⟨rfl, fun _ hb => by cases hb⟩
  · rw [bind_of_fault h, bind_of_fault h']
    exact ⟨rfl, fun _ hb => by cases hb⟩

/-! ## What a run keeps -/

/-- However `x` ends, it leaves a state with `I` when it starts in one. -/
def Keeps (x : ExecM σ ε α) (I : σ → Prop) : Prop := ∀ s, I s → I (x s).2

variable {I : σ → Prop}

/-- A pure value keeps every invariant. -/
theorem keeps_pure (a : α) : Keeps (pure a : ExecM σ ε α) I := fun _ h => h

/-- A lifted result keeps every invariant. -/
theorem keeps_lift (x : Exec ε α) : Keeps (lift x : ExecM σ ε α) I := fun _ h => h

/-- Reading the state keeps every invariant. -/
theorem keeps_get : Keeps (get : ExecM σ ε σ) I := fun _ h => h

/-- The sequencing rule. -/
theorem Keeps.bind {x : ExecM σ ε α} {f : α → ExecM σ ε β} (hx : Keeps x I)
    (hf : ∀ a, Keeps (f a) I) : Keeps (x >>= f) I := by
  intro s hs
  have hkept := hx s hs
  rcases h : x s with ⟨_ | _ | _, t⟩ <;> rw [h] at hkept
  · rw [bind_of_ok h]
    exact hf _ _ hkept
  · rw [bind_of_err h]
    exact hkept
  · rw [bind_of_fault h]
    exact hkept

/-- A run on a part of the state keeps `J` when the run of the part keeps what `J` says of it. -/
theorem Keeps.zoom {rd : τ → σ} {wr : τ → σ → τ} {x : ExecM σ ε α} {J : τ → Prop}
    (hx : Keeps x I) (hrd : ∀ t, J t → I (rd t)) (hwr : ∀ t s, J t → I s → J (wr t s)) :
    Keeps (ExecM.zoom rd wr x) J :=
  fun t ht => hwr t _ ht (hx _ (hrd t ht))

/-- The state that a returning run leaves. -/
theorem Keeps.of_ok {x : ExecM σ ε α} (hx : Keeps x I) {s t : σ} {a : α} (h : x s = (.ok a, t))
    (hs : I s) : I t := by
  have hkept := hx s hs
  rwa [h] at hkept

end ExecM
