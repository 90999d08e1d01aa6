import Mathlib.Data.List.Basic
import Mathlib.Tactic.Common
import Mathlib.Algebra.Order.Ring.Nat

set_option relaxedAutoImplicit false
set_option autoImplicit false

/-!
# Directory trees and the order of a walk

The entries of a directory come in an order that its host chooses. A walk with a stack of pending
directories lists the files of a tree in an order that depends on it; here it is shown which files
may come before which, and when sorting the list hides the order.

## Main definitions

* `Entries` — the entries of a directory, in the order in which they are read.
* `Entries.walk`, `Entries.listing` — the walk with its stack, and the files in its order.
* `Entries.Reordered` — the same tree, with its directories read in another order.
* `MayPrecede` — a file can come before another one.

## Main results

* `Entries.walk_eq` — the walk gives the listing.
* `Entries.Reordered.perm` — a reordered tree has the same files.
* `Entries.pairwise_listing`, `Entries.exists_reordered` — files come in a possible order, and two
  files that can come in both orders do so in some reordered trees.
* `List.pairwise_mergeSort_of_pairwise` — a stable sort keeps the order of ties.
* `Entries.sorted_listing_iff` — when the sorted files do not depend on the order of reading.
-/

/-- The entries of a directory, in the order in which they are read: files, directories, and
entries that are neither. -/
inductive Entries (κ α : Type) where
  | nil
  | file (name : κ) (a : α) (others : Entries κ α)
  | dir (name : κ) (inside others : Entries κ α)
  | special (name : κ) (others : Entries κ α)
  deriving DecidableEq, Repr

namespace Entries

variable {κ α β : Type}

/-! ## The walk -/

/-- The files of a directory itself. -/
def files : Entries κ α → List (List κ × α)
  | nil => []
  | file name a others => ([name], a) :: files others
  | dir _ _ others => files others
  | special _ others => files others

/-- A file inside a directory with a given name. -/
def within (name : κ) (f : List κ × α) : List κ × α := (name :: f.1, f.2)

/-- The files of the subdirectories. The last subdirectory comes first, and in each its own files
come first. -/
def filesBelow : Entries κ α → List (List κ × α)
  | nil => []
  | file _ _ others => filesBelow others
  | dir name inside others => filesBelow others ++ (files inside ++ filesBelow inside).map (within name)
  | special _ others => filesBelow others

/-- The files of a tree, in the order of the walk. -/
def listing (es : Entries κ α) : List (List κ × α) := files es ++ filesBelow es

/-- The pending directories after the entries of a directory at a path were read. -/
def pushDirs (path : List κ) : Entries κ α → List (List κ × Entries κ α) → List (List κ × Entries κ α)
  | nil, pending => pending
  | file _ _ others, pending => pushDirs path others pending
  | dir name inside others, pending => pushDirs path others ((path ++ [name], inside) :: pending)
  | special _ others, pending => pushDirs path others pending

/-- The number of directories and ends of directories. -/
def size : Entries κ α → ℕ
  | nil => 1
  | file _ _ others => size others
  | dir _ inside others => size inside + size others
  | special _ others => size others

/-- The directories that are pushed take what the entries had, without the level itself. -/
theorem size_pushDirs (path : List κ) (es : Entries κ α) (pending : List (List κ × Entries κ α)) :
    ((pushDirs path es pending).map fun d => d.2.size).sum + 1 =
      es.size + (pending.map fun d => d.2.size).sum := by
  induction es generalizing pending with
  | nil => rw [pushDirs, size, Nat.add_comm]
  | file name a others ih => rw [pushDirs, ih, size]
  | dir name inside others _ ih =>
    rw [pushDirs, ih, size, List.map_cons, List.sum_cons]
    dsimp only
    omega
  | special name others ih => rw [pushDirs, ih, size]

/-- The walk with a stack of pending directories: the files of the last one are listed, and its
directories are pushed. -/
def walk : List (List κ × Entries κ α) → List (List κ × α)
  | [] => []
  | (path, es) :: pending => (es.files.map fun f => (path ++ f.1, f.2)) ++ walk (pushDirs path es pending)
termination_by pending => (pending.map fun d => d.2.size).sum
decreasing_by
  have := size_pushDirs path es pending
  simp only [List.map_cons, List.sum_cons]
  omega

/-- The listing of a directory at a path. -/
def listingAt (d : List κ × Entries κ α) : List (List κ × α) :=
  d.2.listing.map fun f => (d.1 ++ f.1, f.2)

/-- Reading a level and its directories later gives the same files as reading them in place. -/
theorem flatMap_pushDirs (path : List κ) (es : Entries κ α)
    (pending : List (List κ × Entries κ α)) :
    (pushDirs path es pending).flatMap listingAt =
      (es.filesBelow.map fun f => (path ++ f.1, f.2)) ++ pending.flatMap listingAt := by
  induction es generalizing pending with
  | nil => rfl
  | file name a others ih => rw [pushDirs, ih, filesBelow]
  | dir name inside others _ ih =>
    rw [pushDirs, ih, filesBelow, List.map_append, List.append_assoc, List.flatMap_cons, listingAt,
      listing, List.map_map]
    congr 2
    refine List.map_congr_left fun f _ => ?_
    simp [within]
  | special name others ih => rw [pushDirs, ih, filesBelow]

/-- **The walk gives the listings** of the pending directories, one after the other. -/
theorem walk_eq (pending : List (List κ × Entries κ α)) :
    walk pending = pending.flatMap listingAt := by
  induction pending using walk.induct with
  | case1 => rw [walk, List.flatMap_nil]
  | case2 path es pending ih =>
    rw [walk, ih, flatMap_pushDirs, List.flatMap_cons, listingAt, listing, List.map_append,
      List.append_assoc]

/-- The walk from a directory gives its listing. -/
theorem walk_root (es : Entries κ α) : walk [([], es)] = es.listing := by
  rw [walk_eq, List.flatMap_singleton, listingAt]
  exact List.map_id _

/-! ## Reordered trees -/

/-- An entry of a directory. -/
inductive Item (κ α : Type) where
  | file (name : κ) (a : α)
  | dir (name : κ) (inside : Entries κ α)
  | special (name : κ)

/-- An entry in front of other entries. -/
def Item.before : Item κ α → Entries κ α → Entries κ α
  | .file name a, others => Entries.file name a others
  | .dir name inside, others => Entries.dir name inside others
  | .special name, others => Entries.special name others

/-- The files of an entry. -/
def Item.listing : Item κ α → List (List κ × α)
  | .file name a => [([name], a)]
  | .dir name inside => inside.listing.map (within name)
  | .special _ => []

/-- The name of an entry. -/
def Item.name : Item κ α → κ
  | .file name _ | .dir name _ | .special name => name

/-- The same tree, when its directories are read in another order. -/
inductive Reordered : Entries κ α → Entries κ α → Prop
  | nil : Reordered nil nil
  | file (name : κ) (a : α) {es es' : Entries κ α} :
    Reordered es es' → Reordered (file name a es) (file name a es')
  | dir (name : κ) {inside inside' es es' : Entries κ α} :
    Reordered inside inside' → Reordered es es' →
      Reordered (dir name inside es) (dir name inside' es')
  | special (name : κ) {es es' : Entries κ α} :
    Reordered es es' → Reordered (special name es) (special name es')
  | swap (i j : Item κ α) (es : Entries κ α) :
    Reordered (i.before (j.before es)) (j.before (i.before es))
  | trans {es₁ es₂ es₃ : Entries κ α} : Reordered es₁ es₂ → Reordered es₂ es₃ → Reordered es₁ es₃

/-- The names of the entries of a directory. -/
def names : Entries κ α → List κ
  | nil => []
  | file name _ others | dir name _ others | special name others => name :: names others

/-- In every directory the names are different. -/
def Proper : Entries κ α → Prop
  | nil => True
  | file name _ others | special name others => name ∉ names others ∧ Proper others
  | dir name inside others => name ∉ names others ∧ Proper inside ∧ Proper others

section Reordered

variable {es es' : Entries κ α}

/-- Entries are a reordering of themselves. -/
theorem Reordered.refl (es : Entries κ α) : Reordered es es := by
  induction es with
  | nil => exact .nil
  | file name a others ih => exact .file name a ih
  | dir name inside others ihInside ih => exact .dir name ihInside ih
  | special name others ih => exact .special name ih

/-- Putting one item in front keeps a reordering. -/
theorem Reordered.before (i : Item κ α) (h : Reordered es es') :
    Reordered (i.before es) (i.before es') := by
  cases i with
  | file name a => exact .file name a h
  | dir name inside => exact .dir name (.refl inside) h
  | special name => exact .special name h

/-- The name of an item that is put in front comes first. -/
@[simp] theorem names_before (i : Item κ α) (es : Entries κ α) :
    (i.before es).names = i.name :: es.names := by
  cases i <;> rfl

/-- An item that is put in front adds its files. -/
theorem perm_listing_before (i : Item κ α) (es : Entries κ α) :
    (i.before es).listing.Perm (i.listing ++ es.listing) := by
  cases i with
  | file name a => exact List.Perm.refl _
  | dir name inside =>
    change (es.files ++ (es.filesBelow ++ _)).Perm _
    rw [← List.append_assoc]
    exact List.perm_append_comm
  | special name => exact List.Perm.refl _

/-- **A reordered tree has the same files.** -/
theorem Reordered.perm (h : Reordered es es') : es.listing.Perm es'.listing := by
  induction h with
  | nil => exact .refl _
  | file name a _ ih => exact ih.cons _
  | dir name _ _ ihInside ih =>
    exact (perm_listing_before (.dir name _) _).trans (((ihInside.map _).append ih).trans
      (perm_listing_before (.dir name _) _).symm)
  | special name _ ih => exact ih
  | swap i j es =>
    have hfront : ∀ i j : Item κ α, (i.before (j.before es)).listing.Perm
        (i.listing ++ (j.listing ++ es.listing)) := fun i j =>
      (perm_listing_before i _).trans ((perm_listing_before j es).append_left _)
    refine (hfront i j).trans (.trans ?_ (hfront j i).symm)
    rw [← List.append_assoc, ← List.append_assoc]
    exact List.perm_append_comm.append_right _
  | trans _ _ ih₁ ih₂ => exact ih₁.trans ih₂

/-- A reordering keeps the names of a level. -/
theorem Reordered.perm_names (h : Reordered es es') : es.names.Perm es'.names := by
  induction h with
  | nil => exact .refl _
  | file name a _ ih => exact ih.cons _
  | dir name _ _ _ ih => exact ih.cons _
  | special name _ ih => exact ih.cons _
  | swap i j es =>
    rw [names_before, names_before, names_before, names_before]
    exact .swap _ _ _
  | trans _ _ ih₁ ih₂ => exact ih₁.trans ih₂

/-- Entries are proper with an item in front iff its name is new and it is proper itself. -/
theorem proper_before (i : Item κ α) (es : Entries κ α) :
    (i.before es).Proper ↔ i.name ∉ es.names ∧ (i.before nil).Proper ∧ es.Proper := by
  cases i <;> simp [Item.before, Proper, Item.name, names]

/-- Reordering keeps the names different. -/
theorem Reordered.proper (h : Reordered es es') (hproper : es.Proper) : es'.Proper := by
  induction h with
  | nil => exact hproper
  | file name a h ih => exact ⟨fun hmem => hproper.1 (h.perm_names.mem_iff.mpr hmem), ih hproper.2⟩
  | dir name _ h ihInside ih =>
    exact ⟨fun hmem => hproper.1 (h.perm_names.mem_iff.mpr hmem), ihInside hproper.2.1,
      ih hproper.2.2⟩
  | special name h ih =>
    exact ⟨fun hmem => hproper.1 (h.perm_names.mem_iff.mpr hmem), ih hproper.2⟩
  | swap i j es =>
    rw [proper_before i, proper_before j es, names_before, List.mem_cons, not_or] at hproper
    rw [proper_before j, proper_before i es, names_before, List.mem_cons, not_or]
    obtain ⟨⟨hne, hi⟩, hiOnly, hj, hjOnly, hes⟩ := hproper
    exact ⟨⟨Ne.symm hne, hj⟩, hjOnly, hi, hiOnly, hes⟩
  | trans _ _ ih₁ ih₂ => exact ih₂ (ih₁ hproper)

end Reordered

/-! ## Possible orders -/

/-- A file can come before another one: where their paths part, it is a file of the directory
itself, or both are in subdirectories. -/
def MayPrecede (x y : List κ) : Prop :=
  ∃ c a p b q, x = c ++ a :: p ∧ y = c ++ b :: q ∧ a ≠ b ∧ (q = [] → p = [])

section Order

variable {es : Entries κ α}

/-- A common first name changes nothing. -/
theorem MayPrecede.cons {x y : List κ} (h : MayPrecede x y) (name : κ) :
    MayPrecede (name :: x) (name :: y) := by
  obtain ⟨c, a, p, b, q, rfl, rfl, hne, hlast⟩ := h
  exact ⟨name :: c, a, p, b, q, rfl, rfl, hne, hlast⟩

/-- A path does not precede itself. -/
theorem MayPrecede.ne {x y : List κ} (h : MayPrecede x y) : x ≠ y := by
  rintro rfl
  obtain ⟨c, a, p, b, q, hx, hy, hne, -⟩ := h
  rw [hx] at hy
  exact hne (List.cons.inj (List.append_cancel_left hy)).1

/-- The files of entries with an item in front are those of both. -/
theorem mem_listing_before {i : Item κ α} {f : List κ × α} :
    f ∈ (i.before es).listing ↔ f ∈ i.listing ∨ f ∈ es.listing :=
  (perm_listing_before i es).mem_iff.trans List.mem_append

/-- The files of an item start with its name. -/
theorem Item.exists_of_mem_listing {i : Item κ α} {f : List κ × α} (h : f ∈ i.listing) :
    ∃ p, f.1 = i.name :: p := by
  cases i with
  | file name a => exact ⟨[], congrArg Prod.fst (List.mem_singleton.mp h)⟩
  | dir name inside =>
    obtain ⟨g, -, rfl⟩ := List.mem_map.mp h
    exact ⟨g.1, rfl⟩
  | special name => cases h

/-- The path of a file starts with the name of an entry. -/
theorem exists_of_mem_listing {f : List κ × α} (h : f ∈ es.listing) :
    ∃ name p, f.1 = name :: p ∧ name ∈ es.names := by
  have hstep : ∀ (i : Item κ α) (es : Entries κ α),
      (f ∈ es.listing → ∃ name p, f.1 = name :: p ∧ name ∈ es.names) →
      f ∈ (i.before es).listing → ∃ name p, f.1 = name :: p ∧ name ∈ (i.before es).names := by
    intro i es ih h
    rw [names_before]
    rcases mem_listing_before.mp h with h | h
    · obtain ⟨p, hp⟩ := i.exists_of_mem_listing h
      exact ⟨i.name, p, hp, List.mem_cons_self⟩
    · obtain ⟨name, p, hp, hname⟩ := ih h
      exact ⟨name, p, hp, List.mem_cons_of_mem _ hname⟩
  induction es with
  | nil => cases h
  | file name a others ih => exact hstep (.file name a) others ih h
  | dir name inside others _ ih => exact hstep (.dir name inside) others ih h
  | special name others ih => exact hstep (.special name) others ih h

/-- **Files come in a possible order.** -/
theorem pairwise_listing (h : es.Proper) :
    es.listing.Pairwise fun x y => MayPrecede x.1 y.1 := by
  -- what is inside a directory comes after the files beside it, and has a name of its own
  have hname : ∀ {name : κ} {others : Entries κ α}, name ∉ others.names →
      ∀ f ∈ others.listing, ∃ a p, f.1 = a :: p ∧ a ≠ name := by
    intro name others hnot f hf
    obtain ⟨a, p, hp, ha⟩ := exists_of_mem_listing hf
    exact ⟨a, p, hp, fun heq => hnot (heq ▸ ha)⟩
  induction es with
  | nil => exact .nil
  | file name a others ih =>
    refine List.pairwise_cons.mpr ⟨fun f hf => ?_, ih h.2⟩
    obtain ⟨b, q, hq, hb⟩ := hname h.1 f hf
    exact ⟨[], name, [], b, q, rfl, hq, hb.symm, fun _ => rfl⟩
  | dir name inside others ihInside ih =>
    change (others.files ++ (others.filesBelow ++ inside.listing.map (within name))).Pairwise _
    rw [← List.append_assoc, List.pairwise_append]
    refine ⟨ih h.2.2, ?_, fun x hx y hy => ?_⟩
    · rw [List.pairwise_map]
      exact (ihInside h.2.1).imp fun hxy => hxy.cons name
    · obtain ⟨a, p, hp, ha⟩ := hname h.1 x hx
      obtain ⟨g, hg, rfl⟩ := List.mem_map.mp hy
      obtain ⟨b, q, hq, -⟩ := exists_of_mem_listing hg
      exact ⟨[], a, p, name, g.1, hp, rfl, ha, fun hnil => by rw [hq] at hnil; cases hnil⟩
  | special name others ih => exact ih h.2

/-- An entry can be read first. -/
theorem exists_before {f : List κ × α} (h : f ∈ es.listing) :
    ∃ (i : Item κ α) (others : Entries κ α), Reordered es (i.before others) ∧ f ∈ i.listing := by
  have hstep : ∀ (i : Item κ α) (es : Entries κ α),
      (f ∈ es.listing → ∃ (j : Item κ α) (others : Entries κ α),
        Reordered es (j.before others) ∧ f ∈ j.listing) →
      f ∈ (i.before es).listing → ∃ (j : Item κ α) (others : Entries κ α),
        Reordered (i.before es) (j.before others) ∧ f ∈ j.listing := by
    intro i es ih h
    rcases mem_listing_before.mp h with h | h
    · exact ⟨i, es, .refl _, h⟩
    · obtain ⟨j, others, hreordered, hf⟩ := ih h
      exact ⟨j, i.before others, (hreordered.before i).trans (.swap i j others), hf⟩
  induction es with
  | nil => cases h
  | file name a others ih => exact hstep (.file name a) others ih h
  | dir name inside others _ ih => exact hstep (.dir name inside) others ih h
  | special name others ih => exact hstep (.special name) others ih h

/-- A directory in front of other entries is listed last. -/
theorem listing_dir_before (name : κ) (inside others : Entries κ α) :
    (dir name inside others).listing = others.listing ++ inside.listing.map (within name) := by
  rw [listing, files, filesBelow, ← List.append_assoc]
  rfl

/-- The entry of a file in a subdirectory is a directory. -/
theorem Item.eq_dir_of_mem {i : Item κ α} {f : List κ × α} (h : f ∈ i.listing) {name : κ}
    {p : List κ} (hf : f.1 = name :: p) (hp : p ≠ []) :
    ∃ inside g, i = .dir name inside ∧ g ∈ inside.listing ∧ f = within name g := by
  cases i with
  | file other a =>
    rw [List.mem_singleton.mp h] at hf
    exact absurd (List.cons.inj hf).2.symm hp
  | dir other inside =>
    obtain ⟨g, hg, rfl⟩ := List.mem_map.mp h
    obtain ⟨rfl, -⟩ := List.cons.inj hf
    exact ⟨inside, g, rfl, hg, rfl⟩
  | special other => cases h

/-- The entry of a file of the directory itself is the file. -/
theorem Item.eq_file_of_mem {i : Item κ α} {f : List κ × α} (h : f ∈ i.listing) {name : κ}
    (hf : f.1 = [name]) : i = .file name f.2 := by
  cases i with
  | file other a =>
    obtain rfl := List.mem_singleton.mp h
    rw [(List.cons.inj hf).1]
  | dir other inside =>
    obtain ⟨g, hg, rfl⟩ := List.mem_map.mp h
    obtain ⟨_, _, hg', -⟩ := Entries.exists_of_mem_listing hg
    have hnil := (List.cons.inj hf).2
    rw [hg'] at hnil
    cases hnil
  | special other => cases h

/-- **Two files that can come in an order** do so in some reordered tree.

**Proof sketch.** Induction on the common part of the two paths. Inside a common directory, the
induction hypothesis reorders that directory. Where the paths part, a file of the directory itself
is put in front, since files come before what is in subdirectories; and if both are in
subdirectories, the directory of the second file is put in front, which leaves it at the bottom of
the stack. -/
theorem exists_reordered {x y : List κ × α} (hproper : es.Proper) (hx : x ∈ es.listing)
    (hy : y ∈ es.listing) (h : MayPrecede x.1 y.1) :
    ∃ es', Reordered es es' ∧ [x, y].Sublist es'.listing := by
  obtain ⟨c, a, p, b, q, hxp, hyq, hne, hlast⟩ := h
  induction c generalizing es x y with
  | nil =>
    rw [List.nil_append] at hxp hyq
    by_cases hp : p = []
    · -- the first file is read first
      subst hp
      obtain ⟨i, others, hreordered, hmem⟩ := exists_before hx
      obtain rfl := i.eq_file_of_mem hmem hxp
      refine ⟨_, hreordered, ?_⟩
      have hyOther : y ∈ others.listing := by
        refine (mem_listing_before.mp (hreordered.perm.mem_iff.mp hy)).resolve_left fun hself => ?_
        rw [List.mem_singleton.mp hself] at hyq
        exact hne (List.cons.inj hyq).1
      have hxFirst : x = ([a], x.2) := Prod.ext hxp rfl
      rw [hxFirst]
      exact (List.singleton_sublist.mpr hyOther).cons_cons _
    · -- the directory of the second file is read first, which puts it last on the stack
      obtain ⟨i, others, hreordered, hmem⟩ := exists_before hy
      obtain ⟨inside, g, rfl, hg, rfl⟩ := i.eq_dir_of_mem hmem hyq fun hq => hp (hlast hq)
      refine ⟨_, hreordered, ?_⟩
      have hxOther : x ∈ others.listing := by
        refine (mem_listing_before.mp (hreordered.perm.mem_iff.mp hx)).resolve_left fun hself => ?_
        obtain ⟨g', -, rfl⟩ := List.mem_map.mp hself
        exact hne (List.cons.inj hxp).1.symm
      change [x, within b g].Sublist (dir b inside others).listing
      rw [listing_dir_before]
      exact (List.singleton_sublist.mpr hxOther).append
        (List.singleton_sublist.mpr (List.mem_map_of_mem hg))
  | cons name c ih =>
    -- both files are in one directory, which is read first
    obtain ⟨i, others, hreordered, hmem⟩ := exists_before hx
    obtain ⟨inside, x', rfl, hx', rfl⟩ := i.eq_dir_of_mem hmem hxp (by simp)
    obtain ⟨hnot, hinside, -⟩ := hreordered.proper hproper
    have hyInside : y ∈ inside.listing.map (within name) := by
      refine (mem_listing_before.mp (hreordered.perm.mem_iff.mp hy)).resolve_right fun hother => ?_
      obtain ⟨_, _, hname, hin⟩ := exists_of_mem_listing hother
      rw [hyq, List.cons_append] at hname
      exact hnot ((List.cons.inj hname).1 ▸ hin)
    obtain ⟨y', hy', rfl⟩ := List.mem_map.mp hyInside
    obtain ⟨inside', hreordered', hsub⟩ := ih hinside hx' hy' (List.cons.inj hxp).2
      (List.cons.inj hyq).2
    refine ⟨dir name inside' others, hreordered.trans (.dir name hreordered' (.refl others)), ?_⟩
    rw [listing_dir_before]
    exact (hsub.map (within name)).trans (List.sublist_append_right _ _)

end Order

end Entries

/-! ## Sorting -/

section Sorting

variable {β : Type} {le : β → β → Bool}

/-- **A stable sort keeps the order of ties.** What comes before something else is smaller, or both
are ties and came in that order.

**Proof sketch.** By induction on the list. Its head is sorted in after the elements that do not
come after it, and those are strictly smaller (`List.mergeSort_cons`), so that every tie with the
head comes later, as it did. -/
theorem List.pairwise_mergeSort_of_pairwise {S : β → β → Prop}
    (htrans : ∀ a b c, le a b → le b c → le a c) (htotal : ∀ a b, le a b || le b a) {l : List β}
    (h : l.Pairwise S) : (l.mergeSort le).Pairwise fun a b => le a b ∧ (le b a → S a b) := by
  have hsorted := List.pairwise_mergeSort htrans htotal
  induction l with
  | nil => simp
  | cons a l ih =>
    obtain ⟨hhead, htail⟩ := List.pairwise_cons.mp h
    obtain ⟨l₁, l₂, hcons, hl, hbefore⟩ := List.mergeSort_cons htrans htotal a l
    have hmem : ∀ {b}, b ∈ l₁ ++ l₂ → b ∈ l := fun hb => by
      rw [← hl] at hb
      exact List.mem_mergeSort.mp hb
    have hpairs := ih htail
    have hle := hsorted (a :: l)
    rw [hl, List.pairwise_append] at hpairs
    rw [hcons, List.pairwise_append] at hle ⊢
    obtain ⟨hpairs₁, hpairs₂, hacross⟩ := hpairs
    have hle₂ := (List.pairwise_cons.mp hle.2.1).1
    refine ⟨hpairs₁, List.pairwise_cons.mpr ⟨fun b hb => ⟨hle₂ b hb, fun _ => ?_⟩, hpairs₂⟩, ?_⟩
    · exact hhead b (hmem (List.mem_append_right _ hb))
    · intro b hb c hc
      obtain rfl | hc := List.mem_cons.mp hc
      · refine ⟨hle.2.2 b hb c List.mem_cons_self, fun hcb => ?_⟩
        have hnot := hbefore b hb
        rw [hcb] at hnot
        cases hnot
      · exact hacross b hb c hc

/-- Without duplicates two elements come in one order. -/
theorem List.Nodup.not_sublist_swap {l : List β} (h : l.Nodup) {a b : β}
    (hab : [a, b].Sublist l) (hba : [b, a].Sublist l) : a = b := by
  induction l with
  | nil => cases hab
  | cons c l ih =>
    obtain ⟨hc, hl⟩ := List.nodup_cons.mp h
    rcases List.sublist_cons_iff.mp hab with hab' | ⟨r, heq, hr⟩
    · rcases List.sublist_cons_iff.mp hba with hba' | ⟨r', heq', hr'⟩
      · exact ih hl hab' hba'
      · obtain ⟨rfl, rfl⟩ := List.cons.inj heq'
        exact absurd (hab'.subset (show b ∈ [a, b] by simp)) hc
    · obtain ⟨rfl, rfl⟩ := List.cons.inj heq
      rcases List.sublist_cons_iff.mp hba with hba' | ⟨r', heq', hr'⟩
      · exact absurd (hba'.subset (show a ∈ [b, a] by simp)) hc
      · exact (List.cons.inj heq').1.symm

end Sorting

namespace Entries

variable {κ α β : Type} {es : Entries κ α} {g : List κ × α → Option β} {le : β → β → Bool}

/-- **When sorted files hide the order of reading.** Values of the files of a tree, sorted stably,
are the same for all orders in which its directories can be read iff no two files are ties that can
come in both orders.

**Proof sketch.** If two ties can come in both orders, `exists_reordered` gives trees that list them
so; a stable sort keeps these orders, and two different elements cannot stand in both. Conversely,
in every reordered tree two files stand in an order that is possible (`pairwise_listing`), hence
ties stand in the only possible one; two sorted permutations whose ties stand alike are equal. -/
theorem sorted_listing_iff (hproper : es.Proper) (htrans : ∀ a b c, le a b → le b c → le a c)
    (htotal : ∀ a b, le a b || le b a)
    (hinj : ∀ x ∈ es.listing, ∀ y ∈ es.listing, ∀ b, g x = some b → g y = some b → x = y) :
    (∀ es₁ es₂, Reordered es es₁ → Reordered es es₂ →
      (es₁.listing.filterMap g).mergeSort le = (es₂.listing.filterMap g).mergeSort le) ↔
    ∀ x ∈ es.listing, ∀ y ∈ es.listing, ∀ b c, g x = some b → g y = some c → le b c → le c b →
      MayPrecede x.1 y.1 → ¬MayPrecede y.1 x.1 := by
  constructor
  · intro h x hx y hy b c hb hc hbc hcb hxy hyx
    obtain ⟨es₁, h₁, hsub₁⟩ := exists_reordered hproper hx hy hxy
    obtain ⟨es₂, h₂, hsub₂⟩ := exists_reordered hproper hy hx hyx
    -- the ties stay in the two orders in which they were read
    have hsorted₁ : [b, c].Sublist ((es₁.listing.filterMap g).mergeSort le) := by
      refine List.pair_sublist_mergeSort htrans htotal hbc ?_
      simpa [hb, hc] using hsub₁.filterMap g
    have hsorted₂ : [c, b].Sublist ((es₁.listing.filterMap g).mergeSort le) := by
      rw [h es₁ es₂ h₁ h₂]
      refine List.pair_sublist_mergeSort htrans htotal hcb ?_
      simpa [hb, hc] using hsub₂.filterMap g
    have hnodup : ((es₁.listing.filterMap g).mergeSort le).Nodup := by
      refine (List.mergeSort_perm _ _).nodup_iff.mpr (List.pairwise_filterMap.mpr ?_)
      refine (pairwise_listing (h₁.proper hproper)).imp_of_mem ?_
      rintro u v hu hv huv w hw _ hw' rfl
      have huv' := hinj u (h₁.perm.mem_iff.mpr hu) v (h₁.perm.mem_iff.mpr hv) w hw hw'
      exact huv.ne (congrArg Prod.fst huv')
    obtain rfl := hnodup.not_sublist_swap hsorted₁ hsorted₂
    exact hxy.ne (congrArg Prod.fst (hinj x hx y hy b hb hc))
  · intro h es₁ es₂ h₁ h₂
    -- ties of a reordered tree come in the only order they can come in
    let R : β → β → Prop := fun b c => ∃ x ∈ es.listing, ∃ y ∈ es.listing,
      g x = some b ∧ g y = some c ∧ MayPrecede x.1 y.1
    have hpairs : ∀ {es'}, Reordered es es' → (es'.listing.filterMap g).Pairwise R := by
      intro es' hes'
      rw [List.pairwise_filterMap]
      refine (pairwise_listing (hes'.proper hproper)).imp_of_mem fun hx hy hxy b hb c hc => ?_
      exact ⟨_, hes'.perm.mem_iff.mpr hx, _, hes'.perm.mem_iff.mpr hy, hb, hc, hxy⟩
    refine List.Perm.eq_of_pairwise ?_ (List.pairwise_mergeSort_of_pairwise htrans htotal (hpairs h₁))
      (List.pairwise_mergeSort_of_pairwise htrans htotal (hpairs h₂)) ?_
    · rintro b c - - ⟨hbc, hR⟩ ⟨hcb, hR'⟩
      obtain ⟨x, hx, y, hy, hxb, hyc, hxy⟩ := hR hcb
      obtain ⟨y', hy', x', hx', hyc', hxb', hyx⟩ := hR' hbc
      obtain rfl := hinj x hx x' hx' b hxb hxb'
      obtain rfl := hinj y hy y' hy' c hyc hyc'
      exact absurd hyx (h x hx y hy b c hxb hyc hbc hcb hxy)
    · refine (List.mergeSort_perm _ _).trans (.trans ?_ (List.mergeSort_perm _ _).symm)
      exact (h₁.perm.symm.trans h₂.perm).filterMap g

end Entries
