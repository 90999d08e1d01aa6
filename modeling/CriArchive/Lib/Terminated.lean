import CriArchive.Lib.Utf8

set_option relaxedAutoImplicit false
set_option autoImplicit false

/-!
# Pools of terminated entries

A pool is a list in which every entry ends with a terminator `z`. An entry starts at the
beginning of the pool or right after a terminator, and runs up to the next one.

## Main definitions

* `Terminated.IsStart` — the positions at which an entry starts.
* `Terminated.entry` — what lies between a position and the next terminator.
* `Terminated.Closed` — the pool is empty or ends with a terminator.

## Main results

* `Terminated.take_findIdx?` — the entry found by a search for the terminator.
* `Terminated.not_isStart_between` — no entry starts inside another one.
* `Terminated.isStart_append`, `Terminated.entry_append` — an entry stored between other entries.
* `Terminated.entry_encode` — the entries of a pool of UTF-8 text are UTF-8 text.
-/

namespace Terminated

variable {α : Type} [DecidableEq α] {z : α} {pool : List α}

/-- An entry starts at position `o`. -/
def IsStart (z : α) (pool : List α) (o : ℕ) : Prop :=
  o < pool.length ∧ (o = 0 ∨ pool[o - 1]? = some z)

/-- What lies between position `o` and the next terminator. -/
def entry (z : α) (pool : List α) (o : ℕ) : List α := (pool.drop o).takeWhile (· ≠ z)

/-- The pool is empty or ends with a terminator. -/
def Closed (z : α) (pool : List α) : Prop := pool = [] ∨ pool.getLast? = some z

omit [DecidableEq α] in
/-- The last element of a closed pool is the terminator. -/
theorem Closed.getElem?_pred (h : Closed z pool) {n : ℕ} (hn : pool.length = n + 1) :
    pool[n]? = some z := by
  rcases h with rfl | h
  · simp at hn
  · rw [List.getLast?_eq_getElem?, hn, Nat.add_sub_cancel] at h
    exact h

/-- Searching for the terminator finds the entry, and the terminator after it. -/
theorem take_findIdx? {o l : ℕ} (h : (pool.drop o).findIdx? (· == z) = some l) :
    (pool.drop o).take l = entry z pool o ∧ (entry z pool o).length = l ∧
      pool[o + l]? = some z := by
  obtain ⟨hl, hz, hbefore⟩ := List.findIdx?_eq_some_iff_getElem.mp h
  have hidx : (pool.drop o).findIdx (fun a => !decide (a ≠ z)) = l := by
    rw [List.findIdx_eq hl]
    refine ⟨by simpa using hz, fun j hj => ?_⟩
    simpa using hbefore j hj
  have htake : entry z pool o = (pool.drop o).take l := by
    rw [entry, List.takeWhile_eq_take_findIdx_not, hidx]
  refine ⟨htake.symm, ?_, ?_⟩
  · rw [htake, List.length_take, Nat.min_eq_left hl.le]
  · rw [← List.getElem?_drop, List.getElem?_eq_getElem hl]
    simpa using hz

/-- In a closed pool the search for the terminator succeeds everywhere. -/
theorem findIdx?_isSome (h : Closed z pool) {o : ℕ} (ho : o < pool.length) :
    ∃ l, (pool.drop o).findIdx? (· == z) = some l := by
  obtain ⟨n, hn⟩ : ∃ n, pool.length = n + 1 := ⟨pool.length - 1, by omega⟩
  have hlast := h.getElem?_pred hn
  have hmem : (pool.drop o)[n - o]? = some z := by
    rw [List.getElem?_drop]
    rwa [show o + (n - o) = n by omega]
  exact ⟨_, List.findIdx?_eq_some_of_exists ⟨z, List.mem_of_getElem? hmem, by simp⟩⟩

/-- No entry starts inside another one. -/
theorem not_isStart_between {o l p : ℕ} (hl : (entry z pool o).length = l) (h₁ : o < p)
    (h₂ : p < o + (l + 1)) : ¬IsStart z pool p := by
  rintro ⟨-, h0 | hz⟩
  · omega
  · have hin : p - 1 - o < (entry z pool o).length := by omega
    have hget : (pool.drop o)[p - 1 - o]? = some z := by
      rw [List.getElem?_drop]
      rwa [show o + (p - 1 - o) = p - 1 by omega]
    have hhead : entry z pool o <+: pool.drop o := List.takeWhile_prefix _
    have hmem : z ∈ entry z pool o := by
      obtain ⟨rest, hrest⟩ := hhead
      rw [← hrest, List.getElem?_append_left hin] at hget
      exact List.mem_of_getElem? hget
    have := List.mem_takeWhile_imp hmem
    simp at this

/-- An entry never contains the terminator. -/
theorem not_mem_entry (o : ℕ) : z ∉ entry z pool o := by
  intro h
  have := List.mem_takeWhile_imp h
  simp at this

/-! ## Entries between other entries -/

omit [DecidableEq α] in
/-- What is stored after a closed part starts an entry. -/
theorem isStart_append {pre mid : List α} (h : Closed z pre) (hmid : mid ≠ []) :
    IsStart z (pre ++ mid) pre.length := by
  have hpos := List.length_pos_iff.mpr hmid
  refine ⟨by simp [hpos], ?_⟩
  rcases Nat.eq_zero_or_pos pre.length with h0 | h0
  · exact Or.inl h0
  · obtain ⟨n, hn⟩ : ∃ n, pre.length = n + 1 := ⟨pre.length - 1, by omega⟩
    apply Or.inr
    rw [List.getElem?_append_left (by omega), hn, Nat.add_sub_cancel]
    exact h.getElem?_pred hn

/-- The entry read back where `w` was stored with its terminator: `w` up to its first
terminator. -/
theorem entry_append (pre w post : List α) :
    entry z (pre ++ (w ++ z :: post)) pre.length = w.takeWhile (· ≠ z) := by
  rw [entry, List.drop_left]
  induction w with
  | nil => simp
  | cons a w ih =>
    by_cases ha : a = z
    · simp [ha]
    · rw [List.cons_append, List.takeWhile_cons_of_pos (by simpa using ha), ih,
        List.takeWhile_cons_of_pos (by simpa using ha)]

omit [DecidableEq α] in
/-- Appending a terminated entry keeps a pool closed. -/
theorem closed_append (pre w : List α) : Closed z (pre ++ (w ++ [z])) :=
  Or.inr (by simp [← List.append_assoc])

/-! ## Pools of UTF-8 text -/

/-- The entries of a pool of UTF-8 text encode text. -/
theorem entry_encode {cs : List Char} {o : ℕ} (h : IsStart (0 : UInt8) (Utf8.encode cs) o) :
    ∃ ds : List Char, entry 0 (Utf8.encode cs) o = Utf8.encode ds := by
  rcases h with ⟨hlt, rfl | hz⟩
  · exact ⟨_, by rw [entry, List.drop_zero, Utf8.takeWhile_encode]⟩
  · rcases Nat.eq_zero_or_pos o with rfl | hpos
    · exact ⟨_, by rw [entry, List.drop_zero, Utf8.takeWhile_encode]⟩
    obtain ⟨ds, es, rfl, hlen⟩ := Utf8.drop_encode_of_zero cs (o - 1) hz
    refine ⟨es.takeWhile (· ≠ '\x00'), ?_⟩
    rw [entry, Utf8.encode_append, show o = (Utf8.encode ds).length by omega, List.drop_left,
      Utf8.takeWhile_encode]

end Terminated
