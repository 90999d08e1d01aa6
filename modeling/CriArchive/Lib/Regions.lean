import CriArchive.Lib.Layout
import CriArchive.Lib.Stream

set_option relaxedAutoImplicit false
set_option autoImplicit false

/-!
# Regions of a file

A file is put together by writing blocks at increasing offsets and filling what lies between them
with one value. The first part is about the resulting list, the second about a stream that is
overwritten from the start in this way.

## Main definitions

* `Regions.InOrder`, `Regions.endOf` — the blocks follow one another from a position on; the
  position after the last one.
* `Regions.assemble` — the list with the blocks at their offsets.
* `ByteStream.Overwritten` — a stream whose first part was overwritten.

## Main results

* `Regions.window_assemble` — every block lies at its offset.
* `Regions.getElem?_assemble_of_gap` — everything between the blocks is filled.
* `Regions.pairwise_of_inOrder` — the blocks do not overlap.
* `Regions.inOrder_zip_place` — blocks at the offsets of an aligned placement are in order.
-/

namespace Regions

section Assemble

variable {α : Type}

/-- The blocks, given by offset and contents, follow one another from the position `cur` on. -/
def InOrder : ℕ → List (ℕ × List α) → Prop
  | _, [] => True
  | cur, r :: rs => cur ≤ r.1 ∧ InOrder (r.1 + r.2.length) rs

/-- The position after the last block. -/
def endOf : ℕ → List (ℕ × List α) → ℕ
  | cur, [] => cur
  | _, r :: rs => endOf (r.1 + r.2.length) rs

/-- Append the blocks at their offsets, filling up to each with `z`. -/
def assemble (z : α) : List α → List (ℕ × List α) → List α
  | acc, [] => acc
  | acc, r :: rs => assemble z (acc ++ List.replicate (r.1 - acc.length) z ++ r.2) rs

/-- The length after one block. -/
theorem length_fill {z : α} {acc : List α} {r : ℕ × List α} (h : acc.length ≤ r.1) :
    (acc ++ List.replicate (r.1 - acc.length) z ++ r.2).length = r.1 + r.2.length := by
  simp only [List.length_append, List.length_replicate]
  omega

/-- The end of regions in order is not before their start. -/
theorem le_endOf {cur : ℕ} {rs : List (ℕ × List α)} (h : InOrder cur rs) : cur ≤ endOf cur rs := by
  induction rs generalizing cur with
  | nil => exact Nat.le_refl _
  | cons r rs ih =>
    have h₁ := ih h.2
    have h₂ := h.1
    simp only [endOf]
    omega

/-- Blocks in order stay in order from an earlier position. -/
theorem InOrder.mono {cur cur' : ℕ} {rs : List (ℕ × List α)} (h : InOrder cur rs)
    (hcur : cur' ≤ cur) : InOrder cur' rs := by
  cases rs with
  | nil => trivial
  | cons r rs => exact ⟨Nat.le_trans hcur h.1, h.2⟩

/-- Two groups of blocks in order, the second after the end of the first. -/
theorem InOrder.append {cur : ℕ} {rs rs' : List (ℕ × List α)} (h : InOrder cur rs)
    (h' : InOrder (endOf cur rs) rs') : InOrder cur (rs ++ rs') := by
  induction rs generalizing cur with
  | nil => exact h'
  | cons r rs ih => exact ⟨h.1, ih h.2 h'⟩

/-- The end of further regions is counted from the end of the first ones. -/
theorem endOf_append (cur : ℕ) (rs rs' : List (ℕ × List α)) :
    endOf cur (rs ++ rs') = endOf (endOf cur rs) rs' := by
  induction rs generalizing cur with
  | nil => rfl
  | cons r rs ih => exact ih _

/-- Further regions are assembled after the first ones. -/
theorem assemble_append (z : α) (acc : List α) (rs rs' : List (ℕ × List α)) :
    assemble z acc (rs ++ rs') = assemble z (assemble z acc rs) rs' := by
  induction rs generalizing acc with
  | nil => rfl
  | cons r rs ih => exact ih _

/-- The assembled list ends with the last block. -/
theorem length_assemble {z : α} {acc : List α} {rs : List (ℕ × List α)}
    (h : InOrder acc.length rs) : (assemble z acc rs).length = endOf acc.length rs := by
  induction rs generalizing acc with
  | nil => rfl
  | cons r rs ih =>
    rw [assemble, endOf, ih (by rw [length_fill h.1]; exact h.2), length_fill h.1]

/-- What was there before the blocks stays. -/
theorem prefix_assemble (z : α) (acc : List α) (rs : List (ℕ × List α)) :
    acc <+: assemble z acc rs := by
  induction rs generalizing acc with
  | nil => exact List.prefix_refl _
  | cons r rs ih =>
    refine List.IsPrefix.trans ?_ (ih _)
    rw [List.append_assoc]
    exact List.prefix_append _ _

/-- Every block lies between the start and the end. -/
theorem bounds_of_inOrder {cur : ℕ} {rs : List (ℕ × List α)} (h : InOrder cur rs)
    {r : ℕ × List α} (hr : r ∈ rs) : cur ≤ r.1 ∧ r.1 + r.2.length ≤ endOf cur rs := by
  induction rs generalizing cur with
  | nil => simp at hr
  | cons q rs ih =>
    have h₁ := h.1
    rcases List.mem_cons.mp hr with rfl | hr
    · exact ⟨h₁, le_endOf h.2⟩
    · obtain ⟨h₂, h₃⟩ := ih h.2 hr
      exact ⟨by omega, h₃⟩

/-- **Every block lies at its offset.** -/
theorem window_assemble {z : α} {acc : List α} {rs : List (ℕ × List α)}
    (h : InOrder acc.length rs) {r : ℕ × List α} (hr : r ∈ rs) :
    window (assemble z acc rs) r.1 r.2.length = r.2 := by
  induction rs generalizing acc with
  | nil => simp at hr
  | cons q rs ih =>
    have hlen := length_fill (z := z) h.1
    rcases List.mem_cons.mp hr with rfl | hr
    · obtain ⟨rest, hrest⟩ := prefix_assemble z
        (acc ++ List.replicate (r.1 - acc.length) z ++ r.2) rs
      have hstart : (acc ++ List.replicate (r.1 - acc.length) z).length = r.1 := by
        simp only [List.length_append] at hlen ⊢
        omega
      have hmiddle := window_append_middle (acc ++ List.replicate (r.1 - acc.length) z) r.2 rest
      rwa [hstart, ← List.append_assoc, hrest] at hmiddle
    · exact ih (by rw [hlen]; exact h.2) hr

/-- **What lies between the blocks is filled.** -/
theorem getElem?_assemble_of_gap {z : α} {acc : List α} {rs : List (ℕ × List α)}
    (h : InOrder acc.length rs) {i : ℕ} (hacc : acc.length ≤ i)
    (hi : i < endOf acc.length rs)
    (hgap : ∀ r ∈ rs, ¬(r.1 ≤ i ∧ i < r.1 + r.2.length)) :
    (assemble z acc rs)[i]? = some z := by
  induction rs generalizing acc with
  | nil =>
    simp only [endOf] at hi
    omega
  | cons q rs ih =>
    have hlen := length_fill (z := z) h.1
    have hq := hgap q (List.mem_cons_self ..)
    by_cases hiq : i < q.1
    · -- inside the filling before the block
      obtain ⟨rest, hrest⟩ := prefix_assemble z
        (acc ++ List.replicate (q.1 - acc.length) z ++ q.2) rs
      rw [assemble, ← hrest, List.append_assoc, List.append_assoc, List.getElem?_append_right hacc,
        List.getElem?_append_left (by rw [List.length_replicate]; omega),
        List.getElem?_replicate_of_lt (by omega)]
    · refine ih (by rw [hlen]; exact h.2) (by rw [hlen]; omega) ?_ fun r hr =>
        hgap r (List.mem_cons_of_mem _ hr)
      rw [hlen]
      exact hi

/-- **The blocks do not overlap**: each ends before every later one starts. -/
theorem pairwise_of_inOrder {cur : ℕ} {rs : List (ℕ × List α)} (h : InOrder cur rs) :
    rs.Pairwise fun p q => p.1 + p.2.length ≤ q.1 := by
  induction rs generalizing cur with
  | nil => exact .nil
  | cons r rs ih =>
    exact List.pairwise_cons.mpr ⟨fun q hq => (bounds_of_inOrder h.2 hq).1, ih h.2⟩

/-- Blocks of the sizes of an aligned placement, at its offsets, are in order and end before the
placement does. -/
theorem inOrder_zip_place {a : ℕ} (ha : 0 < a) (base : ℕ) (blocks : List (List α)) :
    InOrder base ((place a base (blocks.map List.length)).zip blocks) ∧
      endOf base ((place a base (blocks.map List.length)).zip blocks) ≤
        placeEnd a base (blocks.map List.length) := by
  induction blocks generalizing base with
  | nil => exact ⟨trivial, Nat.le_refl _⟩
  | cons b bs ih =>
    obtain ⟨h₁, h₂⟩ := ih (alignTo a (base + b.length))
    have hle := le_alignTo ha (base + b.length)
    refine ⟨⟨Nat.le_refl _, h₁.mono hle⟩, ?_⟩
    simp only [List.map_cons, place, List.zip_cons_cons, endOf, placeEnd]
    cases bs with
    | nil => simpa [place, endOf, placeEnd] using hle
    | cons c bs => exact h₂

end Assemble

end Regions

/-! ## Overwriting a stream -/

namespace ByteStream

variable {ε : Type} {old acc : List UInt8} {s : ByteStream}

/-- The stream holds `acc` over the start of `old`, and is positioned after it. -/
def Overwritten (old acc : List UInt8) (s : ByteStream) : Prop :=
  s.bytes = acc ++ old.drop acc.length ∧ s.pos = acc.length

/-- At the start, nothing has been written over what the stream held. -/
theorem overwritten_start (old : List UInt8) : Overwritten old [] ⟨old, 0⟩ := ⟨rfl, rfl⟩

/-- Over nothing, the stream holds what was written. -/
theorem Overwritten.bytes_eq (h : Overwritten [] acc s) : s.bytes = acc := by
  rw [h.1, List.drop_nil, List.append_nil]

/-- Writing extends the overwritten part. -/
theorem writeAll_overwritten (h : Overwritten old acc s) (data : List UInt8) :
    ∃ t, (writeAll data : ExecM ByteStream ε Unit) s = (.ok (), t) ∧
      Overwritten old (acc ++ data) t := by
  obtain ⟨bytes, pos⟩ := s
  obtain ⟨hbytes, hpos⟩ := h
  simp only at hbytes hpos
  subst hbytes hpos
  refine ⟨_, rfl, ?_, by simp⟩
  have hpad : acc.length - (acc ++ old.drop acc.length).length = 0 := by
    rw [List.length_append]
    omega
  simp only [hpad, List.replicate_zero, List.append_nil, List.take_left]
  rw [← List.drop_drop, List.drop_left, List.length_append, List.drop_drop]

end ByteStream
