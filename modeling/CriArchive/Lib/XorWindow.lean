import CriArchive.Lib.Stream

set_option relaxedAutoImplicit false
set_option autoImplicit false

/-!
# XOR of a byte string with a later part of itself

A transform that replaces the first `k` bytes of a string by their XOR with the bytes a fixed
distance later, applied block by block.

## Main definitions

* `Xor.prefixWith` — the byte-wise transform.
* `Xor.block`, `Xor.blocks` — the transform done in blocks of a given width.

## Main results

* `Xor.blocks_eq` — the block-wise transform is the byte-wise one, whatever the width.
* `Xor.prefixWith_prefixWith` — the transform is its own inverse.
-/

namespace Xor

variable {ε : Type}

/-- XOR the first `k` bytes with the bytes `dist` later. -/
def prefixWith (k dist : ℕ) (xs : List UInt8) : List UInt8 :=
  xs.mapIdx fun i b => if i < k then b ^^^ xs.getD (i + dist) 0 else b

/-- XOR the `i`-th block of `width` bytes with the `j`-th one. -/
def block (width : ℕ) (input : List UInt8) (i j : ℕ) : Exec ε (List UInt8) := do
  let v ← Exec.slice input (i * width) (i * width + width)
  let n ← Exec.slice input (j * width) (j * width + width)
  pure (input.take (i * width) ++ (List.zipWith (· ^^^ ·) v n ++
    input.drop (i * width + width)))

/-- XOR the blocks from the `i`-th on with the blocks `next` later, `count` of them. -/
def blocks (width next : ℕ) : ℕ → ℕ → List UInt8 → Exec ε (List UInt8)
  | _, 0, input => pure input
  | i, count + 1, input => do
    let input ← block width input i (i + next)
    blocks width next (i + 1) count input

/-- The transform keeps the length. -/
@[simp] theorem length_prefixWith (k dist : ℕ) (xs : List UInt8) :
    (prefixWith k dist xs).length = xs.length := by
  simp [prefixWith]

/-- The bytes of the transformed string. -/
theorem getElem?_prefixWith (k dist : ℕ) (xs : List UInt8) (i : ℕ) :
    (prefixWith k dist xs)[i]? =
      xs[i]?.map fun b => if i < k then b ^^^ xs[i + dist]?.getD 0 else b := by
  simp [prefixWith]

/-- Bytes behind the transformed part are unchanged. -/
theorem getElem?_prefixWith_of_le {k dist i : ℕ} (h : k ≤ i) (xs : List UInt8) :
    (prefixWith k dist xs)[i]? = xs[i]? := by
  rw [getElem?_prefixWith]
  simp [Nat.not_lt.mpr h]

/-- Without blocks to transform, the string is as it was. -/
@[simp] theorem prefixWith_zero (dist : ℕ) (xs : List UInt8) : prefixWith 0 dist xs = xs := by
  apply List.ext_getElem?
  intro i
  simp [getElem?_prefixWith]

/-- **Involution.** When the part that is XORed in lies behind the part that changes, the
transform is its own inverse. -/
theorem prefixWith_prefixWith {k dist : ℕ} (h : k ≤ dist) (xs : List UInt8) :
    prefixWith k dist (prefixWith k dist xs) = xs := by
  apply List.ext_getElem?
  intro i
  rw [getElem?_prefixWith k dist (prefixWith k dist xs),
    getElem?_prefixWith_of_le (Nat.le_trans h (Nat.le_add_left _ _)), getElem?_prefixWith, Option.map_map]
  cases xs[i]? with
  | none => rfl
  | some b =>
    simp only [Option.map_some, Function.comp_apply]
    split_ifs
    · rw [UInt8.xor_assoc, UInt8.xor_self, UInt8.xor_zero]
    · rfl

/-- One block extends the transformed part by its width.

**Proof sketch.** Byte by byte: before the block nothing changes; in the block, both bytes that are
combined are as they were at first, since the source lies behind the transformed part; behind the
block nothing changes. -/
theorem block_prefixWith {width next i : ℕ} {xs : List UInt8} (hi : i < next)
    (hlen : (i + next) * width + width ≤ xs.length) :
    (block width (prefixWith (i * width) (next * width) xs) i (i + next) : Exec ε _) =
      .ok (prefixWith ((i + 1) * width) (next * width) xs) := by
  have hle : i * width + width ≤ next * width := by
    rw [← Nat.succ_mul]
    exact Nat.mul_le_mul_right _ hi
  have hsum : (i + next) * width = i * width + next * width := Nat.add_mul ..
  have hsucc : (i + 1) * width = i * width + width := Nat.succ_mul ..
  unfold block
  rw [Exec.slice_eq (by omega) (by simp; omega), Exec.ok_bind,
    Exec.slice_eq (by omega) (by simp; omega), Exec.ok_bind]
  rw [Nat.add_sub_cancel_left, Nat.add_sub_cancel_left]
  refine congrArg Exec.ok (List.ext_getElem? fun m => ?_)
  -- the bytes before the block, in it, and after it
  by_cases h₁ : m < i * width
  · rw [List.getElem?_append_left (by simp; omega), List.getElem?_take_of_lt h₁,
      getElem?_prefixWith, getElem?_prefixWith]
    simp [h₁, show m < (i + 1) * width by omega]
  by_cases h₂ : m < i * width + width
  · have hpos : ((prefixWith (i * width) (next * width) xs).take (i * width)).length =
        i * width := by
      simp
      omega
    rw [List.getElem?_append_right (by omega), hpos, List.getElem?_append_left (by simp; omega),
      List.getElem?_zipWith, List.getElem?_take_of_lt (by omega),
      List.getElem?_take_of_lt (by omega), List.getElem?_drop, List.getElem?_drop,
      getElem?_prefixWith_of_le (by omega), getElem?_prefixWith_of_le (by omega),
      getElem?_prefixWith, show i * width + (m - i * width) = m by omega,
      show (i + next) * width + (m - i * width) = m + next * width by omega,
      List.getElem?_eq_getElem (show m < xs.length by omega),
      List.getElem?_eq_getElem (show m + next * width < xs.length by omega)]
    simp [show m < (i + 1) * width by omega]
  · have hpos : (List.zipWith (· ^^^ ·)
        (((prefixWith (i * width) (next * width) xs).drop (i * width)).take width)
        (((prefixWith (i * width) (next * width) xs).drop ((i + next) * width)).take
          width)).length = width := by
      simp
      omega
    rw [← List.append_assoc, List.getElem?_append_right (by simp; omega), List.length_append,
      hpos, List.getElem?_drop]
    simp only [List.length_take, length_prefixWith]
    rw [Nat.min_eq_left (by omega), show i * width + width + (m - (i * width + width)) = m by omega,
      getElem?_prefixWith_of_le (by omega), getElem?_prefixWith_of_le (by omega)]

/-- **Block-wise is byte-wise.** XORing `count` blocks with the blocks as far behind them as there
are blocks is the byte-wise transform, whatever the width of a block. -/
theorem blocks_eq {width count : ℕ} {xs : List UInt8} (hlen : 2 * count * width ≤ xs.length) :
    (blocks width count 0 count xs : Exec ε _) =
      .ok (prefixWith (count * width) (count * width) xs) := by
  have hloop : ∀ k i, i + k = count →
      (blocks width count i k (prefixWith (i * width) (count * width) xs) : Exec ε _) =
        .ok (prefixWith (count * width) (count * width) xs) := by
    intro k
    induction k with
    | zero =>
      rintro i rfl
      rfl
    | succ k ih =>
      intro i hik
      have hfits : (i + count) * width + width ≤ xs.length := by
        rw [← Nat.succ_mul]
        exact Nat.le_trans (Nat.mul_le_mul_right _ (by omega)) hlen
      rw [blocks, block_prefixWith (by omega) hfits, Exec.ok_bind, ih (i + 1) (by omega)]
  simpa using hloop count 0 (Nat.zero_add _)

end Xor
