import CriArchive.Cpk.Blocks

set_option relaxedAutoImplicit false
set_option autoImplicit false

/-!
# Exactness of the bitmap updates

`bit_on` and `bit_off` of `cpk/free_list.rs` on every range of a 64-bit `usize`. The allocator only
passes ranges that end at block 255 at the latest; here the sum of `bit_bounds_check` is a `usize`,
so that it can overflow.

## Main definitions

* `Usize.bitBoundsCheck`, `Usize.bitOn`, `Usize.bitOff` — the check and the updates on `usize`.
* `SetsExactly` — an update that sets a range to a value, or nothing when the range is refused.
* `BitsExact` — both updates are exact, and the second undoes the first.

## Main results

* `UsedMap.ext_bit` — a bitmap is determined by its bits.
* `Usize.bitsExact` — the updates are exact on every range whose end is a `usize`.
-/

namespace CriArchive

/-! ## Updates on `usize` -/

namespace Usize

variable {ε : Type}

/-- Addition of `usize`: an overflow panics in a build with overflow checks and wraps in another. -/
def add (checks : Bool) (a b : UInt64) : Exec ε UInt64 :=
  if checks = true ∧ 2 ^ 64 ≤ a.toNat + b.toNat then .fault else .ok (a + b)

/-- `bit_bounds_check`. -/
def bitBoundsCheck (checks : Bool) (start len : UInt64) : Exec ε Bool :=
  if len = 0 then pure true
  else do
    let stop ← add checks start len
    pure (decide (255 < stop.toNat))

/-- The common body of `bit_on` and `bit_off`. -/
def bitUpdate (checks : Bool) (combine : UInt8 → UInt8 → UInt8) (full : UInt8) (used : UsedMap)
    (start len : UInt64) : Exec ε UsedMap := do
  let refused ← bitBoundsCheck checks start len
  if refused then pure used
  else
    updateOf combine full used (start.toNat >>> 3) (start.toNat &&& 7) len.toNat
      (min len.toNat (8 - (start.toNat &&& 7)))

/-- `bit_on`. -/
def bitOn (checks : Bool) (used : UsedMap) (start len : UInt64) : Exec ε UsedMap :=
  bitUpdate checks (fun b mask => b ||| mask) 0xff used start len

/-- `bit_off`. -/
def bitOff (checks : Bool) (used : UsedMap) (start len : UInt64) : Exec ε UsedMap :=
  bitUpdate checks (fun b mask => b &&& ~~~mask) 0x0 used start len

variable {checks : Bool} {start len : UInt64}

/-- Without an overflow the check is the one on numbers. -/
theorem bitBoundsCheck_eq (h : start.toNat + len.toNat < 2 ^ 64) :
    (bitBoundsCheck checks start len : Exec ε Bool) =
      .ok (CriArchive.bitBoundsCheck start.toNat len.toNat) := by
  unfold bitBoundsCheck CriArchive.bitBoundsCheck
  by_cases hlen : len = 0
  · subst hlen
    rfl
  have hne : len.toNat ≠ 0 := fun hzero => hlen (UInt64.toNat_inj.mp hzero)
  have hsum : (start + len).toNat = start.toNat + len.toNat := by
    rw [UInt64.toNat_add, Nat.mod_eq_of_lt h]
  rw [if_neg hlen, add, if_neg (by omega), Exec.ok_bind, hsum, beq_false_of_ne hne, Bool.false_or]
  rfl

/-- Without an overflow the update is the one on numbers. -/
theorem bitUpdate_eq (h : start.toNat + len.toNat < 2 ^ 64) (combine : UInt8 → UInt8 → UInt8)
    (full : UInt8) (used : UsedMap) :
    (bitUpdate checks combine full used start len : Exec ε UsedMap) =
      CriArchive.bitUpdate combine full used start.toNat len.toNat := by
  rw [bitUpdate, bitBoundsCheck_eq h, Exec.ok_bind, CriArchive.bitUpdate]

end Usize

/-! ## Exactness -/

/-- A bitmap is determined by its bits. -/
theorem UsedMap.ext_bit {used u : UsedMap} (h : ∀ k, used.bit k = u.bit k) : used = u := by
  refine Vector.ext fun i hi => UInt8.toBitVec_inj.mp (BitVec.eq_of_getLsbD_eq fun j hj => ?_)
  rw [← used.bit_add hi hj, ← u.bit_add hi hj, h]

/-- An update of a range returns, and has set exactly the bits of the range to a value when the range
is not empty and ends before block 256, and nothing otherwise. A byte outside of the bitmap would be
a fault. -/
def SetsExactly (v : Bool) (used : UsedMap) (start len : ℕ) (r : Exec Error UsedMap) : Prop :=
  ∃ u, r = .ok u ∧ if 1 ≤ len ∧ start + len ≤ 255 then Updates v start (start + len) used u else u = used

/-- An update of a range is exact. -/
theorem setsExactly_bitUpdate {combine : UInt8 → UInt8 → UInt8} {full : UInt8} {v : Bool}
    (hsets : Sets combine full v) (used : UsedMap) (start len : ℕ) :
    SetsExactly v used start len (bitUpdate combine full used start len) := by
  by_cases hrange : 1 ≤ len ∧ start + len ≤ 255
  · obtain ⟨u, hu, hupdates⟩ := bitUpdate_updates hsets used hrange.2
    exact ⟨u, hu, by rwa [if_pos hrange]⟩
  · refine ⟨used, ?_, by rw [if_neg hrange]⟩
    have hrefused : bitBoundsCheck start len = true := by
      simp only [bitBoundsCheck, Bool.or_eq_true, beq_iff_eq, decide_eq_true_eq]
      omega
    rw [bitUpdate, if_pos hrefused]
    rfl

/-- Clearing a range undoes setting it, when it was clear. -/
theorem eq_of_setsExactly {used u w : UsedMap} {start len : ℕ}
    (hon : SetsExactly true used start len (.ok u)) (hoff : SetsExactly false u start len (.ok w))
    (hclear : ∀ k, start ≤ k → k < start + len → used.bit k = false) : w = used := by
  obtain ⟨u', hu, hon⟩ := hon
  obtain ⟨w', hw, hoff⟩ := hoff
  obtain rfl := Exec.ok.inj hu
  obtain rfl := Exec.ok.inj hw
  by_cases hrange : 1 ≤ len ∧ start + len ≤ 255
  · rw [if_pos hrange] at hon hoff
    apply UsedMap.ext_bit
    intro k
    rw [hoff k, hon k]
    split_ifs with hk
    · exact (hclear k hk.1 hk.2).symm
    · rfl
  · rw [if_neg hrange] at hon hoff
    rw [hoff, hon]

namespace Usize

/-- Setting and clearing a range are exact, and clearing undoes setting on a state in which the range
was clear. -/
def BitsExact (checks : Bool) (used : UsedMap) (start len : UInt64) : Prop :=
  SetsExactly true used start.toNat len.toNat (bitOn checks used start len) ∧
    SetsExactly false used start.toNat len.toNat (bitOff checks used start len) ∧
    ((∀ k, start.toNat ≤ k → k < start.toNat + len.toNat → used.bit k = false) →
      (bitOn checks used start len >>= fun u => bitOff checks u start len) =
        (.ok used : Exec Error UsedMap))

/-- **Bitmap updates are exact**, from every state and for every range whose end is a `usize`.

**Proof sketch.** A call that updates the map is the loop over its bytes (`bitUpdate_eq`), and one
lemma about the loop covers both the setting and the clearing (`setsExactly_bitUpdate`). The last
part compares the maps bit by bit (`eq_of_setsExactly`). -/
theorem bitsExact (checks : Bool) (used : UsedMap) {start len : UInt64}
    (h : start.toNat + len.toNat < 2 ^ 64) : BitsExact checks used start len := by
  have hon : ∀ w, SetsExactly true w start.toNat len.toNat (bitOn checks w start len) := by
    intro w
    rw [bitOn, bitUpdate_eq h]
    exact setsExactly_bitUpdate sets_or w _ _
  have hoff : ∀ w, SetsExactly false w start.toNat len.toNat (bitOff checks w start len) := by
    intro w
    rw [bitOff, bitUpdate_eq h]
    exact setsExactly_bitUpdate sets_andNot w _ _
  refine ⟨hon used, hoff used, fun hclear => ?_⟩
  obtain ⟨u, hu, -⟩ := id (hon used)
  obtain ⟨w, hw, -⟩ := id (hoff u)
  have hset := hon used
  have hcleared := hoff u
  rw [hu] at hset
  rw [hw] at hcleared
  rw [hu, Exec.ok_bind, hw, eq_of_setsExactly hset hcleared hclear]

/-- Setting the blocks 66 to 85 of an empty bitmap is exact. -/
theorem bitsExact_sample : BitsExact true (Vector.replicate 32 0) 66 20 :=
  bitsExact true _ (by decide)

/-- A range whose end overflows is not refused: the sum panics, or wraps and lets an access outside
of the bitmap through. -/
theorem not_bitsExact : ¬BitsExact true (Vector.replicate 32 0) 0xffffffffffffffff 1 ∧
    ¬BitsExact false (Vector.replicate 32 0) 0xffffffffffffffff 1 := by
  have hfault : ∀ checks, (bitOn checks (Vector.replicate 32 0) 0xffffffffffffffff 1 :
      Exec Error UsedMap) = .fault := by
    decide +kernel
  constructor
  all_goals
    rintro ⟨⟨u, hu, -⟩, -⟩
    rw [hfault] at hu
    cases hu

end Usize

end CriArchive
