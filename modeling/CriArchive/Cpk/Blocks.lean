import CriArchive.Cpk.FreeList
import CriArchive.Lib.Ownership

set_option relaxedAutoImplicit false
set_option autoImplicit false

/-!
# The blocks of the scratch allocator

What the bitmap operations of `cpk/free_list.rs` do to single bits, and what holds of the blocks of
the live nodes over a run of allocations and drops.

The sizes that the crate asks for are at most `u32::MAX + 0x100`, so that rounding them up to blocks
does not wrap.

## Main definitions

* `UsedMap.bit` — whether a block is in use.
* `Updates` — one bitmap arises from another by setting a range to a value.
* `FreeList.FirstWindow` — the window at which the search of an allocation stops.
* `FreeList.Heap`, `FreeList.run` — the allocator with its live nodes, and runs of actions on it.
* `FreeList.ServedFree` — a request is served with free blocks.
* `FreeList.Consistent` — the invariant of a run.

## Main results

* `bitUpdate_updates` — the byte-wise updates set exactly the range.
* `checkOccupation_eq_zero` — what a search sees of a window.
* `FreeList.allocate_spec`, `FreeList.release_spec` — allocation and release by the blocks.
* `FreeList.run_blocks` — live nodes do not overlap while requests are served with free blocks.
-/

namespace CriArchive

/-! ## Bits of the bitmap -/

/-- Whether a block is in use. -/
def UsedMap.bit (used : UsedMap) (k : ℕ) : Bool :=
  (used[k / 8]?.getD 0).toBitVec.getLsbD (k % 8)

/-- `u` is `used` with the bits from `lo` to `hi` set to `v`. -/
def Updates (v : Bool) (lo hi : ℕ) (used u : UsedMap) : Prop :=
  ∀ k, u.bit k = if lo ≤ k ∧ k < hi then v else used.bit k

section Bits

variable {v : Bool} {used u w : UsedMap}

/-- The bit of a block in the byte with a given index. -/
theorem UsedMap.bit_add (used : UsedMap) {i j : ℕ} (hi : i < 32) (hj : j < 8) :
    used.bit (8 * i + j) = used[i].toBitVec.getLsbD j := by
  have hdiv : (8 * i + j) / 8 = i := by omega
  have hmod : (8 * i + j) % 8 = j := by omega
  rw [bit, hdiv, hmod, Vector.getElem?_eq_getElem hi, Option.getD_some]

/-- There are 256 blocks. -/
theorem UsedMap.bit_of_le {used : UsedMap} {k : ℕ} (h : 256 ≤ k) : used.bit k = false := by
  rw [bit, Vector.getElem?_eq_none (by omega), Option.getD_none]
  simp

/-- Without a range, nothing is set. -/
theorem updates_refl (v : Bool) (lo : ℕ) (used : UsedMap) : Updates v lo lo used used :=
  fun k => (if_neg (by omega)).symm

/-- Updates of adjacent ranges. -/
theorem Updates.trans {a b c : ℕ} (h : Updates v a b used u) (h' : Updates v b c u w)
    (hab : a ≤ b) (hbc : b ≤ c) : Updates v a c used w := by
  intro k
  rw [h' k, h k]
  split_ifs <;> first | rfl | omega

/-- A byte whose bits of a range have the value. -/
theorem updates_set {lo hi i : ℕ} (hi' : i < 32) {b : UInt8} (hlo : 8 * i ≤ lo)
    (hhi : hi ≤ 8 * i + 8) (hb : ∀ j < 8, b.toBitVec.getLsbD j =
      if lo ≤ 8 * i + j ∧ 8 * i + j < hi then v else used[i].toBitVec.getLsbD j) :
    Updates v lo hi used (used.set i b) := by
  intro k
  by_cases hk : k / 8 = i
  · have hsplit : k = 8 * i + k % 8 := by omega
    have hmod : k % 8 < 8 := Nat.mod_lt _ (by decide)
    rw [hsplit, UsedMap.bit_add _ hi' hmod, UsedMap.bit_add _ hi' hmod, Vector.getElem_set_self,
      hb _ hmod]
  · rw [if_neg (by omega), UsedMap.bit, UsedMap.bit, Vector.getElem?_set, if_neg (by omega)]

/-- The masks, moved to a bit. -/
theorem getLsbD_mask {n bit : ℕ} (hn : n ≤ 8) (hbit : bit < 8) :
    ∃ m, (bitMaskU8 n : Exec Error UInt32) = .ok m ∧ ∀ j < 8,
      (m <<< UInt32.ofNat bit).toUInt8.toBitVec.getLsbD j = decide (bit ≤ j ∧ j < bit + n) := by
  have hall : ∀ n : Fin 9, ∀ bit j : Fin 8,
      (bitMaskTable[n] <<< UInt32.ofNat bit).toUInt8.toBitVec.getLsbD j =
        decide (bit.val ≤ j.val ∧ j.val < bit.val + n.val) := by
    decide +kernel
  exact ⟨_, Exec.index_eq (show n < bitMaskTable.length by simp [bitMaskTable]; omega),
    fun j hj => hall ⟨n, by omega⟩ ⟨bit, hbit⟩ ⟨j, hj⟩⟩

/-- The masks of the low bits. -/
theorem getLsbD_lowMask {n : ℕ} (hn : n ≤ 8) :
    ∃ m, (bitMaskU8 n : Exec Error UInt32) = .ok m ∧ ∀ j < 8,
      m.toUInt8.toBitVec.getLsbD j = decide (j < n) := by
  obtain ⟨m, hm, hbits⟩ := getLsbD_mask hn (show 0 < 8 by decide)
  refine ⟨m, hm, fun j hj => ?_⟩
  have hshift : m <<< UInt32.ofNat 0 = m := by
    rw [← UInt32.toNat_inj]
    simp
  have h := hbits j hj
  rw [hshift] at h
  simpa using h

end Bits

/-! ## Setting and clearing a range -/

section Combine

variable {combine : UInt8 → UInt8 → UInt8} {full : UInt8} {v : Bool}

/-- The update of a byte sets the bits of the mask to the value, and `full` has it everywhere. -/
structure Sets (combine : UInt8 → UInt8 → UInt8) (full : UInt8) (v : Bool) : Prop where
  combine : ∀ b m : UInt8, ∀ j < 8, (combine b m).toBitVec.getLsbD j =
    if m.toBitVec.getLsbD j = true then v else b.toBitVec.getLsbD j
  full : ∀ j < 8, full.toBitVec.getLsbD j = v

/-- The byte operations of `reserve` set bits. -/
theorem sets_or : Sets (fun b mask => b ||| mask) 0xff true := by
  refine ⟨fun b m j hj => ?_, by decide⟩
  rw [UInt8.toBitVec_or, BitVec.getLsbD_or]
  cases m.toBitVec.getLsbD j <;> simp

/-- The byte operations of `free_space` clear bits. -/
theorem sets_andNot : Sets (fun b mask => b &&& ~~~mask) 0x0 false := by
  refine ⟨fun b m j hj => ?_, by decide⟩
  rw [UInt8.toBitVec_and, UInt8.toBitVec_not, BitVec.getLsbD_and, BitVec.getLsbD_not]
  cases m.toBitVec.getLsbD j <;> simp [hj]

variable (hsets : Sets combine full v)

include hsets

/-- Updating whole bytes sets their bits and no others. -/
theorem updateBytes_updates (used : UsedMap) (count byte : ℕ) (h : byte + count ≤ 32) :
    ∃ u, (updateBytes full used count byte : Exec Error UsedMap) = .ok u ∧
      Updates v (8 * byte) (8 * (byte + count)) used u := by
  induction count generalizing used byte with
  | zero => exact ⟨used, rfl, updates_refl _ _ _⟩
  | succ count ih =>
    have hset : Updates v (8 * byte) (8 * byte + 8) used (used.set byte full (by omega)) := by
      refine updates_set (by omega) (Nat.le_refl _) (Nat.le_refl _) fun j hj => ?_
      rw [if_pos (by omega), hsets.full j hj]
    obtain ⟨u, hu, hrest⟩ := ih (used.set byte full (by omega)) (byte + 1) (by omega)
    refine ⟨u, ?_, ?_⟩
    · rw [updateBytes, used.store_ok (by omega), Exec.ok_bind, hu]
    · have hall := hset.trans (by rwa [show 8 * byte + 8 = 8 * (byte + 1) by omega]) (by omega)
        (show 8 * byte + 8 ≤ 8 * (byte + 1 + count) by omega)
      rwa [show byte + (count + 1) = byte + 1 + count by omega]

/-- The last byte of a range. -/
theorem updateTail_updates (used : UsedMap) (byte bit : ℕ) (h : bit ≠ 0 → byte < 32)
    (hbit : bit ≤ 8) : ∃ u, (updateTail combine used byte bit : Exec Error UsedMap) = .ok u ∧
      Updates v (8 * byte) (8 * byte + bit) used u := by
  unfold updateTail
  split_ifs with hzero
  · obtain ⟨m, hm, hbits⟩ := getLsbD_lowMask hbit
    rw [used.load_ok (h hzero), Exec.ok_bind, hm, Exec.ok_bind, used.store_ok (h hzero)]
    refine ⟨_, rfl, updates_set (h hzero) (Nat.le_refl _) (by omega) fun j hj => ?_⟩
    rw [hsets.combine _ _ j hj, hbits j hj]
    simp
  · rw [not_not] at hzero
    subst hzero
    exact ⟨used, rfl, updates_refl _ _ _⟩

/-- A range from a byte boundary on. -/
theorem updateFrom_updates (used : UsedMap) (byte len : ℕ) (h : 8 * byte + len ≤ 256) :
    ∃ u, (updateFrom combine full used byte len : Exec Error UsedMap) = .ok u ∧
      Updates v (8 * byte) (8 * byte + len) used u := by
  have hdiv : len >>> 3 = len / 8 := by rw [Nat.shiftRight_eq_div_pow]
  have hmod : len &&& 7 = len % 8 := Nat.and_two_pow_sub_one_eq_mod len 3
  obtain ⟨u, hu, hbytes⟩ := updateBytes_updates hsets used (len / 8) byte (by omega)
  obtain ⟨w, hw, htail⟩ := updateTail_updates hsets u (byte + len / 8) (len % 8) (by omega)
    (by omega)
  refine ⟨w, ?_, ?_⟩
  · rw [updateFrom, hdiv, hmod, hu, Exec.ok_bind, hw]
  · have hall := hbytes.trans htail (by omega) (by omega)
    rwa [show 8 * (byte + len / 8) + len % 8 = 8 * byte + len by omega] at hall

/-- **The byte-wise updates set exactly the range**, when it ends before the last block.

**Proof sketch.** An empty range changes nothing. If the range starts inside a byte, that byte is
combined with a mask of the bits up to its end, or up to the end of the range when this is in the
same byte; the bytes after it are `updateFrom_updates`. The two parts meet at a byte boundary, so
that together they update the range. -/
theorem bitUpdate_updates (used : UsedMap) {start len : ℕ} (h : start + len ≤ 255) :
    ∃ u, (bitUpdate combine full used start len : Exec Error UsedMap) = .ok u ∧
      Updates v start (start + len) used u := by
  unfold bitUpdate
  by_cases hlen : len = 0
  · subst hlen
    exact ⟨used, by simp [bitBoundsCheck], updates_refl _ _ _⟩
  have hbounds : bitBoundsCheck start len = false := by
    simp [bitBoundsCheck, hlen]
    omega
  have hdiv : start >>> 3 = start / 8 := by rw [Nat.shiftRight_eq_div_pow]
  have hmod : start &&& 7 = start % 8 := Nat.and_two_pow_sub_one_eq_mod start 3
  rw [hbounds, if_neg (by decide), hdiv, hmod]
  unfold updateOf
  split_ifs with hbit
  · obtain ⟨m, hm, hbits⟩ := getLsbD_mask (n := min len (8 - start % 8)) (by omega)
      (show start % 8 < 8 by omega)
    rw [used.load_ok (by omega), Exec.ok_bind, hm, Exec.ok_bind, used.store_ok (by omega),
      Exec.ok_bind]
    have hhead : Updates v start (start + min len (8 - start % 8)) used
        (used.set (start / 8) (combine used[start / 8]
          (m <<< UInt32.ofNat (start % 8)).toUInt8) (by omega)) := by
      refine updates_set (by omega) (by omega) (by omega) fun j hj => ?_
      rw [hsets.combine _ _ j hj, hbits j hj]
      simp only [decide_eq_true_eq]
      refine if_congr ?_ rfl rfl
      omega
    obtain ⟨u, hu, hrest⟩ := updateFrom_updates hsets _ (start / 8 + 1)
      (len - min len (8 - start % 8)) (by omega)
    refine ⟨u, hu, ?_⟩
    by_cases hshort : len ≤ 8 - start % 8
    · -- the range ends inside its first byte
      intro k
      rw [hrest k, hhead k, Nat.min_eq_left hshort, if_neg (by omega)]
    · rw [Nat.min_eq_right (by omega)] at hhead hrest
      have hall := hhead.trans (by rwa [show start + (8 - start % 8) = 8 * (start / 8 + 1) by omega])
        (by omega) (by omega)
      rwa [show 8 * (start / 8 + 1) + (len - (8 - start % 8)) = start + len by omega] at hall
  · obtain ⟨u, hu, hall⟩ := updateFrom_updates hsets used (start / 8) len (by omega)
    refine ⟨u, hu, ?_⟩
    rwa [show 8 * (start / 8) = start by omega] at hall

end Combine

/-! ## Looking up a range -/

section Occupation

variable (used : UsedMap)

/-- Bits that are shifted out of nothing are not lost. -/
theorem shiftIn_spec {res x : UInt64} {a s : ℕ} (hres : res.toNat < 2 ^ a) (hs : s ≤ 8)
    (h64 : a + s ≤ 64) :
    (((res <<< UInt64.ofNat s) ||| x = 0) ↔ res = 0 ∧ x = 0) ∧
      (x.toNat < 2 ^ (a + s) → ((res <<< UInt64.ofNat s) ||| x).toNat < 2 ^ (a + s)) := by
  have hpow : 2 ^ (a + s) ≤ 2 ^ 64 := Nat.pow_le_pow_right (by decide) h64
  have hlt : res.toNat * 2 ^ s < 2 ^ (a + s) := by
    rw [Nat.pow_add]
    exact Nat.mul_lt_mul_of_pos_right hres (Nat.two_pow_pos s)
  have hshift : (res <<< UInt64.ofNat s).toNat = res.toNat * 2 ^ s := by
    have hs' : (UInt64.ofNat s).toNat % 64 = s := by
      rw [UInt64.toNat_ofNat_of_lt' (by simp only [UInt64.size]; omega)]
      omega
    rw [UInt64.toNat_shiftLeft, hs', Nat.shiftLeft_eq, Nat.mod_eq_of_lt (by omega)]
  have htoNat : ((res <<< UInt64.ofNat s) ||| x).toNat = res.toNat * 2 ^ s ||| x.toNat := by
    rw [UInt64.toNat_or, hshift]
  constructor
  · rw [← UInt64.toNat_inj, htoNat, ← UInt64.toNat_inj, ← UInt64.toNat_inj]
    simp
  · intro hx
    rw [htoNat]
    exact Nat.or_lt_two_pow hlt hx

/-- A byte is zero as a number iff its bits are. -/
theorem byte_eq_zero {b : UInt8} : b.toUInt64 = 0 ↔ ∀ j < 8, b.toBitVec.getLsbD j = false := by
  rw [← UInt64.toNat_inj, UInt8.toNat_toUInt64, show (0 : UInt64).toNat = (0 : UInt8).toNat from rfl,
    UInt8.toNat_inj]
  constructor
  · rintro rfl j -
    simp
  · intro h
    refine UInt8.toBitVec_inj.mp (BitVec.eq_of_getLsbD_eq fun j hj => ?_)
    rw [h j hj]
    simp

/-- Whole bytes are shifted in without losing a bit.

**Proof sketch.** Induction on the number of bytes. Shifting a byte in keeps all bits as long as
they fit (`shiftIn_spec`), which the bound on the width says; so the result vanishes iff it did
before and the byte is zero, which is that none of its bits is set. -/
theorem occupationBytes_spec (count byte diff a : ℕ) (res : UInt64) (h : byte + count ≤ 32)
    (hdiff : diff ≤ 8) (hres : res.toNat < 2 ^ a)
    (hfits : count ≠ 0 → 8 ≤ a + diff ∧ a + diff + 8 * (count - 1) ≤ 64) :
    ∃ r, (occupationBytes used count byte diff res : Exec Error UInt64) = .ok r ∧
      r.toNat < 2 ^ (if count = 0 then a else a + diff + 8 * (count - 1)) ∧
      (r = 0 ↔ res = 0 ∧ ∀ k, 8 * byte ≤ k → k < 8 * (byte + count) → used.bit k = false) := by
  induction count generalizing byte diff a res with
  | zero => exact ⟨res, rfl, hres, by simp; omega⟩
  | succ count ih =>
    obtain ⟨hlow, hhigh⟩ := hfits (by omega)
    have hbyte : (used[byte]).toUInt64.toNat < 2 ^ (a + diff) := by
      rw [UInt8.toNat_toUInt64]
      exact Nat.lt_of_lt_of_le (used[byte]).toNat_lt (Nat.pow_le_pow_right (by decide) hlow)
    obtain ⟨hzero, hbound⟩ := shiftIn_spec (x := used[byte].toUInt64) hres hdiff (by omega)
    obtain ⟨r, hr, hlt, hiff⟩ := ih (byte + 1) 8 (a + diff)
      ((res <<< UInt64.ofNat diff) ||| used[byte].toUInt64) (by omega) (Nat.le_refl _)
      (hbound hbyte) (by omega)
    refine ⟨r, ?_, ?_, ?_⟩
    · rw [occupationBytes, used.load_ok (by omega), Exec.ok_bind, hr]
    · rw [if_neg (Nat.succ_ne_zero count), Nat.add_sub_cancel]
      refine Nat.lt_of_lt_of_le hlt (Nat.pow_le_pow_right (by decide) ?_)
      by_cases hcount : count = 0
      · rw [if_pos hcount]
        omega
      · rw [if_neg hcount]
        omega
    · rw [hiff, hzero, and_assoc]
      refine and_congr_right fun _ => ?_
      rw [byte_eq_zero]
      constructor
      · rintro ⟨hfirst, hrest⟩ k hlo hhi
        by_cases hk : k < 8 * (byte + 1)
        · have hsplit : k = 8 * byte + (k - 8 * byte) := by omega
          rw [hsplit, used.bit_add (by omega) (by omega)]
          exact hfirst _ (by omega)
        · exact hrest k (by omega) (by omega)
      · intro hall
        refine ⟨fun j hj => ?_, fun k hlo hhi => hall k (by omega) (by omega)⟩
        rw [← used.bit_add (by omega) hj]
        exact hall _ (by omega) (by omega)

/-- The bits from a byte boundary on.

**Proof sketch.** The whole bytes are `occupationBytes_spec`. The bits behind them are those of one
more byte under a mask, shifted in as the others. -/
theorem occupationFrom_spec (byte len diff a : ℕ) (res : UInt64) (h : 8 * byte + len ≤ 256)
    (hdiff : diff ≤ 8) (hres : res.toNat < 2 ^ a)
    (hfits : 8 ≤ len → 8 ≤ a + diff ∧ a + diff + (len - 8) ≤ 64) (hshort : len < 8 → a + len ≤ 64) :
    ∃ r, (occupationFrom used byte len diff res : Exec Error UInt64) = .ok r ∧
      (r = 0 ↔ res = 0 ∧ ∀ k, 8 * byte ≤ k → k < 8 * byte + len → used.bit k = false) := by
  have hdiv : len >>> 3 = len / 8 := by rw [Nat.shiftRight_eq_div_pow]
  have hmod : len &&& 7 = len % 8 := Nat.and_two_pow_sub_one_eq_mod len 3
  obtain ⟨r, hr, hlt, hiff⟩ := occupationBytes_spec used (len / 8) byte diff a res
    (by omega) hdiff hres (by omega)
  rw [occupationFrom, hdiv, hmod, hr, Exec.ok_bind, occupationTail]
  split_ifs with htail
  · obtain ⟨m, hm, hbits⟩ := getLsbD_lowMask (n := len % 8) (by omega)
    rw [used.load_ok (by omega), Exec.ok_bind, hm, Exec.ok_bind]
    refine ⟨_, rfl, ?_⟩
    rw [(shiftIn_spec hlt (by omega) (by split_ifs <;> omega)).1, hiff, and_assoc]
    refine and_congr_right fun _ => ?_
    rw [byte_eq_zero]
    have htailBits : ∀ j < 8, (used[byte + len / 8] &&& m.toUInt8).toBitVec.getLsbD j =
        (used.bit (8 * (byte + len / 8) + j) && decide (j < len % 8)) := by
      intro j hj
      rw [UInt8.toBitVec_and, BitVec.getLsbD_and, hbits j hj, used.bit_add (by omega) hj]
    constructor
    · rintro ⟨hbytes, hlast⟩ k hlo hhi
      by_cases hk : k < 8 * (byte + len / 8)
      · exact hbytes k hlo hk
      · have hj := hlast (k - 8 * (byte + len / 8)) (by omega)
        rw [htailBits _ (by omega), decide_eq_true (by omega), Bool.and_true,
          Nat.add_sub_cancel' (by omega)] at hj
        exact hj
    · intro hall
      refine ⟨fun k hlo hhi => hall k hlo (by omega), fun j hj => ?_⟩
      rw [htailBits j hj]
      by_cases hlt' : j < len % 8
      · rw [hall _ (by omega) (by omega), Bool.false_and]
      · rw [decide_eq_false hlt', Bool.and_false]
  · refine ⟨r, rfl, ?_⟩
    rw [hiff, show 8 * (byte + len / 8) = 8 * byte + len by omega]

/-- **What a search sees of a window**: nothing when it is empty or ends at the last block or
after it, and otherwise its first 64 blocks.

**Proof sketch.** Out of bounds the function returns zero. Otherwise the first byte is taken under a
mask when the window does not start at a byte boundary, and the rest is `occupationFrom_spec`, which
needs that no more than 64 bits are shifted in. -/
theorem checkOccupation_eq_zero (start len : ℕ) :
    ∃ r, (checkOccupation used start len : Exec Error UInt64) = .ok r ∧
      (r = 0 ↔ 255 < start + len ∨ ∀ k < min len 64, used.bit (start + k) = false) := by
  unfold checkOccupation
  by_cases hbounds : bitBoundsCheck start len = true
  · rw [if_pos hbounds]
    refine ⟨0, rfl, iff_of_true rfl ?_⟩
    simp only [bitBoundsCheck, Bool.or_eq_true, beq_iff_eq, decide_eq_true_eq] at hbounds
    rcases hbounds with rfl | h
    · exact Or.inr fun k hk => absurd hk (by omega)
    · exact Or.inl h
  rw [if_neg hbounds]
  simp only [bitBoundsCheck, Bool.or_eq_true, beq_iff_eq, decide_eq_true_eq, not_or] at hbounds
  have hdiv : start >>> 3 = start / 8 := by rw [Nat.shiftRight_eq_div_pow]
  have hmod : start &&& 7 = start % 8 := Nat.and_two_pow_sub_one_eq_mod start 3
  rw [hdiv, hmod]
  have hwindow : ∀ r : UInt64, (r = 0 ↔ ∀ k, start ≤ k → k < start + min len 64 →
      used.bit k = false) →
      (r = 0 ↔ 255 < start + len ∨ ∀ k < min len 64, used.bit (start + k) = false) := by
    intro r hr
    rw [hr, or_iff_right hbounds.2]
    constructor
    · exact fun h k hk => h _ (by omega) (by omega)
    · intro h k hlo hhi
      have hk := h (k - start) (by omega)
      rwa [Nat.add_sub_cancel' hlo] at hk
  unfold occupationOf
  split_ifs with hbit
  · obtain ⟨m, hm, hbits⟩ := getLsbD_mask (n := min (min len 64) (8 - start % 8)) (by omega)
      (show start % 8 < 8 by omega)
    rw [occupationHead, used.load_ok (by omega), Exec.ok_bind, hm, Exec.ok_bind]
    have hhead : ∀ j < 8, (used[start / 8] &&& (m <<< UInt32.ofNat (start % 8)).toUInt8).toBitVec.getLsbD
        j = (used.bit (8 * (start / 8) + j) &&
          decide (start % 8 ≤ j ∧ j < start % 8 + min (min len 64) (8 - start % 8))) := by
      intro j hj
      rw [UInt8.toBitVec_and, BitVec.getLsbD_and, hbits j hj, used.bit_add (by omega) hj]
    obtain ⟨r, hr, hiff⟩ := occupationFrom_spec used (start / 8 + 1)
      (min len 64 - min (min len 64) (8 - start % 8)) (min (min len 64) (8 - start % 8)) 8
      (used[start / 8] &&& (m <<< UInt32.ofNat (start % 8)).toUInt8).toUInt64 (by omega) (by omega)
      (by rw [UInt8.toNat_toUInt64]; exact UInt8.toNat_lt _) (by omega) (by omega)
    refine ⟨r, hr, hwindow r (hiff.trans ?_)⟩
    rw [byte_eq_zero]
    constructor
    · rintro ⟨hfirst, hrest⟩ k hlo hhi
      by_cases hk : k < 8 * (start / 8 + 1)
      · have hj := hfirst (k - 8 * (start / 8)) (by omega)
        rw [hhead _ (by omega), decide_eq_true (by omega), Bool.and_true,
          Nat.add_sub_cancel' (by omega)] at hj
        exact hj
      · exact hrest k (by omega) (by omega)
    · intro hall
      refine ⟨fun j hj => ?_, fun k hlo hhi => hall k (by omega) (by omega)⟩
      rw [hhead j hj]
      by_cases hin : start % 8 ≤ j ∧ j < start % 8 + min (min len 64) (8 - start % 8)
      · rw [hall _ (by omega) (by omega), Bool.false_and]
      · rw [decide_eq_false hin, Bool.and_false]
  · obtain ⟨r, hr, hiff⟩ := occupationFrom_spec used (start / 8) (min len 64)
      (min (min len 64) (8 - start % 8)) 0 0 (by omega) (by omega) (by decide) (by omega) (by omega)
    refine ⟨r, hr, hwindow r (hiff.trans ?_)⟩
    rw [show 8 * (start / 8) = start by omega]
    simp

end Occupation

/-- A block belongs to a managed node. -/
def FreeListNode.Covers (node : FreeListNode) (k : ℕ) : Prop :=
  ∃ start, node.block = some start ∧ start ≤ k ∧ k < start + FreeList.blockSize node.size

/-- A managed node covers the blocks from its start on that its size takes. -/
theorem FreeListNode.covers_managed {size start k : ℕ} :
    FreeListNode.Covers ⟨size, some start⟩ k ↔
      start ≤ k ∧ k < start + FreeList.blockSize size := by
  constructor
  · rintro ⟨s, hs, h⟩
    obtain rfl := Option.some.inj hs
    exact h
  · exact fun h => ⟨start, rfl, h⟩

/-- An unmanaged node covers nothing. -/
theorem FreeListNode.not_covers_unmanaged {size k : ℕ} : ¬FreeListNode.Covers ⟨size, none⟩ k := by
  rintro ⟨start, hstart, -⟩
  cases hstart

namespace FreeList

/-! ## The search -/

/-- The first 64 blocks of a window are free. -/
def LooksFree (used : UsedMap) (n start : ℕ) : Prop := ∀ k < min n 64, used.bit (start + k) = false

/-- The window at `start` is the first at which the search for `n` blocks stops inside the
bitmap. -/
structure FirstWindow (used : UsedMap) (n start : ℕ) : Prop where
  multiple : n ∣ start
  inBounds : start + n ≤ 255
  looksFree : LooksFree used n start
  first : ∀ s < start, n ∣ s → ¬LooksFree used n s

/-- The search stops at the first window, or runs past the bitmap.

**Proof sketch.** Strong induction on the blocks that are left, with the invariant that no window
before `start` looks free. The search steps by the length of the window, and between two windows
there is no other multiple of it. -/
theorem freeBlockSearch_spec (used : UsedMap) (n : ℕ) :
    ∃ r, freeBlockSearch used n 0 = .ok r ∧ n ∣ r ∧ (∀ s < r, n ∣ s → ¬LooksFree used n s) ∧
      (255 < r + n ∨ LooksFree used n r) := by
  have hsearch : ∀ d start, 256 - start = d → n ∣ start →
      (∀ s < start, n ∣ s → ¬LooksFree used n s) →
      ∃ r, freeBlockSearch used n start = .ok r ∧ n ∣ r ∧
        (∀ s < r, n ∣ s → ¬LooksFree used n s) ∧ (255 < r + n ∨ LooksFree used n r) := by
    intro d
    induction d using Nat.strongRecOn with
    | ind d ih =>
      intro start hd hdvd hfirst
      obtain ⟨occupation, hocc, hiff⟩ := checkOccupation_eq_zero used start n
      unfold freeBlockSearch
      split
      case h_1 occupation' h =>
        obtain rfl := Exec.ok.inj (hocc.symm.trans h)
        split_ifs with hzero
        · exact ⟨start, rfl, hdvd, hfirst, hiff.mp hzero⟩
        · have hbounds := in_bounds_of_occupied h hzero
          have hoccupied : ¬LooksFree used n start := fun hfree => hzero (hiff.mpr (Or.inr hfree))
          refine ih (256 - (start + n)) (by omega) _ rfl (Nat.dvd_add hdvd (Nat.dvd_refl n)) ?_
          intro s hs hsdvd
          by_cases hlt : s < start
          · exact hfirst s hlt hsdvd
          · -- the only multiple before the next window is the window itself
            have hsame : s = start := by
              obtain ⟨a, rfl⟩ := hdvd
              obtain ⟨b, rfl⟩ := hsdvd
              have hab : b < a + 1 := by
                by_contra hge
                have := Nat.mul_le_mul_left n (Nat.le_of_not_lt hge)
                rw [Nat.mul_add, Nat.mul_one] at this
                omega
              have hba : a ≤ b := by
                by_contra hge
                have := Nat.mul_le_mul_left n (show b + 1 ≤ a by omega)
                rw [Nat.mul_add, Nat.mul_one] at this
                omega
              rw [show b = a by omega]
            rw [hsame]
            exact hoccupied
      case h_2 e h => rw [hocc] at h; cases h
      case h_3 h => rw [hocc] at h; cases h
  exact hsearch _ 0 rfl (Nat.dvd_zero n) fun s hs => absurd hs (Nat.not_lt_zero s)

/-- **The blocks of an allocation** are the first window, if there is one. -/
theorem getFreeBlockIndex_spec (used : UsedMap) (n : ℕ) :
    ∃ r, getFreeBlockIndex used n = .ok r ∧ ∀ start, r = some start ↔ FirstWindow used n start := by
  obtain ⟨r, hr, hdvd, hfirst, hstop⟩ := freeBlockSearch_spec used n
  refine ⟨if r + n ≤ 255 then some r else none, ?_, fun start => ?_⟩
  · rw [getFreeBlockIndex, hr]
    rfl
  · constructor
    · intro h
      split_ifs at h with hbounds
      obtain rfl := Option.some.inj h
      exact ⟨hdvd, hbounds, hstop.resolve_left (by omega), hfirst⟩
    · intro h
      have hle : r ≤ start := by
        by_contra hlt
        exact hfirst start (by omega) h.multiple h.looksFree
      have hsame : r = start := by
        by_contra hne
        have hlooks := hstop.resolve_left (by have := h.inBounds; omega)
        exact h.first r (by omega) hdvd hlooks
      rw [hsame, if_pos h.inBounds]

/-! ## Allocation and release -/

/-- A node whose blocks, if it has any, lie before the last block. -/
def InBitmap (node : FreeListNode) : Prop :=
  ∀ start, node.block = some start → start + blockSize node.size ≤ 255

/-- **Allocation** takes the first window, if there is one, and marks its blocks. -/
theorem allocate_spec (size : ℕ) (list : FreeList) :
    ∃ node list', allocate size list = (.ok node, list') ∧ node.size = size ∧
      (∀ start, node.block = some start ↔ FirstWindow list.used (blockSize size) start) ∧
      ∀ k, list'.used.bit k = true ↔ list.used.bit k = true ∨ node.Covers k := by
  obtain ⟨r, hr, hwindow⟩ := getFreeBlockIndex_spec list.used (blockSize size)
  unfold allocate
  rw [ExecM.bind_of_ok (ExecM.get_apply list), ExecM.bind_of_ok (by rw [ExecM.lift_apply, hr])]
  cases r with
  | none =>
    exact ⟨⟨size, none⟩, list, rfl, rfl, hwindow,
      fun k => (or_iff_left FreeListNode.not_covers_unmanaged).symm⟩
  | some start =>
    have hbounds := ((hwindow start).mp rfl).inBounds
    obtain ⟨used, hused, hbits⟩ := bitUpdate_updates sets_or list.used hbounds
    have hon : (bitOn list.used start (blockSize size) : Exec Error UsedMap) = .ok used := hused
    refine ⟨⟨size, some start⟩, { list with used := used }, ?_, rfl, hwindow, fun k => ?_⟩
    · dsimp only
      rw [ExecM.bind_of_ok (by rw [ExecM.lift_apply, hon]), ExecM.bind_of_ok (ExecM.set_apply _ _)]
      rfl
    · rw [FreeListNode.covers_managed, hbits k]
      split_ifs with h <;> simp [h]

/-- **Release** unmarks the blocks of a node. -/
theorem release_spec {node : FreeListNode} (hnode : InBitmap node) (list : FreeList) :
    ∃ list', release node list = (.ok (), list') ∧
      ∀ k, list'.used.bit k = true ↔ list.used.bit k = true ∧ ¬node.Covers k := by
  obtain ⟨size, _ | start⟩ := node
  · exact ⟨list, rfl, fun k => (and_iff_left FreeListNode.not_covers_unmanaged).symm⟩
  · obtain ⟨used, hused, hbits⟩ := bitUpdate_updates sets_andNot list.used (hnode start rfl)
    have hoff : (bitOff list.used start (blockSize size) : Exec Error UsedMap) = .ok used := hused
    refine ⟨{ list with used := used }, ?_, fun k => ?_⟩
    · change deallocate size start list = _
      unfold deallocate
      rw [ExecM.bind_of_ok (ExecM.get_apply list), ExecM.bind_of_ok (by rw [ExecM.lift_apply, hoff])]
      rfl
    · rw [FreeListNode.covers_managed, hbits k]
      split_ifs with h <;> simp [h]

/-! ## Runs -/

/-- The allocator with the nodes that have not been dropped. -/
structure Heap where
  list : FreeList
  live : List FreeListNode

/-- What a user of the allocator can do: ask for a buffer, or drop one of the live nodes. -/
inductive Action where
  | allocate (size : ℕ)
  | drop (i : ℕ)
  deriving DecidableEq, Repr

/-- A computation on the allocator of a heap. -/
def Heap.onList {α : Type} (x : ExecM FreeList Error α) : ExecM Heap Error α :=
  ExecM.zoom Heap.list (fun h list => { h with list := list }) x

/-- A call that returns changes the list and no live node. -/
theorem Heap.onList_of_ok {α : Type} {x : ExecM FreeList Error α} {h : Heap} {a : α}
    {list : FreeList} (hx : x h.list = (.ok a, list)) :
    Heap.onList x h = (.ok a, ⟨list, h.live⟩) :=
  ExecM.zoom_of_ok hx

/-- One action. -/
def step : Action → ExecM Heap Error Unit
  | .allocate size => do
    let node ← Heap.onList (allocate size)
    let h ← ExecM.get
    ExecM.set { h with live := h.live ++ [node] }
  | .drop i => do
    let h ← ExecM.get
    match h.live[i]? with
    | none => pure ()
    | some node => do
      Heap.onList (release node)
      let h ← ExecM.get
      ExecM.set { h with live := h.live.eraseIdx i }

/-- Actions one after the other. -/
def run : List Action → ExecM Heap Error Unit
  | [] => pure ()
  | a :: as => do
    step a
    run as

/-- A request for `n` blocks is served with free ones: when there is a first window, all of it is
free, and not only the first 64 blocks. -/
def ServedFree (used : UsedMap) (n : ℕ) : Prop :=
  ∀ start, FirstWindow used n start → ∀ k < n, used.bit (start + k) = false

/-- Every request of a run is served with free blocks. -/
def AllServedFree : List Action → Heap → Prop
  | [], _ => True
  | a :: as, h => (∀ size, a = .allocate size → ServedFree h.list.used (blockSize size)) ∧
      ∀ h', step a h = (.ok (), h') → AllServedFree as h'

/-- **The invariant**: the live nodes own the blocks that are in use, each of them its own. -/
structure Consistent (h : Heap) : Prop where
  owned : Ownership.Owned FreeListNode.Covers (fun k => h.list.used.bit k = true) h.live
  inBitmap : ∀ node ∈ h.live, InBitmap node

/-- Requests for at most 64 blocks are served with free ones. -/
theorem servedFree_of_le {n : ℕ} (h : n ≤ 64) (used : UsedMap) : ServedFree used n :=
  fun _ hwindow k hk => hwindow.looksFree k (by omega)

/-- **When an allocation takes only free blocks.** -/
theorem allocate_free_iff {size : ℕ} {list list' : FreeList} {node : FreeListNode}
    (h : allocate size list = (.ok node, list')) :
    (∀ k, node.Covers k → list.used.bit k = false) ↔ ServedFree list.used (blockSize size) := by
  obtain ⟨node', _, h', hsize, hblock, -⟩ := allocate_spec size list
  obtain ⟨hnode, -⟩ := Prod.mk.inj (h.symm.trans h')
  obtain rfl := Exec.ok.inj hnode
  constructor
  · intro hfree start hwindow k hk
    refine hfree _ ⟨start, (hblock start).mpr hwindow, by omega, ?_⟩
    rw [hsize]
    omega
  · rintro hserved k ⟨start, hstart, hlo, hhi⟩
    rw [hsize] at hhi
    have hk := hserved start ((hblock start).mp hstart) (k - start) (by omega)
    rwa [Nat.add_sub_cancel' hlo] at hk

/-- Allocating appends the node to the live ones. -/
theorem step_allocate_eq {h : Heap} {size : ℕ} {node : FreeListNode} {list' : FreeList}
    (halloc : allocate size h.list = (.ok node, list')) :
    step (.allocate size) h = (.ok (), ⟨list', h.live ++ [node]⟩) := by
  rw [step, ExecM.bind_of_ok (Heap.onList_of_ok halloc), ExecM.bind_of_ok (ExecM.get_apply _)]
  rfl

/-- Dropping a node releases it and forgets it. -/
theorem step_drop_eq {h : Heap} {i : ℕ} {node : FreeListNode} {list' : FreeList}
    (hnode : h.live[i]? = some node) (hrelease : release node h.list = (.ok (), list')) :
    step (.drop i) h = (.ok (), ⟨list', h.live.eraseIdx i⟩) := by
  rw [step, ExecM.bind_of_ok (ExecM.get_apply h), hnode]
  dsimp only
  rw [ExecM.bind_of_ok (Heap.onList_of_ok hrelease), ExecM.bind_of_ok (ExecM.get_apply _)]
  rfl

/-- An allocation that is served with free blocks keeps the invariant. -/
theorem step_allocate {h : Heap} (hc : Consistent h) {size : ℕ}
    (hserved : ServedFree h.list.used (blockSize size)) :
    ∃ h', step (.allocate size) h = (.ok (), h') ∧ Consistent h' := by
  obtain ⟨node, list', halloc, hsize, hblock, hbits⟩ := allocate_spec size h.list
  have hfree := (allocate_free_iff halloc).mpr hserved
  refine ⟨⟨list', h.live ++ [node]⟩, step_allocate_eq halloc, ?_, ?_⟩
  · exact (hc.owned.add fun k hk => by simp [hfree k hk]).congr hbits
  · intro n hn start hstart
    rcases List.mem_append.mp hn with hn | hn
    · exact hc.inBitmap n hn start hstart
    · obtain rfl := List.mem_singleton.mp hn
      rw [hsize]
      exact ((hblock start).mp hstart).inBounds

/-- A drop keeps the invariant. -/
theorem step_drop {h : Heap} (hc : Consistent h) (i : ℕ) :
    ∃ h', step (.drop i) h = (.ok (), h') ∧ h'.live = h.live.eraseIdx i ∧ Consistent h' := by
  cases hnode : h.live[i]? with
  | none =>
    refine ⟨h, ?_, ?_, hc⟩
    · rw [step, ExecM.bind_of_ok (ExecM.get_apply h), hnode]
      rfl
    · rw [List.eraseIdx_of_length_le (List.getElem?_eq_none_iff.mp hnode)]
  | some node =>
    obtain ⟨list', hrelease, hbits⟩ :=
      release_spec (hc.inBitmap node (List.mem_of_getElem? hnode)) h.list
    exact ⟨⟨list', h.live.eraseIdx i⟩, step_drop_eq hnode hrelease, rfl,
      (hc.owned.remove hnode).congr hbits,
      fun n hn => hc.inBitmap n (List.mem_of_mem_eraseIdx hn)⟩

/-- **A run whose requests are served with free blocks** keeps the invariant. -/
theorem run_consistent {actions : List Action} {h : Heap} (hc : Consistent h)
    (hserved : AllServedFree actions h) : ∃ h', run actions h = (.ok (), h') ∧ Consistent h' := by
  induction actions generalizing h with
  | nil => exact ⟨h, rfl, hc⟩
  | cons a as ih =>
    obtain ⟨hfirst, hrest⟩ := hserved
    obtain ⟨h₁, hstep, hc₁⟩ : ∃ h', step a h = (.ok (), h') ∧ Consistent h' := by
      cases a with
      | allocate size => exact step_allocate hc (hfirst size rfl)
      | drop i =>
        obtain ⟨h', hstep, -, hc'⟩ := step_drop hc i
        exact ⟨h', hstep, hc'⟩
    obtain ⟨h', hrun, hc'⟩ := ih hc₁ (hrest h₁ hstep)
    exact ⟨h', by rw [run, ExecM.bind_of_ok hstep, hrun], hc'⟩

/-- Drops alone are always served. -/
theorem allServedFree_drops (order : List ℕ) (h : Heap) : AllServedFree (order.map .drop) h := by
  induction order generalizing h with
  | nil => trivial
  | cons i order ih => exact ⟨fun size hsize => (by cases hsize), fun h' _ => ih h'⟩

/-- The bitmap without blocks in use. -/
theorem used_eq_zero {used : UsedMap} (h : ∀ k, ¬used.bit k = true) :
    used = Vector.replicate 32 0 := by
  apply Vector.ext
  intro i hi
  rw [Vector.getElem_replicate]
  refine UInt8.toBitVec_inj.mp (BitVec.eq_of_getLsbD_eq fun j hj => ?_)
  rw [← used.bit_add hi hj]
  simpa using h (8 * i + j)

/-- The allocator starts consistent. -/
theorem consistent_new (slab heap : ℕ → UInt8) : Consistent ⟨new slab heap, []⟩ := by
  refine ⟨Ownership.owned_nil.mpr fun k hk => ?_, fun node hnode => by cases hnode⟩
  by_cases hlt : k < 256
  · rw [show k = 8 * (k / 8) + k % 8 by omega, UsedMap.bit_add _ (by omega) (by omega)] at hk
    simp [new] at hk
  · rw [UsedMap.bit_of_le (by omega)] at hk
    cases hk

/-- The blocks of a managed node lie in the slab. -/
theorem le_slabSize {node : FreeListNode} (h : InBitmap node) {start : ℕ}
    (hstart : node.block = some start) : start <<< blockShift + node.size ≤ slabSize := by
  have hbounds := h start hstart
  simp only [blockSize, blockShift, Nat.shiftRight_eq_div_pow, Nat.shiftLeft_eq, slabSize] at hbounds ⊢
  omega

/-- Dropping the first node again and again drops all. -/
theorem run_dropAll {h : Heap} (hc : Consistent h) :
    ∃ h', run (List.replicate h.live.length (.drop 0)) h = (.ok (), h') ∧ h'.live = [] := by
  induction hn : h.live.length generalizing h with
  | zero => exact ⟨h, rfl, List.length_eq_zero_iff.mp hn⟩
  | succ n ih =>
    obtain ⟨h₁, hstep, hlive, hc₁⟩ := step_drop hc 0
    obtain ⟨h', hrun, hnil⟩ := ih hc₁ (by rw [hlive, List.length_eraseIdx_of_lt (by omega)]; omega)
    exact ⟨h', by rw [List.replicate_succ, run, ExecM.bind_of_ok hstep, hrun], hnil⟩

/-- **Live nodes do not overlap**, in every run whose requests are served with free blocks: their
blocks are disjoint and in the slab, exactly they are marked, the next allocation takes only free
blocks iff it is served with free blocks, and after all nodes are dropped, in whatever order,
nothing is marked.

**Proof sketch.** The consistency of the heap is the invariant of the run (`run_consistent`);
disjointness, the bounds and the exactness of the map are its fields. Dropping all that is live is
one more run, and it ends in a heap that owns nothing, so that the map is zero. -/
theorem run_blocks (slab heap : ℕ → UInt8) (actions : List Action)
    (hserved : AllServedFree actions ⟨new slab heap, []⟩) :
    ∃ h, run actions ⟨new slab heap, []⟩ = (.ok (), h) ∧
      (h.live.Pairwise fun a b => ∀ k, a.Covers k → ¬b.Covers k) ∧
      (∀ node ∈ h.live, ∀ start, node.block = some start →
        start + blockSize node.size ≤ 255 ∧ start <<< blockShift + node.size ≤ slabSize) ∧
      (∀ k, h.list.used.bit k = true ↔ ∃ node ∈ h.live, node.Covers k) ∧
      (∀ size node list', allocate size h.list = (.ok node, list') →
        ((∀ k, node.Covers k → h.list.used.bit k = false) ↔
          ServedFree h.list.used (blockSize size))) ∧
      (∃ h', run (List.replicate h.live.length (.drop 0)) h = (.ok (), h') ∧ h'.live = []) ∧
      ∀ (order : List ℕ) (h' : Heap), run (order.map .drop) h = (.ok (), h') → h'.live = [] →
        h'.list.used = Vector.replicate 32 0 := by
  obtain ⟨h, hrun, hc⟩ := run_consistent (consistent_new slab heap) hserved
  refine ⟨h, hrun, hc.owned.disjoint, fun node hnode start hstart => ?_, hc.owned.covers,
    fun size node list' => allocate_free_iff, run_dropAll hc, fun order h' hdrops hnil => ?_⟩
  · exact ⟨hc.inBitmap node hnode start hstart, le_slabSize (hc.inBitmap node hnode) hstart⟩
  · obtain ⟨h'', hdrops', hc'⟩ := run_consistent hc (allServedFree_drops order h)
    obtain ⟨-, rfl⟩ := Prod.mk.inj (hdrops.symm.trans hdrops')
    have howned := hc'.owned
    rw [hnil] at howned
    exact used_eq_zero (Ownership.owned_nil.mp howned)

/-- The run of the crate's own test: two small buffers, one of three blocks, and a drop. -/
theorem run_blocks_sample : ∃ h,
    run [.allocate 0x10, .allocate 0x10, .allocate 0xc0000, .drop 0]
      ⟨new (fun _ => 0) fun _ => 0, []⟩ = (.ok (), h) ∧
    h.live.Pairwise fun a b => ∀ k, a.Covers k → ¬b.Covers k := by
  obtain ⟨h, hrun, hdisjoint, -⟩ := run_blocks (fun _ => 0) (fun _ => 0)
    [.allocate 0x10, .allocate 0x10, .allocate 0xc0000, .drop 0] (by
      refine ⟨?_, fun _ _ => ⟨?_, fun _ _ => ⟨?_, fun _ _ => ⟨?_, fun _ _ => trivial⟩⟩⟩⟩ <;>
        intro size hsize <;> cases hsize <;> exact servedFree_of_le (by decide) _)
  exact ⟨h, hrun, hdisjoint⟩

/-- An allocation when the first window is known. -/
private theorem allocate_firstWindow (size start : ℕ) (list : FreeList)
    (h : FirstWindow list.used (blockSize size) start) :
    ∃ list', allocate size list = (.ok ⟨size, some start⟩, list') ∧ ∀ k, list'.used.bit k = true ↔
      list.used.bit k = true ∨ start ≤ k ∧ k < start + blockSize size := by
  obtain ⟨⟨size', block⟩, list', halloc, hsize, hblock, hbits⟩ := allocate_spec size list
  obtain rfl : size' = size := hsize
  obtain rfl : block = some start := (hblock start).mpr h
  refine ⟨list', halloc, fun k => ?_⟩
  rw [hbits k, FreeListNode.covers_managed]

/-- After a buffer of 64 blocks was dropped before one that stays, a buffer of 65 blocks is laid
over it.

**Proof sketch.** A buffer of 64 blocks, one of a block after it, the first one dropped, and a
buffer of 65 blocks. Each step is computed from the bits of the map by `allocate_firstWindow` and
`release_spec`. The search for 65 blocks looks at 64 of them only, so that the last buffer covers
the block 64, which is in use. -/
theorem not_run_blocks : ¬∀ (slab heap : ℕ → UInt8) (actions : List Action) (h : Heap),
    run actions ⟨new slab heap, []⟩ = (.ok (), h) →
      h.live.Pairwise fun a b => ∀ k, a.Covers k → ¬b.Covers k := by
  intro hclaim
  have h64 : blockSize 0x1000000 = 64 := by decide
  have h1 : blockSize 0x40000 = 1 := by decide
  have h65 : blockSize 0x1040000 = 65 := by decide
  have hnew : ∀ k, (new (fun _ => 0) fun _ => 0).used.bit k = false := fun k => by
    have hnone := Ownership.owned_nil.mp (consistent_new (fun _ => 0) fun _ => 0).owned k
    simpa using hnone
  -- the first 64 blocks, then the block after them
  obtain ⟨l₁, hl₁, hbits₁⟩ := allocate_firstWindow 0x1000000 0
    (new (fun _ => 0) fun _ => 0) ⟨Nat.dvd_zero _, by rw [h64]; decide,
      fun k _ => by rw [hnew], fun s hs => absurd hs (Nat.not_lt_zero s)⟩
  rw [h64] at hbits₁
  obtain ⟨l₂, hl₂, hbits₂⟩ := allocate_firstWindow 0x40000 64 l₁
    ⟨by rw [h1]; decide, by rw [h1]; decide, fun k hk => by
      rw [h1] at hk
      have hfree := (hbits₁ (64 + k)).not
      simp only [hnew, Bool.false_eq_true, false_or] at hfree
      simpa using hfree.mpr (by omega), fun s hs _ hlooks => by
      have hused := (hbits₁ s).mpr (Or.inr (by omega))
      have hfree := hlooks 0 (by rw [h1]; decide)
      rw [Nat.add_zero, hused] at hfree
      cases hfree⟩
  rw [h1] at hbits₂
  -- the first 64 blocks are given back
  have hnode : InBitmap ⟨0x1000000, some 0⟩ := fun start hstart => by
    obtain rfl := Option.some.inj hstart
    rw [h64]
    decide
  obtain ⟨l₃, hl₃, hbits₃⟩ := release_spec hnode l₂
  -- and 65 blocks from the start on are taken
  obtain ⟨l₄, hl₄, -⟩ := allocate_firstWindow 0x1040000 0 l₃
    ⟨Nat.dvd_zero _, by rw [h65]; decide, fun k hk => by
      rw [h65] at hk
      have hfree := (hbits₃ (0 + k)).not
      rw [FreeListNode.covers_managed, h64] at hfree
      simpa using hfree.mpr (fun h => h.2 (by omega)), fun s hs => absurd hs (Nat.not_lt_zero s)⟩
  have hrun : run [.allocate 0x1000000, .allocate 0x40000, .drop 0, .allocate 0x1040000]
      ⟨new (fun _ => 0) fun _ => 0, []⟩ =
      (.ok (), ⟨l₄, [⟨0x40000, some 64⟩, ⟨0x1040000, some 0⟩]⟩) := by
    rw [run, ExecM.bind_of_ok (step_allocate_eq hl₁), run, ExecM.bind_of_ok (step_allocate_eq hl₂),
      run, ExecM.bind_of_ok (step_drop_eq rfl hl₃), run, ExecM.bind_of_ok (step_allocate_eq hl₄)]
    rfl
  have hdisjoint := List.rel_of_pairwise_cons (hclaim _ _ _ _ hrun) (List.mem_singleton_self _) 64
  rw [FreeListNode.covers_managed, FreeListNode.covers_managed, h1, h65] at hdisjoint
  exact hdisjoint (by omega) (by omega)

end FreeList

end CriArchive
