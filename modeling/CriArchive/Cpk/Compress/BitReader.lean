import CriArchive.Cpk.Compress.Layla
import CriArchive.Lib.BitCode
import Mathlib.Tactic.IntervalCases

set_option relaxedAutoImplicit false
set_option autoImplicit false

/-!
# The bit reader of the CRILAYLA decompressor

The five read functions of the cursor read fixed-width numbers from the bits below the cursor,
the most significant bit first. A read that runs out of bits accesses memory outside the input
slice; no other read does.

## Main definitions

* `LaylaDecompressorCursor.Valid`, `LaylaDecompressorCursor.remaining` — the cursors that reads
  leave behind, and the bits below them.
* `ReadsAt` — a computation reads a codeword from a cursor, or leaves the input slice.

## Main results

* `ReadsAt.bind` — reads compose as their codes do.
* `readsAt_read1`, `readsAt_read13`, `readsAt_read8`, `readsAt_read2`, `readsAt_readMax8` — the
  codes of the read functions.
-/

namespace CriArchive

open Machine

namespace Machine

/-- The machine with more accesses. -/
def logged (new : List Access) (m : Machine) : Machine := { m with log := new ++ m.log }

/-- No accesses add nothing. -/
@[simp] theorem logged_nil (m : Machine) : m.logged [] = m := rfl

/-- Accesses that are added twice are added together. -/
@[simp] theorem logged_logged (a b : List Access) (m : Machine) :
    (m.logged a).logged b = m.logged (b ++ a) := by
  simp [logged]

/-- An access to the input slice that stays inside it. -/
def InsideInput (size : ℕ) : Access → Prop
  | .readInput start len => InBounds start len size
  | _ => False

/-- A byte inside the input slice is read. -/
theorem loadInput_ok {input : List UInt8} {i : ℤ} (h₀ : 0 ≤ i) (h₁ : i < input.length)
    (m : Machine) : loadInput input i m =
      (.ok (input.getD i.toNat 0), m.logged [.readInput i 1]) := by
  obtain ⟨n, rfl⟩ : ∃ n : ℕ, i = n := ⟨i.toNat, by omega⟩
  have hn : n < input.length := by omega
  have hbounds : InBounds (n : ℤ) 1 input.length := ⟨by omega, by omega⟩
  have hread : readInput input n 1 m =
      (.ok (window input n 1), m.logged [.readInput n 1]) := by
    simp [readInput, hbounds, logged]
  rw [loadInput, ExecM.bind_of_ok hread, ExecM.lift_apply, window]
  simp [Exec.index, hn]

/-- A byte outside the input slice faults. -/
theorem loadInput_fault {input : List UInt8} {i : ℤ} (h : ¬InBounds i 1 input.length)
    (m : Machine) : loadInput input i m = (.fault, m.logged [.readInput i 1]) := by
  have hread : readInput input i 1 m = (.fault, m.logged [.readInput i 1]) := by
    simp [readInput, h, logged]
  rw [loadInput, ExecM.bind_of_fault hread]

end Machine

/-! ## Cursors -/

namespace LaylaDecompressorCursor

variable (input : List UInt8)

/-- The cursors that reads leave behind: between the ends of the input slice, and on a byte of it
when some of the byte's bits are left. -/
structure Valid (c : LaylaDecompressorCursor) : Prop where
  nonneg : 0 ≤ c.cdata
  le_length : c.cdata ≤ input.length
  bits_le : c.bitsLeft ≤ 7
  on_byte : 0 < c.bitsLeft → c.cdata < input.length

/-- The bits below a cursor, in the order in which they are read. -/
def remaining (c : LaylaDecompressorCursor) : List Bool :=
  Bits.ofNat c.bitsLeft (input.getD c.cdata.toNat 0).toNat ++
    Bits.down (input.take c.cdata.toNat)

variable {input}

/-- The bits below a cursor: those left of its byte, and the bytes before it. -/
theorem length_remaining {c : LaylaDecompressorCursor} (hc : c.Valid input) :
    (c.remaining input).length = c.bitsLeft + 8 * c.cdata.toNat := by
  have := hc.le_length
  simp only [remaining, List.length_append, Bits.length_ofNat, Bits.length_down, List.length_take]
  omega

/-- At the end of a byte the bits below are those of the byte before. -/
theorem remaining_zero {i : ℤ} (h₀ : 0 < i) (h₁ : i ≤ input.length) :
    remaining input ⟨i, 0⟩ = remaining input ⟨i - 1, 8⟩ := by
  obtain ⟨n, rfl⟩ : ∃ n : ℕ, i = n + 1 := ⟨(i - 1).toNat, by omega⟩
  have hn : n < input.length := by omega
  have htake : ((n : ℤ) + 1).toNat = n + 1 := by omega
  have hpred : ((n : ℤ) + 1 - 1).toNat = n := by omega
  have hget : input.getD n 0 = input[n] := by simp [hn]
  rw [remaining, remaining, htake, hpred, hget, Bits.down_take_succ hn]
  rfl

/-- The bits of a piece, and the bits after it. -/
theorem remaining_piece {c : LaylaDecompressorCursor} {r : ℕ} (h : r ≤ c.bitsLeft) :
    remaining input c = Bits.ofNat r ((input.getD c.cdata.toNat 0).toNat / 2 ^ (c.bitsLeft - r)) ++
      remaining input ⟨c.cdata, c.bitsLeft - r⟩ := by
  obtain ⟨w, hw⟩ : ∃ w, c.bitsLeft = r + w := ⟨c.bitsLeft - r, by omega⟩
  have hlow : r + w - r = w := by omega
  rw [remaining, remaining, hw, hlow, Bits.ofNat_add, List.append_assoc]

end LaylaDecompressorCursor

open LaylaDecompressorCursor

/-! ## Readers -/

section

variable (input : List UInt8) {β γ : Type}

/-- `x` reads a codeword that the bits below the cursor start with, all its accesses inside the
input slice; when there is none it leaves the input slice. -/
structure ReadsAt (code : BitCode β) (c : LaylaDecompressorCursor)
    (x : ExecM Machine Error (β × LaylaDecompressorCursor)) : Prop where
  reads : ∀ word v rest, code word v → c.remaining input = word ++ rest →
    ∃ c' new, c'.Valid input ∧ c'.remaining input = rest ∧
      (∀ a ∈ new, InsideInput input.length a) ∧ ∀ m, x m = (.ok (v, c'), m.logged new)
  leaves : ¬code.Starts (c.remaining input) →
    ∃ new, (∃ start len, .readInput start len ∈ new ∧ ¬InBounds start len input.length) ∧
      ∀ m, x m = (.fault, m.logged new)

variable {input}

/-- Reading a code of no bits is returning its value. -/
theorem readsAt_pure {c : LaylaDecompressorCursor} (hc : c.Valid input) (v : β) :
    ReadsAt input (.done v) c (pure (v, c)) where
  reads := by
    rintro _ _ rest ⟨rfl, rfl⟩ hrest
    exact ⟨c, [], hc, hrest, by simp, fun m => rfl⟩
  leaves h := absurd (BitCode.starts_done v _) h

/-- **Reads compose as their codes do.**

**Proof sketch.** Where the stream starts with a word of the composed code, it starts with a word of
each part, and the two reads follow one another. Where it does not, either the first read leaves the
stream, or the second one does from where the first has ended. -/
theorem ReadsAt.bind {code : BitCode β} {f : β → BitCode γ} {c : LaylaDecompressorCursor}
    {x : ExecM Machine Error (β × LaylaDecompressorCursor)}
    {k : β × LaylaDecompressorCursor → ExecM Machine Error (γ × LaylaDecompressorCursor)}
    (hx : ReadsAt input code c x)
    (hk : ∀ word v c', code word v → c'.Valid input →
      c.remaining input = word ++ c'.remaining input → ReadsAt input (f v) c' (k (v, c'))) :
    ReadsAt input (code.andThen f) c (x >>= k) where
  reads := by
    rintro _ w rest ⟨first, v, second, rfl, hfirst, hsecond⟩ hrem
    rw [List.append_assoc] at hrem
    obtain ⟨c₁, new₁, hc₁, hrem₁, hin₁, hx₁⟩ := hx.reads first v _ hfirst hrem
    obtain ⟨c₂, new₂, hc₂, hrem₂, hin₂, hk₂⟩ :=
      (hk first v c₁ hfirst hc₁ (by rw [hrem, hrem₁])).reads second w rest hsecond hrem₁
    refine ⟨c₂, new₂ ++ new₁, hc₂, hrem₂, ?_, fun m => ?_⟩
    · intro a ha
      exact (List.mem_append.mp ha).elim (hin₂ a) (hin₁ a)
    · rw [ExecM.bind_of_ok (hx₁ m), hk₂, logged_logged]
  leaves := by
    intro h
    by_cases hstart : code.Starts (c.remaining input)
    · obtain ⟨first, v, rest, hfirst, hrem⟩ := hstart
      obtain ⟨c₁, new₁, hc₁, hrem₁, -, hx₁⟩ := hx.reads first v rest hfirst hrem
      have hnot : ¬(f v).Starts (c₁.remaining input) := by
        intro hs
        rw [hrem₁] at hs
        exact h (BitCode.starts_andThen.mpr ⟨first, v, rest, hfirst, hrem, hs⟩)
      obtain ⟨new₂, ⟨start, len, ha, hout⟩, hk₂⟩ :=
        (hk first v c₁ hfirst hc₁ (by rw [hrem, hrem₁])).leaves hnot
      refine ⟨new₂ ++ new₁, ⟨start, len, List.mem_append_left _ ha, hout⟩, fun m => ?_⟩
      rw [ExecM.bind_of_ok (hx₁ m), hk₂, logged_logged]
    · obtain ⟨new, hout, hx₁⟩ := hx.leaves hstart
      exact ⟨new, hout, fun m => ExecM.bind_of_fault (hx₁ m) k⟩

end

/-! ## Pieces of a byte -/

section Words

/-- A mask keeps the low bits. -/
theorem bitMask_eq {n : ℕ} (h : n < 16) :
    bitMask n = (pure (UInt32.ofNat (2 ^ n - 1)) : ExecM Machine Error UInt32) := by
  interval_cases n <;> rfl

/-- The mask of `n` bits, as a number. -/
theorem toNat_mask {n : ℕ} (h : n ≤ 13) : (UInt32.ofNat (2 ^ n - 1)).toNat = 2 ^ n - 1 := by
  have hle : 2 ^ n ≤ 2 ^ 13 := Nat.pow_le_pow_right (by omega) h
  exact UInt32.toNat_ofNat_of_lt' (by simp only [UInt32.size]; omega)

/-- The low byte of the mask of at most eight bits, as a number. -/
theorem toNat_mask8 {n : ℕ} (h : n ≤ 8) : (UInt32.ofNat (2 ^ n - 1)).toUInt8.toNat = 2 ^ n - 1 := by
  have hle : 2 ^ n ≤ 2 ^ 8 := Nat.pow_le_pow_right (by omega) h
  rw [UInt32.toNat_toUInt8, toNat_mask (by omega)]
  exact Nat.mod_eq_of_lt (by omega)

/-- The bits of a byte below a shift that a mask keeps, as `u8`. -/
theorem toNat_piece8 (b : UInt8) {s n : ℕ} (hs : s < 8) (hn : n ≤ 8) :
    ((b >>> UInt8.ofNat s) &&& (UInt32.ofNat (2 ^ n - 1)).toUInt8).toNat =
      b.toNat / 2 ^ s % 2 ^ n := by
  have hshift : (UInt8.ofNat s).toNat % 8 = s := by
    rw [UInt8.toNat_ofNat_of_lt' (by simp only [UInt8.size]; omega), Nat.mod_eq_of_lt hs]
  rw [UInt8.toNat_and, toNat_mask8 hn, Nat.and_two_pow_sub_one_eq_mod, UInt8.toNat_shiftRight,
    hshift, Nat.shiftRight_eq_div_pow]

/-- The bits of a byte below a shift that a mask keeps, as `u32`. -/
theorem toNat_piece32 (b : UInt8) {s n : ℕ} (hs : s < 8) (hn : n ≤ 8) :
    ((b.toUInt32 >>> UInt32.ofNat s) &&& UInt32.ofNat (2 ^ n - 1)).toNat =
      b.toNat / 2 ^ s % 2 ^ n := by
  have hshift : (UInt32.ofNat s).toNat % 32 = s := by
    rw [UInt32.toNat_ofNat_of_lt' (by simp only [UInt32.size]; omega), Nat.mod_eq_of_lt (by omega)]
  rw [UInt32.toNat_and, toNat_mask (by omega), Nat.and_two_pow_sub_one_eq_mod,
    UInt32.toNat_shiftRight, hshift, Nat.shiftRight_eq_div_pow, UInt8.toNat_toUInt32]

/-- Appending low bits to a number, as `u8`. -/
theorem toNat_join8 {high low : UInt8} {k : ℕ} (hk : k < 8) (hlow : low.toNat < 2 ^ k)
    (hhigh : high.toNat * 2 ^ k < 2 ^ 8) :
    ((high <<< UInt8.ofNat k) ||| low).toNat = high.toNat * 2 ^ k + low.toNat := by
  have hshift : (UInt8.ofNat k).toNat % 8 = k := by
    rw [UInt8.toNat_ofNat_of_lt' (by simp only [UInt8.size]; omega), Nat.mod_eq_of_lt hk]
  rw [UInt8.toNat_or, UInt8.toNat_shiftLeft, hshift, Nat.shiftLeft_eq, Nat.mod_eq_of_lt hhigh,
    ← Nat.shiftLeft_eq, Nat.shiftLeft_add_eq_or_of_lt hlow]

/-- Appending low bits to a number, as `u32`. -/
theorem toNat_join32 {high low : UInt32} {k : ℕ} (hk : k ≤ 8) (hlow : low.toNat < 2 ^ k)
    (hhigh : high.toNat * 2 ^ k < 2 ^ 32) :
    ((high <<< UInt32.ofNat k) ||| low).toNat = high.toNat * 2 ^ k + low.toNat := by
  have hshift : (UInt32.ofNat k).toNat % 32 = k := by
    rw [UInt32.toNat_ofNat_of_lt' (by simp only [UInt32.size]; omega), Nat.mod_eq_of_lt (by omega)]
  rw [UInt32.toNat_or, UInt32.toNat_shiftLeft, hshift, Nat.shiftLeft_eq, Nat.mod_eq_of_lt hhigh,
    ← Nat.shiftLeft_eq, Nat.shiftLeft_add_eq_or_of_lt hlow]

end Words

section

variable {input : List UInt8}

/-- Read some of the bits that are left of the current byte. -/
def readPiece (input : List UInt8) (c : LaylaDecompressorCursor) (r : ℕ) :
    ExecM Machine Error (ℕ × LaylaDecompressorCursor) := do
  let b ← loadInput input (c.refill 8).cdata
  pure (b.toNat / 2 ^ ((c.refill 8).bitsLeft - r) % 2 ^ r,
    ⟨(c.refill 8).cdata, (c.refill 8).bitsLeft - r⟩)

/-- Moving to the next byte keeps the bits below the cursor, when there is one. -/
theorem remaining_refill {c : LaylaDecompressorCursor} (hc : c.Valid input)
    (h : 0 ≤ (c.refill 8).cdata) : c.remaining input = (c.refill 8).remaining input := by
  obtain ⟨i, left⟩ := c
  unfold refill at h ⊢
  split_ifs at h ⊢ with hleft
  · obtain rfl : left = 0 := hleft
    exact remaining_zero (by dsimp only at h; omega) hc.le_length
  · rfl

/-- After moving to the next byte the cursor is on a byte below the end of the input slice. -/
theorem refill_lt {c : LaylaDecompressorCursor} (hc : c.Valid input) :
    (c.refill 8).cdata < input.length := by
  have hle := hc.le_length
  have hbyte := hc.on_byte
  unfold refill
  split_ifs with hleft
  · dsimp only
    omega
  · exact hbyte (by omega)

/-- After moving to the next byte one to eight bits are left of the current one. -/
theorem bitsLeft_refill {c : LaylaDecompressorCursor} (hc : c.Valid input) :
    0 < (c.refill 8).bitsLeft ∧ (c.refill 8).bitsLeft ≤ 8 := by
  have hle := hc.bits_le
  unfold refill
  split_ifs
  · exact ⟨Nat.succ_pos 7, le_refl 8⟩
  · omega

/-- **A piece is a fixed-width number.**

**Proof sketch.** If the byte that is read is inside the input, its bits are the next ones below the
cursor, and the piece is the number they make; the cursor is left on the bits after it. If it is
not, there are fewer bits than asked for, and the read leaves the input slice. -/
theorem readsAt_piece {c : LaylaDecompressorCursor} (hc : c.Valid input) {r : ℕ} (hr : 0 < r)
    (hle : r ≤ (c.refill 8).bitsLeft) : ReadsAt input (.fixed r id) c (readPiece input c r) := by
  have hlt := refill_lt hc
  have hbits := (bitsLeft_refill hc).2
  have hnum : ∀ b : UInt8, b.toNat / 2 ^ ((c.refill 8).bitsLeft - r) % 2 ^ r < 2 ^ r :=
    fun b => Nat.mod_lt _ (Nat.two_pow_pos r)
  by_cases h₀ : 0 ≤ (c.refill 8).cdata
  · have hload : ∀ m, readPiece input c r m = _ := fun m =>
      ExecM.bind_of_ok (loadInput_ok h₀ hlt m) _
    have hrem := (remaining_refill hc h₀).trans (remaining_piece hle)
    have hword : BitCode.fixed r id (Bits.ofNat r _) _ :=
      ⟨_, hnum (input.getD (c.refill 8).cdata.toNat 0), (Bits.ofNat_mod r _).symm, rfl⟩
    refine ⟨?_, fun hno => absurd ⟨_, _, _, hword, hrem⟩ hno⟩
    intro word v rest hcode hbelow
    obtain ⟨-, rfl, rfl⟩ := BitCode.eq_take_of_fixed hcode hbelow
    obtain ⟨-, hv, hdrop⟩ := BitCode.eq_take_of_fixed hword hrem
    refine ⟨⟨(c.refill 8).cdata, (c.refill 8).bitsLeft - r⟩, [.readInput (c.refill 8).cdata 1],
      ⟨h₀, le_of_lt hlt, by dsimp only; omega, fun _ => hlt⟩, hdrop, ?_, fun m => ?_⟩
    · simp only [List.mem_singleton, forall_eq, InsideInput, InBounds]
      omega
    · rw [hload m, ← hv]
      rfl
  · have hout : ¬InBounds (c.refill 8).cdata 1 input.length := fun h => h₀ h.1
    have hempty : (c.remaining input).length < r := by
      have := hc.nonneg
      rw [length_remaining hc]
      unfold refill at h₀
      split_ifs at h₀ with hleft
      · dsimp only at h₀
        omega
      · omega
    refine ⟨fun word v rest hcode hbelow => ?_,
      fun _ => ⟨[.readInput (c.refill 8).cdata 1], ⟨_, _, List.mem_singleton_self _, hout⟩,
        fun m => ?_⟩⟩
    · have := (BitCode.eq_take_of_fixed hcode hbelow).1
      omega
    · exact ExecM.bind_of_fault (loadInput_fault hout m) _

/-- One piece, mapped. -/
theorem readsAt_one {c : LaylaDecompressorCursor} (hc : c.Valid input) {r : ℕ} (hr : 0 < r)
    (hle : r ≤ (c.refill 8).bitsLeft) {β : Type} (f : ℕ → β) :
    ReadsAt input (.fixed r f) c (readPiece input c r >>= fun p => pure (f p.1, p.2)) := by
  rw [← BitCode.fixed_map]
  exact (readsAt_piece hc hr hle).bind fun _ _ _ _ hc' _ => readsAt_pure hc' _

/-- A read of all bits of a byte leaves the cursor at its end. -/
theorem refill_of_piece {c c' : LaylaDecompressorCursor} {r n : ℕ} {word : List Bool}
    (hc : c.Valid input) (hc' : c'.Valid input) (hr : r = (c.refill 8).bitsLeft)
    (hword : BitCode.fixed r id word n) (hrem : c.remaining input = word ++ c'.remaining input) :
    c' = ⟨(c.refill 8).cdata, 0⟩ := by
  have hlen : c.bitsLeft + 8 * c.cdata.toNat = r + (c'.bitsLeft + 8 * c'.cdata.toNat) := by
    obtain ⟨k, -, rfl, -⟩ := hword
    rw [← length_remaining hc, ← length_remaining hc', hrem, List.length_append,
      Bits.length_ofNat]
  have h₀ := hc.nonneg
  have h₁ := hc.bits_le
  have h₂ := hc'.nonneg
  have h₃ := hc'.bits_le
  obtain ⟨i, left⟩ := c
  obtain ⟨i', left'⟩ := c'
  unfold refill at hr ⊢
  rw [LaylaDecompressorCursor.mk.injEq]
  split_ifs at hr ⊢ with hleft
  · dsimp only at *
    omega
  · dsimp only at *
    omega

/-- Two pieces: the rest of a byte, then high bits of the byte below. -/
theorem readsAt_two {c : LaylaDecompressorCursor} (hc : c.Valid input) {j k : ℕ} (hj : 0 < j)
    (hjc : j = (c.refill 8).bitsLeft) (hk : 0 < k) (hk8 : k ≤ 8) {β : Type} (f : ℕ → β) :
    ReadsAt input (.fixed (j + k) f) c (readPiece input c j >>= fun high =>
      readPiece input high.2 k >>= fun low => pure (f (high.1 * 2 ^ k + low.1), low.2)) := by
  rw [BitCode.fixed_add]
  refine (readsAt_piece hc hj (le_of_eq hjc)).bind fun word n c' hword hc' hrem => ?_
  obtain rfl := refill_of_piece hc hc' hjc hword hrem
  exact readsAt_one hc' hk hk8 fun low => f (n * 2 ^ k + low)

/-! ## The read functions -/

/-- Words with equal numbers are equal. -/
private theorem eq_ofNat8 {x : UInt8} {n : ℕ} (h : x.toNat = n) : x = UInt8.ofNat n := by
  rw [← h, UInt8.ofNat_toNat]

/-- A 32-bit value is told from its number. -/
private theorem eq_ofNat32 {x : UInt32} {n : ℕ} (h : x.toNat = n) : x = UInt32.ofNat n := by
  rw [← h, UInt32.ofNat_toNat]

/-- Computations that start by reading the same byte agree when they do from there on. -/
private theorem load_congr {i : ℤ} {α : Type} {k k' : UInt8 → ExecM Machine Error α}
    (h : ∀ b, k b = k' b) : (loadInput input i >>= k) = (loadInput input i >>= k') :=
  congrArg _ (funext h)

/-- A byte that is not used up is not left. -/
theorem refill_of_pos {c : LaylaDecompressorCursor} (h : 0 < c.bitsLeft) (bits : ℕ) :
    c.refill bits = c :=
  if_neg (by omega)

/-- **`read_1` reads one bit.**

**Proof sketch.** By whether bits of the byte are left. In both cases the function is a piece of one
bit, of the byte before or of this one. -/
theorem readsAt_read1 {c : LaylaDecompressorCursor} (hc : c.Valid input) :
    ReadsAt input (.fixed 1 (· != 0)) c (read1 input c) := by
  have hbit : ∀ (b : UInt8) (s : ℕ), s < 8 →
      ((b >>> UInt8.ofNat s) &&& 1 != 0) = (b.toNat / 2 ^ s % 2 ^ 1 != 0) := by
    intro b s hs
    rw [← toNat_piece8 b hs (by omega), Bool.eq_iff_iff, bne_iff_ne, bne_iff_ne]
    exact (not_congr UInt8.toNat_inj).symm
  have hle := hc.bits_le
  obtain ⟨i, left⟩ := c
  rcases Nat.eq_zero_or_pos left with rfl | hleft
  · have heq : read1 input ⟨i, 0⟩ =
        (readPiece input ⟨i, 0⟩ 1 >>= fun p => pure (p.1 != 0, p.2)) := by
      rw [readPiece, ExecM.bind_assoc, read1, if_neg (not_not.mpr rfl)]
      refine load_congr fun b => ?_
      exact congrArg (fun v => pure (v, (⟨i - 1, 7⟩ : LaylaDecompressorCursor)))
        (hbit b 7 (by omega))
    rw [heq]
    exact readsAt_one hc Nat.one_pos (by decide : 1 ≤ 8) _
  · have hrefill := refill_of_pos (c := ⟨i, left⟩) hleft 8
    have heq : read1 input ⟨i, left⟩ =
        (readPiece input ⟨i, left⟩ 1 >>= fun p => pure (p.1 != 0, p.2)) := by
      rw [readPiece, ExecM.bind_assoc, hrefill, read1, if_pos (Nat.ne_of_gt hleft)]
      refine load_congr fun b => ?_
      exact congrArg (fun v => pure (v, (⟨i, left - 1⟩ : LaylaDecompressorCursor)))
        (hbit b _ (by dsimp only at hle ⊢; omega))
    rw [heq]
    exact readsAt_one hc Nat.one_pos (by rw [hrefill]; exact hleft) _

/-- **`read_2` reads two bits.**

**Proof sketch.** By the bits that are left of the byte. With none, or with at least two, the
function is a piece of two bits; with one, it is a piece of one bit and another one of the byte
before, joined. -/
theorem readsAt_read2 {c : LaylaDecompressorCursor} (hc : c.Valid input) :
    ReadsAt input (.fixed 2 UInt8.ofNat) c (read2 input c) := by
  have hle := hc.bits_le
  obtain ⟨i, left⟩ := c
  rcases Nat.eq_zero_or_pos left with rfl | hleft
  · have heq : read2 input ⟨i, 0⟩ =
        (readPiece input ⟨i, 0⟩ 2 >>= fun p => pure (UInt8.ofNat p.1, p.2)) := by
      rw [readPiece, ExecM.bind_assoc, read2, if_pos rfl]
      refine load_congr fun b => ?_
      exact congrArg (fun v => pure (v, (⟨i - 1, 6⟩ : LaylaDecompressorCursor)))
        (eq_ofNat8 (toNat_piece8 b (s := 6) (n := 2) (by omega) (by omega)))
    rw [heq]
    exact readsAt_one hc Nat.two_pos (by decide : 2 ≤ 8) _
  · have hrefill := refill_of_pos (c := ⟨i, left⟩) hleft 8
    rw [read2, if_neg (Nat.ne_of_gt hleft)]
    dsimp only at hle ⊢
    split_ifs with htwo
    · have heq : (loadInput input i >>= fun b => pure ((b >>> UInt8.ofNat (left - 2)) &&& 3,
          (⟨i, left - 2⟩ : LaylaDecompressorCursor))) =
          (readPiece input ⟨i, left⟩ 2 >>= fun p => pure (UInt8.ofNat p.1, p.2)) := by
        rw [readPiece, ExecM.bind_assoc, hrefill]
        refine load_congr fun b => ?_
        exact congrArg (fun v => pure (v, (⟨i, left - 2⟩ : LaylaDecompressorCursor)))
          (eq_ofNat8 (toNat_piece8 b (n := 2) (by omega) (by omega)))
      rw [heq]
      exact readsAt_one hc Nat.two_pos (by rw [hrefill]; exact htwo) _
    · obtain rfl : left = 1 := by omega
      have hjoin : ∀ high low : UInt8, ((high &&& 1) <<< 1) ||| (low >>> 7) =
          UInt8.ofNat (high.toNat / 2 ^ 0 % 2 ^ 1 * 2 ^ 1 + low.toNat / 2 ^ 7 % 2 ^ 1) := by
        intro high low
        have hhigh : (high &&& 1).toNat = high.toNat / 2 ^ 0 % 2 ^ 1 := by
          rw [pow_zero, Nat.div_one, UInt8.toNat_and]
          exact Nat.and_two_pow_sub_one_eq_mod _ 1
        have hlow : (low >>> 7).toNat = low.toNat / 2 ^ 7 % 2 ^ 1 := by
          have := low.toNat_lt
          rw [UInt8.toNat_shiftRight, Nat.shiftRight_eq_div_pow,
            show (7 : UInt8).toNat % 8 = 7 from rfl]
          exact (Nat.mod_eq_of_lt (by omega)).symm
        refine eq_ofNat8 ?_
        rw [← hhigh, ← hlow]
        refine toNat_join8 (k := 1) (by omega) ?_ ?_
        · rw [hlow]
          omega
        · rw [hhigh]
          omega
      have heq : (loadInput input i >>= fun high => loadInput input (i - 1) >>= fun low =>
          pure (((high &&& 1) <<< 1) ||| (low >>> 7), (⟨i - 1, 7⟩ : LaylaDecompressorCursor))) =
          (readPiece input ⟨i, 1⟩ 1 >>= fun high => readPiece input high.2 1 >>= fun low =>
            pure (UInt8.ofNat (high.1 * 2 ^ 1 + low.1), low.2)) := by
        rw [readPiece, ExecM.bind_assoc]
        refine load_congr fun high => ?_
        rw [ExecM.pure_bind, readPiece, ExecM.bind_assoc]
        refine load_congr fun low => ?_
        exact congrArg (fun v => pure (v, (⟨i - 1, 7⟩ : LaylaDecompressorCursor)))
          (hjoin high low)
      rw [heq]
      exact readsAt_two hc Nat.one_pos rfl Nat.one_pos (by omega) _

/-- **`read_8` reads eight bits.**

**Proof sketch.** With no bits left the function takes a byte. Otherwise it takes what is left of
this byte and the rest of the one before, which the two masks cut out and the shift joins without an
overlap. -/
theorem readsAt_read8 {c : LaylaDecompressorCursor} (hc : c.Valid input) :
    ReadsAt input (.fixed 8 UInt8.ofNat) c (read8 input c) := by
  have hle := hc.bits_le
  obtain ⟨i, left⟩ := c
  rcases Nat.eq_zero_or_pos left with rfl | hleft
  · have heq : read8 input ⟨i, 0⟩ =
        (readPiece input ⟨i, 0⟩ 8 >>= fun p => pure (UInt8.ofNat p.1, p.2)) := by
      rw [readPiece, ExecM.bind_assoc, read8, if_neg (not_not.mpr rfl)]
      refine load_congr fun b => ?_
      have hb : b.toNat = b.toNat / 2 ^ 0 % 2 ^ 8 := by
        have := b.toNat_lt
        omega
      exact congrArg (fun v => pure (v, (⟨i - 1, 0⟩ : LaylaDecompressorCursor))) (eq_ofNat8 hb)
    rw [heq]
    exact readsAt_one hc (by omega) (le_refl 8) _
  · have hrefill := refill_of_pos (c := ⟨i, left⟩) hleft 8
    dsimp only at hle
    have hkeep : 8 - (8 - left) = left := by omega
    have hjoin : ∀ high low : UInt8,
        ((high &&& (UInt32.ofNat (2 ^ left - 1)).toUInt8) <<< UInt8.ofNat (8 - left)) |||
          ((low >>> UInt8.ofNat (8 - (8 - left))) &&&
            (UInt32.ofNat (2 ^ (8 - left) - 1)).toUInt8) =
        UInt8.ofNat (high.toNat / 2 ^ 0 % 2 ^ left * 2 ^ (8 - left) +
          low.toNat / 2 ^ left % 2 ^ (8 - left)) := by
      intro high low
      have hhigh : (high &&& (UInt32.ofNat (2 ^ left - 1)).toUInt8).toNat =
          high.toNat / 2 ^ 0 % 2 ^ left := by
        rw [pow_zero, Nat.div_one, UInt8.toNat_and, toNat_mask8 (by omega),
          Nat.and_two_pow_sub_one_eq_mod]
      have hlow := toNat_piece8 low (s := left) (n := 8 - left) (by omega) (by omega)
      rw [hkeep]
      refine eq_ofNat8 ?_
      rw [← hhigh, ← hlow]
      refine toNat_join8 (by omega) ?_ ?_
      · rw [hlow]
        exact Nat.mod_lt _ (Nat.two_pow_pos _)
      · rw [hhigh]
        calc high.toNat / 2 ^ 0 % 2 ^ left * 2 ^ (8 - left)
            < 2 ^ left * 2 ^ (8 - left) :=
              Nat.mul_lt_mul_of_pos_right (Nat.mod_lt _ (Nat.two_pow_pos _)) (Nat.two_pow_pos _)
          _ = 2 ^ 8 := by rw [← pow_add, Nat.add_sub_cancel' (by omega)]
    have heq : read8 input ⟨i, left⟩ =
        (readPiece input ⟨i, left⟩ left >>= fun high => readPiece input high.2 (8 - left) >>=
          fun low => pure (UInt8.ofNat (high.1 * 2 ^ (8 - left) + low.1), low.2)) := by
      rw [readPiece, ExecM.bind_assoc, read8, if_pos (Nat.ne_of_gt hleft), hrefill]
      refine load_congr fun high => ?_
      dsimp only
      rw [ExecM.pure_bind, Nat.sub_self, bitMask_eq (by omega), ExecM.pure_bind, readPiece,
        ExecM.bind_assoc]
      refine load_congr fun low => ?_
      rw [bitMask_eq (by omega), ExecM.pure_bind, ExecM.pure_bind, hjoin high low]
      dsimp only [refill]
      rw [if_pos rfl, hkeep]
    rw [heq]
    have hread := readsAt_two hc (j := left) (k := 8 - left) hleft (by rw [hrefill]) (by omega)
      (by omega) UInt8.ofNat
    rwa [Nat.add_sub_cancel' (by omega)] at hread

/-- Appending a piece of a byte to a number of at most seven bits. -/
theorem join_piece8 (b res : UInt8) {s j : ℕ} (hs : s < 8) (hres : (res.toNat + 1) * 2 ^ j ≤ 2 ^ 7) :
    (res <<< UInt8.ofNat j) ||| ((b >>> UInt8.ofNat s) &&& (UInt32.ofNat (2 ^ j - 1)).toUInt8) =
      UInt8.ofNat (res.toNat * 2 ^ j + b.toNat / 2 ^ s % 2 ^ j) := by
  have hpow : 2 ^ j ≤ 2 ^ 7 := le_trans (Nat.le_mul_of_pos_left _ (Nat.succ_pos _)) hres
  have hj : j ≤ 7 := (Nat.pow_le_pow_iff_right (by omega)).mp hpow
  have hpiece := toNat_piece8 b (n := j) hs (by omega)
  refine eq_ofNat8 ?_
  rw [← hpiece]
  refine toNat_join8 (by omega) ?_ ?_
  · rw [hpiece]
    exact Nat.mod_lt _ (Nat.two_pow_pos j)
  · rw [Nat.add_mul, Nat.one_mul] at hres
    omega

/-- A turn of the loop of `read_max_8` reads the rest of a byte or what is still asked for.

**Proof sketch.** Induction on the rounds. The last round takes a piece of what is still asked for;
any other one takes all that is left of its byte, and a code of fixed width is one of a first part
and a second (`BitCode.fixed_add`). The result stays below `2 ^ 7`, so that no bit is shifted out. -/
theorem readsAt_readMax8Loop {c : LaylaDecompressorCursor} (hc : c.Valid input) (rounds : ℕ) {bits : ℕ}
    (hbits : 0 < bits) (hround : bits ≤ (c.refill 8).bitsLeft + 8 * (rounds - 1))
    (hrounds : 0 < rounds) (res : UInt8) (hres : (res.toNat + 1) * 2 ^ bits ≤ 2 ^ 7) :
    ReadsAt input (.fixed bits fun n => UInt8.ofNat (res.toNat * 2 ^ bits + n)) c
      (readMax8Loop input rounds (c.refill 8) bits res) := by
  induction rounds generalizing c bits res with
  | zero => omega
  | succ rounds ih =>
    have hleft := bitsLeft_refill hc
    have hmask : ∀ j, j ≤ bits → j ≤ 8 → (bitMask j : ExecM Machine Error UInt32) =
        pure (UInt32.ofNat (2 ^ j - 1)) := fun j _ hj => bitMask_eq (by omega)
    by_cases hlast : bits ≤ (c.refill 8).bitsLeft
    · have heq : readMax8Loop input (rounds + 1) (c.refill 8) bits res =
          (readPiece input c bits >>=
            fun p => pure (UInt8.ofNat (res.toNat * 2 ^ bits + p.1), p.2)) := by
        rw [readMax8Loop, readPiece, ExecM.bind_assoc, Nat.min_eq_left hlast]
        refine load_congr fun b => ?_
        rw [piece8, hmask bits (le_refl _) (by omega), ExecM.pure_bind, ExecM.pure_bind,
          join_piece8 b res (by omega) hres, if_pos (Nat.sub_self bits)]
        rfl
      rw [heq]
      exact readsAt_one hc hbits hlast _
    · have hrest : 0 < bits - (c.refill 8).bitsLeft := by omega
      have hpow : 2 ^ bits =
          2 ^ (c.refill 8).bitsLeft * 2 ^ (bits - (c.refill 8).bitsLeft) := by
        rw [← pow_add, Nat.add_sub_cancel' (by omega)]
      have hres' : (res.toNat + 1) * 2 ^ (c.refill 8).bitsLeft ≤ 2 ^ 7 := by
        refine le_trans (Nat.mul_le_mul_left _ ?_) hres
        exact Nat.pow_le_pow_right (by omega) (by omega)
      have heq : readMax8Loop input (rounds + 1) (c.refill 8) bits res =
          (readPiece input c (c.refill 8).bitsLeft >>= fun p =>
            readMax8Loop input rounds ⟨p.2.cdata - 1, 8⟩ (bits - (c.refill 8).bitsLeft)
              (UInt8.ofNat (res.toNat * 2 ^ (c.refill 8).bitsLeft + p.1))) := by
        rw [readMax8Loop, readPiece, ExecM.bind_assoc, Nat.min_eq_right (by omega)]
        refine load_congr fun b => ?_
        rw [piece8, hmask _ (by omega) (by omega), ExecM.pure_bind, ExecM.pure_bind,
          join_piece8 b res (by omega) hres', if_neg (by omega)]
        rfl
      have hcode := BitCode.fixed_add (c.refill 8).bitsLeft (bits - (c.refill 8).bitsLeft)
        fun n => UInt8.ofNat (res.toNat * 2 ^ bits + n)
      rw [Nat.add_sub_cancel' (by omega)] at hcode
      rw [heq, hcode]
      refine (readsAt_piece hc hleft.1 (le_refl _)).bind fun word n c' hword hc' hrem => ?_
      obtain rfl := refill_of_piece hc hc' rfl hword hrem
      have hn : n < 2 ^ (c.refill 8).bitsLeft := by
        obtain ⟨k, hk, -, rfl⟩ := hword
        exact hk
      have hle : res.toNat * 2 ^ (c.refill 8).bitsLeft + n + 1 ≤
          (res.toNat + 1) * 2 ^ (c.refill 8).bitsLeft := by
        rw [Nat.add_mul, Nat.one_mul]
        omega
      have hnum : (UInt8.ofNat (res.toNat * 2 ^ (c.refill 8).bitsLeft + n)).toNat =
          res.toNat * 2 ^ (c.refill 8).bitsLeft + n :=
        UInt8.toNat_ofNat_of_lt' (by simp only [UInt8.size]; omega)
      have hread := ih hc' hrest (by change _ ≤ 8 + 8 * (rounds - 1); omega) (by omega)
        (UInt8.ofNat (res.toNat * 2 ^ (c.refill 8).bitsLeft + n))
        (by
          rw [hnum]
          calc _ ≤ (res.toNat + 1) * 2 ^ (c.refill 8).bitsLeft *
                2 ^ (bits - (c.refill 8).bitsLeft) := Nat.mul_le_mul_right _ hle
            _ = (res.toNat + 1) * 2 ^ bits := by rw [Nat.mul_assoc, ← hpow]
            _ ≤ 2 ^ 7 := hres)
      rw [hnum] at hread
      have hvalue : ∀ low, (res.toNat * 2 ^ (c.refill 8).bitsLeft + n) *
          2 ^ (bits - (c.refill 8).bitsLeft) + low =
          res.toNat * 2 ^ bits + (n * 2 ^ (bits - (c.refill 8).bitsLeft) + low) := by
        intro low
        rw [hpow]
        ring
      simp only [hvalue] at hread
      exact hread

/-- **`read_max_8` reads up to seven bits.** -/
theorem readsAt_readMax8 {c : LaylaDecompressorCursor} (hc : c.Valid input) {bits : ℕ}
    (hbits : 0 < bits) (hle : bits ≤ 7) :
    ReadsAt input (.fixed bits UInt8.ofNat) c (readMax8 input c bits) := by
  have hread := readsAt_readMax8Loop hc 2 hbits (by omega) (by omega) 0
    (by
      rw [show (0 : UInt8).toNat = 0 from rfl, Nat.zero_add, Nat.one_mul]
      exact Nat.pow_le_pow_right (by omega) hle)
  have hzero : ∀ n, (0 : UInt8).toNat * 2 ^ bits + n = n := fun n => by simp
  simp only [hzero] at hread
  exact hread

/-- Appending a piece of a byte to a number, as `u32`. -/
theorem join_piece32 (b : UInt8) (res : UInt32) {s j : ℕ} (hs : s < 8) (hj : j ≤ 8)
    (hres : res.toNat * 2 ^ j < 2 ^ 32) :
    (res <<< UInt32.ofNat j) ||| ((b.toUInt32 >>> UInt32.ofNat s) &&& UInt32.ofNat (2 ^ j - 1)) =
      UInt32.ofNat (res.toNat * 2 ^ j + b.toNat / 2 ^ s % 2 ^ j) := by
  have hpiece := toNat_piece32 b hs hj
  refine eq_ofNat32 ?_
  rw [← hpiece]
  refine toNat_join32 hj ?_ hres
  rw [hpiece]
  exact Nat.mod_lt _ (Nat.two_pow_pos j)

/-- The second and the third read of `read_13` read what is left of the thirteen bits.

**Proof sketch.** At most eight bits are one piece of the next byte. More are a whole byte and a
piece of the byte before, and both are shifted into the result without an overflow. -/
theorem readsAt_read13Rest {i : ℤ} (hc : Valid input ⟨i, 0⟩) (bits : ℕ) (hpos : 0 < bits)
    (hle : bits ≤ 13) (res : UInt32) (hres : res.toNat < 2 ^ 8) :
    ReadsAt input (.fixed bits fun n => UInt32.ofNat (res.toNat * 2 ^ bits + n)) ⟨i, 0⟩
      (read13Rest input i bits res) := by
  have hfits : ∀ j, j ≤ 8 → res.toNat * 2 ^ j < 2 ^ 32 := by
    intro j hj
    have hpow : 2 ^ j ≤ 2 ^ 8 := Nat.pow_le_pow_right (by omega) hj
    calc res.toNat * 2 ^ j ≤ 2 ^ 8 * 2 ^ 8 := Nat.mul_le_mul (le_of_lt hres) hpow
      _ < 2 ^ 32 := by decide
  by_cases hone : bits ≤ 8
  · have heq : read13Rest input i bits res =
        (readPiece input ⟨i, 0⟩ bits >>=
          fun p => pure (UInt32.ofNat (res.toNat * 2 ^ bits + p.1), p.2)) := by
      rw [read13Rest, readPiece, ExecM.bind_assoc, Nat.min_eq_left hone]
      refine load_congr fun b => ?_
      rw [piece32, bitMask_eq (by omega), ExecM.pure_bind, ExecM.pure_bind,
        if_pos (Nat.sub_self bits), join_piece32 b res (by omega) hone (hfits bits hone)]
      rfl
    rw [heq]
    exact readsAt_one hc hpos hone _
  · have hjoin : ∀ second third : UInt8,
        (((res <<< UInt32.ofNat 8) ||| ((second.toUInt32 >>> UInt32.ofNat (8 - 8)) &&&
          UInt32.ofNat (2 ^ 8 - 1))) <<< UInt32.ofNat (bits - 8)) |||
            ((third.toUInt32 >>> UInt32.ofNat (8 - (bits - 8))) &&&
              UInt32.ofNat (2 ^ (bits - 8) - 1)) =
          UInt32.ofNat (res.toNat * 2 ^ bits + (second.toNat / 2 ^ (8 - 8) % 2 ^ 8 *
            2 ^ (bits - 8) + third.toNat / 2 ^ (8 - (bits - 8)) % 2 ^ (bits - 8))) := by
      intro second third
      have hsecond : second.toNat / 2 ^ (8 - 8) % 2 ^ 8 < 2 ^ 8 := Nat.mod_lt _ (by decide)
      have hnum : (UInt32.ofNat (res.toNat * 2 ^ 8 +
          second.toNat / 2 ^ (8 - 8) % 2 ^ 8)).toNat =
          res.toNat * 2 ^ 8 + second.toNat / 2 ^ (8 - 8) % 2 ^ 8 :=
        UInt32.toNat_ofNat_of_lt' (by simp only [UInt32.size]; omega)
      have hlow : 2 ^ (bits - 8) ≤ 2 ^ 5 := Nat.pow_le_pow_right (by omega) (by omega)
      have hpow : 2 ^ bits = 2 ^ 8 * 2 ^ (bits - 8) := by
        rw [← pow_add, Nat.add_sub_cancel' (by omega)]
      rw [join_piece32 second res (by omega) (le_refl 8) (hfits 8 (le_refl 8)),
        join_piece32 third _ (by omega) (by omega), hnum]
      · congr 1
        rw [hpow]
        ring
      · rw [hnum]
        calc _ ≤ (2 ^ 8 * 2 ^ 8 + 2 ^ 8) * 2 ^ 5 := Nat.mul_le_mul (by omega) hlow
          _ < 2 ^ 32 := by decide
    have heq : read13Rest input i bits res =
        (readPiece input ⟨i, 0⟩ 8 >>= fun high => readPiece input high.2 (bits - 8) >>=
          fun low => pure (UInt32.ofNat (res.toNat * 2 ^ bits +
            (high.1 * 2 ^ (bits - 8) + low.1)), low.2)) := by
      rw [read13Rest, readPiece, ExecM.bind_assoc, Nat.min_eq_right (by omega)]
      refine load_congr fun second => ?_
      rw [piece32, bitMask_eq (by omega), ExecM.pure_bind, ExecM.pure_bind, if_neg (by omega),
        ExecM.pure_bind, readPiece, ExecM.bind_assoc,
        show (i - 2 : ℤ) = i - 1 - 1 by omega]
      refine load_congr fun third => ?_
      rw [piece32, bitMask_eq (by omega), ExecM.pure_bind, ExecM.pure_bind, hjoin second third]
      rfl
    rw [heq]
    have hread := readsAt_two hc (j := 8) (k := bits - 8) (by omega) rfl (by omega) (by omega)
      fun n => UInt32.ofNat (res.toNat * 2 ^ bits + n)
    rwa [Nat.add_sub_cancel' (by omega)] at hread

/-- **`read_13` reads thirteen bits.**

**Proof sketch.** The first read takes what is left of the byte, at most eight bits, and
`readsAt_read13Rest` takes the others; a code of thirteen bits is one of the two parts. -/
theorem readsAt_read13 {c : LaylaDecompressorCursor} (hc : c.Valid input) :
    ReadsAt input (.fixed 13 UInt32.ofNat) c (read13 input c) := by
  have hleft := bitsLeft_refill hc
  have heq : read13 input c =
      (readPiece input c (c.refill 8).bitsLeft >>= fun p =>
        read13Rest input p.2.cdata (13 - (c.refill 8).bitsLeft) (UInt32.ofNat p.1)) := by
    rw [read13, readPiece, ExecM.bind_assoc]
    refine load_congr fun b => ?_
    have hnum : b.toUInt32 &&& UInt32.ofNat (2 ^ (c.refill 8).bitsLeft - 1) =
        UInt32.ofNat (b.toNat / 2 ^ 0 % 2 ^ (c.refill 8).bitsLeft) :=
      eq_ofNat32 (by
        rw [UInt32.toNat_and, toNat_mask (by omega), Nat.and_two_pow_sub_one_eq_mod,
          UInt8.toNat_toUInt32, pow_zero, Nat.div_one])
    rw [bitMask_eq (by omega), ExecM.pure_bind, ExecM.pure_bind, hnum, Nat.sub_self]
  have hcode := BitCode.fixed_add (c.refill 8).bitsLeft (13 - (c.refill 8).bitsLeft) UInt32.ofNat
  rw [Nat.add_sub_cancel' (by omega)] at hcode
  rw [heq, hcode]
  refine (readsAt_piece hc hleft.1 (le_refl _)).bind fun word n c' hword hc' hrem => ?_
  obtain rfl := refill_of_piece hc hc' rfl hword hrem
  have hn : n < 2 ^ 8 := by
    obtain ⟨k, hk, -, rfl⟩ := hword
    exact lt_of_lt_of_le hk (Nat.pow_le_pow_right (by omega) hleft.2)
  have hnum : (UInt32.ofNat n).toNat = n :=
    UInt32.toNat_ofNat_of_lt' (by simp only [UInt32.size]; omega)
  have hread := readsAt_read13Rest hc' (13 - (c.refill 8).bitsLeft) (by omega) (by omega)
    (UInt32.ofNat n) (by rw [hnum]; exact hn)
  rwa [hnum] at hread

end

end CriArchive
