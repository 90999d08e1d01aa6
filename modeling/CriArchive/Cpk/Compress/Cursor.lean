import CriArchive.Cpk.Compress.BitReader

set_option relaxedAutoImplicit false
set_option autoImplicit false

/-!
# The cursor refines a bit stream

Reads of the cursor in any order give what a reader of a plain bit stream gives: the stream has
the low bits that are left of the current byte, and then the bytes below it, downward, each with
its most significant bit first.

## Main definitions

* `CursorRead`, `runReads` — the read functions; a sequence of reads.
* `referenceReads` — the same reads of a bit stream.
* `Advances` — what a sequence of reads does to the cursor, and which bytes it reads.

## Main results

* `touchesBetween_run` — a read accesses the bytes between the cursors before and after it.
* `runReads_reference` — the cursor refines the bit stream.
-/

namespace CriArchive

open Machine LaylaDecompressorCursor

/-! ## Reads -/

/-- A read function of the cursor, with its argument. -/
inductive CursorRead where
  | read1
  | read2
  | read8
  | read13
  | readMax8 (bits : ℕ) (pos : 0 < bits) (le : bits ≤ 7)
  deriving DecidableEq, Repr

namespace CursorRead

/-- The number of bits that are read. -/
def width : CursorRead → ℕ
  | read1 => 1
  | read2 => 2
  | read8 => 8
  | read13 => 13
  | readMax8 bits _ _ => bits

/-- A read, with its result as a number. -/
def run (input : List UInt8) : CursorRead → LaylaDecompressorCursor →
    ExecM Machine Error (ℕ × LaylaDecompressorCursor)
  | read1, c => do
    let r ← LaylaDecompressorCursor.read1 input c
    pure (r.1.toNat, r.2)
  | read2, c => do
    let r ← LaylaDecompressorCursor.read2 input c
    pure (r.1.toNat, r.2)
  | read8, c => do
    let r ← LaylaDecompressorCursor.read8 input c
    pure (r.1.toNat, r.2)
  | read13, c => do
    let r ← LaylaDecompressorCursor.read13 input c
    pure (r.1.toNat, r.2)
  | readMax8 bits _ _, c => do
    let r ← LaylaDecompressorCursor.readMax8 input c bits
    pure (r.1.toNat, r.2)

end CursorRead

/-- A sequence of reads: the results, each with the cursor after it. -/
def runReads (input : List UInt8) : List CursorRead → LaylaDecompressorCursor →
    ExecM Machine Error (List (ℕ × LaylaDecompressorCursor))
  | [], _ => pure []
  | read :: reads, c => do
    let r ← read.run input c
    let rest ← runReads input reads r.2
    pure (r :: rest)

/-- The reference reader on a bit stream: the results, each with the bits after it, unless the
stream ends before. -/
def referenceReads : List CursorRead → List Bool → Option (List (ℕ × List Bool))
  | [], _ => some []
  | read :: reads, bits =>
    if read.width ≤ bits.length then
      (referenceReads reads (bits.drop read.width)).map
        ((Bits.toNat (bits.take read.width), bits.drop read.width) :: ·)
    else none

/-- The position of a cursor, as the number of bits of the input slice below it. -/
def LaylaDecompressorCursor.position (c : LaylaDecompressorCursor) : ℤ :=
  8 * c.cdata + c.bitsLeft

/-- Every access reads a byte that holds a bit between two positions. -/
def TouchesBits (new : List Access) (high low : ℤ) : Prop :=
  ∀ a ∈ new, ∃ i, a = .readInput i 1 ∧ low < 8 * i + 8 ∧ 8 * i < high

/-- What a sequence of reads does: after each of them the cursor is again one that reads leave
behind, it has moved down by the bits that were read, and no byte was accessed but those that
hold these bits. -/
inductive Advances (input : List UInt8) : LaylaDecompressorCursor → List CursorRead →
    List (ℕ × LaylaDecompressorCursor) → List Access → Prop
  | nil (c : LaylaDecompressorCursor) : Advances input c [] [] []
  | cons {c c' : LaylaDecompressorCursor} {read : CursorRead} {reads : List CursorRead} {v : ℕ}
      {trace : List (ℕ × LaylaDecompressorCursor)} {new later : List Access}
      (valid : c'.Valid input) (moved : c'.position + read.width = c.position)
      (touched : TouchesBits new c.position c'.position)
      (rest : Advances input c' reads trace later) :
      Advances input c (read :: reads) ((v, c') :: trace) (later ++ new)

/-! ## The bytes that a read accesses -/

section Touched

variable {input : List UInt8}

/-- When `x` returns, it has accessed bytes from the one of the cursor before down to the one of the
cursor after. -/
def TouchesBetween {β : Type} (c : LaylaDecompressorCursor)
    (x : ExecM Machine Error (β × LaylaDecompressorCursor)) : Prop :=
  ∀ m v c' m', x m = (.ok (v, c'), m') → ∃ new, m' = m.logged new ∧
    ∀ a ∈ new, ∃ i, a = .readInput i 1 ∧ c'.cdata ≤ i ∧ i ≤ (c.refill 8).cdata

/-- Reading a byte is recorded. -/
theorem loadInput_eq_ok {i : ℤ} {m m' : Machine} {b : UInt8}
    (h : loadInput input i m = (.ok b, m')) : m' = m.logged [.readInput i 1] := by
  unfold loadInput at h
  simp only [ExecM.bind_eq_ok, ExecM.lift_eq_ok] at h
  obtain ⟨bytes, _, hread, -, rfl⟩ := h
  exact (Prod.mk.inj hread).2.symm

/-- Making a mask changes no machine. -/
theorem bitMask_eq_ok {n : ℕ} {m m' : Machine} {mask : UInt32}
    (h : (bitMask n : ExecM Machine Error UInt32) m = (.ok mask, m')) : m' = m :=
  (ExecM.lift_eq_ok.mp h).2

/-- A cursor without bits left moves to the byte before. -/
theorem refill_of_zero {c : LaylaDecompressorCursor} (h : c.bitsLeft = 0) (bits : ℕ) :
    c.refill bits = ⟨c.cdata - 1, bits⟩ :=
  if_pos h

/-- Reading one bit touches the bytes that the cursor passes. -/
theorem touchesBetween_read1 (c : LaylaDecompressorCursor) :
    TouchesBetween c (read1 input c) := by
  intro m v c' m' h
  unfold read1 at h
  split_ifs at h with hleft <;>
    simp only [ExecM.bind_eq_ok, ExecM.pure_apply, Prod.mk.injEq, Exec.ok.injEq] at h
  · obtain ⟨b, _, hload, ⟨-, rfl⟩, rfl⟩ := h
    rw [refill_of_pos (by omega)]
    exact ⟨_, loadInput_eq_ok hload, fun a ha => ⟨_, List.mem_singleton.mp ha, le_rfl, le_rfl⟩⟩
  · obtain ⟨b, _, hload, ⟨-, rfl⟩, rfl⟩ := h
    rw [refill_of_zero (not_not.mp hleft)]
    exact ⟨_, loadInput_eq_ok hload, fun a ha => ⟨_, List.mem_singleton.mp ha, le_rfl, le_rfl⟩⟩

/-- The accesses of two reads of a byte. -/
theorem mem_two_loads {i j : ℤ} {a : Access} {low high : ℤ}
    (ha : a ∈ [Access.readInput j 1] ++ [Access.readInput i 1]) (hi : low ≤ i ∧ i ≤ high)
    (hj : low ≤ j ∧ j ≤ high) : ∃ k, a = .readInput k 1 ∧ low ≤ k ∧ k ≤ high := by
  rcases List.mem_append.mp ha with ha | ha
  · exact ⟨j, List.mem_singleton.mp ha, hj⟩
  · exact ⟨i, List.mem_singleton.mp ha, hi⟩

/-- Reading two bits touches the bytes that the cursor passes. -/
theorem touchesBetween_read2 (c : LaylaDecompressorCursor) :
    TouchesBetween c (read2 input c) := by
  intro m v c' m' h
  unfold read2 at h
  split_ifs at h with hzero htwo <;>
    simp only [ExecM.bind_eq_ok, ExecM.pure_apply, Prod.mk.injEq, Exec.ok.injEq] at h
  · obtain ⟨b, _, hload, ⟨-, rfl⟩, rfl⟩ := h
    rw [refill_of_zero hzero]
    exact ⟨_, loadInput_eq_ok hload, fun a ha => ⟨_, List.mem_singleton.mp ha, le_rfl, le_rfl⟩⟩
  · obtain ⟨b, _, hload, ⟨-, rfl⟩, rfl⟩ := h
    rw [refill_of_pos (by omega)]
    exact ⟨_, loadInput_eq_ok hload, fun a ha => ⟨_, List.mem_singleton.mp ha, le_rfl, le_rfl⟩⟩
  · obtain ⟨b, _, hload, b', _, hload', ⟨-, rfl⟩, rfl⟩ := h
    rw [refill_of_pos (by omega), loadInput_eq_ok hload', loadInput_eq_ok hload, logged_logged]
    exact ⟨_, rfl, fun a ha => mem_two_loads ha (by dsimp only; omega) (by dsimp only; omega)⟩

/-- Reading eight bits touches the bytes that the cursor passes. -/
theorem touchesBetween_read8 (c : LaylaDecompressorCursor) :
    TouchesBetween c (read8 input c) := by
  intro m v c' m' h
  unfold read8 at h
  split_ifs at h with hleft <;>
    simp only [ExecM.bind_eq_ok, ExecM.pure_apply, Prod.mk.injEq, Exec.ok.injEq] at h
  · obtain ⟨high, _, hload, _, _, hmask, low, _, hload', _, _, hmask', ⟨-, rfl⟩, rfl⟩ := h
    rw [bitMask_eq_ok hmask', loadInput_eq_ok hload', bitMask_eq_ok hmask, loadInput_eq_ok hload,
      refill_of_pos (by omega), logged_logged]
    exact ⟨_, rfl, fun a ha => mem_two_loads ha (by dsimp only; omega) (by dsimp only; omega)⟩
  · obtain ⟨b, _, hload, ⟨-, rfl⟩, rfl⟩ := h
    rw [refill_of_zero (not_not.mp hleft)]
    exact ⟨_, loadInput_eq_ok hload, fun a ha => ⟨_, List.mem_singleton.mp ha, le_rfl, le_rfl⟩⟩

/-- Taking bits of a byte changes no machine. -/
theorem piece32_eq_ok {b : UInt8} {left round : ℕ} {m m' : Machine} {v : UInt32}
    (h : piece32 b left round m = (.ok v, m')) : m' = m := by
  unfold piece32 at h
  simp only [ExecM.bind_eq_ok, ExecM.pure_apply, Prod.mk.injEq] at h
  obtain ⟨mask, _, hmask, -, rfl⟩ := h
  exact bitMask_eq_ok hmask

/-- Taking bits of a byte changes no machine. -/
theorem piece8_eq_ok {b : UInt8} {left round : ℕ} {m m' : Machine} {v : UInt8}
    (h : piece8 b left round m = (.ok v, m')) : m' = m := by
  unfold piece8 at h
  simp only [ExecM.bind_eq_ok, ExecM.pure_apply, Prod.mk.injEq] at h
  obtain ⟨mask, _, hmask, -, rfl⟩ := h
  exact bitMask_eq_ok hmask

/-- Reading thirteen bits touches the bytes that the cursor passes. -/
theorem touchesBetween_read13 (c : LaylaDecompressorCursor) :
    TouchesBetween c (read13 input c) := by
  intro m v c' m' h
  unfold read13 read13Rest at h
  simp only [ExecM.bind_eq_ok] at h
  obtain ⟨first, _, hload, _, _, hmask, second, _, hload', _, _, hpiece, h⟩ := h
  split_ifs at h with hdone <;>
    simp only [ExecM.bind_eq_ok, ExecM.pure_apply, Prod.mk.injEq, Exec.ok.injEq] at h
  · obtain ⟨⟨-, rfl⟩, rfl⟩ := h
    rw [piece32_eq_ok hpiece, loadInput_eq_ok hload', bitMask_eq_ok hmask, loadInput_eq_ok hload,
      logged_logged]
    exact ⟨_, rfl, fun a ha => mem_two_loads ha (by dsimp only; omega) (by dsimp only; omega)⟩
  · obtain ⟨third, _, hload'', _, _, hpiece', ⟨-, rfl⟩, rfl⟩ := h
    rw [piece32_eq_ok hpiece', loadInput_eq_ok hload'', piece32_eq_ok hpiece,
      loadInput_eq_ok hload', bitMask_eq_ok hmask, loadInput_eq_ok hload, logged_logged,
      logged_logged]
    refine ⟨_, rfl, fun a ha => ?_⟩
    rcases List.mem_append.mp ha with ha | ha
    · exact mem_two_loads ha (by dsimp only; omega) (by dsimp only; omega)
    · exact ⟨_, List.mem_singleton.mp ha, by dsimp only; omega, le_rfl⟩

/-- The loop of `read_max_8` stops at the last byte it reads, or at the byte after. -/
theorem touches_readMax8Loop {rounds bits : ℕ} {c c' : LaylaDecompressorCursor} {res v : UInt8}
    {m m' : Machine} (h : readMax8Loop input rounds c bits res m = (.ok (v, c'), m')) :
    c'.cdata ≤ c.cdata ∧ ∃ new, m' = m.logged new ∧
      ∀ a ∈ new, ∃ i, a = .readInput i 1 ∧ c'.cdata ≤ i ∧ i ≤ c.cdata := by
  induction rounds generalizing c bits res m with
  | zero =>
    simp only [readMax8Loop, ExecM.pure_apply, Prod.mk.injEq, Exec.ok.injEq] at h
    obtain ⟨⟨-, rfl⟩, rfl⟩ := h
    exact ⟨le_rfl, [], rfl, fun a ha => absurd ha List.not_mem_nil⟩
  | succ rounds ih =>
    unfold readMax8Loop at h
    simp only [ExecM.bind_eq_ok] at h
    obtain ⟨b, _, hload, part, _, hpiece, h⟩ := h
    obtain rfl := piece8_eq_ok hpiece
    obtain rfl := loadInput_eq_ok hload
    split_ifs at h with hdone
    · simp only [ExecM.pure_apply, Prod.mk.injEq, Exec.ok.injEq] at h
      obtain ⟨⟨-, rfl⟩, rfl⟩ := h
      exact ⟨le_rfl, _, rfl, fun a ha => ⟨_, List.mem_singleton.mp ha, le_rfl, le_rfl⟩⟩
    · obtain ⟨hle, new, rfl, hnew⟩ := ih h
      dsimp only at hle hnew
      refine ⟨by omega, new ++ [.readInput c.cdata 1], by rw [logged_logged], fun a ha => ?_⟩
      rcases List.mem_append.mp ha with ha | ha
      · obtain ⟨i, rfl, hlow, hhigh⟩ := hnew a ha
        exact ⟨i, rfl, hlow, by omega⟩
      · exact ⟨_, List.mem_singleton.mp ha, by omega, le_rfl⟩

/-- Reading up to eight bits touches the bytes that the cursor passes. -/
theorem touchesBetween_readMax8 (c : LaylaDecompressorCursor) (bits : ℕ) :
    TouchesBetween c (readMax8 input c bits) := fun _ _ _ _ h => (touches_readMax8Loop h).2

/-- The number of a result is got from accesses of the same bytes. -/
theorem TouchesBetween.map {β γ : Type} {c : LaylaDecompressorCursor}
    {x : ExecM Machine Error (β × LaylaDecompressorCursor)} (h : TouchesBetween c x) (f : β → γ) :
    TouchesBetween c (x >>= fun r => pure (f r.1, r.2)) := by
  intro m v c' m' hrun
  simp only [ExecM.bind_eq_ok, ExecM.pure_apply, Prod.mk.injEq, Exec.ok.injEq] at hrun
  obtain ⟨r, _, hx, ⟨-, rfl⟩, rfl⟩ := hrun
  exact h m r.1 r.2 _ hx

/-- **A read accesses the bytes between the cursors** before and after it. -/
theorem touchesBetween_run (read : CursorRead) (c : LaylaDecompressorCursor) :
    TouchesBetween c (read.run input c) := by
  cases read with
  | read1 => exact (touchesBetween_read1 c).map Bool.toNat
  | read2 => exact (touchesBetween_read2 c).map UInt8.toNat
  | read8 => exact (touchesBetween_read8 c).map UInt8.toNat
  | read13 => exact (touchesBetween_read13 c).map UInt32.toNat
  | readMax8 bits _ _ => exact (touchesBetween_readMax8 c bits).map UInt8.toNat

end Touched

/-! ## One read -/

section Step

variable {input : List UInt8} {c : LaylaDecompressorCursor}

/-- The number of a result that is read as a fixed-width number. -/
theorem ReadsAt.map_toNat {β : Type} {k : ℕ} {f : ℕ → β} {toNat : β → ℕ}
    {x : ExecM Machine Error (β × LaylaDecompressorCursor)}
    (h : ReadsAt input (.fixed k f) c x) (hf : ∀ n, n < 2 ^ k → toNat (f n) = n) :
    ReadsAt input (.fixed k id) c (x >>= fun r => pure (toNat r.1, r.2)) := by
  have hcode : (BitCode.fixed k f).andThen (fun v => .done (toNat v)) = .fixed k id := by
    funext word n
    apply propext
    constructor
    · rintro ⟨_, _, _, rfl, ⟨n, hn, rfl, rfl⟩, rfl, rfl⟩
      exact ⟨n, hn, List.append_nil _, hf n hn⟩
    · rintro ⟨n, hn, rfl, rfl⟩
      exact ⟨_, _, [], (List.append_nil _).symm, ⟨n, hn, rfl, rfl⟩, rfl, (hf n hn).symm⟩
  rw [← hcode]
  exact h.bind fun _ _ _ _ hc' _ => readsAt_pure hc' _

/-- **Every read reads a fixed-width number.** -/
theorem readsAt_run (hc : c.Valid input) (read : CursorRead) :
    ReadsAt input (.fixed read.width id) c (read.run input c) := by
  have h8 : ∀ k ≤ 8, ∀ n, n < 2 ^ k → (UInt8.ofNat n).toNat = n := fun k hk n hn =>
    UInt8.toNat_ofNat_of_lt' (lt_of_lt_of_le hn (Nat.pow_le_pow_right (by omega) hk))
  cases read with
  | read1 =>
    refine (readsAt_read1 hc).map_toNat fun n hn => ?_
    interval_cases n <;> rfl
  | read2 => exact (readsAt_read2 hc).map_toNat (h8 2 (by omega))
  | read8 => exact (readsAt_read8 hc).map_toNat (h8 8 le_rfl)
  | read13 =>
    refine (readsAt_read13 hc).map_toNat fun n hn => ?_
    exact UInt32.toNat_ofNat_of_lt' (lt_of_lt_of_le hn (by decide))
  | readMax8 bits hpos hle =>
    exact (readsAt_readMax8 hc hpos hle).map_toNat (h8 bits (by omega))

/-- The bits below a cursor are as many as its position says. -/
theorem length_remaining_eq (hc : c.Valid input) :
    ((c.remaining input).length : ℤ) = c.position := by
  have := hc.nonneg
  rw [length_remaining hc, position]
  omega

/-- **One read** of a stream that is long enough. -/
theorem run_of_le (hc : c.Valid input) {read : CursorRead}
    (hle : read.width ≤ (c.remaining input).length) :
    ∃ c' new, c'.Valid input ∧ c'.remaining input = (c.remaining input).drop read.width ∧
      c'.position + read.width = c.position ∧ TouchesBits new c.position c'.position ∧
      ∀ m, read.run input c m =
        (.ok (Bits.toNat ((c.remaining input).take read.width), c'), m.logged new) := by
  obtain ⟨c', new, hc', hrem, -, hrun⟩ := (readsAt_run hc read).reads _ _ _
    (BitCode.fixed_take hle id) (List.take_append_drop _ _).symm
  refine ⟨c', new, hc', hrem, ?_, ?_, hrun⟩
  · rw [← length_remaining_eq hc, ← length_remaining_eq hc', hrem, List.length_drop]
    omega
  · obtain ⟨new', hlog, hnew⟩ := touchesBetween_run read c ⟨[], []⟩ _ _ _ (hrun ⟨[], []⟩)
    have hsame : new = new' := by
      simpa [logged] using congrArg Machine.log hlog
    subst hsame
    intro a ha
    obtain ⟨i, rfl, hlow, hhigh⟩ := hnew a ha
    have hbits := hc'.bits_le
    refine ⟨i, rfl, by unfold position; omega, ?_⟩
    -- the cursor before is above the byte, or on it with bits left
    unfold position
    unfold refill at hhigh
    split_ifs at hhigh with hleft
    · dsimp only at hhigh
      omega
    · omega

/-- One read of a stream that is too short leaves the input slice. -/
theorem run_of_lt (hc : c.Valid input) {read : CursorRead}
    (hlt : (c.remaining input).length < read.width) :
    ∃ new, ∀ m, read.run input c m = (.fault, m.logged new) := by
  obtain ⟨new, -, hrun⟩ := (readsAt_run hc read).leaves
    (by rw [BitCode.starts_fixed]; omega)
  exact ⟨new, hrun⟩

end Step

/-! ## Sequences of reads -/

/-- **The cursor refines the bit stream.** From every cursor on a byte of the buffer, or between
two of them, every sequence of reads gives the results of the reference reader, as long as the
stream goes on; after each read the cursor stands before the same bits, and only bytes were
accessed that hold the bits read. When the stream ends before the reads do, the cursor leaves the
buffer.

**Proof sketch.** By induction on the reads, over every valid cursor. Where the bits are enough,
`run_of_le` gives the value and the cursor that the remaining reads begin with; where they are not,
the read faults (`run_of_lt`) and the run with it. -/
theorem runReads_reference (input : List UInt8) (c : LaylaDecompressorCursor)
    (hc : c.Valid input) (reads : List CursorRead) :
    match referenceReads reads (c.remaining input) with
    | some steps => ∃ trace new, (∀ m, runReads input reads c m = (.ok trace, m.logged new)) ∧
        trace.map (fun r => (r.1, r.2.remaining input)) = steps ∧ Advances input c reads trace new
    | none => ∃ new, ∀ m, runReads input reads c m = (.fault, m.logged new) := by
  induction reads generalizing c with
  | nil => exact ⟨[], [], fun m => rfl, rfl, .nil c⟩
  | cons read reads ih =>
    rw [referenceReads]
    split_ifs with hle
    · obtain ⟨c', new, hc', hrem, hmoved, htouched, hrun⟩ := run_of_le hc hle
      have hrest := ih c' hc'
      rw [hrem] at hrest
      rcases hreference : referenceReads reads ((c.remaining input).drop read.width) with _ | steps
      · rw [hreference] at hrest
        obtain ⟨later, hfault⟩ := hrest
        refine ⟨later ++ new, fun m => ?_⟩
        rw [runReads, ExecM.bind_of_ok (hrun m), ExecM.bind_of_fault (hfault _), logged_logged]
      · rw [hreference] at hrest
        obtain ⟨trace, later, hok, hsteps, hadvances⟩ := hrest
        refine ⟨(Bits.toNat ((c.remaining input).take read.width), c') :: trace, later ++ new,
          fun m => ?_, ?_, .cons hc' hmoved htouched hadvances⟩
        · rw [runReads, ExecM.bind_of_ok (hrun m), ExecM.bind_of_ok (hok _), logged_logged]
          rfl
        · rw [List.map_cons, hsteps, hrem]
    · obtain ⟨new, hfault⟩ := run_of_lt hc (Nat.lt_of_not_le hle)
      exact ⟨new, fun m => ExecM.bind_of_fault (hfault m) _⟩

/-- Reads of all five kinds, from a cursor with three bits left. -/
theorem runReads_reference_sample : ∃ trace new,
    (∀ m, runReads [0x5a, 0xca, 0x93, 0x59, 0x0f] [.read1, .readMax8 7 (by decide) (by decide), .read2,
      .read13, .read8] ⟨4, 3⟩ m = (.ok trace, m.logged new)) ∧
    trace.map Prod.fst = [1, 107, 0, 6460, 165] := by
  have hrun := runReads_reference [0x5a, 0xca, 0x93, 0x59, 0x0f] ⟨4, 3⟩
    ⟨by decide, by decide, by decide, by decide⟩ [.read1, .readMax8 7 (by decide) (by decide),
      .read2, .read13, .read8]
  have hreference : (referenceReads [.read1, .readMax8 7 (by decide) (by decide), .read2, .read13,
      .read8] (LaylaDecompressorCursor.remaining [0x5a, 0xca, 0x93, 0x59, 0x0f] ⟨4, 3⟩)).map
        (fun steps => steps.map Prod.fst) = some [1, 107, 0, 6460, 165] := by
    decide +kernel
  rcases hsteps : referenceReads [.read1, .readMax8 7 (by decide) (by decide), .read2, .read13,
      .read8] (LaylaDecompressorCursor.remaining [0x5a, 0xca, 0x93, 0x59, 0x0f] ⟨4, 3⟩) with _ | steps
  · rw [hsteps] at hreference
    cases hreference
  · rw [hsteps] at hrun hreference
    obtain ⟨trace, new, hok, rfl, -⟩ := hrun
    refine ⟨trace, new, hok, ?_⟩
    rw [Option.map_some, List.map_map] at hreference
    exact Option.some.inj hreference

end CriArchive
