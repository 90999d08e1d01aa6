import CriArchive.Cpk.Compress.Bounds

set_option relaxedAutoImplicit false
set_option autoImplicit false

/-!
# The runs of the CRILAYLA decompressor

A run stays in bounds exactly when the input holds tokens of the format that expand to the
declared size; then it writes their expansion.

## Main definitions

* `Tokens` — the tokens of a given expansion at a cursor.
* `WellFormed` — the inputs that hold a prefix and tokens of the declared size.

## Main results

* `loop_ok`, `tokens_of_loop` — the loop expands tokens, and only tokens keep it in bounds.
* `decompress_tokens` — the decompressor returns the prefix and the expansion of the tokens,
  whatever memory it is given.
* `stays_in_bounds_iff` — a run stays in bounds iff the input is well formed.
-/

namespace CriArchive

open Machine LaylaDecompressorCursor Lzss

namespace LaylaDecompressor

/-- Tokens of the format that the bits start with, which expand what was produced before into
`out'` and fill the room left. -/
structure Tokens (ts : List (Token UInt8)) (bits : List Bool) (out out' : List UInt8)
    (room : ℕ) : Prop where
  inFormat : ∀ t ∈ ts, InFormat t
  bits : ts.flatMap tokenBits <+: bits
  expand : expand ts out = some out'
  size : Lzss.size ts = room

/-- Every token of the format produces a byte. -/
theorem size_pos {t : Token UInt8} (h : InFormat t) : 0 < t.size := by
  cases t with
  | literal b => exact Nat.one_pos
  | copy distance length =>
    obtain ⟨-, -, hlength⟩ := h
    exact lt_of_lt_of_le (by decide) hlength

section

variable {input : List UInt8} {outputSize : ℕ} {pre out : List UInt8} {room : ℕ} {m : Machine}
  {c : LaylaDecompressorCursor}

/-! ## Turns -/

/-- **A turn expands a token into the room left.** -/
theorem step_ok {t : Token UInt8} {rest : List Bool} {out' : List UInt8} (hc : c.Valid input)
    (hformat : InFormat t) (hbits : c.remaining input = tokenBits t ++ rest)
    (happly : t.apply out = some out') (hroom : t.size ≤ room)
    (h : Decoded input.length outputSize pre out room m) :
    ∃ c' m', step input (pwriteAt room) c m = (.ok (pwriteAt (room - t.size), c'), m') ∧
      c'.Valid input ∧ c'.remaining input = rest ∧
      Decoded input.length outputSize pre out' (room - t.size) m' := by
  obtain ⟨c', new, hc', hrest, hin, hread⟩ :=
    (readsAt_readToken hc).reads _ t rest ⟨hformat, rfl⟩ hbits
  obtain ⟨m', hwrite, h'⟩ := writeToken_ok hformat happly hroom (h.logged hin)
  refine ⟨c', m', ?_, hc', hrest, h'⟩
  rw [step_eq, ExecM.bind_of_ok (hread m), ExecM.bind_of_ok hwrite]
  rfl

/-! ## The loop -/

/-- Whether the loop goes on. -/
theorem le_pwriteAt : (uncompressedDataSize : ℤ) ≤ pwriteAt room ↔ 0 < room := by
  simp only [pwriteAt]
  omega

/-- **The loop expands tokens** that fill the room left. Induction on the tokens.

**Proof sketch.** Induction on the tokens. With room left the loop reads a token, which is the first
of the list since the bits below the cursor start with it, and writes what it stands for
(`step_ok`); without tokens there is no room. -/
theorem loop_ok {ts : List (Token UInt8)} {out' : List UInt8} {fuel : ℕ} (hfuel : room < fuel)
    (hc : c.Valid input) (hts : Tokens ts (c.remaining input) out out' room)
    (h : Decoded input.length outputSize pre out room m) :
    ∃ m', loop input fuel (pwriteAt room) c m = (.ok (), m') ∧
      Decoded input.length outputSize pre out' 0 m' := by
  obtain ⟨fuel, rfl⟩ : ∃ f, fuel = f + 1 := ⟨fuel - 1, by omega⟩
  induction ts generalizing fuel out room c m with
  | nil =>
    obtain rfl : 0 = room := hts.size
    have hout := hts.expand
    cases hout
    exact ⟨m, by rw [loop, if_neg (by rw [le_pwriteAt]; omega)]; rfl, h⟩
  | cons t ts ih =>
    have hformat := hts.inFormat t (List.mem_cons_self ..)
    have hpos := size_pos hformat
    have hsize := hts.size
    rw [size_cons] at hsize
    obtain ⟨more, hbits⟩ := hts.bits
    rw [List.flatMap_cons, List.append_assoc] at hbits
    have hexpand := hts.expand
    rw [Lzss.expand] at hexpand
    split at hexpand
    case h_1 mid hmid =>
      obtain ⟨c₁, m₁, hstep, hc₁, hrest, h₁⟩ :=
        step_ok hc hformat hbits.symm hmid (by omega) h
      have hts₁ : Tokens ts (c₁.remaining input) mid out' (room - t.size) :=
        ⟨fun t' ht' => hts.inFormat t' (List.mem_cons_of_mem t ht'), ⟨more, hrest.symm⟩, hexpand,
          by omega⟩
      obtain ⟨fuel, rfl⟩ : ∃ f, fuel = f + 1 := ⟨fuel - 1, by omega⟩
      obtain ⟨m₂, hloop, h₂⟩ := ih hc₁ hts₁ h₁ fuel (by omega)
      refine ⟨m₂, ?_, h₂⟩
      rw [loop, if_pos (by rw [le_pwriteAt]; omega), ExecM.bind_of_ok hstep]
      exact hloop
    case h_2 => cases hexpand

/-- A turn of the loop, token by token. -/
theorem loop_eq {p : ℤ} (hp : (uncompressedDataSize : ℤ) ≤ p) (fuel : ℕ) :
    loop input (fuel + 1) p c = (readToken input c >>= fun t =>
      writeToken p t.1 >>= fun q => loop input fuel q t.2) := by
  rw [loop, if_pos hp, step_eq, ExecM.bind_assoc]
  refine congrArg _ (funext fun t => ?_)
  rw [ExecM.bind_assoc]
  rfl

/-- The loop only adds accesses, from a cursor that reads leave behind. -/
theorem grows_loop {fuel : ℕ} (hc : c.Valid input) (p : ℤ) : Grows (loop input fuel p c) := by
  induction fuel generalizing c p with
  | zero => exact grows_lift _
  | succ fuel ih =>
    by_cases hp : (uncompressedDataSize : ℤ) ≤ p
    · rw [loop_eq hp]
      intro m
      by_cases hstart : tokenCode.Starts (c.remaining input)
      · obtain ⟨word, t, rest, hword, hbits⟩ := hstart
        obtain ⟨c', new, hc', -, -, hread⟩ := (readsAt_readToken hc).reads word t rest hword hbits
        rw [ExecM.bind_of_ok (hread m)]
        have hgrow := (grows_writeToken p hword.1).bind (fun q => ih hc' q) (m.logged new)
        exact (List.suffix_append new m.log).trans hgrow
      · obtain ⟨new, -, hread⟩ := (readsAt_readToken hc).leaves hstart
        rw [ExecM.bind_of_fault (hread m)]
        exact List.suffix_append new m.log
    · rw [loop, if_neg hp]
      exact grows_pure ()

/-- The first turn of a loop that stays in bounds expands a token into the room left. -/
theorem token_of_loop {fuel : ℕ} (hc : c.Valid input) (hroom : 0 < room)
    (h : Decoded input.length outputSize pre out room m)
    (hsafe : SafeLog input.length outputSize
      (loop input (fuel + 1) (pwriteAt room) c m).2.log) :
    ∃ t rest out', InFormat t ∧ c.remaining input = tokenBits t ++ rest ∧
      t.apply out = some out' ∧ t.size ≤ room := by
  by_contra hno
  refine absurd hsafe ?_
  rw [loop_eq (le_pwriteAt.mpr hroom)]
  by_cases hstart : tokenCode.Starts (c.remaining input)
  · obtain ⟨_, t, rest, ⟨hformat, rfl⟩, hbits⟩ := hstart
    obtain ⟨c', new, hc', -, hin, hread⟩ :=
      (readsAt_readToken hc).reads _ t rest ⟨hformat, rfl⟩ hbits
    have hbad : t.apply out = none ∨ room < t.size := by
      rcases happly : t.apply out with _ | out'
      · exact Or.inl rfl
      · refine Or.inr (Nat.lt_of_not_le fun hle => hno ?_)
        exact ⟨t, rest, out', hformat, hbits, happly, hle⟩
    rw [ExecM.bind_of_ok (hread m)]
    exact not_safeLog_bind (not_safeLog_writeToken hformat hbad (h.logged hin))
      fun q => grows_loop hc' q
  · obtain ⟨new, ⟨start, len, hmem, hout⟩, hread⟩ := (readsAt_readToken hc).leaves hstart
    rw [ExecM.bind_of_fault (hread m)]
    exact not_safeLog_of_outside (List.mem_append_left _ hmem) hout

/-- **Only tokens keep the loop in bounds.** Induction on the fuel. -/
theorem tokens_of_loop {fuel : ℕ} (hfuel : room < fuel) (hc : c.Valid input)
    (h : Decoded input.length outputSize pre out room m)
    (hsafe : SafeLog input.length outputSize (loop input fuel (pwriteAt room) c m).2.log) :
    ∃ ts out', Tokens ts (c.remaining input) out out' room := by
  induction fuel generalizing out room c m with
  | zero => omega
  | succ fuel ih =>
    rcases Nat.eq_zero_or_pos room with rfl | hroom
    · exact ⟨[], out, by simp, List.nil_prefix, rfl, rfl⟩
    · obtain ⟨t, rest, mid, hformat, hbits, happly, hle⟩ := token_of_loop hc hroom h hsafe
      obtain ⟨c₁, m₁, hstep, hc₁, hrest, h₁⟩ := step_ok hc hformat hbits happly hle h
      rw [loop, if_pos (le_pwriteAt.mpr hroom), ExecM.bind_of_ok hstep] at hsafe
      have hpos := size_pos hformat
      obtain ⟨ts, out', hts⟩ := ih (by omega) hc₁ h₁ hsafe
      refine ⟨t :: ts, out', ?_, ?_, ?_, ?_⟩
      · intro t' ht'
        rcases List.mem_cons.mp ht' with rfl | ht'
        · exact hformat
        · exact hts.inFormat t' ht'
      · rw [List.flatMap_cons, hbits, List.prefix_append_right_inj, ← hrest]
        exact hts.bits
      · rw [Lzss.expand, happly]
        exact hts.expand
      · have := hts.size
        rw [size_cons]
        omega

end

/-! ## Runs -/

/-- The input has the header, the prefix after its compressed data, and, read downward from the
prefix, tokens of the format that refer to existing data and expand to the declared size. -/
def WellFormed (input : List UInt8) : Prop :=
  ∃ header tokens, fromStream input = .ok header ∧
    laylaHeaderSize + header.uncompressedHeaderOffset.toNat + uncompressedDataSize ≤ input.length ∧
    (∀ t ∈ tokens, InFormat t) ∧ Fits 0 tokens ∧
    Lzss.size tokens = header.uncompressedSize.toNat ∧
    tokens.flatMap tokenBits <+:
      Bits.down (input.take (laylaHeaderSize + header.uncompressedHeaderOffset.toNat))

section

variable {input buffer : List UInt8} {header : LaylaHeader}

/-- The access that reads the prefix. -/
def prefixAccess (header : LaylaHeader) : Access :=
  .readInput (laylaHeaderSize + header.uncompressedHeaderOffset.toNat) uncompressedDataSize

/-- The cursor from which the tokens are read. -/
def startCursor (header : LaylaHeader) : LaylaDecompressorCursor :=
  ⟨laylaHeaderSize + header.uncompressedHeaderOffset.toNat, 0⟩

/-- The cursor that decoding starts with is one that reads leave behind. -/
theorem valid_startCursor
    (hin : laylaHeaderSize + header.uncompressedHeaderOffset.toNat + uncompressedDataSize ≤
      input.length) : (startCursor header).Valid input where
  nonneg := by simp only [startCursor, laylaHeaderSize]; omega
  le_length := by simp only [startCursor]; omega
  bits_le := Nat.zero_le 7
  on_byte h := absurd h (lt_irrefl 0)

/-- Below the first cursor are the bits of the compressed bytes, read downwards. -/
theorem remaining_startCursor : (startCursor header).remaining input =
    Bits.down (input.take (laylaHeaderSize + header.uncompressedHeaderOffset.toNat)) := by
  have hpos : ((laylaHeaderSize : ℤ) + header.uncompressedHeaderOffset.toNat).toNat =
      laylaHeaderSize + header.uncompressedHeaderOffset.toNat := by omega
  rw [startCursor, remaining, hpos]
  rfl

/-- A run whose prefix lies inside the input copies it and enters the loop.

**Proof sketch.** The prefix is read from behind the compressed bytes and written to the start of
the buffer; both accesses are inside. What is left of the buffer is the room that the loop fills. -/
theorem run_eq (hin : laylaHeaderSize + header.uncompressedHeaderOffset.toNat +
      uncompressedDataSize ≤ input.length)
    (hlen : buffer.length = header.uncompressedSize.toNat + uncompressedDataSize) :
    ∃ m, run input header ⟨buffer, []⟩ =
        loop input (header.uncompressedSize.toNat + 1) (pwriteAt header.uncompressedSize.toNat)
          (startCursor header) m ∧
      Decoded input.length buffer.length
        (window input (laylaHeaderSize + header.uncompressedHeaderOffset.toNat)
          uncompressedDataSize) [] header.uncompressedSize.toNat m := by
  have hpos : ((laylaHeaderSize : ℤ) + header.uncompressedHeaderOffset.toNat) =
      ((laylaHeaderSize + header.uncompressedHeaderOffset.toNat : ℕ) : ℤ) := by omega
  have hbounds : InBounds ((laylaHeaderSize : ℤ) + header.uncompressedHeaderOffset.toNat)
      uncompressedDataSize input.length := by
    rw [hpos]
    exact ⟨by omega, by omega⟩
  have hhead := length_window hin
  generalize hpre : window input (laylaHeaderSize + header.uncompressedHeaderOffset.toNat)
    uncompressedDataSize = pre at hhead ⊢
  have hread : readInput input ((laylaHeaderSize : ℤ) + header.uncompressedHeaderOffset.toNat)
      uncompressedDataSize ⟨buffer, []⟩ = (.ok pre, ⟨buffer, [prefixAccess header]⟩) := by
    rw [readInput, if_pos hbounds, hpos, Int.toNat_natCast, hpre]
    rfl
  have hwrite : writePrefix pre ⟨buffer, [prefixAccess header]⟩ = (.ok (),
      ⟨pre ++ (buffer.drop pre.length), [.writePrefix 0 pre.length, prefixAccess header]⟩) := by
    rw [writePrefix, if_pos (by dsimp only; omega), splice, Nat.zero_add]
    rfl
  refine ⟨_, (ExecM.bind_of_ok hread _).trans (ExecM.bind_of_ok hwrite _), hhead,
    ⟨buffer.drop pre.length, by rw [List.length_drop]; omega, by rw [List.append_nil]⟩,
    by rw [List.length_nil]; omega, ⟨?_, ?_, trivial⟩, ?_⟩
  · exact ⟨le_refl 0, by omega⟩
  · exact hbounds
  · intro i hi hlt
    simp only [pwriteAt] at hi
    omega

/-- Without room for the prefix after the compressed bytes, its window is out of bounds. -/
theorem not_inBounds_window (hout : ¬laylaHeaderSize + header.uncompressedHeaderOffset.toNat +
      uncompressedDataSize ≤ input.length) :
    ¬InBounds ((laylaHeaderSize : ℤ) + header.uncompressedHeaderOffset.toNat)
      uncompressedDataSize input.length := by
  rintro ⟨-, hlast⟩
  omega

/-- A run whose prefix lies outside the input faults. -/
theorem run_fault (hout : ¬laylaHeaderSize + header.uncompressedHeaderOffset.toNat +
      uncompressedDataSize ≤ input.length) :
    run input header ⟨buffer, []⟩ = (.fault, ⟨buffer, [prefixAccess header]⟩) := by
  have hread : readInput input ((laylaHeaderSize : ℤ) + header.uncompressedHeaderOffset.toNat)
      uncompressedDataSize ⟨buffer, []⟩ = (.fault, ⟨buffer, [prefixAccess header]⟩) := by
    rw [readInput, if_neg (not_inBounds_window hout)]
    rfl
  rw [run, ExecM.bind_of_fault hread]

/-- A run whose prefix lies outside the input does not stay in bounds. -/
theorem run_outside (hout : ¬laylaHeaderSize + header.uncompressedHeaderOffset.toNat +
      uncompressedDataSize ≤ input.length) (outputSize : ℕ) :
    ¬SafeLog input.length outputSize (run input header ⟨buffer, []⟩).2.log := by
  rw [run_fault hout]
  exact not_safeLog_of_outside (List.mem_singleton_self _) (not_inBounds_window hout)

/-- Tokens that refer to existing data have an expansion. -/
theorem tokens_of_fits {ts : List (Token UInt8)} {bits : List Bool} {room : ℕ}
    (hformat : ∀ t ∈ ts, InFormat t) (hfits : Fits 0 ts) (hsize : Lzss.size ts = room)
    (hbits : ts.flatMap tokenBits <+: bits) : ∃ out, Tokens ts bits [] out room := by
  have hpos : ∀ t ∈ ts, ∀ distance length, t = .copy distance length → 0 < distance := by
    rintro t ht distance length rfl
    obtain ⟨hmin, -, -⟩ := hformat _ ht
    omega
  have hsome : (expand ts []).isSome := expand_isSome hpos hfits
  obtain ⟨out, hout⟩ := Option.isSome_iff_exists.mp hsome
  exact ⟨out, hformat, hbits, hout, hsize⟩

/-- **A run of the decompressor on tokens** writes the prefix and their expansion, in bounds. -/
theorem run_ok {ts : List (Token UInt8)} {out : List UInt8}
    (hin : laylaHeaderSize + header.uncompressedHeaderOffset.toNat + uncompressedDataSize ≤
      input.length)
    (hlen : buffer.length = header.uncompressedSize.toNat + uncompressedDataSize)
    (hts : Tokens ts (Bits.down
      (input.take (laylaHeaderSize + header.uncompressedHeaderOffset.toNat))) [] out
      header.uncompressedSize.toNat) :
    ∃ m, run input header ⟨buffer, []⟩ = (.ok (), m) ∧
      m.output = window input (laylaHeaderSize + header.uncompressedHeaderOffset.toNat)
        uncompressedDataSize ++ out ∧ SafeLog input.length buffer.length m.log := by
  obtain ⟨m, hrun, hm⟩ := run_eq hin hlen
  rw [← remaining_startCursor] at hts
  obtain ⟨m', hloop, hm'⟩ := loop_ok (Nat.lt_succ_self _) (valid_startCursor hin) hts hm
  obtain ⟨gap, hgap, hout⟩ := hm'.output
  rw [List.length_eq_zero_iff.mp hgap, List.nil_append] at hout
  exact ⟨m', hrun.trans hloop, hout, hm'.safe⟩

/-- **A run stays in bounds iff the input is well formed.** -/
theorem safe_run_iff (hheader : fromStream input = .ok header)
    (hlen : buffer.length = header.uncompressedSize.toNat + uncompressedDataSize) :
    SafeLog input.length buffer.length (run input header ⟨buffer, []⟩).2.log ↔
      WellFormed input := by
  constructor
  · intro hsafe
    by_cases hin : laylaHeaderSize + header.uncompressedHeaderOffset.toNat +
      uncompressedDataSize ≤ input.length
    · obtain ⟨m, hrun, hm⟩ := run_eq hin hlen
      rw [hrun] at hsafe
      obtain ⟨ts, out, hts⟩ :=
        tokens_of_loop (Nat.lt_succ_self _) (valid_startCursor hin) hm hsafe
      have hbits := hts.bits
      rw [remaining_startCursor] at hbits
      exact ⟨header, ts, hheader, hin, hts.inFormat,
        fits_of_expand (fun t ht => size_pos (hts.inFormat t ht)) hts.expand, hts.size, hbits⟩
    · exact absurd hsafe (run_outside hin _)
  · rintro ⟨header', ts, hheader', hin, hformat, hfits, hsize, hbits⟩
    obtain rfl : header = header' := Exec.ok.inj (hheader.symm.trans hheader')
    obtain ⟨out, hts⟩ := tokens_of_fits hformat hfits hsize hbits
    obtain ⟨m, hrun, -, hsafe⟩ := run_ok hin hlen hts
    rw [hrun]
    exact hsafe

/-! ## The entry point -/

/-- The decompressor returns what a run writes to the buffer it was given, or faults with it. -/
theorem decompress_eq_run (hheader : fromStream input = .ok header) (list : FreeList) :
    ∃ buffer : List UInt8,
      buffer.length = header.uncompressedSize.toNat + uncompressedDataSize ∧
      (decompress input list).1 =
        ((run input header).runOn ⟨buffer, []⟩ >>= fun done => .ok done.2.output) := by
  obtain ⟨node, list₁, halloc, hsize⟩ :=
    FreeList.allocate_ok (header.uncompressedSize.toNat + uncompressedDataSize) list
  refine ⟨list₁.contents node, by rw [FreeList.length_contents, hsize], ?_⟩
  rw [decompress, ExecM.bind_of_ok (by rw [ExecM.lift_apply, hheader]), ExecM.bind_of_ok halloc,
    ExecM.bind_of_ok (ExecM.get_apply list₁)]
  rcases hrun : (run input header).runOn ⟨list₁.contents node, []⟩ with done | e | _
  · obtain ⟨list₂, hover⟩ := FreeList.overwrite_ok node done.2.output list₁
    obtain ⟨list₃, hrelease⟩ := FreeList.release_ok node list₂
    rw [ExecM.bind_of_ok (ExecM.lift_apply _ _), ExecM.bind_of_ok hover,
      ExecM.bind_of_ok hrelease]
    rfl
  · rw [ExecM.bind_of_err (ExecM.lift_apply _ _)]
    rfl
  · rw [ExecM.bind_of_fault (ExecM.lift_apply _ _)]
    rfl

/-- On an input that holds a prefix and tokens the decompressor returns the prefix and what the
tokens expand to. -/
theorem decompress_eq {ts : List (Token UInt8)} {out : List UInt8}
    (hheader : fromStream input = .ok header)
    (hin : laylaHeaderSize + header.uncompressedHeaderOffset.toNat + uncompressedDataSize ≤
      input.length)
    (hts : Tokens ts (Bits.down
      (input.take (laylaHeaderSize + header.uncompressedHeaderOffset.toNat))) [] out
      header.uncompressedSize.toNat) (list : FreeList) :
    (decompress input list).1 = .ok (window input
      (laylaHeaderSize + header.uncompressedHeaderOffset.toNat) uncompressedDataSize ++ out) := by
  obtain ⟨buffer, hlen, heq⟩ := decompress_eq_run hheader list
  obtain ⟨m, hrun, hout, -⟩ := run_ok hin hlen hts
  rw [heq, ExecM.runOn_of_ok hrun, Exec.ok_bind, hout]

/-- **Decoding is correct on the whole format.** On an input that holds a prefix and, read downward
from it, tokens that refer to existing data and expand to the declared size, the decompressor
returns the prefix and the expansion, whatever memory its allocator hands out.

**Proof sketch.** `tokens_of_fits` turns the list of tokens into the derivation that the decoder
follows, with the expansion as its output, and `decompress_eq` runs the decoder on it. -/
theorem decompress_tokens {pre : List UInt8} {tokens : List (Token UInt8)}
    (hheader : fromStream input = .ok header)
    (hhead : window input (laylaHeaderSize + header.uncompressedHeaderOffset.toNat)
      uncompressedDataSize = pre) (hlength : pre.length = uncompressedDataSize)
    (hformat : ∀ t ∈ tokens, InFormat t) (hfits : Fits 0 tokens)
    (hsize : Lzss.size tokens = header.uncompressedSize.toNat)
    (hbits : tokens.flatMap tokenBits <+:
      Bits.down (input.take (laylaHeaderSize + header.uncompressedHeaderOffset.toNat))) :
    ∃ out, Lzss.expand tokens [] = some out ∧
      ∀ list : FreeList, (decompress input list).1 = .ok (pre ++ out) := by
  obtain ⟨out, hts⟩ := tokens_of_fits hformat hfits hsize hbits
  refine ⟨out, hts.expand, fun list => ?_⟩
  have hin : laylaHeaderSize + header.uncompressedHeaderOffset.toNat + uncompressedDataSize ≤
      input.length := by
    have hwindow := congrArg List.length hhead
    rw [hlength, window, List.length_take, List.length_drop] at hwindow
    have hpos : 0 < uncompressedDataSize := by decide
    omega
  rw [decompress_eq hheader hin hts, hhead]

/-- An input with three literals and an overlapping copy. -/
def sampleInput : List UInt8 :=
  [0x43, 0x52, 0x49, 0x4c, 0x41, 0x59, 0x4c, 0x41, 7, 0, 0, 0, 6, 0, 0, 0] ++
    [0x20, 0x00, 0x70, 0x80, 0x80, 0x00] ++ List.replicate 0x100 9

/-- The tokens of the sample input. -/
def sampleTokens : List (Token UInt8) := [.literal 1, .literal 2, .literal 3, .copy 3 4]

/-- The sample input is decoded, and its copy overlaps its own output. -/
theorem decompress_tokens_sample :
    (decompress sampleInput (FreeList.new (fun _ => 0) fun _ => 0)).1 =
      .ok (List.replicate 0x100 9 ++ [1, 3, 2, 1, 3, 2, 1]) := by
  obtain ⟨out, hout, hlist⟩ := @decompress_tokens sampleInput ⟨headerMagic, 7, 6⟩
    (List.replicate 0x100 9) sampleTokens (by decide +kernel) (by decide +kernel)
    (by decide +kernel) (by decide +kernel) (by decide +kernel)
    (by decide +kernel) (by decide +kernel)
  obtain rfl : [1, 3, 2, 1, 3, 2, 1] = out := by
    have h : expand sampleTokens [] = some [1, 3, 2, 1, 3, 2, 1] := by decide
    exact Option.some.inj (h.symm.trans hout)
  exact hlist _

/-- On every buffer of the size asked for, every access of a run is allowed. -/
def StaysInBounds (input : List UInt8) : Prop :=
  ∀ header, fromStream input = .ok header → ∀ buffer : List UInt8,
    buffer.length = header.uncompressedSize.toNat + uncompressedDataSize →
    SafeLog input.length buffer.length (run input header ⟨buffer, []⟩).2.log

/-- An input that is long enough for the magic number is long enough for the header. -/
theorem fromStream_ok (h : laylaHeaderSize ≤ input.length) :
    ∃ header, fromStream input = .ok header := by
  have hlen : 16 ≤ input.length := h
  rw [fromStream, fromSliceU64_eq (by omega), fromSliceU32_eq (by omega),
    fromSliceU32_eq (by omega)]
  exact ⟨_, rfl⟩

/-- What looks compressed has room for the header. -/
theorem length_of_isCompressed (h : isCompressed input = .ok true) :
    laylaHeaderSize ≤ input.length := by
  unfold isCompressed at h
  split_ifs at h with hlen
  · exact hlen
  · cases h

/-- **Decoding stays in bounds exactly on well-formed input**: the magic number that the reader
checks does not suffice, the rest of the input must hold a prefix and tokens of the declared size.

**Proof sketch.** The decoder can be run on any buffer of the declared length, and `safe_run_iff`
relates the safety of that run to the tokens of the input. -/
theorem staysInBounds_iff (h : isCompressed input = .ok true) :
    StaysInBounds input ↔ WellFormed input := by
  obtain ⟨header, hheader⟩ := fromStream_ok (length_of_isCompressed h)
  constructor
  · intro hsafe
    have hlen : (List.replicate (header.uncompressedSize.toNat + uncompressedDataSize)
        (0 : UInt8)).length = header.uncompressedSize.toNat + uncompressedDataSize :=
      List.length_replicate
    exact (safe_run_iff hheader hlen).mp (hsafe header hheader _ hlen)
  · intro hwell header' hheader' buffer hlen
    exact (safe_run_iff hheader' hlen).mpr hwell

/-- On the sample input decoding stays in bounds. -/
theorem staysInBounds_iff_sample : StaysInBounds sampleInput := by
  have hcompressed : isCompressed sampleInput = .ok true := by decide +kernel
  have hwell : WellFormed sampleInput := by
    refine ⟨⟨headerMagic, 7, 6⟩, sampleTokens, ?_, ?_, ?_, ?_, ?_, ?_⟩
    · decide +kernel
    · decide +kernel
    · decide
    · decide
    · decide
    · decide +kernel
  rw [staysInBounds_iff hcompressed]
  exact hwell

/-- An input that is a header and nothing else. -/
def headerOnly : List UInt8 :=
  [0x43, 0x52, 0x49, 0x4c, 0x41, 0x59, 0x4c, 0x41, 0, 0, 0, 0, 0, 0, 0, 0]

/-- The copy of the prefix of a header without data reads past the end of the input. -/
theorem not_staysInBounds_headerOnly :
    ¬∀ input, isCompressed input = .ok true → StaysInBounds input := by
  intro h
  have hheader : fromStream headerOnly = .ok ⟨headerMagic, 0, 0⟩ := by decide
  have hsafe := h headerOnly (by decide) _ hheader (List.replicate 0x100 0) List.length_replicate
  exact run_outside (by decide) _ hsafe

end

end LaylaDecompressor

end CriArchive
