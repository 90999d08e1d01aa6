import CriArchive.Cpk.Compress.Format

set_option relaxedAutoImplicit false
set_option autoImplicit false

/-!
# The memory accesses of the CRILAYLA decompressor

What it means that a run stays in bounds, as a condition on its accesses, and how the copies and
the literals of the decompressor keep it: the bytes produced so far are the end of the output, and
a token either adds to them or breaks the condition.

## Main definitions

* `SafeLog` — every access of a log is allowed after the accesses before it.
* `Decoded` — the invariant of the loop: the prefix, the room left, the bytes produced so far.

## Main results

* `writeToken_ok` — a token that can be expanded into the room left is expanded.
* `not_safeLog_writeToken` — any other token makes an access that is not allowed.
-/

namespace CriArchive

open Machine LaylaDecompressorCursor Lzss

namespace LaylaDecompressor

/-! ## Allowed accesses -/

/-- A byte of the output buffer was written. -/
def Written (log : List Access) (i : ℤ) : Prop :=
  ∃ (start : ℤ) (len : ℕ), (.writePrefix start len ∈ log ∨ .writeOutput start len ∈ log) ∧
    start ≤ i ∧ i < start + len

/-- The accesses that stay in bounds: of the input slice; of the part of the output that was
written before; and writes of the output, above the prefix once it is copied. -/
def Allowed (inputSize outputSize : ℕ) (before : List Access) : Access → Prop
  | .readInput start len => InBounds start len inputSize
  | .readOutput start len =>
    InBounds start len outputSize ∧ ∀ i, start ≤ i → i < start + len → Written before i
  | .writePrefix start len => InBounds start len outputSize
  | .writeOutput start len => InBounds start len outputSize ∧ uncompressedDataSize ≤ start

/-- Every access of a log is allowed after the accesses before it. -/
def SafeLog (inputSize outputSize : ℕ) : List Access → Prop
  | [] => True
  | a :: before => Allowed inputSize outputSize before a ∧ SafeLog inputSize outputSize before

section SafeLog

variable {inputSize outputSize : ℕ}

/-- A later access does not make up for one that is not allowed. -/
theorem SafeLog.of_append {new log : List Access}
    (h : SafeLog inputSize outputSize (new ++ log)) : SafeLog inputSize outputSize log := by
  induction new with
  | nil => exact h
  | cons a new ih => exact ih h.2

/-- A log that was allowed was allowed before its last accesses. -/
theorem SafeLog.of_suffix {log log' : List Access} (h : SafeLog inputSize outputSize log')
    (hs : log <:+ log') : SafeLog inputSize outputSize log := by
  obtain ⟨new, rfl⟩ := hs
  exact h.of_append

/-- Reads inside the input slice are allowed. -/
theorem SafeLog.inside {new log : List Access} (h : SafeLog inputSize outputSize log)
    (hin : ∀ a ∈ new, InsideInput inputSize a) : SafeLog inputSize outputSize (new ++ log) := by
  induction new with
  | nil => exact h
  | cons a new ih =>
    refine ⟨?_, ih fun b hb => hin b (List.mem_cons_of_mem a hb)⟩
    have ha := hin a (List.mem_cons_self ..)
    cases a with
    | readInput start len => exact ha
    | readOutput start len => exact ha.elim
    | writePrefix start len => exact ha.elim
    | writeOutput start len => exact ha.elim

/-- A log with a read outside the input slice is not safe. -/
theorem not_safeLog_of_outside {log : List Access} {start : ℤ} {len : ℕ}
    (hmem : .readInput start len ∈ log) (hout : ¬InBounds start len inputSize) :
    ¬SafeLog inputSize outputSize log := by
  intro h
  obtain ⟨new, before, rfl⟩ := List.append_of_mem hmem
  exact hout h.of_append.1

end SafeLog

/-- What was written stays written. -/
theorem Written.append {log : List Access} {i : ℤ} (h : Written log i) (new : List Access) :
    Written (new ++ log) i := by
  obtain ⟨start, len, hmem, hrange⟩ := h
  exact ⟨start, len, hmem.imp (List.mem_append_right new) (List.mem_append_right new), hrange⟩

/-! ## Logs only grow -/

/-- A computation only adds accesses. -/
def Grows {α : Type} (x : ExecM Machine Error α) : Prop := ∀ m, m.log <:+ (x m).2.log

section Grows

variable {α β : Type}

/-- A pure value adds no access. -/
theorem grows_pure (a : α) : Grows (pure a : ExecM Machine Error α) := fun _ => List.suffix_refl _

/-- A lifted result adds no access. -/
theorem grows_lift (x : Exec Error α) : Grows (ExecM.lift x : ExecM Machine Error α) :=
  fun _ => List.suffix_refl _

/-- What only adds accesses can be followed by what only adds accesses. -/
theorem Grows.bind {x : ExecM Machine Error α} {f : α → ExecM Machine Error β} (hx : Grows x)
    (hf : ∀ a, Grows (f a)) : Grows (x >>= f) := by
  intro m
  have hgrow := hx m
  rcases h : x m with ⟨_ | _ | _, m'⟩ <;> rw [h] at hgrow
  · rw [ExecM.bind_of_ok h]
    exact hgrow.trans (hf _ m')
  · rw [ExecM.bind_of_err h]
    exact hgrow
  · rw [ExecM.bind_of_fault h]
    exact hgrow

/-- Reading the output adds an access. -/
theorem grows_readOutput (start : ℤ) (len : ℕ) : Grows (readOutput start len) :=
  fun _ => List.suffix_cons ..

/-- Writing the output adds an access. -/
theorem grows_writeOutput (start : ℤ) (bytes : List UInt8) : Grows (writeOutput start bytes) := by
  intro m
  unfold writeOutput
  split_ifs <;> exact List.suffix_cons ..

/-- Copying a byte adds accesses. -/
theorem grows_copyByte (p : ℤ) (offset : ℕ) : Grows (copyByte p offset) :=
  ((grows_readOutput _ 1).bind fun _ => grows_lift _).bind fun b => grows_writeOutput p [b]

/-- Copying bytes adds accesses. -/
theorem grows_copyLoop (offset count : ℕ) (p : ℤ) : Grows (copyLoop offset count p) := by
  induction count generalizing p with
  | zero => exact grows_pure p
  | succ count ih => exact (grows_copyByte p offset).bind fun _ => ih (p - 1)

/-- A log that is not safe after the first part of a sequence is not safe after the sequence. -/
theorem not_safeLog_bind {inputSize outputSize : ℕ} {x : ExecM Machine Error α}
    {f : α → ExecM Machine Error β} {m : Machine}
    (h : ¬SafeLog inputSize outputSize (x m).2.log) (hf : ∀ a, Grows (f a)) :
    ¬SafeLog inputSize outputSize ((x >>= f) m).2.log := by
  intro hsafe
  refine h (hsafe.of_suffix ?_)
  rcases hx : x m with ⟨_ | _ | _, m'⟩
  · rw [ExecM.bind_of_ok hx]
    exact hf _ m'
  · exact (ExecM.bind_of_err hx f).symm ▸ List.suffix_refl _
  · exact (ExecM.bind_of_fault hx f).symm ▸ List.suffix_refl _

end Grows

/-! ## The invariant of the loop -/

/-- The write position when there is a given room left above the prefix. -/
def pwriteAt (room : ℕ) : ℤ := uncompressedDataSize + room - 1

/-- The output is the prefix, the room left and the bytes produced so far, which were written;
every access was allowed. -/
structure Decoded (inputSize outputSize : ℕ) (pre out : List UInt8) (room : ℕ) (m : Machine) :
    Prop where
  length_prefix : pre.length = uncompressedDataSize
  output : ∃ gap : List UInt8, gap.length = room ∧ m.output = pre ++ (gap ++ out)
  size : uncompressedDataSize + room + out.length = outputSize
  safe : SafeLog inputSize outputSize m.log
  written : ∀ i, pwriteAt room < i → i < outputSize → Written m.log i

section Decoded

variable {inputSize outputSize : ℕ} {pre out : List UInt8} {room : ℕ} {m : Machine}

/-- The output keeps its size. -/
theorem Decoded.length_output (h : Decoded inputSize outputSize pre out room m) :
    m.output.length = outputSize := by
  obtain ⟨gap, hgap, hout⟩ := h.output
  rw [hout, List.length_append, List.length_append, h.length_prefix, hgap, ← h.size]
  omega

/-- Reads inside the input slice keep the invariant. -/
theorem Decoded.logged (h : Decoded inputSize outputSize pre out room m) {new : List Access}
    (hin : ∀ a ∈ new, InsideInput inputSize a) :
    Decoded inputSize outputSize pre out room (m.logged new) where
  length_prefix := h.length_prefix
  output := h.output
  size := h.size
  safe := h.safe.inside hin
  written i hi hlt := (h.written i hi hlt).append new

/-- **A byte is written into the room left.**

**Proof sketch.** The write goes to the last byte of the room, which is behind the prefix and before
what was produced: the room is one byte shorter, and the byte stands in front of the output. It
counts as written from now on. -/
theorem storeOutput_ok (h : Decoded inputSize outputSize pre out (room + 1) m) (b : UInt8) :
    ∃ m', storeOutput (pwriteAt (room + 1)) b m = (.ok (), m') ∧
      Decoded inputSize outputSize pre (b :: out) room m' := by
  obtain ⟨gap, hgap, hout⟩ := h.output
  have hsize := h.size
  have hpos : pwriteAt (room + 1) = ((uncompressedDataSize + room : ℕ) : ℤ) := by
    simp only [pwriteAt]
    omega
  have hbounds : InBounds (pwriteAt (room + 1)) ([b] : List UInt8).length m.output.length := by
    rw [h.length_output, hpos, List.length_singleton]
    exact ⟨by omega, by omega⟩
  have hsplice : splice m.output (uncompressedDataSize + room) [b] =
      pre ++ (gap.take room ++ (b :: out)) := by
    have htake : m.output.take (uncompressedDataSize + room) = pre ++ gap.take room := by
      rw [hout, ← h.length_prefix, List.take_length_add_append,
        List.take_append_of_le_length (by omega)]
    have hdrop : m.output.drop (uncompressedDataSize + room + 1) = out := by
      rw [hout, ← h.length_prefix, Nat.add_assoc, List.drop_length_add_append,
        List.drop_left' hgap]
    rw [splice, htake, List.length_singleton, hdrop, List.append_assoc]
    rfl
  have hstore : storeOutput (pwriteAt (room + 1)) b m =
      (.ok (), ⟨pre ++ (gap.take room ++ (b :: out)), .writeOutput (pwriteAt (room + 1)) 1 :: m.log⟩) := by
    rw [storeOutput, writeOutput, if_pos hbounds, hpos, Int.toNat_natCast, hsplice]
    rfl
  refine ⟨_, hstore, h.length_prefix, ⟨gap.take room, by simp; omega, rfl⟩,
    by rw [List.length_cons]; omega, ⟨⟨?_, ?_⟩, h.safe⟩, ?_⟩
  · rw [← h.length_output]
    exact hbounds
  · rw [hpos]
    omega
  · intro i hi hlt
    rcases eq_or_ne i (pwriteAt (room + 1)) with rfl | hne
    · exact ⟨_, 1, Or.inr (List.mem_cons_self ..), le_refl _, by omega⟩
    · refine (h.written i ?_ hlt).append [_]
      simp only [pwriteAt] at *
      omega

/-- A byte written when no room is left goes below the end of the prefix. -/
theorem storeOutput_unsafe {p : ℤ} (hp : p < uncompressedDataSize) (b : UInt8) (m : Machine) :
    ¬SafeLog inputSize outputSize (storeOutput p b m).2.log := by
  unfold storeOutput writeOutput
  split_ifs
  · rintro ⟨⟨-, hlow⟩, -⟩
    omega
  · rintro ⟨⟨-, hlow⟩, -⟩
    omega

/-- **A byte produced before is read.**

**Proof sketch.** The position is that of a byte produced before, hence inside the output and
written. -/
theorem loadOutput_ok (h : Decoded inputSize outputSize pre out room m) {distance : ℕ} {b : UInt8}
    (hpos : 0 < distance) (hb : out[distance - 1]? = some b) :
    ∃ m', loadOutput (pwriteAt room + distance) m = (.ok b, m') ∧
      Decoded inputSize outputSize pre out room m' := by
  obtain ⟨gap, hgap, hout⟩ := h.output
  have hsize := h.size
  have hlt := (List.getElem?_eq_some_iff.mp hb).1
  have hat : pwriteAt room + distance =
      ((uncompressedDataSize + room + (distance - 1) : ℕ) : ℤ) := by
    simp only [pwriteAt]
    omega
  have hbounds : InBounds (pwriteAt room + distance) 1 m.output.length := by
    rw [h.length_output, hat]
    exact ⟨by omega, by omega⟩
  have hwindow : window m.output (uncompressedDataSize + room + (distance - 1)) 1 = [b] := by
    have hdrop : m.output.drop (uncompressedDataSize + room + (distance - 1)) =
        out.drop (distance - 1) := by
      rw [hout, ← h.length_prefix, Nat.add_assoc, List.drop_length_add_append, ← hgap,
        List.drop_length_add_append]
    rw [window, hdrop, List.drop_eq_getElem_cons hlt, List.take_succ_cons, List.take_zero]
    rw [List.getElem?_eq_getElem hlt] at hb
    exact congrArg (fun x => [x]) (Option.some.inj hb)
  have hread : readOutput (pwriteAt room + distance) 1 m =
      (.ok [b], ⟨m.output, .readOutput (pwriteAt room + distance) 1 :: m.log⟩) := by
    rw [readOutput, if_pos hbounds, hat, Int.toNat_natCast, hwindow]
  refine ⟨_, (ExecM.bind_of_ok hread _).trans rfl, h.length_prefix, h.output, h.size,
    ⟨⟨?_, ?_⟩, h.safe⟩, fun i hi hlt => (h.written i hi hlt).append [_]⟩
  · rw [← h.length_output]
    exact hbounds
  · intro i hi hlast
    refine h.written i ?_ ?_
    · omega
    · omega

/-- A byte further back than what was produced is outside the output. -/
theorem not_safeLog_loadOutput (h : Decoded inputSize outputSize pre out room m) {distance : ℕ}
    (hfar : out.length < distance) :
    ¬SafeLog inputSize outputSize (loadOutput (pwriteAt room + distance) m).2.log := by
  have hsize := h.size
  refine not_safeLog_bind ?_ fun _ => grows_lift _
  rintro ⟨⟨⟨-, hlast⟩, -⟩, -⟩
  simp only [pwriteAt] at hlast
  omega

/-- **A byte is copied.** -/
theorem copyByte_ok (h : Decoded inputSize outputSize pre out (room + 1) m) {distance : ℕ}
    {b : UInt8} (hpos : 0 < distance) (hb : out[distance - 1]? = some b) :
    ∃ m', copyByte (pwriteAt (room + 1)) distance m = (.ok (), m') ∧
      Decoded inputSize outputSize pre (b :: out) room m' := by
  obtain ⟨m₁, hload, h₁⟩ := loadOutput_ok h hpos hb
  obtain ⟨m₂, hstore, h₂⟩ := storeOutput_ok h₁ b
  exact ⟨m₂, (ExecM.bind_of_ok hload _).trans hstore, h₂⟩

/-- A byte that is too far back, or for which no room is left, is not copied in bounds. -/
theorem not_safeLog_copyByte (h : Decoded inputSize outputSize pre out room m) {distance : ℕ}
    (hpos : 0 < distance) (hbad : out.length < distance ∨ room = 0) :
    ¬SafeLog inputSize outputSize (copyByte (pwriteAt room) distance m).2.log := by
  by_cases hfar : out.length < distance
  · exact not_safeLog_bind (not_safeLog_loadOutput h hfar) fun b => grows_writeOutput _ [b]
  · obtain rfl : room = 0 := hbad.resolve_left hfar
    have hget : out[distance - 1]? = some (getElem out (distance - 1) (by omega)) :=
      List.getElem?_eq_getElem (by omega)
    obtain ⟨m₁, hload, -⟩ := loadOutput_ok h hpos hget
    have hcopy : copyByte (pwriteAt 0) distance m = _ := ExecM.bind_of_ok hload _
    rw [hcopy]
    exact storeOutput_unsafe (by simp only [pwriteAt]; omega) _ m₁

/-! ## Tokens -/

/-- The copy of a match is one loop, byte by byte. -/
theorem copyMatch_eq (p : ℤ) (offset : ℕ) {length : ℕ} (h : minCopyLength ≤ length) :
    copyMatch p offset length = copyLoop offset length p := by
  unfold copyMatch
  split_ifs with hshort
  · obtain ⟨n, rfl⟩ : ∃ n, length = n + 3 := ⟨length - 3, by simp only [minCopyLength] at h; omega⟩
    simp only [copyLoop, defaultPipelineLength, Nat.add_sub_cancel, sub_sub]
    rfl
  · obtain ⟨n, rfl⟩ : ∃ n, length = n + 8 :=
      ⟨length - 8, by simp only [extraPipelineLength] at hshort; omega⟩
    simp only [copyLoop, extraPipelineLength, Nat.add_sub_cancel, sub_sub]
    rfl

/-- **The copy loop copies into the room left.** -/
theorem copyLoop_ok {distance count : ℕ} {out' : List UInt8} (hpos : 0 < distance)
    (hcopy : copyN distance count out = some out') (hroom : count ≤ room)
    (h : Decoded inputSize outputSize pre out room m) :
    ∃ m', copyLoop distance count (pwriteAt room) m = (.ok (pwriteAt (room - count)), m') ∧
      Decoded inputSize outputSize pre out' (room - count) m' := by
  induction count generalizing out room m with
  | zero =>
    cases hcopy
    exact ⟨m, rfl, h⟩
  | succ count ih =>
    obtain ⟨room, rfl⟩ : ∃ r, room = r + 1 := ⟨room - 1, by omega⟩
    rw [copyN] at hcopy
    split at hcopy
    case h_1 b hb =>
      obtain ⟨m₁, hbyte, h₁⟩ := copyByte_ok h hpos hb
      obtain ⟨m₂, hloop, h₂⟩ := ih hcopy (by omega) h₁
      have hnext : pwriteAt (room + 1) - 1 = pwriteAt room := by
        simp only [pwriteAt]
        omega
      have hleft : room + 1 - (count + 1) = room - count := by omega
      refine ⟨m₂, ?_, by rw [hleft]; exact h₂⟩
      rw [copyLoop, ExecM.bind_of_ok hbyte, hnext, hleft, hloop]
    case h_2 => cases hcopy

/-- A copy from too far back, or for which the room left is too small, leaves the bounds. -/
theorem copyLoop_unsafe {distance count : ℕ} (hpos : 0 < distance)
    (hbad : copyN distance count out = none ∨ room < count)
    (h : Decoded inputSize outputSize pre out room m) :
    ¬SafeLog inputSize outputSize (copyLoop distance count (pwriteAt room) m).2.log := by
  induction count generalizing out room m with
  | zero =>
    rcases hbad with hbad | hbad
    · cases hbad
    · omega
  | succ count ih =>
    by_cases hfirst : out.length < distance ∨ room = 0
    · exact not_safeLog_bind (not_safeLog_copyByte h hpos hfirst) fun _ => grows_copyLoop distance count _
    · obtain ⟨hnear, hroom⟩ := not_or.mp hfirst
      obtain ⟨room, rfl⟩ : ∃ r, room = r + 1 := ⟨room - 1, by omega⟩
      have hget : out[distance - 1]? = some (getElem out (distance - 1) (by omega)) :=
        List.getElem?_eq_getElem (by omega)
      obtain ⟨m₁, hbyte, h₁⟩ := copyByte_ok h hpos hget
      have hnext : pwriteAt (room + 1) - 1 = pwriteAt room := by
        simp only [pwriteAt]
        omega
      rw [copyLoop, ExecM.bind_of_ok hbyte, hnext]
      refine ih (hbad.imp ?_ fun hlt => by omega) h₁
      intro hnone
      rwa [copyN, hget] at hnone

/-- Copying a match adds accesses. -/
theorem grows_copyMatch (p : ℤ) (offset : ℕ) {length : ℕ} (h : minCopyLength ≤ length) :
    Grows (copyMatch p offset length) := by
  rw [copyMatch_eq p offset h]
  exact grows_copyLoop offset length p

/-- Writing a token adds accesses. -/
theorem grows_writeToken (p : ℤ) {t : Token UInt8} (hformat : InFormat t) :
    Grows (writeToken p t) := by
  cases t with
  | literal b => exact Grows.bind (grows_writeOutput p [b]) fun _ => grows_pure _
  | copy distance length => exact grows_copyMatch p distance hformat.2.2

/-- **A token that expands into the room left is written.** -/
theorem writeToken_ok {t : Token UInt8} {out' : List UInt8} (hformat : InFormat t)
    (happly : t.apply out = some out') (hroom : t.size ≤ room)
    (h : Decoded inputSize outputSize pre out room m) :
    ∃ m', writeToken (pwriteAt room) t m = (.ok (pwriteAt (room - t.size)), m') ∧
      Decoded inputSize outputSize pre out' (room - t.size) m' := by
  cases t with
  | literal b =>
    obtain ⟨room, rfl⟩ : ∃ r, room = r + 1 := ⟨room - 1, by simp only [Token.size] at hroom; omega⟩
    cases happly
    obtain ⟨m', hstore, h'⟩ := storeOutput_ok h b
    refine ⟨m', ?_, h'⟩
    rw [writeToken, ExecM.bind_of_ok hstore, ExecM.pure_apply]
    congr 2
    simp only [pwriteAt, Token.size]
    omega
  | copy distance length =>
    obtain ⟨hmin, -, hlength⟩ := hformat
    rw [writeToken, copyMatch_eq _ _ hlength]
    exact copyLoop_ok (by omega) happly hroom h

/-- **Any other token leaves the bounds.** -/
theorem not_safeLog_writeToken {t : Token UInt8} (hformat : InFormat t)
    (hbad : t.apply out = none ∨ room < t.size)
    (h : Decoded inputSize outputSize pre out room m) :
    ¬SafeLog inputSize outputSize (writeToken (pwriteAt room) t m).2.log := by
  cases t with
  | literal b =>
    have hroom : room = 0 := by
      rcases hbad with hbad | hbad
      · cases hbad
      · simp only [Token.size] at hbad
        omega
    subst hroom
    refine not_safeLog_bind ?_ fun _ => grows_pure _
    exact storeOutput_unsafe (by simp only [pwriteAt]; omega) b m
  | copy distance length =>
    obtain ⟨hmin, -, hlength⟩ := hformat
    rw [writeToken, copyMatch_eq _ _ hlength]
    exact copyLoop_unsafe (by omega) hbad h

end Decoded

end LaylaDecompressor

end CriArchive
