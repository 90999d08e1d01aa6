import CriArchive.Cpk.Compress.Decode

set_option relaxedAutoImplicit false
set_option autoImplicit false

/-!
# The scratch memory of the CRILAYLA decompressor

The decompressor is given memory that is not zeroed. It reads above its write position only, where
it has written, so what it returns does not depend on that memory, on any input.

## Main definitions

* `Same` — two outputs agree on the prefix and above a write position.

## Main results

* `loop_same` — the loop keeps the agreement, and ends with equal outputs.
* `decompress_congr` — the decompressor returns the same from any two allocators.
-/

namespace CriArchive

open Machine LaylaDecompressorCursor Lzss

namespace LaylaDecompressor

/-- The outputs have the same length and agree on the prefix and above a write position. -/
structure Same (p : ℤ) (m m' : Machine) : Prop where
  length_eq : m.output.length = m'.output.length
  getElem?_eq : ∀ i : ℕ, i < uncompressedDataSize ∨ p < i → m.output[i]? = m'.output[i]?

/-- Accesses do not matter. -/
theorem Same.logged {p : ℤ} {m m' : Machine} (h : Same p m m') (new : List Access) :
    Same p (m.logged new) (m'.logged new) :=
  ⟨h.length_eq, h.getElem?_eq⟩

/-- The elements of a list after some of them are replaced. -/
theorem getElem?_splice {xs bytes : List UInt8} {start : ℕ}
    (h : start + bytes.length ≤ xs.length) (i : ℕ) :
    (splice xs start bytes)[i]? =
      if start ≤ i ∧ i < start + bytes.length then bytes[i - start]? else xs[i]? := by
  have htake : (xs.take start).length = start := List.length_take_of_le (by omega)
  unfold splice
  split_ifs with hi
  · rw [List.getElem?_append_right (by omega), htake, List.getElem?_append_left (by omega)]
  · by_cases hlow : i < start
    · rw [List.getElem?_append_left (by omega), List.getElem?_take_of_lt hlow]
    · rw [List.getElem?_append_right (by omega), htake, List.getElem?_append_right (by omega),
        List.getElem?_drop]
      congr 1
      omega

/-- **A write keeps the agreement**, and extends it to its position. -/
theorem storeOutput_same (p : ℤ) (b : UInt8) :
    ExecM.Agree (storeOutput p b) (Same p) fun _ => Same (p - 1) := by
  intro m m' h
  unfold storeOutput writeOutput
  rw [h.length_eq]
  split_ifs with hbounds
  · refine ⟨rfl, fun _ _ => ⟨?_, fun i hi => ?_⟩⟩
    · simp only [splice, List.length_append, List.length_take, List.length_drop, h.length_eq]
    · obtain ⟨hlow, hhigh⟩ := hbounds
      rw [List.length_singleton] at hhigh
      have hfit : p.toNat + ([b] : List UInt8).length ≤ m'.output.length := by
        rw [List.length_singleton]
        omega
      dsimp only
      rw [getElem?_splice (by rw [h.length_eq]; exact hfit), getElem?_splice hfit]
      split_ifs with hat
      · rfl
      · rw [List.length_singleton] at hat
        exact h.getElem?_eq i (hi.imp_right fun _ => by omega)
  · exact ⟨rfl, fun _ hok => by cases hok⟩

/-- A read above the write position reads the same. -/
theorem loadOutput_same (p : ℤ) {offset : ℕ} (hpos : 0 < offset) :
    ExecM.Agree (loadOutput (p + offset)) (Same p) fun _ => Same p := by
  refine ExecM.Agree.bind (Q := fun _ => Same p) ?_ fun bytes => ExecM.agree_lift _ _
  intro m m' h
  have hwindow : InBounds (p + offset) 1 m.output.length →
      window m.output (p + offset).toNat 1 = window m'.output (p + offset).toNat 1 := by
    rintro ⟨hlow, -⟩
    rw [window, window, List.take_one, List.take_one, List.head?_drop, List.head?_drop,
      h.getElem?_eq _ (Or.inr (by omega))]
  have hlength := h.length_eq
  refine ⟨?_, fun _ _ => h.logged [.readOutput (p + offset) 1]⟩
  unfold readOutput
  rw [← hlength]
  split_ifs with hbounds
  · exact congrArg Exec.ok (hwindow hbounds)
  · rfl

/-- Copying a byte does not depend on what the room held before. -/
theorem copyByte_same (p : ℤ) {offset : ℕ} (hpos : 0 < offset) :
    ExecM.Agree (copyByte p offset) (Same p) fun _ => Same (p - 1) :=
  (loadOutput_same p hpos).bind fun b => storeOutput_same p b

/-- Copying bytes does not depend on what the room held before. -/
theorem copyLoop_same {offset : ℕ} (hpos : 0 < offset) (count : ℕ) (p : ℤ) :
    ExecM.Agree (copyLoop offset count p) (Same p) Same := by
  induction count generalizing p with
  | zero => exact ExecM.agree_pure fun _ _ h => h
  | succ count ih => exact (copyByte_same p hpos).bind fun _ => ih (p - 1)

/-- Writing a token does not depend on what the room held before. -/
theorem writeToken_same (p : ℤ) {t : Token UInt8} (hformat : InFormat t) :
    ExecM.Agree (writeToken p t) (Same p) Same := by
  cases t with
  | literal b => exact (storeOutput_same p b).bind fun _ => ExecM.agree_pure fun _ _ h => h
  | copy distance length =>
    obtain ⟨hmin, -, hlength⟩ := hformat
    rw [writeToken, copyMatch_eq _ _ hlength]
    exact copyLoop_same (by omega) length p

section

variable {input : List UInt8} {c : LaylaDecompressorCursor}

/-- **The loop keeps the agreement, and ends with equal outputs.** -/
theorem loop_same {fuel : ℕ} (hc : c.Valid input) (p : ℤ) :
    ExecM.Agree (loop input fuel p c) (Same p) fun _ m m' => m.output = m'.output := by
  induction fuel generalizing c p with
  | zero => exact fun _ _ _ => ⟨rfl, fun _ hok => by cases hok⟩
  | succ fuel ih =>
    by_cases hp : (uncompressedDataSize : ℤ) ≤ p
    · rw [loop_eq hp]
      intro m m' h
      by_cases hstart : tokenCode.Starts (c.remaining input)
      · obtain ⟨word, t, rest, hword, hbits⟩ := hstart
        obtain ⟨c', new, hc', -, -, hread⟩ := (readsAt_readToken hc).reads word t rest hword hbits
        rw [ExecM.bind_of_ok (hread m), ExecM.bind_of_ok (hread m')]
        exact (writeToken_same p hword.1).bind (fun q => ih hc' q) _ _ (h.logged new)
      · obtain ⟨new, -, hread⟩ := (readsAt_readToken hc).leaves hstart
        rw [ExecM.bind_of_fault (hread m), ExecM.bind_of_fault (hread m')]
        exact ⟨rfl, fun _ hok => by cases hok⟩
    · rw [loop, if_neg hp]
      refine ExecM.agree_pure fun m m' h => List.ext_getElem? fun i => h.getElem?_eq i ?_
      omega

/-- Two buffers with the prefix agree before the loop. -/
theorem same_of_decoded {outputSize : ℕ} {pre : List UInt8} {room : ℕ} {m m' : Machine}
    (h : Decoded input.length outputSize pre [] room m)
    (h' : Decoded input.length outputSize pre [] room m') : Same (pwriteAt room) m m' := by
  have hlen := h.length_output
  have hlen' := h'.length_output
  have hsize := h.size
  refine ⟨hlen.trans hlen'.symm, fun i hi => ?_⟩
  obtain ⟨gap, -, hout⟩ := h.output
  obtain ⟨gap', -, hout'⟩ := h'.output
  rcases hi with hi | hi
  · rw [hout, hout', List.getElem?_append_left (by rw [h.length_prefix]; exact hi),
      List.getElem?_append_left (by rw [h.length_prefix]; exact hi)]
  · simp only [pwriteAt] at hi
    simp only [List.length_nil] at hsize
    rw [List.getElem?_eq_none (by omega), List.getElem?_eq_none (by omega)]

/-- **A run does not depend on what the buffer holds.** -/
theorem run_congr {header : LaylaHeader} {buffer buffer' : List UInt8}
    (hlen : buffer.length = header.uncompressedSize.toNat + uncompressedDataSize)
    (hlen' : buffer'.length = header.uncompressedSize.toNat + uncompressedDataSize) :
    ((run input header).runOn ⟨buffer, []⟩ >>= fun done => .ok done.2.output) =
      ((run input header).runOn ⟨buffer', []⟩ >>= fun done => .ok done.2.output) := by
  by_cases hin : laylaHeaderSize + header.uncompressedHeaderOffset.toNat + uncompressedDataSize ≤
    input.length
  · obtain ⟨m, hrun, hm⟩ := run_eq hin hlen
    obtain ⟨m', hrun', hm'⟩ := run_eq hin hlen'
    rw [hlen, ← hlen'] at hm
    obtain ⟨hsame, hout⟩ := loop_same (valid_startCursor hin) _ m m' (same_of_decoded hm hm')
    rw [← hrun, ← hrun'] at hsame hout
    unfold ExecM.runOn
    rcases h : run input header ⟨buffer, []⟩ with ⟨_ | _ | _, t⟩ <;>
      rcases h' : run input header ⟨buffer', []⟩ with ⟨r', t'⟩ <;>
      rw [h, h'] at hsame hout <;> cases hsame
    · exact congrArg Exec.ok (hout _ rfl)
    · rfl
    · rfl
  · unfold ExecM.runOn
    rw [run_fault hin, run_fault hin]

end

/-- **What the decompressor returns does not depend on its allocator**, on any input. -/
theorem decompress_congr (input : List UInt8) (list list' : FreeList) :
    (decompress input list).1 = (decompress input list').1 := by
  have hlift : ∀ l : FreeList, (ExecM.lift (fromStream input) : ExecM FreeList Error _) l =
    (fromStream input, l) := fun l => ExecM.lift_apply _ l
  rcases hheader : fromStream input with header | e | _
  · obtain ⟨buffer, hlen, h⟩ := decompress_eq_run hheader list
    obtain ⟨buffer', hlen', h'⟩ := decompress_eq_run hheader list'
    rw [h, h', run_congr hlen hlen']
  · rw [hheader] at hlift
    rw [decompress, hheader, ExecM.bind_of_err (hlift list), ExecM.bind_of_err (hlift list')]
  · rw [hheader] at hlift
    rw [decompress, hheader, ExecM.bind_of_fault (hlift list), ExecM.bind_of_fault (hlift list')]

end LaylaDecompressor

end CriArchive
