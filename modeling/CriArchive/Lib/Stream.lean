import CriArchive.Lib.Exec

set_option relaxedAutoImplicit false
set_option autoImplicit false

/-!
# In-memory seekable streams

A growable byte buffer with a position, read and written the way an in-memory cursor is: a read
that cannot be completed is an error and leaves the position at the end, a write overwrites
from the position on, first padding with zeros when the position lies past the end.

## Main definitions

* `window` — the `len` elements of a list from an offset on.
* `ByteStream`, `ByteStream.readExact`, `ByteStream.seek`, `ByteStream.seekEnd`, `ByteStream.writeAll`.

## Main results

* `ByteStream.readExact_of_drop` — reading what is known to lie at the position.
* `ByteStream.readExact_eq_ok` — what a read that succeeded returned.
* `ByteStream.writeAll_at_end` — writing at the end appends.
-/

/-! ## Windows of a list -/

section Window

variable {α : Type}

/-- The (at most) `len` elements of `xs` from `off` on. -/
def window (xs : List α) (off len : ℕ) : List α := (xs.drop off).take len

/-- A window inside the list has the length asked for. -/
theorem length_window {xs : List α} {off len : ℕ} (h : off + len ≤ xs.length) :
    (window xs off len).length = len := by
  simp only [window, List.length_take, List.length_drop]
  omega

/-- A window that starts after a prefix is a window of the rest. -/
theorem window_append_right {xs ys : List α} {off : ℕ} (h : xs.length ≤ off) (len : ℕ) :
    window (xs ++ ys) off len = window ys (off - xs.length) len := by
  simp [window, List.drop_append, List.drop_eq_nil_of_le h]

/-- A window inside a prefix does not see the rest. -/
theorem window_append_left {xs ys : List α} {off len : ℕ} (h : off + len ≤ xs.length) :
    window (xs ++ ys) off len = window xs off len := by
  have h₁ : off - xs.length = 0 := by omega
  have h₂ : len - (xs.drop off).length = 0 := by simp; omega
  simp only [window, List.drop_append, h₁, List.drop_zero, List.take_append, h₂, List.take_zero,
    List.append_nil]

/-- The window that is exactly the middle part. -/
theorem window_append_middle (xs ys zs : List α) :
    window (xs ++ (ys ++ zs)) xs.length ys.length = ys := by
  simp [window]

/-- The window from the start with the whole length is the list. -/
theorem window_zero_length (xs : List α) : window xs 0 xs.length = xs := by
  simp [window]

/-- A window of a window. -/
theorem window_window (xs : List α) (a n b m : ℕ) (h : b + m ≤ n) :
    window (window xs a n) b m = window xs (a + b) m := by
  simp only [window, List.drop_take, List.drop_drop, List.take_take]
  congr 1
  omega

/-- The suffix at an offset is the window there followed by the suffix after it. -/
theorem drop_eq_window_append (xs : List α) (off n : ℕ) :
    xs.drop off = window xs off n ++ xs.drop (off + n) := by
  rw [window, ← List.drop_drop, List.take_append_drop]

/-- What is found at an offset is followed by the rest of the list. -/
theorem drop_of_window {xs ys : List α} {off : ℕ} (h : window xs off ys.length = ys) :
    ∃ rest, xs.drop off = ys ++ rest :=
  ⟨_, by rw [drop_eq_window_append xs off ys.length, h]⟩

end Window

/-- A byte buffer and a position in it. -/
structure ByteStream where
  bytes : List UInt8
  pos : ℕ
  deriving DecidableEq, Repr

namespace ByteStream

variable {ε : Type}

/-- A stream on `bytes`, positioned at the start. -/
def ofBytes (bytes : List UInt8) : ByteStream := ⟨bytes, 0⟩

/-- Fill a buffer of `n` bytes; `eof` is the error of a short read. -/
def readExact (eof : ε) (n : ℕ) : ExecM ByteStream ε (List UInt8) := fun s =>
  if n ≤ s.bytes.length - s.pos then (.ok (window s.bytes s.pos n), { s with pos := s.pos + n })
  else (.err eof, { s with pos := s.bytes.length })

/-- Move to the absolute position `p`. -/
def seek (p : ℕ) : ExecM ByteStream ε Unit := fun s => (.ok (), { s with pos := p })

/-- Move to the end, returning the position reached. -/
def seekEnd : ExecM ByteStream ε ℕ := fun s => (.ok s.bytes.length, { s with pos := s.bytes.length })

/-- The current position. -/
def position : ExecM ByteStream ε ℕ := fun s => (.ok s.pos, s)

/-- Write `data` at the position. -/
def writeAll (data : List UInt8) : ExecM ByteStream ε Unit := fun s =>
  let padded := s.bytes ++ List.replicate (s.pos - s.bytes.length) 0
  (.ok (), ⟨padded.take s.pos ++ data ++ padded.drop (s.pos + data.length),
    s.pos + data.length⟩)

/-- Seeking moves the position. -/
@[simp] theorem seek_apply (p : ℕ) (s : ByteStream) :
    (seek p : ExecM ByteStream ε Unit) s = (.ok (), ⟨s.bytes, p⟩) := rfl

/-- Seeking the end returns the length and moves there. -/
@[simp] theorem seekEnd_apply (s : ByteStream) :
    (seekEnd : ExecM ByteStream ε ℕ) s = (.ok s.bytes.length, ⟨s.bytes, s.bytes.length⟩) := rfl

/-- The position is returned as it is. -/
@[simp] theorem position_apply (s : ByteStream) :
    (position : ExecM ByteStream ε ℕ) s = (.ok s.pos, s) := rfl

/-- A read that fits returns the window at the position. -/
theorem readExact_of_le {eof : ε} {n : ℕ} {s : ByteStream} (h : s.pos + n ≤ s.bytes.length) :
    readExact eof n s = (.ok (window s.bytes s.pos n), ⟨s.bytes, s.pos + n⟩) :=
  if_pos (by omega)

/-- Reading `xs.length` bytes where `xs` lies at the position returns `xs`. -/
theorem readExact_of_drop {eof : ε} {n : ℕ} {s : ByteStream} {xs rest : List UInt8}
    (h : s.bytes.drop s.pos = xs ++ rest) (hn : xs.length = n) :
    readExact eof n s = (.ok xs, ⟨s.bytes, s.pos + n⟩) := by
  have hlen : n ≤ s.bytes.length - s.pos := by
    rw [← List.length_drop, h, List.length_append, hn]
    omega
  unfold readExact
  rw [if_pos hlen, window, h, ← hn, List.take_left]

/-- A read that succeeded returned the bytes at the position. -/
theorem readExact_eq_ok {eof : ε} {n : ℕ} {s t : ByteStream} {xs : List UInt8}
    (h : readExact eof n s = (.ok xs, t)) :
    n ≤ s.bytes.length - s.pos ∧ xs = window s.bytes s.pos n ∧ xs.length = n ∧
      t = ⟨s.bytes, s.pos + n⟩ := by
  unfold readExact at h
  split_ifs at h with hn
  · simp only [Prod.mk.injEq, Exec.ok.injEq] at h
    obtain ⟨rfl, rfl⟩ := h
    refine ⟨hn, rfl, ?_, rfl⟩
    simp only [window, List.length_take, List.length_drop]
    omega
  · simp at h

/-- After a read a sequence returned iff there were enough bytes and the rest returned. -/
theorem readExact_bind_fst_eq_ok {α : Type} {eof : ε} {n : ℕ}
    {f : List UInt8 → ExecM ByteStream ε α} {s : ByteStream} {a : α} :
    ((readExact eof n >>= f) s).1 = .ok a ↔
      n ≤ s.bytes.length - s.pos ∧ (f (window s.bytes s.pos n) ⟨s.bytes, s.pos + n⟩).1 = .ok a := by
  rw [ExecM.bind_fst_eq_ok]
  constructor
  · rintro ⟨xs, t, h, hf⟩
    obtain ⟨hlen, rfl, -, rfl⟩ := readExact_eq_ok h
    exact ⟨hlen, hf⟩
  · rintro ⟨hlen, hf⟩
    exact ⟨_, _, if_pos hlen, hf⟩

/-- Reading does not fault, and returns as many bytes as asked for. -/
theorem safe_readExact (eof : ε) (n : ℕ) (s : ByteStream) :
    (readExact eof n).Safe s fun xs t => xs.length = n ∧ t = ⟨s.bytes, s.pos + n⟩ := by
  unfold ExecM.Safe ExecM.Ends
  rcases h : readExact eof n s with ⟨_ | _ | _, t⟩
  · obtain ⟨-, -, hl, ht⟩ := readExact_eq_ok h
    exact ⟨hl, ht⟩
  · trivial
  · unfold readExact at h
    split_ifs at h
    all_goals simp at h

/-- Seeking leaves the bytes and the given position. -/
theorem safe_seek (p : ℕ) (s : ByteStream) :
    (seek p : ExecM ByteStream ε Unit).Safe s fun _ t => t = ⟨s.bytes, p⟩ := rfl

/-- Seeking the end returns the length and leaves the bytes. -/
theorem safe_seekEnd (s : ByteStream) :
    (seekEnd : ExecM ByteStream ε ℕ).Safe s fun n t => n = s.bytes.length ∧ t = ⟨s.bytes, n⟩ :=
  ⟨rfl, rfl⟩

/-- Asking for the position changes nothing. -/
theorem safe_position (s : ByteStream) :
    (position : ExecM ByteStream ε ℕ).Safe s fun n t => n = s.pos ∧ t = s :=
  ⟨rfl, rfl⟩

/-- Writing at the end of the buffer appends. -/
theorem writeAll_at_end {s : ByteStream} (h : s.pos = s.bytes.length) (data : List UInt8) :
    (writeAll data : ExecM ByteStream ε Unit) s =
      (.ok (), ⟨s.bytes ++ data, (s.bytes ++ data).length⟩) := by
  simp [writeAll, h]

end ByteStream
