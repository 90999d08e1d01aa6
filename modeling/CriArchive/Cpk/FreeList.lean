import CriArchive.Error

set_option relaxedAutoImplicit false
set_option autoImplicit false

/-!
# The scratch allocator

`cpk/free_list.rs`: a slab of 256 blocks of 256 KiB with an occupation bitmap, from which the
decompressor takes its output buffers; a request that finds no room goes to the system allocator.
Neither zeroes the memory it hands out, so the contents of both are part of the state. The lock
is left out: the reader owns its list.

## Main definitions

* `UsedMap`, `checkOccupation`, `bitOn`, `bitOff` — the bitmap and its byte-wise operations.
* `FreeList`, `FreeListNode` — the allocator and its nodes.
* `FreeList.allocate`, `FreeList.deallocate` — allocation and release.

## Main results

* `checkOccupation_ok`, `bitUpdate_ok` — the bitmap operations stay inside the bitmap.
* `FreeList.allocate_ok`, `FreeList.release_ok` — allocation and release always succeed.
-/

namespace CriArchive

/-! ## The bitmap -/

/-- The bits of the 256 blocks; the array of four words is accessed by bytes. -/
abbrev UsedMap : Type := Vector UInt8 32

variable {ε : Type}

/-- The byte at an index, through a raw pointer. -/
def UsedMap.load (used : UsedMap) (i : ℕ) : Exec ε UInt8 :=
  if h : i < 32 then .ok used[i] else .fault

/-- Store the byte at an index, through a raw pointer. -/
def UsedMap.store (used : UsedMap) (i : ℕ) (b : UInt8) : Exec ε UsedMap :=
  if h : i < 32 then .ok (used.set i b) else .fault

/-- `BIT_MASK_U8`. -/
def bitMaskTable : List UInt32 := [0x00, 0x01, 0x03, 0x07, 0x0f, 0x1f, 0x3f, 0x7f, 0xff]

/-- `bit_mask_u8`: the mask of the low `n` bits. -/
def bitMaskU8 (n : ℕ) : Exec ε UInt32 := Exec.index bitMaskTable n

/-- `bit_bounds_check`: whether a range is empty or runs past the bitmap. -/
def bitBoundsCheck (start len : ℕ) : Bool := len == 0 || decide (255 < start + len)

/-- The bits of the first byte of a range, from the bit `bit` on. -/
def occupationHead (used : UsedMap) (byte bit diff : ℕ) : Exec ε UInt64 := do
  let b ← used.load byte
  let mask ← bitMaskU8 diff
  pure (b &&& (mask <<< UInt32.ofNat bit).toUInt8).toUInt64

/-- Shift in the bits of whole bytes. -/
def occupationBytes (used : UsedMap) : ℕ → ℕ → ℕ → UInt64 → Exec ε UInt64
  | 0, _, _, res => pure res
  | count + 1, byte, diff, res => do
    let b ← used.load byte
    occupationBytes used count (byte + 1) 8 ((res <<< UInt64.ofNat diff) ||| b.toUInt64)

/-- Shift in the bits of the last byte of a range. -/
def occupationTail (used : UsedMap) (byte bit : ℕ) (res : UInt64) : Exec ε UInt64 :=
  if bit ≠ 0 then do
    let b ← used.load byte
    let mask ← bitMaskU8 bit
    pure ((res <<< UInt64.ofNat bit) ||| (b &&& mask.toUInt8).toUInt64)
  else pure res

/-- The bits from a byte boundary on. -/
def occupationFrom (used : UsedMap) (byte len diff : ℕ) (res : UInt64) : Exec ε UInt64 := do
  let res ← occupationBytes used (len >>> 3) byte diff res
  occupationTail used (byte + len >>> 3) (len &&& 7) res

/-- The bits of a range that starts inside the byte with index `byte`. -/
def occupationOf (used : UsedMap) (byte bit len diff : ℕ) : Exec ε UInt64 :=
  if bit ≠ 0 then do
    let res ← occupationHead used byte bit diff
    occupationFrom used (byte + 1) (len - diff) diff res
  else occupationFrom used byte len diff 0

/-- `check_occupation`: whether any of the first 64 blocks of a range is in use, as a number that
is zero when none is. -/
def checkOccupation (used : UsedMap) (start len : ℕ) : Exec ε UInt64 :=
  if bitBoundsCheck start len then pure 0
  else occupationOf used (start >>> 3) (start &&& 7) (min len 64)
    (min (min len 64) (8 - (start &&& 7)))

section BitUpdate

/- `combine` updates a byte by a mask; `full` is the byte with all bits updated. -/
variable (combine : UInt8 → UInt8 → UInt8) (full : UInt8)

/-- Overwrite whole bytes. -/
def updateBytes (used : UsedMap) : ℕ → ℕ → Exec ε UsedMap
  | 0, _ => pure used
  | count + 1, byte => do
    let used ← used.store byte full
    updateBytes used count (byte + 1)

/-- Update the bits of a range in its last byte. -/
def updateTail (used : UsedMap) (byte bit : ℕ) : Exec ε UsedMap :=
  if bit ≠ 0 then do
    let b ← used.load byte
    let mask ← bitMaskU8 bit
    used.store byte (combine b mask.toUInt8)
  else pure used

/-- Update the bits from a byte boundary on. -/
def updateFrom (used : UsedMap) (byte len : ℕ) : Exec ε UsedMap := do
  let used ← updateBytes full used (len >>> 3) byte
  updateTail combine used (byte + len >>> 3) (len &&& 7)

/-- Update the bits of a range that starts inside the byte with index `byte`. -/
def updateOf (used : UsedMap) (byte bit len diff : ℕ) : Exec ε UsedMap :=
  if bit ≠ 0 then do
    let b ← used.load byte
    let mask ← bitMaskU8 diff
    let used ← used.store byte (combine b (mask <<< UInt32.ofNat bit).toUInt8)
    updateFrom combine full used (byte + 1) (len - diff)
  else updateFrom combine full used byte len

/-- The common body of `bit_on` and `bit_off`. -/
def bitUpdate (used : UsedMap) (start len : ℕ) : Exec ε UsedMap :=
  if bitBoundsCheck start len then pure used
  else updateOf combine full used (start >>> 3) (start &&& 7) len (min len (8 - (start &&& 7)))

end BitUpdate

/-- `bit_on`: mark the blocks of a range. -/
def bitOn (used : UsedMap) (start len : ℕ) : Exec ε UsedMap :=
  bitUpdate (fun b mask => b ||| mask) 0xff used start len

/-- `bit_off`: unmark the blocks of a range. -/
def bitOff (used : UsedMap) (start len : ℕ) : Exec ε UsedMap :=
  bitUpdate (fun b mask => b &&& ~~~mask) 0x0 used start len

/-! ## The bitmap operations stay inside the bitmap -/

/-- A byte of the bitmap can be loaded. -/
theorem UsedMap.load_ok (used : UsedMap) {i : ℕ} (h : i < 32) :
    (used.load i : Exec ε UInt8) = .ok used[i] :=
  dif_pos h

/-- A byte of the bitmap can be stored. -/
theorem UsedMap.store_ok (used : UsedMap) {i : ℕ} (h : i < 32) (b : UInt8) :
    (used.store i b : Exec ε UsedMap) = .ok (used.set i b) :=
  dif_pos h

/-- A mask of at most eight bits is returned. -/
theorem bitMaskU8_ok {n : ℕ} (h : n ≤ 8) : ∃ m, (bitMaskU8 n : Exec ε UInt32) = .ok m :=
  ⟨_, Exec.index_eq (show n < bitMaskTable.length by simp [bitMaskTable]; omega)⟩

/-- Reading whole bytes of the bitmap stays inside it. -/
theorem occupationBytes_ok (used : UsedMap) (count : ℕ) {byte : ℕ} (h : byte + count ≤ 32)
    (diff : ℕ) (res : UInt64) :
    ∃ r, (occupationBytes used count byte diff res : Exec ε UInt64) = .ok r := by
  induction count generalizing byte diff res with
  | zero => exact ⟨res, rfl⟩
  | succ count ih =>
    rw [occupationBytes, used.load_ok (by omega)]
    exact ih (by omega) _ _

/-- The last byte of a range that ends inside the bitmap is inside it. -/
private theorem from_bounds {byte len : ℕ} (h : 8 * byte + len ≤ 256) :
    byte + len >>> 3 ≤ 32 ∧ (len &&& 7 ≠ 0 → byte + len >>> 3 < 32) ∧ len &&& 7 ≤ 8 := by
  rw [Nat.shiftRight_eq_div_pow, show (7 : ℕ) = 2 ^ 3 - 1 from rfl,
    Nat.and_two_pow_sub_one_eq_mod]
  omega

/-- Reading a range stays inside the bitmap when its blocks do. -/
theorem occupationFrom_ok (used : UsedMap) {byte len : ℕ} (h : 8 * byte + len ≤ 256) (diff : ℕ)
    (res : UInt64) : ∃ r, (occupationFrom used byte len diff res : Exec ε UInt64) = .ok r := by
  obtain ⟨h₁, h₂, h₃⟩ := from_bounds h
  obtain ⟨r, hr⟩ := occupationBytes_ok (ε := ε) used (len >>> 3) h₁ diff res
  obtain ⟨m, hm⟩ := bitMaskU8_ok (ε := ε) h₃
  rw [occupationFrom, hr, Exec.ok_bind, occupationTail]
  split_ifs with hbit
  · rw [used.load_ok (h₂ hbit), Exec.ok_bind, hm]
    exact ⟨_, rfl⟩
  · exact ⟨r, rfl⟩

/-- The start of a range inside the bitmap, in bytes and bits. -/
private theorem start_bounds {start len : ℕ} (h : ¬bitBoundsCheck start len) :
    start >>> 3 < 32 ∧ min len (8 - (start &&& 7)) ≤ 8 ∧
      (start &&& 7 ≠ 0 → 8 * (start >>> 3 + 1) + (len - min len (8 - (start &&& 7))) ≤ 256) ∧
      (start &&& 7 = 0 → 8 * (start >>> 3) + len ≤ 256) := by
  simp only [bitBoundsCheck, Bool.or_eq_true, beq_iff_eq, decide_eq_true_eq] at h
  rw [Nat.shiftRight_eq_div_pow, show (7 : ℕ) = 2 ^ 3 - 1 from rfl,
    Nat.and_two_pow_sub_one_eq_mod]
  omega

/-- **Looking up occupation stays inside the bitmap**, for every range. -/
theorem checkOccupation_ok (used : UsedMap) (start len : ℕ) :
    ∃ r, (checkOccupation used start len : Exec ε UInt64) = .ok r := by
  unfold checkOccupation
  split_ifs with h
  · exact ⟨0, rfl⟩
  · have hmin : ¬bitBoundsCheck start (min len 64) := by
      simp only [bitBoundsCheck, Bool.or_eq_true, beq_iff_eq, decide_eq_true_eq] at h ⊢
      omega
    obtain ⟨h₁, h₂, h₃, h₄⟩ := start_bounds hmin
    obtain ⟨m, hm⟩ := bitMaskU8_ok (ε := ε) h₂
    unfold occupationOf
    split_ifs with hbit
    · rw [occupationHead, used.load_ok h₁, Exec.ok_bind, hm]
      exact occupationFrom_ok used (h₃ hbit) _ _
    · exact occupationFrom_ok used (h₄ (not_not.mp hbit)) _ _

/-- A range with an occupied block is not empty and inside the bitmap. -/
theorem in_bounds_of_occupied {used : UsedMap} {start len : ℕ} {r : UInt64}
    (h : (checkOccupation used start len : Exec ε UInt64) = .ok r) (hr : r ≠ 0) :
    0 < len ∧ start + len ≤ 255 := by
  unfold checkOccupation at h
  split_ifs at h with hbounds
  · exact absurd (Exec.ok.inj h).symm hr
  · simp only [bitBoundsCheck, Bool.or_eq_true, beq_iff_eq, decide_eq_true_eq] at hbounds
    omega

section

variable (combine : UInt8 → UInt8 → UInt8) (full : UInt8)

/-- Updating whole bytes stays inside the bitmap. -/
theorem updateBytes_ok (used : UsedMap) (count : ℕ) {byte : ℕ} (h : byte + count ≤ 32) :
    ∃ u, (updateBytes full used count byte : Exec ε UsedMap) = .ok u := by
  induction count generalizing used byte with
  | zero => exact ⟨used, rfl⟩
  | succ count ih =>
    rw [updateBytes, used.store_ok (by omega)]
    exact ih _ (by omega)

/-- Updating a range stays inside the bitmap when its blocks do. -/
theorem updateFrom_ok (used : UsedMap) {byte len : ℕ} (h : 8 * byte + len ≤ 256) :
    ∃ u, (updateFrom combine full used byte len : Exec ε UsedMap) = .ok u := by
  obtain ⟨h₁, h₂, h₃⟩ := from_bounds h
  obtain ⟨u, hu⟩ := updateBytes_ok (ε := ε) full used (len >>> 3) h₁
  obtain ⟨m, hm⟩ := bitMaskU8_ok (ε := ε) h₃
  rw [updateFrom, hu, Exec.ok_bind, updateTail]
  split_ifs with hbit
  · rw [u.load_ok (h₂ hbit), Exec.ok_bind, hm, Exec.ok_bind, u.store_ok (h₂ hbit)]
    exact ⟨_, rfl⟩
  · exact ⟨u, rfl⟩

/-- **Updating bits stays inside the bitmap**, for every range. -/
theorem bitUpdate_ok (used : UsedMap) (start len : ℕ) :
    ∃ u, (bitUpdate combine full used start len : Exec ε UsedMap) = .ok u := by
  unfold bitUpdate
  split_ifs with h
  · exact ⟨used, rfl⟩
  · obtain ⟨h₁, h₂, h₃, h₄⟩ := start_bounds h
    obtain ⟨m, hm⟩ := bitMaskU8_ok (ε := ε) h₂
    unfold updateOf
    split_ifs with hbit
    · rw [used.load_ok h₁, Exec.ok_bind, hm, Exec.ok_bind, used.store_ok h₁]
      exact updateFrom_ok combine full _ (h₃ hbit)
    · exact updateFrom_ok combine full used (h₄ (not_not.mp hbit))

end

/-! ## The allocator -/

/-- `SLAB_SIZE`. -/
def slabSize : ℕ := 64 * 1024 * 1024

/-- `BLOCK_SHIFT`. -/
def blockShift : ℕ := 0x12

/-- The allocator: the bytes of its slab, the blocks in use, and the bytes of the memory that the
system allocator hands out. -/
structure FreeList where
  slab : ℕ → UInt8
  used : UsedMap
  heap : ℕ → UInt8

/-- A buffer: its size and, for a managed one, its first block. -/
structure FreeListNode where
  size : ℕ
  block : Option ℕ
  deriving DecidableEq, Repr

namespace FreeList

/-- `FreeList::new`, on a slab and a heap with given contents. -/
def new (slab heap : ℕ → UInt8) : FreeList := ⟨slab, Vector.replicate 32 0, heap⟩

/-- `block_size`: the number of blocks that hold a size. -/
def blockSize (size : ℕ) : ℕ := (size + (1 <<< blockShift) - 1) >>> blockShift

/-- The search of `get_free_block_index`, from a start on. -/
def freeBlockSearch (used : UsedMap) (size start : ℕ) : Exec Error ℕ :=
  match _ : (checkOccupation used start size : Exec Error UInt64) with
  | .ok occupation =>
    if _ : occupation = 0 then .ok start else freeBlockSearch used size (start + size)
  | .err e => .err e
  | .fault => .fault
termination_by 256 - start
decreasing_by
  have := in_bounds_of_occupied ‹_› ‹¬occupation = 0›
  omega

/-- `get_free_block_index`: the first block of a free window, if there is one. -/
def getFreeBlockIndex (used : UsedMap) (size : ℕ) : Exec Error (Option ℕ) := do
  let start ← freeBlockSearch used size 0
  pure (if start + size ≤ 255 then some start else none)

/-- `FreeList::allocate`. -/
def allocate (size : ℕ) : ExecM FreeList Error FreeListNode := do
  let list ← ExecM.get
  let start ← ExecM.lift (getFreeBlockIndex list.used (blockSize size))
  match start with
  | none => pure ⟨size, none⟩
  | some start => do
    let used ← ExecM.lift (bitOn list.used start (blockSize size))
    ExecM.set { list with used := used }
    pure ⟨size, some start⟩

/-- `FreeList::deallocate`. -/
def deallocate (size start : ℕ) : ExecM FreeList Error Unit := do
  let list ← ExecM.get
  let used ← ExecM.lift (bitOff list.used start (blockSize size))
  ExecM.set { list with used := used }

/-- `Drop for FreeListNode`. -/
def release (node : FreeListNode) : ExecM FreeList Error Unit :=
  match node.block with
  | none => pure ()
  | some start => deallocate node.size start

/-- The bytes of a buffer. -/
def contents (list : FreeList) (node : FreeListNode) : List UInt8 :=
  match node.block with
  | none => (List.range node.size).map list.heap
  | some start => (List.range node.size).map fun i => list.slab (start <<< blockShift + i)

/-- Overwrite the bytes of a buffer. A buffer of the system allocator is not read again. -/
def overwrite (node : FreeListNode) (bytes : List UInt8) : ExecM FreeList Error Unit := do
  let list ← ExecM.get
  match node.block with
  | none => pure ()
  | some start => ExecM.set { list with
      slab := fun a =>
        if start <<< blockShift ≤ a ∧ a < start <<< blockShift + bytes.length then
          bytes.getD (a - start <<< blockShift) 0
        else list.slab a }

/-- A node holds as many bytes as its size says. -/
@[simp] theorem length_contents (list : FreeList) (node : FreeListNode) :
    (list.contents node).length = node.size := by
  unfold contents
  split <;> simp

/-- **The search for free blocks returns**, whatever the bitmap is. -/
theorem freeBlockSearch_ok (used : UsedMap) (size start : ℕ) :
    ∃ r, freeBlockSearch used size start = .ok r := by
  induction hn : 256 - start using Nat.strongRecOn generalizing start with
  | ind n ih =>
    obtain ⟨occupation, hocc⟩ := checkOccupation_ok (ε := Error) used start size
    unfold freeBlockSearch
    split
    case h_1 occupation' h =>
      split_ifs with h0
      · exact ⟨start, rfl⟩
      · have := in_bounds_of_occupied h h0
        exact ih _ (by omega) _ rfl
    case h_2 e h => rw [hocc] at h; cases h
    case h_3 h => rw [hocc] at h; cases h

/-- **Allocation always succeeds**, from the slab or from the system allocator, with a buffer of
the size asked for. -/
theorem allocate_ok (size : ℕ) (list : FreeList) :
    ∃ node list', allocate size list = (.ok node, list') ∧ node.size = size := by
  obtain ⟨start, hstart⟩ := freeBlockSearch_ok list.used (blockSize size) 0
  have hindex : getFreeBlockIndex list.used (blockSize size) =
      .ok (if start + blockSize size ≤ 255 then some start else none) := by
    rw [getFreeBlockIndex, hstart]
    rfl
  unfold allocate
  rw [ExecM.bind_of_ok (ExecM.get_apply list),
    ExecM.bind_of_ok (by rw [ExecM.lift_apply, hindex])]
  split_ifs
  · obtain ⟨used, hused⟩ :=
      bitUpdate_ok (ε := Error) (fun b mask => b ||| mask) 0xff list.used start (blockSize size)
    have hon : (bitOn list.used start (blockSize size) : Exec Error UsedMap) = .ok used := hused
    refine ⟨⟨size, some start⟩, { list with used := used }, ?_, rfl⟩
    dsimp only
    rw [ExecM.bind_of_ok (by rw [ExecM.lift_apply, hon]), ExecM.bind_of_ok (ExecM.set_apply _ _)]
    rfl
  · exact ⟨⟨size, none⟩, list, rfl, rfl⟩

/-- **Release always succeeds.** -/
theorem release_ok (node : FreeListNode) (list : FreeList) :
    ∃ list', release node list = (.ok (), list') := by
  obtain ⟨size, _ | start⟩ := node
  · exact ⟨list, rfl⟩
  · obtain ⟨used, hused⟩ := bitUpdate_ok (ε := Error) (fun b mask => b &&& ~~~mask) 0x0 list.used
      start (blockSize size)
    have hoff : (bitOff list.used start (blockSize size) : Exec Error UsedMap) = .ok used := hused
    refine ⟨{ list with used := used }, ?_⟩
    change deallocate size start list = _
    unfold deallocate
    rw [ExecM.bind_of_ok (ExecM.get_apply list), ExecM.bind_of_ok (by rw [ExecM.lift_apply, hoff])]
    rfl

/-- Overwriting a buffer always succeeds. -/
theorem overwrite_ok (node : FreeListNode) (bytes : List UInt8) (list : FreeList) :
    ∃ list', overwrite node bytes list = (.ok (), list') := by
  obtain ⟨size, _ | start⟩ := node
  · exact ⟨list, rfl⟩
  · exact ⟨_, rfl⟩

end FreeList

end CriArchive
