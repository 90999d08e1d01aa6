import CriArchive.Lib.Bytes
import CriArchive.Lib.Stream

set_option relaxedAutoImplicit false
set_option autoImplicit false

/-!
# Integers in byte slices

The module `utils`: reading a fixed-width integer at an offset of a byte slice, in either byte
order. The slicing is partial, as it is in the source (the feature `dangerous` is off).

## Main definitions

* `Endianness` — the byte orders; `fromSliceU8`, …, `fromSliceF64` — `FromSlice` at each type.

## Main results

* `fromSliceU16_eq`, `fromSliceU32_eq`, `fromSliceU64_eq` — reads inside the slice succeed.
-/

namespace CriArchive

open Endian

/-- The byte order of an integer. -/
inductive Endianness where
  | bigEndian
  | littleEndian
  deriving DecidableEq, Repr

/-- The number a byte array stands for. -/
def Endianness.value : Endianness → List UInt8 → ℕ
  | bigEndian => beNat
  | littleEndian => leNat

section FromSlice

variable {ε : Type} (E : Endianness) (slice : List UInt8) (offset : ℕ)

/-- `u8::from_slice`. -/
def fromSliceU8 : Exec ε UInt8 := Exec.index slice offset

/-- `u16::from_slice`. -/
def fromSliceU16 : Exec ε UInt16 := do
  let arr ← Exec.slice slice offset (2 + offset)
  pure (UInt16.ofNat (E.value arr))

/-- `i16::from_slice`. -/
def fromSliceI16 : Exec ε Int16 := do
  let v ← fromSliceU16 E slice offset
  pure v.toInt16

/-- `u32::from_slice`. -/
def fromSliceU32 : Exec ε UInt32 := do
  let arr ← Exec.slice slice offset (4 + offset)
  pure (UInt32.ofNat (E.value arr))

/-- `i32::from_slice`. -/
def fromSliceI32 : Exec ε Int32 := do
  let v ← fromSliceU32 E slice offset
  pure v.toInt32

/-- `f32::from_slice`; a float is kept as its bit pattern. -/
def fromSliceF32 : Exec ε UInt32 := fromSliceU32 E slice offset

/-- `u64::from_slice`. -/
def fromSliceU64 : Exec ε UInt64 := do
  let arr ← Exec.slice slice offset (8 + offset)
  pure (UInt64.ofNat (E.value arr))

/-- `i64::from_slice`. -/
def fromSliceI64 : Exec ε Int64 := do
  let v ← fromSliceU64 E slice offset
  pure v.toInt64

/-- `f64::from_slice`; a float is kept as its bit pattern. -/
def fromSliceF64 : Exec ε UInt64 := fromSliceU64 E slice offset

variable {E slice offset}

/-- A byte within the slice is read. -/
theorem fromSliceU8_eq (h : offset < slice.length) :
    (fromSliceU8 slice offset : Exec ε UInt8) = .ok slice[offset] :=
  Exec.index_eq h

/-- Two bytes within the slice are read. -/
theorem fromSliceU16_eq (h : offset + 2 ≤ slice.length) :
    (fromSliceU16 E slice offset : Exec ε UInt16) =
      .ok (UInt16.ofNat (E.value (window slice offset 2))) := by
  unfold fromSliceU16
  rw [Exec.slice_eq (by omega) (by omega), Nat.add_sub_cancel]
  rfl

/-- Four bytes within the slice are read. -/
theorem fromSliceU32_eq (h : offset + 4 ≤ slice.length) :
    (fromSliceU32 E slice offset : Exec ε UInt32) =
      .ok (UInt32.ofNat (E.value (window slice offset 4))) := by
  unfold fromSliceU32
  rw [Exec.slice_eq (by omega) (by omega), Nat.add_sub_cancel]
  rfl

/-- Eight bytes within the slice are read. -/
theorem fromSliceU64_eq (h : offset + 8 ≤ slice.length) :
    (fromSliceU64 E slice offset : Exec ε UInt64) =
      .ok (UInt64.ofNat (E.value (window slice offset 8))) := by
  unfold fromSliceU64
  rw [Exec.slice_eq (by omega) (by omega), Nat.add_sub_cancel]
  rfl

end FromSlice

/-! ## Encoding -/

/-- `u16::to_be_bytes`. -/
def toBeBytesU16 (v : UInt16) : List UInt8 := beBytes 2 v.toNat

/-- `u32::to_be_bytes`. -/
def toBeBytesU32 (v : UInt32) : List UInt8 := beBytes 4 v.toNat

/-- `u64::to_be_bytes`. -/
def toBeBytesU64 (v : UInt64) : List UInt8 := beBytes 8 v.toNat

/-- `u64::to_le_bytes`. -/
def toLeBytesU64 (v : UInt64) : List UInt8 := leBytes 8 v.toNat

/-- A 16-bit number takes two bytes. -/
@[simp] theorem length_toBeBytesU16 (v : UInt16) : (toBeBytesU16 v).length = 2 := by
  simp [toBeBytesU16]

/-- A 32-bit number takes four bytes. -/
@[simp] theorem length_toBeBytesU32 (v : UInt32) : (toBeBytesU32 v).length = 4 := by
  simp [toBeBytesU32]

/-- A 64-bit number takes eight bytes. -/
@[simp] theorem length_toBeBytesU64 (v : UInt64) : (toBeBytesU64 v).length = 8 := by
  simp [toBeBytesU64]

/-- A 64-bit number takes eight bytes in the other order too. -/
@[simp] theorem length_toLeBytesU64 (v : UInt64) : (toLeBytesU64 v).length = 8 := by
  simp [toLeBytesU64]

/-- A 16-bit number is read back from its bytes. -/
@[simp] theorem ofNat_beNat_toBeBytesU16 (v : UInt16) :
    UInt16.ofNat (beNat (toBeBytesU16 v)) = v := by
  rw [toBeBytesU16, beNat_beBytes_of_lt (by simpa using v.toNat_lt), UInt16.ofNat_toNat]

/-- A 32-bit number is read back from its bytes. -/
@[simp] theorem ofNat_beNat_toBeBytesU32 (v : UInt32) :
    UInt32.ofNat (beNat (toBeBytesU32 v)) = v := by
  rw [toBeBytesU32, beNat_beBytes_of_lt (by simpa using v.toNat_lt), UInt32.ofNat_toNat]

/-- A 64-bit number is read back from its bytes. -/
@[simp] theorem ofNat_beNat_toBeBytesU64 (v : UInt64) :
    UInt64.ofNat (beNat (toBeBytesU64 v)) = v := by
  rw [toBeBytesU64, beNat_beBytes_of_lt (by simpa using v.toNat_lt), UInt64.ofNat_toNat]

/-- A 64-bit number is read back from its bytes in the other order. -/
@[simp] theorem ofNat_leNat_toLeBytesU64 (v : UInt64) :
    UInt64.ofNat (leNat (toLeBytesU64 v)) = v := by
  rw [toLeBytesU64, leNat_leBytes, Nat.mod_eq_of_lt (by simpa using v.toNat_lt),
    UInt64.ofNat_toNat]

end CriArchive
