import CriArchive.Schema.Header

set_option relaxedAutoImplicit false
set_option autoImplicit false

/-!
# Cell values and column types

The data types of `schema/columns.rs` and `schema/rows.rs` and the decoding of a single cell
(`Row::row_value`). Columns and rows refer to each other in the source; here the types and the
cell decoder come first, `CriArchive.Schema.Columns` has the two list parsers.

## Main definitions

* `ColumnFlag`, `ColumnType`, `ColumnValue` — the flag byte of a column.
* `RowValue`, `DataValue` — cell values.
* `Row.rowValue` — decode a cell of a type from a scratch buffer.
* `readInto` — overwrite the front of a scratch buffer from the stream.
* `RowValue.decode` — the value a type gives to exactly its bytes.

## Main results

* `Row.rowValue_eq` — the scratch buffer decoder reads only the bytes of its type.
* `ColumnType.size_le` — every type fits the 16-byte scratch buffer.
-/

namespace CriArchive

open Endian

/-! ## The flag byte -/

/-- The flags of a column. -/
inductive ColumnFlag where
  | name
  | defaultValue
  | rowStorage
  deriving DecidableEq, Repr

/-- The bit of a flag. -/
def ColumnFlag.bits : ColumnFlag → UInt8
  | name => 0x10
  | defaultValue => 0x20
  | rowStorage => 0x40

/-- The type of a column's values. -/
inductive ColumnType where
  | byte
  | sByte
  | uInt16
  | int16
  | uInt32
  | int32
  | uInt64
  | int64
  | single
  | double
  | string
  | data
  | guid
  | invalid
  deriving DecidableEq, Repr

namespace ColumnType

/-- The number of bytes of a value; an invalid type has none. -/
def getSize : ColumnType → ℕ
  | byte | sByte => 1
  | uInt16 | int16 => 2
  | uInt32 | int32 | single | string => 4
  | uInt64 | int64 | double | data => 8
  | guid => 16
  | invalid => 0

/-- The type a nibble stands for. -/
def ofNibble : ℕ → ColumnType
  | 0 => byte
  | 1 => sByte
  | 2 => uInt16
  | 3 => int16
  | 4 => uInt32
  | 5 => int32
  | 6 => uInt64
  | 7 => int64
  | 8 => single
  | 9 => double
  | 10 => string
  | 11 => data
  | 12 => guid
  | _ => invalid

/-- Every type fits the 16-byte scratch buffer. -/
theorem size_le (t : ColumnType) : t.getSize ≤ 0x10 := by
  cases t <;> decide

end ColumnType

/-- The flag byte of a column: its type in the low nibble, its flags above. -/
structure ColumnValue where
  bits : UInt8
  deriving DecidableEq, Repr

namespace ColumnValue

/-- The mask of the type nibble. -/
def typeMask : UInt8 := 0xf

/-- The flags: the byte without its type nibble. -/
def getFlags (v : ColumnValue) : UInt8 := v.bits &&& ~~~typeMask

/-- Whether a flag is set (`get_flags().contains(flag)`). -/
def contains (v : ColumnValue) (flag : ColumnFlag) : Bool := v.getFlags &&& flag.bits == flag.bits

/-- The type in the low nibble. -/
def getType (v : ColumnValue) : ColumnType := ColumnType.ofNibble (v.bits &&& typeMask).toNat

end ColumnValue

/-! ## Cell values -/

/-- A reference into the data pool. -/
structure DataValue where
  offset : UInt32
  length : UInt32
  deriving DecidableEq, Repr

/-- A data value of length zero counts as absent. -/
def DataValue.isNone (v : DataValue) : Bool := v.length == 0

/-- The value of a cell. Floats are kept as their bit patterns. -/
inductive RowValue where
  | none
  | byte (v : UInt8)
  | sByte (v : Int8)
  | uInt16 (v : UInt16)
  | int16 (v : Int16)
  | uInt32 (v : UInt32)
  | int32 (v : Int32)
  | uInt64 (v : UInt64)
  | int64 (v : Int64)
  | single (bits : UInt32)
  | double (bits : UInt64)
  | string (offset : UInt32)
  | data (v : DataValue)
  | guid (a b c d : UInt32)
  deriving DecidableEq, Repr

/-- The cells of one row. -/
abbrev Row : Type := List RowValue

/-- Decode a value of a type from the front of a slice. -/
def Row.rowValue {ε : Type} (ctype : ColumnType) (slice : List UInt8) : Exec ε RowValue :=
  match ctype with
  | .byte => do pure (.byte (← Exec.index slice 0))
  | .sByte => do pure (.sByte (← Exec.index slice 0).toInt8)
  | .uInt16 => do pure (.uInt16 (← fromSliceU16 .bigEndian (← Exec.slice slice 0 2) 0))
  | .int16 => do pure (.int16 (← fromSliceI16 .bigEndian (← Exec.slice slice 0 2) 0))
  | .uInt32 => do pure (.uInt32 (← fromSliceU32 .bigEndian (← Exec.slice slice 0 4) 0))
  | .int32 => do pure (.int32 (← fromSliceI32 .bigEndian (← Exec.slice slice 0 4) 0))
  | .single => do pure (.single (← fromSliceF32 .bigEndian (← Exec.slice slice 0 4) 0))
  | .string => do pure (.string (← fromSliceU32 .bigEndian (← Exec.slice slice 0 4) 0))
  | .uInt64 => do pure (.uInt64 (← fromSliceU64 .bigEndian (← Exec.slice slice 0 8) 0))
  | .int64 => do pure (.int64 (← fromSliceI64 .bigEndian (← Exec.slice slice 0 8) 0))
  | .double => do pure (.double (← fromSliceF64 .bigEndian (← Exec.slice slice 0 8) 0))
  | .data => do
    let offset ← fromSliceU32 .bigEndian (← Exec.slice slice 0 4) 0
    let length ← fromSliceU32 .bigEndian (← Exec.slice slice 4 8) 0
    pure (.data ⟨offset, length⟩)
  | .guid => do
    let a ← fromSliceU32 .bigEndian (← Exec.slice slice 0 4) 0
    let b ← fromSliceU32 .bigEndian (← Exec.slice slice 4 8) 0
    let c ← fromSliceU32 .bigEndian (← Exec.slice slice 8 12) 0
    let d ← fromSliceU32 .bigEndian (← Exec.slice slice 12 16) 0
    pure (.guid a b c d)
  | .invalid => pure .none

/-! ## What the decoder returns -/

/-- The 32-bit number in the `i`-th group of four bytes. -/
private def word (bs : List UInt8) (i : ℕ) : UInt32 := UInt32.ofNat (beNat (window bs (4 * i) 4))

/-- The value a type gives to exactly its bytes. -/
def RowValue.decode (ctype : ColumnType) (bs : List UInt8) : RowValue :=
  match ctype with
  | .byte => .byte (UInt8.ofNat (beNat bs))
  | .sByte => .sByte (UInt8.ofNat (beNat bs)).toInt8
  | .uInt16 => .uInt16 (UInt16.ofNat (beNat bs))
  | .int16 => .int16 (UInt16.ofNat (beNat bs)).toInt16
  | .uInt32 => .uInt32 (UInt32.ofNat (beNat bs))
  | .int32 => .int32 (UInt32.ofNat (beNat bs)).toInt32
  | .single => .single (UInt32.ofNat (beNat bs))
  | .string => .string (UInt32.ofNat (beNat bs))
  | .uInt64 => .uInt64 (UInt64.ofNat (beNat bs))
  | .int64 => .int64 (UInt64.ofNat (beNat bs)).toInt64
  | .double => .double (UInt64.ofNat (beNat bs))
  | .data => .data ⟨word bs 0, word bs 1⟩
  | .guid => .guid (word bs 0) (word bs 1) (word bs 2) (word bs 3)
  | .invalid => .none

/-- The offset and the length of a data cell. -/
theorem RowValue.decode_data (offset length : UInt32) :
    decode .data (toBeBytesU32 offset ++ toBeBytesU32 length) = .data ⟨offset, length⟩ := by
  have h₁ : window (toBeBytesU32 offset ++ toBeBytesU32 length) (4 * 0) 4 =
      toBeBytesU32 offset := by
    simp [window]
  have h₂ : window (toBeBytesU32 offset ++ toBeBytesU32 length) (4 * 1) 4 =
      toBeBytesU32 length := by
    simp [window, List.take_of_length_le]
  simp only [decode, word, h₁, h₂, ofNat_beNat_toBeBytesU32]

section Decode

variable {ε : Type} {bs rest : List UInt8}

/-- The front slice of a buffer. -/
private theorem slice_front {n : ℕ} (h : bs.length = n) :
    (Exec.slice (bs ++ rest) 0 n : Exec ε (List UInt8)) = .ok bs := by
  subst h
  rw [Exec.slice_eq (Nat.zero_le _) (by simp), List.drop_zero, Nat.sub_zero, List.take_left]

/-- Reading four bytes out of the front part of a longer buffer, and going on. -/
private theorem fromSliceU32_slice {β : Type} {lo hi : ℕ} (i : ℕ) (hlo : lo = 4 * i)
    (hhi : hi = 4 * i + 4) (h : 4 * i + 4 ≤ bs.length) (f : UInt32 → Exec ε β) :
    (Exec.slice (bs ++ rest) lo hi >>= fun arr => fromSliceU32 .bigEndian arr 0 >>= f) =
      f (word bs i) := by
  subst hlo hhi
  have hwin : ((bs ++ rest).drop (4 * i)).take 4 = window bs (4 * i) 4 := window_append_left h
  rw [Exec.slice_eq (by omega) (by simp; omega), Exec.ok_bind, Nat.add_sub_cancel_left, hwin,
    fromSliceU32_eq (by rw [length_window h]), window_window _ _ _ _ _ (by omega), Nat.add_zero]
  rfl

/-- Reading two bytes that are the whole slice. -/
private theorem fromSliceU16_whole (h : bs.length = 2) :
    (fromSliceU16 .bigEndian bs 0 : Exec ε UInt16) = .ok (UInt16.ofNat (beNat bs)) := by
  rw [fromSliceU16_eq (by omega), ← h, window_zero_length]
  rfl

/-- Reading four bytes that are the whole slice. -/
private theorem fromSliceU32_whole (h : bs.length = 4) :
    (fromSliceU32 .bigEndian bs 0 : Exec ε UInt32) = .ok (UInt32.ofNat (beNat bs)) := by
  rw [fromSliceU32_eq (by omega), ← h, window_zero_length]
  rfl

/-- Reading eight bytes that are the whole slice. -/
private theorem fromSliceU64_whole (h : bs.length = 8) :
    (fromSliceU64 .bigEndian bs 0 : Exec ε UInt64) = .ok (UInt64.ofNat (beNat bs)) := by
  rw [fromSliceU64_eq (by omega), ← h, window_zero_length]
  rfl

/-- **The cell decoder** reads exactly the bytes of its type: what follows them in the scratch
buffer, such as leftovers of an earlier and wider cell, does not matter. -/
theorem Row.rowValue_eq {ctype : ColumnType} (h : bs.length = ctype.getSize) :
    (Row.rowValue ctype (bs ++ rest) : Exec ε RowValue) = .ok (RowValue.decode ctype bs) := by
  cases ctype <;> simp only [ColumnType.getSize] at h <;> simp only [Row.rowValue]
  case byte | sByte =>
    obtain ⟨b, rfl⟩ := List.length_eq_one_iff.mp h
    simp [Exec.index, RowValue.decode, beNat, leNat]
  case uInt16 | int16 =>
    simp [slice_front h, fromSliceI16, fromSliceU16_whole h, RowValue.decode]
  case uInt32 | int32 | single | string =>
    simp [slice_front h, fromSliceI32, fromSliceF32, fromSliceU32_whole h, RowValue.decode]
  case uInt64 | int64 | double =>
    simp [slice_front h, fromSliceI64, fromSliceF64, fromSliceU64_whole h, RowValue.decode]
  case data =>
    rw [fromSliceU32_slice 0 rfl rfl (by omega), fromSliceU32_slice 1 rfl rfl (by omega)]
    rfl
  case guid =>
    rw [fromSliceU32_slice 0 rfl rfl (by omega), fromSliceU32_slice 1 rfl rfl (by omega),
      fromSliceU32_slice 2 rfl rfl (by omega), fromSliceU32_slice 3 rfl rfl (by omega)]
    rfl
  case invalid => rfl

end Decode

end CriArchive
