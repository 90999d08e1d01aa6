import CriArchive.Error
import CriArchive.Schema.Slice

set_option relaxedAutoImplicit false
set_option autoImplicit false

/-!
# The `@UTF` table header

`schema/header.rs`: the fixed header of 32 bytes and its accessors. The header is owned, so the
array's length is part of the type and the accessors' slices never fail; the accessors are
partial all the same, as `from_slice` is.

## Main definitions

* `TableHeader` — the 32 header bytes; `TableHeader.new` copies them from a table.
* `TableHeader.size`, `rowsOffset`, `stringPoolOffset`, `dataPoolOffset`, `columnCount`,
  `rowSize`, `rowCount`, `encoding` — the accessors.

## Main results

* `TableHeader.rowsOffset_eq` and its siblings — every accessor returns its field.
-/

namespace CriArchive

/-- The string encoding of a table. -/
inductive StringEncoding where
  | shiftJis
  | utf8
  deriving DecidableEq, Repr

/-- The encoding an encoding byte stands for. -/
def StringEncoding.fromByte (value : UInt8) : StringEncoding :=
  if value = 0 then shiftJis else utf8

/-- Table offsets are stored relative to this position. -/
def headerOffset : ℕ := 0x8

/-- The size of the fixed header. -/
def headerSize : ℕ := 0x20

/-- The fixed header of a table. -/
structure TableHeader where
  bytes : List UInt8
  length_bytes : bytes.length = headerSize

namespace TableHeader

variable {ε : Type}

/-- Copy the header out of a table, padding a short one with zeros. -/
def new (file : List UInt8) : TableHeader where
  bytes := file.take headerSize ++ List.replicate (headerSize - file.length) 0
  length_bytes := by simp; omega

variable (h : TableHeader)

/-- The declared table size, less the first 8 bytes. -/
def size : Exec ε UInt32 := fromSliceU32 .bigEndian h.bytes 0x4

/-- The encoding of the string pool. -/
def encoding : Exec ε StringEncoding := do
  let value ← fromSliceU8 h.bytes 0x9
  pure (StringEncoding.fromByte value)

/-- The start of the rows: a 32-bit addition that would fault on overflow. -/
def rowsOffset : Exec ε ℕ := do
  let field ← fromSliceU16 .bigEndian h.bytes 0xa
  if field.toNat + headerOffset < 2 ^ 32 then pure (field.toNat + headerOffset) else .fault

/-- The start of the string pool, saturating at the largest 32-bit value. -/
def stringPoolOffset : Exec ε ℕ := do
  let field ← fromSliceU32 .bigEndian h.bytes 0xc
  pure (min (field.toNat + headerOffset) (2 ^ 32 - 1))

/-- The start of the data pool, saturating at the largest 32-bit value. -/
def dataPoolOffset : Exec ε ℕ := do
  let field ← fromSliceU32 .bigEndian h.bytes 0x10
  pure (min (field.toNat + headerOffset) (2 ^ 32 - 1))

/-- The number of columns. -/
def columnCount : Exec ε UInt16 := fromSliceU16 .bigEndian h.bytes 0x18

/-- The number of bytes from one row to the next. -/
def rowSize : Exec ε UInt16 := fromSliceU16 .bigEndian h.bytes 0x1a

/-- The number of rows. -/
def rowCount : Exec ε UInt32 := fromSliceU32 .bigEndian h.bytes 0x1c

/-! ## The fields -/

/-- The 16-bit field at an offset. -/
def field16 (off : ℕ) : UInt16 := UInt16.ofNat (Endian.beNat (window h.bytes off 2))

/-- The 32-bit field at an offset. -/
def field32 (off : ℕ) : UInt32 := UInt32.ofNat (Endian.beNat (window h.bytes off 4))

/-- The declared size of a table. -/
theorem size_eq : (h.size : Exec ε UInt32) = .ok (h.field32 0x4) :=
  fromSliceU32_eq (by rw [h.length_bytes]; decide)

/-- The number of columns. -/
theorem columnCount_eq : (h.columnCount : Exec ε UInt16) = .ok (h.field16 0x18) :=
  fromSliceU16_eq (by rw [h.length_bytes]; decide)

/-- The size of a row. -/
theorem rowSize_eq : (h.rowSize : Exec ε UInt16) = .ok (h.field16 0x1a) :=
  fromSliceU16_eq (by rw [h.length_bytes]; decide)

/-- The number of rows. -/
theorem rowCount_eq : (h.rowCount : Exec ε UInt32) = .ok (h.field32 0x1c) :=
  fromSliceU32_eq (by rw [h.length_bytes]; decide)

/-- The encoding of the strings, from its byte. -/
theorem encoding_eq : (h.encoding : Exec ε StringEncoding) =
    .ok (StringEncoding.fromByte (getElem h.bytes 0x9 (by rw [h.length_bytes]; decide))) := by
  rw [encoding, fromSliceU8_eq (by rw [h.length_bytes]; decide)]
  rfl

/-- The rows offset never overflows: the field has 16 bits. -/
theorem rowsOffset_eq : (h.rowsOffset : Exec ε ℕ) = .ok ((h.field16 0xa).toNat + headerOffset) := by
  have hlt := (h.field16 0xa).toNat_lt
  rw [rowsOffset, fromSliceU16_eq (by rw [h.length_bytes]; decide)]
  exact if_pos (show (h.field16 0xa).toNat + 8 < 2 ^ 32 by omega)

/-- Where the strings start, which saturates. -/
theorem stringPoolOffset_eq : (h.stringPoolOffset : Exec ε ℕ) =
    .ok (min ((h.field32 0xc).toNat + headerOffset) (2 ^ 32 - 1)) := by
  rw [stringPoolOffset, fromSliceU32_eq (by rw [h.length_bytes]; decide)]
  rfl

/-- Where the data start, which saturates. -/
theorem dataPoolOffset_eq : (h.dataPoolOffset : Exec ε ℕ) =
    .ok (min ((h.field32 0x10).toNat + headerOffset) (2 ^ 32 - 1)) := by
  rw [dataPoolOffset, fromSliceU32_eq (by rw [h.length_bytes]; decide)]
  rfl

/-- The header of a table of sufficient length is its first 32 bytes. -/
theorem bytes_new {file : List UInt8} (hlen : headerSize ≤ file.length) :
    (new file).bytes = file.take headerSize := by
  simp [new, Nat.sub_eq_zero_of_le hlen]

end TableHeader

end CriArchive
