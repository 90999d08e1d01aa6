import CriArchive.Cpk.FreeList
import CriArchive.Schema.Slice

set_option relaxedAutoImplicit false
set_option autoImplicit false

/-!
# The CRILAYLA decompressor

`cpk/compress/layla.rs`. The source works with raw pointers. Here a pointer is an index, into the
input slice or into the output buffer, that may be negative; every access is recorded, and one
outside the memory it belongs to faults. The 16-byte header is part of the input slice, and its
reference is assumed to be aligned.

## Main definitions

* `Access`, `Machine` — memory accesses; the output buffer with the accesses made so far.
* `LaylaDecompressorCursor` — the bit reader, with its five read functions.
* `LaylaDecompressor.run` — the decompressor on an output buffer.
* `LaylaDecompressor.isCompressed`, `LaylaDecompressor.decompress` — the entry points.
-/

namespace CriArchive

/-! ## Memory -/

/-- A range of memory that was accessed, by its start and length. -/
inductive Access where
  | readInput (start : ℤ) (len : ℕ)
  | readOutput (start : ℤ) (len : ℕ)
  /-- The copy of the uncompressed prefix. -/
  | writePrefix (start : ℤ) (len : ℕ)
  | writeOutput (start : ℤ) (len : ℕ)
  deriving DecidableEq, Repr

/-- The output buffer, and the accesses made so far, the last one first. -/
structure Machine where
  output : List UInt8
  log : List Access
  deriving DecidableEq, Repr

namespace Machine

/-- Whether a range lies inside a memory of a given size. -/
def InBounds (start : ℤ) (len size : ℕ) : Prop := 0 ≤ start ∧ start + len ≤ size

/-- Whether a window lies in a buffer can be evaluated. -/
instance (start : ℤ) (len size : ℕ) : Decidable (InBounds start len size) :=
  inferInstanceAs (Decidable (_ ∧ _))

/-- Read a range of the input slice. -/
def readInput (input : List UInt8) (start : ℤ) (len : ℕ) :
    ExecM Machine Error (List UInt8) := fun m =>
  (if InBounds start len input.length then .ok (window input start.toNat len) else .fault,
    { m with log := .readInput start len :: m.log })

/-- Read a range of the output buffer. -/
def readOutput (start : ℤ) (len : ℕ) : ExecM Machine Error (List UInt8) := fun m =>
  (if InBounds start len m.output.length then .ok (window m.output start.toNat len) else .fault,
    { m with log := .readOutput start len :: m.log })

/-- Replace the bytes of a list from an index on. -/
def splice (xs : List UInt8) (start : ℕ) (bytes : List UInt8) : List UInt8 :=
  xs.take start ++ (bytes ++ xs.drop (start + bytes.length))

/-- Write bytes to the output buffer. -/
def writeOutput (start : ℤ) (bytes : List UInt8) : ExecM Machine Error Unit := fun m =>
  if InBounds start bytes.length m.output.length then
    (.ok (), ⟨splice m.output start.toNat bytes, .writeOutput start bytes.length :: m.log⟩)
  else (.fault, { m with log := .writeOutput start bytes.length :: m.log })

/-- Write the uncompressed prefix to the start of the output buffer. -/
def writePrefix (bytes : List UInt8) : ExecM Machine Error Unit := fun m =>
  if bytes.length ≤ m.output.length then
    (.ok (), ⟨splice m.output 0 bytes, .writePrefix 0 bytes.length :: m.log⟩)
  else (.fault, { m with log := .writePrefix 0 bytes.length :: m.log })

/-- Read one byte of the input slice. -/
def loadInput (input : List UInt8) (i : ℤ) : ExecM Machine Error UInt8 := do
  let bytes ← readInput input i 1
  ExecM.lift (Exec.index bytes 0)

/-- Read one byte of the output buffer. -/
def loadOutput (i : ℤ) : ExecM Machine Error UInt8 := do
  let bytes ← readOutput i 1
  ExecM.lift (Exec.index bytes 0)

/-- Write one byte of the output buffer. -/
def storeOutput (i : ℤ) (b : UInt8) : ExecM Machine Error Unit := writeOutput i [b]

end Machine

open Machine

/-! ## The bit reader -/

/-- `BIT_MASK`. -/
def bitMaskWords : List UInt32 :=
  [0x0000, 0x0001, 0x0003, 0x0007, 0x000f, 0x001f, 0x003f, 0x007f,
    0x00ff, 0x01ff, 0x03ff, 0x07ff, 0x0fff, 0x1fff, 0x3fff, 0x7fff]

/-- `LaylaDecompressorCursor`: the index of the current byte of the input slice, and how many of
its low bits are left. -/
structure LaylaDecompressorCursor where
  cdata : ℤ
  bitsLeft : ℕ
  deriving DecidableEq, Repr

namespace LaylaDecompressorCursor

variable (input : List UInt8)

/-- `bit_mask`. -/
def bitMask (n : ℕ) : ExecM Machine Error UInt32 := ExecM.lift (Exec.index bitMaskWords n)

/-- The `round` bits below the `bitsLeft` low bits of a byte, as `u32`. -/
def piece32 (b : UInt8) (bitsLeft round : ℕ) : ExecM Machine Error UInt32 := do
  let mask ← bitMask round
  pure ((b.toUInt32 >>> UInt32.ofNat (bitsLeft - round)) &&& mask)

/-- The `round` bits below the `bitsLeft` low bits of a byte, as `u8`. -/
def piece8 (b : UInt8) (bitsLeft round : ℕ) : ExecM Machine Error UInt8 := do
  let mask ← bitMask round
  pure ((b >>> UInt8.ofNat (bitsLeft - round)) &&& mask.toUInt8)

/-- Move to the next byte when the current one is used up. -/
def refill (c : LaylaDecompressorCursor) (bits : ℕ) : LaylaDecompressorCursor :=
  if c.bitsLeft = 0 then ⟨c.cdata - 1, bits⟩ else c

/-- `read_1`. -/
def read1 (c : LaylaDecompressorCursor) :
    ExecM Machine Error (Bool × LaylaDecompressorCursor) :=
  if c.bitsLeft ≠ 0 then do
    let b ← loadInput input c.cdata
    pure ((b >>> UInt8.ofNat (c.bitsLeft - 1)) &&& 1 != 0, ⟨c.cdata, c.bitsLeft - 1⟩)
  else do
    let b ← loadInput input (c.cdata - 1)
    pure ((b >>> 7) &&& 1 != 0, ⟨c.cdata - 1, 7⟩)

/-- The second and the third read of `read_13`: `bits` more bits from the two bytes below. -/
def read13Rest (cdata : ℤ) (bits : ℕ) (res : UInt32) :
    ExecM Machine Error (UInt32 × LaylaDecompressorCursor) := do
  let b ← loadInput input (cdata - 1)
  let second ← piece32 b 8 (min bits 8)
  if bits - min bits 8 = 0 then
    pure ((res <<< UInt32.ofNat (min bits 8)) ||| second, ⟨cdata - 1, 8 - min bits 8⟩)
  else do
    let b ← loadInput input (cdata - 2)
    let third ← piece32 b 8 (bits - min bits 8)
    pure ((((res <<< UInt32.ofNat (min bits 8)) ||| second) <<<
      UInt32.ofNat (bits - min bits 8)) ||| third, ⟨cdata - 2, 8 - (bits - min bits 8)⟩)

/-- `read_13`. -/
def read13 (c : LaylaDecompressorCursor) :
    ExecM Machine Error (UInt32 × LaylaDecompressorCursor) := do
  let b ← loadInput input (c.refill 8).cdata
  let mask ← bitMask (c.refill 8).bitsLeft
  read13Rest input (c.refill 8).cdata (13 - (c.refill 8).bitsLeft) (b.toUInt32 &&& mask)

/-- `read_8`. -/
def read8 (c : LaylaDecompressorCursor) :
    ExecM Machine Error (UInt8 × LaylaDecompressorCursor) :=
  if c.bitsLeft ≠ 0 then do
    let high ← loadInput input c.cdata
    let highMask ← bitMask c.bitsLeft
    let low ← loadInput input (c.cdata - 1)
    let lowMask ← bitMask (8 - c.bitsLeft)
    pure (((high &&& highMask.toUInt8) <<< UInt8.ofNat (8 - c.bitsLeft)) |||
      ((low >>> UInt8.ofNat (8 - (8 - c.bitsLeft))) &&& lowMask.toUInt8),
      ⟨c.cdata - 1, c.bitsLeft⟩)
  else do
    let b ← loadInput input (c.cdata - 1)
    pure (b, ⟨c.cdata - 1, c.bitsLeft⟩)

/-- `read_2`. -/
def read2 (c : LaylaDecompressorCursor) :
    ExecM Machine Error (UInt8 × LaylaDecompressorCursor) :=
  if c.bitsLeft = 0 then do
    let b ← loadInput input (c.cdata - 1)
    pure ((b >>> 6) &&& 3, ⟨c.cdata - 1, 6⟩)
  else if 2 ≤ c.bitsLeft then do
    let b ← loadInput input c.cdata
    pure ((b >>> UInt8.ofNat (c.bitsLeft - 2)) &&& 3, ⟨c.cdata, c.bitsLeft - 2⟩)
  -- one bit is left
  else do
    let high ← loadInput input c.cdata
    let low ← loadInput input (c.cdata - 1)
    pure (((high &&& 1) <<< 1) ||| (low >>> 7), ⟨c.cdata - 1, 7⟩)

/-- The loop of `read_max_8`. -/
def readMax8Loop : ℕ → LaylaDecompressorCursor → ℕ → UInt8 →
    ExecM Machine Error (UInt8 × LaylaDecompressorCursor)
  | 0, c, _, res => pure (res, c)
  | rounds + 1, c, bits, res => do
    let b ← loadInput input c.cdata
    let part ← piece8 b c.bitsLeft (min bits c.bitsLeft)
    if bits - min bits c.bitsLeft = 0 then
      pure ((res <<< UInt8.ofNat (min bits c.bitsLeft)) ||| part,
        ⟨c.cdata, c.bitsLeft - min bits c.bitsLeft⟩)
    else
      readMax8Loop rounds ⟨c.cdata - 1, 8⟩ (bits - min bits c.bitsLeft)
        ((res <<< UInt8.ofNat (min bits c.bitsLeft)) ||| part)

/-- `read_max_8`. -/
def readMax8 (c : LaylaDecompressorCursor) (bits : ℕ) :
    ExecM Machine Error (UInt8 × LaylaDecompressorCursor) :=
  readMax8Loop input 2 (c.refill 8) bits 0

end LaylaDecompressorCursor

/-! ## The decompressor -/

namespace LaylaDecompressor

open LaylaDecompressorCursor

/-- `LAYLA_HEADER_MAGIC`, the bytes `CRILAYLA`. -/
def headerMagic : UInt64 := 0x414C59414C495243

/-- The size of `LaylaHeader`. -/
def laylaHeaderSize : ℕ := 16

/-- `UNCOMPRESSED_DATA_SIZE`. -/
def uncompressedDataSize : ℕ := 0x100

/-- `MIN_COPY_LENGTH`. -/
def minCopyLength : ℕ := 3

/-- `DEFAULT_PIPELINE_LENGTH`. -/
def defaultPipelineLength : ℕ := 3

/-- `EXTRA_PIPELINE_LENGTH`. -/
def extraPipelineLength : ℕ := 8

/-- `LaylaHeader`. -/
structure LaylaHeader where
  magic : UInt64
  uncompressedSize : UInt32
  uncompressedHeaderOffset : UInt32
  deriving DecidableEq, Repr

/-- `LaylaHeader::from_stream`: the header at the start of the input slice. -/
def fromStream (input : List UInt8) : Exec Error LaylaHeader := do
  let magic ← fromSliceU64 .littleEndian input 0
  let uncompressedSize ← fromSliceU32 .littleEndian input 8
  let uncompressedHeaderOffset ← fromSliceU32 .littleEndian input 12
  pure ⟨magic, uncompressedSize, uncompressedHeaderOffset⟩

variable (input : List UInt8)

/-- Copy the byte `offset` above an output position to the position. -/
def copyByte (p : ℤ) (offset : ℕ) : ExecM Machine Error Unit := do
  let b ← loadOutput (p + offset)
  storeOutput p b

/-- Copy bytes one by one downward, returning the position reached. -/
def copyLoop (offset : ℕ) : ℕ → ℤ → ExecM Machine Error ℤ
  | 0, p => pure p
  | count + 1, p => do
    copyByte p offset
    copyLoop offset count (p - 1)

/-- The LZ77 copy: three bytes at once, then the rest of a short copy one by one, or five more
at once and the rest of a long copy one by one. -/
def copyMatch (pwrite : ℤ) (offset length : ℕ) : ExecM Machine Error ℤ := do
  copyByte pwrite offset
  copyByte (pwrite - 1) offset
  copyByte (pwrite - 2) offset
  if length < extraPipelineLength then
    copyLoop offset (length - defaultPipelineLength) (pwrite - defaultPipelineLength)
  else do
    copyByte (pwrite - 3) offset
    copyByte (pwrite - 4) offset
    copyByte (pwrite - 5) offset
    copyByte (pwrite - 6) offset
    copyByte (pwrite - 7) offset
    copyLoop offset (length - extraPipelineLength) (pwrite - extraPipelineLength)

/-- The 8-bit levels of a length: they go on as long as the level is 255. Every level moves the
cursor down, so a read below the input slice ends the loop before the fuel does. -/
def readLevels : ℕ → ℕ → LaylaDecompressorCursor →
    ExecM Machine Error (ℕ × LaylaDecompressorCursor)
  | 0, _, _ => ExecM.lift .fault
  | fuel + 1, length, c => do
    let level ← read8 input c
    if level.1 ≠ 255 then pure (length + level.1.toNat, level.2)
    else readLevels fuel (length + level.1.toNat) level.2

/-- The length of a copy, by the levels of 2, 3, 5 and then 8 bits. -/
def readLength (c : LaylaDecompressorCursor) :
    ExecM Machine Error (ℕ × LaylaDecompressorCursor) := do
  let level₂ ← read2 input c
  if level₂.1 ≠ 3 then pure (minCopyLength + level₂.1.toNat, level₂.2)
  else do
    let level₃ ← readMax8 input level₂.2 3
    if level₃.1 ≠ 7 then pure (minCopyLength + level₂.1.toNat + level₃.1.toNat, level₃.2)
    else do
      let level₅ ← readMax8 input level₃.2 5
      if level₅.1 ≠ 0x1f then
        pure (minCopyLength + level₂.1.toNat + level₃.1.toNat + level₅.1.toNat, level₅.2)
      else
        readLevels input (level₅.2.cdata.toNat + 1)
          (minCopyLength + level₂.1.toNat + level₃.1.toNat + level₅.1.toNat) level₅.2

/-- One turn of the loop: a copy or a literal byte, returning the new write position. -/
def step (pwrite : ℤ) (c : LaylaDecompressorCursor) :
    ExecM Machine Error (ℤ × LaylaDecompressorCursor) := do
  let flag ← read1 input c
  if flag.1 then do
    let offset ← read13 input flag.2
    let length ← readLength input offset.2
    let pwrite ← copyMatch pwrite (offset.1.toNat + minCopyLength) length.1
    pure (pwrite, length.2)
  else do
    let byte ← read8 input flag.2
    storeOutput pwrite byte.1
    pure (pwrite - 1, byte.2)

/-- The loop of `LaylaDecompressorImpl::decompress`, while the write position is not below the
end of the prefix. Every turn lowers it, so the loop ends before the fuel does. -/
def loop : ℕ → ℤ → LaylaDecompressorCursor → ExecM Machine Error Unit
  | 0, _, _ => ExecM.lift .fault
  | fuel + 1, pwrite, c =>
    if (uncompressedDataSize : ℤ) ≤ pwrite then do
      let next ← step input pwrite c
      loop fuel next.1 next.2
    else pure ()

/-- `LaylaDecompressorImpl::decompress`: copy the prefix, then decompress downward from the end
of the output buffer. -/
def run (header : LaylaHeader) : ExecM Machine Error Unit := do
  let pre ← readInput input (laylaHeaderSize + header.uncompressedHeaderOffset.toNat)
    uncompressedDataSize
  writePrefix pre
  loop input (header.uncompressedSize.toNat + 1)
    (uncompressedDataSize + header.uncompressedSize.toNat - 1)
    ⟨laylaHeaderSize + header.uncompressedHeaderOffset.toNat, 0⟩

/-- `LaylaDecompressor::is_compressed`. -/
def isCompressed : Exec Error Bool :=
  if laylaHeaderSize ≤ input.length then do
    let magic ← fromSliceU64 .littleEndian input 0
    pure (magic == headerMagic)
  else pure false

/-- `LaylaDecompressor::decompress`. -/
def decompress : ExecM FreeList Error (List UInt8) := do
  let header ← ExecM.lift (fromStream input)
  let node ← FreeList.allocate (header.uncompressedSize.toNat + uncompressedDataSize)
  let list ← ExecM.get
  let done ← ExecM.lift ((run input header).runOn ⟨list.contents node, []⟩)
  FreeList.overwrite node done.2.output
  FreeList.release node
  pure done.2.output

end LaylaDecompressor

end CriArchive
