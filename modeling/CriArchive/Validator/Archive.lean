import CriArchive.Validator.Table
import CriArchive.Cpk.RoundTrip.Archive
import Mathlib.Data.Nat.Bitwise

set_option relaxedAutoImplicit false
set_option autoImplicit false

/-!
# The archives of the layout validator

The second half of the building part of `tools/validate_cpk_layout.py`: archives are laid out and
put out by a second implementation, which knows neither the library nor its types.

## Main definitions

* `Validator.Entry` — an entry of the script.
* `Validator.align`, `Validator.chunk` — rounding up by a mask; table chunks.
* `Validator.itocOrder`, `Validator.buildItoc` — the order of the payloads, and the ID table.
* `Validator.buildArchive` — the function `build_archive`.
-/

namespace CriArchive

namespace Validator

open Endian

/-- `INDEX_BASE`. -/
def indexBase : ℕ := 0x800

/-- `Entry`. -/
structure Entry where
  directory : String
  name : String
  payload : List UInt8
  entryId : ℕ
  extractSize : Option ℕ
  user : String
  deriving DecidableEq, Repr

/-- `packed_size`. -/
def Entry.packedSize (entry : Entry) : ℕ := entry.payload.length

/-- `unpacked_size`. -/
def Entry.unpackedSize (entry : Entry) : ℕ := entry.extractSize.getD entry.payload.length

/-- `align`, where the complement of the mask is zero when the alignment is. -/
def align (value alignment : ℕ) : ℕ :=
  if alignment = 0 then 0 else Nat.ldiff (value + alignment - 1) (alignment - 1)

/-- `chunk`. -/
def chunk (magic table : List UInt8) : Option (List UInt8) := do
  let size ← packLittle 8 table.length
  pure (magic ++ List.replicate 4 0xff ++ size ++ table)

/-! ## The ID table -/

/-- The key of `sorted`. -/
def idAt (entries : List Entry) (index : ℕ) : ℕ := (entries[index]?.map Entry.entryId).getD 0

/-- `itoc_order`. -/
def itocOrder (entries : List Entry) : Option (List ℕ) :=
  if (entries.map Entry.entryId).Nodup ∧ ∀ entry ∈ entries, entry.entryId ≤ 0xffff then
    some ((List.range entries.length).mergeSort fun i j => idAt entries i ≤ idAt entries j)
  else none

/-- The order in which `build_archive` puts out the payloads. -/
def payloadOrder (entries : List Entry) (hasItoc : Bool) : Option (List ℕ) :=
  if hasItoc then itocOrder entries else some (List.range entries.length)

/-- `build_itoc_rows`. -/
def buildItocRows (entries : List Entry) (indices : List ℕ) (low : Bool) (name : String) :
    Option (List UInt8) := do
  let sizeType := if low then ColumnType.u16 else .u32
  let rows ← indices.mapM fun index => do
    let entry ← entries[index]?
    pure [Value.int entry.entryId, .int entry.packedSize, .int entry.unpackedSize]
  buildUtf name [("ID", .u16), ("FileSize", sizeType), ("ExtractSize", sizeType)] rows

/-- Whether both sizes fit 16 bits. -/
def Entry.isLow (entry : Entry) : Bool :=
  entry.packedSize ≤ 0xffff && entry.unpackedSize ≤ 0xffff

/-- `build_itoc`. -/
def buildItoc (entries : List Entry) (order : List ℕ) (direct : Bool) : Option (List UInt8) :=
  if direct then buildItocRows entries order false "CpkExtendId"
  else do
    let low := order.filter fun index => entries[index]?.any Entry.isLow
    let high := order.filter fun index => index ∉ low
    let dataL ← buildItocRows entries low true "CpkItocL"
    let dataH ← buildItocRows entries high false "CpkItocH"
    buildUtf "CpkItocInfo" [("DataL", .data), ("DataH", .data)] [[.bytes dataL, .bytes dataH]]

/-! ## The other tables -/

/-- `toc_columns`. -/
def tocColumns : List (String × ColumnType) :=
  [("DirName", .str), ("FileName", .str), ("FileSize", .u32), ("ExtractSize", .u32),
    ("FileOffset", .u64), ("ID", .u32), ("UserString", .str)]

/-- A row of the table of contents. -/
def tocRow (entry : Entry) (offset : ℕ) : List Value :=
  [.str entry.directory, .str entry.name, .int entry.packedSize, .int entry.unpackedSize,
    .int offset, .int entry.entryId, .str entry.user]

/-- The table of contents with given offsets. -/
def buildToc (entries : List Entry) (offsets : List ℕ) : Option (List UInt8) :=
  buildUtf "CpkTocInfo" tocColumns (List.zipWith tocRow entries offsets)

/-- A difference that is stored: `struct.pack` refuses a negative number. -/
def difference (a b : ℕ) : Option ℕ := if b ≤ a then some (a - b) else none

/-- `header_columns`. -/
def headerColumns : List (String × ColumnType) :=
  [("UpdateDateTime", .u64), ("FileSize", .u64), ("ContentOffset", .u64), ("ContentSize", .u64),
    ("TocOffset", .u64), ("TocSize", .u64), ("EtocOffset", .u64), ("EtocSize", .u64),
    ("ItocOffset", .u64), ("ItocSize", .u64), ("GtocOffset", .u64), ("GtocSize", .u64),
    ("Files", .u32), ("Version", .u16), ("Revision", .u16), ("Align", .u16), ("Sorted", .u16),
    ("EID", .u16), ("EnableFileName", .u16), ("CpkMode", .u32), ("Tvers", .str), ("Comment", .str),
    ("Codec", .u32), ("DpkItoc", .u32), ("EnableTocCrc", .u16), ("EnableFileCrc", .u16)]

/-- `header_row`. -/
def headerRow (count archiveSize contentOffset contentSize tocOffset tocSize itocOffset itocSize
    alignment : ℕ) (hasToc hasItoc direct : Bool) : List Value :=
  [.int 0, .int archiveSize, .int contentOffset, .int contentSize, .int tocOffset, .int tocSize,
    .int 0, .int 0, .int itocOffset, .int itocSize, .int 0, .int 0, .int count, .int 7, .int 0,
    .int alignment, .int 0, .int (hasItoc && direct).toNat, .int hasToc.toNat,
    .int (if hasToc && hasItoc then 2 else if hasToc then 1 else 0), .str "7.0.0",
    .str "Created by cri-cpk-cli", .int 0, .int 0, .int 0, .int 0]

/-! ## The archive -/

/-- Where a table goes, and where the next part starts. -/
def placeTable (alignment cursor : ℕ) : Option (List UInt8) → ℕ × ℕ
  | none => (0, cursor)
  | some table => (cursor, align (cursor + 0x10 + table.length) alignment)

/-- The loop that sets `absolute_offsets`, with the cursor. -/
def placeEntries (entries : List Entry) (alignment : ℕ) :
    List ℕ → List ℕ × ℕ → Option (List ℕ × ℕ)
  | [], placed => some placed
  | index :: order, placed => do
    let entry ← entries[index]?
    placeEntries entries alignment order
      (placed.1.set index placed.2, align (placed.2 + entry.packedSize) alignment)

/-- `output.extend(b"\0" * (position - len(output)))`. -/
def extendTo (position : ℕ) (output : List UInt8) : List UInt8 :=
  output ++ List.replicate (position - output.length) 0

/-- An index chunk at its offset. -/
def putChunk (offset : ℕ) : Option (List UInt8) → List UInt8 → List UInt8
  | none, output => output
  | some bytes, output => extendTo offset output ++ bytes

/-- The loop that puts out the payloads. -/
def putPayloads (entries : List Entry) (offsets : List ℕ) :
    List ℕ → List UInt8 → Option (List UInt8)
  | [], output => some output
  | index :: order, output => do
    let offset ← offsets[index]?
    let entry ← entries[index]?
    putPayloads entries offsets order (extendTo offset output ++ entry.payload)

/-- A table that is only built when it is asked for. -/
def buildIf (wanted : Bool) (table : Option (List UInt8)) : Option (Option (List UInt8)) :=
  if wanted then table.map some else some none

/-- The chunk of a table that was built. -/
def chunkIf (magic : List UInt8) : Option (List UInt8) → Option (Option (List UInt8))
  | none => some none
  | some table => (chunk magic table).map some

/-- `build_archive`: the bytes, the offsets of the payloads and their order. -/
def buildArchive (entries : List Entry) (hasToc hasItoc direct : Bool) (alignment : ℕ) :
    Option (List UInt8 × List ℕ × List ℕ) := do
  guard (hasToc || hasItoc)
  let order ← payloadOrder entries hasItoc
  let tocProbe ← buildIf hasToc (buildToc entries (List.replicate entries.length 0))
  let itocProbe ← buildIf hasItoc (buildItoc entries order direct)
  let tocPlace := placeTable alignment indexBase tocProbe
  let itocPlace := placeTable alignment tocPlace.2 itocProbe
  let contentOffset := align itocPlace.2 alignment
  let placed ← placeEntries entries alignment order
    (List.replicate entries.length 0, contentOffset)
  let archiveSize := placed.2
  let toc ← buildIf hasToc do
    buildToc entries (← placed.1.mapM (difference · indexBase))
  guard (toc.map List.length = tocProbe.map List.length)
  let itoc ← buildIf hasItoc (buildItoc entries order direct)
  guard (itoc.map List.length = itocProbe.map List.length)
  let tocChunk ← chunkIf "TOC ".asBytes toc
  let itocChunk ← chunkIf "ITOC".asBytes itoc
  let contentSize ← difference archiveSize contentOffset
  let header ← buildUtf "CpkHeader" headerColumns [headerRow entries.length archiveSize
    contentOffset contentSize tocPlace.1 (tocChunk.elim 0 List.length) itocPlace.1
    (itocChunk.elim 0 List.length) alignment hasToc hasItoc direct]
  let headerChunk ← chunk "CPK ".asBytes header
  guard (headerChunk.length ≤ 0x7fa)
  let output := extendTo indexBase headerChunk
  let output := output.take 0x7fa ++ "(c)CRI".asBytes ++ output.drop 0x800
  let output := putChunk tocPlace.1 tocChunk output
  let output := putChunk itocPlace.1 itocChunk output
  let output ← putPayloads entries placed.1 order (extendTo contentOffset output)
  pure (extendTo archiveSize output, placed.1, order)

end Validator

end CriArchive
