import CriArchive.Lib.Exec

set_option relaxedAutoImplicit false
set_option autoImplicit false

/-!
# Errors

The error values the crate boxes and returns, from `schema`, `cpk/header.rs`, `cpk/reader.rs`
and `cpk/writer.rs`, as one type. An error keeps the values that its text prints; the texts
themselves are left out.

## Main definitions

* `CpkChunkKind` — the kinds of archive chunks and their magic numbers.
* `CpkTableError`, `CpkReaderError`, `CpkWriterError` — the errors of the three modules.
* `ConsistencyCheck` — the internal checks of the writer, kept apart from the errors of input
  validation although the source reports both with the same values.
* `Error` — a boxed error.
-/

namespace CriArchive

/-- A path of the host file system, as the bytes of its `OsStr`. -/
abbrev PathBuf : Type := List UInt8

/-- The kind of a chunk, read from its four magic bytes. -/
inductive CpkChunkKind where
  | cpk
  | toc
  | itoc
  | etoc
  | gtoc
  | unknown (magic : List UInt8)
  deriving DecidableEq, Repr

namespace CpkChunkKind

/-- The kind with a given magic number: `CPK `, `TOC `, `ITOC`, `ETOC`, `GTOC` or another. -/
def fromMagic (magic : List UInt8) : CpkChunkKind :=
  if magic = [0x43, 0x50, 0x4b, 0x20] then cpk
  else if magic = [0x54, 0x4f, 0x43, 0x20] then toc
  else if magic = [0x49, 0x54, 0x4f, 0x43] then itoc
  else if magic = [0x45, 0x54, 0x4f, 0x43] then etoc
  else if magic = [0x47, 0x54, 0x4f, 0x43] then gtoc
  else unknown magic

/-- The magic number of a kind. -/
def magic : CpkChunkKind → List UInt8
  | cpk => [0x43, 0x50, 0x4b, 0x20]
  | toc => [0x54, 0x4f, 0x43, 0x20]
  | itoc => [0x49, 0x54, 0x4f, 0x43]
  | etoc => [0x45, 0x54, 0x4f, 0x43]
  | gtoc => [0x47, 0x54, 0x4f, 0x43]
  | unknown magic => magic

/-- Reading the magic number of a kind gives the kind back. -/
theorem fromMagic_magic_of_ne {k : CpkChunkKind} (h : ∀ m, k ≠ unknown m) :
    fromMagic k.magic = k := by
  cases k with
  | unknown m => exact absurd rfl (h m)
  | _ => rfl

end CpkChunkKind

/-- `CpkTableError` of `cpk/header.rs`, by the message it carries. -/
inductive CpkTableError where
  | tooLargeForPlatform (size : ℕ)
  | invalidTableSize (kind : CpkChunkKind) (size : ℕ)
  | headerAreaExceeded (size : ℕ)
  | truncatedChunk (kind : CpkChunkKind) (declared remaining : ℕ)
  | notUtfTable (kind : CpkChunkKind)
  | invalidOrTruncated
  | sizeOverflow
  | truncatedTable (declared available : ℕ)
  | invalidSectionOffsets
  | rowSizeOverflow
  | rowOffsetOverflow
  | rowsOverlapStringPool
  | columnsOverlapRows
  | rowSchemaOverflow
  | rowSchemaExceedsRowSize
  deriving DecidableEq, Repr

/-- `CpkReaderError` of `cpk/reader.rs`. -/
inductive CpkReaderError where
  | invalidHeaderChunk
  | missingContentOffset
  | missingFileName
  | missingFileSize
  | missingFileOffset
  | missingTocAndItoc
  | invalidTocColumn (name : String)
  | invalidItoc
  | itocContentOffsetTooLarge (offset : UInt64)
  | fileTooLarge (size : UInt64)
  | getFilesNotCalled
  deriving DecidableEq, Repr

/-- `CpkWriterError` of `cpk/writer.rs`. -/
inductive CpkWriterError where
  | invalidAlignment (value : UInt32)
  | emptyInput
  | headerTooLarge (size : ℕ)
  | fileTooLarge (path : PathBuf) (size : UInt64)
  | tooManyFiles (count : ℕ)
  | nonUtf8Path (path : PathBuf)
  | unsupportedP5rEncryption
  | arithmeticOverflow
  | duplicateItocId (id : UInt32)
  | itocIdTooLarge (id : UInt32)
  | itocContentOffsetTooLarge (offset : UInt64)
  | invalidRawPayload (path : PathBuf)
  deriving DecidableEq, Repr

/-- The internal checks of the writer: conditions that its own planning should have settled. -/
inductive ConsistencyCheck where
  /-- The probe table and the final table have different lengths. -/
  | probeLength
  /-- The stream position lies past the planned start of a payload. -/
  | payloadTarget
  /-- A size of a `DataL` row does not fit 16 bits. -/
  | dataLowSize
  /-- An ITOC ID does not fit 16 bits after the physical order was built. -/
  | itocId
  deriving DecidableEq, Repr

/-- A boxed error. -/
inductive Error where
  /-- `io::ErrorKind::UnexpectedEof`: a read that could not fill its buffer. -/
  | unexpectedEof
  /-- `io::Error` of opening or reading a file of the host file system. -/
  | fileAccess (path : PathBuf)
  /-- `io::Error` of a seek to an offset that is negative as a signed number. -/
  | invalidSeek (path : PathBuf)
  /-- `io::ErrorKind::InvalidData`, "unsupported CRI UTF column type". -/
  | unsupportedColumnType
  /-- `io::ErrorKind::InvalidData`, "CRI UTF row offset overflow". -/
  | rowPositionOverflow
  /-- `io::ErrorKind::UnexpectedEof` of the writer: a source emitted `wrote` bytes where its
  entry promised `expected`. -/
  | packedSizeChanged (path : PathBuf) (expected : UInt32) (wrote : ℕ)
  /-- `StringPoolError`, "unterminated CRI string". -/
  | unterminatedString
  /-- `std::str::Utf8Error`. -/
  | invalidUtf8
  | table (e : CpkTableError)
  | reader (e : CpkReaderError)
  | writer (e : CpkWriterError)
  /-- The writer error `e`, returned by an internal check. -/
  | inconsistent (check : ConsistencyCheck) (e : CpkWriterError)
  deriving DecidableEq, Repr

end CriArchive
