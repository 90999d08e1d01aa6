import CriArchive.Error
import CriArchive.Lib.Utf8
import CriArchive.Lib.Layout
import CriArchive.Schema.Columns
import CriArchive.Schema.Strings
import CriArchive.Cpk.Header
import CriArchive.Cpk.Codec
import CriArchive.Cpk.Encrypt
import CriArchive.Cpk.Compress.Layla
import CriArchive.Cpk.Reader
import CriArchive.Cpk.Blocks
import CriArchive.Cpk.Positions
import CriArchive.Cpk.RoundTrip.Reuse
import CriArchive.Cpk.RoundTrip.Lookup
import CriArchive.Cli.Path
import CriArchive.Cli.Unpack
import CriArchive.Cpk.Compress.Cursor
import CriArchive.Cli.HexFields
import CriArchive.Cpk.TableEncryption
import CriArchive.Cpk.Relocation
import CriArchive.Cli.RoundTrip
import CriArchive.Cpk.Bitmap
import CriArchive.Cpk.Capacity
import CriArchive.Acb.Agreement
import CriArchive.Acb.Faults
import CriArchive.Cli.Repack
import CriArchive.Cli.Failure
import CriArchive.Cli.Detection
import CriArchive.Cli.Reproduce
import CriArchive.Cpk.Appended
import CriArchive.Validator.Agreement
