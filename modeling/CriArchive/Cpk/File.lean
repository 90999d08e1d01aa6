import CriArchive.Error

set_option relaxedAutoImplicit false
set_option autoImplicit false

/-!
# Archive entries

`cpk/file.rs`: an entry as the reader returns it.

## Main definitions

* `CpkFile`, `CpkFile.new` — an entry; an extract size of zero stands for the packed size.
-/

namespace CriArchive

/-- An entry of an archive. -/
structure CpkFile where
  directory : String
  fileName : String
  /-- The offset stored by the table. -/
  fileOffset : UInt64
  /-- The offset from the beginning of the archive. -/
  absoluteOffset : UInt64
  fileSize : UInt32
  extractSize : UInt32
  id : Option UInt32
  userString : String
  fileCrc : Option UInt32
  deriving DecidableEq, Repr

/-- `CpkFile::new`. -/
def CpkFile.new (directory fileName : String) (fileOffset absoluteOffset : UInt64)
    (fileSize extractSize : UInt32) (id : Option UInt32) (userString : String)
    (fileCrc : Option UInt32) : CpkFile where
  directory := directory
  fileName := fileName
  fileOffset := fileOffset
  absoluteOffset := absoluteOffset
  fileSize := fileSize
  extractSize := if extractSize = 0 then fileSize else extractSize
  id := id
  userString := userString
  fileCrc := fileCrc

end CriArchive
