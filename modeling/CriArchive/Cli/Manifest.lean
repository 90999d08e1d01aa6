import CriArchive.Cli.Path
import CriArchive.Lib.Bytes
import CriArchive.Lib.Text

set_option relaxedAutoImplicit false
set_option autoImplicit false

/-!
# The manifest of an unpacked archive

`manifest.rs` of the command line: what unpacking keeps beside the files so that they can be
packed again, and the text in which it is kept.

## Main definitions

* `ManifestEntry`, `Manifest` — the manifest.
* `Manifest.encode`, `parseManifest` — its text, written and read.
* `Manifest.write`, `Manifest.read` — its file, written and read.

## Main results

* `parseManifest_encode` — a manifest that was written is read.
* `Manifest.write_apply` — the files after a manifest was written.
* `Manifest.read_write` — a manifest that was written is read back from its file.
-/

namespace CriArchive

open StdPath

/-! ## The manifest -/

/-- `ManifestEntry` -/
structure ManifestEntry where
  directory : String
  fileName : String
  id : UInt32
  userString : String
  extractedSize : UInt64
  extractedHash : UInt64
  packedSize : UInt32
  packedOffset : UInt64
  packedHash : UInt64
  deriving DecidableEq, Repr

/-- `Manifest` -/
structure Manifest where
  sourceArchive : PathBuf
  archiveSize : UInt64
  archiveHash : UInt64
  alignment : UInt16
  hasToc : Bool
  hasItoc : Bool
  directItoc : Bool
  p5r : Bool
  version : UInt16
  revision : UInt16
  updateDateTime : UInt64
  entries : List ManifestEntry
  deriving DecidableEq, Repr

/-- `MANIFEST_FILE_NAME` -/
def manifestFileName : List UInt8 := ".cri-cpk-manifest-v2".asBytes

/-- `LEGACY_MANIFEST_FILE_NAME` -/
def legacyManifestFileName : List UInt8 := ".cri-cpk-manifest-v1".asBytes

/-- `MANIFEST_MAGIC` -/
def manifestMagic : String := "CRI_CPK_MANIFEST_V2"

/-- `Manifest::path` -/
def Manifest.path (host : Host) (root : PathBuf) : PathBuf := join host root manifestFileName

/-- `with_extension("tmp")` of the path of a manifest. The only dot of the manifest's name is its
first byte, so the name has no extension that is replaced. -/
def temporaryPath (host : Host) (root : PathBuf) : PathBuf :=
  Manifest.path host root ++ ".tmp".asBytes

/-! ## Writing the text -/

/-- `encode_field` -/
def encodeField (value : String) : List UInt8 :=
  value.asBytes.flatMap fun byte => Text.padded 16 2 byte.toNat

/-- The format `{:016x}`. -/
def hex64 (value : UInt64) : List UInt8 := Text.padded 16 16 value.toNat

/-- The format of `u8::from(flag)`. -/
def flagText (flag : Bool) : List UInt8 := Text.decimal flag.toNat

/-- A key and its value, with a tabulator between them. -/
def keyLine (key : String) (value : List UInt8) : List UInt8 := key.asBytes ++ 0x09 :: value

/-- The fields of the record of an entry. -/
def ManifestEntry.fields (e : ManifestEntry) : List (List UInt8) :=
  ["entry".asBytes, Text.decimal e.id.toNat, Text.decimal e.extractedSize.toNat,
    hex64 e.extractedHash, Text.decimal e.packedSize.toNat, Text.decimal e.packedOffset.toNat,
    hex64 e.packedHash, encodeField e.directory, encodeField e.fileName, encodeField e.userString]

/-- The record of an entry. -/
def ManifestEntry.line (e : ManifestEntry) : List UInt8 := [0x09].intercalate e.fields

/-- The lines before the records. -/
def Manifest.headerLines (lossy : PathBuf → String) (m : Manifest) : List (List UInt8) :=
  [manifestMagic.asBytes,
    keyLine "source" (encodeField (lossy m.sourceArchive)),
    keyLine "archive_size" (Text.decimal m.archiveSize.toNat),
    keyLine "archive_hash" (hex64 m.archiveHash),
    keyLine "alignment" (Text.decimal m.alignment.toNat),
    keyLine "has_toc" (flagText m.hasToc),
    keyLine "has_itoc" (flagText m.hasItoc),
    keyLine "direct_itoc" (flagText m.directItoc),
    keyLine "p5r" (flagText m.p5r),
    keyLine "version" (Text.decimal m.version.toNat),
    keyLine "revision" (Text.decimal m.revision.toNat),
    keyLine "update_date_time" (Text.decimal m.updateDateTime.toNat)]

/-- The text of a manifest. -/
def Manifest.encode (lossy : PathBuf → String) (m : Manifest) : List UInt8 :=
  (m.headerLines lossy ++ m.entries.map ManifestEntry.line).flatMap (· ++ [0x0a])

/-- `Manifest::write` -/
def Manifest.write (sys : HostSystem) (m : Manifest) (root : PathBuf) :
    ExecM FileSystem CliError Unit := do
  writeFile (temporaryPath sys.host root) (m.encode sys.lossy)
  removeExisting (Manifest.path sys.host root)
  renameFile (temporaryPath sys.host root) (Manifest.path sys.host root)

/-! ## Reading the text -/

/-- `invalid_data` -/
def invalidData {α : Type} (text : String) : Exec CliError α := .err (.message text)

/-- A value, or an error with a text. -/
def valid {α : Type} (x : Option α) (text : String) : Exec CliError α := Exec.okOr x (.message text)

/-- The next item of an iterator. -/
def nextItem : ExecM (List (List UInt8)) CliError (Option (List UInt8)) :=
  fun items => (.ok items.head?, items.tail)

/-- `required_value` -/
def requiredValue (key : String) : ExecM (List (List UInt8)) CliError (List UInt8) := do
  let line ← nextItem
  let line ← ExecM.lift (valid line ("manifest is missing " ++ key))
  ExecM.lift (Exec.errIf ((Text.splitOnce 0x09 line).1 ≠ key.asBytes)
    (.message ("manifest expected " ++ key)))
  ExecM.lift (valid (Text.splitOnce 0x09 line).2 ("manifest " ++ key ++ " has no value"))

/-- `next_field` -/
def nextField (name : String) : ExecM (List (List UInt8)) CliError (List UInt8) := do
  let field ← nextItem
  ExecM.lift (valid field ("manifest is missing " ++ name))

/-- `parse_u64` -/
def parseU64 (value : List UInt8) (name : String) : Exec CliError UInt64 :=
  valid ((Text.parseRadix 10 (2 ^ 64) value).map UInt64.ofNat) ("invalid manifest " ++ name)

/-- `parse_hex_u64` -/
def parseHexU64 (value : List UInt8) (name : String) : Exec CliError UInt64 :=
  valid ((Text.parseRadix 16 (2 ^ 64) value).map UInt64.ofNat) ("invalid manifest " ++ name)

/-- `parse_bool` -/
def parseBool (value : List UInt8) (name : String) : Exec CliError Bool :=
  if value = [0x30] then pure false
  else if value = [0x31] then pure true
  else invalidData ("invalid manifest " ++ name)

/-- A byte inside a character. -/
def isContinuation (b : UInt8) : Bool := b &&& 0xc0 == 0x80

/-- The loop of `decode_field` over a text of even length. Cutting a character in two panics. -/
def decodePairs : List UInt8 → Exec CliError (List UInt8)
  | high :: low :: rest =>
    if rest.head?.any isContinuation then .fault
    else do
      let byte ← valid (Text.parseRadix 16 (2 ^ 8) [high, low]) "invalid hex string in CPK manifest"
      let bytes ← decodePairs rest
      pure (UInt8.ofNat byte :: bytes)
  | _ => pure []

/-- `decode_field` -/
def decodeField (value : List UInt8) : Exec CliError String := do
  Exec.errIf (value.length % 2 ≠ 0) (.message "invalid hex string in CPK manifest")
  let bytes ← decodePairs value
  valid (Utf8.decode bytes) "manifest string is not UTF-8"

/-- The record of an entry, from its fields. -/
def parseFields : ExecM (List (List UInt8)) CliError ManifestEntry := do
  let kind ← nextItem
  ExecM.lift (Exec.errIf (kind ≠ some "entry".asBytes) (.message "unknown CPK manifest record"))
  let id ← nextField "entry ID"
  let id ← ExecM.lift (parseU64 id "entry ID")
  let extractedSize ← nextField "extracted size"
  let extractedSize ← ExecM.lift (parseU64 extractedSize "extracted size")
  let extractedHash ← nextField "extracted hash"
  let extractedHash ← ExecM.lift (parseHexU64 extractedHash "extracted hash")
  let packedSize ← nextField "packed size"
  let packedSize ← ExecM.lift (parseU64 packedSize "packed size")
  let packedOffset ← nextField "packed offset"
  let packedOffset ← ExecM.lift (parseU64 packedOffset "packed offset")
  let packedHash ← nextField "packed hash"
  let packedHash ← ExecM.lift (parseHexU64 packedHash "packed hash")
  let directory ← nextField "entry directory"
  let directory ← ExecM.lift (decodeField directory)
  let fileName ← nextField "entry file name"
  let fileName ← ExecM.lift (decodeField fileName)
  let userString ← nextField "entry user string"
  let userString ← ExecM.lift (decodeField userString)
  let rest ← ExecM.get
  ExecM.lift (Exec.errIf (rest ≠ []) (.message "too many fields in CPK manifest entry"))
  let id ← ExecM.lift (valid (UInt32.tryFrom id.toNat) "manifest entry ID exceeds u32")
  let packedSize ← ExecM.lift
    (valid (UInt32.tryFrom packedSize.toNat) "manifest packed size exceeds u32")
  pure
    { directory, fileName, id, userString, extractedSize, extractedHash, packedSize, packedOffset
      packedHash }

/-- The loop over the records. -/
def parseEntries : List (List UInt8) → Exec CliError (List ManifestEntry)
  | [] => pure []
  | line :: lines =>
    if line = [] then parseEntries lines
    else do
      let entry ← (parseFields (line.splitOn 0x09)).1
      let entries ← parseEntries lines
      pure (entry :: entries)

/-- A manifest, from its lines. -/
def parseLines : ExecM (List (List UInt8)) CliError Manifest := do
  let sourceArchive ← requiredValue "source"
  let sourceArchive ← ExecM.lift (decodeField sourceArchive)
  let archiveSize ← requiredValue "archive_size"
  let archiveSize ← ExecM.lift (parseU64 archiveSize "archive_size")
  let archiveHash ← requiredValue "archive_hash"
  let archiveHash ← ExecM.lift (parseHexU64 archiveHash "archive_hash")
  let alignment ← requiredValue "alignment"
  let alignment ← ExecM.lift (parseU64 alignment "alignment")
  let alignment ← ExecM.lift
    (valid (UInt16.tryFrom alignment.toNat) "manifest alignment exceeds u16")
  let hasToc ← requiredValue "has_toc"
  let hasToc ← ExecM.lift (parseBool hasToc "has_toc")
  let hasItoc ← requiredValue "has_itoc"
  let hasItoc ← ExecM.lift (parseBool hasItoc "has_itoc")
  let directItoc ← requiredValue "direct_itoc"
  let directItoc ← ExecM.lift (parseBool directItoc "direct_itoc")
  let p5r ← requiredValue "p5r"
  let p5r ← ExecM.lift (parseBool p5r "p5r")
  let version ← requiredValue "version"
  let version ← ExecM.lift (parseU64 version "version")
  let revision ← requiredValue "revision"
  let revision ← ExecM.lift (parseU64 revision "revision")
  let version ← ExecM.lift (valid (UInt16.tryFrom version.toNat) "manifest version exceeds u16")
  let revision ← ExecM.lift
    (valid (UInt16.tryFrom revision.toNat) "manifest revision exceeds u16")
  let updateDateTime ← requiredValue "update_date_time"
  let updateDateTime ← ExecM.lift (parseU64 updateDateTime "update_date_time")
  let records ← ExecM.get
  let entries ← ExecM.lift (parseEntries records)
  ExecM.lift (Exec.errIf (hasToc = false ∧ hasItoc = false)
    (.message "manifest contains neither TOC nor ITOC"))
  ExecM.lift (Exec.errIf (directItoc = true ∧ hasItoc = false)
    (.message "direct ITOC flag without ITOC"))
  pure
    { sourceArchive := sourceArchive.asBytes, archiveSize, archiveHash, alignment, hasToc, hasItoc
      directItoc, p5r, version, revision, updateDateTime, entries }

/-- A manifest, from its text. -/
def parseManifest (text : List UInt8) : Exec CliError Manifest :=
  match Text.lines text with
  | [] => invalidData "unsupported CPK manifest version"
  | magic :: lines =>
    if magic ≠ manifestMagic.asBytes then invalidData "unsupported CPK manifest version"
    else (parseLines lines).1

/-- `Manifest::read` -/
def Manifest.read (sys : HostSystem) (fs : FileSystem) (root : PathBuf) :
    Exec CliError (Option Manifest) :=
  match fs (Manifest.path sys.host root) with
  | none => pure none
  | some bytes => do
    let text ← Exec.okOr (Utf8.decode bytes) (.io (Manifest.path sys.host root))
    some <$> parseManifest text.asBytes

/-! ## Reading what was written -/

section RoundTrip

/-- A number is read back from its decimal digits. -/
theorem parseU64_decimal (v : UInt64) (name : String) :
    parseU64 (Text.decimal v.toNat) name = .ok v := by
  rw [parseU64, Text.parseRadix_decimal v.toNat_lt, Option.map_some, UInt64.ofNat_toNat]
  rfl

/-- A number is read back from its sixteen digits. -/
theorem parseHexU64_hex64 (v : UInt64) (name : String) : parseHexU64 (hex64 v) name = .ok v := by
  have hparse : Text.parseRadix 16 (2 ^ 64) (Text.padded 16 16 v.toNat) = some v.toNat :=
    Text.parseRadix_padded (by decide) (by decide) (by decide) v.toNat_lt v.toNat_lt
  rw [parseHexU64, hex64, hparse, Option.map_some, UInt64.ofNat_toNat]
  rfl

/-- A flag is read back from its text. -/
theorem parseBool_flagText (b : Bool) (name : String) : parseBool (flagText b) name = .ok b := by
  cases b <;> rfl

/-- Numbers of fewer bits are read by way of 64 bits. -/
theorem parseU64_decimal_uInt32 (v : UInt32) (name : String) :
    parseU64 (Text.decimal v.toNat) name = .ok v.toUInt64 := by
  rw [← UInt32.toNat_toUInt64, parseU64_decimal]

/-- A 16-bit number is read back from its decimal digits. -/
theorem parseU64_decimal_uInt16 (v : UInt16) (name : String) :
    parseU64 (Text.decimal v.toNat) name = .ok v.toUInt64 := by
  rw [← UInt16.toNat_toUInt64, parseU64_decimal]

/-- An ASCII byte is no part of a longer character. -/
theorem isContinuation_of_lt {b : UInt8} (h : b.toNat < 0x80) : isContinuation b = false := by
  have hall : ∀ n < 0x80, isContinuation (UInt8.ofNat n) = false := by decide
  rw [← UInt8.ofNat_toNat (x := b)]
  exact hall b.toNat h

/-- Bytes are read back from their pairs of digits. -/
theorem decodePairs_flatMap (bytes : List UInt8) :
    decodePairs (bytes.flatMap fun byte => Text.padded 16 2 byte.toNat) = .ok bytes := by
  induction bytes with
  | nil => rfl
  | cons b bytes ih =>
    obtain ⟨high, low, hpair⟩ : ∃ high low, Text.padded 16 2 b.toNat = [high, low] := ⟨_, _, rfl⟩
    have hparse : Text.parseRadix 16 (2 ^ 8) [high, low] = some b.toNat := by
      rw [← hpair]
      exact Text.parseRadix_padded (by decide) (by decide) (by decide) b.toNat_lt b.toNat_lt
    -- what follows starts with a digit
    have hhead : (bytes.flatMap fun byte => Text.padded 16 2 byte.toNat).head?.any isContinuation =
        false := by
      rw [Bool.eq_false_iff, ne_eq, Option.any_eq_true]
      rintro ⟨c, hc, hcontinuation⟩
      obtain ⟨d, -, hmem⟩ := List.mem_flatMap.mp (List.mem_of_head? hc)
      have hrange := Text.mem_padded (by decide) (by decide) hmem
      rw [isContinuation_of_lt (by omega)] at hcontinuation
      cases hcontinuation
    rw [List.flatMap_cons, hpair, List.cons_append, List.cons_append, List.nil_append, decodePairs,
      if_neg (by rw [hhead]; decide), hparse, valid, Exec.okOr_some, Exec.ok_bind, ih,
      Exec.ok_bind, UInt8.ofNat_toNat]
    rfl

/-- A string takes two digits for each byte. -/
theorem length_encodeField (value : String) :
    (encodeField value).length = 2 * value.asBytes.length := by
  rw [encodeField]
  induction value.asBytes with
  | nil => rfl
  | cons b bytes ih =>
    rw [List.flatMap_cons, List.length_append, ih, List.length_cons]
    have hpair : (Text.padded 16 2 b.toNat).length = 2 := rfl
    omega

/-- **An encoded field is decoded.** -/
theorem decodeField_encodeField (value : String) : decodeField (encodeField value) = .ok value := by
  have heven : ¬(encodeField value).length % 2 ≠ 0 := by
    rw [length_encodeField]
    omega
  rw [decodeField, Exec.errIf_of_not heven, Exec.ok_bind, encodeField, decodePairs_flatMap,
    Exec.ok_bind, String.asBytes, Utf8.decode_encode, String.ofList_toList]
  rfl

/-! ### Records -/

/-- A text without control characters, beyond which the bytes of ASCII go on to `DEL`. -/
def Printed (text : List UInt8) : Prop := ∀ b ∈ text, 0x20 ≤ b.toNat ∧ b.toNat < 0x80

/-- Padded digits are printed. -/
theorem printed_padded {radix : ℕ} (hpos : 0 < radix) (hradix : radix ≤ 16) (width n : ℕ) :
    Printed (Text.padded radix width n) := by
  intro b hb
  have hrange := Text.mem_padded hpos hradix hb
  omega

/-- Decimal digits are printed. -/
theorem printed_decimal (n : ℕ) : Printed (Text.decimal n) :=
  printed_padded (by decide) (by decide) _ n

/-- The digits of a hash are printed. -/
theorem printed_hex64 (v : UInt64) : Printed (hex64 v) :=
  printed_padded (by decide) (by decide) _ _

/-- The digits of a string are printed. -/
theorem printed_encodeField (value : String) : Printed (encodeField value) := by
  intro b hb
  obtain ⟨c, -, hc⟩ := List.mem_flatMap.mp hb
  exact printed_padded (by decide) (by decide) _ _ b hc

/-- No control character is printed. -/
theorem Printed.not_mem {text : List UInt8} (h : Printed text) {b : UInt8} (hb : b.toNat < 0x20) :
    b ∉ text := by
  intro hmem
  have := (h b hmem).1
  omega

/-- Whether a text is one that the manifest prints can be evaluated. -/
instance (text : List UInt8) : Decidable (Printed text) :=
  inferInstanceAs (Decidable (∀ b ∈ text, _))

/-- The fields of a record are printed. -/
theorem ManifestEntry.printed_fields (e : ManifestEntry) : ∀ field ∈ e.fields, Printed field := by
  simp only [fields, List.forall_mem_cons]
  refine ⟨by decide +kernel, printed_decimal _, printed_decimal _, printed_hex64 _,
    printed_decimal _, printed_decimal _, printed_hex64 _, printed_encodeField _,
    printed_encodeField _, printed_encodeField _, ?_⟩
  exact fun field hfield => absurd hfield List.not_mem_nil

/-- **A record is split at its tabulators** into its fields. -/
theorem ManifestEntry.splitOn_line (e : ManifestEntry) : e.line.splitOn 0x09 = e.fields :=
  List.splitOn_intercalate 0x09 (fun field h => (e.printed_fields field h).not_mem (by decide))
    (List.cons_ne_nil _ _)

/-- Taking an item goes on with the next ones. -/
theorem nextItem_bind {α : Type} (item : List UInt8) (items : List (List UInt8))
    (f : Option (List UInt8) → ExecM (List (List UInt8)) CliError α) :
    (nextItem >>= f) (item :: items) = f (some item) items := rfl

/-- Taking a field goes on with the next ones. -/
theorem nextField_bind {α : Type} (name : String) (field : List UInt8) (fields : List (List UInt8))
    (f : List UInt8 → ExecM (List (List UInt8)) CliError α) :
    (nextField name >>= f) (field :: fields) = f field fields := rfl

/-- **The record of an entry is parsed.** -/
theorem parseFields_fields (e : ManifestEntry) : parseFields e.fields = (.ok e, []) := by
  have hu32 : ∀ (v : UInt32) (text : String),
      valid (UInt32.tryFrom v.toUInt64.toNat) text = .ok v := fun v text => by
    rw [UInt32.toNat_toUInt64, UInt32.tryFrom_toNat]
    rfl
  unfold parseFields ManifestEntry.fields
  rw [nextItem_bind, ExecM.lift_bind_of_ok (Exec.errIf_of_not (by simp) _),
    nextField_bind, ExecM.lift_bind_of_ok (parseU64_decimal_uInt32 _ _),
    nextField_bind, ExecM.lift_bind_of_ok (parseU64_decimal _ _),
    nextField_bind, ExecM.lift_bind_of_ok (parseHexU64_hex64 _ _),
    nextField_bind, ExecM.lift_bind_of_ok (parseU64_decimal_uInt32 _ _),
    nextField_bind, ExecM.lift_bind_of_ok (parseU64_decimal _ _),
    nextField_bind, ExecM.lift_bind_of_ok (parseHexU64_hex64 _ _),
    nextField_bind, ExecM.lift_bind_of_ok (decodeField_encodeField _),
    nextField_bind, ExecM.lift_bind_of_ok (decodeField_encodeField _),
    nextField_bind, ExecM.lift_bind_of_ok (decodeField_encodeField _),
    ExecM.bind_of_ok (ExecM.get_apply _), ExecM.lift_bind_of_ok (Exec.errIf_of_not (by simp) _),
    ExecM.lift_bind_of_ok (hu32 _ _), ExecM.lift_bind_of_ok (hu32 _ _), ExecM.pure_apply]

/-- A record is not an empty line. -/
theorem ManifestEntry.line_ne_nil (e : ManifestEntry) : e.line ≠ [] := by
  intro hnil
  have hsplit := e.splitOn_line
  rw [hnil] at hsplit
  cases hsplit

/-- **Records are read back** from their lines. -/
theorem parseEntries_lines (entries : List ManifestEntry) :
    parseEntries (entries.map ManifestEntry.line) = .ok entries := by
  induction entries with
  | nil => rfl
  | cons e entries ih =>
    rw [List.map_cons, parseEntries, if_neg e.line_ne_nil, e.splitOn_line, parseFields_fields,
      Exec.ok_bind, ih, Exec.ok_bind, Exec.pure_eq]

/-! ### The manifest -/

/-- What a manifest satisfies that is read without an error. -/
structure Manifest.Consistent (m : Manifest) : Prop where
  indexed : m.hasToc = true ∨ m.hasItoc = true
  direct : m.directItoc = true → m.hasItoc = true

/-- The value of a key is read back from its line. -/
theorem requiredValue_cons {key : String} (hkey : 0x09 ∉ key.asBytes) (value : List UInt8)
    (lines : List (List UInt8)) :
    requiredValue key (keyLine key value :: lines) = (.ok value, lines) := by
  unfold requiredValue
  rw [nextItem_bind, ExecM.lift_bind_of_ok (show valid (some _) _ = .ok _ from rfl), keyLine,
    Text.splitOnce_append hkey, ExecM.lift_bind_of_ok (Exec.errIf_of_not (by simp) _)]
  rfl

/-- After the value of a key, parsing goes on with the next lines. -/
theorem requiredValue_keyLine {α : Type} {key : String} (hkey : 0x09 ∉ key.asBytes)
    (value : List UInt8) (lines : List (List UInt8))
    (f : List UInt8 → ExecM (List (List UInt8)) CliError α) :
    (requiredValue key >>= f) (keyLine key value :: lines) = f value lines :=
  ExecM.bind_of_ok (requiredValue_cons hkey value lines) f

/-- **A manifest that was written is parsed.** The path of the source archive may have been
changed where it is no text.

**Proof sketch.** Each key is found in its line and its value is read back, one after the other. The
checks at the end pass because a consistent manifest has an index, and is direct only with an ID
table. -/
theorem parseLines_headerLines (lossy : PathBuf → String) {m : Manifest} (h : m.Consistent) :
    (parseLines ((m.headerLines lossy).tail ++ m.entries.map ManifestEntry.line)).1 =
      .ok { m with sourceArchive := (lossy m.sourceArchive).asBytes } := by
  have hu16 : ∀ (v : UInt16) (text : String),
      valid (UInt16.tryFrom v.toUInt64.toNat) text = .ok v := fun v text => by
    rw [UInt16.toNat_toUInt64, UInt16.tryFrom_toNat]
    rfl
  have hindexed : ¬(m.hasToc = false ∧ m.hasItoc = false) := by
    rintro ⟨htoc, hitoc⟩
    rcases h.indexed with h | h
    · rw [htoc] at h
      cases h
    · rw [hitoc] at h
      cases h
  have hdirect : ¬(m.directItoc = true ∧ m.hasItoc = false) := by
    rintro ⟨hd, hitoc⟩
    have := h.direct hd
    rw [hitoc] at this
    cases this
  unfold parseLines Manifest.headerLines
  simp only [List.tail_cons, List.cons_append, List.nil_append]
  rw [requiredValue_keyLine (by decide +kernel), ExecM.lift_bind_of_ok (decodeField_encodeField _),
    requiredValue_keyLine (by decide +kernel), ExecM.lift_bind_of_ok (parseU64_decimal _ _),
    requiredValue_keyLine (by decide +kernel), ExecM.lift_bind_of_ok (parseHexU64_hex64 _ _),
    requiredValue_keyLine (by decide +kernel), ExecM.lift_bind_of_ok (parseU64_decimal_uInt16 _ _),
    ExecM.lift_bind_of_ok (hu16 _ _),
    requiredValue_keyLine (by decide +kernel), ExecM.lift_bind_of_ok (parseBool_flagText _ _),
    requiredValue_keyLine (by decide +kernel), ExecM.lift_bind_of_ok (parseBool_flagText _ _),
    requiredValue_keyLine (by decide +kernel), ExecM.lift_bind_of_ok (parseBool_flagText _ _),
    requiredValue_keyLine (by decide +kernel), ExecM.lift_bind_of_ok (parseBool_flagText _ _),
    requiredValue_keyLine (by decide +kernel), ExecM.lift_bind_of_ok (parseU64_decimal_uInt16 _ _),
    requiredValue_keyLine (by decide +kernel), ExecM.lift_bind_of_ok (parseU64_decimal_uInt16 _ _),
    ExecM.lift_bind_of_ok (hu16 _ _), ExecM.lift_bind_of_ok (hu16 _ _),
    requiredValue_keyLine (by decide +kernel), ExecM.lift_bind_of_ok (parseU64_decimal _ _),
    ExecM.bind_of_ok (ExecM.get_apply _), ExecM.lift_bind_of_ok (parseEntries_lines _),
    ExecM.lift_bind_of_ok (Exec.errIf_of_not hindexed _),
    ExecM.lift_bind_of_ok (Exec.errIf_of_not hdirect _), ExecM.pure_apply]

/-! ### The text -/

/-- A line of the text: printed bytes and tabulators. -/
def PrintedLine (text : List UInt8) : Prop :=
  ∀ b ∈ text, b = 0x09 ∨ (0x20 ≤ b.toNat ∧ b.toNat < 0x80)

/-- Printed bytes are a line. -/
theorem Printed.line {text : List UInt8} (h : Printed text) : PrintedLine text := fun b hb => .inr (h b hb)

/-- A key and its value are a line. -/
theorem printedLine_keyLine {key : String} {value : List UInt8} (hkey : Printed key.asBytes)
    (hvalue : Printed value) : PrintedLine (keyLine key value) := by
  intro b hb
  rcases List.mem_append.mp hb with hb | hb
  · exact .inr (hkey b hb)
  · exact (List.mem_cons.mp hb).imp_right (hvalue b)

/-- Fields joined by tabulators are a line. -/
theorem printedLine_intercalate {fields : List (List UInt8)} (h : ∀ field ∈ fields, Printed field) :
    PrintedLine ([0x09].intercalate fields) := by
  induction fields with
  | nil => exact fun b hb => absurd hb List.not_mem_nil
  | cons field fields ih =>
    have hfield := (h field List.mem_cons_self).line
    cases fields with
    | nil =>
      intro b hb
      exact hfield b (by simpa [List.intercalate] using hb)
    | cons other fields =>
      intro b hb
      rw [List.intercalate_cons_cons, List.append_assoc] at hb
      rcases List.mem_append.mp hb with hb | hb
      · exact hfield b hb
      · rcases List.mem_append.mp hb with hb | hb
        · exact .inl (List.mem_singleton.mp hb)
        · exact ih (fun f hf => h f (List.mem_cons_of_mem _ hf)) b hb

/-- The lines before the records are lines of the text. -/
theorem Manifest.printedLine_headerLines (lossy : PathBuf → String) (m : Manifest) :
    ∀ row ∈ m.headerLines lossy, PrintedLine row := by
  have hflag : ∀ flag, Printed (flagText flag) := fun flag => printed_decimal _
  simp only [headerLines, List.forall_mem_cons]
  refine ⟨Printed.line (by decide +kernel),
    printedLine_keyLine (by decide +kernel) (printed_encodeField _),
    printedLine_keyLine (by decide +kernel) (printed_decimal _),
    printedLine_keyLine (by decide +kernel) (printed_hex64 _),
    printedLine_keyLine (by decide +kernel) (printed_decimal _),
    printedLine_keyLine (by decide +kernel) (hflag _),
    printedLine_keyLine (by decide +kernel) (hflag _),
    printedLine_keyLine (by decide +kernel) (hflag _),
    printedLine_keyLine (by decide +kernel) (hflag _),
    printedLine_keyLine (by decide +kernel) (printed_decimal _),
    printedLine_keyLine (by decide +kernel) (printed_decimal _),
    printedLine_keyLine (by decide +kernel) (printed_decimal _), ?_⟩
  exact fun row hrow => absurd hrow List.not_mem_nil

/-- All lines are lines of the text. -/
theorem Manifest.printedLine_of_mem (lossy : PathBuf → String) (m : Manifest) :
    ∀ row ∈ m.headerLines lossy ++ m.entries.map ManifestEntry.line, PrintedLine row := by
  intro row hrow
  rcases List.mem_append.mp hrow with hrow | hrow
  · exact m.printedLine_headerLines lossy row hrow
  · obtain ⟨e, -, rfl⟩ := List.mem_map.mp hrow
    exact printedLine_intercalate e.printed_fields

/-- The only control character of a line is the tabulator. -/
theorem PrintedLine.not_mem {text : List UInt8} (h : PrintedLine text) {b : UInt8} (hb : b.toNat < 0x20)
    (htab : b ≠ 0x09) : b ∉ text := by
  intro hmem
  rcases h b hmem with heq | hrange
  · exact htab heq
  · omega

/-- **A manifest that was written is parsed.** -/
theorem parseManifest_encode (lossy : PathBuf → String) {m : Manifest} (h : m.Consistent) :
    parseManifest (m.encode lossy) =
      .ok { m with sourceArchive := (lossy m.sourceArchive).asBytes } := by
  have hlines : Text.lines (m.encode lossy) =
      m.headerLines lossy ++ m.entries.map ManifestEntry.line :=
    Text.lines_flatMap
      (fun row hrow => (m.printedLine_of_mem lossy row hrow).not_mem (by decide) (by decide))
      fun row hrow => (m.printedLine_of_mem lossy row hrow).not_mem (by decide) (by decide)
  have hparse := parseLines_headerLines lossy h
  have hmagic : m.headerLines lossy = manifestMagic.asBytes :: (m.headerLines lossy).tail := rfl
  rw [parseManifest, hlines, hmagic, List.cons_append]
  simp only [ne_eq, not_true_eq_false, if_false]
  exact hparse

/-- The text of a manifest is ASCII. -/
theorem Manifest.encode_ascii (lossy : PathBuf → String) (m : Manifest) :
    ∀ b ∈ m.encode lossy, b.toNat < 0x80 := by
  intro b hb
  obtain ⟨row, hrow, hmem⟩ := List.mem_flatMap.mp hb
  rcases List.mem_append.mp hmem with hmem | hmem
  · rcases m.printedLine_of_mem lossy row hrow b hmem with rfl | hrange
    · decide
    · exact hrange.2
  · rw [List.mem_singleton.mp hmem]
    decide

/-! ### The file -/

section File

variable (sys : HostSystem) (m : Manifest) (root : PathBuf) (fs : FileSystem)

/-- The manifest is not written to its own path first. -/
theorem temporaryPath_ne : temporaryPath sys.host root ≠ Manifest.path sys.host root := by
  intro h
  have hlen := congrArg List.length h
  rw [temporaryPath, List.length_append] at hlen
  have : ".tmp".asBytes.length = 4 := by decide +kernel
  omega

/-- **Writing a manifest** puts its text at its path, and leaves nothing at the temporary path. -/
theorem Manifest.write_apply :
    m.write sys root fs = (.ok (), Function.update (Function.update fs
      (temporaryPath sys.host root) none) (Manifest.path sys.host root)
        (some (m.encode sys.lossy))) := by
  have hne := temporaryPath_ne sys root
  unfold Manifest.write
  rw [ExecM.bind_of_ok (writeFile_apply _ _ fs), ExecM.bind_of_ok (removeExisting_apply _ _),
    renameFile_apply (?_ : _ = some (m.encode sys.lossy))]
  · rw [Function.update_comm hne, Function.update_idem, Function.update_comm hne,
      Function.update_idem, Function.update_comm hne.symm]
  · rw [Function.update_of_ne hne, Function.update_self]

/-- The manifest that was written is read. -/
theorem Manifest.read_of_encode (h : m.Consistent)
    (hfs : fs (Manifest.path sys.host root) = some (m.encode sys.lossy)) :
    Manifest.read sys fs root =
      .ok (some { m with sourceArchive := (sys.lossy m.sourceArchive).asBytes }) := by
  obtain ⟨s, hs, hbytes⟩ := Utf8.exists_of_ascii (m.encode_ascii sys.lossy)
  rw [Manifest.read, hfs]
  simp only [hs, Exec.okOr_some, Exec.ok_bind, hbytes, parseManifest_encode sys.lossy h]
  rfl

/-- **Round trip of manifests.** A manifest that names an index, and the direct form only of an ID
table, is read back as it was written, when the path of its source archive is text.

**Proof sketch.** The text that is written is the one that is read, and `Manifest.read_of_encode`
parses it back into the same fields. The path of the source is the only field that passes through
UTF-8, and there it is lossless by the hypothesis. -/
theorem Manifest.read_write (hlossy : sys.KeepsText) (source : String)
    (hsource : m.sourceArchive = source.asBytes) (h : m.Consistent) :
    ∃ fs', m.write sys root fs = (.ok (), fs') ∧ Manifest.read sys fs' root = .ok (some m) := by
  refine ⟨_, m.write_apply sys root fs, ?_⟩
  rw [Manifest.read_of_encode sys m root _ h (Function.update_self _ _ _), hsource, hlossy, ← hsource]

/-- A manifest with an entry whose strings have line ends, tabulators and other characters. -/
def sampleManifest : Manifest where
  sourceArchive := "ä.cpk".asBytes
  archiveSize := 7
  archiveHash := 0xcbf29ce484222325
  alignment := 2048
  hasToc := true
  hasItoc := true
  directItoc := true
  p5r := false
  version := 7
  revision := 14
  updateDateTime := 20
  entries := [⟨"", "a\tb\nc", 3, "ü", 3, 5, 3, 2048, 5⟩, ⟨"d", "\x00", 4, "", 0, 0, 0, 0, 0⟩]

/-- The manifest is read back. -/
theorem Manifest.read_write_sample : ∃ fs',
    sampleManifest.write sampleHost "out".asBytes (fun _ => none) = (.ok (), fs') ∧
      Manifest.read sampleHost fs' "out".asBytes = .ok (some sampleManifest) :=
  Manifest.read_write sampleHost sampleManifest "out".asBytes (fun _ => none) keepsText_sampleHost
    "ä.cpk" rfl ⟨.inl rfl, fun _ => rfl⟩

end File

end RoundTrip

end CriArchive
