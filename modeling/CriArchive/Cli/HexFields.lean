import CriArchive.Cli.Manifest

set_option relaxedAutoImplicit false
set_option autoImplicit false

/-!
# Hex strings that cut a character

The strings of a manifest are decoded from two bytes at a time, although they are read as text.
When a pair of bytes ends inside a character, taking it out of the text panics.

## Main definitions

* `SplitsCharacter` — a hex string whose decoding cuts a character.
* `parseSettings`, `parseNumbers` — the parts of a manifest before its records, and of a record
  before its strings.
* `CutsCharacter` — a text whose first malformed part is such a hex string.

## Main results

* `decodeField_eq_fault` — when decoding a hex string panics.
* `Manifest.read_ne_fault_iff` — when reading a manifest does not panic.
-/

namespace CriArchive

open StdPath

/-! ## Hex strings -/

/-- Whether two bytes are parsed as a byte in hex digits. -/
def isHexPair (high low : UInt8) : Bool := (Text.parseRadix 16 (2 ^ 8) [high, low]).isSome

/-- Bytes that are parsed pair by pair. -/
def hexPairs : List UInt8 → Bool
  | high :: low :: rest => isHexPair high low && hexPairs rest
  | [_] => false
  | [] => true

/-- A hex string of even length whose decoding cuts a character: after pairs of hex digits there is
a pair that ends before a byte inside a character. -/
def SplitsCharacter (value : List UInt8) : Prop :=
  value.length % 2 = 0 ∧ ∃ pairs high low next rest, hexPairs pairs = true ∧
    value = pairs ++ high :: low :: next :: rest ∧ isContinuation next = true

/-- **Decoding pairs of digits panics** iff, after some pairs, a cut is inside a character.

**Proof sketch.** Induction over the pairs. A pair that ends before a continuation byte is the cut.
Any other pair must be of hex digits for the decoding to go on, and is put in front of those of the
rest. -/
theorem decodePairs_eq_fault {value : List UInt8} :
    decodePairs value = .fault ↔ ∃ pairs high low next rest, hexPairs pairs = true ∧
      value = pairs ++ high :: low :: next :: rest ∧ isContinuation next = true := by
  induction value using decodePairs.induct with
  | case1 high low rest hcut =>
    rw [decodePairs, if_pos hcut]
    refine iff_of_true rfl ?_
    rw [Option.any_eq_true] at hcut
    obtain ⟨next, hnext, hcontinuation⟩ := hcut
    obtain ⟨tail, rfl⟩ := List.head?_eq_some_iff.mp hnext
    exact ⟨[], high, low, next, tail, rfl, rfl, hcontinuation⟩
  | case2 high low rest hcut ih =>
    have hstep : decodePairs (high :: low :: rest) = .fault ↔
        isHexPair high low = true ∧ decodePairs rest = .fault := by
      rw [decodePairs, if_neg hcut, isHexPair]
      rcases Text.parseRadix 16 (2 ^ 8) [high, low] with _ | byte
      · simp [valid]
      · simp [valid, Exec.bind_eq_fault]
    rw [hstep, ih]
    constructor
    · rintro ⟨hhex, pairs, h, l, next, tail, hpairs, rfl, hcontinuation⟩
      refine ⟨high :: low :: pairs, h, l, next, tail, ?_, rfl, hcontinuation⟩
      rw [hexPairs, hhex, hpairs]
      rfl
    · rintro ⟨pairs, h, l, next, tail, hpairs, hvalue, hcontinuation⟩
      rcases pairs with _ | ⟨h', _ | ⟨l', pairs⟩⟩
      · simp only [List.nil_append, List.cons.injEq] at hvalue
        obtain ⟨-, -, rfl⟩ := hvalue
        exact absurd hcontinuation (by simpa using hcut)
      · cases hpairs
      · simp only [List.cons_append, List.cons.injEq] at hvalue
        obtain ⟨rfl, rfl, rfl⟩ := hvalue
        rw [hexPairs, Bool.and_eq_true] at hpairs
        exact ⟨hpairs.1, pairs, h, l, next, tail, hpairs.2, rfl, hcontinuation⟩
  | case3 value hshort =>
    apply iff_of_false
    · rcases value with _ | ⟨high, _ | ⟨low, rest⟩⟩
      · simp [decodePairs]
      · simp [decodePairs]
      · exact fun _ => hshort high low rest rfl
    · rintro ⟨pairs, high, low, next, rest, -, rfl, -⟩
      rcases pairs with _ | ⟨_, _ | ⟨_, pairs⟩⟩
      · exact hshort _ _ _ rfl
      · exact hshort _ _ _ rfl
      · exact hshort _ _ _ rfl

/-- **When decoding a hex string panics.** -/
theorem decodeField_eq_fault {value : List UInt8} :
    decodeField value = .fault ↔ SplitsCharacter value := by
  have hvalid : ∀ {α : Type} (x : Option α) (text : String), valid x text ≠ .fault := by
    intro α x text
    cases x <;> simp [valid]
  rw [decodeField, SplitsCharacter, ← decodePairs_eq_fault]
  by_cases heven : value.length % 2 = 0
  · rw [Exec.errIf_of_not (by simpa using heven), Exec.ok_bind, Exec.bind_eq_fault]
    simp [heven, hvalid]
  · have herr : Exec.errIf (value.length % 2 ≠ 0)
        (CliError.message "invalid hex string in CPK manifest") = .err _ := if_pos heven
    rw [herr, Exec.err_bind]
    exact iff_of_false (by simp) fun h => heven h.1

/-! ## Records -/

/-- The numbers of a record, before its strings. -/
structure RecordNumbers where
  id : UInt64
  extractedSize : UInt64
  extractedHash : UInt64
  packedSize : UInt64
  packedOffset : UInt64
  packedHash : UInt64

/-- The part of a record before its strings. -/
def parseNumbers : ExecM (List (List UInt8)) CliError RecordNumbers := do
  let kind ← nextItem
  ExecM.lift (Exec.errIf (kind ≠ some "entry".asBytes) (.message "unknown CPK manifest record"))
  let id ← nextField "entry ID"
  let id ← ExecM.lift (parseU64 id "entry ID")
  let extractedSize ← nextField "extracted size"
  let extractedSize ← ExecM.lift (parseU64 extractedSize "extracted size")
  let extractedHash ← nextField "extracted hash"
  let extractedHash ← ExecM.lift (parseHexU64 extractedHash "extracted hash")
  let packedSize ← nextField "packed size"
  let packedSize ← ExecM.lift (parseU64 packedSize "packed size")
  let packedOffset ← nextField "packed offset"
  let packedOffset ← ExecM.lift (parseU64 packedOffset "packed offset")
  let packedHash ← nextField "packed hash"
  let packedHash ← ExecM.lift (parseHexU64 packedHash "packed hash")
  pure { id, extractedSize, extractedHash, packedSize, packedOffset, packedHash }

/-- The strings of a record, and what is checked after them. -/
def parseRecordStrings (n : RecordNumbers) : ExecM (List (List UInt8)) CliError ManifestEntry := do
  let directory ← nextField "entry directory"
  let directory ← ExecM.lift (decodeField directory)
  let fileName ← nextField "entry file name"
  let fileName ← ExecM.lift (decodeField fileName)
  let userString ← nextField "entry user string"
  let userString ← ExecM.lift (decodeField userString)
  let rest ← ExecM.get
  ExecM.lift (Exec.errIf (rest ≠ []) (.message "too many fields in CPK manifest entry"))
  let id ← ExecM.lift (valid (UInt32.tryFrom n.id.toNat) "manifest entry ID exceeds u32")
  let packedSize ← ExecM.lift
    (valid (UInt32.tryFrom n.packedSize.toNat) "manifest packed size exceeds u32")
  pure
    { directory, fileName, id, userString, extractedSize := n.extractedSize
      extractedHash := n.extractedHash, packedSize, packedOffset := n.packedOffset
      packedHash := n.packedHash }

/-- A record is parsed part by part. -/
theorem parseFields_eq : parseFields = parseNumbers >>= parseRecordStrings := by
  unfold parseFields parseNumbers parseRecordStrings
  simp only [ExecM.bind_assoc, ExecM.pure_bind]

/-- Among the first strings, the first that is not decoded cuts a character. -/
def StringsSplit : ℕ → List (List UInt8) → Prop
  | count + 1, value :: values =>
    SplitsCharacter value ∨ (∃ s, decodeField value = .ok s) ∧ StringsSplit count values
  | _, _ => False

section Records

/-- Taking the next item does not panic. -/
theorem neverFaults_nextItem : ExecM.NeverFaults nextItem := fun _ h => nomatch h

/-- A value that is there or not is no panic. -/
theorem valid_ne_fault {α : Type} (x : Option α) (text : String) : valid x text ≠ .fault := by
  cases x <;> exact fun h => nomatch h

/-- A check is no panic. -/
theorem errIf_ne_fault (c : Prop) [Decidable c] (e : CliError) : Exec.errIf c e ≠ .fault := by
  unfold Exec.errIf
  split_ifs <;> exact fun h => nomatch h

/-- A value that is there or not never panics. -/
theorem neverFaults_valid {σ α : Type} (x : Option α) (text : String) :
    ExecM.NeverFaults (ExecM.lift (valid x text) : ExecM σ CliError α) :=
  ExecM.neverFaults_lift (valid_ne_fault x text)

/-- Taking the next field does not panic. -/
theorem neverFaults_nextField (name : String) : ExecM.NeverFaults (nextField name) := by
  unfold nextField
  exact neverFaults_nextItem.bind fun field => neverFaults_valid _ _

/-- A field that is parsed. -/
theorem neverFaults_field {α β : Type} (name : String) {parse : List UInt8 → Exec CliError α}
    (hparse : ∀ value, parse value ≠ .fault) {f : α → ExecM (List (List UInt8)) CliError β}
    (hf : ∀ a, ExecM.NeverFaults (f a)) :
    ExecM.NeverFaults (nextField name >>= fun value => ExecM.lift (parse value) >>= f) :=
  (neverFaults_nextField name).bind fun _ => (ExecM.neverFaults_lift (hparse _)).bind hf

/-- Parsing a number does not panic. -/
theorem parseU64_ne_fault (name : String) (value : List UInt8) : parseU64 value name ≠ .fault :=
  valid_ne_fault _ _

/-- Parsing a hexadecimal number does not panic. -/
theorem parseHexU64_ne_fault (name : String) (value : List UInt8) :
    parseHexU64 value name ≠ .fault :=
  valid_ne_fault _ _

/-- Parsing a flag does not panic. -/
theorem parseBool_ne_fault (name : String) (value : List UInt8) : parseBool value name ≠ .fault := by
  unfold parseBool
  split_ifs <;> exact fun h => nomatch h

/-- Parsing the numbers of a record does not panic. -/
theorem neverFaults_parseNumbers : ExecM.NeverFaults parseNumbers := by
  unfold parseNumbers
  refine neverFaults_nextItem.bind fun kind => ?_
  refine (ExecM.neverFaults_lift (errIf_ne_fault _ _)).bind fun _ => ?_
  refine neverFaults_field _ (parseU64_ne_fault _) fun id => ?_
  refine neverFaults_field _ (parseU64_ne_fault _) fun extractedSize => ?_
  refine neverFaults_field _ (parseHexU64_ne_fault _) fun extractedHash => ?_
  refine neverFaults_field _ (parseU64_ne_fault _) fun packedSize => ?_
  refine neverFaults_field _ (parseU64_ne_fault _) fun packedOffset => ?_
  exact neverFaults_field _ (parseHexU64_ne_fault _) fun packedHash => ExecM.neverFaults_pure _

/-- The next field, when there is one. -/
theorem nextField_eq_ok {name : String} {fields fields' : List (List UInt8)} {value : List UInt8} :
    nextField name fields = (.ok value, fields') ↔ fields = value :: fields' := by
  cases fields with
  | nil => exact iff_of_false (fun h => nomatch h) fun h => nomatch h
  | cons field fields =>
    change ((Exec.ok field : Exec CliError _), fields) = _ ↔ _
    simp

/-- Where decoding a string field and going on panics. -/
theorem stringField_fst_eq_fault {name : String} {fields : List (List UInt8)}
    {f : String → ExecM (List (List UInt8)) CliError ManifestEntry} {count : ℕ}
    (hf : ∀ s values, (f s values).1 = .fault ↔ StringsSplit count values) :
    ((nextField name >>= fun value => ExecM.lift (decodeField value) >>= f) fields).1 = .fault ↔
      StringsSplit (count + 1) fields := by
  rw [(neverFaults_nextField name).bind_fst_eq_fault]
  simp only [nextField_eq_ok, ExecM.bind_fst_eq_fault, ExecM.lift_apply, decodeField_eq_fault,
    Prod.mk.injEq]
  cases fields with
  | nil => exact iff_of_false (by rintro ⟨_, _, h, -⟩; cases h) id
  | cons value values =>
    rw [StringsSplit]
    constructor
    · rintro ⟨_, _, h, hfault⟩
      obtain ⟨rfl, rfl⟩ := List.cons.inj h
      apply hfault.imp_right
      rintro ⟨s, _, ⟨hs, rfl⟩, hrest⟩
      exact ⟨⟨s, hs⟩, (hf s values).mp hrest⟩
    · intro hsplit
      refine ⟨value, values, rfl, hsplit.imp_right ?_⟩
      rintro ⟨⟨s, hs⟩, hrest⟩
      exact ⟨s, values, ⟨hs, rfl⟩, (hf s values).mpr hrest⟩

/-- **Where parsing the strings of a record panics.** -/
theorem parseRecordStrings_fst_eq_fault {n : RecordNumbers} {fields : List (List UInt8)} :
    (parseRecordStrings n fields).1 = .fault ↔ StringsSplit 3 fields := by
  unfold parseRecordStrings
  refine stringField_fst_eq_fault fun directory values => ?_
  refine stringField_fst_eq_fault fun fileName values => ?_
  refine stringField_fst_eq_fault fun userString values => iff_of_false ?_ id
  refine ExecM.neverFaults_get.bind (fun rest => ?_) values
  refine (ExecM.neverFaults_lift (errIf_ne_fault _ _)).bind fun _ => ?_
  refine (neverFaults_valid _ _).bind fun id => (neverFaults_valid _ _).bind fun packedSize => ?_
  exact ExecM.neverFaults_pure _

/-- A record whose numbers are parsed, and whose first string that is not decoded cuts a
character. -/
def RecordSplits (line : List UInt8) : Prop :=
  ∃ n strings, parseNumbers (line.splitOn 0x09) = (.ok n, strings) ∧ StringsSplit 3 strings

/-- **Where parsing a record panics.** -/
theorem parseFields_fst_eq_fault {line : List UInt8} :
    (parseFields (line.splitOn 0x09)).1 = .fault ↔ RecordSplits line := by
  rw [parseFields_eq, neverFaults_parseNumbers.bind_fst_eq_fault]
  simp only [parseRecordStrings_fst_eq_fault]
  rfl

/-- A line that is skipped or parsed. -/
def RecordParsed (line : List UInt8) : Prop :=
  line = [] ∨ ∃ entry, (parseFields (line.splitOn 0x09)).1 = .ok entry

/-- **The records panic** iff the first of them does, or is parsed and the others do. -/
theorem parseEntries_cons_eq_fault {line : List UInt8} {lines : List (List UInt8)} :
    parseEntries (line :: lines) = .fault ↔
      line ≠ [] ∧ RecordSplits line ∨ RecordParsed line ∧ parseEntries lines = .fault := by
  unfold RecordParsed
  by_cases hempty : line = []
  · simp [parseEntries, hempty]
  · rw [parseEntries, if_neg hempty, Exec.bind_eq_fault, parseFields_fst_eq_fault]
    simp [hempty, Exec.bind_eq_fault]

/-- **The records are parsed** iff the first of them is and the others are. -/
theorem exists_parseEntries_cons {line : List UInt8} {lines : List (List UInt8)} :
    (∃ entries, parseEntries (line :: lines) = .ok entries) ↔
      RecordParsed line ∧ ∃ entries, parseEntries lines = .ok entries := by
  unfold RecordParsed
  by_cases hempty : line = []
  · simp [parseEntries, hempty]
  · rw [parseEntries, if_neg hempty]
    simp [hempty, Exec.bind_eq_ok]

/-- **Where parsing the records panics.** -/
theorem parseEntries_eq_fault {lines : List (List UInt8)} :
    parseEntries lines = .fault ↔ ∃ before line after, lines = before ++ line :: after ∧
      (∃ entries, parseEntries before = .ok entries) ∧ line ≠ [] ∧ RecordSplits line := by
  induction lines with
  | nil => exact iff_of_false (fun h => nomatch h) (by rintro ⟨before, _, _, h, -⟩; simp at h)
  | cons first lines ih =>
    rw [parseEntries_cons_eq_fault, ih]
    constructor
    · rintro (⟨hne, hsplits⟩ | ⟨hparsed, before, line, after, rfl, hbefore, hne, hsplits⟩)
      · exact ⟨[], first, lines, rfl, ⟨[], rfl⟩, hne, hsplits⟩
      · exact ⟨first :: before, line, after, rfl, exists_parseEntries_cons.mpr ⟨hparsed, hbefore⟩,
          hne, hsplits⟩
    · rintro ⟨before, line, after, hlines, hbefore, hne, hsplits⟩
      cases before with
      | nil =>
        obtain ⟨rfl, -⟩ := List.cons.inj hlines
        exact Or.inl ⟨hne, hsplits⟩
      | cons b before =>
        obtain ⟨rfl, rfl⟩ := List.cons.inj hlines
        obtain ⟨hparsed, hbefore⟩ := exists_parseEntries_cons.mp hbefore
        exact Or.inr ⟨hparsed, before, line, after, rfl, hbefore, hne, hsplits⟩

end Records

/-! ## Manifests -/

/-- The numbers and flags of a manifest, between its source and its records. -/
def parseSettings (sourceArchive : String) : ExecM (List (List UInt8)) CliError Manifest := do
  let archiveSize ← requiredValue "archive_size"
  let archiveSize ← ExecM.lift (parseU64 archiveSize "archive_size")
  let archiveHash ← requiredValue "archive_hash"
  let archiveHash ← ExecM.lift (parseHexU64 archiveHash "archive_hash")
  let alignment ← requiredValue "alignment"
  let alignment ← ExecM.lift (parseU64 alignment "alignment")
  let alignment ← ExecM.lift
    (valid (UInt16.tryFrom alignment.toNat) "manifest alignment exceeds u16")
  let hasToc ← requiredValue "has_toc"
  let hasToc ← ExecM.lift (parseBool hasToc "has_toc")
  let hasItoc ← requiredValue "has_itoc"
  let hasItoc ← ExecM.lift (parseBool hasItoc "has_itoc")
  let directItoc ← requiredValue "direct_itoc"
  let directItoc ← ExecM.lift (parseBool directItoc "direct_itoc")
  let p5r ← requiredValue "p5r"
  let p5r ← ExecM.lift (parseBool p5r "p5r")
  let version ← requiredValue "version"
  let version ← ExecM.lift (parseU64 version "version")
  let revision ← requiredValue "revision"
  let revision ← ExecM.lift (parseU64 revision "revision")
  let version ← ExecM.lift (valid (UInt16.tryFrom version.toNat) "manifest version exceeds u16")
  let revision ← ExecM.lift
    (valid (UInt16.tryFrom revision.toNat) "manifest revision exceeds u16")
  let updateDateTime ← requiredValue "update_date_time"
  let updateDateTime ← ExecM.lift (parseU64 updateDateTime "update_date_time")
  pure
    { sourceArchive := sourceArchive.asBytes, archiveSize, archiveHash, alignment, hasToc, hasItoc
      directItoc, p5r, version, revision, updateDateTime, entries := [] }

/-- The records of a manifest, and what is checked after them. -/
def parseRecords (m : Manifest) : ExecM (List (List UInt8)) CliError Manifest := do
  let records ← ExecM.get
  let entries ← ExecM.lift (parseEntries records)
  ExecM.lift (Exec.errIf (m.hasToc = false ∧ m.hasItoc = false)
    (.message "manifest contains neither TOC nor ITOC"))
  ExecM.lift (Exec.errIf (m.directItoc = true ∧ m.hasItoc = false)
    (.message "direct ITOC flag without ITOC"))
  pure { m with entries }

/-- A manifest is parsed part by part. -/
theorem parseLines_eq : parseLines = requiredValue "source" >>= fun value =>
    ExecM.lift (decodeField value) >>= fun sourceArchive =>
      parseSettings sourceArchive >>= parseRecords := by
  unfold parseLines parseSettings parseRecords
  simp only [ExecM.bind_assoc, ExecM.pure_bind]

/-- A text that is read up to a hex string that cuts a character: its source archive, or one in a
record after settings and records that are parsed. -/
def CutsCharacter (text : List UInt8) : Prop :=
  ∃ value lines,
    Text.lines text = manifestMagic.asBytes :: keyLine "source" value :: lines ∧
    (SplitsCharacter value ∨ ∃ sourceArchive m before line after,
      decodeField value = .ok sourceArchive ∧
      parseSettings sourceArchive lines = (.ok m, before ++ line :: after) ∧
      (∃ entries, parseEntries before = .ok entries) ∧ line ≠ [] ∧ RecordSplits line)

section Manifests

/-- Looking for a value does not panic. -/
theorem neverFaults_requiredValue (key : String) : ExecM.NeverFaults (requiredValue key) := by
  unfold requiredValue
  exact neverFaults_nextItem.bind fun line => (neverFaults_valid _ _).bind fun line =>
    (ExecM.neverFaults_lift (errIf_ne_fault _ _)).bind fun _ => neverFaults_valid _ _

/-- A value that is parsed. -/
theorem neverFaults_setting {α β : Type} (key : String) {parse : List UInt8 → Exec CliError α}
    (hparse : ∀ value, parse value ≠ .fault) {f : α → ExecM (List (List UInt8)) CliError β}
    (hf : ∀ a, ExecM.NeverFaults (f a)) :
    ExecM.NeverFaults (requiredValue key >>= fun value => ExecM.lift (parse value) >>= f) :=
  (neverFaults_requiredValue key).bind fun _ => (ExecM.neverFaults_lift (hparse _)).bind hf

/-- Parsing the settings does not panic. -/
theorem neverFaults_parseSettings (sourceArchive : String) :
    ExecM.NeverFaults (parseSettings sourceArchive) := by
  unfold parseSettings
  refine neverFaults_setting _ (parseU64_ne_fault _) fun archiveSize => ?_
  refine neverFaults_setting _ (parseHexU64_ne_fault _) fun archiveHash => ?_
  refine neverFaults_setting _ (parseU64_ne_fault _) fun alignment => ?_
  refine (neverFaults_valid _ _).bind fun alignment => ?_
  refine neverFaults_setting _ (parseBool_ne_fault _) fun hasToc => ?_
  refine neverFaults_setting _ (parseBool_ne_fault _) fun hasItoc => ?_
  refine neverFaults_setting _ (parseBool_ne_fault _) fun directItoc => ?_
  refine neverFaults_setting _ (parseBool_ne_fault _) fun p5r => ?_
  refine neverFaults_setting _ (parseU64_ne_fault _) fun version => ?_
  refine neverFaults_setting _ (parseU64_ne_fault _) fun revision => ?_
  refine (neverFaults_valid _ _).bind fun version => (neverFaults_valid _ _).bind fun revision => ?_
  exact neverFaults_setting _ (parseU64_ne_fault _) fun _ => ExecM.neverFaults_pure _

/-- The records of a manifest panic iff its lines do. -/
theorem parseRecords_fst_eq_fault {m : Manifest} {lines : List (List UInt8)} :
    (parseRecords m lines).1 = .fault ↔ parseEntries lines = .fault := by
  unfold parseRecords
  rw [ExecM.bind_of_ok (ExecM.get_apply lines), ExecM.bind_fst_eq_fault, ExecM.lift_apply]
  apply or_iff_left
  rintro ⟨entries, t, -, h⟩
  refine ((ExecM.neverFaults_lift (errIf_ne_fault _ _)).bind fun _ => ?_) t h
  exact (ExecM.neverFaults_lift (errIf_ne_fault _ _)).bind fun _ => ExecM.neverFaults_pure _

/-- A line with a value is a key, a tabulator and the value. -/
theorem requiredValue_eq_ok {key : String} (hkey : 0x09 ∉ key.asBytes)
    {lines lines' : List (List UInt8)} {value : List UInt8} :
    requiredValue key lines = (.ok value, lines') ↔ lines = keyLine key value :: lines' := by
  constructor
  · intro h
    unfold requiredValue at h
    cases lines with
    | nil => cases h
    | cons line lines =>
      rw [nextItem_bind, ExecM.lift_bind_of_ok (show valid (some line) _ = .ok line from rfl)] at h
      obtain ⟨_, _, hfirst, hvalue⟩ := ExecM.bind_eq_ok.mp h
      obtain ⟨hexpected, rfl⟩ := ExecM.lift_eq_ok.mp hfirst
      obtain ⟨hsome, rfl⟩ := ExecM.lift_eq_ok.mp hvalue
      have hline := Text.eq_of_splitOnce (Exec.okOr_eq_ok.mp hsome)
      rw [not_not.mp (Exec.errIf_eq_ok.mp hexpected)] at hline
      rw [hline, keyLine]
  · rintro rfl
    exact requiredValue_cons hkey value lines'

/-- **When parsing a manifest panics.** -/
theorem parseManifest_eq_fault {text : List UInt8} :
    parseManifest text = .fault ↔ CutsCharacter text := by
  have hsource : (0x09 : UInt8) ∉ "source".asBytes := by decide +kernel
  unfold parseManifest CutsCharacter
  rcases Text.lines text with _ | ⟨magic, lines⟩
  · exact iff_of_false (fun h => nomatch h) (by rintro ⟨_, _, h, -⟩; cases h)
  · by_cases hmagic : magic = manifestMagic.asBytes
    · simp only [hmagic, ne_eq, not_true_eq_false, if_false, parseLines_eq,
        (neverFaults_requiredValue "source").bind_fst_eq_fault, requiredValue_eq_ok hsource,
        List.cons.injEq, true_and]
      refine exists_congr fun value => exists_congr fun rest => and_congr_right fun _ => ?_
      simp only [ExecM.bind_fst_eq_fault, ExecM.lift_apply, decodeField_eq_fault, Prod.mk.injEq,
        neverFaults_parseSettings _ _, false_or, parseRecords_fst_eq_fault, parseEntries_eq_fault]
      apply or_congr_right
      constructor
      · rintro ⟨sourceArchive, _, ⟨hdecode, rfl⟩, m, _, hsettings, before, line, after, rfl, hrest⟩
        exact ⟨sourceArchive, m, before, line, after, hdecode, hsettings, hrest⟩
      · rintro ⟨sourceArchive, m, before, line, after, hdecode, hsettings, hrest⟩
        exact ⟨sourceArchive, rest, ⟨hdecode, rfl⟩, m, _, hsettings, before, line, after, rfl, hrest⟩
    · simp only [hmagic, ne_eq, not_false_eq_true, if_true]
      refine iff_of_false (fun h => nomatch h) ?_
      rintro ⟨_, _, h, -⟩
      exact hmagic (List.cons.inj h).1

/-- A manifest that was written is parsed from its text. -/
theorem Manifest.read_update (sys : HostSystem) (fs : FileSystem) (root : PathBuf) (text : String) :
    Manifest.read sys (Function.update fs (Manifest.path sys.host root) (some text.asBytes)) root =
      some <$> parseManifest text.asBytes := by
  rw [Manifest.read, Function.update_self]
  simp only [String.asBytes, Utf8.decode_encode, Exec.okOr_some, Exec.ok_bind, String.ofList_toList]

/-- **When reading a manifest does not panic.** Reading a text returns a manifest or an error iff no
hex string cuts a character where it is decoded. -/
theorem Manifest.read_ne_fault_iff (sys : HostSystem) (fs : FileSystem) (root : PathBuf)
    (text : String) :
    Manifest.read sys (Function.update fs (Manifest.path sys.host root) (some text.asBytes)) root ≠
      .fault ↔ ¬CutsCharacter text.asBytes := by
  rw [Manifest.read_update, ne_eq, Exec.map_eq_fault, parseManifest_eq_fault]

/-- The source of this manifest is cut inside its first character. -/
theorem Manifest.not_read_ne_fault :
    ¬∀ (sys : HostSystem) (fs : FileSystem) (root : PathBuf) (text : String), Manifest.read sys
      (Function.update fs (Manifest.path sys.host root) (some text.asBytes)) root ≠ .fault := by
  intro h
  refine h sampleHost (fun _ => none) "out".asBytes "CRI_CPK_MANIFEST_V2\nsource\t€a" ?_
  rw [Manifest.read_update]
  decide +kernel

end Manifests

end CriArchive
