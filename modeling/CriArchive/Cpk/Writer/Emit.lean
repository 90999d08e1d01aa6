import CriArchive.Cpk.Encrypt
import CriArchive.Cpk.Writer.Plan
import CriArchive.Lib.Regions

set_option relaxedAutoImplicit false
set_option autoImplicit false

/-!
# Putting out an archive

The second half of `write_with_profile` in `cpk/writer.rs`, built with the P5R feature as the
command line tool builds it: header, marker, indices and payloads are put out in one pass, with
zeros between them. The host file system is a function from paths to contents.

## Main definitions

* `writeZeros`, `writeAt`, `writeFilePayload` — the output primitives.
* `emittedPayload` — the bytes that `writeFilePayload` puts out for an entry.
* `emitArchive`, `writeWithProfile` — the writer.
* `CpkPlan.regions` — the regions of an archive.

## Main results

* `emitArchive_ends` — the output is the assembly of the regions.
* `writeWithProfile_ends` — the writer returns the report of its plan and puts out the regions, or
  fails with an error that is not an internal one.
-/

namespace CriArchive

open ByteStream Regions

/-- The files of the host, by path. -/
abbrev FileSystem : Type := PathBuf → Option (List UInt8)

/-- `CpkWriteReport`. -/
structure CpkWriteReport where
  files : UInt32
  tocOffset : UInt64
  itocOffset : UInt64
  contentOffset : UInt64
  archiveSize : UInt64
  deriving DecidableEq, Repr

/-! ## Output primitives -/

/-- The loop of `write_zeros`, which puts out pieces of at most `0x2000` bytes; `count` rounds
are enough. -/
def writeZerosLoop : ℕ → ℕ → ExecM ByteStream Error Unit
  | 0, _ => pure ()
  | fuel + 1, count =>
    if count = 0 then pure ()
    else do
      writeAll (List.replicate (min count 0x2000) 0)
      writeZerosLoop fuel (count - min count 0x2000)

/-- `write_zeros`. -/
def writeZeros (count : ℕ) : ExecM ByteStream Error Unit := writeZerosLoop count count

/-- Put out zeros up to a target when the current position lies before it. -/
def fillTo (current target : ℕ) : ExecM ByteStream Error Unit :=
  if current < target then writeZeros (target - current) else pure ()

/-- Move to an offset, forwards with zeros, backwards by a seek. -/
def moveTo (offset : ℕ) : ExecM ByteStream Error Unit := do
  let current ← position
  if current < offset then writeZeros (offset - current)
  else if offset < current then seek offset
  else pure ()

/-- `write_at`. -/
def writeAt (offset : UInt64) (bytes : List UInt8) : ExecM ByteStream Error Unit := do
  moveTo offset.toNat
  writeAll bytes

section Payload

variable (fs : FileSystem) (path : P5RPath) (p5rEncryption : Bool)

/-- The contents of a file that must be readable. -/
def readFile (source : PathBuf) : Exec Error (List UInt8) :=
  Exec.okOr (fs source) (.fileAccess source)

/-- The seek in a file. Both kinds of hosts take the offset as a signed number of 64 bits, and
refuse a negative one. -/
def seekFile (source : PathBuf) (offset : UInt64) : Exec Error Unit :=
  Exec.errIf (2 ^ 63 ≤ offset.toNat) (.invalidSeek source)

/-- `write_file_payload`: put out the packed bytes of an entry, returning their number. -/
def writeFilePayload (file : CpkInputFile) : ExecM ByteStream Error ℕ :=
  match file.rawPayload with
  | some raw => do
    ExecM.lift (Exec.errIf (raw.size ≠ file.size) (.writer (.invalidRawPayload raw.archivePath)))
    let content ← ExecM.lift (readFile fs raw.archivePath)
    ExecM.lift (seekFile raw.archivePath raw.absoluteOffset)
    let limited := window content raw.absoluteOffset.toNat raw.size.toNat
    writeAll limited
    ExecM.lift (Exec.errIf (limited.length ≠ raw.size.toNat)
      (.writer (.invalidRawPayload raw.archivePath)))
    pure limited.length
  | none =>
    if (p5rEncryption && file.userString == P5R.encryptedUserString) = true then do
      let data ← ExecM.lift (readFile fs file.sourcePath)
      let data ← ExecM.lift (P5R.decryptInPlace path data)
      writeAll data
      pure data.length
    else do
      let content ← ExecM.lift (readFile fs file.sourcePath)
      writeAll content
      pure content.length

/-- The bytes that `writeFilePayload` puts out for an entry. -/
def emittedPayload (file : CpkInputFile) : Exec Error (List UInt8) := do
  let r ← (writeFilePayload fs path p5rEncryption file).runOn ⟨[], 0⟩
  pure r.2.bytes

/-- Put out the payloads of entries at their offsets. -/
def emitPayloads (files : List CpkInputFile) (absoluteOffsets : List UInt64) :
    List ℕ → ExecM ByteStream Error Unit
  | [] => pure ()
  | index :: indices => do
    let file ← ExecM.lift (Exec.index files index)
    let target ← ExecM.lift (Exec.index absoluteOffsets index)
    let current ← position
    ExecM.lift (Exec.errIf (target.toNat < current)
      (.inconsistent .payloadTarget .arithmeticOverflow))
    fillTo current target.toNat
    let copied ← writeFilePayload fs path p5rEncryption file
    ExecM.lift (Exec.errIf (copied ≠ file.size.toNat)
      (.packedSizeChanged file.sourcePath file.size copied))
    emitPayloads files absoluteOffsets indices

end Payload

/-! ## The writer -/

/-- The marker `(c)CRI`. -/
def copyrightMarker : List UInt8 := [0x28, 0x63, 0x29, 0x43, 0x52, 0x49]

/-- Put out the chunk of an index table at its offset, if there is one. -/
def emitIndex (kind : CpkChunkKind) (offset : UInt64) :
    Option (List UInt8) → ExecM ByteStream Error Unit
  | none => pure ()
  | some table => writeAt offset (buildChunk kind table)

section Writer

variable (fs : FileSystem) (path : P5RPath) (files : List CpkInputFile)
  (options : CpkWriterOptions)

/-- The second half of `write_with_profile`: put out what was planned. -/
def emitArchive (p : CpkPlan) : ExecM ByteStream Error Unit := do
  seek 0
  writeAll (buildChunk .cpk p.headerTable)
  ExecM.lift (Exec.errIf (copyrightMarkerOffset < (buildChunk .cpk p.headerTable).length)
    arithmeticOverflow)
  writeZeros (copyrightMarkerOffset - (buildChunk .cpk p.headerTable).length)
  writeAll copyrightMarker
  emitIndex .toc p.tocOffset p.tocTable
  emitIndex .itoc p.itocOffset p.itocTable
  let current ← position
  fillTo current p.contentOffset.toNat
  emitPayloads fs path options.p5rEncryption files p.absoluteOffsets p.physicalOrder
  let current ← position
  fillTo current p.archiveSize.toNat

/-- The report on a plan. -/
def CpkPlan.report (p : CpkPlan) : CpkWriteReport :=
  ⟨p.fileCount, p.tocOffset, p.itocOffset, p.contentOffset, p.archiveSize⟩

/-- `CpkWriter::write_with_profile`. -/
def writeWithProfile (profile : CpkWriterProfile) : ExecM ByteStream Error CpkWriteReport := do
  let plan ← ExecM.lift (planArchive files options profile)
  emitArchive fs path files options plan
  pure plan.report

end Writer

/-! ## The primitives on an overwritten stream -/

section Primitives

variable {old acc : List UInt8} {s : ByteStream}

/-- Zeros extend the overwritten part. -/
theorem writeZeros_overwritten (h : Overwritten old acc s) (count : ℕ) :
    ∃ t, writeZeros count s = (.ok (), t) ∧ Overwritten old (acc ++ List.replicate count 0) t := by
  have hloop : ∀ (fuel count : ℕ) (acc : List UInt8) (s : ByteStream), count ≤ fuel →
      Overwritten old acc s → ∃ t, writeZerosLoop fuel count s = (.ok (), t) ∧
        Overwritten old (acc ++ List.replicate count 0) t := by
    intro fuel
    induction fuel with
    | zero =>
      intro count acc s hle h
      obtain rfl : count = 0 := by omega
      exact ⟨s, rfl, by simpa using h⟩
    | succ fuel ih =>
      intro count acc s hle h
      by_cases hcount : count = 0
      · subst hcount
        exact ⟨s, rfl, by simpa using h⟩
      obtain ⟨t, ht, hover⟩ := writeAll_overwritten (ε := Error) h
        (List.replicate (min count 0x2000) 0)
      obtain ⟨u, hu, hover'⟩ := ih (count - min count 0x2000) _ t (by omega) hover
      refine ⟨u, ?_, ?_⟩
      · rw [writeZerosLoop, if_neg hcount, ExecM.bind_of_ok ht, hu]
      · rwa [List.append_assoc, List.replicate_append_replicate,
          Nat.add_sub_of_le (Nat.min_le_left _ _)] at hover'
  exact hloop count count acc s (Nat.le_refl _) h

/-- Filling up to a target. -/
theorem fillTo_overwritten (h : Overwritten old acc s) (target : ℕ) :
    ∃ t, fillTo s.pos target s = (.ok (), t) ∧
      Overwritten old (acc ++ List.replicate (target - acc.length) 0) t := by
  unfold fillTo
  rw [h.2]
  split_ifs with hlt
  · exact writeZeros_overwritten h _
  · refine ⟨s, rfl, ?_⟩
    rw [Nat.sub_eq_zero_of_le (Nat.le_of_not_lt hlt)]
    simpa using h

/-- Putting out a block at an offset that is not behind the position adds a region. -/
theorem writeAt_overwritten (h : Overwritten old acc s) {offset : UInt64}
    (hle : acc.length ≤ offset.toNat) (bytes : List UInt8) :
    ∃ t, writeAt offset bytes s = (.ok (), t) ∧
      Overwritten old (assemble 0 acc [(offset.toNat, bytes)]) t := by
  have hmove : ∃ t, moveTo offset.toNat s = (.ok (), t) ∧
      Overwritten old (acc ++ List.replicate (offset.toNat - acc.length) 0) t := by
    unfold moveTo
    rw [ExecM.bind_of_ok (position_apply s), h.2]
    split_ifs with hlt hgt
    · exact writeZeros_overwritten h _
    · omega
    · refine ⟨s, rfl, ?_⟩
      rw [Nat.sub_eq_zero_of_le (Nat.le_of_not_lt hlt)]
      simpa using h
  obtain ⟨t, ht, hover⟩ := hmove
  obtain ⟨u, hu, hover'⟩ := writeAll_overwritten (ε := Error) hover bytes
  exact ⟨u, by rw [writeAt, ExecM.bind_of_ok ht, hu], hover'⟩

end Primitives

/-! ## Payloads -/

section EmitPayloads

variable {fs : FileSystem} {path : P5RPath} {p5rEncryption : Bool}

/-- The bytes of an entry's payload, without a stream. -/
def sourcePayload (fs : FileSystem) (path : P5RPath) (p5rEncryption : Bool)
    (file : CpkInputFile) : Exec Error (List UInt8) :=
  match file.rawPayload with
  | some raw => do
    Exec.errIf (raw.size ≠ file.size) (.writer (.invalidRawPayload raw.archivePath))
    let content ← readFile fs raw.archivePath
    seekFile raw.archivePath raw.absoluteOffset
    Exec.errIf ((window content raw.absoluteOffset.toNat raw.size.toNat).length ≠ raw.size.toNat)
      (.writer (.invalidRawPayload raw.archivePath))
    pure (window content raw.absoluteOffset.toNat raw.size.toNat)
  | none =>
    if (p5rEncryption && file.userString == P5R.encryptedUserString) = true then do
      let data ← readFile fs file.sourcePath
      P5R.decryptInPlace path data
    else readFile fs file.sourcePath

/-- A payload that was put out is the payload of the source, written at the position.

**Proof sketch.** Read off the three branches of the source: a raw payload passes all checks and its
window is written; the content of a file is written as it is, or transformed when it is marked. -/
theorem writeFilePayload_eq_ok {file : CpkInputFile} {s t : ByteStream} {copied : ℕ} :
    writeFilePayload fs path p5rEncryption file s = (.ok copied, t) ↔
      ∃ bytes, sourcePayload fs path p5rEncryption file = .ok bytes ∧ copied = bytes.length ∧
        (writeAll bytes : ExecM ByteStream Error Unit) s = (.ok (), t) := by
  have hpure : ∀ (n : ℕ) (u : ByteStream),
      (pure n : ExecM ByteStream Error ℕ) u = (.ok copied, t) ↔ n = copied ∧ u = t := by
    intro n u
    simp [Prod.ext_iff]
  unfold writeFilePayload sourcePayload
  cases file.rawPayload with
  | some raw =>
    simp only [ExecM.bind_eq_ok, ExecM.lift_eq_ok, Exec.bind_eq_ok, Exec.errIf_eq_ok, hpure,
      Exec.pure_eq, Exec.ok.injEq]
    constructor
    · rintro ⟨⟨⟩, _, ⟨hsize, rfl⟩, content, _, ⟨hcontent, rfl⟩, ⟨⟩, _, ⟨hseek, rfl⟩, ⟨⟩, u, hwrite,
        ⟨⟩, _, ⟨hlen, rfl⟩, rfl, rfl⟩
      exact ⟨_, ⟨(), hsize, content, hcontent, (), hseek, (), hlen, rfl⟩, rfl, hwrite⟩
    · rintro ⟨_, ⟨⟨⟩, hsize, content, hcontent, ⟨⟩, hseek, ⟨⟩, hlen, rfl⟩, rfl, hwrite⟩
      exact ⟨(), s, ⟨hsize, rfl⟩, content, s, ⟨hcontent, rfl⟩, (), s, ⟨hseek, rfl⟩, (), t, hwrite,
        (), t, ⟨hlen, rfl⟩, rfl, rfl⟩
  | none =>
    by_cases hmarked : (p5rEncryption && file.userString == P5R.encryptedUserString) = true
    · simp only [if_pos hmarked, ExecM.bind_eq_ok, ExecM.lift_eq_ok, Exec.bind_eq_ok, hpure]
      constructor
      · rintro ⟨content, _, ⟨hcontent, rfl⟩, data, _, ⟨hdata, rfl⟩, ⟨⟩, u, hwrite, rfl, rfl⟩
        exact ⟨data, ⟨content, hcontent, hdata⟩, rfl, hwrite⟩
      · rintro ⟨data, ⟨content, hcontent, hdata⟩, rfl, hwrite⟩
        exact ⟨content, s, ⟨hcontent, rfl⟩, data, s, ⟨hdata, rfl⟩, (), t, hwrite, rfl, rfl⟩
    · simp only [if_neg hmarked, ExecM.bind_eq_ok, ExecM.lift_eq_ok, hpure]
      constructor
      · rintro ⟨content, _, ⟨hcontent, rfl⟩, ⟨⟩, u, hwrite, rfl, rfl⟩
        exact ⟨content, hcontent, rfl, hwrite⟩
      · rintro ⟨content, hcontent, rfl, hwrite⟩
        exact ⟨content, s, ⟨hcontent, rfl⟩, (), t, hwrite, rfl, rfl⟩

/-- What an entry emits is the payload of its source. -/
theorem emittedPayload_eq_ok {file : CpkInputFile} {bytes : List UInt8} :
    emittedPayload fs path p5rEncryption file = .ok bytes ↔
      sourcePayload fs path p5rEncryption file = .ok bytes := by
  have hwrite : ∀ bs : List UInt8, (writeAll bs : ExecM ByteStream Error Unit) ⟨[], 0⟩ =
      (.ok (), ⟨bs, bs.length⟩) := by
    intro bs
    rw [writeAll_at_end rfl, List.nil_append]
  constructor
  · intro h
    unfold emittedPayload ExecM.runOn at h
    rw [Exec.bind_eq_ok] at h
    obtain ⟨r, hr, h⟩ := h
    obtain rfl := Exec.ok.inj h
    rcases hrun : writeFilePayload fs path p5rEncryption file ⟨[], 0⟩ with ⟨_ | _ | _, u⟩ <;>
      rw [hrun] at hr
    · obtain rfl := Exec.ok.inj hr
      obtain ⟨bs, hbs, -, hout⟩ := writeFilePayload_eq_ok.mp hrun
      rw [hwrite, Prod.mk.injEq] at hout
      rw [hbs, ← hout.2]
    · cases hr
    · cases hr
  · intro h
    have hrun := writeFilePayload_eq_ok.mpr ⟨bytes, h, rfl, hwrite bytes⟩
    rw [emittedPayload, ExecM.runOn_of_ok hrun]
    rfl

/-- **A payload that is copied** from an archive: the sizes agree, the host can seek to it, and the
archive has all of its bytes. -/
theorem sourcePayload_raw {file : CpkInputFile} {raw : CpkRawPayload} {bytes : List UInt8}
    (hraw : file.rawPayload = some raw) :
    sourcePayload fs path p5rEncryption file = .ok bytes ↔
      raw.size = file.size ∧ raw.absoluteOffset.toNat < 2 ^ 63 ∧
        ∃ content, fs raw.archivePath = some content ∧
          (window content raw.absoluteOffset.toNat file.size.toNat).length = file.size.toNat ∧
          window content raw.absoluteOffset.toNat file.size.toNat = bytes := by
  unfold sourcePayload seekFile readFile
  simp only [hraw, Exec.bind_eq_ok, Exec.errIf_eq_ok, Exec.okOr_eq_ok, Exec.pure_eq,
    Exec.ok.injEq]
  constructor
  · rintro ⟨-, hsize, content, hcontent, -, hseek, -, hlen, hbytes⟩
    rw [not_not.mp hsize] at hlen hbytes
    exact ⟨not_not.mp hsize, Nat.not_le.mp hseek, content, hcontent, not_not.mp hlen, hbytes⟩
  · rintro ⟨hsize, hseek, content, hcontent, hlen, hbytes⟩
    rw [← hsize] at hlen hbytes
    exact ⟨(), not_not.mpr hsize, content, hcontent, (), Nat.not_le.mpr hseek, (),
      not_not.mpr hlen, hbytes⟩

/-- The payload of a source is read, or there is an external error. -/
theorem sourcePayload_ends (file : CpkInputFile) :
    (sourcePayload fs path p5rEncryption file).Ends (fun _ => True) External := by
  have hread : ∀ source, (readFile fs source).Ends (fun _ => True) External := fun source =>
    (Exec.ends_okOr fun _ _ h => by cases h).mono fun _ _ => trivial
  have hraw : ∀ (c : Prop) [Decidable c] (w : CpkWriterError),
      (Exec.errIf c (Error.writer w)).Ends (fun _ => True) External := fun c _ w =>
    (Exec.ends_errIf fun _ => external_writer w).mono fun _ _ => trivial
  have hseek : ∀ source offset, (seekFile source offset).Ends (fun _ => True) External :=
    fun _ _ => (Exec.ends_errIf fun _ _ _ h => by cases h).mono fun _ _ => trivial
  unfold sourcePayload
  split
  · exact (hraw _ _).bind fun _ _ => (hread _).bind fun _ _ => (hseek _ _).bind fun _ _ =>
      (hraw _ _).bind fun _ _ => trivial
  · split_ifs
    · refine (hread _).bind fun data _ => ?_
      rw [P5R.decryptInPlace_eq]
      trivial
    · exact hread _

/-- The bytes that `writeFilePayload` has put out when it stops: the payload, what there is of a
packed payload that is too short, or nothing. -/
def putPayload (fs : FileSystem) (path : P5RPath) (p5rEncryption : Bool)
    (file : CpkInputFile) : List UInt8 :=
  match file.rawPayload with
  | some raw =>
    if raw.size = file.size then
      match fs raw.archivePath with
      | some content =>
        if 2 ^ 63 ≤ raw.absoluteOffset.toNat then []
        else window content raw.absoluteOffset.toNat raw.size.toNat
      | none => []
    else []
  | none =>
    match sourcePayload fs path p5rEncryption file with
    | .ok bytes => bytes
    | _ => []

/-- All of a payload that can be read is put out. -/
theorem putPayload_of_ok {file : CpkInputFile} {bytes : List UInt8}
    (h : sourcePayload fs path p5rEncryption file = .ok bytes) :
    putPayload fs path p5rEncryption file = bytes := by
  unfold putPayload
  cases hraw : file.rawPayload with
  | some raw =>
    obtain ⟨hsize, hseek, content, hcontent, -, rfl⟩ := (sourcePayload_raw hraw).mp h
    simp only [hsize, if_true, hcontent, Nat.not_le.mpr hseek, if_false]
  | none => simp only [h]

/-- **Putting out a payload** ends as reading it does, whatever was put out by then.

**Proof sketch.** In each branch, what can fail before the write has put out nothing; after the
write, only the length is checked, and then all that was read has been put out. -/
theorem writeFilePayload_run {old acc : List UInt8} {s : ByteStream} (h : Overwritten old acc s)
    (file : CpkInputFile) : ∃ t, writeFilePayload fs path p5rEncryption file s =
      (sourcePayload fs path p5rEncryption file >>= fun bytes => .ok bytes.length, t) ∧
      Overwritten old (acc ++ putPayload fs path p5rEncryption file) t := by
  have hnothing : Overwritten old (acc ++ []) s := by rwa [List.append_nil]
  unfold writeFilePayload sourcePayload putPayload
  cases hraw : file.rawPayload with
  | some raw =>
    by_cases hsize : raw.size = file.size
    · simp only [hsize, ne_eq, not_true_eq_false, if_true]
      rw [Exec.errIf_of_not not_false, ExecM.bind_of_ok (ExecM.lift_apply _ s)]
      unfold readFile
      cases fs raw.archivePath with
      | none => exact ⟨s, rfl, hnothing⟩
      | some content =>
        rw [Exec.okOr_some, ExecM.bind_of_ok (ExecM.lift_apply _ s)]
        unfold seekFile
        by_cases hseek : 2 ^ 63 ≤ raw.absoluteOffset.toNat
        · simp only [Exec.errIf, if_pos hseek]
          exact ⟨s, rfl, hnothing⟩
        rw [Exec.errIf_of_not hseek, ExecM.bind_of_ok (ExecM.lift_apply _ s)]
        obtain ⟨t, ht, hover⟩ := writeAll_overwritten (ε := Error) h
          (window content raw.absoluteOffset.toNat file.size.toNat)
        refine ⟨t, ?_, by simpa only [if_neg hseek] using hover⟩
        rw [ExecM.bind_of_ok ht]
        by_cases hlen : (window content raw.absoluteOffset.toNat file.size.toNat).length =
            file.size.toNat
        · simp only [Exec.errIf, Exec.ok_bind, Exec.pure_eq, hlen, not_true_eq_false, if_false]
          rfl
        · simp only [Exec.errIf, Exec.ok_bind, hlen, not_false_eq_true, if_true]
          rfl
    · simp only [hsize, ne_eq, not_false_eq_true, if_false]
      exact ⟨s, rfl, hnothing⟩
  | none =>
    simp only [sourcePayload, hraw]
    split_ifs
    · unfold readFile
      cases fs file.sourcePath with
      | none => exact ⟨s, rfl, hnothing⟩
      | some content =>
        obtain ⟨t, ht, hover⟩ := writeAll_overwritten (ε := Error) h
          (P5R.transform content)
        have hdecrypt := P5R.decryptInPlace_eq path content
        rw [Exec.okOr_some, Exec.ok_bind, hdecrypt]
        refine ⟨t, ?_, hover⟩
        rw [ExecM.bind_of_ok (ExecM.lift_apply _ s), hdecrypt,
          ExecM.bind_of_ok (ExecM.lift_apply _ s), ExecM.bind_of_ok ht]
        rfl
    · unfold readFile
      cases fs file.sourcePath with
      | none => exact ⟨s, rfl, hnothing⟩
      | some content =>
        obtain ⟨t, ht, hover⟩ := writeAll_overwritten (ε := Error) h content
        refine ⟨t, ?_, hover⟩
        rw [Exec.okOr_some, ExecM.bind_of_ok (ExecM.lift_apply _ s), ExecM.bind_of_ok ht]
        rfl

/-- The payload of an entry, of the size the entry states. -/
def Emits (fs : FileSystem) (path : P5RPath) (p5rEncryption : Bool) (file : CpkInputFile)
    (bytes : List UInt8) : Prop :=
  emittedPayload fs path p5rEncryption file = .ok bytes ∧ bytes.length = file.size.toNat

/-- The payload of an entry can be read and has the size that the entry states. -/
def emittable (fs : FileSystem) (path : P5RPath) (p5rEncryption : Bool)
    (file : CpkInputFile) : Bool :=
  match sourcePayload fs path p5rEncryption file with
  | .ok bytes => bytes.length = file.size.toNat
  | _ => false

/-- **A payload is put out as a whole** iff what is put out is the payload. -/
theorem emittable_iff {file : CpkInputFile} : emittable fs path p5rEncryption file = true ↔
    Emits fs path p5rEncryption file (putPayload fs path p5rEncryption file) := by
  unfold emittable Emits
  rcases h : sourcePayload fs path p5rEncryption file with bytes | e | _
  · rw [putPayload_of_ok h, emittedPayload_eq_ok.mpr h]
    simp
  all_goals
    simp only [Bool.false_eq_true, emittedPayload_eq_ok, h, reduceCtorEq, false_and]

/-- What the loop over the entries puts out for each; it stops at the first entry that is not
emittable. -/
def putPayloads (fs : FileSystem) (path : P5RPath) (p5rEncryption : Bool) :
    List CpkInputFile → List (List UInt8)
  | [] => []
  | file :: files => putPayload fs path p5rEncryption file ::
      if emittable fs path p5rEncryption file = true then putPayloads fs path p5rEncryption files
      else []

/-- When all entries are emittable, their payloads are put out. -/
theorem putPayloads_of_emittable {files : List CpkInputFile}
    (h : ∀ f ∈ files, emittable fs path p5rEncryption f = true) :
    List.Forall₂ (Emits fs path p5rEncryption) files
      (putPayloads fs path p5rEncryption files) := by
  induction files with
  | nil => exact .nil
  | cons f files ih =>
    have hf := h f (List.mem_cons_self ..)
    rw [putPayloads, if_pos hf]
    exact .cons (emittable_iff.mp hf) (ih fun g hg => h g (List.mem_cons_of_mem _ hg))

/-- The payloads have the sizes of their entries. -/
theorem sizes_of_emits {files : List CpkInputFile} {payloads : List (List UInt8)}
    (h : List.Forall₂ (Emits fs path p5rEncryption) files payloads) :
    payloads.map List.length = files.map fun f => f.size.toNat := by
  induction h with
  | nil => rfl
  | cons hf _ ih => rw [List.map_cons, List.map_cons, hf.2, ih]

/-- **Payloads are put out** at the offsets of the placement, up to the first that is not
emittable: the loop adds one region for each entry, its position never lies behind the next
target, and it returns iff all entries are emittable.

**Proof sketch.** Induction on the physical order. A round fills up to the offset of its entry,
which is not behind the position, and puts out what can be read of the payload
(`writeFilePayload_run`). If the entry is emittable, the loop goes on from its end, which is not
behind the next offset; otherwise it stops with an error, of the payload itself or of its size. -/
theorem emitPayloads_run {files : List CpkInputFile} {offsets : List UInt64} {a : ℕ}
    (ha : 0 < a) {old : List UInt8} {order : List ℕ} (hfiles : ∀ i ∈ order, i < files.length)
    (hoffsets : offsets.length = files.length) {base : ℕ}
    (hplaced : (inOrder offsets order).map UInt64.toNat =
      place a base ((inOrder files order).map fun f => f.size.toNat))
    {acc : List UInt8} {s : ByteStream} (hover : Overwritten old acc s) (hbase : acc.length ≤ base) :
    ∃ r t, emitPayloads fs path p5rEncryption files offsets order s = (r, t) ∧
      Overwritten old (assemble 0 acc
        ((place a base ((inOrder files order).map fun f => f.size.toNat)).zip
          (putPayloads fs path p5rEncryption (inOrder files order)))) t ∧
      r.Ends (fun _ => ∀ f ∈ inOrder files order, emittable fs path p5rEncryption f = true)
        fun e => External e ∧
          ∃ f ∈ inOrder files order, emittable fs path p5rEncryption f = false := by
  induction order generalizing base acc s with
  | nil => exact ⟨_, s, rfl, hover, fun f hf => by cases hf⟩
  | cons index indices ih =>
    have hindex := hfiles index (List.mem_cons_self ..)
    have hindex' : index < offsets.length := by omega
    rw [inOrder_cons (List.getElem?_eq_getElem hindex),
      inOrder_cons (List.getElem?_eq_getElem hindex'), List.map_cons, List.map_cons, place,
      List.cons.injEq] at hplaced
    obtain ⟨htarget, hplaced⟩ := hplaced
    rw [inOrder_cons (List.getElem?_eq_getElem hindex), List.map_cons, place, putPayloads,
      List.zip_cons_cons, assemble]
    have hpos : ¬offsets[index].toNat < s.pos := by
      rw [htarget, hover.2]
      omega
    obtain ⟨t, ht, hfilled⟩ := fillTo_overwritten hover offsets[index].toNat
    rw [htarget] at hfilled
    have hstep : emitPayloads fs path p5rEncryption files offsets (index :: indices) s =
        (writeFilePayload fs path p5rEncryption files[index] >>= fun copied =>
          ExecM.lift (Exec.errIf (copied ≠ files[index].size.toNat)
            (.packedSizeChanged files[index].sourcePath files[index].size copied)) >>= fun _ =>
          emitPayloads fs path p5rEncryption files offsets indices) t := by
      rw [emitPayloads, Exec.index_eq hindex, Exec.index_eq hindex',
        ExecM.bind_of_ok (ExecM.lift_apply _ s), ExecM.bind_of_ok (ExecM.lift_apply _ s),
        ExecM.bind_of_ok (position_apply s), Exec.errIf_of_not hpos,
        ExecM.bind_of_ok (ExecM.lift_apply _ s), ExecM.bind_of_ok ht]
    obtain ⟨u, hu, hput⟩ := writeFilePayload_run hfilled files[index]
    rw [hstep]
    by_cases hemits : emittable fs path p5rEncryption files[index] = true
    · -- the entry is put out as planned, and the loop goes on
      obtain ⟨hbytes, hsize⟩ := emittable_iff.mp hemits
      rw [emittedPayload_eq_ok] at hbytes
      rw [hbytes, Exec.ok_bind] at hu
      have hlen : (acc ++ List.replicate (base - acc.length) 0 ++
          putPayload fs path p5rEncryption files[index]).length =
          base + (putPayload fs path p5rEncryption files[index]).length :=
        length_fill (r := (base, putPayload fs path p5rEncryption files[index])) hbase
      obtain ⟨r, v, hrest, hfinal, hends⟩ := ih (fun i hi => hfiles i (List.mem_cons_of_mem _ hi))
        hplaced hput (by rw [hlen, hsize]; exact le_alignTo ha _)
      refine ⟨r, v, ?_, by rwa [if_pos hemits], ?_⟩
      · rw [ExecM.bind_of_ok hu, Exec.errIf_of_not (not_not.mpr hsize),
          ExecM.bind_of_ok (ExecM.lift_apply _ u), hrest]
      · refine (hends.mono fun _ hall f hf => ?_).mono_err ?_
        · rcases List.mem_cons.mp hf with rfl | hf
          · exact hemits
          · exact hall f hf
        · rintro e ⟨hexternal, f, hf, hnot⟩
          exact ⟨hexternal, f, List.mem_cons_of_mem _ hf, hnot⟩
    · -- the loop stops after the entry
      rw [if_neg hemits, List.zip_nil_right, assemble]
      have hnot : ∃ f ∈ files[index] :: inOrder files indices,
          emittable fs path p5rEncryption f = false :=
        ⟨_, List.mem_cons_self .., Bool.eq_false_iff.mpr hemits⟩
      have hends : (sourcePayload fs path p5rEncryption files[index]).Ends (fun _ => True) External :=
        sourcePayload_ends files[index]
      rcases hsource : sourcePayload fs path p5rEncryption files[index] with bytes | e | _ <;>
        rw [hsource] at hu hends
      · have hsize : bytes.length ≠ files[index].size.toNat := fun hsize =>
          hemits (by simp [emittable, hsource, hsize])
        refine ⟨.err (.packedSizeChanged files[index].sourcePath files[index].size bytes.length), u,
          ?_, hput, ?_⟩
        · rw [ExecM.bind_of_ok hu, Exec.errIf, if_pos hsize,
            ExecM.bind_of_err (ExecM.lift_apply _ u)]
        · exact ⟨fun check w h => (by cases h), hnot⟩
      · exact ⟨_, u, ExecM.bind_of_err hu _, hput, hends, hnot⟩
      · exact hends.elim

/-- **Payloads are put out** at the offsets of the placement, or there is an external error. -/
theorem emitPayloads_ends {files : List CpkInputFile} {offsets : List UInt64} {a : ℕ}
    (ha : 0 < a) {old : List UInt8} {order : List ℕ} (hfiles : ∀ i ∈ order, i < files.length)
    (hoffsets : offsets.length = files.length) {base : ℕ}
    (hplaced : (inOrder offsets order).map UInt64.toNat =
      place a base ((inOrder files order).map fun f => f.size.toNat))
    {acc : List UInt8} {s : ByteStream} (hover : Overwritten old acc s) (hbase : acc.length ≤ base) :
    (emitPayloads fs path p5rEncryption files offsets order).Ends s (fun _ t =>
      ∃ payloads, List.Forall₂ (Emits fs path p5rEncryption) (inOrder files order) payloads ∧
        Overwritten old (assemble 0 acc
          ((place a base (payloads.map List.length)).zip payloads)) t) External := by
  obtain ⟨r, t, hrun, hout, hends⟩ := emitPayloads_run ha hfiles hoffsets hplaced hover hbase
  unfold ExecM.Ends
  rw [hrun]
  refine (hends.mono fun _ hall => ⟨_, putPayloads_of_emittable hall, ?_⟩).mono_err fun e he => he.1
  rwa [sizes_of_emits (putPayloads_of_emittable hall)]

end EmitPayloads

/-! ## The regions of an archive -/

/-- The region of the chunk of an index table. -/
def indexRegion (kind : CpkChunkKind) (offset : UInt64) :
    Option (List UInt8) → List (ℕ × List UInt8)
  | none => []
  | some table => [(offset.toNat, buildChunk kind table)]

/-- The regions before the contents: header, marker and indices. -/
def CpkPlan.indexRegions (p : CpkPlan) : List (ℕ × List UInt8) :=
  [(0, buildChunk .cpk p.headerTable), (copyrightMarkerOffset, copyrightMarker)] ++
    (indexRegion .toc p.tocOffset p.tocTable ++ indexRegion .itoc p.itocOffset p.itocTable)

/-- The regions of an archive with given payloads; the last one marks its end. -/
def CpkPlan.regions (p : CpkPlan) (a : ℕ) (payloads : List (List UInt8)) :
    List (ℕ × List UInt8) :=
  p.indexRegions ++ ((p.contentOffset.toNat, []) ::
    ((place a p.contentOffset.toNat (payloads.map List.length)).zip payloads ++
      [(p.archiveSize.toNat, [])]))

/-- The regions of an archive, as they are put out. -/
theorem regions_eq_append (p : CpkPlan) (a : ℕ) (payloads : List (List UInt8)) :
    p.regions a payloads = p.indexRegions ++ [(p.contentOffset.toNat, [])] ++
      (place a p.contentOffset.toNat (payloads.map List.length)).zip payloads ++
      [(p.archiveSize.toNat, [])] := by
  simp only [CpkPlan.regions, List.cons_append, List.nil_append, List.append_assoc]

section Regions

variable {files : List CpkInputFile} {options : CpkWriterOptions} {profile : CpkWriterProfile}
  {p : CpkPlan} (hp : p.Planned files options profile)

include hp

/-- The alignment of a plan is not zero. -/
theorem alignment_pos : 0 < options.alignment.toNat :=
  Nat.pos_of_isPowerOfTwo hp.alignment

/-- The end of the table of contents, and of the indices. -/
theorem indexEnd_le :
    0x800 ≤ indexEnd options.alignment.toNat 0x800 p.tocTable ∧
      indexEnd options.alignment.toNat 0x800 p.tocTable ≤
        indexEnd options.alignment.toNat (indexEnd options.alignment.toNat 0x800 p.tocTable)
          p.itocTable ∧
      indexEnd options.alignment.toNat (indexEnd options.alignment.toNat 0x800 p.tocTable)
        p.itocTable ≤ p.contentOffset.toNat := by
  have hle : ∀ (t : Option (List UInt8)) (cursor : ℕ),
      cursor ≤ indexEnd options.alignment.toNat cursor t := by
    intro t cursor
    cases t with
    | none => exact Nat.le_refl _
    | some t =>
      have h := le_alignTo (alignment_pos hp) (cursor + (0x10 + t.length))
      simp only [indexEnd]
      omega
  refine ⟨hle _ _, hle _ _, ?_⟩
  rw [hp.contentOffset]
  exact le_alignTo (alignment_pos hp) _

/-- The table of contents lies between `0x800` and its aligned end. -/
theorem tocRegion_bounds {table : List UInt8} (h : p.tocTable = some table) :
    p.tocOffset.toNat = 0x800 ∧
      0x800 + (buildChunk .toc table).length ≤
        indexEnd options.alignment.toNat 0x800 p.tocTable := by
  have htoc : profile.indexMode.hasToc = true := by
    by_contra hne
    have hnone := (hp.noToc (Bool.not_eq_true _ ▸ hne)).2
    rw [h] at hnone
    cases hnone
  rw [(hp.toc htoc).1, h, length_buildChunk (by simp)]
  exact ⟨rfl, le_alignTo (alignment_pos hp) _⟩

/-- The ID table lies between the aligned end of the table of contents and its own. -/
theorem itocRegion_bounds {table : List UInt8} (h : p.itocTable = some table) :
    p.itocOffset.toNat = indexEnd options.alignment.toNat 0x800 p.tocTable ∧
      p.itocOffset.toNat + (buildChunk .itoc table).length ≤
        indexEnd options.alignment.toNat (indexEnd options.alignment.toNat 0x800 p.tocTable)
          p.itocTable := by
  have hitoc : profile.indexMode.hasItoc = true := by
    by_contra hne
    have hnone := (hp.noItoc (Bool.not_eq_true _ ▸ hne)).2
    rw [h] at hnone
    cases hnone
  rw [(hp.itoc hitoc).1, h, length_buildChunk (by simp)]
  exact ⟨rfl, le_alignTo (alignment_pos hp) _⟩

/-- Header, marker and indices are in order and end at or before the contents.

**Proof sketch.** The header ends before the marker and the marker at `0x800`. Each index table
starts where the last one ended and ends, aligned, where the next one or the contents start
(`indexEnd_le`). -/
theorem inOrder_indexRegions :
    InOrder 0 p.indexRegions ∧ endOf 0 p.indexRegions ≤ p.contentOffset.toNat := by
  have hheader : (buildChunk .cpk p.headerTable).length ≤ 0x7fa := by
    have hfits := hp.headerFits
    rw [copyrightMarkerOffset] at hfits
    rw [length_buildChunk (by simp)]
    omega
  obtain ⟨h₁, h₂, h₃⟩ := indexEnd_le hp
  have htoc : InOrder 0x800 (indexRegion .toc p.tocOffset p.tocTable) ∧
      endOf 0x800 (indexRegion .toc p.tocOffset p.tocTable) ≤
        indexEnd options.alignment.toNat 0x800 p.tocTable := by
    cases h : p.tocTable with
    | none => exact ⟨trivial, Nat.le_refl _⟩
    | some table =>
      obtain ⟨hoffset, hend⟩ := tocRegion_bounds hp h
      rw [h] at hend
      exact ⟨⟨by simp [hoffset], trivial⟩, by simpa [indexRegion, endOf, hoffset] using hend⟩
  have hitoc : InOrder (indexEnd options.alignment.toNat 0x800 p.tocTable)
        (indexRegion .itoc p.itocOffset p.itocTable) ∧
      endOf (indexEnd options.alignment.toNat 0x800 p.tocTable)
        (indexRegion .itoc p.itocOffset p.itocTable) ≤ p.contentOffset.toNat := by
    cases h : p.itocTable with
    | none => exact ⟨trivial, Nat.le_trans h₂ h₃⟩
    | some table =>
      obtain ⟨hoffset, hend⟩ := itocRegion_bounds hp h
      exact ⟨⟨by simp [hoffset], trivial⟩, Nat.le_trans hend h₃⟩
  have hend : endOf 0x800 (indexRegion .toc p.tocOffset p.tocTable ++
      indexRegion .itoc p.itocOffset p.itocTable) ≤ p.contentOffset.toNat := by
    rw [endOf_append]
    cases h : p.itocTable with
    | none => exact Nat.le_trans htoc.2 (Nat.le_trans h₂ h₃)
    | some table => simpa [h, indexRegion, endOf] using hitoc.2
  refine ⟨⟨Nat.zero_le _, ?_, htoc.1.append (hitoc.1.mono htoc.2)⟩, hend⟩
  rw [copyrightMarkerOffset, Nat.zero_add]
  exact hheader

/-- **The regions of an archive** are in order, and the last one ends at its size. -/
theorem inOrder_regions {payloads : List (List UInt8)}
    (hsizes : payloads.map List.length =
      (inOrder files p.physicalOrder).map fun f => f.size.toNat) :
    InOrder 0 (p.regions options.alignment.toNat payloads) ∧
      endOf 0 (p.regions options.alignment.toNat payloads) = p.archiveSize.toNat := by
  obtain ⟨h₁, h₂⟩ := inOrder_indexRegions hp
  obtain ⟨h₃, h₄⟩ := inOrder_zip_place (alignment_pos hp) p.contentOffset.toNat payloads
  rw [hsizes, ← hp.archiveSize, ← hsizes] at h₄
  constructor
  · refine h₁.append ⟨h₂, ?_⟩
    exact InOrder.append h₃ ⟨h₄, trivial⟩
  · rw [CpkPlan.regions, endOf_append, endOf, endOf_append]
    rfl

/-- **Header, marker and indices are put out**, and the contents start at their offset.

**Proof sketch.** Follow the position of the writer: after header and marker it is at `0x800`; each
index table that is there is written at its offset, which is not behind the position; and zeros fill
up to the contents. What was put out is the assembly of these regions. -/
theorem emitArchive_head (fs : FileSystem) (path : P5RPath) (s : ByteStream) :
    ∃ t, emitArchive fs path files options p s =
        (emitPayloads fs path options.p5rEncryption files p.absoluteOffsets p.physicalOrder >>=
          fun _ => position >>= fun current => fillTo current p.archiveSize.toNat) t ∧
      Overwritten s.bytes (assemble 0 [] (p.indexRegions ++ [(p.contentOffset.toNat, [])])) t ∧
      (assemble 0 [] (p.indexRegions ++ [(p.contentOffset.toNat, [])])).length =
        p.contentOffset.toNat := by
  have hheader : (buildChunk .cpk p.headerTable).length ≤ copyrightMarkerOffset := by
    have hfits := hp.headerFits
    rw [length_buildChunk (by simp)]
    omega
  obtain ⟨h₁, h₂, h₃⟩ := indexEnd_le hp
  -- header and marker
  obtain ⟨s₁, hs₁, ho₁⟩ := writeAll_overwritten (ε := Error) (overwritten_start s.bytes)
    (buildChunk .cpk p.headerTable)
  obtain ⟨s₂, hs₂, ho₂⟩ := writeZeros_overwritten ho₁
    (copyrightMarkerOffset - (buildChunk .cpk p.headerTable).length)
  obtain ⟨s₃, hs₃, ho₃⟩ := writeAll_overwritten (ε := Error) ho₂ copyrightMarker
  have ho₃' : Overwritten s.bytes (assemble 0 [] [(0, buildChunk .cpk p.headerTable),
      (copyrightMarkerOffset, copyrightMarker)]) s₃ := by
    simpa [assemble] using ho₃
  have hl₃ : (assemble 0 [] [(0, buildChunk .cpk p.headerTable),
      (copyrightMarkerOffset, copyrightMarker)]).length = 0x800 := by
    exact Eq.trans (length_assemble ⟨Nat.zero_le _, by simpa using hheader, trivial⟩) rfl
  -- an index, or nothing
  have hindex : ∀ {acc : List UInt8} {u : ByteStream} (kind : CpkChunkKind) (offset : UInt64)
      (table : Option (List UInt8)), Overwritten s.bytes acc u →
      (∀ t, table = some t → acc.length ≤ offset.toNat) →
      ∃ v, emitIndex kind offset table u = (.ok (), v) ∧
        Overwritten s.bytes (assemble 0 acc (indexRegion kind offset table)) v := by
    intro acc u kind offset table hover hle
    cases table with
    | none => exact ⟨u, rfl, hover⟩
    | some table => exact writeAt_overwritten hover (hle table rfl) _
  obtain ⟨s₄, hs₄, ho₄⟩ := hindex .toc p.tocOffset p.tocTable ho₃' fun t ht => by
    rw [hl₃, (tocRegion_bounds hp ht).1]
  rw [← assemble_append] at ho₄
  have hl₄ : (assemble 0 [] ([(0, buildChunk .cpk p.headerTable),
      (copyrightMarkerOffset, copyrightMarker)] ++
        indexRegion .toc p.tocOffset p.tocTable)).length ≤
        indexEnd options.alignment.toNat 0x800 p.tocTable := by
    rw [assemble_append]
    cases ht : p.tocTable with
    | none =>
      rw [indexRegion, assemble, hl₃]
      exact Nat.le_refl _
    | some table =>
      obtain ⟨hoffset, hend⟩ := tocRegion_bounds hp ht
      rw [ht] at hend
      rw [indexRegion, assemble, assemble, length_fill (by rw [hl₃, hoffset]), hoffset]
      exact hend
  obtain ⟨s₅, hs₅, ho₅⟩ := hindex .itoc p.itocOffset p.itocTable ho₄ fun t ht => by
    rw [(itocRegion_bounds hp ht).1]
    exact hl₄
  rw [← assemble_append, List.append_assoc] at ho₅
  obtain ⟨s₆, hs₆, ho₆⟩ := fillTo_overwritten ho₅ p.contentOffset.toNat
  -- the contents start at their offset
  have hl₅ : (assemble 0 [] p.indexRegions).length ≤ p.contentOffset.toNat := by
    obtain ⟨hin, hend⟩ := inOrder_indexRegions hp
    have hlen : (assemble 0 [] p.indexRegions).length = endOf 0 p.indexRegions :=
      length_assemble hin
    rw [hlen]
    exact hend
  have ho₆' : Overwritten s.bytes
      (assemble 0 (assemble 0 [] p.indexRegions) [(p.contentOffset.toNat, [])]) s₆ := by
    rw [assemble, assemble, List.append_nil]
    exact ho₆
  have hl₆ : (assemble 0 (assemble 0 [] p.indexRegions) [(p.contentOffset.toNat, [])]).length =
      p.contentOffset.toNat := by
    exact Eq.trans (length_assemble ⟨hl₅, trivial⟩) rfl
  refine ⟨s₆, ?_, by rwa [assemble_append], by rwa [assemble_append]⟩
  rw [emitArchive, ExecM.bind_of_ok (seek_apply 0 s), ExecM.bind_of_ok hs₁,
    Exec.errIf_of_not (Nat.not_lt.mpr hheader), ExecM.bind_of_ok (ExecM.lift_apply _ s₁),
    ExecM.bind_of_ok hs₂, ExecM.bind_of_ok hs₃, ExecM.bind_of_ok hs₄, ExecM.bind_of_ok hs₅,
    ExecM.bind_of_ok (position_apply s₅), ExecM.bind_of_ok hs₆]

/-- **The output of an archive** on any stream: an error that no internal check returns, or the
assembly of the regions over what the stream held. -/
theorem emitArchive_ends (fs : FileSystem) (path : P5RPath) (s : ByteStream) :
    (emitArchive fs path files options p).Ends s (fun _ t => ∃ payloads,
      List.Forall₂ (Emits fs path options.p5rEncryption) (inOrder files p.physicalOrder) payloads ∧
      Overwritten s.bytes
        (assemble 0 [] (p.regions options.alignment.toNat payloads)) t) External := by
  obtain ⟨hperm, -, -⟩ := buildPhysicalOrder_spec hp.order
  obtain ⟨t, hrun, hover, hlen⟩ := emitArchive_head hp fs path s
  refine ExecM.Ends.of_run hrun ?_
  refine (emitPayloads_ends (alignment_pos hp) (fun i hi => List.mem_range.mp
    (hperm.mem_iff.mp hi)) hp.lengthOffsets hp.placed hover hlen.le).bind ?_
  rintro _ u ⟨payloads, hpayloads, hu⟩
  obtain ⟨v, hv, hend⟩ := fillTo_overwritten hu p.archiveSize.toNat
  refine ExecM.ends_bind_of_ok (position_apply u) ?_
  unfold ExecM.Ends
  rw [hv]
  refine ⟨payloads, hpayloads, ?_⟩
  rw [regions_eq_append, assemble_append, assemble_append, assemble, assemble, List.append_nil]
  exact hend

end Regions

/-- **The writer** on any stream: an error that no internal check returns, or the report of the
plan and the assembly of its regions. -/
theorem writeWithProfile_ends (fs : FileSystem) (path : P5RPath) (files : List CpkInputFile)
    (options : CpkWriterOptions) (profile : CpkWriterProfile) (s : ByteStream) :
    (writeWithProfile fs path files options profile).Ends s (fun report t =>
      ∃ plan payloads, planArchive files options profile = .ok plan ∧ report = plan.report ∧
        plan.Planned files options profile ∧
        List.Forall₂ (Emits fs path options.p5rEncryption) (inOrder files plan.physicalOrder)
          payloads ∧
        Overwritten s.bytes
          (assemble 0 [] (plan.regions options.alignment.toNat payloads)) t) External := by
  unfold writeWithProfile
  refine (ExecM.ends_lift (planArchive_ends files options profile).with_ok).bind ?_
  rintro plan u ⟨⟨hplan, hp⟩, hu⟩
  refine (emitArchive_ends hp fs path u).bind ?_
  rintro _ t ⟨payloads, hpayloads, hover⟩
  rw [hu] at hover
  exact ⟨plan, payloads, hplan, rfl, hp, hpayloads, hover⟩

/-! ## A small archive -/

/-- A file whose bytes start like compressed data. -/
def sampleCompressed : List UInt8 :=
  [0x43, 0x52, 0x49, 0x4c, 0x41, 0x59, 0x4c, 0x41, 0, 0, 0, 0, 0, 0, 0, 0] ++
    List.replicate 0x100 9

/-- Two files. -/
def sampleFileSystem : FileSystem := fun source =>
  if source = [0x61] then some [1, 2, 3]
  else if source = [0x62] then some sampleCompressed
  else none

/-- The entries of the two files, not in the order of their IDs. -/
def sampleFiles : List CpkInputFile :=
  [⟨"d", "b", [0x62], 272, 272, 7, "u", none⟩, ⟨"d", "a", [0x61], 3, 3, 3, "", none⟩]

/-- A profile for an index mode. -/
def sampleProfile (mode : CpkIndexMode) : CpkWriterProfile :=
  ⟨mode, false, 7, 14, 20, "t", ""⟩

/-- The two files can be packed with both indexes. -/
theorem sampleRun_tocAndItoc : ∃ out : ByteStream,
    writeWithProfile sampleFileSystem .u64 sampleFiles ⟨16, false⟩ (sampleProfile .tocAndItoc)
      ⟨[], 0⟩ = (.ok ⟨2, 2048, 2288, 2576, 2864⟩, out) :=
  ExecM.exists_of_fst (by decide +kernel)

/-- The two files can be packed with an ID table only. -/
theorem sampleRun_itoc : ∃ out : ByteStream,
    writeWithProfile sampleFileSystem .u64 sampleFiles ⟨16, false⟩ (sampleProfile .itoc)
      ⟨[], 0⟩ = (.ok ⟨2, 0, 2048, 2336, 2624⟩, out) :=
  ExecM.exists_of_fst (by decide +kernel)

/-- The tables of the small archive are small. -/
theorem sampleRun_tables {plan : CpkPlan}
    (h : planArchive sampleFiles ⟨16, false⟩ (sampleProfile .tocAndItoc) = .ok plan) :
    ∀ table ∈ plan.tables, table.length < 2 ^ 32 := by
  obtain ⟨plan', hplan, hall⟩ : ∃ plan',
      planArchive sampleFiles ⟨16, false⟩ (sampleProfile .tocAndItoc) = .ok plan' ∧
        ∀ table ∈ plan'.tables, table.length < 2 ^ 32 := by
    decide +kernel
  obtain rfl := Exec.ok.inj (h.symm.trans hplan)
  exact hall

end CriArchive
