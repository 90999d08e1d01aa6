import CriArchive.Cli.Path
import CriArchive.Cpk.Writer.Pack
import CriArchive.Lib.Tree

set_option relaxedAutoImplicit false
set_option autoImplicit false

/-!
# Packing a directory without a manifest

`collect_files` walks the input directory, whose entries come in an order that the host chooses,
and sorts what it finds. The sort is stable and its key does not tell `A` from `a`, so that the
order of the host can show in the IDs and in the archive.

## Main definitions

* `Directory`, `Directory.Reordered` — a directory of a host, and another order of its entries.
* `foundFile`, `Directory.found` — what the walk of `collect_files` meets.
* `Deterministic` — the order of the entries does not show.
* `OrderFree` — when that is so.

## Main results

* `collectFiles_found` — what `collect_files` gives for a directory.
* `deterministic_iff` — packing is deterministic iff no two ties can come in both orders.
-/

namespace CriArchive

open StdPath Entries

/-! ## Directories -/

/-- A directory that a host can hold, with a value for each file: the names in each directory are
different, and the host allows them. -/
structure Directory (host : Host) (α : Type) where
  entries : Entries (List UInt8) α
  proper : entries.Proper
  ordinary : ∀ f ∈ entries.listing, ∀ v ∈ f.1, Ordinary host v

namespace Directory

variable {host : Host} {α : Type}

/-- The files of a directory, in the order in which a walk meets them. -/
def files (d : Directory host α) : List (List (List UInt8) × α) := walk [([], d.entries)]

/-- The same directory, when its entries are read in another order. -/
def Reordered (d d' : Directory host α) : Prop := d.entries.Reordered d'.entries

/-- A directory, with its entries in another order. -/
def reorder (d : Directory host α) {es : Entries (List UInt8) α} (h : d.entries.Reordered es) :
    Directory host α where
  entries := es
  proper := h.proper d.proper
  ordinary f hf := d.ordinary f (h.perm.mem_iff.mpr hf)

/-- The files of a directory are those of its entries. -/
theorem files_eq (d : Directory host α) : d.files = d.entries.listing := walk_root d.entries

/-- A reordered directory has the same files. -/
theorem Reordered.perm {d d' : Directory host α} (h : d.Reordered d') : d.files.Perm d'.files := by
  rw [files_eq, files_eq]
  exact Entries.Reordered.perm h

/-- A file has a name. -/
theorem ne_nil_of_mem_files {d : Directory host α} {f : List (List UInt8) × α} (h : f ∈ d.files) :
    f.1 ≠ [] := by
  rw [files_eq] at h
  obtain ⟨name, p, hp, -⟩ := exists_of_mem_listing h
  rw [hp]
  exact List.cons_ne_nil _ _

/-- The names of a file in a directory are ordinary. -/
theorem ordinary_of_mem_files {d : Directory host α} {f : List (List UInt8) × α}
    (h : f ∈ d.files) : ∀ v ∈ f.1, Ordinary host v :=
  d.ordinary f (d.files_eq ▸ h)

/-- A file of a directory is known by its names. -/
theorem eq_of_mem_files {d : Directory host α} {f g : List (List UInt8) × α} (hf : f ∈ d.files)
    (hg : g ∈ d.files) (h : f.1 = g.1) : f = g := by
  rw [files_eq] at hf hg
  have hpairs := (pairwise_listing d.proper).imp fun h => h.ne
  have hnodup : (d.entries.listing.map Prod.fst).Nodup := List.pairwise_map.mpr hpairs
  exact List.inj_on_of_nodup_map hnodup hf hg h

end Directory

/-! ## What is found -/

section Found

variable (host : Host) (root : PathBuf) (isOutput : PathBuf → Bool)

/-- What the walk meets: a file with the names from the input directory to it, and its size. -/
def foundFile (f : List (List UInt8) × UInt64) : FoundFile where
  path := below host root f.1
  parents := f.1.dropLast
  name := f.1.getLastD []
  size := f.2
  isOutput := isOutput (below host root f.1)

/-- What the walk of `collect_files` meets. -/
def Directory.found (d : Directory host UInt64) : List (Exec Error FoundFile) :=
  d.files.map fun f => .ok (foundFile host root isOutput f)

/-- **The order of the entries does not show:** neither in the files that are collected, nor in the
archive. -/
def Deterministic (d : Directory host UInt64) : Prop :=
  ∀ d₁ d₂ : Directory host UInt64, d.Reordered d₁ → d.Reordered d₂ →
    (∀ files, collectFiles (d₁.found host root isOutput) = .ok files ↔
      collectFiles (d₂.found host root isOutput) = .ok files) ∧
    ∀ (path : P5RPath) (outputFile : PathBuf) (seen : List UInt8) (options : CpkWriterOptions)
      (fs : FileSystem),
      (packDirectory path outputFile seen (d₁.found host root isOutput) options fs).2 =
        (packDirectory path outputFile seen (d₂.found host root isOutput) options fs).2

/-- A file that is collected: no manifest, and not the output. -/
def isCollected (f : List (List UInt8) × UInt64) : Bool := !(foundFile host root isOutput f).skipped

/-- A file that can be packed: its names are UTF-8, and its size fits in 32 bits. -/
def isPackable (f : List (List UInt8) × UInt64) : Bool :=
  f.1.all (fun v => (Utf8.decode v).isSome) && decide (f.2.toNat < 2 ^ 32)

/-- A byte of the key of a path. -/
def keyByte (b : UInt8) : UInt8 :=
  if b = 0x5c then 0x2f else if 0x61 ≤ b ∧ b ≤ 0x7a then b - 0x20 else b

/-- The key of a path, from its names. -/
def pathKey (names : List (List UInt8)) : List UInt8 := (joined 0x2f names).map keyByte

/-- No two files that can come in both orders have one key. -/
def NoTies (d : Directory host UInt64) : Prop :=
  ∀ f ∈ d.files, ∀ g ∈ d.files, isCollected host root isOutput f = true →
    isCollected host root isOutput g = true → pathKey f.1 = pathKey g.1 →
      MayPrecede f.1 g.1 → ¬MayPrecede g.1 f.1

/-- **When the order of the entries does not show:** a file cannot be packed, there are too many, or
there are no ties. -/
def OrderFree (d : Directory host UInt64) : Prop :=
  (∃ f ∈ d.files, isCollected host root isOutput f = true ∧ isPackable f = false) ∨
  2 ^ 32 < (d.files.filter (isCollected host root isOutput)).length ∨
  NoTies host root isOutput d

end Found

/-! ## Collecting -/

section Collect

variable {host : Host} {root : PathBuf} {isOutput : PathBuf → Bool}

/-- Texts that were decoded are the texts of the names. -/
theorem mapM_decode_eq_ok {ε : Type} {names : List (List UInt8)} {parts : List String} {e : ε}
    (h : (names.mapM fun v => Exec.okOr (Utf8.decode v) e) = .ok parts) :
    (∀ v ∈ names, (Utf8.decode v).isSome = true) ∧ parts.map String.asBytes = names := by
  have hparts := Exec.mapM_eq_ok.mp h
  clear h
  induction hparts with
  | nil => exact ⟨by simp, rfl⟩
  | cons hv _ ih =>
    have hv' := Exec.okOr_eq_ok.mp hv
    refine ⟨List.forall_mem_cons.mpr ⟨by rw [hv']; rfl, ih.1⟩, ?_⟩
    rw [List.map_cons, ih.2, Utf8.decode_eq_some hv']

/-- The bytes of joined strings are joined. -/
theorem asBytes_append (s t : String) : (s ++ t).asBytes = s.asBytes ++ t.asBytes := by
  rw [String.asBytes, String.toList_append, Utf8.encode_append]
  rfl

/-- The bytes of strings joined with slashes. -/
theorem asBytes_intercalate (parts : List String) :
    ("/".intercalate parts).asBytes = joined 0x2f (parts.map String.asBytes) := by
  induction parts with
  | nil => rfl
  | cons s parts ih =>
    cases parts with
    | nil => simp [joined]
    | cons t parts =>
      rw [String.intercalate_cons_cons, asBytes_append, asBytes_append, ih, List.append_assoc]
      rfl

/-- Names that are text have texts. -/
theorem exists_mapM_decode {ε : Type} {names : List (List UInt8)}
    (h : ∀ v ∈ names, (Utf8.decode v).isSome = true) (e : ε) :
    ∃ parts, (names.mapM fun v => Exec.okOr (Utf8.decode v) e) = .ok parts := by
  simp only [Exec.mapM_eq_ok, Exec.okOr_eq_ok]
  induction names with
  | nil => exact ⟨[], .nil⟩
  | cons v names ih =>
    obtain ⟨hv, hnames⟩ := List.forall_mem_cons.mp h
    obtain ⟨s, hs⟩ := Option.isSome_iff_exists.mp hv
    obtain ⟨parts, hparts⟩ := ih hnames
    exact ⟨s :: parts, .cons hs hparts⟩

/-- Names that are UTF-8 make a string. -/
theorem exists_pathToCriString {names : List (List UInt8)}
    (h : ∀ v ∈ names, (Utf8.decode v).isSome = true) : ∃ s, pathToCriString names = .ok s := by
  obtain ⟨parts, hparts⟩ := exists_mapM_decode h (Error.writer (.nonUtf8Path (joinSlash names)))
  exact ⟨_, Exec.bind_eq_ok.mpr ⟨parts, hparts, rfl⟩⟩

/-- The text of a path is its names with slashes between them. -/
theorem pathToCriString_eq_ok {names : List (List UInt8)} {s : String}
    (h : pathToCriString names = .ok s) :
    (∀ v ∈ names, (Utf8.decode v).isSome = true) ∧ s.asBytes = joined 0x2f names := by
  obtain ⟨parts, hparts, hs⟩ := Exec.bind_eq_ok.mp h
  obtain rfl := Exec.ok.inj hs
  obtain ⟨hdecode, hbytes⟩ := mapM_decode_eq_ok hparts
  exact ⟨hdecode, by rw [asBytes_intercalate, hbytes]⟩

/-- **One round of the loop** takes a file that can be packed, under the key of its path.

**Proof sketch.** That the round returned means that the names are UTF-8 and that the size fits 32
bits. The key of the input is made of its directory and its name; these are the names joined with
slashes, where an empty directory has no slash. -/
theorem toInput_eq_ok {f : List (List UInt8) × UInt64} (hord : ∀ v ∈ f.1, Ordinary host v)
    (hne : f.1 ≠ []) {input : CpkInputFile}
    (h : (foundFile host root isOutput f).toInput = .ok input) :
    isPackable f = true ∧ input.sourcePath = below host root f.1 ∧ input.id = 0 ∧
      enginePathKey input = pathKey f.1 := by
  obtain ⟨fileName, hname, h⟩ := Exec.bind_eq_ok.mp h
  obtain ⟨directory, hdirectory, h⟩ := Exec.bind_eq_ok.mp h
  obtain ⟨size, hsize, h⟩ := Exec.bind_eq_ok.mp h
  obtain rfl := Exec.ok.inj h
  obtain ⟨parents, name, hf⟩ : ∃ parents name, f.1 = parents ++ [name] :=
    ⟨_, _, (List.dropLast_append_getLast hne).symm⟩
  have hparents : (foundFile host root isOutput f).parents = parents := by simp [foundFile, hf]
  have hlast : (foundFile host root isOutput f).name = name := by simp [foundFile, hf]
  rw [hlast] at hname
  rw [hparents] at hdirectory
  have hname' := Exec.okOr_eq_ok.mp hname
  obtain ⟨hdecode, hbytes⟩ := pathToCriString_eq_ok hdirectory
  have hlt : size.toNat = f.2.toNat := UInt32.tryFrom_eq_some.mp (Exec.okOr_eq_ok.mp hsize)
  refine ⟨?_, rfl, rfl, ?_⟩
  · rw [isPackable, Bool.and_eq_true, List.all_eq_true, decide_eq_true_eq, ← hlt]
    refine ⟨fun v hv => ?_, size.toNat_lt⟩
    rw [hf, List.mem_append, List.mem_singleton] at hv
    obtain hv | rfl := hv
    · exact hdecode v hv
    · rw [hname']
      rfl
  · have hkey : enginePathKey ⟨directory, fileName, below host root f.1, size, size, 0, "", none⟩ =
        ((if directory = "" then [] else directory.asBytes ++ [0x2f]) ++ fileName.asBytes).map
          keyByte := rfl
    apply hkey.trans
    rw [pathKey, hf, Utf8.decode_eq_some hname']
    congr 1
    by_cases hnil : parents = []
    · subst hnil
      obtain rfl : "" = directory := Exec.ok.inj hdirectory
      simp [joined]
    · have hdirectory' : directory ≠ "" := by
        rintro rfl
        obtain ⟨v, vs, rfl⟩ := List.exists_cons_of_ne_nil hnil
        have hv : v ≠ [] := (hord v (by simp [hf])).ne_nil
        exact hv (List.append_eq_nil_iff.mp hbytes.symm).1
      rw [if_neg hdirectory', hbytes, joined_append 0x2f hnil]
      simp

/-- A file that can be packed becomes an input. -/
theorem exists_toInput {f : List (List UInt8) × UInt64} (hne : f.1 ≠ [])
    (h : isPackable f = true) : ∃ input, (foundFile host root isOutput f).toInput = .ok input := by
  rw [isPackable, Bool.and_eq_true, List.all_eq_true, decide_eq_true_eq] at h
  obtain ⟨hdecode, hsize⟩ := h
  obtain ⟨parents, name, hf⟩ : ∃ parents name, f.1 = parents ++ [name] :=
    ⟨_, _, (List.dropLast_append_getLast hne).symm⟩
  have hparents : (foundFile host root isOutput f).parents = parents := by simp [foundFile, hf]
  have hlast : (foundFile host root isOutput f).name = name := by simp [foundFile, hf]
  obtain ⟨fileName, hname⟩ := Option.isSome_iff_exists.mp (hdecode name (by simp [hf]))
  have hdecodes : ∀ v ∈ parents, (Utf8.decode v).isSome = true := fun v hv =>
    hdecode v (by simp [hf, hv])
  obtain ⟨directory, hdirectory⟩ := exists_pathToCriString hdecodes
  have hsize' : UInt32.tryFrom f.2.toNat = some (UInt32.ofNat f.2.toNat) := if_pos hsize
  rw [FoundFile.toInput, hparents, hlast, hname, hdirectory]
  change ∃ input, (Exec.okOr (UInt32.tryFrom f.2.toNat) _ >>= _) = _
  rw [hsize']
  exact ⟨_, rfl⟩

end Collect

/-! ## Sorting and numbering -/

section Number

/-- The order of the sort. -/
def comesFirst (a b : CpkInputFile) : Bool :=
  decide (enginePathKey a < enginePathKey b) ||
    (enginePathKey a == enginePathKey b && decide (a.id ≤ b.id))

/-- **The order of the sort:** by key, then by ID. -/
theorem comesFirst_iff {a b : CpkInputFile} :
    comesFirst a b = true ↔ enginePathKey a < enginePathKey b ∨
      enginePathKey a = enginePathKey b ∧ a.id ≤ b.id := by
  simp [comesFirst]

/-- The order of the sort is transitive. -/
theorem comesFirst_trans (a b c : CpkInputFile) (hab : comesFirst a b = true)
    (hbc : comesFirst b c = true) : comesFirst a c = true := by
  rw [comesFirst_iff] at *
  rcases hab with hab | ⟨hab, hid⟩ <;> rcases hbc with hbc | ⟨hbc, hid'⟩
  · exact .inl (List.lt_trans hab hbc)
  · exact .inl (hbc ▸ hab)
  · exact .inl (hab ▸ hbc)
  · exact .inr ⟨hab.trans hbc, UInt32.le_trans hid hid'⟩

/-- The order of the sort is total. -/
theorem comesFirst_total (a b : CpkInputFile) : (comesFirst a b || comesFirst b a) = true := by
  rw [Bool.or_eq_true, comesFirst_iff, comesFirst_iff]
  by_cases hab : enginePathKey a < enginePathKey b
  · exact .inl (.inl hab)
  by_cases hba : enginePathKey b < enginePathKey a
  · exact .inr (.inl hba)
  have heq : enginePathKey a = enginePathKey b :=
    List.le_antisymm (List.not_lt.mp hba) (List.not_lt.mp hab)
  exact (UInt32.le_total a.id b.id).imp (fun hid => .inr ⟨heq, hid⟩) fun hid => .inr ⟨heq.symm, hid⟩

/-- The files with their positions as IDs. -/
def numbered : ℕ → List CpkInputFile → List CpkInputFile
  | _, [] => []
  | index, f :: files => { f with id := UInt32.ofNat index } :: numbered (index + 1) files

/-- Files get their positions as IDs. -/
theorem numberFiles_eq (count : ℕ) {index : ℕ} {files : List CpkInputFile}
    (h : index + files.length ≤ 2 ^ 32) :
    numberFiles count index files = .ok (numbered index files) := by
  induction files generalizing index with
  | nil => rfl
  | cons f files ih =>
    rw [List.length_cons] at h
    have hid : UInt32.tryFrom index = some (UInt32.ofNat index) := if_pos (by omega)
    rw [numberFiles, hid, Exec.okOr_some, Exec.ok_bind, ih (by omega), Exec.ok_bind, numbered]
    rfl

/-- More than `2^32` files have no numbers. -/
theorem numberFiles_ne_ok {count index : ℕ} {files r : List CpkInputFile}
    (hindex : index ≤ 2 ^ 32) (h : 2 ^ 32 < index + files.length) :
    numberFiles count index files ≠ .ok r := by
  induction files generalizing index r with
  | nil => exact absurd h (by simpa using hindex)
  | cons f files ih =>
    intro hr
    obtain ⟨id, hid, hr⟩ := Exec.bind_eq_ok.mp hr
    obtain ⟨rest, hrest, -⟩ := Exec.bind_eq_ok.mp hr
    have hlt := id.toNat_lt
    rw [UInt32.tryFrom_eq_some.mp (Exec.okOr_eq_ok.mp hid)] at hlt
    rw [List.length_cons] at h
    exact ih (by omega) (by omega) hrest

/-- Numbering keeps files apart that had no number. -/
theorem numbered_inj {index : ℕ} {files files' : List CpkInputFile} (h : ∀ f ∈ files, f.id = 0)
    (h' : ∀ f ∈ files', f.id = 0) (heq : numbered index files = numbered index files') :
    files = files' := by
  have hback : ∀ {l : List CpkInputFile}, (∀ f ∈ l, f.id = 0) → ∀ index : ℕ,
      (numbered index l).map (fun f => { f with id := 0 }) = l := by
    intro l hl
    induction l with
    | nil => exact fun _ => rfl
    | cons f l ih =>
      obtain ⟨hf, hl⟩ := List.forall_mem_cons.mp hl
      intro index
      rw [numbered, List.map_cons, ih hl, ← hf]
  rw [← hback h index, heq, hback h' index]

end Number

/-! ## Orders of reading -/

section Main

variable {host : Host} {root : PathBuf} {isOutput : PathBuf → Bool} {d : Directory host UInt64}

/-- The input of a file that is collected. -/
def collected (host : Host) (root : PathBuf) (isOutput : PathBuf → Bool)
    (f : List (List UInt8) × UInt64) : Option CpkInputFile :=
  if isCollected host root isOutput f then (foundFile host root isOutput f).toInput.value? else none

/-- Every file that is collected can be packed. -/
def AllPackable (host : Host) (root : PathBuf) (isOutput : PathBuf → Bool)
    (d : Directory host UInt64) : Prop :=
  ∀ f ∈ d.files, isCollected host root isOutput f = true → isPackable f = true

/-- What is collected of a file: its path, no ID yet, and its key. -/
theorem collected_eq_some {f : List (List UInt8) × UInt64} (hf : f ∈ d.files)
    {input : CpkInputFile} (h : collected host root isOutput f = some input) :
    isCollected host root isOutput f = true ∧ input.sourcePath = below host root f.1 ∧
      input.id = 0 ∧ enginePathKey input = pathKey f.1 := by
  obtain ⟨hcollected, hvalue⟩ := Option.ite_none_right_eq_some.mp h
  have hinput := toInput_eq_ok (Directory.ordinary_of_mem_files hf)
    (Directory.ne_nil_of_mem_files hf) (Exec.value?_eq_some.mp hvalue)
  exact ⟨hcollected, hinput.2⟩

/-- A file that is to be collected is, when all can be packed. -/
theorem exists_collected (hall : AllPackable host root isOutput d)
    {f : List (List UInt8) × UInt64} (hf : f ∈ d.files)
    (h : isCollected host root isOutput f = true) :
    ∃ input, collected host root isOutput f = some input := by
  obtain ⟨input, hinput⟩ : ∃ input, (foundFile host root isOutput f).toInput = .ok input :=
    exists_toInput (Directory.ne_nil_of_mem_files hf) (hall f hf h)
  exact ⟨input, Option.ite_none_right_eq_some.mpr ⟨h, Exec.value?_eq_some.mpr hinput⟩⟩

/-- A round of the loop of `collect_files`. -/
def collectRound (entry : Exec Error FoundFile) : Exec Error (Option CpkInputFile) := do
  let f ← entry
  if f.skipped then pure none else some <$> f.toInput

/-- `collect_files`, by its rounds. -/
theorem collectFiles_eq (found : List (Exec Error FoundFile)) :
    collectFiles found = (found.filterMapM collectRound >>= fun result =>
      numberFiles result.length 0 (result.mergeSort comesFirst)) := rfl

/-- A file that is skipped gives nothing. -/
theorem collectRound_of_not_collected {f : List (List UInt8) × UInt64}
    (h : isCollected host root isOutput f = false) :
    collectRound (.ok (foundFile host root isOutput f)) = .ok none := by
  rw [isCollected, Bool.not_eq_false'] at h
  rw [collectRound, Exec.ok_bind, if_pos h]
  rfl

/-- A file that is not skipped gives its input. -/
theorem collectRound_of_collected {f : List (List UInt8) × UInt64}
    (h : isCollected host root isOutput f = true) :
    collectRound (.ok (foundFile host root isOutput f)) =
      some <$> (foundFile host root isOutput f).toInput := by
  rw [isCollected, Bool.not_eq_true'] at h
  rw [collectRound, Exec.ok_bind, if_neg (by rw [h]; decide)]

/-- A round returns what is collected of the file. -/
theorem collectRound_eq (hall : AllPackable host root isOutput d) {f : List (List UInt8) × UInt64}
    (hf : f ∈ d.files) :
    collectRound (.ok (foundFile host root isOutput f)) = .ok (collected host root isOutput f) := by
  cases h : isCollected host root isOutput f with
  | false =>
    rw [collectRound_of_not_collected h, collected, if_neg (by rw [h]; decide)]
  | true =>
    obtain ⟨input, hinput⟩ : ∃ input, (foundFile host root isOutput f).toInput = .ok input :=
      exists_toInput (Directory.ne_nil_of_mem_files hf) (hall f hf h)
    rw [collectRound_of_collected h, collected, if_pos h, hinput]
    rfl

/-- What is collected, before it is sorted. -/
theorem filterMapM_collectRound (hall : AllPackable host root isOutput d) :
    (d.found host root isOutput).filterMapM collectRound =
      .ok (d.files.filterMap (collected host root isOutput)) := by
  have hround : ∀ entry ∈ d.found host root isOutput,
      collectRound entry = .ok (collectRound entry).value?.join := by
    intro entry hentry
    obtain ⟨f, hf, rfl⟩ := List.mem_map.mp hentry
    rw [collectRound_eq hall hf]
    rfl
  rw [Exec.filterMapM_of_ok hround, Directory.found, List.filterMap_map]
  refine congrArg _ (List.filterMap_congr fun f hf => ?_)
  rw [Function.comp_apply, collectRound_eq hall hf]
  rfl

/-- As many inputs are collected as files. -/
theorem length_collected (hall : AllPackable host root isOutput d) :
    (d.files.filterMap (collected host root isOutput)).length =
      (d.files.filter (isCollected host root isOutput)).length := by
  rw [List.length_filterMap_eq_countP, ← List.countP_eq_length_filter]
  refine List.countP_congr fun f hf => ?_
  constructor
  · intro h
    obtain ⟨input, hinput⟩ := Option.isSome_iff_exists.mp h
    exact (collected_eq_some hf hinput).1
  · intro h
    obtain ⟨input, hinput⟩ := exists_collected hall hf h
    rw [hinput]
    rfl

/-- **What `collect_files` gives** for a directory whose files can be packed. -/
theorem collectFiles_found (hall : AllPackable host root isOutput d)
    (hcount : (d.files.filter (isCollected host root isOutput)).length ≤ 2 ^ 32) :
    collectFiles (d.found host root isOutput) =
      .ok (numbered 0 ((d.files.filterMap (collected host root isOutput)).mergeSort comesFirst)) := by
  rw [collectFiles_eq, filterMapM_collectRound hall, Exec.ok_bind, numberFiles_eq]
  rw [List.length_mergeSort, length_collected hall, Nat.zero_add]
  exact hcount

/-- Otherwise it gives no files. -/
theorem collectFiles_found_ne_ok {files : List CpkInputFile}
    (h : (∃ f ∈ d.files, isCollected host root isOutput f = true ∧ isPackable f = false) ∨
      2 ^ 32 < (d.files.filter (isCollected host root isOutput)).length) :
    collectFiles (d.found host root isOutput) ≠ .ok files := by
  intro hfiles
  rw [collectFiles_eq] at hfiles
  obtain ⟨result, hresult, hnumbers⟩ := Exec.bind_eq_ok.mp hfiles
  have hall : AllPackable host root isOutput d := by
    intro f hf hcollected
    obtain ⟨r, hr⟩ := Exec.exists_of_filterMapM hresult _ (List.mem_map_of_mem hf)
    rw [collectRound_of_collected hcollected] at hr
    rcases hinput : (foundFile host root isOutput f).toInput with input | e | _ <;>
      rw [hinput] at hr <;> cases hr
    exact (toInput_eq_ok (Directory.ordinary_of_mem_files hf) (Directory.ne_nil_of_mem_files hf)
      hinput).1
  rcases h with ⟨f, hf, hcollected, hnot⟩ | hmany
  · rw [hall f hf hcollected] at hnot
    cases hnot
  · rw [filterMapM_collectRound hall] at hresult
    rw [← Exec.ok.inj hresult] at hnumbers
    refine numberFiles_ne_ok (Nat.zero_le _) ?_ hnumbers
    rw [List.length_mergeSort, length_collected hall, Nat.zero_add]
    exact hmany

/-- Directories from which the same files are collected leave the same archive. -/
theorem packDirectory_snd_congr {found found' : List (Exec Error FoundFile)}
    (h : ∀ files, collectFiles found = .ok files ↔ collectFiles found' = .ok files)
    (path : P5RPath) (outputFile : PathBuf) (seen : List UInt8) (options : CpkWriterOptions)
    (fs : FileSystem) :
    (packDirectory path outputFile seen found options fs).2 =
      (packDirectory path outputFile seen found' options fs).2 := by
  have hgather : ∀ files, gatherFiles found options = .ok files ↔
      gatherFiles found' options = .ok files := by
    intro files
    simp only [gatherFiles, Exec.bind_eq_ok, h]
  -- when nothing is gathered, no file of the host is touched
  have hnone : ∀ {found : List (Exec Error FoundFile)},
      (∀ files, gatherFiles found options ≠ .ok files) →
        (packDirectory path outputFile seen found options fs).2 = fs := by
    intro found hnot
    rcases hgathered : gatherFiles found options with files | e | _
    · exact absurd hgathered (hnot files)
    · rw [packDirectory, ExecM.bind_of_err (by rw [ExecM.lift_apply, hgathered])]
    · rw [packDirectory, ExecM.bind_of_fault (by rw [ExecM.lift_apply, hgathered])]
  by_cases hfiles : ∃ files, gatherFiles found options = .ok files
  · obtain ⟨files, hfiles⟩ := hfiles
    rw [packDirectory, packDirectory, ExecM.lift_bind_of_ok hfiles,
      ExecM.lift_bind_of_ok ((hgather files).mp hfiles)]
  · rw [hnone fun files hf => hfiles ⟨files, hf⟩,
      hnone fun files hf => hfiles ⟨files, (hgather files).mpr hf⟩]

/-- Whether all files can be packed does not depend on the order. -/
theorem AllPackable.reordered {d' : Directory host UInt64} (hall : AllPackable host root isOutput d)
    (h : d.Reordered d') : AllPackable host root isOutput d' :=
  fun f hf => hall f (h.perm.mem_iff.mpr hf)

/-- How many files are collected does not depend on the order. -/
theorem Directory.Reordered.length_filter {d' : Directory host UInt64} (h : d.Reordered d') :
    (d'.files.filter (isCollected host root isOutput)).length =
      (d.files.filter (isCollected host root isOutput)).length :=
  (h.perm.filter _).length_eq.symm

/-- Ties of the sort are files with one key. -/
theorem comesFirst_tie {a b : CpkInputFile} (hab : comesFirst a b = true)
    (hba : comesFirst b a = true) : enginePathKey a = enginePathKey b := by
  rw [comesFirst_iff] at hab hba
  rcases hab with hab | ⟨hab, -⟩
  · rcases hba with hba | ⟨hba, -⟩
    · exact absurd (List.lt_trans hab hba) (List.lt_irrefl _)
    · exact hba.symm
  · exact hab

/-- Files with one key and one ID may stand in either order. -/
theorem comesFirst_of_eq {a b : CpkInputFile} (hkey : enginePathKey a = enginePathKey b)
    (hid : a.id = b.id) : comesFirst a b = true :=
  comesFirst_iff.mpr (.inr ⟨hkey, hid ▸ UInt32.le_refl _⟩)

/-- The sorted files hide the order of reading iff there are no ties. -/
theorem sorted_collected_iff (hall : AllPackable host root isOutput d) :
    (∀ es₁ es₂, d.entries.Reordered es₁ → d.entries.Reordered es₂ →
      (es₁.listing.filterMap (collected host root isOutput)).mergeSort comesFirst =
        (es₂.listing.filterMap (collected host root isOutput)).mergeSort comesFirst) ↔
    NoTies host root isOutput d := by
  have hinj : ∀ x ∈ d.entries.listing, ∀ y ∈ d.entries.listing, ∀ b,
      collected host root isOutput x = some b → collected host root isOutput y = some b → x = y := by
    intro x hx y hy b hb hb'
    rw [← d.files_eq] at hx hy
    have hpath := (collected_eq_some hx hb).2.1.symm.trans (collected_eq_some hy hb').2.1
    exact Directory.eq_of_mem_files hx hy (below_injective (Directory.ordinary_of_mem_files hx)
      (Directory.ordinary_of_mem_files hy) (Directory.ne_nil_of_mem_files hx)
      (Directory.ne_nil_of_mem_files hy) hpath)
  rw [sorted_listing_iff d.proper comesFirst_trans comesFirst_total hinj, ← d.files_eq]
  constructor
  · intro h f hf g hg hfc hgc hkey
    obtain ⟨a, ha⟩ := exists_collected hall hf hfc
    obtain ⟨b, hb⟩ := exists_collected hall hg hgc
    obtain ⟨-, -, haid, hakey⟩ := collected_eq_some hf ha
    obtain ⟨-, -, hbid, hbkey⟩ := collected_eq_some hg hb
    have hab : enginePathKey a = enginePathKey b := by rw [hakey, hbkey, hkey]
    exact h f hf g hg a b ha hb (comesFirst_of_eq hab (haid.trans hbid.symm))
      (comesFirst_of_eq hab.symm (hbid.trans haid.symm))
  · intro h f hf g hg a b ha hb hab hba
    obtain ⟨hfc, -, -, hakey⟩ := collected_eq_some hf ha
    obtain ⟨hgc, -, -, hbkey⟩ := collected_eq_some hg hb
    exact h f hf g hg hfc hgc (by rw [← hakey, ← hbkey, comesFirst_tie hab hba])

/-- The sorted files come in one order iff packing is deterministic.

**Proof sketch.** In every order of the directory, collecting gives the sorted files, numbered
(`collectFiles_found`). Two orders thus give the same inputs iff they sort to the same list, as the
files are not numbered before (`numbered_inj`), and `sorted_collected_iff` relates this to the ties. -/
theorem deterministic_iff_sorted (hall : AllPackable host root isOutput d)
    (hcount : (d.files.filter (isCollected host root isOutput)).length ≤ 2 ^ 32) :
    Deterministic host root isOutput d ↔ NoTies host root isOutput d := by
  have hcollect : ∀ d', d.Reordered d' → collectFiles (d'.found host root isOutput) =
      .ok (numbered 0
        ((d'.entries.listing.filterMap (collected host root isOutput)).mergeSort comesFirst)) := by
    intro d' h
    rw [collectFiles_found (hall.reordered h) (h.length_filter.trans_le hcount), d'.files_eq]
  rw [← sorted_collected_iff hall]
  constructor
  · intro h es₁ es₂ h₁ h₂
    have hfiles := ((h (d.reorder h₁) (d.reorder h₂) h₁ h₂).1 _).mp (hcollect _ h₁)
    have heq := Exec.ok.inj (hfiles.symm.trans (hcollect _ h₂))
    have hid : ∀ d', d.Reordered d' → ∀ input ∈
        (d'.entries.listing.filterMap (collected host root isOutput)).mergeSort comesFirst,
          input.id = 0 := by
      intro d' h input hinput
      obtain ⟨f, hf, hsome⟩ := List.mem_filterMap.mp (List.mem_mergeSort.mp hinput)
      rw [← d'.files_eq] at hf
      exact (collected_eq_some hf hsome).2.2.1
    exact numbered_inj (hid (d.reorder h₁) h₁) (hid (d.reorder h₂) h₂) heq
  · intro h d₁ d₂ h₁ h₂
    have hsame : ∀ files, collectFiles (d₁.found host root isOutput) = .ok files ↔
        collectFiles (d₂.found host root isOutput) = .ok files := by
      intro files
      rw [hcollect d₁ h₁, hcollect d₂ h₂, h d₁.entries d₂.entries h₁ h₂]
    exact ⟨hsame, packDirectory_snd_congr hsame⟩

/-- **When packing a directory is deterministic.**

**Proof sketch.** Either collecting the files fails, in every order of enumeration, or the inputs
are the sorted files and `deterministic_iff_sorted` compares the keys of the sort. -/
theorem deterministic_iff (host : Host) (root : PathBuf) (isOutput : PathBuf → Bool)
    (d : Directory host UInt64) :
    Deterministic host root isOutput d ↔ OrderFree host root isOutput d := by
  by_cases hfail : (∃ f ∈ d.files, isCollected host root isOutput f = true ∧ isPackable f = false) ∨
      2 ^ 32 < (d.files.filter (isCollected host root isOutput)).length
  · refine iff_of_true (fun d₁ d₂ h₁ h₂ => ?_) (hfail.imp_right .inl)
    have hnone : ∀ {d'}, d.Reordered d' → ∀ files,
        collectFiles (d'.found host root isOutput) ≠ .ok files := by
      intro d' h files
      refine collectFiles_found_ne_ok (hfail.imp ?_ fun hmany => ?_)
      · exact fun ⟨f, hf, hnot⟩ => ⟨f, h.perm.mem_iff.mp hf, hnot⟩
      · rwa [h.length_filter]
    have hsame : ∀ files, collectFiles (d₁.found host root isOutput) = .ok files ↔
        collectFiles (d₂.found host root isOutput) = .ok files :=
      fun files => iff_of_false (hnone h₁ files) (hnone h₂ files)
    exact ⟨hsame, packDirectory_snd_congr hsame⟩
  · obtain ⟨hnone, hfew⟩ := not_or.mp hfail
    have hall : AllPackable host root isOutput d := by
      intro f hf hcollected
      by_contra hnot
      exact hnone ⟨f, hf, hcollected, Bool.eq_false_of_not_eq_true hnot⟩
    rw [deterministic_iff_sorted hall (Nat.le_of_not_lt hfew), OrderFree]
    exact ⟨fun h => .inr (.inr h), fun h => (h.resolve_left hnone).resolve_left hfew⟩

/-- One byte is a name. -/
theorem ordinary_singleton {b : UInt8} (hdot : b ≠ 0x2e) (hsep : b ≠ 0x2f) : Ordinary .unix [b] := by
  refine ordinary_unix ⟨List.cons_ne_nil _ _, by simpa using hdot, by simp, fun c hc => ?_⟩
  rw [List.mem_singleton.mp hc]
  exact beq_eq_false_iff_ne.mpr hsep

/-- A directory with the files `A` and `a`. -/
def sampleDirectory : Directory .unix UInt64 where
  entries := .file [0x41] 1 (.file [0x61] 2 .nil)
  proper := ⟨by decide, by decide, trivial⟩
  ordinary f hf v hv := by
    rcases List.mem_pair.mp hf with rfl | rfl <;> rw [List.mem_singleton.mp hv] <;>
      exact ordinary_singleton (by decide) (by decide)

/-- Which of `A` and `a` gets the first ID depends on which is read first. -/
theorem not_deterministic : ¬∀ (host : Host) (root : PathBuf) (isOutput : PathBuf → Bool)
    (d : Directory host UInt64), Deterministic host root isOutput d := by
  intro hclaim
  have hfiles : sampleDirectory.files = [([[0x41]], 1), ([[0x61]], 2)] := sampleDirectory.files_eq
  have hall : AllPackable .unix [0x64] (fun _ => false) sampleDirectory := by
    rw [AllPackable, hfiles]
    decide +kernel
  have hties := (deterministic_iff_sorted hall (by rw [hfiles]; decide)).mp
    (hclaim .unix [0x64] (fun _ => false) sampleDirectory)
  rw [NoTies, hfiles] at hties
  refine hties ([[0x41]], 1) (by simp) ([[0x61]], 2) (by simp) (by decide +kernel)
    (by decide +kernel) (by decide) ?_ ?_
  · exact ⟨[], [0x41], [], [0x61], [], rfl, rfl, by decide, fun _ => rfl⟩
  · exact ⟨[], [0x61], [], [0x41], [], rfl, rfl, by decide, fun _ => rfl⟩

end Main

end CriArchive
