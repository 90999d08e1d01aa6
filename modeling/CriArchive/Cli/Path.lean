import CriArchive.Cli.Host
import CriArchive.Lib.Utf8

set_option relaxedAutoImplicit false
set_option autoImplicit false

/-!
# Paths of extracted files

`safe_output_path` of the command line and `safe_relative_path` of its manifest: where the file
of an archive entry is put, and where it is looked for afterwards.

## Main definitions

* `safeOutputPath`, `safeRelativePath` — the two functions.
* `pathNames` — the names that make up the path of an entry.
* `below`, `EmptyBelow` — the paths below a directory, and a directory without files.
* `Contained` — an accepted path stays below the root.
* `SafePathsAgree` — the two functions accept the same entries and give the same files.

## Main results

* `safePaths_agree` — the two functions agree on every host.
* `safePaths_iff` — when, in addition, accepted paths stay below the root.
-/

namespace CriArchive

open StdPath

/-! ## The two functions -/

/-- `replace('\\', "/")`, as bytes: a backslash is no part of another character. -/
def withSlashes (s : String) : List UInt8 := s.asBytes.map fun b => if b = 0x5c then 0x2f else b

/-- The loop of both functions: names are pushed, and anything but a name or `.` is refused. -/
def pushComponents (host : Host) (refusal : CliError) :
    PathBuf → List Component → Exec CliError PathBuf
  | output, [] => .ok output
  | output, .normal value :: cs => pushComponents host refusal (push host output value) cs
  | output, .curDir :: cs => pushComponents host refusal output cs
  | _, .parentDir :: _ | _, .rootDir :: _ | _, .prefixed _ :: _ => .err refusal

section

variable (host : Host) (root : PathBuf) (directory fileName : String)

/-- The components of an entry's path: those of its directory and those of its name. -/
def pathComponents : List Component :=
  components host (withSlashes directory) ++ components host (withSlashes fileName)

/-- `safe_output_path` -/
def safeOutputPath : Exec CliError PathBuf :=
  pushComponents host (.rejectedPath directory fileName) root
    (pathComponents host directory fileName)

/-- `safe_relative_path` -/
def safeRelativePath : Exec CliError PathBuf := do
  let output ← pushComponents host (.rejectedManifestPath directory fileName) []
    (pathComponents host directory fileName)
  Exec.errIf (output = []) .emptyManifestPath
  pure output

/-! ## What is asked of them -/

/-- The names among components. -/
def namesOf (cs : List Component) : List (List UInt8) :=
  cs.filterMap fun
    | .normal value => some value
    | _ => none

/-- The names that make up the path of an entry. -/
def pathNames : List (List UInt8) := namesOf (pathComponents host directory fileName)

/-- The root with names appended. -/
def below (names : List (List UInt8)) : PathBuf := names.foldl (appendName host) root

/-- No file is below a directory. -/
def EmptyBelow (host : Host) (root : PathBuf) (fs : FileSystem) : Prop :=
  ∀ names : List (List UInt8), names ≠ [] → (∀ v ∈ names, Plain host v) →
    fs (below host root names) = none

/-- An accepted path stays below the root: it is the root with names appended, none of which is a
drive. -/
def Contained : Prop :=
  ∀ p, safeOutputPath host root directory fileName = .ok p →
    (∀ v ∈ pathNames host directory fileName, Ordinary host v) ∧
      p = below host root (pathNames host directory fileName)

/-- The two functions agree: an accepted relative path, joined to the root, is the output path,
and both refuse the same entries, apart from those without a name. -/
structure SafePathsAgree : Prop where
  joined : ∀ r, safeRelativePath host directory fileName = .ok r →
    safeOutputPath host root directory fileName = .ok (join host root r)
  fail_iff : (∃ e, safeOutputPath host root directory fileName = .err e) ↔
    ∃ e, safeRelativePath host directory fileName = .err e ∧ e ≠ .emptyManifestPath
  empty_iff : safeRelativePath host directory fileName = .err .emptyManifestPath ↔
    safeOutputPath host root directory fileName = .ok root ∧ pathNames host directory fileName = []

/-- A component that is not refused. -/
def kept : Component → Bool
  | .normal _ | .curDir => true
  | _ => false

/-- On a host with drives, no name of an entry that is not refused looks like a drive. -/
def DriveFree : Prop :=
  host = .windows → (pathComponents host directory fileName).all kept = true →
    ∀ v ∈ pathNames host directory fileName, parseDrive v = none

end

/-! ## Names of an entry -/

section Names

variable {host : Host} {path : List UInt8} {directory fileName : String}

/-- Nothing that is written with slashes has a backslash. -/
theorem withSlashes_ne_backslash (s : String) : ∀ b ∈ withSlashes s, b ≠ 0x5c := by
  intro b hb
  obtain ⟨a, -, rfl⟩ := List.mem_map.mp hb
  split
  · decide
  · assumption

/-- A path without backslashes is not verbatim. -/
theorem prefixVerbatim_eq_false (h : ∀ b ∈ path, b ≠ 0x5c) : prefixVerbatim host path = false := by
  cases host with
  | unix => rfl
  | windows =>
    rw [Bool.eq_false_iff]
    intro hverbatim
    obtain ⟨rest, rfl⟩ := eq_verbatimHead_append hverbatim
    exact h 0x5c (by simp [verbatimHead]) rfl

/-- The names of an entry are names. -/
theorem plain_of_mem_pathNames {v : List UInt8} (h : v ∈ pathNames host directory fileName) :
    Plain host v := by
  obtain ⟨c, hc, hv⟩ := List.mem_filterMap.mp h
  have hnormal : c = .normal v := by
    cases c with
    | normal w => exact congrArg Component.normal (Option.some.inj hv)
    | _ => cases hv
  subst hnormal
  have hslash : ∀ s : String, Component.normal v ∈ components host (withSlashes s) → Plain host v :=
    fun s hs => plain_of_normal_mem hs (prefixVerbatim_eq_false (withSlashes_ne_backslash s))
  exact (List.mem_append.mp hc).elim (hslash directory) (hslash fileName)

/-- The loop refuses, or pushes the names in order. -/
theorem pushComponents_eq (refusal : CliError) (cs : List Component) (output : PathBuf) :
    pushComponents host refusal output cs =
      if cs.all kept then .ok ((namesOf cs).foldl (push host) output) else .err refusal := by
  induction cs generalizing output with
  | nil => rfl
  | cons c cs ih =>
    cases c with
    | normal v =>
      rw [pushComponents, ih]
      rfl
    | curDir =>
      rw [pushComponents, ih]
      rfl
    | _ => rfl

/-- **What `safe_output_path` returns**, from the components of an entry. -/
theorem safeOutputPath_eq (root : PathBuf) :
    safeOutputPath host root directory fileName =
      if (pathComponents host directory fileName).all kept then
        .ok ((pathNames host directory fileName).foldl (push host) root)
      else .err (.rejectedPath directory fileName) :=
  pushComponents_eq _ _ _

/-- **What `safe_relative_path` returns**, from the components of an entry. -/
theorem safeRelativePath_eq :
    safeRelativePath host directory fileName =
      if (pathComponents host directory fileName).all kept then
        if pathNames host directory fileName = [] then .err .emptyManifestPath
        else .ok ((pathNames host directory fileName).foldl (push host) [])
      else .err (.rejectedManifestPath directory fileName) := by
  rw [safeRelativePath, pushComponents_eq]
  split
  · rw [Exec.ok_bind, ← pathNames]
    by_cases hnil : pathNames host directory fileName = []
    · rw [if_pos hnil, hnil]
      rfl
    · have hne : (pathNames host directory fileName).foldl (push host) [] ≠ [] :=
        foldl_push_ne_nil (fun v hv => plain_of_mem_pathNames hv) hnil
      rw [if_neg hnil, Exec.errIf_of_not hne]
      rfl
  · rfl

end Names

/-! ## Paths below a directory -/

section Below

variable {host : Host} {root : PathBuf} {names names' : List (List UInt8)}

/-- Ordinary names are pushed one after the other. -/
theorem below_eq_foldl (h : ∀ v ∈ names, Ordinary host v) :
    below host root names = names.foldl (push host) root :=
  List.foldl_ext _ _ _ fun output v hv => ((h v hv).push_eq output).symm

/-- A relative path joined to a directory is below it. -/
theorem join_joined (h : ∀ v ∈ names, Ordinary host v) (hne : names ≠ []) :
    join host root (joined host.mainSep names) = below host root names := by
  rw [below_eq_foldl h, foldl_push_ordinary h hne, join]

/-- Without drives every name is ordinary. -/
theorem ordinary_unix {v : List UInt8} (h : Plain .unix v) : Ordinary .unix v :=
  ⟨h, fun hwin => by cases hwin⟩

/-- On a host without drives, names are joined with slashes. -/
theorem below_unix (h : ∀ v ∈ names, Plain .unix v) (hne : names ≠ []) :
    below .unix root names =
      (if needSep .unix root then root ++ [0x2f] else root) ++ joined 0x2f names := by
  have hord : ∀ v ∈ names, Ordinary .unix v := fun v hv => ordinary_unix (h v hv)
  rw [below_eq_foldl hord, foldl_push_ordinary hord hne, push_joined hord hne]
  change (if needSep .unix root then root ++ 0x2f :: joined 0x2f names
    else root ++ joined 0x2f names) = _
  split
  · rw [List.append_assoc, List.singleton_append]
  · rfl

/-- A path below a directory starts like the directory. -/
theorem head?_below {names : List (List UInt8)} (hne : names ≠ [])
    (hplain : ∀ v ∈ names, Plain .unix v) {b : UInt8} {rest : List UInt8} :
    (below .unix (b :: rest) names).head? = some b := by
  rw [below_unix hplain hne]
  split <;> rfl

/-- Joined names are different when the names are. -/
theorem joined_injective (h : ∀ v ∈ names, Plain host v) (h' : ∀ v ∈ names', Plain host v)
    (heq : joined host.mainSep names = joined host.mainSep names') : names = names' := by
  have hsplit : ∀ {ns : List (List UInt8)}, (∀ v ∈ ns, Plain host v) → ns ≠ [] →
      (joined host.mainSep ns).splitOnP host.isSep = ns := by
    intro ns hns hnil
    obtain ⟨v, vs, rfl⟩ := List.exists_cons_of_ne_nil hnil
    exact splitOnP_joined host.isSep_mainSep fun w hw => (hns w hw).noSep
  have hnil : ∀ {ns : List (List UInt8)}, (∀ v ∈ ns, Plain host v) →
      joined host.mainSep ns = [] → ns = [] := by
    intro ns hns hjoined
    cases ns with
    | nil => rfl
    | cons v vs =>
      have hv := List.append_eq_nil_iff.mp hjoined
      exact absurd hv.1 (hns v List.mem_cons_self).ne_nil
  by_cases hne : names = []
  · subst hne
    exact (hnil h' heq.symm).symm
  · have hne' : names' ≠ [] := by
      rintro rfl
      exact hne (hnil h heq)
    rw [← hsplit h hne, heq, hsplit h' hne']

/-- Different names are different paths. -/
theorem below_injective (h : ∀ v ∈ names, Ordinary host v) (h' : ∀ v ∈ names', Ordinary host v)
    (hne : names ≠ []) (hne' : names' ≠ [])
    (heq : below host root names = below host root names') : names = names' := by
  obtain ⟨start, hstart⟩ := exists_foldl_push_eq host root
  rw [below_eq_foldl h, below_eq_foldl h', hstart names hne h, hstart names' hne' h'] at heq
  exact joined_injective (fun v hv => (h v hv).toPlain) (fun v hv => (h' v hv).toPlain)
    (List.append_cancel_left heq)

end Below

/-! ## Agreement and containment -/

section Main

variable (host : Host) (root : PathBuf) (directory fileName : String)

/-- **Extraction and packing look for the same files.** -/
theorem safePaths_agree : SafePathsAgree host root directory fileName where
  joined r hr := by
    rw [safeRelativePath_eq] at hr
    split at hr
    next hkept =>
      split at hr
      · cases hr
      next hne =>
        rw [safeOutputPath_eq, if_pos hkept, join, ← Exec.ok.inj hr,
          foldl_push (fun v hv => plain_of_mem_pathNames hv) hne]
    · cases hr
  fail_iff := by
    rw [safeOutputPath_eq, safeRelativePath_eq]
    split
    · split <;> simp
    · simp
  empty_iff := by
    rw [safeOutputPath_eq, safeRelativePath_eq]
    split
    · split
      next hnil => simp [hnil]
      next hne => simp [hne]
    · simp

/-- **An entry stays below the root** iff none of its names looks like a drive. -/
theorem contained_iff :
    Contained host root directory fileName ↔ DriveFree host directory fileName := by
  unfold Contained DriveFree
  rw [safeOutputPath_eq]
  constructor
  · intro hcontained hwin hkept v hv
    rw [if_pos hkept] at hcontained
    exact ((hcontained _ rfl).1 v hv).noDrive hwin
  · intro hfree p hp
    split at hp
    next hkept =>
      have hord : ∀ v ∈ pathNames host directory fileName, Ordinary host v := fun v hv =>
        ⟨plain_of_mem_pathNames hv, fun hwin => hfree hwin hkept v hv⟩
      exact ⟨hord, by rw [← Exec.ok.inj hp, below_eq_foldl hord]⟩
    next => cases hp

/-- **When an accepted path stays below the root**, and both functions agree.

**Proof sketch.** For the paths that the function lets through, the components that are left after
the checks decide where the joined path ends (`contained_iff`). The two hosts read the same text as
the same components outside the prefixes, which is `safePaths_agree`. -/
theorem safePaths_iff :
    (Contained host root directory fileName ∧ SafePathsAgree host root directory fileName) ↔
      DriveFree host directory fileName := by
  rw [contained_iff]
  exact and_iff_left (safePaths_agree host root directory fileName)

/-- On Windows a name after the first may be a drive, which replaces the root. -/
theorem not_safePaths : ¬∀ (host : Host) (root : PathBuf) (directory fileName : String),
    Contained host root directory fileName ∧ SafePathsAgree host root directory fileName := by
  intro hclaim
  obtain ⟨hcontained, -⟩ := hclaim .windows "out".asBytes "x/C:evil" "a.bin"
  obtain ⟨hord, -⟩ := hcontained "C:evil\\a.bin".asBytes (by decide +kernel)
  exact absurd ((hord "C:evil".asBytes (by decide +kernel)).noDrive rfl) (by decide +kernel)

end Main

end CriArchive
