import Mathlib.Data.List.Basic
import Mathlib.Tactic.Common

set_option relaxedAutoImplicit false
set_option autoImplicit false

/-!
# Paths

The paths of the Rust standard library, as the bytes of their `OsStr`, on Unix and on Windows:
how a path is taken apart into components, and how one path is pushed onto another.

## Main definitions

* `StdPath.Host` — the two kinds of hosts.
* `StdPath.parsePrefix`, `StdPath.components` — the prefix and the components of a path.
* `StdPath.push` — pushing a path, which may replace what is there.
* `StdPath.Plain`, `StdPath.Ordinary` — a name that is one component, and one that does not
  replace what it is pushed onto.
* `StdPath.appendName` — a path with a name appended.
-/

namespace StdPath

/-! ## Hosts and separators -/

/-- The kinds of hosts, by their rules for paths. -/
inductive Host where
  | unix
  | windows
  deriving DecidableEq, Repr

/-- The separators of a path: a slash, and on Windows a backslash. -/
def Host.isSep : Host → UInt8 → Bool
  | .unix, b => b == 0x2f
  | .windows, b => b == 0x2f || b == 0x5c

/-- `MAIN_SEPARATOR`. -/
def Host.mainSep : Host → UInt8
  | .unix => 0x2f
  | .windows => 0x5c

/-- The separator of a verbatim path. -/
def isVerbatimSep (b : UInt8) : Bool := b == 0x5c

/-! ## Prefixes -/

/-- A prefix of a Windows path. -/
inductive Prefix where
  | verbatim (name : List UInt8)
  | verbatimUNC (server share : List UInt8)
  | verbatimDisk (drive : UInt8)
  | deviceNS (name : List UInt8)
  | unc (server share : List UInt8)
  | disk (drive : UInt8)
  deriving DecidableEq, Repr

namespace Prefix

/-- The number of bytes of a server and its share, if there is one. -/
def shareLen (server share : List UInt8) : ℕ :=
  server.length + if share = [] then 0 else 1 + share.length

/-- The number of bytes of a prefix. -/
def len : Prefix → ℕ
  | verbatim name => 4 + name.length
  | verbatimUNC server share => 8 + shareLen server share
  | verbatimDisk _ => 6
  | deviceNS name => 4 + name.length
  | unc server share => 2 + shareLen server share
  | disk _ => 2

/-- Whether a path with the prefix is not normalized by its components. -/
def isVerbatim : Prefix → Bool
  | verbatim _ | verbatimUNC .. | verbatimDisk _ => true
  | _ => false

/-- Whether the prefix is a drive letter alone. -/
def isDrive : Prefix → Bool
  | disk _ => true
  | _ => false

/-- Whether the prefix stands for a rooted path. -/
def hasImplicitRoot (p : Prefix) : Bool := !p.isDrive

end Prefix

/-- The bytes up to the first separator, and the bytes after it. -/
def nextComponent (sep : UInt8 → Bool) (path : List UInt8) : List UInt8 × List UInt8 :=
  (path.takeWhile (!sep ·), (path.dropWhile (!sep ·)).drop 1)

/-- An ASCII letter. -/
def isAlphabetic (b : UInt8) : Bool := (0x41 ≤ b && b ≤ 0x5a) || (0x61 ≤ b && b ≤ 0x7a)

/-- The drive letter of a path, in upper case. -/
def parseDrive : List UInt8 → Option UInt8
  | drive :: colon :: _ =>
    if isAlphabetic drive && colon == 0x3a then
      some (if 0x61 ≤ drive then drive - 0x20 else drive)
    else none
  | _ => none

/-- The drive letter of a verbatim path, which must be a component of its own. -/
def parseDriveExact (path : List UInt8) : Option UInt8 :=
  match path[2]? with
  | some b => if Host.windows.isSep b then parseDrive path else none
  | none => parseDrive path

/-- A slash read as a backslash. -/
def backslashed (b : UInt8) : UInt8 := if b = 0x2f then 0x5c else b

/-- The prefix of a path after `\\?\`. -/
def parseVerbatim (path : List UInt8) : Prefix :=
  if (path.take 4).map backslashed = [0x55, 0x4e, 0x43, 0x5c] then
    .verbatimUNC (nextComponent isVerbatimSep (path.drop 4)).1
      (nextComponent isVerbatimSep (nextComponent isVerbatimSep (path.drop 4)).2).1
  else
    match parseDriveExact path with
    | some drive => .verbatimDisk drive
    | none => .verbatim (nextComponent isVerbatimSep path).1

/-- The prefix of a path after `\\`. -/
def parseUnc (path : List UInt8) : Option Prefix :=
  let server := (nextComponent Host.windows.isSep path).1
  let share := (nextComponent Host.windows.isSep (nextComponent Host.windows.isSep path).2).1
  if server ≠ [] ∧ share ≠ [] then some (.unc server share) else none

/-- The prefix of a path. A verbatim prefix is written with backslashes only. -/
def parsePrefix : Host → List UInt8 → Option Prefix
  | .unix, _ => none
  | .windows, path =>
    if path.take 4 = [0x5c, 0x5c, 0x3f, 0x5c] then some (parseVerbatim (path.drop 4))
    else if (path.take 2).map backslashed = [0x5c, 0x5c] then
      if ((path.drop 2).take 2).map backslashed = [0x2e, 0x5c] then
        some (.deviceNS (nextComponent Host.windows.isSep (path.drop 4)).1)
      else parseUnc (path.drop 2)
    else (parseDrive path).map .disk

/-! ## Components -/

/-- A component of a path. A prefix keeps its bytes. -/
inductive Component where
  | prefixed (raw : List UInt8)
  | rootDir
  | curDir
  | parentDir
  | normal (name : List UInt8)
  deriving DecidableEq, Repr

/-- The bytes of a component on Windows. -/
def Component.bytes : Component → List UInt8
  | prefixed raw => raw
  | rootDir => [0x5c]
  | curDir => [0x2e]
  | parentDir => [0x2e, 0x2e]
  | normal name => name

/-- The component that a piece between separators stands for, if any. -/
def parseSingle (verbatim : Bool) (piece : List UInt8) : Option Component :=
  if piece = [] then none
  else if piece = [0x2e] then if verbatim then some .curDir else none
  else if piece = [0x2e, 0x2e] then some .parentDir
  else some (.normal piece)

section

variable (host : Host) (path : List UInt8)

/-- The number of bytes of the prefix. -/
def prefixLen : ℕ :=
  match parsePrefix host path with
  | some p => p.len
  | none => 0

/-- Whether the path has a verbatim prefix. -/
def prefixVerbatim : Bool :=
  match parsePrefix host path with
  | some p => p.isVerbatim
  | none => false

/-- What follows the prefix. -/
def afterPrefix : List UInt8 := path.drop (prefixLen host path)

/-- Whether a separator follows the prefix. -/
def hasPhysicalRoot : Bool :=
  match (afterPrefix host path).head? with
  | some b => host.isSep b
  | none => false

/-- `Path::has_root`. -/
def hasRoot : Bool :=
  hasPhysicalRoot host path ||
    match parsePrefix host path with
    | some p => p.hasImplicitRoot
    | none => false

/-- `Path::is_absolute`. -/
def isAbsolute : Bool :=
  match host with
  | .unix => hasRoot host path
  | .windows => hasRoot host path && (parsePrefix host path).isSome

/-- Whether a path without prefix and root starts with a component `.`. -/
def includeCurDir : Bool :=
  match path with
  | [b] => b == 0x2e
  | b :: c :: _ => b == 0x2e && host.isSep c
  | [] => false

/-- The separators between the components of the path. -/
def bodySep : UInt8 → Bool := if prefixVerbatim host path then isVerbatimSep else host.isSep

/-- The components of a piece of the path. -/
def bodyComponents (piece : List UInt8) : List Component :=
  (piece.splitOnP (bodySep host path)).filterMap (parseSingle (prefixVerbatim host path))

/-- The components between the prefix and the names, and what follows them. -/
def startComponents : List Component × List UInt8 :=
  if hasPhysicalRoot host path then ([.rootDir], (afterPrefix host path).drop 1)
  else
    match parsePrefix host path with
    | some p =>
      (if p.hasImplicitRoot && !p.isVerbatim then [.rootDir] else [], afterPrefix host path)
    | none => if includeCurDir host path then ([.curDir], path.drop 1) else ([], path)

/-- `Path::components`. -/
def components : List Component :=
  (if (parsePrefix host path).isSome then [.prefixed (path.take (prefixLen host path))] else []) ++
    (startComponents host path).1 ++ bodyComponents host path (startComponents host path).2

/-- Whether the path is a drive letter with its colon and nothing else. -/
def isBareDrive : Bool :=
  match parsePrefix host path with
  | some p => p.isDrive && p.len == path.length
  | none => false

/-- Whether a separator is put between the path and a name that is pushed. -/
def needSep : Bool :=
  (match path.getLast? with
    | some b => !host.isSep b
    | none => false) && !isBareDrive host path

end

/-! ## Pushing -/

/-- A separator is put after a component of a verbatim path, except after the root. -/
def sepAfter : Component → Bool
  | .rootDir => false
  | .prefixed raw => raw ≠ []
  | _ => true

/-- The path of components that start with a verbatim prefix. -/
def render : Bool → List Component → List UInt8
  | _, [] => []
  | sep, c :: cs =>
    (if sep && c ≠ .rootDir then [0x5c] else []) ++ c.bytes ++ render (sepAfter c) cs

/-- One component pushed onto those of a verbatim path. -/
def pushVerbatim (buf : List Component) : Component → List Component
  | .rootDir => buf.take 1 ++ [.rootDir]
  | .curDir => buf
  | .parentDir =>
    match buf.getLast? with
    | some (.normal _) => buf.dropLast
    | _ => buf
  | c => buf ++ [c]

/-- `PathBuf::push`. -/
def push (host : Host) (self path : List UInt8) : List UInt8 :=
  if isAbsolute host path || (parsePrefix host path).isSome then path
  else if prefixVerbatim host self && path ≠ [] then
    render false ((components host path).foldl pushVerbatim (components host self))
  else if hasRoot host path then self.take (prefixLen host self) ++ path
  else if needSep host self then self ++ host.mainSep :: path
  else self ++ path

/-- `Path::join`. -/
def join (host : Host) (self path : List UInt8) : List UInt8 := push host self path

/-- What comparing paths looks at: the prefix and the components after it. -/
def comparisonKey (host : Host) (path : List UInt8) : Option Prefix × List Component :=
  (parsePrefix host path, (startComponents host path).1 ++
    bodyComponents host path (startComponents host path).2)

/-- Equality of paths, which is not that of their bytes. -/
def samePath (host : Host) (a b : List UInt8) : Bool :=
  comparisonKey host a == comparisonKey host b

/-- A path is the same as itself. -/
@[simp] theorem samePath_self (host : Host) (path : List UInt8) :
    samePath host path path = true := beq_self_eq_true _

/-! ## Names -/

/-- A name: one piece of a path that stands for itself. -/
structure Plain (host : Host) (v : List UInt8) : Prop where
  ne_nil : v ≠ []
  ne_dot : v ≠ [0x2e]
  ne_dots : v ≠ [0x2e, 0x2e]
  noSep : ∀ b ∈ v, host.isSep b = false

/-- A name that is not taken for a drive. -/
structure Ordinary (host : Host) (v : List UInt8) : Prop extends Plain host v where
  noDrive : host = .windows → parseDrive v = none

/-- A path with a name appended: nothing of the path is replaced, except that a verbatim path is
written with single separators. -/
def appendName (host : Host) (path v : List UInt8) : List UInt8 :=
  if prefixVerbatim host path then render false (components host path ++ [.normal v])
  else if needSep host path then path ++ host.mainSep :: v
  else path ++ v

/-- Names with a separator between them. -/
def joined (sep : UInt8) : List (List UInt8) → List UInt8
  | [] => []
  | v :: vs => v ++ vs.flatMap (sep :: ·)

/-! ## Relative paths -/

/-- A path that has no prefix and does not start with a separator. -/
structure Relative (host : Host) (path : List UInt8) : Prop where
  head : ∃ b rest, path = b :: rest ∧ host.isSep b = false
  noDrive : host = .windows → parseDrive path = none

section Relative

variable {host : Host} {path : List UInt8}

/-- A path that does not start with a separator has no prefix but a drive. -/
theorem parsePrefix_windows_cons {b : UInt8} (rest : List UInt8)
    (h : Host.windows.isSep b = false) :
    parsePrefix .windows (b :: rest) = (parseDrive (b :: rest)).map .disk := by
  obtain ⟨hslash, hback⟩ : b ≠ 0x2f ∧ b ≠ 0x5c := by simpa [Host.isSep] using h
  have hverbatim : ¬(b :: rest).take 4 = [0x5c, 0x5c, 0x3f, 0x5c] := by
    intro heq
    rw [List.take_succ_cons] at heq
    exact hback (List.head_eq_of_cons_eq heq)
  have hunc : ¬((b :: rest).take 2).map backslashed = [0x5c, 0x5c] := by
    intro heq
    rw [List.take_succ_cons, List.map_cons] at heq
    have hb := List.head_eq_of_cons_eq heq
    rw [backslashed, if_neg hslash] at hb
    exact hback hb
  simp only [parsePrefix, if_neg hverbatim, if_neg hunc]

namespace Relative

variable (h : Relative host path)

include h

/-- A relative path is not empty. -/
theorem ne_nil : path ≠ [] := by
  obtain ⟨b, rest, rfl, -⟩ := h.head
  exact List.cons_ne_nil b rest

/-- A relative path has no prefix. -/
theorem parsePrefix_eq : parsePrefix host path = none := by
  obtain ⟨b, rest, rfl, hb⟩ := h.head
  cases host with
  | unix => rfl
  | windows => rw [parsePrefix_windows_cons rest hb, h.noDrive rfl, Option.map_none]

/-- The prefix of a relative path takes no bytes. -/
theorem prefixLen_eq : prefixLen host path = 0 := by
  rw [prefixLen, h.parsePrefix_eq]

/-- A relative path does not start with a separator. -/
theorem hasPhysicalRoot_eq : hasPhysicalRoot host path = false := by
  obtain ⟨b, rest, rfl, hb⟩ := h.head
  simp only [hasPhysicalRoot, afterPrefix, h.prefixLen_eq, List.drop_zero, List.head?_cons, hb]

/-- A relative path is not verbatim. -/
theorem prefixVerbatim_eq : prefixVerbatim host path = false := by
  rw [prefixVerbatim, h.parsePrefix_eq]

/-- A relative path has no root. -/
theorem hasRoot_eq : hasRoot host path = false := by
  rw [hasRoot, h.hasPhysicalRoot_eq, h.parsePrefix_eq, Bool.or_false]

/-- A relative path is not absolute. -/
theorem isAbsolute_eq : isAbsolute host path = false := by
  cases host <;> simp [isAbsolute, h.hasRoot_eq]

/-- Pushing a relative path replaces nothing. -/
theorem push_eq (self : List UInt8) :
    push host self path =
      if prefixVerbatim host self then
        render false ((components host path).foldl pushVerbatim (components host self))
      else if needSep host self then self ++ host.mainSep :: path
      else self ++ path := by
  simp [push, h.isAbsolute_eq, h.parsePrefix_eq, h.hasRoot_eq, h.ne_nil]

/-- The components of a relative path that does not start with a component `.`. -/
theorem components_eq (hcur : includeCurDir host path = false) :
    components host path = (path.splitOnP host.isSep).filterMap (parseSingle false) := by
  simp only [components, startComponents, h.parsePrefix_eq, h.hasPhysicalRoot_eq, hcur,
    bodyComponents, bodySep, h.prefixVerbatim_eq, Option.isSome_none, Bool.false_eq_true, if_false,
    List.nil_append]

end Relative

end Relative

/-! ## Pieces of a path -/

section Pieces

variable {host : Host} {path v : List UInt8}

/-- No piece has a separator. -/
theorem not_mem_of_mem_splitOnP {p : UInt8 → Bool} {path v : List UInt8}
    (h : v ∈ path.splitOnP p) : ∀ b ∈ v, p b = false := by
  induction path generalizing v with
  | nil => simp_all
  | cons a path ih =>
    rw [List.splitOnP_cons_eq_if_modifyHead] at h
    split at h
    next => exact (List.mem_cons.mp h).elim (fun hv => by simp [hv]) fun hv => ih hv
    next ha =>
      obtain ⟨w, ws, hw⟩ := List.exists_cons_of_ne_nil (List.splitOnP_ne_nil p path)
      rw [hw] at ih
      rw [hw, List.modifyHead_cons] at h
      rcases List.mem_cons.mp h with rfl | hv
      · intro b hb
        rcases List.mem_cons.mp hb with rfl | hb
        · simpa using ha
        · exact ih List.mem_cons_self b hb
      · exact ih (List.mem_cons_of_mem _ hv)

/-- The names among the components of a path are names.

**Proof sketch.** A name is not among the components that a path starts with, so that it was parsed
from a piece of the rest. A piece has no separator, and one that is parsed as a name is not empty
and neither of the two dot names. -/
theorem plain_of_normal_mem (h : .normal v ∈ components host path)
    (hverbatim : prefixVerbatim host path = false) : Plain host v := by
  have hstart : .normal v ∉ (startComponents host path).1 := by
    unfold startComponents
    split
    · simp
    · split <;> split <;> simp
  have hbody : .normal v ∈ bodyComponents host path (startComponents host path).2 := by
    rcases List.mem_append.mp h with h | h
    · rcases List.mem_append.mp h with h | h
      · split at h <;> simp at h
      · exact absurd h hstart
    · exact h
  rw [bodyComponents, bodySep, hverbatim] at hbody
  obtain ⟨piece, hpiece, hv⟩ := List.mem_filterMap.mp hbody
  have hsep := not_mem_of_mem_splitOnP hpiece
  unfold parseSingle at hv
  split at hv
  · cases hv
  next hne =>
    split at hv
    · cases hv
    next hdot =>
      split at hv
      · cases hv
      next hdots =>
        obtain rfl : piece = v := Component.normal.inj (Option.some.inj hv)
        exact ⟨hne, hdot, hdots, hsep⟩

end Pieces

/-! ## Names joined -/

section Joined

variable {host : Host} {v : List UInt8} {vs : List (List UInt8)}

/-- The separator that a host writes is one that it reads. -/
theorem Host.isSep_mainSep (host : Host) : host.isSep host.mainSep = true := by
  cases host <;> decide

/-- A name and what is joined to it start like the name. -/
theorem parseDrive_append {sep : UInt8} (hsep : sep ≠ 0x3a) (hne : v ≠ []) :
    parseDrive (v ++ vs.flatMap (sep :: ·)) = parseDrive v := by
  match v, hne with
  | a :: b :: rest, _ => rfl
  | [a], _ =>
    cases vs with
    | nil => rfl
    | cons w ws => simp [parseDrive, hsep]

/-- The separator that a host writes is not the colon of a drive. -/
theorem Host.mainSep_ne_colon (host : Host) : host.mainSep ≠ 0x3a := by
  cases host <;> decide

/-- A name, and names put behind it with a separator, are a relative path. -/
theorem Ordinary.relative_append_sep {sep : UInt8} (hsep : sep ≠ 0x3a) (h : Ordinary host v)
    (vs : List (List UInt8)) : Relative host (v ++ vs.flatMap (sep :: ·)) where
  head := by
    obtain ⟨b, rest, rfl⟩ := List.exists_cons_of_ne_nil h.ne_nil
    exact ⟨b, _, rfl, h.noSep b List.mem_cons_self⟩
  noDrive hwin := by
    rw [parseDrive_append hsep h.ne_nil]
    exact h.noDrive hwin

/-- Names after an ordinary one make a relative path. -/
theorem Ordinary.relative_append (h : Ordinary host v) (vs : List (List UInt8)) :
    Relative host (v ++ vs.flatMap (host.mainSep :: ·)) :=
  h.relative_append_sep host.mainSep_ne_colon vs

/-- Joined names are split at their separators. -/
theorem splitOnP_joined {p : UInt8 → Bool} {sep : UInt8} (hsep : p sep = true)
    (h : ∀ w ∈ v :: vs, ∀ b ∈ w, p b = false) :
    (v ++ vs.flatMap (sep :: ·)).splitOnP p = v :: vs := by
  induction vs generalizing v with
  | nil =>
    rw [List.flatMap_nil, List.append_nil]
    exact List.splitOnP_eq_singleton (h v List.mem_cons_self)
  | cons w ws ih =>
    rw [List.flatMap_cons, List.cons_append,
      List.splitOnP_append_cons_of_forall_mem (h v List.mem_cons_self) sep hsep,
      ih fun u hu => h u (List.mem_cons_of_mem _ hu)]

/-- A plain name is parsed as itself. -/
theorem Plain.parseSingle_eq (h : Plain host v) (verbatim : Bool) :
    parseSingle verbatim v = some (.normal v) := by
  rw [parseSingle, if_neg h.ne_nil, if_neg h.ne_dot, if_neg h.ne_dots]

/-- Plain names are parsed as themselves. -/
theorem filterMap_parseSingle (h : ∀ w ∈ vs, Plain host w) (verbatim : Bool) :
    vs.filterMap (parseSingle verbatim) = vs.map .normal := by
  rw [← List.filterMap_eq_map]
  exact List.filterMap_congr fun w hw => (h w hw).parseSingle_eq verbatim

/-- A path of plain names does not start with a single dot. -/
theorem includeCurDir_append {sep : UInt8} (h : Plain host v) (vs : List (List UInt8)) :
    includeCurDir host (v ++ vs.flatMap (sep :: ·)) = false := by
  match v, h with
  | [], h => exact absurd rfl h.ne_nil
  | [b], h =>
    have hb : b ≠ 0x2e := fun hb => h.ne_dot (by rw [hb])
    cases vs <;> simp [includeCurDir, hb]
  | b :: c :: rest, h =>
    have hc : host.isSep c = false := h.noSep c (by simp)
    simp [includeCurDir, hc]

/-- The components of names joined with a separator are the names. -/
theorem components_joined_sep {sep : UInt8} (hsep : host.isSep sep = true)
    (h : ∀ w ∈ vs, Ordinary host w) : components host (joined sep vs) = vs.map .normal := by
  have hcolon : sep ≠ 0x3a := by
    rintro rfl
    cases host <;> exact absurd hsep (by decide)
  cases vs with
  | nil => cases host <;> rfl
  | cons v vs =>
    have hv := h v List.mem_cons_self
    rw [joined, (hv.relative_append_sep hcolon vs).components_eq
        (includeCurDir_append hv.toPlain vs),
      splitOnP_joined hsep fun w hw => (h w hw).noSep,
      filterMap_parseSingle fun w hw => (h w hw).toPlain]

/-- The components of joined names are the names. -/
theorem components_joined (h : ∀ w ∈ vs, Ordinary host w) :
    components host (joined host.mainSep vs) = vs.map .normal :=
  components_joined_sep host.isSep_mainSep h

/-- Names appended to a path come after a separator each. -/
theorem joined_append (sep : UInt8) (hne : vs ≠ []) (ws : List (List UInt8)) :
    joined sep (vs ++ ws) = joined sep vs ++ ws.flatMap (sep :: ·) := by
  obtain ⟨v, vs, rfl⟩ := List.exists_cons_of_ne_nil hne
  simp [joined]

end Joined

/-! ## Names pushed -/

section Names

variable {host : Host} {v : List UInt8} {vs : List (List UInt8)}

/-- Names are put behind the components of a verbatim path. -/
theorem foldl_pushVerbatim_normal (vs : List (List UInt8)) (buf : List Component) :
    (vs.map Component.normal).foldl pushVerbatim buf = buf ++ vs.map .normal := by
  induction vs generalizing buf with
  | nil => simp
  | cons v vs ih => simp [pushVerbatim, ih]

/-- Joined names pushed onto a path. -/
theorem push_joined (h : ∀ w ∈ vs, Ordinary host w) (hne : vs ≠ []) (self : List UInt8) :
    push host self (joined host.mainSep vs) =
      if prefixVerbatim host self then render false (components host self ++ vs.map .normal)
      else if needSep host self then self ++ host.mainSep :: joined host.mainSep vs
      else self ++ joined host.mainSep vs := by
  have hrel : Relative host (joined host.mainSep vs) := by
    obtain ⟨v, vs, rfl⟩ := List.exists_cons_of_ne_nil hne
    exact (h v List.mem_cons_self).relative_append vs
  rw [hrel.push_eq, components_joined h, foldl_pushVerbatim_normal]

/-- Pushing an ordinary name appends it. -/
theorem Ordinary.push_eq (h : Ordinary host v) (self : List UInt8) :
    push host self v = appendName host self v := by
  have hall : ∀ w ∈ [v], Ordinary host w := by simpa using h
  simpa [joined, appendName] using push_joined hall (List.cons_ne_nil v []) self

/-- A drive is a letter and a colon. -/
theorem parseDrive_eq_some {path : List UInt8} {d : UInt8} (h : parseDrive path = some d) :
    ∃ b rest, path = b :: 0x3a :: rest ∧ isAlphabetic b = true := by
  match path, h with
  | b :: colon :: rest, h =>
    simp only [parseDrive] at h
    split at h
    next hb =>
      simp only [Bool.and_eq_true, beq_iff_eq] at hb
      exact ⟨b, rest, by rw [hb.2], hb.1⟩
    next => cases h

/-- A letter is no separator. -/
theorem isSep_eq_false_of_isAlphabetic {b : UInt8} (h : isAlphabetic b = true) :
    host.isSep b = false := by
  have hslash : b ≠ 0x2f := by
    rintro rfl
    exact absurd h (by decide)
  have hback : b ≠ 0x5c := by
    rintro rfl
    exact absurd h (by decide)
  cases host <;> simp [Host.isSep, hslash, hback]

/-- A drive is a prefix. -/
theorem parsePrefix_of_parseDrive {path : List UInt8} {d : UInt8} (h : parseDrive path = some d) :
    parsePrefix .windows path = some (.disk d) := by
  obtain ⟨b, rest, hpath, hb⟩ := parseDrive_eq_some h
  rw [hpath, parsePrefix_windows_cons _ (isSep_eq_false_of_isAlphabetic hb), ← hpath, h,
    Option.map_some]

/-- Pushing a path with a drive replaces everything. -/
theorem push_of_parseDrive (hdrive : parseDrive v ≠ none) (self : List UInt8) :
    push .windows self v = v := by
  obtain ⟨d, hd⟩ := Option.ne_none_iff_exists'.mp hdrive
  rw [push, if_pos (by rw [parsePrefix_of_parseDrive hd, Option.isSome_some, Bool.or_true])]

end Names

end StdPath
