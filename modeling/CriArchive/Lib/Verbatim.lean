import Mathlib.Data.List.Induction
import CriArchive.Lib.Path

set_option relaxedAutoImplicit false
set_option autoImplicit false

/-!
# Names pushed onto paths

Pushing names one after the other onto a path, and pushing the path that the names make up. The
two agree on every path. For most paths both append bytes; a verbatim path of Windows is taken
apart and written again with every name, and its prefix may take in names that were appended.

## Main definitions

* `StdPath.Segments` — the pieces between the backslashes of a verbatim path.
* `StdPath.Whole` — a beginning of verbatim paths that ends where a segment ends.

## Main results

* `StdPath.foldl_push_ordinary` — ordinary names pushed one by one, or joined.
* `StdPath.foldl_push` — the same for all plain names.
-/

namespace StdPath

/-! ## Segments of verbatim paths -/

section Segments

/-- Segments of a verbatim path. -/
def Segments (c : List (List UInt8)) : Prop := ∀ v ∈ c, v ≠ [] ∧ ∀ b ∈ v, isVerbatimSep b = false

/-- Segments, each after a backslash. -/
def trail (c : List (List UInt8)) : List UInt8 := c.flatMap (0x5c :: ·)

/-- No segments leave no trail. -/
@[simp] theorem trail_nil : trail [] = [] := rfl

/-- A segment comes after its backslash. -/
@[simp] theorem trail_cons (v : List UInt8) (c : List (List UInt8)) :
    trail (v :: c) = 0x5c :: (v ++ trail c) := by
  rw [trail, List.flatMap_cons, List.cons_append]
  rfl

/-- The trail of joined segments is the joined trails. -/
@[simp] theorem trail_append (c d : List (List UInt8)) : trail (c ++ d) = trail c ++ trail d :=
  List.flatMap_append

/-- Segments joined to segments are segments. -/
theorem Segments.append {c d : List (List UInt8)} (hc : Segments c) (hd : Segments d) :
    Segments (c ++ d) := by
  intro v hv
  exact (List.mem_append.mp hv).elim (hc v) (hd v)

/-- What does not separate in a plain path does not separate in a verbatim one. -/
theorem isVerbatimSep_eq_false_of_isSep {b : UInt8} (h : Host.windows.isSep b = false) :
    isVerbatimSep b = false := by
  simp only [Host.isSep, Bool.or_eq_false_iff] at h
  exact h.2

/-- Plain names are segments. -/
theorem Plain.segments {vs : List (List UInt8)} (h : ∀ v ∈ vs, Plain .windows v) :
    Segments vs := by
  intro v hv
  exact ⟨(h v hv).ne_nil, fun b hb => isVerbatimSep_eq_false_of_isSep ((h v hv).noSep b hb)⟩

/-- Up to the first backslash, and after it. -/
theorem nextComponent_trail {v : List UInt8} (hv : ∀ b ∈ v, isVerbatimSep b = false)
    (c : List (List UInt8)) :
    nextComponent isVerbatimSep (v ++ trail c) = (v, (trail c).drop 1) := by
  have htake : (trail c).takeWhile (!isVerbatimSep ·) = [] := by
    cases c with
    | nil => rfl
    | cons w c => rw [trail_cons, List.takeWhile_cons_of_neg (by decide)]
  have hdrop : (trail c).dropWhile (!isVerbatimSep ·) = trail c := by
    cases c with
    | nil => rfl
    | cons w c => rw [trail_cons, List.dropWhile_cons_of_neg (by decide)]
  have hall : ∀ b ∈ v, (!isVerbatimSep b) = true := fun b hb => by rw [hv b hb]; rfl
  rw [nextComponent, List.takeWhile_append_of_pos hall, List.dropWhile_append_of_pos hall, htake,
    hdrop, List.append_nil]

/-- The segment after a prefix of two segments is missing or the next one. -/
theorem nextComponent_drop_trail {c : List (List UInt8)} (hc : Segments c) :
    (nextComponent isVerbatimSep ((trail c).drop 1)).1 = c.headD [] := by
  cases c with
  | nil => rfl
  | cons v c =>
    rw [trail_cons, List.drop_succ_cons, List.drop_zero,
      nextComponent_trail (hc v List.mem_cons_self).2]
    rfl

end Segments

/-! ## Verbatim prefixes -/

section Whole

/-- `\\?\` -/
def verbatimHead : List UInt8 := [0x5c, 0x5c, 0x3f, 0x5c]

/-- `B` and segments after it are a verbatim path, whose prefix takes in `B` and some of the
segments. -/
def Whole (B : List UInt8) : Prop :=
  ∀ c, Segments c → ∃ p k, parsePrefix .windows (B ++ trail c) = some p ∧ p.isVerbatim = true ∧
    p.len = (B ++ trail (c.take k)).length

/-- After its head, the prefix of a verbatim path is parsed as such. -/
theorem parsePrefix_verbatimHead (path : List UInt8) :
    parsePrefix .windows (verbatimHead ++ path) = some (parseVerbatim path) := rfl

/-- The prefix after the head is verbatim. -/
theorem parseVerbatim_isVerbatim (path : List UInt8) : (parseVerbatim path).isVerbatim = true := by
  unfold parseVerbatim
  split
  · rfl
  · split <;> rfl

/-- It is no bare drive. -/
theorem parseVerbatim_isDrive (path : List UInt8) : (parseVerbatim path).isDrive = false := by
  unfold parseVerbatim
  split
  · rfl
  · split <;> rfl

/-- **The prefixes of Windows**: verbatim ones after `\\?\`, drives, and others. -/
theorem parsePrefix_windows_cases {q : List UInt8} {p : Prefix}
    (h : parsePrefix .windows q = some p) :
    (∃ rest, q = verbatimHead ++ rest ∧ p = parseVerbatim rest) ∨
      (p.isVerbatim = false ∧ p.isDrive = false) ∨
      ∃ d, parseDrive q = some d ∧ p = .disk d := by
  simp only [parsePrefix] at h
  by_cases hhead : q.take 4 = [0x5c, 0x5c, 0x3f, 0x5c]
  · rw [if_pos hhead] at h
    exact .inl ⟨q.drop 4, by rw [verbatimHead, ← hhead, List.take_append_drop],
      (Option.some.inj h).symm⟩
  rw [if_neg hhead] at h
  right
  by_cases hunc : (q.take 2).map backslashed = [0x5c, 0x5c]
  · left
    rw [if_pos hunc] at h
    split at h
    · obtain rfl := Option.some.inj h
      exact ⟨rfl, rfl⟩
    · simp only [parseUnc] at h
      split at h
      · obtain rfl := Option.some.inj h
        exact ⟨rfl, rfl⟩
      · cases h
  · right
    rw [if_neg hunc] at h
    obtain ⟨d, hd, rfl⟩ := Option.map_eq_some_iff.mp h
    exact ⟨d, hd, rfl⟩

/-- Only `\\?\` starts a verbatim prefix. -/
theorem eq_verbatimHead_append {q : List UInt8} (h : prefixVerbatim .windows q = true) :
    ∃ rest, q = verbatimHead ++ rest := by
  unfold prefixVerbatim at h
  split at h
  next p hp =>
    obtain ⟨rest, hq, -⟩ | ⟨hnot, -⟩ | ⟨d, -, rfl⟩ := parsePrefix_windows_cases hp
    · exact ⟨rest, hq⟩
    · rw [hnot] at h
      cases h
    · cases h
  next => cases h

/-- The server and the share of a verbatim path. -/
theorem parseVerbatim_unc {unc server : List UInt8} {c : List (List UInt8)}
    (hlen : unc.length = 4) (hunc : unc.map backslashed = [0x55, 0x4e, 0x43, 0x5c])
    (hserver : ∀ b ∈ server, isVerbatimSep b = false) (hc : Segments c) :
    parseVerbatim (unc ++ (server ++ trail c)) = .verbatimUNC server (c.headD []) := by
  rw [parseVerbatim, List.take_left' hlen, if_pos hunc, List.drop_left' hlen,
    nextComponent_trail hserver, nextComponent_drop_trail hc]

/-- A server and its share take in one segment after it, if there is one. -/
theorem shareLen_headD {c : List (List UInt8)} (hc : Segments c) (server : List UInt8) :
    Prefix.shareLen server (c.headD []) = (server ++ trail (c.take 1)).length := by
  cases c with
  | nil => simp [Prefix.shareLen]
  | cons v c =>
    have hv := (hc v List.mem_cons_self).1
    rw [Prefix.shareLen, List.headD_cons, if_neg hv, List.take_succ_cons, List.take_zero,
      trail_cons, trail_nil, List.append_nil, List.length_append, List.length_cons,
      Nat.add_comm v.length 1]

/-- **A server with at most one share** is a head that segments can follow. -/
theorem whole_unc {unc server : List UInt8} (hlen : unc.length = 4)
    (hunc : unc.map backslashed = [0x55, 0x4e, 0x43, 0x5c])
    (hserver : ∀ b ∈ server, isVerbatimSep b = false) {share : List (List UInt8)}
    (hshare : Segments share) (hone : share.length ≤ 1) :
    Whole (verbatimHead ++ (unc ++ (server ++ trail share))) := by
  intro c hc
  have hall := hshare.append hc
  refine ⟨parseVerbatim (unc ++ (server ++ trail (share ++ c))), 1 - share.length, ?_,
    parseVerbatim_isVerbatim _, ?_⟩
  · rw [List.append_assoc, List.append_assoc, List.append_assoc, ← trail_append]
    exact parsePrefix_verbatimHead _
  · have htake : (share ++ c).take 1 = share ++ c.take (1 - share.length) := by
      rw [List.take_append, List.take_of_length_le hone]
    rw [parseVerbatim_unc hlen hunc hserver hall, Prefix.len, shareLen_headD hall, htake,
      trail_append]
    simp only [List.length_append, hlen, verbatimHead, List.length_cons, List.length_nil]
    omega

/-- A drive after the verbatim head is one that segments can follow. -/
theorem whole_disk {b : UInt8} (hb : isAlphabetic b = true) :
    Whole (verbatimHead ++ [b, 0x3a]) := by
  intro c hc
  have hunc : ¬((b :: 0x3a :: trail c).take 4).map backslashed = [0x55, 0x4e, 0x43, 0x5c] := by
    intro heq
    simp only [List.take_succ_cons, List.map_cons, List.cons.injEq] at heq
    exact absurd heq.2.1 (by decide)
  have hexact : parseDriveExact (b :: 0x3a :: trail c) = parseDrive (b :: 0x3a :: trail c) := by
    cases c <;> rfl
  have hsome : ∃ d, parseDrive (b :: 0x3a :: trail c) = some d := by
    simp [parseDrive, hb]
  obtain ⟨d, hd⟩ := hsome
  refine ⟨.verbatimDisk d, 0, ?_, rfl, rfl⟩
  rw [List.append_assoc, parsePrefix_verbatimHead, List.cons_append, List.cons_append,
    List.nil_append, parseVerbatim, if_neg hunc, hexact, hd]

/-- What does not start with a drive is not exactly a drive. -/
theorem parseDriveExact_eq_none {path : List UInt8} (h : parseDrive path = none) :
    parseDriveExact path = none := by
  unfold parseDriveExact
  split
  · rw [h, ite_self]
  · exact h

/-- A trail starts with a backslash, not with a drive. -/
theorem parseDrive_trail (c : List (List UInt8)) : parseDrive (trail c) = none := by
  rcases h : parseDrive (trail c) with _ | d
  · rfl
  · obtain ⟨b, rest, heq, hb⟩ := parseDrive_eq_some h
    cases c with
    | nil => cases heq
    | cons v c =>
      rw [trail_cons] at heq
      rw [← List.head_eq_of_cons_eq heq] at hb
      exact absurd hb (by decide)

/-- Segments after a name do not make it a drive. -/
theorem parseDriveExact_trail (name : List UInt8) (c : List (List UInt8)) :
    parseDriveExact (name ++ trail c) = parseDriveExact name := by
  match name with
  | [] => exact parseDriveExact_eq_none (parseDrive_trail c)
  | [a] =>
    have hdrive : parseDrive ([a] ++ trail c) = none := by
      cases c <;> simp [parseDrive]
    rw [parseDriveExact_eq_none hdrive]
    rfl
  | [a, b] => cases c <;> rfl
  | a :: b :: d :: name => rfl

/-- A byte that reads as one other than the backslash is that byte. -/
theorem eq_of_backslashed {b x : UInt8} (h : backslashed b = x) (hx : x ≠ 0x5c) : b = x := by
  unfold backslashed at h
  split at h
  · exact absurd h.symm hx
  · exact h

/-- A name that reads `UNC` only with what follows it is `UNC`. -/
theorem eq_unc {name : List UInt8} {c : List (List UInt8)}
    (hunc : ¬(name.take 4).map backslashed = [0x55, 0x4e, 0x43, 0x5c])
    (hcunc : ((name ++ trail c).take 4).map backslashed = [0x55, 0x4e, 0x43, 0x5c]) :
    name = [0x55, 0x4e, 0x43] := by
  match name, hunc, hcunc with
  | [], _, hcunc => cases c <;> simp [backslashed] at hcunc
  | [a], _, hcunc => cases c <;> simp [backslashed] at hcunc
  | [a, b], _, hcunc => cases c <;> simp [backslashed] at hcunc
  | [a, b, d], _, hcunc =>
    simp only [List.cons_append, List.take_succ_cons, List.map_cons, List.cons.injEq] at hcunc
    obtain ⟨ha, hb, hd, -⟩ := hcunc
    rw [eq_of_backslashed ha (by decide), eq_of_backslashed hb (by decide),
      eq_of_backslashed hd (by decide)]
  | a :: b :: d :: e :: name, hunc, hcunc => exact absurd hcunc hunc

/-- **A name that is neither `UNC` nor a drive** is a head that segments can follow. -/
theorem whole_name {name : List UInt8} (hname : ∀ b ∈ name, isVerbatimSep b = false)
    (hunc : ¬(name.take 4).map backslashed = [0x55, 0x4e, 0x43, 0x5c])
    (hdrive : parseDriveExact name = none) : Whole (verbatimHead ++ name) := by
  intro c hc
  by_cases hcunc : ((name ++ trail c).take 4).map backslashed = [0x55, 0x4e, 0x43, 0x5c]
  · -- the name is `UNC`, and the segments are the server and the share
    obtain rfl := eq_unc hunc hcunc
    cases c with
    | nil => exact absurd hcunc (by decide)
    | cons server c =>
      have hwhole : Whole (verbatimHead ++ ([0x55, 0x4e, 0x43, 0x5c] ++ (server ++ trail []))) :=
        whole_unc rfl (by decide) (hc server List.mem_cons_self).2
          (fun v hv => absurd hv List.not_mem_nil) (Nat.zero_le _)
      obtain ⟨p, k, hp, hverbatim, hlen⟩ := hwhole c fun v hv => hc v (List.mem_cons_of_mem _ hv)
      refine ⟨p, k + 1, ?_, hverbatim, ?_⟩
      · rw [← hp]
        simp
      · rw [hlen]
        simp
  · refine ⟨.verbatim name, 0, ?_, rfl, ?_⟩
    · rw [List.append_assoc, parsePrefix_verbatimHead, parseVerbatim, if_neg hcunc,
        parseDriveExact_trail, hdrive, nextComponent_trail hname]
    · simp [Prefix.len, verbatimHead]
      omega

/-- A path as a first piece and pieces after backslashes. -/
theorem exists_trail (path : List UInt8) :
    ∃ v c, path = v ++ trail c ∧ (∀ b ∈ v, isVerbatimSep b = false) ∧
      ∀ w ∈ c, ∀ b ∈ w, isVerbatimSep b = false := by
  induction path with
  | nil => exact ⟨[], [], rfl, by simp, by simp⟩
  | cons a path ih =>
    obtain ⟨v, c, rfl, hv, hc⟩ := ih
    by_cases ha : isVerbatimSep a = true
    · refine ⟨[], v :: c, ?_, by simp, by simpa using ⟨hv, hc⟩⟩
      rw [List.nil_append, trail_cons, beq_iff_eq.mp ha]
    · refine ⟨a :: v, c, rfl, ?_, hc⟩
      simpa [ha] using hv

/-- What a verbatim prefix reads of the pieces after the server. -/
theorem exists_share {c : List (List UInt8)} (hc : ∀ w ∈ c, ∀ b ∈ w, isVerbatimSep b = false)
    (server : List UInt8) :
    ∃ share rest, trail c = trail share ++ rest ∧ Segments share ∧ share.length ≤ 1 ∧
      Prefix.shareLen server (nextComponent isVerbatimSep ((trail c).drop 1)).1 =
        (server ++ trail share).length := by
  cases c with
  | nil => exact ⟨[], [], rfl, by simp [Segments], Nat.zero_le _, by simp [nextComponent,
      Prefix.shareLen]⟩
  | cons w c =>
    have hw := hc w List.mem_cons_self
    rw [trail_cons, List.drop_succ_cons, List.drop_zero, nextComponent_trail hw]
    by_cases hne : w = []
    · exact ⟨[], trail (w :: c), rfl, by simp [Segments], Nat.zero_le _, by
        simp [Prefix.shareLen, hne]⟩
    · refine ⟨[w], trail c, by simp, ?_, Nat.le_refl _, ?_⟩
      · simpa [Segments] using ⟨hne, hw⟩
      · rw [Prefix.shareLen, if_neg hne, trail_cons, trail_nil, List.append_nil,
          List.length_append, List.length_cons, Nat.add_comm 1]

/-- **The prefix of a verbatim path** ends where a segment ends.

**Proof sketch.** The prefix after the head is one of three kinds. A server takes in the segment
after it as its share (`whole_unc`); a drive ends after its colon (`whole_disk`); any other name
ends at the next backslash, and does not read as `UNC` or as a drive because the whole path does not
(`whole_name`). -/
theorem whole_of_prefixVerbatim {q : List UInt8} (h : prefixVerbatim .windows q = true) :
    Whole (q.take (prefixLen .windows q)) := by
  obtain ⟨rest, rfl⟩ := eq_verbatimHead_append h
  have hlen : prefixLen .windows (verbatimHead ++ rest) = (parseVerbatim rest).len := by
    rw [prefixLen, parsePrefix_verbatimHead]
  rw [hlen, parseVerbatim]
  split
  next hunc =>
    obtain ⟨server, c, hr, hserver, hc⟩ := exists_trail (rest.drop 4)
    obtain ⟨share, r, htrail, hshare, hone, hsharelen⟩ := exists_share hc server
    have hfour : (rest.take 4).length = 4 := by
      simpa using congrArg List.length hunc
    have hsplit : verbatimHead ++ rest =
        verbatimHead ++ (rest.take 4 ++ (server ++ trail share)) ++ r := by
      rw [List.append_assoc, List.append_assoc, List.append_assoc, ← htrail, ← hr,
        List.take_append_drop]
    have hwhole := whole_unc hfour hunc hserver hshare hone
    rw [hsplit, hr, nextComponent_trail hserver, Prefix.len, hsharelen, List.take_left' ?_]
    · exact hwhole
    · simp only [List.length_append, hfour, verbatimHead, List.length_cons, List.length_nil]
      omega
  next hunc =>
    rcases hdrive : parseDriveExact rest with _ | d
    · obtain ⟨name, c, rfl, hname, -⟩ := exists_trail rest
      have hnunc : ¬(name.take 4).map backslashed = [0x55, 0x4e, 0x43, 0x5c] := by
        intro heq
        have hfour : (name.take 4).length = 4 := by
          simpa using congrArg List.length heq
        rw [List.take_append_of_le_length (by rw [List.length_take] at hfour; omega)] at hunc
        exact hunc heq
      rw [parseDriveExact_trail] at hdrive
      rw [nextComponent_trail hname, ← List.append_assoc, List.take_left' ?_]
      · exact whole_name hname hnunc hdrive
      · simp [Prefix.len, verbatimHead]
        omega
    · rcases hsome : parseDrive rest with _ | e
      · rw [parseDriveExact_eq_none hsome] at hdrive
        cases hdrive
      · obtain ⟨b, r, rfl, hb⟩ := parseDrive_eq_some hsome
        exact whole_disk hb

end Whole

/-! ## Writing verbatim paths -/

section Render

/-- A component that is written after a separator, with a separator after it. -/
def Inner (c : Component) : Prop := c ≠ .rootDir ∧ sepAfter c = true

/-- Inner components are written as a trail. -/
theorem render_inner {cs : List Component} (h : ∀ c ∈ cs, Inner c) :
    render true cs = trail (cs.map Component.bytes) := by
  induction cs with
  | nil => rfl
  | cons c cs ih =>
    obtain ⟨hne, hafter⟩ := h c List.mem_cons_self
    rw [render, if_pos (by simp [hne]), hafter, ih fun d hd => h d (List.mem_cons_of_mem _ hd),
      List.map_cons, trail_cons]
    rfl

/-- A prefix, possibly a root, and components are written with single separators. -/
theorem render_verbatim {raw : List UInt8} (hraw : raw ≠ []) {start cs : List Component}
    (hcs : ∀ c ∈ cs, Inner c) (hstart : start = [] ∨ start = [.rootDir] ∧ cs ≠ []) :
    render false (.prefixed raw :: start ++ cs) = raw ++ trail (cs.map Component.bytes) := by
  have hsep : sepAfter (.prefixed raw) = true := by simp [sepAfter, hraw]
  rcases hstart with rfl | ⟨rfl, hne⟩
  · simp [render, hsep, render_inner hcs, Component.bytes]
  · obtain ⟨c, cs, rfl⟩ := List.exists_cons_of_ne_nil hne
    obtain ⟨-, hafter⟩ := hcs c List.mem_cons_self
    have htail := render_inner fun d hd => hcs d (List.mem_cons_of_mem _ hd)
    simp [render, Component.bytes, sepAfter] at htail hafter ⊢
    rw [hafter, htail]

/-- What is parsed from the pieces are those that are not empty. -/
theorem bytes_filterMap_parseSingle (pieces : List (List UInt8)) :
    (pieces.filterMap (parseSingle true)).map Component.bytes = pieces.filter (· ≠ []) := by
  induction pieces with
  | nil => rfl
  | cons v pieces ih =>
    by_cases hnil : v = []
    · simp [parseSingle, hnil, ih]
    · by_cases hdot : v = [0x2e]
      · simp [parseSingle, hdot, ih, Component.bytes]
      · by_cases hdots : v = [0x2e, 0x2e]
        · simp [parseSingle, hdots, ih, Component.bytes]
        · simp [parseSingle, hnil, hdot, hdots, ih, Component.bytes]

/-- A component that is parsed from a piece is inner. -/
theorem inner_of_parseSingle {v : List UInt8} {c : Component}
    (h : parseSingle true v = some c) : Inner c := by
  unfold parseSingle at h
  split at h
  · cases h
  · split at h
    · obtain rfl := Option.some.inj h
      exact ⟨by simp, rfl⟩
    · split at h <;> obtain rfl := Option.some.inj h <;> exact ⟨by simp, rfl⟩

/-- A name is an inner component. -/
theorem inner_normal (v : List UInt8) : Inner (.normal v) := ⟨by simp, rfl⟩

/-- The bytes of names are the names. -/
theorem map_bytes_normal (vs : List (List UInt8)) :
    (vs.map Component.normal).map Component.bytes = vs := by
  induction vs with
  | nil => rfl
  | cons v vs ih => rw [List.map_cons, List.map_cons, ih]; rfl

/-- The segments of a verbatim path after its prefix. -/
def segmentsOf (q : List UInt8) : List (List UInt8) :=
  ((startComponents .windows q).2.splitOnP isVerbatimSep).filter (· ≠ [])

/-- The segments of a path have no separator and are not empty. -/
theorem segments_segmentsOf (q : List UInt8) : Segments (segmentsOf q) := by
  intro v hv
  obtain ⟨hmem, hne⟩ := List.mem_filter.mp hv
  exact ⟨by simpa using hne, not_mem_of_mem_splitOnP hmem⟩

/-- A prefix is not empty. -/
theorem Prefix.len_pos (p : Prefix) : 0 < p.len := by
  cases p <;> rw [Prefix.len] <;> omega

/-- How a verbatim path is written with names after it.

**Proof sketch.** The prefix is written as it is, then perhaps a root, and everything after it is an
inner component; `render_verbatim` joins these. What is parsed from the rest and written back are
its segments. -/
theorem render_components {q : List UInt8} (h : prefixVerbatim .windows q = true)
    {vs : List (List UInt8)} (hne : vs ≠ []) :
    render false (components .windows q ++ vs.map .normal) =
      q.take (prefixLen .windows q) ++ trail (segmentsOf q ++ vs) := by
  obtain ⟨rest, rfl⟩ := eq_verbatimHead_append h
  have hparse := parsePrefix_verbatimHead rest
  have hverbatim := parseVerbatim_isVerbatim rest
  set q := verbatimHead ++ rest
  set p := parseVerbatim rest
  have hraw : q.take (prefixLen .windows q) ≠ [] := by
    rw [prefixLen, hparse, List.ne_nil_iff_length_pos, List.length_take]
    exact Nat.lt_min.mpr ⟨p.len_pos, by simp [q, verbatimHead]⟩
  have hstart : (startComponents .windows q).1 = [] ∨
      (startComponents .windows q).1 = [.rootDir] := by
    unfold startComponents
    split
    · exact .inr rfl
    · rw [hparse]
      simp [hverbatim]
  have hbody : bodyComponents .windows q (startComponents .windows q).2 =
      ((startComponents .windows q).2.splitOnP isVerbatimSep).filterMap (parseSingle true) := by
    rw [bodyComponents, bodySep, h, if_pos rfl]
  have hinner : ∀ c ∈ bodyComponents .windows q (startComponents .windows q).2 ++
      vs.map Component.normal, Inner c := by
    intro c hc
    rcases List.mem_append.mp hc with hc | hc
    · rw [hbody] at hc
      obtain ⟨v, -, hv⟩ := List.mem_filterMap.mp hc
      exact inner_of_parseSingle hv
    · obtain ⟨v, -, rfl⟩ := List.mem_map.mp hc
      exact inner_normal v
  have hrender := render_verbatim hraw hinner
    (hstart.imp_right fun hroot => ⟨hroot, by simp [hne]⟩)
  rw [List.map_append, map_bytes_normal, hbody, bytes_filterMap_parseSingle] at hrender
  rw [components, hparse, hbody, segmentsOf, ← hrender]
  simp only [Option.isSome_some, if_true, List.append_assoc, List.cons_append, List.nil_append]

/-- **A verbatim path that was written** is written back with names after it.

**Proof sketch.** A head that segments can follow says where the prefix ends: in `B` with some of
the segments. The rest of the path are the other segments, and `render_components` writes all of
them back, with the new names behind. -/
theorem render_whole {B : List UInt8} (hB : Whole B) {c : List (List UInt8)} (hc : Segments c)
    {vs : List (List UInt8)} (hne : vs ≠ []) :
    prefixVerbatim .windows (B ++ trail c) = true ∧
      render false (components .windows (B ++ trail c) ++ vs.map .normal) =
        B ++ trail (c ++ vs) := by
  obtain ⟨p, k, hparse, hverbatim, hlen⟩ := hB c hc
  have hverbatimPath : prefixVerbatim .windows (B ++ trail c) = true := by
    rw [prefixVerbatim, hparse]
    exact hverbatim
  have hsplit : B ++ trail c = B ++ trail (c.take k) ++ trail (c.drop k) := by
    rw [List.append_assoc, ← trail_append, List.take_append_drop]
  have htake : (B ++ trail c).take (prefixLen .windows (B ++ trail c)) =
      B ++ trail (c.take k) := by
    rw [prefixLen, hparse]
    conv_lhs => rw [hsplit]
    exact List.take_left' hlen.symm
  have hafter : afterPrefix .windows (B ++ trail c) = trail (c.drop k) := by
    rw [afterPrefix, prefixLen, hparse]
    conv_lhs => rw [hsplit]
    exact List.drop_left' hlen.symm
  have hsegments : segmentsOf (B ++ trail c) = c.drop k := by
    rcases hdrop : c.drop k with _ | ⟨d, ds⟩
    · rw [hdrop] at hafter
      simp [segmentsOf, startComponents, hasPhysicalRoot, hafter, hparse]
    · rw [hdrop] at hafter
      have hds : Segments (d :: ds) := fun v hv => hc v (List.mem_of_mem_drop (hdrop ▸ hv))
      have hsecond : (startComponents .windows (B ++ trail c)).2 = d ++ trail ds := by
        simp [startComponents, hasPhysicalRoot, hafter, Host.isSep]
      rw [segmentsOf, hsecond, trail, splitOnP_joined rfl fun w hw => (hds w hw).2,
        List.filter_eq_self]
      intro v hv
      simpa using (hds v hv).1
  refine ⟨hverbatimPath, ?_⟩
  rw [render_components hverbatimPath hne, htake, hsegments, List.append_assoc, ← trail_append,
    ← List.append_assoc, List.take_append_drop]

end Render

/-! ## Names pushed one by one -/

section Push

variable {host : Host} {root v : List UInt8} {vs : List (List UInt8)}

/-- A path with the verbatim head is verbatim. -/
theorem prefixVerbatim_verbatimHead (rest : List UInt8) :
    prefixVerbatim .windows (verbatimHead ++ rest) = true := by
  rw [prefixVerbatim, parsePrefix_verbatimHead]
  exact parseVerbatim_isVerbatim rest

/-- Only a drive letter and its colon are a bare drive. -/
theorem eq_of_isBareDrive {s : List UInt8} (h : isBareDrive host s = true) :
    host = .windows ∧ ∃ b, s = [b, 0x3a] ∧ isAlphabetic b = true := by
  unfold isBareDrive at h
  split at h
  next p hp =>
    obtain ⟨hdrive, hlen⟩ := Bool.and_eq_true_iff.mp h
    cases host with
    | unix => cases hp
    | windows =>
      refine ⟨rfl, ?_⟩
      obtain ⟨rest, -, rfl⟩ | ⟨-, hnot⟩ | ⟨d, hd, rfl⟩ := parsePrefix_windows_cases hp
      · rw [parseVerbatim_isDrive] at hdrive
        cases hdrive
      · rw [hnot] at hdrive
        cases hdrive
      · obtain ⟨b, rest, rfl, hb⟩ := parseDrive_eq_some hd
        have hrest : rest = [] := by
          simpa [Prefix.len] using hlen
        exact ⟨b, by rw [hrest], hb⟩
  next => cases h

/-- A path of plain names does not end with a separator. -/
theorem exists_joined_concat (h : ∀ w ∈ vs, Plain host w) (hne : vs ≠ []) (sep : UInt8) :
    ∃ t b, joined sep vs = t ++ [b] ∧ host.isSep b = false := by
  obtain ⟨us, w, rfl⟩ := (List.eq_nil_or_concat' vs).resolve_left hne
  have hw : Plain host w := h w (by simp)
  obtain ⟨u, b, rfl⟩ := (List.eq_nil_or_concat' w).resolve_left hw.ne_nil
  have hb : host.isSep b = false := hw.noSep b (by simp)
  cases us with
  | nil => exact ⟨u, b, by simp [joined], hb⟩
  | cons x us => exact ⟨x ++ us.flatMap (sep :: ·) ++ sep :: u, b, by simp [joined], hb⟩

/-- A path that does not end with a separator, and is no bare drive, needs one. -/
theorem needSep_of_getLast? {s : List UInt8} {b : UInt8} (hlast : s.getLast? = some b)
    (hb : host.isSep b = false) (hbare : ¬isBareDrive host s = true) : needSep host s = true := by
  rw [needSep, hlast]
  simp [hb, hbare]

/-- A separator is needed after pushed names.

**Proof sketch.** The path ends with a byte of the last name, which is no separator, so that the
only exception is a bare drive, a letter and a colon. By the length of the path that was pushed
onto: from nothing, the names would look like a drive; a single letter had a separator put after it;
a longer path is too long. -/
theorem needSep_append_joined (h : ∀ w ∈ vs, Ordinary host w) (hne : vs ≠ [])
    {s : List UInt8} (hs : s = if needSep host root then
      root ++ host.mainSep :: joined host.mainSep vs else root ++ joined host.mainSep vs) :
    needSep host s = true := by
  have hrel : Relative host (joined host.mainSep vs) := by
    obtain ⟨w, ws, rfl⟩ := List.exists_cons_of_ne_nil hne
    exact (h w List.mem_cons_self).relative_append ws
  obtain ⟨t, b, hjoined, hb⟩ := exists_joined_concat (fun w hw => (h w hw).toPlain) hne
    host.mainSep
  have hlast : s.getLast? = some b := by
    rw [hs, hjoined]
    split <;> simp [List.getLast?_cons]
  refine needSep_of_getLast? hlast hb fun hbare => ?_
  -- a drive letter and its colon: the letter is a name, or the path that was pushed onto
  obtain ⟨hwin, d, hd, halpha⟩ := eq_of_isBareDrive hbare
  have hletter : needSep host [d] = true := by
    refine needSep_of_getLast? List.getLast?_singleton (isSep_eq_false_of_isAlphabetic halpha)
      fun hbare => ?_
    obtain ⟨-, e, he, -⟩ := eq_of_isBareDrive hbare
    cases he
  rw [hd] at hs
  match root, hs with
  | [], hs =>
    have hdrive := hrel.noDrive hwin
    rw [if_neg (by simp [needSep]), List.nil_append] at hs
    rw [← hs] at hdrive
    simp [parseDrive, halpha] at hdrive
  | [a], hs =>
    have ha : a = d := by
      split at hs <;> exact (List.head_eq_of_cons_eq hs).symm
    rw [ha, if_pos hletter, hjoined] at hs
    simp at hs
  | a :: a' :: r, hs =>
    rw [hjoined] at hs
    split at hs <;> simp at hs

/-- An ordinary name has no separator of a verbatim path. -/
theorem Ordinary.isVerbatimSep_eq_false (h : Ordinary .windows v) :
    ∀ b ∈ v, isVerbatimSep b = false := fun b hb =>
  isVerbatimSep_eq_false_of_isSep (h.noSep b hb)

/-- A name is the beginning of verbatim paths after `\\?\`. -/
theorem Ordinary.whole (h : Ordinary .windows v) : Whole (verbatimHead ++ v) := by
  refine whole_name h.isVerbatimSep_eq_false ?_ (parseDriveExact_eq_none (h.noDrive rfl))
  intro hunc
  match v, h, hunc with
  | [], _, hunc => cases hunc
  | [a], _, hunc => simp at hunc
  | [a, b], _, hunc => simp at hunc
  | [a, b, d], _, hunc => simp at hunc
  | a :: b :: d :: e :: v, h, hunc =>
    have he := h.noSep e (by simp)
    simp only [List.take_succ_cons, List.map_cons, List.cons.injEq] at hunc
    obtain ⟨-, -, -, hsep, -⟩ := hunc
    unfold backslashed at hsep
    split at hsep
    next hslash =>
      rw [hslash] at he
      exact absurd he (by decide)
    next =>
      rw [hsep] at he
      exact absurd he (by decide)

/-- A path that becomes verbatim by names pushed onto it is `\\?` or `\\`.

**Proof sketch.** The pushed path starts with `\\?\`, and the path before it does not. By the length
of the path before: it has the two backslashes, and the first name is `?`; or it is `\\?`, and the
head is completed by the separator. In both cases the next name ends the prefix, and the others are
its segments. -/
theorem exists_whole_of_append (h : ∀ w ∈ vs, Ordinary .windows w) (hne : vs ≠ [])
    (hroot : prefixVerbatim .windows root = false) {s : List UInt8}
    (hs : s = if needSep .windows root then root ++ 0x5c :: joined 0x5c vs
      else root ++ joined 0x5c vs)
    (hverbatim : prefixVerbatim .windows s = true) :
    ∃ B c, s = B ++ trail c ∧ Whole B ∧ Segments c := by
  obtain ⟨rest, hrest⟩ := eq_verbatimHead_append hverbatim
  obtain ⟨w, ws, rfl⟩ := List.exists_cons_of_ne_nil hne
  have hw := h w List.mem_cons_self
  have hws := Plain.segments fun u hu => (h u (List.mem_cons_of_mem w hu)).toPlain
  obtain ⟨b, w', rfl⟩ := List.exists_cons_of_ne_nil hw.ne_nil
  have hback : ∀ u ∈ b :: w', u ≠ 0x5c := by
    rintro u hu rfl
    exact absurd (hw.noSep 0x5c hu) (by decide)
  have hjoined : joined 0x5c ((b :: w') :: ws) = b :: (w' ++ trail ws) := rfl
  rw [hrest, hjoined] at hs
  have hpath : ∃ t, verbatimHead ++ rest = root ++ t := by
    split at hs <;> exact ⟨_, hs⟩
  obtain ⟨t, ht⟩ := hpath
  rcases root with _ | ⟨a, _ | ⟨a', _ | ⟨a'', _ | ⟨d, r⟩⟩⟩⟩
  · have hb : b = 0x5c := (List.head_eq_of_cons_eq hs).symm
    exact absurd hb (hback b List.mem_cons_self)
  · obtain rfl : 0x5c = a := List.head_eq_of_cons_eq ht
    have hb : b = 0x5c := (List.head_eq_of_cons_eq (List.tail_eq_of_cons_eq hs)).symm
    exact absurd hb (hback b List.mem_cons_self)
  · -- the first name is `?`
    simp only [verbatimHead, List.cons_append, List.nil_append, List.cons.injEq] at ht
    obtain ⟨rfl, rfl, -⟩ := ht
    rw [if_neg (by decide)] at hs
    simp only [verbatimHead, List.cons_append, List.nil_append, List.cons.injEq, true_and] at hs
    obtain ⟨rfl, hs⟩ := hs
    cases w' with
    | cons x w' => exact absurd (List.head_eq_of_cons_eq hs).symm (hback x (by simp))
    | nil =>
      cases ws with
      | nil => cases hs
      | cons u us =>
        rw [List.nil_append, trail_cons, List.cons.injEq] at hs
        refine ⟨verbatimHead ++ u, us, ?_, (h u (by simp)).whole, fun x hx =>
          hws x (List.mem_cons_of_mem u hx)⟩
        rw [hrest, hs.2, List.append_assoc]
  · simp only [verbatimHead, List.cons_append, List.nil_append, List.cons.injEq] at ht
    obtain ⟨rfl, rfl, rfl, -⟩ := ht
    rw [if_pos (by decide)] at hs
    refine ⟨verbatimHead ++ b :: w', ws, ?_, hw.whole, hws⟩
    rw [hrest, hs]
    rfl
  · simp only [verbatimHead, List.cons_append, List.nil_append, List.cons.injEq] at ht
    obtain ⟨rfl, rfl, rfl, rfl, -⟩ := ht
    exact absurd (prefixVerbatim_verbatimHead r) (by simpa [verbatimHead] using hroot)

/-- One more name pushed onto pushed names.

**Proof sketch.** A path that is verbatim is written from its components, and what is written has
again these components (`render_whole`). Otherwise the names are appended with separators, and so is
one more, unless the names have made the path verbatim: then `exists_whole_of_append` says what it
looks like, and `render_whole` appends to it. -/
theorem push_push_joined (h : ∀ w ∈ vs, Ordinary host w) (hne : vs ≠ [])
    (hv : Ordinary host v) :
    push host (push host root (joined host.mainSep vs)) v =
      push host root (joined host.mainSep (vs ++ [v])) := by
  have hall : ∀ w ∈ vs ++ [v], Ordinary host w := by
    intro w hw
    rcases List.mem_append.mp hw with hw | hw
    · exact h w hw
    · rw [List.mem_singleton.mp hw]
      exact hv
  rw [push_joined hall (by simp), push_joined h hne, hv.push_eq]
  by_cases hverbatim : prefixVerbatim host root = true
  · -- a verbatim path
    have hwin : host = .windows := by
      cases host with
      | unix => cases hverbatim
      | windows => rfl
    subst hwin
    have hnames := Plain.segments fun w hw => (h w hw).toPlain
    obtain ⟨hs, hrender⟩ := render_whole (whole_of_prefixVerbatim hverbatim)
      ((segments_segmentsOf root).append hnames) (List.cons_ne_nil v [])
    rw [if_pos hverbatim, if_pos hverbatim, render_components hverbatim hne,
      render_components hverbatim (by simp), appendName, if_pos hs, ← List.append_assoc, ← hrender]
    rfl
  · rw [if_neg hverbatim, if_neg hverbatim]
    set s := if needSep host root then root ++ host.mainSep :: joined host.mainSep vs
      else root ++ joined host.mainSep vs with hs
    have hgoal : (if needSep host root then
        root ++ host.mainSep :: joined host.mainSep (vs ++ [v])
        else root ++ joined host.mainSep (vs ++ [v])) = s ++ host.mainSep :: v := by
      rw [hs, joined_append _ hne]
      split <;> simp
    rw [hgoal, appendName, if_pos (needSep_append_joined h hne hs)]
    split
    next hsverbatim =>
      -- the names made the path verbatim
      have hwin : host = .windows := by
        cases host with
        | unix => cases hsverbatim
        | windows => rfl
      subst hwin
      obtain ⟨B, c, hBc, hB, hc⟩ := exists_whole_of_append h hne (by simpa using hverbatim) hs
        hsverbatim
      obtain ⟨-, hrender⟩ := render_whole hB hc (List.cons_ne_nil v [])
      rw [hBc]
      rw [List.map_singleton] at hrender
      rw [hrender, trail_append, trail_cons, trail_nil, List.append_nil, List.append_assoc]
      rfl
    next => rfl

/-- **Ordinary names pushed one by one**, or joined and pushed at once. -/
theorem foldl_push_ordinary (h : ∀ w ∈ vs, Ordinary host w) (hne : vs ≠ []) :
    vs.foldl (push host) root = push host root (joined host.mainSep vs) := by
  induction vs using List.reverseRecOn with
  | nil => exact absurd rfl hne
  | append_singleton us v ih =>
    have hv : Ordinary host v := h v (by simp)
    have hus : ∀ w ∈ us, Ordinary host w := fun w hw => h w (by simp [hw])
    rw [List.foldl_append, List.foldl_cons, List.foldl_nil]
    by_cases hnil : us = []
    · subst hnil
      simp [joined]
    · rw [ih hus hnil, push_push_joined hus hnil hv]

/-- Ordinary names pushed one by one are joined behind what only depends on the path. -/
theorem exists_foldl_push_eq (host : Host) (root : List UInt8) :
    ∃ start, ∀ vs : List (List UInt8), vs ≠ [] → (∀ w ∈ vs, Ordinary host w) →
      vs.foldl (push host) root = start ++ joined host.mainSep vs := by
  by_cases hverbatim : prefixVerbatim host root = true
  · cases host with
    | unix => cases hverbatim
    | windows =>
      refine ⟨root.take (prefixLen .windows root) ++ (trail (segmentsOf root) ++ [0x5c]),
        fun vs hne h => ?_⟩
      have htrail : trail vs = 0x5c :: joined Host.windows.mainSep vs := by
        obtain ⟨v, vs, rfl⟩ := List.exists_cons_of_ne_nil hne
        rfl
      rw [foldl_push_ordinary h hne, push_joined h hne, if_pos hverbatim,
        render_components hverbatim hne, trail_append, htrail]
      simp only [List.append_assoc, List.singleton_append]
  · refine ⟨if needSep host root then root ++ [host.mainSep] else root, fun vs hne h => ?_⟩
    rw [foldl_push_ordinary h hne, push_joined h hne, if_neg hverbatim]
    split
    · rw [List.append_assoc, List.singleton_append]
    · rfl

/-- Among names with drives, the last one replaces what was pushed before.

**Proof sketch.** Induction from the last name. If it is a drive, pushing it replaces the path.
Otherwise the names before it have the drive; what they leave does not depend on the root, starts
with a drive, and still does with the last name appended. -/
theorem foldl_push_drive (h : ∀ w ∈ vs, Plain .windows w) (hd : ∃ w ∈ vs, parseDrive w ≠ none) :
    parseDrive (vs.foldl (push .windows) []) ≠ none ∧
      ∀ root, vs.foldl (push .windows) root = vs.foldl (push .windows) [] := by
  induction vs using List.reverseRecOn with
  | nil => exact absurd hd (by simp)
  | append_singleton us v ih =>
    simp only [List.foldl_append, List.foldl_cons, List.foldl_nil]
    by_cases hv : parseDrive v = none
    · have hus : ∃ w ∈ us, parseDrive w ≠ none := by
        obtain ⟨w, hw, hwd⟩ := hd
        rcases List.mem_append.mp hw with hw | hw
        · exact ⟨w, hw, hwd⟩
        · rw [List.mem_singleton.mp hw] at hwd
          exact absurd hv hwd
      obtain ⟨hdrive, hroot⟩ := ih (fun w hw => h w (by simp [hw])) hus
      have hord : Ordinary .windows v := ⟨h v (by simp), fun _ => hv⟩
      refine ⟨?_, fun root => by rw [hroot root]⟩
      set r := us.foldl (push .windows) []
      obtain ⟨d, hd⟩ := Option.ne_none_iff_exists'.mp hdrive
      obtain ⟨b, rest, hr, hb⟩ := parseDrive_eq_some hd
      have hverbatim : prefixVerbatim .windows r = false := by
        rw [prefixVerbatim, hr, parsePrefix_windows_cons _ (isSep_eq_false_of_isAlphabetic hb), ← hr,
          hd]
        rfl
      rw [hord.push_eq, appendName, if_neg (by simp [hverbatim]), hr]
      split <;> simp [parseDrive, hb]
    · refine ⟨?_, fun root => ?_⟩
      · rw [push_of_parseDrive hv]
        exact hv
      · rw [push_of_parseDrive hv, push_of_parseDrive hv]

/-- Ordinary names pushed onto nothing are the joined names. -/
theorem foldl_push_nil (h : ∀ w ∈ vs, Ordinary host w) (hne : vs ≠ []) :
    vs.foldl (push host) [] = joined host.mainSep vs := by
  rw [foldl_push_ordinary h hne, push_joined h hne]
  cases host <;> simp [prefixVerbatim, parsePrefix, needSep, parseDrive]

/-- **Names pushed one by one** onto a path, or onto each other and then onto the path. -/
theorem foldl_push (h : ∀ w ∈ vs, Plain host w) (hne : vs ≠ []) :
    vs.foldl (push host) root = push host root (vs.foldl (push host) []) := by
  by_cases hd : host = .windows ∧ ∃ w ∈ vs, parseDrive w ≠ none
  · obtain ⟨rfl, hd⟩ := hd
    obtain ⟨hdrive, hroot⟩ := foldl_push_drive h hd
    rw [push_of_parseDrive hdrive, hroot]
  · have hord : ∀ w ∈ vs, Ordinary host w := by
      intro w hw
      refine ⟨h w hw, fun hwin => ?_⟩
      by_contra hdrive
      exact hd ⟨hwin, w, hw, hdrive⟩
    rw [foldl_push_ordinary hord hne, foldl_push_nil hord hne]

/-- A path that a name was pushed onto is not empty. -/
theorem push_ne_nil (hv : Plain host v) (self : List UInt8) : push host self v ≠ [] := by
  by_cases hd : host = .windows ∧ parseDrive v ≠ none
  · obtain ⟨rfl, hd⟩ := hd
    rw [push_of_parseDrive hd]
    exact hv.ne_nil
  · have hord : Ordinary host v := by
      refine ⟨hv, fun hwin => ?_⟩
      by_contra hdrive
      exact hd ⟨hwin, hdrive⟩
    rw [hord.push_eq, appendName]
    split
    next hverbatim =>
      cases host with
      | unix => cases hverbatim
      | windows =>
        have hrender := render_components hverbatim (List.cons_ne_nil v [])
        rw [List.map_singleton] at hrender
        rw [hrender]
        simp
    next => split <;> simp [hv.ne_nil]

/-- Pushing plain names leaves a path that is not empty. -/
theorem foldl_push_ne_nil (h : ∀ w ∈ vs, Plain host w) (hne : vs ≠ []) :
    vs.foldl (push host) root ≠ [] := by
  obtain ⟨us, v, rfl⟩ := (List.eq_nil_or_concat' vs).resolve_left hne
  rw [List.foldl_append]
  exact push_ne_nil (h v (by simp)) _

/-- What comparing looks at in joined names are the names. -/
theorem comparisonKey_joined (h : ∀ w ∈ vs, Ordinary host w) (hne : vs ≠ []) :
    comparisonKey host (joined host.mainSep vs) = (none, vs.map .normal) := by
  have hrel : Relative host (joined host.mainSep vs) := by
    obtain ⟨v, vs, rfl⟩ := List.exists_cons_of_ne_nil hne
    exact (h v List.mem_cons_self).relative_append vs
  have hcomponents := components_joined h
  rw [components, hrel.parsePrefix_eq, Option.isSome_none, if_neg (by decide),
    List.nil_append] at hcomponents
  rw [comparisonKey, hrel.parsePrefix_eq, hcomponents]

/-- Names pushed onto nothing are the path of ordinary names only if they are these names. -/
theorem eq_of_samePath_joined {us : List (List UInt8)} (h : ∀ w ∈ us, Plain host w)
    (hne : us ≠ []) (h' : ∀ w ∈ vs, Ordinary host w) (hne' : vs ≠ [])
    (hsame : samePath host (us.foldl (push host) []) (joined host.mainSep vs) = true) : us = vs := by
  rw [samePath, beq_iff_eq, comparisonKey_joined h' hne'] at hsame
  by_cases hd : host = .windows ∧ ∃ w ∈ us, parseDrive w ≠ none
  · -- a path with a drive has a prefix
    obtain ⟨rfl, hd⟩ := hd
    obtain ⟨d, hdrive⟩ := Option.ne_none_iff_exists'.mp (foldl_push_drive h hd).1
    have hparse := parsePrefix_of_parseDrive hdrive
    rw [comparisonKey, hparse] at hsame
    cases (Prod.mk.inj hsame).1
  · have hord : ∀ w ∈ us, Ordinary host w := by
      intro w hw
      refine ⟨h w hw, fun hwin => ?_⟩
      by_contra hdrive
      exact hd ⟨hwin, w, hw, hdrive⟩
    rw [foldl_push_nil hord hne, comparisonKey_joined hord hne] at hsame
    exact List.map_injective_iff.mpr (fun _ _ h => Component.normal.inj h) (Prod.mk.inj hsame).2

end Push

end StdPath
