import CriArchive.Lib.Terminated
import CriArchive.Schema.Header

set_option relaxedAutoImplicit false
set_option autoImplicit false

/-!
# String pools

`schema/strings.rs`: the string pool is scanned once into a map from start offsets to strings,
and lookups go through the map. The Shift-JIS decoder is a third-party crate; it is a parameter
here, a total function from bytes to strings.

## Main definitions

* `parseStrings` — the scan; `StringPoolFast`, `StringPoolFast.getString` — the pool.

## Main results

* `parseStrings_spec` — a scan that succeeds maps exactly the offsets at which an entry starts.
* `parseStrings_ok` — the scan of a closed pool whose entries decode succeeds.
* `safe_parseStrings` — the scan does not fault.
* `StringPoolFast.getString_encode` — the string looked up where a UTF-8 string was stored.
-/

namespace CriArchive

open Terminated

/-- `HashMap<usize, String>`, as the list of its insertions, the last one first. -/
abbrev StringMap : Type := List (ℕ × String)

section Parse

variable (shiftJis : List UInt8 → String)

/-- Decode the bytes of one entry. -/
def decodeString (encoding : StringEncoding) (bytes : List UInt8) : Exec Error String :=
  match encoding with
  | .shiftJis => .ok (shiftJis bytes)
  | .utf8 => Exec.okOr (Utf8.decode bytes) .invalidUtf8

/-- The scan of `parse_strings` from an offset on. -/
def parseStringsLoop (stream : List UInt8) (encoding : StringEncoding) (offset : ℕ)
    (strings : StringMap) : Exec Error StringMap :=
  if offset < stream.length then do
    let tail ← Exec.slice stream offset stream.length
    let length ← Exec.okOr (tail.findIdx? (· == 0)) .unterminatedString
    let bytes ← Exec.slice tail 0 length
    let value ← decodeString shiftJis encoding bytes
    -- `offset += length + 1`
    if offset + (length + 1) < 2 ^ 64 then
      parseStringsLoop stream encoding (offset + (length + 1)) ((offset, value) :: strings)
    else .fault
  else .ok strings
termination_by stream.length - offset

/-- `parse_strings`: the strings of a pool by their start offsets. -/
def parseStrings (stream : List UInt8) (encoding : StringEncoding) : Exec Error StringMap :=
  parseStringsLoop shiftJis stream encoding 0 []

variable {shiftJis} {stream : List UInt8} {encoding : StringEncoding}

/-- One step of the scan, at an offset inside the pool. -/
private theorem parseStringsLoop_step {offset : ℕ} {strings : StringMap}
    (h : offset < stream.length) :
    parseStringsLoop shiftJis stream encoding offset strings =
      (Exec.okOr ((stream.drop offset).findIdx? (· == 0)) .unterminatedString >>= fun length =>
        decodeString shiftJis encoding (entry 0 stream offset) >>= fun value =>
          if offset + (length + 1) < 2 ^ 64 then
            parseStringsLoop shiftJis stream encoding (offset + (length + 1))
              ((offset, value) :: strings)
          else .fault) := by
  have htail : (stream.drop offset).take (stream.length - offset) = stream.drop offset := by
    rw [← List.length_drop, List.take_length]
  conv_lhs => unfold parseStringsLoop
  rw [if_pos h, Exec.slice_eq h.le le_rfl, Exec.ok_bind, htail]
  rcases hidx : (stream.drop offset).findIdx? (· == 0) with _ | length
  · rfl
  · obtain ⟨hentry, hlen, -⟩ := take_findIdx? hidx
    have hle : length ≤ (stream.drop offset).length := by
      rw [← hlen]
      exact (List.takeWhile_prefix _).length_le
    rw [Exec.okOr_some, Exec.ok_bind, Exec.ok_bind, Exec.slice_eq (Nat.zero_le _) hle,
      Exec.ok_bind, List.drop_zero, Nat.sub_zero, hentry]

/-- The scan does not fault on a pool that fits the address space. -/
theorem safe_parseStringsLoop (hlen : stream.length < 2 ^ 64) (offset : ℕ)
    (strings : StringMap) :
    (parseStringsLoop shiftJis stream encoding offset strings).Safe fun _ => True := by
  induction hn : stream.length - offset using Nat.strong_induction_on
    generalizing offset strings with
  | _ n ih =>
    by_cases h : offset < stream.length
    · rw [parseStringsLoop_step h]
      refine (Exec.safe_okOr _ _).bind ?_
      intro length hidx
      obtain ⟨-, -, hz⟩ := take_findIdx? hidx
      have hin : offset + length < stream.length := (List.getElem?_eq_some_iff.mp hz).1
      refine Exec.Safe.bind (Q := fun _ => True) ?_ ?_
      · cases encoding
        · trivial
        · exact (Exec.safe_okOr _ _).mono fun _ _ => trivial
      · intro value _
        rw [if_pos (by omega)]
        exact ih _ (by omega) _ _ rfl
    · unfold parseStringsLoop
      rw [if_neg h]
      trivial

/-- **The scan does not fault** on a pool that fits the address space. -/
theorem safe_parseStrings (hlen : stream.length < 2 ^ 64) :
    (parseStrings shiftJis stream encoding).Safe fun _ => True :=
  safe_parseStringsLoop hlen 0 []

/-- A scan from the start of an entry that succeeds keeps what lies below the offset, and above
it maps exactly the starts of entries, each to the decoding of its entry.

**Proof sketch.** Strong induction on what is left of the pool. A round reads the entry at the
offset, maps the offset to its decoding and goes on after the terminator. Between the two there is
no start of an entry (`not_isStart_between`), so that other offsets are below, in which case later
rounds leave them, or from the next entry on. -/
theorem parseStringsLoop_lookup {offset : ℕ} {strings m : StringMap}
    (h : parseStringsLoop shiftJis stream encoding offset strings = .ok m)
    (hstart : offset = 0 ∨ stream[offset - 1]? = some 0) (o : ℕ) :
    (offset ≤ o → IsStart 0 stream o →
      ∃ v, decodeString shiftJis encoding (entry 0 stream o) = .ok v ∧ m.lookup o = some v) ∧
    ((o < offset ∨ ¬IsStart 0 stream o) → m.lookup o = strings.lookup o) := by
  induction hn : stream.length - offset using Nat.strong_induction_on
    generalizing offset strings with
  | _ n ih =>
    by_cases hlt : offset < stream.length
    · rw [parseStringsLoop_step hlt, Exec.bind_eq_ok] at h
      obtain ⟨length, hidx, h⟩ := h
      rw [Exec.okOr_eq_ok] at hidx
      obtain ⟨-, hentry, hz⟩ := take_findIdx? hidx
      have hin : offset + length < stream.length := (List.getElem?_eq_some_iff.mp hz).1
      rw [Exec.bind_eq_ok] at h
      obtain ⟨value, hvalue, h⟩ := h
      split_ifs at h with hfit
      have hz' : stream[offset + (length + 1) - 1]? = some 0 := by
        simpa [← Nat.add_assoc] using hz
      obtain ⟨ihstart, ihother⟩ := ih _ (by omega) h (Or.inr hz') rfl
      refine ⟨fun ho hs => ?_, fun ho => ?_⟩
      · rcases Nat.eq_or_lt_of_le ho with rfl | ho
        · refine ⟨value, hvalue, ?_⟩
          rw [ihother (Or.inl (by omega)), List.lookup_cons_self]
        · have hnext : offset + (length + 1) ≤ o := by
            by_contra hcon
            exact not_isStart_between hentry ho (by omega) hs
          exact ihstart hnext hs
      · have hne : o ≠ offset := by
          rintro rfl
          rcases ho with ho | ho
          · omega
          · exact ho ⟨hlt, hstart⟩
        have hlow : o < offset + (length + 1) ∨ ¬IsStart 0 stream o := by
          rcases ho with ho | ho
          · exact Or.inl (by omega)
          · exact Or.inr ho
        rw [ihother hlow, List.lookup_cons, beq_false_of_ne hne]
    · unfold parseStringsLoop at h
      rw [if_neg hlt] at h
      obtain rfl := Exec.ok.inj h
      exact ⟨fun ho hs => absurd hs.1 (by omega), fun _ => rfl⟩

/-- **What the scan maps**: exactly the offsets at which an entry starts, each to the decoding of
its entry. -/
theorem parseStrings_spec {m : StringMap} (h : parseStrings shiftJis stream encoding = .ok m)
    (o : ℕ) :
    (IsStart 0 stream o →
      ∃ v, decodeString shiftJis encoding (entry 0 stream o) = .ok v ∧ m.lookup o = some v) ∧
    (¬IsStart 0 stream o → m.lookup o = none) := by
  obtain ⟨hstart, hother⟩ := parseStringsLoop_lookup h (Or.inl rfl) o
  exact ⟨hstart (Nat.zero_le o), fun ho => hother (Or.inr ho)⟩

/-- A closed pool whose entries all decode is scanned successfully. -/
theorem parseStringsLoop_ok (hclosed : Closed 0 stream) (hlen : stream.length < 2 ^ 64)
    (hdecode : ∀ o, IsStart 0 stream o →
      ∃ v, decodeString shiftJis encoding (entry 0 stream o) = .ok v)
    {offset : ℕ} (hstart : offset = 0 ∨ stream[offset - 1]? = some 0) (strings : StringMap) :
    ∃ m, parseStringsLoop shiftJis stream encoding offset strings = .ok m := by
  induction hn : stream.length - offset using Nat.strong_induction_on
    generalizing offset strings with
  | _ n ih =>
    by_cases hlt : offset < stream.length
    · obtain ⟨length, hidx⟩ := findIdx?_isSome hclosed hlt
      obtain ⟨-, hentry, hz⟩ := take_findIdx? hidx
      have hin : offset + length < stream.length := (List.getElem?_eq_some_iff.mp hz).1
      obtain ⟨value, hvalue⟩ := hdecode offset ⟨hlt, hstart⟩
      have hz' : stream[offset + (length + 1) - 1]? = some 0 := by
        simpa [← Nat.add_assoc] using hz
      rw [parseStringsLoop_step hlt, hidx, Exec.okOr_some, Exec.ok_bind, hvalue, Exec.ok_bind,
        if_pos (by omega)]
      exact ih _ (by omega) (Or.inr hz') _ rfl
    · unfold parseStringsLoop
      rw [if_neg hlt]
      exact ⟨strings, rfl⟩

/-- **A closed pool is parsed** when each of its entries can be decoded. -/
theorem parseStrings_ok (hclosed : Closed 0 stream) (hlen : stream.length < 2 ^ 64)
    (hdecode : ∀ o, IsStart 0 stream o →
      ∃ v, decodeString shiftJis encoding (entry 0 stream o) = .ok v) :
    ∃ m, parseStrings shiftJis stream encoding = .ok m :=
  parseStringsLoop_ok hclosed hlen hdecode (Or.inl rfl) []

variable (shiftJis) in
/-- The scan of closed UTF-8 text succeeds. -/
theorem parseStrings_encode (cs : List Char) (hclosed : Closed (0 : UInt8) (Utf8.encode cs))
    (hlen : (Utf8.encode cs).length < 2 ^ 64) :
    ∃ m, parseStrings shiftJis (Utf8.encode cs) .utf8 = .ok m := by
  refine parseStrings_ok hclosed hlen fun o ho => ?_
  obtain ⟨ds, hds⟩ := entry_encode ho
  exact ⟨String.ofList ds, by rw [decodeString, hds, Utf8.decode_encode, Exec.okOr_some]⟩

end Parse

/-! ## The pool -/

/-- `StringPoolFast`: the strings of a table's pool. -/
structure StringPoolFast where
  strings : StringMap

namespace StringPoolFast

variable (shiftJis : List UInt8 → String)

/-- `StringPoolFast::new_borrowed`: scan the string pool of a table with the given header. -/
def newBorrowed (stream : List UInt8) (header : TableHeader) : Exec Error StringPoolFast := do
  let encoding ← header.encoding
  let strings ← parseStrings shiftJis stream encoding
  pure ⟨strings⟩

/-- `StringPool::get_string`. -/
def getString (pool : StringPoolFast) (offset : UInt32) : Option String :=
  pool.strings.lookup offset.toNat

variable {shiftJis}

/-- A pool is parsed or refused. -/
theorem safe_newBorrowed {stream : List UInt8} (hlen : stream.length < 2 ^ 64)
    (header : TableHeader) : (newBorrowed shiftJis stream header).Safe fun _ => True := by
  unfold newBorrowed
  rw [TableHeader.encoding_eq]
  exact (safe_parseStrings hlen).bind fun _ _ => trivial

/-- The strings of a pool have no `NUL`, provided the Shift-JIS decoder introduces none. -/
theorem nulFree_of_getString {stream : List UInt8} {header : TableHeader} {pool : StringPoolFast}
    (hsjis : ∀ bs, 0 ∉ bs → (shiftJis bs).NulFree)
    (h : newBorrowed shiftJis stream header = .ok pool) {offset : UInt32} {s : String}
    (hs : pool.getString offset = some s) : s.NulFree := by
  unfold newBorrowed at h
  rw [TableHeader.encoding_eq, Exec.ok_bind, Exec.bind_eq_ok] at h
  obtain ⟨m, hm, h⟩ := h
  obtain rfl := Exec.ok.inj h
  obtain ⟨hstart, hother⟩ := parseStrings_spec hm offset.toNat
  by_cases ho : IsStart 0 stream offset.toNat
  · obtain ⟨v, hv, hlookup⟩ := hstart ho
    obtain rfl : v = s := Option.some.inj (hlookup.symm.trans hs)
    have hfree : (0 : UInt8) ∉ entry 0 stream offset.toNat := not_mem_entry _
    revert hv
    cases StringEncoding.fromByte _ with
    | shiftJis =>
      intro hv
      obtain rfl := Exec.ok.inj hv
      exact hsjis _ hfree
    | utf8 =>
      intro hv
      rw [String.nulFree_iff, Utf8.decode_eq_some (Exec.okOr_eq_ok.mp hv)]
      exact hfree
  · rw [getString, hother ho] at hs
    cases hs

variable (shiftJis) in
/-- **Looking up a stored string.** In a pool of UTF-8 text that is closed, the string `s` stored
with its terminator after a closed part is found at its offset, up to its first `NUL`. -/
theorem getString_encode {cs : List Char} {header : TableHeader}
    (hencoding : (header.encoding : Exec Error StringEncoding) = .ok .utf8)
    (hclosed : Closed (0 : UInt8) (Utf8.encode cs)) (hlen : (Utf8.encode cs).length < 2 ^ 64) :
    ∃ pool, newBorrowed shiftJis (Utf8.encode cs) header = .ok pool ∧
      ∀ (pre post : List UInt8) (s : String) (offset : UInt32), Closed 0 pre →
        Utf8.encode cs = pre ++ (s.asBytes ++ 0 :: post) → offset.toNat = pre.length →
        pool.getString offset = some s.nulPrefix := by
  obtain ⟨m, hm⟩ := parseStrings_encode shiftJis cs hclosed hlen
  refine ⟨⟨m⟩, ?_, ?_⟩
  · unfold newBorrowed
    rw [hencoding, Exec.ok_bind, hm]
    rfl
  · intro pre post s offset hpre hcs hoffset
    have hstart : IsStart (0 : UInt8) (Utf8.encode cs) offset.toNat := by
      rw [hcs, hoffset]
      exact isStart_append hpre (by simp)
    obtain ⟨v, hv, hlookup⟩ := (parseStrings_spec hm offset.toNat).1 hstart
    have hentry : entry 0 (Utf8.encode cs) offset.toNat =
        Utf8.encode (s.toList.takeWhile (· ≠ '\x00')) := by
      rw [hcs, hoffset, entry_append, String.asBytes, Utf8.takeWhile_encode]
    rw [decodeString, hentry, Utf8.decode_encode, Exec.okOr_some] at hv
    rw [getString, hlookup, ← Exec.ok.inj hv]
    rfl

/-- **Which references are resolved as a C string.** In a UTF-8 pool, a reference gives the bytes from
its offset up to the next `NUL` iff a `NUL` stands before the offset: the map has no offsets inside
of strings.

**Proof sketch.** `parseStrings_spec` says which offsets are in the map: those where a string
starts. An offset inside the pool starts a string iff the byte before it is NUL. -/
theorem getString_eq_entry_iff {shiftJis : List UInt8 → String} {stream : List UInt8} {m : StringMap}
    (h : parseStrings shiftJis stream .utf8 = .ok m) {offset : UInt32} (hpos : 0 < offset.toNat)
    (hlt : offset.toNat < stream.length) :
    (∃ s, getString ⟨m⟩ offset = some s ∧ s.asBytes = entry 0 stream offset.toNat) ↔
      stream[offset.toNat - 1]? = some 0 := by
  obtain ⟨hstart, hother⟩ := parseStrings_spec h offset.toNat
  constructor
  · rintro ⟨s, hs, -⟩
    by_contra hbefore
    have hnot : ¬IsStart 0 stream offset.toNat := by
      rintro ⟨-, hzero | hnul⟩
      · omega
      · exact hbefore hnul
    rw [getString, hother hnot] at hs
    cases hs
  · intro hbefore
    obtain ⟨v, hv, hlookup⟩ := hstart ⟨hlt, Or.inr hbefore⟩
    exact ⟨v, hlookup, Utf8.decode_eq_some (Exec.okOr_eq_ok.mp hv)⟩

/-- A reference to the second string of a pool is resolved. -/
theorem getString_eq_entry_iff_sample : ∃ m,
    parseStrings (fun _ => "") [0x61, 0x62, 0, 0x62, 0] .utf8 = .ok m ∧
      ∃ s, getString ⟨m⟩ 3 = some s ∧ s.asBytes = entry 0 [0x61, 0x62, 0, 0x62, 0] 3 := by
  obtain ⟨m, hm⟩ := parseStrings_encode (fun _ => "") ['a', 'b', '\x00', 'b', '\x00']
    (Or.inr rfl) (by decide)
  exact ⟨m, hm, (getString_eq_entry_iff hm (by decide) (by decide)).mpr rfl⟩

/-- A reference to the end of a string, which a C string would share, is not resolved. -/
theorem not_getString_eq_entry :
    ¬∀ (shiftJis : List UInt8 → String) (stream : List UInt8) (m : StringMap) (offset : UInt32),
      parseStrings shiftJis stream .utf8 = .ok m → 0 < offset.toNat →
      offset.toNat < stream.length → (Utf8.decode (entry 0 stream offset.toNat)).isSome →
      ∃ s, getString ⟨m⟩ offset = some s ∧ s.asBytes = entry 0 stream offset.toNat := by
  intro hclaim
  obtain ⟨m, hm⟩ := parseStrings_encode (fun _ => "") ['a', 'b', '\x00']
    (Or.inr rfl) (by decide)
  obtain ⟨s, hs, -⟩ := hclaim _ _ m 1 hm (by decide) (by decide) (by decide +kernel)
  have hnone : m.lookup 1 = none := (parseStrings_spec hm 1).2 (by
    rintro ⟨-, hzero | hnul⟩
    · exact absurd hzero (by decide)
    · exact absurd hnul (by decide))
  rw [getString, show (1 : UInt32).toNat = 1 from rfl, hnone] at hs
  cases hs

end StringPoolFast

end CriArchive
