import Mathlib.Data.List.Basic
import Mathlib.Tactic.Common
import Mathlib.Algebra.Order.Ring.Nat

set_option relaxedAutoImplicit false
set_option autoImplicit false

/-!
# Lines, fields and numerals

Text as the bytes of its UTF-8 encoding: how the Rust standard library splits it into lines and
fields, and how it reads and prints unsigned numbers.

## Main definitions

* `Text.lines`, `Text.splitOnce` — `str::lines` and the two parts of `str::splitn(2, _)`.
* `Text.parseRadix` — `from_str_radix` of an unsigned type.
* `Text.decimal`, `Text.padded` — the formats `{}` and, with leading zeros, `{:016x}`.

## Main results

* `Text.lines_flatMap` — lines that were written are read.
* `Text.parseRadix_decimal`, `Text.parseRadix_padded` — numbers that were printed are parsed.
-/

namespace Text

/-! ## Lines and fields -/

section Lines

/-- A line without the carriage return at its end. -/
def stripReturn (line : List UInt8) : List UInt8 :=
  if line.getLast? = some 0x0d then line.dropLast else line

/-- `str::lines`. What follows the last line feed is a line unless it is empty, and keeps its
carriage return. -/
def lines (text : List UInt8) : List (List UInt8) :=
  let pieces := text.splitOn 0x0a
  pieces.dropLast.map stripReturn ++ pieces.getLast?.toList.filter (· ≠ [])

/-- The part before a separator, and the part after it if there is one. -/
def splitOnce (sep : UInt8) (line : List UInt8) : List UInt8 × Option (List UInt8) :=
  (line.takeWhile (· ≠ sep), match line.dropWhile (· ≠ sep) with
    | [] => none
    | _ :: rest => some rest)

/-- **Rows that end with a separator** are split off again, with an empty rest. -/
theorem splitOn_flatMap {rows : List (List UInt8)} {sep : UInt8} (h : ∀ row ∈ rows, sep ∉ row) :
    (rows.flatMap (· ++ [sep])).splitOn sep = rows ++ [[]] := by
  induction rows with
  | nil => rfl
  | cons row rows ih =>
    rw [List.flatMap_cons, List.append_assoc, List.singleton_append,
      List.splitOn_append_cons_self_of_not_mem (h row List.mem_cons_self),
      ih fun r hr => h r (List.mem_cons_of_mem _ hr), List.cons_append]

/-- **Lines that were written are read.** -/
theorem lines_flatMap {rows : List (List UInt8)} (h : ∀ row ∈ rows, 0x0a ∉ row)
    (hreturn : ∀ row ∈ rows, 0x0d ∉ row) : lines (rows.flatMap (· ++ [0x0a])) = rows := by
  have hstrip : rows.map stripReturn = rows := by
    refine (List.map_congr_left fun row hrow => ?_).trans (List.map_id rows)
    rw [stripReturn, if_neg]
    · rfl
    · intro hlast
      exact hreturn row hrow (List.mem_of_getLast? hlast)
  rw [lines, splitOn_flatMap h]
  simp [hstrip]

/-- A text is split at its first separator. -/
theorem splitOnce_append {sep : UInt8} {key : List UInt8} (h : sep ∉ key) (value : List UInt8) :
    splitOnce sep (key ++ sep :: value) = (key, some value) := by
  have hkey : ∀ b ∈ key, decide (b ≠ sep) = true := by
    intro b hb
    rw [decide_eq_true_eq]
    rintro rfl
    exact h hb
  rw [splitOnce, List.takeWhile_append_of_pos hkey, List.dropWhile_append_of_pos hkey,
    List.takeWhile_cons_of_neg (by simp), List.dropWhile_cons_of_neg (by simp), List.append_nil]

/-- A line with a value is a key, the separator and the value. -/
theorem eq_of_splitOnce {sep : UInt8} {line value : List UInt8}
    (h : (splitOnce sep line).2 = some value) : line = (splitOnce sep line).1 ++ sep :: value := by
  unfold splitOnce at h ⊢
  rcases hdrop : line.dropWhile (· ≠ sep) with _ | ⟨b, rest⟩
  · rw [hdrop] at h
    cases h
  · rw [hdrop, Option.some.injEq] at h
    have hhead := List.head_dropWhile_not (· ≠ sep) (by rw [hdrop]; exact List.cons_ne_nil _ _)
    simp only [hdrop, List.head_cons, decide_eq_false_iff_not, not_not] at hhead
    subst h hhead
    rw [← hdrop, List.takeWhile_append_dropWhile]

end Lines

/-! ## Numerals -/

section Numerals

/-- The byte of a digit, with lower-case letters from ten on. -/
def digitByte (d : ℕ) : UInt8 := UInt8.ofNat (if d < 10 then 0x30 + d else 0x57 + d)

/-- `char::to_digit` -/
def toDigit (radix : ℕ) (b : UInt8) : Option ℕ :=
  let d := b.toNat
  let value := if 0x30 ≤ d ∧ d ≤ 0x39 then d - 0x30
    else if 0x61 ≤ d ∧ d ≤ 0x7a then d - 0x57
    else if 0x41 ≤ d ∧ d ≤ 0x5a then d - 0x37
    else radix
  if value < radix then some value else none

/-- The value of digits that continue a number. -/
def valueFrom (radix : ℕ) (acc : ℕ) (digits : List UInt8) : Option ℕ :=
  digits.foldlM (fun acc b => (toDigit radix b).map (acc * radix + ·)) acc

/-- The digits of a numeral: a leading plus sign is allowed, but not alone. -/
def unsigned : List UInt8 → List UInt8
  | 0x2b :: digit :: digits => digit :: digits
  | digits => digits

/-- `from_str_radix` of the unsigned type below a bound. -/
def parseRadix (radix bound : ℕ) (text : List UInt8) : Option ℕ :=
  if text = [] then none
  else (valueFrom radix 0 (unsigned text)).filter (· < bound)

/-- The digits of a number, with a fixed number of places. -/
def padded (radix : ℕ) : ℕ → ℕ → List UInt8
  | 0, _ => []
  | width + 1, n => padded radix width (n / radix) ++ [digitByte (n % radix)]

/-- The number of decimal places of a number; `fuel` of them are enough. -/
def places : ℕ → ℕ → ℕ
  | 0, _ => 0
  | fuel + 1, n => if n < 10 then 1 else places fuel (n / 10) + 1

/-- The decimal digits of a number. -/
def decimal (n : ℕ) : List UInt8 := padded 10 (places (n + 1) n) n

/-- A digit is read back from its byte. -/
theorem toDigit_digitByte {radix d : ℕ} (hd : d < radix) (hradix : radix ≤ 36) :
    toDigit radix (digitByte d) = some d := by
  have hnat : (digitByte d).toNat = if d < 10 then 0x30 + d else 0x57 + d := by
    rw [digitByte, UInt8.toNat_ofNat', Nat.mod_eq_of_lt (by split <;> omega)]
  have hvalue : (if 0x30 ≤ (digitByte d).toNat ∧ (digitByte d).toNat ≤ 0x39 then
      (digitByte d).toNat - 0x30
    else if 0x61 ≤ (digitByte d).toNat ∧ (digitByte d).toNat ≤ 0x7a then (digitByte d).toNat - 0x57
    else if 0x41 ≤ (digitByte d).toNat ∧ (digitByte d).toNat ≤ 0x5a then (digitByte d).toNat - 0x37
    else radix) = d := by
    rw [hnat]
    split_ifs <;> omega
  simp only [toDigit, hvalue, if_pos hd]

/-- The value of a concatenation continues that of its first part. -/
theorem valueFrom_append (radix acc : ℕ) (xs ys : List UInt8) :
    valueFrom radix acc (xs ++ ys) = (valueFrom radix acc xs).bind fun v => valueFrom radix v ys :=
  List.foldlM_append

/-- The value of printed digits. -/
theorem valueFrom_padded {radix : ℕ} (hpos : 0 < radix) (hradix : radix ≤ 36) {width n : ℕ}
    (h : n < radix ^ width) : valueFrom radix 0 (padded radix width n) = some n := by
  induction width generalizing n with
  | zero =>
    obtain rfl : n = 0 := by simpa using h
    rfl
  | succ width ih =>
    have hdiv : n / radix < radix ^ width := by
      rw [Nat.div_lt_iff_lt_mul hpos, ← Nat.pow_succ]
      exact h
    rw [padded, valueFrom_append, ih hdiv, Option.bind_some, valueFrom, List.foldlM_cons,
      toDigit_digitByte (Nat.mod_lt n hpos) hradix, Option.map_some]
    change some (n / radix * radix + n % radix) = some n
    rw [Nat.div_add_mod']

/-- The digits of a padded number are decimal digits or small letters. -/
theorem mem_padded {radix : ℕ} (hpos : 0 < radix) (hradix : radix ≤ 16) {width n : ℕ} {b : UInt8}
    (h : b ∈ padded radix width n) :
    (0x30 ≤ b.toNat ∧ b.toNat ≤ 0x39) ∨ (0x61 ≤ b.toNat ∧ b.toNat ≤ 0x66) := by
  induction width generalizing n with
  | zero => cases h
  | succ width ih =>
    rcases List.mem_append.mp h with h | h
    · exact ih h
    · have hd := Nat.mod_lt n hpos
      rw [List.mem_singleton.mp h, digitByte, UInt8.toNat_ofNat', Nat.mod_eq_of_lt (by split <;> omega)]
      split <;> omega

/-- A padded number has a digit. -/
theorem padded_ne_nil (radix : ℕ) {width : ℕ} (h : 0 < width) (n : ℕ) :
    padded radix width n ≠ [] := by
  obtain ⟨width, rfl⟩ := Nat.exists_eq_succ_of_ne_zero (Nat.ne_of_gt h)
  simp [padded]

/-- Printed digits start with no sign. -/
theorem unsigned_padded {radix : ℕ} (hpos : 0 < radix) (hradix : radix ≤ 16) (width n : ℕ) :
    unsigned (padded radix width n) = padded radix width n := by
  rcases h : padded radix width n with _ | ⟨b, bs⟩
  · rfl
  · have hb := mem_padded hpos hradix (h ▸ List.mem_cons_self : b ∈ padded radix width n)
    have hplus : b ≠ 0x2b := by
      rintro rfl
      simp at hb
    unfold unsigned
    split
    next heq => exact absurd (List.head_eq_of_cons_eq heq) hplus
    next => rfl

/-- **Printed digits are parsed.** -/
theorem parseRadix_padded {radix bound : ℕ} (hpos : 0 < radix) (hradix : radix ≤ 16) {width n : ℕ}
    (hwidth : 0 < width) (h : n < radix ^ width) (hbound : n < bound) :
    parseRadix radix bound (padded radix width n) = some n := by
  rw [parseRadix, if_neg (padded_ne_nil radix hwidth n), unsigned_padded hpos hradix,
    valueFrom_padded hpos (by omega) h]
  simp [hbound]

/-- There are enough places for every digit of the number. -/
theorem places_spec {fuel n : ℕ} (h : n < fuel) :
    0 < places fuel n ∧ n < 10 ^ places fuel n := by
  induction fuel generalizing n with
  | zero => omega
  | succ fuel ih =>
    rw [places]
    split
    next hlt => exact ⟨Nat.one_pos, by simpa using hlt⟩
    next hge =>
      obtain ⟨-, hlt⟩ := ih (n := n / 10) (by omega)
      refine ⟨Nat.succ_pos _, ?_⟩
      rw [Nat.pow_succ]
      omega

/-- **Printed numbers are parsed.** -/
theorem parseRadix_decimal {bound n : ℕ} (hbound : n < bound) :
    parseRadix 10 bound (decimal n) = some n := by
  obtain ⟨hpos, hlt⟩ := places_spec (Nat.lt_succ_self n)
  exact parseRadix_padded (by decide) (by decide) hpos hlt hbound

end Numerals

end Text
