import UiLang.Json.Number
import UiLang.Proofs.Json.Range
import UiLang.Proofs.Scan.Lexemes

/-!
# Numerals as JSON numbers

A numeral is what a number of a source looks like: digits, a point and more digits after them or
not, and a minus sign before them or not.  Not every numeral is a number of JSON.  One whose whole
part has a superfluous zero in front is none, and one past the range of doubles has no value.  All
others have one, and an integer of 64 bits is the number that is written.

## Main definitions

* `Numeral`, `Numeral.text`, `Numeral.value`: numerals, their texts and the numbers they stand for
* `Numeral.IsTrimmed`, `Numeral.FitsJson`: no superfluous zero stands in front, and the number is
  in range too
* `Numeral.IsInteger`: the numerals of integers of 64 bits

## Main results

* `Numeral.ofChars?_chars`: the parts of a numeral are found again, if it is trimmed
* `Numeral.isSome_ofText?_iff`, `Numeral.ofText?_eq_integer_iff`: which numerals have a value, and
  which have an integer
-/

namespace UiLang

/-- A decimal as it is written: its sign, the digits before the point, and those after it.  There is
a point if there are digits after it. -/
structure Numeral where
  negative : Bool
  whole : List Char
  places : List Char
  whole_ne_nil : whole ≠ []
  whole_digits : ∀ c ∈ whole, c.isDigit = true
  places_digits : ∀ c ∈ places, c.isDigit = true

/-! ## Digits -/

theorem digitsValue_concat (cs : List Char) (c : Char) :
    digitsValue (cs ++ [c]) = 10 * digitsValue cs + (c.toNat - '0'.toNat) := by
  simp [digitsValue]

theorem digitsValue_append (cs ds : List Char) :
    digitsValue (cs ++ ds) = digitsValue cs * 10 ^ ds.length + digitsValue ds := by
  induction ds using List.reverseRecOn with
  | nil => simp [digitsValue]
  | append_singleton ds d ih =>
    rw [← List.append_assoc, digitsValue_concat, digitsValue_concat, ih, List.length_append,
      List.length_singleton, pow_succ]
    ring

namespace Numeral

variable (n : Numeral)

def sign : List Char :=
  if n.negative then ['-'] else []

/-- The point and the digits after it, if there are any. -/
def fraction : List Char :=
  if n.places = [] then [] else '.' :: n.places

def chars : List Char :=
  n.sign ++ (n.whole ++ n.fraction)

/-- The numeral as it is written. -/
def text : String :=
  String.ofList n.chars

/-- The number that is written, without its sign. -/
def magnitude : ℚ :=
  digitsValue n.whole + digitsValue n.places / 10 ^ n.places.length

/-- The number that is written. -/
def value : ℚ :=
  if n.negative then -n.magnitude else n.magnitude

/-- The whole part does not start with a zero, unless it is one. -/
def IsTrimmed : Prop :=
  n.whole.head? = some '0' → n.whole = ['0']

instance : Decidable n.IsTrimmed :=
  inferInstanceAs (Decidable (n.whole.head? = some '0' → n.whole = ['0']))

/-- Moving the point behind the last digit. -/
theorem magnitude_eq :
    n.magnitude = (digitsValue (n.whole ++ n.places) : ℚ) * 10 ^ (-(n.places.length : Int)) := by
  rw [magnitude, digitsValue_append, zpow_neg, zpow_natCast]
  push_cast
  field_simp

/-! ## The parts of a numeral -/

theorem isWhole_iff : NumberText.isWhole n.whole = true ↔ n.IsTrimmed := by
  have hne := n.whole_ne_nil
  unfold NumberText.isWhole IsTrimmed
  split
  · rename_i hnil
    exact absurd hnil hne
  · rename_i rest hzero
    rw [hzero]
    simp
  · rename_i hnil hzero
    refine iff_of_true rfl fun hhead => ?_
    obtain ⟨rest, hrest⟩ : ∃ rest, n.whole = '0' :: rest := by
      cases hwhole : n.whole with
      | nil => exact absurd hwhole hne
      | cons c rest =>
        rw [hwhole] at hhead
        exact ⟨rest, by rw [Option.some.inj hhead]⟩
    exact absurd hrest (hzero rest)

/-- The digits before the point end where the point or the end is. -/
theorem takeWhile_unsigned : (n.whole ++ n.fraction).takeWhile Char.isDigit = n.whole ∧
    (n.whole ++ n.fraction).dropWhile Char.isDigit = n.fraction := by
  unfold fraction
  split
  · rw [List.append_nil]
    exact ⟨List.takeWhile_eq_self_iff.mpr n.whole_digits,
      List.dropWhile_eq_nil_iff.mpr n.whole_digits⟩
  · exact ⟨takeWhile_append_of_all n.whole_digits (by decide) _,
      dropWhile_append_of_all n.whole_digits (by decide) _⟩

theorem unsigned?_eq (negative : Bool) :
    NumberText.unsigned? negative (n.whole ++ n.fraction) =
      if n.IsTrimmed then some ⟨negative, n.whole, n.places, none⟩ else none := by
  obtain ⟨htake, hdrop⟩ := n.takeWhile_unsigned
  unfold NumberText.unsigned?
  dsimp only
  rw [htake, hdrop]
  by_cases htrimmed : n.IsTrimmed
  · rw [if_pos (n.isWhole_iff.mpr htrimmed), if_pos htrimmed]
    unfold fraction
    by_cases hplaces : n.places = []
    · rw [if_pos hplaces, hplaces]
      rfl
    · rw [if_neg hplaces]
      change (if (n.places.takeWhile Char.isDigit).isEmpty then none else
        NumberText.finish? negative n.whole (n.places.takeWhile Char.isDigit)
          (n.places.dropWhile Char.isDigit)) = _
      rw [List.takeWhile_eq_self_iff.mpr n.places_digits,
        List.dropWhile_eq_nil_iff.mpr n.places_digits, if_neg (by simpa using hplaces)]
      rfl
  · rw [if_neg (fun habs => htrimmed (n.isWhole_iff.mp habs)), if_neg htrimmed]

/-- The parts of a trimmed numeral are found again, and any other one is refused. -/
theorem ofChars?_chars :
    NumberText.ofChars? n.chars =
      if n.IsTrimmed then some ⟨n.negative, n.whole, n.places, none⟩ else none := by
  unfold chars sign
  by_cases hnegative : n.negative = true
  · rw [if_pos hnegative, hnegative]
    exact n.unsigned?_eq true
  · rw [if_neg hnegative, List.nil_append, Bool.eq_false_iff.mpr hnegative,
      ← n.unsigned?_eq false]
    -- the first character is a digit and no sign
    obtain ⟨c, cs, hwhole⟩ := List.exists_cons_of_ne_nil n.whole_ne_nil
    have hc : c ≠ '-' := by
      rintro rfl
      have hdigit := n.whole_digits '-' (hwhole ▸ List.mem_cons_self)
      cases hdigit
    rw [hwhole, List.cons_append]
    unfold NumberText.ofChars?
    split
    · rename_i hcons
      exact absurd (List.cons.inj hcons).1 hc
    · rfl

/-! ## Values -/

/-- JSON has a number for the numeral: it is trimmed and in the range of doubles. -/
def FitsJson : Prop :=
  n.IsTrimmed ∧ n.magnitude < Double.limit

instance : Decidable n.FitsJson :=
  inferInstanceAs (Decidable (n.IsTrimmed ∧ n.magnitude < Double.limit))

/-- The integer `k` is written, without a fraction, and has 64 bits: without a sign if it is
positive, with one if it is negative.  Minus zero is no integer. -/
structure IsInteger (k : Int) : Prop where
  places : n.places = []
  value : (k : ℚ) = n.value
  low : -2 ^ 63 ≤ k
  high : k < 2 ^ 64
  not_minus_zero : n.negative = true → k ≠ 0

/-- The number text that a trimmed numeral is. -/
def numberText : NumberText :=
  ⟨n.negative, n.whole, n.places, none⟩

theorem ofText?_eq : JsonNumber.ofText? n.text =
    if n.IsTrimmed then JsonNumber.ofNumberText? n.numberText else none := by
  unfold JsonNumber.ofText? text
  rw [String.toList_ofList, ofChars?_chars]
  split <;> rfl

theorem magnitude_of_places (h : n.places = []) : n.magnitude = digitsValue n.whole := by
  simp [magnitude, h, digitsValue]

theorem cast_eq_value_iff (h : n.places = []) {k : Int} :
    (k : ℚ) = n.value ↔ k = if n.negative then -(digitsValue n.whole : Int)
      else digitsValue n.whole := by
  rw [value, n.magnitude_of_places h]
  split
  · exact_mod_cast Iff.rfl
  · exact_mod_cast Iff.rfl

/-- **Integers of 64 bits are read as integers.** -/
theorem integer?_eq_some_iff {k : Int} :
    JsonNumber.integer? n.numberText = some k ↔ n.IsInteger k := by
  unfold JsonNumber.integer? numberText
  dsimp only
  rw [Option.isSome_none, Bool.or_false]
  by_cases hplaces : n.places = []
  · have hvalue := @cast_eq_value_iff n hplaces k
    rw [if_neg (by simp [hplaces])]
    by_cases hnegative : n.negative = true
    · rw [if_pos hnegative] at hvalue ⊢
      rw [Option.ite_none_right_eq_some, Option.some.injEq, Nat.shiftLeft_eq]
      constructor
      · rintro ⟨⟨hpos, hle⟩, rfl⟩
        exact ⟨hplaces, hvalue.mpr rfl, by omega, by omega, fun _ => by omega⟩
      · rintro ⟨-, hk, hlow, -, hzero⟩
        have hk := hvalue.mp hk
        have := hzero hnegative
        exact ⟨by omega, hk.symm⟩
    · rw [if_neg hnegative] at hvalue ⊢
      rw [Option.ite_none_right_eq_some, Option.some.injEq, Nat.shiftLeft_eq]
      constructor
      · rintro ⟨hlt, rfl⟩
        exact ⟨hplaces, hvalue.mpr rfl, by omega, by omega, fun h => absurd h hnegative⟩
      · rintro ⟨-, hk, -, hhigh, -⟩
        have hk := hvalue.mp hk
        exact ⟨by omega, hk.symm⟩
  · rw [if_pos (by simp [hplaces])]
    exact iff_of_false (fun h => nomatch h) fun h => hplaces h.places

/-- An integer of 64 bits is in range. -/
theorem IsInteger.magnitude_lt {n : Numeral} {k : Int} (h : n.IsInteger k) :
    n.magnitude < Double.limit := by
  refine lt_trans ?_ Double.pow_lt_limit
  rw [n.magnitude_of_places h.places]
  have hk := (n.cast_eq_value_iff h.places).mp h.value
  have hlow := h.low
  have hhigh := h.high
  have hdigits : digitsValue n.whole < 2 ^ 64 := by
    split at hk
    · omega
    · omega
  exact_mod_cast hdigits

/-- **Numerals are read as JSON numbers exactly if they are trimmed and in range.** -/
theorem isSome_ofText?_iff : (JsonNumber.ofText? n.text).isSome = true ↔ n.FitsJson := by
  rw [ofText?_eq]
  split
  · rename_i htrimmed
    rw [FitsJson, and_iff_right htrimmed]
    unfold JsonNumber.ofNumberText?
    cases hinteger : JsonNumber.integer? n.numberText with
    | some k => exact iff_of_true rfl (n.integer?_eq_some_iff.mp hinteger).magnitude_lt
    | none =>
      dsimp only
      rw [Option.isSome_map, magnitude_eq, ← zero_sub]
      exact Double.isSome_ofDecimal?_iff _ _ _
  · rename_i htrimmed
    exact iff_of_false Bool.false_ne_true fun hfits => htrimmed hfits.1

/-- **Integers of 64 bits are kept as they are**, if they are trimmed. -/
theorem ofText?_eq_integer_iff {k : Int} :
    JsonNumber.ofText? n.text = some (.integer k) ↔ n.IsTrimmed ∧ n.IsInteger k := by
  rw [ofText?_eq, Option.ite_none_right_eq_some, ← integer?_eq_some_iff]
  refine and_congr_right fun _ => ?_
  unfold JsonNumber.ofNumberText?
  cases JsonNumber.integer? n.numberText with
  | some found => simp
  | none => simp

end Numeral

end UiLang
