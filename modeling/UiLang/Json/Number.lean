import UiLang.Json.Double

/-!
# Numbers of JSON texts

A number text is a sign, a whole part without leading zeros, an optional fraction and an optional
exponent.  A whole number that fits 64 bits is kept as it is; any other number is the double
nearest to it, and a text past the range of doubles has no value.

## Main definitions

* `NumberText`, `NumberText.ofChars?`: the parts of a number text
* `JsonNumber`, `JsonNumber.ofText?`, `JsonNumber.text`
-/

namespace UiLang

/-- The parts of a number text. -/
structure NumberText where
  negative : Bool
  whole : List Char
  fraction : List Char
  exponent : Option Int
  deriving DecidableEq, Repr

/-- The value of a run of decimal digits. -/
def digitsValue (cs : List Char) : Nat :=
  cs.foldl (fun n c => 10 * n + (c.toNat - '0'.toNat)) 0

namespace NumberText

/-- A run of digits that is neither empty nor starts with a superfluous zero. -/
def isWhole : List Char → Bool
  | [] => false
  | '0' :: rest => rest.isEmpty
  | _ => true

/-- The exponent that makes up all of a text after its `e`. -/
def exponent? (cs : List Char) : Option Int :=
  let value (ds : List Char) : Option Nat :=
    if ds.isEmpty || !ds.all Char.isDigit then none else some (digitsValue ds)
  match cs with
  | '+' :: ds => (value ds).map fun n => (n : Int)
  | '-' :: ds => (value ds).map fun n => -(n : Int)
  | ds => (value ds).map fun n => (n : Int)

/-- The number text of what follows the whole part and the fraction. -/
def finish? (negative : Bool) (whole fraction : List Char) : List Char → Option NumberText
  | [] => some ⟨negative, whole, fraction, none⟩
  | c :: cs =>
    if c = 'e' ∨ c = 'E' then
      (exponent? cs).map fun e => ⟨negative, whole, fraction, some e⟩
    else none

/-- The number text of what follows the sign. -/
def unsigned? (negative : Bool) (cs : List Char) : Option NumberText :=
  let whole := cs.takeWhile Char.isDigit
  if isWhole whole then
    match cs.dropWhile Char.isDigit with
    | '.' :: cs =>
      let fraction := cs.takeWhile Char.isDigit
      if fraction.isEmpty then none
      else finish? negative whole fraction (cs.dropWhile Char.isDigit)
    | cs => finish? negative whole [] cs
  else none

/-- The parts of a text that is a number as a whole. -/
def ofChars? : List Char → Option NumberText
  | '-' :: cs => unsigned? true cs
  | cs => unsigned? false cs

end NumberText

/-- The value of a number text. -/
inductive JsonNumber where
  | integer (value : Int)
  | double (value : Double)
  deriving DecidableEq, Repr

namespace JsonNumber

/-- The integer of a text without fraction and exponent, if it fits 64 bits: unsigned ones for
positive numbers, signed ones for negative numbers.  Minus zero is no integer. -/
def integer? (text : NumberText) : Option Int :=
  let n := digitsValue text.whole
  if !text.fraction.isEmpty || text.exponent.isSome then none
  else if text.negative then
    if 0 < n ∧ n ≤ 1 <<< 63 then some (-(n : Int)) else none
  else if n < 1 <<< 64 then some (n : Int) else none

/-- The value of the parts of a number. -/
def ofNumberText? (text : NumberText) : Option JsonNumber :=
  match integer? text with
  | some value => some (.integer value)
  | none =>
    (Double.ofDecimal? text.negative (digitsValue (text.whole ++ text.fraction))
      (text.exponent.getD 0 - text.fraction.length)).map .double

/-- The value of a text that is a number as a whole and lies in range. -/
def ofText? (text : String) : Option JsonNumber :=
  (NumberText.ofChars? text.toList).bind ofNumberText?

/-- Which decimal exponents are written without an exponent. -/
def isPositional (exponent : Int) : Bool :=
  -5 ≤ exponent && exponent ≤ 15

/-- A decimal without an exponent, always with a fraction.  `point` is the number of digits
before the point. -/
def positional (digits : List Char) (point : Int) : List Char :=
  if 0 < point then
    let n := point.toNat
    let whole := digits.take n ++ List.replicate (n - digits.length) '0'
    let fraction := digits.drop n
    whole ++ '.' :: if fraction.isEmpty then ['0'] else fraction
  else ['0', '.'] ++ List.replicate (-point).toNat '0' ++ digits

/-- A decimal with one digit before the point and an exponent, whose sign is always written. -/
def scientific (digits : List Char) (exponent : Int) : List Char :=
  let fraction := digits.drop 1
  digits.take 1 ++ (if fraction.isEmpty then [] else '.' :: fraction) ++
    ['e', if exponent < 0 then '-' else '+'] ++ Nat.toDigits 10 exponent.natAbs

/-- The shortest text of a double, always with a fraction or an exponent. -/
def doubleText (x : Double) : String :=
  let decimal := x.shortest
  let digits := Nat.toDigits 10 decimal.digits
  let exponent := decimal.exponent + digits.length - 1
  let body :=
    if isPositional exponent then positional digits (exponent + 1)
    else scientific digits exponent
  String.ofList (if x.negative then '-' :: body else body)

/-- The text of a number. -/
def text : JsonNumber → String
  | .integer value => toString value
  | .double value => doubleText value

end JsonNumber

end UiLang
