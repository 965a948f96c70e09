/-!
# Natural numbers in text

A natural number is written with ASCII digits, with any number of zeros before it, and may have a
plus sign in front.

## Main definitions

* `Text.natural?`: the number that a text stands for
-/

namespace UiLang.Text

/-- The number that digits stand for. -/
def digitsValue (digits : List Char) : Nat :=
  digits.foldl (fun value digit => value * 10 + (digit.toNat - '0'.toNat)) 0

/-- The number that a text of digits alone stands for. -/
def digits? (cs : List Char) : Option Nat :=
  if cs.isEmpty || !cs.all Char.isDigit then none else some (digitsValue cs)

/-- The number that a text stands for. -/
def natural? : List Char → Option Nat
  | '+' :: cs => digits? cs
  | cs => digits? cs

end UiLang.Text
