/-!
# Double precision numbers as exact values

A finite double is a whole number times a power of two.  Reading a decimal rounds it to the
nearest double, ties to the even one; writing a double takes the fewest decimal digits that read
back.  Both work in exact arithmetic on natural numbers.

## Main definitions

* `Double`: sign, mantissa and binary exponent
* `Double.ofDecimal?`: the double nearest to a decimal, if there is one in range
* `Double.shortest`: the shortest decimal that reads back
-/

namespace UiLang

/-- The value `± mantissa * 2 ^ exponent`. -/
structure Double where
  negative : Bool
  mantissa : Nat
  exponent : Int
  deriving DecidableEq, Repr

/-- A positive fraction. -/
structure Ratio where
  num : Nat
  den : Nat

namespace Ratio

/-- The value `n * base ^ e`. -/
def scaled (n base : Nat) (e : Int) : Ratio :=
  ⟨n * base.pow e.toNat, base.pow (-e).toNat⟩

/-- `a ≤ b`. -/
def le (a b : Ratio) : Bool :=
  a.num * b.den ≤ b.num * a.den

/-- `a < b`. -/
def lt (a b : Ratio) : Bool :=
  a.num * b.den < b.num * a.den

/-- The quotient of two fractions. -/
def quotient (a b : Ratio) : Ratio :=
  ⟨a.num * b.den, a.den * b.num⟩

/-- The nearest whole number, ties to the even one. -/
def round (a : Ratio) : Nat :=
  let down := a.num / a.den
  let twice := 2 * (a.num % a.den)
  if twice < a.den then down
  else if a.den < twice then down + 1
  else down + down % 2

/-- The greatest `e` with `base ^ e ≤ a`, given a guess that is at most one too large. -/
def logFrom (base : Nat) (guess : Int) (a : Ratio) : Int :=
  if (scaled 1 base guess).le a then guess else guess - 1

end Ratio

/-- The number of decimal digits. -/
def decimalLength (n : Nat) : Nat :=
  (Nat.toDigits 10 n).length

namespace Double

/-- The exponent of the smallest positive double. -/
def minExponent : Int := -1074

/-- The exponent of the largest finite double. -/
def maxExponent : Int := 971

/-- The number of mantissas of a given length. -/
def mantissaBound : Nat := 1 <<< 53

/-- The double nearest to a positive fraction, or nothing past the largest finite one. -/
def ofRatio? (negative : Bool) (a : Ratio) : Option Double :=
  let log := a.logFrom 2 ((Nat.log2 a.num : Int) - (Nat.log2 a.den : Int))
  let exponent := max (log - 52) minExponent
  let mantissa := (a.quotient (.scaled 1 2 exponent)).round
  let (mantissa, exponent) :=
    if mantissa = mantissaBound then (mantissa / 2, exponent + 1) else (mantissa, exponent)
  if exponent ≤ maxExponent then some ⟨negative, mantissa, exponent⟩ else none

/-- The double nearest to `digits * 10 ^ exponent`, or nothing past the largest finite one.
Decimals far outside the range are told by their length. -/
def ofDecimal? (negative : Bool) (digits : Nat) (exponent : Int) : Option Double :=
  let magnitude := (decimalLength digits : Int) + exponent
  if digits = 0 ∨ magnitude < -330 then some ⟨negative, 0, minExponent⟩
  else if 310 < magnitude then none
  else ofRatio? negative (.scaled digits 10 exponent)

/-- The decimal `digits * 10 ^ exponent`. -/
structure Decimal where
  digits : Nat
  exponent : Int
  deriving DecidableEq, Repr

/-- Removes trailing zeros; `fuel` bounds their number. -/
def Decimal.trim : Nat → Decimal → Decimal
  | 0, d => d
  | fuel + 1, d =>
    if d.digits % 10 = 0 then trim fuel ⟨d.digits / 10, d.exponent + 1⟩ else d

/-- The decimal reads back as the double: it lies between the midpoints to the double's two
neighbours.  A midpoint itself belongs to the double with the even mantissa. -/
def readsBack (x : Double) (d : Decimal) : Bool :=
  let atPower := x.mantissa * 2 = mantissaBound ∧ minExponent < x.exponent
  let low := Ratio.scaled (4 * x.mantissa - if atPower then 1 else 2) 2 (x.exponent - 2)
  let high := Ratio.scaled (4 * x.mantissa + 2) 2 (x.exponent - 2)
  let value := Ratio.scaled d.digits 10 d.exponent
  if x.mantissa % 2 = 0 then low.le value && value.le high
  else low.lt value && value.lt high

/-- The decimal on the grid of step `10 ^ exponent` that reads back and is nearest to the double:
one of its two neighbours on the grid, or none. -/
def onGrid? (x : Double) (exponent : Int) : Option Decimal :=
  let steps := (Ratio.scaled x.mantissa 2 x.exponent).quotient (.scaled 1 10 exponent)
  let below : Decimal := ⟨steps.num / steps.den, exponent⟩
  let above : Decimal := ⟨steps.num / steps.den + 1, exponent⟩
  match x.readsBack below, x.readsBack above with
  | true, true => if steps.round = below.digits then some below else some above
  | true, false => some below
  | false, true => some above
  | false, false => none

/-- The first grid with a decimal that reads back, from coarse to fine; `fuel` counts the grids. -/
def search (x : Double) : Nat → Int → Option Decimal
  | 0, _ => none
  | fuel + 1, exponent =>
    match x.onGrid? exponent with
    | some d => some d
    | none => search x fuel (exponent - 1)

/-- The shortest decimal that reads back as the double.  Seventeen digits always do. -/
def shortest (x : Double) : Decimal :=
  if x.mantissa = 0 then ⟨0, 0⟩
  else
    let value := Ratio.scaled x.mantissa 2 x.exponent
    let guess := (decimalLength value.num : Int) - (decimalLength value.den : Int)
    let log := value.logFrom 10 guess
    match x.search 17 log with
    | some d => d.trim 20
    | none => ⟨0, 0⟩

end Double

end UiLang
