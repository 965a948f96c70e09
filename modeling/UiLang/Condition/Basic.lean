import UiLang.Token.Basic

/-!
# Paths and conditions

A path names a value and fields inside it, as in `user.address.city`.  A condition compares paths
and literals and joins the outcomes.

## Main definitions

* `Path`, `Path.text`
* `Literal`, `Literal.text`
* `Condition`, `Condition.text`: a condition as it is shown
* `Condition.script`: a condition as an expression over the state of the running page
-/

namespace UiLang

/-- A name, and the fields taken from its value one after another. -/
structure Path where
  root : String
  fields : List String
  deriving DecidableEq, Repr

namespace Path

/-- The root and the fields. -/
def segments (path : Path) : List String :=
  path.root :: path.fields

/-- The segments with points between them. -/
def text (path : Path) : String :=
  String.intercalate "." path.segments

end Path

/-- A value written out in a condition.  Numbers keep the text they were written with. -/
inductive Literal where
  | string (text : String)
  | number (text : String)
  | boolean (value : Bool)
  | null
  deriving DecidableEq, Repr

/-- How a truth value is written. -/
def boolText (b : Bool) : String :=
  if b then "true" else "false"

/-- How a literal is written. -/
def Literal.text : Literal → String
  | .string text => "\"" ++ text ++ "\""
  | .number text => text
  | .boolean value => boolText value
  | .null => "null"

/-- What an `if` depends on. -/
inductive Condition where
  | path (path : Path)
  | literal (value : Literal)
  | not (operand : Condition)
  | logical (op : Connective) (left right : Condition)
  | compare (op : Comparison) (left right : Condition)
  deriving DecidableEq, Repr

namespace Condition

/-- A condition written with a given way to write paths.  Negations and connectives are set in
parentheses, comparisons are not. -/
def write (path : Path → String) : Condition → String
  | .path p => path p
  | .literal value => value.text
  | .not operand => "!(" ++ operand.write path ++ ")"
  | .logical op left right =>
    "(" ++ left.write path ++ " " ++ op.symbol ++ " " ++ right.write path ++ ")"
  | .compare op left right => left.write path ++ " " ++ op.symbol ++ " " ++ right.write path

/-- A condition as it is shown. -/
def text (condition : Condition) : String :=
  condition.write Path.text

/-- A condition as a script expression.  Names are read from `state`, and a field of a missing
value reads as undefined. -/
def script (condition : Condition) : String :=
  condition.write fun path => "state." ++ String.intercalate "?." path.segments

end Condition

end UiLang
