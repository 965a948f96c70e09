import UiLang.Token.Basic

/-!
# Diagnostics

What can be wrong with a source text, where, and how it is said.  The wording and the advice
depend on the fault alone.

## Main definitions

* `Fault`, `Fault.message`, `Fault.suggestion`
* `Diagnostic`, `Diagnostic.text`
-/

namespace UiLang

/-- What is wrong.  The first two are found while scanning characters, the others while reading
tokens. -/
inductive Fault where
  | unterminatedString
  | unexpectedCharacter (c : Char)
  | expectedToken (expected found : Kind)
  | unexpectedToken (found : Kind) (text : String)
  | invalidStateValue (found : Kind) (text : String)
  | invalidCondition (found : Kind)
  | invalidAttributeValue (name : String)
  | expectedIn
  | expectedDeclaration (found : Kind)
  | unclosedBlock
  deriving DecidableEq, Repr

namespace Fault

/-- What is said about a fault. -/
def message : Fault → String
  | .unterminatedString => "Unterminated string"
  | .unexpectedCharacter c => "Unexpected character '" ++ c.toString ++ "'"
  | .expectedToken expected found => "Expected " ++ expected.name ++ " but got " ++ found.name
  | .unexpectedToken found text => "Unexpected token " ++ found.name ++ " " ++ Text.quote text
  | .invalidStateValue found text =>
    "Expected number, string, boolean, null, array, or object for state value. Got: " ++
      found.name ++ " with value: " ++ Text.quote text
  | .invalidCondition found =>
    "Expected identifier, number, string, boolean, null or '(' in condition, got " ++ found.name
  | .invalidAttributeValue name =>
    "Expected string, number or identifier for " ++ name ++ " value"
  | .expectedIn => "Expected 'in' keyword"
  | .expectedDeclaration found =>
    "Expected component or function after export, got " ++ found.name
  | .unclosedBlock => "Unclosed block, expected '\x7d' before end of input"

/-- The advice for a fault, if there is any. -/
def suggestion : Fault → Option String
  | .unterminatedString => some "add a closing '\"'"
  | .unexpectedCharacter '&' => some "use '&&' for a logical and"
  | .unexpectedCharacter '|' => some "use '||' for a logical or"
  | .expectedToken (.closing bracket) _ =>
    some ("add a closing '" ++ bracket.closingSymbol ++ "'")
  | _ => none

end Fault

/-- A fault at a place in the source. -/
structure Diagnostic where
  fault : Fault
  location : Location
  deriving DecidableEq, Repr

/-- A message with its place: `message at line L, column C`. -/
def placedMessage (message : String) (loc : Location) : String :=
  message ++ " at line " ++ toString loc.line ++ ", column " ++ toString loc.column

namespace Diagnostic

/-- The message of a diagnostic with its place. -/
def text (diagnostic : Diagnostic) : String :=
  placedMessage diagnostic.fault.message diagnostic.location

/-- A fault at a token. -/
def ofToken (fault : Fault) (token : Token) : Diagnostic :=
  ⟨fault, token.location⟩

end Diagnostic

end UiLang
