import UiLang.Text.Split
import UiLang.Token.Basic

/-!
# Raw text from tokens

Script bodies, expressions and call arguments are not read any further: their tokens are joined
back into text.  Two tokens are separated by one space exactly when the source had something
between them, and strings get their quotes back.

## Main definitions

* `RawText.join`: tokens on one line
* `RawText.body`: tokens of a block, one statement per line, with the missing semicolons
* `RawText.arguments`: the comma separated parts of an argument list
-/

namespace UiLang.RawText

/-- How a token is written in source. -/
def written (token : Token) : String :=
  if token.kind = .string then "\"" ++ token.text ++ "\"" else token.text

/-- Something stood between two neighbouring tokens of the source. -/
def separated (previous next : Token) : Bool :=
  previous.location.line != next.location.line ||
    previous.location.column + previous.location.length < next.location.column

/-- The text of tokens that follow `previous`. -/
def joinAfter (previous : Token) : List Token → String
  | [] => ""
  | token :: tokens =>
    (if separated previous token then " " else "") ++ written token ++ joinAfter token tokens

/-- Tokens joined on one line; newline tokens are dropped. -/
def join (tokens : List Token) : String :=
  match tokens.filter fun token => token.kind != .newline with
  | [] => ""
  | token :: tokens => written token ++ joinAfter token tokens

/-- A line that ends in a token of this kind goes on in the next line. -/
def continuesLine : Kind → Bool
  | .opening _ | .closing .brace | .comma | .colon | .plus | .minus | .star | .slash | .assign
  | .connective _ | .bang | .dot | .comparison _ => true
  | _ => false

/-- The statement of `line` ends before the line `next`. -/
def endsStatement (line next : List Token) : Bool :=
  !(line.getLast?.any fun token => continuesLine token.kind) &&
    !(next.head?.any fun token => token.kind == .closing .brace)

/-- Lines of tokens as text, each statement that ends before the next line with a semicolon. -/
def joinLines : List (List Token) → String
  | [] => ""
  | [line] => join line
  | line :: next :: lines =>
    join line ++ (if endsStatement line next then ";\n" else "\n") ++ joinLines (next :: lines)

/-- The lines of a block that hold any token. -/
def bodyLines (tokens : List Token) : List (List Token) :=
  (splitWhen (fun token => token.kind == .newline) tokens).filter fun line => !line.isEmpty

/-- The tokens of a block as text, one statement per line. -/
def body (tokens : List Token) : String :=
  joinLines (bodyLines tokens)

/-- The depth of brackets after a token.  An unmatched closing bracket leaves it at zero. -/
def depthAfter (depth : Nat) (token : Token) : Nat :=
  match token.kind with
  | .opening _ => depth + 1
  | .closing _ => depth - 1
  | _ => depth

/-- The parts of a token sequence between its commas outside brackets. -/
def splitArguments (depth : Nat) : List Token → List (List Token)
  | [] => [[]]
  | token :: tokens =>
    if token.kind = .comma ∧ depth = 0 then [] :: splitArguments 0 tokens
    else
      match splitArguments (depthAfter depth token) tokens with
      | [] => [[token]]
      | part :: parts => (token :: part) :: parts

/-- The arguments of a call as texts; empty ones are dropped. -/
def arguments (tokens : List Token) : List String :=
  ((splitArguments 0 tokens).filter fun part => !part.isEmpty).map join

end UiLang.RawText
