import UiLang.Diagnostic.Basic
import UiLang.Token.Word

/-!
# Scanning source text into tokens

The text is read from the front.  Spaces, tabs and carriage returns are skipped; everything else
is a lexeme of some token, or a character that belongs to none.  Scanning never fails: a character
that starts no token is reported and skipped, and a string without a closing quote is reported and
runs to the end.

## Main definitions

* `Lexeme`: a token at the front of a text, with the number of characters it takes
* `Lexeme.first?`: the token at the front of a text
* `Scan`, `scan`: all tokens of a text and all faults found in it
-/

namespace UiLang

/-- A token at the front of a text: its kind, its text, and how many characters it takes. -/
structure Lexeme where
  kind : Kind
  text : String
  width : Nat
  width_pos : 0 < width

/-- A character that separates tokens and is no token itself. -/
def isGap (c : Char) : Bool :=
  c == ' ' || c == '\t' || c == '\r'

/-- The kind of a word. -/
def wordKind : String → Kind
  | "component" => .keyword .component
  | "state" => .keyword .state
  | "computed" => .keyword .computed
  | "function" => .keyword .function
  | "if" => .keyword .ifWord
  | "else" => .keyword .elseWord
  | "for" => .keyword .forWord
  | "in" => .keyword .inWord
  | "props" => .keyword .props
  | "onMount" => .keyword .onMount
  | "onUpdate" => .keyword .onUpdate
  | "fetch" => .keyword .fetch
  | "watch" => .keyword .watch
  | "return" => .keyword .returnWord
  | "async" => .keyword .async
  | "await" => .keyword .await
  | "import" => .keyword .importWord
  | "export" => .keyword .exportWord
  | "from" => .keyword .fromWord
  | "true" => .boolean
  | "false" => .boolean
  | "null" => .null
  | _ => .identifier

/-- A blank that may stand inside `else if`. -/
def isElseBlank (c : Char) : Bool :=
  c == ' ' || c == '\t'

/-- The blanks and the `if` that make an `else` an `else if`: their number of characters, if the
text after the `else` starts with them and the `if` is not the start of a longer word. -/
def elseIfTail? (rest : List Char) : Option Nat :=
  match rest.dropWhile isElseBlank with
  | 'i' :: 'f' :: after =>
    match after with
    | [] => some ((rest.takeWhile isElseBlank).length + 2)
    | c :: _ =>
      if isIdentifierChar c then none else some ((rest.takeWhile isElseBlank).length + 2)
  | _ => none

namespace Lexeme

/-- A lexeme that is written as its text. -/
def verbatim (kind : Kind) (c : Char) (rest : List Char) : Lexeme :=
  ⟨kind, String.ofList (c :: rest), rest.length + 1, Nat.succ_pos _⟩

/-- The string after an opening quote, if its closing quote is there. -/
def quoted? (rest : List Char) : Option Lexeme :=
  let inner := rest.takeWhile (· != '"')
  if inner.length < rest.length then
    some ⟨.string, String.ofList inner, inner.length + 2, Nat.succ_pos _⟩
  else none

/-- The number at the front of a text. -/
def number? (cs : List Char) : Option Lexeme :=
  match decimal? cs with
  | some (c :: digits, _) => some (verbatim .number c digits)
  | _ => none

/-- The lexeme of the word `c :: letters` in front of `rest`.  An `else` takes an `if` that follows
it on the same line. -/
def word (c : Char) (letters rest : List Char) : Lexeme :=
  let kind := wordKind (String.ofList (c :: letters))
  if kind = .keyword .elseWord then
    match elseIfTail? rest with
    | some width => ⟨.keyword .elseIf, "else if", letters.length + 1 + width,
      Nat.add_pos_left (Nat.succ_pos _) _⟩
    | none => verbatim kind c letters
  else verbatim kind c letters

/-- The word at the front of a text. -/
def word? (cs : List Char) : Option Lexeme :=
  match identifier? cs with
  | some (c :: letters, rest) => some (word c letters rest)
  | _ => none

/-- The operator or punctuation mark at the front of a text.  Two characters win over one. -/
def symbol? (c : Char) (rest : List Char) : Option Lexeme :=
  match c, rest with
  | '=', '=' :: _ => some (verbatim (.comparison .equal) '=' ['='])
  | '!', '=' :: _ => some (verbatim (.comparison .notEqual) '!' ['='])
  | '>', '=' :: _ => some (verbatim (.comparison .greaterEq) '>' ['='])
  | '<', '=' :: _ => some (verbatim (.comparison .lessEq) '<' ['='])
  | '&', '&' :: _ => some (verbatim (.connective .and) '&' ['&'])
  | '|', '|' :: _ => some (verbatim (.connective .or) '|' ['|'])
  | '=', _ => some (verbatim .assign '=' [])
  | '!', _ => some (verbatim .bang '!' [])
  | '>', _ => some (verbatim (.comparison .greater) '>' [])
  | '<', _ => some (verbatim (.comparison .less) '<' [])
  | '+', _ => some (verbatim .plus '+' [])
  | '-', _ => some (verbatim .minus '-' [])
  | '*', _ => some (verbatim .star '*' [])
  | '/', _ => some (verbatim .slash '/' [])
  | '\x7b', _ => some (verbatim (.opening .brace) '\x7b' [])
  | '\x7d', _ => some (verbatim (.closing .brace) '\x7d' [])
  | '[', _ => some (verbatim (.opening .square) '[' [])
  | ']', _ => some (verbatim (.closing .square) ']' [])
  | '(', _ => some (verbatim (.opening .round) '(' [])
  | ')', _ => some (verbatim (.closing .round) ')' [])
  | ',', _ => some (verbatim .comma ',' [])
  | ':', _ => some (verbatim .colon ':' [])
  | '.', _ => some (verbatim .dot '.' [])
  | _, _ => none

/-- The token at the front of the text `c :: rest`, if there is one. -/
def first? (c : Char) (rest : List Char) : Option Lexeme :=
  if c = '\n' then some (verbatim .newline '\n' [])
  else if c = '"' then quoted? rest
  else (number? (c :: rest)).or ((word? (c :: rest)).or (symbol? c rest))

end Lexeme

/-- The outcome of scanning a text. -/
structure Scan where
  stream : TokenStream
  faults : List Diagnostic

namespace Scan

/-- Puts a token in front. -/
def addToken (token : Token) (s : Scan) : Scan :=
  { s with stream := { s.stream with tokens := token :: s.stream.tokens } }

/-- Puts a fault in front. -/
def addFault (fault : Diagnostic) (s : Scan) : Scan :=
  { s with faults := fault :: s.faults }

/-- Nothing is left: only the end marker. -/
def finish (pos : Position) : Scan :=
  ⟨⟨[], ⟨.eof, "", pos.spanning 0⟩⟩, []⟩

/-- A string that runs to the end of the text, from its opening quote on. -/
def unterminated (pos : Position) (rest : List Char) : Scan :=
  let loc := pos.spanning (rest.length + 1)
  ((finish (pos.advance ('"' :: rest))).addToken ⟨.string, String.ofList rest, loc⟩).addFault
    ⟨.unterminatedString, loc⟩

end Scan

/-- All tokens and faults of a text that starts at a given position. -/
def scanFrom (pos : Position) (cs : List Char) : Scan :=
  match cs with
  | [] => Scan.finish pos
  | c :: rest =>
    if isGap c then scanFrom (pos.next c) rest
    else
      match Lexeme.first? c rest with
      | some lexeme =>
        (scanFrom (pos.advance ((c :: rest).take lexeme.width))
          ((c :: rest).drop lexeme.width)).addToken
          ⟨lexeme.kind, lexeme.text, pos.spanning lexeme.width⟩
      | none =>
        if c = '"' then Scan.unterminated pos rest
        else
          (scanFrom (pos.next c) rest).addFault ⟨.unexpectedCharacter c, pos.spanning 1⟩
termination_by cs.length
decreasing_by
  · simp
  · have := lexeme.width_pos
    simp only [List.length_drop, List.length_cons]
    omega
  · simp

/-- All tokens and faults of a source text. -/
def scan (source : String) : Scan :=
  scanFrom Position.start source.toList

end UiLang
