import UiLang.Location
import UiLang.Text.Quoted

/-!
# Tokens

A token has a kind, a text and a location.  The text of a string token is what stands between its
quotes, while its location covers the quotes too.

## Main definitions

* `Keyword`, `Comparison`, `Connective`, `Bracket`: the families of kinds
* `Kind`, `Kind.name`: the kinds and the names that messages give them
* `Token`
* `TokenStream`: the tokens before the end marker, and the end marker
-/

namespace UiLang

/-- Reserved words.  `elseIf` is the word `else` with an `if` after it. -/
inductive Keyword where
  | component | state | computed | function | ifWord | elseWord | elseIf | forWord | inWord
  | props | onMount | onUpdate | fetch | watch | returnWord | async | await
  | importWord | exportWord | fromWord
  deriving DecidableEq, Repr

/-- Operators that compare two values. -/
inductive Comparison where
  | greater | less | greaterEq | lessEq | equal | notEqual
  deriving DecidableEq, Repr

/-- Operators that join two conditions. -/
inductive Connective where
  | and | or
  deriving DecidableEq, Repr

/-- Kinds of brackets: `\x7b \x7d`, `[ ]` and `( )`. -/
inductive Bracket where
  | brace | square | round
  deriving DecidableEq, Repr

/-- The kinds of tokens. -/
inductive Kind where
  | keyword (word : Keyword)
  | identifier | string | number | boolean | null
  | assign | plus | minus | star | slash
  | comparison (op : Comparison)
  | connective (op : Connective)
  | bang
  | opening (bracket : Bracket)
  | closing (bracket : Bracket)
  | comma | colon | dot
  | newline | eof
  deriving DecidableEq, Repr

/-- The name that messages give a reserved word. -/
def Keyword.name : Keyword → String
  | .component => "COMPONENT"
  | .state => "STATE"
  | .computed => "COMPUTED"
  | .function => "FUNCTION"
  | .ifWord => "IF"
  | .elseWord => "ELSE"
  | .elseIf => "ELSE_IF"
  | .forWord => "FOR"
  | .inWord => "IN"
  | .props => "PROPS"
  | .onMount => "ON_MOUNT"
  | .onUpdate => "ON_UPDATE"
  | .fetch => "FETCH"
  | .watch => "WATCH"
  | .returnWord => "RETURN"
  | .async => "ASYNC"
  | .await => "AWAIT"
  | .importWord => "IMPORT"
  | .exportWord => "EXPORT"
  | .fromWord => "FROM"

/-- All reserved words. -/
def Keyword.all : List Keyword :=
  [.component, .state, .computed, .function, .ifWord, .elseWord, .elseIf, .forWord, .inWord,
    .props, .onMount, .onUpdate, .fetch, .watch, .returnWord, .async, .await, .importWord,
    .exportWord, .fromWord]

namespace Comparison

/-- The name that messages give a comparison. -/
def name : Comparison → String
  | .greater => "GT"
  | .less => "LT"
  | .greaterEq => "GTE"
  | .lessEq => "LTE"
  | .equal => "EQ_EQ"
  | .notEqual => "NEQ"

/-- How a comparison is written. -/
def symbol : Comparison → String
  | .greater => ">"
  | .less => "<"
  | .greaterEq => ">="
  | .lessEq => "<="
  | .equal => "=="
  | .notEqual => "!="

/-- All comparisons. -/
def all : List Comparison :=
  [.greater, .less, .greaterEq, .lessEq, .equal, .notEqual]

end Comparison

namespace Connective

/-- The name that messages give a connective. -/
def name : Connective → String
  | .and => "AND"
  | .or => "OR"

/-- How a connective is written. -/
def symbol : Connective → String
  | .and => "&&"
  | .or => "||"

end Connective

/-- The name that messages give a kind of bracket, after `L_` or `R_`. -/
def Bracket.name : Bracket → String
  | .brace => "BRACE"
  | .square => "BRACKET"
  | .round => "PAREN"

/-- How a closing bracket is written. -/
def Bracket.closingSymbol : Bracket → String
  | .brace => "\x7d"
  | .square => "]"
  | .round => ")"

namespace Kind

/-- The name that messages give a kind. -/
def name : Kind → String
  | .keyword word => word.name
  | .identifier => "IDENTIFIER"
  | .string => "STRING"
  | .number => "NUMBER"
  | .boolean => "BOOLEAN"
  | .null => "NULL"
  | .assign => "ASSIGN"
  | .plus => "PLUS"
  | .minus => "MINUS"
  | .star => "STAR"
  | .slash => "SLASH"
  | .comparison op => op.name
  | .connective op => op.name
  | .bang => "BANG"
  | .opening bracket => "L_" ++ bracket.name
  | .closing bracket => "R_" ++ bracket.name
  | .comma => "COMMA"
  | .colon => "COLON"
  | .dot => "DOT"
  | .newline => "NL"
  | .eof => "EOF"

/-- All kinds. -/
def all : List Kind :=
  Keyword.all.map .keyword ++ [.identifier, .string, .number, .boolean, .null, .assign, .plus,
    .minus, .star, .slash] ++ Comparison.all.map .comparison ++ [.connective .and,
    .connective .or, .bang, .opening .brace, .closing .brace, .opening .square, .closing .square,
    .opening .round, .closing .round, .comma, .colon, .dot, .newline, .eof]

theorem mem_all (kind : Kind) : kind ∈ all := by
  cases kind with
  | keyword word => cases word <;> decide
  | comparison op => cases op <;> decide
  | connective op => cases op <;> decide
  | opening bracket => cases bracket <;> decide
  | closing bracket => cases bracket <;> decide
  | _ => decide

/-- The kind of a given name. -/
def ofName? (name : String) : Option Kind :=
  all.find? fun kind => kind.name == name

/-- A reserved word. -/
def isKeyword : Kind → Bool
  | .keyword _ => true
  | _ => false

/-- A reserved word or an identifier. -/
def isWord : Kind → Bool
  | .keyword _ | .identifier => true
  | _ => false

/-- An operator that compares two values. -/
def isComparison : Kind → Bool
  | .comparison _ => true
  | _ => false

end Kind

/-- A token of source text. -/
structure Token where
  kind : Kind
  text : String
  location : Location
  deriving DecidableEq, Repr

namespace Token

/-- The text `KIND("text")@line:column`. -/
def describe (token : Token) : String :=
  token.kind.name ++ "(" ++ Text.quote token.text ++ ")@" ++ token.location.text

end Token

/-- A sequence of tokens up to its end marker.  No token before the marker is an end marker when
the stream is built by `TokenStream.ofList`. -/
structure TokenStream where
  tokens : List Token
  stop : Token
  deriving DecidableEq, Repr

namespace TokenStream

/-- The end marker right after a token. -/
def stopAfter (token : Token) : Token :=
  let loc := token.location
  ⟨.eof, "", { loc with column := loc.column + loc.length, length := 0 }⟩

/-- The end marker of a sequence that has none: right after its last token. -/
def defaultStop (tokens : List Token) : Token :=
  match tokens.getLast? with
  | some token => stopAfter token
  | none => ⟨.eof, "", Position.start.spanning 0⟩

theorem kind_defaultStop (tokens : List Token) : (defaultStop tokens).kind = .eof := by
  unfold defaultStop
  split <;> rfl

/-- Any sequence of tokens as a stream: it ends at its first end marker, and a sequence without
one gets one right after its last token. -/
def ofList (tokens : List Token) : TokenStream where
  tokens := tokens.takeWhile fun token => token.kind ≠ .eof
  stop := (tokens.find? fun token => token.kind = .eof).getD (defaultStop tokens)

/-- The tokens with the end marker last. -/
def toList (stream : TokenStream) : List Token :=
  stream.tokens ++ [stream.stop]

end TokenStream

end UiLang
