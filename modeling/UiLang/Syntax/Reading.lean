import UiLang.Diagnostic.Basic

/-!
# Reading tokens from the front

A reader takes the tokens that are left, up to the end marker of their stream, and either fails
with a diagnostic or gives a value together with the tokens after it.  What is left is always a
suffix of what was there, and the result carries this fact, so a reader that calls itself on what
is left is seen to end.

## Main definitions

* `Reading`: a value read from the front of a token sequence, and what is left
* `Read`: the outcome of a reader
* `peek`, `expect`, `expectStatementEnd`, `skipNewlines`: the steps readers are made of
* `bracedTokens`, `parenthesizedTokens`, `tokensToLineEnd`: runs of tokens kept as they are

## Main results

* `Reading.length_le`: what is left is no longer than what was there
-/

namespace UiLang

/-- A value read from the front of `ts`, and the tokens that are left. -/
structure Reading (α : Type) (ts : List Token) where
  value : α
  rest : List Token
  suffix : rest <:+ ts

/-- The outcome of a reader on `ts`. -/
abbrev Read (α : Type) (ts : List Token) := Except Diagnostic (Reading α ts)

namespace Reading

variable {α β : Type} {ts : List Token}

/-- Nothing is read. -/
def nothing (value : α) (ts : List Token) : Reading α ts :=
  ⟨value, ts, List.suffix_refl ts⟩

/-- The first token is read. -/
def head (token : Token) (rest : List Token) : Reading Token (token :: rest) :=
  ⟨token, rest, List.suffix_cons token rest⟩

/-- What is left is no longer than what was there. -/
theorem length_le (r : Reading α ts) : r.rest.length ≤ ts.length :=
  r.suffix.length_le

/-- A reading of what another one left, seen from where that one started. -/
def andThen (first : Reading α ts) (second : Reading β first.rest) : Reading β ts :=
  ⟨second.value, second.rest, second.suffix.trans first.suffix⟩

/-- A reading seen from one token earlier. -/
def cons (r : Reading α ts) (token : Token) : Reading α (token :: ts) :=
  ⟨r.value, r.rest, r.suffix.trans (List.suffix_cons token ts)⟩

/-- A reading that starts at a suffix, seen from the whole. -/
def within {whole : List Token} (r : Reading α ts) (h : ts <:+ whole) : Reading α whole :=
  ⟨r.value, r.rest, r.suffix.trans h⟩

/-- A function of the value read. -/
def map (f : α → β) (r : Reading α ts) : Reading β ts :=
  ⟨f r.value, r.rest, r.suffix⟩

end Reading

/-- The tokens from the first that is not a newline on. -/
def skipNewlines (ts : List Token) : List Token :=
  ts.dropWhile fun token => token.kind == .newline

theorem skipNewlines_suffix (ts : List Token) : skipNewlines ts <:+ ts :=
  List.dropWhile_suffix _

theorem length_skipNewlines_le (ts : List Token) : (skipNewlines ts).length ≤ ts.length :=
  (skipNewlines_suffix ts).length_le

theorem length_lt_of_skipNewlines {ts rest : List Token} {token : Token}
    (h : skipNewlines ts = token :: rest) : rest.length < ts.length := by
  have := length_skipNewlines_le ts
  rw [h, List.length_cons] at this
  exact this

/-- A reading that also takes the newlines after it. -/
def Reading.skipNewlines {α : Type} {ts : List Token} (r : Reading α ts) : Reading α ts :=
  ⟨r.value, UiLang.skipNewlines r.rest, (skipNewlines_suffix r.rest).trans r.suffix⟩

/-! ## Single tokens

In every reader `stop` is the end marker, the token that stands where no other is left. -/

variable (stop : Token)

/-- The next token: the end marker once all others are read. -/
def peek : List Token → Token
  | [] => stop
  | token :: _ => token

/-- Fails at a token that is not of the kind it should be. -/
def expected {α : Type} {ts : List Token} (kind : Kind) (found : Token) : Read α ts :=
  .error (.ofToken (.expectedToken kind found.kind) found)

/-- Fails at a token that has no place there. -/
def unexpected {α : Type} {ts : List Token} (found : Token) : Read α ts :=
  .error (.ofToken (.unexpectedToken found.kind found.text) found)

/-- Reads a token of a given kind. -/
def expect (kind : Kind) : (ts : List Token) → Read Token ts
  | [] => expected kind stop
  | token :: rest =>
    if token.kind = kind then .ok (.head token rest) else expected kind token

/-- Reads a token of a given kind if it is there. -/
def eat (kind : Kind) : (ts : List Token) → Reading Bool ts
  | [] => .nothing false []
  | token :: rest =>
    if token.kind = kind then ⟨true, rest, List.suffix_cons token rest⟩
    else .nothing false (token :: rest)

/-- A statement ends before a newline, a closing brace and the end. -/
def expectStatementEnd (ts : List Token) : Read Unit ts :=
  match (peek stop ts).kind with
  | .newline | .closing .brace | .eof => .ok (.nothing () ts)
  | _ => unexpected (peek stop ts)

/-! ## Runs of tokens kept as they are -/

/-- The tokens up to the brace that closes the block, and past it.  `depth` counts the blocks
opened inside. -/
def bracedTokens (depth : Nat) : (ts : List Token) → Read (List Token) ts
  | [] => .error (.ofToken .unclosedBlock stop)
  | token :: rest =>
    match token.kind, depth with
    | .closing .brace, 0 => .ok ((Reading.nothing [] rest).cons token)
    | .closing .brace, depth + 1 => do
      return ((← bracedTokens depth rest).map (token :: ·)).cons token
    | .opening .brace, depth => do
      return ((← bracedTokens (depth + 1) rest).map (token :: ·)).cons token
    | _, depth => do
      return ((← bracedTokens depth rest).map (token :: ·)).cons token

/-- Reads a block in braces as the tokens inside. -/
def readBraced (ts : List Token) : Read (List Token) ts := do
  let brace ← expect stop (.opening .brace) ts
  return brace.andThen (← bracedTokens stop 0 brace.rest)

/-- The tokens up to the parenthesis that closes the list, and past it, all on one line.  `depth`
counts the parentheses opened inside. -/
def parenthesizedTokens (depth : Nat) : (ts : List Token) → Read (List Token) ts
  | [] => expected (.closing .round) stop
  | token :: rest =>
    match token.kind, depth with
    | .newline, _ => expected (.closing .round) token
    | .closing .round, 0 => .ok ((Reading.nothing [] rest).cons token)
    | .closing .round, depth + 1 => do
      return ((← parenthesizedTokens depth rest).map (token :: ·)).cons token
    | .opening .round, depth => do
      return ((← parenthesizedTokens (depth + 1) rest).map (token :: ·)).cons token
    | _, depth => do
      return ((← parenthesizedTokens depth rest).map (token :: ·)).cons token

/-- The tokens up to the end of the line or the brace that closes the block around it.  Newlines
inside brackets do not end the line, and `depth` counts the open ones. -/
def tokensToLineEnd (depth : Nat) : (ts : List Token) → Reading (List Token) ts
  | [] => .nothing [] []
  | token :: rest =>
    match token.kind, depth with
    | .newline, 0 => .nothing [] (token :: rest)
    | .closing .brace, 0 => .nothing [] (token :: rest)
    | .opening _, depth => ((tokensToLineEnd (depth + 1) rest).map (token :: ·)).cons token
    | .closing _, depth => ((tokensToLineEnd (depth - 1) rest).map (token :: ·)).cons token
    | _, depth => ((tokensToLineEnd depth rest).map (token :: ·)).cons token

end UiLang
