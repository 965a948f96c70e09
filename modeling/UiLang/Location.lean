/-!
# Positions and locations in source text

Lines and columns count from one; a column counts characters since the last line feed.  A
location is a position with the number of characters that it spans.

## Main definitions

* `Position`, `Position.next`, `Position.advance`: walking over characters
* `Location`, `Location.join`: spans, and the span from one to another on the same line
-/

namespace UiLang

/-- A place between two characters of a source text. -/
structure Position where
  line : Nat
  column : Nat
  deriving DecidableEq, Repr

namespace Position

/-- The place before the first character. -/
def start : Position := ⟨1, 1⟩

/-- The place after a character: a line feed opens the next line. -/
def next (pos : Position) (c : Char) : Position :=
  if c = '\n' then ⟨pos.line + 1, 1⟩ else ⟨pos.line, pos.column + 1⟩

/-- The place after several characters. -/
def advance (pos : Position) (cs : List Char) : Position :=
  cs.foldl next pos

@[simp] theorem advance_nil (pos : Position) : pos.advance [] = pos := rfl

@[simp] theorem advance_cons (pos : Position) (c : Char) (cs : List Char) :
    pos.advance (c :: cs) = (pos.next c).advance cs := rfl

theorem advance_append (pos : Position) (cs ds : List Char) :
    pos.advance (cs ++ ds) = (pos.advance cs).advance ds :=
  List.foldl_append

end Position

/-- A span of `length` characters that starts at a position. -/
structure Location extends Position where
  length : Nat
  deriving DecidableEq, Repr

namespace Location

/-- A span names no characters. -/
def isEmpty (loc : Location) : Bool :=
  loc.length == 0

/-- The span from the start of one location to the end of another.  It exists only when the other
starts on the same line and not before; otherwise the first location is kept. -/
def join (first second : Location) : Location :=
  if first.line = second.line ∧ first.column ≤ second.column then
    { first with length := second.column + second.length - first.column }
  else first

/-- The text `line:column`. -/
def text (loc : Location) : String :=
  toString loc.line ++ ":" ++ toString loc.column

end Location

/-- The span of `length` characters from a position on. -/
def Position.spanning (pos : Position) (length : Nat) : Location :=
  { pos with length }

end UiLang
