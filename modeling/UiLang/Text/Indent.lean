import UiLang.Text.Blank
import UiLang.Text.Split

/-!
# Indentation

## Main definitions

* `Text.endedLines`: the lines of a text, where a line feed ends a line
* `Text.indent`: a text with its lines moved to the right
-/

namespace UiLang.Text

/-- A line without the carriage return at its end. -/
def dropReturn (line : List Char) : List Char :=
  if line.getLast? = some '\r' then line.dropLast else line

/-- Lines from the pieces between line feeds.  Only the last piece has no line feed after it: it
is no line if it is empty, and keeps its carriage return. -/
def endPieces : List (List Char) → List (List Char)
  | [] => []
  | [last] => if last.isEmpty then [] else [last]
  | piece :: pieces => dropReturn piece :: endPieces pieces

/-- The lines of a text, where a line feed, or a carriage return before it, ends a line. -/
def endedLines (cs : List Char) : List (List Char) :=
  endPieces (lines cs)

/-- A line moved to the right.  A blank line becomes empty. -/
def indentLine (width : Nat) (line : List Char) : List Char :=
  if line.all isBlank then [] else List.replicate width ' ' ++ line

/-- A text with its lines moved to the right. -/
def indent (width : Nat) (text : String) : String :=
  String.intercalate "\n"
    ((endedLines text.toList).map fun line => String.ofList (indentLine width line))

end UiLang.Text
