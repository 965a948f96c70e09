import UiLang.Diagnostic.Basic
import UiLang.Text.Blank
import UiLang.Text.Split

/-!
# Reports

A diagnostic shown against the source it was found in: a headline, the place, the lines around it
with their numbers, a row of tildes under the fault, and the advice.

## Main definitions

* `Window`, `Window.lines`: the numbered lines around a line
* `Report`, `Report.render`: one diagnostic against its source
* `renderAll`: several, with a blank line between two
-/

namespace UiLang

/-- How grave a report is. -/
inductive Severity where
  | error | warning
  deriving DecidableEq, Repr

/-- The word a report opens with. -/
def Severity.name : Severity → String
  | .error => "error"
  | .warning => "warning"

/-- A line of source with its number, counted from one. -/
structure NumberedLine where
  number : Nat
  text : List Char
  deriving DecidableEq, Repr

/-- Numbers lines from a given number on. -/
def numberLines : Nat → List (List Char) → List NumberedLine
  | _, [] => []
  | n, line :: lines => ⟨n, line⟩ :: numberLines (n + 1) lines

/-- How many lines before and after a line are shown. -/
structure Window where
  before : Nat := 2
  after : Nat := 2
  deriving DecidableEq, Repr

/-- The lines of a source around a line, without their trailing carriage returns.  Lines outside
the source are left out. -/
def Window.lines (window : Window) (source : List Char) (line : Nat) : List NumberedLine :=
  let first := max (line - window.before) 1
  let last := line + window.after
  (numberLines 1 ((Text.lines source).map (Text.dropWhileRight (· == '\r')))).filter
    fun shown => first ≤ shown.number && shown.number ≤ last

/-- What a report says, wherever it comes from. -/
structure Report where
  message : String
  location : Location
  suggestion : Option String
  deriving DecidableEq, Repr

/-- The report of a diagnostic. -/
def Diagnostic.report (diagnostic : Diagnostic) : Report :=
  ⟨diagnostic.fault.message, diagnostic.location, diagnostic.fault.suggestion⟩

namespace Report

/-- The greatest number of digits among the line numbers, and at least one. -/
def gutterWidth (lines : List NumberedLine) : Nat :=
  (lines.map fun line => (Nat.toDigits 10 line.number).length).foldl max 1

/-- A line number in a gutter of a given width, flush right. -/
def gutter (width number : Nat) : List Char :=
  let digits := Nat.toDigits 10 number
  List.replicate (width - digits.length) ' ' ++ digits

/-- The number of tildes: the fault as far as its line goes, and at least one. -/
def underlineLength (loc : Location) (line : List Char) : Nat :=
  max (min loc.length (line.length - (loc.column - 1))) 1

/-- The row of tildes under a fault. -/
def underline (width : Nat) (loc : Location) (line : List Char) : List Char :=
  List.replicate (width + 3) ' ' ++ List.replicate (loc.column - 1) ' ' ++
    List.replicate (underlineLength loc line) '~'

/-- The rows for one line of source. -/
def rows (width : Nat) (loc : Location) (line : NumberedLine) : List (List Char) :=
  let row := gutter width line.number ++ [' ', '|', ' '] ++ Text.dropBlanksRight line.text
  if line.number = loc.line then [row, underline width loc line.text] else [row]

/-- All rows of a report. -/
def allRows (source : List Char) (origin : String) (severity : Severity) (report : Report) :
    List (List Char) :=
  let shown := ({} : Window).lines source report.location.line
  [(severity.name ++ ": " ++ report.message).toList,
    ("  -> " ++ origin ++ ":" ++ report.location.text).toList] ++
  shown.flatMap (rows (gutterWidth shown) report.location) ++
  match report.suggestion with
  | some suggestion => [("  help: " ++ suggestion).toList]
  | none => []

/-- A report against its source.  `origin` names the source, and every row ends in a line feed. -/
def render (source origin : String) (severity : Severity) (report : Report) : String :=
  String.ofList ((allRows source.toList origin severity report).flatMap (· ++ ['\n']))

/-- The message of a report with its place. -/
def text (report : Report) : String :=
  placedMessage report.message report.location

end Report

/-- Several diagnostics against their source, with a blank line between two. -/
def renderAll (source origin : String) (severity : Severity) (diagnostics : List Diagnostic) :
    String :=
  String.intercalate "\n" (diagnostics.map fun diagnostic =>
    diagnostic.report.render source origin severity)

end UiLang
