import UiLang.Program.Reader
import UiLang.Token.Scan

/-!
# Source texts

From source text to a program: scanning, then reading.  Neither fails as a whole; both report what
they had to skip.

## Main definitions

* `ParsedSource`, `parseSource`
-/

namespace UiLang

/-- The program of a source text with all faults found on the way. -/
structure ParsedSource where
  program : Program
  lexicalFaults : List Diagnostic
  syntaxFaults : List Diagnostic

namespace ParsedSource

/-- All faults, the lexical ones first. -/
def faults (parsed : ParsedSource) : List Diagnostic :=
  parsed.lexicalFaults ++ parsed.syntaxFaults

/-- Nothing had to be skipped. -/
def isClean (parsed : ParsedSource) : Bool :=
  parsed.faults.isEmpty

end ParsedSource

/-- Scans and reads a source text. -/
def parseSource (source : String) : ParsedSource :=
  let scanned := scan source
  let (program, faults) := readProgram scanned.stream
  ⟨program, scanned.faults, faults⟩

end UiLang
