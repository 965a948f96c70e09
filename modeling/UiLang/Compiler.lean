import UiLang.Markup.Basic
import UiLang.Script.Basic
import UiLang.Source
import UiLang.Style

/-!
# Compiling sources

A source is compiled to markup, styles and a script.  Faults in it are recovered from and returned
with the output.  Compiling fails when nothing could be read, or on any fault if the compiler is
strict.

## Main definitions

* `Output`, `Output.document`: what a program compiles to, and one page that holds all of it
* `CompileError`, `CompileError.message`: why compiling fails
* `Compiler`, `Compiler.compile`, `Compiler.compileFile`
* `CompilerOptions`, `CompilerOptions.compiler`: settings, and the compiler they stand for
-/

namespace UiLang

/-- What a program compiles to. -/
structure Output where
  markup : String
  styles : String
  script : String
  deriving DecidableEq, Repr

/-- Markup, styles and script of a program. -/
def Program.output (program : Program) : Output where
  markup := program.markup
  styles := stylesheet
  script := program.script

/-- One page that holds markup, styles and script. -/
def Output.document (output : Output) (title : String) : String :=
  "<!DOCTYPE html>\n<html lang=\"en\">\n<head>\n  <meta charset=\"UTF-8\">\n" ++
    "  <meta name=\"viewport\" content=\"width=device-width, initial-scale=1.0\">\n" ++
    "  <title>" ++ Html.escape title ++ "</title>\n  <style>\n" ++
    "body \x7b margin: 0; padding: 16px; font-family: system-ui, sans-serif; \x7d\n" ++
    output.styles ++ "\n  </style>\n</head>\n<body>\n" ++ output.markup ++ "\n<script>\n" ++
    output.script ++ "\n</script>\n</body>\n</html>\n"

/-- Why compiling fails: the source has more bytes than allowed, faults in it can not be recovered
from, or it can not be read. -/
inductive CompileError where
  | tooLarge (size limit : Nat)
  | faulty (diagnostics : List Diagnostic)
  | unreadable

namespace CompileError

/-- The text of a failure.  One that is not about the source has none. -/
def message : CompileError → String
  | .tooLarge size limit =>
    "source is " ++ toString size ++ " bytes, more than the maximum of " ++ toString limit ++
      " bytes"
  | .faulty diagnostics => String.intercalate "\n" (diagnostics.map Diagnostic.text)
  | .unreadable => ""

/-- The faults that a failure is about. -/
def diagnostics : CompileError → List Diagnostic
  | .faulty ds => ds
  | _ => []

end CompileError

/-- Output with the faults that were recovered from. -/
structure Compilation where
  output : Output
  diagnostics : List Diagnostic

/-- No fault was found. -/
def Compilation.isClean (compilation : Compilation) : Bool :=
  compilation.diagnostics.isEmpty

/-- A compiler.  A limit counts the bytes of a source, and is never zero. -/
structure Compiler where
  strict : Bool := false
  limit : Option Nat := none
  limit_ne : limit ≠ some 0 := by decide

namespace Compiler

/-- The size of a source is above the limit. -/
def exceeds (compiler : Compiler) (source : String) : Option Nat :=
  compiler.limit.filter fun limit => limit < source.utf8ByteSize

/-- Compiles a source. -/
def compile (compiler : Compiler) (source : String) : Except CompileError Compilation :=
  match compiler.exceeds source with
  | some limit => .error (.tooLarge source.utf8ByteSize limit)
  | none =>
    let parsed := parseSource source
    if !parsed.isClean && (compiler.strict || parsed.program.items.isEmpty) then
      .error (.faulty parsed.faults)
    else .ok ⟨parsed.program.output, parsed.faults⟩

/-- A compiler without a limit compiles a source without faults. -/
theorem compile_of_unlimited {compiler : Compiler} (hlimit : compiler.limit = none)
    {source : String} (h : (parseSource source).isClean = true) :
    compiler.compile source =
      .ok ⟨(parseSource source).program.output, (parseSource source).faults⟩ := by
  simp [compile, exceeds, hlimit, h]

/-- Compiles the bytes of a file.  A file that is missing, or that is not UTF-8, is not readable. -/
def compileFile (compiler : Compiler) (bytes : Option ByteArray) :
    Except CompileError Compilation :=
  match bytes.bind String.fromUTF8? with
  | some source => compiler.compile source
  | none => .error .unreadable

end Compiler

/-- Settings that need not make up a compiler. -/
structure CompilerOptions where
  strict : Bool := false
  limit : Option Nat := none
  deriving DecidableEq, Repr

/-- Why settings make up no compiler: a limit of zero admits no source. -/
inductive OptionsError where
  | zeroLimit
  deriving DecidableEq, Repr

/-- The text of a failure. -/
def OptionsError.message : OptionsError → String
  | .zeroLimit => "Compilation can't occur if the maximum source size is 0"

/-- The compiler that settings stand for. -/
def CompilerOptions.compiler (options : CompilerOptions) : Except OptionsError Compiler :=
  if h : options.limit = some 0 then .error .zeroLimit
  else .ok { strict := options.strict, limit := options.limit, limit_ne := h }

end UiLang
