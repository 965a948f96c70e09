import UiLang.Command.Arguments
import UiLang.Command.Files
import UiLang.Compiler
import UiLang.Diagnostic.Report

/-!
# Building files

Every source file is a task of its own: it is read and compiled, and then its outputs are written
one by one.  A task that fails does not keep the others from running.

## Main definitions

* `Job`, `Job.plan`: settings of a build, and what is written for one source
* `BuildTask`, `BuildTask.step`: a task, and one step of it
* `BuildTask.run`, `build`: a task to its end, and all tasks one after another
* `runCommand`: a whole command line
-/

namespace UiLang

/-- What all tasks of a build share. -/
structure Job where
  compiler : Compiler
  bundle : Bool

/-- A file to be written: its name in the output directory, and its text. -/
structure OutputFile where
  name : String
  text : String
  deriving DecidableEq, Repr

/-- What compiling one source leads to: the text of its report, and the files to be written, or
none if it failed. -/
structure Plan where
  report : String := ""
  outputs : Option (List OutputFile) := none
  deriving DecidableEq, Repr

/-- The files that an output is written to. -/
def Output.files (output : Output) (bundle : Bool) (stem : String) : List OutputFile :=
  if bundle then [⟨stem ++ ".html", output.document stem⟩]
  else [⟨stem ++ ".html", output.markup⟩, ⟨stem ++ ".css", output.styles⟩,
    ⟨stem ++ ".js", output.script⟩]

/-- The report of faults: each as it is shown, and a line feed. -/
def faultReport (source origin : String) (severity : Severity) (faults : List Diagnostic) :
    String :=
  String.join (faults.map fun fault => fault.report.render source origin severity ++ "\n")

namespace Job

/-- What is written for the source of a file. -/
def plan (job : Job) (path source : String) : Plan :=
  match job.compiler.compile source with
  | .ok compilation =>
    { report := faultReport source path .warning compilation.diagnostics
      outputs := some (compilation.output.files job.bundle (fileStem path)) }
  | .error e => { report := faultReport source path .error e.diagnostics }

end Job

/-- A task: a source file to be read, files still to be written, or the end. -/
inductive BuildTask where
  | waiting (path : String)
  | writing (outputs : List OutputFile)
  | done
  | failed
  deriving DecidableEq, Repr

namespace BuildTask

/-- One step of a task, with the text it reports.  `target` is the output directory. -/
def step (job : Job) (target : Place) (tree : FileTree) : BuildTask → FileTree × BuildTask × String
  | .waiting path =>
    match tree.read? path with
    | none => (tree, .failed, "")
    | some source =>
      let plan := job.plan path source
      match plan.outputs with
      | some outputs => (tree, .writing outputs, plan.report)
      | none => (tree, .failed, plan.report)
  | .writing [] => (tree, .done, "")
  | .writing (output :: outputs) =>
    match tree.write? target output.name output.text with
    | some tree => (tree, .writing outputs, "")
    | none => (tree, .failed, "")
  | .done => (tree, .done, "")
  | .failed => (tree, .failed, "")

/-- Writes the outputs that are left, up to the first that can not be written. -/
def finish (target : Place) (tree : FileTree) : List OutputFile → FileTree × Bool
  | [] => (tree, true)
  | output :: outputs =>
    match tree.write? target output.name output.text with
    | some tree => finish target tree outputs
    | none => (tree, false)

/-- The task of a path to its end: the tree, whether it was done, and its report. -/
def run (job : Job) (target : Place) (tree : FileTree) (path : String) :
    FileTree × Bool × String :=
  match step job target tree (.waiting path) with
  | (tree, .writing outputs, report) =>
    let (tree, ok) := finish target tree outputs
    (tree, ok, report)
  | (tree, _, report) => (tree, false, report)

end BuildTask

/-- What a command leaves behind. -/
structure CommandResult where
  tree : FileTree
  exitCode : Nat
  report : String := ""

/-- All tasks one after another: the tree, how many failed, and the reports. -/
def build (job : Job) (target : Place) (tree : FileTree) : List String → FileTree × Nat × String
  | [] => (tree, 0, "")
  | path :: paths =>
    let (tree, ok, report) := BuildTask.run job target tree path
    let (tree, failed, reports) := build job target tree paths
    (tree, (if ok then failed else failed + 1), report ++ reports)

/-- The exit code for a command line that is not run. -/
def ArgumentError.exitCode : ArgumentError → Nat
  | .help | .version => 0
  | _ => 2

/-- The compiler that arguments ask for. -/
def Arguments.compiler (arguments : Arguments) : Except OptionsError Compiler :=
  CompilerOptions.compiler ⟨arguments.strict, some arguments.maxSize⟩

/-- Runs what arguments ask for. -/
def Arguments.run (arguments : Arguments) (tree : FileTree) : CommandResult :=
  match arguments.compiler with
  | .error _ => { tree, exitCode := 1 }
  | .ok compiler =>
    match tree.makeDirectory? arguments.outputDirectory with
    | none => { tree, exitCode := 1 }
    | some (tree, target) =>
      let (tree, failed, report) := build ⟨compiler, arguments.bundle⟩ target tree arguments.files
      { tree, exitCode := if failed = 0 then 0 else 1, report }

/-- Runs a command line on a tree of files. -/
def runCommand (words : List String) (environment : Option String) (tree : FileTree) :
    CommandResult :=
  match Arguments.read words environment with
  | .error e => { tree, exitCode := e.exitCode }
  | .ok arguments => arguments.run tree

end UiLang
