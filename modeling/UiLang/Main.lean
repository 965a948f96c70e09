import UiLang.Command.Build

/-!
# The command

Reads the command line and the environment, reads source files and writes their outputs.  What is
read and written is decided by `Arguments.read`, `directoryPaths` and `Job.plan`.
-/

namespace UiLang.Command

/-- What the command prints about itself. -/
def usage : String :=
  "Usage: froboc [-v|-q] [-d DIRECTORY] [--bundle] [--strict] [--max-size BYTES] <source file>...\n"

/-- The text of a command line that is not run. -/
def refusal : ArgumentError → String
  | .help => usage
  | .version => "froboc\n"
  | .unknownOption => "error: unexpected argument\n" ++ usage
  | .missingValue => "error: a value is required\n" ++ usage
  | .invalidValue => "error: invalid value\n" ++ usage
  | .conflict => "error: an argument cannot be used twice, or with another\n" ++ usage
  | .unexpectedValue => "error: unexpected value\n" ++ usage
  | .missingFiles => "error: no source file was given\n" ++ usage

/-- The text of a file, if it can be read. -/
def readSource (path : String) : IO (Option String) := do
  try
    return String.fromUTF8? (← IO.FS.readBinFile path)
  catch _ => return none

/-- Makes one directory; the answer is whether it is there then. -/
def makeOne (path : String) : IO Bool := do
  try
    IO.FS.createDir path
    return true
  catch _ =>
    try
      let place ← IO.FS.realPath path
      place.isDir
    catch _ => return false

/-- Makes directories in order; the answer is whether all of them are there then. -/
def makeDirectories : List String → IO Bool
  | [] => return true
  | path :: paths => do
    if ← makeOne path then makeDirectories paths else return false

/-- Compiles one source file and writes its outputs; the answer is whether that was possible. -/
def buildFile (job : Job) (directory path : String) : IO Bool := do
  match ← readSource path with
  | none =>
    IO.eprintln ("could not read " ++ path)
    return false
  | some source =>
    let plan := job.plan path source
    IO.eprint plan.report
    match plan.outputs with
    | none => return false
    | some outputs =>
      try
        for output in outputs do
          IO.FS.writeFile (directory ++ "/" ++ output.name) output.text
        return true
      catch _ =>
        IO.eprintln ("could not write the outputs of " ++ path)
        return false

/-- Compiles all source files; the answer is how many failed. -/
def buildFiles (job : Job) (directory : String) (paths : List String) : IO Nat := do
  let results ← paths.mapM (buildFile job directory)
  return results.countP (!·)

/-- Runs what arguments ask for; the answer is the exit code. -/
def run (arguments : Arguments) : IO UInt32 := do
  match arguments.compiler with
  | .error e =>
    IO.eprintln ("Error: " ++ e.message)
    return 1
  | .ok compiler =>
    unless ← makeDirectories (directoryPaths arguments.outputDirectory) do
      IO.eprintln "Error: could not create the output directory"
      return 1
    let failed ← buildFiles ⟨compiler, arguments.bundle⟩ arguments.outputDirectory arguments.files
    if failed = 0 then return 0
    IO.eprintln ("Error: " ++ toString failed ++ " of " ++ toString arguments.files.length ++
      " files failed to compile")
    return 1

end UiLang.Command

/-- The command line. -/
def main (words : List String) : IO UInt32 := do
  let environment ← IO.getEnv "FROBOC_MAX_SIZE"
  match UiLang.Arguments.read words environment with
  | .ok arguments => UiLang.Command.run arguments
  | .error e =>
    let text := UiLang.Command.refusal e
    if e.exitCode = 0 then IO.print text else IO.eprint text
    return e.exitCode.toUInt32
