import UiLang.Text.Natural

/-!
# Arguments of the command

Arguments are read from left to right.  An option whose value is the next argument, and the file
names read since the last option, are pending: they are taken in when the next option is met, or
at the end.  An option that is not known is refused before what is pending is looked at.

## Main definitions

* `Arguments`, `ArgumentError`: what a command line asks for, and why it is refused
* `ArgumentReader`, `ArgumentReader.readAll`: what has been read so far, and the reading
* `Arguments.read`: the arguments of a command line
-/

namespace UiLang

/-- How much the command writes about its work. -/
inductive LogLevel where
  | off | error | info | debug | trace
  deriving DecidableEq, Repr

/-- What a command line asks for. -/
structure Arguments where
  files : List String
  outputDirectory : String
  bundle : Bool
  strict : Bool
  maxSize : Nat
  verbosity : Int
  deriving DecidableEq, Repr

/-- How much to write for a verbosity. -/
def Arguments.level (arguments : Arguments) : LogLevel :=
  if arguments.verbosity ≤ -2 then .off
  else if arguments.verbosity = -1 then .error
  else if arguments.verbosity = 0 then .info
  else if arguments.verbosity = 1 then .debug
  else .trace

/-- Why a command line is not run: it asks for help or for the version, or it is refused. -/
inductive ArgumentError where
  | help
  | version
  | unknownOption
  | missingValue
  | invalidValue
  | conflict
  | unexpectedValue
  | missingFiles
  deriving DecidableEq, Repr

/-- Options without a value. -/
inductive Flag where
  | bundle | strict | verbose | quiet | help | version
  deriving DecidableEq, Repr

/-- Options with a value. -/
inductive Setting where
  | outputDirectory | maxSize
  deriving DecidableEq, Repr

/-- What an option name stands for. -/
inductive OptionName where
  | flag (flag : Flag)
  | setting (setting : Setting)
  deriving DecidableEq, Repr

/-- The option of a name after two hyphens. -/
def OptionName.ofLong? : String → Option OptionName
  | "bundle" => some (.flag .bundle)
  | "strict" => some (.flag .strict)
  | "help" => some (.flag .help)
  | "version" => some (.flag .version)
  | "max-size" => some (.setting .maxSize)
  | _ => none

/-- The option of a letter after one hyphen. -/
def OptionName.ofLetter? : Char → Option OptionName
  | 'v' => some (.flag .verbose)
  | 'q' => some (.flag .quiet)
  | 'h' => some (.flag .help)
  | 'V' => some (.flag .version)
  | 'd' => some (.setting .outputDirectory)
  | _ => none

/-- What has been read and not been taken in. -/
inductive Pending where
  | nothing
  | files (names : List String)
  | setting (setting : Setting) (value : Option String)
  deriving DecidableEq, Repr

/-- What has been read so far. -/
structure ArgumentReader where
  files : List String := []
  outputDirectory : Option String := none
  maxSize : Option Nat := none
  bundle : Bool := false
  strict : Bool := false
  verbose : Nat := 0
  quiet : Nat := 0
  pending : Pending := .nothing
  deriving DecidableEq, Repr

/-- A source size: a natural number of at most 64 bits. -/
def sizeOf? (text : String) : Except ArgumentError Nat :=
  match Text.natural? text.toList with
  | some n => if n < 1 <<< 64 then .ok n else .error .invalidValue
  | none => .error .invalidValue

namespace ArgumentReader

/-- Takes in the value of an option.  An option is given at most once, and a directory has a
name. -/
def assign (reader : ArgumentReader) (setting : Setting) (value : String) :
    Except ArgumentError ArgumentReader :=
  match setting with
  | .outputDirectory =>
    if reader.outputDirectory.isSome then .error .conflict
    else if value = "" then .error .missingValue
    else .ok { reader with outputDirectory := some value }
  | .maxSize =>
    if reader.maxSize.isSome then .error .conflict
    else do
      let size ← sizeOf? value
      return { reader with maxSize := some size }

/-- Takes in what is pending. -/
def settle (reader : ArgumentReader) : Except ArgumentError ArgumentReader :=
  let settled := { reader with pending := .nothing }
  match reader.pending with
  | .nothing => .ok settled
  | .files names =>
    if names.contains "" then .error .missingValue
    else .ok { settled with files := reader.files ++ names }
  | .setting _ none => .error .missingValue
  | .setting setting (some value) => settled.assign setting value

/-- Takes in an option without a value. -/
def raise (reader : ArgumentReader) (flag : Flag) : Except ArgumentError ArgumentReader := do
  let reader ← reader.settle
  match flag with
  | .help => .error .help
  | .version => .error .version
  | .bundle => if reader.bundle then .error .conflict else return { reader with bundle := true }
  | .strict => if reader.strict then .error .conflict else return { reader with strict := true }
  | .verbose =>
    if reader.verbose < 2 then return { reader with verbose := reader.verbose + 1 }
    else .error .invalidValue
  | .quiet =>
    if reader.quiet < 2 then return { reader with quiet := reader.quiet + 1 }
    else .error .invalidValue

/-- Reads an option with a value: a value written with it is taken in at once, else the next
argument is awaited. -/
def readSetting (reader : ArgumentReader) (setting : Setting) (value : Option String) :
    Except ArgumentError ArgumentReader := do
  let reader ← reader.settle
  match value with
  | some value => reader.assign setting value
  | none => return { reader with pending := .setting setting none }

/-- Reads what follows two hyphens: a name, and a value after an equals sign. -/
def readLong (reader : ArgumentReader) (body : List Char) : Except ArgumentError ArgumentReader :=
  let value := match body.dropWhile (· != '=') with
    | [] => none
    | _ :: rest => some (String.ofList rest)
  match OptionName.ofLong? (String.ofList (body.takeWhile (· != '='))) with
  | none => .error .unknownOption
  | some (.flag flag) => if value.isSome then .error .unexpectedValue else reader.raise flag
  | some (.setting setting) => reader.readSetting setting value

/-- The value that follows the letter of an option: nothing, or what is left, with or without an
equals sign before it. -/
def attachedValue : List Char → Option String
  | [] => none
  | '=' :: cs => some (String.ofList cs)
  | cs => some (String.ofList cs)

/-- Reads the letters that follow one hyphen.  What follows an option with a value is its value. -/
def readLetters (reader : ArgumentReader) : List Char → Except ArgumentError ArgumentReader
  | [] => .ok reader
  | c :: cs =>
    match OptionName.ofLetter? c with
    | none => .error .unknownOption
    | some (.flag flag) => do
      let reader ← reader.raise flag
      reader.readLetters cs
    | some (.setting setting) => reader.readSetting setting (attachedValue cs)

/-- Reads a file name. -/
def readFile (reader : ArgumentReader) (name : String) : Except ArgumentError ArgumentReader :=
  match reader.pending with
  | .files names => .ok { reader with pending := .files (names ++ [name]) }
  | _ => do
    let reader ← reader.settle
    return { reader with pending := .files [name] }

/-- Reads an argument that is no option: the value that is awaited, or a file name. -/
def readWord (reader : ArgumentReader) (word : String) : Except ArgumentError ArgumentReader :=
  match reader.pending with
  | .setting setting none => .ok { reader with pending := .setting setting (some word) }
  | _ => reader.readFile word

/-- Reads an argument.  A hyphen alone is no option. -/
def readArgument (reader : ArgumentReader) (argument : String) :
    Except ArgumentError ArgumentReader :=
  match argument.toList with
  | '-' :: '-' :: cs => reader.readLong cs
  | '-' :: c :: cs => reader.readLetters (c :: cs)
  | _ => reader.readWord argument

/-- Reads all arguments.  After two hyphens alone every argument is a file name. -/
def readAll (reader : ArgumentReader) : List String → Except ArgumentError ArgumentReader
  | [] => .ok reader
  | "--" :: arguments => arguments.foldlM readFile reader
  | argument :: arguments => do
    let reader ← reader.readArgument argument
    reader.readAll arguments

end ArgumentReader

/-- The source size that is the limit unless another one is given. -/
def defaultMaxSize : Nat := 100000

/-- The limit on the source size: the option, else the environment, else the default. -/
def limitOf (option : Option Nat) (environment : Option String) : Except ArgumentError Nat :=
  match option, environment with
  | some size, _ => .ok size
  | none, some text => sizeOf? text
  | none, none => .ok defaultMaxSize

/-- The arguments of a command line.  `environment` is the limit that the environment sets. -/
def Arguments.read (words : List String) (environment : Option String) :
    Except ArgumentError Arguments := do
  let reader ← ArgumentReader.readAll {} words
  let reader ← reader.settle
  let maxSize ← limitOf reader.maxSize environment
  if 0 < reader.verbose ∧ 0 < reader.quiet then .error .conflict
  else if reader.files.isEmpty then .error .missingFiles
  else return {
    files := reader.files
    outputDirectory := reader.outputDirectory.getD "."
    bundle := reader.bundle
    strict := reader.strict
    maxSize
    verbosity := (reader.verbose : Int) - reader.quiet }

end UiLang
