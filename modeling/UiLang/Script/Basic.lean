import UiLang.Distinct
import UiLang.Json.Basic
import UiLang.Program.Basic
import UiLang.Script.Fixed
import UiLang.Script.Qualify
import UiLang.Text.Indent

/-!
# The script of a program

The script is a list of sections with an empty line between them: the fixed code that every page
needs, the state record, computed properties, what is registered once the page is loaded, and the
functions of the program.

## Main definitions

* `Program.stateRecord`: the state record as written in the script
* `Program.registration`: what is registered once the page is loaded
* `Program.scriptSections`, `Program.script`: the script
-/

namespace UiLang

/-- A state literal in the script.  A number keeps the text it was written with. -/
def StateValue.script : StateValue → String
  | .number text => text
  | value => value.toJson.text

/-- An optional key as a script expression. -/
def keyScript : Option String → String
  | some key => JsonValue.stringText key
  | none => "null"

/-- The call that starts a fetch. -/
def Fetch.script (fetch : Fetch) : String :=
  "  froboFetch(" ++ String.intercalate ", " [JsonValue.stringText fetch.url,
    keyScript fetch.into, keyScript fetch.loading, keyScript fetch.error] ++ ");"

/-- An import, kept as a comment. -/
def Import.script (import_ : Import) : String :=
  "// import \x7b " ++ String.intercalate ", " import_.specifiers ++ " \x7d from " ++
    JsonValue.stringText import_.source

/-- A watcher, told about writes of the root of its target. -/
def Watcher.script (names : List String) (watcher : Watcher) : String :=
  let qualifier : Qualifier := ⟨names, ["newVal", "oldVal"], true⟩
  "\n  Frobo.addWatcher('" ++ watcher.target.root ++ "', (newVal, oldVal) => \x7b\n" ++
    Text.indent 4 (qualifier.qualify watcher.body) ++ "\n  \x7d);\n"

/-- A lifecycle hook. -/
def Hook.script (names : List String) (hook : Hook) : String :=
  let body := Qualifier.qualify ⟨names, [], true⟩ hook.body
  match hook.kind with
  | .mount => "\n  // onMount lifecycle\n" ++ Text.indent 2 body ++ "\n"
  | .update =>
    "\n  // onUpdate lifecycle\n  Frobo.onUpdate(() => \x7b\n" ++ Text.indent 4 body ++
      "\n  \x7d);\n"

/-- A function.  Its parameters hide state of the same name. -/
def Function.script (names : List String) (function : Function) : String :=
  let qualifier : Qualifier := ⟨names, function.params, true⟩
  (if function.isAsync then "async " else "") ++ "function " ++ function.name ++ "(" ++
    String.intercalate ", " function.params ++ ") \x7b\n" ++
    Text.indent 2 (qualifier.qualify function.body) ++ "\n\x7d"

/-- A computed property.  Inside its own expression its name is not qualified. -/
def Computed.script (states computed : List String) (property : Computed) : String :=
  let qualifier : Qualifier := ⟨states ++ computed.filter (· != property.name), [], false⟩
  "Object.defineProperty(state, '" ++ property.name ++ "', \x7b\n  get() \x7b return " ++
    qualifier.qualify property.expression ++ "; \x7d,\n  enumerable: true\n\x7d);\n" ++
    "Frobo.computedKeys.push('" ++ property.name ++ "');"

/-- What a component registers: watchers, fetches, then hooks. -/
def Component.registration (names : List String) (component : Component) : String :=
  String.join (component.watchers.map (·.script names)) ++
    (if component.fetches.isEmpty then ""
      else "\n  // Fetch data\n" ++
        String.intercalate "\n" (component.fetches.map Fetch.script) ++ "\n") ++
    String.join (component.hooks.map (·.script names))

namespace Program

/-- The distinct state names. -/
def stateNames (program : Program) : List String :=
  distinct (program.states.map (·.name))

/-- The distinct computed names. -/
def computedNames (program : Program) : List String :=
  distinct (program.computed.map (·.name))

/-- The names that script bodies read from the state record. -/
def readable (program : Program) : List String :=
  program.stateNames ++ program.computedNames

/-- The state record.  A name declared again keeps its place and takes the later value. -/
def stateRecord (program : Program) : OrderedMap String String :=
  .ofList (program.states.map fun state => (state.name, state.value.script))

/-- The section of the state record. -/
def stateSection (program : Program) : String :=
  let fields := program.stateRecord.entries.map fun entry => entry.1 ++ ": " ++ entry.2
  let record :=
    if fields.isEmpty then "\x7b\x7d" else "\x7b " ++ String.intercalate ", " fields ++ " \x7d"
  "// Initialize state\nconst state = Frobo.createState(" ++ record ++ ");"

/-- The components that declare state. -/
def stateful (program : Program) : List Component :=
  program.components.filter fun component => !component.states.isEmpty

/-- What is registered once the page is loaded. -/
def registration (program : Program) : String :=
  "// Register reactive elements\nwindow.addEventListener('DOMContentLoaded', () => \x7b\n" ++
    Script.dynamicClasses ++
    String.join (program.stateful.map (·.registration program.readable)) ++
    String.join ([Script.textWatchers, Script.conditionals, Script.inputBindings,
      Script.loops].map fun part => "\n" ++ part) ++ "\x7d);"

/-- The sections of the script.  A section that would be empty is left out. -/
def scriptSections (program : Program) : List String :=
  [Script.runtime] ++
    (if program.imports.isEmpty then []
      else [String.intercalate "\n" (program.imports.map Import.script)]) ++
    [program.stateSection] ++
    (if program.computed.isEmpty then []
      else ["// Computed properties\n" ++ String.intercalate "\n" (program.computed.map
        (·.script program.stateNames program.computedNames))]) ++
    (if program.components.all fun component => component.fetches.isEmpty then []
      else ["// Fetch helper function\n" ++ Script.fetchHelper]) ++
    (if program.stateful.isEmpty then [] else [program.registration]) ++
    program.functions.map (·.script program.readable) ++
    ["console.log(\"Frobo app loaded!\");"]

/-- The script of a program. -/
def script (program : Program) : String :=
  String.intercalate "\n\n" program.scriptSections

end Program

end UiLang
