import UiLang.State.Basic
import UiLang.Ui.Basic

/-!
# Programs

A program is a list of top level items: components, functions and imports.  A component body
declares props, state, computed values, hooks, fetches and watchers beside its nodes.

## Main definitions

* `Statement`, `Component`: component bodies
* `Function`, `Declaration`, `Import`, `Item`, `Program`: the top level
* `Program.components`, `Program.functions`, `Program.states`, `Program.computed`: what a program
  declares, exported or not
-/

namespace UiLang

/-- `props a, b`: the names that a use of the component gives values to. -/
structure Props where
  names : List String
  location : Location

/-- `state name = value`. -/
structure StateDeclaration where
  name : String
  value : StateValue
  location : Location

/-- `computed name = expression`, the expression kept as text. -/
structure Computed where
  name : String
  expression : String
  location : Location

/-- When a hook runs. -/
inductive HookKind where
  | mount | update
  deriving DecidableEq, Repr

/-- `onMount` or `onUpdate` with a body kept as text. -/
structure Hook where
  kind : HookKind
  body : String
  location : Location

/-- `fetch url="..." into=... loading=... error=...`. -/
structure Fetch where
  url : String := ""
  into : Option String := none
  loading : Option String := none
  error : Option String := none
  location : Location

/-- `watch target` with a body kept as text. -/
structure Watcher where
  target : Path
  body : String
  location : Location

/-- A statement of a component body. -/
inductive Statement where
  | props (props : Props)
  | state (declaration : StateDeclaration)
  | computed (declaration : Computed)
  | hook (hook : Hook)
  | fetch (fetch : Fetch)
  | watcher (watcher : Watcher)
  | node (node : UiNode)

/-- `component Name` with a body. -/
structure Component where
  name : String
  body : List Statement
  location : Location

namespace Component

/-- All props declarations. -/
def allProps (component : Component) : List Props :=
  component.body.filterMap fun
    | .props props => some props
    | _ => none

/-- The first props declaration. -/
def props? (component : Component) : Option Props :=
  component.allProps.head?

/-- The names of all props declarations. -/
def propNames (component : Component) : List String :=
  component.allProps.flatMap (·.names)

/-- All state declarations. -/
def states (component : Component) : List StateDeclaration :=
  component.body.filterMap fun
    | .state declaration => some declaration
    | _ => none

/-- All computed declarations. -/
def computed (component : Component) : List Computed :=
  component.body.filterMap fun
    | .computed declaration => some declaration
    | _ => none

/-- All hooks. -/
def hooks (component : Component) : List Hook :=
  component.body.filterMap fun
    | .hook hook => some hook
    | _ => none

/-- All fetches. -/
def fetches (component : Component) : List Fetch :=
  component.body.filterMap fun
    | .fetch fetch => some fetch
    | _ => none

/-- All watchers. -/
def watchers (component : Component) : List Watcher :=
  component.body.filterMap fun
    | .watcher watcher => some watcher
    | _ => none

/-- All nodes. -/
def nodes (component : Component) : List UiNode :=
  component.body.filterMap fun
    | .node node => some node
    | _ => none

end Component

/-- `function name(params)` with a body kept as text, or its asynchronous form. -/
structure Function where
  name : String
  params : List String
  body : String
  isAsync : Bool
  location : Location

/-- What can be exported. -/
inductive Declaration where
  | component (component : Component)
  | function (function : Function)

/-- `import a, b from "source"`. -/
structure Import where
  specifiers : List String
  source : String
  location : Location

/-- A top level item. -/
inductive Item where
  | declaration (declaration : Declaration)
  | exported (declaration : Declaration) (location : Location)
  | importFrom (declaration : Import)

namespace Item

/-- The declaration of an item, exported or not. -/
def declaration? : Item → Option Declaration
  | .declaration d | .exported d _ => some d
  | .importFrom _ => none

/-- The component that an item declares. -/
def component? (item : Item) : Option Component :=
  match item.declaration? with
  | some (.component component) => some component
  | _ => none

/-- The function that an item declares. -/
def function? (item : Item) : Option Function :=
  match item.declaration? with
  | some (.function function) => some function
  | _ => none

/-- The import that an item is. -/
def import? : Item → Option Import
  | .importFrom i => some i
  | _ => none

end Item

/-- The top level items in source order. -/
structure Program where
  items : List Item

namespace Program

/-- All components. -/
def components (program : Program) : List Component :=
  program.items.filterMap Item.component?

/-- All functions. -/
def functions (program : Program) : List Function :=
  program.items.filterMap Item.function?

/-- All imports. -/
def imports (program : Program) : List Import :=
  program.items.filterMap Item.import?

/-- The first component of a given name. -/
def findComponent? (program : Program) (name : String) : Option Component :=
  program.components.find? fun component => component.name == name

/-- The state declarations of all components. -/
def states (program : Program) : List StateDeclaration :=
  program.components.flatMap Component.states

/-- The computed declarations of all components. -/
def computed (program : Program) : List Computed :=
  program.components.flatMap Component.computed

end Program

end UiLang
