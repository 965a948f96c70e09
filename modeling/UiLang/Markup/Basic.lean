import UiLang.Markup.Element
import UiLang.View.Expand

/-!
# The markup of a program

Every node stands on a line of its own, indented by two spaces per level.  Branches of a
conditional are hidden blocks that the script shows; a loop is an empty block followed by the
template of one item.

## Main definitions

* `View.html`: the markup of a view
* `Component.html`, `Program.html`, `Program.markup`: the markup of a page

Ids are drawn in a fixed order: by an element and by a use of a component after their children, by
a conditional and by a loop before them.
-/

namespace UiLang

/-- The start of a line at a level. -/
def lineBreak (level : Nat) : String :=
  String.ofList ('\n' :: List.replicate (2 * level) ' ')

/-- Nodes one level below `level`, each on a line of its own. -/
def indentedLines (level : Nat) (nodes : List (List Html)) : List Html :=
  nodes.flatMap (fun node => .text (lineBreak (level + 1)) :: node)

/-- The children of an element at a level: nothing, or lines of their own. -/
def childBlock (level : Nat) (nodes : List (List Html)) : List Html :=
  if nodes.isEmpty then [] else indentedLines level nodes ++ [.text (lineBreak level)]

/-- The children of a component at a level: lines of their own, or one empty line. -/
def componentBlock (level : Nat) (nodes : List (List Html)) : List Html :=
  if nodes.isEmpty then [.text ("\n" ++ lineBreak level)] else childBlock level nodes

/-- A hidden block for a branch of a conditional. -/
def branchHtml (id : String) (condition : Option Condition) (children : List Html) : Html :=
  .element .div (⟨.elementId, id⟩ ::
    (condition.map fun c => ⟨.dataCondition, c.script⟩).toList ++
      [⟨.style, "display: none;"⟩]) children

/-- The empty block of a loop, and the template of one item on the next line. -/
def loopHtml (level : Nat) (id item : String) (array : Path) (children : List Html) : List Html :=
  [.element .div [⟨.elementId, id⟩, ⟨.dataLoop, array.text⟩, ⟨.dataItem, item⟩]
      [.comment " Loop items will be rendered here "],
    .text (lineBreak level),
    .element .template [⟨.elementId, id ++ "-template"⟩] children]

mutual

/-- The markup of a view at a level.  `names` are the names that fields may be bound to. -/
def View.html (names : List String) (level : Nat) (scope : Scope) : View → Drawing (List Html)
  | .element head children => do
    let inner ← viewsHtml names (level + 1) scope.inner children
    return [← head.html scope names (childBlock level inner)]
  | .expanded name children => do
    let inner ← viewsHtml names (level + 1) scope.inner children
    let id ← IdSupply.numbered name
    return [.element .div [⟨.elementId, id⟩, ⟨.classes, "frobo-component-instance"⟩]
      (componentBlock level inner)]
  | .missing name => return [.comment (" Error: Component " ++ name ++ " not found ")]
  | .recursive name =>
    return [.comment (" Error: Component " ++ name ++ " cannot instantiate itself ")]
  | .conditional condition body rest => do
    let id ← IdSupply.numbered "cond"
    let inner ← viewsHtml names (level + 1) scope.inner body
    let later ← rest.html names level scope id 0
    return branchHtml (id ++ "-if") (some condition) (childBlock level inner) :: later
  | .loop item array body => do
    let id ← IdSupply.numbered "loop"
    let inner ← viewsHtml names (level + 1) (.ofLoop item array) body
    return loopHtml level id item array (childBlock level inner)

/-- The markup of the later branches of a conditional, each on a line of its own.  `id` is the id
of the conditional, and `index` how many `else if` branches came before. -/
def ViewChain.html (names : List String) (level : Nat) (scope : Scope) (id : String)
    (index : Nat) : ViewChain → Drawing (List Html)
  | .done => return []
  | .elseIf condition body rest => do
    let inner ← viewsHtml names (level + 1) scope.inner body
    let later ← rest.html names level scope id (index + 1)
    return .text (lineBreak level) ::
      branchHtml (id ++ "-elseif-" ++ toString index) (some condition)
        (childBlock level inner) :: later
  | .otherwise body => do
    let inner ← viewsHtml names (level + 1) scope.inner body
    return [.text (lineBreak level), branchHtml (id ++ "-else") none (childBlock level inner)]

/-- The markup of views at a level. -/
def viewsHtml (names : List String) (level : Nat) (scope : Scope) :
    List View → Drawing (List (List Html))
  | [] => return []
  | view :: views => do
    let first ← view.html names level scope
    let rest ← viewsHtml names level scope views
    return first :: rest

end

/-- The names that fields may be bound to: all state and all computed names. -/
def Program.bindable (program : Program) : List String :=
  program.states.map (·.name) ++ program.computed.map (·.name)

/-- The markup of a component at the top of a page.  A component with props is written only where
it is used. -/
def Component.html (program : Program) (component : Component) : Drawing Html :=
  match component.props? with
  | some props =>
    return .comment (" Component " ++ component.name ++ " defined with props: " ++
      String.intercalate ", " props.names ++ " ")
  | none => do
    let inner ← viewsHtml program.bindable 1 {} (program.componentViews component)
    return .element .div [⟨.elementId, component.name⟩, ⟨.classes, "frobo-component"⟩]
      (componentBlock 0 inner)

/-- The markup of components, one below the other. -/
def componentsHtml (program : Program) : List Component → Drawing (List Html)
  | [] => return []
  | component :: components => do
    let first ← component.html program
    let rest ← componentsHtml program components
    return first :: (if rest.isEmpty then [] else .text "\n" :: rest)

/-- The markup tree of a program. -/
def Program.html (program : Program) : List Html :=
  (componentsHtml program program.components {}).1

/-- The markup of a program. -/
def Program.markup (program : Program) : String :=
  Html.render program.html

end UiLang
