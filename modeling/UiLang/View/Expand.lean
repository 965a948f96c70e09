import UiLang.Program.Basic
import UiLang.View.Basic
import UiLang.View.Props

/-!
# Expansion of components

A use of a component becomes the nodes of its definition with the props of the use put in.  The
names of the components being expanded are kept: a use of one of them stands inside itself and is
not expanded again, so no expansion is nested deeper than there are components.

## Main definitions

* `UiNode.toView`, `viewsOf`: nodes as views, with a given way to expand uses
* `Program.instantiate`: the expansion of one use
* `Program.componentViews`: the views of a component at the top of a page
-/

namespace UiLang

/-- How the use of a component, by its name and attributes, is expanded. -/
abbrev Expansion := String → Attributes → View

mutual

/-- A node as a view. -/
def UiNode.toView (expand : Expansion) : UiNode → View
  | .element head children _ => .element head (viewsOf expand children)
  | .component name attributes _ _ => expand name attributes
  | .conditional condition body rest _ =>
    .conditional condition (viewsOf expand body) (rest.toView expand)
  | .loop item array body _ => .loop item array (viewsOf expand body)

/-- The later branches of a conditional as views. -/
def ElseChain.toView (expand : Expansion) : ElseChain → ViewChain
  | .done => .done
  | .elseIf condition body rest =>
    .elseIf condition (viewsOf expand body) (rest.toView expand)
  | .otherwise body => .otherwise (viewsOf expand body)

/-- Nodes as views. -/
def viewsOf (expand : Expansion) : List UiNode → List View
  | [] => []
  | node :: nodes => node.toView expand :: viewsOf expand nodes

end

namespace Program

/-- The expansion of a use.  `opened` are the names being expanded, innermost first, and `depth`
is how many more can be: once every component is being expanded, any use stands inside itself. -/
def instantiate (program : Program) (depth : Nat) (opened : List String) : Expansion :=
  fun name attributes =>
    match program.findComponent? name with
    | none => .missing name
    | some definition =>
      if name ∈ opened then .recursive name
      else
        match depth with
        | 0 => .recursive name
        | depth + 1 =>
          let nodes := substituteAll (PropValues.ofAttributes attributes) definition.nodes
          .expanded name (viewsOf (program.instantiate depth (name :: opened)) nodes)

/-- The views of a component at the top of a page, where nothing is being expanded yet. -/
def componentViews (program : Program) (component : Component) : List View :=
  viewsOf (program.instantiate program.components.length []) component.nodes

end Program

end UiLang
