import UiLang.Ui.Basic

/-!
# Views

A view is a tree of nodes in which every use of a component is replaced by the nodes of that
component.  A use that has no definition, or that stands inside itself, is marked as such.

## Main definitions

* `View`, `ViewChain`
-/

namespace UiLang

mutual

/-- A node with all components expanded. -/
inductive View where
  | element (head : ElementHead) (children : List View)
  | expanded (name : String) (children : List View)
  | missing (name : String)
  | recursive (name : String)
  | conditional (condition : Condition) (body : List View) (rest : ViewChain)
  | loop (item : String) (array : Path) (body : List View)

/-- What follows the first branch of a conditional. -/
inductive ViewChain where
  | done
  | elseIf (condition : Condition) (body : List View) (rest : ViewChain)
  | otherwise (body : List View)

end

end UiLang
