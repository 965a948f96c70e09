import UiLang.Condition.Basic
import UiLang.OrderedMap

/-!
# The tree of user interface nodes

Component bodies, blocks, branches and loops hold nodes: elements, uses of components,
conditionals and loops.

## Main definitions

* `AttributeValue`, `AttributeValue.toText`: what an attribute is set to
* `ElementHead`: an element without its children
* `UiNode`, `ElseChain`: nodes, and the branches after the first of a conditional
-/

namespace UiLang

/-- What an attribute is set to. -/
inductive AttributeValue where
  | text (text : String)
  | identifier (path : Path)
  | number (text : String)
  | boolean (value : Bool)
  | call (name : Path) (arguments : List String)
  | classMap (classes : OrderedMap String Path)
  deriving Repr

namespace AttributeValue

/-- An attribute value as text. -/
def toText : AttributeValue → String
  | .text s => s
  | .identifier path => path.text
  | .number s => s
  | .boolean value => boolText value
  | .call name arguments => name.text ++ "(" ++ String.intercalate ", " arguments ++ ")"
  | .classMap classes =>
    "\x7b " ++ String.intercalate ", " (classes.entries.map fun entry =>
      entry.1 ++ ": " ++ entry.2.text) ++ " \x7d"

/-- The name that a string or an identifier gives. -/
def name? : AttributeValue → Option String
  | .text s => some s
  | .identifier path => some path.text
  | _ => none

end AttributeValue

/-- The attributes of an element in order of first writing. -/
abbrev Attributes := OrderedMap String AttributeValue

/-- The style properties of an element in order of first writing. -/
abbrev Styles := OrderedMap String String

/-- An element without its children: its name, the string after the name, its attributes and its
style properties. -/
structure ElementHead where
  name : String
  text : Option String := none
  attributes : Attributes := ∅
  styles : Styles := ∅
  deriving Repr

mutual

/-- A node of the user interface. -/
inductive UiNode where
  | element (head : ElementHead) (children : List UiNode) (location : Location)
  | component (name : String) (attributes : Attributes) (children : List UiNode)
      (location : Location)
  | conditional (condition : Condition) (body : List UiNode) (rest : ElseChain)
      (location : Location)
  | loop (item : String) (array : Path) (body : List UiNode) (location : Location)

/-- What follows the first branch of a conditional. -/
inductive ElseChain where
  | done
  | elseIf (condition : Condition) (body : List UiNode) (rest : ElseChain)
  | otherwise (body : List UiNode)

end

/-- Where a node was written. -/
def UiNode.location : UiNode → Location
  | .element _ _ loc | .component _ _ _ loc | .conditional _ _ _ loc | .loop _ _ _ loc => loc

end UiLang
