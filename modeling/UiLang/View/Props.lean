import UiLang.Ui.Basic

/-!
# Substitution of props

A use of a component gives texts to its props.  In the nodes of the component every name in
braces is replaced by its text, one prop after another, in element texts and string attributes.

## Main definitions

* `replaceAll`: all occurrences of a pattern in a text
* `PropValues`, `PropValues.replace`: the texts of props, put into a text
* `UiNode.substitute`, `substituteAll`: the texts of props, put into nodes
-/

namespace UiLang

/-- Replaces the occurrences of a pattern from left to right; occurrences do not overlap.  `skip`
characters of an occurrence are left to pass. -/
def replaceAll (pattern value : List Char) (skip : Nat) : List Char → List Char
  | [] => []
  | c :: cs =>
    match skip with
    | skip + 1 => replaceAll pattern value skip cs
    | 0 =>
      if pattern.isPrefixOf (c :: cs) then
        value ++ replaceAll pattern value (pattern.length - 1) cs
      else c :: replaceAll pattern value 0 cs

/-- The texts that a use of a component gives to names, in the order of its attributes. -/
abbrev PropValues := List (String × String)

/-- The texts of the attributes of a use. -/
def PropValues.ofAttributes (attributes : Attributes) : PropValues :=
  attributes.entries.map fun entry => (entry.1, entry.2.toText)

/-- A name in braces, which stands for the text of a prop. -/
def placeholder (name : String) : List Char :=
  '\x7b' :: name.toList ++ ['\x7d']

/-- Puts the texts of props into a text, one prop after another. -/
def PropValues.replace (props : PropValues) (text : String) : String :=
  String.ofList (props.foldl (fun cs prop =>
    replaceAll (placeholder prop.1) prop.2.toList 0 cs) text.toList)

/-- Puts the texts of props into a string attribute; other attributes are kept. -/
def AttributeValue.substitute (props : PropValues) : AttributeValue → AttributeValue
  | .text s => .text (props.replace s)
  | value => value

/-- Puts the texts of props into the text and the attributes of an element. -/
def ElementHead.substitute (props : PropValues) (head : ElementHead) : ElementHead :=
  { head with
    text := head.text.map props.replace
    attributes := head.attributes.mapValues (·.substitute props) }

mutual

/-- Puts the texts of props into a node. -/
def UiNode.substitute (props : PropValues) : UiNode → UiNode
  | .element head children loc =>
    .element (head.substitute props) (substituteAll props children) loc
  | .component name attributes children loc =>
    .component name (attributes.mapValues (·.substitute props)) (substituteAll props children) loc
  | .conditional condition body rest loc =>
    .conditional condition (substituteAll props body) (rest.substitute props) loc
  | .loop item array body loc => .loop item array (substituteAll props body) loc

/-- Puts the texts of props into the later branches of a conditional. -/
def ElseChain.substitute (props : PropValues) : ElseChain → ElseChain
  | .done => .done
  | .elseIf condition body rest =>
    .elseIf condition (substituteAll props body) (rest.substitute props)
  | .otherwise body => .otherwise (substituteAll props body)

/-- Puts the texts of props into nodes. -/
def substituteAll (props : PropValues) : List UiNode → List UiNode
  | [] => []
  | node :: nodes => node.substitute props :: substituteAll props nodes

end

end UiLang
