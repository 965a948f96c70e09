import UiLang.Condition.Reader
import UiLang.Token.RawText
import UiLang.Ui.Basic

/-!
# Reading attributes

After its name and text an element has attributes `key=value`.  A `style` attribute is a block of
style properties, a `class` attribute may be a block of class conditions, and on elements some
short names stand for style properties.

## Main definitions

* `styleShorthand?`: the style property that a short name stands for
* `readAttributeValue`, `readStyleBlock`, `readClassMap`: the values
* `readAttributes`: all attributes of an element
-/

namespace UiLang

/-- The style property that a short attribute name stands for. -/
def styleShorthand? : String → Option String
  | "bg" => some "background"
  | "color" => some "color"
  | "padding" => some "padding"
  | "rounded" => some "border-radius"
  | "margin" => some "margin"
  | "width" => some "width"
  | "height" => some "height"
  | "gap" => some "gap"
  | "shadow" => some "box-shadow"
  | _ => none

/-- Fails at a token that is no value of the attribute or property `name`. -/
def invalidAttribute {α : Type} {ts : List Token} (name : String) (found : Token) : Read α ts :=
  .error (.ofToken (.invalidAttributeValue name) found)

variable (stop : Token)

/-- Reads what follows a path: the arguments of a call, or nothing. -/
def readCallAfter (path : Path) : (ts : List Token) → Read AttributeValue ts
  | [] => .ok (.nothing (.identifier path) [])
  | token :: rest =>
    if token.kind = .opening .round then do
      let inside ← parenthesizedTokens stop 0 rest
      return (inside.map fun tokens => .call path (RawText.arguments tokens)).cons token
    else .ok (.nothing (.identifier path) (token :: rest))

/-- Reads the value of the attribute `name`. -/
def readAttributeValue (name : String) : (ts : List Token) → Read AttributeValue ts
  | [] => invalidAttribute name stop
  | token :: rest =>
    match token.kind with
    | .string => .ok ((Reading.nothing (.text token.text) rest).cons token)
    | .number => .ok ((Reading.nothing (.number token.text) rest).cons token)
    | .minus =>
      match readNegated? rest with
      | some number => .ok ((number.map .number).cons token)
      | none => invalidAttribute name token
    | .boolean => .ok ((Reading.nothing (.boolean (token.text == "true")) rest).cons token)
    | .null => .ok ((Reading.nothing (.identifier ⟨"null", []⟩) rest).cons token)
    | .identifier => do
      let path := readPathAfter token rest
      return (path.andThen (← readCallAfter stop path.value path.rest)).cons token
    | _ => invalidAttribute name token

/-- Reads the value of a short style attribute: a string or a number. -/
def readShorthandValue (name : String) : (ts : List Token) → Read String ts
  | [] => invalidAttribute name stop
  | token :: rest =>
    match token.kind with
    | .string | .number => .ok ((Reading.nothing token.text rest).cons token)
    | .minus =>
      match readNegated? rest with
      | some number => .ok (number.cons token)
      | none => invalidAttribute name token
    | _ => invalidAttribute name token

/-! ## Blocks of entries -/

/-- Reads the parts of a dashed name, such as `font-size`, after its first word. -/
def readDashedAfter (name : String) : (ts : List Token) → Reading String ts
  | [] => .nothing name []
  | [token] => .nothing name [token]
  | dash :: word :: rest =>
    if dash.kind = .minus ∧ word.kind.isWord then
      ((readDashedAfter (name ++ "-" ++ word.text) rest).cons word).cons dash
    else .nothing name (dash :: word :: rest)

/-- A token that ends the value of a style property. -/
def endsStyleValue (token : Token) : Bool :=
  match token.kind with
  | .comma | .newline | .closing .brace => true
  | _ => false

/-- Reads the value of the style property `property`: everything up to the end of the entry.  A
lone string loses its quotes. -/
def readStyleValue (property : String) (ts : List Token) : Read String ts :=
  let rest := ts.dropWhile fun token => !endsStyleValue token
  match ts.takeWhile fun token => !endsStyleValue token with
  | [] => invalidAttribute property (peek stop rest)
  | tokens =>
    .ok ⟨match tokens with
      | [⟨.string, text, _⟩] => text
      | _ => RawText.join tokens, rest, List.dropWhile_suffix _⟩

/-- Reads the condition of a class. -/
def readClassCondition (_ : String) (ts : List Token) : Read Path ts :=
  readPath stop ts

/-- Reads the entries `name: value` of a block and its closing brace, after the entries `known`.
Entries are separated by commas or newlines. -/
def readEntries {ν : Type} (readValue : String → (ts : List Token) → Read ν ts)
    (known : OrderedMap String ν) (ts : List Token) : Read (OrderedMap String ν) ts :=
  match h : skipNewlines ts with
  | [] => expected .identifier stop
  | first :: rest =>
    if first.kind = .closing .brace then
      .ok (((Reading.nothing known rest).cons first).within (h ▸ skipNewlines_suffix ts))
    else if first.kind.isWord ∨ first.kind = .string then do
      let name := readDashedAfter first.text rest
      let colon ← expect stop .colon name.rest
      let colon := name.andThen colon
      let value ← readValue name.value colon.rest
      let value := colon.andThen value
      let comma := value.andThen (eat .comma value.rest)
      let entries ← readEntries readValue (known.insert name.value value.value) comma.rest
      return ((comma.andThen entries).cons first).within (h ▸ skipNewlines_suffix ts)
    else expected .identifier first
termination_by ts.length
decreasing_by
  exact Nat.lt_of_le_of_lt (Reading.length_le _) (length_lt_of_skipNewlines h)

/-- Reads a block of style properties. -/
def readStyleBlock (ts : List Token) : Read Styles ts := do
  let brace ← expect stop (.opening .brace) ts
  return brace.andThen (← readEntries stop (readStyleValue stop) ∅ brace.rest)

/-- Reads a block of class conditions. -/
def readClassMap (ts : List Token) : Read (OrderedMap String Path) ts := do
  let brace ← expect stop (.opening .brace) ts
  return brace.andThen (← readEntries stop (readClassCondition stop) ∅ brace.rest)

/-! ## Attribute lists -/

/-- An element whose name starts with an uppercase letter is a use of a component. -/
def isComponentName (name : String) : Bool :=
  match name.toList with
  | c :: _ => c.isUpper
  | [] => false

/-- The style property that an attribute of an element stands for.  Uses of components have no
short style attributes. -/
def ElementHead.styleProperty? (head : ElementHead) (key : String) : Option String :=
  if isComponentName head.name then none else styleShorthand? key

/-- Reads the value of the attribute `key` into an element. -/
def readAttribute (key : String) (head : ElementHead) (ts : List Token) : Read ElementHead ts :=
  if key = "style" then do
    let block ← readStyleBlock stop ts
    return block.map fun styles => { head with styles := head.styles.insertAll styles.entries }
  else if key = "class" ∧ (peek stop ts).kind = .opening .brace then do
    let classes ← readClassMap stop ts
    return classes.map fun classes =>
      { head with attributes := head.attributes.insert "class" (.classMap classes) }
  else
    match head.styleProperty? key with
    | some property => do
      let value ← readShorthandValue stop key ts
      return value.map fun value => { head with styles := head.styles.insert property value }
    | none => do
      let value ← readAttributeValue stop key ts
      return value.map fun value =>
        { head with attributes := head.attributes.insert key value }

/-- Reads all attributes of an element. -/
def readAttributes (head : ElementHead) (ts : List Token) : Read ElementHead ts :=
  match ts with
  | key :: assign :: rest =>
    if key.kind.isWord ∧ assign.kind = .assign then do
      let one ← readAttribute stop key.text head rest
      let all ← readAttributes one.value one.rest
      return ((one.andThen all).cons assign).cons key
    else .ok (.nothing head (key :: assign :: rest))
  | ts => .ok (.nothing head ts)
termination_by ts.length
decreasing_by
  have := one.length_le
  simp only [List.length_cons]
  omega

end UiLang
