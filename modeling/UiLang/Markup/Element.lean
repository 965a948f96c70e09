import UiLang.Html.Basic
import UiLang.Json.Basic
import UiLang.Markup.Ids
import UiLang.Markup.Scope
import UiLang.Style
import UiLang.Text.Natural
import UiLang.Ui.Basic

/-!
# Elements as markup

The name of an element decides its form: text that the script may fill in again, a button, a field,
an image, a link, or a box with or without a layout.  A name that is not known is a plain box.

## Main definitions

* `Layout`, `FieldKind`, `ElementForm`: the forms
* `ElementHead.form`: the form of an element
* `ElementHead.html`: the markup of an element around its children
-/

namespace UiLang

/-- How a box lays out its children. -/
inductive Layout where
  | row | column | center
  | grid (columns : String)
  deriving DecidableEq, Repr

/-- The style of a layout. -/
def Layout.style : Layout → String
  | .row => "display: flex; flex-direction: row; gap: 16px;"
  | .column => "display: flex; flex-direction: column; gap: 16px;"
  | .center => "display: flex; justify-content: center; align-items: center;"
  | .grid columns =>
    "display: grid; grid-template-columns: repeat(" ++ columns ++ ", 1fr); gap: 16px;"

/-- Fields that the user writes into. -/
inductive FieldKind where
  | input | textarea
  deriving DecidableEq, Repr

/-- How ids of a field start. -/
def FieldKind.name : FieldKind → String
  | .input => "input"
  | .textarea => "textarea"

/-- What an element is written as. -/
inductive ElementForm where
  | text (tag : Tag)
  | button
  | field (kind : FieldKind)
  | image
  | link
  | box (layout : Option Layout)
  deriving DecidableEq, Repr

/-- The heading that a level stands for: levels one to six, and the first for anything else. -/
def headingTag (level : Option String) : Tag :=
  match level.bind fun text => Text.natural? text.toList with
  | some n => if h : 1 ≤ n ∧ n ≤ 6 then .heading ⟨n - 1, Nat.sub_one_lt_of_le h.1 h.2⟩ else .heading 0
  | none => .heading 0

/-- A text with every point replaced by a hyphen, as ids are written. -/
def hyphenated (text : String) : String :=
  String.ofList (text.toList.map fun c => if c = '.' then '-' else c)

/-- The script that a handler runs: a call with its arguments, or a call of a bare name. -/
def handlerScript (scope : Scope) : AttributeValue → String
  | .call name arguments =>
    name.text ++ "(" ++ String.intercalate ", " (arguments.map scope.argument) ++ ")"
  | value => if value.toText.toList.getLast? = some ')' then value.toText else value.toText ++ "()"

/-- The name of the function that a handler calls. -/
def handlerName : AttributeValue → String
  | .call name _ => name.text
  | value => value.toText

namespace ElementHead

/-- The text of an attribute with the markers of its scope. -/
def attributeText (head : ElementHead) (scope : Scope) (name : String) : Option String :=
  (head.attributes.get? name).map fun value => scope.mark value.toText

/-- The form of an element. -/
def form (head : ElementHead) (scope : Scope) : ElementForm :=
  match head.name with
  | "text" => .text .p
  | "heading" => .text (headingTag (head.attributeText scope "level"))
  | "h1" => .text (.heading 0)
  | "h2" => .text (.heading 1)
  | "h3" => .text (.heading 2)
  | "h4" => .text (.heading 3)
  | "h5" => .text (.heading 4)
  | "h6" => .text (.heading 5)
  | "button" => .button
  | "input" => .field .input
  | "textarea" => .field .textarea
  | "image" => .image
  | "link" => .link
  | "row" => .box (some .row)
  | "column" => .box (some .column)
  | "center" => .box (some .center)
  | "grid" => .box (some (.grid ((head.attributeText scope "cols").getD "3")))
  | _ => .box none

/-- The classes of an element that do not depend on state. -/
def fixedClasses (head : ElementHead) (scope : Scope) : List String :=
  (if scope.atRoot then ["loop-item"] else []) ++
    match head.attributes.get? "class" with
    | none | some (.classMap _) => []
    | some value => [value.toText]

/-- The attributes for the classes of an element. -/
def classAttributes (head : ElementHead) (scope : Scope) : List HtmlAttribute :=
  let classes := head.fixedClasses scope
  (if classes.isEmpty then [] else [⟨.classes, String.intercalate " " classes⟩]) ++
    match head.attributes.get? "class" with
    | some (.classMap map) =>
      let fields := map.entries.map fun entry => (entry.1, JsonValue.string entry.2.text)
      [⟨.dataDynamicClass, (JsonValue.object fields).text⟩]
    | _ => []

/-- The attribute for the style of an element; the style of its layout comes last. -/
def styleAttributes (head : ElementHead) (layout : Option Layout) : List HtmlAttribute :=
  let own := inlineStyles head.styles
  match layout with
  | none => if own = "" then [] else [⟨.style, own⟩]
  | some layout => [⟨.style, if own = "" then layout.style else own ++ "; " ++ layout.style⟩]

/-- The attributes for the classes and the style of an element. -/
def lookAttributes (head : ElementHead) (scope : Scope) (layout : Option Layout := none) :
    List HtmlAttribute :=
  head.classAttributes scope ++ head.styleAttributes layout

/-- The path that the value of a field is bound to: its root is one of the given names. -/
def binding? (head : ElementHead) (names : List String) : Option String :=
  ((head.attributes.get? "value").bind AttributeValue.name?).filter fun name =>
    names.contains (String.ofList (name.toList.takeWhile (· != '.')))

/-- Draws the id of a field. -/
def drawFieldId (head : ElementHead) (names : List String) (kind : FieldKind) : Drawing String :=
  match head.binding? names with
  | some name => IdSupply.named (kind.name ++ "-" ++ hyphenated name)
  | none => IdSupply.numbered kind.name

/-- The attributes that tie a field to the script. -/
def fieldAttributes (head : ElementHead) (names : List String) : List HtmlAttribute :=
  (match head.binding? names, head.attributes.get? "value" with
    | some name, _ => [⟨.dataBind, name⟩]
    | none, some value => [⟨.value, value.toText⟩]
    | none, none => []) ++
  match head.attributes.get? "onChange" with
  | some handler => [⟨.dataOnchange, handlerName handler⟩]
  | none => []

/-- The text of an element with the markers of its scope. -/
def markedText (head : ElementHead) (scope : Scope) : String :=
  (head.text.map scope.mark).getD ""

/-- A text that the script fills in again when a path in it changes.  Inside a loop the template
of the loop is filled in as a whole, so no text is tied to the script by itself. -/
def textHtml (head : ElementHead) (scope : Scope) (tag : Tag) (children : List Html) :
    Drawing Html := do
  let text := head.markedText scope
  let paths := if scope.loop.isSome then [] else (interpolatedPaths text).map Path.text
  let body := Html.text text :: children
  if paths.isEmpty then return .element tag (head.lookAttributes scope) body
  let id ← IdSupply.named ("text-" ++ hyphenated (String.intercalate "-" paths))
  return .element tag ([⟨.elementId, id⟩, ⟨.dataTemplate, text⟩,
    ⟨.dataVars, String.intercalate "," paths⟩] ++ head.lookAttributes scope) body

/-- A field.  What stands inside it is not written. -/
def fieldHtml (head : ElementHead) (scope : Scope) (names : List String) (kind : FieldKind) :
    Drawing Html := do
  let id ← head.drawFieldId names kind
  let shown := (head.attributeText scope "placeholder").getD (head.markedText scope)
  let attributes := [⟨.elementId, id⟩, ⟨.placeholder, shown⟩] ++ head.lookAttributes scope ++
    head.fieldAttributes names
  match kind with
  | .input =>
    return .void .input (⟨.type, (head.attributeText scope "type").getD "text"⟩ :: attributes)
  | .textarea => return .element .textarea attributes []

/-- The markup of an element around its children.  `names` are the names that fields may be bound
to. -/
def html (head : ElementHead) (scope : Scope) (names : List String) (children : List Html) :
    Drawing Html :=
  let body := Html.text (head.markedText scope) :: children
  match head.form scope with
  | .text tag => head.textHtml scope tag children
  | .button =>
    let click := (head.attributes.get? "onClick").map (handlerScript scope)
    return .element .button
      ((click.map fun script => ⟨.onclick, script⟩).toList ++ head.lookAttributes scope) body
  | .field kind => head.fieldHtml scope names kind
  | .image =>
    return .void .img ([⟨.src, (head.attributeText scope "src").getD (head.markedText scope)⟩,
      ⟨.alt, (head.attributeText scope "alt").getD "Image"⟩] ++ head.lookAttributes scope)
  | .link =>
    let target := (head.attributeText scope "target").map fun name => ⟨.target, name⟩
    return .element .a (⟨.href, (head.attributeText scope "href").getD "#"⟩ ::
      target.toList ++ head.lookAttributes scope) body
  | .box layout => return .element .div (head.lookAttributes scope layout) body

end ElementHead

end UiLang
