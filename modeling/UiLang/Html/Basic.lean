import UiLang.Html.Escape

/-!
# Markup trees

Markup is a tree before it is text.  Tags and attribute names come from a fixed set; text and
attribute values are escaped in one place, when the tree is written.

## Main definitions

* `Tag`, `VoidTag`, `AttributeName`: the fixed set
* `HtmlAttribute`, `Html`: trees
* `Html.chars`, `Html.render`: trees as text
-/

namespace UiLang

/-- Tags with content.  Headings have levels one to six. -/
inductive Tag where
  | div | p | button | a | template | textarea
  | heading (level : Fin 6)
  deriving DecidableEq, Repr

/-- Tags without content. -/
inductive VoidTag where
  | input | img
  deriving DecidableEq, Repr

/-- How a tag is written. -/
def Tag.name : Tag → String
  | .div => "div"
  | .p => "p"
  | .button => "button"
  | .a => "a"
  | .template => "template"
  | .textarea => "textarea"
  | .heading level => "h" ++ toString (level.val + 1)

/-- How a tag without content is written. -/
def VoidTag.name : VoidTag → String
  | .input => "input"
  | .img => "img"

/-- Names of attributes. -/
inductive AttributeName where
  | elementId | classes | style | type | placeholder | value | src | alt | href | target
  | onclick | dataTemplate | dataVars | dataBind | dataOnchange | dataCondition
  | dataDynamicClass | dataLoop | dataItem
  deriving DecidableEq, Repr

/-- How an attribute name is written. -/
def AttributeName.name : AttributeName → String
  | .elementId => "id"
  | .classes => "class"
  | .style => "style"
  | .type => "type"
  | .placeholder => "placeholder"
  | .value => "value"
  | .src => "src"
  | .alt => "alt"
  | .href => "href"
  | .target => "target"
  | .onclick => "onclick"
  | .dataTemplate => "data-template"
  | .dataVars => "data-vars"
  | .dataBind => "data-bind"
  | .dataOnchange => "data-onchange"
  | .dataCondition => "data-condition"
  | .dataDynamicClass => "data-dynamic-class"
  | .dataLoop => "data-loop"
  | .dataItem => "data-item"

/-- An attribute with its value before escaping. -/
structure HtmlAttribute where
  name : AttributeName
  value : String
  deriving DecidableEq, Repr

/-- A piece of markup: text before escaping, a comment, or an element. -/
inductive Html where
  | text (text : String)
  | comment (text : String)
  | element (tag : Tag) (attributes : List HtmlAttribute) (children : List Html)
  | void (tag : VoidTag) (attributes : List HtmlAttribute)
  deriving Repr

/-- An attribute as it is written, with the blank before it. -/
def HtmlAttribute.chars (a : HtmlAttribute) : List Char :=
  ' ' :: a.name.name.toList ++ ['=', '"'] ++ Html.escapeChars a.value.toList ++ ['"']

namespace Html

mutual

/-- A piece of markup as it is written. -/
def chars : Html → List Char
  | .text s => escapeChars s.toList
  | .comment s => "<!--".toList ++ s.toList ++ "-->".toList
  | .element tag attributes children =>
    '<' :: tag.name.toList ++ attributes.flatMap HtmlAttribute.chars ++ ['>'] ++
      forestChars children ++ ['<', '/'] ++ tag.name.toList ++ ['>']
  | .void tag attributes =>
    '<' :: tag.name.toList ++ attributes.flatMap HtmlAttribute.chars ++ [' ', '/', '>']

/-- Pieces of markup as they are written, one after another. -/
def forestChars : List Html → List Char
  | [] => []
  | html :: rest => html.chars ++ forestChars rest

end

/-- Pieces of markup as text. -/
def render (forest : List Html) : String :=
  String.ofList (forestChars forest)

end Html

end UiLang
