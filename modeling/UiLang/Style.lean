import UiLang.Ui.Basic

/-!
# Styles

The base stylesheet of every page, and the `style` attribute of an element.

## Main definitions

* `stylesheet`
* `kebabCase`, `withUnit`: property names and values as they are written
* `inlineStyles`: the style properties of an element as one text
-/

namespace UiLang

/-- The base stylesheet; it does not depend on the program. -/
def stylesheet : String :=
  String.intercalate "\n" [
    ".frobo-component \x7b",
    "  padding: 20px;",
    "  margin: 10px;",
    "  border: 1px solid #ddd;",
    "  border-radius: 8px;",
    "\x7d",
    "",
    ".frobo-component p \x7b",
    "  margin: 10px 0;",
    "  font-size: 16px;",
    "\x7d",
    "",
    ".frobo-component h1 \x7b",
    "  margin: 10px 0;",
    "  font-size: 24px;",
    "  font-weight: bold;",
    "\x7d",
    "",
    ".frobo-component button \x7b",
    "  padding: 10px 20px;",
    "  margin: 5px;",
    "  background-color: #007bff;",
    "  color: white;",
    "  border: none;",
    "  border-radius: 4px;",
    "  cursor: pointer;",
    "\x7d",
    "",
    ".frobo-component button:hover \x7b",
    "  background-color: #0056b3;",
    "\x7d",
    "",
    ".frobo-component input \x7b",
    "  padding: 8px 12px;",
    "  margin: 5px;",
    "  border: 1px solid #ccc;",
    "  border-radius: 4px;",
    "  font-size: 14px;",
    "\x7d"]

/-- The characters of a property name with a dash where a small letter meets a capital, all in
lower case.  `afterLower` tells that a small letter stands right before. -/
def kebabChars (afterLower : Bool) : List Char → List Char
  | [] => []
  | c :: cs =>
    if c.isUpper && afterLower then '-' :: c.toLower :: kebabChars c.isLower cs
    else c.toLower :: kebabChars c.isLower cs

/-- A property name in kebab case: `fontSize` is `font-size`. -/
def kebabCase (property : String) : String :=
  String.ofList (kebabChars false property.toList)

/-- Properties whose bare numbers are lengths in pixels. -/
def pixelProperties : List String :=
  ["width", "height", "margin", "padding", "top", "right", "bottom", "left", "font-size",
    "border-width", "border-radius", "gap"]

/-- A value of a property, with its unit if it is a bare number of pixels. -/
def withUnit (property value : String) : String :=
  if value ≠ "" ∧ value.toList.all Char.isDigit ∧ property ∈ pixelProperties then value ++ "px"
  else value

/-- Style properties as the value of a `style` attribute. -/
def inlineStyles (styles : Styles) : String :=
  String.intercalate "; " (styles.entries.map fun entry =>
    let property := kebabCase entry.1
    property ++ ": " ++ withUnit property entry.2)

end UiLang
