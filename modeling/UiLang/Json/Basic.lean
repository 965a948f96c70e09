import UiLang.Json.Number
import UiLang.State.Basic
import UiLang.Text.Quoted

/-!
# JSON values

The values that state holds while a page runs, and their compact text.

## Main definitions

* `JsonValue`, `JsonValue.text`: values and their compact JSON text
* `JsonValue.describe`: the text that names the kind of every value
* `StateValue.toJson`: the value of a state literal
-/

namespace UiLang

/-- A JSON value; the fields of an object keep their order. -/
inductive JsonValue where
  | null
  | bool (value : Bool)
  | number (value : JsonNumber)
  | string (text : String)
  | array (items : List JsonValue)
  | object (fields : List (String × JsonValue))
  deriving Repr

namespace JsonValue

/-- How a character stands inside a JSON string. -/
def escapeChar (c : Char) : List Char :=
  if c = '"' then ['\\', '"']
  else if c = '\\' then ['\\', '\\']
  else if c = '\x08' then ['\\', 'b']
  else if c = '\x0c' then ['\\', 'f']
  else if c = '\n' then ['\\', 'n']
  else if c = '\r' then ['\\', 'r']
  else if c = '\t' then ['\\', 't']
  else if c.toNat < 0x20 then
    let digits := Text.hex c.toNat
    ['\\', 'u'] ++ List.replicate (4 - digits.length) '0' ++ digits
  else [c]

/-- A text as a JSON string. -/
def stringText (s : String) : String :=
  String.ofList ('"' :: s.toList.flatMap escapeChar ++ ['"'])

mutual

/-- The compact JSON text of a value. -/
def text : JsonValue → String
  | .null => "null"
  | .bool value => if value then "true" else "false"
  | .number value => value.text
  | .string s => stringText s
  | .array items => "[" ++ String.intercalate "," (itemTexts items) ++ "]"
  | .object fields => "\x7b" ++ String.intercalate "," (fieldTexts fields) ++ "\x7d"

/-- The compact JSON texts of the items of an array. -/
def itemTexts : List JsonValue → List String
  | [] => []
  | item :: items => item.text :: itemTexts items

/-- The compact JSON texts of the fields of an object. -/
def fieldTexts : List (String × JsonValue) → List String
  | [] => []
  | (key, value) :: fields => (stringText key ++ ":" ++ value.text) :: fieldTexts fields

end

mutual

/-- A value with the name of its kind. -/
def describe : JsonValue → String
  | .null => "Null"
  | .bool value => if value then "Bool(true)" else "Bool(false)"
  | .number value => "Number(" ++ value.text ++ ")"
  | .string s => "String(" ++ Text.quote s ++ ")"
  | .array items => "Array [" ++ String.intercalate ", " (describeItems items) ++ "]"
  | .object fields =>
    "Object \x7b" ++ String.intercalate ", " (describeFields fields) ++ "\x7d"

/-- The items of an array with the names of their kinds. -/
def describeItems : List JsonValue → List String
  | [] => []
  | item :: items => item.describe :: describeItems items

/-- Keys with their values and the names of their kinds. -/
def describeFields : List (String × JsonValue) → List String
  | [] => []
  | (key, value) :: fields =>
    (Text.quote key ++ ": " ++ value.describe) :: describeFields fields

end

end JsonValue

namespace StateValue

mutual

/-- The value of a state literal.  A number that JSON can not hold stays a string. -/
def toJson : StateValue → JsonValue
  | .number text =>
    match JsonNumber.ofText? text with
    | some value => .number value
    | none => .string text
  | .string text => .string text
  | .boolean value => .bool value
  | .null => .null
  | .array items => .array (itemsToJson items)
  | .object fields => .object (fieldsToJson fields)

/-- The values of the items of an array. -/
def itemsToJson : List StateValue → List JsonValue
  | [] => []
  | item :: items => item.toJson :: itemsToJson items

/-- The values of the fields of an object. -/
def fieldsToJson : List (String × StateValue) → List (String × JsonValue)
  | [] => []
  | (key, value) :: fields => (key, value.toJson) :: fieldsToJson fields

end

end StateValue

end UiLang
