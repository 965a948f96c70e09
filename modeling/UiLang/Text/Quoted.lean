import UiLang.Text.Hidden

/-!
# Quoted text

A text in double quotes for messages: quotes and backslashes get a backslash, the common control
characters have short names, and every other hidden character is written by its code point, as in
`\\u` followed by lowercase hexadecimal digits in braces.

## Main definitions

* `Text.quoteChar`: how one character stands inside the quotes
* `Text.quote`: the quoted text
* `Text.hex`: lowercase hexadecimal digits
-/

namespace UiLang.Text

/-- The lowercase hexadecimal digits of a number, without leading zeros. -/
def hex (n : Nat) : List Char :=
  Nat.toDigits 16 n

/-- How a character stands inside quotes. -/
def quoteChar (c : Char) : List Char :=
  if c = '"' then ['\\', '"']
  else if c = '\\' then ['\\', '\\']
  else if c = '\t' then ['\\', 't']
  else if c = '\n' then ['\\', 'n']
  else if c = '\r' then ['\\', 'r']
  else if c = '\x00' then ['\\', '0']
  else if isHidden c then ['\\', 'u', '\x7b'] ++ hex c.toNat ++ ['\x7d']
  else [c]

/-- The text in double quotes. -/
def quote (s : String) : String :=
  String.ofList ('"' :: s.toList.flatMap quoteChar ++ ['"'])

end UiLang.Text
