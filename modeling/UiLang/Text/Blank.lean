/-!
# Blank characters

Which characters count as white space, and how blanks are cut from the ends of a text.

## Main definitions

* `Text.isBlank`: the Unicode property `White_Space`
* `Text.dropBlanks`, `Text.dropBlanksRight`: a text without its leading or trailing blanks
-/

namespace UiLang.Text

/-- The 25 characters of the Unicode property `White_Space`. -/
def isBlank (c : Char) : Bool :=
  let n := c.toNat
  (0x09 ≤ n && n ≤ 0x0d) || n == 0x20 || n == 0x85 || n == 0xa0 || n == 0x1680 ||
    (0x2000 ≤ n && n ≤ 0x200a) || n == 0x2028 || n == 0x2029 || n == 0x202f || n == 0x205f ||
    n == 0x3000

/-- The text without its leading blanks. -/
def dropBlanks (cs : List Char) : List Char :=
  cs.dropWhile isBlank

/-- The text without its trailing run of characters that satisfy `p`. -/
def dropWhileRight (p : Char → Bool) (cs : List Char) : List Char :=
  (cs.reverse.dropWhile p).reverse

/-- The text without its trailing blanks. -/
def dropBlanksRight (cs : List Char) : List Char :=
  dropWhileRight isBlank cs

end UiLang.Text
