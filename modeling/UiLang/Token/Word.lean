/-!
# Words and numbers at the front of a text

Identifiers are ASCII words `[A-Za-z_][A-Za-z0-9_]*`.  Numbers are runs of ASCII digits with an
optional fraction; a point without a digit after it is not part of the number.

## Main definitions

* `isIdentifierStart`, `isIdentifierChar`, `isIdentifier`
* `identifier?`, `decimal?`: the word or number at the front of a text, and what follows it

## Main results

* `append_of_identifier?`, `append_of_decimal?`: nothing is lost
-/

namespace UiLang

/-- A character that may start an identifier. -/
def isIdentifierStart (c : Char) : Bool :=
  c.isAlpha || c == '_'

/-- A character that may continue an identifier. -/
def isIdentifierChar (c : Char) : Bool :=
  c.isAlphanum || c == '_'

/-- A text that is an identifier as a whole. -/
def isIdentifier : List Char → Bool
  | [] => false
  | c :: cs => isIdentifierStart c && cs.all isIdentifierChar

/-- The identifier at the front of a text, and what follows it. -/
def identifier? : List Char → Option (List Char × List Char)
  | [] => none
  | c :: cs =>
    if isIdentifierStart c then
      some (c :: cs.takeWhile isIdentifierChar, cs.dropWhile isIdentifierChar)
    else none

/-- The fraction at the front of a text: a point and at least one digit, or nothing. -/
def fraction : List Char → List Char
  | '.' :: c :: cs => if c.isDigit then '.' :: c :: cs.takeWhile Char.isDigit else []
  | _ => []

/-- The digits at the front of a text with the fraction after them. -/
def decimalPart (cs : List Char) : List Char :=
  cs.takeWhile Char.isDigit ++ fraction (cs.dropWhile Char.isDigit)

/-- The number at the front of a text, and what follows it. -/
def decimal? (cs : List Char) : Option (List Char × List Char) :=
  if (cs.takeWhile Char.isDigit).isEmpty then none
  else some (decimalPart cs, cs.drop (decimalPart cs).length)

theorem fraction_isPrefix (cs : List Char) : fraction cs <+: cs := by
  unfold fraction
  split
  · split
    · rename_i c cs _
      simp [List.cons_prefix_cons, List.takeWhile_prefix]
    · exact List.nil_prefix
  · exact List.nil_prefix

theorem decimalPart_isPrefix (cs : List Char) : decimalPart cs <+: cs := by
  obtain ⟨rest, h⟩ := fraction_isPrefix (cs.dropWhile Char.isDigit)
  refine ⟨rest, ?_⟩
  rw [decimalPart, List.append_assoc, h, List.takeWhile_append_dropWhile]

/-- **Nothing is lost**: an identifier and what follows it make up the text. -/
theorem append_of_identifier? {cs word rest : List Char} (h : identifier? cs = some (word, rest)) :
    word ++ rest = cs := by
  cases cs with
  | nil => simp [identifier?] at h
  | cons c cs =>
    simp only [identifier?] at h
    split at h
    · obtain ⟨rfl, rfl⟩ := Prod.mk.inj (Option.some.inj h)
      simp
    · simp at h

/-- **Nothing is lost**: a number and what follows it make up the text. -/
theorem append_of_decimal? {cs number rest : List Char} (h : decimal? cs = some (number, rest)) :
    number ++ rest = cs := by
  simp only [decimal?] at h
  split at h
  · simp at h
  · obtain ⟨rfl, rfl⟩ := Prod.mk.inj (Option.some.inj h)
    exact List.prefix_iff_eq_append.mp (decimalPart_isPrefix cs)

end UiLang
