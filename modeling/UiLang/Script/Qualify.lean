import UiLang.Text.Blank

/-!
# Qualifying names in script text

Script bodies are kept as text, so state names in them are qualified as text: a whole word that
names state becomes `state.` and the word, in string literals too.  Parameters, declared locals
and members after a point are left alone.

## Main definitions

* `ScriptWord`, `splitWords`: a text as its words and what stands between them
* `Qualifier`, `Qualifier.qualifies`: which words are qualified
* `Qualifier.qualify`: the qualified text
-/

namespace UiLang

/-- A character that may start a script word. -/
def isWordStart (c : Char) : Bool :=
  c.isAlpha || c == '_' || c == '$'

/-- A character that may continue a script word. -/
def isWordChar (c : Char) : Bool :=
  c.isAlphanum || c == '_' || c == '$'

/-- A word of a script text, and the gap between it and the next one. -/
structure ScriptWord where
  word : List Char
  gap : List Char
  deriving DecidableEq, Repr

/-- The words of a text that starts with a word. -/
def wordsFrom (cs : List Char) : List ScriptWord :=
  match cs with
  | [] => []
  | c :: rest =>
    let after := rest.dropWhile isWordChar
    ⟨c :: rest.takeWhile isWordChar, after.takeWhile (!isWordStart ·)⟩ ::
      wordsFrom (after.dropWhile (!isWordStart ·))
termination_by cs.length
decreasing_by
  have h₁ := (List.dropWhile_suffix (l := rest) isWordChar).length_le
  have h₂ := (List.dropWhile_suffix (l := rest.dropWhile isWordChar) (!isWordStart ·)).length_le
  simp only [List.length_cons]
  omega

/-- A text as the gap before its first word, and its words. -/
def splitWords (cs : List Char) : List Char × List ScriptWord :=
  (cs.takeWhile (!isWordStart ·), wordsFrom (cs.dropWhile (!isWordStart ·)))

/-- What follows the `=` of an assignment whose left side a gap follows.  A comparison and an
arrow are no assignments. -/
def assignment? (gap : List Char) : Option (List Char) :=
  match Text.dropBlanks gap with
  | '=' :: '=' :: _ => none
  | '=' :: '>' :: _ => none
  | '=' :: rest => some rest
  | _ => none

/-- Which names are qualified: `names`, and with `assignments` every name that is assigned to.
Names in `excluded` never are. -/
structure Qualifier where
  names : List String
  excluded : List String := []
  assignments : Bool := false

/-- What is known before a word: the word before it, the locals declared so far, and the character
before it. -/
structure WordContext where
  previous : Option String := none
  locals : List String := []
  before : Option Char := none

namespace WordContext

/-- The next word is declared by `let`, `const` or `var`. -/
def declares (context : WordContext) : Bool :=
  context.previous == some "let" || context.previous == some "const" ||
    context.previous == some "var"

/-- The next word is a member, or stands right after a digit. -/
def isMember (context : WordContext) : Bool :=
  context.before.any fun c => c == '.' || c.isDigit

/-- What is known after a word. -/
def next (context : WordContext) (word : ScriptWord) : WordContext where
  previous := some (String.ofList word.word)
  locals :=
    if context.declares then String.ofList word.word :: context.locals else context.locals
  before := word.gap.getLast?

end WordContext

namespace Qualifier

/-- A word is qualified. -/
def qualifies (q : Qualifier) (context : WordContext) (word : ScriptWord) : Bool :=
  let name := String.ofList word.word
  !context.declares && !q.excluded.contains name && !context.locals.contains name &&
    !context.isMember &&
    (q.names.contains name || (q.assignments && (assignment? word.gap).isSome))

/-- A word and the gap after it, qualified if need be.  The gap before the `=` of an assignment to
a qualified name becomes one space. -/
def qualifyWord (q : Qualifier) (context : WordContext) (word : ScriptWord) : List Char :=
  if q.qualifies context word then
    "state.".toList ++ word.word ++
      match assignment? word.gap with
      | some rest => " =".toList ++ rest
      | none => word.gap
  else word.word ++ word.gap

/-- Words and the gaps after them, qualified if need be. -/
def qualifyWords (q : Qualifier) (context : WordContext) : List ScriptWord → List Char
  | [] => []
  | word :: words => q.qualifyWord context word ++ q.qualifyWords (context.next word) words

/-- A script text with its state names qualified. -/
def qualify (q : Qualifier) (body : String) : String :=
  let (gap, words) := splitWords body.toList
  String.ofList (gap ++ q.qualifyWords { before := gap.getLast? } words)

end Qualifier

end UiLang
