import UiLang.Proofs.Script.Pieces

/-!
# Declarations of several locals

A declaration `let x = 1, y = 2` makes locals of all its names.  Only the first of them is known as a
local, since it alone comes next after the keyword; the others are treated like any assigned name.
So the first name is left alone from its place on.  Each other name is left alone exactly if it is
excluded, if it has been declared before, or if it is no state name and assignments are not qualified.

## Main definitions

* `Declarator`, `LocalDeclaration`: a keyword and a list of names with the numbers they start with
* `LocalDeclaration.firstPlace`, `LocalDeclaration.otherPlace`: where the names stand

## Main results

* `WordPlace.IsLocal.later`: a local stays one at every later place
* `Qualifier.keeps_from_iff`: when an assigned name is left alone from a place on
* `Qualifier.keeps_declared_iff`: when the names of a declaration are left alone
-/

namespace UiLang

/-! ## Locals stay locals -/

theorem IsLocalAfter.append {earlier : List ScriptWord} {word : List Char}
    (h : IsLocalAfter earlier word) (more : List ScriptWord) : IsLocalAfter (earlier ++ more) word := by
  obtain ⟨before, declared, later, rfl, hdeclares, hword⟩ := h
  exact ⟨before, declared, later ++ more, by simp, hdeclares, hword⟩

/-- Of two places of a text, the one with less text before it has fewer words before it. -/
theorem WordPlace.IsCutAt.prefix_of_prefix {text word word' start start' : List Char}
    {place : WordPlace text word} {place' : WordPlace text word'}
    {earlier later earlier' later' : List ScriptWord} (h : place.IsCutAt start earlier later)
    (h' : place'.IsCutAt start' earlier' later') (hbefore : place.before <+: place'.before) :
    earlier = earlier' ∨ ∃ more, earlier' = earlier ++ ⟨word, place.gap⟩ :: more := by
  obtain ⟨rfl, hwords⟩ := Prod.mk.inj (h.splitWords_eq.symm.trans h'.splitWords_eq)
  rcases List.append_eq_append_iff.mp hwords with ⟨more, rfl, hmore⟩ | ⟨more, rfl, hmore⟩
  · cases more with
    | nil => simp
    | cons w more =>
      obtain ⟨rfl, -⟩ := List.cons.inj hmore
      exact .inr ⟨more, rfl⟩
  · cases more with
    | nil => simp
    | cons w more =>
      -- then the second place would be the earlier one
      obtain ⟨rfl, -⟩ := List.cons.inj hmore
      have hlength := hbefore.length_le
      have hword := List.length_pos_of_ne_nil place'.isWhole.isWord.ne_nil
      simp only [h.before_eq, h'.before_eq, wordsText_append, wordsText_cons,
        List.length_append] at hlength
      omega

/-- **A local stays one** at every later place of the text. -/
theorem WordPlace.IsLocal.later {text word : List Char} {place place' : WordPlace text word}
    (h : place.IsLocal) (hbefore : place.before <+: place'.before) : place'.IsLocal := by
  obtain ⟨start, earlier, later, hcut⟩ := place.exists_isCutAt
  obtain ⟨start', earlier', later', hcut'⟩ := place'.exists_isCutAt
  rw [hcut.isLocal_iff] at h
  rw [hcut'.isLocal_iff]
  rcases hcut.prefix_of_prefix hcut' hbefore with rfl | ⟨more, rfl⟩
  · exact h
  · left
    rcases h with hlocal | hdeclares
    · exact hlocal.append _
    · exact ⟨earlier, _, more, rfl, hdeclares, rfl⟩

namespace Qualifier

/-- **When an assigned name is left alone from a place on**: if it is excluded, if it is a local by
then, or if it is no state name and assignments are not qualified.  In all other cases it gets `state.`
in front at the place itself. -/
theorem keeps_from_iff (q : Qualifier) {text word : List Char} (place : WordPlace text word)
    (hbefore : ∀ c ∈ place.before.getLast?, c ≠ '.' ∧ c.isDigit = false)
    (hassigns : ∃ value, Assigns place.after value) :
    (∀ spot : WordPlace text word, place.before <+: spot.before → q.Keeps spot) ↔
      String.ofList word ∈ q.excluded ∨ place.IsLocal ∨
        String.ofList word ∉ q.names ∧ q.assignments = false := by
  constructor
  · intro hkeeps
    have hplace := hkeeps place (List.prefix_refl _)
    rw [q.keeps_iff, q.putsState_iff] at hplace
    by_contra hnone
    simp only [not_or, not_and_or, not_not, Bool.not_eq_false] at hnone
    obtain ⟨hexcluded, hlocal, hknown⟩ := hnone
    exact hplace ⟨hexcluded, hlocal, hbefore, hknown.imp_right fun h => ⟨h, hassigns⟩⟩
  · intro h spot hspot
    rw [q.keeps_iff, q.putsState_iff]
    rintro ⟨hexcluded, hlocal, -, hknown⟩
    rcases h with hmem | hlater | ⟨hname, hassignments⟩
    · exact hexcluded hmem
    · exact hlocal (hlater.later hspot)
    · rcases hknown with hmem | ⟨htrue, -⟩
      · exact hname hmem
      · rw [hassignments] at htrue
        cases htrue

end Qualifier

/-! ## Declarations -/

/-- What a number is written with: a digit or a point first, and then digits, points, letters,
underscores and the sign of an exponent. -/
def isNumeral : List Char → Bool
  | [] => false
  | c :: cs => (c.isDigit || c == '.') &&
      cs.all fun d => d.isAlphanum || d == '.' || d == '_' || d == '+' || d == '-'

/-- One name of a declaration, with the number it starts with and the white space around the parts. -/
structure Declarator where
  lead : List Char
  name : List Char
  beforeEqual : List Char
  afterEqual : List Char
  value : List Char
  trail : List Char
  isWord : IsScriptWord name
  isNumeral : isNumeral value = true
  blank : ∀ c ∈ lead ++ (beforeEqual ++ (afterEqual ++ trail)), Text.isBlank c = true

namespace Declarator

/-- What follows the name. -/
def initial (x : Declarator) : List Char :=
  x.beforeEqual ++ '=' :: (x.afterEqual ++ (x.value ++ x.trail))

def chars (x : Declarator) : List Char :=
  x.lead ++ (x.name ++ x.initial)

variable (x : Declarator) (rest : List Char)

/-- The name is assigned to. -/
theorem exists_assigns : ∃ value, Assigns (x.initial ++ rest) value := by
  have hvalue : ∀ c, Text.isBlank c = false → c.isDigit = false → c ≠ '.' →
      (x.afterEqual ++ (x.value ++ x.trail) ++ rest).head? ≠ some c := by
    intro c hblank hdigit hpoint hhead
    cases hafter : x.afterEqual with
    | cons d cs =>
      have hd := x.blank d (by simp [hafter])
      obtain rfl : d = c := by simpa [hafter] using hhead
      rw [hblank] at hd
      cases hd
    | nil =>
      have hnumeral := x.isNumeral
      cases hx : x.value with
      | nil =>
        rw [hx] at hnumeral
        cases hnumeral
      | cons d cs =>
        obtain rfl : d = c := by simpa [hafter, hx] using hhead
        simp [hx, UiLang.isNumeral, hdigit, hpoint] at hnumeral
  refine ⟨x.afterEqual ++ (x.value ++ x.trail) ++ rest, x.beforeEqual, by simp [initial], ?_, ?_, ?_⟩
  · intro c hc
    exact x.blank c (by simp [hc])
  · exact hvalue '=' (by decide) (by decide) (by decide)
  · exact hvalue '>' (by decide) (by decide) (by decide)

/-- The name ends before what follows it. -/
theorem lacks_initial : Lacks isWordChar (x.initial ++ rest) := by
  cases hspace : x.beforeEqual with
  | nil =>
    rw [initial, hspace]
    exact lacks_cons.mpr (by decide)
  | cons c cs =>
    rw [initial, hspace]
    exact lacks_cons.mpr (not_isWordChar_of_isBlank (x.blank c (by simp [hspace])))

end Declarator

/-- The names after the first one, each with a comma in front. -/
def moreChars (xs : List Declarator) : List Char :=
  xs.flatMap fun x => ',' :: x.chars

theorem moreChars_append_cons (earlier later : List Declarator) (x : Declarator) :
    moreChars (earlier ++ x :: later) =
      moreChars earlier ++ (',' :: x.lead ++ (x.name ++ (x.initial ++ moreChars later))) := by
  simp [moreChars, Declarator.chars]

/-- A declaration that stands in a text: the word `let`, `const` or `var`, white space, and names with
the numbers they start with. -/
structure LocalDeclaration (text : List Char) where
  before : List Char
  keyword : List Char
  first : Declarator
  others : List Declarator
  rest : List Char
  isKeyword : String.ofList keyword ∈ ["let", "const", "var"]
  parted : first.lead ≠ []
  text_eq : text = before ++ (keyword ++ (first.chars ++ (moreChars others ++ rest)))
  left : ∀ front more, before = front ++ more → IsScriptWord (more ++ keyword) → more = []

/-- A word between other characters is whole. -/
theorem IsScriptWord.isWholeWord {before word after : List Char} (h : IsScriptWord word)
    (hbefore : ∀ c ∈ before.getLast?, UiLang.isWordChar c = false)
    (hafter : Lacks UiLang.isWordChar after) : IsWholeWord before word after := by
  refine ⟨h, ?_, fun more rest heq hmore => hmore.eq_nil_of_lacks hafter heq⟩
  rintro front more rfl hmore
  rcases List.eq_nil_or_concat more with rfl | ⟨more, c, rfl⟩
  · rfl
  · have hlast := hbefore c (by simp)
    have hchar := hmore.isWordChar c (by simp)
    rw [hlast] at hchar
    cases hchar

theorem isScriptWord_of_isKeyword {keyword : List Char}
    (h : String.ofList keyword ∈ ["let", "const", "var"]) : IsScriptWord keyword := by
  have hwords : ∀ word ∈ ["let", "const", "var"], IsScriptWord word.toList := by
    refine List.forall_mem_cons.mpr ⟨?_, List.forall_mem_cons.mpr ⟨?_, List.forall_mem_singleton.mpr ?_⟩⟩
    all_goals exact ⟨by decide, List.all_eq_true.mp (by decide)⟩
  simpa using hwords _ h

/-- What may stand right before a name of a declaration: white space or a comma. -/
theorem parts_name {c : Char} (h : c = ',' ∨ Text.isBlank c = true) :
    isWordChar c = false ∧ c ≠ '.' ∧ c.isDigit = false := by
  rcases h with rfl | hblank
  · decide
  · have hchar := not_isWordChar_of_isBlank hblank
    refine ⟨hchar, ?_, ?_⟩
    · rintro rfl
      cases hblank
    · rw [Bool.eq_false_iff] at hchar ⊢
      intro hdigit
      exact hchar (by simp [isWordChar, Char.isAlphanum, hdigit])

namespace LocalDeclaration

variable {text : List Char} (d : LocalDeclaration text)

theorem before_first : ∀ c ∈ (d.before ++ (d.keyword ++ d.first.lead)).getLast?,
    c = ',' ∨ Text.isBlank c = true := by
  intro c hc
  rw [← List.append_assoc, List.getLast?_append_of_ne_nil _ d.parted] at hc
  exact .inr (d.first.blank c (List.mem_append_left _ (List.mem_of_getLast? hc)))

theorem before_other (front : List Char) (x : Declarator) :
    ∀ c ∈ (front ++ ',' :: x.lead).getLast?, c = ',' ∨ Text.isBlank c = true := by
  intro c hc
  rw [List.getLast?_append_of_ne_nil _ (List.cons_ne_nil _ _)] at hc
  rcases List.mem_cons.mp (List.mem_of_getLast? hc) with rfl | hlead
  · exact .inl rfl
  · exact .inr (x.blank c (List.mem_append_left _ hlead))

theorem eq_first : text = d.before ++ (d.keyword ++ d.first.lead) ++
    (d.first.name ++ (d.first.initial ++ (moreChars d.others ++ d.rest))) :=
  d.text_eq.trans (by simp [Declarator.chars])

/-- Where the first name stands. -/
def firstPlace : WordPlace text d.first.name where
  before := d.before ++ (d.keyword ++ d.first.lead)
  after := d.first.initial ++ (moreChars d.others ++ d.rest)
  text_eq := d.eq_first
  isWhole := d.first.isWord.isWholeWord (fun c hc => (parts_name (d.before_first c hc)).1)
    (d.first.lacks_initial _)

section Others

variable {earlier later : List Declarator} {x : Declarator} (h : d.others = earlier ++ x :: later)
include h

theorem eq_other : text = d.before ++ (d.keyword ++ (d.first.chars ++ moreChars earlier)) ++
    ',' :: x.lead ++ (x.name ++ (x.initial ++ (moreChars later ++ d.rest))) := by
  have htext := d.text_eq
  rw [h, moreChars_append_cons] at htext
  simpa using htext

/-- Where another name stands. -/
def otherPlace : WordPlace text x.name where
  before := d.before ++ (d.keyword ++ (d.first.chars ++ moreChars earlier)) ++ ',' :: x.lead
  after := x.initial ++ (moreChars later ++ d.rest)
  text_eq := d.eq_other h
  isWhole := x.isWord.isWholeWord (fun c hc => (parts_name (before_other _ x c hc)).1)
    (x.lacks_initial _)

end Others

/-- **The first name of a declaration is a local**: it comes next after the keyword. -/
theorem isLocal_firstPlace : d.firstPlace.IsLocal := by
  have hkeyword := isScriptWord_of_isKeyword d.isKeyword
  have hlead : ∀ c ∈ d.first.lead, Text.isBlank c = true :=
    fun c hc => d.first.blank c (List.mem_append_left _ hc)
  have hlacks : Lacks isWordChar (d.first.lead ++ d.first.name) := by
    obtain ⟨c, cs, hcons⟩ := List.exists_cons_of_ne_nil d.parted
    rw [hcons] at hlead ⊢
    exact lacks_cons.mpr (not_isWordChar_of_isBlank (hlead c List.mem_cons_self))
  let place : WordPlace (d.firstPlace.before ++ d.first.name) d.keyword :=
    ⟨d.before, d.first.lead ++ d.first.name, by simp [firstPlace],
      hkeyword, d.left, fun more rest heq hmore => hmore.eq_nil_of_lacks hlacks heq⟩
  let name : WordPlace (d.firstPlace.before ++ d.first.name) d.first.name :=
    ⟨d.firstPlace.before, [], by simp, d.first.isWord, d.firstPlace.isWhole.left,
      fun more rest heq _ => (List.append_eq_nil_iff.mp heq.symm).1⟩
  exact ⟨d.first.lead, d.keyword, place, name, d.isKeyword, rfl,
    fun c hc => not_isWordStart_of_isBlank (hlead c hc)⟩

end LocalDeclaration

namespace Qualifier

/-- **When the names of a declaration are left alone.**  The first one is, at its place in the
declaration and at every later place.  Each of the others is exactly if it is excluded, if it is a
local by then, or if it is no state name and assignments are not qualified. -/
theorem keeps_declared_iff (q : Qualifier) {text : List Char} (d : LocalDeclaration text) :
    (∀ spot : WordPlace text d.first.name, d.firstPlace.before <+: spot.before → q.Keeps spot) ∧
      ∀ earlier x later (h : d.others = earlier ++ x :: later),
        ((∀ spot : WordPlace text x.name, (d.otherPlace h).before <+: spot.before →
            q.Keeps spot) ↔
          String.ofList x.name ∈ q.excluded ∨ (d.otherPlace h).IsLocal ∨
            String.ofList x.name ∉ q.names ∧ q.assignments = false) := by
  constructor
  · have hparts : ∀ c ∈ d.firstPlace.before.getLast?, c ≠ '.' ∧ c.isDigit = false :=
      fun c hc => (parts_name (d.before_first c hc)).2
    exact (q.keeps_from_iff d.firstPlace hparts (d.first.exists_assigns _)).mpr
      (.inr (.inl d.isLocal_firstPlace))
  · intro earlier x later h
    have hparts : ∀ c ∈ (d.otherPlace h).before.getLast?, c ≠ '.' ∧ c.isDigit = false :=
      fun c hc => (parts_name (LocalDeclaration.before_other _ x c hc)).2
    exact q.keeps_from_iff (d.otherPlace h) hparts (x.exists_assigns _)

/-- A state name is declared first, and after it a name that is excluded. -/
theorem keeps_declared_pair :
    ∃ (d : LocalDeclaration "let a = 1, b = 2; b = a".toList) (x : Declarator)
      (h : d.others = [] ++ x :: []), d.first.name = "a".toList ∧ x.name = "b".toList ∧
      (∀ spot : WordPlace "let a = 1, b = 2; b = a".toList d.first.name,
        d.firstPlace.before <+: spot.before → (Qualifier.mk ["a"] ["b"] true).Keeps spot) ∧
      ∀ spot : WordPlace "let a = 1, b = 2; b = a".toList x.name,
        (d.otherPlace h).before <+: spot.before → (Qualifier.mk ["a"] ["b"] true).Keeps spot := by
  let a : Declarator := ⟨[' '], ['a'], [' '], [' '], ['1'], [], ⟨by decide, List.forall_mem_nil _⟩,
    by decide, List.all_eq_true.mp (by decide)⟩
  let b : Declarator := ⟨[' '], ['b'], [' '], [' '], ['2'], [], ⟨by decide, List.forall_mem_nil _⟩,
    by decide, List.all_eq_true.mp (by decide)⟩
  let d : LocalDeclaration "let a = 1, b = 2; b = a".toList :=
    ⟨[], "let".toList, a, [b], "; b = a".toList, by decide, List.cons_ne_nil _ _, by decide,
      fun front more heq _ => (List.append_eq_nil_iff.mp heq.symm).2⟩
  have hkeeps := keeps_declared_iff (Qualifier.mk ["a"] ["b"] true) d
  refine ⟨d, b, rfl, rfl, rfl, hkeeps.1, (hkeeps.2 [] b [] rfl).mpr (.inl ?_)⟩
  decide

/-- The second name of a declaration gets `state.` in front, in the declaration and after it. -/
theorem qualify_second_declarator :
    (Qualifier.mk [] [] true).qualify "let a = 1, b = 2; b = a" =
      "let a = 1, state.b = 2; state.b = a" := by
  decide +kernel

end Qualifier

end UiLang
