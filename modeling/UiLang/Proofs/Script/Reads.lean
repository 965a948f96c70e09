import UiLang.Proofs.Script.Pieces

/-!
# Reads of state names

A state name is read wherever it stands as a whole word that is no member and no local.  Two kinds of
reads are missed.  The point right before a word is taken for the point of a member, although it may
be the last one of the three points of a spread.  And a word next to `let`, `const` or `var` is taken
for a local, although more than white space may stand between the two, as in `row.let + name`.

## Main definitions

* `DeclaresName`: names that a text declares
* `WordPlace.IsMember`, `WordPlace.IsSpread`, `WordPlace.FollowsDigit`: what stands before a word
* `WordPlace.IsMistaken`: words that are taken for locals

## Main results

* `WordPlace.extend`: a place in the front of a text is a place in the text
* `Qualifier.putsState_iff_of_read`: the reads that are qualified
-/

namespace UiLang

/-- The text declares `name`: only white space stands between `let`, `const` or `var` and it. -/
def DeclaresName (text name : List Char) : Prop :=
  ∃ blanks, NextToKeyword text name blanks ∧ ∀ c ∈ blanks, Text.isBlank c = true

namespace WordPlace

variable {text word : List Char}

/-- The three points of a spread stand right before the word. -/
def IsSpread (place : WordPlace text word) : Prop :=
  "...".toList <:+ place.before

/-- The point of an accessor `.` or `?.` stands right before the word. -/
def IsMember (place : WordPlace text word) : Prop :=
  ".".toList <:+ place.before ∧ ¬ place.IsSpread

/-- A digit stands right before the word. -/
def FollowsDigit (place : WordPlace text word) : Prop :=
  ∃ c ∈ place.before.getLast?, c.isDigit = true

/-- Up to a place, its word has come next after `let`, `const` or `var`, with more than white space
between the two. -/
def IsMistaken (place : WordPlace text word) : Prop :=
  ∃ between, NextToKeyword (place.before ++ word) word between ∧
    ∃ c ∈ between, Text.isBlank c = false

/-! ## Places in the front of a text -/

/-- A whole word in the front of a text is whole in the text, if the front ends where a word does. -/
theorem isWhole_extend (place : WordPlace text word) {first : List Char}
    (p : WordPlace (place.before ++ word) first) :
    IsWholeWord p.before first (p.after ++ place.after) := by
  refine ⟨p.isWhole.isWord, p.isWhole.left, ?_⟩
  intro more rest heq hmore
  have hchars : ∀ c ∈ more, isWordChar c = true :=
    fun c hc => hmore.isWordChar c (List.mem_append_right first hc)
  cases hafter : p.after with
  | nil =>
    -- the word ends the front, as the word of the place does
    rw [hafter, List.nil_append] at heq
    exact place.isWhole.right more rest heq (place.isWhole.isWord.append hchars)
  | cons c after =>
    cases more with
    | nil => rfl
    | cons d more =>
      rw [hafter] at heq
      obtain rfl : c = d := (List.cons.inj heq).1
      have hone : IsScriptWord (first ++ [c]) :=
        p.isWhole.isWord.append (by simpa using hchars c List.mem_cons_self)
      exact absurd (p.isWhole.right [c] after hafter hone) (List.cons_ne_nil _ _)

theorem eq_extend (place : WordPlace text word) {first : List Char}
    (p : WordPlace (place.before ++ word) first) :
    text = p.before ++ (first ++ (p.after ++ place.after)) := by
  calc
    text = place.before ++ word ++ place.after := by
      rw [List.append_assoc]
      exact place.text_eq
    _ = p.before ++ (first ++ p.after) ++ place.after := congrArg (· ++ place.after) p.text_eq
    _ = p.before ++ (first ++ (p.after ++ place.after)) := by simp

/-- A place in the front of a text, as a place in the text. -/
def extend (place : WordPlace text word) {first : List Char}
    (p : WordPlace (place.before ++ word) first) : WordPlace text first where
  before := p.before
  after := p.after ++ place.after
  text_eq := place.eq_extend p
  isWhole := place.isWhole_extend p

theorem nextToKeyword_extend (place : WordPlace text word) {name between : List Char}
    (h : NextToKeyword (place.before ++ word) name between) : NextToKeyword text name between := by
  obtain ⟨keyword, at₁, at₂, hmem, hbefore, hbetween⟩ := h
  exact ⟨keyword, place.extend at₁, place.extend at₂, hmem, hbefore, hbetween⟩

/-- A word that the text does not declare is a local by mistake only. -/
theorem isLocal_iff_isMistaken (place : WordPlace text word) (h : ¬ DeclaresName text word) :
    place.IsLocal ↔ place.IsMistaken := by
  constructor
  · rintro ⟨between, hnext⟩
    refine ⟨between, hnext, ?_⟩
    by_contra hblank
    refine h ⟨between, place.nextToKeyword_extend hnext, fun c hc => ?_⟩
    by_contra hc'
    exact hblank ⟨c, hc, by simpa using hc'⟩
  · rintro ⟨between, hnext, -⟩
    exact ⟨between, hnext⟩

/-- Apart from members and words after digits, only a spread looks like a member. -/
theorem follows_iff (place : WordPlace text word) (hmember : ¬ place.IsMember)
    (hdigit : ¬ place.FollowsDigit) :
    (∀ c ∈ place.before.getLast?, c ≠ '.' ∧ c.isDigit = false) ↔ ¬ place.IsSpread := by
  constructor
  · rintro h ⟨front, hspread⟩
    have hpoint := (h '.' (by simp [← hspread])).1
    exact hpoint rfl
  · intro hspread c hc
    constructor
    · rintro rfl
      obtain ⟨front, hbefore⟩ := List.getLast?_eq_some_iff.mp hc
      exact hmember ⟨⟨front, hbefore.symm⟩, hspread⟩
    · rw [Bool.eq_false_iff]
      intro hc'
      exact hdigit ⟨c, hc, hc'⟩

end WordPlace

namespace Qualifier

/-- **The reads that are qualified.**  A state name that is neither excluded nor declared is written
with `state.` in front wherever it is no member and follows no digit, if and only if it is not spread
and not taken for a local. -/
theorem putsState_iff_of_read (q : Qualifier) {body name : String} (hname : name ∈ q.names)
    (hexcluded : name ∉ q.excluded) (hdeclared : ¬ DeclaresName body.toList name.toList)
    (place : WordPlace body.toList name.toList) (hmember : ¬ place.IsMember)
    (hdigit : ¬ place.FollowsDigit) :
    q.PutsState place ↔ ¬ place.IsSpread ∧ ¬ place.IsMistaken := by
  rw [q.putsState_iff, place.follows_iff hmember hdigit, place.isLocal_iff_isMistaken hdeclared,
    String.ofList_toList]
  constructor
  · rintro ⟨-, hmistaken, hspread, -⟩
    exact ⟨hspread, hmistaken⟩
  · rintro ⟨hspread, hmistaken⟩
    exact ⟨hexcluded, hmistaken, hspread, .inl hname⟩

/-- A member of that name does not hide the state name after it. -/
theorem putsState_after_member :
    "items" ∈ (Qualifier.mk ["items"] ["row"] false).names ∧
      "items" ∉ (Qualifier.mk ["items"] ["row"] false).excluded ∧
      ∃ place : WordPlace "row.items + items".toList "items".toList,
        place.before = "row.items + ".toList ∧
          (Qualifier.mk ["items"] ["row"] false).PutsState place := by
  obtain ⟨place, hbefore⟩ : ∃ place : WordPlace "row.items + items".toList "items".toList,
      place.before = "row.items + ".toList :=
    ⟨.ofSplit (show _ = [⟨"row".toList, ".".toList⟩, ⟨"items".toList, " + ".toList⟩] ++
      ⟨"items".toList, []⟩ :: [] by decide +kernel), by decide +kernel⟩
  have hdeclared : ¬ DeclaresName "row.items + items".toList "items".toList := by
    rintro ⟨blanks, hnext, -⟩
    exact absurd ((mem_locals_iff_nextToKeyword _ _).mpr ⟨blanks, hnext⟩) (by decide +kernel)
  refine ⟨by decide, by decide, place, hbefore, ?_⟩
  refine (putsState_iff_of_read _ (by decide) (by decide) hdeclared place ?_ ?_).mpr ⟨?_, ?_⟩
  · rintro ⟨hpoint, -⟩
    rw [hbefore] at hpoint
    exact absurd hpoint (by decide)
  · rintro ⟨c, hc, hdigit⟩
    rw [hbefore] at hc
    obtain rfl : ' ' = c := by simpa using hc
    cases hdigit
  · rw [WordPlace.IsSpread, hbefore]
    decide
  · rintro ⟨between, hnext, -⟩
    rw [hbefore] at hnext
    exact absurd ((mem_locals_iff_nextToKeyword _ _).mpr ⟨between, hnext⟩) (by decide +kernel)

/-- A spread name is left as it is, and so is a name next to a member `let`. -/
theorem qualify_missed_reads :
    (Qualifier.mk ["items"] [] false).qualify "items = [...items, 1]" =
        "state.items = [...items, 1]" ∧
      (Qualifier.mk ["items"] [] false).qualify "row.let + items" = "row.let + items" := by
  decide +kernel

end Qualifier

end UiLang
