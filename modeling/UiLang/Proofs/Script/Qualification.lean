import UiLang.Proofs.Script.Words

/-!
# Which names of a script text are qualified

Qualifying a text puts `state.` in front of some of its whole words, and writes one space between
such a word and the `=` of an assignment to it.  Nothing else changes.  Which words these are depends
on what stands before them: on the words that were declared, and on the last character.

## Main definitions

* `DeclaresNext`, `IsLocalAfter`: declarations among the words before a place
* `Assigns`: what follows a word that is assigned to
* `Qualifier.Prefixes`: the words that get `state.` in front
* `Qualifier.Rewrites`: how the words of a text are written, one after another

## Main results

* `assignment?_eq_some_iff`: assignments are found after white space
* `WordContext.Follows.next`: what is known of the words so far, one word at a time
* `Qualifier.rewrites_qualifyWords`: what is written for all words
* `Qualifier.qualify_rewrites`: qualified texts
-/

namespace UiLang

/-! ## Declarations and assignments -/

/-- The last of the words so far is `let`, `const` or `var`: it declares the next one. -/
def DeclaresNext (earlier : List ScriptWord) : Prop :=
  ∃ w ∈ earlier.getLast?, String.ofList w.word ∈ ["let", "const", "var"]

/-- The word was declared among the words so far. -/
def IsLocalAfter (earlier : List ScriptWord) (word : List Char) : Prop :=
  ∃ before declared later, earlier = before ++ declared :: later ∧ DeclaresNext before ∧
    declared.word = word

/-- What follows a word that is assigned to: white space, if any, and an `=` that is neither the
start of a comparison `==` nor of an arrow `=>`.  After the `=` comes `rest`. -/
def Assigns (after rest : List Char) : Prop :=
  ∃ blanks, after = blanks ++ '=' :: rest ∧ (∀ c ∈ blanks, Text.isBlank c = true) ∧
    rest.head? ≠ some '=' ∧ rest.head? ≠ some '>'

theorem not_declaresNext_nil : ¬ DeclaresNext [] := by
  rintro ⟨w, hw, -⟩
  cases hw

theorem declaresNext_append_singleton (earlier : List ScriptWord) (w : ScriptWord) :
    DeclaresNext (earlier ++ [w]) ↔ String.ofList w.word ∈ ["let", "const", "var"] := by
  simp [DeclaresNext]

theorem not_isLocalAfter_nil (word : List Char) : ¬ IsLocalAfter [] word := by
  rintro ⟨before, declared, later, h, -⟩
  simp at h

/-- A word more may be a local more. -/
theorem isLocalAfter_append_singleton (earlier : List ScriptWord) (w : ScriptWord)
    (word : List Char) :
    IsLocalAfter (earlier ++ [w]) word ↔
      IsLocalAfter earlier word ∨ DeclaresNext earlier ∧ w.word = word := by
  constructor
  · rintro ⟨before, declared, later, h, hdeclares, hword⟩
    rcases List.eq_nil_or_concat later with rfl | ⟨later, last, rfl⟩
    · obtain ⟨rfl, hlast⟩ := List.append_inj' h rfl
      obtain rfl := List.singleton_inj.mp hlast
      exact .inr ⟨hdeclares, hword⟩
    · rw [List.concat_eq_append, ← List.cons_append, ← List.append_assoc] at h
      obtain ⟨rfl, -⟩ := List.append_inj' h rfl
      exact .inl ⟨before, declared, later, rfl, hdeclares, hword⟩
  · rintro (⟨before, declared, later, rfl, hdeclares, hword⟩ | ⟨hdeclares, hword⟩)
    · exact ⟨before, declared, later ++ [w], by simp, hdeclares, hword⟩
    · exact ⟨earlier, w, [], rfl, hdeclares, hword⟩

/-- Assignments are found after white space. -/
theorem assignment?_eq_some_iff {gap rest : List Char} :
    assignment? gap = some rest ↔ Assigns gap rest := by
  unfold assignment? Text.dropBlanks
  constructor
  · intro h
    refine ⟨gap.takeWhile Text.isBlank, ?_, fun c hc => List.mem_takeWhile_imp hc, ?_⟩
    · split at h
      · cases h
      · cases h
      · rename_i heq
        cases h
        rw [← heq, List.takeWhile_append_dropWhile]
      · cases h
    · split at h
      · cases h
      · cases h
      · rename_i hequal harrow _
        cases h
        constructor
        · intro hhead
          obtain ⟨more, rfl⟩ := List.head?_eq_some_iff.mp hhead
          exact hequal more rfl
        · intro hhead
          obtain ⟨more, rfl⟩ := List.head?_eq_some_iff.mp hhead
          exact harrow more rfl
      · cases h
  · rintro ⟨blanks, rfl, hblanks, hequal, harrow⟩
    rw [dropWhile_append_of_lacks hblanks (lacks_cons.mpr (by decide))]
    split
    · simp_all
    · simp_all
    · simp_all
    · simp_all

/-! ## Qualified words -/

namespace Qualifier

/-- The word `w`, in front of which the text `front` stands with the words `earlier` in it, gets
`state.` in front. -/
structure Prefixes (q : Qualifier) (front : List Char) (earlier : List ScriptWord)
    (w : ScriptWord) : Prop where
  not_excluded : String.ofList w.word ∉ q.excluded
  not_declared : ¬ DeclaresNext earlier
  not_local : ¬ IsLocalAfter earlier w.word
  not_member : ∀ c ∈ front.getLast?, c ≠ '.' ∧ c.isDigit = false
  known : String.ofList w.word ∈ q.names ∨ q.assignments = true ∧ ∃ rest, Assigns w.gap rest

/-- How the words of a text are written after the words `earlier`; `gap` is what stands before all
of them.  A word is kept with the gap after it, or it gets `state.` in front; then the white space
before the `=` of an assignment becomes one space, and any other gap is kept. -/
inductive Rewrites (q : Qualifier) (gap : List Char) :
    List ScriptWord → List ScriptWord → List Char → Prop
  | done {earlier : List ScriptWord} : Rewrites q gap earlier [] []
  | kept {earlier later : List ScriptWord} {w : ScriptWord} {out : List Char}
      (plain : ¬ q.Prefixes (gap ++ wordsText earlier) earlier w)
      (rest : Rewrites q gap (earlier ++ [w]) later out) :
      Rewrites q gap earlier (w :: later) (w.word ++ w.gap ++ out)
  | read {earlier later : List ScriptWord} {w : ScriptWord} {out : List Char}
      (qualified : q.Prefixes (gap ++ wordsText earlier) earlier w)
      (unassigned : ∀ value, ¬ Assigns w.gap value)
      (rest : Rewrites q gap (earlier ++ [w]) later out) :
      Rewrites q gap earlier (w :: later) ("state.".toList ++ w.word ++ w.gap ++ out)
  | assigned {earlier later : List ScriptWord} {w : ScriptWord} {value out : List Char}
      (qualified : q.Prefixes (gap ++ wordsText earlier) earlier w)
      (assigns : Assigns w.gap value)
      (rest : Rewrites q gap (earlier ++ [w]) later out) :
      Rewrites q gap earlier (w :: later)
        ("state.".toList ++ w.word ++ " =".toList ++ value ++ out)

end Qualifier

/-! ## What is known before a word -/

/-- What is known of the words so far is what they say. -/
structure WordContext.Follows (context : WordContext) (earlier : List ScriptWord) : Prop where
  declares : context.declares = true ↔ DeclaresNext earlier
  locals : ∀ word, String.ofList word ∈ context.locals ↔ IsLocalAfter earlier word

namespace WordContext

theorem follows_nil (before : Option Char) : Follows { before } [] where
  declares := iff_of_false (by simp [WordContext.declares]) not_declaresNext_nil
  locals word := iff_of_false (by simp) (not_isLocalAfter_nil word)

/-- **One word more**: it may declare the next one, and it may be a local from now on. -/
theorem Follows.next {context : WordContext} {earlier : List ScriptWord}
    (h : context.Follows earlier) (w : ScriptWord) :
    (context.next w).Follows (earlier ++ [w]) where
  declares := by
    rw [declaresNext_append_singleton]
    simp [WordContext.declares, WordContext.next, or_assoc]
  locals := by
    intro word
    rw [isLocalAfter_append_singleton, ← h.locals, ← h.declares]
    unfold WordContext.next
    dsimp only
    split
    · rename_i hdeclares
      rw [List.mem_cons, String.ofList_inj, hdeclares, eq_comm, or_comm]
      simp
    · rename_i hdeclares
      simp [hdeclares]

end WordContext

/-! ## Qualified texts -/

namespace Qualifier

variable (q : Qualifier)

/-- A word is qualified exactly if what is known before it and what follows it say so. -/
theorem qualifies_iff {context : WordContext} {front : List Char} {earlier : List ScriptWord}
    (h : context.Follows earlier) (hfront : context.before = front.getLast?) (w : ScriptWord) :
    q.qualifies context w = true ↔ q.Prefixes front earlier w := by
  have hassigned : (assignment? w.gap).isSome = true ↔ ∃ rest, Assigns w.gap rest := by
    rw [Option.isSome_iff_exists]
    exact exists_congr fun rest => assignment?_eq_some_iff
  have hmember : context.isMember = false ↔ ∀ c ∈ front.getLast?, c ≠ '.' ∧ c.isDigit = false := by
    unfold WordContext.isMember
    rw [hfront]
    cases front.getLast? <;> simp
  unfold qualifies
  simp only [Bool.and_eq_true, Bool.or_eq_true, Bool.not_eq_true', List.contains_eq_mem,
    decide_eq_true_eq, decide_eq_false_iff_not, hassigned, hmember, h.locals]
  rw [← Bool.not_eq_true, h.declares]
  constructor
  · rintro ⟨⟨⟨⟨hdeclared, hexcluded⟩, hlocal⟩, hmember⟩, hknown⟩
    exact ⟨hexcluded, hdeclared, hlocal, hmember, hknown⟩
  · rintro ⟨hexcluded, hdeclared, hlocal, hmember, hknown⟩
    exact ⟨⟨⟨⟨hdeclared, hexcluded⟩, hlocal⟩, hmember⟩, hknown⟩

/-- **What is written for all words.**  The induction is on the cut.  The character before a word is
the last one of the gap before it, which is not empty between two words. -/
theorem rewrites_qualifyWords {text gap : List Char} {words earlier : List ScriptWord}
    {context : WordContext} (hcut : CutFrom text words) (h : context.Follows earlier)
    (hfront : words ≠ [] → context.before = (gap ++ wordsText earlier).getLast?) :
    q.Rewrites gap earlier words (q.qualifyWords context words) := by
  induction hcut generalizing earlier context with
  | nil => exact .done
  | @cons word between text words isWord ends wordless rest ih =>
    have hnext : words ≠ [] → (context.next ⟨word, between⟩).before =
        (gap ++ wordsText (earlier ++ [⟨word, between⟩])).getLast? := by
      intro hwords
      obtain ⟨hbetween, -⟩ := rest.gap_parts hwords ends
      rw [wordsText_append, wordsText_cons, wordsText_nil, List.append_nil, ← List.append_assoc,
        ← List.append_assoc, List.getLast?_append_of_ne_nil _ hbetween]
      rfl
    have hlater := ih (h.next ⟨word, between⟩) hnext
    have hqualifies := q.qualifies_iff h (hfront (by simp)) ⟨word, between⟩
    rw [qualifyWords, qualifyWord]
    by_cases hq : q.qualifies context ⟨word, between⟩ = true
    · rw [if_pos hq]
      cases hassign : assignment? between with
      | none =>
        refine .read (hqualifies.mp hq) ?_ hlater
        intro value hvalue
        rw [assignment?_eq_some_iff.mpr hvalue] at hassign
        cases hassign
      | some value =>
        have hwritten := Rewrites.assigned (hqualifies.mp hq) (assignment?_eq_some_iff.mp hassign)
          hlater
        simpa only [List.append_assoc] using hwritten
    · rw [if_neg hq]
      exact .kept (fun hprefixes => hq (hqualifies.mpr hprefixes)) hlater

/-- **Qualifying a text loses nothing and respects its scopes.**  A text is cut into its whole words,
and the qualified text is written from them: the words that `Prefixes` tells get `state.` in front,
the white space before the `=` of an assignment to one of them becomes one space, and every other
character is kept in its place. -/
theorem qualify_rewrites (body : String) :
    ∃ gap words out, IsCut body.toList gap words ∧ q.Rewrites gap [] words out ∧
      (q.qualify body).toList = gap ++ out := by
  refine ⟨(splitWords body.toList).1, (splitWords body.toList).2, _, isCut_splitWords _, ?_,
    String.toList_ofList⟩
  refine q.rewrites_qualifyWords (cutFrom_splitWords body.toList) (WordContext.follows_nil _)
    fun _ => ?_
  rw [wordsText_nil, List.append_nil]
  rfl

end Qualifier

end UiLang
