import UiLang.Proofs.Script.Pieces

/-!
# Qualifying a text twice

The words of a qualified text are the words of the text, with a word `state` more in front of each one
that is qualified.  A second pass meets the same words again and knows the same about each of them:
the word `state` declares nothing and is assigned nothing, and the word after its point is a member.
So the second pass changes nothing.

## Main definitions

* `Qualifier.wordsFor`, `Qualifier.wordsWritten`: the words of a qualified text

## Main results

* `Qualifier.cutFrom_wordsWritten`: they are the words that a second pass finds
* `Qualifier.after_wordsFor`: what is known after them is what was known the first time
* `Qualifier.qualify_qualify`: a second pass changes nothing
-/

namespace UiLang

/-! ## Gaps after qualified words -/

section Gaps

variable {gap : List Char}

theorem spaced_eq_or (gap : List Char) :
    spaced gap = gap ∨ ∃ value, Assigns gap value ∧ spaced gap = ' ' :: '=' :: value := by
  cases h : assignment? gap with
  | none =>
    left
    rw [spaced, h]
  | some value =>
    right
    refine ⟨value, assignment?_eq_some_iff.mp h, ?_⟩
    rw [spaced, h]
    rfl

theorem getLast?_spaced (gap : List Char) : (spaced gap).getLast? = gap.getLast? := by
  rcases spaced_eq_or gap with h | ⟨value, ⟨blanks, rfl, -⟩, h⟩
  · rw [h]
  · rw [h, List.getLast?_append_of_ne_nil _ (List.cons_ne_nil _ _), List.getLast?_cons_cons]

theorem wordless_spaced (hgap : ∀ c ∈ gap, isWordStart c = false) :
    ∀ c ∈ spaced gap, isWordStart c = false := by
  rcases spaced_eq_or gap with h | ⟨value, ⟨blanks, rfl, -⟩, h⟩
  · rwa [h]
  · rw [h]
    intro c hc
    rcases List.mem_cons.mp hc with rfl | hc
    · rfl
    · exact hgap c (List.mem_append_right blanks hc)

/-- A word ends before its gap as it did before the gap was changed. -/
theorem lacks_spaced_append {text text' : List Char} (h : Lacks isWordChar (gap ++ text))
    (hnil : gap = [] → text' = []) : Lacks isWordChar (spaced gap ++ text') := by
  rcases spaced_eq_or gap with heq | ⟨value, -, heq⟩
  · rw [heq]
    cases gap with
    | nil =>
      rw [hnil rfl]
      exact lacks_nil _
    | cons c gap => exact lacks_cons.mpr (lacks_cons.mp h)
  · rw [heq]
    exact lacks_cons.mpr rfl

end Gaps

/-! ## The words of a qualified text -/

/-- The word `state`, with the point after it. -/
def stateWord : ScriptWord :=
  ⟨"state".toList, ['.']⟩

namespace Qualifier

/-- The words that are written for one word. -/
def wordsFor (q : Qualifier) (context : WordContext) (w : ScriptWord) : List ScriptWord :=
  if q.qualifies context w then [stateWord, ⟨w.word, spaced w.gap⟩] else [w]

/-- The words that are written for some words. -/
def wordsWritten (q : Qualifier) (context : WordContext) : List ScriptWord → List ScriptWord
  | [] => []
  | w :: words => q.wordsFor context w ++ q.wordsWritten (context.next w) words

variable (q : Qualifier)

/-- **The words of a qualified text are whole again.**  One more word of the cut is written as itself,
or as the word `state` and itself, and the gap after it stays a gap. -/
theorem cutFrom_wordsWritten {text : List Char} {words : List ScriptWord} (h : CutFrom text words)
    (context : WordContext) :
    CutFrom (q.qualifyWords context words) (q.wordsWritten context words) := by
  induction h generalizing context with
  | nil => exact .nil
  | @cons word gap text words isWord ends wordless rest ih =>
    have hrest := ih (context.next ⟨word, gap⟩)
    -- only the last word has an empty gap behind it
    have hnil : gap = [] → q.qualifyWords (context.next ⟨word, gap⟩) words = [] := by
      intro hgap
      have hwords : words = [] := by
        by_contra hne
        exact (rest.gap_parts hne ends).1 hgap
      rw [hwords]
      rfl
    rw [qualifyWords, wordsWritten, wordsFor]
    split
    · rename_i hq
      rw [q.qualifyWord_of_qualifies hq]
      have hword := CutFrom.cons isWord (lacks_spaced_append ends hnil) (wordless_spaced wordless)
        hrest
      -- in front of the word come the word `state` and a point, which is a gap
      have hstate : IsScriptWord "state".toList := ⟨by decide, List.all_eq_true.mp (by decide)⟩
      have hpoint : ∀ c ∈ ['.'], isWordStart c = false := by simp [isWordStart]
      have hboth := CutFrom.cons hstate (lacks_cons.mpr (by decide)) hpoint hword
      simpa [stateWord] using hboth
    · rename_i hq
      rw [q.qualifyWord_of_not_qualifies hq, List.append_assoc]
      refine .cons isWord ?_ wordless hrest
      cases gap with
      | nil =>
        rw [hnil rfl]
        exact lacks_nil _
      | cons c gap => exact lacks_cons.mpr (lacks_cons.mp ends)

/-! ## The second pass -/

theorem not_declares_of_qualifies {context : WordContext} {w : ScriptWord}
    (h : q.qualifies context w = true) : context.declares = false := by
  simp only [qualifies, Bool.and_eq_true, Bool.not_eq_true'] at h
  exact h.1.1.1.1

/-- What is known after the word `state`, if it is not declared. -/
theorem next_stateWord {context : WordContext} (h : context.declares = false) :
    context.next stateWord = ⟨some "state", context.locals, some '.'⟩ := by
  simp [WordContext.next, h, stateWord]

/-- **What is known after a word is what was known the first time**: the word `state` is not declared
and declares nothing, and the gap after the word ends as before. -/
theorem after_wordsFor (context : WordContext) (w : ScriptWord) :
    context.after (q.wordsFor context w) = context.next w := by
  rw [wordsFor]
  split
  · rename_i hq
    have hdeclares := q.not_declares_of_qualifies hq
    have hlater : WordContext.declares ⟨some "state", context.locals, some '.'⟩ = false := by
      simp [WordContext.declares]
    show (context.next stateWord).next ⟨w.word, spaced w.gap⟩ = context.next w
    rw [next_stateWord hdeclares]
    simp only [WordContext.next, hdeclares, hlater, getLast?_spaced]
  · rfl

section Again

variable (hstate : "state" ∉ q.names)
include hstate

/-- The word `state` before a point is no state name, and nothing is assigned to it. -/
theorem not_qualifies_stateWord (context : WordContext) :
    ¬ q.qualifies context stateWord = true := by
  have hpoint : assignment? stateWord.gap = none := by decide
  have hname : String.ofList stateWord.word = "state" := by simp [stateWord]
  simp [qualifies, hpoint, hname, hstate]

/-- One word is not qualified again: where `state` stands in front of it, it is a member. -/
theorem qualifyWords_wordsFor (context : WordContext) (w : ScriptWord) :
    q.qualifyWords context (q.wordsFor context w) = q.qualifyWord context w := by
  rw [wordsFor]
  split
  · rename_i hq
    have hmember : ¬ q.qualifies (context.next stateWord) ⟨w.word, spaced w.gap⟩ = true := by
      rw [next_stateWord (q.not_declares_of_qualifies hq)]
      simp [qualifies, WordContext.isMember]
    rw [qualifyWords, qualifyWords, qualifyWords,
      q.qualifyWord_of_not_qualifies (q.not_qualifies_stateWord hstate context),
      q.qualifyWord_of_not_qualifies hmember, q.qualifyWord_of_qualifies hq]
    simp [stateWord]
  · rw [qualifyWords, qualifyWords, List.append_nil]

/-- **A second pass writes the same.** -/
theorem qualifyWords_wordsWritten (context : WordContext) (words : List ScriptWord) :
    q.qualifyWords context (q.wordsWritten context words) = q.qualifyWords context words := by
  induction words generalizing context with
  | nil => rfl
  | cons w words ih =>
    rw [wordsWritten, qualifyWords_append, q.qualifyWords_wordsFor hstate, q.after_wordsFor, ih,
      qualifyWords]

end Again

/-- **Qualifying a text twice is qualifying it once**, as long as `state` itself is no state name.
The text before the first word stays, so the second pass starts as the first one did. -/
theorem qualify_qualify (body : String) (hstate : "state" ∉ q.names) :
    q.qualify (q.qualify body) = q.qualify body := by
  have hstart : ∀ c ∈ (splitWords body.toList).1, isWordStart c = false :=
    fun c hc => isWordStart_of_mem_takeWhile hc
  have hcut := cutFrom_splitWords body.toList
  have hagain := q.qualified_of_cut hstart
    (q.cutFrom_wordsWritten hcut { before := (splitWords body.toList).1.getLast? })
  have hbody : (q.qualify body).toList = (splitWords body.toList).1 ++
      q.qualifyWords { before := (splitWords body.toList).1.getLast? } (splitWords body.toList).2 :=
    String.toList_ofList
  rw [q.qualifyWords_wordsWritten hstate, ← hbody, qualified, String.ofList_toList] at hagain
  exact String.toList_injective hagain

/-- A declared local, a parameter, a member and an assignment with white space before its `=`. -/
theorem qualify_qualify_of_assignment :
    "state" ∉ (Qualifier.mk ["count"] ["step"] true).names ∧
      (Qualifier.mk ["count"] ["step"] true).qualify
          "let a = 1; total   = count + a.count + step" =
        "let a = 1; state.total = state.count + a.count + step" ∧
      (Qualifier.mk ["count"] ["step"] true).qualify ((Qualifier.mk ["count"] ["step"] true).qualify
          "let a = 1; total   = count + a.count + step") =
        (Qualifier.mk ["count"] ["step"] true).qualify
          "let a = 1; total   = count + a.count + step" :=
  ⟨by decide, by decide +kernel, qualify_qualify _ _ (by decide)⟩

end Qualifier

end UiLang
