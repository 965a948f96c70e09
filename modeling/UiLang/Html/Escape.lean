/-!
# Escaping text for markup

The five characters with a meaning in markup are written as entities, everything else as it is.

## Main definitions

* `Html.special`: the five characters
* `Html.entity?`, `Html.escapeChar`, `Html.escapeChars`, `Html.escape`

## Main results

* `Html.escapeChars_append`: escaping goes character by character
* `Html.toList_escape`: a text that is handed back as it is has nothing to escape
-/

namespace UiLang.Html

/-- The characters with a meaning in markup. -/
def special : List Char :=
  ['&', '<', '>', '"', '\'']

/-- The entity of a character with a meaning in markup. -/
def entity? : Char → Option String
  | '&' => some "&amp;"
  | '<' => some "&lt;"
  | '>' => some "&gt;"
  | '"' => some "&quot;"
  | '\'' => some "&#039;"
  | _ => none

/-- A character as it stands in markup. -/
def escapeChar (c : Char) : List Char :=
  match entity? c with
  | some entity => entity.toList
  | none => [c]

/-- Characters as they stand in markup. -/
def escapeChars (cs : List Char) : List Char :=
  cs.flatMap escapeChar

/-- A text as it stands in markup.  One without special characters is handed back as it is. -/
def escape (s : String) : String :=
  if s.toList.any special.contains then String.ofList (escapeChars s.toList) else s

/-- Escaping goes character by character. -/
theorem escapeChars_append (cs ds : List Char) :
    escapeChars (cs ++ ds) = escapeChars cs ++ escapeChars ds :=
  List.flatMap_append

theorem escapeChar_of_notMem {c : Char} (h : c ∉ special) : escapeChar c = [c] := by
  have hnone : entity? c = none := by
    unfold entity?
    split
    iterate 5 exact absurd (by decide) h
    rfl
  rw [escapeChar, hnone]

theorem escapeChar_ne_nil (c : Char) : escapeChar c ≠ [] := by
  by_cases h : c ∈ special
  · simp only [special, List.mem_cons, List.not_mem_nil, or_false] at h
    rcases h with rfl | rfl | rfl | rfl | rfl <;> exact List.cons_ne_nil _ _
  · rw [escapeChar_of_notMem h]
    exact List.cons_ne_nil _ _

theorem escapeChars_of_notMem {cs : List Char} (h : ∀ c ∈ cs, c ∉ special) :
    escapeChars cs = cs := by
  induction cs with
  | nil => rfl
  | cons c cs ih =>
    obtain ⟨hc, hcs⟩ := List.forall_mem_cons.mp h
    rw [escapeChars, List.flatMap_cons, escapeChar_of_notMem hc]
    exact congrArg (c :: ·) (ih hcs)

/-- A text is written character by character, also where it is handed back as it is. -/
@[simp] theorem toList_escape (s : String) : (escape s).toList = escapeChars s.toList := by
  unfold escape
  split
  · exact String.toList_ofList
  · rename_i hnone
    refine (escapeChars_of_notMem fun c hc hspecial => hnone ?_).symm
    exact List.any_eq_true.mpr ⟨c, hc, List.contains_iff_mem.mpr hspecial⟩

end UiLang.Html
