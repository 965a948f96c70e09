import UiLang.Proofs.Markup.Pieces

/-!
# Entities and what they stand for

Escaping loses nothing.  A reader of markup replaces entities by their characters, from left to
right, and what it puts in is not read again: `&amp;lt;` is read as `&lt;` and not as `<`.  Every
`&` of an escaped text starts an entity and no entity holds a second one, so there is one way only
to read an escaped text, also where the text before escaping looked like entities itself.

## Main definitions

* `Markup.IsInert`: text that starts and ends nothing in markup
* `Html.unescapeChars`, `Html.unescape`: entities replaced by their characters

## Main results

* `Html.unescape_escape`: what was escaped is read back
* `Html.escape_unescape_iff`: the inert texts are those that are written as they were read
* `Html.escape_faithful`: escaping is faithful
-/

namespace UiLang

namespace Markup

/-! ## Inert text -/

/-- Text that starts and ends nothing in markup: no character of tags and quotes stands in it, and
every `&` in it starts an entity. -/
structure IsInert (cs : List Char) : Prop where
  notMem : ∀ c ∈ ['<', '>', '"', '\''], c ∉ cs
  entity : ∀ rest, '&' :: rest <:+ cs → ∃ entity ∈ entities, entity <+: '&' :: rest

theorem exists_entity_of_isEscaped {cs rest : List Char} (h : isEscaped cs = true)
    (hrest : '&' :: rest <:+ cs) : ∃ entity ∈ entities, entity <+: '&' :: rest := by
  induction cs with
  | nil => exact absurd (List.suffix_nil.mp hrest) (List.cons_ne_nil _ _)
  | cons c cs ih =>
    rw [isEscaped, Bool.and_eq_true] at h
    rcases List.suffix_cons_iff.mp hrest with heq | hlater
    · obtain ⟨rfl, rfl⟩ := List.cons.inj heq
      rw [if_pos rfl] at h
      obtain ⟨entity, hentity, hstart⟩ := List.any_eq_true.mp h.1
      exact ⟨entity, hentity, List.isPrefixOf_iff_prefix.mp hstart⟩
    · exact ih h.2 hlater

theorem isInert_escapeChars (cs : List Char) : IsInert (Html.escapeChars cs) where
  notMem _ hc := not_mem_of_isEscaped (isEscaped_escapeChars cs) hc
  entity _ hrest := exists_entity_of_isEscaped (isEscaped_escapeChars cs) hrest

theorem IsInert.of_suffix {cs rest : List Char} (h : IsInert cs) (hrest : rest <:+ cs) :
    IsInert rest where
  notMem c hc hmem := h.notMem c hc (hrest.subset hmem)
  entity after hafter := h.entity after (hafter.trans hrest)

/-- The entities are what the special characters are written as. -/
theorem entities_eq_map : entities = Html.special.map Html.escapeChar := by
  decide

/-- What stands in front of an inert text is a character as it is written. -/
theorem IsInert.exists_cons {c : Char} {cs : List Char} (h : IsInert (c :: cs)) :
    ∃ d rest, c :: cs = Html.escapeChar d ++ rest ∧ IsInert rest := by
  by_cases hc : c = '&'
  · subst hc
    obtain ⟨entity, hentity, rest, hrest⟩ := h.entity cs List.suffix_rfl
    rw [entities_eq_map, List.mem_map] at hentity
    obtain ⟨d, -, rfl⟩ := hentity
    exact ⟨d, rest, hrest.symm, h.of_suffix ⟨_, hrest⟩⟩
  · have hplain : c ∉ Html.special := by
      intro hspecial
      rcases List.mem_cons.mp hspecial with hamp | hother
      · exact hc hamp
      · exact h.notMem c hother List.mem_cons_self
    exact ⟨c, cs, by rw [Html.escapeChar_of_notMem hplain, List.singleton_append],
      h.of_suffix (List.suffix_cons c cs)⟩

/-- Inert text is some text as it is written. -/
theorem IsInert.exists_eq_escapeChars {cs : List Char} (h : IsInert cs) :
    ∃ ds, cs = Html.escapeChars ds := by
  -- an entity is taken off in one step, so the induction is on the length
  induction hlength : cs.length using Nat.strong_induction_on generalizing cs with
  | _ n ih =>
    cases cs with
    | nil => exact ⟨[], rfl⟩
    | cons c cs =>
      obtain ⟨d, rest, heq, hrest⟩ := h.exists_cons
      have hpos := List.length_pos_of_ne_nil (Html.escapeChar_ne_nil d)
      have hshorter : rest.length < n := by
        rw [← hlength, heq, List.length_append]
        omega
      obtain ⟨ds, rfl⟩ := ih rest.length hshorter hrest rfl
      exact ⟨d :: ds, heq⟩

end Markup

namespace Html

open Markup

/-! ## Reading entities -/

/-- Characters with their entities replaced, from left to right.  An `&` that starts no entity is
left as it is. -/
def unescapeChars : List Char → List Char
  | '&' :: 'a' :: 'm' :: 'p' :: ';' :: cs => '&' :: unescapeChars cs
  | '&' :: 'l' :: 't' :: ';' :: cs => '<' :: unescapeChars cs
  | '&' :: 'g' :: 't' :: ';' :: cs => '>' :: unescapeChars cs
  | '&' :: 'q' :: 'u' :: 'o' :: 't' :: ';' :: cs => '"' :: unescapeChars cs
  | '&' :: '#' :: '0' :: '3' :: '9' :: ';' :: cs => '\'' :: unescapeChars cs
  | c :: cs => c :: unescapeChars cs
  | [] => []

/-- A text with its entities replaced. -/
def unescape (s : String) : String :=
  String.ofList (unescapeChars s.toList)

theorem unescapeChars_cons {c : Char} (h : c ≠ '&') (cs : List Char) :
    unescapeChars (c :: cs) = c :: unescapeChars cs := by
  rw [unescapeChars]
  all_goals
    intros
    contradiction

/-- A character that was escaped is read first, and what follows is read as if nothing stood in
front of it. -/
theorem unescapeChars_escapeChar_append (c : Char) (cs : List Char) :
    unescapeChars (escapeChar c ++ cs) = c :: unescapeChars cs := by
  by_cases h : c ∈ special
  · simp only [special, List.mem_cons, List.not_mem_nil, or_false] at h
    rcases h with rfl | rfl | rfl | rfl | rfl <;> exact unescapeChars.eq_def _
  · rw [escapeChar_of_notMem h]
    refine unescapeChars_cons (fun hc => h ?_) cs
    rw [hc]
    decide

theorem unescapeChars_escapeChars (cs : List Char) : unescapeChars (escapeChars cs) = cs := by
  induction cs with
  | nil => rfl
  | cons c cs ih =>
    rw [escapeChars, List.flatMap_cons, unescapeChars_escapeChar_append]
    exact congrArg (c :: ·) ih

/-- **What was escaped is read back**, whatever the text looked like. -/
theorem unescape_escape (s : String) : unescape (escape s) = s := by
  rw [unescape, toList_escape, unescapeChars_escapeChars, String.ofList_toList]

-- What an entity stands for is not read again, and an `&` alone stands for itself.
example : unescape "&amp;lt; &lt &" = "&lt; &lt &" := by
  decide

/-! ## Writing texts -/

/-- Escaping a text is escaping its characters, one after another. -/
theorem escape_eq (s : String) : escape s = String.ofList (escapeChars s.toList) := by
  rw [← toList_escape, String.ofList_toList]

theorem escape_append (s t : String) : escape (s ++ t) = escape s ++ escape t := by
  rw [escape_eq, escape_eq s, escape_eq t, String.toList_append, escapeChars_append,
    String.ofList_append]

/-- **The inert texts are those that are written as they were read.**  There is no second way to
write what an inert text stands for. -/
theorem escape_unescape_iff {s : String} : escape (unescape s) = s ↔ IsInert s.toList := by
  constructor
  · intro h
    rw [← h, toList_escape]
    exact isInert_escapeChars _
  · intro h
    obtain ⟨ds, hds⟩ := h.exists_eq_escapeChars
    rw [escape_eq, unescape, String.toList_ofList, hds, unescapeChars_escapeChars, ← hds,
      String.ofList_toList]

/-- **Escaping is faithful.**  What is written is inert and is read back as it was, so no two texts
are written alike; texts are written one after another; and a text that is handed back as it is
would not come out differently if its characters were gone over.  Nothing else is inert than what
is written. -/
theorem escape_faithful (s t : String) :
    IsInert (escape s).toList ∧
      unescape (escape s) = s ∧
      Function.Injective escape ∧
      escape (s ++ t) = escape s ++ escape t ∧
      escape s = String.ofList (escapeChars s.toList) ∧
      (escape (unescape t) = t ↔ IsInert t.toList) := by
  refine ⟨?_, unescape_escape s, Function.LeftInverse.injective unescape_escape, escape_append s t,
    escape_eq s, escape_unescape_iff⟩
  rw [toList_escape]
  exact isInert_escapeChars s.toList

end Html

end UiLang
