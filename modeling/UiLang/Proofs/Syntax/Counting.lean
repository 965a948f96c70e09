import UiLang.Proofs.Seam.Basic
import UiLang.Proofs.Syntax.Gives

/-!
# Runs that count brackets

The tokens inside parentheses and the parts of an argument list are found by going along the tokens
and counting brackets.  The first run counts parentheses and ends at the one that closes nothing,
the second one counts all brackets and ends at a comma outside them.  What such a run does depends
on few kinds of tokens, so tokens with the same kinds of these are cut in the same way.

## Main definitions

* `Counting`, `Counting.through`: how a run counts, and the depth after some tokens
* `Counting.parentheses`, `Counting.brackets`: the two runs
* `ArgumentParts`: tokens with commas between their parts

## Main results

* `parenthesizedTokens_gives`, `exists_of_parenthesizedTokens`: the tokens up to a parenthesis
* `argumentParts_splitArguments`: the parts of an argument list
-/

namespace UiLang

/-- How a run along tokens counts brackets: the kinds at which it ends, and the depth after a
token, both by the depth before it. -/
structure Counting where
  ends : Nat → Kind → Bool
  next : Nat → Kind → Nat

namespace Counting

/-- The depth after some tokens, unless the run ends at one of them. -/
def through (count : Counting) (depth : Nat) : List Kind → Option Nat
  | [] => some depth
  | kind :: kinds =>
    if count.ends depth kind then none else count.through (count.next depth kind) kinds

/-- Parentheses only.  A parenthesis that closes nothing ends the run, and so does a line end. -/
def parentheses : Counting where
  ends depth kind := kind == .newline || kind == .closing .round && depth == 0
  next := depthPast .round

/-- Brackets of all kinds.  A comma outside of them ends the run. -/
def brackets : Counting where
  ends depth kind := kind == .comma && depth == 0
  next depth
    | .opening _ => depth + 1
    | .closing _ => depth - 1
    | _ => depth

section Through

variable {count : Counting} {depth d : Nat} {kind : Kind} {kinds : List Kind}

theorem through_cons_eq_some :
    count.through depth (kind :: kinds) = some d ↔
      count.ends depth kind = false ∧ count.through (count.next depth kind) kinds = some d := by
  rw [through]
  cases count.ends depth kind <;> simp

/-- Tokens that a run does not look at change nothing. -/
theorem through_filter {keep : Kind → Bool}
    (h : ∀ kind, keep kind = false → ∀ depth,
      count.ends depth kind = false ∧ count.next depth kind = depth)
    (depth : Nat) (kinds : List Kind) :
    count.through depth (kinds.filter keep) = count.through depth kinds := by
  induction kinds generalizing depth with
  | nil => rfl
  | cons kind kinds ih =>
    cases hkeep : keep kind with
    | true => rw [List.filter_cons_of_pos hkeep, through, through, ih]
    | false =>
      obtain ⟨hends, hnext⟩ := h kind hkeep depth
      rw [List.filter_cons_of_neg (by simp [hkeep]), ih, through, hends, hnext]
      rfl

/-- A run that does not come through ends at a first token. -/
theorem exists_of_through_eq_none {ts : List Token}
    (h : count.through depth (ts.map (·.kind)) = none) :
    ∃ front token rest d, ts = front ++ token :: rest ∧
      count.through depth (front.map (·.kind)) = some d ∧ count.ends d token.kind = true := by
  induction ts generalizing depth with
  | nil => cases h
  | cons token ts ih =>
    cases hends : count.ends depth token.kind with
    | true => exact ⟨[], token, ts, depth, rfl, rfl, hends⟩
    | false =>
      rw [List.map_cons, through, hends] at h
      obtain ⟨front, last, rest, d, rfl, hfront, hlast⟩ := ih h
      exact ⟨token :: front, last, rest, d, rfl, through_cons_eq_some.mpr ⟨hends, hfront⟩, hlast⟩

end Through

end Counting

open Counting (through_cons_eq_some)

/-! ## The tokens inside parentheses -/

section Parentheses

variable {stop closing : Token} {depth : Nat} {rest : List Token}

/-- **The tokens up to the closing parenthesis** are taken as they are. -/
theorem parenthesizedTokens_gives {inside : List Token}
    (h : Counting.parentheses.through depth (inside.map (·.kind)) = some 0)
    (hclosing : closing.kind = .closing .round) :
    Gives (parenthesizedTokens stop depth (inside ++ closing :: rest)) inside rest := by
  induction inside generalizing depth with
  | nil =>
    obtain rfl := Option.some.inj h
    rw [List.nil_append, parenthesizedTokens_cons, if_neg (by simp [hclosing]),
      if_pos ⟨hclosing, rfl⟩]
    exact gives_ok _
  | cons token inside ih =>
    obtain ⟨hends, hnext⟩ := through_cons_eq_some.mp h
    simp only [Counting.parentheses, Bool.or_eq_false_iff, beq_eq_false_iff_ne,
      Bool.and_eq_false_iff] at hends
    rw [List.cons_append, parenthesizedTokens_cons, if_neg hends.1,
      if_neg fun habs => hends.2.elim (fun h => h habs.1) fun h => h habs.2]
    exact (ih hnext).bind fun _ => gives_ok _

/-- **What is taken is followed by the closing parenthesis.** -/
theorem exists_of_parenthesizedTokens {ts : List Token} {r : Reading (List Token) ts}
    (h : parenthesizedTokens stop depth ts = .ok r) :
    ∃ closing, ts = r.value ++ closing :: r.rest ∧ closing.kind = .closing .round ∧
      Counting.parentheses.through depth (r.value.map (·.kind)) = some 0 := by
  induction ts generalizing depth with
  | nil => cases h
  | cons token ts ih =>
    rw [parenthesizedTokens_cons] at h
    split at h
    · cases h
    rename_i hnewline
    split at h
    · rename_i hclosing
      cases h
      obtain ⟨hkind, rfl⟩ := hclosing
      exact ⟨token, rfl, hkind, rfl⟩
    · rename_i hclosing
      obtain ⟨inner, hinner, heq⟩ := ok_of_bind_eq h
      cases heq
      obtain ⟨closing, hts, hkind, hthrough⟩ := ih hinner
      refine ⟨closing, congrArg (token :: ·) hts, hkind, through_cons_eq_some.mpr ⟨?_, hthrough⟩⟩
      simp only [Counting.parentheses, Bool.or_eq_false_iff, beq_eq_false_iff_ne,
        Bool.and_eq_false_iff]
      exact ⟨hnewline, not_and_or.mp hclosing⟩

end Parentheses

/-! ## The parts of an argument list -/

/-- The tokens are the parts with a comma between two of them.  No part has a comma outside
brackets, and before a comma all brackets are closed. -/
inductive ArgumentParts : List Token → List (List Token) → Prop
  | last (part : List Token) {depth : Nat}
      (through : Counting.brackets.through 0 (part.map (·.kind)) = some depth) :
      ArgumentParts part [part]
  | cons (part : List Token) {comma : Token} {tokens : List Token} {parts : List (List Token)}
      (through : Counting.brackets.through 0 (part.map (·.kind)) = some 0)
      (kind : comma.kind = .comma) (rest : ArgumentParts tokens parts) :
      ArgumentParts (part ++ comma :: tokens) (part :: parts)

section Parts

variable {depth d : Nat} {part : List Token}

theorem splitArguments_of_through
    (h : Counting.brackets.through depth (part.map (·.kind)) = some d) :
    RawText.splitArguments depth part = [part] := by
  induction part generalizing depth with
  | nil => rfl
  | cons token part ih =>
    obtain ⟨hends, hnext⟩ := through_cons_eq_some.mp h
    simp only [Counting.brackets, Bool.and_eq_false_iff, beq_eq_false_iff_ne] at hends
    rw [RawText.splitArguments, if_neg (not_and_or.mpr hends), show RawText.depthAfter depth token =
      Counting.brackets.next depth token.kind from rfl, ih hnext]

theorem splitArguments_comma {comma : Token} {tokens : List Token}
    (h : Counting.brackets.through depth (part.map (·.kind)) = some 0)
    (hcomma : comma.kind = .comma) :
    RawText.splitArguments depth (part ++ comma :: tokens) =
      part :: RawText.splitArguments 0 tokens := by
  induction part generalizing depth with
  | nil =>
    obtain rfl := Option.some.inj h
    rw [List.nil_append, RawText.splitArguments, if_pos ⟨hcomma, rfl⟩]
  | cons token part ih =>
    obtain ⟨hends, hnext⟩ := through_cons_eq_some.mp h
    simp only [Counting.brackets, Bool.and_eq_false_iff, beq_eq_false_iff_ne] at hends
    rw [List.cons_append, RawText.splitArguments, if_neg (not_and_or.mpr hends),
      show RawText.depthAfter depth token = Counting.brackets.next depth token.kind from rfl,
      ih hnext]

/-- **An argument list is split into its parts.** -/
theorem argumentParts_splitArguments (tokens : List Token) :
    ArgumentParts tokens (RawText.splitArguments 0 tokens) := by
  cases h : Counting.brackets.through 0 (tokens.map (·.kind)) with
  | some d =>
    rw [splitArguments_of_through h]
    exact .last tokens h
  | none =>
    obtain ⟨front, comma, rest, d, htokens, hfront, hends⟩ := Counting.exists_of_through_eq_none h
    simp only [Counting.brackets, Bool.and_eq_true, beq_iff_eq] at hends
    obtain ⟨hcomma, rfl⟩ := hends
    rw [htokens, splitArguments_comma hfront hcomma]
    exact .cons front hfront hcomma (argumentParts_splitArguments rest)
termination_by tokens.length
decreasing_by
  rw [htokens, List.length_append, List.length_cons]
  omega

theorem arguments_of_through (hpart : part ≠ [])
    (h : Counting.brackets.through 0 (part.map (·.kind)) = some d) :
    RawText.arguments part = [RawText.join part] := by
  rw [RawText.arguments, splitArguments_of_through h, List.filter_cons_of_pos (by simp [hpart])]
  rfl

theorem arguments_comma {comma : Token} {tokens : List Token} (hpart : part ≠ [])
    (h : Counting.brackets.through 0 (part.map (·.kind)) = some 0) (hcomma : comma.kind = .comma) :
    RawText.arguments (part ++ comma :: tokens) =
      RawText.join part :: RawText.arguments tokens := by
  rw [RawText.arguments, splitArguments_comma h hcomma,
    List.filter_cons_of_pos (by simp [hpart])]
  rfl

end Parts

end UiLang
