import Mathlib.Data.List.Basic
import UiLang.Token.Basic

/-!
# Nested brackets

Brackets are properly nested if they form groups: an opening bracket, tokens that are nested
themselves, and the closing bracket of the same kind.  A run along the tokens decides this: it keeps
the brackets that are open, innermost first.

In the front of nested tokens all brackets are closed, or there is an innermost open one, with all
brackets after it closed.

## Main definitions

* `Nested`: tokens whose brackets are properly nested
* `Closes`: tokens that close a bracket before them
* `EndsInside`: tokens that end directly inside a group
* `nestedAfter`: the run along the tokens

## Main results

* `nested_iff_nestedAfter`: nesting is decided by the run
* `Nested.closes`: in nested tokens every opening bracket is closed
* `Nested.front_cases`: the front of nested tokens is nested, or ends directly inside a group
-/

namespace UiLang

/-- A bracket, opening or closing. -/
def Kind.isBracket : Kind → Bool
  | .opening _ | .closing _ => true
  | _ => false

theorem Kind.isBracket_eq_false_iff {kind : Kind} :
    kind.isBracket = false ↔ ∀ bracket, kind ≠ .opening bracket ∧ kind ≠ .closing bracket := by
  cases kind <;> simp [Kind.isBracket]

/-- Tokens whose brackets are properly nested. -/
inductive Nested : List Token → Prop
  | nil : Nested []
  | plain {token : Token} {tokens : List Token} (kind : token.kind.isBracket = false)
      (rest : Nested tokens) : Nested (token :: tokens)
  | group {first last : Token} {inner tokens : List Token} {bracket : Bracket}
      (opens : first.kind = .opening bracket) (inside : Nested inner)
      (closes : last.kind = .closing bracket) (rest : Nested tokens) :
      Nested (first :: (inner ++ last :: tokens))

/-- The tokens close a bracket that stands before them. -/
def Closes (bracket : Bracket) (tokens : List Token) : Prop :=
  ∃ inner last rest, tokens = inner ++ last :: rest ∧ Nested inner ∧ last.kind = .closing bracket

/-- The tokens end directly inside a group: `bracket` opened it, and all brackets after that one are
closed again. -/
def EndsInside (bracket : Bracket) (tokens : List Token) : Prop :=
  ∃ before token inner, tokens = before ++ token :: inner ∧ token.kind = .opening bracket ∧
    Nested inner

/-! ## Open brackets -/

/-- The brackets of a token sequence are properly nested after the brackets `opened`, innermost
first, and leave none open. -/
def nestedAfter (opened : List Bracket) : List Token → Bool
  | [] => opened.isEmpty
  | token :: rest =>
    match token.kind, opened with
    | .opening bracket, opened => nestedAfter (bracket :: opened) rest
    | .closing bracket, last :: opened => bracket == last && nestedAfter opened rest
    | .closing _, [] => false
    | _, opened => nestedAfter opened rest

/-- What one token does to properly nested brackets. -/
theorem nestedAfter_cons {opened : List Bracket} {t : Token} {ts : List Token}
    (h : nestedAfter opened (t :: ts) = true) :
    ∃ inner, nestedAfter inner ts = true ∧
      ((∃ bracket, t.kind = .opening bracket ∧ inner = bracket :: opened) ∨
        (∃ bracket, t.kind = .closing bracket ∧ opened = bracket :: inner) ∨
        (∀ bracket, t.kind ≠ .opening bracket ∧ t.kind ≠ .closing bracket) ∧ inner = opened) := by
  obtain ⟨kind, text, loc⟩ := t
  cases kind with
  | opening bracket => exact ⟨bracket :: opened, h, .inl ⟨bracket, rfl, rfl⟩⟩
  | closing bracket =>
    cases opened with
    | nil => cases h
    | cons last opened =>
      obtain ⟨hlast, hinner⟩ := Bool.and_eq_true_iff.mp h
      obtain rfl : bracket = last := beq_iff_eq.mp hlast
      exact ⟨opened, hinner, .inr (.inl ⟨bracket, rfl, rfl⟩)⟩
  | _ => exact ⟨opened, h, .inr (.inr ⟨by simp, rfl⟩)⟩

section Step

variable {token : Token} {bracket : Bracket}

theorem nestedAfter_opening (h : token.kind = .opening bracket) (opened : List Bracket)
    (tokens : List Token) :
    nestedAfter opened (token :: tokens) = nestedAfter (bracket :: opened) tokens := by
  simp [nestedAfter, h]

theorem nestedAfter_closing (h : token.kind = .closing bracket) (opened : List Bracket)
    (tokens : List Token) :
    nestedAfter (bracket :: opened) (token :: tokens) = nestedAfter opened tokens := by
  simp [nestedAfter, h]

theorem nestedAfter_plain (h : token.kind.isBracket = false) (opened : List Bracket)
    (tokens : List Token) : nestedAfter opened (token :: tokens) = nestedAfter opened tokens := by
  obtain ⟨kind, text, location⟩ := token
  cases kind with
  | opening bracket => cases h
  | closing bracket => cases h
  | _ => rfl

end Step

/-- **Nested tokens leave the open brackets as they are.** -/
theorem Nested.nestedAfter_append {tokens : List Token} (h : Nested tokens) (opened : List Bracket)
    (more : List Token) : nestedAfter opened (tokens ++ more) = nestedAfter opened more := by
  induction h generalizing opened more with
  | nil => rfl
  | plain kind rest ih => rw [List.cons_append, nestedAfter_plain kind, ih]
  | group opens inside closes rest ihInside ihRest =>
    rw [List.cons_append, nestedAfter_opening opens, List.append_assoc, ihInside, List.cons_append,
      nestedAfter_closing closes, ihRest]

theorem Nested.append {tokens more : List Token} (h : Nested tokens) (hmore : Nested more) :
    Nested (tokens ++ more) := by
  induction h with
  | nil => exact hmore
  | plain kind rest ih => exact .plain kind ih
  | group opens inside closes rest _ ih =>
    rw [List.cons_append, List.append_assoc, List.cons_append]
    exact .group opens inside closes ih

/-- The tokens close the brackets one after another, and no others. -/
def ClosesAll : List Bracket → List Token → Prop
  | [], tokens => Nested tokens
  | bracket :: brackets, tokens => ∃ inner last rest, tokens = inner ++ last :: rest ∧
      Nested inner ∧ last.kind = .closing bracket ∧ ClosesAll brackets rest

theorem Nested.closesAll_append {front tokens : List Token} {brackets : List Bracket}
    (hfront : Nested front) (h : ClosesAll brackets tokens) : ClosesAll brackets (front ++ tokens) := by
  cases brackets with
  | nil => exact hfront.append h
  | cons bracket brackets =>
    obtain ⟨inner, last, rest, rfl, hinner, hlast, hrest⟩ := h
    exact ⟨front ++ inner, last, rest, by simp, hfront.append hinner, hlast, hrest⟩

/-- Tokens after which no bracket is open have closed all of them. -/
theorem closesAll_of_nestedAfter {tokens : List Token} {opened : List Bracket}
    (h : nestedAfter opened tokens = true) : ClosesAll opened tokens := by
  induction tokens generalizing opened with
  | nil =>
    obtain rfl := List.isEmpty_iff.mp h
    exact Nested.nil
  | cons token tokens ih =>
    obtain ⟨inner, hinner, hstep⟩ := nestedAfter_cons h
    rcases hstep with ⟨bracket, hkind, rfl⟩ | ⟨bracket, hkind, rfl⟩ | ⟨hkind, rfl⟩
    · obtain ⟨inside, last, rest, rfl, hinside, hlast, hrest⟩ := ih hinner
      have hgroup : Nested (token :: (inside ++ last :: [])) := .group hkind hinside hlast .nil
      simpa using hgroup.closesAll_append hrest
    · exact ⟨[], token, tokens, rfl, .nil, hkind, ih hinner⟩
    · have hplain := Kind.isBracket_eq_false_iff.mpr hkind
      exact (Nested.plain hplain .nil).closesAll_append (ih hinner)

/-- **Brackets are nested exactly if none is open in the end.** -/
theorem nested_iff_nestedAfter {tokens : List Token} :
    Nested tokens ↔ nestedAfter [] tokens = true := by
  refine ⟨fun h => ?_, closesAll_of_nestedAfter⟩
  have hrun := h.nestedAfter_append [] []
  rwa [List.append_nil] at hrun

instance (tokens : List Token) : Decidable (Nested tokens) :=
  decidable_of_iff _ nested_iff_nestedAfter.symm

/-! ## Opening brackets and the tokens after them -/

theorem Closes.append {bracket : Bracket} {tokens : List Token} (h : Closes bracket tokens)
    (more : List Token) : Closes bracket (tokens ++ more) := by
  obtain ⟨inner, last, rest, rfl, hinner, hlast⟩ := h
  exact ⟨inner, last, rest ++ more, by simp, hinner, hlast⟩

/-- Nested tokens do not close a bracket before them. -/
theorem Nested.not_closes {tokens : List Token} (h : Nested tokens) (bracket : Bracket) :
    ¬ Closes bracket tokens := by
  rintro ⟨inner, last, rest, rfl, hinner, hlast⟩
  rw [nested_iff_nestedAfter, hinner.nestedAfter_append] at h
  simp [nestedAfter, hlast] at h

/-- **In nested tokens every opening bracket is closed.** -/
theorem Nested.closes {tokens before rest : List Token} {token : Token} {bracket : Bracket}
    (h : Nested tokens) (heq : tokens = before ++ token :: rest)
    (hkind : token.kind = .opening bracket) : Closes bracket rest := by
  induction h generalizing before rest with
  | nil => simp at heq
  | @plain first tokens kind nested ih =>
    cases before with
    | nil =>
      obtain ⟨rfl, rfl⟩ := List.cons.inj heq
      rw [hkind] at kind
      cases kind
    | cons _ before => exact ih (List.cons.inj heq).2
  | @group first last inner tokens bracket' opens inside closes nested ihInside ihRest =>
    cases before with
    | nil =>
      obtain ⟨rfl, rfl⟩ := List.cons.inj heq
      rw [hkind] at opens
      cases opens
      exact ⟨inner, last, tokens, rfl, inside, closes⟩
    | cons _ before =>
      rcases List.append_eq_append_iff.mp (List.cons.inj heq).2 with
        ⟨more, rfl, hmore⟩ | ⟨more, rfl, hmore⟩
      · -- the bracket stands after the group, since it does not close it
        cases more with
        | nil =>
          obtain ⟨rfl, -⟩ := List.cons.inj hmore
          rw [hkind] at closes
          cases closes
        | cons _ more => exact ihRest (List.cons.inj hmore).2
      · -- the bracket stands inside the group
        cases more with
        | nil =>
          obtain ⟨rfl, -⟩ := List.cons.inj hmore
          rw [hkind] at closes
          cases closes
        | cons _ more =>
          obtain ⟨rfl, rfl⟩ := List.cons.inj hmore
          exact (ihInside rfl).append _

/-- Nested tokens do not end inside a group. -/
theorem Nested.not_endsInside {tokens : List Token} (h : Nested tokens) (bracket : Bracket) :
    ¬ EndsInside bracket tokens := by
  rintro ⟨before, token, inner, heq, hkind, hinner⟩
  exact hinner.not_closes bracket (h.closes heq hkind)

theorem EndsInside.prepend {bracket : Bracket} {tokens : List Token} (h : EndsInside bracket tokens)
    (more : List Token) : EndsInside bracket (more ++ tokens) := by
  obtain ⟨before, token, inner, rfl, hkind, hinner⟩ := h
  exact ⟨more ++ before, token, inner, by simp, hkind, hinner⟩

/-- **The front of nested tokens** is nested, or ends directly inside a group. -/
theorem Nested.front_cases {tokens front : List Token} (h : Nested tokens) (hfront : front <+: tokens) :
    Nested front ∨ ∃ bracket, EndsInside bracket front := by
  induction h generalizing front with
  | nil =>
    rw [List.prefix_nil.mp hfront]
    exact .inl .nil
  | @plain first tokens kind nested ih =>
    rcases List.prefix_cons_iff.mp hfront with rfl | ⟨front, rfl, hrest⟩
    · exact .inl .nil
    · rcases ih hrest with hnested | ⟨bracket, hinside⟩
      · exact .inl (.plain kind hnested)
      · exact .inr ⟨bracket, hinside.prepend [first]⟩
  | @group first last inner tokens bracket opens inside closes nested ihInside ihRest =>
    -- a front that ends before the group does
    have hopen : ∀ front, front <+: inner → ∃ bracket, EndsInside bracket (first :: front) := by
      intro front hfront
      rcases ihInside hfront with hnested | ⟨bracket', hinside⟩
      · exact ⟨bracket, [], first, front, rfl, opens, hnested⟩
      · exact ⟨bracket', hinside.prepend [first]⟩
    rcases List.prefix_cons_iff.mp hfront with rfl | ⟨front, rfl, rest, heq⟩
    · exact .inl .nil
    · rcases List.append_eq_append_iff.mp heq with ⟨more, rfl, -⟩ | ⟨more, rfl, hmore⟩
      · exact .inr (hopen front (List.prefix_append _ _))
      · cases more with
        | nil => exact .inr (hopen _ (by simp))
        | cons _ more =>
          obtain ⟨rfl, htokens⟩ := List.cons.inj hmore
          rcases ihRest ⟨rest, htokens.symm⟩ with hnested | ⟨bracket', hinside⟩
          · exact .inl (.group opens inside closes hnested)
          · have hwhole := hinside.prepend (first :: (inner ++ [last]))
            exact .inr ⟨bracket', by simpa using hwhole⟩

end UiLang
