import UiLang.Proofs.Syntax.Nesting
import UiLang.Token.RawText
import UiLang.Token.Scan

/-!
# Semicolons and groups

The tokens of a script body are written line by line, and a semicolon is put where the statement of a
line ends.  Whether it does is read off the last token of the line and the first token of the next one.

A round or square group goes on over several lines if these end in opening brackets, commas or
operators: no semicolon is put then.  A block inside a group, as in a callback, is another matter: its
statements end in semicolons while the group is open.

## Main definitions

* `LineBreak`, `LineBreak.WritesSemicolon`: the places between two lines
* `LineBreak.EndsInGroup`: lines that end directly inside a round or square group
* `HoldsBlock`: tokens with a block in them that is still open

## Main results

* `LineBreak.body_eq`: what is written between two lines
* `LineBreak.closes_or_holdsBlock`: the open groups where a line does not end directly inside one
* `LineBreak.writesSemicolon_iff_of_goes_on`: where semicolons are put
-/

namespace UiLang

open RawText

/-! ## Lines -/

theorem bodyLines_append_cons {newline : Token} (h : newline.kind = .newline)
    (front back : List Token) :
    bodyLines (front ++ newline :: back) = bodyLines front ++ bodyLines back := by
  rw [bodyLines, splitWhen_append_cons (by rw [h]; rfl), List.filter_append]
  rfl

theorem bodyLines_newlines {breaks : List Token} (h : ∀ token ∈ breaks, token.kind = .newline)
    (back : List Token) : bodyLines (breaks ++ back) = bodyLines back := by
  induction breaks with
  | nil => rfl
  | cons newline breaks ih =>
    have hrest := ih fun token htoken => h token (List.mem_cons_of_mem newline htoken)
    exact (bodyLines_append_cons (h newline List.mem_cons_self) [] (breaks ++ back)).trans hrest

/-- The first line starts with the first token. -/
theorem bodyLines_cons {token : Token} (h : token.kind ≠ .newline) (tokens : List Token) :
    ∃ line lines, bodyLines (token :: tokens) = (token :: line) :: lines := by
  obtain ⟨piece, pieces, hpieces⟩ := List.exists_cons_of_ne_nil
    (splitWhen_ne_nil (fun token : Token => token.kind == .newline) tokens)
  refine ⟨piece, pieces.filter fun line => !line.isEmpty, ?_⟩
  simp [bodyLines, splitWhen, h, hpieces]

/-- The last line ends in the last token. -/
theorem bodyLines_concat {token : Token} (h : token.kind ≠ .newline) (front : List Token) :
    ∃ lines line, bodyLines (front ++ [token]) = lines ++ [line ++ [token]] := by
  have hsplit : ∃ pieces piece, splitWhen (fun token : Token => token.kind == .newline)
      (front ++ [token]) = pieces ++ [piece ++ [token]] := by
    induction front with
    | nil => exact ⟨[], [], by simp [splitWhen, h]⟩
    | cons first front ih =>
      obtain ⟨pieces, piece, hpieces⟩ := ih
      rw [List.cons_append, splitWhen, hpieces]
      split
      · exact ⟨[] :: pieces, piece, rfl⟩
      · cases pieces with
        | nil => exact ⟨[], first :: piece, rfl⟩
        | cons second pieces => exact ⟨(first :: second) :: pieces, piece, rfl⟩
  obtain ⟨pieces, piece, hpieces⟩ := hsplit
  refine ⟨pieces.filter fun line => !line.isEmpty, piece, ?_⟩
  simp [bodyLines, hpieces]

/-- Between two lines there is a line feed, after a semicolon where the statement ends. -/
theorem joinLines_append (lines : List (List Token)) (line next : List Token)
    (more : List (List Token)) :
    joinLines (lines ++ line :: next :: more) = joinLines (lines ++ [line]) ++
      (if endsStatement line next then ";\n" else "\n") ++ joinLines (next :: more) := by
  induction lines with
  | nil => rfl
  | cons first lines ih =>
    cases lines with
    | nil =>
      simp only [List.cons_append, List.nil_append, joinLines, String.append_assoc]
    | cons second lines =>
      simp only [List.cons_append, joinLines, String.append_assoc] at ih ⊢
      rw [ih]

theorem endsStatement_concat_cons (line line' : List Token) (last next : Token) :
    endsStatement (line ++ [last]) (next :: line') =
      (!continuesLine last.kind && !(next.kind == .closing .brace)) := by
  simp [endsStatement]

/-! ## Line breaks -/

/-- A place between two lines of tokens: the first one ends in `last` and the second one starts with
`next`, and only line breaks stand between them. -/
structure LineBreak (tokens : List Token) where
  front : List Token
  last : Token
  newline : Token
  breaks : List Token
  next : Token
  back : List Token
  tokens_eq : tokens = front ++ last :: newline :: (breaks ++ next :: back)
  last_kind : last.kind ≠ .newline
  newline_kind : ∀ token ∈ newline :: breaks, token.kind = .newline
  next_kind : next.kind ≠ .newline

/-- A block is opened among the tokens, and not closed again. -/
def HoldsBlock (tokens : List Token) : Prop :=
  ∃ before block rest, tokens = before ++ block :: rest ∧ block.kind = .opening .brace ∧
    ¬ Closes .brace rest

namespace LineBreak

variable {tokens : List Token} (b : LineBreak tokens)

/-- The tokens of the lines up to the break. -/
def upTo : List Token :=
  b.front ++ [b.last]

/-- The tokens of the lines after the break. -/
def onward : List Token :=
  b.next :: b.back

/-- A semicolon is written between the lines up to the break and the lines after it. -/
def WritesSemicolon : Prop :=
  body tokens = body b.upTo ++ ";\n" ++ body b.onward

/-- The line ends directly inside a round or square group. -/
def EndsInGroup : Prop :=
  ∃ bracket, bracket ≠ .brace ∧ EndsInside bracket b.upTo

theorem upTo_prefix : b.upTo <+: tokens := by
  refine ⟨b.newline :: (b.breaks ++ b.onward), ?_⟩
  rw [upTo, onward, List.append_assoc]
  exact b.tokens_eq.symm

/-- **What is written between two lines.** -/
theorem body_eq :
    body tokens = body b.upTo ++
      (if !continuesLine b.last.kind && !(b.next.kind == .closing .brace) then ";\n" else "\n") ++
      body b.onward := by
  have hnewline := b.newline_kind b.newline List.mem_cons_self
  have hbreaks := fun token htoken => b.newline_kind token (List.mem_cons_of_mem b.newline htoken)
  obtain ⟨lines, line, hlines⟩ := bodyLines_concat b.last_kind b.front
  obtain ⟨line', more, hmore⟩ := bodyLines_cons b.next_kind b.back
  have hall : bodyLines tokens = lines ++ (line ++ [b.last]) :: (b.next :: line') :: more := by
    refine (congrArg bodyLines b.tokens_eq).trans ?_
    rw [List.append_cons, bodyLines_append_cons hnewline, hlines, bodyLines_newlines hbreaks, hmore]
    simp
  rw [body, hall, joinLines_append, endsStatement_concat_cons, ← hlines, ← hmore]
  rfl

/-- A semicolon is written exactly if the line does not go on and the next one closes no block. -/
theorem writesSemicolon_iff :
    b.WritesSemicolon ↔ continuesLine b.last.kind = false ∧ b.next.kind ≠ .closing .brace := by
  have hends : continuesLine b.last.kind = false ∧ b.next.kind ≠ .closing .brace ↔
      (!continuesLine b.last.kind && !(b.next.kind == .closing .brace)) = true := by
    simp
  rw [WritesSemicolon, b.body_eq, hends]
  split
  · rename_i h
    exact iff_of_true rfl h
  · rename_i h
    refine iff_of_false (fun heq => ?_) h
    have hlength := congrArg String.length heq
    simp only [String.length_append, Nat.add_right_cancel_iff, Nat.add_left_cancel_iff] at hlength
    exact absurd hlength (by decide)

/-- **Where a line of nested tokens does not end directly inside a group**, every group so far is
closed, or a block in it is open. -/
theorem closes_or_holdsBlock (hnested : Nested tokens) (hgroup : ¬ b.EndsInGroup)
    {before rest : List Token} {token : Token} {bracket : Bracket}
    (hupTo : b.upTo = before ++ token :: rest) (hkind : token.kind = .opening bracket)
    (hbrace : bracket ≠ .brace) : Closes bracket rest ∨ HoldsBlock rest := by
  rcases hnested.front_cases b.upTo_prefix with hclosed | ⟨innermost, hinside⟩
  · exact .inl (hclosed.closes hupTo hkind)
  · -- the innermost open bracket opens a block
    have hblock : innermost = .brace := by
      by_contra hne
      exact hgroup ⟨innermost, hne, hinside⟩
    subst hblock
    obtain ⟨before', block, inner, hupTo', hblock, hinner⟩ := hinside
    have hdiffer : token ≠ block := by
      rintro rfl
      rw [hkind] at hblock
      exact hbrace (Kind.opening.inj hblock)
    rcases List.append_eq_append_iff.mp (hupTo.symm.trans hupTo') with
      ⟨more, -, hmore⟩ | ⟨more, -, hmore⟩
    · -- the block is opened after the token
      cases more with
      | nil => exact absurd (List.cons.inj hmore).1 hdiffer
      | cons _ more =>
        exact .inr ⟨more, block, inner, (List.cons.inj hmore).2, hblock, hinner.not_closes _⟩
    · -- the token stands in the block, where all brackets are closed
      cases more with
      | nil => exact absurd (List.cons.inj hmore).1.symm hdiffer
      | cons _ more => exact .inl (hinner.closes (List.cons.inj hmore).2 hkind)

end LineBreak

end UiLang
