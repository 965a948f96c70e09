import UiLang.Proofs.Condition.Grouping
import UiLang.Proofs.Syntax.Nesting
import UiLang.Token.RawText

/-!
# Conditions as they are shown

A condition is shown with parentheses around connectives and around the operands of negations, and
none around comparisons.  Where a comparison or a negation is an operand of a comparison, its
parentheses are lost: `(!a) == b` is shown as `!(a) == b`, which is read as the negation of
`a == b`, and `a == (b == c)` as `a == b == c`, of which only `a == b` is read.  A comparison takes primaries
only, so a shown condition is read back exactly if no operand of a comparison is a comparison or a
negation.

## Main definitions

* `bare`: the tokens that stand outside all brackets
* `Condition.shownGlyphs`: how a condition is shown
* `Condition.ComparesPrimaries`: the operands of comparisons are shown as primaries

## Main results

* `eq_of_bare_eq_nil`: where tokens are cut at an operator outside all brackets
* `Derives.group_or_built`: a condition is derived as a group, or from its parts
* `Condition.comparesPrimaries_of_derives`: what is derived from a shown condition
* `Condition.text_reads_back_iff`: which conditions are read back as they are shown
-/

namespace UiLang

/-! ## Tokens outside all brackets -/

/-- The tokens of some kinds that stand outside all brackets, after `depth` open ones. -/
def bare (p : Kind → Bool) (depth : Nat) : List Token → List Token
  | [] => []
  | token :: tokens =>
    (if depth = 0 ∧ token.kind.isBracket = false ∧ p token.kind = true then [token] else []) ++
      bare p (RawText.depthAfter depth token) tokens

section Bare

variable {p : Kind → Bool} {depth : Nat} {token : Token} {tokens : List Token} {bracket : Bracket}

theorem bare_opening (h : token.kind = .opening bracket) :
    bare p depth (token :: tokens) = bare p (depth + 1) tokens := by
  simp [bare, h, Kind.isBracket, RawText.depthAfter]

theorem bare_closing (h : token.kind = .closing bracket) :
    bare p (depth + 1) (token :: tokens) = bare p depth tokens := by
  simp [bare, h, Kind.isBracket, RawText.depthAfter]

theorem depthAfter_of_plain (h : token.kind.isBracket = false) (depth : Nat) :
    RawText.depthAfter depth token = depth := by
  unfold RawText.depthAfter
  split
  · rename_i hkind
    rw [hkind] at h
    cases h
  · rename_i hkind
    rw [hkind] at h
    cases h
  · rfl

theorem bare_plain (h : token.kind.isBracket = false) :
    bare p 0 (token :: tokens) =
      (if p token.kind = true then [token] else []) ++ bare p 0 tokens := by
  simp [bare, h, depthAfter_of_plain h]

/-- Inside brackets nothing is bare, and nested tokens end as they start. -/
theorem Nested.bare_succ_append (h : Nested tokens) (depth : Nat) (more : List Token) :
    bare p (depth + 1) (tokens ++ more) = bare p (depth + 1) more := by
  induction h generalizing depth more with
  | nil => rfl
  | plain kind rest ih =>
    rw [List.cons_append, bare, depthAfter_of_plain kind, if_neg (by simp), List.nil_append, ih]
  | group opens inside closes rest ihInside ihRest =>
    rw [List.cons_append, bare_opening opens, List.append_assoc, ihInside, List.cons_append,
      bare_closing closes, ihRest]

theorem Nested.bare_append (h : Nested tokens) (more : List Token) :
    bare p 0 (tokens ++ more) = bare p 0 tokens ++ bare p 0 more := by
  induction h with
  | nil => rfl
  | plain kind rest ih =>
    rw [List.cons_append, bare_plain kind, bare_plain kind, ih, List.append_assoc]
  | group opens inside closes rest _ ih =>
    rw [List.cons_append, bare_opening opens, bare_opening opens, List.append_assoc,
      inside.bare_succ_append, inside.bare_succ_append, List.cons_append, bare_closing closes,
      bare_closing closes, ih]

theorem bare_group {first last : Token} {inner : List Token} (opens : first.kind = .opening bracket)
    (inside : Nested inner) (closes : last.kind = .closing bracket) :
    bare p 0 (first :: inner ++ [last]) = [] := by
  rw [List.cons_append, bare_opening opens, inside.bare_succ_append, bare_closing closes, bare]

theorem mem_bare {front : List Token} (hfront : Nested front)
    (hplain : token.kind.isBracket = false) (htoken : p token.kind = true) (more : List Token) :
    token ∈ bare p 0 (front ++ token :: more) := by
  rw [hfront.bare_append, bare_plain hplain, if_pos htoken]
  simp

theorem bare_eq_nil_of_forall
    (h : ∀ t ∈ tokens, t.kind.isBracket = false ∧ p t.kind = false) : bare p 0 tokens = [] := by
  induction tokens with
  | nil => rfl
  | cons t tokens ih =>
    obtain ⟨⟨hplain, hp⟩, hrest⟩ := List.forall_mem_cons.mp h
    rw [bare_plain hplain, if_neg (by simp [hp]), List.nil_append, ih hrest]

/-- After nested tokens and a token that is no bracket, the rest is nested. -/
theorem Nested.of_append_cons {front rest : List Token} (h : Nested (front ++ token :: rest))
    (hfront : Nested front) (hplain : token.kind.isBracket = false) : Nested rest := by
  rw [nested_iff_nestedAfter, hfront.nestedAfter_append, nestedAfter_plain hplain] at h
  exact nested_iff_nestedAfter.mpr h

/-- **Tokens are cut in one way only** at the one token of some kinds that stands outside all
brackets. -/
theorem eq_of_bare_eq_nil {front back front' back' : List Token} {token' : Token}
    (hfront : Nested front) (hfront' : Nested front') (hnone : bare p 0 front = [])
    (hnone' : bare p 0 back = []) (hplain : token.kind.isBracket = false)
    (hplain' : token'.kind.isBracket = false) (htoken' : p token'.kind = true)
    (h : front ++ token :: back = front' ++ token' :: back') : front = front' ∧ back = back' := by
  rcases List.append_eq_append_iff.mp h with ⟨more, hmore, hrest⟩ | ⟨more, hmore, hrest⟩
  · -- the second cut comes later
    cases more with
    | nil =>
      rw [List.append_nil] at hmore
      exact ⟨hmore.symm, (List.cons.inj hrest).2⟩
    | cons first more =>
      rw [List.cons_append] at hrest
      obtain ⟨rfl, rfl⟩ := List.cons.inj hrest
      rw [hmore] at hfront'
      have hmem := mem_bare (hfront'.of_append_cons hfront hplain) hplain' htoken' back'
      rw [hnone'] at hmem
      cases hmem
  · -- the second cut comes earlier
    cases more with
    | nil =>
      rw [List.append_nil] at hmore
      exact ⟨hmore, (List.cons.inj hrest).2.symm⟩
    | cons first more =>
      obtain ⟨rfl, -⟩ := List.cons.inj hrest
      have hmem := mem_bare hfront' hplain' htoken' more
      rw [← hmore, hnone] at hmem
      cases hmem

end Bare

/-! ## Derivations -/

/-- Connectives. -/
def Kind.isConnective : Kind → Bool
  | .connective _ => true
  | _ => false

/-- The operators of conditions. -/
def Kind.isOperator : Kind → Bool
  | .connective _ | .bang | .comparison _ => true
  | _ => false

/-- The tokens derive the parts of the condition, and what stands between the parts. -/
def Condition.IsBuiltFrom : Condition → List Token → Prop
  | .path _, _ => True
  | .literal _, _ => True
  | .not operand, ts =>
    ∃ bang us, ts = bang :: us ∧ bang.kind = .bang ∧ Derives .negation us operand
  | .logical op left right, ts => ∃ ls token rs, ts = ls ++ token :: rs ∧
      token.kind = .connective op ∧ (∃ s, Derives s ls left) ∧ ∃ s, Derives s rs right
  | .compare op left right, ts => ∃ ls token rs, ts = ls ++ token :: rs ∧
      token.kind = .comparison op ∧ Derives .primary ls left ∧ Derives .primary rs right

section Derivations

variable {stratum : Stratum} {ts : List Token} {e : Condition}

/-- **A condition is derived as a group, or from its parts.** -/
theorem Derives.group_or_built (h : Derives stratum ts e) :
    (∃ opening inner closing, ts = opening :: inner ++ [closing] ∧
      opening.kind = .opening .round ∧ closing.kind = .closing .round ∧
        Derives .disjunction inner e) ∨ e.IsBuiltFrom ts := by
  induction h with
  | ofConjunction inner ih => exact ih
  | or left kind right => exact .inr ⟨_, _, _, rfl, kind, ⟨_, left⟩, _, right⟩
  | ofNegation inner ih => exact ih
  | and left kind right => exact .inr ⟨_, _, _, rfl, kind, ⟨_, left⟩, _, right⟩
  | not kind operand => exact .inr ⟨_, _, rfl, kind, operand⟩
  | ofComparison inner ih => exact ih
  | compare left kind right => exact .inr ⟨_, _, _, rfl, kind, left, right⟩
  | ofPrimary inner ih => exact ih
  | group opens inner closes => exact .inl ⟨_, _, _, rfl, opens, closes, inner⟩
  | _ => exact .inr trivial

/-- The tokens of a path are words and points. -/
theorem DerivesFields.forall_mem {fields : List String} (h : DerivesFields ts fields) :
    ∀ t ∈ ts, t.kind = .dot ∨ t.kind.isWord = true := by
  induction h with
  | nil => exact List.forall_mem_nil _
  | cons point field ts fields dot word rest ih =>
    exact List.forall_mem_cons.mpr ⟨.inl dot, List.forall_mem_cons.mpr ⟨.inr word, ih⟩⟩

/-- A token by itself: neither a bracket nor an operator. -/
def Kind.isLone (kind : Kind) : Bool :=
  !kind.isBracket && !kind.isOperator

theorem Kind.isLone_of_isWord {kind : Kind} (h : kind = .dot ∨ kind.isWord = true) :
    kind.isLone = true := by
  cases kind <;> simp_all [Kind.isLone, Kind.isBracket, Kind.isOperator, Kind.isWord]

theorem nested_of_isLone (h : ∀ t ∈ ts, t.kind.isLone = true) : Nested ts := by
  induction ts with
  | nil => exact .nil
  | cons t ts ih =>
    obtain ⟨ht, hts⟩ := List.forall_mem_cons.mp h
    simp only [Kind.isLone, Bool.and_eq_true, Bool.not_eq_true'] at ht
    exact .plain ht.1 (ih hts)

theorem bare_of_isLone {p : Kind → Bool} (hp : ∀ kind, p kind = true → kind.isOperator = true)
    (h : ∀ t ∈ ts, t.kind.isLone = true) : bare p 0 ts = [] := by
  refine bare_eq_nil_of_forall fun t ht => ?_
  have hlone := h t ht
  simp only [Kind.isLone, Bool.and_eq_true, Bool.not_eq_true'] at hlone
  refine ⟨hlone.1, Bool.eq_false_iff.mpr fun habs => ?_⟩
  rw [hp _ habs] at hlone
  cases hlone.2

/-- **A primary is a group, or it is made of tokens that are neither brackets nor operators.** -/
theorem Derives.group_or_isLone (h : Derives .primary ts e) :
    (∃ opening inner closing, ts = opening :: inner ++ [closing] ∧
      opening.kind = .opening .round ∧ closing.kind = .closing .round ∧
        Derives .disjunction inner e) ∨ ∀ t ∈ ts, t.kind.isLone = true := by
  cases h with
  | group opens inner closes => exact .inl ⟨_, _, _, rfl, opens, closes, inner⟩
  | path kind rest =>
    right
    refine List.forall_mem_cons.mpr ⟨by rw [kind]; rfl, fun t ht => ?_⟩
    exact Kind.isLone_of_isWord (rest.forall_mem t ht)
  | negative sign kind =>
    right
    exact List.forall_mem_cons.mpr
      ⟨by rw [sign]; rfl, List.forall_mem_singleton.mpr (by rw [kind]; rfl)⟩
  | number kind | string kind | boolean kind | null kind =>
    right
    exact List.forall_mem_singleton.mpr (by rw [kind]; rfl)

/-- **What is derived is nested.**  The induction is on the derivation; only the rule for groups puts
brackets around what is derived already. -/
theorem Derives.nested (h : Derives stratum ts e) : Nested ts := by
  induction h with
  | ofConjunction _ ih | ofNegation _ ih | ofComparison _ ih | ofPrimary _ ih => exact ih
  | or _ kind _ ihleft ihright | and _ kind _ ihleft ihright | compare _ kind _ ihleft ihright =>
    exact ihleft.append (.plain (by rw [kind]; rfl) ihright)
  | not kind _ ih => exact .plain (by rw [kind]; rfl) ih
  | group opens _ closes ih => exact .group opens ih closes .nil
  | path kind rest =>
    refine .plain (by rw [kind]; rfl) (nested_of_isLone fun t ht => ?_)
    exact Kind.isLone_of_isWord (rest.forall_mem t ht)
  | negative sign kind => exact .plain (by rw [sign]; rfl) (.plain (by rw [kind]; rfl) .nil)
  | number kind | string kind | boolean kind | null kind => exact .plain (by rw [kind]; rfl) .nil

/-- **A primary has no operator outside its brackets.** -/
theorem Derives.bare_eq_nil {p : Kind → Bool} (hp : ∀ kind, p kind = true → kind.isOperator = true)
    (h : Derives .primary ts e) : bare p 0 ts = [] := by
  rcases h.group_or_isLone with ⟨opening, inner, closing, rfl, opens, closes, hinner⟩ | hlone
  · exact bare_group opens hinner.nested closes
  · exact bare_of_isLone hp hlone

theorem isBracket_of_isOperator {kind : Kind} (h : kind.isOperator = true) :
    kind.isBracket = false := by
  cases kind <;> first | rfl | cases h

/-- A group is not cut at an operator outside all brackets. -/
theorem group_ne_append {opening closing token : Token} {inner ls rs : List Token}
    (opens : opening.kind = .opening .round) (hinner : Nested inner)
    (closes : closing.kind = .closing .round) (hls : Nested ls)
    (htoken : token.kind.isOperator = true) :
    opening :: inner ++ [closing] ≠ ls ++ token :: rs := by
  intro heq
  have hmem := mem_bare hls (isBracket_of_isOperator htoken) htoken rs
  rw [← heq, bare_group opens hinner closes] at hmem
  cases hmem

/-- A group derives a condition that has operands as what stands inside derives it: nothing outside
the parentheses could stand between the operands. -/
theorem Derives.of_group {opening closing : Token} {inner : List Token}
    (h : Derives stratum (opening :: inner ++ [closing]) e)
    (opens : opening.kind = .opening .round) (hinner : Nested inner)
    (closes : closing.kind = .closing .round) (hpath : ∀ p, e ≠ .path p)
    (hliteral : ∀ value, e ≠ .literal value) : Derives .disjunction inner e := by
  rcases h.group_or_built with ⟨opening', inner', closing', heq, -, -, hderives⟩ | hbuilt
  · obtain ⟨-, htail⟩ := List.cons.inj heq
    obtain ⟨rfl, -⟩ := List.append_inj' htail rfl
    exact hderives
  · cases e with
    | path p => exact absurd rfl (hpath p)
    | literal value => exact absurd rfl (hliteral value)
    | not operand =>
      obtain ⟨bang, us, heq, hbang, -⟩ := hbuilt
      exact absurd heq (group_ne_append opens hinner closes .nil (by rw [hbang]; rfl))
    | logical op left right =>
      obtain ⟨ls, token, rs, heq, htoken, ⟨s, hls⟩, -⟩ := hbuilt
      exact absurd heq (group_ne_append opens hinner closes hls.nested (by rw [htoken]; rfl))
    | compare op left right =>
      obtain ⟨ls, token, rs, heq, htoken, hls, -⟩ := hbuilt
      exact absurd heq (group_ne_append opens hinner closes hls.nested (by rw [htoken]; rfl))

end Derivations

/-! ## How conditions are shown -/

namespace Condition

/-- A condition with parentheses where it is shown with them. -/
def shownGlyphs : Condition → List Glyph
  | .path p => p.glyphs
  | .literal value => value.glyphs
  | .not operand => .word ⟨.bang, "!"⟩ :: parenthesized operand.shownGlyphs
  | .logical op left right =>
    parenthesized (left.shownGlyphs ++
      .blank :: .word ⟨.connective op, op.symbol⟩ :: .blank :: right.shownGlyphs)
  | .compare op left right =>
    left.shownGlyphs ++
      .blank :: .word ⟨.comparison op, op.symbol⟩ :: .blank :: right.shownGlyphs

/-- The condition is shown as a primary: it is a path, a literal, or in parentheses. -/
def isShownAsPrimary : Condition → Bool
  | .path _ | .literal _ | .logical _ _ _ => true
  | .not _ | .compare _ _ _ => false

/-- The operands of comparisons are shown as primaries. -/
def ComparesPrimaries : Condition → Prop
  | .path _ => True
  | .literal _ => True
  | .not operand => operand.ComparesPrimaries
  | .logical _ left right => left.ComparesPrimaries ∧ right.ComparesPrimaries
  | .compare _ left right =>
    left.isShownAsPrimary = true ∧ right.isShownAsPrimary = true ∧
      left.ComparesPrimaries ∧ right.ComparesPrimaries

instance decidableComparesPrimaries : (e : Condition) → Decidable e.ComparesPrimaries
  | .path _ => .isTrue trivial
  | .literal _ => .isTrue trivial
  | .not operand => decidableComparesPrimaries operand
  | .logical _ left right =>
    @instDecidableAnd _ _ (decidableComparesPrimaries left) (decidableComparesPrimaries right)
  | .compare _ left right =>
    @instDecidableAnd _ _ inferInstance (@instDecidableAnd _ _ inferInstance
      (@instDecidableAnd _ _ (decidableComparesPrimaries left) (decidableComparesPrimaries right)))

end Condition

/-! ## The text of a shown condition -/

section Text

theorem Word.chars_of_ne_string {w : Word} (h : w.kind ≠ .string) : w.chars = w.text.toList :=
  if_neg h

theorem chars_fieldWord (field : String) : (fieldWord field).chars = field.toList := by
  unfold fieldWord
  split
  · exact Word.chars_of_ne_string (by simp)
  · refine Word.chars_of_ne_string fun hkind => ?_
    have hletters := isLettered_wordKind field
    change wordKind field = .string at hkind
    rw [hkind] at hletters
    cases hletters

theorem inked_fieldGlyphs (fields : List String) :
    inked (fieldGlyphs fields) = fields.flatMap fun field => '.' :: field.toList := by
  induction fields with
  | nil => rfl
  | cons field fields ih =>
    rw [fieldGlyphs, inked_word, inked_word, chars_fieldWord, ih, List.flatMap_cons,
      Word.chars_of_ne_string (by simp)]
    simp

theorem Path.inked_glyphs (path : Path) : inked path.glyphs = path.text.toList := by
  obtain ⟨root, fields⟩ := path
  have hroot : (Word.mk .identifier root).chars = root.toList := Word.chars_of_ne_string (by simp)
  rw [Path.glyphs, inked_word, hroot, inked_fieldGlyphs, Path.text, Path.segments,
    String.toList_intercalate]
  clear hroot
  dsimp only
  induction fields generalizing root with
  | nil => simp
  | cons field fields ih =>
    rw [List.flatMap_cons, List.cons_append, ih field]
    simp only [List.map_cons]
    rw [List.intercalate_cons_cons]
    simp

theorem inked_numberGlyphs (text : String) : inked (numberGlyphs text) = text.toList := by
  unfold numberGlyphs
  split
  · rename_i digits htext
    rw [inked_word, inked_word, Word.chars_of_ne_string (by simp),
      Word.chars_of_ne_string (by simp), htext]
    simp
  · rw [inked_word, Word.chars_of_ne_string (by simp)]
    simp

theorem Literal.inked_glyphs (value : Literal) : inked value.glyphs = value.text.toList := by
  cases value with
  | string text => simp [Literal.glyphs, Literal.text, Word.chars]
  | number text => exact inked_numberGlyphs text
  | boolean value => simp [Literal.glyphs, Literal.text, Word.chars]
  | null => simp [Literal.glyphs, Literal.text, Word.chars]

theorem inked_parenthesized (glyphs : List Glyph) :
    inked (parenthesized glyphs) = '(' :: inked glyphs ++ [')'] := by
  rw [parenthesized, List.cons_append, inked_word, inked_append, inked_word, inked_nil,
    Word.chars_of_ne_string (by simp), Word.chars_of_ne_string (by simp)]
  simp

/-- Two operands with an operator between them. -/
theorem inked_operands {kind : Kind} (hkind : kind ≠ .string) (symbol : String)
    (left right : List Glyph) :
    inked (left ++ .blank :: .word ⟨kind, symbol⟩ :: .blank :: right) =
      inked left ++ ' ' :: (symbol.toList ++ ' ' :: inked right) := by
  rw [inked_append, inked_blank, inked_word, inked_blank, Word.chars_of_ne_string hkind]

/-- **The glyphs of a shown condition are its text.** -/
theorem Condition.inked_shownGlyphs (e : Condition) : inked e.shownGlyphs = e.text.toList := by
  unfold Condition.text
  induction e with
  | path p => exact p.inked_glyphs
  | literal value => exact value.inked_glyphs
  | not operand ih =>
    rw [shownGlyphs, inked_word, inked_parenthesized, ih, Word.chars_of_ne_string (by simp)]
    simp [Condition.write]
  | logical op left right ihleft ihright =>
    rw [shownGlyphs, inked_parenthesized, inked_operands (by simp), ihleft, ihright]
    simp [Condition.write]
  | compare op left right ihleft ihright =>
    rw [shownGlyphs, inked_operands (by simp), ihleft, ihright]
    simp [Condition.write]

/-- **A shown condition is scanned back**, wherever it stands. -/
theorem Condition.IsLexable.fitsBefore_shown {e : Condition} (h : e.IsLexable) {after : List Char}
    (hafter : Breaks after) : FitsBefore after e.shownGlyphs := by
  induction e generalizing after with
  | path p => exact Path.IsLexable.fitsBefore h hafter
  | literal value => exact Literal.IsLexable.fitsBefore h hafter
  | not operand ih =>
    refine ⟨isWritten_mark (by decide), ?_, fitsBefore_parenthesized (ih h breaks_round)⟩
    refine ⟨nofun, nofun, nofun, nofun, fun _ => ?_⟩
    rw [inked_parenthesized, List.cons_append, List.cons_append, lacks_cons]
    rfl
  | logical op left right ihleft ihright =>
    exact fitsBefore_binary op.isWritten rfl (fun _ => ihleft h.1) (fun _ => ihright h.2)
  | compare op left right ihleft ihright =>
    exact fitsBefore_operands op.isWritten rfl (fun _ => ihleft h.1) (ihright h.2 hafter)

end Text

/-! ## What is derived from a shown condition -/

section Shown

variable {ts : List Token} {e : Condition}

theorem exists_of_parenthesized {glyphs : List Glyph} (h : TokensOf ts (parenthesized glyphs)) :
    ∃ opening inner closing, ts = opening :: inner ++ [closing] ∧ opening.kind = .opening .round ∧
      closing.kind = .closing .round ∧ TokensOf inner glyphs := by
  obtain ⟨opening, us, rfl, ⟨hopening, -⟩, hus⟩ := tokensOf_word.mp h
  obtain ⟨inner, last, rfl, hinner, hlast⟩ := tokensOf_append.mp hus
  obtain ⟨closing, rfl, hclosing, -⟩ := tokensOf_single.mp hlast
  exact ⟨opening, inner, closing, rfl, hopening, hclosing, hinner⟩

namespace Condition

/-- A leaf is shown as itself. -/
theorem IsLexable.derives_leaf (h : e.IsLexable)
    (hleaf : (∃ p, e = .path p) ∨ ∃ value, e = .literal value) (hts : TokensOf ts e.shownGlyphs) :
    Derives .primary ts e := by
  rcases hleaf with ⟨p, rfl⟩ | ⟨value, rfl⟩
  · exact h.derives hts
  · exact h.derives hts

/-- **The tokens of a shown condition**: they are nested, and outside their brackets there is no
connective.  There is another operator if the condition is not shown as a primary. -/
structure IsShownBy (e : Condition) (ts : List Token) : Prop where
  nested : Nested ts
  connectives : bare Kind.isConnective 0 ts = []
  primary : bare Kind.isOperator 0 ts = [] → e.isShownAsPrimary = true

theorem isOperator_of_isConnective {kind : Kind} (h : kind.isConnective = true) :
    kind.isOperator = true := by
  cases kind <;> first | rfl | cases h

theorem IsLexable.isShownBy (h : e.IsLexable) (hts : TokensOf ts e.shownGlyphs) :
    e.IsShownBy ts := by
  induction e generalizing ts with
  | path p =>
    have hderives := h.derives_leaf (.inl ⟨p, rfl⟩) hts
    exact ⟨hderives.nested, hderives.bare_eq_nil fun _ => isOperator_of_isConnective, fun _ => rfl⟩
  | literal value =>
    have hderives := h.derives_leaf (.inr ⟨value, rfl⟩) hts
    exact ⟨hderives.nested, hderives.bare_eq_nil fun _ => isOperator_of_isConnective, fun _ => rfl⟩
  | not operand ih =>
    obtain ⟨bang, us, rfl, ⟨hbang, -⟩, hus⟩ := tokensOf_word.mp hts
    obtain ⟨opening, inner, closing, rfl, hopening, hclosing, hinner⟩ := exists_of_parenthesized hus
    have hnested := (ih h hinner).nested
    have hplain : bang.kind.isBracket = false := by rw [hbang]; rfl
    refine ⟨.plain hplain (.group hopening hnested hclosing .nil), ?_, fun hnone => ?_⟩
    · -- the bang is no connective, and what stands in the parentheses is not bare
      rw [bare_plain hplain, bare_group hopening hnested hclosing, hbang]
      rfl
    · rw [bare_plain hplain, if_pos (by rw [hbang]; rfl)] at hnone
      cases hnone
  | logical op left right ihleft ihright =>
    obtain ⟨opening, inner, closing, rfl, hopening, hclosing, hinner⟩ := exists_of_parenthesized hts
    obtain ⟨ls, token, rs, rfl, hls, htoken, hrs⟩ := exists_of_binary hinner
    have hnested : Nested (ls ++ token :: rs) :=
      (ihleft h.1 hls).nested.append (.plain (by rw [htoken]; rfl) (ihright h.2 hrs).nested)
    refine ⟨.group hopening hnested hclosing .nil, ?_, fun _ => rfl⟩
    exact bare_group hopening hnested hclosing
  | compare op left right ihleft ihright =>
    obtain ⟨ls, token, rs, rfl, hls, htoken, hrs⟩ := exists_of_binary hts
    have hleft := ihleft h.1 hls
    have hright := ihright h.2 hrs
    have hplain : token.kind.isBracket = false := by rw [htoken]; rfl
    refine ⟨hleft.nested.append (.plain hplain hright.nested), ?_, fun hnone => ?_⟩
    · rw [hleft.nested.bare_append, bare_plain hplain, hleft.connectives, hright.connectives,
        htoken]
      rfl
    · -- the sign is bare, whatever the operands are
      have hmem := mem_bare (p := Kind.isOperator) hleft.nested hplain
        (by rw [htoken]; rfl) rs
      rw [hnone] at hmem
      cases hmem

/-- **What is derived from a shown condition.**  If its tokens derive the condition itself, then the
operands of comparisons are shown as primaries.  The induction is on the condition: the only operator
outside all brackets cuts its tokens into those of its operands. -/
theorem comparesPrimaries_of_derives {stratum : Stratum} (h : e.IsLexable)
    (hts : TokensOf ts e.shownGlyphs) (hderives : Derives stratum ts e) : e.ComparesPrimaries := by
  induction e generalizing ts stratum with
  | path p => exact trivial
  | literal value => exact trivial
  | not operand ih =>
    obtain ⟨bang, us, rfl, ⟨hbang, -⟩, hus⟩ := tokensOf_word.mp hts
    obtain ⟨opening, inner, closing, rfl, hopening, hclosing, hinner⟩ := exists_of_parenthesized hus
    have hnested := (IsLexable.isShownBy (e := operand) h hinner).nested
    rcases hderives.group_or_built with
      ⟨first, us, last, heq, hfirst, -⟩ | ⟨first, us, heq, -, hoperand⟩
    · -- a group does not start with a bang
      rw [← (List.cons.inj heq).1, hbang] at hfirst
      cases hfirst
    · rw [← (List.cons.inj heq).2] at hoperand
      cases hcase : operand with
      | path p => exact trivial
      | literal value => exact trivial
      | _ =>
        rw [← hcase]
        refine ih h hinner (hoperand.of_group hopening hnested hclosing ?_ ?_)
        · rw [hcase]
          nofun
        · rw [hcase]
          nofun
  | logical op left right ihleft ihright =>
    obtain ⟨opening, inner, closing, rfl, hopening, hclosing, hinner⟩ := exists_of_parenthesized hts
    obtain ⟨ls, token, rs, rfl, hls, htoken, hrs⟩ := exists_of_binary hinner
    have hleft := IsLexable.isShownBy h.1 hls
    have hright := IsLexable.isShownBy h.2 hrs
    have hplain : token.kind.isBracket = false := by rw [htoken]; rfl
    have hnested := hleft.nested.append (.plain hplain hright.nested)
    have hoperands := hderives.of_group hopening hnested hclosing nofun nofun
    rcases hoperands.group_or_built with ⟨first, us, last, heq, hfirst, hlast, hus⟩ |
      ⟨ls', token', rs', heq, htoken', ⟨s, hls'⟩, s', hrs'⟩
    · refine absurd heq.symm (group_ne_append hfirst hus.nested hlast hleft.nested ?_)
      rw [htoken]
      rfl
    · have hplain' : token'.kind.isBracket = false := by rw [htoken']; rfl
      obtain ⟨rfl, rfl⟩ := eq_of_bare_eq_nil hleft.nested hls'.nested hleft.connectives
        hright.connectives hplain hplain' (by rw [htoken']; rfl) heq
      exact ⟨ihleft h.1 hls hls', ihright h.2 hrs hrs'⟩
  | compare op left right ihleft ihright =>
    obtain ⟨ls, token, rs, rfl, hls, htoken, hrs⟩ := exists_of_binary hts
    have hleft := IsLexable.isShownBy h.1 hls
    have hright := IsLexable.isShownBy h.2 hrs
    have hplain : token.kind.isBracket = false := by rw [htoken]; rfl
    rcases hderives.group_or_built with ⟨first, us, last, heq, hfirst, hlast, hus⟩ |
      ⟨ls', token', rs', heq, htoken', hls', hrs'⟩
    · refine absurd heq.symm (group_ne_append hfirst hus.nested hlast hleft.nested ?_)
      rw [htoken]
      rfl
    · have hplain' : token'.kind.isBracket = false := by rw [htoken']; rfl
      have hnone := hls'.bare_eq_nil (p := Kind.isOperator) fun _ => id
      have hnone' := hrs'.bare_eq_nil (p := Kind.isOperator) fun _ => id
      obtain ⟨rfl, rfl⟩ := eq_of_bare_eq_nil hls'.nested hleft.nested hnone hnone' hplain' hplain
        (by rw [htoken]; rfl) heq.symm
      exact ⟨hleft.primary hnone, hright.primary hnone', ihleft h.1 hls hls', ihright h.2 hrs hrs'⟩

/-- The tightest stratum that a shown condition is read in. -/
def stratum : Condition → Stratum
  | .path _ | .literal _ | .logical _ _ _ => .primary
  | .compare _ _ _ => .comparison
  | .not _ => .negation

theorem stratum_of_isShownAsPrimary (h : e.isShownAsPrimary = true) : e.stratum = .primary := by
  cases e <;> first | rfl | cases h

theorem derives_negation (h : Derives e.stratum ts e) : Derives .negation ts e := by
  cases e with
  | path p => exact .ofComparison (.ofPrimary h)
  | literal value => exact .ofComparison (.ofPrimary h)
  | not operand => exact h
  | logical op left right => exact .ofComparison (.ofPrimary h)
  | compare op left right => exact .ofComparison h

/-- **The tokens of a shown condition derive it**, if the operands of comparisons are shown as
primaries. -/
theorem ComparesPrimaries.derives (h : e.ComparesPrimaries) (hlexable : e.IsLexable)
    (hts : TokensOf ts e.shownGlyphs) : Derives e.stratum ts e := by
  induction e generalizing ts with
  | path p => exact hlexable.derives_leaf (.inl ⟨p, rfl⟩) hts
  | literal value => exact hlexable.derives_leaf (.inr ⟨value, rfl⟩) hts
  | not operand ih =>
    obtain ⟨bang, us, rfl, ⟨hbang, -⟩, hus⟩ := tokensOf_word.mp hts
    refine .not hbang (.ofComparison (.ofPrimary ?_))
    refine derives_parenthesized (fun vs hvs => ?_) hus
    exact .ofConjunction (.ofNegation (derives_negation (ih h hlexable hvs)))
  | logical op left right ihleft ihright =>
    refine derives_parenthesized (fun us hus => ?_) hts
    obtain ⟨ls, token, rs, rfl, hls, htoken, hrs⟩ := exists_of_binary hus
    have hleft := derives_negation (ihleft h.1 hlexable.1 hls)
    have hright := derives_negation (ihright h.2 hlexable.2 hrs)
    cases op with
    | and => exact .ofConjunction (.and (.ofNegation hleft) htoken hright)
    | or => exact .or (.ofConjunction (.ofNegation hleft)) htoken (.ofNegation hright)
  | compare op left right ihleft ihright =>
    obtain ⟨ls, token, rs, rfl, hls, htoken, hrs⟩ := exists_of_binary hts
    obtain ⟨hleft, hright, hleft', hright'⟩ := h
    have hl := ihleft hleft' hlexable.1 hls
    have hr := ihright hright' hlexable.2 hrs
    rw [stratum_of_isShownAsPrimary hleft] at hl
    rw [stratum_of_isShownAsPrimary hright] at hr
    exact .compare hl htoken hr

/-- **Which conditions are read back as they are shown.**  Let the reader give a condition for some
source.  The text that shows it is scanned without a fault, and the reader takes all tokens of this
text and gives the condition again if and only if no operand of a comparison is itself a comparison
or a negation. -/
theorem text_reads_back_iff (hgiven : e.IsGiven) :
    (scan e.text).faults = [] ∧
      ((∃ r, readCondition (scan e.text).stream.stop (scan e.text).stream.tokens = .ok r ∧
        r.value = e ∧ r.rest = []) ↔ e.ComparesPrimaries) := by
  have hlexable := isGiven_iff.mp hgiven
  have htext : e.text = String.ofList (inked e.shownGlyphs) := by
    rw [inked_shownGlyphs, String.ofList_toList]
  have hscan := scan_inked (hlexable.fitsBefore_shown breaks_nil)
  rw [← htext] at hscan
  have htokens := tokensOf_placed Position.start e.shownGlyphs
  rw [hscan]
  refine ⟨rfl, ?_, fun h => ?_⟩
  · rintro ⟨r, hr, hvalue, hrest⟩
    obtain ⟨p, hp, hderives⟩ := derives_of_readDisjunction hr
    rw [hrest, List.append_nil] at hp
    rw [hvalue, ← hp] at hderives
    exact comparesPrimaries_of_derives hlexable htokens hderives
  · have hderives := derives_negation (h.derives hlexable htokens)
    have hgives (stop : Token) : Gives (readDisjunction stop
        (placed Position.start e.shownGlyphs ++ [])) e [] :=
      Derives.gives_readDisjunction (.ofConjunction (.ofNegation hderives))
        (by simp [Stratum.EndsAt])
    rw [List.append_nil] at hgives
    exact gives_iff.mp (hgives _)

/-- A connective of a comparison and a negation may be compared. -/
theorem text_of_compared_connective :
    let both : Condition := .logical .and
      (.compare .less (.path ⟨"a", ["b"]⟩) (.literal (.number "-1"))) (.not (.path ⟨"c", []⟩))
    let e : Condition := .compare .equal both (.literal (.string "on"))
    e.IsGiven ∧ e.text = "(a.b < -1 && !(c)) == \"on\"" ∧ (scan e.text).faults = [] ∧
      ∃ r, readCondition (scan e.text).stream.stop (scan e.text).stream.tokens = .ok r ∧
        r.value = e ∧ r.rest = [] := by
  intro both e
  have hpath : Path.IsLexable ⟨"a", ["b"]⟩ :=
    ⟨.word ['a'] rfl, List.forall_mem_singleton.mpr ⟨rfl, .word ['b'] rfl⟩⟩
  have hname : Path.IsLexable ⟨"c", []⟩ := ⟨.word ['c'] rfl, List.forall_mem_nil _⟩
  have hboth : both.IsLexable := ⟨⟨hpath, .inr ⟨"1", rfl, .integer ['1'] (by simp) rfl⟩⟩, hname⟩
  have hgiven : e.IsGiven := isGiven_iff.mpr ⟨hboth, (by decide : '"' ∉ "on".toList)⟩
  obtain ⟨hfaults, hreads⟩ := text_reads_back_iff hgiven
  exact ⟨hgiven, by decide +kernel, hfaults, hreads.mpr (by decide)⟩

/-- **Comparisons and negations that are compared are not read back.**  The condition `(!a) == b` is
shown as a text that is read as `!(a == b)`, and of the text that shows `a == (b == c)` only the first
comparison is read. -/
theorem text_of_compared_negation :
    let name (text : String) : Condition := .path ⟨text, []⟩
    let negation : Condition := .compare .equal (.not (name "a")) (name "b")
    let nested : Condition := .compare .equal (name "a") (.compare .equal (name "b") (name "c"))
    negation.IsGiven ∧ nested.IsGiven ∧ negation.text = "!(a) == b" ∧ nested.text = "a == b == c" ∧
      (∃ r, readCondition (scan "!(a) == b").stream.stop (scan "!(a) == b").stream.tokens = .ok r ∧
        r.value = .not (.compare .equal (name "a") (name "b")) ∧ r.rest = []) ∧
      ∃ r, readCondition (scan "a == b == c").stream.stop (scan "a == b == c").stream.tokens =
          .ok r ∧ r.value = .compare .equal (name "a") (name "b") ∧ r.rest.length = 2 := by
  intro name negation nested
  have hname {c : Char} (hc : isIdentifier [c] = true)
      (hkind : wordKind (String.ofList [c]) = .identifier) :
      Path.IsLexable ⟨String.ofList [c], []⟩ :=
    ⟨hkind ▸ (Spells.word [c] hc).isWritten, by simp⟩
  have ha : (name "a").IsLexable := hname (c := 'a') rfl rfl
  have hb : (name "b").IsLexable := hname (c := 'b') rfl rfl
  have hc : (name "c").IsLexable := hname (c := 'c') rfl rfl
  have hgives {ts : List Token} {outcome : Read Condition ts} {value : Condition} {left : Nat}
      (h : outcome.toOption.map (fun r => (r.value, r.rest.length)) = some (value, left)) :
      ∃ r, outcome = .ok r ∧ r.value = value ∧ r.rest.length = left := by
    cases outcome with
    | error fault => cases h
    | ok r => exact ⟨r, rfl, Prod.mk.inj (Option.some.inj h)⟩
  refine ⟨isGiven_iff.mpr ⟨ha, hb⟩, isGiven_iff.mpr ⟨ha, hb, hc⟩, by decide +kernel,
    by decide +kernel, ?_, hgives (by decide +kernel)⟩
  have hnegation : ∃ r, readCondition (scan "!(a) == b").stream.stop
      (scan "!(a) == b").stream.tokens = .ok r ∧
      r.value = .not (.compare .equal (name "a") (name "b")) ∧ r.rest.length = 0 :=
    hgives (by decide +kernel)
  obtain ⟨r, hr, hvalue, hleft⟩ := hnegation
  exact ⟨r, hr, hvalue, List.eq_nil_of_length_eq_zero hleft⟩

end Condition

end Shown

end UiLang
