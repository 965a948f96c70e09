import UiLang.Proofs.Condition.Grammar
import UiLang.Proofs.Scan.Joined

/-!
# Conditions as they are written

A condition is written with parentheses around every negation, connective and comparison.  Its
leaves are lexable when each of them is written with words that the scanner knows: names that are
not reserved, decimals with an optional sign, and strings without a quote inside.  Then the text is
scanned back into the words that it was put together from, and these derive the condition.

Every condition that the reader gives for the tokens of a source has lexable leaves.

## Main definitions

* `Breaks`: a text that no word in front of it goes on with
* `Path.IsLexable`, `Literal.IsLexable`, `Condition.IsLexable`: leaves that can be written
* `Path.glyphs`, `Literal.glyphs`, `Condition.glyphs`: how they are written

## Main results

* `Condition.IsLexable.fitsBefore`, `Condition.IsLexable.derives`: a written condition is scanned
  back into words that derive it
* `Condition.IsLexable.gives`: the reader gives it for the tokens of its text
* `Derives.isLexable`: what is derived from words of a source is lexable
* `readCondition_follows_grammar`: the reader of conditions and their grammar
-/

namespace UiLang

/-! ## Where every word ends -/

/-- Every word ends where this text starts. -/
def Breaks (after : List Char) : Prop :=
  ∀ w : Word, w.EndsBefore after

section Breaks

variable {w : Word} {after : List Char}

theorem breaks_nil : Breaks [] :=
  Word.endsBefore_nil

theorem isDigit_of_not_isIdentifierChar {c : Char} (h : isIdentifierChar c = false) :
    c.isDigit = false := by
  simp only [isIdentifierChar, Char.isAlphanum, Bool.or_eq_false_iff] at h
  exact h.1.2

/-- A mark that is part of no longer word breaks off every word. -/
theorem breaks_cons {c : Char} (hletter : isIdentifierChar c = false)
    (hblank : isElseBlank c = false) (hpoint : c ≠ '.') (hequals : c ≠ '=') :
    Breaks (c :: after) := by
  have hi : c ≠ 'i' := by
    rintro rfl
    cases hletter
  intro w
  refine ⟨fun _ => lacks_cons.mpr hletter, fun _ => elseIfTail?_of_ne hblank hi after,
    fun _ => lacks_cons.mpr (isDigit_of_not_isIdentifierChar hletter),
    fun _ => .inr (fraction_of_ne_point hpoint after), fun _ => ?_⟩
  rw [lacks_cons, beq_eq_false_iff_ne]
  exact hequals

/-- A blank breaks off every word, as long as no `if` comes after it. -/
theorem breaks_blank (h : w.IsWritten) (hkind : w.kind ≠ .keyword .ifWord)
    (hafter : w.kind.isLettered = true → Lacks isIdentifierChar after) :
    Breaks (' ' :: (w.chars ++ after)) := by
  intro v
  by_cases hv : v.kind = .keyword .elseWord
  · exact Word.endsBefore_of_isLettered (by rw [hv]; rfl) (lacks_cons.mpr (by decide))
      fun _ => elseIfTail?_of_isWritten h hkind hafter
  · exact Word.endsBefore_blank hv _

/-- Words that are neither letters nor digits, and that no equals sign makes longer, end
anywhere. -/
theorem Word.endsBefore_any (hletters : w.kind.isLettered = false) (hnumber : w.kind ≠ .number)
    (hequals : w.kind.takesEquals = false) : w.EndsBefore after := by
  refine ⟨fun habs => ?_, fun habs => ?_, fun habs => absurd habs hnumber,
    fun habs => absurd habs hnumber, fun habs => ?_⟩
  · rw [hletters] at habs
    cases habs
  · rw [habs] at hletters
    cases hletters
  · rw [hequals] at habs
    cases habs

/-- Words of letters end before a point. -/
theorem Word.endsBefore_point (h : w.kind.isLettered = true) : w.EndsBefore ('.' :: after) :=
  Word.endsBefore_of_isLettered h (lacks_cons.mpr (by decide))
    fun _ => elseIfTail?_of_ne (by decide) (by decide) after

/-- Only two marks start with an equals sign. -/
theorem Word.IsWritten.lacks_equals (h : w.IsWritten) (hassign : w.kind ≠ .assign)
    (hequal : w.kind ≠ .comparison .equal) : Lacks (· == '=') (w.chars ++ after) := by
  obtain ⟨c, tail, more, -, hchars, -⟩ := Spells.head_chars h
  rw [show w.chars = c :: more from hchars, List.cons_append, lacks_cons, beq_eq_false_iff_ne]
  rintro rfl
  unfold Word.IsWritten at h
  rw [show w.chars = '=' :: more from hchars] at h
  rcases h.cases_head with ⟨habs, -⟩ | ⟨habs, -⟩ | ⟨habs, -⟩ | ⟨habs, -⟩ | ⟨-, habs, -⟩ | hmem
  · exact absurd habs (by decide)
  · exact absurd habs (by decide)
  · exact absurd habs (by decide)
  · exact absurd habs (by decide)
  · exact absurd habs (by decide)
  · have all : ∀ form ∈ symbolForms, form.2.head? = some '=' →
        form.1 = .assign ∨ form.1 = .comparison .equal := by decide
    exact (all _ hmem rfl).elim hassign hequal

/-- A mark is written as itself. -/
theorem isWritten_mark {kind : Kind} {mark : List Char} (h : (kind, mark) ∈ symbolForms) :
    Word.IsWritten ⟨kind, String.ofList mark⟩ :=
  (Spells.symbol mark h).isWritten

end Breaks

/-! ## Lexable leaves -/

/-- A field as a word: any word may follow a point, reserved ones too. -/
def fieldWord (field : String) : Word :=
  if field = "else if" then ⟨.keyword .elseIf, field⟩ else ⟨wordKind field, field⟩

/-- The root is an identifier and every field is a word. -/
structure Path.IsLexable (path : Path) : Prop where
  root : Word.IsWritten ⟨.identifier, path.root⟩
  fields : ∀ field ∈ path.fields, (fieldWord field).kind.isWord = true ∧ (fieldWord field).IsWritten

/-- A decimal, with a minus sign or without one. -/
def IsNumeral (text : String) : Prop :=
  Word.IsWritten ⟨.number, text⟩ ∨ ∃ digits, text = "-" ++ digits ∧ Word.IsWritten ⟨.number, digits⟩

/-- Strings have no quote inside, numbers are decimals. -/
def Literal.IsLexable : Literal → Prop
  | .string text => '"' ∉ text.toList
  | .number text => IsNumeral text
  | .boolean _ => True
  | .null => True

/-- All leaves are lexable. -/
def Condition.IsLexable : Condition → Prop
  | .path p => p.IsLexable
  | .literal value => value.IsLexable
  | .not operand => operand.IsLexable
  | .logical _ left right => left.IsLexable ∧ right.IsLexable
  | .compare _ left right => left.IsLexable ∧ right.IsLexable

/-! ## How they are written -/

/-- Fields, each after a point. -/
def fieldGlyphs : List String → List Glyph
  | [] => []
  | field :: fields => .word ⟨.dot, "."⟩ :: .word (fieldWord field) :: fieldGlyphs fields

def Path.glyphs (path : Path) : List Glyph :=
  .word ⟨.identifier, path.root⟩ :: fieldGlyphs path.fields

/-- A number; a sign is a word of its own. -/
def numberGlyphs (text : String) : List Glyph :=
  match text.toList with
  | '-' :: digits => [.word ⟨.minus, "-"⟩, .word ⟨.number, String.ofList digits⟩]
  | _ => [.word ⟨.number, text⟩]

def Literal.glyphs : Literal → List Glyph
  | .string text => [.word ⟨.string, text⟩]
  | .number text => numberGlyphs text
  | .boolean value => [.word ⟨.boolean, boolText value⟩]
  | .null => [.word ⟨.null, "null"⟩]

/-- Glyphs in parentheses. -/
def parenthesized (glyphs : List Glyph) : List Glyph :=
  .word ⟨.opening .round, "("⟩ :: glyphs ++ [.word ⟨.closing .round, ")"⟩]

/-- A condition with parentheses around everything that is not a leaf. -/
def Condition.glyphs : Condition → List Glyph
  | .path p => p.glyphs
  | .literal value => value.glyphs
  | .not operand => parenthesized (.word ⟨.bang, "!"⟩ :: operand.glyphs)
  | .logical op left right =>
    parenthesized (left.glyphs ++
      .blank :: .word ⟨.connective op, op.symbol⟩ :: .blank :: right.glyphs)
  | .compare op left right =>
    parenthesized (left.glyphs ++
      .blank :: .word ⟨.comparison op, op.symbol⟩ :: .blank :: right.glyphs)

/-- The text of a condition with all its parentheses. -/
def Condition.parenthesizedText (condition : Condition) : String :=
  String.ofList (inked condition.glyphs)

example : (Condition.logical .and (.compare .less (.path ⟨"a", ["b"]⟩) (.literal (.number "-1")))
    (.not (.path ⟨"c", []⟩))).parenthesizedText = "((a.b < -1) && (!c))" := by
  rfl

/-! ## The text is scanned back -/

section Fits

variable {after : List Char}

theorem isLettered_of_isWord {kind : Kind} (h : kind.isWord = true) : kind.isLettered = true := by
  cases kind with
  | keyword word => rfl
  | identifier => rfl
  | _ => cases h

theorem endsBefore_fieldGlyphs {w : Word} (hw : w.kind.isLettered = true) (hafter : Breaks after)
    (fields : List String) : w.EndsBefore (inked (fieldGlyphs fields) ++ after) := by
  cases fields with
  | nil => exact hafter w
  | cons field fields => exact Word.endsBefore_point hw

theorem fitsBefore_fieldGlyphs (hafter : Breaks after) {fields : List String}
    (h : ∀ field ∈ fields, (fieldWord field).kind.isWord = true ∧ (fieldWord field).IsWritten) :
    FitsBefore after (fieldGlyphs fields) := by
  induction fields with
  | nil => trivial
  | cons field fields ih =>
    obtain ⟨⟨hword, hwritten⟩, hrest⟩ := List.forall_mem_cons.mp h
    refine ⟨isWritten_mark (by decide), Word.endsBefore_any rfl (by simp) rfl, hwritten, ?_,
      ih hrest⟩
    exact endsBefore_fieldGlyphs (isLettered_of_isWord hword) hafter fields

theorem Path.IsLexable.fitsBefore {path : Path} (h : path.IsLexable) (hafter : Breaks after) :
    FitsBefore after path.glyphs :=
  ⟨h.root, endsBefore_fieldGlyphs rfl hafter path.fields, fitsBefore_fieldGlyphs hafter h.fields⟩

/-- How a numeral is written. -/
theorem IsNumeral.glyphs_eq {text : String} (h : IsNumeral text) :
    (numberGlyphs text = [.word ⟨.number, text⟩] ∧ Word.IsWritten ⟨.number, text⟩) ∨
      ∃ digits, text = "-" ++ digits ∧
        numberGlyphs text = [.word ⟨.minus, "-"⟩, .word ⟨.number, digits⟩] ∧
        Word.IsWritten ⟨.number, digits⟩ := by
  rcases h with hwritten | ⟨digits, rfl, hwritten⟩
  · refine .inl ⟨?_, hwritten⟩
    unfold numberGlyphs
    split
    · rename_i digits htext
      -- a decimal starts with a digit
      unfold Word.IsWritten at hwritten
      rw [Word.chars, if_neg (by simp), htext] at hwritten
      exact absurd (hwritten.isDigit_head rfl) (by decide)
    · rfl
  · exact .inr ⟨digits, rfl, by simp [numberGlyphs], hwritten⟩

/-- Without its sign a numeral is a decimal. -/
theorem IsNumeral.of_sign {digits : String} (h : IsNumeral ("-" ++ digits)) :
    Word.IsWritten ⟨.number, digits⟩ := by
  rcases h.glyphs_eq with ⟨hglyphs, -⟩ | ⟨digits', heq, -, hwritten⟩
  · simp [numberGlyphs] at hglyphs
  · obtain rfl : digits = digits' := by simpa [← String.toList_inj] using heq
    exact hwritten

theorem Literal.IsLexable.fitsBefore {value : Literal} (h : value.IsLexable)
    (hafter : Breaks after) : FitsBefore after value.glyphs := by
  cases value with
  | string text =>
    refine ⟨?_, hafter _, trivial⟩
    have hwritten := isWritten_string h
    rwa [String.ofList_toList] at hwritten
  | number text =>
    rw [Literal.glyphs]
    rcases IsNumeral.glyphs_eq h with ⟨hglyphs, hwritten⟩ | ⟨digits, rfl, hglyphs, hwritten⟩
    · rw [hglyphs]
      exact ⟨hwritten, hafter _, trivial⟩
    · rw [hglyphs]
      exact ⟨isWritten_mark (by decide), Word.endsBefore_any rfl (by simp) rfl, hwritten, hafter _,
        trivial⟩
  | boolean value =>
    refine ⟨?_, hafter _, trivial⟩
    cases value with
    | true => exact Spells.word "true".toList (by decide)
    | false => exact Spells.word "false".toList (by decide)
  | null => exact ⟨Spells.word "null".toList (by decide), hafter _, trivial⟩

/-- Glyphs that start with a word, and not with an equals sign. -/
def Opens (glyphs : List Glyph) : Prop :=
  ∃ w rest, glyphs = .word w :: rest ∧ w.kind ≠ .assign ∧ w.kind ≠ .comparison .equal

theorem FitsBefore.lacks_equals {glyphs : List Glyph} (h : FitsBefore after glyphs)
    (hopens : Opens glyphs) : Lacks (· == '=') (inked glyphs ++ after) := by
  obtain ⟨w, rest, rfl, hassign, hequal⟩ := hopens
  rw [inked_word, List.append_assoc]
  exact h.1.lacks_equals hassign hequal

theorem opens_numberGlyphs (text : String) : Opens (numberGlyphs text) := by
  unfold numberGlyphs
  split
  · exact ⟨_, _, rfl, by simp, by simp⟩
  · exact ⟨_, _, rfl, by simp, by simp⟩

theorem Condition.opens (e : Condition) : Opens e.glyphs := by
  cases e with
  | literal value =>
    cases value with
    | number text => exact opens_numberGlyphs text
    | _ => exact ⟨_, _, rfl, by simp, by simp⟩
  | _ => exact ⟨_, _, rfl, by simp, by simp⟩

theorem breaks_round : Breaks (')' :: after) :=
  breaks_cons (by decide) (by decide) (by decide) (by decide)

theorem breaks_comma : Breaks (',' :: after) :=
  breaks_cons (by decide) (by decide) (by decide) (by decide)

theorem breaks_brace : Breaks ('\x7d' :: after) :=
  breaks_cons (by decide) (by decide) (by decide) (by decide)

theorem breaks_square : Breaks (']' :: after) :=
  breaks_cons (by decide) (by decide) (by decide) (by decide)

/-- A mark that nothing makes longer may stand anywhere. -/
theorem fitsBefore_mark {kind : Kind} (mark : List Char) {glyphs : List Glyph}
    (hmark : (kind, mark) ∈ symbolForms) (hequals : kind.takesEquals = false)
    (h : FitsBefore after glyphs) :
    FitsBefore after (.word ⟨kind, String.ofList mark⟩ :: glyphs) := by
  obtain ⟨hletters, hnumber⟩ := kind_of_mem_symbolForms hmark
  exact ⟨isWritten_mark hmark, Word.endsBefore_any hletters hnumber hequals, h⟩

theorem fitsBefore_parenthesized {glyphs : List Glyph} (h : FitsBefore (')' :: after) glyphs) :
    FitsBefore after (parenthesized glyphs) := by
  refine ⟨isWritten_mark (by decide), Word.endsBefore_any rfl (by simp) rfl, ?_⟩
  refine fitsBefore_append.mpr ⟨h, isWritten_mark (by decide), ?_, trivial⟩
  exact Word.endsBefore_any rfl (by simp) rfl

/-- Two operands with an operator between them. -/
theorem fitsBefore_operands {op : Word} {left right : List Glyph} (hop : op.IsWritten)
    (hkind : op.kind.isLettered = false)
    (hleft : ∀ after, Breaks after → FitsBefore after left) (hright : FitsBefore after right) :
    FitsBefore after (left ++ .blank :: .word op :: .blank :: right) := by
  have hne {word : Keyword} : op.kind ≠ .keyword word := by
    intro habs
    rw [habs] at hkind
    cases hkind
  refine fitsBefore_append.mpr ⟨hleft _ ?_, hop, ?_, hright⟩
  · rw [inked_blank, inked_word, List.cons_append, List.append_assoc]
    refine breaks_blank hop hne fun habs => ?_
    rw [hkind] at habs
    cases habs
  · exact Word.endsBefore_blank hne _

/-- Two operands with an operator between them, in parentheses. -/
theorem fitsBefore_binary {op : Word} {left right : List Glyph} (hop : op.IsWritten)
    (hkind : op.kind.isLettered = false)
    (hleft : ∀ after, Breaks after → FitsBefore after left)
    (hright : ∀ after, Breaks after → FitsBefore after right) :
    FitsBefore after (parenthesized (left ++ .blank :: .word op :: .blank :: right)) :=
  fitsBefore_parenthesized (fitsBefore_operands hop hkind hleft (hright _ breaks_round))

theorem Connective.isWritten (op : Connective) : Word.IsWritten ⟨.connective op, op.symbol⟩ := by
  cases op with
  | and => exact isWritten_mark (by decide)
  | or => exact isWritten_mark (by decide)

theorem Comparison.isWritten (op : Comparison) : Word.IsWritten ⟨.comparison op, op.symbol⟩ := by
  cases op <;> exact isWritten_mark (by decide)

/-- **A written condition is scanned back**, wherever it stands. -/
theorem Condition.IsLexable.fitsBefore {e : Condition} (h : e.IsLexable) (hafter : Breaks after) :
    FitsBefore after e.glyphs := by
  induction e generalizing after with
  | path p => exact Path.IsLexable.fitsBefore h hafter
  | literal value => exact Literal.IsLexable.fitsBefore h hafter
  | not operand ih =>
    have hinner : FitsBefore (')' :: after) operand.glyphs := ih h breaks_round
    refine fitsBefore_parenthesized ⟨isWritten_mark (by decide), ?_, hinner⟩
    refine ⟨nofun, nofun, nofun, nofun, fun _ => ?_⟩
    exact hinner.lacks_equals operand.opens
  | logical op left right ihleft ihright =>
    exact fitsBefore_binary op.isWritten rfl (fun _ => ihleft h.1) (fun _ => ihright h.2)
  | compare op left right ihleft ihright =>
    exact fitsBefore_binary op.isWritten rfl (fun _ => ihleft h.1) (fun _ => ihright h.2)

end Fits

/-! ## The words derive the condition -/

section Derived

variable {ts : List Token}

theorem derivesFields_of_tokensOf {fields : List String}
    (h : ∀ field ∈ fields, (fieldWord field).kind.isWord = true)
    (hts : TokensOf ts (fieldGlyphs fields)) : DerivesFields ts fields := by
  induction fields generalizing ts with
  | nil =>
    obtain rfl := tokensOf_nil.mp hts
    exact .nil
  | cons field fields ih =>
    obtain ⟨hfield, hfields⟩ := List.forall_mem_cons.mp h
    obtain ⟨point, us, rfl, ⟨hpoint, -⟩, hus⟩ := tokensOf_word.mp hts
    obtain ⟨token, vs, rfl, ⟨hkind, htext⟩, hvs⟩ : ∃ token vs, us = token :: vs ∧
        (token.kind = (fieldWord field).kind ∧ token.text = (fieldWord field).text) ∧
        TokensOf vs (fieldGlyphs fields) := tokensOf_word.mp hus
    have hfieldText : (fieldWord field).text = field := by
      unfold fieldWord
      split <;> rfl
    rw [← hfieldText, ← htext]
    exact .cons point token vs fields hpoint (by rw [hkind]; exact hfield) (ih hfields hvs)

/-- The words of a path. -/
theorem Path.IsLexable.derives {path : Path} (h : path.IsLexable)
    (hts : TokensOf ts path.glyphs) :
    ∃ root us, ts = root :: us ∧ root.kind = .identifier ∧ root.text = path.root ∧
      DerivesFields us path.fields := by
  obtain ⟨root, us, rfl, ⟨hkind, htext⟩, hus⟩ := tokensOf_word.mp hts
  exact ⟨root, us, rfl, hkind, htext,
    derivesFields_of_tokensOf (fun field hfield => (h.fields field hfield).1) hus⟩

theorem Literal.IsLexable.derives {value : Literal} (h : value.IsLexable)
    (hts : TokensOf ts value.glyphs) : Derives .primary ts (.literal value) := by
  cases value with
  | string text =>
    obtain ⟨token, rfl, hkind, rfl⟩ := tokensOf_single.mp hts
    exact .string hkind
  | number text =>
    rw [Literal.glyphs] at hts
    rcases IsNumeral.glyphs_eq h with ⟨hglyphs, -⟩ | ⟨digits, rfl, hglyphs, -⟩
    · rw [hglyphs] at hts
      obtain ⟨token, rfl, hkind, rfl⟩ := tokensOf_single.mp hts
      exact .number hkind
    · rw [hglyphs] at hts
      obtain ⟨minus, us, rfl, ⟨hminus, -⟩, hus⟩ := tokensOf_word.mp hts
      obtain ⟨token, rfl, hkind, rfl⟩ := tokensOf_single.mp hus
      exact .negative hminus hkind
  | boolean value =>
    obtain ⟨token, rfl, hkind, htext⟩ := tokensOf_single.mp hts
    have hvalue : (token.text == "true") = value := by
      rw [htext]
      cases value <;> rfl
    rw [← hvalue]
    exact .boolean hkind
  | null =>
    obtain ⟨token, rfl, hkind, -⟩ := tokensOf_single.mp hts
    exact .null hkind

theorem derives_parenthesized {glyphs : List Glyph} {e : Condition}
    (h : ∀ us, TokensOf us glyphs → Derives .disjunction us e)
    (hts : TokensOf ts (parenthesized glyphs)) : Derives .primary ts e := by
  obtain ⟨opening, us, rfl, ⟨hopening, -⟩, hus⟩ := tokensOf_word.mp hts
  obtain ⟨inner, last, rfl, hinner, hlast⟩ := tokensOf_append.mp hus
  obtain ⟨closing, rfl, hclosing, -⟩ := tokensOf_single.mp hlast
  exact .group hopening (h inner hinner) hclosing

/-- The words of two operands with an operator between them. -/
theorem exists_of_binary {kind : Kind} {text : String} {left right : List Glyph}
    (hts : TokensOf ts (left ++ .blank :: .word ⟨kind, text⟩ :: .blank :: right)) :
    ∃ p token q, ts = p ++ token :: q ∧ TokensOf p left ∧ token.kind = kind ∧
      TokensOf q right := by
  obtain ⟨p, us, rfl, hp, hus⟩ := tokensOf_append.mp hts
  obtain ⟨token, q, rfl, ⟨hkind, -⟩, hq⟩ := tokensOf_word.mp (tokensOf_blank.mp hus)
  exact ⟨p, token, q, rfl, hp, hkind, tokensOf_blank.mp hq⟩

/-- **The words of a condition derive it**, as a primary. -/
theorem Condition.IsLexable.derives {e : Condition} (h : e.IsLexable)
    (hts : TokensOf ts e.glyphs) : Derives .primary ts e := by
  induction e generalizing ts with
  | path p =>
    obtain ⟨root, us, rfl, hkind, htext, hfields⟩ := Path.IsLexable.derives h hts
    obtain ⟨name, fields⟩ := p
    obtain rfl : root.text = name := htext
    exact .path hkind hfields
  | literal value => exact Literal.IsLexable.derives h hts
  | not operand ih =>
    refine derives_parenthesized (fun us hus => ?_) hts
    obtain ⟨bang, vs, rfl, ⟨hbang, -⟩, hvs⟩ := tokensOf_word.mp hus
    refine .ofConjunction (.ofNegation (.not hbang ?_))
    exact .ofComparison (.ofPrimary (ih h hvs))
  | logical op left right ihleft ihright =>
    refine derives_parenthesized (fun us hus => ?_) hts
    obtain ⟨p, token, q, rfl, hp, hkind, hq⟩ := exists_of_binary hus
    have hleft : Derives .negation p left := .ofComparison (.ofPrimary (ihleft h.1 hp))
    have hright : Derives .negation q right := .ofComparison (.ofPrimary (ihright h.2 hq))
    cases op with
    | and => exact .ofConjunction (.and (.ofNegation hleft) hkind hright)
    | or => exact .or (.ofConjunction (.ofNegation hleft)) hkind (.ofNegation hright)
  | compare op left right ihleft ihright =>
    refine derives_parenthesized (fun us hus => ?_) hts
    obtain ⟨p, token, q, rfl, hp, hkind, hq⟩ := exists_of_binary hus
    refine .ofConjunction (.ofNegation (.ofComparison ?_))
    exact .compare (ihleft h.1 hp) hkind (ihright h.2 hq)

end Derived

/-! ## What is derived from words is lexable -/

section Lexable

/-- A word that may follow a point is found from its text. -/
theorem fieldWord_text {w : Word} (h : w.IsWritten) (hword : w.kind.isWord = true) :
    fieldWord w.text = w := by
  unfold fieldWord
  by_cases hkind : w.kind = .keyword .elseIf
  · obtain ⟨htext, -⟩ := Spells.eq_elseIf h hkind
    rw [if_pos htext, ← hkind]
  · obtain ⟨hkind', hletters⟩ := h.of_isLettered (isLettered_of_isWord hword) hkind
    rw [if_neg, hkind']
    -- an `else if` has a blank inside, so it is no identifier
    intro htext
    rw [htext] at hletters
    exact absurd hletters (by decide)

theorem DerivesFields.isLexable {ts : List Token} {fields : List String}
    (h : DerivesFields ts fields) (hts : ∀ t ∈ ts, t.word.IsWritten) :
    ∀ field ∈ fields, (fieldWord field).kind.isWord = true ∧ (fieldWord field).IsWritten := by
  induction h with
  | nil => simp
  | cons point field ts fields dot word rest ih =>
    obtain ⟨-, hfield, hrest⟩ :=
      (List.forall_mem_cons.mp hts).imp_right List.forall_mem_cons.mp
    refine List.forall_mem_cons.mpr ⟨?_, ih hrest⟩
    rw [show field.text = field.word.text from rfl, fieldWord_text hfield word]
    exact ⟨word, hfield⟩

/-- **What is derived from words is lexable.** -/
theorem Derives.isLexable {stratum : Stratum} {p : List Token} {e : Condition}
    (h : Derives stratum p e) (hp : ∀ t ∈ p, t.word.IsWritten) : e.IsLexable := by
  have hkind {token : Token} {kind : Kind} (htoken : token.word.IsWritten)
      (heq : token.kind = kind) : Word.IsWritten ⟨kind, token.text⟩ := by
    rw [← heq]
    exact htoken
  induction h with
  | ofConjunction inner ih => exact ih hp
  | or left kind right ihleft ihright =>
    obtain ⟨hleft, hright⟩ := List.forall_mem_append.mp hp
    exact ⟨ihleft hleft, ihright (List.forall_mem_cons.mp hright).2⟩
  | ofNegation inner ih => exact ih hp
  | and left kind right ihleft ihright =>
    obtain ⟨hleft, hright⟩ := List.forall_mem_append.mp hp
    exact ⟨ihleft hleft, ihright (List.forall_mem_cons.mp hright).2⟩
  | not kind operand ih => exact ih (List.forall_mem_cons.mp hp).2
  | ofComparison inner ih => exact ih hp
  | compare left kind right ihleft ihright =>
    obtain ⟨hleft, hright⟩ := List.forall_mem_append.mp hp
    exact ⟨ihleft hleft, ihright (List.forall_mem_cons.mp hright).2⟩
  | ofPrimary inner ih => exact ih hp
  | path kind rest =>
    obtain ⟨hroot, hrest⟩ := List.forall_mem_cons.mp hp
    exact ⟨hkind hroot kind, rest.isLexable hrest⟩
  | number kind => exact .inl (hkind (hp _ (by simp)) kind)
  | negative sign kind => exact .inr ⟨_, rfl, hkind (hp _ (by simp)) kind⟩
  | string kind => exact Spells.notMem_quote (hp _ (by simp)) kind
  | boolean kind => trivial
  | null kind => trivial
  | group opens inner closes ih =>
    refine ih fun t ht => hp t ?_
    simp [ht]

end Lexable

/-- **A written condition is read back** from the tokens of its text. -/
theorem Condition.IsLexable.gives {e : Condition} (h : e.IsLexable) (stop : Token) :
    (scan e.parenthesizedText).faults = [] ∧
      Gives (readCondition stop (scan e.parenthesizedText).stream.tokens) e [] := by
  rw [Condition.parenthesizedText, scan_inked (h.fitsBefore breaks_nil)]
  refine ⟨rfl, ?_⟩
  have hderives := h.derives (tokensOf_placed Position.start e.glyphs)
  have hwhole : Derives .disjunction (placed Position.start e.glyphs) e :=
    .ofConjunction (.ofNegation (.ofComparison (.ofPrimary hderives)))
  have hgives : Gives (readDisjunction stop (placed Position.start e.glyphs ++ [])) e [] :=
    hwhole.gives_readDisjunction (by simp [Stratum.EndsAt])
  rwa [List.append_nil] at hgives

/-- **The reader of conditions follows their grammar.**  What it takes from the front of any tokens
derives what it gives.  Tokens that derive a condition are taken whole and give that condition, as
long as the next token is no connective, no comparison and no point.  And every condition with
lexable leaves is given for the tokens of its text with all parentheses. -/
theorem readCondition_follows_grammar (stop : Token) :
    (∀ ts r, readCondition stop ts = .ok r →
      ∃ p, ts = p ++ r.rest ∧ Derives .disjunction p r.value) ∧
    (∀ p rest e, Derives .disjunction p e → Stratum.disjunction.EndsAt rest →
      ∃ r, readCondition stop (p ++ rest) = .ok r ∧ r.value = e ∧ r.rest = rest) ∧
    ∀ e : Condition, e.IsLexable →
      (scan e.parenthesizedText).faults = [] ∧
      ∃ r, readCondition stop (scan e.parenthesizedText).stream.tokens = .ok r ∧ r.value = e ∧
        r.rest = [] := by
  refine ⟨?_, ?_, ?_⟩
  · intro ts r h
    exact derives_of_readDisjunction h
  · intro p rest e h hrest
    exact gives_iff.mp (h.gives_readDisjunction hrest)
  · intro e h
    exact (h.gives stop).imp_right gives_iff.mp

/-- `!` binds tighter than `&&`, which binds tighter than `||`; with all parentheses the condition
is the same. -/
theorem readCondition_mixed_operators :
    let token (kind : Kind) (text : String) : Token := ⟨kind, text, Position.start.spanning 1⟩
    let brace := token (.opening .brace) "\x7b"
    let e : Condition := .logical .or (.path ⟨"a", []⟩) (.logical .and (.not (.path ⟨"b", []⟩))
      (.compare .less (.path ⟨"c", []⟩) (.literal (.number "-1"))))
    (∃ r, readCondition (token .eof "") ([token .identifier "a", token (.connective .or) "||",
        token .bang "!", token .identifier "b", token (.connective .and) "&&",
        token .identifier "c", token (.comparison .less) "<", token .minus "-",
        token .number "1"] ++ [brace]) = .ok r ∧ r.value = e ∧ r.rest = [brace]) ∧
      (scan e.parenthesizedText).faults = [] ∧
      ∃ r, readCondition (token .eof "") (scan e.parenthesizedText).stream.tokens = .ok r ∧
        r.value = e ∧ r.rest = [] := by
  intro token brace e
  have hname {p : List Char} (hp : isIdentifier p = true)
      (hkind : wordKind (String.ofList p) = .identifier) :
      Path.IsLexable ⟨String.ofList p, []⟩ :=
    ⟨hkind ▸ (Spells.word p hp).isWritten, by simp⟩
  obtain ⟨-, hcomplete, hwritten⟩ := readCondition_follows_grammar (token .eof "")
  refine ⟨hcomplete _ [brace] e ?_ (by simp [Stratum.EndsAt, Stratum.goesOn, brace, token]),
    hwritten e ?_⟩
  · have hpath {name : Token} (h : name.kind = .identifier) :
        Derives .comparison [name] (.path ⟨name.text, []⟩) := .ofPrimary (.path h .nil)
    refine .or (p := [_]) (.ofConjunction (.ofNegation (.ofComparison (hpath rfl)))) rfl ?_
    refine .and (p := [_, _]) (.ofNegation (.not rfl (.ofComparison (hpath rfl)))) rfl ?_
    exact .ofComparison (.compare (p := [_]) (.path rfl .nil) rfl (.negative rfl rfl))
  · exact ⟨hname (p := ['a']) rfl rfl, hname (p := ['b']) rfl rfl, hname (p := ['c']) rfl rfl,
      .inr ⟨"1", rfl, .integer ['1'] (by simp) rfl⟩⟩

end UiLang
