import UiLang.Proofs.Scan.Words
import UiLang.Token.RawText

/-!
# Raw text keeps its words

Tokens that are joined to raw text are scanned back into the same words.  Where two tokens touched
in the source they touch in the raw text, and a longer word would have been taken in the source
already; where something stood between them, a blank stands there now.  Only an `else` and an `if`
that had a line end or a stray character between them are brought together by the blank.

The blanks are found again from the new locations: a word without line feeds takes as many columns
as it has characters, and after a string with a line feed the next token is in another line.

## Main definitions

* `fuseElseIf`: what an `else` before an `if` becomes
* `Joinable`: tokens that touch only where the first one ends before the second
* `Spaced`: words with at most one blank between two of them
* `rawText`: the raw text of all tokens of a source

## Main results

* `Account.joinable`: the tokens of a source are joinable
* `Spaced.join_placed`: joining the tokens of spaced words gives their text back
* `scan_join`: raw text keeps its words, and joining it again changes nothing
-/

namespace UiLang

/-- Words with every `else` before an `if` read as one `else if`. -/
def fuseElseIf : List Word → List Word
  | ⟨.keyword .elseWord, _⟩ :: ⟨.keyword .ifWord, _⟩ :: words =>
    ⟨.keyword .elseIf, "else if"⟩ :: fuseElseIf words
  | w :: words => w :: fuseElseIf words
  | [] => []

/-! ## Words in their usual form -/

section Usual

variable {kind : Kind} {text : String} {lexeme : List Char}

/-- Only an `else if` may be written in several ways. -/
theorem Spells.eq_chars (h : Spells kind text lexeme) (hkind : kind ≠ .keyword .elseIf) :
    lexeme = Word.chars ⟨kind, text⟩ := by
  have htext (hstring : kind ≠ .string) (heq : text.toList = lexeme) :
      lexeme = Word.chars ⟨kind, text⟩ := by
    rw [Word.chars, if_neg hstring, heq]
  cases h with
  | newline => rfl
  | string inner closed => simp [Word.chars]
  | integer digits some_digit all_digits => exact htext (by simp) (by simp)
  | fraction digits places some_digit some_place all_digits all_places =>
    exact htext (by simp) (by simp)
  | word letters identifier =>
    refine htext (fun habs => ?_) (by simp)
    have hletters := isLettered_wordKind (String.ofList lexeme)
    rw [habs] at hletters
    cases hletters
  | elseIf blanks some_blank all_blanks => exact absurd rfl hkind
  | symbol mark listed =>
    have all : ∀ form ∈ symbolForms, form.1 ≠ .string := by decide
    exact htext (all _ listed) (by simp)

theorem Spells.eq_elseIf (h : Spells kind text lexeme) (hkind : kind = .keyword .elseIf) :
    text = "else if" ∧ ∃ more, lexeme = 'e' :: more := by
  cases h with
  | word letters identifier => exact absurd hkind (wordKind_ne_elseIf _)
  | elseIf blanks some_blank all_blanks => exact ⟨rfl, _, rfl⟩
  | symbol mark listed =>
    have all : ∀ form ∈ symbolForms, form.1 ≠ .keyword .elseIf := by decide
    exact absurd hkind (all _ listed)
  | _ => cases hkind

theorem isWritten_elseIf : Word.IsWritten ⟨.keyword .elseIf, "else if"⟩ :=
  .elseIf [' '] (by simp) (by decide)

/-- Every word has a usual form: an `else if` is written with one blank. -/
theorem Spells.isWritten (h : Spells kind text lexeme) : Word.IsWritten ⟨kind, text⟩ := by
  by_cases hkind : kind = .keyword .elseIf
  · rw [hkind, (h.eq_elseIf hkind).1]
    exact isWritten_elseIf
  · unfold Word.IsWritten
    rwa [← h.eq_chars hkind]

theorem isWritten_string {inner : List Char} (h : '"' ∉ inner) :
    Word.IsWritten ⟨.string, String.ofList inner⟩ :=
  (Spells.string inner h).isWritten

/-- A string has no quote inside. -/
theorem Spells.notMem_quote (h : Spells kind text lexeme) (hkind : kind = .string) :
    '"' ∉ text.toList := by
  cases h with
  | string inner closed => rwa [String.toList_ofList]
  | word letters identifier =>
    have hletters := isLettered_wordKind (String.ofList lexeme)
    rw [hkind] at hletters
    cases hletters
  | symbol mark listed =>
    have all : ∀ form ∈ symbolForms, form.1 ≠ .string := by decide
    exact absurd hkind (all _ listed)
  | _ => cases hkind

/-- Every token of a source has a usual form. -/
theorem Account.isWritten {before source : List Char} {tokens : List Token}
    {faults : List Diagnostic} {stop : Token} (h : Account before source tokens faults stop) :
    ∀ t ∈ tokens, t.word.IsWritten := by
  induction h with
  | done => simp
  | token before gap lexeme after isGapRun longest nonempty rest ih =>
    exact List.forall_mem_cons.mpr ⟨longest.1.1.isWritten, ih⟩
  | stray before gap c after isGapRun not_gap not_quote no_form rest ih => exact ih
  | unterminated before gap inner isGapRun unclosed =>
    exact List.forall_mem_singleton.mpr (isWritten_string unclosed)

/-- The first character of a word does not depend on how it is written, and nothing but a point
starts with a point. -/
theorem Spells.head_chars (h : Spells kind text lexeme) :
    ∃ c tail more, lexeme = c :: tail ∧ Word.chars ⟨kind, text⟩ = c :: more ∧
      isElseBlank c = false ∧ (c = '.' → tail = [] ∧ more = []) := by
  obtain ⟨c, tail, rfl⟩ := List.exists_cons_of_ne_nil h.ne_nil
  have hpoint : c = '.' → tail = [] := by
    rintro rfl
    rcases h.cases_head with ⟨habs, -⟩ | ⟨habs, -⟩ | ⟨habs, -⟩ | ⟨habs, -⟩ | ⟨-, habs, -⟩ | hmem
    · exact absurd habs (by decide)
    · exact absurd habs (by decide)
    · exact absurd habs (by decide)
    · exact absurd habs (by decide)
    · exact absurd habs (by decide)
    · have all : ∀ form ∈ symbolForms, form.2.head? = some '.' → form.2 = ['.'] := by decide
      exact (List.cons.inj (all _ hmem rfl)).2
  have hblank : isElseBlank c = false := by
    rw [Bool.eq_false_iff]
    intro hblank
    simp only [isElseBlank, Bool.or_eq_true, beq_iff_eq] at hblank
    rcases h.cases_head with ⟨rfl, -⟩ | ⟨rfl, -⟩ | ⟨hdigit, -⟩ | ⟨hletter, -⟩ | ⟨-, rfl, -⟩ | hmem
    · exact absurd hblank (by decide)
    · exact absurd hblank (by decide)
    · rcases hblank with rfl | rfl <;> exact absurd hdigit (by decide)
    · rcases hblank with rfl | rfl <;> exact absurd hletter (by decide)
    · exact absurd hblank (by decide)
    · have hgap := (first?_of_mem_symbolForms hmem []).1
      rcases hblank with rfl | rfl <;> exact absurd hgap (by decide)
  -- only an `else if` may be written in another way than its text
  by_cases hkind : kind = .keyword .elseIf
  · obtain ⟨rfl, more, hlexeme⟩ := h.eq_elseIf hkind
    obtain ⟨rfl, -⟩ := List.cons.inj hlexeme
    subst hkind
    exact ⟨'e', tail, _, rfl, rfl, rfl, fun habs => absurd habs (by decide)⟩
  · exact ⟨c, tail, tail, rfl, (h.eq_chars hkind).symm, hblank, fun hc => ⟨hpoint hc, hpoint hc⟩⟩

end Usual

/-! ## Where a word ends, by the next characters -/

theorem Word.endsBefore_nil (w : Word) : w.EndsBefore [] :=
  ⟨fun _ => lacks_nil _, fun _ => rfl, fun _ => lacks_nil _, fun _ => .inr rfl,
    fun _ => lacks_nil _⟩

/-- Every word but an `else` ends before a blank. -/
theorem Word.endsBefore_blank {w : Word} (h : w.kind ≠ .keyword .elseWord) (after : List Char) :
    w.EndsBefore (' ' :: after) := by
  refine ⟨fun _ => ?_, fun habs => absurd habs h, fun _ => ?_, fun _ => .inr ?_, fun _ => ?_⟩
  · rw [lacks_cons]
    decide
  · rw [lacks_cons]
    decide
  · rfl
  · rw [lacks_cons]
    decide

theorem fraction_point {after : List Char} :
    fraction ('.' :: after) = [] ↔ Lacks Char.isDigit after := by
  cases after with
  | nil => exact ⟨fun _ => lacks_nil _, fun _ => rfl⟩
  | cons d after =>
    rw [lacks_cons]
    by_cases hd : d.isDigit = true <;> simp [fraction, hd]

theorem fraction_of_ne_point {c : Char} (h : c ≠ '.') (after : List Char) :
    fraction (c :: after) = [] := by
  unfold fraction
  split
  · rename_i heq
    exact absurd (List.cons.inj heq).1 h
  · rfl

/-- An `else` goes on with a blank or an `i` only. -/
theorem elseIfTail?_of_ne {c : Char} (hblank : isElseBlank c = false) (hc : c ≠ 'i')
    (after : List Char) : elseIfTail? (c :: after) = none := by
  unfold elseIfTail?
  rw [List.dropWhile_cons_of_neg (by simp [hblank])]
  split
  · rename_i heq
    exact absurd (List.cons.inj heq).1 hc
  · rfl

/-- Where a word ends depends on the next character, and after a point on the one after it. -/
theorem Word.EndsBefore.of_head {w : Word} {c : Char} {after after' : List Char}
    (h : w.EndsBefore (c :: after)) (hblank : isElseBlank c = false)
    (hpoint : c = '.' → Lacks Char.isDigit after → Lacks Char.isDigit after') :
    w.EndsBefore (c :: after') := by
  refine ⟨h.letters, fun hw => ?_, h.digits, fun hw => ?_, h.equals⟩
  · refine elseIfTail?_of_ne hblank ?_ after'
    rintro rfl
    have hletters := lacks_cons.mp (h.letters (by rw [hw]; rfl))
    exact absurd hletters (by decide)
  · refine (h.point hw).imp_right fun hfraction => ?_
    by_cases hc : c = '.'
    · subst hc
      exact fraction_point.mpr (hpoint rfl (fraction_point.mp hfraction))
    · exact fraction_of_ne_point hc after'

/-! ## Tokens as glyphs -/

/-- The glyphs of tokens that follow `previous` in raw text. -/
def glyphsAfter (previous : Token) : List Token → List Glyph
  | [] => []
  | token :: tokens =>
    (if RawText.separated previous token then [.blank] else []) ++
      .word token.word :: glyphsAfter token tokens

/-- The glyphs of tokens in raw text. -/
def glyphsOf : List Token → List Glyph
  | [] => []
  | token :: tokens => .word token.word :: glyphsAfter token tokens

/-- The tokens that are not line ends. -/
def kept (tokens : List Token) : List Token :=
  tokens.filter fun token => token.kind != .newline

theorem toList_written (token : Token) : (RawText.written token).toList = token.word.chars := by
  unfold RawText.written Word.chars Token.word
  by_cases h : token.kind = .string <;> simp [h]

theorem toList_joinAfter (previous : Token) (tokens : List Token) :
    (RawText.joinAfter previous tokens).toList = inked (glyphsAfter previous tokens) := by
  induction tokens generalizing previous with
  | nil => rfl
  | cons token tokens ih =>
    rw [RawText.joinAfter, glyphsAfter]
    by_cases h : RawText.separated previous token = true <;>
      simp [h, toList_written, ih]

/-- The raw text of tokens is the text of their glyphs. -/
theorem toList_join (tokens : List Token) :
    (RawText.join tokens).toList = inked (glyphsOf (kept tokens)) := by
  unfold RawText.join kept
  split
  · rename_i heq
    rw [heq]
    rfl
  · rename_i token rest heq
    rw [heq, glyphsOf, inked_word, String.toList_append, toList_written, toList_joinAfter]

/-! ## The tokens of a source are joinable -/

section Positions

theorem Position.advance_of_notMem {cs : List Char} (h : '\n' ∉ cs) (pos : Position) :
    pos.advance cs = ⟨pos.line, pos.column + cs.length⟩ := by
  induction cs generalizing pos with
  | nil => rfl
  | cons c cs ih =>
    obtain ⟨hc, hcs⟩ := not_or.mp (List.mem_cons.not.mp h)
    rw [Position.advance_cons, Position.next, if_neg (Ne.symm hc), ih hcs, List.length_cons]
    exact congrArg (Position.mk pos.line) (by simp only; omega)

theorem Position.line_le_advance (pos : Position) (cs : List Char) :
    pos.line ≤ (pos.advance cs).line := by
  induction cs generalizing pos with
  | nil => exact Nat.le_refl _
  | cons c cs ih =>
    refine Nat.le_trans ?_ (ih (pos.next c))
    unfold Position.next
    split
    · exact Nat.le_succ _
    · exact Nat.le_refl _

theorem Position.line_lt_advance {cs : List Char} (h : '\n' ∈ cs) (pos : Position) :
    pos.line < (pos.advance cs).line := by
  obtain ⟨front, rest, rfl⟩ := List.append_of_mem h
  rw [Position.advance_append, Position.advance_cons, Position.next, if_pos rfl]
  exact Nat.lt_of_lt_of_le (Nat.lt_succ_of_le (Position.line_le_advance pos front))
    (Position.line_le_advance ⟨(pos.advance front).line + 1, 1⟩ rest)

/-- A token and a later one are separated if something stands between them, and also if the first
one has a line feed inside. -/
theorem separated_of_later {t u : Token} {pos : Position} {lexeme more : List Char} {length : Nat}
    (ht : t.location = pos.spanning lexeme.length)
    (hu : u.location = (pos.advance (lexeme ++ more)).spanning length)
    (h : '\n' ∈ lexeme ∨ more ≠ []) : RawText.separated t u = true := by
  unfold RawText.separated
  rw [ht, hu, Bool.or_eq_true, bne_iff_ne, decide_eq_true_iff]
  by_cases hfeed : '\n' ∈ lexeme ++ more
  · exact .inl (Nat.ne_of_lt (Position.line_lt_advance hfeed pos))
  · -- all in one line, so the columns tell the gap
    refine .inr ?_
    have hmore : more ≠ [] := h.resolve_left fun hmem => hfeed (List.mem_append_left _ hmem)
    have hpos := List.length_pos_iff.mpr hmore
    rw [Position.advance_of_notMem hfeed, List.length_append]
    simp only [Position.spanning]
    omega

end Positions

/-- A token that ends where the text `before` ends. -/
def Token.EndsAt (token : Token) (before : List Char) : Prop :=
  ∃ earlier lexeme, before = earlier ++ lexeme ∧
    token.location = spanAfter earlier lexeme.length ∧
    ('\n' ∈ token.word.chars → '\n' ∈ lexeme)

/-- A token and a later one that are not separated touch, and the first one is in one line. -/
theorem Token.EndsAt.touches {t u : Token} {before more : List Char} {length : Nat}
    (ht : t.EndsAt before) (hu : u.location = spanAfter (before ++ more) length)
    (h : RawText.separated t u = false) : '\n' ∉ t.word.chars ∧ more = [] := by
  obtain ⟨earlier, lexeme, rfl, hlocation, hfeed⟩ := ht
  rw [← spanning_advance] at hlocation
  rw [← spanning_advance, List.append_assoc, Position.advance_append] at hu
  have hnot := mt (separated_of_later hlocation hu) (by simp [h])
  rw [not_or, not_not] at hnot
  exact ⟨fun hmem => hnot.1 (hfeed hmem), hnot.2⟩

/-- Every token of an account stands after the text before it. -/
theorem Account.location_eq {before text : List Char} {tokens : List Token}
    {faults : List Diagnostic} {stop : Token} (h : Account before text tokens faults stop) :
    ∀ u ∈ tokens, ∃ more length, u.location = spanAfter (before ++ more) length := by
  induction h with
  | done => simp
  | token before gap lexeme after isGapRun longest nonempty rest ih =>
    intro u hu
    rcases List.mem_cons.mp hu with rfl | hu
    · exact ⟨gap, _, rfl⟩
    · obtain ⟨more, length, hlocation⟩ := ih u hu
      exact ⟨gap ++ lexeme ++ more, length, by rw [hlocation]; simp⟩
  | stray before gap c after isGapRun not_gap not_quote no_form rest ih =>
    intro u hu
    obtain ⟨more, length, hlocation⟩ := ih u hu
    exact ⟨gap ++ [c] ++ more, length, by rw [hlocation]; simp⟩
  | unterminated before gap inner isGapRun unclosed =>
    intro u hu
    rw [List.mem_singleton.mp hu]
    exact ⟨gap, _, rfl⟩

/-- No token of an account touches a token that ended before something else. -/
theorem Account.separated_of_gap {before gap text : List Char} {tokens : List Token}
    {faults : List Diagnostic} {stop : Token} (h : Account (before ++ gap) text tokens faults stop)
    (hgap : gap ≠ []) {t u : Token} (ht : t.EndsAt before) (hu : u ∈ tokens) :
    RawText.separated t u ≠ false := by
  intro hsep
  obtain ⟨more, length, hlocation⟩ := h.location_eq u hu
  rw [List.append_assoc] at hlocation
  have hnil := (ht.touches hlocation hsep).2
  exact hgap (List.append_eq_nil_iff.mp hnil).1

theorem mem_of_kept {tokens : List Token} {u : Token} {us : List Token}
    (h : kept tokens = u :: us) : u ∈ tokens :=
  List.mem_of_mem_filter (h ▸ List.mem_cons_self : u ∈ kept tokens)

/-- The next token that is not separated from `t` starts the text after `t`; if it is a point, the
account goes on right after that point. -/
theorem Account.touching {before text : List Char} {tokens : List Token}
    {faults : List Diagnostic} {stop : Token} (h : Account before text tokens faults stop)
    {t u : Token} {us : List Token} (ht : t.EndsAt before) (hkept : kept tokens = u :: us)
    (hsep : RawText.separated t u = false) :
    '\n' ∉ t.word.chars ∧ ∃ c tail more, text = c :: tail ∧ u.word.chars = c :: more ∧
      isElseBlank c = false ∧
      (c = '.' → more = [] ∧ u.EndsAt (before ++ [c]) ∧
        ∃ tokens', Account (before ++ [c]) tail tokens' faults stop ∧ us = kept tokens') := by
  cases h with
  | done _ gap isGapRun => cases hkept
  | token _ gap lexeme after isGapRun longest nonempty rest =>
    rename_i kind text tokens
    by_cases hnewline : kind = .newline
    · -- a line end stands between the two tokens
      have hu : u ∈ tokens := mem_of_kept (by simpa [kept, hnewline] using hkept)
      rw [List.append_assoc] at rest
      exact absurd hsep (rest.separated_of_gap (by simp [nonempty]) ht hu)
    · obtain ⟨rfl, rfl⟩ : _ ∧ _ := List.cons.inj
        (show _ :: kept tokens = u :: us by simpa [kept, hnewline] using hkept)
      obtain ⟨hfeed, rfl⟩ := ht.touches rfl hsep
      obtain ⟨c, tail, more, rfl, hchars, hblank, hpoint⟩ := longest.1.1.head_chars
      refine ⟨hfeed, c, tail ++ after, more, by simp, hchars, hblank, ?_⟩
      rintro rfl
      obtain ⟨rfl, rfl⟩ := hpoint rfl
      refine ⟨rfl, ⟨before, ['.'], rfl, by simp, ?_⟩, tokens, by simpa using rest, rfl⟩
      intro hmem
      rw [← hchars]
      exact hmem
  | stray _ gap c after isGapRun not_gap not_quote no_form rest =>
    -- the stray character keeps the two tokens apart
    rw [List.append_assoc] at rest
    exact absurd hsep (rest.separated_of_gap (by simp) ht (mem_of_kept hkept))
  | unterminated _ gap inner isGapRun unclosed =>
    obtain ⟨rfl, rfl⟩ : _ ∧ _ := List.cons.inj hkept
    obtain ⟨hfeed, rfl⟩ := ht.touches rfl hsep
    exact ⟨hfeed, '"', inner, _, rfl, rfl, rfl, fun habs => absurd habs (by decide)⟩

/-- Tokens without line ends that are written in their usual form and touch only where the first
one ends before the second. -/
inductive Joinable : List Token → Prop
  | nil : Joinable []
  | cons (t : Token) (ts : List Token) (kind : t.kind ≠ .newline) (written : t.word.IsWritten)
      (touching : ∀ u us, ts = u :: us → RawText.separated t u = false →
        '\n' ∉ t.word.chars ∧ t.word.EndsBefore (inked (glyphsOf ts)))
      (rest : Joinable ts) : Joinable (t :: ts)

/-- What follows a point in raw text starts with a digit only if it did so in the source. -/
theorem Account.lacks_glyphsAfter {before text : List Char} {tokens : List Token}
    {faults : List Diagnostic} {stop : Token} (h : Account before text tokens faults stop)
    {t : Token} (ht : t.EndsAt before) (hlacks : Lacks Char.isDigit text) :
    Lacks Char.isDigit (inked (glyphsAfter t (kept tokens))) := by
  cases hkept : kept tokens with
  | nil => exact lacks_nil _
  | cons u us =>
    rw [glyphsAfter]
    cases hsep : RawText.separated t u with
    | true => exact lacks_cons.mpr (by decide)
    | false =>
      obtain ⟨-, c, tail, more, rfl, hchars, -⟩ := h.touching ht hkept hsep
      simp only [Bool.false_eq_true, if_false, List.nil_append, inked_word, hchars,
        List.cons_append]
      exact hlacks

/-- **The tokens of a source are joinable.** -/
theorem Account.joinable {before text : List Char} {tokens : List Token}
    {faults : List Diagnostic} {stop : Token} (h : Account before text tokens faults stop) :
    Joinable (kept tokens) := by
  induction h with
  | done => exact .nil
  | token before gap lexeme after isGapRun longest nonempty rest ih =>
    rename_i kind text tokens faults stop
    by_cases hnewline : kind = .newline
    · simpa [kept, hnewline] using ih
    · have hcons : kept (⟨kind, text, spanAfter (before ++ gap) lexeme.length⟩ :: tokens) =
          ⟨kind, text, spanAfter (before ++ gap) lexeme.length⟩ :: kept tokens := by
        simp [kept, hnewline]
      rw [hcons]
      refine .cons _ _ hnewline longest.1.1.isWritten ?_ ih
      intro u us hkept hsep
      have ht : Token.EndsAt ⟨kind, text, spanAfter (before ++ gap) lexeme.length⟩
          (before ++ gap ++ lexeme) := by
        refine ⟨before ++ gap, lexeme, rfl, rfl, fun hmem => ?_⟩
        by_cases hkind : kind = .keyword .elseIf
        · obtain ⟨rfl, -⟩ := longest.1.1.eq_elseIf hkind
          subst hkind
          exact absurd (show '\n' ∈ Word.chars ⟨.keyword .elseIf, "else if"⟩ from hmem) (by decide)
        · rw [longest.1.1.eq_chars hkind]
          exact hmem
      obtain ⟨hfeed, c, tail, more, rfl, hchars, hblank, hpoint⟩ := rest.touching ht hkept hsep
      refine ⟨hfeed, ?_⟩
      rw [hkept, glyphsOf, inked_word, hchars, List.cons_append]
      refine longest.endsBefore.of_head hblank fun hc hlacks => ?_
      -- an integer before a point: the point has to stay one
      obtain ⟨rfl, hu, tokens', haccount, rfl⟩ := hpoint hc
      exact haccount.lacks_glyphsAfter hu hlacks
  | stray before gap c after isGapRun not_gap not_quote no_form rest ih => exact ih
  | unterminated before gap inner isGapRun unclosed =>
    exact .cons _ _ (by simp) (isWritten_string unclosed) (by simp) .nil

/-! ## Bringing `else` and `if` together -/

theorem Spells.eq_word {kind : Kind} {text : String} {c : Char} {cs : List Char}
    (h : Spells kind text (c :: cs)) (hc : isIdentifierStart c = true) (he : c ≠ 'e') :
    kind = wordKind (String.ofList (c :: cs)) ∧ ∀ d ∈ cs, isIdentifierChar d = true := by
  generalize hlexeme : c :: cs = lexeme at h
  have hhead : lexeme.head? = some c := by rw [← hlexeme]; rfl
  cases h with
  | newline =>
    obtain rfl := Option.some.inj hhead
    exact absurd hc (by decide)
  | string inner closed =>
    obtain rfl := Option.some.inj hhead
    exact absurd hc (by decide)
  | integer digits some_digit all_digits =>
    have hdigit := List.all_eq_true.mp all_digits c (List.mem_of_mem_head? hhead)
    rw [not_isIdentifierStart_of_isDigit hdigit] at hc
    cases hc
  | fraction digits places some_digit some_place all_digits all_places =>
    obtain ⟨d, digits, rfl⟩ := List.exists_cons_of_ne_nil some_digit
    obtain rfl := Option.some.inj hhead
    have hdigit : d.isDigit = true := List.all_eq_true.mp all_digits d List.mem_cons_self
    rw [not_isIdentifierStart_of_isDigit hdigit] at hc
    cases hc
  | word letters identifier =>
    subst hlexeme
    exact ⟨rfl, (isIdentifier_cons.mp identifier).2⟩
  | elseIf blanks some_blank all_blanks => exact absurd (Option.some.inj hhead).symm he
  | symbol mark listed =>
    subst hlexeme
    rw [(head_of_mem_symbolForms listed).2.2.2] at hc
    cases hc

/-- After a blank, only the word `if` makes an `else` an `else if`. -/
theorem elseIfTail?_of_isWritten {w : Word} {after : List Char} (h : w.IsWritten)
    (hkind : w.kind ≠ .keyword .ifWord)
    (hafter : w.kind.isLettered = true → Lacks isIdentifierChar after) :
    elseIfTail? (' ' :: (w.chars ++ after)) = none := by
  rw [Option.eq_none_iff_forall_ne_some]
  intro width htail
  obtain ⟨blanks, rest, heq, hblanks, hrest, -⟩ := elseIfTail?_eq_some_iff.mp htail
  obtain ⟨c, -, more, -, hchars, hblank, -⟩ := Spells.head_chars h
  change w.chars = c :: more at hchars
  -- the blanks are the one blank, so the word starts with the `i` of the `if`
  rcases blanks with _ | ⟨b, _ | ⟨b', blanks⟩⟩
  · exact absurd (List.cons.inj heq).1 (by decide)
  · have hfront : c :: (more ++ after) = 'i' :: 'f' :: rest := by
      have := (List.cons.inj heq).2
      rwa [hchars] at this
    obtain ⟨rfl, hf⟩ := List.cons.inj hfront
    unfold Word.IsWritten at h
    rw [hchars] at h
    obtain ⟨hword, hmore⟩ := h.eq_word rfl (by decide)
    rcases more with _ | ⟨d, _ | ⟨e, more⟩⟩
    · have hlacks := hafter (by rw [hword]; exact isLettered_wordKind _)
      rw [List.nil_append] at hf
      rw [hf, lacks_cons] at hlacks
      exact absurd hlacks (by decide)
    · obtain ⟨rfl, -⟩ := List.cons.inj hf
      exact hkind hword
    · have hnot := hrest e (by rw [← (List.cons.inj hf).2]; rfl)
      rw [hmore e (by simp)] at hnot
      cases hnot
  · have hfront := (List.cons.inj heq).2
    rw [hchars] at hfront
    rw [(List.cons.inj hfront).1] at hblank
    rw [hblanks b' (by simp)] at hblank
    cases hblank

/-- Words that are no line ends, with at most one blank between two of them.  Each one ends before
what follows it, and after a word with a line feed stands a blank. -/
inductive Spaced : List Glyph → Prop
  | nil : Spaced []
  | last (w : Word) (kind : w.kind ≠ .newline) (written : w.IsWritten) : Spaced [.word w]
  | touching (w v : Word) (glyphs : List Glyph) (kind : w.kind ≠ .newline)
      (written : w.IsWritten) (feed : '\n' ∉ w.chars)
      (ends : w.EndsBefore (inked (.word v :: glyphs))) (rest : Spaced (.word v :: glyphs)) :
      Spaced (.word w :: .word v :: glyphs)
  | apart (w v : Word) (glyphs : List Glyph) (kind : w.kind ≠ .newline) (written : w.IsWritten)
      (ends : w.EndsBefore (' ' :: inked (.word v :: glyphs))) (rest : Spaced (.word v :: glyphs)) :
      Spaced (.word w :: .blank :: .word v :: glyphs)

/-- An `else if` may stand where an `if` may. -/
theorem Spaced.elseIf {glyphs : List Glyph}
    (h : Spaced (.word ⟨.keyword .ifWord, "if"⟩ :: glyphs)) :
    Spaced (.word ⟨.keyword .elseIf, "else if"⟩ :: glyphs) := by
  have hends {after : List Char} (hif : Word.EndsBefore ⟨.keyword .ifWord, "if"⟩ after) :
      Word.EndsBefore ⟨.keyword .elseIf, "else if"⟩ after :=
    Word.endsBefore_of_isLettered rfl (hif.letters rfl) nofun
  cases h with
  | last _ kind written => exact .last _ (by simp) isWritten_elseIf
  | touching _ v glyphs kind written feed ends rest =>
    exact .touching _ v glyphs (by simp) isWritten_elseIf (by decide) (hends ends) rest
  | apart _ v glyphs kind written ends rest =>
    exact .apart _ v glyphs (by simp) isWritten_elseIf (hends ends) rest

theorem fuseElseIf_of_not {w : Word} {words : List Word}
    (h : ∀ v more, words = v :: more → ¬(w.kind = .keyword .elseWord ∧ v.kind = .keyword .ifWord)) :
    fuseElseIf (w :: words) = w :: fuseElseIf words := by
  rw [fuseElseIf]
  rintro text text' more rfl rfl
  exact h _ _ rfl ⟨rfl, rfl⟩

theorem eq_if_of_wordKind {text : String} (h : wordKind text = .keyword .ifWord) : text = "if" :=
  eq_text_of_wordKind h

/-- A word of letters is an identifier, and its kind is found from the letters. -/
theorem Word.IsWritten.of_isLettered {w : Word} (h : w.IsWritten)
    (hletters : w.kind.isLettered = true) (hkind : w.kind ≠ .keyword .elseIf) :
    wordKind w.text = w.kind ∧ isIdentifier w.text.toList = true := by
  obtain ⟨kind, text⟩ := w
  unfold Word.IsWritten at h
  generalize Word.chars ⟨kind, text⟩ = lexeme at h
  cases h with
  | word letters identifier =>
    refine ⟨rfl, ?_⟩
    show isIdentifier (String.ofList lexeme).toList = true
    rwa [String.toList_ofList]
  | elseIf blanks some_blank all_blanks => exact absurd rfl hkind
  | symbol mark listed =>
    rw [(kind_of_mem_symbolForms listed).1] at hletters
    cases hletters
  | _ => cases hletters

theorem Word.IsWritten.eq_else {w : Word} (h : w.IsWritten) (hkind : w.kind = .keyword .elseWord) :
    w = ⟨.keyword .elseWord, "else"⟩ := by
  have htext := eq_else_of_wordKind
    ((h.of_isLettered (by rw [hkind]; rfl) (by simp [hkind])).1.trans hkind)
  rw [← hkind, ← htext]

theorem Word.IsWritten.eq_if {w : Word} (h : w.IsWritten) (hkind : w.kind = .keyword .ifWord) :
    w = ⟨.keyword .ifWord, "if"⟩ := by
  have htext := eq_if_of_wordKind
    ((h.of_isLettered (by rw [hkind]; rfl) (by simp [hkind])).1.trans hkind)
  rw [← hkind, ← htext]

theorem Joinable.isWritten {t : Token} {ts : List Token} (h : Joinable (t :: ts)) :
    t.word.IsWritten := by
  cases h with
  | cons _ _ kind written touching rest => exact written

theorem Joinable.tail {t : Token} {ts : List Token} (h : Joinable (t :: ts)) : Joinable ts := by
  cases h with
  | cons _ _ kind written touching rest => exact rest

theorem Joinable.lacks_glyphsAfter {t : Token} {ts : List Token} (h : Joinable (t :: ts))
    (hletters : t.kind.isLettered = true) :
    Lacks isIdentifierChar (inked (glyphsAfter t ts)) := by
  cases h with
  | cons _ _ kind written touching rest =>
    cases ts with
    | nil => exact lacks_nil _
    | cons u us =>
      rw [glyphsAfter]
      cases hsep : RawText.separated t u with
      | true => exact lacks_cons.mpr (by decide)
      | false => exact ((touching u us rfl hsep).2).letters hletters

/-- An `else` does not touch an `if`. -/
theorem Joinable.separated_of_else {t u : Token} {us : List Token} (h : Joinable (t :: u :: us))
    (ht : t.kind = .keyword .elseWord) (hu : u.word = ⟨.keyword .ifWord, "if"⟩) :
    RawText.separated t u = true := by
  by_contra hsep
  have hlacks := h.lacks_glyphsAfter (by rw [ht]; rfl)
  rw [glyphsAfter, if_neg hsep, List.nil_append, inked_word, hu] at hlacks
  exact absurd (lacks_cons.mp hlacks) (by decide)

/-- An `else` ends before the blank in front of a word that is no `if`. -/
theorem Joinable.endsBefore_blank {t u : Token} {us : List Token} (h : Joinable (t :: u :: us))
    (hnot : ¬(t.kind = .keyword .elseWord ∧ u.kind = .keyword .ifWord)) :
    t.word.EndsBefore (' ' :: inked (glyphsOf (u :: us))) := by
  by_cases ht : t.kind = .keyword .elseWord
  · have hu : u.kind ≠ .keyword .ifWord := fun hu => hnot ⟨ht, hu⟩
    refine Word.endsBefore_of_isLettered (by rw [Token.word, ht]; rfl)
      (lacks_cons.mpr (by decide)) fun _ => ?_
    exact elseIfTail?_of_isWritten h.tail.isWritten hu h.tail.lacks_glyphsAfter
  · exact Word.endsBefore_blank ht _

/-- **Joinable tokens have a spaced text**, in which every `else` before an `if` is one word with
it. -/
theorem Joinable.exists_spaced {ts : List Token} (h : Joinable ts) :
    ∃ glyphs, Spaced glyphs ∧ inked glyphs = inked (glyphsOf ts) ∧
      wordsOf glyphs = fuseElseIf (ts.map Token.word) ∧
      ∀ t us, ts = t :: us → ∃ v more, glyphs = .word v :: more ∧
        (t.kind ≠ .keyword .elseWord → v = t.word) := by
  induction h with
  | nil => exact ⟨[], .nil, rfl, rfl, by simp⟩
  | cons t ts kind written touching rest ih =>
    have hwhole : Joinable (t :: ts) := .cons t ts kind written touching rest
    cases ts with
    | nil =>
      refine ⟨[.word t.word], .last _ kind written, rfl, ?_, ?_⟩
      · rw [List.map_cons, fuseElseIf_of_not (by simp)]
        rfl
      · rintro _ _ ⟨⟩
        exact ⟨t.word, [], rfl, fun _ => rfl⟩
    | cons u us =>
      obtain ⟨_, hspaced, hinked, hwords, hhead⟩ := ih
      obtain ⟨v, more, rfl, hv⟩ := hhead u us rfl
      by_cases hboth : t.kind = .keyword .elseWord ∧ u.kind = .keyword .ifWord
      · -- the two words become one, written with the blank between them
        obtain ⟨ht, hu⟩ := hboth
        have htword : t.word = ⟨.keyword .elseWord, "else"⟩ := written.eq_else ht
        have huword : u.word = ⟨.keyword .ifWord, "if"⟩ := rest.isWritten.eq_if hu
        obtain rfl : v = ⟨.keyword .ifWord, "if"⟩ := (hv (by simp [hu])).trans huword
        rw [glyphsOf, inked_word, inked_word, huword] at hinked
        rw [List.map_cons, huword, fuseElseIf_of_not (by simp), wordsOf_word] at hwords
        refine ⟨.word ⟨.keyword .elseIf, "else if"⟩ :: more, hspaced.elseIf, ?_, ?_, ?_⟩
        · rw [glyphsOf, glyphsAfter, if_pos (hwhole.separated_of_else ht huword), inked_word,
            inked_word, List.append_cancel_left hinked, htword, huword]
          rfl
        · rw [List.map_cons, List.map_cons, htword, huword, fuseElseIf,
            ← (List.cons.inj hwords).2, wordsOf_word]
        · rintro _ _ ⟨⟩
          exact ⟨_, _, rfl, fun habs => absurd ht habs⟩
      · -- the two words stay two words, with the blank between them or without one
        have hfuse : fuseElseIf ((t :: u :: us).map Token.word) =
            t.word :: fuseElseIf ((u :: us).map Token.word) := by
          refine fuseElseIf_of_not fun v' more' heq => ?_
          obtain ⟨rfl, -⟩ := List.cons.inj heq
          exact hboth
        cases hsep : RawText.separated t u with
        | true =>
          have hends := hwhole.endsBefore_blank hboth
          rw [← hinked] at hends
          refine ⟨.word t.word :: .blank :: .word v :: more,
            .apart _ _ _ kind written hends hspaced, ?_, ?_, ?_⟩
          · rw [glyphsOf, glyphsAfter, if_pos hsep, inked_word, inked_blank, hinked]
            rfl
          · rw [hfuse, ← hwords]
            rfl
          · rintro _ _ ⟨⟩
            exact ⟨_, _, rfl, fun _ => rfl⟩
        | false =>
          obtain ⟨hfeed, hends⟩ := touching u us rfl hsep
          rw [← hinked] at hends
          refine ⟨.word t.word :: .word v :: more, .touching _ _ _ kind written hfeed hends hspaced,
            ?_, ?_, ?_⟩
          · rw [glyphsOf, glyphsAfter, hsep, inked_word, hinked]
            rfl
          · rw [hfuse, ← hwords]
            rfl
          · rintro _ _ ⟨⟩
            exact ⟨_, _, rfl, fun _ => rfl⟩

/-! ## Joining again -/

namespace Spaced

theorem fitsBefore {glyphs : List Glyph} (h : Spaced glyphs) : FitsBefore [] glyphs := by
  induction h with
  | nil => trivial
  | last w kind written => exact ⟨written, w.endsBefore_nil, trivial⟩
  | touching w v glyphs kind written feed ends rest ih =>
    exact ⟨written, by rwa [List.append_nil], ih⟩
  | apart w v glyphs kind written ends rest ih =>
    exact ⟨written, by rwa [List.append_nil], ih⟩

/-- The locations tell where the blanks were. -/
theorem glyphsOf_placed {glyphs : List Glyph} (h : Spaced glyphs) (pos : Position) :
    glyphsOf (kept (placed pos glyphs)) = glyphs := by
  have hkept {t : Token} {ts : List Token} (hkind : t.kind ≠ .newline) :
      kept (t :: ts) = t :: kept ts := by
    simp [kept, hkind]
  induction h generalizing pos with
  | nil => rfl
  | last w kind written =>
    rw [placed, hkept kind]
    rfl
  | touching w v glyphs kind written feed ends rest ih =>
    have hrest := ih (pos.advance w.chars)
    have hv : v.kind ≠ .newline := by cases rest <;> assumption
    rw [placed, hkept hv, glyphsOf] at hrest
    rw [placed, hkept kind, placed, hkept hv, glyphsOf, glyphsAfter, hrest]
    -- `v` starts in the column where `w` ends, so no blank shows between them
    have hsep : RawText.separated ⟨w.kind, w.text, pos.spanning w.chars.length⟩
        ⟨v.kind, v.text, (pos.advance w.chars).spanning v.chars.length⟩ = false := by
      rw [Position.advance_of_notMem feed]
      simp [RawText.separated, Position.spanning]
    rw [hsep]
    rfl
  | apart w v glyphs kind written ends rest ih =>
    have hrest := ih (pos.advance (w.chars ++ [' ']))
    have hv : v.kind ≠ .newline := by cases rest <;> assumption
    rw [placed, hkept hv, glyphsOf] at hrest
    -- the blank puts the start of `v` one column further
    have hplaced : placed pos (.word w :: .blank :: .word v :: glyphs) =
        ⟨w.kind, w.text, pos.spanning w.chars.length⟩ ::
          placed (pos.advance (w.chars ++ [' '])) (.word v :: glyphs) := by
      rw [Position.advance_append]
      rfl
    rw [hplaced, hkept kind, placed, hkept hv, glyphsOf, glyphsAfter, hrest,
      if_pos (separated_of_later rfl rfl (.inr (by simp)))]
    rfl

/-- **Joining the tokens of spaced words gives their text back.** -/
theorem join_placed {glyphs : List Glyph} (h : Spaced glyphs) (pos : Position) :
    RawText.join (placed pos glyphs) = String.ofList (inked glyphs) := by
  rw [← String.toList_inj, toList_join, h.glyphsOf_placed, String.toList_ofList]

end Spaced

/-- The raw text of all tokens of a source. -/
def rawText (source : String) : String :=
  RawText.join (scan source).stream.tokens

/-- **Raw text keeps its words.**  The raw text of all tokens of a source is scanned without faults
into the words of the source, without its line ends and with every `else` before an `if` as one
`else if`.  Joining those tokens gives the same raw text again. -/
theorem scan_join (source : String) :
    (scan (rawText source)).faults = [] ∧
      (scan (rawText source)).stream.tokens.map Token.word =
        fuseElseIf (((scan source).stream.tokens.filter fun token =>
          token.kind != .newline).map Token.word) ∧
      rawText (rawText source) = rawText source := by
  obtain ⟨glyphs, hspaced, hinked, hwords, -⟩ :=
    (account_scanFrom [] source.toList).joinable.exists_spaced
  have hraw : rawText source = String.ofList (inked glyphs) := by
    rw [rawText, ← String.toList_inj, toList_join, hinked, String.toList_ofList]
    rfl
  rw [hraw, rawText, scan_inked hspaced.fitsBefore]
  refine ⟨rfl, ?_, ?_⟩
  · rw [map_word_placed, hwords]
    rfl
  · exact hspaced.join_placed _

end UiLang
