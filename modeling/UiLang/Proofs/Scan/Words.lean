import UiLang.Proofs.Scan.Account

/-!
# Words, and where they end

A word is what a token says, wherever it stands: its kind and its text.  Whether the scanner takes
a word exactly as it is written is decided by the first characters after it.  Letters and digits go
on with letters and digits, an integer goes on with a point and a digit, four marks go on with an
equals sign, and an `else` goes on with blanks and an `if`.  Nothing else goes on at all.

Texts that are put together from words and blanks are scanned back into those words, as long as
each word ends where the next character stands.

## Main definitions

* `Word`, `Word.chars`, `Word.IsWritten`: words as they are written
* `Word.EndsBefore`: no longer word starts at the same place
* `Glyph`, `inked`, `FitsBefore`, `placed`: texts put together from words and blanks
* `TokensOf`: the tokens of such a text

## Main results

* `IsLongest.endsBefore`: the longest form ends before what follows it
* `scanFrom_of_spells`: a written form that ends before what follows it is taken as it is
* `scanFrom_inked`, `scan_inked`: a text put together from words is scanned back into them
-/

namespace UiLang

/-- What a token says, wherever it stands. -/
structure Word where
  kind : Kind
  text : String
  deriving DecidableEq, Repr

def Token.word (token : Token) : Word :=
  ⟨token.kind, token.text⟩

namespace Word

/-- How a word is written: a string gets its quotes back. -/
def chars (w : Word) : List Char :=
  if w.kind = .string then '"' :: w.text.toList ++ ['"'] else w.text.toList

/-- A word that the scanner knows in the form in which it is written. -/
def IsWritten (w : Word) : Prop :=
  Spells w.kind w.text w.chars

end Word

/-- The text does not go on with a character of the class `p`. -/
def Lacks (p : Char → Bool) (after : List Char) : Prop :=
  ∀ c ∈ after.head?, p c = false

theorem lacks_nil (p : Char → Bool) : Lacks p [] := by
  simp [Lacks]

theorem lacks_cons {p : Char → Bool} {c : Char} {after : List Char} :
    Lacks p (c :: after) ↔ p c = false := by
  simp [Lacks]

/-- Kinds that are written with letters. -/
def Kind.isLettered : Kind → Bool
  | .keyword _ | .identifier | .boolean | .null => true
  | _ => false

/-- Marks that an equals sign makes longer. -/
def Kind.takesEquals : Kind → Bool
  | .assign | .bang | .comparison .greater | .comparison .less => true
  | _ => false

/-- A word ends where the text `after` starts: no longer word starts at the same place. -/
structure Word.EndsBefore (w : Word) (after : List Char) : Prop where
  letters : w.kind.isLettered = true → Lacks isIdentifierChar after
  blanks : w.kind = .keyword .elseWord → elseIfTail? after = none
  digits : w.kind = .number → Lacks Char.isDigit after
  point : w.kind = .number → '.' ∈ w.text.toList ∨ fraction after = []
  equals : w.kind.takesEquals = true → Lacks (· == '=') after

theorem isLettered_wordKind (text : String) : (wordKind text).isLettered = true := by
  unfold wordKind
  split <;> rfl

/-- A kind that is written with letters is neither a number nor a mark. -/
theorem Kind.of_isLettered {kind : Kind} (h : kind.isLettered = true) :
    kind ≠ .number ∧ kind.takesEquals = false := by
  cases kind with
  | keyword word => exact ⟨by simp, rfl⟩
  | identifier => exact ⟨by simp, rfl⟩
  | boolean => exact ⟨by simp, rfl⟩
  | null => exact ⟨by simp, rfl⟩
  | _ => cases h

/-! ## The longest form ends before what follows it -/

/-- A word of letters goes on with letters only, unless it is an `else`. -/
theorem Word.endsBefore_of_isLettered {w : Word} {after : List Char}
    (hw : w.kind.isLettered = true) (h : Lacks isIdentifierChar after)
    (helse : w.kind = .keyword .elseWord → elseIfTail? after = none) : w.EndsBefore after := by
  obtain ⟨hnumber, hequals⟩ := Kind.of_isLettered hw
  exact ⟨fun _ => h, helse, fun habs => absurd habs hnumber, fun habs => absurd habs hnumber,
    fun habs => by rw [hequals] at habs; cases habs⟩

/-- A number goes on with digits, and with a fraction if it has none. -/
theorem Word.endsBefore_number {text : String} {after : List Char} (h : Lacks Char.isDigit after)
    (hpoint : '.' ∈ text.toList ∨ fraction after = []) :
    Word.EndsBefore ⟨.number, text⟩ after :=
  ⟨nofun, nofun, fun _ => h, fun _ => hpoint, nofun⟩

section Longest

variable {kind : Kind} {text : String} {lexeme after : List Char}

/-- A form cannot be made longer by what follows the longest one. -/
theorem IsLongest.not_stands (h : IsLongest kind text lexeme after) {more after' : List Char}
    (hafter : after = more ++ after') (hmore : more ≠ []) (kind' : Kind) (text' : String) :
    ¬ Stands kind' text' (lexeme ++ more) after' := by
  intro hstands
  have hle := h.2 _ _ _ after' (by rw [hafter, List.append_assoc]) hstands
  have hpos := List.length_pos_iff.mpr hmore
  rw [List.length_append] at hle
  omega

/-- A class of characters with which every form would go on is not what follows. -/
theorem IsLongest.lacks (h : IsLongest kind text lexeme after) {p : Char → Bool}
    (hlonger : ∀ c, p c = true → ∃ kind' text', kind' ≠ .keyword .elseIf ∧
      Spells kind' text' (lexeme ++ [c])) : Lacks p after := by
  cases after with
  | nil => exact lacks_nil p
  | cons c after =>
    rw [lacks_cons, Bool.eq_false_iff]
    intro hc
    obtain ⟨kind', text', hkind, hspells⟩ := hlonger c hc
    have hafter : c :: after = [c] ++ after := rfl
    exact h.not_stands hafter (by simp) kind' text' ⟨hspells, fun habs => absurd habs hkind⟩

theorem fraction_eq_nil_or (after : List Char) :
    fraction after = [] ∨ ∃ d rest, after = '.' :: d :: rest ∧ d.isDigit = true := by
  unfold fraction
  split
  · rename_i d rest
    by_cases hd : d.isDigit = true
    · exact .inr ⟨d, rest, rfl, hd⟩
    · exact .inl (if_neg hd)
  · exact .inl rfl

theorem isIdentifier_append_singleton {letters : List Char} {c : Char}
    (h : isIdentifier letters = true) (hc : isIdentifierChar c = true) :
    isIdentifier (letters ++ [c]) = true := by
  cases letters with
  | nil => cases h
  | cons d letters =>
    obtain ⟨hd, hall⟩ := isIdentifier_cons.mp h
    refine isIdentifier_cons.mpr ⟨hd, ?_⟩
    intro e he
    rcases List.mem_append.mp he with he | he
    · exact hall e he
    · rw [List.mem_singleton.mp he]
      exact hc

/-- A mark is neither a number nor written with letters. -/
theorem kind_of_mem_symbolForms {mark : List Char} (hmem : (kind, mark) ∈ symbolForms) :
    kind.isLettered = false ∧ kind ≠ .number := by
  have all : ∀ form ∈ symbolForms, form.1.isLettered = false ∧ form.1 ≠ .number := by decide
  exact all _ hmem

theorem mem_symbolForms_of_takesEquals {mark : List Char} (hmem : (kind, mark) ∈ symbolForms)
    (hkind : kind.takesEquals = true) :
    ∃ longer, longer ≠ .keyword .elseIf ∧ (longer, mark ++ ['=']) ∈ symbolForms := by
  have all : ∀ form ∈ symbolForms, form.1.takesEquals = true →
      ∃ longer ∈ symbolForms, longer.1 ≠ .keyword .elseIf ∧ longer.2 = form.2 ++ ['='] := by
    decide
  obtain ⟨⟨longer, _⟩, hlonger, hne, rfl⟩ := all _ hmem hkind
  exact ⟨longer, hne, hlonger⟩

/-- **The longest form ends before what follows it.**  Otherwise what follows would make it
longer. -/
theorem IsLongest.endsBefore (h : IsLongest kind text lexeme after) :
    Word.EndsBefore ⟨kind, text⟩ after := by
  cases h.1.1 with
  | newline => exact ⟨nofun, nofun, nofun, nofun, nofun⟩
  | string inner closed => exact ⟨nofun, nofun, nofun, nofun, nofun⟩
  | integer digits some_digit all_digits =>
    have hdigits : ∀ c, c.isDigit = true → (lexeme ++ [c]).all Char.isDigit = true := by
      intro c hc
      rw [List.all_append, all_digits]
      simp [hc]
    refine Word.endsBefore_number
      (h.lacks fun c hc => ⟨.number, _, by simp, .integer _ (by simp) (hdigits c hc)⟩) (.inr ?_)
    rcases fraction_eq_nil_or after with hnil | ⟨d, rest, rfl, hd⟩
    · exact hnil
    · -- the point and the digit would belong to the number
      have hafter : '.' :: d :: rest = ['.', d] ++ rest := rfl
      refine absurd ?_ (h.not_stands hafter (by simp) .number (String.ofList (lexeme ++ ['.', d])))
      exact ⟨.fraction lexeme [d] some_digit (by simp) all_digits (by simp [hd]), by simp⟩
  | fraction digits places some_digit some_place all_digits all_places =>
    refine Word.endsBefore_number (h.lacks fun c hc => ?_) (.inl (by simp))
    refine ⟨.number, String.ofList (digits ++ '.' :: (places ++ [c])), by simp, ?_⟩
    rw [List.append_assoc, List.cons_append]
    refine .fraction digits (places ++ [c]) some_digit (by simp) all_digits ?_
    rw [List.all_append, all_places]
    simp [hc]
  | word letters identifier =>
    have hlacks : Lacks isIdentifierChar after := h.lacks fun c hc =>
      ⟨_, _, wordKind_ne_elseIf _, .word _ (isIdentifier_append_singleton identifier hc)⟩
    refine Word.endsBefore_of_isLettered (isLettered_wordKind _) hlacks fun hkind => ?_
    cases htail : elseIfTail? after with
    | none => rfl
    | some width =>
      -- the blanks and the `if` would belong to the `else`
      obtain ⟨blanks, rest, hafter, hblanks, hrest, -⟩ := elseIfTail?_eq_some_iff.mp htail
      have hne : blanks ≠ [] := by
        rintro rfl
        rw [hafter, List.nil_append, lacks_cons] at hlacks
        exact absurd hlacks (by decide)
      have hletters : lexeme = ['e', 'l', 's', 'e'] := by
        have := congrArg String.toList (eq_else_of_wordKind hkind)
        simpa using this
      have hmore : after = blanks ++ ['i', 'f'] ++ rest := by simp [hafter]
      refine absurd ?_ (h.not_stands hmore (by simp) (.keyword .elseIf) "else if")
      rw [hletters, ← List.append_assoc]
      exact ⟨.elseIf blanks hne (List.all_eq_true.mpr hblanks), fun _ => hrest⟩
  | elseIf blanks some_blank all_blanks =>
    exact Word.endsBefore_of_isLettered rfl (h.1.2 rfl) nofun
  | symbol mark listed =>
    obtain ⟨hletters, hnumber⟩ := kind_of_mem_symbolForms listed
    refine ⟨fun habs => ?_, fun habs => ?_, fun habs => absurd habs hnumber,
      fun habs => absurd habs hnumber, fun hequals => h.lacks fun c hc => ?_⟩
    · rw [hletters] at habs
      cases habs
    · cases (habs : kind = _)
      cases hletters
    · obtain ⟨longer, hne, hmem⟩ := mem_symbolForms_of_takesEquals listed hequals
      rw [beq_iff_eq.mp hc]
      exact ⟨longer, _, hne, .symbol _ hmem⟩

end Longest

/-! ## A written word is taken as it is -/

section Taken

variable {p : Char → Bool} {front after : List Char}

theorem takeWhile_append_of_lacks (hfront : ∀ a ∈ front, p a = true) (hafter : Lacks p after) :
    (front ++ after).takeWhile p = front := by
  cases after with
  | nil => rw [List.append_nil, List.takeWhile_eq_self_iff.mpr hfront]
  | cons c after => exact takeWhile_append_of_all hfront (lacks_cons.mp hafter) after

theorem dropWhile_append_of_lacks (hfront : ∀ a ∈ front, p a = true) (hafter : Lacks p after) :
    (front ++ after).dropWhile p = after := by
  cases after with
  | nil => rw [List.append_nil, List.dropWhile_eq_nil_iff.mpr hfront]
  | cons c after => exact dropWhile_append_of_all hfront (lacks_cons.mp hafter) after

theorem decimalPart_of_integer (hfront : ∀ d ∈ front, d.isDigit = true)
    (hafter : Lacks Char.isDigit after) (hfraction : fraction after = []) :
    decimalPart (front ++ after) = front := by
  rw [decimalPart, takeWhile_append_of_lacks hfront hafter, dropWhile_append_of_lacks hfront hafter,
    hfraction, List.append_nil]

theorem decimalPart_of_fraction {places : List Char} (hfront : ∀ d ∈ front, d.isDigit = true)
    (hne : places ≠ []) (hplaces : ∀ d ∈ places, d.isDigit = true)
    (hafter : Lacks Char.isDigit after) :
    decimalPart (front ++ '.' :: places ++ after) = front ++ '.' :: places := by
  obtain ⟨p, places, rfl⟩ := List.exists_cons_of_ne_nil hne
  have hp : p.isDigit = true := hplaces p List.mem_cons_self
  have htake := takeWhile_append_of_lacks
    (fun d hd => hplaces d (List.mem_cons_of_mem p hd)) hafter
  rw [decimalPart, List.append_assoc, List.cons_append,
    takeWhile_append_of_all hfront (by decide), dropWhile_append_of_all hfront (by decide),
    List.cons_append, fraction, if_pos hp, htake]

/-- A mark that ends before what follows it is the mark that the scanner takes. -/
theorem symbol?_of_endsBefore {kind : Kind} {text : String} {c : Char} {mark : List Char}
    (hmem : (kind, c :: mark) ∈ symbolForms) (hends : Word.EndsBefore ⟨kind, text⟩ after) :
    Lexeme.symbol? c (mark ++ after) = some (.verbatim kind c mark) := by
  rcases length_of_mem_symbolForms hmem with ⟨d, hone⟩ | ⟨d, e, htwo⟩
  · obtain ⟨rfl, rfl⟩ := List.cons.inj hone
    rw [List.nil_append]
    simp only [symbolForms, List.mem_cons, Prod.mk.injEq, List.cons.injEq, List.not_mem_nil,
      reduceCtorEq, and_false, and_true, or_false, false_or] at hmem
    have hequals := hends.equals
    unfold Lexeme.symbol?
    split <;> simp_all [Lacks, Kind.takesEquals]
  · obtain ⟨rfl, rfl⟩ := List.cons.inj htwo
    exact symbol?_of_pair hmem after

theorem ne_of_class {c d : Char} (hc : p c = true) (hd : p d = false) : c ≠ d := by
  rintro rfl
  rw [hc] at hd
  cases hd

/-- What the scanner takes at a digit. -/
theorem first?_of_isDigit {c : Char} (h : c.isDigit = true) (rest : List Char) :
    isGap c = false ∧
      Lexeme.first? c rest = some (.verbatim .number c (decimalPart rest)) := by
  have hnewline : c ≠ '\n' := ne_of_class h (by decide)
  have hquote : c ≠ '"' := ne_of_class h (by decide)
  have hspace : c ≠ ' ' := ne_of_class h (by decide)
  have htab : c ≠ '\t' := ne_of_class h (by decide)
  have hreturn : c ≠ '\r' := ne_of_class h (by decide)
  exact ⟨by simp [isGap, hspace, htab, hreturn], by simp [first?_eq, hnewline, hquote, h]⟩

/-- What the scanner takes at a letter. -/
theorem first?_of_isIdentifierStart {c : Char} (h : isIdentifierStart c = true)
    (rest : List Char) : isGap c = false ∧ Lexeme.first? c rest =
      some (.word c (rest.takeWhile isIdentifierChar) (rest.dropWhile isIdentifierChar)) := by
  have hnewline : c ≠ '\n' := ne_of_class h (by decide)
  have hquote : c ≠ '"' := ne_of_class h (by decide)
  have hspace : c ≠ ' ' := ne_of_class h (by decide)
  have htab : c ≠ '\t' := ne_of_class h (by decide)
  have hreturn : c ≠ '\r' := ne_of_class h (by decide)
  have hdigit : c.isDigit = false := by
    rw [Bool.eq_false_iff]
    intro hd
    rw [not_isIdentifierStart_of_isDigit hd] at h
    cases h
  exact ⟨by simp [isGap, hspace, htab, hreturn],
    by simp [first?_eq, hnewline, hquote, hdigit, h]⟩

/-- What the scanner takes at a mark. -/
theorem first?_of_mem_symbolForms {kind : Kind} {c : Char} {mark : List Char}
    (h : (kind, c :: mark) ∈ symbolForms) (rest : List Char) :
    isGap c = false ∧ Lexeme.first? c rest = Lexeme.symbol? c rest := by
  obtain ⟨hnewline, hquote, hdigit, hletter⟩ := head_of_mem_symbolForms h
  refine ⟨?_, ?_⟩
  · have all : (symbolForms.all fun form => form.2.head?.all fun c => !isGap c) = true := by decide
    simpa using List.all_eq_true.mp all _ h
  · simp [first?_eq, hnewline, hquote, hdigit, hletter]

theorem Spells.ne_nil {kind : Kind} {text : String} {lexeme : List Char}
    (h : Spells kind text lexeme) : lexeme ≠ [] := by
  cases h with
  | integer digits some_digit all_digits => exact some_digit
  | word letters identifier =>
    rintro rfl
    cases identifier
  | symbol mark listed =>
    have all : ∀ form ∈ symbolForms, form.2 ≠ [] := by decide
    exact all _ listed
  | _ => simp

/-- A number starts with a digit. -/
theorem Spells.isDigit_head {kind : Kind} {text : String} {c : Char} {cs : List Char}
    (h : Spells kind text (c :: cs)) (hkind : kind = .number) : c.isDigit = true := by
  generalize hlexeme : c :: cs = lexeme at h
  have hhead : c ∈ lexeme.head? := by rw [← hlexeme]; rfl
  cases h with
  | integer digits some_digit all_digits =>
    exact List.all_eq_true.mp all_digits c (List.mem_of_mem_head? hhead)
  | fraction digits places some_digit some_place all_digits all_places =>
    obtain ⟨d, digits, rfl⟩ := List.exists_cons_of_ne_nil some_digit
    obtain rfl := Option.some.inj hhead
    exact List.all_eq_true.mp all_digits d List.mem_cons_self
  | word letters identifier =>
    exact absurd hkind (Kind.of_isLettered (isLettered_wordKind _)).1
  | symbol mark listed => exact absurd hkind (kind_of_mem_symbolForms listed).2
  | _ => cases hkind

/-- A written form that ends before what follows it is what the scanner takes. -/
theorem first?_of_spells {kind : Kind} {text : String} {lexeme : List Char}
    (h : Spells kind text lexeme) (hends : Word.EndsBefore ⟨kind, text⟩ after) :
    ∃ c rest found, lexeme ++ after = c :: rest ∧ isGap c = false ∧
      Lexeme.first? c rest = some found ∧ found.kind = kind ∧ found.text = text ∧
      found.width = lexeme.length := by
  cases h with
  | newline => exact ⟨'\n', after, _, rfl, rfl, rfl, rfl, rfl, rfl⟩
  | string inner closed =>
    exact ⟨'"', inner ++ '"' :: after, _, by simp, rfl, quoted?_append inner after closed, rfl,
      rfl, by simp⟩
  | integer digits some_digit all_digits =>
    obtain ⟨d, digits, rfl⟩ := List.exists_cons_of_ne_nil some_digit
    rw [List.all_eq_true] at all_digits
    obtain ⟨hgap, hfirst⟩ := first?_of_isDigit (all_digits d List.mem_cons_self) (digits ++ after)
    -- no point with digits follows: it would belong to the number
    have hfraction : fraction after = [] := by
      refine (hends.point rfl).resolve_left fun hmem => ?_
      exact absurd (all_digits '.' (by simpa using hmem)) (by decide)
    have hpart := decimalPart_of_integer
      (fun e he => all_digits e (List.mem_cons_of_mem d he)) (hends.digits rfl) hfraction
    exact ⟨d, _, _, rfl, hgap, hfirst, rfl, by simp [Lexeme.verbatim, hpart],
      by simp [Lexeme.verbatim, hpart]⟩
  | fraction digits places some_digit some_place all_digits all_places =>
    obtain ⟨d, digits, rfl⟩ := List.exists_cons_of_ne_nil some_digit
    rw [List.all_eq_true] at all_digits all_places
    obtain ⟨hgap, hfirst⟩ := first?_of_isDigit (all_digits d List.mem_cons_self)
      (digits ++ '.' :: places ++ after)
    have hpart := decimalPart_of_fraction
      (fun e he => all_digits e (List.mem_cons_of_mem d he)) some_place all_places
      (hends.digits rfl)
    exact ⟨d, _, _, rfl, hgap, hfirst, rfl,
      by simp only [Lexeme.verbatim, hpart]; rfl,
      by simp only [Lexeme.verbatim, hpart]; rfl⟩
  | word letters identifier =>
    obtain ⟨c, letters, rfl⟩ := List.exists_cons_of_ne_nil (Spells.word _ identifier).ne_nil
    obtain ⟨hc, hall⟩ := isIdentifier_cons.mp identifier
    obtain ⟨hgap, hfirst⟩ := first?_of_isIdentifierStart hc (letters ++ after)
    have hlacks := hends.letters (isLettered_wordKind _)
    -- if the word is an `else`, no `if` follows it, so it is taken alone
    rw [takeWhile_append_of_lacks hall hlacks, dropWhile_append_of_lacks hall hlacks,
      word_of_not_elseIf hends.blanks] at hfirst
    exact ⟨c, _, _, rfl, hgap, hfirst, rfl, rfl, rfl⟩
  | elseIf blanks some_blank all_blanks =>
    rw [List.all_eq_true] at all_blanks
    obtain ⟨hgap, hfirst⟩ := first?_of_isIdentifierStart (c := 'e') rfl
      (['l', 's', 'e'] ++ blanks ++ ['i', 'f'] ++ after)
    obtain ⟨htake, hdrop⟩ := elseIf_front some_blank all_blanks rfl
    rw [htake, hdrop] at hfirst
    have htail := elseIfTail?_eq_some_iff.mpr ⟨blanks, after, rfl, all_blanks,
      hends.letters rfl, rfl⟩
    obtain ⟨hkind, htext, hwidth⟩ :=
      word_of_elseIfTail? (c := 'e') (show wordKind (String.ofList ['e', 'l', 's', 'e']) = _ from rfl)
        htail
    refine ⟨'e', _, _, rfl, hgap, hfirst, hkind, htext, ?_⟩
    rw [hwidth]
    simp only [List.length_append, List.length_cons, List.length_nil]
    omega
  | symbol mark listed =>
    obtain ⟨c, mark, rfl⟩ := List.exists_cons_of_ne_nil (Spells.symbol _ listed).ne_nil
    obtain ⟨hgap, hfirst⟩ := first?_of_mem_symbolForms listed (mark ++ after)
    rw [symbol?_of_endsBefore listed hends] at hfirst
    exact ⟨c, _, _, rfl, hgap, hfirst, rfl, rfl, rfl⟩

end Taken

/-- **A written form that ends before what follows it is taken as it is.** -/
theorem scanFrom_of_spells {kind : Kind} {text : String} {lexeme after : List Char}
    (h : Spells kind text lexeme) (hends : Word.EndsBefore ⟨kind, text⟩ after) (pos : Position) :
    scanFrom pos (lexeme ++ after) =
      (scanFrom (pos.advance lexeme) after).addToken
        ⟨kind, text, pos.spanning lexeme.length⟩ := by
  obtain ⟨c, rest, found, hfront, hgap, hfound, rfl, rfl, hwidth⟩ := first?_of_spells h hends
  have htake : (c :: rest).take found.width = lexeme := by
    rw [← hfront, hwidth, List.take_left]
  have hdrop : (c :: rest).drop found.width = after := by
    rw [← hfront, hwidth, List.drop_left]
  rw [hfront, scanFrom, if_neg (by simp [hgap]), hfound]
  dsimp only
  rw [htake, hdrop, hwidth]

/-! ## Texts put together from words -/

/-- A word of a text, or a blank between two words. -/
inductive Glyph where
  | word (w : Word)
  | blank
  deriving DecidableEq, Repr

namespace Glyph

def chars : Glyph → List Char
  | .word w => w.chars
  | .blank => [' ']

def word? : Glyph → Option Word
  | .word w => some w
  | .blank => none

end Glyph

/-- The text of some glyphs. -/
def inked (glyphs : List Glyph) : List Char :=
  glyphs.flatMap Glyph.chars

/-- The words among some glyphs. -/
def wordsOf (glyphs : List Glyph) : List Word :=
  glyphs.filterMap Glyph.word?

/-- The tokens are those of the glyphs, wherever they stand. -/
def TokensOf (ts : List Token) (glyphs : List Glyph) : Prop :=
  ts.map Token.word = wordsOf glyphs

/-- In front of the text `after`, every word is written and ends before what follows it. -/
def FitsBefore (after : List Char) : List Glyph → Prop
  | [] => True
  | .blank :: glyphs => FitsBefore after glyphs
  | .word w :: glyphs =>
    w.IsWritten ∧ w.EndsBefore (inked glyphs ++ after) ∧ FitsBefore after glyphs

/-- The tokens of some glyphs that stand at a given position. -/
def placed (pos : Position) : List Glyph → List Token
  | [] => []
  | .blank :: glyphs => placed (pos.next ' ') glyphs
  | .word w :: glyphs =>
    ⟨w.kind, w.text, pos.spanning w.chars.length⟩ :: placed (pos.advance w.chars) glyphs

section Glyphs

@[simp] theorem inked_nil : inked [] = [] := rfl

@[simp] theorem inked_word (w : Word) (glyphs : List Glyph) :
    inked (.word w :: glyphs) = w.chars ++ inked glyphs := rfl

@[simp] theorem inked_blank (glyphs : List Glyph) :
    inked (.blank :: glyphs) = ' ' :: inked glyphs := rfl

theorem inked_append (first second : List Glyph) :
    inked (first ++ second) = inked first ++ inked second :=
  List.flatMap_append

@[simp] theorem wordsOf_word (w : Word) (glyphs : List Glyph) :
    wordsOf (.word w :: glyphs) = w :: wordsOf glyphs := rfl

theorem wordsOf_append (first second : List Glyph) :
    wordsOf (first ++ second) = wordsOf first ++ wordsOf second :=
  List.filterMap_append

theorem fitsBefore_append {after : List Char} {first second : List Glyph} :
    FitsBefore after (first ++ second) ↔
      FitsBefore (inked second ++ after) first ∧ FitsBefore after second := by
  induction first with
  | nil => simp [FitsBefore]
  | cons glyph first ih =>
    cases glyph with
    | word w =>
      simp only [List.cons_append, FitsBefore, ih, inked_append, List.append_assoc, and_assoc]
    | blank => exact ih

/-- The tokens of some glyphs say their words. -/
theorem map_word_placed (pos : Position) (glyphs : List Glyph) :
    (placed pos glyphs).map Token.word = wordsOf glyphs := by
  induction glyphs generalizing pos with
  | nil => rfl
  | cons glyph glyphs ih =>
    cases glyph with
    | word w => exact congrArg (w :: ·) (ih _)
    | blank => exact ih _

theorem placed_append (pos : Position) (first second : List Glyph) :
    placed pos (first ++ second) =
      placed pos first ++ placed (pos.advance (inked first)) second := by
  induction first generalizing pos with
  | nil => rfl
  | cons glyph first ih =>
    cases glyph with
    | word w =>
      rw [List.cons_append, placed, ih, inked_word, Position.advance_append]
      rfl
    | blank => exact ih _

section TokensOf

variable {ts : List Token} {glyphs : List Glyph}

theorem tokensOf_placed (pos : Position) (glyphs : List Glyph) :
    TokensOf (placed pos glyphs) glyphs :=
  map_word_placed pos glyphs

theorem tokensOf_nil : TokensOf ts [] ↔ ts = [] :=
  List.map_eq_nil_iff

theorem tokensOf_blank : TokensOf ts (.blank :: glyphs) ↔ TokensOf ts glyphs :=
  Iff.rfl

theorem tokensOf_word {kind : Kind} {text : String} :
    TokensOf ts (.word ⟨kind, text⟩ :: glyphs) ↔
      ∃ token us, ts = token :: us ∧ (token.kind = kind ∧ token.text = text) ∧
        TokensOf us glyphs := by
  simp only [TokensOf, wordsOf_word, List.map_eq_cons_iff, Token.word, Word.mk.injEq]

theorem tokensOf_single {kind : Kind} {text : String} :
    TokensOf ts [.word ⟨kind, text⟩] ↔
      ∃ token, ts = [token] ∧ token.kind = kind ∧ token.text = text := by
  simp only [tokensOf_word, tokensOf_nil]
  grind

theorem tokensOf_append {first second : List Glyph} :
    TokensOf ts (first ++ second) ↔
      ∃ p q, ts = p ++ q ∧ TokensOf p first ∧ TokensOf q second := by
  simp only [TokensOf, wordsOf_append, List.map_eq_append_iff]

end TokensOf

/-- **A text put together from words is scanned back into them**, without faults. -/
theorem scanFrom_inked {glyphs : List Glyph} (h : FitsBefore [] glyphs) (pos : Position) :
    scanFrom pos (inked glyphs) =
      ⟨⟨placed pos glyphs, ⟨.eof, "", (pos.advance (inked glyphs)).spanning 0⟩⟩, []⟩ := by
  induction glyphs generalizing pos with
  | nil =>
    rw [inked_nil, scanFrom]
    rfl
  | cons glyph glyphs ih =>
    cases glyph with
    | word w =>
      obtain ⟨hwritten, hends, hrest⟩ := h
      rw [List.append_nil] at hends
      rw [inked_word, scanFrom_of_spells hwritten hends, ih hrest, Position.advance_append]
      rfl
    | blank =>
      rw [inked_blank, scanFrom, if_pos (by decide), ih h]
      rfl

theorem scan_inked {glyphs : List Glyph} (h : FitsBefore [] glyphs) :
    scan (String.ofList (inked glyphs)) =
      ⟨⟨placed .start glyphs, ⟨.eof, "", (Position.start.advance (inked glyphs)).spanning 0⟩⟩,
        []⟩ := by
  rw [scan, String.toList_ofList, scanFrom_inked h]

end Glyphs

end UiLang
