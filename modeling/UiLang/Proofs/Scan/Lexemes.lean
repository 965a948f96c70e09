import UiLang.Token.Scan
import Mathlib.Data.List.Basic
import Mathlib.Data.List.TakeWhile

/-!
# How tokens are written

The written forms of tokens, stated without the scanner, and the longest one at the front of a
text.  The scanner takes exactly that one.

An `else if` counts only where its `if` is a whole word, so `else iffy` starts with an `else`.
That is the one form whose presence depends on the character after it.

## Main definitions

* `Spells`: the written forms of a token
* `Keyword.text`: the written form of a reserved word
* `Stands`, `IsLongest`: a form in front of a given rest, and the longest one

## Main results

* `isLongest_of_first?`: the scanner takes the longest form
* `not_stands_of_first?_eq_none`: where the scanner takes nothing, no form stands
-/

namespace UiLang

/-- The operators and punctuation marks. -/
def symbolForms : List (Kind × List Char) :=
  [(.comparison .equal, ['=', '=']), (.comparison .notEqual, ['!', '=']),
    (.comparison .greaterEq, ['>', '=']), (.comparison .lessEq, ['<', '=']),
    (.connective .and, ['&', '&']), (.connective .or, ['|', '|']), (.assign, ['=']),
    (.bang, ['!']), (.comparison .greater, ['>']), (.comparison .less, ['<']), (.plus, ['+']),
    (.minus, ['-']), (.star, ['*']), (.slash, ['/']), (.opening .brace, ['\x7b']),
    (.closing .brace, ['\x7d']), (.opening .square, ['[']), (.closing .square, [']']),
    (.opening .round, ['(']), (.closing .round, [')']), (.comma, [',']), (.colon, [':']),
    (.dot, ['.'])]

/-- `Spells kind text lexeme`: a token of this kind and text may be written as `lexeme`. -/
inductive Spells : Kind → String → List Char → Prop
  | newline : Spells .newline "\n" ['\n']
  | string (inner : List Char) (closed : '"' ∉ inner) :
      Spells .string (String.ofList inner) ('"' :: inner ++ ['"'])
  | integer (digits : List Char) (some_digit : digits ≠ []) (all_digits : digits.all Char.isDigit) :
      Spells .number (String.ofList digits) digits
  | fraction (digits places : List Char) (some_digit : digits ≠ []) (some_place : places ≠ [])
      (all_digits : digits.all Char.isDigit) (all_places : places.all Char.isDigit) :
      Spells .number (String.ofList (digits ++ '.' :: places)) (digits ++ '.' :: places)
  | word (letters : List Char) (identifier : isIdentifier letters) :
      Spells (wordKind (String.ofList letters)) (String.ofList letters) letters
  | elseIf (blanks : List Char) (some_blank : blanks ≠ []) (all_blanks : blanks.all isElseBlank) :
      Spells (.keyword .elseIf) "else if" (['e', 'l', 's', 'e'] ++ blanks ++ ['i', 'f'])
  | symbol {kind : Kind} (mark : List Char) (listed : (kind, mark) ∈ symbolForms) :
      Spells kind (String.ofList mark) mark

/-- A form in front of `rest`.  The `if` of an `else if` is a whole word there. -/
def Stands (kind : Kind) (text : String) (lexeme rest : List Char) : Prop :=
  Spells kind text lexeme ∧
    (kind = .keyword .elseIf → ∀ c ∈ rest.head?, isIdentifierChar c = false)

/-- No form in front of the same text is longer. -/
def IsLongest (kind : Kind) (text : String) (lexeme rest : List Char) : Prop :=
  Stands kind text lexeme rest ∧
    ∀ kind' text' lexeme' rest', lexeme' ++ rest' = lexeme ++ rest →
      Stands kind' text' lexeme' rest' → lexeme'.length ≤ lexeme.length

/-! ## Runs of characters -/

section Runs

variable {α : Type} {p : α → Bool}

/-- A run ends at the first element that is not part of it. -/
theorem takeWhile_append_of_all {front : List α} {x : α} (hfront : ∀ a ∈ front, p a = true)
    (hx : p x = false) (rest : List α) : (front ++ x :: rest).takeWhile p = front := by
  rw [List.takeWhile_append_of_pos hfront, List.takeWhile_cons_of_neg (by simp [hx]),
    List.append_nil]

theorem dropWhile_append_of_all {front : List α} {x : α} (hfront : ∀ a ∈ front, p a = true)
    (hx : p x = false) (rest : List α) : (front ++ x :: rest).dropWhile p = x :: rest := by
  rw [List.dropWhile_append_of_pos hfront, List.dropWhile_cons_of_neg (by simp [hx])]

/-- A front part of a list whose elements all satisfy `p` is no longer than the longest one. -/
theorem length_le_takeWhile {front rest all : List α} (h : front ++ rest = all)
    (hp : ∀ a ∈ front, p a = true) : front.length ≤ (all.takeWhile p).length := by
  rw [← h, List.takeWhile_append_of_pos hp, List.length_append]
  omega

theorem forall_bne_of_notMem {c : Char} {cs : List Char} (h : c ∉ cs) :
    ∀ d ∈ cs, (d != c) = true := by
  intro d hd
  rw [bne_iff_ne]
  rintro rfl
  exact h hd

end Runs

/-! ## Forms by their first character -/

theorem isIdentifier_cons {c : Char} {cs : List Char} :
    isIdentifier (c :: cs) = true ↔ isIdentifierStart c = true ∧ ∀ d ∈ cs, isIdentifierChar d := by
  simp [isIdentifier]

theorem wordKind_ne_elseIf (word : String) : wordKind word ≠ .keyword .elseIf := by
  unfold wordKind
  split <;> simp

/-- How a reserved word is written. -/
def Keyword.text : Keyword → String
  | .component => "component"
  | .state => "state"
  | .computed => "computed"
  | .function => "function"
  | .ifWord => "if"
  | .elseWord => "else"
  | .elseIf => "else if"
  | .forWord => "for"
  | .inWord => "in"
  | .props => "props"
  | .onMount => "onMount"
  | .onUpdate => "onUpdate"
  | .fetch => "fetch"
  | .watch => "watch"
  | .returnWord => "return"
  | .async => "async"
  | .await => "await"
  | .importWord => "import"
  | .exportWord => "export"
  | .fromWord => "from"

/-- A reserved word is written in one way. -/
theorem eq_text_of_wordKind {text : String} {word : Keyword} (h : wordKind text = .keyword word) :
    text = word.text := by
  unfold wordKind at h
  split at h <;> cases h <;> rfl

/-- The only word that is read as `else`. -/
theorem eq_else_of_wordKind {word : String} (h : wordKind word = .keyword .elseWord) :
    word = "else" :=
  eq_text_of_wordKind h

theorem le_toNat_of_isAlpha {c : Char} (h : c.isAlpha = true) : 65 ≤ c.toNat := by
  rcases (Bool.or_eq_true _ _).mp h with hupper | hlower
  · exact UInt32.le_iff_toNat_le.mp (of_decide_eq_true hupper).1
  · have hlow : 'a'.val.toNat ≤ c.toNat :=
      UInt32.le_iff_toNat_le.mp (of_decide_eq_true ((Bool.and_eq_true _ _).mp hlower).1)
    exact Nat.le_trans (by decide) hlow

/-- A digit starts no word. -/
theorem not_isIdentifierStart_of_isDigit {c : Char} (h : c.isDigit = true) :
    isIdentifierStart c = false := by
  have h' : 48 ≤ c.toNat ∧ c.toNat ≤ 57 := by
    simpa [Char.isDigit, UInt32.le_iff_toNat_le] using h
  have hne : c ≠ '_' := by
    rintro rfl
    exact absurd h (by decide)
  have halpha : c.isAlpha = false := by
    refine Bool.eq_false_iff.mpr fun halpha => ?_
    have := le_toNat_of_isAlpha halpha
    omega
  exact Bool.or_eq_false_iff.mpr ⟨halpha, beq_false_of_ne hne⟩

/-- What the first character of an operator or punctuation mark is not. -/
theorem head_of_mem_symbolForms {kind : Kind} {c : Char} {cs : List Char}
    (h : (kind, c :: cs) ∈ symbolForms) :
    c ≠ '\n' ∧ c ≠ '"' ∧ c.isDigit = false ∧ isIdentifierStart c = false := by
  have all : (symbolForms.all fun form => form.2.head?.all fun c =>
      c != '\n' && c != '"' && !c.isDigit && !isIdentifierStart c) = true := by decide
  simpa [and_assoc] using List.all_eq_true.mp all _ h

/-- A number is a run of digits, or two of them with a point between. -/
def IsNumber (cs : List Char) : Prop :=
  (∀ d ∈ cs, d.isDigit = true) ∨
    ∃ digits places, cs = digits ++ '.' :: places ∧ digits ≠ [] ∧ places ≠ [] ∧
      (∀ d ∈ digits, d.isDigit = true) ∧ ∀ d ∈ places, d.isDigit = true

/-- **Forms by their first character.** -/
theorem Spells.cases_head {kind : Kind} {text : String} {c : Char} {cs : List Char}
    (h : Spells kind text (c :: cs)) :
    (c = '\n' ∧ cs = []) ∨
    (c = '"' ∧ ∃ inner, cs = inner ++ ['"'] ∧ '"' ∉ inner) ∨
    (c.isDigit = true ∧ IsNumber (c :: cs)) ∨
    (isIdentifierStart c = true ∧ ∀ d ∈ cs, isIdentifierChar d = true) ∨
    (kind = .keyword .elseIf ∧ c = 'e' ∧ ∃ blanks, cs = ['l', 's', 'e'] ++ blanks ++ ['i', 'f'] ∧
      blanks ≠ [] ∧ ∀ d ∈ blanks, isElseBlank d = true) ∨
    (kind, c :: cs) ∈ symbolForms := by
  generalize hl : c :: cs = lexeme at h
  cases h with
  | newline => exact .inl (List.cons.inj hl)
  | string inner closed =>
    obtain ⟨rfl, rfl⟩ := List.cons.inj hl
    exact .inr (.inl ⟨rfl, inner, rfl, closed⟩)
  | integer digits some_digit all_digits =>
    subst hl
    rw [List.all_eq_true] at all_digits
    exact .inr (.inr (.inl ⟨all_digits c List.mem_cons_self, .inl all_digits⟩))
  | fraction digits places some_digit some_place all_digits all_places =>
    rw [List.all_eq_true] at all_digits all_places
    refine .inr (.inr (.inl ⟨?_, .inr ⟨digits, places, rfl, some_digit, some_place, all_digits,
      all_places⟩⟩))
    cases digits with
    | nil => exact absurd rfl some_digit
    | cons d digits => exact (List.cons.inj hl).1 ▸ all_digits d List.mem_cons_self
  | word letters identifier =>
    subst hl
    exact .inr (.inr (.inr (.inl (isIdentifier_cons.mp identifier))))
  | elseIf blanks some_blank all_blanks =>
    obtain ⟨rfl, rfl⟩ := List.cons.inj hl
    rw [List.all_eq_true] at all_blanks
    exact .inr (.inr (.inr (.inr (.inl ⟨rfl, rfl, blanks, rfl, some_blank, all_blanks⟩))))
  | symbol mark listed => exact .inr (.inr (.inr (.inr (.inr (hl ▸ listed)))))

/-! ## What the scanner takes, by the first character -/

theorem decimalPart_cons {c : Char} (hc : c.isDigit = true) (rest : List Char) :
    decimalPart (c :: rest) = c :: decimalPart rest := by
  rw [decimalPart, decimalPart, List.takeWhile_cons_of_pos hc, List.dropWhile_cons_of_pos hc,
    List.cons_append]

theorem number?_of_isDigit {c : Char} (hc : c.isDigit = true) (rest : List Char) :
    Lexeme.number? (c :: rest) = some (.verbatim .number c (decimalPart rest)) := by
  rw [Lexeme.number?, decimal?, List.takeWhile_cons_of_pos hc, if_neg (by simp),
    decimalPart_cons hc]

theorem number?_of_not_isDigit {c : Char} (hc : c.isDigit = false) (rest : List Char) :
    Lexeme.number? (c :: rest) = none := by
  rw [Lexeme.number?, decimal?, List.takeWhile_cons_of_neg (by simp [hc])]
  rfl

theorem word?_of_isIdentifierStart {c : Char} (hc : isIdentifierStart c = true)
    (rest : List Char) :
    Lexeme.word? (c :: rest) =
      some (.word c (rest.takeWhile isIdentifierChar) (rest.dropWhile isIdentifierChar)) := by
  rw [Lexeme.word?, identifier?, if_pos hc]

theorem word?_of_not_isIdentifierStart {c : Char} (hc : isIdentifierStart c = false)
    (rest : List Char) : Lexeme.word? (c :: rest) = none := by
  rw [Lexeme.word?, identifier?, if_neg (by simp [hc])]

/-- **The first character decides** which of the alternatives is taken. -/
theorem first?_eq (c : Char) (rest : List Char) :
    Lexeme.first? c rest =
      if c = '\n' then some (.verbatim .newline '\n' [])
      else if c = '"' then Lexeme.quoted? rest
      else if c.isDigit then some (.verbatim .number c (decimalPart rest))
      else if isIdentifierStart c then
        some (.word c (rest.takeWhile isIdentifierChar) (rest.dropWhile isIdentifierChar))
      else Lexeme.symbol? c rest := by
  have hor : (Lexeme.number? (c :: rest)).or
      ((Lexeme.word? (c :: rest)).or (Lexeme.symbol? c rest)) =
        if c.isDigit then some (.verbatim .number c (decimalPart rest))
        else if isIdentifierStart c then
          some (.word c (rest.takeWhile isIdentifierChar) (rest.dropWhile isIdentifierChar))
        else Lexeme.symbol? c rest := by
    cases hdigit : c.isDigit with
    | true => rw [number?_of_isDigit hdigit, Option.some_or, if_pos rfl]
    | false =>
      rw [number?_of_not_isDigit hdigit, Option.none_or, if_neg Bool.false_ne_true]
      cases hletter : isIdentifierStart c with
      | true => rw [word?_of_isIdentifierStart hletter, Option.some_or, if_pos rfl]
      | false =>
        rw [word?_of_not_isIdentifierStart hletter, Option.none_or, if_neg Bool.false_ne_true]
  rw [Lexeme.first?, hor]

/-! ## Numbers -/

theorem decimalPart_append_drop (cs : List Char) :
    decimalPart cs ++ cs.drop (decimalPart cs).length = cs :=
  List.prefix_iff_eq_append.mp (decimalPart_isPrefix cs)

theorem spells_number {c : Char} (hc : c.isDigit = true) (rest : List Char) :
    Spells .number (String.ofList (c :: decimalPart rest)) (c :: decimalPart rest) := by
  have hdigits : (c :: rest.takeWhile Char.isDigit).all Char.isDigit = true := by
    simp [hc, List.all_takeWhile]
  rw [decimalPart]
  generalize rest.dropWhile Char.isDigit = after
  unfold fraction
  split
  · split
    · rename_i d places hd
      exact .fraction (c :: rest.takeWhile Char.isDigit) (d :: places.takeWhile Char.isDigit)
        (by simp) (by simp) hdigits (by simp [hd, List.all_takeWhile])
    · rw [List.append_nil]
      exact .integer _ (by simp) hdigits
  · rw [List.append_nil]
    exact .integer _ (by simp) hdigits

/-- No number in front of a text is longer than its digits and fraction. -/
theorem length_le_decimalPart {c : Char} {number after rest : List Char}
    (h : number ++ after = rest) (hn : IsNumber (c :: number)) :
    number.length ≤ (decimalPart rest).length := by
  rw [decimalPart, List.length_append]
  rcases hn with hall | ⟨digits, places, heq, hne, hpne, hdigits, hplaces⟩
  · have := length_le_takeWhile h fun d hd => hall d (List.mem_cons_of_mem c hd)
    omega
  · obtain ⟨d, digits, rfl⟩ := List.exists_cons_of_ne_nil hne
    obtain ⟨p, places, rfl⟩ := List.exists_cons_of_ne_nil hpne
    rw [List.cons_append] at heq
    obtain ⟨rfl, rfl⟩ := List.cons.inj heq
    have hds : ∀ d ∈ digits, Char.isDigit d = true :=
      fun d hd => hdigits d (List.mem_cons_of_mem _ hd)
    -- the digits end at the point, and the fraction takes at least the given places
    have htake : rest.takeWhile Char.isDigit = digits := by
      rw [← h, List.append_assoc]
      exact takeWhile_append_of_all hds (by decide) _
    have hdrop : rest.dropWhile Char.isDigit = '.' :: p :: (places ++ after) := by
      rw [← h, List.append_assoc]
      exact dropWhile_append_of_all hds (by decide) _
    have hp : p.isDigit = true := hplaces p List.mem_cons_self
    have hlen := length_le_takeWhile (rfl : places ++ after = _)
      fun d hd => hplaces d (List.mem_cons_of_mem _ hd)
    rw [htake, hdrop]
    simp only [fraction, hp, if_true, List.length_append, List.length_cons]
    omega

/-! ## Words and `else if` -/

theorem elseIfTail?_eq_some_iff {rest : List Char} {width : Nat} :
    elseIfTail? rest = some width ↔
      ∃ blanks after, rest = blanks ++ 'i' :: 'f' :: after ∧ (∀ d ∈ blanks, isElseBlank d = true) ∧
        (∀ c ∈ after.head?, isIdentifierChar c = false) ∧ width = blanks.length + 2 := by
  constructor
  · intro h
    unfold elseIfTail? at h
    have happ := List.takeWhile_append_dropWhile (p := isElseBlank) (l := rest)
    have hall : ∀ d ∈ rest.takeWhile isElseBlank, isElseBlank d = true :=
      List.all_eq_true.mp List.all_takeWhile
    split at h
    · rename_i after hdrop
      rw [hdrop] at happ
      split at h
      · exact ⟨_, [], happ.symm, hall, by simp, (Option.some.inj h).symm⟩
      · rename_i c after
        split at h
        · simp at h
        · rename_i hc
          refine ⟨_, c :: after, happ.symm, hall, ?_, (Option.some.inj h).symm⟩
          simpa using hc
    · simp at h
  · rintro ⟨blanks, after, rfl, hall, hafter, rfl⟩
    unfold elseIfTail?
    rw [dropWhile_append_of_all hall (by decide), takeWhile_append_of_all hall (by decide)]
    cases after with
    | nil => rfl
    | cons c after => simp [hafter c rfl]

/-- A blank inside `else if` is no part of a word. -/
theorem not_isIdentifierChar_of_isElseBlank {c : Char} (h : isElseBlank c = true) :
    isIdentifierChar c = false := by
  simp only [isElseBlank, Bool.or_eq_true, beq_iff_eq] at h
  rcases h with rfl | rfl <;> decide

/-- An `else if` in front of a text: the word there is `else`, and its tail follows. -/
theorem elseIf_front {blanks after rest : List Char} (hne : blanks ≠ [])
    (hall : ∀ d ∈ blanks, isElseBlank d = true)
    (h : rest = ['l', 's', 'e'] ++ blanks ++ ['i', 'f'] ++ after) :
    rest.takeWhile isIdentifierChar = ['l', 's', 'e'] ∧
      rest.dropWhile isIdentifierChar = blanks ++ 'i' :: 'f' :: after := by
  obtain ⟨b, blanks, rfl⟩ := List.exists_cons_of_ne_nil hne
  have hb := not_isIdentifierChar_of_isElseBlank (hall b List.mem_cons_self)
  have hword : ∀ d ∈ ['l', 's', 'e'], isIdentifierChar d = true :=
    List.all_eq_true.mp (by decide)
  rw [h, List.append_assoc, List.append_assoc]
  exact ⟨takeWhile_append_of_all hword hb _, dropWhile_append_of_all hword hb _⟩

theorem word_of_elseIfTail? {c : Char} {letters rest : List Char} {width : Nat}
    (hkind : wordKind (String.ofList (c :: letters)) = .keyword .elseWord)
    (htail : elseIfTail? rest = some width) :
    (Lexeme.word c letters rest).kind = .keyword .elseIf ∧
      (Lexeme.word c letters rest).text = "else if" ∧
      (Lexeme.word c letters rest).width = letters.length + 1 + width := by
  simp only [Lexeme.word, hkind, htail, if_true, and_self]

theorem word_of_not_elseIf {c : Char} {letters rest : List Char}
    (h : wordKind (String.ofList (c :: letters)) = .keyword .elseWord →
      elseIfTail? rest = none) :
    Lexeme.word c letters rest = .verbatim (wordKind (String.ofList (c :: letters))) c letters := by
  simp only [Lexeme.word]
  split
  · rename_i hkind
    rw [h hkind]
  · rfl

/-- No form in front of a text that starts with a letter is longer than its word, with the `if`
after an `else`. -/
theorem length_le_word {c : Char} (hc : isIdentifierStart c = true) {rest lexeme after : List Char}
    {kind : Kind} {text : String} {found : Lexeme} (hfound : Lexeme.word? (c :: rest) = some found)
    (heq : lexeme ++ after = c :: rest) (h : Stands kind text lexeme after) :
    lexeme.length ≤ found.width := by
  rw [word?_of_isIdentifierStart hc] at hfound
  obtain rfl := Option.some.inj hfound
  have hshort : (rest.takeWhile isIdentifierChar).length + 1 ≤
      (Lexeme.word c (rest.takeWhile isIdentifierChar)
        (rest.dropWhile isIdentifierChar)).width := by
    simp only [Lexeme.word, Lexeme.verbatim]
    split
    · split
      · exact Nat.le_add_right _ _
      · exact Nat.le_refl _
    · exact Nat.le_refl _
  cases lexeme with
  | nil => simp
  | cons d tail =>
    obtain ⟨rfl, hrest⟩ := List.cons.inj heq
    -- a letter starts a word or an `else if`; the forms with another first character are out
    rcases h.1.cases_head with ⟨rfl, -⟩ | ⟨rfl, -⟩ | ⟨hd, -⟩ | ⟨-, hall⟩ | ⟨hk, rfl, blanks, rfl,
      hne, hall⟩ | hmem
    · exact absurd hc (by decide)
    · exact absurd hc (by decide)
    · exact absurd hc (by simp [not_isIdentifierStart_of_isDigit hd])
    · have := length_le_takeWhile hrest hall
      simp only [List.length_cons]
      omega
    · -- an `else if`: the scanner sees the same word and the same tail
      obtain ⟨htake, hdrop⟩ := elseIf_front hne hall hrest.symm
      have htail : elseIfTail? (rest.dropWhile isIdentifierChar) = some (blanks.length + 2) :=
        elseIfTail?_eq_some_iff.mpr ⟨blanks, after, hdrop, hall, h.2 hk, rfl⟩
      have hkind : wordKind (String.ofList ('e' :: rest.takeWhile isIdentifierChar)) =
          .keyword .elseWord := by
        rw [htake]
        rfl
      have hword := (word_of_elseIfTail? hkind htail).2.2
      rw [hword, htake]
      simp only [List.length_append, List.length_cons, List.length_nil]
      omega
    · exact absurd hc (by simp [(head_of_mem_symbolForms hmem).2.2.2])

/-- **The word in front of a text stands there**, with the `if` after an `else`. -/
theorem stands_word {c : Char} (hc : isIdentifierStart c = true) {rest : List Char}
    {found : Lexeme} (hfound : Lexeme.word? (c :: rest) = some found) :
    ∃ lexeme after, c :: rest = lexeme ++ after ∧ lexeme.length = found.width ∧
      Stands found.kind found.text lexeme after := by
  rw [word?_of_isIdentifierStart hc] at hfound
  obtain rfl := Option.some.inj hfound
  have hsplit : c :: rest =
      (c :: rest.takeWhile isIdentifierChar) ++ rest.dropWhile isIdentifierChar := by
    rw [List.cons_append, List.takeWhile_append_dropWhile]
  -- only an `else` with an `if` after it takes more than its own letters
  by_cases helse : wordKind (String.ofList (c :: rest.takeWhile isIdentifierChar)) =
      .keyword .elseWord ∧ (elseIfTail? (rest.dropWhile isIdentifierChar)).isSome
  · obtain ⟨hkind, hsome⟩ := helse
    obtain ⟨width, htail⟩ := Option.isSome_iff_exists.mp hsome
    obtain ⟨hk, ht, hw⟩ := word_of_elseIfTail? hkind htail
    obtain ⟨blanks, after, hdrop, hall, hafter, rfl⟩ := elseIfTail?_eq_some_iff.mp htail
    have hfront : c :: rest.takeWhile isIdentifierChar = ['e', 'l', 's', 'e'] := by
      have := congrArg String.toList (eq_else_of_wordKind hkind)
      simpa using this
    -- the character after the `else` is no part of a word, so some blank stands before the `if`
    have hne : blanks ≠ [] := by
      rintro rfl
      have hhead := List.head?_dropWhile_not isIdentifierChar rest
      rw [hdrop] at hhead
      simp [isIdentifierChar] at hhead
    have hlen := congrArg List.length hfront
    simp only [List.length_cons, List.length_nil] at hlen
    refine ⟨['e', 'l', 's', 'e'] ++ blanks ++ ['i', 'f'], after, ?_, ?_, ?_⟩
    · rw [hsplit, hfront, hdrop]
      simp
    · rw [hw]
      simp only [List.length_append, List.length_cons, List.length_nil]
      omega
    · rw [hk, ht]
      exact ⟨.elseIf blanks hne (List.all_eq_true.mpr hall), fun _ => hafter⟩
  · have hword := @word_of_not_elseIf c _ (rest.dropWhile isIdentifierChar) fun hk => by
      by_contra hne
      exact helse ⟨hk, Option.isSome_iff_ne_none.mpr hne⟩
    rw [hword]
    refine ⟨_, _, hsplit, rfl, ?_, fun hk => absurd hk (wordKind_ne_elseIf _)⟩
    exact .word _ (isIdentifier_cons.mpr ⟨hc, List.all_eq_true.mp List.all_takeWhile⟩)

/-! ## Operators and punctuation -/

theorem symbol?_of_pair {kind : Kind} {c d : Char} (h : (kind, [c, d]) ∈ symbolForms)
    (rest : List Char) : Lexeme.symbol? c (d :: rest) = some (.verbatim kind c [d]) := by
  simp only [symbolForms, List.mem_cons, Prod.mk.injEq, List.cons.injEq, List.not_mem_nil,
    reduceCtorEq, and_false, and_true, or_false] at h
  rcases h with ⟨rfl, rfl, rfl⟩ | ⟨rfl, rfl, rfl⟩ | ⟨rfl, rfl, rfl⟩ | ⟨rfl, rfl, rfl⟩ |
    ⟨rfl, rfl, rfl⟩ | ⟨rfl, rfl, rfl⟩ <;> rfl

theorem isSome_symbol?_of_single {kind : Kind} {c : Char} (h : (kind, [c]) ∈ symbolForms)
    (rest : List Char) : (Lexeme.symbol? c rest).isSome = true := by
  unfold Lexeme.symbol?
  split
  case h_24 =>
    -- the last case is left when the character is none of the marks
    simp only [symbolForms, List.mem_cons, Prod.mk.injEq, List.cons.injEq, List.not_mem_nil,
      reduceCtorEq, and_false, and_true, or_false, false_or] at h
    simp_all
  all_goals rfl

theorem mem_symbolForms_of_symbol? {c : Char} {rest : List Char} {lexeme : Lexeme}
    (h : Lexeme.symbol? c rest = some lexeme) :
    ∃ kind mark after, lexeme = .verbatim kind c mark ∧ rest = mark ++ after ∧
      (kind, c :: mark) ∈ symbolForms := by
  unfold Lexeme.symbol? at h
  split at h
  case h_24 => simp at h
  all_goals
    obtain rfl := Option.some.inj h
    exact ⟨_, _, _, rfl, rfl, by decide⟩

/-- Every mark has one or two characters. -/
theorem length_of_mem_symbolForms {kind : Kind} {mark : List Char}
    (h : (kind, mark) ∈ symbolForms) : (∃ c, mark = [c]) ∨ ∃ c d, mark = [c, d] := by
  have all : ∀ form ∈ symbolForms, form.2.length = 1 ∨ form.2.length = 2 := by decide
  rcases all _ h with h₁ | h₂
  · exact .inl (List.length_eq_one_iff.mp h₁)
  · exact .inr (List.length_eq_two.mp h₂)

/-- No form in front of a text that starts with a mark is longer than the mark the scanner
takes, and there is none where it takes no mark. -/
theorem length_le_symbol? {c : Char} (hn : c ≠ '\n') (hq : c ≠ '"') (hd : c.isDigit = false)
    (hi : isIdentifierStart c = false) {rest lexeme after : List Char} {kind : Kind}
    {text : String} (heq : lexeme ++ after = c :: rest) (h : Stands kind text lexeme after)
    (hne : lexeme ≠ []) :
    ∃ found, Lexeme.symbol? c rest = some found ∧ lexeme.length ≤ found.width := by
  obtain ⟨d, tail, rfl⟩ := List.exists_cons_of_ne_nil hne
  obtain ⟨rfl, hrest⟩ := List.cons.inj heq
  rcases h.1.cases_head with ⟨rfl, -⟩ | ⟨rfl, -⟩ | ⟨hd', -⟩ | ⟨hi', -⟩ | ⟨-, rfl, -⟩ | hmem
  · exact absurd rfl hn
  · exact absurd rfl hq
  · simp [hd'] at hd
  · simp [hi'] at hi
  · exact absurd hi (by decide)
  · rcases length_of_mem_symbolForms hmem with ⟨e, hone⟩ | ⟨e, f, htwo⟩
    · -- where one character is a mark, the scanner takes that mark or a longer one
      obtain ⟨rfl, rfl⟩ := List.cons.inj hone
      obtain ⟨found, hfound⟩ :=
        Option.isSome_iff_exists.mp (isSome_symbol?_of_single hmem rest)
      exact ⟨found, hfound, found.width_pos⟩
    · obtain ⟨rfl, rfl⟩ := List.cons.inj htwo
      subst hrest
      exact ⟨_, symbol?_of_pair hmem after, by simp [Lexeme.verbatim]⟩

/-! ## The scanner takes the longest form -/

/-- A string in front of a text ends at the first quote after the opening one. -/
theorem quoted?_append (inner after : List Char) (h : '"' ∉ inner) :
    Lexeme.quoted? (inner ++ '"' :: after) =
      some ⟨.string, String.ofList inner, inner.length + 2, Nat.succ_pos _⟩ := by
  have htake : (inner ++ '"' :: after).takeWhile (· != '"') = inner :=
    takeWhile_append_of_all (forall_bne_of_notMem h) (by decide) after
  simp [Lexeme.quoted?, htake]

/-- A text holds no quote, or a first one. -/
theorem quote_notMem_or_exists_append (rest : List Char) :
    '"' ∉ rest ∨ ∃ inner after, rest = inner ++ '"' :: after ∧ '"' ∉ inner := by
  by_cases h : '"' ∈ rest
  · obtain ⟨inner, after, rfl, hinner⟩ := List.eq_append_cons_of_mem h
    exact .inr ⟨inner, after, rfl, hinner⟩
  · exact .inl h

theorem quoted?_eq_none_iff {rest : List Char} : Lexeme.quoted? rest = none ↔ '"' ∉ rest := by
  constructor
  · intro h
    rcases quote_notMem_or_exists_append rest with hnot | ⟨inner, after, rfl, hinner⟩
    · exact hnot
    · simp [quoted?_append inner after hinner] at h
  · intro h
    have htake : rest.takeWhile (· != '"') = rest :=
      List.takeWhile_eq_self_iff.mpr (forall_bne_of_notMem h)
    simp [Lexeme.quoted?, htake]

/-- A form in front of a text that starts with a quote is the string up to the next quote. -/
theorem eq_of_stands_quote {rest lexeme after : List Char} {kind : Kind} {text : String}
    (heq : lexeme ++ after = '"' :: rest) (hne : lexeme ≠ []) (h : Stands kind text lexeme after) :
    ∃ inner, lexeme = '"' :: inner ++ ['"'] ∧ rest = inner ++ '"' :: after ∧ '"' ∉ inner := by
  obtain ⟨d, tail, rfl⟩ := List.exists_cons_of_ne_nil hne
  obtain ⟨rfl, hrest⟩ := List.cons.inj heq
  rcases h.1.cases_head with ⟨hc, -⟩ | ⟨-, inner, rfl, hinner⟩ | ⟨hd, -⟩ | ⟨hi, -⟩ | ⟨-, hc, -⟩ |
    hmem
  · exact absurd hc (by decide)
  · refine ⟨inner, rfl, ?_, hinner⟩
    rw [← hrest]
    exact List.append_assoc inner ['"'] after
  · exact absurd hd (by decide)
  · exact absurd hi (by decide)
  · exact absurd hc (by decide)
  · exact absurd rfl (head_of_mem_symbolForms hmem).2.1

/-- A form in front of a text that starts with a line feed is that line feed. -/
theorem length_le_newline {rest lexeme after : List Char} {kind : Kind} {text : String}
    (heq : lexeme ++ after = '\n' :: rest) (h : Stands kind text lexeme after) :
    lexeme.length ≤ 1 := by
  cases lexeme with
  | nil => simp
  | cons d tail =>
    obtain ⟨rfl, hrest⟩ := List.cons.inj heq
    rcases h.1.cases_head with ⟨-, rfl⟩ | ⟨hc, -⟩ | ⟨hd, -⟩ | ⟨hi, -⟩ | ⟨-, hc, -⟩ | hmem
    · simp
    · exact absurd hc (by decide)
    · exact absurd hd (by decide)
    · exact absurd hi (by decide)
    · exact absurd hc (by decide)
    · exact absurd rfl (head_of_mem_symbolForms hmem).1

/-- A form in front of a text that starts with a digit is no longer than the number there. -/
theorem length_le_number {c : Char} (hc : c.isDigit = true) {rest lexeme after : List Char}
    {kind : Kind} {text : String} (heq : lexeme ++ after = c :: rest)
    (h : Stands kind text lexeme after) : lexeme.length ≤ (decimalPart rest).length + 1 := by
  cases lexeme with
  | nil => simp
  | cons d tail =>
    obtain ⟨rfl, hrest⟩ := List.cons.inj heq
    rcases h.1.cases_head with ⟨rfl, -⟩ | ⟨rfl, -⟩ | ⟨-, hnumber⟩ | ⟨hi, -⟩ | ⟨-, rfl, -⟩ | hmem
    · exact absurd hc (by decide)
    · exact absurd hc (by decide)
    · exact Nat.succ_le_succ (length_le_decimalPart hrest hnumber)
    · simp [not_isIdentifierStart_of_isDigit hc] at hi
    · exact absurd hc (by decide)
    · simp [(head_of_mem_symbolForms hmem).2.2.1] at hc

/-- A string in quotes is the longest form where it stands: any other one there is a string too,
and ends at the same quote. -/
theorem isLongest_string {inner : List Char} (h : '"' ∉ inner) (after : List Char) :
    IsLongest .string (String.ofList inner) ('"' :: inner ++ ['"']) after := by
  refine ⟨⟨.string inner h, by simp⟩, ?_⟩
  intro kind text lexeme after' heq hstands
  by_cases hne : lexeme = []
  · rw [hne]
    exact Nat.zero_le _
  · have heq' : lexeme ++ after' = '"' :: (inner ++ '"' :: after) := by
      rw [heq]
      simp
    obtain ⟨inner', rfl, hrest, hinner'⟩ := eq_of_stands_quote heq' hne hstands
    have hquote := quoted?_append inner' after' hinner'
    rw [← hrest, quoted?_append inner after h] at hquote
    have hwidth := congrArg Lexeme.width (Option.some.inj hquote)
    simp only [List.length_append, List.length_cons, List.length_nil] at hwidth ⊢
    omega

theorem isLongest_number {c : Char} (hc : c.isDigit = true) (rest : List Char) :
    IsLongest .number (String.ofList (c :: decimalPart rest)) (c :: decimalPart rest)
      (rest.drop (decimalPart rest).length) := by
  refine ⟨⟨spells_number hc rest, by simp⟩, ?_⟩
  intro kind text lexeme after heq hstands
  rw [List.cons_append, decimalPart_append_drop] at heq
  exact length_le_number hc heq hstands

theorem isLongest_symbol {kind : Kind} {c : Char} {mark after : List Char}
    (hmem : (kind, c :: mark) ∈ symbolForms)
    (h : Lexeme.symbol? c (mark ++ after) = some (.verbatim kind c mark)) :
    IsLongest kind (String.ofList (c :: mark)) (c :: mark) after := by
  have hkind : kind ≠ .keyword .elseIf := by
    have all : ∀ form ∈ symbolForms, form.1 ≠ .keyword .elseIf := by decide
    exact all _ hmem
  refine ⟨⟨.symbol _ hmem, fun hk => absurd hk hkind⟩, ?_⟩
  intro kind' text' lexeme' after' heq' hstands'
  by_cases hne : lexeme' = []
  · rw [hne]
    exact Nat.zero_le _
  · obtain ⟨hn, hq, hd, hi⟩ := head_of_mem_symbolForms hmem
    obtain ⟨found, hfound, hle⟩ := length_le_symbol? hn hq hd hi heq' hstands' hne
    obtain rfl := Option.some.inj (h.symm.trans hfound)
    exact hle

/-- **The scanner takes the longest form.** -/
theorem isLongest_of_first? {c : Char} {rest : List Char} {found : Lexeme}
    (h : Lexeme.first? c rest = some found) :
    ∃ lexeme after, c :: rest = lexeme ++ after ∧ lexeme.length = found.width ∧
      IsLongest found.kind found.text lexeme after := by
  -- one case per alternative of the scanner, in its order; the first character decides
  rw [first?_eq] at h
  split at h
  · rename_i hc
    obtain rfl := Option.some.inj h
    subst hc
    refine ⟨['\n'], rest, rfl, rfl, ⟨.newline, by simp [Lexeme.verbatim]⟩, ?_⟩
    intro kind text lexeme after heq hstands
    exact length_le_newline heq hstands
  split at h
  · rename_i hc
    subst hc
    rcases quote_notMem_or_exists_append rest with hnot | ⟨inner, after, rfl, hinner⟩
    · simp [quoted?_eq_none_iff.mpr hnot] at h
    · rw [quoted?_append inner after hinner] at h
      obtain rfl := Option.some.inj h
      exact ⟨'"' :: inner ++ ['"'], after, by simp, by simp, isLongest_string hinner after⟩
  split at h
  · rename_i hc
    obtain rfl := Option.some.inj h
    refine ⟨c :: decimalPart rest, rest.drop (decimalPart rest).length, ?_, rfl,
      isLongest_number hc rest⟩
    rw [List.cons_append, decimalPart_append_drop]
  split at h
  · rename_i hc
    rw [← word?_of_isIdentifierStart hc] at h
    obtain ⟨lexeme, after, heq, hlen, hstands⟩ := stands_word hc h
    refine ⟨lexeme, after, heq, hlen, hstands, ?_⟩
    intro kind text lexeme' after' heq' hstands'
    rw [hlen]
    exact length_le_word hc h (heq'.trans heq.symm) hstands'
  · obtain ⟨kind, mark, after, rfl, rfl, hmem⟩ := mem_symbolForms_of_symbol? h
    exact ⟨c :: mark, after, rfl, rfl, isLongest_symbol hmem h⟩

/-- **Where the scanner takes nothing, no form stands.** -/
theorem not_stands_of_first?_eq_none {c : Char} {rest : List Char}
    (h : Lexeme.first? c rest = none) {kind : Kind} {text : String} {lexeme after : List Char}
    (heq : lexeme ++ after = c :: rest) (hne : lexeme ≠ []) : ¬ Stands kind text lexeme after := by
  intro hstands
  rw [first?_eq] at h
  split at h
  · simp at h
  rename_i hnewline
  split at h
  · rename_i hc
    subst hc
    obtain ⟨inner, rfl, rfl, hinner⟩ := eq_of_stands_quote heq hne hstands
    simp [quoted?_append inner after hinner] at h
  rename_i hquote
  split at h
  · simp at h
  rename_i hdigit
  split at h
  · simp at h
  rename_i hletter
  obtain ⟨found, hfound, -⟩ := length_le_symbol? hnewline hquote (by simpa using hdigit)
    (by simpa using hletter) heq hstands hne
  simp [h] at hfound

end UiLang
