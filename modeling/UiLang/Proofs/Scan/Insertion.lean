import UiLang.Proofs.Scan.Concatenation
import UiLang.Proofs.Scan.Words

/-!
# A word put into a text

Where a word starts, another word and a space may be put in front of it.  The tokens before that
place end there with either word, so they stay; the tokens after it move to the right, as far as
their line goes.

## Main definitions

* `BeginsWord`: texts that the token before them does not go on with, or goes on with alike
* `Location.rightOn`, `Relocation.rightOn`: the move to the right on one line
* `Scan.addTokens`: more tokens in front of a scan

## Main results

* `Word.EndsBefore.exchange`: a word that ends before one word ends before any other
* `scanFrom_cut`: a text cut where one of its tokens starts
* `scanFrom_export`: a text with the word `export` in front
-/

namespace UiLang

/-! ## Words in the place of words -/

/-- A text that starts with a word of two letters or more, and not like `if`. -/
def BeginsWord (text : List Char) : Prop :=
  ∃ c d more, text = c :: d :: more ∧ isIdentifierStart c = true ∧ c ≠ 'i' ∧
    isIdentifierChar d = true

theorem isIdentifierChar_of_isIdentifierStart {c : Char} (h : isIdentifierStart c = true) :
    isIdentifierChar c = true := by
  simp only [isIdentifierStart, isIdentifierChar, Char.isAlphanum, Bool.or_eq_true] at h ⊢
  exact h.imp_left .inl

theorem not_isDigit_of_isIdentifierStart {c : Char} (h : isIdentifierStart c = true) :
    c.isDigit = false := by
  rw [Bool.eq_false_iff]
  intro hdigit
  rw [not_isIdentifierStart_of_isDigit hdigit] at h
  cases h

section Exchange

variable {front text text' : List Char}

/-- A text that starts with a letter lacks every class without letters. -/
theorem BeginsWord.lacks {p : Char → Bool} (h : BeginsWord text)
    (hp : ∀ c, isIdentifierStart c = true → p c = false) : Lacks p text := by
  obtain ⟨c, d, more, rfl, hc, -, -⟩ := h
  exact lacks_cons.mpr (hp c hc)

/-- A class that is lacking after a text stays so, unless the text is empty. -/
theorem Lacks.exchange {p : Char → Bool} (h : Lacks p (front ++ text))
    (hnil : front = [] → Lacks p text') : Lacks p (front ++ text') := by
  cases front with
  | nil => exact hnil rfl
  | cons c front => exact lacks_cons.mpr (lacks_cons.mp h)

/-- A word is neither the `if` after an `else` nor the end of one. -/
theorem elseIfTail?_exchange (front : List Char) (h : BeginsWord text) (h' : BeginsWord text') :
    elseIfTail? (front ++ text') = elseIfTail? (front ++ text) := by
  obtain ⟨c, d, more, rfl, hc, hi, hd⟩ := h
  obtain ⟨c', d', more', rfl, hc', hi', hd'⟩ := h'
  have hblank {x : Char} (hx : isIdentifierStart x = true) : isElseBlank x = false := by
    rw [Bool.eq_false_iff]
    intro hblank
    have := not_isIdentifierChar_of_isElseBlank hblank
    rw [isIdentifierChar_of_isIdentifierStart hx] at this
    cases this
  unfold elseIfTail?
  rw [dropWhile_append_cons (hblank hc), dropWhile_append_cons (hblank hc'),
    takeWhile_append_cons (hblank hc), takeWhile_append_cons (hblank hc')]
  -- how much of an `if` stands before the two words
  have hletter := isIdentifierChar_of_isIdentifierStart hc
  have hletter' := isIdentifierChar_of_isIdentifierStart hc'
  rcases front.dropWhile isElseBlank with _ | ⟨x, _ | ⟨y, after⟩⟩
  · simp [hi, hi']
  · by_cases hx : x = 'i'
    · by_cases hf : c = 'f' <;> by_cases hf' : c' = 'f' <;> simp [hx, hf, hf', hd, hd']
    · simp [hx]
  · by_cases hxy : x = 'i' ∧ y = 'f'
    · obtain ⟨rfl, rfl⟩ := hxy
      cases after <;> simp [hletter, hletter']
    · simp at hxy
      simp_all

/-- **A word that ends before one word ends before any other.** -/
theorem Word.EndsBefore.exchange {w : Word} (hends : w.EndsBefore (front ++ text))
    (h : BeginsWord text) (h' : BeginsWord text') : w.EndsBefore (front ++ text') where
  letters hkind := by
    refine (hends.letters hkind).exchange ?_
    rintro rfl
    -- letters do not end before letters
    obtain ⟨c, d, more, rfl, hc, -, -⟩ := h
    have := lacks_cons.mp (hends.letters hkind)
    rw [isIdentifierChar_of_isIdentifierStart hc] at this
    cases this
  blanks hkind := by
    rw [elseIfTail?_exchange front h h']
    exact hends.blanks hkind
  digits hkind :=
    (hends.digits hkind).exchange fun _ => h'.lacks fun _ => not_isDigit_of_isIdentifierStart
  point hkind := by
    refine (hends.point hkind).imp_right fun hfraction => ?_
    obtain ⟨c, d, more, rfl, hc, -, -⟩ := h
    obtain ⟨c', d', more', rfl, hc', -, -⟩ := h'
    rw [fraction_append (not_isDigit_of_isIdentifierStart hc) (ne_of_class hc (by decide))]
      at hfraction
    rw [fraction_append (not_isDigit_of_isIdentifierStart hc') (ne_of_class hc' (by decide))]
    exact hfraction
  equals hkind :=
    (hends.equals hkind).exchange fun _ => h'.lacks fun _ hc =>
      beq_eq_false_iff_ne.mpr (ne_of_class hc (by decide))

end Exchange

/-! ## A text cut at a token -/

/-- More tokens in front of a scan. -/
def Scan.addTokens (tokens : List Token) (s : Scan) : Scan :=
  { s with stream := { s.stream with tokens := tokens ++ s.stream.tokens } }

theorem Scan.addTokens_cons (token : Token) (tokens : List Token) (s : Scan) :
    s.addTokens (token :: tokens) = (s.addTokens tokens).addToken token :=
  rfl

/-- **A text cut where one of its tokens starts.**  In a text without faults what stands before a
word has the same tokens before any other word. -/
theorem scanFrom_cut {pos : Position} {cs : List Char} (hfaults : (scanFrom pos cs).faults = [])
    {before after : List Token} {token : Token}
    (htokens : (scanFrom pos cs).stream.tokens = before ++ token :: after)
    (hword : ∀ lexeme more, Spells token.kind token.text lexeme → BeginsWord (lexeme ++ more)) :
    ∃ front text, cs = front ++ text ∧ BeginsWord text ∧
      token.location.toPosition = pos.advance front ∧
      ∀ text', BeginsWord text' →
        scanFrom pos (front ++ text') = (scanFrom (pos.advance front) text').addTokens before := by
  -- the induction follows the scan; whatever it takes before the token ends before the token too
  fun_induction scanFrom pos cs generalizing before with
  | case1 pos => simp [Scan.finish] at htokens
  | case2 pos c rest hgap ih =>
    obtain ⟨front, text, rfl, hstarts, hlocation, hscan⟩ := ih hfaults htokens
    refine ⟨c :: front, text, rfl, hstarts, hlocation, ?_⟩
    intro text' htext'
    rw [List.cons_append, scanFrom, if_pos hgap, hscan text' htext', Position.advance_cons]
  | case3 pos c rest hgap found hfound ih =>
    obtain ⟨lexeme, more, heq, hlen, hlongest⟩ := isLongest_of_first? hfound
    simp only [heq, ← hlen, List.take_left, List.drop_left] at ih htokens hfaults
    cases before with
    | nil =>
      obtain ⟨rfl, -⟩ := List.cons.inj htokens
      refine ⟨[], c :: rest, rfl, ?_, rfl, fun _ _ => rfl⟩
      rw [heq]
      exact hword lexeme more hlongest.1.1
    | cons first before =>
      obtain ⟨rfl, hrest⟩ := List.cons.inj htokens
      obtain ⟨front, text, rfl, hstarts, hlocation, hscan⟩ := ih hfaults hrest
      refine ⟨lexeme ++ front, text, by rw [heq, List.append_assoc], hstarts, ?_, ?_⟩
      · rw [hlocation, Position.advance_append]
      · intro text' htext'
        rw [List.append_assoc, scanFrom_of_spells hlongest.1.1
          (hlongest.endsBefore.exchange hstarts htext'), hscan text' htext',
          Scan.addTokens_cons, Position.advance_append]
  | case4 pos rest hgap hfound => cases hfaults
  | case5 pos c rest hgap hfound hquote ih => cases hfaults

/-! ## To the right on one line -/

/-- The location `n` columns to the right, if it is on the given line. -/
def Location.rightOn (line n : Nat) (loc : Location) : Location :=
  if loc.line = line then { loc with column := loc.column + n } else loc

/-- The position `n` columns to the right, if it is on the given line. -/
def Position.rightOn (line n : Nat) (pos : Position) : Position :=
  if pos.line = line then { pos with column := pos.column + n } else pos

theorem Location.line_rightOn (line n : Nat) (loc : Location) :
    (loc.rightOn line n).line = loc.line := by
  unfold rightOn
  split <;> rfl

/-- Everything on one line moves `n` columns to the right. -/
def Relocation.rightOn (line n : Nat) : Relocation where
  place := .rightOn line n
  lineEnd := .rightOn line n
  join_place first second := by
    by_cases hline : first.line = second.line
    · unfold Location.join Location.rightOn
      rw [hline]
      by_cases hsecond : second.line = line
      · by_cases hle : first.column ≤ second.column
        · simp [hsecond, hline, hle]
          omega
        · simp [hsecond, hline, hle]
      · simp [hsecond, hline]
        split <;> simp [hsecond, hline]
    · unfold Location.join
      rw [Location.line_rightOn, Location.line_rightOn, if_neg fun h => hline h.1,
        if_neg fun h => hline h.1]
  separated_place previous next := by
    unfold RawText.separated Token.relocate
    dsimp only
    rw [Location.line_rightOn, Location.line_rightOn]
    by_cases hline : previous.location.line = next.location.line
    · unfold Location.rightOn
      rw [hline]
      split
      · simp only [bne_self_eq_false, Bool.false_or, decide_eq_decide]
        omega
      · rfl
    · have hne : (previous.location.line != next.location.line) = true := bne_iff_ne.mpr hline
      rw [hne, Bool.true_or, Bool.true_or]

theorem Relocation.rightOn_token (line n : Nat) (token : Token) :
    (Relocation.rightOn line n).token token = token.relocate (.rightOn line n) := by
  unfold Relocation.token Relocation.placeOf Relocation.rightOn
  split <;> rfl

/-- From a line on, a text that starts further to the right has its tokens on that line further to
the right. -/
theorem scanFrom_rightOn (pos : Position) (n : Nat) (cs : List Char) :
    scanFrom (pos.rightOn pos.line n) cs =
      (scanFrom pos cs).relocate (.rightOn pos.line n) := by
  refine @scanFrom_moved (Position.rightOn pos.line n) (Location.rightOn pos.line n)
    (fun later => pos.line ≤ later.line) ?_ ?_ ?_ pos (Nat.le_refl _) cs
  · intro later c hle
    unfold Position.next
    split
    · exact Nat.le_succ_of_le hle
    · exact hle
  · intro later c hle
    unfold Position.next Position.rightOn
    split
    · -- a line feed leads past the line, whichever line it ends
      have hne : later.line + 1 ≠ pos.line := by omega
      rw [if_neg hne]
      split <;> rfl
    · split
      · exact congrArg (Position.mk _) (Nat.add_right_comm _ _ _)
      · rfl
  · intro later length
    unfold Location.rightOn Position.rightOn Position.spanning
    split <;> rfl

/-- **The word `export` in front of a text** is one more token, and the line goes on further to the
right. -/
theorem scanFrom_export (pos : Position) (text : List Char) :
    scanFrom pos ("export ".toList ++ text) =
      ((scanFrom pos text).relocate (.rightOn pos.line 7)).addToken
        ⟨.keyword .exportWord, "export", pos.spanning 6⟩ := by
  have hspells : Spells (.keyword .exportWord) "export" ['e', 'x', 'p', 'o', 'r', 't'] :=
    Spells.word ['e', 'x', 'p', 'o', 'r', 't'] rfl
  have hends : Word.EndsBefore ⟨.keyword .exportWord, "export"⟩ (' ' :: text) :=
    Word.endsBefore_of_isLettered rfl (lacks_cons.mpr rfl) nofun
  have hgap : isGap ' ' = true := rfl
  have hright : (pos.advance ['e', 'x', 'p', 'o', 'r', 't']).next ' ' =
      pos.rightOn pos.line 7 := by
    unfold Position.rightOn
    rw [if_pos rfl]
    rfl
  change scanFrom pos (['e', 'x', 'p', 'o', 'r', 't'] ++ ' ' :: text) = _
  rw [scanFrom_of_spells hspells hends, scanFrom, if_pos hgap, hright, scanFrom_rightOn]
  rfl

end UiLang
