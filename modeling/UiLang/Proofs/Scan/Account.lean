import UiLang.Proofs.Scan.Lexemes
import Mathlib.Data.List.DropRight

/-!
# Scanning loses nothing

A text is accounted for from left to right: gaps of spaces, tabs and carriage returns, and between
them the longest written forms of the tokens, or single characters that start no form.  Lines are
counted by line feeds, columns and lengths by characters.

The account says what a text is made of and where each piece stands, with no scanner in it.  The
tokens and faults of a scan are exactly those of the account of the whole text.

## Main definitions

* `spanAfter`: the span of characters right after a given text
* `Account`: the tokens and faults of a text that stands after another one

## Main results

* `account_scanFrom`: a scan gives the account of its text
* `scan_lossless`: the same for a whole source
-/

namespace UiLang

/-- The span of `length` characters right after the text `before`. -/
def spanAfter (before : List Char) (length : Nat) : Location where
  line := 1 + before.count '\n'
  column := 1 + (before.rtakeWhile (· ≠ '\n')).length
  length := length

/-- Walking over a text counts its line feeds, and the characters after the last one. -/
theorem start_advance (before : List Char) :
    Position.start.advance before =
      ⟨1 + before.count '\n', 1 + (before.rtakeWhile (· ≠ '\n')).length⟩ := by
  induction before using List.reverseRecOn with
  | nil => rfl
  | append_singleton before c ih =>
    rw [Position.advance_append, ih, Position.advance_cons, Position.advance_nil, Position.next]
    by_cases hc : c = '\n'
    · simp [hc, Nat.add_assoc, List.rtakeWhile_concat_neg]
    · simp [hc, Nat.add_assoc, List.rtakeWhile_concat_pos]

theorem spanning_advance (before : List Char) (length : Nat) :
    (Position.start.advance before).spanning length = spanAfter before length := by
  rw [start_advance]
  rfl

/-- A run of spaces, tabs and carriage returns. -/
def IsGapRun (cs : List Char) : Prop :=
  ∀ c ∈ cs, c = ' ' ∨ c = '\t' ∨ c = '\r'

theorem isGap_iff {c : Char} : isGap c = true ↔ c = ' ' ∨ c = '\t' ∨ c = '\r' := by
  simp [isGap, or_assoc]

/-- `Account before text tokens faults stop`: what the text `text`, which stands after `before`, is
made of, from left to right.

* `done`: a last gap, and the end marker after it.
* `token`: a gap, the longest form in front of what follows, and an account of the rest.
* `stray`: a gap, one character that starts no form, and an account of the rest.
* `unterminated`: a gap, and a quote with no other one after it: the rest is one string. -/
inductive Account : List Char → List Char → List Token → List Diagnostic → Token → Prop
  | done (before gap : List Char) (isGapRun : IsGapRun gap) :
      Account before gap [] [] ⟨.eof, "", spanAfter (before ++ gap) 0⟩
  | token (before gap lexeme after : List Char) (isGapRun : IsGapRun gap) {kind : Kind}
      {text : String} (longest : IsLongest kind text lexeme after) (nonempty : lexeme ≠ [])
      {tokens : List Token} {faults : List Diagnostic} {stop : Token}
      (rest : Account (before ++ gap ++ lexeme) after tokens faults stop) :
      Account before (gap ++ lexeme ++ after)
        (⟨kind, text, spanAfter (before ++ gap) lexeme.length⟩ :: tokens) faults stop
  | stray (before gap : List Char) (c : Char) (after : List Char) (isGapRun : IsGapRun gap)
      (not_gap : ¬ IsGapRun [c]) (not_quote : c ≠ '"')
      (no_form : ∀ kind text lexeme rest, lexeme ++ rest = c :: after → lexeme ≠ [] →
        ¬ Stands kind text lexeme rest)
      {tokens : List Token} {faults : List Diagnostic} {stop : Token}
      (rest : Account (before ++ gap ++ [c]) after tokens faults stop) :
      Account before (gap ++ [c] ++ after) tokens
        (⟨.unexpectedCharacter c, spanAfter (before ++ gap) 1⟩ :: faults) stop
  | unterminated (before gap inner : List Char) (isGapRun : IsGapRun gap) (unclosed : '"' ∉ inner) :
      Account before (gap ++ '"' :: inner)
        [⟨.string, String.ofList inner, spanAfter (before ++ gap) ('"' :: inner).length⟩]
        [⟨.unterminatedString, spanAfter (before ++ gap) ('"' :: inner).length⟩]
        ⟨.eof, "", spanAfter (before ++ gap ++ '"' :: inner) 0⟩

/-- One more character of the gap in front. -/
theorem Account.gap_cons {before : List Char} {c : Char} {text : List Char} {tokens : List Token}
    {faults : List Diagnostic} {stop : Token} (hc : isGap c = true)
    (h : Account (before ++ [c]) text tokens faults stop) :
    Account before (c :: text) tokens faults stop := by
  have hcons {gap : List Char} (hgap : IsGapRun gap) : IsGapRun (c :: gap) :=
    List.forall_mem_cons.mpr ⟨isGap_iff.mp hc, hgap⟩
  have hmove (gap : List Char) : before ++ [c] ++ gap = before ++ c :: gap :=
    List.append_assoc before [c] gap
  generalize hbefore : before ++ [c] = here at h
  -- every rule begins with a gap, and the character joins it
  cases h with
  | done _ gap isGapRun =>
    subst hbefore
    rw [hmove]
    exact .done before (c :: text) (hcons isGapRun)
  | token _ gap lexeme after isGapRun longest nonempty rest =>
    subst hbefore
    rw [hmove] at rest ⊢
    exact .token before (c :: gap) lexeme after (hcons isGapRun) longest nonempty rest
  | stray _ gap d after isGapRun not_gap not_quote no_form rest =>
    subst hbefore
    rw [hmove] at rest ⊢
    exact .stray before (c :: gap) d after (hcons isGapRun) not_gap not_quote no_form rest
  | unterminated _ gap inner isGapRun unclosed =>
    subst hbefore
    rw [hmove]
    exact .unterminated before (c :: gap) inner (hcons isGapRun) unclosed

/-- **A scan gives the account of its text.**  The induction is on the text that is left; what was
read before stands in `before` and fixes the position. -/
theorem account_scanFrom (before text : List Char) :
    Account before text (scanFrom (Position.start.advance before) text).stream.tokens
      (scanFrom (Position.start.advance before) text).faults
      (scanFrom (Position.start.advance before) text).stream.stop := by
  have hempty : IsGapRun [] := by simp [IsGapRun]
  generalize hpos : Position.start.advance before = pos
  fun_induction scanFrom pos text generalizing before with
  | case1 pos =>
    subst hpos
    simpa [Scan.finish, spanning_advance] using Account.done before [] hempty
  | case2 pos c rest hgap ih =>
    -- a character of a gap belongs to the gap of whatever comes next
    refine Account.gap_cons hgap (ih (before ++ [c]) ?_)
    rw [Position.advance_append, hpos]
    rfl
  | case3 pos c rest hgap found hfound ih =>
    subst hpos
    obtain ⟨lexeme, after, heq, hlen, hlongest⟩ := isLongest_of_first? hfound
    -- the scanner drops as many characters as the lexeme has, which leaves what stands after it
    rw [heq, ← hlen, List.take_left, List.drop_left] at ih ⊢
    have hne : lexeme ≠ [] := by
      rintro rfl
      exact absurd hlen.symm found.width_pos.ne'
    have hrest := ih (before ++ lexeme) (Position.advance_append _ _ _)
    have haccount := Account.token before [] lexeme after hempty hlongest hne (by simpa using hrest)
    simpa [Scan.addToken, spanning_advance] using haccount
  | case4 pos rest hgap hfound =>
    subst hpos
    have hunclosed : '"' ∉ rest := quoted?_eq_none_iff.mp (by simpa [Lexeme.first?] using hfound)
    have haccount := Account.unterminated before [] rest hempty hunclosed
    simp only [Scan.unterminated, Scan.addFault, Scan.addToken, Scan.finish,
      ← Position.advance_append, spanning_advance]
    simpa using haccount
  | case5 pos c rest hgap hfound hquote ih =>
    subst hpos
    have hrest := ih (before ++ [c]) (Position.advance_append _ _ _)
    have hstray : ¬ IsGapRun [c] := fun h => hgap (isGap_iff.mpr (h c List.mem_cons_self))
    have haccount := Account.stray before [] c rest hempty hstray hquote
      (fun _ _ _ _ => not_stands_of_first?_eq_none hfound) (by simpa using hrest)
    simpa [Scan.addFault, spanning_advance] using haccount

/-- The tokens of an account are forms of their own or strings, so none is an end marker. -/
theorem Account.spells {before text : List Char} {tokens : List Token} {faults : List Diagnostic}
    {stop : Token} (h : Account before text tokens faults stop) :
    ∀ token ∈ tokens, token.kind = .string ∨ ∃ lexeme, Spells token.kind token.text lexeme := by
  induction h with
  | done => simp
  | token before gap lexeme after isGapRun longest nonempty rest ih =>
    intro token htoken
    rcases List.mem_cons.mp htoken with rfl | htoken
    · exact .inr ⟨lexeme, longest.1.1⟩
    · exact ih token htoken
  | stray before gap c after isGapRun not_gap not_quote no_form rest ih => exact ih
  | unterminated before gap inner isGapRun unclosed =>
    intro token htoken
    obtain rfl := List.mem_singleton.mp htoken
    exact .inl rfl

theorem Spells.kind_ne_eof {kind : Kind} {text : String} {lexeme : List Char}
    (h : Spells kind text lexeme) : kind ≠ .eof := by
  cases h with
  | word letters identifier =>
    unfold wordKind
    split <;> simp
  | symbol mark listed =>
    have all : ∀ form ∈ symbolForms, form.1 ≠ .eof := by decide
    exact all _ listed
  | _ => simp

/-- The end marker of an account stands right after its text. -/
theorem Account.stop_eq {before text : List Char} {tokens : List Token} {faults : List Diagnostic}
    {stop : Token} (h : Account before text tokens faults stop) :
    stop = ⟨.eof, "", spanAfter (before ++ text) 0⟩ := by
  induction h with
  | done => rfl
  | token before gap lexeme after isGapRun longest nonempty rest ih => simpa using ih
  | stray before gap c after isGapRun not_gap not_quote no_form rest ih => simpa using ih
  | unterminated before gap inner isGapRun unclosed => simp

/-- **Scanning loses nothing, and positions are exact.**  A source is accounted for as a whole by
the tokens and faults of its scan, in order, and ends in the one end marker. -/
theorem scan_lossless (source : String) :
    Account [] source.toList (scan source).stream.tokens (scan source).faults
        (scan source).stream.stop ∧
      (∀ token ∈ (scan source).stream.tokens, token.kind ≠ .eof) ∧
      (scan source).stream.stop = ⟨.eof, "", spanAfter source.toList 0⟩ := by
  have haccount := account_scanFrom [] source.toList
  refine ⟨haccount, ?_, ?_⟩
  · intro token htoken
    rcases haccount.spells token htoken with hstring | ⟨lexeme, hspells⟩
    · simp [hstring]
    · exact hspells.kind_ne_eof
  · exact haccount.stop_eq

end UiLang
