import UiLang.Proofs.Scan.Concatenation
import UiLang.Proofs.Scan.Joined
import UiLang.Proofs.Source.Marks

/-!
# What stands at the locations of a program

The location of a node is a line, a column and a number of characters.  Those characters of the
source are the keyword or the name of the node, or start with its keyword and end with the name that
it declares.  Going through a program in pre-order, the positions never come back: each is after the
one before it.

Both hold for every source.  An item that can not be read is skipped from its first token on, so no
part of the source is represented twice.

## Main definitions

* `charsAt`: the characters of a source at a location
* `Mark.Denotes`: the characters at a mark are those that its label tells
* `Position.Precedes`: the order of positions

## Main results

* `charsAt_spanAfter`: the characters right after a given text
* `Account.uncons`, `exists_of_mem_scan`: where the tokens of a text stand
* `Meets.laid`: marks drawn from the tokens of a text denote it and are in order
* `parseSource_locations`: the same for the program of a source
-/

namespace UiLang

/-! ## The characters at a location -/

/-- What is left after the first `n` lines of a text. -/
def afterLines : Nat → List Char → List Char
  | 0, cs => cs
  | n + 1, cs => afterLines n (cs.dropWhile (· ≠ '\n')).tail

/-- The characters of a source from the line and the column of a location on, as many as it
spans. -/
def charsAt (source : List Char) (loc : Location) : List Char :=
  ((afterLines (loc.line - 1) source).drop (loc.column - 1)).take loc.length

theorem rtakeWhile_append_cons {α : Type} {p : α → Bool} {x : α} (hx : p x = false)
    (front rest : List α) : (front ++ x :: rest).rtakeWhile p = rest.rtakeWhile p := by
  rw [List.rtakeWhile, List.reverse_append, List.reverse_cons, List.append_assoc,
    List.singleton_append, takeWhile_append_cons hx, ← List.rtakeWhile]

/-- Past as many lines as a text has line feeds, what stands after the last of them is left. -/
theorem afterLines_append (before rest : List Char) :
    afterLines (before.count '\n') (before ++ rest) = before.rtakeWhile (· ≠ '\n') ++ rest := by
  by_cases hfeed : '\n' ∈ before
  · -- the first line goes, and the others are left to the recursion
    obtain ⟨line, more, rfl, hline⟩ := List.eq_append_cons_of_mem hfeed
    have hall : ∀ c ∈ line, decide (c ≠ '\n') = true := fun c hc =>
      decide_eq_true fun heq => hline (heq ▸ hc)
    rw [rtakeWhile_append_cons (by decide), ← afterLines_append more rest, List.count_append,
      List.count_eq_zero_of_not_mem hline, List.count_cons_self, Nat.zero_add, List.append_assoc,
      List.cons_append, afterLines, dropWhile_append_of_all hall (by decide), List.tail_cons]
  · have hall : ∀ c ∈ before, decide (c ≠ '\n') = true := fun c hc =>
      decide_eq_true fun heq => hfeed (heq ▸ hc)
    rw [List.count_eq_zero_of_not_mem hfeed, List.rtakeWhile_eq_self_iff.mpr hall, afterLines]
termination_by before.length

/-- The characters right after a given text. -/
theorem charsAt_spanAfter (before text after : List Char) :
    charsAt (before ++ (text ++ after)) (spanAfter before text.length) = text := by
  simp only [charsAt, spanAfter, Nat.add_sub_cancel_left]
  rw [afterLines_append, List.drop_left, List.take_left]

/-- The span from one text to another, with no line feed before the end of the second. -/
theorem join_spanAfter (before first between : List Char) (length : Nat)
    (h : '\n' ∉ first ++ between) :
    (spanAfter before first.length).join (spanAfter (before ++ (first ++ between)) length) =
      spanAfter before ((first ++ between).length + length) := by
  simp only [← spanning_advance]
  rw [Position.advance_append, Position.advance_of_notMem h, Location.join]
  simp only [Position.spanning, Nat.le_add_right, and_self, if_true]
  congr 1
  omega

/-! ## Labels in the source -/

/-- The characters that a label stands for.  Anything may stand between a keyword and the name that
it declares. -/
def Label.Reads : Label → List Char → Prop
  | .keyword word, cs => cs = word.text.toList
  | .name text, cs => cs = text.toList
  | .declares word text, cs => ∃ between, cs = word.text.toList ++ between ++ text.toList

/-- A mark spans characters of the source, and they are those of its label. -/
structure Mark.Denotes (mark : Mark) (source : List Char) : Prop where
  length_eq : (charsAt source mark.location).length = mark.location.length
  reads : mark.label.Reads (charsAt source mark.location)

theorem denotes_of_spanAfter {label : Label} {text : List Char} (h : label.Reads text)
    (before after : List Char) :
    Mark.Denotes ⟨label, spanAfter before text.length⟩ (before ++ (text ++ after)) where
  length_eq := by rw [charsAt_spanAfter, spanAfter]
  reads := by rwa [charsAt_spanAfter]

theorem Keyword.notMem_text (word : Keyword) : '\n' ∉ word.text.toList := by
  cases word <;> decide

theorem Spells.eq_of_keyword {word : Keyword} {text : String} {lexeme : List Char}
    (h : Spells (.keyword word) text lexeme) (hword : word ≠ .elseIf) :
    lexeme = word.text.toList := by
  have hkind : Kind.keyword word ≠ .keyword .elseIf := by simpa using hword
  have hwritten : Word.IsWritten ⟨.keyword word, text⟩ := h.isWritten
  rw [h.eq_chars hkind, ← eq_text_of_wordKind (hwritten.of_isLettered rfl hkind).1]
  rfl

theorem Spells.eq_of_identifier {text : String} {lexeme : List Char}
    (h : Spells .identifier text lexeme) : lexeme = text.toList := by
  rw [h.eq_chars (by decide)]
  rfl

/-! ## Tokens one after another -/

theorem IsGapRun.notMem {gap : List Char} (h : IsGapRun gap) : '\n' ∉ gap := by
  intro hmem
  have hgap := h _ hmem
  revert hgap
  decide

/-- The characters that a token is written with: a form, or a quote that is never closed with all
that follows it. -/
def Token.IsWrittenAs (token : Token) (lexeme : List Char) : Prop :=
  Spells token.kind token.text lexeme ∨ token.kind = .string ∧ ∃ inner, lexeme = '"' :: inner

theorem Token.IsWrittenAs.spells {token : Token} {lexeme : List Char} (h : token.IsWrittenAs lexeme)
    {kind : Kind} (hkind : token.kind = kind) (hstring : kind ≠ .string) :
    Spells kind token.text lexeme := by
  subst hkind
  exact h.resolve_right fun hopen => hstring hopen.1

/-- Where the first token of a text stands.  What is before it are gaps and characters that start
no form, so it has no line feed. -/
theorem Account.uncons {before text : List Char} {token : Token} {tokens : List Token}
    {faults : List Diagnostic} {stop : Token}
    (h : Account before text (token :: tokens) faults stop) :
    ∃ between lexeme after faults', text = between ++ (lexeme ++ after) ∧ '\n' ∉ between ∧
      lexeme ≠ [] ∧ token.location = spanAfter (before ++ between) lexeme.length ∧
      token.IsWrittenAs lexeme ∧
      Account (before ++ between ++ lexeme) after tokens faults' stop := by
  generalize htokens : token :: tokens = all at h
  induction h with
  | done => cases htokens
  | token before gap lexeme after isGapRun longest nonempty rest ih =>
    cases htokens
    exact ⟨gap, lexeme, after, _, List.append_assoc _ _ _, isGapRun.notMem, nonempty, rfl,
      .inl longest.1.1, rest⟩
  | stray before gap c after isGapRun not_gap not_quote no_form rest ih =>
    obtain ⟨between, lexeme, after, faults', rfl, hfeed, hne, hlocation, hwritten, hrest⟩ :=
      ih htokens
    -- a line feed is a form of its own, so it is no stray character
    have hc : '\n' ∉ gap ++ [c] := by
      rw [List.mem_append, List.mem_singleton]
      rintro (hgap | rfl)
      · exact isGapRun.notMem hgap
      · exact no_form .newline "\n" ['\n'] _ rfl (by simp) ⟨.newline, nofun⟩
    refine ⟨gap ++ [c] ++ between, lexeme, after, faults', by simp, ?_, hne, ?_, hwritten, ?_⟩
    · rw [List.mem_append]
      exact not_or.mpr ⟨hc, hfeed⟩
    · rw [hlocation]
      simp
    · simpa using hrest
  | unterminated before gap inner isGapRun unclosed =>
    cases htokens
    refine ⟨gap, '"' :: inner, [], [], by simp, isGapRun.notMem, by simp, rfl,
      .inr ⟨rfl, inner, rfl⟩, ?_⟩
    have hdone := Account.done (before ++ gap ++ '"' :: inner) [] (by simp [IsGapRun])
    rwa [List.append_nil] at hdone

theorem Account.of_mem {before text source : List Char} {tokens : List Token}
    {faults : List Diagnostic} {stop : Token} (h : Account before text tokens faults stop)
    (hsource : before ++ text = source) {token : Token} (htoken : token ∈ tokens) :
    ∃ earlier lexeme after, source = earlier ++ (lexeme ++ after) ∧ token.IsWrittenAs lexeme ∧
      token.location = spanAfter earlier lexeme.length := by
  induction tokens generalizing before text faults with
  | nil => cases htoken
  | cons first tokens ih =>
    obtain ⟨between, lexeme, after, _, rfl, -, -, hlocation, hwritten, hrest⟩ := h.uncons
    rcases List.mem_cons.mp htoken with rfl | htoken
    · exact ⟨before ++ between, lexeme, after, by simp [← hsource], hwritten, hlocation⟩
    · exact ih hrest (by simpa using hsource) htoken

/-- What stands where a token of a source is located: the characters that it is written with. -/
theorem exists_of_mem_scan {source : String} {token : Token}
    (h : token ∈ (scan source).stream.tokens) :
    ∃ before lexeme after, source.toList = before ++ (lexeme ++ after) ∧
      token.IsWrittenAs lexeme ∧ token.location = spanAfter before lexeme.length :=
  (account_scanFrom [] source.toList).of_mem rfl h

theorem scan_stop (source : String) :
    (scan source).stream.stop = ⟨.eof, "", spanAfter source.toList 0⟩ :=
  (account_scanFrom [] source.toList).stop_eq

/-! ## Marks in order -/

/-- One position is before another: on an earlier line, or further left on the same line. -/
def Position.Precedes (first second : Position) : Prop :=
  first.line < second.line ∨ first.line = second.line ∧ first.column < second.column

theorem Position.precedes_advance {cs : List Char} (h : cs ≠ []) (pos : Position) :
    pos.Precedes (pos.advance cs) := by
  by_cases hfeed : '\n' ∈ cs
  · exact .inl (Position.line_lt_advance hfeed pos)
  · rw [Position.advance_of_notMem hfeed]
    exact .inr ⟨rfl, Nat.lt_add_of_pos_right (List.length_pos_iff.mpr h)⟩

theorem toPosition_spanAfter (before : List Char) (length : Nat) :
    (spanAfter before length).toPosition = Position.start.advance before := by
  rw [← spanning_advance]
  rfl

/-- Marks that denote a source, in order, with none before the end of the text `before`. -/
structure Laid (before source : List Char) (marks : List Mark) : Prop where
  denotes : ∀ mark ∈ marks, mark.Denotes source
  later : ∀ mark ∈ marks, ∃ more,
    mark.location.toPosition = Position.start.advance (before ++ more)
  ordered : marks.Pairwise fun first second =>
    first.location.toPosition.Precedes second.location.toPosition

namespace Laid

variable {before source : List Char} {marks : List Mark}

theorem weaken {more : List Char} (h : Laid (before ++ more) source marks) :
    Laid before source marks where
  denotes := h.denotes
  later mark hmark := by
    obtain ⟨rest, heq⟩ := h.later mark hmark
    exact ⟨more ++ rest, by rw [heq, List.append_assoc]⟩
  ordered := h.ordered

/-- One more mark in front, where a text stands that its label reads. -/
theorem cons {label : Label} {between lexeme text after : List Char}
    (h : Laid (before ++ between ++ lexeme) source marks) (hne : lexeme ≠ [])
    (hreads : label.Reads text) (hsource : before ++ between ++ (text ++ after) = source) :
    Laid before source (⟨label, spanAfter (before ++ between) text.length⟩ :: marks) where
  denotes := by
    refine List.forall_mem_cons.mpr ⟨?_, h.denotes⟩
    rw [← hsource]
    exact denotes_of_spanAfter hreads _ after
  later := by
    refine List.forall_mem_cons.mpr ⟨⟨between, toPosition_spanAfter _ _⟩, ?_⟩
    rw [List.append_assoc] at h
    exact h.weaken.later
  ordered := by
    refine List.pairwise_cons.mpr ⟨fun next hnext => ?_, h.ordered⟩
    obtain ⟨more, heq⟩ := h.later next hnext
    rw [toPosition_spanAfter, heq, List.append_assoc _ lexeme, Position.advance_append _ (_ ++ _)]
    exact Position.precedes_advance (by simp [hne]) _

end Laid

/-- **Marks drawn from the tokens of a text denote it and are in order.**  The induction goes along
the tokens: each one stands after what the ones before it took. -/
theorem Meets.laid {ts us : List Token} {marks : List Mark} (h : Meets ts marks us)
    {before text source : List Char} {faults : List Diagnostic} {stop : Token}
    (haccount : Account before text ts faults stop) (hsource : before ++ text = source) :
    Laid before source marks := by
  induction h generalizing before text faults with
  | done ts => exact ⟨List.forall_mem_nil _, List.forall_mem_nil _, .nil⟩
  | skip token rest ih =>
    obtain ⟨between, lexeme, after, _, rfl, -, -, -, -, hrest⟩ := haccount.uncons
    exact (ih hrest (by simpa using hsource)).weaken.weaken
  | @keyword token word kind whole _ _ _ rest ih =>
    obtain ⟨between, lexeme, after, _, rfl, -, hne, hlocation, hwritten, hrest⟩ := haccount.uncons
    have hreads : (Label.keyword word).Reads lexeme :=
      (hwritten.spells kind nofun).eq_of_keyword whole
    rw [hlocation]
    exact (ih hrest (by simpa using hsource)).cons hne hreads (by simpa using hsource)
  | @name token kind _ _ _ rest ih =>
    obtain ⟨between, lexeme, after, _, rfl, -, hne, hlocation, hwritten, hrest⟩ := haccount.uncons
    have hreads : (Label.name token.text).Reads lexeme :=
      (hwritten.spells kind nofun).eq_of_identifier
    rw [hlocation]
    exact (ih hrest (by simpa using hsource)).cons hne hreads (by simpa using hsource)
  | @declares token name word kind whole named _ _ _ rest ih =>
    obtain ⟨between, lexeme, _, _, rfl, -, hne, hlocation, hwritten, hrest⟩ := haccount.uncons
    obtain ⟨gap, lexeme', after, _, rfl, hgap, -, hlocation', hwritten', hrest⟩ := hrest.uncons
    have hword := (hwritten.spells kind nofun).eq_of_keyword whole
    have hname := (hwritten'.spells named nofun).eq_of_identifier
    have hreads : (Label.declares word name.text).Reads (lexeme ++ gap ++ lexeme') :=
      ⟨gap, by rw [hword, hname]⟩
    -- no line feed stands between the two tokens, so their span is joined
    have hfeed : '\n' ∉ lexeme ++ gap := by
      rw [hword, List.mem_append]
      exact not_or.mpr ⟨word.notMem_text, hgap⟩
    rw [hlocation, hlocation', List.append_assoc _ lexeme gap, join_spanAfter _ _ _ _ hfeed,
      ← List.length_append]
    exact (ih hrest (by simpa using hsource)).weaken.weaken.cons hne hreads
      (by simpa using hsource)

/-- **Locations denote their source.**  Whatever the source, each node of its program is located at
its keyword, its name, or the span from its keyword to the name that it declares; and in pre-order
the positions strictly increase. -/
theorem parseSource_locations (source : String) :
    (∀ mark ∈ (parseSource source).program.marks, mark.Denotes source.toList) ∧
      (parseSource source).program.marks.Pairwise fun first second =>
        first.location.toPosition.Precedes second.location.toPosition := by
  have haccount := account_scanFrom [] source.toList
  have hmeets := readItemList_meets (scan source).stream.stop (scan source).stream.tokens
  have hlaid := hmeets.laid haccount rfl
  exact ⟨hlaid.denotes, hlaid.ordered⟩

-- the broken first item leaves no mark; a stray character stands inside the span of the second
example :
    (parseSource
      "component A \x7b\nstate =\nexport component $ B \x7b\ntext\n\x7d").program.marks.map
    Mark.location = [⟨⟨3, 1⟩, 6⟩, ⟨⟨3, 8⟩, 13⟩, ⟨⟨4, 1⟩, 4⟩] := by
  decide +kernel

end UiLang
