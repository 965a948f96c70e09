import UiLang.Compiler
import UiLang.Proofs.Scan.Concatenation
import UiLang.Proofs.Source.Faults
import UiLang.Proofs.Source.Locations
import UiLang.Proofs.Source.Recovery

/-!
# Line endings

A carriage return in front of every line feed is one more character of a gap.  It moves the newline
token one column to the right and nothing else: the next line starts at its first column either way.
Only a string that goes over a line feed would take the carriage return in.

No node is located at a newline, so a program stays as it is with all its locations.  A fault may be
found at a newline, and moves with it.

## Main definitions

* `insertReturns`, `withReturns`: a carriage return in front of every line feed
* `Token.pastReturn`, `Location.pastReturn`: where tokens and faults are then
* `OnOneLine`: no string has a line feed in it

## Main results

* `advance_insertReturns`: positions right after a text stay as they are
* `first?_insertReturns`, `scanFrom_insertReturns`: the newline tokens move, and nothing else does
* `parseSource_withReturns`: the program stays as it is, and the faults at newlines move
-/

namespace UiLang

/-! ## Texts with carriage returns -/

/-- A carriage return in front of every line feed. -/
def insertReturns (cs : List Char) : List Char :=
  cs.flatMap fun c => if c = '\n' then ['\r', '\n'] else [c]

/-- A source with a carriage return in front of every line feed. -/
def withReturns (source : String) : String :=
  String.ofList (insertReturns source.toList)

section Returns

variable (cs ds : List Char)

theorem toList_withReturns (source : String) :
    (withReturns source).toList = insertReturns source.toList :=
  String.toList_ofList

theorem insertReturns_append : insertReturns (cs ++ ds) = insertReturns cs ++ insertReturns ds :=
  List.flatMap_append

theorem insertReturns_feed : insertReturns ('\n' :: cs) = '\r' :: '\n' :: insertReturns cs :=
  rfl

theorem insertReturns_cons {c : Char} (h : c ≠ '\n') :
    insertReturns (c :: cs) = c :: insertReturns cs := by
  rw [insertReturns, List.flatMap_cons, if_neg h]
  rfl

theorem insertReturns_of_notMem {cs : List Char} (h : '\n' ∉ cs) : insertReturns cs = cs := by
  induction cs with
  | nil => rfl
  | cons c cs ih =>
    obtain ⟨hc, hcs⟩ := not_or.mp (List.mem_cons.not.mp h)
    rw [insertReturns_cons cs (Ne.symm hc), ih hcs]

/-- Positions right after a text stay as they are: a line starts anew after its line feed. -/
theorem advance_insertReturns (pos : Position) :
    pos.advance (insertReturns cs) = pos.advance cs := by
  induction cs generalizing pos with
  | nil => rfl
  | cons c cs ih =>
    by_cases hc : c = '\n'
    · rw [hc, insertReturns_feed, Position.advance_cons, Position.advance_cons, ih,
        Position.advance_cons]
      rfl
    · rw [insertReturns_cons cs hc, Position.advance_cons, ih, Position.advance_cons]

end Returns

/-! ## Tokens -/

/-- The location one column to the right. -/
def Location.right (loc : Location) : Location :=
  { loc with column := loc.column + 1 }

/-- A token where it stands when a carriage return precedes every line feed. -/
def Token.pastReturn (token : Token) : Token :=
  if token.kind = .newline then token.relocate .right else token

/-- No string has a line feed in it, be it closed or not. -/
def OnOneLine (tokens : List Token) : Prop :=
  ∀ token ∈ tokens, token.kind = .string → '\n' ∉ token.text.toList

/-- A string without a line feed is closed in its line. -/
theorem quote_mem_of_notMem_takeWhile {line more : List Char}
    (h : '\n' ∉ (line ++ '\n' :: more).takeWhile (· != '"')) : '"' ∈ line := by
  by_contra hquote
  refine h ?_
  rw [List.takeWhile_append_of_pos (forall_bne_of_notMem hquote)]
  exact List.mem_append_right line List.mem_cons_self

/-- The text of a string that was found goes to the next quote. -/
theorem eq_of_first?_quote {rest : List Char} {found : Lexeme}
    (h : Lexeme.first? '"' rest = some found) :
    found.kind = .string ∧ found.text.toList = rest.takeWhile (· != '"') := by
  change (if _ then some _ else none) = some found at h
  split at h
  · cases h
    exact ⟨rfl, String.toList_ofList⟩
  · cases h

/-- No token changes, unless it is a string that goes over a line feed. -/
theorem first?_insertReturns (c : Char) (rest : List Char)
    (h : c = '"' → '\n' ∉ rest.takeWhile (· != '"')) :
    Lexeme.first? c (insertReturns rest) = Lexeme.first? c rest := by
  by_cases hfeed : '\n' ∈ rest
  · -- what the token is depends only on the line that it stands in
    obtain ⟨line, more, rfl, hline⟩ := List.eq_append_cons_of_mem hfeed
    have hclosed : c = '"' → '"' ∈ line := fun hc => quote_mem_of_notMem_takeWhile (h hc)
    rw [insertReturns_append, insertReturns_of_notMem hline, insertReturns_feed,
      first?_append (.inr rfl) c line _ hclosed, first?_append (.inl rfl) c line _ hclosed]
  · rw [insertReturns_of_notMem hfeed]

/-- Only a newline, or a string, is written with a line feed. -/
theorem Spells.notMem_feed {kind : Kind} {text : String} {lexeme : List Char}
    (h : Spells kind text lexeme) (hkind : kind ≠ .newline)
    (hstring : kind = .string → '\n' ∉ text.toList) : '\n' ∉ lexeme := by
  have hdigits {cs : List Char} (hcs : cs.all Char.isDigit = true) : '\n' ∉ cs :=
    fun hmem => absurd (List.all_eq_true.mp hcs _ hmem) (by decide)
  cases h with
  | newline => exact absurd rfl hkind
  | string inner closed => simpa using hstring rfl
  | integer digits some_digit all_digits => exact hdigits all_digits
  | fraction digits places some_digit some_place all_digits all_places =>
    simp [hdigits all_digits, hdigits all_places]
  | word letters identifier =>
    have hletters : IsIdentifier (String.ofList lexeme) := by simpa [IsIdentifier] using identifier
    simpa using hletters.notMem (c := '\n') (by decide)
  | elseIf blanks some_blank all_blanks =>
    have hblanks : '\n' ∉ blanks := fun hmem =>
      absurd (List.all_eq_true.mp all_blanks _ hmem) (by decide)
    simp [hblanks]
  | symbol mark listed =>
    have all : symbolForms.all fun form => !form.2.contains '\n' := by decide
    simpa using List.all_eq_true.mp all _ listed

/-! ## Scans -/

/-- A scan with its newline tokens one column to the right. -/
def Scan.pastReturns (s : Scan) : Scan :=
  ⟨⟨s.stream.tokens.map Token.pastReturn, s.stream.stop⟩, s.faults⟩

theorem Scan.pastReturns_addToken (token : Token) (s : Scan) :
    (s.addToken token).pastReturns = s.pastReturns.addToken token.pastReturn :=
  rfl

theorem scanFrom_of_first? {pos : Position} {c : Char} {rest lexeme after : List Char}
    {found : Lexeme} (hgap : isGap c = false) (hfound : Lexeme.first? c rest = some found)
    (heq : c :: rest = lexeme ++ after) (hlen : lexeme.length = found.width) :
    scanFrom pos (c :: rest) = (scanFrom (pos.advance lexeme) after).addToken
      ⟨found.kind, found.text, pos.spanning found.width⟩ := by
  rw [scanFrom, if_neg (by simp [hgap]), hfound]
  simp only [heq, ← hlen, List.take_left, List.drop_left]

theorem scanFrom_return_feed (pos : Position) (cs : List Char) :
    scanFrom pos ('\r' :: '\n' :: cs) = (scanFrom (pos.next '\n') cs).addToken
      ⟨.newline, "\n", ((pos.next '\r').spanning 1)⟩ := by
  have hgap : isGap '\r' = true := rfl
  have hfound : Lexeme.first? '\n' cs = some (.verbatim .newline '\n' []) := rfl
  rw [scanFrom, if_pos hgap, scanFrom_of_first? rfl hfound List.singleton_append.symm rfl]
  rfl

/-- The newline tokens move, and nothing else does.  The induction follows the scan; what it takes
at a time has no line feed inside, or is one. -/
theorem scanFrom_insertReturns (pos : Position) (cs : List Char)
    (h : OnOneLine (scanFrom pos cs).stream.tokens) :
    scanFrom pos (insertReturns cs) = (scanFrom pos cs).pastReturns := by
  fun_induction scanFrom pos cs with
  | case1 pos =>
    rw [insertReturns, List.flatMap_nil, scanFrom]
    rfl
  | case2 pos c rest hgap ih =>
    have hc : c ≠ '\n' := by
      rintro rfl
      cases hgap
    rw [insertReturns_cons rest hc, scanFrom, if_pos hgap, ih h]
  | case3 pos c rest hgap found hfound ih =>
    obtain ⟨hown, hrest⟩ := List.forall_mem_cons.mp h
    rw [Scan.pastReturns_addToken, ← ih hrest]
    by_cases hc : c = '\n'
    · -- the newline itself: the carriage return is skipped before it
      subst hc
      cases hfound
      rw [insertReturns_feed, scanFrom_return_feed]
      rfl
    · obtain ⟨lexeme, after, heq, hlen, hlongest⟩ := isLongest_of_first? hfound
      have hspells := hlongest.1.1
      have hkind : found.kind ≠ .newline := by
        intro hnewline
        rw [hnewline] at hspells
        rw [hspells.eq_newline] at heq
        exact hc (List.cons.inj heq).1
      have hquoted : c = '"' → '\n' ∉ rest.takeWhile (· != '"') := by
        rintro rfl
        obtain ⟨hstring, htext⟩ := eq_of_first?_quote hfound
        rw [← htext]
        exact hown hstring
      have hwhole : c :: insertReturns rest = lexeme ++ insertReturns after := by
        rw [← insertReturns_cons rest hc, heq, insertReturns_append,
          insertReturns_of_notMem (hspells.notMem_feed hkind hown)]
      have hsame := first?_insertReturns c rest hquoted
      rw [insertReturns_cons rest hc, scanFrom_of_first? (by simpa using hgap)
        (hsame.trans hfound) hwhole hlen, Token.pastReturn, if_neg hkind]
      simp only [heq, ← hlen, List.take_left, List.drop_left]
  | case4 pos rest hgap hfound =>
    -- an open string goes to the end of the text, which has no line feed left
    have hfeed : '\n' ∉ rest := by
      simpa using (List.forall_mem_cons.mp h).1 rfl
    rw [insertReturns_cons rest (by decide), insertReturns_of_notMem hfeed, scanFrom, if_neg hgap,
      hfound]
    rfl
  | case5 pos c rest hgap hfound hquote ih =>
    have hc : c ≠ '\n' := by
      rintro rfl
      cases hfound
    have hsame := first?_insertReturns c rest fun hq => absurd hq hquote
    rw [insertReturns_cons rest hc, scanFrom, if_neg hgap, hsame, hfound, ih h]
    simp only [if_neg hquote]
    rfl

/-! ## Programs and faults -/

/-- A newline token stands at a location. -/
def newlineAt (tokens : List Token) (loc : Location) : Bool :=
  tokens.any fun token => token.kind = .newline ∧ token.location = loc

/-- Where something found at a location of `tokens` is found when a carriage return precedes every
line feed. -/
def Location.pastReturn (tokens : List Token) (loc : Location) : Location :=
  if newlineAt tokens loc then loc.right else loc

/-- Newlines move one column to the right, and nothing else moves. -/
def Relocation.pastReturns (tokens : List Token) : Relocation :=
  { Relocation.refl with lineEnd := .pastReturn tokens }

theorem Relocation.pastReturns_token {tokens : List Token} {token : Token} (h : token ∈ tokens) :
    (Relocation.pastReturns tokens).token token = token.pastReturn := by
  unfold Token.pastReturn
  split
  · rename_i hkind
    have hnewline : newlineAt tokens token.location = true :=
      List.any_eq_true.mpr ⟨token, h, by simp [hkind]⟩
    rw [Relocation.token, Relocation.placeOf, if_pos hkind, Token.relocate, Token.relocate]
    exact congrArg (Token.mk token.kind token.text) (if_pos hnewline)
  · rename_i hkind
    rw [Relocation.token_of_ne_newline _ hkind]
    rfl

/-- A fault at a token moves with it, if the place that a newline left is not taken. -/
theorem Relocation.eq_of_moved_pastReturns {tokens : List Token} {d d' : Diagnostic}
    (h : (Relocation.pastReturns tokens).Moved d d')
    (hfree : newlineAt tokens d'.location = false) :
    d' = d.relocate (.pastReturn tokens) := by
  obtain ⟨fault, t, rfl, rfl⟩ := h
  by_cases hkind : t.kind = .newline
  · rw [Relocation.token, Relocation.placeOf, if_pos hkind]
    rfl
  · rw [Relocation.token_of_ne_newline _ hkind] at hfree ⊢
    have hsame : Location.pastReturn tokens t.location = t.location :=
      if_neg (Bool.eq_false_iff.mp hfree)
    exact congrArg (Diagnostic.mk fault) hsame.symm

/-- Moving the newlines keeps the items, and moves the faults found at newlines. -/
theorem readItemList_pastReturns {stop : Token} (hstop : stop.kind ≠ .newline) {ts : List Token}
    (hfree : ∀ token ∈ stop :: ts.map Token.pastReturn, newlineAt ts token.location = false) :
    readItemList stop (ts.map Token.pastReturn) =
      ⟨(readItemList stop ts).items,
        (readItemList stop ts).faults.map (Diagnostic.relocate (.pastReturn ts))⟩ := by
  have hmove : (Relocation.pastReturns ts).token stop = stop :=
    (Relocation.pastReturns ts).token_of_ne_newline hstop
  have htokens : ts.map (Relocation.pastReturns ts).token = ts.map Token.pastReturn :=
    List.map_congr_left fun token htoken => Relocation.pastReturns_token htoken
  obtain ⟨faults, hfaults, hlist⟩ := readItemList_relocated (.pastReturns ts) stop ts
  rw [hmove, htokens] at hlist
  -- the faults of the second stream are at its tokens, and none of them is where a newline was
  have hknown : Known (fun token => newlineAt ts token.location = false) stop
      (ts.map Token.pastReturn) :=
    ⟨hfree stop List.mem_cons_self, fun token htoken => hfree token (List.mem_cons_of_mem _ htoken)⟩
  have hplaced : ∀ d' ∈ faults, newlineAt ts d'.location = false := by
    intro d' hd'
    obtain ⟨fault, token, htoken, rfl⟩ := readItemList_blames hknown d' (by rw [hlist]; exact hd')
    exact htoken
  have hmoved : (readItemList stop ts).faults.map (Diagnostic.relocate (.pastReturn ts)) =
      faults := by
    rw [← List.forall₂_eq_eq_eq, List.forall₂_map_left_iff]
    have hboth := (List.forall₂_and_left faults _).mpr ⟨hplaced, hfaults.flip⟩
    exact hboth.flip.imp fun d d' h => (Relocation.eq_of_moved_pastReturns h.2 h.1).symm
  rw [hmoved, hlist]
  exact congrArg (ItemList.mk · faults) (Item.map_relocate_id _)

/-! ## Sources -/

/-- No token is written with a carriage return. -/
theorem Token.IsWrittenAs.ne_return {token : Token} {lexeme : List Char}
    (h : token.IsWrittenAs lexeme) : lexeme ≠ ['\r'] := by
  rintro rfl
  rcases h with hspells | ⟨-, inner, hinner⟩
  · rcases hspells.cases_head with ⟨h, -⟩ | ⟨h, -⟩ | ⟨h, -⟩ | ⟨h, -⟩ | ⟨-, h, -⟩ | h
    iterate 5 exact absurd h (by decide)
    have all : symbolForms.all fun form => form.2 != ['\r'] := by decide
    simpa using List.all_eq_true.mp all _ h
  · cases hinner

/-- Where a newline was, a carriage return stands. -/
theorem charsAt_withReturns {source : String} {token : Token}
    (htoken : token ∈ (scan source).stream.tokens) (hkind : token.kind = .newline) :
    charsAt (insertReturns source.toList) token.location = ['\r'] := by
  obtain ⟨before, lexeme, after, hsource, hwritten, hlocation⟩ := exists_of_mem_scan htoken
  obtain rfl := (hwritten.spells hkind nofun).eq_newline
  have hspan : spanAfter before 1 = spanAfter (insertReturns before) 1 := by
    rw [← spanning_advance, ← spanning_advance, advance_insertReturns]
  rw [hsource, hlocation, insertReturns_append, List.length_singleton, hspan]
  exact charsAt_spanAfter (insertReturns before) ['\r'] _

/-- No token takes the place that a newline left, and neither does the end marker. -/
theorem newlineAt_withReturns (source : String) {token : Token}
    (htoken : token ∈ (scan (withReturns source)).stream.stop ::
      (scan (withReturns source)).stream.tokens) :
    newlineAt (scan source).stream.tokens token.location = false := by
  rw [newlineAt, List.any_eq_false]
  intro newline hnewline hboth
  obtain ⟨hkind, hlocation⟩ := of_decide_eq_true hboth
  have hchars := charsAt_withReturns hnewline hkind
  rw [hlocation] at hchars
  rcases List.mem_cons.mp htoken with rfl | htoken
  · -- the end marker spans no character
    rw [scan_stop] at hchars
    cases hchars
  · obtain ⟨earlier, lexeme, after, hsource, hwritten, hspan⟩ := exists_of_mem_scan htoken
    rw [toList_withReturns] at hsource
    rw [hsource, hspan, charsAt_spanAfter] at hchars
    exact hwritten.ne_return hchars

theorem scan_withReturns (source : String) (h : OnOneLine (scan source).stream.tokens) :
    scan (withReturns source) = (scan source).pastReturns := by
  rw [scan, toList_withReturns]
  exact scanFrom_insertReturns _ _ h

/-- The default compiler fails only if there are faults and nothing could be read. -/
theorem Compiler.map_output_compile (source : String) :
    (Compiler.compile {} source).toOption.map Compilation.output =
      if !(parseSource source).isClean && (parseSource source).program.items.isEmpty then none
      else some (parseSource source).program.output := by
  simp only [compile, exceeds, Option.filter_none, Bool.false_or]
  split <;> rfl

/-- **Line endings do not matter**, where no string goes over a line feed.  With a carriage return
in front of every line feed a source has the same program with the same locations, the same lexical
faults and the same syntax faults, but for those at a newline token, which are one column further to
the right; and it compiles to the same output, or fails as before. -/
theorem parseSource_withReturns (source : String) (h : OnOneLine (scan source).stream.tokens) :
    (parseSource (withReturns source)).program = (parseSource source).program ∧
      (parseSource (withReturns source)).lexicalFaults = (parseSource source).lexicalFaults ∧
      (parseSource (withReturns source)).syntaxFaults =
        (parseSource source).syntaxFaults.map
          (Diagnostic.relocate (.pastReturn (scan source).stream.tokens)) ∧
      (Compiler.compile {} (withReturns source)).toOption.map Compilation.output =
        (Compiler.compile {} source).toOption.map Compilation.output := by
  have hscan := scan_withReturns source h
  have hfree : ∀ token ∈ (scan source).stream.stop ::
      (scan source).stream.tokens.map Token.pastReturn,
      newlineAt (scan source).stream.tokens token.location = false := by
    intro token htoken
    refine newlineAt_withReturns source ?_
    rw [hscan]
    exact htoken
  have hstop : (scan source).stream.stop.kind ≠ .newline := by
    rw [scan_stop]
    exact nofun
  have hread := readItemList_pastReturns hstop hfree
  have hparsed : parseSource (withReturns source) =
      ⟨(parseSource source).program, (parseSource source).lexicalFaults,
        (parseSource source).syntaxFaults.map
          (Diagnostic.relocate (.pastReturn (scan source).stream.tokens))⟩ := by
    unfold parseSource readProgram
    rw [hscan]
    dsimp only [Scan.pastReturns]
    rw [hread]
  refine ⟨by rw [hparsed], by rw [hparsed], by rw [hparsed], ?_⟩
  have hclean : (parseSource (withReturns source)).isClean = (parseSource source).isClean := by
    rw [hparsed, Bool.eq_iff_iff]
    simp [ParsedSource.isClean, ParsedSource.faults]
  rw [Compiler.map_output_compile, Compiler.map_output_compile, hclean, hparsed]

/-- A fault at the end of the second line moves; the item after it is read as before. -/
theorem parseSource_broken_line :
    OnOneLine (scan "component A \x7b\nstate x =\n\x7d\nfunction f() \x7b\n\x7d").stream.tokens ∧
      (parseSource "component A \x7b\nstate x =\n\x7d\nfunction f() \x7b\n\x7d").syntaxFaults.map
          Diagnostic.location = [⟨⟨2, 10⟩, 1⟩] ∧
      (parseSource (withReturns
        "component A \x7b\nstate x =\n\x7d\nfunction f() \x7b\n\x7d")).syntaxFaults.map
          Diagnostic.location = [⟨⟨2, 11⟩, 1⟩] := by
  have hline : OnOneLine
      (scan "component A \x7b\nstate x =\n\x7d\nfunction f() \x7b\n\x7d").stream.tokens := by
    unfold OnOneLine
    decide +kernel
  refine ⟨hline, by decide +kernel, ?_⟩
  rw [(parseSource_withReturns _ hline).2.2.1]
  decide +kernel

end UiLang
