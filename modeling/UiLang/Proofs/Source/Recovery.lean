import UiLang.Proofs.Source.Concatenation

/-!
# Recovery after broken text

However broken a text is, as long as it does not end inside a string, well-formed items in the
lines after it are read as if they stood alone.  Every fault of the broken text takes at least one
of its lines.

## Main definitions

* `lineCount`: the number of lines of a text or of a token sequence

## Main results

* `length_faults_le_lineCount`: faults of a token sequence, against its lines
* `lineCount_scanFrom_le`: lines of tokens, against lines of text
* `guard_of_clean`: a clean source with nested brackets is guarded
* `parseSource_append_of_nested`: the well-formed part after broken text
-/

namespace UiLang

/-! ## Counting lines -/

/-- The number of lines.  Every separator ends one, and what stands after the last separator is
one more if there is anything. -/
def lineCount {α : Type} (ends : α → Bool) : List α → Nat
  | [] => 0
  | a :: as => if ends a then lineCount ends as + 1 else max 1 (lineCount ends as)

section Lines

variable {α : Type} (ends : α → Bool)

theorem lineCount_cons_of_ends {a : α} (h : ends a = true) (as : List α) :
    lineCount ends (a :: as) = lineCount ends as + 1 := by
  rw [lineCount, if_pos h]

theorem lineCount_le_cons (a : α) (as : List α) : lineCount ends as ≤ lineCount ends (a :: as) := by
  rw [lineCount]
  split <;> omega

theorem lineCount_cons_pos (a : α) (as : List α) : 1 ≤ lineCount ends (a :: as) := by
  rw [lineCount]
  split <;> omega

theorem lineCount_le_of_suffix {as bs : List α} (h : as <:+ bs) :
    lineCount ends as ≤ lineCount ends bs := by
  induction bs with
  | nil =>
    rw [List.suffix_nil.mp h]
  | cons b bs ih =>
    rcases List.suffix_cons_iff.mp h with rfl | h
    · exact le_refl _
    · exact (ih h).trans (lineCount_le_cons ends b bs)

end Lines

/-- A token that ends a line. -/
def Token.isNewline (token : Token) : Bool :=
  token.kind == .newline

/-- Skipping an item takes at least one line. -/
theorem lineCount_skipItem_lt (stop : Token) (depth : Int) (t : Token) (ts : List Token) :
    lineCount Token.isNewline (skipItem stop depth (t :: ts)) <
      lineCount Token.isNewline (t :: ts) := by
  induction ts generalizing depth t with
  | nil =>
    have hpos := lineCount_cons_pos Token.isNewline t []
    have hsuffix := lineCount_le_of_suffix Token.isNewline (skipItem_suffix stop depth t [])
    exact Nat.lt_of_le_of_lt hsuffix hpos
  | cons next ts ih =>
    have hle := lineCount_le_cons Token.isNewline t (next :: ts)
    rw [skipItem]
    split
    · exact (ih _ next).trans_le hle
    · exact (ih _ next).trans_le hle
    · -- skipping ends after a newline, which was the end of a line, or goes on past it
      rename_i hkind
      have hnewline : Token.isNewline t = true := by
        rw [Token.isNewline, hkind]
        rfl
      split
      · rw [lineCount_cons_of_ends _ hnewline]
        exact Nat.lt_succ_self _
      · exact (ih _ next).trans_le hle
    · exact (ih _ next).trans_le hle

/-- Every fault takes a line.  The induction is on the number of tokens left: an item that is read
takes tokens away, and one that is not takes a line. -/
theorem length_faults_le_lineCount (stop : Token) (ts : List Token) :
    (readItemList stop ts).faults.length ≤ lineCount Token.isNewline ts := by
  have hskip := lineCount_le_of_suffix Token.isNewline (skipNewlines_suffix ts)
  rcases hts : skipNewlines ts with _ | ⟨first, us⟩
  · rw [readItemList_of_nil stop hts]
    exact Nat.zero_le _
  · rw [hts] at hskip
    cases hread : readItem stop first us with
    | ok item =>
      rw [readItemList_of_ok stop hts hread]
      have hrest := length_faults_le_lineCount stop item.rest
      have hitem := lineCount_le_of_suffix Token.isNewline item.suffix
      have hcons := lineCount_le_cons Token.isNewline first us
      dsimp only
      omega
    | error fault =>
      rw [readItemList_of_error stop hts hread]
      have hrest := length_faults_le_lineCount stop (skipItem stop 0 (first :: us))
      have hlt := lineCount_skipItem_lt stop 0 first us
      rw [List.length_cons]
      omega
termination_by ts.length
decreasing_by
  · exact Nat.lt_of_le_of_lt (skipItem_suffix stop 0 first us).length_le
      (length_lt_of_skipNewlines hts)
  · exact Nat.lt_of_le_of_lt item.length_le (length_lt_of_skipNewlines hts)

theorem Spells.eq_newline {text : String} {lexeme : List Char}
    (h : Spells .newline text lexeme) : lexeme = ['\n'] := by
  generalize hkind : Kind.newline = kind at h
  cases h with
  | newline => rfl
  | word letters identifier =>
    unfold wordKind at hkind
    split at hkind <;> cases hkind
  | symbol mark listed =>
    have all : ∀ form ∈ symbolForms, form.1 ≠ .newline := by decide
    exact absurd hkind.symm (all _ listed)
  | _ => cases hkind

/-- A text has at least as many lines as its tokens: a line feed inside a string ends no line of
tokens. -/
theorem lineCount_scanFrom_le (pos : Position) (cs : List Char) :
    lineCount Token.isNewline (scanFrom pos cs).stream.tokens ≤ lineCount (· == '\n') cs := by
  fun_induction scanFrom pos cs with
  | case1 pos => exact Nat.zero_le _
  | case2 pos c rest hgap ih => exact ih.trans (lineCount_le_cons _ c rest)
  | case3 pos c rest hgap found hfound ih =>
    have hdrop := lineCount_le_of_suffix (· == '\n') (List.drop_suffix found.width (c :: rest))
    have hpos := lineCount_cons_pos (· == '\n') c rest
    obtain ⟨lexeme, after, heq, hlen, hlongest⟩ := isLongest_of_first? hfound
    -- only a newline token ends a line of tokens, and it is a line feed of the text; any other
    -- token may stretch over line feeds, which then count for the text alone
    rw [Scan.addToken, lineCount]
    split
    · rename_i hnewline
      have hkind : found.kind = .newline := by simpa [Token.isNewline] using hnewline
      obtain rfl : lexeme = ['\n'] := (hkind ▸ hlongest.1.1).eq_newline
      rw [heq, ← hlen, List.drop_left] at ih ⊢
      exact Nat.succ_le_succ ih
    · exact max_le hpos (ih.trans hdrop)
  | case4 pos rest hgap hfound => exact lineCount_cons_pos _ _ rest
  | case5 pos c rest hgap hfound hquote ih => exact ih.trans (lineCount_le_cons _ c rest)

/-! ## Guarded sources -/

/-- An import that goes on with neither a brace nor a name has no names, and the word `from` should
stand there. -/
theorem readImport_of_ne (stop keyword next : Token) (ts : List Token)
    (hbrace : next.kind ≠ .opening .brace) (hname : next.kind ≠ .identifier)
    (hfrom : next.kind ≠ .keyword .fromWord) :
    readImport stop keyword (next :: ts) = expected (.keyword .fromWord) next := by
  have hnames : readSpecifiers (Reading.nothing false (next :: ts)).rest =
      .nothing [] (next :: ts) := by
    change readSpecifiers (next :: ts) = _
    rw [Seam.readSpecifiers_cons, if_neg hname]
  unfold readImport
  dsimp only
  rw [eat_of_ne ts hbrace, hnames]
  change (expect stop (.keyword .fromWord) (next :: ts) >>= _) = _
  rw [expect, if_neg hfrom]
  rfl

/-- No item goes on with a colon or a minus sign after its first word. -/
theorem readItem_error_of_next (stop first next : Token) (ts : List Token)
    (h : next.kind = .colon ∨ next.kind = .minus) :
    ∃ d, readItem stop first (next :: ts) = .error d := by
  have hne (kind : Kind) (hcolon : kind ≠ .colon) (hminus : kind ≠ .minus) : next.kind ≠ kind := by
    rcases h with h | h
    · exact h ▸ hcolon.symm
    · exact h ▸ hminus.symm
  have hexpect (kind : Kind) (hcolon : kind ≠ .colon) (hminus : kind ≠ .minus) :
      expect stop kind (next :: ts) = expected kind next := by
    rw [expect, if_neg (hne kind hcolon hminus)]
  unfold readItem
  split
  · -- an import goes on with a brace, a name or the word `from`
    rw [readImport_of_ne stop first next ts (hne _ (by simp) (by simp)) (hne _ (by simp) (by simp))
      (hne _ (by simp) (by simp))]
    exact ⟨_, rfl⟩
  · rw [readExported, readDeclaration]
    rcases h with h | h
    · rw [h]
      exact ⟨_, rfl⟩
    · rw [h]
      exact ⟨_, rfl⟩
  · rename_i hkind
    rw [readDeclaration, hkind]
    dsimp only
    rw [readComponent, hexpect _ (by simp) (by simp)]
    exact ⟨_, rfl⟩
  · rename_i hkind
    rw [readDeclaration, hkind]
    dsimp only
    rw [readFunction, hexpect _ (by simp) (by simp)]
    exact ⟨_, rfl⟩
  · rename_i hkind
    rw [readDeclaration, hkind]
    dsimp only
    rw [hexpect _ (by simp) (by simp)]
    exact ⟨_, rfl⟩
  · exact ⟨_, rfl⟩

/-- A source that is read without faults, starts with an item and has nested brackets is
guarded. -/
theorem guard_of_clean {source : String} (hclean : (parseSource source).syntaxFaults = [])
    (hstarts : (scan source).stream.tokens.head?.any (startsItem ·.kind) = true)
    (hnested : nestedAfter [] (scan source).stream.tokens = true) :
    Guard (scan source).stream.tokens := by
  obtain ⟨first, rest, htokens, hstarts⟩ : ∃ first rest,
      (scan source).stream.tokens = first :: rest ∧ startsItem first.kind = true := by
    cases htokens : (scan source).stream.tokens with
    | nil => simp [htokens] at hstarts
    | cons first rest => exact ⟨first, rest, rfl, by simpa [htokens] using hstarts⟩
  refine ⟨⟨first, rest, htokens, hstarts, ?_⟩, hnested⟩
  intro next hnext
  obtain ⟨more, rfl⟩ : ∃ more, rest = next :: more := List.head?_eq_some_iff.mp hnext
  -- otherwise the first item can not be read, and its fault is one of the source
  by_contra hkind
  obtain ⟨d, hd⟩ := readItem_error_of_next (scan source).stream.stop first next more
    (by tauto)
  have hskip : skipNewlines (scan source).stream.tokens = first :: next :: more := by
    rw [htokens, skipNewlines_cons, if_neg (ne_of_startsItem hstarts rfl)]
  have hfaults := readItemList_of_error (scan source).stream.stop hskip hd
  change (readItemList (scan source).stream.stop (scan source).stream.tokens).faults = [] at hclean
  rw [hfaults] at hclean
  cases hclean

/-! ## The boundary -/

/-- **Broken text does not reach a well-formed part after it.**  Whatever the first source is, as
long as no string of it is left open, a clean source after it that starts with an item and has
nested brackets keeps all its items, below the lines of the first; it adds no fault, and the first
source has no more faults than lines. -/
theorem parseSource_append_of_nested (broken sound : String)
    (hclosed : ∀ d ∈ (parseSource broken).lexicalFaults, d.fault ≠ .unterminatedString)
    (hclean : (parseSource sound).isClean = true)
    (hstarts : (scan sound).stream.tokens.head?.any (startsItem ·.kind) = true)
    (hnested : nestedAfter [] (scan sound).stream.tokens = true) :
    (parseSource (broken ++ "\n" ++ sound)).program.items =
        (parseSource broken).program.items ++
          (parseSource sound).program.items.map (Item.relocate (Source.below broken)) ∧
      (parseSource (broken ++ "\n" ++ sound)).lexicalFaults = (parseSource broken).lexicalFaults ∧
      (parseSource (broken ++ "\n" ++ sound)).syntaxFaults.length ≤
        lineCount (· == '\n') broken.toList := by
  obtain ⟨hlexical, hread⟩ : (parseSource sound).lexicalFaults = [] ∧
      (parseSource sound).syntaxFaults = [] := by
    simpa [ParsedSource.isClean, ParsedSource.faults] using hclean
  have hguard : Guard (scan sound).stream.tokens := guard_of_clean hread hstarts hnested
  obtain ⟨faults, hlength, hwhole⟩ := parseSource_append broken sound hclosed (.inl hguard)
  have hlines : (parseSource broken).syntaxFaults.length ≤ lineCount (· == '\n') broken.toList :=
    (length_faults_le_lineCount _ _).trans (lineCount_scanFrom_le Position.start broken.toList)
  rw [hwhole, hlexical, hread, List.map_nil, List.append_nil, List.append_nil]
  exact ⟨rfl, rfl, hlength.trans_le hlines⟩

/-- A component that breaks off inside an object inside an array, and a whole component after
it. -/
theorem parseSource_append_broken_state :
    (parseSource "component A \x7b\n  state x = [\x7b a: 1,\n").syntaxFaults ≠ [] ∧
      (parseSource ("component A \x7b\n  state x = [\x7b a: 1,\n" ++ "\n" ++
        "component B \x7b\n  Text \"b\"\n\x7d")).program.items.length = 1 ∧
      (parseSource ("component A \x7b\n  state x = [\x7b a: 1,\n" ++ "\n" ++
        "component B \x7b\n  Text \"b\"\n\x7d")).syntaxFaults.length ≤ 2 := by
  obtain ⟨hitems, -, hfaults⟩ := parseSource_append_of_nested
    "component A \x7b\n  state x = [\x7b a: 1,\n" "component B \x7b\n  Text \"b\"\n\x7d"
    (by decide +kernel) (by decide +kernel) (by decide +kernel) (by decide +kernel)
  refine ⟨by decide +kernel, ?_, hfaults.trans (by decide +kernel)⟩
  rw [hitems]
  decide +kernel

end UiLang
