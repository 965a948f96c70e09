import UiLang.Proofs.Condition.Display
import UiLang.Proofs.Source.Attributes
import UiLang.Proofs.Syntax.Counting
import UiLang.Proofs.Ui.Header

/-!
# Calls are read back

The arguments of a call are kept as raw text.  A call is written as its name and, in parentheses,
its arguments with a comma and a blank between two of them.  This text is read back as the same
call: the tokens of an argument touch only where they touched in the source, the commas between the
arguments are the only ones outside brackets, and the parentheses inside are matched as they were.

Reading an argument back may bring an `else` and an `if` together, which are keywords and no
brackets.  Everything else keeps its words.

## Main definitions

* `ArgumentGlyphs`, `listGlyphs`, `callGlyphs`: arguments and calls as they are written
* `AttributeValue.IsReadFrom`: a text is read as a value

## Main results

* `Joinable.of_append_left`, `Joinable.of_append_right`: a run of joinable tokens is joinable
* `Joinable.exists_argumentGlyphs`: arguments that were read can be written
* `ArgumentGlyphs.arguments_placed`: written arguments are split into the same texts
* `parseSource_call_isReadFrom`: calls of a source are read back
-/

namespace UiLang

/-! ## Runs of joinable tokens -/

/-- The first character after a token is found from the next token. -/
theorem head?_glyphsAfter (t : Token) {u : Token} (hu : u.word.IsWritten) (us vs : List Token) :
    (inked (glyphsAfter t (u :: us))).head? = (inked (glyphsAfter t (u :: vs))).head? := by
  obtain ⟨c, -, more, -, hchars, -⟩ := Spells.head_chars hu
  have hword : u.word.chars = c :: more := hchars
  rw [glyphsAfter, glyphsAfter]
  cases RawText.separated t u with
  | true => rfl
  | false => simp [hword]

namespace Joinable

theorem of_append_right {ts us : List Token} (h : Joinable (ts ++ us)) : Joinable us := by
  induction ts with
  | nil => exact h
  | cons t ts ih => exact ih h.tail

/-- Where a token ends does not depend on the tokens after the next one. -/
theorem of_append_left {ts us : List Token} (h : Joinable (ts ++ us)) : Joinable ts := by
  induction ts with
  | nil => exact .nil
  | cons t ts ih =>
    cases h with
    | cons _ _ kind written touching rest =>
      refine .cons t ts kind written ?_ (ih rest)
      rintro u vs rfl hsep
      obtain ⟨hfeed, hends⟩ := touching u (vs ++ us) rfl hsep
      refine ⟨hfeed, ?_⟩
      obtain ⟨c, tail, more, -, hchars, hblank, hpoint⟩ := Spells.head_chars rest.isWritten
      have hword : u.word.chars = c :: more := hchars
      change t.word.EndsBefore (u.word.chars ++ inked (glyphsAfter u (vs ++ us))) at hends
      rw [hword, List.cons_append] at hends
      rw [glyphsOf, inked_word, hword, List.cons_append]
      refine hends.of_head hblank fun hc hlacks => ?_
      obtain ⟨-, rfl⟩ := hpoint hc
      rw [List.nil_append] at hlacks ⊢
      cases vs with
      | nil => exact lacks_nil _
      | cons v vs =>
        unfold Lacks at hlacks ⊢
        rwa [head?_glyphsAfter u rest.tail.isWritten vs (vs ++ us)]

theorem kept_eq {ts : List Token} (h : Joinable ts) : kept ts = ts := by
  induction h with
  | nil => rfl
  | cons t ts kind written touching rest ih =>
    rw [kept, List.filter_cons_of_pos (by simp [kind])]
    exact congrArg (t :: ·) ih

end Joinable

/-! ## Spaced words in front of a mark -/

namespace Spaced

theorem isWritten {w : Word} {glyphs : List Glyph} (h : Spaced (.word w :: glyphs)) :
    w.IsWritten :=
  h.fitsBefore.1

/-- A blank that parts an `else` from the next word has no `if` after it. -/
theorem ne_ifWord {v : Word} {glyphs : List Glyph} (h : Spaced (.word v :: glyphs))
    (htail : elseIfTail? (' ' :: inked (.word v :: glyphs)) = none) :
    v.kind ≠ .keyword .ifWord := by
  intro hkind
  obtain rfl := h.isWritten.eq_if hkind
  have hlacks := h.fitsBefore.2.1.letters rfl
  rw [List.append_nil] at hlacks
  rw [Option.eq_none_iff_forall_ne_some] at htail
  exact htail _ (elseIfTail?_eq_some_iff.mpr
    ⟨[' '], inked glyphs, rfl, List.forall_mem_singleton.mpr rfl, hlacks, rfl⟩)

/-- **Spaced words may stand in front of whatever breaks off their last one.** -/
theorem fitsBefore_of_breaks {glyphs : List Glyph} (h : Spaced glyphs) {after : List Char}
    (hafter : Breaks after) : FitsBefore after glyphs := by
  induction h with
  | nil => trivial
  | last w kind written => exact ⟨written, hafter w, trivial⟩
  | touching w v glyphs kind written feed ends rest ih =>
    refine ⟨written, ?_, ih⟩
    obtain ⟨c, tail, more, -, hchars, hblank, hpoint⟩ := Spells.head_chars rest.isWritten
    have hword : v.chars = c :: more := hchars
    rw [inked_word, hword, List.cons_append] at ends ⊢
    refine ends.of_head hblank fun hc hlacks => ?_
    -- after a point, a digit may come from `after` only if nothing stands between
    obtain ⟨-, rfl⟩ := hpoint hc
    rw [List.nil_append] at hlacks ⊢
    cases hinked : inked glyphs with
    | nil => exact (hafter ⟨.number, ""⟩).digits rfl
    | cons d ds =>
      rw [hinked, lacks_cons] at hlacks
      exact lacks_cons.mpr hlacks
  | apart w v glyphs kind written ends rest ih =>
    refine ⟨written, ?_, ih⟩
    rw [inked_blank, inked_word, List.cons_append, List.append_assoc]
    by_cases hw : w.kind = .keyword .elseWord
    · exact breaks_blank rest.isWritten (rest.ne_ifWord (ends.blanks hw)) ih.2.1.letters w
    · exact Word.endsBefore_blank hw _

end Spaced

/-! ## Kinds that decide how arguments are cut -/

section Kinds

/-- The kinds of the words among some glyphs. -/
def kindsOf (glyphs : List Glyph) : List Kind :=
  (wordsOf glyphs).map (·.kind)

theorem kindsOf_append (first second : List Glyph) :
    kindsOf (first ++ second) = kindsOf first ++ kindsOf second := by
  rw [kindsOf, wordsOf_append, List.map_append]
  rfl

theorem map_kind_placed (pos : Position) (glyphs : List Glyph) :
    (placed pos glyphs).map (·.kind) = kindsOf glyphs := by
  rw [kindsOf, ← map_word_placed pos, List.map_map]
  rfl

/-- Brackets and commas. -/
def Kind.cutsArguments (kind : Kind) : Bool :=
  kind.isBracket || kind == .comma

/-- Parentheses and line ends. -/
def Kind.cutsCalls (kind : Kind) : Bool :=
  kind == .newline || kind == .opening .round || kind == .closing .round

/-- Bringing `else` and `if` together changes keywords only. -/
theorem filter_fuseElseIf {keep : Kind → Bool} (h : ∀ word, keep (.keyword word) = false)
    (words : List Word) :
    ((fuseElseIf words).map (·.kind)).filter keep = (words.map (·.kind)).filter keep := by
  fun_induction fuseElseIf words with
  | case1 text text' words ih => simp [h, ih]
  | case2 w words hnot ih => simp only [List.map_cons, List.filter_cons, ih]
  | case3 => rfl

theorem brackets_through_filter (depth : Nat) (kinds : List Kind) :
    Counting.brackets.through depth (kinds.filter Kind.cutsArguments) =
      Counting.brackets.through depth kinds := by
  refine Counting.through_filter (fun kind hkind depth => ?_) depth kinds
  cases kind with
  | opening bracket => cases hkind
  | closing bracket => cases hkind
  | comma => cases hkind
  | _ => exact ⟨rfl, rfl⟩

theorem parentheses_through_filter (depth : Nat) (kinds : List Kind) :
    Counting.parentheses.through depth (kinds.filter Kind.cutsCalls) =
      Counting.parentheses.through depth kinds := by
  refine Counting.through_filter (fun kind hkind depth => ?_) depth kinds
  simp only [Kind.cutsCalls, Bool.or_eq_false_iff, beq_eq_false_iff_ne] at hkind
  obtain ⟨⟨hnewline, hopening⟩, hclosing⟩ := hkind
  simp [Counting.parentheses, depthPast, hnewline, hopening, hclosing]

end Kinds

/-! ## Arguments as they are written -/

/-- Arguments as they are written: spaced words, some for each argument.  No argument has a comma
outside brackets, and all but the last one close their brackets. -/
inductive ArgumentGlyphs : List (List Glyph) → Prop
  | nil : ArgumentGlyphs []
  | last (glyphs : List Glyph) {depth : Nat} (spaced : Spaced glyphs) (nonempty : glyphs ≠ [])
      (through : Counting.brackets.through 0 (kindsOf glyphs) = some depth) :
      ArgumentGlyphs [glyphs]
  | cons (glyphs : List Glyph) {arguments : List (List Glyph)} (spaced : Spaced glyphs)
      (nonempty : glyphs ≠ []) (through : Counting.brackets.through 0 (kindsOf glyphs) = some 0)
      (rest : ArgumentGlyphs arguments) : ArgumentGlyphs (glyphs :: arguments)

/-- Arguments with a comma and a blank between two of them. -/
def listGlyphs : List (List Glyph) → List Glyph
  | [] => []
  | [glyphs] => glyphs
  | glyphs :: next :: arguments =>
    glyphs ++ .word ⟨.comma, ","⟩ :: .blank :: listGlyphs (next :: arguments)

/-- The texts of arguments. -/
def argumentTexts (arguments : List (List Glyph)) : List String :=
  arguments.map fun glyphs => String.ofList (inked glyphs)

theorem ofList_inked_listGlyphs (arguments : List (List Glyph)) :
    String.ofList (inked (listGlyphs arguments)) =
      String.intercalate ", " (argumentTexts arguments) := by
  match arguments with
  | [] => rfl
  | [glyphs] =>
    rw [argumentTexts, List.map_singleton, String.intercalate_singleton]
    rfl
  | glyphs :: next :: arguments =>
    have hcomma : inked (.word ⟨.comma, ","⟩ :: .blank :: listGlyphs (next :: arguments)) =
        ", ".toList ++ inked (listGlyphs (next :: arguments)) := rfl
    rw [listGlyphs, inked_append, String.ofList_append, hcomma, String.ofList_append,
      String.ofList_toList, ofList_inked_listGlyphs (next :: arguments), ← String.append_assoc]
    exact String.intercalate_cons_cons.symm

namespace ArgumentGlyphs

/-- **Written arguments are scanned back.** -/
theorem fitsBefore {arguments : List (List Glyph)} (h : ArgumentGlyphs arguments)
    {after : List Char} (hafter : Breaks after) : FitsBefore after (listGlyphs arguments) := by
  induction h with
  | nil => trivial
  | last glyphs spaced nonempty through => exact spaced.fitsBefore_of_breaks hafter
  | @cons glyphs arguments spaced nonempty through rest ih =>
    cases arguments with
    | nil => exact spaced.fitsBefore_of_breaks hafter
    | cons next arguments =>
      exact fitsBefore_append.mpr
        ⟨spaced.fitsBefore_of_breaks breaks_comma, fitsBefore_mark [','] (by decide) rfl ih⟩

/-- The tokens of one argument alone. -/
theorem placed_of_spaced {glyphs : List Glyph} (hspaced : Spaced glyphs) (hnonempty : glyphs ≠ [])
    (pos : Position) : placed pos glyphs ≠ [] := by
  cases hspaced with
  | nil => exact absurd rfl hnonempty
  | _ => simp [placed]

theorem arguments_placed_last {glyphs : List Glyph} (hspaced : Spaced glyphs)
    (hnonempty : glyphs ≠ []) {depth : Nat}
    (h : Counting.brackets.through 0 (kindsOf glyphs) = some depth) (pos : Position) :
    RawText.arguments (placed pos glyphs) = [String.ofList (inked glyphs)] := by
  rw [← map_kind_placed pos] at h
  rw [arguments_of_through (placed_of_spaced hspaced hnonempty pos) h, hspaced.join_placed]

/-- **Written arguments are split into their texts**, wherever they stand. -/
theorem arguments_placed {arguments : List (List Glyph)} (h : ArgumentGlyphs arguments)
    (pos : Position) :
    RawText.arguments (placed pos (listGlyphs arguments)) = argumentTexts arguments := by
  induction h generalizing pos with
  | nil => rfl
  | last glyphs spaced nonempty through =>
    exact arguments_placed_last spaced nonempty through pos
  | @cons glyphs arguments spaced nonempty through rest ih =>
    cases arguments with
    | nil => exact arguments_placed_last spaced nonempty through pos
    | cons next arguments =>
      rw [← map_kind_placed pos] at through
      rw [listGlyphs, placed_append, placed,
        arguments_comma (placed_of_spaced spaced nonempty pos) through rfl, spaced.join_placed,
        placed, ih]
      rfl

end ArgumentGlyphs

/-! ## Arguments that were read can be written -/

/-- The tokens of an argument have spaced words with the same text, which are cut in the same
way. -/
theorem Joinable.exists_argument {part : List Token} (h : Joinable part) :
    ∃ glyphs, Spaced glyphs ∧ (part ≠ [] → glyphs ≠ []) ∧
      String.ofList (inked glyphs) = RawText.join part ∧
      (∀ depth, Counting.brackets.through depth (kindsOf glyphs) =
        Counting.brackets.through depth (part.map (·.kind))) ∧
      (kindsOf glyphs).filter Kind.cutsCalls = (part.map (·.kind)).filter Kind.cutsCalls := by
  obtain ⟨glyphs, hspaced, hinked, hwords, hhead⟩ := h.exists_spaced
  have hkinds : part.map (·.kind) = (part.map Token.word).map (·.kind) := by
    rw [List.map_map]
    rfl
  refine ⟨glyphs, hspaced, ?_, ?_, ?_, ?_⟩
  · intro hpart
    obtain ⟨t, us, rfl⟩ := List.exists_cons_of_ne_nil hpart
    obtain ⟨v, more, rfl, -⟩ := hhead t us rfl
    exact List.cons_ne_nil _ _
  · rw [← String.toList_inj, toList_join, h.kept_eq, hinked, String.toList_ofList]
  · intro depth
    rw [← brackets_through_filter depth (kindsOf glyphs),
      ← brackets_through_filter depth (part.map _), kindsOf, hwords, hkinds,
      filter_fuseElseIf fun _ => rfl]
  · rw [kindsOf, hwords, hkinds, filter_fuseElseIf fun _ => rfl]

/-- Commas between arguments leave the parentheses as they are. -/
theorem filter_kindsOf_listGlyphs (glyphs : List Glyph) (arguments : List (List Glyph)) :
    (kindsOf (listGlyphs (glyphs :: arguments))).filter Kind.cutsCalls =
      (kindsOf glyphs).filter Kind.cutsCalls ++
        (kindsOf (listGlyphs arguments)).filter Kind.cutsCalls := by
  cases arguments with
  | nil => exact (List.append_nil _).symm
  | cons next arguments =>
    rw [listGlyphs, kindsOf_append, List.filter_append]
    rfl

/-- **Arguments that were read can be written**: with the same texts, and with the parentheses that
the tokens had. -/
theorem Joinable.exists_argumentGlyphs {tokens : List Token} (h : Joinable tokens) :
    ∃ arguments, ArgumentGlyphs arguments ∧
      argumentTexts arguments = RawText.arguments tokens ∧
      (kindsOf (listGlyphs arguments)).filter Kind.cutsCalls =
        (tokens.map (·.kind)).filter Kind.cutsCalls := by
  have hparts := argumentParts_splitArguments tokens
  unfold RawText.arguments
  generalize RawText.splitArguments 0 tokens = parts at hparts ⊢
  induction hparts with
  | last part through =>
    -- an empty part is no argument, and is not written
    by_cases hpart : part = []
    · subst hpart
      exact ⟨[], .nil, rfl, rfl⟩
    · obtain ⟨glyphs, hspaced, hne, htext, hbrackets, hcalls⟩ := h.exists_argument
      refine ⟨[glyphs], .last glyphs hspaced (hne hpart) ((hbrackets 0).trans through), ?_, hcalls⟩
      rw [List.filter_cons_of_pos (by simp [hpart])]
      exact congrArg (fun text => [text]) htext
  | @cons part comma tokens parts through kind rest ih =>
    obtain ⟨arguments, harguments, htexts, hcalls⟩ := ih h.of_append_right.tail
    have hcomma : ((part ++ comma :: tokens).map (·.kind)).filter Kind.cutsCalls =
        (part.map (·.kind)).filter Kind.cutsCalls ++
          (tokens.map (·.kind)).filter Kind.cutsCalls := by
      simp [Kind.cutsCalls, kind]
    by_cases hpart : part = []
    · subst hpart
      exact ⟨arguments, harguments, htexts, hcalls.trans hcomma.symm⟩
    · obtain ⟨glyphs, hspaced, hne, htext, hbrackets, hpartCalls⟩ :=
        h.of_append_left.exists_argument
      refine ⟨glyphs :: arguments,
        .cons glyphs hspaced (hne hpart) ((hbrackets 0).trans through) harguments, ?_, ?_⟩
      · rw [List.filter_cons_of_pos (by simp [hpart]), List.map_cons, ← htexts, ← htext]
        rfl
      · rw [filter_kindsOf_listGlyphs, hpartCalls, hcalls, hcomma]

/-! ## Calls -/

/-- A call as it is written. -/
def callGlyphs (name : Path) (arguments : List (List Glyph)) : List Glyph :=
  name.glyphs ++ parenthesized (listGlyphs arguments)

theorem ofList_inked_callGlyphs (name : Path) (arguments : List (List Glyph)) :
    String.ofList (inked (callGlyphs name arguments)) =
      (AttributeValue.call name (argumentTexts arguments)).toText := by
  have hparenthesized : inked (parenthesized (listGlyphs arguments)) =
      "(".toList ++ (inked (listGlyphs arguments) ++ ")".toList) := by
    rw [parenthesized, List.cons_append, inked_word, inked_append]
    rfl
  rw [callGlyphs, inked_append, hparenthesized, Path.inked_glyphs, String.ofList_append,
    String.ofList_append, String.ofList_append, ofList_inked_listGlyphs, String.ofList_toList,
    String.ofList_toList, String.ofList_toList, ← String.append_assoc, ← String.append_assoc]
  rfl

/-- The text is scanned without faults, and all of its tokens are read as the value of an
attribute, whatever its name. -/
def AttributeValue.IsReadFrom (value : AttributeValue) (text : String) : Prop :=
  (scan text).faults = [] ∧
    ∀ key, Gives (readAttributeValue (scan text).stream.stop key (scan text).stream.tokens) value []

theorem readCallAfter_of_parentheses {stop opening closing : Token} {inside rest : List Token}
    (path : Path) (hopening : opening.kind = .opening .round)
    (h : Counting.parentheses.through 0 (inside.map (·.kind)) = some 0)
    (hclosing : closing.kind = .closing .round) :
    Gives (readCallAfter stop path (opening :: (inside ++ closing :: rest)))
      (.call path (RawText.arguments inside)) rest := by
  rw [readCallAfter, if_pos hopening]
  exact (parenthesizedTokens_gives h hclosing).bind fun _ => gives_ok _

section Written

variable {name : Path} {arguments : List (List Glyph)}

theorem ArgumentGlyphs.fitsBefore_callGlyphs (h : ArgumentGlyphs arguments)
    (hname : name.IsLexable) : FitsBefore [] (callGlyphs name arguments) := by
  have hopening : Breaks (inked (parenthesized (listGlyphs arguments)) ++ []) :=
    breaks_cons (by decide) (by decide) (by decide) (by decide)
  exact fitsBefore_append.mpr
    ⟨hname.fitsBefore hopening, fitsBefore_parenthesized (h.fitsBefore breaks_round)⟩

/-- **A written call is read back**, if the parentheses inside are matched. -/
theorem ArgumentGlyphs.call_isReadFrom (h : ArgumentGlyphs arguments) (hname : name.IsLexable)
    (hparentheses : Counting.parentheses.through 0 (kindsOf (listGlyphs arguments)) = some 0) :
    (AttributeValue.call name (argumentTexts arguments)).IsReadFrom
      (AttributeValue.call name (argumentTexts arguments)).toText := by
  rw [← ofList_inked_callGlyphs, AttributeValue.IsReadFrom,
    scan_inked (h.fitsBefore_callGlyphs hname)]
  refine ⟨rfl, fun key => ?_⟩
  -- the place of the end marker does not matter
  generalize Token.mk .eof "" _ = stop
  obtain ⟨opening, pos, closing, hplaced, hopening, hclosing⟩ : ∃ opening pos closing,
      placed .start (callGlyphs name arguments) = placed .start name.glyphs ++
        opening :: (placed pos (listGlyphs arguments) ++ [closing]) ∧
      opening.kind = .opening .round ∧ closing.kind = .closing .round := by
    rw [callGlyphs, placed_append, parenthesized, List.cons_append, placed, placed_append]
    exact ⟨_, _, _, rfl, rfl, rfl⟩
  obtain ⟨root, us, hus, hroot, hpath, hleft⟩ := hname.readPathAfter
    (tokensOf_placed .start name.glyphs) (show ∀ token ∈ (opening ::
      (placed pos (listGlyphs arguments) ++ [closing])).head?, token.kind ≠ .dot by simp [hopening])
  have hcall : Gives (readCallAfter stop
      (readPathAfter root (us ++ opening :: (placed pos (listGlyphs arguments) ++ [closing]))).value
      (readPathAfter root (us ++ opening :: (placed pos (listGlyphs arguments) ++ [closing]))).rest)
      (.call name (argumentTexts arguments)) [] := by
    rw [hpath, hleft, ← h.arguments_placed pos]
    exact readCallAfter_of_parentheses name hopening (by rwa [map_kind_placed]) hclosing
  rw [hplaced, hus, List.cons_append, readAttributeValue, hroot]
  exact hcall.bind fun _ => gives_ok _

/-- Written arguments without the call are split into the same texts. -/
theorem ArgumentGlyphs.scan_intercalate (h : ArgumentGlyphs arguments) :
    (scan (String.intercalate ", " (argumentTexts arguments))).faults = [] ∧
      RawText.arguments (scan (String.intercalate ", " (argumentTexts arguments))).stream.tokens =
        argumentTexts arguments := by
  rw [← ofList_inked_listGlyphs, scan_inked (h.fitsBefore breaks_nil)]
  exact ⟨rfl, h.arguments_placed .start⟩

end Written

/-! ## Calls of a source -/

/-- Tokens as they stand in a source, up to its end. -/
structure Sourced (ts : List Token) : Prop where
  written : ∀ t ∈ ts, t.word.IsWritten
  joinable : Joinable (kept ts)

theorem Sourced.of_suffix {ts us : List Token} (h : Sourced ts) (hus : us <:+ ts) : Sourced us := by
  obtain ⟨front, rfl⟩ := hus
  refine ⟨fun t ht => h.written t (List.mem_append_right front ht), ?_⟩
  have hjoinable := h.joinable
  rw [kept, List.filter_append] at hjoinable
  exact hjoinable.of_append_right

theorem sourced_scan (source : String) : Sourced (scan source).stream.tokens :=
  ⟨(account_scanFrom [] source.toList).isWritten, (account_scanFrom [] source.toList).joinable⟩

/-- The path that is read from tokens of a source is lexable. -/
theorem Sourced.isLexable_readPathAfter {root : Token} {ts : List Token} (h : Sourced (root :: ts))
    (hroot : root.kind = .identifier) : (readPathAfter root ts).value.IsLexable := by
  obtain ⟨hwritten, hrest⟩ := List.forall_mem_cons.mp h.written
  obtain ⟨p, hts, hfields⟩ := derivesFields_of_readFields ts
  refine ⟨?_, hfields.isLexable fun t ht => hrest t ?_⟩
  · rw [← hroot]
    exact hwritten
  · rw [hts]
    exact List.mem_append_left _ ht

/-- No line end stands inside parentheses. -/
theorem kept_of_parentheses {inside : List Token} {depth d : Nat}
    (h : Counting.parentheses.through depth (inside.map (·.kind)) = some d) :
    kept inside = inside := by
  induction inside generalizing depth with
  | nil => rfl
  | cons token inside ih =>
    obtain ⟨hends, hnext⟩ := Counting.through_cons_eq_some.mp h
    have hkind : token.kind ≠ .newline := by
      intro hkind
      simp [Counting.parentheses, hkind] at hends
    rw [kept, List.filter_cons_of_pos (by simp [hkind])]
    exact congrArg (token :: ·) (ih hnext)

/-- The tokens inside parentheses of a source are joinable. -/
theorem Sourced.joinable_of_parentheses {inside rest : List Token} {depth d : Nat}
    (h : Sourced (inside ++ rest))
    (hinside : Counting.parentheses.through depth (inside.map (·.kind)) = some d) :
    Joinable inside := by
  have hjoinable := h.joinable
  rw [kept, List.filter_append] at hjoinable
  have hkept := hjoinable.of_append_left
  rwa [← kept, kept_of_parentheses hinside] at hkept

/-- What is read as a call after a path: tokens inside parentheses. -/
theorem exists_of_readCallAfter {stop : Token} {path name : Path} {arguments : List String}
    {ts : List Token} {r : Reading AttributeValue ts} (h : readCallAfter stop path ts = .ok r)
    (hvalue : r.value = .call name arguments) :
    name = path ∧ ∃ opening inside rest, ts = opening :: (inside ++ rest) ∧
      arguments = RawText.arguments inside ∧
      Counting.parentheses.through 0 (inside.map (·.kind)) = some 0 := by
  cases ts with
  | nil =>
    cases h
    cases hvalue
  | cons opening ts =>
    rw [readCallAfter] at h
    split at h
    · obtain ⟨inside, hinside, hr⟩ := ok_of_bind_eq h
      cases hr
      cases hvalue
      obtain ⟨closing, htokens, -, hthrough⟩ := exists_of_parenthesizedTokens hinside
      exact ⟨rfl, opening, inside.value, closing :: inside.rest, by rw [← htokens], rfl, hthrough⟩
    · cases h
      cases hvalue

/-- What is read as a call. -/
theorem exists_of_readAttributeValue {stop : Token} {key : String} {name : Path}
    {arguments : List String} {ts : List Token} {r : Reading AttributeValue ts}
    (h : readAttributeValue stop key ts = .ok r) (hvalue : r.value = .call name arguments) :
    ∃ root us opening inside rest, ts = root :: us ∧ root.kind = .identifier ∧
      name = (readPathAfter root us).value ∧
      (readPathAfter root us).rest = opening :: (inside ++ rest) ∧
      arguments = RawText.arguments inside ∧
      Counting.parentheses.through 0 (inside.map (·.kind)) = some 0 := by
  cases ts with
  | nil => cases h
  | cons root us =>
    rw [readAttributeValue] at h
    -- only a path goes on as a call
    split at h
    case h_6 hroot =>
      obtain ⟨call, hcall, hr⟩ := ok_of_bind_eq h
      cases hr
      obtain ⟨hname, opening, inside, rest, hrest, harguments, hthrough⟩ :=
        exists_of_readCallAfter hcall hvalue
      exact ⟨root, us, opening, inside, rest, rfl, hroot, hname, hrest, harguments, hthrough⟩
    case h_3 =>
      split at h
      · cases h
        cases hvalue
      · cases h
    case h_7 => cases h
    all_goals
      cases h
      cases hvalue

/-- **A call that is read from tokens of a source can be written.** -/
theorem Sourced.exists_callGlyphs {stop : Token} {key : String} {name : Path}
    {arguments : List String} {ts : List Token} {r : Reading AttributeValue ts} (h : Sourced ts)
    (hread : readAttributeValue stop key ts = .ok r) (hvalue : r.value = .call name arguments) :
    name.IsLexable ∧ ∃ written, ArgumentGlyphs written ∧ argumentTexts written = arguments ∧
      Counting.parentheses.through 0 (kindsOf (listGlyphs written)) = some 0 := by
  obtain ⟨root, us, opening, inside, rest, rfl, hroot, rfl, hrest, rfl, hthrough⟩ :=
    exists_of_readAttributeValue hread hvalue
  refine ⟨h.isLexable_readPathAfter hroot, ?_⟩
  have hinside : Sourced (inside ++ rest) := by
    refine h.of_suffix (List.IsSuffix.trans ?_ (List.suffix_cons root us))
    refine List.IsSuffix.trans ?_ (readPathAfter root us).suffix
    rw [hrest]
    exact List.suffix_cons opening _
  obtain ⟨written, hwritten, htexts, hcalls⟩ :=
    (hinside.joinable_of_parentheses hthrough).exists_argumentGlyphs
  refine ⟨written, hwritten, htexts, ?_⟩
  rw [← parentheses_through_filter, hcalls, parentheses_through_filter, hthrough]

/-- **Calls of a source are read back.**  Let an attribute of a program be a call.  Its text, the
name and in parentheses the arguments with commas between them, is scanned without faults and read
as the same call, whatever the arguments hold: strings with commas in them, calls, arrays, or
brackets that do not match.  The arguments alone are split at their commas into themselves. -/
theorem parseSource_call_isReadFrom (source : String) (name : Path) (arguments : List String)
    (h : AttributeValue.call name arguments ∈ (parseSource source).program.attributeValues) :
    (AttributeValue.call name arguments).IsReadFrom
        (AttributeValue.call name arguments).toText ∧
      (scan (String.intercalate ", " arguments)).faults = [] ∧
      RawText.arguments (scan (String.intercalate ", " arguments)).stream.tokens = arguments := by
  have hlaw : ValueLaw Sourced fun value => ∀ name arguments, value = .call name arguments →
      name.IsLexable ∧ ∃ written, ArgumentGlyphs written ∧ argumentTexts written = arguments ∧
        Counting.parentheses.through 0 (kindsOf (listGlyphs written)) = some 0 :=
    { suffix := Sourced.of_suffix
      text := fun _ _ _ habs => nomatch habs
      value := fun _ _ _ hts _ hread _ _ hvalue => hts.exists_callGlyphs hread hvalue
      classes := fun _ _ _ _ _ _ _ habs => nomatch habs }
  obtain ⟨hname, written, hwritten, rfl, hthrough⟩ :=
    hlaw.parseSource (sourced_scan source) _ h name arguments rfl
  exact ⟨hwritten.call_isReadFrom hname hthrough, hwritten.scan_intercalate⟩

-- values can be compared, so whether a source has a value can be decided
deriving instance DecidableEq for OrderedMap, AttributeValue

/-- A call with a comma in a string, a call and an array inside, an empty argument, an `else` and an
`if` with a stray character between them, and a bracket that closes nothing. -/
theorem parseSource_call_of_mismatched_brackets :
    let source := "component C \x7b\nbutton onClick=list.add(\"a, b\",,g(1,[2 ,3]), else#if ], " ++
      "-x)\n\x7d"
    let arguments := ["\"a, b\"", "g(1,[2 ,3])", "else if ]", "-x"]
    let value := AttributeValue.call ⟨"list", ["add"]⟩ arguments
    value ∈ (parseSource source).program.attributeValues ∧
      value.toText = "list.add(\"a, b\", g(1,[2 ,3]), else if ], -x)" ∧
      value.IsReadFrom value.toText ∧
      RawText.arguments (scan (String.intercalate ", " arguments)).stream.tokens = arguments := by
  intro source arguments value
  have hmem : value ∈ (parseSource source).program.attributeValues := by decide +kernel
  obtain ⟨hread, -, hparts⟩ := parseSource_call_isReadFrom source _ arguments hmem
  exact ⟨hmem, by decide +kernel, hread, hparts⟩

end UiLang
