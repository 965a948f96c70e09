import UiLang.Compiler
import UiLang.Proofs.Document.Script
import UiLang.Proofs.Markup.Safety

/-!
# The structure of a page

A page is a shell around a title, styles, markup and a script.  Title and markup are escaped, so
whatever they show they hold no tag that the page is cut at.  The script is not: its tags are those
of the texts of the source that it holds, and if there is one that closes scripts then the element
of the script ends at it.

## Main definitions

* `closingTags`: the tags that end the script, the styles and the title
* `scriptElement?`: the content of the first script of a page

## Main results

* `Markup.occurrences_pieces`: safe markup holds no tag
* `Program.occurrencesIn_document`: the tags of a page
* `scriptElement?_document_iff`: when the script is the content of its element
* `compile_document_iff`: the structure of the pages of all sources
-/

namespace UiLang

variable {word : List Char}

/-! ## Markup -/

namespace Markup

/-- No tag of the markup has the name of one that matters, and no name holds a `<`. -/
theorem cons_of_mem_tags {name : List Char} (h : name ∈ pairedTags ++ voidTags) :
    ∃ c cs, name = c :: cs ∧ c.toLower ∉ ['/', 's'] ∧ '<' ∉ c :: cs := by
  have hall : (pairedTags ++ voidTags).all (fun name =>
      name.head?.any (fun c => c.toLower ∉ ['/', 's']) && '<' ∉ name) = true := by decide
  have hname := List.all_eq_true.mp hall name h
  cases name with
  | nil => cases hname
  | cons c cs =>
    rw [Bool.and_eq_true] at hname
    exact ⟨c, cs, rfl, of_decide_eq_true hname.1, of_decide_eq_true hname.2⟩

theorem AreAttributes.notMem_chars {attributes : List Attribute} (h : AreAttributes attributes) :
    '<' ∉ attributes.flatMap attributeChars := by
  have hnames : ∀ name ∈ attributeNames, '<' ∉ name := by decide
  intro hmem
  obtain ⟨a, ha, hmem⟩ := List.mem_flatMap.mp hmem
  simp only [attributeChars, List.mem_append, List.mem_cons, List.not_mem_nil, or_false] at hmem
  rcases hmem with (((hblank | hname) | hquote) | hvalue) | hquote
  · exact absurd hblank (by decide)
  · exact hnames a.1 (h.known a ha) hname
  · exact absurd hquote (by decide)
  · exact not_mem_of_isEscaped (h.escaped a ha) (by decide) hvalue
  · exact absurd hquote (by decide)

section Pieces

variable (hword : word ∈ tagWords)

include hword

/-- A tag that starts like none that matters. -/
theorem occurrences_tag {c : Char} {cs : List Char} (hc : c.toLower ∉ ['/', 's'])
    (hcs : '<' ∉ c :: cs) (after : List Char) :
    occurrences word ('<' :: c :: cs ++ after) = occurrences word after := by
  have hhead := head?_of_mem_tagWords hword
  -- the character after the `<` tells the two apart
  have hsecond : ∃ d rest, word = '<' :: d :: rest ∧ d ∈ ['/', 's'] := by
    simp only [tagWords, List.map_cons, List.map_nil, List.mem_cons, List.not_mem_nil,
      or_false] at hword
    rcases hword with rfl | rfl | rfl | rfl <;> exact ⟨_, _, rfl, by decide⟩
  obtain ⟨d, rest, rfl, hd⟩ := hsecond
  rw [List.cons_append, List.cons_append, occurrences_cons_of_not_isPrefixOf, ← List.cons_append,
    occurrences_append_of_notMem hhead hcs]
  rw [List.map_cons, List.map_cons, List.isPrefixOf_cons_cons, List.isPrefixOf_cons_cons,
    Bool.and_eq_false_iff, Bool.and_eq_false_iff]
  exact .inr (.inl (beq_eq_false_iff_ne.mpr fun heq => hc (heq ▸ hd)))

/-- A tag of the markup, up to its end. -/
theorem occurrences_opening {name : List Char} (hname : name ∈ pairedTags ++ voidTags)
    {attributes : List Attribute} (h : AreAttributes attributes) {ending : List Char}
    (hending : '<' ∉ ending) (after : List Char) :
    occurrences word ('<' :: name ++ attributes.flatMap attributeChars ++ ending ++ after) =
      occurrences word after := by
  obtain ⟨c, cs, rfl, hc, hcs⟩ := cons_of_mem_tags hname
  have hinner : '<' ∉ c :: (cs ++ attributes.flatMap attributeChars ++ ending) := by
    rw [← List.cons_append, ← List.cons_append, List.mem_append, List.mem_append]
    rintro ((hmem | hmem) | hmem)
    exacts [hcs hmem, h.notMem_chars hmem, hending hmem]
  exact occurrences_tag hword hc hinner after

/-- **A safe piece holds no tag that matters**, and no start of one. -/
theorem Piece.IsSafe.occurrences_append {piece : Piece} (h : piece.IsSafe) (after : List Char) :
    occurrences word (piece.chars ++ after) = occurrences word after := by
  have hhead := head?_of_mem_tagWords hword
  cases piece with
  | text run => exact occurrences_append_of_notMem hhead (not_mem_of_isEscaped h (by decide))
  | comment inner =>
    have hinner : '<' ∉ '!' :: ("--".toList ++ inner ++ "-->".toList) := by
      rw [List.mem_cons, List.mem_append, List.mem_append]
      rintro (hmem | (hmem | hmem) | hmem)
      · exact absurd hmem (by decide)
      · exact absurd hmem (by decide)
      · exact h.notMem (by decide) hmem
      · exact absurd hmem (by decide)
    exact occurrences_tag hword (by decide) hinner after
  | opening name attributes =>
    exact occurrences_opening hword (List.mem_append_left _ h.1) h.2 (by decide) after
  | void name attributes =>
    exact occurrences_opening hword (List.mem_append_right _ h.1) h.2 (by decide) after
  | closing name =>
    -- all closing tags start alike, so their names are compared
    have hnone : ∀ word ∈ tagWords, ∀ name ∈ pairedTags,
        occurrences word (Piece.closing name).chars = 0 := by decide
    rw [occurrences_append_of_getLast (ne_nil_of_mem_tagWords hword), hnone word hword name h,
      Nat.zero_add]
    intro c hc
    rw [Piece.chars, List.getLast?_concat, Option.mem_some_iff] at hc
    exact toLower_notMem_of_isApart hword (hc ▸ by decide)

theorem occurrences_pieces {pieces : List Piece} (h : ∀ piece ∈ pieces, piece.IsSafe) :
    occurrences word (pieces.flatMap Piece.chars) = 0 := by
  induction pieces with
  | nil => rfl
  | cons piece pieces ih =>
    obtain ⟨hpiece, hpieces⟩ := List.forall_mem_cons.mp h
    rw [List.flatMap_cons, hpiece.occurrences_append hword, ih hpieces]

end Pieces

end Markup

section Parts

variable (hword : word ∈ tagWords)

include hword

theorem occurrencesIn_escape (text : String) : occurrencesIn word (Html.escape text) = 0 := by
  refine occurrences_eq_zero_of_notMem (head?_of_mem_tagWords hword) ?_
  rw [Html.toList_escape]
  exact Markup.not_mem_of_isEscaped (Markup.isEscaped_escapeChars _) (by decide)

/-- The markup of a program whose names are identifiers holds no tag that matters. -/
theorem Program.occurrencesIn_markup {program : Program} (h : program.IsNamed) :
    occurrencesIn word program.markup = 0 := by
  rw [occurrencesIn, Program.markup, Html.render, String.toList_ofList,
    ← Html.flatMap_chars_forestPieces]
  exact Markup.occurrences_pieces hword (Program.html_isSafe h)

theorem occurrencesIn_stylesheet : occurrencesIn word stylesheet = 0 := by
  refine AreTagless.occurrencesIn_lines ?_ hword
  repeat refine .cons (by decide +kernel) ?_
  exact .nil

end Parts

/-! ## The shell -/

/-- A text of the shell: no tag stands across one of its ends. -/
def isShell (text : String) : Bool :=
  text.toList.head?.any (fun c => c == '<' || isApart c) && text.toList.getLast?.any isApart

/-- A page up to the start of its script. -/
def Output.beforeScript (output : Output) (title : String) : String :=
  "<!DOCTYPE html>\n<html lang=\"en\">\n<head>\n  <meta charset=\"UTF-8\">\n" ++
    "  <meta name=\"viewport\" content=\"width=device-width, initial-scale=1.0\">\n" ++
    "  <title>" ++ Html.escape title ++ "</title>\n  <style>\n" ++
    "body \x7b margin: 0; padding: 16px; font-family: system-ui, sans-serif; \x7d\n" ++
    output.styles ++ "\n  </style>\n</head>\n<body>\n" ++ output.markup ++ "\n"

theorem Output.document_eq (output : Output) (title : String) :
    output.document title =
      output.beforeScript title ++ "<script>\n" ++ output.script ++
        "\n</script>\n</body>\n</html>\n" := by
  have hstart : "\n<script>\n" = "\n" ++ "<script>\n" := by decide
  dsimp only [document, beforeScript]
  rw [hstart, ← String.append_assoc]

section Shell

variable (hword : word ∈ tagWords)

include hword

/-- A tag has its `<` at the start only. -/
theorem toLower_notMem_tail : '<'.toLower ∉ word.tail := by
  revert word
  decide

theorem occurrencesIn_append_of_isShell {text : String} (h : isShell text = true)
    (front : String) :
    occurrencesIn word (front ++ text) = occurrencesIn word front + occurrencesIn word text := by
  rw [occurrencesIn, String.toList_append]
  refine occurrences_append fun c hc => ?_
  rw [isShell, Option.mem_def.mp hc, Bool.and_eq_true, Option.any_some, Bool.or_eq_true] at h
  rcases h.1 with hlt | hapart
  · rw [eq_of_beq hlt]
    exact toLower_notMem_tail hword
  · exact fun hmem => toLower_notMem_of_isApart hword hapart (List.mem_of_mem_tail hmem)

/-- **Counting across a text of the shell**, which may hold tags itself. -/
theorem occurrencesIn_shell {text : String} (h : isShell text = true) (front after : String) :
    occurrencesIn word (front ++ text ++ after) =
      occurrencesIn word front + occurrencesIn word text + occurrencesIn word after := by
  rw [← occurrencesIn_append_of_isShell hword h front, occurrencesIn, String.toList_append]
  refine occurrences_append_of_getLast (ne_nil_of_mem_tagWords hword) fun c hc => ?_
  rw [isShell, Bool.and_eq_true] at h
  obtain ⟨d, hd, hapart⟩ := (Option.any_eq_true _ _).mp h.2
  rw [String.toList_append, List.getLast?_append, hd, Option.some_or, Option.mem_some_iff] at hc
  exact toLower_notMem_of_isApart hword (hc ▸ hapart)

variable {program : Program} (h : program.IsNamed) (title : String)

include h

/-- The tags before the script are those of the shell. -/
theorem Program.occurrencesIn_beforeScript :
    occurrencesIn word (program.output.beforeScript title) =
      occurrencesIn word "</title>\n  <style>\n" +
        occurrencesIn word "\n  </style>\n</head>\n<body>\n" := by
  have htitle : isShell "</title>\n  <style>\n" = true := by decide +kernel
  have hstyle : isShell "\n  </style>\n</head>\n<body>\n" = true := by decide +kernel
  -- the texts of the shell are taken off from the end
  dsimp only [Output.beforeScript, Program.output]
  rw [occurrencesIn_trailing hword (by decide), occurrencesIn_shell hword hstyle,
    occurrencesIn_markup hword h, occurrencesIn_parted hword (by decide +kernel),
    occurrencesIn_stylesheet hword, occurrencesIn_append_of_isShell hword htitle,
    occurrencesIn_parted hword (by decide +kernel), occurrencesIn_escape hword,
    occurrencesIn_leading hword (by decide +kernel), occurrencesIn_fixed hword (by decide +kernel)]
  omega

/-- **The tags of a page**: each occurs once in the shell, and then wherever the script holds it. -/
theorem Program.occurrencesIn_document :
    occurrencesIn word (program.output.document title) = 1 + total word program.scriptTexts := by
  have hscript : isShell "<script>\n" = true := by decide +kernel
  have hend : isShell "\n</script>\n</body>\n</html>\n" = true := by decide +kernel
  have honce : ∀ word ∈ tagWords, occurrencesIn word "</title>\n  <style>\n" +
      occurrencesIn word "\n  </style>\n</head>\n<body>\n" + occurrencesIn word "<script>\n" +
      occurrencesIn word "\n</script>\n</body>\n</html>\n" = 1 := by decide +kernel
  rw [Output.document_eq, occurrencesIn_append_of_isShell hword hend,
    occurrencesIn_shell hword hscript, program.occurrencesIn_beforeScript hword h title]
  have hprogram : occurrencesIn word program.output.script = total word program.scriptTexts :=
    program.occurrencesIn_script hword
  have honce := honce word hword
  omega

end Shell

/-! ## The element of the script -/

/-- The content of the first script of a page: what stands between the end of the first tag that
opens one and the next tag that closes one. -/
def scriptElement? (page : String) : Option String :=
  (splitFirst "<script".toList page.toList).bind fun opened =>
    (splitFirst "</script".toList ((opened.2.dropWhile (· != '>')).drop 1)).map fun closed =>
      String.ofList closed.1

/-- A text is cut at a tag that comes after one without it. -/
theorem splitFirst_tag {front : String} (hword : word ∈ tagWords)
    (hfront : occurrencesIn word front = 0) (after : List Char) :
    splitFirst word (front.toList ++ (word ++ after)) = some (front.toList, after) := by
  have hlower : ∀ word ∈ tagWords, word.map Char.toLower = word := by decide
  have hne := ne_nil_of_mem_tagWords hword
  rw [splitFirst_append hne hfront, List.drop_left]
  · intro c hc
    rw [List.head?_append_of_ne_nil _ hne, head?_of_mem_tagWords hword, Option.mem_some_iff] at hc
    exact hc ▸ toLower_notMem_tail hword
  · rw [List.map_append, hlower word hword, List.isPrefixOf_iff_prefix]
    exact List.prefix_append _ _

section Element

variable {program : Program} (h : program.IsNamed) (title : String)

include h

/-- A reader of a page finds the shell's own tag first, and then reads the script. -/
theorem Program.scriptElement?_document :
    scriptElement? (program.output.document title) =
      (splitFirst "</script".toList (("\n" ++ program.script ++ "\n").toList ++
        ("</script".toList ++ ">\n</body>\n</html>\n".toList))).map
          fun closed => String.ofList closed.1 := by
  have hshell : occurrencesIn "<script".toList "</title>\n  <style>\n" +
      occurrencesIn "<script".toList "\n  </style>\n</head>\n<body>\n" = 0 := by decide +kernel
  have hbefore : occurrencesIn "<script".toList (program.output.beforeScript title) = 0 := by
    rw [program.occurrencesIn_beforeScript (by decide) h title, hshell]
  have hopen : "<script>\n".toList = "<script".toList ++ ('>' :: "\n".toList) := by decide
  have hclose : "\n</script>\n</body>\n</html>\n".toList =
      "\n".toList ++ ("</script".toList ++ ">\n</body>\n</html>\n".toList) := by decide +kernel
  have hscript : program.output.script = program.script := rfl
  rw [scriptElement?, Output.document_eq]
  simp only [String.toList_append, hopen, hclose, hscript, List.append_assoc, List.cons_append]
  rw [splitFirst_tag (by decide) hbefore, Option.bind_some, List.dropWhile_cons_of_neg (by decide),
    List.drop_one, List.tail_cons]

/-- **When the script is the content of its element**: no text of the source in it closes scripts. -/
theorem Program.scriptElement?_document_iff :
    scriptElement? (program.output.document title) = some ("\n" ++ program.script ++ "\n") ↔
      ∀ text ∈ program.scriptTexts, occurrencesIn "</script".toList text = 0 := by
  have hword : "</script".toList ∈ tagWords := by decide
  have hcount : occurrencesIn "</script".toList ("\n" ++ program.script ++ "\n") =
      total "</script".toList program.scriptTexts := by
    rw [occurrencesIn_trailing hword (by decide), occurrencesIn_leading hword (by decide),
      program.occurrencesIn_script hword]
  rw [program.scriptElement?_document h title, ← total_eq_zero_iff, ← hcount]
  constructor
  · -- what was read stands before the first tag that closes scripts, so it holds none
    intro hread
    obtain ⟨⟨front, after⟩, hsplit, hfront⟩ := Option.map_eq_some_iff.mp hread
    have hchars : ("\n" ++ program.script ++ "\n").toList = front := by
      rw [← hfront, String.toList_ofList]
    rw [occurrencesIn, hchars]
    exact occurrences_of_splitFirst hsplit
  · intro hnone
    rw [splitFirst_tag hword hnone, Option.map_some, String.ofList_toList]

end Element

/-! ## Pages of sources -/

/-- The tags that end the script, the styles and the title. -/
def closingTags : List (List Char) :=
  ["</script", "</style", "</title"].map String.toList

theorem mem_tagWords_of_mem_closingTags (hword : word ∈ closingTags) : word ∈ tagWords :=
  List.mem_cons_of_mem _ hword

/-- What a source compiles to is what was read of it. -/
theorem Compiler.output_of_compile {compiler : Compiler} {source : String}
    {compilation : Compilation} (h : compiler.compile source = .ok compilation) :
    compilation.output = (parseSource source).program.output := by
  unfold compile at h
  split at h
  · cases h
  · dsimp only at h
    split at h
    · cases h
    · cases h
      rfl

theorem Compiler.compile_of_isClean {source : String} (h : (parseSource source).isClean = true) :
    Compiler.compile {} source =
      .ok ⟨(parseSource source).program.output, (parseSource source).faults⟩ := by
  simp [compile, exceeds, h]

/-- **The structure of a page.**  Whatever the title and the source, each tag that ends the script,
the styles or the title occurs once in the shell, never in the title or the markup, and then as
often as the texts of the source that the script holds have it.  So each of them occurs exactly once
when no such text has it, and the script is the whole content of its element exactly when no such
text has the tag that closes scripts. -/
theorem compile_document_iff {source : String} {compilation : Compilation}
    (h : Compiler.compile {} source = .ok compilation) (title : String) :
    (∀ word ∈ closingTags,
      occurrencesIn word (compilation.output.document title) =
        1 + total word (parseSource source).program.scriptTexts ∧
      (occurrencesIn word (compilation.output.document title) = 1 ↔
        ∀ text ∈ (parseSource source).program.scriptTexts, occurrencesIn word text = 0)) ∧
    (scriptElement? (compilation.output.document title) =
        some ("\n" ++ compilation.output.script ++ "\n") ↔
      ∀ text ∈ (parseSource source).program.scriptTexts,
        occurrencesIn "</script".toList text = 0) := by
  have hnamed := parseSource_isNamed source
  rw [Compiler.output_of_compile h]
  refine ⟨fun word hword => ?_, Program.scriptElement?_document_iff hnamed title⟩
  have hcount := Program.occurrencesIn_document (mem_tagWords_of_mem_closingTags hword) hnamed title
  refine ⟨hcount, ?_⟩
  rw [hcount, ← total_eq_zero_iff]
  omega

/-- A title and a text that would end their elements are shown as they are. -/
theorem document_of_hostile_texts :
    ∃ compilation,
      Compiler.compile {} "component C \x7b\nstate a = \"<b>\"\ntext \"</script></style>\"\n\x7d" =
        .ok compilation ∧
      (∀ word ∈ closingTags,
        occurrencesIn word (compilation.output.document "</title><script>") = 1) ∧
      scriptElement? (compilation.output.document "</title><script>") =
        some ("\n" ++ compilation.output.script ++ "\n") := by
  have hclean := Compiler.compile_of_isClean (by decide +kernel : (parseSource
    "component C \x7b\nstate a = \"<b>\"\ntext \"</script></style>\"\n\x7d").isClean = true)
  obtain ⟨hcounts, helement⟩ := compile_document_iff hclean "</title><script>"
  refine ⟨_, hclean, fun word hword => (hcounts word hword).2.mpr ?_, helement.mpr ?_⟩
  · revert word
    decide +kernel
  · decide +kernel

/-- A string of the state is written into the script as it is, and may close it. -/
theorem document_of_closing_string :
    ∃ compilation,
      Compiler.compile {} "component C \x7b\nstate a = \"</script>\"\n\x7d" = .ok compilation ∧
      occurrencesIn "</script".toList (compilation.output.document "t") = 2 ∧
      scriptElement? (compilation.output.document "t") ≠
        some ("\n" ++ compilation.output.script ++ "\n") := by
  refine ⟨_, Compiler.compile_of_isClean (by decide +kernel), ?_, ?_⟩
  · rw [Program.occurrencesIn_document (by decide) (parseSource_isNamed _)]
    decide +kernel
  · intro hread
    exact absurd ((Program.scriptElement?_document_iff (parseSource_isNamed _) _).mp hread)
      (by decide +kernel)

end UiLang
