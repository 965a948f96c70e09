import UiLang.Proofs.Condition.Grouping
import UiLang.Proofs.Markup.Pieces
import UiLang.Proofs.Script.StringValue

/-!
# The strings of a condition in its script

A string of a condition may hold any character but a quote, and all of them stand for themselves.
The script holds the same characters between the same quotes, where a backslash starts an escape and
a line break is no part of a string.  So a string with a backslash has another value in the script,
or ends at another quote and takes the text up to it, the strings there included.

## Main definitions

* `Condition.strings`: the strings of a condition
* `Condition.stringPlaces`: the same strings, each with the text after it in the script

## Main results

* `Condition.holdsAt_of_mem_stringPlaces`: where the strings stand in the script
* `Condition.IsLexable.keepsPlain`: the strings of a script, from those of the condition
* `Condition.strings_survive_iff`: which strings keep their values and their closing quotes
-/

namespace UiLang

/-! ## Text without quotes -/

section Quotes

variable {kind : Kind} {text : String} {lexeme : List Char}

/-- No token but a string is written with a quote. -/
theorem Spells.quote_notMem (h : Spells kind text lexeme) (hkind : kind ≠ .string) :
    '"' ∉ text.toList := by
  have hall {p : Char → Bool} (hp : p '"' = false) {cs : List Char} (hcs : cs.all p = true) :
      '"' ∉ cs := by
    intro hmem
    exact absurd (List.all_eq_true.mp hcs _ hmem) (by simp [hp])
  cases h with
  | newline => decide
  | string inner closed => exact absurd rfl hkind
  | integer digits some_digit all_digits =>
    rw [String.toList_ofList]
    exact hall rfl all_digits
  | fraction digits places some_digit some_place all_digits all_places =>
    rw [String.toList_ofList, List.mem_append, List.mem_cons, not_or, not_or]
    exact ⟨hall rfl all_digits, by decide, hall rfl all_places⟩
  | word letters identifier =>
    have hname : IsIdentifier (String.ofList lexeme) := by rwa [IsIdentifier, String.toList_ofList]
    exact hname.notMem rfl
  | elseIf blanks some_blank all_blanks => decide
  | symbol mark listed =>
    rw [String.toList_ofList]
    have all : symbolForms.all (fun form => !form.2.contains '"') = true := by decide
    simpa using List.all_eq_true.mp all _ listed

theorem Word.IsWritten.quote_notMem {w : Word} (h : w.IsWritten) (hkind : w.kind ≠ .string) :
    '"' ∉ w.text.toList :=
  Spells.quote_notMem h hkind

theorem IsNumeral.quote_notMem (h : IsNumeral text) : '"' ∉ text.toList := by
  rcases h with hwritten | ⟨digits, rfl, hwritten⟩
  · exact hwritten.quote_notMem nofun
  · rw [String.toList_append, List.mem_append, not_or]
    exact ⟨by decide, hwritten.quote_notMem nofun⟩

/-- A path is written without quotes. -/
theorem Path.IsLexable.quote_notMem {path : Path} (h : path.IsLexable) :
    '"' ∉ (Condition.path path).script.toList := by
  have hsegment : ∀ segment ∈ path.segments, '"' ∉ segment.toList := by
    intro segment hsegment
    rcases List.mem_cons.mp hsegment with rfl | hfield
    · exact h.root.quote_notMem nofun
    · obtain ⟨hword, hwritten⟩ := h.fields segment hfield
      have hkind : (fieldWord segment).kind ≠ .string := by
        intro hkind
        rw [hkind] at hword
        cases hword
      have htext : (fieldWord segment).text = segment := by
        unfold fieldWord
        split <;> rfl
      rw [← htext]
      exact hwritten.quote_notMem hkind
  have hscript : (Condition.path path).script.toList =
      "state.".toList ++ "?.".toList.intercalate (path.segments.map String.toList) := by
    simp [Condition.script, Condition.write]
  rw [hscript, List.mem_append, not_or]
  refine ⟨by decide, fun hmem => ?_⟩
  rcases Markup.mem_intercalate hmem with hgap | ⟨_, hsegment', hquote⟩
  · exact absurd hgap (by decide)
  · obtain ⟨segment, hmem, rfl⟩ := List.mem_map.mp hsegment'
    exact hsegment segment hmem hquote

end Quotes

/-! ## Where the strings stand -/

/-- The text of a string. -/
def Literal.string? : Literal → Option String
  | .string text => some text
  | _ => none

namespace Condition

/-- The strings of a condition, in order. -/
def strings : Condition → List String
  | .path _ => []
  | .literal value => value.string?.toList
  | .not operand => operand.strings
  | .logical _ left right => left.strings ++ right.strings
  | .compare _ left right => left.strings ++ right.strings

/-- What stands after the left operand of a condition in front of `after`. -/
def afterLeft (symbol : String) (right : Condition) (after : List Char) : List Char :=
  ' ' :: (symbol.toList ++ ' ' :: (right.script.toList ++ after))

/-- The strings of a condition, each with the text after its closing quote, where the script of the
condition stands in front of `after`. -/
def stringPlaces (after : List Char) : Condition → List (String × List Char)
  | .path _ => []
  | .literal value => value.string?.toList.map fun text => (text, after)
  | .not operand => operand.stringPlaces (')' :: after)
  | .logical op left right =>
    left.stringPlaces (afterLeft op.symbol right (')' :: after)) ++
      right.stringPlaces (')' :: after)
  | .compare op left right =>
    left.stringPlaces (afterLeft op.symbol right after) ++ right.stringPlaces after

section Places

variable {e : Condition} {after : List Char} {text : String}

theorem script_not_append (operand : Condition) (after : List Char) :
    (Condition.not operand).script.toList ++ after =
      ['!', '('] ++ (operand.script.toList ++ ')' :: after) := by
  simp [script, write]

theorem script_logical_append (op : Connective) (left right : Condition) (after : List Char) :
    (logical op left right).script.toList ++ after =
      ['('] ++ (left.script.toList ++ afterLeft op.symbol right (')' :: after)) := by
  simp [script, write, afterLeft]

theorem script_compare_append (op : Comparison) (left right : Condition) (after : List Char) :
    (compare op left right).script.toList ++ after =
      left.script.toList ++ afterLeft op.symbol right after := by
  simp [script, write, afterLeft]

theorem script_string (text : String) (after : List Char) :
    (literal (.string text)).script.toList ++ after = '"' :: (text.toList ++ '"' :: after) := by
  simp [script, write, Literal.text]

/-- Every string has a place. -/
theorem map_fst_stringPlaces (e : Condition) (after : List Char) :
    (e.stringPlaces after).map Prod.fst = e.strings := by
  induction e generalizing after with
  | path p => rfl
  | literal value =>
    rw [stringPlaces, strings, List.map_map]
    exact List.map_id _
  | not operand ih => exact ih _
  | logical op left right ihleft ihright =>
    rw [stringPlaces, strings, List.map_append, ihleft, ihright]
  | compare op left right ihleft ihright =>
    rw [stringPlaces, strings, List.map_append, ihleft, ihright]

/-- The text ends in the string of a place between its quotes and what the place has after it. -/
def HoldsAt (cs : List Char) (place : String × List Char) : Prop :=
  ∃ before, cs = before ++ '"' :: (place.1.toList ++ '"' :: place.2)

theorem HoldsAt.prepend {cs : List Char} {place : String × List Char} (h : HoldsAt cs place)
    (front : List Char) : HoldsAt (front ++ cs) place := by
  obtain ⟨before, rfl⟩ := h
  exact ⟨front ++ before, (List.append_assoc front before _).symm⟩

/-- What stands after a left operand ends in the script of the right one. -/
theorem afterLeft_eq (symbol : String) (right : Condition) (after : List Char) :
    afterLeft symbol right after =
      ' ' :: (symbol.toList ++ [' ']) ++ (right.script.toList ++ after) := by
  simp [afterLeft]

/-- **A string stands at its place.** -/
theorem holdsAt_of_mem_stringPlaces {place : String × List Char}
    (h : place ∈ e.stringPlaces after) : HoldsAt (e.script.toList ++ after) place := by
  induction e generalizing after with
  | path p => cases h
  | literal value =>
    cases value with
    | string text =>
      obtain rfl := List.mem_singleton.mp h
      exact ⟨[], script_string text after⟩
    | _ => cases h
  | not operand ih =>
    rw [script_not_append]
    exact (ih h).prepend ['!', '(']
  | logical op left right ihleft ihright =>
    rw [script_logical_append]
    apply HoldsAt.prepend
    rcases List.mem_append.mp h with hleft | hright
    · exact ihleft hleft
    · rw [afterLeft_eq]
      exact ((ihright hright).prepend _).prepend _
  | compare op left right ihleft ihright =>
    rw [script_compare_append]
    rcases List.mem_append.mp h with hleft | hright
    · exact ihleft hleft
    · rw [afterLeft_eq]
      exact ((ihright hright).prepend _).prepend _

theorem mem_strings_iff : text ∈ e.strings ↔ .literal (.string text) ∈ e.leaves := by
  induction e with
  | path p => simp [strings, leaves]
  | literal value => cases value <;> simp [strings, leaves, Literal.string?]
  | not operand ih => exact ih
  | logical op left right ihleft ihright => simp [strings, leaves, ihleft, ihright]
  | compare op left right ihleft ihright => simp [strings, leaves, ihleft, ihright]

/-- No string of a lexable condition holds a quote. -/
theorem IsLexable.quote_notMem (h : e.IsLexable) (htext : text ∈ e.strings) :
    '"' ∉ text.toList :=
  isLexable_iff.mp h _ (mem_strings_iff.mp htext)

end Places

/-! ## The strings of the script -/

/-- A string as it should be read in the script: its own characters for its value, and its own
closing quote for its end. -/
def kept (place : String × List Char) : Script.Quoted :=
  ⟨Script.unitsOf place.1.toList, place.2⟩

/-- In front of `after` the strings of the script are kept exactly if all of them are plain, and the
reader goes on with the strings of `after`. -/
def KeepsPlain (e : Condition) (after : List Char) : Prop :=
  ∀ more, Script.strings? 0 (e.script.toList ++ after) =
      some ((e.stringPlaces after).map kept ++ more) ↔
    (∀ text ∈ e.strings, text.toList.all Script.isPlain = true) ∧
      Script.strings? 0 after = some more

section Survival

variable {e left right : Condition} {after : List Char}

theorem keepsPlain_path {p : Path} (h : p.IsLexable) : (path p).KeepsPlain after := by
  intro more
  rw [Script.strings?_append h.quote_notMem]
  simp [stringPlaces, strings]

theorem keepsPlain_literal {value : Literal} (h : value.IsLexable) :
    (literal value).KeepsPlain after := by
  intro more
  -- all literals but strings are written without quotes
  have hother (hvalue : value.string? = none) (hquote : '"' ∉ value.text.toList) :
      Script.strings? 0 (value.text.toList ++ after) =
          some (((literal value).stringPlaces after).map kept ++ more) ↔
        (∀ text ∈ (literal value).strings, text.toList.all Script.isPlain = true) ∧
          Script.strings? 0 after = some more := by
    rw [Script.strings?_append hquote]
    simp [stringPlaces, strings, hvalue]
  cases value with
  | string text =>
    rw [script_string]
    refine Script.strings?_quote_eq_some_iff.trans (and_congr_left' ?_)
    rw [kept, Script.quoted?_eq_some_iff h]
    simp [strings, Literal.string?]
  | number text => exact hother rfl (IsNumeral.quote_notMem h)
  | boolean value => exact hother rfl (by cases value <;> decide)
  | null => exact hother rfl (by decide)

/-- What stands between operands has no strings. -/
theorem KeepsPlain.binary {symbol : String} (hsymbol : '"' ∉ symbol.toList)
    (hleft : left.KeepsPlain (afterLeft symbol right after)) (hright : right.KeepsPlain after)
    (more : List Script.Quoted) :
    Script.strings? 0 (left.script.toList ++ afterLeft symbol right after) =
        some ((left.stringPlaces (afterLeft symbol right after) ++
          right.stringPlaces after).map kept ++ more) ↔
      (∀ text ∈ left.strings ++ right.strings, text.toList.all Script.isPlain = true) ∧
        Script.strings? 0 after = some more := by
  have hbetween : Script.strings? 0 (afterLeft symbol right after) =
      Script.strings? 0 (right.script.toList ++ after) := by
    have hblanks : '"' ∉ ' ' :: (symbol.toList ++ [' ']) := by simpa using hsymbol
    rw [afterLeft_eq, Script.strings?_append hblanks]
  rw [List.map_append, List.append_assoc, hleft, hbetween, hright, List.forall_mem_append,
    and_assoc]

theorem strings?_closing (after : List Char) :
    Script.strings? 0 (')' :: after) = Script.strings? 0 after := by
  have hclosing : '"' ∉ [')'] := by decide
  exact Script.strings?_append hclosing after

/-- **The strings of a script** are kept exactly if all of them are plain, whatever follows. -/
theorem IsLexable.keepsPlain (h : e.IsLexable) (after : List Char) : e.KeepsPlain after := by
  induction e generalizing after with
  | path p => exact keepsPlain_path h
  | literal value => exact keepsPlain_literal h
  | not operand ih =>
    intro more
    rw [script_not_append, Script.strings?_append (by decide), ← strings?_closing after]
    exact ih h (')' :: after) more
  | logical op left right ihleft ihright =>
    intro more
    rw [script_logical_append, Script.strings?_append (by decide), ← strings?_closing after]
    exact (ihleft h.1 _).binary (op.isWritten.quote_notMem nofun) (ihright h.2 _) more
  | compare op left right ihleft ihright =>
    intro more
    rw [script_compare_append]
    exact (ihleft h.1 _).binary (op.isWritten.quote_notMem nofun) (ihright h.2 _) more

/-- **Which strings of a condition survive in its script.**  Let the reader give the condition.
Each of its strings stands in the script between quotes, in order, and is read there with its own
characters for its value and its own closing quote for its end exactly if it has no backslash, line
feed or carriage return.  Reading the strings of the whole script gives the strings of the
condition at their places exactly if that holds of all of them. -/
theorem strings_survive_iff (hgiven : e.IsGiven) :
    (e.stringPlaces []).map Prod.fst = e.strings ∧
      (∀ text after, (text, after) ∈ e.stringPlaces [] →
        (∃ before, e.script.toList = before ++ '"' :: (text.toList ++ '"' :: after)) ∧
          (Script.quoted? 0 (text.toList ++ '"' :: after) =
              some ⟨Script.unitsOf text.toList, after⟩ ↔
            text.toList.all Script.isPlain = true)) ∧
      (Script.strings? 0 e.script.toList = some ((e.stringPlaces []).map kept) ↔
        ∀ text ∈ e.strings, text.toList.all Script.isPlain = true) := by
  have hlexable := isGiven_iff.mp hgiven
  refine ⟨map_fst_stringPlaces e [], fun text after hmem => ⟨?_, ?_⟩, ?_⟩
  · have hplace := holdsAt_of_mem_stringPlaces hmem
    rwa [List.append_nil] at hplace
  · apply Script.quoted?_eq_some_iff
    apply hlexable.quote_notMem
    rw [← map_fst_stringPlaces e []]
    exact List.mem_map_of_mem hmem
  · have hkeeps := hlexable.keepsPlain [] []
    rw [List.append_nil, List.append_nil] at hkeeps
    exact hkeeps.trans (and_iff_left rfl)

/-- Two strings without backslashes, one of which has a character with two code units. -/
theorem strings_survive_of_plain :
    let e : Condition := .logical .and
      (.compare .equal (.path ⟨"a", []⟩) (.literal (.string "it's")))
      (.compare .notEqual (.path ⟨"b", ["c"]⟩) (.literal (.string "😀")))
    e.IsGiven ∧ e.script = "(state.a == \"it's\" && state.b?.c != \"😀\")" ∧
      Script.strings? 0 e.script.toList =
        some [⟨[0x69, 0x74, 0x27, 0x73], " && state.b?.c != \"😀\")".toList⟩,
          ⟨[0xd83d, 0xde00], [')']⟩] := by
  intro e
  have ha : Path.IsLexable ⟨"a", []⟩ := ⟨.word ['a'] rfl, List.forall_mem_nil _⟩
  have hb : Path.IsLexable ⟨"b", ["c"]⟩ :=
    ⟨.word ['b'] rfl, List.forall_mem_singleton.mpr ⟨rfl, .word ['c'] rfl⟩⟩
  have hgiven : e.IsGiven := isGiven_iff.mpr ⟨⟨ha, (by decide : '"' ∉ "it's".toList)⟩, hb,
    (by decide : '"' ∉ "😀".toList)⟩
  have hplain : ∀ text ∈ e.strings, text.toList.all Script.isPlain = true := by decide
  refine ⟨hgiven, by decide +kernel, ((strings_survive_iff hgiven).2.2.mpr hplain).trans ?_⟩
  decide +kernel

/-- **Backslashes and line feeds are lost.**  The script of `a == "\n"`, where the string is a
backslash and a letter, compares with a line feed.  In the script of `a == "\" && b == ";"` the
first string ends where the second one starts, and the rest of the script has an unclosed string.  A
line feed in a string leaves it unclosed. -/
theorem strings_of_backslash :
    let compared (name text : String) : Condition :=
      .compare .equal (.path ⟨name, []⟩) (.literal (.string text))
    let letter := compared "a" "\\n"
    let both : Condition := .logical .and (compared "a" "\\") (compared "b" ";")
    let feed := compared "a" "\n"
    letter.IsGiven ∧ Script.strings? 0 letter.script.toList = some [⟨[0x0a], []⟩] ∧
      both.IsGiven ∧ both.script = "(state.a == \"\\\" && state.b == \";\")" ∧
      Script.quoted? 0 "\\\" && state.b == \";\")".toList =
        some ⟨Script.unitsOf "\" && state.b == ".toList, ";\")".toList⟩ ∧
      Script.strings? 0 both.script.toList = none ∧
      feed.IsGiven ∧ Script.strings? 0 feed.script.toList = none := by
  intro compared letter both feed
  have hcompared {c : Char} {text : String} (hc : isIdentifier [c] = true)
      (hkind : wordKind (String.ofList [c]) = .identifier) (htext : '"' ∉ text.toList) :
      (compared (String.ofList [c]) text).IsLexable :=
    ⟨⟨hkind ▸ (Spells.word [c] hc).isWritten, List.forall_mem_nil _⟩, htext⟩
  have hletter : letter.IsLexable := hcompared (c := 'a') rfl rfl (by decide)
  have hfeed : feed.IsLexable := hcompared (c := 'a') rfl rfl (by decide)
  have hboth : both.IsLexable :=
    ⟨hcompared (c := 'a') rfl rfl (by decide), hcompared (c := 'b') rfl rfl (by decide)⟩
  refine ⟨isGiven_iff.mpr hletter, ?_, isGiven_iff.mpr hboth, ?_, ?_, ?_, isGiven_iff.mpr hfeed, ?_⟩
  all_goals decide +kernel

end Survival

end Condition

end UiLang
