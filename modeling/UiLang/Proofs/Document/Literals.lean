import UiLang.Json.Basic
import UiLang.Proofs.Document.Occurrences

/-!
# Tags in literals and bodies

Strings of a source are written into the script as JSON strings, and bodies with their lines moved
to the right.  Neither touches a character of a tag: what is escaped, dropped or put in stands in
no tag.  So every tag in a string or a body is a tag in the script.

## Main definitions

* `JsonValue.strings`: the strings and keys of a value

## Main results

* `occurrencesIn_stringText`, `JsonValue.occurrencesIn_text`: literals keep their tags
* `occurrencesIn_indent`: so do bodies
-/

namespace UiLang

variable {word : List Char}

/-! ## Strings -/

/-- A character that is escaped stands in no tag, and neither does what it is written as. -/
theorem JsonValue.escapeChar_cases (c : Char) :
    escapeChar c = [c] ∨
      isApart c = true ∧ ∃ rest, escapeChar c = '\\' :: rest ∧ '<' ∉ rest := by
  by_cases hcontrol : c.toNat < 0x20
  · have hall : ∀ n < 0x20, isApart (Char.ofNat n) = true ∧
        (escapeChar (Char.ofNat n)).head? = some '\\' ∧ '<' ∉ (escapeChar (Char.ofNat n)).tail := by
      decide
    obtain ⟨hapart, hhead, htail⟩ := hall c.toNat hcontrol
    rw [Char.ofNat_toNat] at hapart hhead htail
    obtain ⟨rest, hrest⟩ := List.head?_eq_some_iff.mp hhead
    rw [hrest] at htail
    exact .inr ⟨hapart, rest, hrest, htail⟩
  · by_cases hquote : c = '"'
    · subst hquote
      exact .inr ⟨by decide, ['"'], rfl, by decide⟩
    · by_cases hslash : c = '\\'
      · subst hslash
        exact .inr ⟨by decide, ['\\'], rfl, by decide⟩
      · -- all the others that have names are control characters
        refine .inl ?_
        unfold escapeChar
        rw [if_neg hquote, if_neg hslash, if_neg, if_neg, if_neg, if_neg, if_neg, if_neg hcontrol]
        all_goals
          rintro rfl
          exact hcontrol (by decide)

/-- A word without backslashes and without escaped characters is found where it was. -/
theorem isPrefixOf_flatMap_escapeChar (hslash : '\\' ∉ word)
    (hapart : ∀ c, isApart c = true → c.toLower ∉ word) (cs : List Char) :
    word.isPrefixOf ((cs.flatMap JsonValue.escapeChar).map Char.toLower) =
      word.isPrefixOf (cs.map Char.toLower) := by
  induction cs generalizing word with
  | nil => rfl
  | cons c cs ih =>
    cases word with
    | nil => rfl
    | cons d word =>
      rw [List.mem_cons, not_or] at hslash
      rw [List.flatMap_cons]
      rcases JsonValue.escapeChar_cases c with hsame | ⟨hc, rest, hrest, -⟩
      · have hword := ih hslash.2 fun e he hmem => hapart e he (List.mem_cons_of_mem d hmem)
        rw [hsame, List.singleton_append, List.map_cons, List.map_cons,
          List.isPrefixOf_cons_cons, List.isPrefixOf_cons_cons, hword]
      · -- on neither side does the word start here
        have hne : d ≠ c.toLower := fun heq => hapart c hc (heq ▸ List.mem_cons_self)
        have hne' : d ≠ Char.toLower '\\' := fun heq => hslash.1 heq.symm
        rw [hrest, List.cons_append, List.map_cons, List.map_cons, List.isPrefixOf_cons_cons,
          List.isPrefixOf_cons_cons, beq_eq_false_iff_ne.mpr hne, beq_eq_false_iff_ne.mpr hne',
          Bool.false_and, Bool.false_and]

section Literals

variable (hword : word ∈ tagWords)

include hword

theorem occurrences_flatMap_escapeChar (cs : List Char) :
    occurrences word (cs.flatMap JsonValue.escapeChar) = occurrences word cs := by
  have hslash : '\\' ∉ word := toLower_notMem_of_isApart hword (c := '\\') (by decide)
  have hapart (c : Char) (hc : isApart c = true) := toLower_notMem_of_isApart hword hc
  induction cs with
  | nil => rfl
  | cons c cs ih =>
    have hprefix := isPrefixOf_flatMap_escapeChar hslash hapart (c :: cs)
    rw [List.flatMap_cons] at hprefix ⊢
    rcases JsonValue.escapeChar_cases c with hsame | ⟨hc, rest, hrest, hnone⟩
    · rw [hsame, List.singleton_append] at hprefix ⊢
      rw [occurrences, occurrences, hprefix, ih]
    · rw [hrest, occurrences_append_of_notMem (head?_of_mem_tagWords hword), ih,
        occurrences_cons_of_isApart hword hc]
      rw [List.mem_cons, not_or]
      exact ⟨by decide, hnone⟩

/-- **A string keeps its tags.** -/
theorem occurrencesIn_stringText (s : String) :
    occurrencesIn word (JsonValue.stringText s) = occurrencesIn word s := by
  have hsplit : JsonValue.stringText s =
      "\"" ++ String.ofList (s.toList.flatMap JsonValue.escapeChar) ++ "\"" := by
    rw [← String.toList_inj]
    simp [JsonValue.stringText]
  rw [hsplit, occurrencesIn_trailing hword (by decide),
    occurrencesIn_leading hword (by decide), occurrencesIn, String.toList_ofList]
  exact occurrences_flatMap_escapeChar hword s.toList

end Literals

/-! ## Numbers -/

/-- The characters that numbers are written with. -/
def IsNumeric (cs : List Char) : Prop :=
  ∀ c ∈ cs, c.isDigit = true ∨ c ∈ ['.', '-', '+', 'e']

namespace IsNumeric

theorem append {cs ds : List Char} (hcs : IsNumeric cs) (hds : IsNumeric ds) :
    IsNumeric (cs ++ ds) :=
  List.forall_mem_append.mpr ⟨hcs, hds⟩

theorem cons {c : Char} {cs : List Char} (hc : c.isDigit = true ∨ c ∈ ['.', '-', '+', 'e'])
    (hcs : IsNumeric cs) : IsNumeric (c :: cs) :=
  List.forall_mem_cons.mpr ⟨hc, hcs⟩

theorem of_subset {cs ds : List Char} (h : IsNumeric cs) (hds : ds ⊆ cs) : IsNumeric ds :=
  fun c hc => h c (hds hc)

theorem toDigits (n : Nat) : IsNumeric (Nat.toDigits 10 n) :=
  fun _ hc => .inl (Nat.isDigit_of_mem_toDigits (by decide) (by decide) hc)

theorem replicate_zero (n : Nat) : IsNumeric (List.replicate n '0') := by
  intro c hc
  rw [List.eq_of_mem_replicate hc]
  exact .inl (by decide)

theorem notMem {cs : List Char} (h : IsNumeric cs) : '<' ∉ cs := by
  intro hmem
  rcases h '<' hmem with hdigit | hsign
  · exact absurd hdigit (by decide)
  · exact absurd hsign (by decide)

end IsNumeric

namespace JsonNumber

theorem isNumeric_positional {digits : List Char} (h : IsNumeric digits) (point : Int) :
    IsNumeric (positional digits point) := by
  unfold positional
  split
  · refine IsNumeric.append (.append (h.of_subset (List.take_subset _ _)) (.replicate_zero _)) ?_
    refine IsNumeric.cons (.inr (by decide)) ?_
    split
    · exact IsNumeric.cons (.inl (by decide)) (List.forall_mem_nil _)
    · exact h.of_subset (List.drop_subset _ _)
  · refine IsNumeric.append (.append ?_ (.replicate_zero _)) h
    exact IsNumeric.cons (.inl (by decide)) (.cons (.inr (by decide)) (List.forall_mem_nil _))

theorem isNumeric_scientific {digits : List Char} (h : IsNumeric digits) (exponent : Int) :
    IsNumeric (scientific digits exponent) := by
  unfold scientific
  refine IsNumeric.append (.append (.append (h.of_subset (List.take_subset _ _)) ?_) ?_)
    (.toDigits _)
  · split
    · exact List.forall_mem_nil _
    · exact IsNumeric.cons (.inr (by decide)) (h.of_subset (List.drop_subset _ _))
  · refine IsNumeric.cons (.inr (by decide)) (.cons (.inr ?_) (List.forall_mem_nil _))
    split <;> decide

theorem isNumeric_text (number : JsonNumber) : IsNumeric number.text.toList := by
  cases number with
  | integer value =>
    cases value with
    | ofNat n =>
      change IsNumeric (toString n).toList
      rw [Nat.toString_eq_repr, Nat.toList_repr]
      exact .toDigits n
    | negSucc n =>
      change IsNumeric ("-" ++ toString (n + 1)).toList
      rw [String.toList_append, Nat.toString_eq_repr, Nat.toList_repr]
      exact IsNumeric.cons (.inr (by decide)) (.toDigits _)
  | double value =>
    rw [text, doubleText, String.toList_ofList]
    have hbody : IsNumeric
        (if isPositional (value.shortest.exponent + (Nat.toDigits 10 value.shortest.digits).length - 1)
        then positional (Nat.toDigits 10 value.shortest.digits)
          (value.shortest.exponent + (Nat.toDigits 10 value.shortest.digits).length - 1 + 1)
        else scientific (Nat.toDigits 10 value.shortest.digits)
          (value.shortest.exponent + (Nat.toDigits 10 value.shortest.digits).length - 1)) := by
      split
      · exact isNumeric_positional (.toDigits _) _
      · exact isNumeric_scientific (.toDigits _) _
    split
    · exact IsNumeric.cons (.inr (by decide)) hbody
    · exact hbody

end JsonNumber

/-! ## Values -/

namespace JsonValue

mutual

/-- The strings of a value, and the keys of its objects. -/
def strings : JsonValue → List String
  | .null | .bool _ | .number _ => []
  | .string s => [s]
  | .array items => itemStrings items
  | .object fields => fieldStrings fields

/-- The strings of the items of an array. -/
def itemStrings : List JsonValue → List String
  | [] => []
  | item :: items => item.strings ++ itemStrings items

/-- The keys and strings of the fields of an object. -/
def fieldStrings : List (String × JsonValue) → List String
  | [] => []
  | (key, value) :: fields => key :: value.strings ++ fieldStrings fields

end

mutual

/-- **The tags of a value are those of its strings.** -/
theorem occurrencesIn_text (hword : word ∈ tagWords) :
    (value : JsonValue) → occurrencesIn word value.text = total word value.strings
  | .null => by
    rw [text, strings]
    exact occurrencesIn_fixed hword (by decide)
  | .bool value => by
    rw [text, strings]
    cases value <;> exact occurrencesIn_fixed hword (by decide)
  | .number value => by
    rw [text, strings]
    exact occurrences_eq_zero_of_notMem (head?_of_mem_tagWords hword) value.isNumeric_text.notMem
  | .string s => by
    rw [text, strings, occurrencesIn_stringText hword]
    rfl
  | .array items => by
    rw [text, strings, occurrencesIn_trailing hword (by decide),
      occurrencesIn_leading hword (by decide),
      occurrencesIn_intercalate hword (by decide), total_itemTexts hword items]
  | .object fields => by
    rw [text, strings, occurrencesIn_trailing hword (by decide),
      occurrencesIn_leading hword (by decide),
      occurrencesIn_intercalate hword (by decide), total_fieldTexts hword fields]

theorem total_itemTexts (hword : word ∈ tagWords) :
    (items : List JsonValue) → total word (itemTexts items) = total word (itemStrings items)
  | [] => by rw [itemTexts, itemStrings]
  | item :: items => by
    rw [itemTexts, itemStrings, total_cons, total_append, item.occurrencesIn_text hword,
      total_itemTexts hword items]

theorem total_fieldTexts (hword : word ∈ tagWords) :
    (fields : List (String × JsonValue)) →
      total word (fieldTexts fields) = total word (fieldStrings fields)
  | [] => by rw [fieldTexts, fieldStrings]
  | (key, value) :: fields => by
    rw [fieldTexts, fieldStrings, total_cons, total_append, total_cons,
      occurrencesIn_parted hword (by decide), occurrencesIn_stringText hword,
      value.occurrencesIn_text hword, total_fieldTexts hword fields]

end

end JsonValue

/-! ## Bodies -/

section Bodies

variable (hword : word ∈ tagWords)

include hword

theorem occurrences_dropReturn (line : List Char) :
    occurrences word (Text.dropReturn line) = occurrences word line := by
  unfold Text.dropReturn
  split
  · rename_i hlast
    obtain ⟨front, rfl⟩ := List.getLast?_eq_some_iff.mp hlast
    have hreturn : ∀ c ∈ ['\r'].head?, c.toLower ∉ word.tail := by
      rintro c ⟨⟩ hmem
      exact toLower_notMem_of_isApart hword (c := '\r') (by decide) (List.mem_of_mem_tail hmem)
    rw [List.dropLast_concat, occurrences_append hreturn,
      occurrences_cons_of_isApart hword (by decide)]
    rfl
  · rfl

theorem occurrences_indentLine (width : Nat) (line : List Char) :
    occurrences word (Text.indentLine width line) = occurrences word line := by
  have hhead := head?_of_mem_tagWords hword
  unfold Text.indentLine
  split
  · -- nothing is lost with a blank line
    rename_i hblank
    have hnone : '<' ∉ line := fun hmem =>
      absurd (List.all_eq_true.mp hblank '<' hmem) (by decide)
    rw [occurrences_eq_zero_of_notMem hhead hnone]
    rfl
  · refine occurrences_append_of_notMem hhead fun hmem => ?_
    exact absurd (List.eq_of_mem_replicate hmem) (by decide)

theorem sum_occurrences_endPieces (pieces : List (List Char)) :
    ((Text.endPieces pieces).map (occurrences word)).sum =
      (pieces.map (occurrences word)).sum := by
  fun_induction Text.endPieces pieces with
  | case1 => rfl
  | case2 last hempty =>
    rw [List.isEmpty_iff.mp hempty]
    rfl
  | case3 => rfl
  | case4 piece pieces _ ih =>
    rw [List.map_cons, List.map_cons, List.sum_cons, List.sum_cons, ih,
      occurrences_dropReturn hword]

/-- The tags of a text are those of its lines. -/
theorem sum_occurrences_lines (cs : List Char) :
    ((Text.lines cs).map (occurrences word)).sum = occurrences word cs := by
  have hjoin := occurrencesIn_intercalate hword (by decide : isParting ['\n'] = true)
    ((Text.lines cs).map String.ofList)
  have htext : (String.intercalate "\n" ((Text.lines cs).map String.ofList)).toList = cs := by
    rw [String.toList_intercalate, List.map_map]
    have hid : (Text.lines cs).map (String.toList ∘ String.ofList) = Text.lines cs :=
      (List.map_congr_left fun line _ => String.toList_ofList).trans (List.map_id _)
    rw [hid]
    exact intercalate_splitWhen '\n' cs
  rw [occurrencesIn, htext, total, List.map_map] at hjoin
  rw [hjoin]
  congr 1
  exact List.map_congr_left fun line _ => by simp [occurrencesIn]

/-- **A body keeps its tags** when its lines are moved. -/
theorem occurrencesIn_indent (width : Nat) (text : String) :
    occurrencesIn word (Text.indent width text) = occurrencesIn word text := by
  rw [Text.indent, occurrencesIn_intercalate hword (by decide), total, List.map_map]
  have hlines : (Text.endedLines text.toList).map (occurrencesIn word ∘ fun line =>
      String.ofList (Text.indentLine width line)) =
      (Text.endedLines text.toList).map (occurrences word) := by
    refine List.map_congr_left fun line _ => ?_
    rw [Function.comp_apply, occurrencesIn, String.toList_ofList, occurrences_indentLine hword]
  rw [hlines, Text.endedLines, sum_occurrences_endPieces hword, sum_occurrences_lines hword]
  rfl

end Bodies

end UiLang
