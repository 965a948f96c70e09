import UiLang.Proofs.Json.Numerals
import UiLang.Proofs.Script.StateRecord
import UiLang.Proofs.Source.Names

/-!
# Numbers in state values

The numbers of a state value are numerals of its source, at any depth.  A value becomes a JSON value
position by position, so each numeral stays a number exactly if JSON has one for it: if no
superfluous zero stands in front and it is in the range of doubles.  Any other numeral becomes a
string, and only at the top level of a record in the script the text itself is written.

## Main definitions

* `StateValue.inside?`, `JsonValue.inside?`: the value at a position
* `StateValue.IsNumeric`: all numbers inside are numerals

## Main results

* `StateValue.inside?_toJson`: a value becomes a JSON value position by position
* `numericProgram`: the numbers of state values are numerals
* `parseSource_number_stays_iff`: which of them stay numbers
-/

namespace UiLang

open Seam (readItems_of_nil readItems_of_cons readObjectFields_of_nil readObjectFields_of_cons)

/-! ## Positions -/

namespace StateValue

/-- The items of an array or the values of an object, in order. -/
def children : StateValue → List StateValue
  | .array items => items
  | .object fields => fields.map (·.2)
  | _ => []

/-- The value at a position: the numbers of the children to go down to. -/
def inside? (value : StateValue) : List Nat → Option StateValue
  | [] => some value
  | i :: path => value.children[i]?.bind (inside? · path)

/-- The text of a number. -/
def number? : StateValue → Option String
  | .number text => some text
  | _ => none

theorem eq_of_number? {value : StateValue} {text : String} (h : value.number? = some text) :
    value = .number text := by
  cases value with
  | number written => exact congrArg StateValue.number (Option.some.inj h)
  | _ => cases h

theorem inside?_of_number? {value : StateValue} {path : List Nat} {text : String}
    (h : (value.inside? path).bind number? = some text) :
    value.inside? path = some (.number text) := by
  obtain ⟨found, hfound, htext⟩ := Option.bind_eq_some_iff.mp h
  rw [hfound, eq_of_number? htext]

end StateValue

namespace JsonValue

/-- The items of an array or the values of an object, in order. -/
def children : JsonValue → List JsonValue
  | .array items => items
  | .object fields => fields.map (·.2)
  | _ => []

/-- The value at a position: the numbers of the children to go down to. -/
def inside? (value : JsonValue) : List Nat → Option JsonValue
  | [] => some value
  | i :: path => value.children[i]?.bind (inside? · path)

end JsonValue

namespace StateValue

theorem itemsToJson_eq_map (items : List StateValue) : itemsToJson items = items.map toJson := by
  induction items with
  | nil => rfl
  | cons item items ih => rw [itemsToJson, ih, List.map_cons]

theorem values_fieldsToJson (fields : List (String × StateValue)) :
    (fieldsToJson fields).map (·.2) = (fields.map (·.2)).map toJson := by
  induction fields with
  | nil => rfl
  | cons field fields ih =>
    obtain ⟨key, value⟩ := field
    rw [fieldsToJson, List.map_cons, ih, List.map_cons, List.map_cons]

theorem children_toJson (value : StateValue) :
    value.toJson.children = value.children.map toJson := by
  cases value with
  | number text =>
    rw [toJson]
    split
    · rfl
    · rfl
  | array items => exact itemsToJson_eq_map items
  | object fields => exact values_fieldsToJson fields
  | _ => rfl

/-- **A state value becomes a JSON value position by position.** -/
theorem inside?_toJson (value : StateValue) (path : List Nat) :
    value.toJson.inside? path = (value.inside? path).map toJson := by
  induction path generalizing value with
  | nil => rfl
  | cons i path ih =>
    rw [JsonValue.inside?, inside?, children_toJson, List.getElem?_map]
    cases value.children[i]? with
    | none => rfl
    | some child => exact ih child

end StateValue

/-! ## Numerals of a source -/

/-- Number tokens are numerals without a sign. -/
def HasNumerals (ts : List Token) : Prop :=
  ∀ token ∈ ts, token.kind = .number → ∃ n : Numeral, n.negative = false ∧ n.text = token.text

theorem HasNumerals.of_suffix {ts us : List Token} (h : HasNumerals ts) (hus : us <:+ ts) :
    HasNumerals us :=
  fun token htoken => h token (hus.subset htoken)

theorem wordKind_ne_number (word : String) : wordKind word ≠ .number := by
  unfold wordKind
  split <;> simp

theorem Spells.exists_numeral {text : String} {lexeme : List Char}
    (h : Spells .number text lexeme) : ∃ n : Numeral, n.negative = false ∧ n.text = text := by
  generalize hkind : Kind.number = kind at h
  cases h with
  | integer _ some_digit all_digits =>
    refine ⟨⟨false, lexeme, [], some_digit, List.all_eq_true.mp all_digits,
      List.forall_mem_nil _⟩, rfl, ?_⟩
    simp [Numeral.text, Numeral.chars, Numeral.sign, Numeral.fraction]
  | fraction digits places some_digit some_place all_digits all_places =>
    refine ⟨⟨false, digits, places, some_digit, List.all_eq_true.mp all_digits,
      List.all_eq_true.mp all_places⟩, rfl, ?_⟩
    simp [Numeral.text, Numeral.chars, Numeral.sign, Numeral.fraction, some_place]
  | word letters identifier => exact absurd hkind.symm (wordKind_ne_number _)
  | symbol mark listed =>
    have all : ∀ form ∈ symbolForms, form.1 ≠ .number := by decide
    exact absurd hkind.symm (all _ listed)
  | _ => cases hkind

theorem scan_hasNumerals (source : String) : HasNumerals (scan source).stream.tokens := by
  intro token htoken hkind
  rcases (account_scanFrom [] source.toList).spells token htoken with hstring | ⟨lexeme, hspells⟩
  · rw [hkind] at hstring
    cases hstring
  · rw [hkind] at hspells
    exact hspells.exists_numeral

/-- A numeral without a sign is one with a minus sign in front, too. -/
theorem Numeral.exists_negated {n : Numeral} (h : n.negative = false) :
    ∃ m : Numeral, m.text = "-" ++ n.text := by
  refine ⟨⟨true, n.whole, n.places, n.whole_ne_nil, n.whole_digits, n.places_digits⟩, ?_⟩
  have hsign : n.sign = [] := by
    rw [sign, h]
    rfl
  rw [text, text, chars, chars, hsign, List.nil_append, String.ofList_append]
  rfl

/-- All numbers inside the value are numerals. -/
def StateValue.IsNumeric (value : StateValue) : Prop :=
  ∀ path text, value.inside? path = some (.number text) → ∃ n : Numeral, n.text = text

section Readers

variable {stop : Token}

theorem isNumeric_number {text : String} (h : ∃ n : Numeral, n.text = text) :
    (StateValue.number text).IsNumeric := by
  intro path written hinside
  cases path with
  | nil => exact StateValue.number.inj (Option.some.inj hinside) ▸ h
  | cons i path => cases hinside

/-- A value that is no number is numeric if its children are. -/
theorem isNumeric_of_children {value : StateValue} (hnone : value.number? = none)
    (h : ∀ child ∈ value.children, child.IsNumeric) : value.IsNumeric := by
  intro path text hinside
  cases path with
  | nil =>
    -- the value itself would be the number
    rw [Option.some.inj hinside] at hnone
    cases hnone
  | cons i path =>
    obtain ⟨child, hchild, hinside⟩ := Option.bind_eq_some_iff.mp hinside
    exact h child (List.mem_of_getElem? hchild) path text hinside

theorem readNegated?_numeral {ts : List Token} (h : HasNumerals ts) {number : Reading String ts}
    (hread : readNegated? ts = some number) : ∃ n : Numeral, n.text = number.value := by
  cases ts with
  | nil => cases hread
  | cons token rest =>
    rw [readNegated?] at hread
    split at hread
    · rename_i hkind
      obtain ⟨n, hsign, htext⟩ := h token List.mem_cons_self hkind
      cases hread
      exact htext ▸ Numeral.exists_negated hsign
    · cases hread

-- Each reader of the group is on a suffix of the tokens, so their numbers are numerals still.
mutual

theorem readStateValue_isNumeric {ts : List Token} (h : HasNumerals ts) :
    Ensures StateValue.IsNumeric (readStateValue stop ts) := by
  match ts, h with
  | [], h =>
    rw [readStateValue]
    exact ensures_error _
  | token :: rest, h =>
    have hrest := h.of_suffix (List.suffix_cons token rest)
    rw [readStateValue]
    split
    · rename_i hkind
      obtain ⟨n, -, htext⟩ := h token List.mem_cons_self hkind
      exact ensures_ok (isNumeric_number ⟨n, htext⟩)
    · split
      · rename_i number hnumber
        exact ensures_ok (isNumeric_number (readNegated?_numeral hrest hnumber))
      · exact ensures_error _
    iterate 3 exact ensures_ok (isNumeric_of_children rfl (List.forall_mem_nil _))
    · refine ensures_bind fun items hitems => ensures_ok ?_
      exact isNumeric_of_children rfl (readItems_isNumeric hrest items hitems)
    · refine ensures_bind fun fields hfields => ensures_ok ?_
      refine isNumeric_of_children rfl (List.forall_mem_map.mpr ?_)
      exact readObjectFields_isNumeric (List.forall_mem_nil _) hrest fields hfields
    · exact ensures_error _
termination_by 2 * ts.length

theorem readItems_isNumeric {ts : List Token} (h : HasNumerals ts) :
    Ensures (fun items => ∀ item ∈ items, item.IsNumeric) (readItems stop ts) := by
  cases hskip : skipNewlines ts with
  | nil =>
    rw [readItems_of_nil stop hskip]
    exact ensures_error _
  | cons first us =>
    have hfirst : HasNumerals (first :: us) := h.of_suffix (hskip ▸ skipNewlines_suffix ts)
    rw [readItems_of_cons stop hskip]
    split
    · exact ensures_ok (List.forall_mem_nil _)
    · refine ensures_bind fun item hitem => ensures_bind fun items hitems => ensures_ok ?_
      exact readItemsAfter_isNumeric (readStateValue_isNumeric hfirst item hitem)
        (hfirst.of_suffix ((skipNewlines_suffix _).trans item.suffix)) items hitems
termination_by 2 * ts.length + 1
decreasing_by
  · have := hskip ▸ length_skipNewlines_le ts
    omega
  · have := hskip ▸ length_skipNewlines_le ts
    have := item.length_le
    have := length_skipNewlines_le item.rest
    omega

theorem readItemsAfter_isNumeric {first : StateValue} (hfirst : first.IsNumeric)
    {ts : List Token} (h : HasNumerals ts) :
    Ensures (fun items => ∀ item ∈ items, item.IsNumeric) (readItemsAfter stop first ts) := by
  match ts, h with
  | [], h =>
    rw [readItemsAfter]
    exact ensures_error _
  | token :: rest, h =>
    rw [readItemsAfter]
    split
    · refine ensures_bind fun items hitems => ensures_ok ?_
      exact List.forall_mem_cons.mpr
        ⟨hfirst, readItems_isNumeric (h.of_suffix (List.suffix_cons token rest)) items hitems⟩
    · exact ensures_bind fun _ _ => ensures_ok (List.forall_mem_singleton.mpr hfirst)
termination_by 2 * ts.length

theorem readObjectFields_isNumeric {known : OrderedMap String StateValue}
    (hknown : ∀ entry ∈ known.entries, entry.2.IsNumeric) {ts : List Token} (h : HasNumerals ts) :
    Ensures (fun fields => ∀ entry ∈ fields.entries, entry.2.IsNumeric)
      (readObjectFields stop known ts) := by
  cases hskip : skipNewlines ts with
  | nil =>
    rw [readObjectFields_of_nil stop known hskip]
    exact ensures_error _
  | cons key us =>
    have hus : HasNumerals us :=
      h.of_suffix ((List.suffix_cons key us).trans (hskip ▸ skipNewlines_suffix ts))
    rw [readObjectFields_of_cons stop known hskip]
    split
    · exact ensures_ok hknown
    split
    · refine ensures_bind fun colon _ => ensures_bind fun value hvalue =>
        ensures_bind fun fields hfields => ensures_ok ?_
      have hone := readStateValue_isNumeric (hus.of_suffix colon.suffix) value hvalue
      have hcomma := ((eat .comma value.rest).suffix.trans value.suffix).trans colon.suffix
      exact readObjectFields_isNumeric (OrderedMap.forall_insert hone hknown key.text)
        (hus.of_suffix hcomma) fields hfields
    · exact ensures_error _
termination_by 2 * ts.length
decreasing_by
  · have := length_lt_of_skipNewlines hskip
    have := colon.length_le
    omega
  · have := length_lt_of_skipNewlines hskip
    have := colon.length_le
    have := value.length_le
    have := (eat .comma value.rest).length_le
    omega

end

/-- **The numbers of the state values of a program are numerals.** -/
theorem numericProgram : ProgramLaw HasNumerals (fun _ => True)
    (fun statement => ∀ declared, statement = .state declared → declared.value.IsNumeric)
    fun _ => True where
  suffix := HasNumerals.of_suffix
  name _ _ _ _ _ := trivial
  statement stop first ts hfirst := by
    have h := hfirst.of_suffix (List.suffix_cons first ts)
    unfold readStatement
    split
    · exact ensures_bind fun _ _ => ensures_ok fun _ habs => nomatch habs
    · refine ensures_bind fun state hstate => ensures_ok ?_
      rintro _ ⟨⟩
      have hread : Ensures (fun declared => declared.value.IsNumeric)
          (readState stop first ts) := by
        refine ensures_bind fun name _ => ensures_bind fun assign _ =>
          ensures_bind fun value hvalue => ensures_bind fun close _ => ensures_ok ?_
        exact readStateValue_isNumeric (h.of_suffix (name.andThen assign).suffix) value hvalue
      exact hread state hstate
    iterate 6 exact ensures_bind fun _ _ => ensures_ok fun _ habs => nomatch habs
  function _ _ _ _ _ _ _ := trivial

end Readers

theorem parseSource_isNumeric {source : String} {state : StateDeclaration}
    (h : state ∈ (parseSource source).program.states) : state.value.IsNumeric := by
  obtain ⟨component, hcomponent, hstate⟩ := List.mem_flatMap.mp h
  obtain ⟨statement, hstatement, hsome⟩ := List.mem_filterMap.mp hstate
  have hlaw := numericProgram.ofComponent (scan_hasNumerals source) hcomponent
  refine hlaw.2 statement hstatement state ?_
  split at hsome
  · exact congrArg Statement.state (Option.some.inj hsome)
  · cases hsome

/-! ## What numerals become -/

theorem OrderedMap.get?_mapValues {κ ν μ : Type} [DecidableEq κ] (f : ν → μ)
    (m : OrderedMap κ ν) (key : κ) : (m.mapValues f).get? key = (m.get? key).map f := by
  rw [OrderedMap.get?, OrderedMap.get?, OrderedMap.mapValues, List.find?_map, Option.map_map,
    Option.map_map]
  rfl

namespace Program

variable (program : Program) (name : String)

theorem get?_initialValues : program.initialValues.get? name = program.lastDeclared? name :=
  OrderedMap.get?_ofList _ _

theorem get?_ofProgram : (Store.ofProgram program).get? name =
    (program.lastDeclared? name).map StateValue.toJson := by
  rw [Store.get?, values_ofProgram, OrderedMap.get?_mapValues, get?_initialValues]

theorem get?_stateRecord : program.stateRecord.get? name =
    (program.lastDeclared? name).map StateValue.script := by
  rw [stateRecord_eq_mapValues, OrderedMap.get?_mapValues, get?_initialValues]

end Program

namespace Numeral

variable (n : Numeral)

/-- A numeral that fits becomes a number, any other one a string. -/
theorem toJson_number :
    (n.FitsJson ∧ ∃ number : JsonNumber, (StateValue.number n.text).toJson = .number number) ∨
    ¬ n.FitsJson ∧ (StateValue.number n.text).toJson = .string n.text := by
  have hread := n.isSome_ofText?_iff
  rw [StateValue.toJson]
  cases hnumber : JsonNumber.ofText? n.text with
  | none =>
    rw [hnumber] at hread
    exact .inr ⟨fun hfits => Bool.false_ne_true (hread.mpr hfits), rfl⟩
  | some number =>
    rw [hnumber] at hread
    exact .inl ⟨hread.mp rfl, number, rfl⟩

theorem toJson_eq_integer_iff {k : Int} :
    (StateValue.number n.text).toJson = .number (.integer k) ↔ n.IsTrimmed ∧ n.IsInteger k := by
  rw [← ofText?_eq_integer_iff, StateValue.toJson]
  cases JsonNumber.ofText? n.text with
  | none => simp
  | some number => simp

end Numeral

/-- **Which numbers stay numbers.**  Let a number stand in a state value of a program, at any
depth.  Its text is a numeral.  In the JSON value a number stands at the same position exactly if
JSON has one for the numeral: if it has no superfluous zero in front and is in the range of doubles.
It is an integer exactly if an integer of 64 bits is written, and then it is this one.  Otherwise
the text stands there as a string.  The host holds this JSON value, if no later declaration has the
same name.  The record in the script holds the JSON text of it, but for a value that is a number as
a whole: there the text itself is written. -/
theorem parseSource_number_stays_iff (source : String) (state : StateDeclaration)
    (hstate : state ∈ (parseSource source).program.states) (path : List Nat) (text : String)
    (hnumber : state.value.inside? path = some (.number text)) :
    (∃ n : Numeral, n.text = text) ∧
    (∀ n : Numeral, n.text = text →
      ((∃ number : JsonNumber, state.value.toJson.inside? path = some (.number number)) ↔
        n.FitsJson) ∧
      (∀ k : Int, state.value.toJson.inside? path = some (.number (.integer k)) ↔
        n.IsTrimmed ∧ n.IsInteger k) ∧
      (state.value.toJson.inside? path = some (.string text) ↔ ¬ n.FitsJson)) ∧
    ((parseSource source).program.lastDeclared? state.name = some state.value →
      (Store.ofProgram (parseSource source).program).get? state.name = some state.value.toJson ∧
      (parseSource source).program.stateRecord.get? state.name =
        some (if path = [] then text else state.value.toJson.text)) := by
  refine ⟨parseSource_isNumeric hstate path text hnumber, ?_, ?_⟩
  · rintro n rfl
    rw [StateValue.inside?_toJson, hnumber, Option.map_some]
    have hinteger (k : Int) : some (StateValue.number n.text).toJson =
        some (.number (.integer k)) ↔ n.IsTrimmed ∧ n.IsInteger k :=
      Option.some_inj.trans n.toJson_eq_integer_iff
    rcases n.toJson_number with ⟨hfits, number, heq⟩ | ⟨hfits, heq⟩
    · refine ⟨iff_of_true ⟨number, congrArg some heq⟩ hfits, hinteger, ?_⟩
      rw [heq]
      exact iff_of_false (fun habs => nomatch habs) (not_not.mpr hfits)
    · refine ⟨iff_of_false ?_ hfits, hinteger, iff_of_true (congrArg some heq) hfits⟩
      rintro ⟨number, habs⟩
      rw [heq] at habs
      cases habs
  · intro hlast
    rw [Program.get?_ofProgram, Program.get?_stateRecord, hlast]
    refine ⟨rfl, congrArg some ?_⟩
    cases path with
    | nil =>
      rw [if_pos rfl, Option.some.inj hnumber]
      rfl
    | cons i path =>
      rw [if_neg (List.cons_ne_nil i path)]
      cases hvalue : state.value with
      | number written =>
        -- a number has nothing inside
        rw [hvalue] at hnumber
        cases hnumber
      | _ => rfl

/-- Three numbers inside an object.  The first one is an integer, the second one has a fraction, and
the third one has zeros in front. -/
theorem parseSource_numbers_of_array :
    let source := "component C \x7b\nstate a = \x7bk: [-12, 1.50, 007]\x7d\n\x7d"
    ∃ state, (parseSource source).program.states = [state] ∧
      state.value.inside? [0, 0] = some (.number "-12") ∧
      state.value.toJson.inside? [0, 0] = some (.number (.integer (-12))) ∧
      state.value.inside? [0, 1] = some (.number "1.50") ∧
      (∃ number : JsonNumber, state.value.toJson.inside? [0, 1] = some (.number number)) ∧
      state.value.inside? [0, 2] = some (.number "007") ∧
      state.value.toJson.inside? [0, 2] = some (.string "007") ∧
      (Store.ofProgram (parseSource source).program).get? state.name =
        some state.value.toJson := by
  intro source
  have hstates : (parseSource source).program.states.map
      (fun state => ((state.value.inside? [0, 0]).bind StateValue.number?,
        (state.value.inside? [0, 1]).bind StateValue.number?,
        (state.value.inside? [0, 2]).bind StateValue.number?)) =
      [(some "-12", some "1.50", some "007")] := by decide +kernel
  obtain ⟨state, hstate, hnumbers⟩ := List.map_eq_singleton_iff.mp hstates
  obtain ⟨htwelve, hrest⟩ := Prod.mk.inj hnumbers
  obtain ⟨hhalf, hseven⟩ := Prod.mk.inj hrest
  have hmem : state ∈ (parseSource source).program.states := hstate ▸ List.mem_singleton_self state
  have hlast : (parseSource source).program.lastDeclared? state.name = some state.value := by
    rw [Program.lastDeclared?, hstate]
    simp [lastValue?]
  let twelve : Numeral :=
    ⟨true, ['1', '2'], [], by simp, List.all_eq_true.mp rfl, List.forall_mem_nil _⟩
  let half : Numeral :=
    ⟨false, ['1'], ['5', '0'], by simp, List.all_eq_true.mp rfl, List.all_eq_true.mp rfl⟩
  let seven : Numeral :=
    ⟨false, ['0', '0', '7'], [], by simp, List.all_eq_true.mp rfl, List.forall_mem_nil _⟩
  have hinteger : twelve.IsInteger (-12) :=
    ⟨rfl, (twelve.cast_eq_value_iff rfl).mpr rfl, by decide, by decide, by decide⟩
  have hfits : half.FitsJson := by
    refine ⟨by decide, lt_trans ?_ Double.pow_lt_limit⟩
    show (digitsValue ['1'] : ℚ) + digitsValue ['5', '0'] / 10 ^ 2 < 2 ^ 64
    rw [show digitsValue ['1'] = 1 from rfl, show digitsValue ['5', '0'] = 50 from rfl]
    norm_num
  have hzeros : ¬ seven.FitsJson := fun habs => absurd habs.1 (by decide)
  obtain ⟨-, hfirst, -⟩ := parseSource_number_stays_iff source state hmem [0, 0] "-12"
    (StateValue.inside?_of_number? htwelve)
  obtain ⟨-, hsecond, -⟩ := parseSource_number_stays_iff source state hmem [0, 1] "1.50"
    (StateValue.inside?_of_number? hhalf)
  obtain ⟨-, hthird, hrecords⟩ := parseSource_number_stays_iff source state hmem [0, 2] "007"
    (StateValue.inside?_of_number? hseven)
  exact ⟨state, hstate,
    StateValue.inside?_of_number? htwelve,
    ((hfirst twelve rfl).2.1 (-12)).mpr ⟨by decide, hinteger⟩,
    StateValue.inside?_of_number? hhalf, (hsecond half rfl).1.mpr hfits,
    StateValue.inside?_of_number? hseven, (hthird seven rfl).2.2.mpr hzeros,
    (hrecords hlast).1⟩

/-- A number with a zero in front becomes a string, though it is in range. -/
theorem number_with_leading_zero :
    ¬ ∀ source : String, ∀ state ∈ (parseSource source).program.states, ∀ (path : List Nat)
      (n : Numeral), state.value.inside? path = some (.number n.text) →
        n.magnitude < Double.limit →
          ∃ number : JsonNumber, state.value.toJson.inside? path = some (.number number) := by
  intro h
  have hstates : (parseSource "component C \x7b\nstate a = [007]\n\x7d").program.states.map
      (fun state => (state.value.inside? [0]).bind StateValue.number?) = [some "007"] := by
    decide +kernel
  obtain ⟨state, hstate, hnumber⟩ := List.map_eq_singleton_iff.mp hstates
  let seven : Numeral :=
    ⟨false, ['0', '0', '7'], [], by simp, List.all_eq_true.mp rfl, List.forall_mem_nil _⟩
  have hinside : state.value.inside? [0] = some (.number seven.text) :=
    StateValue.inside?_of_number? hnumber
  have hrange : seven.magnitude < Double.limit := by
    refine lt_trans ?_ Double.pow_lt_limit
    show (digitsValue ['0', '0', '7'] : ℚ) + digitsValue [] / 10 ^ 0 < 2 ^ 64
    rw [show digitsValue ['0', '0', '7'] = 7 from rfl, show digitsValue [] = 0 from rfl]
    norm_num
  obtain ⟨number, habs⟩ :=
    h _ state (hstate ▸ List.mem_singleton_self state) [0] seven hinside hrange
  rw [StateValue.inside?_toJson, hinside, Option.map_some] at habs
  rcases seven.toJson_number with ⟨hfits, -⟩ | ⟨-, hstring⟩
  · exact absurd hfits.1 (by decide)
  · rw [hstring] at habs
    cases habs

end UiLang
