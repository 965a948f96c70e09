import UiLang.Proofs.Seam.Program

/-!
# Where faults are found

A reader that fails does so at a token that it was given, or at the end marker.  So the faults of a
program are located where tokens of its source stand.

## Main definitions

* `Known`: the tokens that are left, and the end marker, have a property
* `Blames`: a reader fails only at tokens with a property

## Main results

* `readCondition_blames`, `readNode_blames`, `readItem_blames`: readers fail at what they were given
* `readItemList_blames`: every fault of a program is at a token or at the end marker
-/

namespace UiLang

open Seam (StartsAttribute readItems_of_nil readItems_of_cons readObjectFields_of_nil
  readObjectFields_of_cons readEntries_of_nil readEntries_of_cons readAttributes_of_not
  readFetchAttributes_of_not readElseChain_of_nil readElseChain_of_cons readNodes_of_nil
  readNodes_of_cons readMoreNames_cons readStatements_of_nil readStatements_of_cons readParams_cons)

/-- The tokens that are left, and the end marker, have the property `P`. -/
structure Known (P : Token → Prop) (stop : Token) (ts : List Token) : Prop where
  stop : P stop
  all : ∀ token ∈ ts, P token

namespace Known

variable {P : Token → Prop} {stop first : Token} {ts us : List Token}

theorem of_suffix (h : Known P stop ts) (hus : us <:+ ts) : Known P stop us :=
  ⟨h.stop, fun token htoken => h.all token (hus.subset htoken)⟩

theorem rest {α : Type} (h : Known P stop ts) (r : Reading α ts) : Known P stop r.rest :=
  h.of_suffix r.suffix

theorem head (h : Known P stop (first :: ts)) : P first :=
  h.all first List.mem_cons_self

theorem tail (h : Known P stop (first :: ts)) : Known P stop ts :=
  h.of_suffix (List.suffix_cons first ts)

theorem skipNewlines (h : Known P stop ts) : Known P stop (skipNewlines ts) :=
  h.of_suffix (skipNewlines_suffix ts)

theorem peek (h : Known P stop ts) : P (peek stop ts) := by
  cases ts with
  | nil => exact h.stop
  | cons first ts => exact h.head

end Known

/-- The reader fails only at tokens with the property `P`. -/
def Blames {α : Type} {ts : List Token} (P : Token → Prop) (outcome : Read α ts) : Prop :=
  ∀ d, outcome = .error d → ∃ fault token, P token ∧ d = .ofToken fault token

section Blames

variable {α β : Type} {P : Token → Prop} {ts us : List Token}

theorem blames_ok (r : Reading α ts) : Blames P (.ok r) :=
  fun _ h => nomatch h

theorem blames_error {token : Token} (h : P token) (fault : Fault) :
    Blames P (.error (.ofToken fault token) : Read α ts) := by
  rintro _ ⟨⟩
  exact ⟨fault, token, h, rfl⟩

/-- Readers one after another. -/
theorem Blames.bind {outcome : Read α ts} (h : Blames P outcome)
    {next : Reading α ts → Read β us} (hnext : ∀ r, Blames P (next r)) :
    Blames P (outcome >>= next) := by
  cases outcome with
  | error d => exact fun d' hd' => h d' (by cases hd'; rfl)
  | ok r => exact hnext r

/-- A reader whose value is only changed. -/
theorem Blames.map {outcome : Read α ts} (h : Blames P outcome) (f : Reading α ts → Reading β us) :
    Blames P (outcome >>= fun r => .ok (f r)) :=
  h.bind fun r => blames_ok (f r)

end Blames

variable {P : Token → Prop} {stop : Token}

/-! ## Tokens and runs of tokens -/

theorem expect_blames (kind : Kind) {ts : List Token} (h : Known P stop ts) :
    Blames P (expect stop kind ts) := by
  cases ts with
  | nil => exact blames_error h.stop _
  | cons token rest =>
    rw [expect]
    split
    · exact blames_ok _
    · exact blames_error h.head _

theorem expectStatementEnd_blames {ts : List Token} (h : Known P stop ts) :
    Blames P (expectStatementEnd stop ts) := by
  unfold expectStatementEnd
  split
  iterate 3 exact blames_ok _
  · exact blames_error h.peek _

theorem bracedTokens_blames (depth : Nat) {ts : List Token} (h : Known P stop ts) :
    Blames P (bracedTokens stop depth ts) := by
  induction ts generalizing depth with
  | nil => exact blames_error h.stop _
  | cons token rest ih =>
    rw [bracedTokens_cons]
    split
    · exact blames_ok _
    · exact (ih _ h.tail).map _

theorem readBraced_blames {ts : List Token} (h : Known P stop ts) :
    Blames P (readBraced stop ts) :=
  (expect_blames _ h).bind fun brace => (bracedTokens_blames 0 (h.rest brace)).map _

theorem parenthesizedTokens_blames (depth : Nat) {ts : List Token} (h : Known P stop ts) :
    Blames P (parenthesizedTokens stop depth ts) := by
  induction ts generalizing depth with
  | nil => exact blames_error h.stop _
  | cons token rest ih =>
    rw [parenthesizedTokens_cons]
    split
    · exact blames_error h.head _
    · split
      · exact blames_ok _
      · exact (ih _ h.tail).map _

/-! ## Conditions -/

theorem readPath_blames {ts : List Token} (h : Known P stop ts) : Blames P (readPath stop ts) :=
  (expect_blames _ h).map _

-- What a reader leaves is a suffix of what it was given, so the readers after it know no other
-- tokens.  The measures are those of the readers.
mutual

theorem readDisjunction_blames {ts : List Token} (h : Known P stop ts) :
    Blames P (readDisjunction stop ts) := by
  rw [readDisjunction]
  exact (readConjunction_blames h).bind fun first =>
    (readDisjunctionAfter_blames first.value (h.rest first)).map _
termination_by 6 * ts.length + 5
decreasing_by
  · omega
  · have := first.length_le
    omega

theorem readDisjunctionAfter_blames (left : Condition) {ts : List Token} (h : Known P stop ts) :
    Blames P (readDisjunctionAfter stop left ts) := by
  match ts, h with
  | [], _ =>
    rw [readDisjunctionAfter]
    exact blames_ok _
  | token :: rest, h =>
    rw [readDisjunctionAfter]
    split
    · exact (readConjunction_blames h.tail).bind fun right =>
        (readDisjunctionAfter_blames _ (h.tail.rest right)).map _
    · exact blames_ok _
termination_by 6 * ts.length
decreasing_by
  · simp only [List.length_cons]
    omega
  · have := right.length_le
    simp only [List.length_cons]
    omega

theorem readConjunction_blames {ts : List Token} (h : Known P stop ts) :
    Blames P (readConjunction stop ts) := by
  rw [readConjunction]
  exact (readNegation_blames h).bind fun first =>
    (readConjunctionAfter_blames first.value (h.rest first)).map _
termination_by 6 * ts.length + 4
decreasing_by
  · omega
  · have := first.length_le
    omega

theorem readConjunctionAfter_blames (left : Condition) {ts : List Token} (h : Known P stop ts) :
    Blames P (readConjunctionAfter stop left ts) := by
  match ts, h with
  | [], _ =>
    rw [readConjunctionAfter]
    exact blames_ok _
  | token :: rest, h =>
    rw [readConjunctionAfter]
    split
    · exact (readNegation_blames h.tail).bind fun right =>
        (readConjunctionAfter_blames _ (h.tail.rest right)).map _
    · exact blames_ok _
termination_by 6 * ts.length
decreasing_by
  · simp only [List.length_cons]
    omega
  · have := right.length_le
    simp only [List.length_cons]
    omega

theorem readNegation_blames {ts : List Token} (h : Known P stop ts) :
    Blames P (readNegation stop ts) := by
  match ts, h with
  | [], h =>
    rw [readNegation]
    exact readComparison_blames h
  | token :: rest, h =>
    rw [readNegation]
    split
    · exact (readNegation_blames h.tail).map _
    · exact readComparison_blames h
termination_by 6 * ts.length + 3

theorem readComparison_blames {ts : List Token} (h : Known P stop ts) :
    Blames P (readComparison stop ts) := by
  rw [readComparison]
  exact (readPrimary_blames h).bind fun left =>
    (readComparisonAfter_blames left.value (h.rest left)).map _
termination_by 6 * ts.length + 2
decreasing_by
  · omega
  · have := left.length_le
    omega

theorem readComparisonAfter_blames (left : Condition) {ts : List Token} (h : Known P stop ts) :
    Blames P (readComparisonAfter stop left ts) := by
  match ts, h with
  | [], _ =>
    rw [readComparisonAfter]
    exact blames_ok _
  | token :: rest, h =>
    rw [readComparisonAfter]
    split
    · exact (readPrimary_blames h.tail).map _
    · exact blames_ok _
termination_by 6 * ts.length

theorem readPrimary_blames {ts : List Token} (h : Known P stop ts) :
    Blames P (readPrimary stop ts) := by
  match ts, h with
  | [], h =>
    rw [readPrimary]
    exact blames_error h.stop _
  | token :: rest, h =>
    rw [readPrimary]
    split
    iterate 2 exact blames_ok _
    · split
      · exact blames_ok _
      · -- a minus sign without a number: the sign is to blame, not what follows it
        exact blames_error h.head _
    iterate 3 exact blames_ok _
    · exact (readDisjunction_blames h.tail).bind fun inner =>
        (expect_blames _ (h.tail.rest inner)).map _
    · exact blames_error h.head _
termination_by 6 * ts.length + 1

end

theorem readCondition_blames {ts : List Token} (h : Known P stop ts) :
    Blames P (readCondition stop ts) :=
  readDisjunction_blames h

/-! ## State values -/

mutual

theorem readStateValue_blames {ts : List Token} (h : Known P stop ts) :
    Blames P (readStateValue stop ts) := by
  match ts, h with
  | [], h =>
    rw [readStateValue]
    exact blames_error h.stop _
  | token :: rest, h =>
    rw [readStateValue]
    split
    · exact blames_ok _
    · split
      · exact blames_ok _
      · exact blames_error h.head _
    iterate 3 exact blames_ok _
    · exact (readItems_blames h.tail).map _
    · exact (readObjectFields_blames ∅ h.tail).map _
    · exact blames_error h.head _
termination_by 2 * ts.length

theorem readItems_blames {ts : List Token} (h : Known P stop ts) :
    Blames P (readItems stop ts) := by
  cases hskip : skipNewlines ts with
  | nil =>
    rw [readItems_of_nil stop hskip]
    exact blames_error h.stop _
  | cons first us =>
    have hfirst : Known P stop (first :: us) := hskip ▸ h.skipNewlines
    rw [readItems_of_cons stop hskip]
    split
    · exact blames_ok _
    · exact (readStateValue_blames hfirst).bind fun item =>
        (readItemsAfter_blames item.value (hfirst.rest item).skipNewlines).map _
termination_by 2 * ts.length + 1
decreasing_by
  · have := hskip ▸ length_skipNewlines_le ts
    omega
  · have := hskip ▸ length_skipNewlines_le ts
    have := item.length_le
    have := length_skipNewlines_le item.rest
    omega

theorem readItemsAfter_blames (first : StateValue) {ts : List Token} (h : Known P stop ts) :
    Blames P (readItemsAfter stop first ts) := by
  match ts, h with
  | [], h =>
    rw [readItemsAfter]
    exact blames_error h.stop _
  | token :: rest, h =>
    rw [readItemsAfter]
    split
    · exact (readItems_blames h.tail).map _
    · exact (expect_blames _ h).map _
termination_by 2 * ts.length

theorem readObjectFields_blames (known : OrderedMap String StateValue) {ts : List Token}
    (h : Known P stop ts) : Blames P (readObjectFields stop known ts) := by
  cases hskip : skipNewlines ts with
  | nil =>
    rw [readObjectFields_of_nil stop known hskip]
    exact blames_error h.stop _
  | cons key us =>
    have hkey : Known P stop (key :: us) := hskip ▸ h.skipNewlines
    rw [readObjectFields_of_cons stop known hskip]
    split
    · exact blames_ok _
    split
    · refine (expect_blames _ hkey.tail).bind fun colon => ?_
      have hcolon := hkey.tail.rest colon
      refine (readStateValue_blames hcolon).bind fun value => ?_
      exact (readObjectFields_blames _ ((hcolon.rest value).rest (eat .comma value.rest))).map _
    · exact blames_error hkey.head _
termination_by 2 * ts.length
decreasing_by
  · have := length_lt_of_skipNewlines hskip
    have := colon.length_le
    omega
  · have := length_lt_of_skipNewlines hskip
    have := colon.length_le
    have := value.length_le
    have := (eat .comma value.rest).length_le
    omega

end

/-! ## Attributes -/

theorem readCallAfter_blames (path : Path) {ts : List Token} (h : Known P stop ts) :
    Blames P (readCallAfter stop path ts) := by
  cases ts with
  | nil => exact blames_ok _
  | cons token rest =>
    rw [readCallAfter]
    split
    · exact (parenthesizedTokens_blames 0 h.tail).map _
    · exact blames_ok _

theorem readAttributeValue_blames (name : String) {ts : List Token} (h : Known P stop ts) :
    Blames P (readAttributeValue stop name ts) := by
  cases ts with
  | nil => exact blames_error h.stop _
  | cons token rest =>
    rw [readAttributeValue]
    split
    iterate 2 exact blames_ok _
    · split
      · exact blames_ok _
      · exact blames_error h.head _
    iterate 2 exact blames_ok _
    · exact (readCallAfter_blames _ (h.tail.rest (readPathAfter token rest))).map _
    · exact blames_error h.head _

theorem readShorthandValue_blames (name : String) {ts : List Token} (h : Known P stop ts) :
    Blames P (readShorthandValue stop name ts) := by
  cases ts with
  | nil => exact blames_error h.stop _
  | cons token rest =>
    rw [readShorthandValue]
    split
    iterate 2 exact blames_ok _
    · split
      · exact blames_ok _
      · exact blames_error h.head _
    · exact blames_error h.head _

theorem readStyleValue_blames (property : String) {ts : List Token} (h : Known P stop ts) :
    Blames P (readStyleValue stop property ts) := by
  unfold readStyleValue
  dsimp only
  split
  · -- the value is empty, so the fault is at the token that ends it
    exact blames_error (h.of_suffix (List.dropWhile_suffix _)).peek _
  · exact blames_ok _

theorem readEntries_blames {ν : Type} {readValue : String → (ts : List Token) → Read ν ts}
    (hvalue : ∀ name ts, Known P stop ts → Blames P (readValue name ts))
    (known : OrderedMap String ν) {ts : List Token} (h : Known P stop ts) :
    Blames P (readEntries stop readValue known ts) := by
  cases hskip : skipNewlines ts with
  | nil =>
    rw [readEntries_of_nil stop readValue known hskip]
    exact blames_error h.stop _
  | cons first us =>
    have hfirst : Known P stop (first :: us) := hskip ▸ h.skipNewlines
    rw [readEntries_of_cons stop readValue known hskip]
    split
    · exact blames_ok _
    split
    · have hname := hfirst.tail.rest (readDashedAfter first.text us)
      refine (expect_blames _ hname).bind fun colon => ?_
      have hcolon := hname.rest colon
      refine (hvalue _ _ hcolon).bind fun value => ?_
      exact (readEntries_blames hvalue _ ((hcolon.rest value).rest (eat .comma value.rest))).map _
    · exact blames_error hfirst.head _
termination_by ts.length
decreasing_by
  have := length_lt_of_skipNewlines hskip
  have := (readDashedAfter first.text us).length_le
  have := colon.length_le
  have := value.length_le
  have := (eat .comma value.rest).length_le
  omega

theorem readStyleBlock_blames {ts : List Token} (h : Known P stop ts) :
    Blames P (readStyleBlock stop ts) :=
  (expect_blames _ h).bind fun brace =>
    (readEntries_blames (fun name _ => readStyleValue_blames name) ∅ (h.rest brace)).map _

theorem readClassMap_blames {ts : List Token} (h : Known P stop ts) :
    Blames P (readClassMap stop ts) :=
  (expect_blames _ h).bind fun brace =>
    (readEntries_blames (fun _ _ => readPath_blames) ∅ (h.rest brace)).map _

theorem readAttribute_blames (key : String) (head : ElementHead) {ts : List Token}
    (h : Known P stop ts) : Blames P (readAttribute stop key head ts) := by
  unfold readAttribute
  split
  · exact (readStyleBlock_blames h).map _
  split
  · exact (readClassMap_blames h).map _
  split
  · exact (readShorthandValue_blames key h).map _
  · exact (readAttributeValue_blames key h).map _

theorem readAttributes_blames (head : ElementHead) {ts : List Token} (h : Known P stop ts) :
    Blames P (readAttributes stop head ts) := by
  by_cases hstarts : StartsAttribute ts
  · obtain ⟨key, assign, us, hts, hboth⟩ := hstarts
    have hus : Known P stop us := (hts ▸ h).tail.tail
    rw [hts, readAttributes, if_pos hboth]
    refine (readAttribute_blames _ head hus).bind fun one => ?_
    exact (readAttributes_blames one.value (hus.rest one)).map _
  · rw [readAttributes_of_not stop head hstarts]
    exact blames_ok _
termination_by ts.length
decreasing_by
  have := one.length_le
  rw [hts, List.length_cons, List.length_cons]
  omega

/-! ## Nodes -/

theorem readElementHead_blames (name : String) {ts : List Token} (h : Known P stop ts) :
    Blames P (readElementHead stop name ts) :=
  (readAttributes_blames _ (h.rest (readElementText ts))).map _

theorem readLoopHead_blames {ts : List Token} (h : Known P stop ts) :
    Blames P (readLoopHead stop ts) := by
  refine (expect_blames _ h).bind fun item => ?_
  dsimp only
  split
  · exact (readPath_blames ((h.rest item).rest (eat _ item.rest))).map _
  · exact blames_error (h.rest item).peek _

mutual

theorem readNode_blames {first : Token} {ts : List Token} (h : Known P stop (first :: ts)) :
    Blames P (readNode stop first ts) := by
  rw [readNode]
  split
  · refine (readElementHead_blames _ h.tail).bind fun head => ?_
    refine (readOptionalBlock_blames (h.tail.rest head)).bind fun children => ?_
    exact (expectStatementEnd_blames ((h.tail.rest head).rest children)).map _
  · refine (readCondition_blames h.tail).bind fun condition => ?_
    have hcondition := h.tail.rest condition.skipNewlines
    refine (readBlock_blames hcondition).bind fun body => ?_
    exact (readElseChain_blames (hcondition.rest body)).map _
  · refine (readLoopHead_blames h.tail).bind fun head => ?_
    exact (readBlock_blames (h.tail.rest head.skipNewlines)).map _
  · exact blames_error h.head _
termination_by 3 * ts.length + 2
decreasing_by
  · have := head.length_le
    omega
  · have := condition.skipNewlines.length_le
    omega
  · have := condition.skipNewlines.length_le
    have := body.length_le
    omega
  · have := head.skipNewlines.length_le
    omega

theorem readElseChain_blames {ts : List Token} (h : Known P stop ts) :
    Blames P (readElseChain stop ts) := by
  cases hskip : skipNewlines ts with
  | nil =>
    rw [readElseChain_of_nil stop hskip]
    exact blames_ok _
  | cons first us =>
    have hus : Known P stop us := (hskip ▸ h.skipNewlines).tail
    rw [readElseChain_of_cons stop hskip]
    split
    · refine (readCondition_blames hus).bind fun condition => ?_
      have hcondition := hus.rest condition.skipNewlines
      refine (readBlock_blames hcondition).bind fun body => ?_
      exact (readElseChain_blames (hcondition.rest body)).map _
    · exact (readBlock_blames hus.skipNewlines).map _
    · exact blames_ok _
termination_by 3 * ts.length + 1
decreasing_by
  · have := length_lt_of_skipNewlines hskip
    have := condition.skipNewlines.length_le
    omega
  · have := length_lt_of_skipNewlines hskip
    have := condition.skipNewlines.length_le
    have := body.length_le
    omega
  · have := length_lt_of_skipNewlines hskip
    have := length_skipNewlines_le us
    omega

theorem readOptionalBlock_blames {ts : List Token} (h : Known P stop ts) :
    Blames P (readOptionalBlock stop ts) := by
  match ts, h with
  | [], _ =>
    rw [readOptionalBlock]
    exact blames_ok _
  | first :: rest, h =>
    rw [readOptionalBlock]
    split
    · exact (readNodes_blames h.tail).map _
    · exact blames_ok _
termination_by 3 * ts.length + 1
decreasing_by
  simp only [List.length_cons]
  omega

theorem readBlock_blames {ts : List Token} (h : Known P stop ts) :
    Blames P (readBlock stop ts) := by
  rw [readBlock]
  exact (expect_blames _ h).bind fun brace => (readNodes_blames (h.rest brace)).map _
termination_by 3 * ts.length + 1
decreasing_by
  have := brace.length_le
  omega

theorem readNodes_blames {ts : List Token} (h : Known P stop ts) :
    Blames P (readNodes stop ts) := by
  cases hskip : skipNewlines ts with
  | nil =>
    rw [readNodes_of_nil stop hskip]
    exact blames_error h.stop _
  | cons first us =>
    have hfirst : Known P stop (first :: us) := hskip ▸ h.skipNewlines
    rw [readNodes_of_cons stop hskip]
    split
    · exact blames_ok _
    · refine (readNode_blames hfirst).bind fun node => ?_
      exact (readNodes_blames (hfirst.tail.rest node)).map _
termination_by 3 * ts.length
decreasing_by
  · have := length_lt_of_skipNewlines hskip
    omega
  · have := length_lt_of_skipNewlines hskip
    have := node.length_le
    omega

end

/-! ## Statements -/

theorem readMoreNames_blames {ts : List Token} (h : Known P stop ts) :
    Blames P (readMoreNames stop ts) := by
  match ts, h with
  | [], _ => exact blames_ok _
  | token :: ts, h =>
    rw [readMoreNames_cons]
    split
    · refine (expect_blames _ h.tail).bind fun name => ?_
      exact (readMoreNames_blames (h.tail.rest name)).map _
    · exact blames_ok _
termination_by ts.length
decreasing_by
  have := name.length_le
  rw [List.length_cons]
  omega

theorem readProps_blames (keyword : Token) {ts : List Token} (h : Known P stop ts) :
    Blames P (readProps stop keyword ts) := by
  refine (expect_blames _ h).bind fun first => ?_
  refine (readMoreNames_blames (h.rest first)).bind fun more => ?_
  exact (expectStatementEnd_blames ((h.rest first).rest more)).map _

theorem readState_blames (keyword : Token) {ts : List Token} (h : Known P stop ts) :
    Blames P (readState stop keyword ts) := by
  refine (expect_blames _ h).bind fun name => ?_
  refine (expect_blames _ (h.rest name)).bind fun assign => ?_
  have hassign := (h.rest name).rest assign
  refine (readStateValue_blames hassign).bind fun value => ?_
  exact (expectStatementEnd_blames (hassign.rest value)).map _

theorem readComputed_blames (keyword : Token) {ts : List Token} (h : Known P stop ts) :
    Blames P (readComputed stop keyword ts) := by
  refine (expect_blames _ h).bind fun name => ?_
  refine (expect_blames _ (h.rest name)).bind fun assign => ?_
  dsimp only
  split
  · exact blames_error (((h.rest name).rest assign).rest (tokensToLineEnd 0 _)).peek _
  · exact blames_ok _

theorem readHook_blames (kind : HookKind) (keyword : Token) {ts : List Token}
    (h : Known P stop ts) : Blames P (readHook stop kind keyword ts) :=
  (readBraced_blames h.skipNewlines).map _

theorem readFetchValue_blames (key : String) {ts : List Token} (h : Known P stop ts) :
    Blames P (readFetchValue stop key ts) := by
  cases ts with
  | nil => exact blames_error h.stop _
  | cons token rest =>
    rw [readFetchValue]
    split
    iterate 2 exact blames_ok _
    · exact blames_error h.head _

theorem readFetchAttributes_blames (fetch : Fetch) {ts : List Token} (h : Known P stop ts) :
    Blames P (readFetchAttributes stop fetch ts) := by
  by_cases hstarts : StartsAttribute ts
  · obtain ⟨key, assign, us, hts, hboth⟩ := hstarts
    have hus : Known P stop us := (hts ▸ h).tail.tail
    rw [hts, readFetchAttributes, if_pos hboth]
    refine (readFetchValue_blames _ hus).bind fun value => ?_
    exact (readFetchAttributes_blames _ (hus.rest value)).map _
  · rw [readFetchAttributes_of_not stop fetch hstarts]
    exact blames_ok _
termination_by ts.length
decreasing_by
  have := value.length_le
  rw [hts, List.length_cons, List.length_cons]
  omega

theorem readFetch_blames (keyword : Token) {ts : List Token} (h : Known P stop ts) :
    Blames P (readFetch stop keyword ts) := by
  refine (readFetchAttributes_blames _ h).bind fun fetch => ?_
  exact (expectStatementEnd_blames (h.rest fetch)).map _

theorem readWatcher_blames (keyword : Token) {ts : List Token} (h : Known P stop ts) :
    Blames P (readWatcher stop keyword ts) :=
  (readPath_blames h).bind fun target => (readBraced_blames (h.rest target.skipNewlines)).map _

theorem readStatement_blames {first : Token} {ts : List Token} (h : Known P stop (first :: ts)) :
    Blames P (readStatement stop first ts) := by
  unfold readStatement
  split
  · exact (readProps_blames first h.tail).map _
  · exact (readState_blames first h.tail).map _
  · exact (readComputed_blames first h.tail).map _
  · exact (readHook_blames .mount first h.tail).map _
  · exact (readHook_blames .update first h.tail).map _
  · exact (readFetch_blames first h.tail).map _
  · exact (readWatcher_blames first h.tail).map _
  · exact (readNode_blames h).map _

theorem readStatements_blames {ts : List Token} (h : Known P stop ts) :
    Blames P (readStatements stop ts) := by
  cases hskip : skipNewlines ts with
  | nil =>
    rw [readStatements_of_nil stop hskip]
    exact blames_error h.stop _
  | cons first us =>
    have hfirst : Known P stop (first :: us) := hskip ▸ h.skipNewlines
    rw [readStatements_of_cons stop hskip]
    split
    · exact blames_ok _
    · refine (readStatement_blames hfirst).bind fun statement => ?_
      exact (readStatements_blames (hfirst.tail.rest statement)).map _
termination_by ts.length
decreasing_by
  have := length_lt_of_skipNewlines hskip
  have := statement.length_le
  omega

/-! ## Items -/

theorem readComponent_blames (keyword : Token) {ts : List Token} (h : Known P stop ts) :
    Blames P (readComponent stop keyword ts) := by
  refine (expect_blames _ h).bind fun name => ?_
  have hname := h.rest name.skipNewlines
  refine (expect_blames _ hname).bind fun brace => ?_
  exact (readStatements_blames (hname.rest brace)).map _

theorem readParams_blames {ts : List Token} (h : Known P stop ts) :
    Blames P (readParams stop ts) := by
  match ts, h with
  | [], h => exact blames_error h.stop _
  | token :: ts, h =>
    rw [readParams_cons]
    split
    · exact blames_ok _
    split
    · split
      · exact (readParams_blames (h.tail.rest (eat .comma ts))).map _
      · exact (expect_blames _ h.tail).map _
    · exact blames_error h.head _
termination_by ts.length
decreasing_by
  have := (eat .comma ts).length_le
  rw [List.length_cons]
  omega

theorem readFunction_blames (isAsync : Bool) (keyword : Token) {ts : List Token}
    (h : Known P stop ts) : Blames P (readFunction stop isAsync keyword ts) := by
  refine (expect_blames _ h).bind fun name => ?_
  refine (expect_blames _ (h.rest name)).bind fun paren => ?_
  have hparen := (h.rest name).rest paren
  refine (readParams_blames hparen).bind fun params => ?_
  exact (readBraced_blames (hparen.rest params).skipNewlines).map _

theorem readDeclaration_blames {first : Token} {ts : List Token}
    (h : Known P stop (first :: ts)) : Blames P (readDeclaration stop first ts) := by
  unfold readDeclaration
  split
  · exact (readComponent_blames first h.tail).map _
  · exact (readFunction_blames false first h.tail).map _
  · refine (expect_blames _ h.tail).bind fun keyword => ?_
    exact (readFunction_blames true keyword.value (h.tail.rest keyword)).map _
  · exact blames_error h.head _

theorem readClosingIf_blames (opened : Bool) {ts : List Token} (h : Known P stop ts) :
    Blames P (readClosingIf stop opened ts) := by
  unfold readClosingIf
  split
  · exact (expect_blames _ h).map _
  · exact blames_ok _

theorem readImport_blames (keyword : Token) {ts : List Token} (h : Known P stop ts) :
    Blames P (readImport stop keyword ts) := by
  have hnames := (h.rest (eat (.opening .brace) ts)).rest (readSpecifiers _)
  refine (readClosingIf_blames _ hnames).bind fun closed => ?_
  refine (expect_blames _ (hnames.rest closed)).bind fun word => ?_
  have hword := (hnames.rest closed).rest word
  refine (expect_blames _ hword).bind fun source => ?_
  exact (expectStatementEnd_blames (hword.rest source)).map _

theorem readItem_blames {first : Token} {ts : List Token} (h : Known P stop (first :: ts)) :
    Blames P (readItem stop first ts) := by
  unfold readItem
  split
  · exact (readImport_blames first h.tail).map _
  · cases ts with
    | nil => exact blames_error h.stop _
    | cons next rest => exact (readDeclaration_blames h.tail).map _
  iterate 3 exact (readDeclaration_blames h).map _
  · exact blames_error h.head _

/-- **Every fault is at a token or at the end marker.** -/
theorem readItemList_blames {ts : List Token} (h : Known P stop ts) :
    ∀ d ∈ (readItemList stop ts).faults, ∃ fault token, P token ∧ d = .ofToken fault token := by
  cases hskip : skipNewlines ts with
  | nil =>
    rw [readItemList_of_nil stop hskip]
    exact List.forall_mem_nil _
  | cons first us =>
    have hfirst : Known P stop (first :: us) := hskip ▸ h.skipNewlines
    cases hread : readItem stop first us with
    | ok item =>
      rw [readItemList_of_ok stop hskip hread]
      exact readItemList_blames (hfirst.tail.rest item)
    | error fault =>
      rw [readItemList_of_error stop hskip hread]
      -- the item is skipped from its first token on, which leaves a suffix again
      refine List.forall_mem_cons.mpr ⟨readItem_blames hfirst fault hread, ?_⟩
      exact readItemList_blames (hfirst.tail.of_suffix (skipItem_suffix stop 0 first us))
termination_by ts.length
decreasing_by
  · exact Nat.lt_of_le_of_lt (skipItem_suffix stop 0 first us).length_le
      (length_lt_of_skipNewlines hskip)
  · exact Nat.lt_of_le_of_lt item.length_le (length_lt_of_skipNewlines hskip)

end UiLang
