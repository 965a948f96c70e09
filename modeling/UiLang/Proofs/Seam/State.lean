import UiLang.Proofs.Seam.Condition

/-!
# State values across a seam

Arrays and objects go over line ends, and an object takes reserved words as keys.  When the first
stream runs out inside one, the second goes on with the word that starts an item; no value starts
with it, and no colon follows it.

## Main results

* `Seam.readStateValue_firm`
-/

namespace UiLang.Seam

variable {S : Seam}

theorem invalidStateValue_moved {α : Type} {f : α → α} {ts ts' : List Token} (t : Token) :
    S.Firm f (invalidStateValue t : Read α ts) (invalidStateValue (S.move.token t) : Read α ts') :=
  .error (S.move.moved_ofToken (.invalidStateValue t.kind t.text) t)

/-- No value starts with a word that only an item starts with. -/
theorem readStateValue_error_of_startsItem (stop first : Token) (ts : List Token)
    (h : startsItem first.kind = true) : ∃ d, readStateValue stop (first :: ts) = .error d := by
  obtain ⟨word, hword⟩ := eq_keyword_of_startsItem h
  rw [readStateValue, hword]
  exact ⟨_, rfl⟩

/-! ## Past the newlines -/

variable {ts us : List Token}

theorem readItems_eq (stop : Token) (h : skipNewlines ts = us) :
    readItems stop ts =
      if (eat (.closing .square) us).value then
        .ok (((eat (.closing .square) us).map fun _ => []).within (h ▸ skipNewlines_suffix ts))
      else readStateValue stop us >>= fun item =>
        readItemsAfter stop item.value (skipNewlines item.rest) >>= fun items =>
          .ok ((item.skipNewlines.andThen items).within (h ▸ skipNewlines_suffix ts)) := by
  subst h
  rw [readItems]
  rfl

theorem readItems_of_nil (stop : Token) (h : skipNewlines ts = []) :
    readItems stop ts = invalidStateValue stop := by
  rw [readItems_eq stop h, readStateValue]
  rfl

/-- The items of an array, from the first token that is not a newline on. -/
theorem readItems_of_cons (stop : Token) {t : Token} (h : skipNewlines ts = t :: us) :
    readItems stop ts =
      if t.kind = .closing .square then
        .ok (((Reading.nothing [] us).cons t).within (h ▸ skipNewlines_suffix ts))
      else readStateValue stop (t :: us) >>= fun item =>
        readItemsAfter stop item.value (skipNewlines item.rest) >>= fun items =>
          .ok ((item.skipNewlines.andThen items).within (h ▸ skipNewlines_suffix ts)) := by
  rw [readItems_eq stop h]
  by_cases hk : t.kind = .closing .square
  · rw [eat_of_eq us hk, if_pos hk]
    rfl
  · rw [eat_of_ne us hk, if_neg hk]
    rfl

theorem readObjectFields_of_nil (stop : Token) (known : OrderedMap String StateValue)
    (h : skipNewlines ts = []) :
    readObjectFields stop known ts = expected .identifier stop := by
  rw [readObjectFields]
  split
  · rfl
  · simp_all

/-- The fields of an object, from the first token that is not a newline on. -/
theorem readObjectFields_of_cons (stop : Token) (known : OrderedMap String StateValue)
    {key : Token} (h : skipNewlines ts = key :: us) :
    readObjectFields stop known ts =
      if key.kind = .closing .brace then
        .ok (((Reading.nothing known us).cons key).within (h ▸ skipNewlines_suffix ts))
      else if key.kind.isWord ∨ key.kind = .string then
        expect stop .colon us >>= fun colon =>
          readStateValue stop colon.rest >>= fun value =>
            readObjectFields stop (known.insert key.text value.value)
              (eat .comma value.rest).rest >>= fun fields =>
              .ok ((((colon.andThen value).andThen ((eat .comma value.rest).andThen fields)).cons
                key).within (h ▸ skipNewlines_suffix ts))
      else expected .identifier key := by
  rw [readObjectFields]
  split
  · simp_all
  · rename_i h'
    obtain ⟨rfl, rfl⟩ := List.cons.inj (h.symm.trans h')
    rfl

/-! ## Values -/

mutual

theorem readStateValue_firm {ts ts' : List Token} (h : S.Sync ts ts') :
    S.Firm id (readStateValue S.stop ts) (readStateValue S.stop' ts') := by
  match ts, h with
  | [], h =>
    cases h.front with
    | shut same nil =>
      rw [readStateValue, readStateValue, same]
      exact invalidStateValue_moved S.stop
    | opened newline more kind eof tail =>
      -- no value at the end of the first stream, and none at the newline of the second
      rw [readStateValue, readStateValue, kind]
      exact firm_of_errors (by simp [tail])
  | t :: ts, h =>
    obtain ⟨ts', rfl, rest⟩ := h.uncons
    rw [readStateValue, readStateValue, Relocation.token_kind]
    split
    · exact .ok rfl rest
    · rcases readNegated?_matched rest with ⟨hnone, hnone'⟩ | ⟨r, r', hr, hr', value, rest⟩
      · rw [hnone, hnone']
        exact invalidStateValue_moved t
      · rw [hr, hr']
        exact .ok (congrArg StateValue.number value) rest
    · exact .ok rfl rest
    · exact .ok rfl rest
    · exact .ok rfl rest
    · exact (readItems_firm rest).bind fun _ _ value rest =>
        .ok (congrArg StateValue.array value) rest
    · refine (readObjectFields_firm ∅ rest).bind fun fields fields' value rest => .ok ?_ rest
      exact congrArg (StateValue.object ·.entries) value
    · exact invalidStateValue_moved t
termination_by 2 * ts.length

theorem readItems_firm {ts ts' : List Token} (h : S.Sync ts ts') :
    S.Firm id (readItems S.stop ts) (readItems S.stop' ts') := by
  obtain ⟨us, us', hus, hus', hle, hskip⟩ := h.skip
  cases hskip with
  | token t us us' kind rest =>
    rw [readItems_of_cons S.stop hus, readItems_of_cons S.stop' hus', Relocation.token_kind]
    split
    · exact .ok rfl rest
    · refine (readStateValue_firm rest.cons).bind fun item item' value rest => ?_
      rw [value]
      exact (readItemsAfter_firm item.value rest.skipped).bind fun _ _ value rest =>
        .ok value rest
  | shut same =>
    rw [readItems_of_nil S.stop hus, readItems_of_nil S.stop' hus', same]
    exact invalidStateValue_moved S.stop
  | opened us' tail eof guard =>
    -- the array is open at the seam, and no item of it starts with the word behind the newlines
    rw [readItems_of_nil S.stop hus]
    refine .ranOut tail fun hguard => ?_
    obtain ⟨first, rest, rfl, hstarts, -⟩ := (guard hguard).starts
    obtain ⟨d, hd⟩ := readStateValue_error_of_startsItem S.stop' first rest hstarts
    rw [readItems_of_cons S.stop' hus', if_neg (ne_of_startsItem hstarts rfl), hd]
    exact ⟨d, rfl⟩
termination_by 2 * ts.length + 1
decreasing_by
  · omega
  · have := item.length_le
    have := length_skipNewlines_le item.rest
    omega

theorem readItemsAfter_firm (first : StateValue) {ts ts' : List Token} (h : S.Skipped ts ts') :
    S.Firm id (readItemsAfter S.stop first ts) (readItemsAfter S.stop' first ts') := by
  match ts, h with
  | [], .shut same =>
    rw [readItemsAfter, readItemsAfter, same]
    exact expected_moved _ _
  | [], .opened ts' tail eof guard =>
    -- the word behind the newlines is neither a comma nor the end of the array
    rw [readItemsAfter]
    refine .ranOut tail fun hguard => ?_
    obtain ⟨next, rest, rfl, hstarts, -⟩ := (guard hguard).starts
    rw [readItemsAfter, if_neg (ne_of_startsItem hstarts rfl), expect,
      if_neg (ne_of_startsItem hstarts rfl)]
    exact ⟨_, rfl⟩
  | t :: ts, .token _ _ ts' kind rest =>
    rw [readItemsAfter, readItemsAfter, Relocation.token_kind]
    split
    · exact (readItems_firm rest).bind fun _ _ value rest =>
        .ok (congrArg (first :: ·) value) rest
    · exact (expect_firm (by simp) rest.cons).bind fun _ _ _ rest => .ok rfl rest
termination_by 2 * ts.length

theorem readObjectFields_firm (known : OrderedMap String StateValue) {ts ts' : List Token}
    (h : S.Sync ts ts') :
    S.Firm id (readObjectFields S.stop known ts) (readObjectFields S.stop' known ts') := by
  obtain ⟨us, us', hus, hus', hle, hskip⟩ := h.skip
  cases hskip with
  | token key us us' kind rest =>
    rw [readObjectFields_of_cons S.stop known hus, readObjectFields_of_cons S.stop' known hus',
      Relocation.token_kind]
    split
    · exact .ok rfl rest
    · split
      · refine (expect_firm (by simp) rest).bind fun colon colon' _ rest => ?_
        refine (readStateValue_firm rest).bind fun value value' hvalue rest => ?_
        rw [hvalue]
        have hcomma : S.Matched id (eat .comma value.rest) (eat .comma value'.rest) :=
          eat_matched (by simp) rest
        exact (readObjectFields_firm _ hcomma.rest).bind fun _ _ value rest => .ok value rest
      · exact expected_moved _ _
  | shut same =>
    rw [readObjectFields_of_nil S.stop known hus, readObjectFields_of_nil S.stop' known hus', same]
    exact expected_moved _ _
  | opened us' tail eof guard =>
    -- the word behind the newlines is a key like any other, but no colon follows it
    rw [readObjectFields_of_nil S.stop known hus]
    refine .ranOut tail fun hguard => ?_
    obtain ⟨first, rest, rfl, hstarts, hnext⟩ := (guard hguard).starts
    obtain ⟨d, hd⟩ := expect_error_of_ne S.stop' fun t ht => (hnext t ht).1
    rw [readObjectFields_of_cons S.stop' known hus', if_neg (ne_of_startsItem hstarts rfl),
      if_pos (.inl (isWord_of_startsItem hstarts)), hd]
    exact ⟨d, rfl⟩
termination_by 2 * ts.length
decreasing_by
  · have := colon.length_le
    rw [List.length_cons] at hle
    omega
  · -- what is left after the comma is a suffix of what followed the key
    have := ((colon.andThen value).andThen (eat .comma value.rest)).length_le
    rw [List.length_cons] at hle
    simp only [Reading.andThen] at this
    omega

end

end UiLang.Seam
