import UiLang.Proofs.Extent.Basic

/-!
# Values up to a closing brace

Paths, conditions, state values and attributes.  A closing brace is no word and starts no value, so
a path ends before it and a condition does too.  Only a block of entries and an object take one.

## Main results

* `Cut.readPath_local`, `Cut.readCondition_local`, `Cut.readStateValue_local`
* `Cut.readEntries_local`: blocks of entries, for any reader of their values
* `Cut.readAttributes_local`
-/

namespace UiLang.Cut

open Seam

variable {C : Cut} {stop stop' : Token} {ts ts' : List Token}

/-! ## Paths -/

theorem readFields_sync (h : C.Sync ts ts') :
    (readFields ts').value = (readFields ts).value ∧
      C.Sync (readFields ts).rest (readFields ts').rest := by
  fun_induction readFields ts generalizing ts' with
  | case1 =>
    obtain ⟨_, _, _, ⟨⟩, -⟩ := h.uncons
  | case2 point =>
    -- the stream ends in a brace, which is not a point
    obtain ⟨_, _, us', ⟨⟩, rfl, hrest⟩ := h.uncons
    rcases hrest with rest | ⟨hbrace, -⟩
    · obtain ⟨_, _, _, ⟨⟩, -⟩ := rest.uncons
    · rw [readFields_of_ne_dot fun t ht => by cases ht; simp [hbrace]]
      exact ⟨rfl, h⟩
  | case3 point field rest hboth ih =>
    obtain ⟨_, _, us', ⟨⟩, rfl, hrest⟩ := h.uncons
    obtain ⟨_, _, us', ⟨⟩, rfl, hafter⟩ := (hrest.sync (by simp [hboth.1])).uncons
    obtain ⟨value, rest⟩ := ih (hafter.sync fun hbrace => by simp [hbrace, Kind.isWord] at hboth)
    rw [readFields, if_pos hboth]
    exact ⟨congrArg (field.text :: ·) value, rest⟩
  | case4 point field rest hboth =>
    obtain ⟨_, _, us', ⟨⟩, rfl, hrest⟩ := h.uncons
    rcases hrest with hrest | ⟨hbrace, -⟩
    · obtain ⟨_, _, us', ⟨⟩, rfl, -⟩ := hrest.uncons
      rw [readFields, if_neg hboth]
      exact ⟨rfl, h⟩
    · rw [readFields_of_ne_dot fun t ht => by cases ht; simp [hbrace]]
      exact ⟨rfl, h⟩

theorem readPathAfter_sync (root : Token) (h : C.Sync ts ts') :
    (readPathAfter root ts').value = (readPathAfter root ts).value ∧
      C.Sync (readPathAfter root ts).rest (readPathAfter root ts').rest := by
  obtain ⟨value, rest⟩ := readFields_sync h
  exact ⟨congrArg (Path.mk root.text) value, rest⟩

theorem readPath_local (h : C.Sync ts ts') :
    C.Local (readPath stop ts) (readPath stop' ts') := by
  refine (expect_local _ h).bind fun root root' hroot rest => ?_
  obtain ⟨value, rest⟩ := readPathAfter_sync root.value rest
  rw [hroot]
  exact .ok value rest

/-- A number after a minus sign stands in both streams or in none. -/
theorem readNegated?_sync (h : C.Sync ts ts') :
    readNegated? ts = none ∨ ∃ r r', readNegated? ts = some r ∧ readNegated? ts' = some r' ∧
      r'.value = r.value ∧ C.Sync r.rest r'.rest := by
  obtain ⟨t, us, us', hts, hts', hrest⟩ := h.uncons
  rw [hts, hts'] at h ⊢
  rw [readNegated?, readNegated?]
  split
  · rename_i hnumber
    exact .inr ⟨_, _, rfl, rfl, rfl, hrest.sync (by simp [*])⟩
  · exact .inl rfl

/-! ## Conditions -/

-- As the readers call each other, so do their lemmas, with the measures of the readers.
mutual

theorem readDisjunction_local {ts ts' : List Token} (h : C.Sync ts ts') :
    C.Local (readDisjunction stop ts) (readDisjunction stop' ts') := by
  rw [readDisjunction, readDisjunction]
  refine (readConjunction_local h).bind fun first first' value rest => ?_
  rw [value]
  exact (readDisjunctionAfter_local first.value rest).bind fun _ _ value rest => .ok value rest
termination_by 6 * ts.length + 5
decreasing_by
  · omega
  · have := first.length_le
    omega

theorem readDisjunctionAfter_local (left : Condition) {ts ts' : List Token} (h : C.Sync ts ts') :
    C.Local (readDisjunctionAfter stop left ts) (readDisjunctionAfter stop' left ts') := by
  obtain ⟨t, us, us', hts, hts', hrest⟩ := h.uncons
  rw [hts, hts'] at h ⊢
  rw [readDisjunctionAfter, readDisjunctionAfter]
  split
  · rename_i hor
    refine (readConjunction_local (hrest.sync (by simp [*]))).bind fun right right' value rest => ?_
    rw [value]
    exact (readDisjunctionAfter_local _ rest).bind fun _ _ value rest => .ok value rest
  · exact .ok rfl h
termination_by 6 * ts.length
decreasing_by
  · rw [hts, List.length_cons]
    omega
  · have := right.length_le
    rw [hts, List.length_cons]
    omega

theorem readConjunction_local {ts ts' : List Token} (h : C.Sync ts ts') :
    C.Local (readConjunction stop ts) (readConjunction stop' ts') := by
  rw [readConjunction, readConjunction]
  refine (readNegation_local h).bind fun first first' value rest => ?_
  rw [value]
  exact (readConjunctionAfter_local first.value rest).bind fun _ _ value rest => .ok value rest
termination_by 6 * ts.length + 4
decreasing_by
  · omega
  · have := first.length_le
    omega

theorem readConjunctionAfter_local (left : Condition) {ts ts' : List Token} (h : C.Sync ts ts') :
    C.Local (readConjunctionAfter stop left ts) (readConjunctionAfter stop' left ts') := by
  obtain ⟨t, us, us', hts, hts', hrest⟩ := h.uncons
  rw [hts, hts'] at h ⊢
  rw [readConjunctionAfter, readConjunctionAfter]
  split
  · rename_i hand
    refine (readNegation_local (hrest.sync (by simp [*]))).bind fun right right' value rest => ?_
    rw [value]
    exact (readConjunctionAfter_local _ rest).bind fun _ _ value rest => .ok value rest
  · exact .ok rfl h
termination_by 6 * ts.length
decreasing_by
  · rw [hts, List.length_cons]
    omega
  · have := right.length_le
    rw [hts, List.length_cons]
    omega

theorem readNegation_local {ts ts' : List Token} (h : C.Sync ts ts') :
    C.Local (readNegation stop ts) (readNegation stop' ts') := by
  obtain ⟨t, us, us', hts, hts', hrest⟩ := h.uncons
  rw [hts, hts'] at h ⊢
  rw [readNegation, readNegation]
  split
  · rename_i hbang
    exact (readNegation_local (hrest.sync (by simp [*]))).bind fun _ _ value rest =>
      .ok (congrArg Condition.not value) rest
  · exact readComparison_local h
termination_by 6 * ts.length + 3

theorem readComparison_local {ts ts' : List Token} (h : C.Sync ts ts') :
    C.Local (readComparison stop ts) (readComparison stop' ts') := by
  rw [readComparison, readComparison]
  refine (readPrimary_local h).bind fun left left' value rest => ?_
  rw [value]
  exact (readComparisonAfter_local left.value rest).bind fun _ _ value rest => .ok value rest
termination_by 6 * ts.length + 2
decreasing_by
  · omega
  · have := left.length_le
    omega

theorem readComparisonAfter_local (left : Condition) {ts ts' : List Token} (h : C.Sync ts ts') :
    C.Local (readComparisonAfter stop left ts) (readComparisonAfter stop' left ts') := by
  obtain ⟨t, us, us', hts, hts', hrest⟩ := h.uncons
  rw [hts, hts'] at h ⊢
  rw [readComparisonAfter, readComparisonAfter]
  split
  · rename_i hop
    exact (readPrimary_local (hrest.sync (by simp [*]))).bind fun _ _ value rest =>
      .ok (congrArg (Condition.compare _ left) value) rest
  · exact .ok rfl h
termination_by 6 * ts.length

theorem readPrimary_local {ts ts' : List Token} (h : C.Sync ts ts') :
    C.Local (readPrimary stop ts) (readPrimary stop' ts') := by
  obtain ⟨t, us, us', hts, hts', hrest⟩ := h.uncons
  rw [hts, hts'] at h ⊢
  rw [readPrimary, readPrimary]
  split
  · rename_i hkind
    obtain ⟨value, rest⟩ := readPathAfter_sync t (hrest.sync (by simp [*]))
    exact .ok (congrArg Condition.path value) rest
  · exact .ok rfl (hrest.sync (by simp [*]))
  · rename_i hkind
    rcases readNegated?_sync (hrest.sync (by simp [*])) with hnone | ⟨r, r', hr, hr', value, rest⟩
    · rw [hnone]
      exact local_error _ _
    · rw [hr, hr']
      exact .ok (congrArg (fun text => Condition.literal (.number text)) value) rest
  · exact .ok rfl (hrest.sync (by simp [*]))
  · exact .ok rfl (hrest.sync (by simp [*]))
  · exact .ok rfl (hrest.sync (by simp [*]))
  · rename_i hkind
    refine (readDisjunction_local (hrest.sync (by simp [*]))).bind fun inner inner' hinner rest =>
      ?_
    exact (expect_local _ rest).bind fun _ _ _ rest => .ok hinner rest
  · exact local_error _ _
termination_by 6 * ts.length + 1

end

theorem readCondition_local (h : C.Sync ts ts') :
    C.Local (readCondition stop ts) (readCondition stop' ts') :=
  readDisjunction_local h

/-! ## State values -/

mutual

theorem readStateValue_local {ts ts' : List Token} (h : C.Sync ts ts') :
    C.Local (readStateValue stop ts) (readStateValue stop' ts') := by
  obtain ⟨t, us, us', hts, hts', hrest⟩ := h.uncons
  rw [hts, hts'] at h ⊢
  rw [readStateValue, readStateValue]
  split
  · exact .ok rfl (hrest.sync (by simp [*]))
  · rename_i hkind
    rcases readNegated?_sync (hrest.sync (by simp [*])) with hnone | ⟨r, r', hr, hr', value, rest⟩
    · rw [hnone]
      exact local_error _ _
    · rw [hr, hr']
      exact .ok (congrArg StateValue.number value) rest
  · exact .ok rfl (hrest.sync (by simp [*]))
  · exact .ok rfl (hrest.sync (by simp [*]))
  · exact .ok rfl (hrest.sync (by simp [*]))
  · exact (readItems_local (hrest.sync (by simp [*]))).bind fun _ _ value rest =>
      .ok (congrArg StateValue.array value) rest
  · refine (readObjectFields_local ∅ (hrest.sync (by simp [*]))).bind
      fun fields fields' value rest => .ok ?_ rest
    exact congrArg (StateValue.object ·.entries) value
  · exact local_error _ _
termination_by 2 * ts.length

theorem readItems_local {ts ts' : List Token} (h : C.Sync ts ts') :
    C.Local (readItems stop ts) (readItems stop' ts') := by
  have hskip := h.skipNewlines
  have hle := length_skipNewlines_le ts
  obtain ⟨t, us, us', hus, hus', hrest⟩ := hskip.uncons
  rw [readItems_of_cons stop hus, readItems_of_cons stop' hus']
  rw [hus, hus'] at hskip
  split
  · exact .ok rfl (hrest.sync (by simp [*]))
  · -- written out, the reading of an item shows that the next one goes on after its newlines
    dsimp only [Reading.andThen, Reading.skipNewlines]
    refine (readStateValue_local hskip).bind fun item item' value rest => ?_
    rw [value]
    exact (readItemsAfter_local item.value rest.skipNewlines).bind fun _ _ value rest =>
      .ok value rest
termination_by 2 * ts.length + 1
decreasing_by
  · rw [hus] at hle
    omega
  · have := item.length_le
    have := length_skipNewlines_le item.rest
    rw [hus] at hle
    omega

theorem readItemsAfter_local (first : StateValue) {ts ts' : List Token} (h : C.Sync ts ts') :
    C.Local (readItemsAfter stop first ts) (readItemsAfter stop' first ts') := by
  obtain ⟨t, us, us', hts, hts', hrest⟩ := h.uncons
  rw [hts, hts'] at h ⊢
  rw [readItemsAfter, readItemsAfter]
  split
  · exact (readItems_local (hrest.sync (by simp [*]))).bind fun _ _ value rest =>
      .ok (congrArg (first :: ·) value) rest
  · exact (expect_local _ h).bind fun _ _ _ rest => .ok rfl rest
termination_by 2 * ts.length

theorem readObjectFields_local (known : OrderedMap String StateValue) {ts ts' : List Token}
    (h : C.Sync ts ts') :
    C.Local (readObjectFields stop known ts) (readObjectFields stop' known ts') := by
  obtain ⟨key, us, us', hus, hus', hrest⟩ := h.skipNewlines.uncons
  rw [readObjectFields_of_cons stop known hus, readObjectFields_of_cons stop' known hus']
  rcases hrest with rest | ⟨hbrace, hafter, -⟩
  · split
    · exact .ok rfl rest
    · split
      · dsimp only [Reading.andThen]
        refine (expect_local _ rest).bind fun colon colon' _ rest => ?_
        refine (readStateValue_local rest).bind fun value value' hvalue rest => ?_
        rw [hvalue]
        obtain ⟨-, rest⟩ := eat_sync .comma nofun rest
        exact (readObjectFields_local _ rest).bind fun _ _ value rest => .ok value rest
      · exact local_error _ _
  · rw [if_pos hbrace, if_pos hbrace]
    exact .late (late_ok (past_of_eq hafter))
termination_by 2 * ts.length
decreasing_by
  · have := length_lt_of_skipNewlines hus
    have := colon.length_le
    omega
  · have := length_lt_of_skipNewlines hus
    have := ((colon.andThen value).andThen (eat .comma value.rest)).length_le
    simp only [Reading.andThen] at this
    omega

end

/-! ## Attributes -/

theorem readCallAfter_local (path : Path) (h : C.Sync ts ts') :
    C.Local (readCallAfter stop path ts) (readCallAfter stop' path ts') := by
  obtain ⟨t, us, us', rfl, rfl, hrest⟩ := h.uncons
  rw [readCallAfter, readCallAfter]
  split
  · refine (parenthesizedTokens_local 0 (hrest.sync (by simp [*]))).bind
      fun inside inside' value rest => .ok ?_ rest
    exact congrArg (fun tokens => AttributeValue.call path (RawText.arguments tokens)) value
  · exact .ok rfl h

theorem readAttributeValue_local (name : String) (h : C.Sync ts ts') :
    C.Local (readAttributeValue stop name ts) (readAttributeValue stop' name ts') := by
  obtain ⟨t, us, us', rfl, rfl, hrest⟩ := h.uncons
  rw [readAttributeValue, readAttributeValue]
  split
  · exact .ok rfl (hrest.sync (by simp [*]))
  · exact .ok rfl (hrest.sync (by simp [*]))
  · rcases readNegated?_sync (hrest.sync (by simp [*])) with hnone | ⟨r, r', hr, hr', value, rest⟩
    · rw [hnone]
      exact local_error _ _
    · rw [hr, hr']
      exact .ok (congrArg AttributeValue.number value) rest
  · exact .ok rfl (hrest.sync (by simp [*]))
  · exact .ok rfl (hrest.sync (by simp [*]))
  · obtain ⟨value, rest⟩ := readPathAfter_sync t (hrest.sync (by simp [*]))
    dsimp only
    rw [value]
    exact (readCallAfter_local _ rest).bind fun _ _ value rest => .ok value rest
  · exact local_error _ _

theorem readShorthandValue_local (name : String) (h : C.Sync ts ts') :
    C.Local (readShorthandValue stop name ts) (readShorthandValue stop' name ts') := by
  obtain ⟨t, us, us', rfl, rfl, hrest⟩ := h.uncons
  rw [readShorthandValue, readShorthandValue]
  split
  · exact .ok rfl (hrest.sync (by simp [*]))
  · exact .ok rfl (hrest.sync (by simp [*]))
  · rcases readNegated?_sync (hrest.sync (by simp [*])) with hnone | ⟨r, r', hr, hr', value, rest⟩
    · rw [hnone]
      exact local_error _ _
    · rw [hr, hr']
      exact .ok value rest
  · exact local_error _ _

theorem readDashedAfter_sync (name : String) (h : C.Sync ts ts') :
    (readDashedAfter name ts').value = (readDashedAfter name ts).value ∧
      C.Sync (readDashedAfter name ts).rest (readDashedAfter name ts').rest := by
  fun_induction readDashedAfter name ts generalizing ts' with
  | case1 name =>
    obtain ⟨_, _, _, ⟨⟩, -⟩ := h.uncons
  | case2 name dash =>
    obtain ⟨_, _, us', ⟨⟩, rfl, hrest⟩ := h.uncons
    -- the cut ends with its closing brace, so a single token left is that brace
    rcases hrest with rest | ⟨hbrace, -⟩
    · obtain ⟨_, _, _, ⟨⟩, -⟩ := rest.uncons
    · rw [readDashedAfter_of_ne_minus name fun t ht => by cases ht; simp [hbrace]]
      exact ⟨rfl, h⟩
  | case3 name dash word rest hboth ih =>
    obtain ⟨_, _, us', ⟨⟩, rfl, hrest⟩ := h.uncons
    obtain ⟨_, _, us', ⟨⟩, rfl, hafter⟩ := (hrest.sync (by simp [hboth.1])).uncons
    obtain ⟨value, rest⟩ := ih (hafter.sync fun hbrace => by simp [hbrace, Kind.isWord] at hboth)
    rw [readDashedAfter, if_pos hboth]
    exact ⟨value, rest⟩
  | case4 name dash word rest hboth =>
    obtain ⟨_, _, us', ⟨⟩, rfl, hrest⟩ := h.uncons
    rcases hrest with hrest | ⟨hbrace, -⟩
    · obtain ⟨_, _, us', ⟨⟩, rfl, -⟩ := hrest.uncons
      rw [readDashedAfter, if_neg hboth]
      exact ⟨rfl, h⟩
    · rw [readDashedAfter_of_ne_minus name fun t ht => by cases ht; simp [hbrace]]
      exact ⟨rfl, h⟩

/-- The tokens of a style value are the same in both streams, since a closing brace ends it. -/
theorem styleValue_sync (h : C.Sync ts ts') :
    ts'.takeWhile (fun t => !endsStyleValue t) = ts.takeWhile (fun t => !endsStyleValue t) ∧
      C.Sync (ts.dropWhile fun t => !endsStyleValue t)
        (ts'.dropWhile fun t => !endsStyleValue t) := by
  induction ts generalizing ts' with
  | nil =>
    obtain ⟨_, _, _, ⟨⟩, -⟩ := h.uncons
  | cons t ts ih =>
    obtain ⟨_, _, us', ⟨⟩, rfl, hrest⟩ := h.uncons
    simp only [List.takeWhile_cons, List.dropWhile_cons]
    split
    · rename_i hends
      have hne : t.kind ≠ .closing .brace := by
        intro hbrace
        simp [endsStyleValue, hbrace] at hends
      obtain ⟨htake, hdrop⟩ := ih (hrest.sync hne)
      rw [htake]
      exact ⟨rfl, hdrop⟩
    · exact ⟨rfl, h⟩

theorem readStyleValue_local (property : String) (h : C.Sync ts ts') :
    C.Local (readStyleValue stop property ts) (readStyleValue stop' property ts') := by
  obtain ⟨htake, hdrop⟩ := styleValue_sync h
  unfold readStyleValue
  rw [htake]
  cases ts.takeWhile fun t => !endsStyleValue t with
  | nil => exact local_error _ _
  | cons t tokens => exact .ok rfl hdrop

/-- A block of entries is read alike if their values are. -/
theorem readEntries_local {ν : Type}
    {readValue readValue' : String → (ts : List Token) → Read ν ts}
    (hvalue : ∀ name {ts ts' : List Token}, C.Sync ts ts' →
      C.Local (readValue name ts) (readValue' name ts'))
    (known : OrderedMap String ν) {ts ts' : List Token} (h : C.Sync ts ts') :
    C.Local (readEntries stop readValue known ts) (readEntries stop' readValue' known ts') := by
  obtain ⟨first, us, us', hus, hus', hrest⟩ := h.skipNewlines.uncons
  rw [readEntries_of_cons stop readValue known hus, readEntries_of_cons stop' readValue' known hus']
  rcases hrest with rest | ⟨hbrace, hafter, -⟩
  · split
    · exact .ok rfl rest
    · split
      · obtain ⟨hname, rest⟩ := readDashedAfter_sync first.text rest
        dsimp only [Reading.andThen]
        rw [hname]
        refine (expect_local _ rest).bind fun colon colon' _ rest => ?_
        refine (hvalue _ rest).bind fun value value' heq rest => ?_
        rw [heq]
        obtain ⟨-, rest⟩ := eat_sync .comma nofun rest
        exact (readEntries_local hvalue _ rest).bind fun _ _ value rest => .ok value rest
      · exact local_error _ _
  · rw [if_pos hbrace, if_pos hbrace]
    exact .late (late_ok (past_of_eq hafter))
termination_by ts.length
decreasing_by
  have := length_lt_of_skipNewlines hus
  have := (((readDashedAfter first.text us).andThen (colon.andThen value)).andThen
    (eat .comma value.rest)).length_le
  simp only [Reading.andThen] at this
  omega

theorem readStyleBlock_local (h : C.Sync ts ts') :
    C.Local (readStyleBlock stop ts) (readStyleBlock stop' ts') :=
  (expect_local _ h).bind fun _ _ _ rest =>
    (readEntries_local (fun property _ _ => readStyleValue_local property) ∅ rest).bind
      fun _ _ value rest => .ok value rest

theorem readClassMap_local (h : C.Sync ts ts') :
    C.Local (readClassMap stop ts) (readClassMap stop' ts') :=
  (expect_local _ h).bind fun _ _ _ rest =>
    (readEntries_local (fun _ _ _ => readPath_local) ∅ rest).bind
      fun _ _ value rest => .ok value rest

theorem readAttribute_local (key : String) (head : ElementHead) (h : C.Sync ts ts') :
    C.Local (readAttribute stop key head ts) (readAttribute stop' key head ts') := by
  unfold readAttribute
  rw [peek_eq stop stop' h]
  split
  · refine (readStyleBlock_local h).bind fun block block' value rest => .ok ?_ rest
    exact congrArg (fun styles : Styles =>
      { head with styles := head.styles.insertAll styles.entries }) value
  split
  · refine (readClassMap_local h).bind fun classes classes' value rest => .ok ?_ rest
    exact congrArg (fun classes =>
      { head with attributes := head.attributes.insert "class" (.classMap classes) }) value
  cases head.styleProperty? key with
  | some property =>
    refine (readShorthandValue_local key h).bind fun r r' value rest => .ok ?_ rest
    exact congrArg (fun text => { head with styles := head.styles.insert property text }) value
  | none =>
    refine (readAttributeValue_local key h).bind fun r r' value rest => .ok ?_ rest
    exact congrArg (fun text => { head with attributes := head.attributes.insert key text }) value

/-- An attribute stands in both streams or in none. -/
theorem Sync.attribute (h : C.Sync ts ts') :
    (∃ key assign us us', ts = key :: assign :: us ∧ ts' = key :: assign :: us' ∧
      (key.kind.isWord = true ∧ assign.kind = .assign) ∧ C.Sync us us') ∨
    ¬StartsAttribute ts ∧ ¬StartsAttribute ts' := by
  obtain ⟨key, us, us', rfl, rfl, hrest⟩ := h.uncons
  by_cases hword : key.kind.isWord = true
  · have hne : key.kind ≠ .closing .brace := by
      intro hbrace
      simp [hbrace, Kind.isWord] at hword
    obtain ⟨assign, us, us', rfl, rfl, hafter⟩ := (hrest.sync hne).uncons
    by_cases hassign : assign.kind = .assign
    · exact .inl ⟨key, assign, us, us', rfl, rfl, ⟨hword, hassign⟩, hafter.sync (by simp [hassign])⟩
    · refine .inr ⟨?_, ?_⟩ <;>
      · rintro ⟨_, _, _, ⟨⟩, -, hkind⟩
        exact hassign hkind
  · refine .inr ⟨?_, ?_⟩ <;>
    · rintro ⟨_, _, _, ⟨⟩, hkind, -⟩
      exact hword hkind

theorem readAttributes_local (head : ElementHead) {ts ts' : List Token} (h : C.Sync ts ts') :
    C.Local (readAttributes stop head ts) (readAttributes stop' head ts') := by
  rcases h.attribute with ⟨key, assign, us, us', hts, hts', hboth, hafter⟩ | ⟨hnot, hnot'⟩
  · rw [hts, hts', readAttributes, readAttributes, if_pos hboth, if_pos hboth]
    refine (readAttribute_local _ head hafter).bind fun one one' value rest => ?_
    rw [value]
    exact (readAttributes_local _ rest).bind fun _ _ value rest => .ok value rest
  · rw [readAttributes_of_not stop head hnot, readAttributes_of_not stop' head hnot']
    exact .ok rfl h
termination_by ts.length
decreasing_by
  have := one.length_le
  rw [hts, List.length_cons, List.length_cons]
  omega

end UiLang.Cut
