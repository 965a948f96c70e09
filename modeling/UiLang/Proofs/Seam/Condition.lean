import UiLang.Proofs.Seam.Basic

/-!
# Conditions across a seam

No reader of conditions looks past the newline at the seam: a path, a comparison and a connective
all go on with a token of their own kind, and a newline is none of them.

## Main results

* `Seam.readPath_firm`, `Seam.readCondition_firm`
-/

namespace UiLang.Seam

variable {S : Seam} {ts ts' : List Token}

/-! ## Paths -/

theorem readFields_of_ne_dot {ts : List Token} (h : ∀ t ∈ ts.head?, t.kind ≠ .dot) :
    readFields ts = .nothing [] ts := by
  rcases ts with _ | ⟨point, _ | ⟨field, rest⟩⟩
  · rfl
  · rfl
  · rw [readFields, if_neg fun hboth => h point rfl hboth.1]

theorem readFields_of_not_isWord (point : Token) {ts : List Token}
    (h : ∀ t ∈ ts.head?, t.kind.isWord = false) :
    readFields (point :: ts) = .nothing [] (point :: ts) := by
  rcases ts with _ | ⟨field, rest⟩
  · rfl
  · rw [readFields, if_neg fun hboth => by simp [h field rfl] at hboth]

theorem readFields_matched (h : S.Sync ts ts') :
    S.Matched id (readFields ts) (readFields ts') := by
  fun_induction readFields ts generalizing ts' with
  | case1 =>
    -- a path that ends with its stream ends before the newline of the tail as well
    rw [readFields_of_ne_dot fun t ht => by simp [h.head_of_nil t ht]]
    exact ⟨rfl, h⟩
  | case2 point =>
    -- a point that ends the stream is followed by a newline, so it starts no field
    obtain ⟨ts', rfl, rest⟩ := h.uncons
    rw [readFields_of_not_isWord _ rest.not_isWord_of_nil]
    exact ⟨rfl, h⟩
  | case3 point field rest hboth ih =>
    obtain ⟨_, rfl, hrest⟩ := h.uncons
    obtain ⟨_, rfl, hafter⟩ := hrest.uncons
    obtain ⟨value, rest⟩ := ih hafter
    rw [readFields, Relocation.token_kind, Relocation.token_kind, if_pos hboth]
    exact ⟨congrArg (field.text :: ·) value, rest⟩
  | case4 point field rest hboth =>
    obtain ⟨_, rfl, hrest⟩ := h.uncons
    obtain ⟨_, rfl, hafter⟩ := hrest.uncons
    rw [readFields, Relocation.token_kind, Relocation.token_kind, if_neg hboth]
    exact ⟨rfl, h⟩

theorem readPathAfter_matched {root root' : Token} (htext : root'.text = root.text)
    (h : S.Sync ts ts') : S.Matched id (readPathAfter root ts) (readPathAfter root' ts') := by
  obtain ⟨value, rest⟩ := readFields_matched h
  refine ⟨?_, rest⟩
  change Path.mk root'.text (readFields ts').value = Path.mk root.text (readFields ts).value
  rw [htext, value, id]

theorem readPath_firm (h : S.Sync ts ts') :
    S.Firm id (readPath S.stop ts) (readPath S.stop' ts') := by
  refine (expect_firm (by simp) h).bind fun root root' hroot rest => ?_
  obtain ⟨value, rest⟩ := readPathAfter_matched (congrArg Token.text hroot) rest
  exact .ok value rest

/-- A number after a minus sign stands in both streams or in none. -/
theorem readNegated?_matched (h : S.Sync ts ts') :
    readNegated? ts = none ∧ readNegated? ts' = none ∨
      ∃ r r', readNegated? ts = some r ∧ readNegated? ts' = some r' ∧ S.Matched id r r' := by
  cases h.front with
  | token t ts ts' rest =>
    rw [readNegated?, readNegated?, Relocation.token_kind]
    split
    · exact .inr ⟨_, _, rfl, rfl, rfl, rest⟩
    · exact .inl ⟨rfl, rfl⟩
  | shut same nil => exact .inl ⟨rfl, rfl⟩
  | opened newline more kind eof tail =>
    refine .inl ⟨rfl, ?_⟩
    rw [readNegated?, if_neg (by simp [kind])]

/-! ## Conditions -/

theorem invalidCondition_moved {α : Type} {f : α → α} (t : Token) :
    S.Firm f (invalidCondition t : Read α ts) (invalidCondition (S.move.token t) : Read α ts') :=
  .error (S.move.moved_ofToken (.invalidCondition t.kind) t)

-- The readers call each other, so their lemmas do: each recursive call of a reader is a use of the
-- lemma about it, and the measures are those of the readers.
mutual

theorem readDisjunction_firm {ts ts' : List Token} (h : S.Sync ts ts') :
    S.Firm id (readDisjunction S.stop ts) (readDisjunction S.stop' ts') := by
  rw [readDisjunction, readDisjunction]
  refine (readConjunction_firm h).bind fun first first' value rest => ?_
  rw [value]
  exact (readDisjunctionAfter_firm first.value rest).bind fun _ _ value rest => .ok value rest
termination_by 6 * ts.length + 5
decreasing_by
  · omega
  · have := first.length_le
    omega

theorem readDisjunctionAfter_firm (left : Condition) {ts ts' : List Token} (h : S.Sync ts ts') :
    S.Firm id (readDisjunctionAfter S.stop left ts) (readDisjunctionAfter S.stop' left ts') := by
  match ts, h with
  | [], h =>
    cases h.front with
    | shut same nil =>
      rw [readDisjunctionAfter, readDisjunctionAfter]
      exact .ok rfl h
    | opened newline more kind eof tail =>
      -- a newline is no connective, so the condition ends here on both sides
      rw [readDisjunctionAfter, readDisjunctionAfter, if_neg (by simp [kind])]
      exact .ok rfl h
  | t :: ts, h =>
    obtain ⟨ts', rfl, rest⟩ := h.uncons
    rw [readDisjunctionAfter, readDisjunctionAfter, Relocation.token_kind]
    split
    · refine (readConjunction_firm rest).bind fun right right' value rest => ?_
      rw [value]
      exact (readDisjunctionAfter_firm _ rest).bind fun _ _ value rest => .ok value rest
    · exact .ok rfl h
termination_by 6 * ts.length
decreasing_by
  · simp only [List.length_cons]
    omega
  · have := right.length_le
    simp only [List.length_cons]
    omega

theorem readConjunction_firm {ts ts' : List Token} (h : S.Sync ts ts') :
    S.Firm id (readConjunction S.stop ts) (readConjunction S.stop' ts') := by
  rw [readConjunction, readConjunction]
  refine (readNegation_firm h).bind fun first first' value rest => ?_
  rw [value]
  exact (readConjunctionAfter_firm first.value rest).bind fun _ _ value rest => .ok value rest
termination_by 6 * ts.length + 4
decreasing_by
  · omega
  · have := first.length_le
    omega

theorem readConjunctionAfter_firm (left : Condition) {ts ts' : List Token} (h : S.Sync ts ts') :
    S.Firm id (readConjunctionAfter S.stop left ts) (readConjunctionAfter S.stop' left ts') := by
  match ts, h with
  | [], h =>
    cases h.front with
    | shut same nil =>
      rw [readConjunctionAfter, readConjunctionAfter]
      exact .ok rfl h
    | opened newline more kind eof tail =>
      rw [readConjunctionAfter, readConjunctionAfter, if_neg (by simp [kind])]
      exact .ok rfl h
  | t :: ts, h =>
    obtain ⟨ts', rfl, rest⟩ := h.uncons
    rw [readConjunctionAfter, readConjunctionAfter, Relocation.token_kind]
    split
    · refine (readNegation_firm rest).bind fun right right' value rest => ?_
      rw [value]
      exact (readConjunctionAfter_firm _ rest).bind fun _ _ value rest => .ok value rest
    · exact .ok rfl h
termination_by 6 * ts.length
decreasing_by
  · simp only [List.length_cons]
    omega
  · have := right.length_le
    simp only [List.length_cons]
    omega

theorem readNegation_firm {ts ts' : List Token} (h : S.Sync ts ts') :
    S.Firm id (readNegation S.stop ts) (readNegation S.stop' ts') := by
  match ts, h with
  | [], h =>
    cases h.front with
    | shut same nil =>
      rw [readNegation, readNegation]
      exact readComparison_firm h
    | opened newline more kind eof tail =>
      rw [readNegation, readNegation, if_neg (by simp [kind])]
      exact readComparison_firm h
  | t :: ts, h =>
    obtain ⟨ts', rfl, rest⟩ := h.uncons
    rw [readNegation, readNegation, Relocation.token_kind]
    split
    · exact (readNegation_firm rest).bind fun _ _ value rest =>
        .ok (congrArg Condition.not value) rest
    · exact readComparison_firm h
termination_by 6 * ts.length + 3

theorem readComparison_firm {ts ts' : List Token} (h : S.Sync ts ts') :
    S.Firm id (readComparison S.stop ts) (readComparison S.stop' ts') := by
  rw [readComparison, readComparison]
  refine (readPrimary_firm h).bind fun left left' value rest => ?_
  rw [value]
  exact (readComparisonAfter_firm left.value rest).bind fun _ _ value rest => .ok value rest
termination_by 6 * ts.length + 2
decreasing_by
  · omega
  · have := left.length_le
    omega

theorem readComparisonAfter_firm (left : Condition) {ts ts' : List Token} (h : S.Sync ts ts') :
    S.Firm id (readComparisonAfter S.stop left ts) (readComparisonAfter S.stop' left ts') := by
  match ts, h with
  | [], h =>
    cases h.front with
    | shut same nil =>
      rw [readComparisonAfter, readComparisonAfter]
      exact .ok rfl h
    | opened newline more kind eof tail =>
      rw [readComparisonAfter, readComparisonAfter, kind]
      exact .ok rfl h
  | t :: ts, h =>
    obtain ⟨ts', rfl, rest⟩ := h.uncons
    rw [readComparisonAfter, readComparisonAfter, Relocation.token_kind]
    split
    · exact (readPrimary_firm rest).bind fun _ _ value rest =>
        .ok (congrArg (Condition.compare _ left) value) rest
    · exact .ok rfl h
termination_by 6 * ts.length

theorem readPrimary_firm {ts ts' : List Token} (h : S.Sync ts ts') :
    S.Firm id (readPrimary S.stop ts) (readPrimary S.stop' ts') := by
  match ts, h with
  | [], h =>
    cases h.front with
    | shut same nil =>
      rw [readPrimary, readPrimary, same]
      exact invalidCondition_moved S.stop
    | opened newline more kind eof tail =>
      -- neither the end nor a newline starts a condition
      rw [readPrimary, readPrimary, kind]
      exact firm_of_errors (by simp [tail])
  | t :: ts, h =>
    obtain ⟨ts', rfl, rest⟩ := h.uncons
    rw [readPrimary, readPrimary, Relocation.token_kind]
    split
    · obtain ⟨value, rest⟩ := readPathAfter_matched (S.move.token_text t) rest
      exact .ok (congrArg Condition.path value) rest
    · exact .ok rfl rest
    · rcases readNegated?_matched rest with ⟨hnone, hnone'⟩ | ⟨r, r', hr, hr', value, rest⟩
      · rw [hnone, hnone']
        exact invalidCondition_moved t
      · rw [hr, hr']
        exact .ok (congrArg (fun text => Condition.literal (.number text)) value) rest
    · exact .ok rfl rest
    · exact .ok rfl rest
    · exact .ok rfl rest
    · refine (readDisjunction_firm rest).bind fun inner inner' hinner rest => ?_
      exact (expect_firm (by simp) rest).bind fun _ _ _ rest => .ok hinner rest
    · exact invalidCondition_moved t
termination_by 6 * ts.length + 1

end

theorem readCondition_firm (h : S.Sync ts ts') :
    S.Firm id (readCondition S.stop ts) (readCondition S.stop' ts') :=
  readDisjunction_firm h

end UiLang.Seam
