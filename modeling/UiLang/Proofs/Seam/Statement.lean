import UiLang.Proofs.Seam.Node

/-!
# Component bodies across a seam

The expression of a computed value may run out inside its brackets and a conditional before its
later branches; every other statement needs its line end or its closing brace.

## Main results

* `Seam.readStatement_loose`, `Seam.readStatements_firm`
-/

namespace UiLang.Seam

variable {S : Seam} {ts ts' us : List Token}

/-! ## Declarations -/

theorem readMoreNames_cons (stop t : Token) (ts : List Token) :
    readMoreNames stop (t :: ts) =
      if t.kind = .comma then
        expect stop .identifier ts >>= fun name =>
          readMoreNames stop name.rest >>= fun more =>
            .ok ((name.andThen (more.map (name.value.text :: ·))).cons t)
      else .ok (.nothing [] (t :: ts)) := by
  cases ts with
  | nil =>
    rw [readMoreNames, expect]
    rfl
  | cons name rest =>
    rw [readMoreNames.eq_def]
    dsimp only
    rw [expect]
    split
    · split <;> rfl
    · rfl

theorem readMoreNames_firm {ts ts' : List Token} (h : S.Sync ts ts') :
    S.Firm id (readMoreNames S.stop ts) (readMoreNames S.stop' ts') := by
  cases hts : ts with
  | nil =>
    rw [hts] at h
    cases h.front with
    | shut same nil => exact .ok rfl h
    | opened newline more kind eof tail =>
      rw [readMoreNames_cons, if_neg (by simp [kind])]
      exact .ok rfl h
  | cons t us =>
    rw [hts] at h
    obtain ⟨us', rfl, rest⟩ := h.uncons
    rw [readMoreNames_cons, readMoreNames_cons, Relocation.token_kind]
    split
    · refine (expect_firm (by simp) rest).bind fun name name' hname rest => ?_
      refine (readMoreNames_firm rest).bind fun more more' hmore rest => .ok ?_ rest
      change name'.value.text :: more'.value = name.value.text :: more.value
      rw [hname, hmore]
      rfl
    · exact .ok rfl h
termination_by ts.length
decreasing_by
  have := name.length_le
  rw [hts, List.length_cons]
  omega

theorem readProps_firm {keyword : Token} (hkeyword : keyword.kind ≠ .newline)
    (h : S.Sync ts ts') :
    S.Firm (Props.relocate S.move.place) (readProps S.stop keyword ts)
      (readProps S.stop' (S.move.token keyword) ts') := by
  refine (expect_firm (by simp) h).bind fun first first' hfirst rest => ?_
  refine (readMoreNames_firm rest).bind fun more more' hmore rest => ?_
  refine (expectStatementEnd_firm rest).bind fun _ _ _ rest => .ok ?_ rest
  change Props.mk (first'.value.text :: more'.value) (S.move.token keyword).location = _
  rw [hfirst, hmore, S.move.location_token_of_ne_newline hkeyword]
  rfl

theorem readState_firm {keyword : Token} (hkeyword : keyword.kind ≠ .newline)
    (h : S.Sync ts ts') :
    S.Firm (StateDeclaration.relocate S.move.place) (readState S.stop keyword ts)
      (readState S.stop' (S.move.token keyword) ts') := by
  refine (expect_firm (by simp) h).bind fun name name' hname rest => ?_
  refine (expect_firm (by simp) rest).bind fun _ _ _ rest => ?_
  refine (readStateValue_firm rest).bind fun value value' hvalue rest => ?_
  refine (expectStatementEnd_firm rest).bind fun _ _ _ rest => .ok ?_ rest
  change StateDeclaration.mk name'.value.text value'.value
    ((S.move.token keyword).location.join name'.value.location) = _
  rw [hname, hvalue, S.move.location_token_of_ne_newline hkeyword]
  exact congrArg (StateDeclaration.mk _ _) (S.move.join_place _ _)

theorem readComputed_loose {keyword : Token} (hkeyword : keyword.kind ≠ .newline)
    (h : S.Sync ts ts') :
    S.Loose (Computed.relocate S.move.place) (readComputed S.stop keyword ts)
      (readComputed S.stop' (S.move.token keyword) ts') := by
  refine (expect_firm (by simp) h).bind_loose fun name name' hname rest => ?_
  refine (expect_firm (by simp) rest).bind_loose fun assign assign' _ rest => ?_
  dsimp only
  have hline : S.Loose (List.map S.move.token) (.ok (tokensToLineEnd 0 (name.andThen assign).rest))
      (.ok (tokensToLineEnd 0 (name'.andThen assign').rest)) := tokensToLineEnd_loose 0 rest
  -- the two lines are followed from here on only through what `hline` says of them
  generalize tokensToLineEnd 0 (name.andThen assign).rest = line at hline ⊢
  generalize tokensToLineEnd 0 (name'.andThen assign').rest = line' at hline ⊢
  cases hline with
  | firm firm =>
    cases firm with
    | ok value rest =>
      have hempty : line'.value.isEmpty = line.value.isEmpty := by
        rw [value, List.isEmpty_map]
      rw [hempty]
      split
      · rcases peek_of_front rest with hpeek | ⟨htail, -, -⟩
        · rw [hpeek]
          exact .firm (unexpected_moved _)
        · exact .firm (firm_of_errors htail)
      · refine .firm (.ok ?_ rest)
        change Computed.mk name'.value.text (RawText.join line'.value)
          ((S.move.token keyword).location.join name'.value.location) = _
        rw [hname, value, S.move.join_map, S.move.location_token_of_ne_newline hkeyword]
        exact congrArg (Computed.mk _ _) (S.move.join_place _ _)
  | spent opened spent blocked =>
    -- the line ran out inside a bracket; an empty expression is a fault and leaves nothing to show
    refine .spent opened ?_ ?_
    · intro r hr
      split at hr
      · cases hr
      · cases hr
        exact spent line rfl
    · intro hguard r hr
      split at hr
      · cases hr
      · cases hr
        exact blocked hguard line' rfl

theorem readHook_firm (kind : HookKind) {keyword : Token} (hkeyword : keyword.kind ≠ .newline)
    (h : S.Sync ts ts') :
    S.Firm (Hook.relocate S.move.place) (readHook S.stop kind keyword ts)
      (readHook S.stop' kind (S.move.token keyword) ts') := by
  refine (readBraced_firm h.skipped).bind fun body body' hbody rest => .ok ?_ rest
  change Hook.mk kind (RawText.body body'.value) (S.move.token keyword).location = _
  rw [hbody, S.move.body_map, S.move.location_token_of_ne_newline hkeyword]
  rfl

/-! ## Fetches and watchers -/

theorem readFetchValue_firm (key : String) (h : S.Sync ts ts') :
    S.Firm id (readFetchValue S.stop key ts) (readFetchValue S.stop' key ts') := by
  cases h.front with
  | token t ts ts' rest =>
    rw [readFetchValue, readFetchValue, Relocation.token_kind]
    split
    · exact .ok rfl rest
    · obtain ⟨value, rest⟩ := readPathAfter_matched (S.move.token_text t) rest
      exact .ok (congrArg Path.text value) rest
    · exact invalidAttribute_moved key t
  | shut same nil =>
    rw [readFetchValue, readFetchValue, same]
    exact invalidAttribute_moved key S.stop
  | opened newline more kind eof tail =>
    rw [readFetchValue, readFetchValue, kind]
    exact firm_of_errors (by simp [tail])

theorem relocate_set (f : Location → Location) (fetch : Fetch) (key value : String) :
    (fetch.set key value).relocate f = (fetch.relocate f).set key value := by
  unfold Fetch.set
  split <;> rfl

theorem readFetchAttributes_of_not (stop : Token) (fetch : Fetch) {ts : List Token}
    (h : ¬ StartsAttribute ts) :
    readFetchAttributes stop fetch ts = .ok (.nothing fetch ts) := by
  rw [readFetchAttributes.eq_def]
  split
  · rw [if_neg fun hboth => h ⟨_, _, _, rfl, hboth⟩]
  · rfl

theorem readFetchAttributes_firm (fetch : Fetch) {ts ts' : List Token} (h : S.Sync ts ts') :
    S.Firm (Fetch.relocate S.move.place) (readFetchAttributes S.stop fetch ts)
      (readFetchAttributes S.stop' (fetch.relocate S.move.place) ts') := by
  rcases h.attribute with ⟨key, assign, us, us', hts, hts', hboth, hafter⟩ | ⟨hnot, hnot'⟩
  · rw [hts, hts', readFetchAttributes, readFetchAttributes, Relocation.token_kind,
      Relocation.token_kind, Relocation.token_text, if_pos hboth, if_pos hboth]
    refine (readFetchValue_firm key.text hafter).bind fun one one' value rest => ?_
    rw [value, id, ← relocate_set]
    exact (readFetchAttributes_firm _ rest).bind fun _ _ value rest => .ok value rest
  · rw [readFetchAttributes_of_not S.stop fetch hnot, readFetchAttributes_of_not S.stop' _ hnot']
    exact .ok rfl h
termination_by ts.length
decreasing_by
  have := one.length_le
  rw [hts, List.length_cons, List.length_cons]
  omega

theorem readFetch_firm {keyword : Token} (hkeyword : keyword.kind ≠ .newline)
    (h : S.Sync ts ts') :
    S.Firm (Fetch.relocate S.move.place) (readFetch S.stop keyword ts)
      (readFetch S.stop' (S.move.token keyword) ts') := by
  unfold readFetch
  rw [S.move.location_token_of_ne_newline hkeyword]
  refine (readFetchAttributes_firm _ h).bind fun fetch fetch' hfetch rest => ?_
  exact (expectStatementEnd_firm rest).bind fun _ _ _ rest => .ok hfetch rest

theorem readWatcher_firm {keyword : Token} (hkeyword : keyword.kind ≠ .newline)
    (h : S.Sync ts ts') :
    S.Firm (Watcher.relocate S.move.place) (readWatcher S.stop keyword ts)
      (readWatcher S.stop' (S.move.token keyword) ts') := by
  refine (readPath_firm h).bind fun target target' htarget rest => ?_
  refine (readBraced_firm rest.skipped).bind fun body body' hbody rest => .ok ?_ rest
  change Watcher.mk target'.value (RawText.body body'.value) (S.move.token keyword).location = _
  rw [htarget, hbody, S.move.body_map, S.move.location_token_of_ne_newline hkeyword]
  rfl

/-! ## Statements -/

theorem readStatement_loose (first : Token) (h : S.Sync ts ts') :
    S.Loose (Statement.relocate S.move.place) (readStatement S.stop first ts)
      (readStatement S.stop' (S.move.token first) ts') := by
  unfold readStatement
  rw [Relocation.token_kind]
  split
  · exact .firm <| (readProps_firm (by simp [*]) h).bind fun _ _ value rest =>
      .ok (congrArg Statement.props value) rest
  · exact .firm <| (readState_firm (by simp [*]) h).bind fun _ _ value rest =>
      .ok (congrArg Statement.state value) rest
  · exact (readComputed_loose (by simp [*]) h).map _ _ (fun _ => rfl) (fun _ => rfl)
      fun _ _ value => congrArg Statement.computed value
  · exact .firm <| (readHook_firm .mount (by simp [*]) h).bind fun _ _ value rest =>
      .ok (congrArg Statement.hook value) rest
  · exact .firm <| (readHook_firm .update (by simp [*]) h).bind fun _ _ value rest =>
      .ok (congrArg Statement.hook value) rest
  · exact .firm <| (readFetch_firm (by simp [*]) h).bind fun _ _ value rest =>
      .ok (congrArg Statement.fetch value) rest
  · exact .firm <| (readWatcher_firm (by simp [*]) h).bind fun _ _ value rest =>
      .ok (congrArg Statement.watcher value) rest
  · exact (readNode_loose first h).map _ _ (fun _ => rfl) (fun _ => rfl)
      fun _ _ value => congrArg Statement.node value

theorem readStatements_of_nil (stop : Token) (h : skipNewlines ts = []) :
    readStatements stop ts = unexpected stop := by
  rw [readStatements]
  split
  · rfl
  · simp_all

/-- The statements of a body, from the first token that is not a newline on. -/
theorem readStatements_of_cons (stop : Token) {first : Token} (h : skipNewlines ts = first :: us) :
    readStatements stop ts =
      if first.kind = .closing .brace then
        .ok (((Reading.nothing [] us).cons first).within (h ▸ skipNewlines_suffix ts))
      else
        readStatement stop first us >>= fun statement =>
          readStatements stop statement.rest >>= fun statements =>
            .ok ((((statement.andThen statements).map (statement.value :: ·)).cons first).within
              (h ▸ skipNewlines_suffix ts)) := by
  rw [readStatements]
  split
  · simp_all
  · rename_i h'
    obtain ⟨rfl, rfl⟩ := List.cons.inj (h.symm.trans h')
    rfl

theorem readStatement_error_of_startsItem (stop : Token) {first : Token} (ts : List Token)
    (h : startsItem first.kind = true) : ∃ d, readStatement stop first ts = .error d := by
  obtain ⟨d, hd⟩ := readNode_error_of_startsItem stop ts h
  -- none of these words starts a statement, so the reader of nodes is asked, and it fails
  obtain ⟨word, hword⟩ := eq_keyword_of_startsItem h
  rw [hword] at h
  rw [readStatement, hword]
  cases word with
  | component | function | async | importWord | exportWord =>
    dsimp only
    rw [hd]
    exact ⟨d, rfl⟩
  | _ => cases h

theorem readStatements_error_of_blocked (stop : Token) (h : Blocked ts) :
    ∃ d, readStatements stop ts = .error d := by
  rcases h with rfl | hguard
  · exact ⟨_, readStatements_of_nil stop rfl⟩
  · obtain ⟨first, rest, hskip, hstarts, -⟩ := hguard.starts
    obtain ⟨d, hd⟩ := readStatement_error_of_startsItem stop rest hstarts
    rw [readStatements_of_cons stop hskip, if_neg (ne_of_startsItem hstarts rfl), hd]
    exact ⟨d, rfl⟩

theorem readStatements_firm {ts ts' : List Token} (h : S.Sync ts ts') :
    S.Firm (List.map (Statement.relocate S.move.place)) (readStatements S.stop ts)
      (readStatements S.stop' ts') := by
  obtain ⟨us, us', hus, hus', hle, hskip⟩ := h.skip
  cases hskip with
  | token first us us' kind rest =>
    rw [readStatements_of_cons S.stop hus, readStatements_of_cons S.stop' hus',
      Relocation.token_kind]
    split
    · exact .ok rfl rest
    · refine (readStatement_loose first rest).bind
        (fun statement statement' hstatement rest => ?_) ?_ ?_
      · refine (readStatements_firm rest).bind fun statements statements' hstatements rest =>
          .ok ?_ rest
        change statement'.value :: statements'.value = _
        rw [hstatement, hstatements]
        rfl
      · -- the body is still open when the first stream is spent
        intro r hr
        rw [readStatements_of_nil S.stop hr]
        exact ⟨_, rfl⟩
      · intro r hr
        obtain ⟨d, hd⟩ := readStatements_error_of_blocked S.stop' hr
        rw [hd]
        exact ⟨d, rfl⟩
  | shut same =>
    rw [readStatements_of_nil S.stop hus, readStatements_of_nil S.stop' hus', same]
    exact unexpected_moved _
  | opened us' tail eof guard =>
    rw [readStatements_of_nil S.stop hus]
    exact .ranOut tail fun hguard =>
      readStatements_error_of_blocked S.stop' (.inr (hus'.symm ▸ guard hguard))
termination_by ts.length
decreasing_by
  have := statement.length_le
  rw [List.length_cons] at hle
  omega

end UiLang.Seam
