import UiLang.Proofs.Extent.Values

/-!
# Nodes and statements up to a closing brace

A node may be followed by the brace, and so may a statement.  A conditional looks past newlines for
its next branch, and finds the brace there at the latest.

## Main results

* `Cut.readNode_local`, `Cut.readNodes_local`
* `Cut.readStatement_local`
-/

namespace UiLang.Cut

open Seam

variable {C : Cut} {stop stop' : Token} {ts ts' : List Token}

/-! ## Nodes -/

theorem readElementText_sync (h : C.Sync ts ts') :
    (readElementText ts').value = (readElementText ts).value ∧
      C.Sync (readElementText ts).rest (readElementText ts').rest := by
  obtain ⟨t, us, us', rfl, rfl, hrest⟩ := h.uncons
  rw [readElementText, readElementText]
  split
  · exact ⟨rfl, hrest.sync (by simp [*])⟩
  · exact ⟨rfl, h⟩

theorem readElementHead_local (name : String) (h : C.Sync ts ts') :
    C.Local (readElementHead stop name ts) (readElementHead stop' name ts') := by
  obtain ⟨value, rest⟩ := readElementText_sync h
  unfold readElementHead
  dsimp only
  rw [value]
  exact (readAttributes_local _ rest).bind fun _ _ value rest => .ok value rest

theorem readLoopHead_local (h : C.Sync ts ts') :
    C.Local (readLoopHead stop ts) (readLoopHead stop' ts') := by
  -- written out, the readings show where they stop, and so where the next one goes on
  dsimp only [readLoopHead, Reading.andThen]
  refine (expect_local _ h).bind fun item item' hitem rest => ?_
  obtain ⟨hword, rest⟩ := eat_sync (.keyword .inWord) nofun rest
  rw [hword]
  split
  · refine (readPath_local rest).bind fun array array' value rest => .ok ?_ rest
    change (item'.value.text, array'.value) = (item.value.text, array.value)
    rw [hitem, value]
  · exact local_error _ _

-- As the readers call each other, so do their lemmas, with the measures of the readers.
mutual

theorem readNode_local (first : Token) {ts ts' : List Token} (h : C.Sync ts ts') :
    C.Local (readNode stop first ts) (readNode stop' first ts') := by
  rw [readNode, readNode]
  dsimp only [Reading.andThen, Reading.skipNewlines]
  split
  · refine (readElementHead_local first.text h).bind fun head head' hhead rest => ?_
    refine (readOptionalBlock_local rest).bind fun children children' hchildren rest => ?_
    refine (expectStatementEnd_local rest).bind fun _ _ _ rest => .ok ?_ rest
    change head'.value.toNode children'.value _ = head.value.toNode children.value _
    rw [hhead, hchildren]
  · refine (readCondition_local h).bind fun condition condition' hcondition rest => ?_
    refine (readBlock_local rest.skipNewlines).bind fun body body' hbody rest => ?_
    refine (readElseChain_local rest).bind fun chain chain' hchain rest => .ok ?_ rest
    change UiNode.conditional condition'.value body'.value chain'.value _ = _
    rw [hcondition, hbody, hchain]
    rfl
  · refine (readLoopHead_local h).bind fun head head' hhead rest => ?_
    refine (readBlock_local rest.skipNewlines).bind fun body body' hbody rest => .ok ?_ rest
    change UiNode.loop head'.value.1 head'.value.2 body'.value _ = _
    rw [hhead, hbody]
    rfl
  · exact local_error _ _
termination_by 3 * ts.length + 2
decreasing_by
  · have := head.length_le
    omega
  · have : (skipNewlines condition.rest).length ≤ ts.length := condition.skipNewlines.length_le
    omega
  · have : body.rest.length ≤ ts.length := (condition.skipNewlines.andThen body).length_le
    omega
  · have : (skipNewlines head.rest).length ≤ ts.length := head.skipNewlines.length_le
    omega

theorem readElseChain_local {ts ts' : List Token} (h : C.Sync ts ts') :
    C.Local (readElseChain stop ts) (readElseChain stop' ts') := by
  obtain ⟨t, us, us', hus, hus', hrest⟩ := h.skipNewlines.uncons
  rw [readElseChain_of_cons stop hus, readElseChain_of_cons stop' hus']
  dsimp only [Reading.andThen, Reading.skipNewlines]
  split
  · refine (readCondition_local (hrest.sync (by simp [*]))).bind
      fun condition condition' hcondition rest => ?_
    refine (readBlock_local rest.skipNewlines).bind fun body body' hbody rest => ?_
    refine (readElseChain_local rest).bind fun chain chain' hchain rest => .ok ?_ rest
    change ElseChain.elseIf condition'.value body'.value chain'.value = _
    rw [hcondition, hbody, hchain]
    rfl
  · refine (readBlock_local (hrest.sync (by simp [*])).skipNewlines).bind
      fun body body' hbody rest => .ok ?_ rest
    exact congrArg ElseChain.otherwise hbody
  · exact .ok rfl h
termination_by 3 * ts.length + 1
decreasing_by
  · have := length_lt_of_skipNewlines hus
    have : (skipNewlines condition.rest).length ≤ us.length := condition.skipNewlines.length_le
    omega
  · have := length_lt_of_skipNewlines hus
    have : body.rest.length ≤ us.length := (condition.skipNewlines.andThen body).length_le
    omega
  · have := length_lt_of_skipNewlines hus
    have := length_skipNewlines_le us
    omega

theorem readOptionalBlock_local {ts ts' : List Token} (h : C.Sync ts ts') :
    C.Local (readOptionalBlock stop ts) (readOptionalBlock stop' ts') := by
  obtain ⟨t, us, us', hts, hts', hrest⟩ := h.uncons
  rw [hts, hts'] at h ⊢
  rw [readOptionalBlock, readOptionalBlock]
  split
  · exact (readNodes_local (hrest.sync (by simp [*]))).bind fun _ _ value rest => .ok value rest
  · exact .ok rfl h
termination_by 3 * ts.length + 1
decreasing_by
  rw [hts, List.length_cons]
  omega

theorem readBlock_local {ts ts' : List Token} (h : C.Sync ts ts') :
    C.Local (readBlock stop ts) (readBlock stop' ts') := by
  rw [readBlock, readBlock]
  refine (expect_local _ h).bind fun brace brace' _ rest => ?_
  exact (readNodes_local rest).bind fun _ _ value rest => .ok value rest
termination_by 3 * ts.length + 1
decreasing_by
  have := brace.length_le
  omega

theorem readNodes_local {ts ts' : List Token} (h : C.Sync ts ts') :
    C.Local (readNodes stop ts) (readNodes stop' ts') := by
  obtain ⟨first, us, us', hus, hus', hrest⟩ := h.skipNewlines.uncons
  rw [readNodes_of_cons stop hus, readNodes_of_cons stop' hus']
  rcases hrest with rest | ⟨hbrace, hafter, -⟩
  · split
    · exact .ok rfl rest
    · refine (readNode_local first rest).bind fun node node' hnode rest => ?_
      refine (readNodes_local rest).bind fun nodes nodes' hnodes rest => .ok ?_ rest
      change node'.value :: nodes'.value = node.value :: nodes.value
      rw [hnode, hnodes]
  · rw [if_pos hbrace, if_pos hbrace]
    exact .late (late_ok (past_of_eq hafter))
termination_by 3 * ts.length
decreasing_by
  · have := length_lt_of_skipNewlines hus
    omega
  · have := length_lt_of_skipNewlines hus
    have := node.length_le
    omega

end

/-! ## Statements -/

theorem readMoreNames_local {ts ts' : List Token} (h : C.Sync ts ts') :
    C.Local (readMoreNames stop ts) (readMoreNames stop' ts') := by
  obtain ⟨t, us, us', hts, hts', hrest⟩ := h.uncons
  rw [hts, hts'] at h ⊢
  rw [readMoreNames_cons, readMoreNames_cons]
  split
  · refine (expect_local _ (hrest.sync (by simp [*]))).bind fun name name' hname rest => ?_
    refine (readMoreNames_local rest).bind fun more more' hmore rest => .ok ?_ rest
    change name'.value.text :: more'.value = name.value.text :: more.value
    rw [hname, hmore]
  · exact .ok rfl h
termination_by ts.length
decreasing_by
  have := name.length_le
  rw [hts, List.length_cons]
  omega

theorem readProps_local (keyword : Token) (h : C.Sync ts ts') :
    C.Local (readProps stop keyword ts) (readProps stop' keyword ts') := by
  dsimp only [readProps, Reading.andThen]
  refine (expect_local _ h).bind fun first first' hfirst rest => ?_
  refine (readMoreNames_local rest).bind fun more more' hmore rest => ?_
  refine (expectStatementEnd_local rest).bind fun _ _ _ rest => .ok ?_ rest
  change Props.mk (first'.value.text :: more'.value) _ = Props.mk (first.value.text :: more.value) _
  rw [hfirst, hmore]

theorem readState_local (keyword : Token) (h : C.Sync ts ts') :
    C.Local (readState stop keyword ts) (readState stop' keyword ts') := by
  dsimp only [readState, Reading.andThen]
  refine (expect_local _ h).bind fun name name' hname rest => ?_
  refine (expect_local _ rest).bind fun _ _ _ rest => ?_
  refine (readStateValue_local rest).bind fun value value' hvalue rest => ?_
  refine (expectStatementEnd_local rest).bind fun _ _ _ rest => .ok ?_ rest
  change StateDeclaration.mk name'.value.text value'.value (_ : Location) =
    StateDeclaration.mk name.value.text value.value _
  rw [hname, hvalue]

theorem readComputed_local (keyword : Token) (h : C.Sync ts ts') :
    C.Local (readComputed stop keyword ts) (readComputed stop' keyword ts') := by
  dsimp only [readComputed, unexpected]
  refine (expect_local _ h).bind fun name name' hname rest => ?_
  refine (expect_local _ rest).bind fun assign assign' _ rest => ?_
  rcases (tokensToLineEnd_local 0 rest).of_ok with ⟨value, rest⟩ | late
  · have hempty : (tokensToLineEnd 0 (name'.andThen assign').rest).value.isEmpty =
        (tokensToLineEnd 0 (name.andThen assign).rest).value.isEmpty := congrArg List.isEmpty value
    rw [hempty]
    split
    · exact local_error _ _
    · refine .ok ?_ rest
      change Computed.mk name'.value.text (RawText.join (tokensToLineEnd 0 assign'.rest).value)
          (_ : Location) =
        Computed.mk name.value.text (RawText.join (tokensToLineEnd 0 assign.rest).value) _
      rw [hname, value]
  · refine .late ?_
    split
    · exact late_error _
    · exact late_ok late

theorem readHook_local (kind : HookKind) (keyword : Token) (h : C.Sync ts ts') :
    C.Local (readHook stop kind keyword ts) (readHook stop' kind keyword ts') := by
  dsimp only [readHook, Reading.andThen, Reading.skipNewlines, Reading.nothing]
  refine (readBraced_local h.skipNewlines).bind fun body body' hbody rest => .ok ?_ rest
  exact congrArg (fun tokens => Hook.mk kind (RawText.body tokens) keyword.location) hbody

theorem readFetchValue_local (key : String) (h : C.Sync ts ts') :
    C.Local (readFetchValue stop key ts) (readFetchValue stop' key ts') := by
  obtain ⟨t, us, us', rfl, rfl, hrest⟩ := h.uncons
  rw [readFetchValue, readFetchValue]
  split
  · exact .ok rfl (hrest.sync (by simp [*]))
  · obtain ⟨value, rest⟩ := readPathAfter_sync t (hrest.sync (by simp [*]))
    exact .ok (congrArg Path.text value) rest
  · exact local_error _ _

theorem readFetchAttributes_local (fetch : Fetch) {ts ts' : List Token} (h : C.Sync ts ts') :
    C.Local (readFetchAttributes stop fetch ts) (readFetchAttributes stop' fetch ts') := by
  rcases h.attribute with ⟨key, assign, us, us', hts, hts', hboth, hafter⟩ | ⟨hnot, hnot'⟩
  · rw [hts, hts', readFetchAttributes, readFetchAttributes, if_pos hboth, if_pos hboth]
    refine (readFetchValue_local key.text hafter).bind fun one one' value rest => ?_
    rw [value]
    exact (readFetchAttributes_local _ rest).bind fun _ _ value rest => .ok value rest
  · rw [readFetchAttributes_of_not stop fetch hnot, readFetchAttributes_of_not stop' fetch hnot']
    exact .ok rfl h
termination_by ts.length
decreasing_by
  have := one.length_le
  rw [hts, List.length_cons, List.length_cons]
  omega

theorem readFetch_local (keyword : Token) (h : C.Sync ts ts') :
    C.Local (readFetch stop keyword ts) (readFetch stop' keyword ts') := by
  refine (readFetchAttributes_local _ h).bind fun fetch fetch' hfetch rest => ?_
  exact (expectStatementEnd_local rest).bind fun _ _ _ rest => .ok hfetch rest

theorem readWatcher_local (keyword : Token) (h : C.Sync ts ts') :
    C.Local (readWatcher stop keyword ts) (readWatcher stop' keyword ts') := by
  dsimp only [readWatcher, Reading.andThen, Reading.skipNewlines]
  refine (readPath_local h).bind fun target target' htarget rest => ?_
  refine (readBraced_local rest.skipNewlines).bind fun body body' hbody rest => .ok ?_ rest
  change Watcher.mk target'.value (RawText.body body'.value) _ =
    Watcher.mk target.value (RawText.body body.value) _
  rw [htarget, hbody]

theorem readStatement_local (first : Token) (h : C.Sync ts ts') :
    C.Local (readStatement stop first ts) (readStatement stop' first ts') := by
  unfold readStatement
  split
  · exact (readProps_local first h).bind fun _ _ value rest =>
      .ok (congrArg Statement.props value) rest
  · exact (readState_local first h).bind fun _ _ value rest =>
      .ok (congrArg Statement.state value) rest
  · exact (readComputed_local first h).bind fun _ _ value rest =>
      .ok (congrArg Statement.computed value) rest
  · exact (readHook_local .mount first h).bind fun _ _ value rest =>
      .ok (congrArg Statement.hook value) rest
  · exact (readHook_local .update first h).bind fun _ _ value rest =>
      .ok (congrArg Statement.hook value) rest
  · exact (readFetch_local first h).bind fun _ _ value rest =>
      .ok (congrArg Statement.fetch value) rest
  · exact (readWatcher_local first h).bind fun _ _ value rest =>
      .ok (congrArg Statement.watcher value) rest
  · exact (readNode_local first h).bind fun _ _ value rest =>
      .ok (congrArg Statement.node value) rest

end UiLang.Cut
