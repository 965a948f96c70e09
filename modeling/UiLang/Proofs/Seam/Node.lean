import UiLang.Proofs.Seam.Attribute

/-!
# Nodes across a seam

A conditional may end with the first stream, since its branches may start on a later line; every
other node, and every block, needs its closing brace or its line end.

## Main results

* `Seam.readNode_loose`, `Seam.readNodes_firm`
-/

namespace UiLang.Seam

variable {S : Seam} {ts ts' us : List Token}

/-! ## The parts of a node -/

theorem readElementText_matched (h : S.Sync ts ts') :
    S.Matched id (readElementText ts) (readElementText ts') := by
  cases h.front with
  | token t ts ts' rest =>
    rw [readElementText, readElementText, Relocation.token_kind]
    by_cases hk : t.kind = .string
    · rw [if_pos hk, if_pos hk]
      exact ⟨rfl, rest⟩
    · rw [if_neg hk, if_neg hk]
      exact ⟨rfl, h⟩
  | shut same nil => exact ⟨rfl, h⟩
  | opened newline more kind eof tail =>
    rw [readElementText, readElementText, if_neg (by simp [kind])]
    exact ⟨rfl, h⟩

theorem readElementHead_firm (name : String) (h : S.Sync ts ts') :
    S.Firm id (readElementHead S.stop name ts) (readElementHead S.stop' name ts') := by
  obtain ⟨value, rest⟩ := readElementText_matched h
  unfold readElementHead
  dsimp only
  rw [value]
  exact (readAttributes_firm _ rest).bind fun _ _ value rest => .ok value rest

theorem readLoopHead_firm (h : S.Sync ts ts') :
    S.Firm id (readLoopHead S.stop ts) (readLoopHead S.stop' ts') := by
  refine (expect_firm (by simp) h).bind fun item item' hitem rest => ?_
  have hword : S.Matched id (eat (.keyword .inWord) item.rest)
      (eat (.keyword .inWord) item'.rest) := eat_matched (by simp) rest
  dsimp only
  rw [hword.value, id]
  split
  · refine (readPath_firm hword.rest).bind fun array array' value rest => .ok ?_ rest
    change (item'.value.text, array'.value) = (item.value.text, array.value)
    rw [hitem, value]
    rfl
  · rcases peek_of_front rest with hpeek | ⟨htail, -, -⟩
    · rw [hpeek]
      exact .error (S.move.moved_ofToken _ _)
    · exact firm_of_errors htail

theorem relocate_toNode (f : Location → Location) (head : ElementHead) (children : List UiNode)
    (loc : Location) :
    (head.toNode children loc).relocate f = head.toNode (relocateNodes f children) (f loc) := by
  unfold ElementHead.toNode
  split
  · rw [UiNode.relocate]
  · rw [UiNode.relocate]

/-! ## Past the newlines -/

theorem readElseChain_of_nil (stop : Token) (h : skipNewlines ts = []) :
    readElseChain stop ts = .ok (.nothing .done ts) := by
  rw [readElseChain]
  split
  · rfl
  · simp_all

/-- The later branches of a conditional, from the first token that is not a newline on. -/
theorem readElseChain_of_cons (stop : Token) {t : Token} (h : skipNewlines ts = t :: us) :
    readElseChain stop ts =
      match t.kind with
      | .keyword .elseIf =>
        readCondition stop us >>= fun condition =>
          readBlock stop (skipNewlines condition.rest) >>= fun body =>
            readElseChain stop body.rest >>= fun chain =>
              .ok ((((condition.skipNewlines.andThen (body.andThen chain)).map fun rest =>
                ElseChain.elseIf condition.value body.value rest).cons t).within
                  (h ▸ skipNewlines_suffix ts))
      | .keyword .elseWord =>
        readBlock stop (skipNewlines us) >>= fun body =>
          .ok ((((Reading.nothing () us).skipNewlines.andThen body).map
            ElseChain.otherwise).cons t |>.within (h ▸ skipNewlines_suffix ts))
      | _ => .ok (.nothing .done ts) := by
  rw [readElseChain]
  split
  · simp_all
  · rename_i h'
    obtain ⟨rfl, rfl⟩ := List.cons.inj (h.symm.trans h')
    split <;> simp_all <;> rfl

theorem readElseChain_of_startsItem (stop : Token) {t : Token} (h : skipNewlines ts = t :: us)
    (hstarts : startsItem t.kind = true) :
    readElseChain stop ts = .ok (.nothing .done ts) := by
  rw [readElseChain_of_cons stop h]
  split
  · simp_all [startsItem]
  · simp_all [startsItem]
  · rfl

theorem readNodes_of_nil (stop : Token) (h : skipNewlines ts = []) :
    readNodes stop ts = expected (.closing .brace) stop := by
  rw [readNodes]
  split
  · rfl
  · simp_all

/-- The nodes of a block, from the first token that is not a newline on. -/
theorem readNodes_of_cons (stop : Token) {first : Token} (h : skipNewlines ts = first :: us) :
    readNodes stop ts =
      if first.kind = .closing .brace then
        .ok (((Reading.nothing [] us).cons first).within (h ▸ skipNewlines_suffix ts))
      else
        readNode stop first us >>= fun node =>
          readNodes stop node.rest >>= fun nodes =>
            .ok ((((node.andThen nodes).map (node.value :: ·)).cons first).within
              (h ▸ skipNewlines_suffix ts)) := by
  rw [readNodes]
  split
  · simp_all
  · rename_i h'
    obtain ⟨rfl, rfl⟩ := List.cons.inj (h.symm.trans h')
    rfl

theorem readNode_error_of_startsItem (stop : Token) {first : Token} (ts : List Token)
    (h : startsItem first.kind = true) : ∃ d, readNode stop first ts = .error d := by
  rw [readNode]
  split
  · simp_all [startsItem]
  · simp_all [startsItem]
  · simp_all [startsItem]
  · exact ⟨_, rfl⟩

theorem readNodes_error_of_blocked (stop : Token) (h : Blocked ts) :
    ∃ d, readNodes stop ts = .error d := by
  rcases h with rfl | hguard
  · exact ⟨_, readNodes_of_nil stop rfl⟩
  · obtain ⟨first, rest, hskip, hstarts, -⟩ := hguard.starts
    obtain ⟨d, hd⟩ := readNode_error_of_startsItem stop rest hstarts
    rw [readNodes_of_cons stop hskip, if_neg (ne_of_startsItem hstarts rfl), hd]
    exact ⟨d, rfl⟩

/-! ## Nodes -/

-- A node is loose only through the branches of a conditional, and a block around it needs a closing
-- brace: so the lists of nodes are firm again, and the looseness does not spread.
mutual

theorem readNode_loose (first : Token) {ts ts' : List Token} (h : S.Sync ts ts') :
    S.Loose (UiNode.relocate S.move.place) (readNode S.stop first ts)
      (readNode S.stop' (S.move.token first) ts') := by
  rw [readNode, readNode, Relocation.token_kind]
  split
  · have hloc := S.move.location_token_of_ne_newline (t := first) (by simp [*])
    rw [hloc, Relocation.token_text]
    refine .firm <| (readElementHead_firm first.text h).bind fun head head' hhead rest => ?_
    refine (readOptionalBlock_firm rest).bind fun children children' hchildren rest => ?_
    refine (expectStatementEnd_firm rest).bind fun _ _ _ rest => .ok ?_ rest
    change head'.value.toNode children'.value _ = (head.value.toNode children.value _).relocate _
    rw [hhead, hchildren, relocate_toNode, id]
  · have hloc := S.move.location_token_of_ne_newline (t := first) (by simp [*])
    rw [hloc]
    refine (readCondition_firm h).bind_loose fun condition condition' hcondition rest => ?_
    refine (readBlock_firm rest.skipped).bind_loose fun body body' hbody rest => ?_
    refine (readElseChain_loose rest).map _ _ (fun _ => rfl) (fun _ => rfl)
      fun chain chain' value => ?_
    change UiNode.conditional condition'.value body'.value chain'.value _ = _
    rw [hcondition, hbody, value]
    rfl
  · have hloc := S.move.location_token_of_ne_newline (t := first) (by simp [*])
    rw [hloc]
    refine .firm <| (readLoopHead_firm h).bind fun head head' hhead rest => ?_
    refine (readBlock_firm rest.skipped).bind fun body body' hbody rest => .ok ?_ rest
    change UiNode.loop head'.value.1 head'.value.2 body'.value _ = _
    rw [hhead, hbody]
    rfl
  · exact .firm (unexpected_moved first)
termination_by 3 * ts.length + 2
decreasing_by
  · have := head.length_le
    omega
  · have : (skipNewlines condition.rest).length ≤ ts.length := condition.skipNewlines.length_le
    omega
  · have : body.rest.length ≤ ts.length := (condition.skipNewlines.andThen body).length_le
    omega
  · have : (skipNewlines head.rest).length ≤ ts.length := head.skipNewlines.length_le
    omega

theorem readElseChain_loose {ts ts' : List Token} (h : S.Sync ts ts') :
    S.Loose (ElseChain.relocate S.move.place) (readElseChain S.stop ts)
      (readElseChain S.stop' ts') := by
  obtain ⟨us, us', hus, hus', hle, hskip⟩ := h.skip
  cases hskip with
  | token t us us' kind rest =>
    rw [readElseChain_of_cons S.stop hus, readElseChain_of_cons S.stop' hus', Relocation.token_kind]
    split
    · refine (readCondition_firm rest).bind_loose fun condition condition' hcondition rest => ?_
      refine (readBlock_firm rest.skipped).bind_loose fun body body' hbody rest => ?_
      refine (readElseChain_loose rest).map _ _ (fun _ => rfl) (fun _ => rfl)
        fun chain chain' value => ?_
      change ElseChain.elseIf condition'.value body'.value chain'.value = _
      rw [hcondition, hbody, value]
      rfl
    · refine .firm <| (readBlock_firm rest.skipped).bind fun body body' hbody rest => .ok ?_ rest
      exact congrArg ElseChain.otherwise hbody
    · exact .firm (.ok rfl h)
  | shut same =>
    rw [readElseChain_of_nil S.stop hus, readElseChain_of_nil S.stop' hus']
    exact .firm (.ok rfl h)
  | opened us' tail eof guard =>
    -- no branch follows in the first stream; in the second one none follows a guarded newline, but
    -- an unguarded tail may well go on with an `else`
    rw [readElseChain_of_nil S.stop hus]
    refine .spent tail ?_ fun hguard r hr => ?_
    · rintro r ⟨⟩
      exact hus
    · have hus'' := guard hguard
      obtain ⟨next, more, rfl, hstarts, -⟩ := hus''.starts
      rw [readElseChain_of_startsItem S.stop' hus' hstarts] at hr
      cases hr
      exact .inr (hus'.symm ▸ hus'')
termination_by 3 * ts.length + 1
decreasing_by
  · have : (skipNewlines condition.rest).length ≤ us.length := condition.skipNewlines.length_le
    rw [List.length_cons] at hle
    omega
  · have : body.rest.length ≤ us.length := (condition.skipNewlines.andThen body).length_le
    rw [List.length_cons] at hle
    omega
  · have := length_skipNewlines_le us
    rw [List.length_cons] at hle
    omega

theorem readOptionalBlock_firm {ts ts' : List Token} (h : S.Sync ts ts') :
    S.Firm (relocateNodes S.move.place) (readOptionalBlock S.stop ts)
      (readOptionalBlock S.stop' ts') := by
  match ts, h with
  | [], h =>
    cases h.front with
    | shut same nil =>
      rw [readOptionalBlock, readOptionalBlock]
      exact .ok rfl h
    | opened newline more kind eof tail =>
      -- the block of an element opens on its own line or not at all
      rw [readOptionalBlock, readOptionalBlock, if_neg (by simp [kind])]
      exact .ok rfl h
  | t :: ts, h =>
    obtain ⟨ts', rfl, rest⟩ := h.uncons
    rw [readOptionalBlock, readOptionalBlock, Relocation.token_kind]
    split
    · exact (readNodes_firm rest).bind fun _ _ value rest => .ok value rest
    · exact .ok rfl h
termination_by 3 * ts.length + 1

theorem readBlock_firm {ts ts' : List Token} (h : S.Skipped ts ts') :
    S.Firm (relocateNodes S.move.place) (readBlock S.stop ts) (readBlock S.stop' ts') := by
  rw [readBlock, readBlock]
  refine (expect_firm_of_skipped rfl h).bind fun brace brace' _ rest => ?_
  exact (readNodes_firm rest).bind fun _ _ value rest => .ok value rest
termination_by 3 * ts.length + 1
decreasing_by
  have := brace.length_le
  omega

theorem readNodes_firm {ts ts' : List Token} (h : S.Sync ts ts') :
    S.Firm (relocateNodes S.move.place) (readNodes S.stop ts) (readNodes S.stop' ts') := by
  obtain ⟨us, us', hus, hus', hle, hskip⟩ := h.skip
  cases hskip with
  | token first us us' kind rest =>
    rw [readNodes_of_cons S.stop hus, readNodes_of_cons S.stop' hus', Relocation.token_kind]
    split
    · exact .ok rfl rest
    · refine (readNode_loose first rest).bind (fun node node' hnode rest => ?_) ?_ ?_
      · refine (readNodes_firm rest).bind fun nodes nodes' hnodes rest => .ok ?_ rest
        change node'.value :: nodes'.value = _
        rw [hnode, hnodes]
        rfl
      · -- the block is still open when the first stream is spent
        intro r hr
        rw [readNodes_of_nil S.stop hr]
        exact ⟨_, rfl⟩
      · -- the second stream is left at its end or before an item, where no block closes
        intro r hr
        obtain ⟨d, hd⟩ := readNodes_error_of_blocked S.stop' hr
        rw [hd]
        exact ⟨d, rfl⟩
  | shut same =>
    rw [readNodes_of_nil S.stop hus, readNodes_of_nil S.stop' hus', same]
    exact expected_moved _ _
  | opened us' tail eof guard =>
    rw [readNodes_of_nil S.stop hus]
    exact .ranOut tail fun hguard =>
      readNodes_error_of_blocked S.stop' (.inr (hus'.symm ▸ guard hguard))
termination_by 3 * ts.length
decreasing_by
  · rw [List.length_cons] at hle
    omega
  · have := node.length_le
    rw [List.length_cons] at hle
    omega

end

end UiLang.Seam
