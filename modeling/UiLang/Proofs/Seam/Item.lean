import UiLang.Proofs.Seam.Statement

/-!
# Items across a seam

An item needs its closing brace or its line end, so none of them runs out silently.

## Main results

* `Seam.readItem_firm`
-/

namespace UiLang.Seam

variable {S : Seam} {ts ts' : List Token}

/-! ## Components and functions -/

theorem readComponent_firm {keyword : Token} (hkeyword : keyword.kind ≠ .newline)
    (h : S.Sync ts ts') :
    S.Firm (Component.relocate S.move.place) (readComponent S.stop keyword ts)
      (readComponent S.stop' (S.move.token keyword) ts') := by
  refine (expect_firm (by simp) h).bind fun name name' hname rest => ?_
  refine (expect_firm_of_skipped rfl rest.skipped).bind fun _ _ _ rest => ?_
  refine (readStatements_firm rest).bind fun body body' hbody rest => .ok ?_ rest
  change Component.mk name'.value.text body'.value
    ((S.move.token keyword).location.join name'.value.location) = _
  rw [hname, hbody, S.move.location_token_of_ne_newline hkeyword]
  exact congrArg (Component.mk _ _) (S.move.join_place _ _)

theorem readParams_cons (stop t : Token) (ts : List Token) :
    readParams stop (t :: ts) =
      if t.kind = .closing .round then .ok ((Reading.nothing [] ts).cons t)
      else if t.kind = .identifier then
        if (eat .comma ts).value then
          readParams stop (eat .comma ts).rest >>= fun more =>
            .ok (((eat .comma ts).andThen (more.map (t.text :: ·))).cons t)
        else
          expect stop (.closing .round) ts >>= fun close =>
            .ok ((close.map fun _ => [t.text]).cons t)
      else expected .identifier t := by
  cases ts with
  | nil =>
    rw [readParams, expect]
    rfl
  | cons next rest =>
    rw [readParams.eq_def]
    dsimp only
    by_cases hcomma : next.kind = .comma
    · rw [eat_of_eq rest hcomma, if_pos hcomma]
      rfl
    · rw [eat_of_ne rest hcomma, if_neg hcomma]
      rfl

theorem readParams_firm {ts ts' : List Token} (h : S.Sync ts ts') :
    S.Firm id (readParams S.stop ts) (readParams S.stop' ts') := by
  cases hts : ts with
  | nil =>
    rw [hts] at h
    cases h.front with
    | shut same nil =>
      rw [readParams, same]
      exact expected_moved _ _
    | opened newline more kind eof tail =>
      -- parameters stand on one line with their parenthesis
      rw [readParams, readParams_cons, if_neg (by simp [kind]), if_neg (by simp [kind])]
      exact firm_of_errors (by simp [tail])
  | cons t us =>
    rw [hts] at h
    obtain ⟨us', rfl, rest⟩ := h.uncons
    have hcomma : S.Matched id (eat .comma us) (eat .comma us') := eat_matched (by simp) rest
    rw [readParams_cons, readParams_cons, Relocation.token_kind, hcomma.value, id]
    split
    · exact .ok rfl rest
    · split
      · split
        · exact (readParams_firm hcomma.rest).bind fun _ _ value rest =>
            .ok (congrArg (t.text :: ·) value) rest
        · exact (expect_firm (by simp) rest).bind fun _ _ _ rest => .ok rfl rest
      · exact expected_moved _ _
termination_by ts.length
decreasing_by
  have := (eat .comma us).length_le
  rw [hts, List.length_cons]
  omega

theorem readFunction_firm (isAsync : Bool) {keyword keyword' : Token}
    (hkeyword : keyword'.location = S.move.place keyword.location) (h : S.Sync ts ts') :
    S.Firm (Function.relocate S.move.place) (readFunction S.stop isAsync keyword ts)
      (readFunction S.stop' isAsync keyword' ts') := by
  refine (expect_firm (by simp) h).bind fun name name' hname rest => ?_
  refine (expect_firm (by simp) rest).bind fun _ _ _ rest => ?_
  refine (readParams_firm rest).bind fun params params' hparams rest => ?_
  refine (readBraced_firm rest.skipped).bind fun body body' hbody rest => .ok ?_ rest
  change Function.mk name'.value.text params'.value (RawText.body body'.value) isAsync
    (keyword'.location.join name'.value.location) = _
  rw [hname, hparams, hbody, S.move.body_map, hkeyword]
  exact congrArg (Function.mk _ _ _ _) (S.move.join_place _ _)

theorem readDeclaration_firm (first : Token) (h : S.Sync ts ts') :
    S.Firm (Declaration.relocate S.move.place) (readDeclaration S.stop first ts)
      (readDeclaration S.stop' (S.move.token first) ts') := by
  unfold readDeclaration
  rw [Relocation.token_kind]
  split
  · exact (readComponent_firm (by simp [*]) h).bind fun _ _ value rest =>
      .ok (congrArg Declaration.component value) rest
  · have hloc := S.move.location_token_of_ne_newline (t := first) (by simp [*])
    exact (readFunction_firm false hloc h).bind fun _ _ value rest =>
      .ok (congrArg Declaration.function value) rest
  · -- the location of an asynchronous function starts at the word `function`
    refine (expect_firm (by simp) h).bind fun keyword keyword' hkeyword rest => ?_
    exact (readFunction_firm true (congrArg Token.location hkeyword) rest).bind
      fun _ _ value rest => .ok (congrArg Declaration.function value) rest
  · exact .error (S.move.moved_ofToken _ _)

/-! ## Imports and exports -/

theorem readSpecifiers_cons (t : Token) (ts : List Token) :
    readSpecifiers (t :: ts) =
      if t.kind = .identifier then
        if (eat .comma ts).value then
          ((eat .comma ts).andThen
            ((readSpecifiers (eat .comma ts).rest).map (t.text :: ·))).cons t
        else (Reading.nothing [t.text] ts).cons t
      else .nothing [] (t :: ts) := by
  cases ts with
  | nil =>
    rw [readSpecifiers]
    rfl
  | cons next rest =>
    rw [readSpecifiers.eq_def]
    dsimp only
    by_cases hcomma : next.kind = .comma
    · rw [eat_of_eq rest hcomma, if_pos hcomma]
      rfl
    · rw [eat_of_ne rest hcomma, if_neg hcomma]
      rfl

theorem readSpecifiers_matched {ts ts' : List Token} (h : S.Sync ts ts') :
    S.Matched id (readSpecifiers ts) (readSpecifiers ts') := by
  cases hts : ts with
  | nil =>
    rw [hts] at h
    cases h.front with
    | shut same nil => exact ⟨rfl, h⟩
    | opened newline more kind eof tail =>
      rw [readSpecifiers_cons, if_neg (by simp [kind])]
      exact ⟨rfl, h⟩
  | cons t us =>
    rw [hts] at h
    obtain ⟨us', rfl, rest⟩ := h.uncons
    have hcomma : S.Matched id (eat .comma us) (eat .comma us') := eat_matched (by simp) rest
    rw [readSpecifiers_cons, readSpecifiers_cons, Relocation.token_kind, hcomma.value, id]
    split
    · split
      · obtain ⟨value, rest⟩ := readSpecifiers_matched hcomma.rest
        exact ⟨congrArg (t.text :: ·) value, rest⟩
      · exact ⟨rfl, rest⟩
    · exact ⟨rfl, h⟩
termination_by ts.length
decreasing_by
  have := (eat .comma us).length_le
  rw [hts, List.length_cons]
  omega

theorem readClosingIf_firm (opened : Bool) (h : S.Sync ts ts') :
    S.Firm id (readClosingIf S.stop opened ts) (readClosingIf S.stop' opened ts') := by
  cases opened with
  | true => exact (expect_firm (by simp) h).bind fun _ _ _ rest => .ok rfl rest
  | false => exact .ok rfl h

theorem readImport_firm {keyword : Token} (hkeyword : keyword.kind ≠ .newline)
    (h : S.Sync ts ts') :
    S.Firm (Import.relocate S.move.place) (readImport S.stop keyword ts)
      (readImport S.stop' (S.move.token keyword) ts') := by
  have hopened : S.Matched id (eat (.opening .brace) ts) (eat (.opening .brace) ts') :=
    eat_matched (by simp) h
  have hnames := readSpecifiers_matched hopened.rest
  unfold readImport
  dsimp only
  rw [hopened.value]
  refine (readClosingIf_firm _ hnames.rest).bind fun _ _ _ rest => ?_
  refine (expect_firm (by simp) rest).bind fun _ _ _ rest => ?_
  refine (expect_firm (by simp) rest).bind fun source source' hsource rest => ?_
  refine (expectStatementEnd_firm rest).bind fun _ _ _ rest => .ok ?_ rest
  change Import.mk (readSpecifiers (eat (.opening .brace) ts').rest).value source'.value.text
    (S.move.token keyword).location = _
  rw [hnames.value, hsource, S.move.location_token_of_ne_newline hkeyword]
  rfl

theorem readExported_firm {keyword : Token} (hkeyword : keyword.kind ≠ .newline)
    (h : S.Sync ts ts') :
    S.Firm (Item.relocate S.move.place) (readExported S.stop keyword ts)
      (readExported S.stop' (S.move.token keyword) ts') := by
  cases h.front with
  | token first ts ts' rest =>
    refine (readDeclaration_firm first rest).bind fun d d' hd rest => .ok ?_ rest
    change Item.exported d'.value (S.move.token keyword).location = _
    rw [hd, S.move.location_token_of_ne_newline hkeyword]
    rfl
  | shut same nil =>
    rw [readExported, readExported, same, Relocation.token_kind]
    exact .error (S.move.moved_ofToken _ _)
  | opened newline more kind eof tail =>
    rw [readExported, readExported, readDeclaration, kind]
    exact firm_of_errors (by simp [tail])

/-- An item is read alike from both streams. -/
theorem readItem_firm (first : Token) (h : S.Sync ts ts') :
    S.Firm (Item.relocate S.move.place) (readItem S.stop first ts)
      (readItem S.stop' (S.move.token first) ts') := by
  have hdeclared : S.Firm (Item.relocate S.move.place)
      (do return (← readDeclaration S.stop first ts).map .declaration)
      (do return (← readDeclaration S.stop' (S.move.token first) ts').map .declaration) :=
    (readDeclaration_firm first h).bind fun _ _ value rest =>
      .ok (congrArg Item.declaration value) rest
  unfold readItem
  rw [Relocation.token_kind]
  split
  · exact (readImport_firm (by simp [*]) h).bind fun _ _ value rest =>
      .ok (congrArg Item.importFrom value) rest
  · exact readExported_firm (by simp [*]) h
  iterate 3 exact hdeclared
  · exact unexpected_moved first

end UiLang.Seam
