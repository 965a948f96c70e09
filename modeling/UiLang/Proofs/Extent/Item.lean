import UiLang.Proofs.Extent.Body
import UiLang.Proofs.Syntax.Gives

/-!
# Where an item ends

A declaration ends with the closing brace of its body, and what follows the brace says nothing
about it.  An import ends before the end of its line.  So an item is read alike whatever comes after
it, as long as an import is still the last of its line.

## Main results

* `readDeclaration_extent`: a declaration, and anything after it
* `readItem_extent`: an item, and anything after it that ends the line of an import
-/

namespace UiLang

open Seam

variable {stop stop' first : Token} {ts ts' us rest : List Token}

/-! ## Closing braces -/

/-- What was read of `ts` before `rest` ends with a closing brace. -/
def ClosedBefore (ts rest : List Token) : Prop :=
  ∃ front brace, brace.kind = .closing .brace ∧ ts = front ++ brace :: rest

theorem ClosedBefore.of_suffix (h : ClosedBefore us rest) (hsuffix : us <:+ ts) :
    ClosedBefore ts rest := by
  obtain ⟨front, brace, hkind, rfl⟩ := h
  obtain ⟨before, rfl⟩ := hsuffix
  exact ⟨before ++ front, brace, hkind, (List.append_assoc ..).symm⟩

theorem ClosedBefore.length_lt (h : ClosedBefore ts rest) : rest.length < ts.length := by
  obtain ⟨front, brace, -, rfl⟩ := h
  rw [List.length_append, List.length_cons]
  omega

theorem bracedTokens_closes {depth : Nat} {r : Reading (List Token) ts}
    (h : bracedTokens stop depth ts = .ok r) : ClosedBefore ts r.rest := by
  induction ts generalizing depth with
  | nil => cases h
  | cons t ts ih =>
    rw [bracedTokens_cons] at h
    split at h
    · rename_i hclose
      cases h
      exact ⟨[], t, hclose.1, rfl⟩
    · obtain ⟨inner, hinner, h⟩ := ok_of_bind_eq h
      cases h
      exact (ih hinner).of_suffix (List.suffix_cons t ts)

theorem readBraced_closes {r : Reading (List Token) ts} (h : readBraced stop ts = .ok r) :
    ClosedBefore ts r.rest := by
  obtain ⟨brace, -, h⟩ := ok_of_bind_eq h
  obtain ⟨inside, hinside, h⟩ := ok_of_bind_eq h
  cases h
  exact (bracedTokens_closes hinside).of_suffix brace.suffix

theorem readStatements_closes {ts : List Token} {r : Reading (List Statement) ts}
    (h : readStatements stop ts = .ok r) : ClosedBefore ts r.rest := by
  cases hskip : skipNewlines ts with
  | nil =>
    rw [readStatements_of_nil stop hskip] at h
    cases h
  | cons first us =>
    have hsuffix : first :: us <:+ ts := hskip ▸ skipNewlines_suffix ts
    rw [readStatements_of_cons stop hskip] at h
    split at h
    · rename_i hclose
      cases h
      exact ClosedBefore.of_suffix ⟨[], first, hclose, rfl⟩ hsuffix
    · obtain ⟨statement, -, h⟩ := ok_of_bind_eq h
      obtain ⟨statements, hstatements, h⟩ := ok_of_bind_eq h
      cases h
      exact (readStatements_closes hstatements).of_suffix
        ((statement.cons first).suffix.trans hsuffix)
termination_by ts.length
decreasing_by
  have := statement.length_le
  have := length_lt_of_skipNewlines hskip
  omega

theorem readComponent_closes {keyword : Token} {r : Reading Component ts}
    (h : readComponent stop keyword ts = .ok r) : ClosedBefore ts r.rest := by
  obtain ⟨name, -, h⟩ := ok_of_bind_eq h
  obtain ⟨brace, -, h⟩ := ok_of_bind_eq h
  obtain ⟨body, hbody, h⟩ := ok_of_bind_eq h
  cases h
  exact (readStatements_closes hbody).of_suffix (name.skipNewlines.andThen brace).suffix

theorem readFunction_closes {isAsync : Bool} {keyword : Token} {r : Reading Function ts}
    (h : readFunction stop isAsync keyword ts = .ok r) : ClosedBefore ts r.rest := by
  obtain ⟨name, -, h⟩ := ok_of_bind_eq h
  obtain ⟨paren, -, h⟩ := ok_of_bind_eq h
  obtain ⟨params, -, h⟩ := ok_of_bind_eq h
  obtain ⟨body, hbody, h⟩ := ok_of_bind_eq h
  cases h
  exact (readBraced_closes hbody).of_suffix
    ((name.andThen paren).andThen params).skipNewlines.suffix

theorem readDeclaration_closes {r : Reading Declaration ts}
    (h : readDeclaration stop first ts = .ok r) : ClosedBefore ts r.rest := by
  unfold readDeclaration at h
  split at h
  · obtain ⟨component, hcomponent, h⟩ := ok_of_bind_eq h
    cases h
    exact readComponent_closes hcomponent
  · obtain ⟨function, hfunction, h⟩ := ok_of_bind_eq h
    cases h
    exact readFunction_closes hfunction
  · obtain ⟨keyword, -, h⟩ := ok_of_bind_eq h
    obtain ⟨function, hfunction, h⟩ := ok_of_bind_eq h
    cases h
    exact (readFunction_closes hfunction).of_suffix keyword.suffix
  · cases h

/-! ## Reading as far as the brace -/

namespace Cut

variable {C : Cut} {α : Type}

theorem Sync.length_lt (h : C.Sync ts ts') : C.after.length < ts.length := by
  obtain ⟨front, rfl, -⟩ := h
  rw [List.length_append, List.length_cons]
  omega

/-- A reader that does not take the brace gives the same on both streams. -/
theorem Local.gives {outcome : Read α ts} {outcome' : Read α ts'} (h : C.Local outcome outcome')
    {r : Reading α ts} (hr : outcome = .ok r) (hlt : C.after.length < r.rest.length) :
    ∃ rest', Gives outcome' r.value rest' ∧ C.Sync r.rest rest' := by
  cases h with
  | ok value rest =>
    cases hr
    exact ⟨_, value ▸ gives_ok _, rest⟩
  | late late =>
    have hpast : r.rest.length ≤ C.after.length := late r hr
    omega

theorem bracedTokens_gives (h : C.Sync ts ts') {depth : Nat} {r : Reading (List Token) ts}
    (hr : bracedTokens stop depth ts = .ok r) (hend : r.rest = C.after) :
    Gives (bracedTokens stop' depth ts') r.value C.after' := by
  induction ts generalizing depth ts' with
  | nil => cases hr
  | cons t ts ih =>
    obtain ⟨_, _, us', ⟨⟩, rfl, hnext⟩ := h.uncons
    rw [bracedTokens_cons] at hr ⊢
    split at hr
    · rename_i hclose
      cases hr
      rw [if_pos hclose]
      -- the block closes here, so this is the brace
      rcases hnext with hsync | ⟨-, -, rfl⟩
      · have := hsync.length_lt
        have : ts = C.after := hend
        simp_all
      · exact gives_ok _
    · rename_i hclose
      rw [if_neg hclose]
      obtain ⟨inner, hinner, hr⟩ := ok_of_bind_eq hr
      cases hr
      rcases hnext with hsync | ⟨-, rfl, -⟩
      · exact (ih hsync hinner hend).bind fun _ => gives_ok _
      · have := (bracedTokens_closes hinner).length_lt
        have : inner.rest = C.after := hend
        simp_all

theorem readBraced_gives (h : C.Sync ts ts') {r : Reading (List Token) ts}
    (hr : readBraced stop ts = .ok r) (hend : r.rest = C.after) :
    Gives (readBraced stop' ts') r.value C.after' := by
  obtain ⟨brace, hbrace, hr⟩ := ok_of_bind_eq hr
  obtain ⟨inside, hinside, hr⟩ := ok_of_bind_eq hr
  cases hr
  have hlt : C.after.length < brace.rest.length := hend ▸ (bracedTokens_closes hinside).length_lt
  obtain ⟨rest', hbrace', hsync⟩ := (expect_local _ h).gives hbrace hlt
  exact hbrace'.bind fun _ => (bracedTokens_gives hsync hinside hend).bind fun _ => gives_ok _

theorem readStatements_gives {ts ts' : List Token} (h : C.Sync ts ts')
    {r : Reading (List Statement) ts} (hr : readStatements stop ts = .ok r)
    (hend : r.rest = C.after) : Gives (readStatements stop' ts') r.value C.after' := by
  obtain ⟨first, us, us', hus, hus', hnext⟩ := h.skipNewlines.uncons
  rw [readStatements_of_cons stop hus] at hr
  rw [readStatements_of_cons stop' hus']
  split at hr
  · rename_i hclose
    cases hr
    rw [if_pos hclose]
    -- this brace closes the body, so it is the last token of the cut
    rcases hnext with hsync | ⟨-, -, rfl⟩
    · have := hsync.length_lt
      have : us = C.after := hend
      simp_all
    · exact gives_ok _
  · rename_i hclose
    rw [if_neg hclose]
    obtain ⟨statement, hstatement, hr⟩ := ok_of_bind_eq hr
    obtain ⟨statements, hstatements, hr⟩ := ok_of_bind_eq hr
    cases hr
    -- what follows the statement has the closing brace, so the statement ended before it
    have hlt : C.after.length < statement.rest.length :=
      hend ▸ (readStatements_closes hstatements).length_lt
    obtain ⟨rest', hstatement', hsync⟩ :=
      (readStatement_local first (hnext.sync hclose)).gives hstatement hlt
    exact hstatement'.bind fun _ =>
      (readStatements_gives hsync hstatements hend).bind fun _ => gives_ok _
termination_by ts.length
decreasing_by
  have := statement.length_le
  have := length_lt_of_skipNewlines hus
  omega

theorem readComponent_gives {keyword : Token} (h : C.Sync ts ts') {r : Reading Component ts}
    (hr : readComponent stop keyword ts = .ok r) (hend : r.rest = C.after) :
    Gives (readComponent stop' keyword ts') r.value C.after' := by
  obtain ⟨name, hname, hr⟩ := ok_of_bind_eq hr
  obtain ⟨brace, hbrace, hr⟩ := ok_of_bind_eq hr
  obtain ⟨body, hbody, hr⟩ := ok_of_bind_eq hr
  cases hr
  have hlt : C.after.length < brace.rest.length := hend ▸ (readStatements_closes hbody).length_lt
  have hltname : C.after.length < name.rest.length :=
    Nat.lt_of_lt_of_le hlt (Nat.le_trans brace.length_le (length_skipNewlines_le name.rest))
  obtain ⟨_, hname', hsync⟩ := (expect_local _ h).gives hname hltname
  obtain ⟨_, hbrace', hsync⟩ := (expect_local _ hsync.skipNewlines).gives hbrace hlt
  exact hname'.bind fun _ => hbrace'.bind fun _ =>
    (readStatements_gives hsync hbody hend).bind fun _ => gives_ok _

theorem readParams_local {ts ts' : List Token} (h : C.Sync ts ts') :
    C.Local (readParams stop ts) (readParams stop' ts') := by
  obtain ⟨t, us, us', hts, hts', hnext⟩ := h.uncons
  rw [hts, hts', readParams_cons, readParams_cons]
  split
  · exact .ok rfl (hnext.sync (by simp [*]))
  · split
    · obtain ⟨hcomma, rest⟩ := eat_sync .comma (by simp) (hnext.sync (by simp [*]))
      rw [hcomma]
      split
      · exact (readParams_local rest).bind fun _ _ value rest =>
          .ok (congrArg (t.text :: ·) value) rest
      · exact (expect_local _ (hnext.sync (by simp [*]))).bind fun _ _ _ rest => .ok rfl rest
    · exact local_error _ _
termination_by ts.length
decreasing_by
  have := (eat .comma us).length_le
  rw [hts, List.length_cons]
  omega

theorem readFunction_gives {isAsync : Bool} {keyword : Token} (h : C.Sync ts ts')
    {r : Reading Function ts} (hr : readFunction stop isAsync keyword ts = .ok r)
    (hend : r.rest = C.after) :
    Gives (readFunction stop' isAsync keyword ts') r.value C.after' := by
  obtain ⟨name, hname, hr⟩ := ok_of_bind_eq hr
  obtain ⟨paren, hparen, hr⟩ := ok_of_bind_eq hr
  obtain ⟨params, hparams, hr⟩ := ok_of_bind_eq hr
  obtain ⟨body, hbody, hr⟩ := ok_of_bind_eq hr
  cases hr
  have hltparams : C.after.length < params.rest.length :=
    hend ▸ Nat.lt_of_lt_of_le (readBraced_closes hbody).length_lt (length_skipNewlines_le _)
  have hltparen := Nat.lt_of_lt_of_le hltparams params.length_le
  have hltname := Nat.lt_of_lt_of_le hltparen paren.length_le
  obtain ⟨_, hname', hsync⟩ := (expect_local _ h).gives hname hltname
  obtain ⟨_, hparen', hsync⟩ := (expect_local _ hsync).gives hparen hltparen
  obtain ⟨_, hparams', hsync⟩ := (readParams_local hsync).gives hparams hltparams
  exact hname'.bind fun _ => hparen'.bind fun _ => hparams'.bind fun _ =>
    (readBraced_gives hsync.skipNewlines hbody hend).bind fun _ => gives_ok _

theorem readDeclaration_gives (h : C.Sync ts ts') {r : Reading Declaration ts}
    (hr : readDeclaration stop first ts = .ok r) (hend : r.rest = C.after) :
    Gives (readDeclaration stop' first ts') r.value C.after' := by
  unfold readDeclaration at hr ⊢
  split at hr
  · obtain ⟨component, hcomponent, hr⟩ := ok_of_bind_eq hr
    cases hr
    exact (readComponent_gives h hcomponent hend).bind fun _ => gives_ok _
  · obtain ⟨function, hfunction, hr⟩ := ok_of_bind_eq hr
    cases hr
    exact (readFunction_gives h hfunction hend).bind fun _ => gives_ok _
  · obtain ⟨keyword, hkeyword, hr⟩ := ok_of_bind_eq hr
    obtain ⟨function, hfunction, hr⟩ := ok_of_bind_eq hr
    cases hr
    have hlt : C.after.length < keyword.rest.length :=
      hend ▸ (readFunction_closes hfunction).length_lt
    obtain ⟨_, hkeyword', hsync⟩ := (expect_local _ h).gives hkeyword hlt
    exact hkeyword'.bind fun _ =>
      (readFunction_gives hsync hfunction hend).bind fun _ => gives_ok _
  · cases hr

end Cut

/-! ## Items -/

/-- A declaration ends with its closing brace: it is read alike whatever follows. -/
theorem readDeclaration_extent {r : Reading Declaration ts}
    (h : readDeclaration stop first ts = .ok r) :
    ∃ front, ts = front ++ r.rest ∧
      ∀ stop' rest', Gives (readDeclaration stop' first (front ++ rest')) r.value rest' := by
  obtain ⟨front, brace, hbrace, hts⟩ := readDeclaration_closes h
  refine ⟨front ++ [brace], by simp [hts], ?_⟩
  intro stop' rest'
  let C : Cut := ⟨brace, hbrace, r.rest, rest'⟩
  have hsync : C.Sync ts (front ++ [brace] ++ rest') := ⟨front, hts, by simp [C]⟩
  exact C.readDeclaration_gives hsync h rfl

/-- A token that is read only if it is there is read alike up to the token after it. -/
theorem eat_extent {kind : Kind} {next : Token} (h : (eat kind ts).rest = next :: rest) :
    ∃ front, ts = front ++ next :: rest ∧ ∀ rest', ∃ suffix,
      eat kind (front ++ next :: rest') = ⟨(eat kind ts).value, next :: rest', suffix⟩ := by
  cases ts with
  | nil => cases h
  | cons t us =>
    by_cases hkind : t.kind = kind
    · rw [eat_of_eq us hkind] at h ⊢
      refine ⟨[t], congrArg (t :: ·) h, ?_⟩
      intro rest'
      exact ⟨_, eat_of_eq _ hkind⟩
    · rw [eat_of_ne us hkind] at h ⊢
      cases h
      exact ⟨[], rfl, fun rest' => ⟨_, eat_of_ne _ hkind⟩⟩

/-- The names of an import are read alike up to the token after them. -/
theorem readSpecifiers_extent {next : Token} (h : (readSpecifiers ts).rest = next :: rest) :
    ∃ front, ts = front ++ next :: rest ∧ ∀ rest', ∃ suffix,
      readSpecifiers (front ++ next :: rest') =
        ⟨(readSpecifiers ts).value, next :: rest', suffix⟩ := by
  fun_induction readSpecifiers ts with
  | case1 => cases h
  | case2 token hword => cases h
  | case3 token hword comma rest hcomma ih =>
    obtain ⟨front, hfront, hread⟩ := ih h
    refine ⟨token :: comma :: front, by rw [hfront]; rfl, ?_⟩
    intro rest'
    obtain ⟨suffix, hread⟩ := hread rest'
    rw [List.cons_append, List.cons_append, readSpecifiers, if_pos hword, if_pos hcomma, hread]
    exact ⟨_, rfl⟩
  | case4 token hword other rest hcomma =>
    cases h
    refine ⟨[token], rfl, ?_⟩
    intro rest'
    rw [List.cons_append, List.nil_append, readSpecifiers, if_pos hword, if_neg hcomma]
    exact ⟨_, rfl⟩
  | case5 token rest hword =>
    cases h
    refine ⟨[], rfl, ?_⟩
    intro rest'
    rw [List.nil_append, readSpecifiers_cons, if_neg hword]
    exact ⟨_, rfl⟩

theorem readClosingIf_extent {opened : Bool} {r : Reading Unit ts}
    (h : readClosingIf stop opened ts = .ok r) :
    ∃ front, ts = front ++ r.rest ∧
      ∀ stop' rest', Gives (readClosingIf stop' opened (front ++ rest')) r.value rest' := by
  cases opened with
  | true =>
    obtain ⟨close, hclose, h⟩ := ok_of_bind_eq h
    cases h
    obtain ⟨hts, hkind⟩ := ok_of_expect_eq hclose
    exact ⟨[close.value], hts, fun _ _ => (expect_gives hkind).bind fun _ => gives_ok _⟩
  | false =>
    cases h
    exact ⟨[], rfl, fun _ _ => gives_ok _⟩

/-- A statement ends before a token that depends on its kind only. -/
theorem expectStatementEnd_gives (stop' : Token) (ts' : List Token) {r : Reading Unit ts}
    (h : expectStatementEnd stop ts = .ok r)
    (hkind : (peek stop' ts').kind = (peek stop ts).kind) :
    r.rest = ts ∧ Gives (expectStatementEnd stop' ts') () ts' := by
  unfold expectStatementEnd at h ⊢
  rw [hkind]
  split at h <;> cases h <;> exact ⟨rfl, gives_ok _⟩

/-- An import is read alike whatever follows, as long as a token of the same kind comes next. -/
theorem readImport_extent {keyword : Token} {r : Reading Import ts}
    (h : readImport stop keyword ts = .ok r) :
    ∃ front, ts = front ++ r.rest ∧ ∀ stop' rest',
      (peek stop' rest').kind = (peek stop r.rest).kind →
        Gives (readImport stop' keyword (front ++ rest')) r.value rest' := by
  unfold readImport at h
  dsimp only at h
  obtain ⟨closed, hclosed, h⟩ := ok_of_bind_eq h
  obtain ⟨word, hword, h⟩ := ok_of_bind_eq h
  obtain ⟨source, hsource, h⟩ := ok_of_bind_eq h
  obtain ⟨close, hclose, h⟩ := ok_of_bind_eq h
  cases h
  obtain ⟨brace, hbrace, hclosed'⟩ := readClosingIf_extent hclosed
  obtain ⟨hwordrest, hwordkind⟩ := ok_of_expect_eq hword
  obtain ⟨hsourcerest, hsourcekind⟩ := ok_of_expect_eq hsource
  have hend : close.rest = source.rest := (expectStatementEnd_gives stop _ hclose rfl).1
  dsimp only [Reading.andThen] at hbrace hwordrest hsourcerest
  -- a brace if one was opened, and then two tokens: so a token follows the names
  obtain ⟨next, more, hmore⟩ : ∃ next more, brace ++ [word.value, source.value] = next :: more :=
    List.exists_cons_of_ne_nil (by simp)
  have hafter (rest') : brace ++ word.value :: source.value :: rest' = next :: (more ++ rest') := by
    simpa using congrArg (· ++ rest') hmore
  rw [hwordrest, hsourcerest, hafter] at hbrace
  obtain ⟨names, hnames, hspecifiers⟩ := readSpecifiers_extent hbrace
  obtain ⟨first, later, hlater⟩ : ∃ first later, names ++ next :: more = first :: later :=
    List.exists_cons_of_ne_nil (by simp)
  have hwhole (rest') : names ++ next :: (more ++ rest') = first :: (later ++ rest') := by
    simpa using congrArg (· ++ rest') hlater
  rw [hwhole] at hnames
  obtain ⟨opening, hts, hopened⟩ := eat_extent hnames
  refine ⟨opening ++ first :: later, ?_, ?_⟩
  · change ts = _ ++ close.rest
    rw [hend, List.append_assoc]
    exact hts
  · intro stop' rest' hkind
    obtain ⟨_, hopened⟩ := hopened (later ++ rest')
    obtain ⟨_, hspecifiers⟩ := hwhole rest' ▸ hspecifiers (more ++ rest')
    rw [List.append_assoc, List.cons_append]
    unfold readImport
    dsimp only
    rw [hopened]
    dsimp only [Reading.andThen]
    rw [hspecifiers]
    dsimp only
    refine Gives.bind (hafter rest' ▸ hclosed' stop' _) fun _ => ?_
    refine (expect_gives hwordkind).bind fun _ => ?_
    refine (expect_gives hsourcekind).bind fun _ => ?_
    have hkind : (peek stop' rest').kind = (peek stop source.rest).kind := hend ▸ hkind
    exact (expectStatementEnd_gives stop' rest' hclose hkind).2.bind fun _ => gives_ok _

/-- The declaration after `export` ends with its closing brace too. -/
theorem readExported_extent {keyword : Token} {r : Reading Item ts}
    (h : readExported stop keyword ts = .ok r) :
    ∃ front, ts = front ++ r.rest ∧
      ∀ stop' rest', Gives (readExported stop' keyword (front ++ rest')) r.value rest' := by
  cases ts with
  | nil => cases h
  | cons first ts =>
    obtain ⟨declaration, hdeclaration, h⟩ := ok_of_bind_eq h
    cases h
    obtain ⟨front, hts, hread⟩ := readDeclaration_extent hdeclaration
    exact ⟨first :: front, congrArg (first :: ·) hts, fun stop' rest' =>
      (hread stop' rest').bind fun _ => gives_ok _⟩

/-- An item is read alike whatever follows, as long as a token of the same kind comes after an
import. -/
theorem readItem_extent {r : Reading Item ts} (h : readItem stop first ts = .ok r) :
    ∃ front, ts = front ++ r.rest ∧ ∀ stop' rest',
      (first.kind = .keyword .importWord → (peek stop' rest').kind = (peek stop r.rest).kind) →
        Gives (readItem stop' first (front ++ rest')) r.value rest' := by
  have hdeclared {r : Reading Item ts}
      (h : (do return (← readDeclaration stop first ts).map .declaration) = Except.ok r) :
      ∃ front, ts = front ++ r.rest ∧ ∀ stop' rest',
        Gives (do return (← readDeclaration stop' first (front ++ rest')).map .declaration)
          r.value rest' := by
    obtain ⟨declaration, hdeclaration, h⟩ := ok_of_bind_eq h
    cases h
    obtain ⟨front, hts, hread⟩ := readDeclaration_extent hdeclaration
    exact ⟨front, hts, fun stop' rest' => (hread stop' rest').bind fun _ => gives_ok _⟩
  unfold readItem at h ⊢
  split at h
  · obtain ⟨names, hnames, h⟩ := ok_of_bind_eq h
    cases h
    obtain ⟨front, hts, hread⟩ := readImport_extent hnames
    exact ⟨front, hts, fun stop' rest' hkind =>
      (hread stop' rest' (hkind (by assumption))).bind fun _ => gives_ok _⟩
  · obtain ⟨front, hts, hread⟩ := readExported_extent h
    exact ⟨front, hts, fun stop' rest' _ => hread stop' rest'⟩
  -- the three words that start a declaration
  iterate 3
    obtain ⟨front, hts, hread⟩ := hdeclared h
    exact ⟨front, hts, fun stop' rest' _ => hread stop' rest'⟩
  · cases h

end UiLang
