import UiLang.Proofs.Seam.Program
import UiLang.Proofs.Source.Names
import UiLang.Proofs.Syntax.Gives

/-!
# Marks of a program

Every node of a program has a location, and a label that says what stands there in the source: a
keyword, a name, or a keyword with the name that it declares.  Listed before the marks of what is
inside it, the mark of a node is drawn from the token that the node starts with.  So the marks of a
program come from its tokens one after another, from left to right, also after an item that had to
be skipped.

## Main definitions

* `Label`, `Mark`: what a node says about its place in the source
* `Program.marks`: the marks of all nodes, each before those inside it
* `Meets`: marks that are met on the way through a token sequence

## Main results

* `readNode_meets`, `readStatements_meets`, `readItem_meets`: what is read is drawn from the tokens
  that were taken
* `readItemList_meets`: the marks of all items are drawn from left to right
-/

namespace UiLang

open Seam (readElseChain_of_nil readElseChain_of_cons readNodes_of_nil readNodes_of_cons
  readStatements_of_nil readStatements_of_cons)

/-- What stands in the source where a node is located. -/
inductive Label where
  | keyword (word : Keyword)
  | name (name : String)
  | declares (word : Keyword) (name : String)

/-- A label and where it stands. -/
structure Mark where
  label : Label
  location : Location

/-! ## The marks of a program -/

mutual

/-- The marks of a node: its own, then those of its children or branches. -/
def UiNode.marks : UiNode → List Mark
  | .element head children loc => ⟨.name head.name, loc⟩ :: nodeMarks children
  | .component name _ children loc => ⟨.name name, loc⟩ :: nodeMarks children
  | .conditional _ body rest loc => ⟨.keyword .ifWord, loc⟩ :: (nodeMarks body ++ rest.marks)
  | .loop _ _ body loc => ⟨.keyword .forWord, loc⟩ :: nodeMarks body

/-- The marks in the later branches of a conditional. -/
def ElseChain.marks : ElseChain → List Mark
  | .done => []
  | .elseIf _ body rest => nodeMarks body ++ rest.marks
  | .otherwise body => nodeMarks body

/-- The marks of nodes in order. -/
def nodeMarks : List UiNode → List Mark
  | [] => []
  | node :: nodes => node.marks ++ nodeMarks nodes

end

/-- The keyword of a hook. -/
def HookKind.keyword : HookKind → Keyword
  | .mount => .onMount
  | .update => .onUpdate

/-- The marks of a statement. -/
def Statement.marks : Statement → List Mark
  | .props declared => [⟨.keyword .props, declared.location⟩]
  | .state declared => [⟨.declares .state declared.name, declared.location⟩]
  | .computed declared => [⟨.declares .computed declared.name, declared.location⟩]
  | .hook declared => [⟨.keyword declared.kind.keyword, declared.location⟩]
  | .fetch declared => [⟨.keyword .fetch, declared.location⟩]
  | .watcher declared => [⟨.keyword .watch, declared.location⟩]
  | .node content => content.marks

/-- The marks of a component: its own, then those of its body. -/
def Component.marks (component : Component) : List Mark :=
  ⟨.declares .component component.name, component.location⟩ ::
    component.body.flatMap Statement.marks

/-- The marks of a declaration.  An asynchronous function is located at its word `function`. -/
def Declaration.marks : Declaration → List Mark
  | .component declared => declared.marks
  | .function declared => [⟨.declares .function declared.name, declared.location⟩]

/-- The marks of an item.  An export has one of its own before those of what it exports. -/
def Item.marks : Item → List Mark
  | .declaration declared => declared.marks
  | .exported declared loc => ⟨.keyword .exportWord, loc⟩ :: declared.marks
  | .importFrom declared => [⟨.keyword .importWord, declared.location⟩]

/-- The marks of all nodes of a program in pre-order. -/
def Program.marks (program : Program) : List Mark :=
  program.items.flatMap Item.marks

theorem ElementHead.marks_toNode (head : ElementHead) (children : List UiNode)
    (location : Location) :
    (head.toNode children location).marks = ⟨.name head.name, location⟩ :: nodeMarks children := by
  unfold ElementHead.toNode
  split
  · rw [UiNode.marks]
  · rw [UiNode.marks]

/-! ## Marks on the way through tokens -/

/-- `Meets ts marks us`: the marks that are met in order on the way from `ts` to the tokens `us`
that are left.  A token is skipped or carries one mark, and a keyword that declares takes the name
right after it. -/
inductive Meets : List Token → List Mark → List Token → Prop
  | done (ts : List Token) : Meets ts [] ts
  | skip (token : Token) {ts us : List Token} {marks : List Mark} (rest : Meets ts marks us) :
      Meets (token :: ts) marks us
  | keyword {token : Token} {word : Keyword} (kind : token.kind = .keyword word)
      (whole : word ≠ .elseIf) {ts us : List Token} {marks : List Mark} (rest : Meets ts marks us) :
      Meets (token :: ts) (⟨.keyword word, token.location⟩ :: marks) us
  | name {token : Token} (kind : token.kind = .identifier) {ts us : List Token}
      {marks : List Mark} (rest : Meets ts marks us) :
      Meets (token :: ts) (⟨.name token.text, token.location⟩ :: marks) us
  | declares {token name : Token} {word : Keyword} (kind : token.kind = .keyword word)
      (whole : word ≠ .elseIf) (named : name.kind = .identifier) {ts us : List Token}
      {marks : List Mark} (rest : Meets ts marks us) :
      Meets (token :: name :: ts)
        (⟨.declares word name.text, token.location.join name.location⟩ :: marks) us

namespace Meets

variable {ts us vs : List Token} {marks more : List Mark}

/-- Tokens in front may be skipped. -/
theorem before (h : Meets us marks vs) (hsuffix : us <:+ ts) : Meets ts marks vs := by
  obtain ⟨front, rfl⟩ := hsuffix
  induction front with
  | nil => exact h
  | cons token front ih => exact .skip token ih

/-- One way after another. -/
theorem trans (h : Meets ts marks us) (hmore : Meets us more vs) :
    Meets ts (marks ++ more) vs := by
  induction h with
  | done ts => exact hmore
  | skip token rest ih => exact .skip token (ih hmore)
  | keyword kind whole rest ih => exact .keyword kind whole (ih hmore)
  | name kind rest ih => exact .name kind (ih hmore)
  | declares kind whole named rest ih => exact .declares kind whole named (ih hmore)

theorem of_suffix (h : us <:+ ts) : Meets ts [] us :=
  (Meets.done us).before h

/-- Tokens at the end may be skipped. -/
theorem after (h : Meets ts marks us) (hsuffix : vs <:+ us) : Meets ts marks vs := by
  have hboth := h.trans (of_suffix hsuffix)
  rwa [List.append_nil] at hboth

end Meets

/-! ## Nodes -/

section Nodes

variable {stop : Token}

-- Each reader of the group takes the token of its own mark first.  The rest of its marks come from
-- the readers that it calls, one after another on what is left.
mutual

theorem readNode_meets {first : Token} {ts : List Token} {r : Reading UiNode ts}
    (h : readNode stop first ts = .ok r) : Meets (first :: ts) r.value.marks r.rest := by
  rw [readNode] at h
  split at h
  · rename_i hkind
    obtain ⟨head, hhead, h⟩ := ok_of_bind_eq h
    obtain ⟨children, hchildren, h⟩ := ok_of_bind_eq h
    obtain ⟨close, -, h⟩ := ok_of_bind_eq h
    cases h
    -- text and attributes carry no marks, and do not change the name
    have hinner := (readOptionalBlock_meets hchildren).before head.suffix
    have hown := Meets.name hkind (hinner.after close.suffix)
    rw [← readElementHead_name first.text ts head hhead, ← ElementHead.marks_toNode] at hown
    exact hown
  · rename_i hkind
    obtain ⟨condition, -, h⟩ := ok_of_bind_eq h
    obtain ⟨body, hbody, h⟩ := ok_of_bind_eq h
    obtain ⟨chain, hchain, h⟩ := ok_of_bind_eq h
    cases h
    have hinner := (readBlock_meets hbody).before condition.skipNewlines.suffix
    have hown := Meets.keyword hkind (by decide) (hinner.trans (readElseChain_meets hchain))
    rw [← UiNode.marks] at hown
    exact hown
  · rename_i hkind
    obtain ⟨head, -, h⟩ := ok_of_bind_eq h
    obtain ⟨body, hbody, h⟩ := ok_of_bind_eq h
    cases h
    have hinner := (readBlock_meets hbody).before head.skipNewlines.suffix
    have hown := Meets.keyword hkind (by decide) hinner
    rw [← UiNode.marks] at hown
    exact hown
  · cases h
termination_by 3 * ts.length + 2
decreasing_by
  · have := head.length_le
    omega
  · have := condition.skipNewlines.length_le
    omega
  · have : body.rest.length ≤ ts.length := (condition.skipNewlines.andThen body).length_le
    omega
  · have := head.skipNewlines.length_le
    omega

theorem readElseChain_meets {ts : List Token} {r : Reading ElseChain ts}
    (h : readElseChain stop ts = .ok r) : Meets ts r.value.marks r.rest := by
  cases hskip : skipNewlines ts with
  | nil =>
    rw [readElseChain_of_nil stop hskip] at h
    cases h
    exact .done ts
  | cons first us =>
    have hus : us <:+ ts := (List.suffix_cons first us).trans (hskip ▸ skipNewlines_suffix ts)
    rw [readElseChain_of_cons stop hskip] at h
    split at h
    · obtain ⟨condition, -, h⟩ := ok_of_bind_eq h
      obtain ⟨body, hbody, h⟩ := ok_of_bind_eq h
      obtain ⟨chain, hchain, h⟩ := ok_of_bind_eq h
      cases h
      -- a later branch has no mark of its own, only those inside it
      have hinner := (readBlock_meets hbody).trans (readElseChain_meets hchain)
      rw [← ElseChain.marks] at hinner
      exact hinner.before (condition.skipNewlines.suffix.trans hus)
    · obtain ⟨body, hbody, h⟩ := ok_of_bind_eq h
      cases h
      have hinner := readBlock_meets hbody
      rw [← ElseChain.marks] at hinner
      exact hinner.before ((skipNewlines_suffix us).trans hus)
    · cases h
      exact .done ts
termination_by 3 * ts.length + 1
decreasing_by
  · have := length_lt_of_skipNewlines hskip
    have : (skipNewlines condition.rest).length ≤ us.length := condition.skipNewlines.length_le
    omega
  · have := length_lt_of_skipNewlines hskip
    have : body.rest.length ≤ us.length := (condition.skipNewlines.andThen body).length_le
    omega
  · have := length_lt_of_skipNewlines hskip
    have := length_skipNewlines_le us
    omega

theorem readOptionalBlock_meets {ts : List Token} {r : Reading (List UiNode) ts}
    (h : readOptionalBlock stop ts = .ok r) : Meets ts (nodeMarks r.value) r.rest := by
  match ts, r, h with
  | [], r, h =>
    rw [readOptionalBlock] at h
    cases h
    exact .done []
  | first :: rest, r, h =>
    rw [readOptionalBlock] at h
    split at h
    · obtain ⟨nodes, hnodes, h⟩ := ok_of_bind_eq h
      cases h
      exact .skip first (readNodes_meets hnodes)
    · cases h
      exact .done (first :: rest)
termination_by 3 * ts.length + 1
decreasing_by
  simp only [List.length_cons]
  omega

theorem readBlock_meets {ts : List Token} {r : Reading (List UiNode) ts}
    (h : readBlock stop ts = .ok r) : Meets ts (nodeMarks r.value) r.rest := by
  rw [readBlock] at h
  obtain ⟨brace, -, h⟩ := ok_of_bind_eq h
  obtain ⟨nodes, hnodes, h⟩ := ok_of_bind_eq h
  cases h
  exact (readNodes_meets hnodes).before brace.suffix
termination_by 3 * ts.length + 1
decreasing_by
  have := brace.length_le
  omega

theorem readNodes_meets {ts : List Token} {r : Reading (List UiNode) ts}
    (h : readNodes stop ts = .ok r) : Meets ts (nodeMarks r.value) r.rest := by
  cases hskip : skipNewlines ts with
  | nil =>
    rw [readNodes_of_nil stop hskip] at h
    cases h
  | cons first us =>
    have hfirst : first :: us <:+ ts := hskip ▸ skipNewlines_suffix ts
    rw [readNodes_of_cons stop hskip] at h
    split at h
    · cases h
      exact .of_suffix ((List.suffix_cons first us).trans hfirst)
    · obtain ⟨node, hnode, h⟩ := ok_of_bind_eq h
      obtain ⟨nodes, hnodes, h⟩ := ok_of_bind_eq h
      cases h
      have hall := (readNode_meets hnode).trans (readNodes_meets hnodes)
      rw [← nodeMarks] at hall
      exact hall.before hfirst
termination_by 3 * ts.length
decreasing_by
  · have := length_lt_of_skipNewlines hskip
    omega
  · have := length_lt_of_skipNewlines hskip
    have := node.length_le
    omega

end

end Nodes

/-! ## Statements and items -/

section Items

variable {stop : Token}

/-- A keyword, the name right after it, and what else was taken. -/
theorem meets_declared {keyword : Token} {word : Keyword} (hkind : keyword.kind = .keyword word)
    (hword : word ≠ .elseIf) {ts us : List Token} {name : Reading Token ts}
    (hname : expect stop .identifier ts = .ok name) {marks : List Mark}
    (h : Meets name.rest marks us) :
    Meets (keyword :: ts)
      (⟨.declares word name.value.text, keyword.location.join name.value.location⟩ :: marks)
      us := by
  obtain ⟨hts, hnamed⟩ := ok_of_expect_eq hname
  exact (Meets.declares hkind hword hnamed h).before (hts ▸ List.suffix_refl _)

theorem readState_meets {keyword : Token} (hkind : keyword.kind = .keyword .state)
    {ts : List Token} {r : Reading StateDeclaration ts} (h : readState stop keyword ts = .ok r) :
    Meets (keyword :: ts) [⟨.declares .state r.value.name, r.value.location⟩] r.rest := by
  obtain ⟨name, hname, h⟩ := ok_of_bind_eq h
  obtain ⟨assign, -, h⟩ := ok_of_bind_eq h
  obtain ⟨value, -, h⟩ := ok_of_bind_eq h
  obtain ⟨close, -, h⟩ := ok_of_bind_eq h
  cases h
  have hrest := (close.suffix.trans value.suffix).trans assign.suffix
  exact meets_declared hkind (by decide) hname (.of_suffix hrest)

theorem readComputed_meets {keyword : Token} (hkind : keyword.kind = .keyword .computed)
    {ts : List Token} {r : Reading Computed ts} (h : readComputed stop keyword ts = .ok r) :
    Meets (keyword :: ts) [⟨.declares .computed r.value.name, r.value.location⟩] r.rest := by
  obtain ⟨name, hname, h⟩ := ok_of_bind_eq h
  obtain ⟨assign, -, h⟩ := ok_of_bind_eq h
  dsimp only at h
  split at h
  · cases h
  · cases h
    have hrest := (tokensToLineEnd 0 (name.andThen assign).rest).suffix.trans assign.suffix
    exact meets_declared hkind (by decide) hname (.of_suffix hrest)

theorem Fetch.location_set (fetch : Fetch) (key value : String) :
    (fetch.set key value).location = fetch.location := by
  unfold Fetch.set
  split <;> rfl

theorem readFetchAttributes_location (fetch : Fetch) (ts : List Token) :
    Ensures (·.location = fetch.location) (readFetchAttributes stop fetch ts) := by
  match ts with
  | [] =>
    rw [readFetchAttributes]
    · exact ensures_ok rfl
    · simp
  | [token] =>
    rw [readFetchAttributes]
    · exact ensures_ok rfl
    · simp
  | key :: assign :: rest =>
    rw [readFetchAttributes]
    split
    · refine ensures_bind fun value _ => ensures_bind fun all hall => ensures_ok ?_
      exact (readFetchAttributes_location _ value.rest all hall).trans (fetch.location_set _ _)
    · exact ensures_ok rfl
termination_by ts.length
decreasing_by
  have := value.length_le
  simp only [List.length_cons]
  omega

/-- Any statement that starts with a keyword and is located there draws that mark. -/
theorem meets_keyword {first : Token} {word : Keyword} (hkind : first.kind = .keyword word)
    (hword : word ≠ .elseIf) {α : Type} {ts : List Token} (r : Reading α ts) {loc : Location}
    (hloc : loc = first.location) : Meets (first :: ts) [⟨.keyword word, loc⟩] r.rest := by
  rw [hloc]
  exact .keyword hkind hword (.of_suffix r.suffix)

theorem readStatement_meets {first : Token} {ts : List Token} {r : Reading Statement ts}
    (h : readStatement stop first ts = .ok r) : Meets (first :: ts) r.value.marks r.rest := by
  unfold readStatement at h
  split at h
  · rename_i hkind
    obtain ⟨props, hprops, h⟩ := ok_of_bind_eq h
    cases h
    obtain ⟨name, -, hprops⟩ := ok_of_bind_eq hprops
    obtain ⟨more, -, hprops⟩ := ok_of_bind_eq hprops
    obtain ⟨close, -, hprops⟩ := ok_of_bind_eq hprops
    exact meets_keyword hkind (by decide) props (by cases hprops; rfl)
  · rename_i hkind
    obtain ⟨state, hstate, h⟩ := ok_of_bind_eq h
    cases h
    exact readState_meets hkind hstate
  · rename_i hkind
    obtain ⟨computed, hcomputed, h⟩ := ok_of_bind_eq h
    cases h
    exact readComputed_meets hkind hcomputed
  · rename_i hkind
    obtain ⟨hook, hhook, h⟩ := ok_of_bind_eq h
    cases h
    obtain ⟨body, -, hhook⟩ := ok_of_bind_eq hhook
    cases hhook
    exact meets_keyword hkind (by decide) _ rfl
  · rename_i hkind
    obtain ⟨hook, hhook, h⟩ := ok_of_bind_eq h
    cases h
    obtain ⟨body, -, hhook⟩ := ok_of_bind_eq hhook
    cases hhook
    exact meets_keyword hkind (by decide) _ rfl
  · rename_i hkind
    obtain ⟨fetch, hfetch, h⟩ := ok_of_bind_eq h
    cases h
    obtain ⟨all, hall, hfetch⟩ := ok_of_bind_eq hfetch
    obtain ⟨close, -, hfetch⟩ := ok_of_bind_eq hfetch
    cases hfetch
    exact meets_keyword hkind (by decide) (all.andThen close)
      (readFetchAttributes_location _ ts all hall)
  · rename_i hkind
    obtain ⟨watcher, hwatcher, h⟩ := ok_of_bind_eq h
    cases h
    obtain ⟨target, -, hwatcher⟩ := ok_of_bind_eq hwatcher
    obtain ⟨body, -, hwatcher⟩ := ok_of_bind_eq hwatcher
    exact meets_keyword hkind (by decide) watcher (by cases hwatcher; rfl)
  · obtain ⟨node, hnode, h⟩ := ok_of_bind_eq h
    cases h
    exact readNode_meets hnode

theorem readStatements_meets {ts : List Token} {r : Reading (List Statement) ts}
    (h : readStatements stop ts = .ok r) :
    Meets ts (r.value.flatMap Statement.marks) r.rest := by
  cases hskip : skipNewlines ts with
  | nil =>
    rw [readStatements_of_nil stop hskip] at h
    cases h
  | cons first us =>
    have hfirst : first :: us <:+ ts := hskip ▸ skipNewlines_suffix ts
    rw [readStatements_of_cons stop hskip] at h
    split at h
    · cases h
      exact .of_suffix ((List.suffix_cons first us).trans hfirst)
    · obtain ⟨statement, hstatement, h⟩ := ok_of_bind_eq h
      obtain ⟨statements, hstatements, h⟩ := ok_of_bind_eq h
      cases h
      have hall := (readStatement_meets hstatement).trans (readStatements_meets hstatements)
      rw [← List.flatMap_cons] at hall
      exact hall.before hfirst
termination_by ts.length
decreasing_by
  have := length_lt_of_skipNewlines hskip
  have := statement.length_le
  omega

theorem readComponent_meets {keyword : Token} (hkind : keyword.kind = .keyword .component)
    {ts : List Token} {r : Reading Component ts} (h : readComponent stop keyword ts = .ok r) :
    Meets (keyword :: ts) r.value.marks r.rest := by
  obtain ⟨name, hname, h⟩ := ok_of_bind_eq h
  obtain ⟨brace, -, h⟩ := ok_of_bind_eq h
  obtain ⟨body, hbody, h⟩ := ok_of_bind_eq h
  cases h
  have hbrace := brace.suffix.trans (skipNewlines_suffix name.rest)
  exact meets_declared hkind (by decide) hname ((readStatements_meets hbody).before hbrace)

theorem readFunction_meets {isAsync : Bool} {keyword : Token}
    (hkind : keyword.kind = .keyword .function) {ts : List Token} {r : Reading Function ts}
    (h : readFunction stop isAsync keyword ts = .ok r) :
    Meets (keyword :: ts) [⟨.declares .function r.value.name, r.value.location⟩] r.rest := by
  obtain ⟨name, hname, h⟩ := ok_of_bind_eq h
  obtain ⟨paren, -, h⟩ := ok_of_bind_eq h
  obtain ⟨params, -, h⟩ := ok_of_bind_eq h
  obtain ⟨body, -, h⟩ := ok_of_bind_eq h
  cases h
  have hrest := body.suffix.trans ((skipNewlines_suffix params.rest).trans
    (params.suffix.trans paren.suffix))
  exact meets_declared hkind (by decide) hname (.of_suffix hrest)

theorem readDeclaration_meets {first : Token} {ts : List Token} {r : Reading Declaration ts}
    (h : readDeclaration stop first ts = .ok r) : Meets (first :: ts) r.value.marks r.rest := by
  unfold readDeclaration at h
  split at h
  · rename_i hkind
    obtain ⟨component, hcomponent, h⟩ := ok_of_bind_eq h
    cases h
    exact readComponent_meets hkind hcomponent
  · rename_i hkind
    obtain ⟨function, hfunction, h⟩ := ok_of_bind_eq h
    cases h
    exact readFunction_meets hkind hfunction
  · -- the word `async` is skipped: the function is located at the next word
    obtain ⟨keyword, hkeyword, h⟩ := ok_of_bind_eq h
    obtain ⟨function, hfunction, h⟩ := ok_of_bind_eq h
    cases h
    obtain ⟨hts, hkind⟩ := ok_of_expect_eq hkeyword
    have hown := readFunction_meets hkind hfunction
    exact .skip first (hown.before (hts ▸ List.suffix_refl ts))
  · cases h

theorem readItem_meets {first : Token} {ts : List Token} {r : Reading Item ts}
    (h : readItem stop first ts = .ok r) : Meets (first :: ts) r.value.marks r.rest := by
  have hdeclared (h : (readDeclaration stop first ts >>= fun d =>
      .ok (d.map Item.declaration)) = .ok r) : Meets (first :: ts) r.value.marks r.rest := by
    obtain ⟨declaration, hdeclaration, h⟩ := ok_of_bind_eq h
    cases h
    exact readDeclaration_meets hdeclaration
  unfold readItem at h
  split at h
  · rename_i hkind
    obtain ⟨read, hread, h⟩ := ok_of_bind_eq h
    cases h
    obtain ⟨closed, -, hread⟩ := ok_of_bind_eq hread
    obtain ⟨word, -, hread⟩ := ok_of_bind_eq hread
    obtain ⟨source, -, hread⟩ := ok_of_bind_eq hread
    obtain ⟨close, -, hread⟩ := ok_of_bind_eq hread
    exact meets_keyword hkind (by decide) read (by cases hread; rfl)
  · rename_i hkind
    cases ts with
    | nil => cases h
    | cons next rest =>
      obtain ⟨declaration, hdeclaration, h⟩ := ok_of_bind_eq h
      cases h
      exact .keyword hkind (by decide) (readDeclaration_meets hdeclaration)
  -- the three words that start a declaration
  iterate 3 exact hdeclared h
  · cases h

/-- **The marks of all items are drawn from left to right.**  An item that can not be read leaves
no mark, and reading goes on after its first token. -/
theorem readItemList_meets (stop : Token) (ts : List Token) :
    Meets ts ((readItemList stop ts).items.flatMap Item.marks) [] := by
  cases hskip : skipNewlines ts with
  | nil =>
    rw [readItemList_of_nil stop hskip]
    exact .of_suffix List.nil_suffix
  | cons first us =>
    have hfirst : first :: us <:+ ts := hskip ▸ skipNewlines_suffix ts
    cases hread : readItem stop first us with
    | ok item =>
      rw [readItemList_of_ok stop hskip hread, List.flatMap_cons]
      exact ((readItem_meets hread).trans (readItemList_meets stop item.rest)).before hfirst
    | error fault =>
      rw [readItemList_of_error stop hskip hread]
      refine (readItemList_meets stop (skipItem stop 0 (first :: us))).before ?_
      exact ((skipItem_suffix stop 0 first us).trans (List.suffix_cons first us)).trans hfirst
termination_by ts.length
decreasing_by
  · exact Nat.lt_of_le_of_lt (skipItem_suffix stop 0 first us).length_le
      (length_lt_of_skipNewlines hskip)
  · exact Nat.lt_of_le_of_lt item.length_le (length_lt_of_skipNewlines hskip)

end Items

end UiLang
