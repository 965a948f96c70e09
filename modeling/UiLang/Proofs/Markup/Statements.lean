import UiLang.Proofs.Markup.Uniqueness

/-!
# Conditionals and loops in markup

The script of a page finds the branches of a conditional by their ids: `cond-N-if`, then
`cond-N-elseif-0` and so on, then `cond-N-else`.  It finds the template of a loop next to the block
of the loop, by the ids `loop-M` and `loop-M-template`.  This file says what markup must look like
for that, and shows that the markup of every source does.

Branches and templates hold nodes of their own, and these draw numbers from the same counter.  A
conditional and a loop draw theirs before their contents, so the numbers of the statements ascend in
the order in which the statements are written.  Elements and uses of components draw ids too, but
never one that starts like those of statements.

## Main definitions

* `ShownStatement`, `Program.shownStatements`: the conditionals and loops that markup shows
* `Html.Holds`: markup that holds numbered statements, and no other ids or attributes of statements
* `Numbers`: what a computation gives holds statements, with numbers that ascend

## Main results

* `ElementHead.html_holds`, `View.html_holds`, `Program.html_holds`: markup holds its statements
* `parseSource_markup_holds`: so does the markup of every source, with pairwise distinct numbers
-/

namespace UiLang

/-! ## The statements that markup shows -/

/-- A conditional, by the conditions of its `if` and `else if` branches and whether it has an `else`
branch, or a loop. -/
inductive ShownStatement where
  | conditional (conditions : List Condition) (hasElse : Bool)
  | loop (item : String) (array : Path)

/-- Statements, each with the number in its ids. -/
abbrev Numbered := List (Nat × ShownStatement)

/-- What stands inside fields and images is not written. -/
def ElementHead.hidesChildren (head : ElementHead) : Prop :=
  head.name ∈ ["input", "textarea", "image"]

instance (head : ElementHead) : Decidable head.hidesChildren :=
  inferInstanceAs (Decidable (head.name ∈ _))

/-- The conditions of the `else if` branches. -/
def ViewChain.conditions : ViewChain → List Condition
  | .done | .otherwise _ => []
  | .elseIf condition _ rest => condition :: rest.conditions

/-- Whether there is an `else` branch. -/
def ViewChain.hasElse : ViewChain → Bool
  | .done => false
  | .otherwise _ => true
  | .elseIf _ _ rest => rest.hasElse

mutual

/-- The statements that the markup of a view shows, outer ones first. -/
def View.shownStatements : View → List ShownStatement
  | .element head children => if head.hidesChildren then [] else viewsStatements children
  | .expanded _ children => viewsStatements children
  | .missing _ | .recursive _ => []
  | .conditional condition body rest =>
    .conditional (condition :: rest.conditions) rest.hasElse ::
      (viewsStatements body ++ rest.shownStatements)
  | .loop item array body => .loop item array :: viewsStatements body

/-- The statements inside later branches. -/
def ViewChain.shownStatements : ViewChain → List ShownStatement
  | .done => []
  | .elseIf _ body rest => viewsStatements body ++ rest.shownStatements
  | .otherwise body => viewsStatements body

/-- The statements that the markup of views shows. -/
def viewsStatements : List View → List ShownStatement
  | [] => []
  | view :: views => view.shownStatements ++ viewsStatements views

end

/-- The statements that a component at the top of a page shows.  One with props is not shown. -/
def Component.shownStatements (program : Program) (component : Component) : List ShownStatement :=
  match component.props? with
  | some _ => []
  | none => viewsStatements (program.componentViews component)

/-- The statements that a page shows. -/
def Program.shownStatements (program : Program) : List ShownStatement :=
  program.components.flatMap (·.shownStatements program)

/-! ## Markup with statements -/

/-- An id that starts like those of conditionals and loops. -/
def IsStatementId (id : String) : Prop :=
  "cond-".toList <+: id.toList ∨ "loop-".toList <+: id.toList

/-- Attributes of an element that belongs to no statement. -/
structure ArePlain (attributes : List HtmlAttribute) : Prop where
  names : ∀ a ∈ attributes, a.name ≠ .dataCondition ∧ a.name ≠ .dataLoop
  ids : ∀ a ∈ attributes, a.name = .elementId → ¬IsStatementId a.value

/-- A text between two siblings that only breaks the line. -/
def IsGap (text : String) : Prop :=
  ∀ c ∈ text.toList, c.isWhitespace = true

namespace Html

mutual

/-- Siblings hold statements, each with its number, outer ones first.  The blocks of a statement
stand next to each other, with nothing but blanks between them, and apart from them no element has
an id or an attribute of a statement. -/
inductive Holds : List Html → Numbered → Prop
  | nil : Holds [] []
  | text (s : String) {rest : List Html} {found : Numbered} :
      Holds rest found → Holds (.text s :: rest) found
  | comment (s : String) {rest : List Html} {found : Numbered} :
      Holds rest found → Holds (.comment s :: rest) found
  | void (tag : VoidTag) {attributes : List HtmlAttribute} {rest : List Html}
      {found : Numbered} :
      ArePlain attributes → Holds rest found → Holds (.void tag attributes :: rest) found
  | element (tag : Tag) {attributes : List HtmlAttribute} {children rest : List Html}
      {inner found : Numbered} :
      ArePlain attributes → Holds children inner → Holds rest found →
        Holds (.element tag attributes children :: rest) (inner ++ found)
  | conditional (number : Nat) (condition : Condition) {conditions : List Condition}
      {hasElse : Bool} {children later rest : List Html}
      {inner more found : Numbered} :
      Holds children inner → HoldsBranches number 0 later conditions hasElse more →
        Holds rest found →
        Holds (.element .div [⟨.elementId, "cond-" ++ toString number ++ "-if"⟩,
            ⟨.dataCondition, condition.script⟩, ⟨.style, "display: none;"⟩] children ::
            (later ++ rest))
          ((number, .conditional (condition :: conditions) hasElse) :: (inner ++ (more ++ found)))
  | loop (number : Nat) (item : String) (array : Path) (note : String) {gap : String}
      {children rest : List Html} {inner found : Numbered} :
      IsGap gap → Holds children inner → Holds rest found →
        Holds (.element .div [⟨.elementId, "loop-" ++ toString number⟩,
              ⟨.dataLoop, array.text⟩, ⟨.dataItem, item⟩] [.comment note] ::
            .text gap ::
            .element .template [⟨.elementId, "loop-" ++ toString number ++ "-template"⟩] children ::
            rest)
          ((number, .loop item array) :: (inner ++ found))

/-- The later branches of a conditional by its number, from the `else if` branch with a given index
on: their markup, the conditions, whether there is an `else` branch, and the statements inside. -/
inductive HoldsBranches : Nat → Nat → List Html → List Condition → Bool → Numbered → Prop
  | done (number index : Nat) : HoldsBranches number index [] [] false []
  | elseIf (number index : Nat) (condition : Condition) {gap : String} {conditions : List Condition}
      {hasElse : Bool} {children later : List Html} {inner more : Numbered} :
      IsGap gap → Holds children inner →
        HoldsBranches number (index + 1) later conditions hasElse more →
        HoldsBranches number index (.text gap ::
            .element .div [⟨.elementId, "cond-" ++ toString number ++ "-elseif-" ++ toString index⟩,
              ⟨.dataCondition, condition.script⟩, ⟨.style, "display: none;"⟩] children :: later)
          (condition :: conditions) hasElse (inner ++ more)
  | otherwise (number index : Nat) {gap : String} {children : List Html} {inner : Numbered} :
      IsGap gap → Holds children inner →
        HoldsBranches number index [.text gap,
            .element .div [⟨.elementId, "cond-" ++ toString number ++ "-else"⟩,
              ⟨.style, "display: none;"⟩] children]
          [] true inner

end

/-- Siblings after siblings hold what both hold. -/
theorem Holds.append {forest others : List Html} {found more : Numbered} :
    Holds forest found → Holds others more → Holds (forest ++ others) (found ++ more)
  | .nil, h => h
  | .text s rest, h => .text s (rest.append h)
  | .comment s rest, h => .comment s (rest.append h)
  | .void tag plain rest, h => .void tag plain (rest.append h)
  | .element tag plain children rest, h => by
    rw [List.append_assoc]
    exact .element tag plain children (rest.append h)
  | .conditional number condition children later rest, h => by
    simp only [List.cons_append, List.append_assoc]
    exact .conditional number condition children later (rest.append h)
  | .loop number item array note gap children rest, h => by
    simp only [List.cons_append, List.append_assoc]
    exact .loop number item array note gap children (rest.append h)

end Html

section Attributes

theorem arePlain_append {attributes others : List HtmlAttribute} (h : ArePlain attributes)
    (hothers : ArePlain others) : ArePlain (attributes ++ others) where
  names := List.forall_mem_append.mpr ⟨h.names, hothers.names⟩
  ids := List.forall_mem_append.mpr ⟨h.ids, hothers.ids⟩

/-- Attributes with names from a list without those of statements and without ids. -/
theorem arePlain_of_sublist (known : List AttributeName) {attributes : List HtmlAttribute}
    (h : (attributes.map HtmlAttribute.name).Sublist known)
    (hknown : ∀ name ∈ [AttributeName.dataCondition, .dataLoop, .elementId], name ∉ known) :
    ArePlain attributes := by
  have hne {a : HtmlAttribute} (ha : a ∈ attributes) {name : AttributeName}
      (hname : name ∈ [AttributeName.dataCondition, .dataLoop, .elementId]) : a.name ≠ name := by
    rintro rfl
    exact hknown _ hname (h.subset (List.mem_map_of_mem ha))
  constructor
  · intro a ha
    exact ⟨hne ha (by decide), hne ha (by decide)⟩
  · intro a ha hid
    exact absurd hid (hne ha (by decide))

theorem arePlain_cons_id {id : String} {attributes : List HtmlAttribute} (hid : ¬IsStatementId id)
    (h : ArePlain attributes) : ArePlain (⟨.elementId, id⟩ :: attributes) where
  names := List.forall_mem_cons.mpr ⟨⟨by simp, by simp⟩, h.names⟩
  ids := List.forall_mem_cons.mpr ⟨fun _ => hid, h.ids⟩

/-- An id with another word than `cond` and `loop` before its first hyphen. -/
theorem not_isStatementId {stem id : String} {rest : List Char}
    (hid : id.toList = stem.toList ++ '-' :: rest) (hstem : '-' ∉ stem.toList)
    (hne : stem ≠ "cond" ∧ stem ≠ "loop") : ¬IsStatementId id := by
  have hword {word : String} (hword : '-' ∉ word.toList) (hother : stem ≠ word) :
      ¬word.toList ++ ['-'] <+: id.toList := by
    rintro ⟨after, hafter⟩
    rw [hid, List.append_assoc] at hafter
    obtain ⟨heq, -⟩ := eq_of_first_hyphen hword hstem hafter
    exact hother (String.toList_inj.mp heq.symm)
  rintro (hcond | hloop)
  · exact hword (by decide) hne.1 hcond
  · exact hword (by decide) hne.2 hloop

/-- An id without a hyphen. -/
theorem not_isStatementId_of_notMem {id : String} (h : '-' ∉ id.toList) : ¬IsStatementId id := by
  rintro (hcond | hloop)
  · exact h (hcond.subset (by decide))
  · exact h (hloop.subset (by decide))

end Attributes

/-! ## Numbers that ascend -/

/-- Numbers above `low` and up to `high`, each greater than the one before. -/
def Ascends : Nat → List Nat → Nat → Prop
  | low, [], high => low ≤ high
  | low, number :: numbers, high => low < number ∧ Ascends number numbers high

theorem Ascends.le {low high : Nat} {numbers : List Nat} (h : Ascends low numbers high) :
    low ≤ high := by
  induction numbers generalizing low with
  | nil => exact h
  | cons number numbers ih => exact h.1.le.trans (ih h.2)

theorem Ascends.of_le {low low' high : Nat} {numbers : List Nat} (h : Ascends low numbers high)
    (hlow : low' ≤ low) : Ascends low' numbers high := by
  cases numbers with
  | nil => exact hlow.trans h
  | cons number numbers => exact ⟨hlow.trans_lt h.1, h.2⟩

theorem Ascends.append {low middle high : Nat} {numbers others : List Nat}
    (h : Ascends low numbers middle) (hothers : Ascends middle others high) :
    Ascends low (numbers ++ others) high := by
  induction numbers generalizing low with
  | nil => exact hothers.of_le h
  | cons number numbers ih => exact ⟨h.1, ih h.2⟩

theorem Ascends.lt_of_mem {low high number : Nat} {numbers : List Nat}
    (h : Ascends low numbers high) (hnumber : number ∈ numbers) : low < number := by
  induction numbers generalizing low with
  | nil => cases hnumber
  | cons first numbers ih =>
    rcases List.mem_cons.mp hnumber with rfl | hnumber
    · exact h.1
    · exact h.1.trans (ih h.2 hnumber)

theorem Ascends.nodup {low high : Nat} {numbers : List Nat} (h : Ascends low numbers high) :
    numbers.Nodup := by
  induction numbers generalizing low with
  | nil => exact List.nodup_nil
  | cons number numbers ih =>
    exact List.nodup_cons.mpr ⟨fun hmem => (h.2.lt_of_mem hmem).ne rfl, ih h.2⟩

/-- What a computation gives holds statements.  Their numbers are drawn by the computation, in the
order of the statements. -/
def Numbers {α : Type} (statements : List ShownStatement) (P : α → Numbered → Prop)
    (drawing : Drawing α) : Prop :=
  ∀ ids, ∃ found, P (drawing ids).1 found ∧ found.map Prod.snd = statements ∧
    Ascends ids.drawn (found.map Prod.fst) (drawing ids).2.drawn

section Numbers

variable {α β : Type} {statements later : List ShownStatement} {P : α → Numbered → Prop}
  {Q : β → Numbered → Prop} {drawing : Drawing α}

theorem numbers_pure {value : α} (h : P value []) : Numbers [] P (pure value) :=
  fun _ => ⟨[], h, rfl, le_rfl⟩

theorem numbers_bind {next : α → Drawing β} (h : Numbers statements P drawing)
    (hnext : ∀ value found, P value found →
      Numbers later (fun result more => Q result (found ++ more)) (next value)) :
    Numbers (statements ++ later) Q (drawing >>= next) := by
  intro ids
  obtain ⟨found, hfound, rfl, hascends⟩ := h ids
  obtain ⟨more, hmore, rfl, hascends'⟩ := hnext _ _ hfound (drawing ids).2
  refine ⟨found ++ more, hmore, List.map_append, ?_⟩
  rw [List.map_append]
  exact hascends.append hascends'

theorem numbers_map {f : α → β} (h : Numbers statements P drawing)
    (hf : ∀ value found, P value found → Q (f value) found) :
    Numbers statements Q (drawing >>= fun value => pure (f value)) := by
  intro ids
  obtain ⟨found, hfound, hstatements, hascends⟩ := h ids
  exact ⟨found, hf _ _ hfound, hstatements, hascends⟩

/-- Statements that are not written leave a gap between the numbers. -/
theorem numbers_drop (h : Numbers statements P drawing) :
    Numbers [] (fun _ found => found = []) drawing := by
  intro ids
  obtain ⟨found, -, -, hascends⟩ := h ids
  exact ⟨[], rfl, rfl, hascends.le⟩

/-- A conditional or a loop draws its number. -/
theorem numbers_statement (stem : String) (statement : ShownStatement) :
    Numbers [statement]
      (fun id found => ∃ number, id = stem ++ "-" ++ toString number ∧ found = [(number, statement)])
      (IdSupply.numbered stem) :=
  fun ids => ⟨[(ids.drawn + 1, statement)], ⟨_, rfl, rfl⟩, rfl, Nat.lt_succ_self _, le_rfl⟩

/-- Another numbered id. -/
theorem numbers_numbered (stem : String) :
    Numbers [] (fun id found => (∃ rest, id.toList = stem.toList ++ '-' :: rest) ∧ found = [])
      (IdSupply.numbered stem) := by
  intro ids
  refine ⟨[], ⟨⟨(toString (ids.drawn + 1)).toList, ?_⟩, rfl⟩, rfl, Nat.le_succ _⟩
  simp [IdSupply.numbered]

/-- An id from a base takes no number. -/
theorem numbers_named {stem base : String} {rest : List Char}
    (hbase : base.toList = stem.toList ++ '-' :: rest) :
    Numbers [] (fun id found => (∃ rest, id.toList = stem.toList ++ '-' :: rest) ∧ found = [])
      (IdSupply.named base) := by
  intro ids
  refine ⟨[], ⟨?_, rfl⟩, rfl, le_rfl⟩
  change ∃ rest, (ite _ _ _ : String).toList = _
  split
  · exact ⟨rest, hbase⟩
  · -- a repeated use goes on after the base
    refine ⟨rest ++ ("-" ++ toString (ids.usesOf base + 1)).toList, ?_⟩
    simp [hbase]

end Numbers

/-! ## Elements -/

namespace ElementHead

open Html

variable (head : ElementHead) (scope : Scope)

theorem hidesChildren_iff :
    head.hidesChildren ↔ (∃ kind, head.form scope = .field kind) ∨ head.form scope = .image := by
  constructor
  · intro h
    simp only [hidesChildren, List.mem_cons, List.not_mem_nil, or_false] at h
    rcases h with h | h | h
    · exact .inl ⟨.input, by simp [form, h]⟩
    · exact .inl ⟨.textarea, by simp [form, h]⟩
    · exact .inr (by simp [form, h])
  · dsimp only [form, hidesChildren]
    split <;> simp_all

theorem lookAttributes_arePlain (layout : Option Layout) :
    ArePlain (head.lookAttributes scope layout) :=
  arePlain_of_sublist _ (head.names_lookAttributes scope layout) (by decide)

theorem fieldAttributes_arePlain (names : List String) : ArePlain (head.fieldAttributes names) :=
  arePlain_of_sublist _ (head.names_fieldAttributes names) (by decide)

theorem textHtml_holds (tag : Tag) {children : List Html} {inner : Numbered}
    (h : Holds children inner) :
    Numbers [] (fun html found => Holds [html] (inner ++ found))
      (head.textHtml scope tag children) := by
  have hlook := head.lookAttributes_arePlain scope none
  have hbody := Holds.text (head.markedText scope) h
  unfold textHtml
  extract_lets text paths body
  split
  · exact numbers_pure (.element tag hlook hbody .nil)
  · have hbase : ("text-" ++ hyphenated (String.intercalate "-" paths)).toList =
        "text".toList ++ '-' :: (hyphenated (String.intercalate "-" paths)).toList := by
      simp
    refine numbers_map (numbers_named hbase) ?_
    rintro id found ⟨⟨rest, hid⟩, rfl⟩
    refine .element tag (arePlain_cons_id ?_ (arePlain_append ?_ hlook)) hbody .nil
    · exact not_isStatementId hid (by decide) (by decide)
    · exact arePlain_of_sublist [.dataTemplate, .dataVars] (List.Sublist.refl _) (by decide)

theorem drawFieldId_numbers (names : List String) (kind : FieldKind) :
    Numbers [] (fun id found => ¬IsStatementId id ∧ found = [])
      (head.drawFieldId names kind) := by
  have hother {id : String} {found : Numbered}
      (h : (∃ rest, id.toList = kind.name.toList ++ '-' :: rest) ∧ found = []) :
      ¬IsStatementId id ∧ found = [] := by
    obtain ⟨⟨rest, hid⟩, hfound⟩ := h
    refine ⟨not_isStatementId hid kind.hyphen_notMem_name ?_, hfound⟩
    cases kind <;> decide
  intro ids
  unfold drawFieldId
  cases head.binding? names with
  | none =>
    obtain ⟨found, hfound, hrest⟩ := numbers_numbered kind.name ids
    exact ⟨found, hother hfound, hrest⟩
  | some name =>
    have hbase : (kind.name ++ "-" ++ hyphenated name).toList =
        kind.name.toList ++ '-' :: (hyphenated name).toList := by
      simp
    obtain ⟨found, hfound, hrest⟩ := numbers_named hbase ids
    exact ⟨found, hother hfound, hrest⟩

theorem fieldHtml_holds (names : List String) (kind : FieldKind) :
    Numbers [] (fun html found => Holds [html] found) (head.fieldHtml scope names kind) := by
  refine numbers_bind (head.drawFieldId_numbers names kind) ?_
  rintro id found ⟨hid, rfl⟩
  have hplain (shown : String) : ArePlain ([⟨.elementId, id⟩, ⟨.placeholder, shown⟩] ++
      head.lookAttributes scope ++ head.fieldAttributes names) := by
    refine arePlain_append (arePlain_append (arePlain_cons_id hid ?_)
      (head.lookAttributes_arePlain scope none)) (head.fieldAttributes_arePlain names)
    exact arePlain_of_sublist [.placeholder] (List.Sublist.refl _) (by decide)
  cases kind with
  | input =>
    have htype (shown : String) : ArePlain [⟨.type, shown⟩] :=
      arePlain_of_sublist [.type] (List.Sublist.refl _) (by decide)
    exact numbers_pure (.void .input (arePlain_append (htype _) (hplain _)) .nil)
  | textarea => exact numbers_pure (.element .textarea (hplain _) .nil .nil)

/-- The markup of an element holds what its children hold, unless it hides them. -/
theorem html_holds (names : List String) {children : List Html} {inner : Numbered}
    (h : Holds children inner) (hhides : ¬head.hidesChildren) :
    Numbers [] (fun html found => Holds [html] (inner ++ found))
      (head.html scope names children) := by
  have hbody := Holds.text (head.markedText scope) h
  rw [hidesChildren_iff head scope] at hhides
  unfold html
  cases hform : head.form scope with
  | text tag => exact head.textHtml_holds scope tag h
  | field kind => exact absurd (.inl ⟨kind, hform⟩) hhides
  | image => exact absurd (.inr hform) hhides
  | button =>
    refine numbers_pure (.element .button (arePlain_append ?_
      (head.lookAttributes_arePlain scope none)) hbody .nil)
    refine arePlain_of_sublist [.onclick] ?_ (by decide)
    cases head.attributes.get? "onClick" with
    | none => exact List.nil_sublist _
    | some handler => exact List.Sublist.refl _
  | link =>
    refine numbers_pure (.element .a (arePlain_append ?_
      (head.lookAttributes_arePlain scope none)) hbody .nil)
    refine arePlain_of_sublist [.href, .target] ?_ (by decide)
    cases head.attributeText scope "target" with
    | none => exact (List.nil_sublist _).cons_cons _
    | some name => exact List.Sublist.refl _
  | box layout =>
    exact numbers_pure (.element .div (head.lookAttributes_arePlain scope layout) hbody .nil)

/-- A field or an image holds nothing. -/
theorem html_holds_of_hidesChildren (names : List String) (children : List Html)
    (hhides : head.hidesChildren) :
    Numbers [] (fun html found => Holds [html] found) (head.html scope names children) := by
  unfold html
  rcases (head.hidesChildren_iff scope).mp hhides with ⟨kind, hform⟩ | hform
  · rw [hform]
    exact head.fieldHtml_holds scope names kind
  · rw [hform]
    refine numbers_pure (.void .img (arePlain_append ?_
      (head.lookAttributes_arePlain scope none)) .nil)
    exact arePlain_of_sublist [.src, .alt] (List.Sublist.refl _) (by decide)

end ElementHead

/-! ## Views -/

open Html

theorem isGap_lineBreak (level : Nat) : IsGap (lineBreak level) := by
  intro c hc
  rw [lineBreak, String.toList_ofList] at hc
  rcases List.mem_cons.mp hc with rfl | hc
  · rfl
  · rw [List.eq_of_mem_replicate hc]
    rfl

/-- Nodes hold statements on lines of their own at any level. -/
def NodesHold (nodes : List (List Html)) (found : Numbered) : Prop :=
  ∀ level, Holds (indentedLines level nodes) found

theorem nodesHold_cons {node : List Html} {nodes : List (List Html)} {found more : Numbered}
    (h : Holds node found) (hnodes : NodesHold nodes more) :
    NodesHold (node :: nodes) (found ++ more) :=
  fun level => .text _ (h.append (hnodes level))

theorem NodesHold.childBlock {nodes : List (List Html)} {found : Numbered}
    (h : NodesHold nodes found) (level : Nat) : Holds (childBlock level nodes) found := by
  unfold UiLang.childBlock
  split
  · rename_i hempty
    have hnil := h level
    rw [List.isEmpty_iff.mp hempty] at hnil
    exact hnil
  · have hline := (h level).append (.text (lineBreak level) .nil)
    rwa [List.append_nil] at hline

theorem NodesHold.componentBlock {nodes : List (List Html)} {found : Numbered}
    (h : NodesHold nodes found) (level : Nat) : Holds (componentBlock level nodes) found := by
  unfold UiLang.componentBlock
  split
  · rename_i hempty
    have hnil := h level
    rw [List.isEmpty_iff.mp hempty] at hnil
    exact .text _ hnil
  · exact h.childBlock level

/-- A use of a component has an id that starts with an uppercase letter. -/
theorem IsUseName.not_isStatementId {name id : String} {rest : List Char} (h : IsUseName name)
    (hid : id.toList = name.toList ++ '-' :: rest) : ¬IsStatementId id := by
  refine UiLang.not_isStatementId hid (h.identifier.notMem (by decide)) ⟨?_, ?_⟩ <;>
  · rintro rfl
    exact absurd h.uppercase (by decide)

mutual

/-- **The markup of a view holds its statements.** -/
theorem View.html_holds (names : List String) (level : Nat) (scope : Scope) :
    (view : View) → view.IsNamed → Numbers view.shownStatements Holds (view.html names level scope)
  | .element head children, h => by
    have hinner := viewsHtml_hold names (level + 1) scope.inner children h
    by_cases hhides : head.hidesChildren
    · rw [View.shownStatements, if_pos hhides]
      refine numbers_bind (numbers_drop hinner) ?_
      rintro inner found rfl
      exact numbers_map (head.html_holds_of_hidesChildren scope names _ hhides) fun _ _ h => h
    · rw [View.shownStatements, if_neg hhides, ← List.append_nil (viewsStatements children)]
      refine numbers_bind hinner fun inner found hfound => ?_
      exact numbers_map (head.html_holds scope names (hfound.childBlock level) hhides)
        fun _ _ h => h
  | .expanded name children, h => by
    rw [View.shownStatements, ← List.append_nil (viewsStatements children)]
    refine numbers_bind (viewsHtml_hold names (level + 1) scope.inner children h.2)
      fun inner found hfound => numbers_map (numbers_numbered name) ?_
    rintro id more ⟨⟨rest, hid⟩, rfl⟩
    refine .element .div (arePlain_cons_id (h.1.not_isStatementId hid) ?_)
      (hfound.componentBlock level) .nil
    exact arePlain_of_sublist [.classes] (List.Sublist.refl _) (by decide)
  | .missing _, _ => numbers_pure (.comment _ .nil)
  | .recursive _, _ => numbers_pure (.comment _ .nil)
  | .conditional condition body rest, h => by
    refine numbers_bind (numbers_statement "cond" _) ?_
    rintro _ _ ⟨number, rfl, rfl⟩
    refine numbers_bind (viewsHtml_hold names (level + 1) scope.inner body h.1)
      fun inner found hfound => ?_
    refine numbers_map (rest.html_holds names level scope number 0 h.2) fun later more hmore => ?_
    have hall := Holds.conditional number condition (hfound.childBlock level) hmore .nil
    rwa [List.append_nil, List.append_nil] at hall
  | .loop item array body, h => by
    refine numbers_bind (numbers_statement "loop" _) ?_
    rintro _ _ ⟨number, rfl, rfl⟩
    refine numbers_map (viewsHtml_hold names (level + 1) (.ofLoop item array) body h)
      fun inner found hfound => ?_
    have hall := Holds.loop number item array " Loop items will be rendered here "
      (isGap_lineBreak level) (hfound.childBlock level) .nil
    rwa [List.append_nil] at hall

theorem ViewChain.html_holds (names : List String) (level : Nat) (scope : Scope) (number : Nat)
    (index : Nat) : (chain : ViewChain) → chain.IsNamed →
      Numbers chain.shownStatements
        (fun later found =>
          HoldsBranches number index later chain.conditions chain.hasElse found)
        (chain.html names level scope ("cond" ++ "-" ++ toString number) index)
  | .done, _ => numbers_pure (.done number index)
  | .elseIf condition body rest, h => by
    refine numbers_bind (viewsHtml_hold names (level + 1) scope.inner body h.1)
      fun inner found hfound => ?_
    refine numbers_map (rest.html_holds names level scope number (index + 1) h.2)
      fun later more hmore => ?_
    exact .elseIf number index condition (isGap_lineBreak level) (hfound.childBlock level) hmore
  | .otherwise body, h => by
    refine numbers_map (viewsHtml_hold names (level + 1) scope.inner body h)
      fun inner found hfound => ?_
    exact .otherwise number index (isGap_lineBreak level) (hfound.childBlock level)

theorem viewsHtml_hold (names : List String) (level : Nat) (scope : Scope) :
    (views : List View) → ViewsNamed views →
      Numbers (viewsStatements views) NodesHold (viewsHtml names level scope views)
  | [], _ => numbers_pure fun _ => .nil
  | view :: views, h => by
    refine numbers_bind (view.html_holds names level scope h.1) fun first found hfound => ?_
    exact numbers_map (viewsHtml_hold names level scope views h.2) fun rest more hmore =>
      nodesHold_cons hfound hmore

end

/-! ## Programs -/

theorem Component.html_holds {program : Program} (h : program.IsNamed) {component : Component}
    (hcomponent : component.IsNamed) :
    Numbers (component.shownStatements program) (fun html found => Holds [html] found)
      (component.html program) := by
  unfold Component.html Component.shownStatements
  cases component.props? with
  | some props => exact numbers_pure (Holds.comment _ .nil)
  | none =>
    refine numbers_map (viewsHtml_hold program.bindable 1 {} _
      (program.componentViews_named h hcomponent)) fun inner found hfound => ?_
    -- the id of a component at the top is its name, which has no hyphen
    have hid := not_isStatementId_of_notMem (hcomponent.name.notMem (c := '-') (by decide))
    have hclass : ArePlain [⟨.classes, "frobo-component"⟩] :=
      arePlain_of_sublist [.classes] (List.Sublist.refl _) (by decide)
    have hall := Holds.element .div (arePlain_cons_id hid hclass) (hfound.componentBlock 0) .nil
    rwa [List.append_nil] at hall

theorem componentsHtml_hold {program : Program} (h : program.IsNamed) :
    (components : List Component) → (∀ component ∈ components, component.IsNamed) →
      Numbers (components.flatMap (·.shownStatements program)) Holds
        (componentsHtml program components)
  | [], _ => numbers_pure .nil
  | component :: components, hcomponents => by
    obtain ⟨hfirst, hrest⟩ := List.forall_mem_cons.mp hcomponents
    refine numbers_bind (component.html_holds h hfirst) fun first found hfound => ?_
    refine numbers_map (componentsHtml_hold h components hrest) fun rest more hmore => ?_
    have hbelow : Holds (if rest.isEmpty then [] else .text "\n" :: rest) more := by
      split
      · rename_i hempty
        rwa [List.isEmpty_iff.mp hempty] at hmore
      · exact .text _ hmore
    exact hfound.append hbelow

/-- The markup of a program whose names are identifiers holds its statements. -/
theorem Program.html_holds {program : Program} (h : program.IsNamed) :
    ∃ found, Holds program.html found ∧ found.map Prod.snd = program.shownStatements ∧
      (found.map Prod.fst).Nodup := by
  obtain ⟨found, hfound, hstatements, hascends⟩ := componentsHtml_hold h program.components h {}
  exact ⟨found, hfound, hstatements, hascends.nodup⟩

open Markup

/-- **The markup of every source holds its statements.**  A reader of the markup finds the tree that
it was written from.  In it each conditional and each loop that is shown has a number that no other
one has.  Its blocks stand next to each other, in order: the hidden blocks `cond-N-if`,
`cond-N-elseif-0` and so on with their conditions and `cond-N-else` without one, only if there is an
`else` branch, or the block `loop-M` and the template `loop-M-template`.  No other element has a
condition or a loop, or an id that starts with `cond-` or `loop-`. -/
theorem parseSource_markup_holds (source : String) :
    pieces? (parseSource source).program.markup.toList =
        some (joined (forestPieces (parseSource source).program.html)) ∧
      ∃ found, Holds (parseSource source).program.html found ∧
        found.map Prod.snd = (parseSource source).program.shownStatements ∧
        (found.map Prod.fst).Nodup := by
  have hnamed := parseSource_isNamed source
  refine ⟨?_, Program.html_holds hnamed⟩
  rw [Program.markup, render, String.toList_ofList]
  exact pieces?_forestChars (Program.html_isSafe hnamed)

end UiLang
