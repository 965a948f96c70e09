import UiLang.Markup.Basic
import UiLang.Proofs.Markup.Pieces

/-!
# Markup of programs is safe

The markup of a program is built as a tree, node by node.  Every form of an element has each
attribute at most once, and comments are free in identifiers only.  So the markup of every source
is read back as its own tree, whatever the texts, attributes, styles and conditions in it are.

## Main definitions

* `Html.IsSafe`: trees with known comments and no attribute twice
* `View.IsNamed`: all components that a view names are named by identifiers
* `Draws`: a property of whatever a computation with ids gives

## Main results

* `ElementHead.html_isSafe`, `View.html_isSafe`, `Program.html_isSafe`: markup is safe
* `parseSource_markup_isSafe`: so is the markup of every source
-/

namespace UiLang

/-! ## Safe trees -/

namespace Html

open Markup

/-- All pieces of trees are safe. -/
def IsSafe (forest : List Html) : Prop :=
  ∀ piece ∈ forestPieces forest, piece.IsSafe

theorem forestPieces_append (forest others : List Html) :
    forestPieces (forest ++ others) = forestPieces forest ++ forestPieces others := by
  induction forest with
  | nil => rfl
  | cons html forest ih =>
    rw [List.cons_append, forestPieces, forestPieces, ih, List.append_assoc]

theorem isSafe_nil : IsSafe [] :=
  List.forall_mem_nil _

theorem isSafe_append {forest others : List Html} (h : IsSafe forest) (hothers : IsSafe others) :
    IsSafe (forest ++ others) := by
  intro piece hpiece
  rw [forestPieces_append, List.mem_append] at hpiece
  exact hpiece.elim (h piece) (hothers piece)

theorem isSafe_cons {html : Html} {forest : List Html} (hhtml : IsSafe [html])
    (h : IsSafe forest) : IsSafe (html :: forest) :=
  isSafe_append hhtml h

theorem isSafe_flatten {forests : List (List Html)} (h : ∀ forest ∈ forests, IsSafe forest) :
    IsSafe forests.flatten := by
  induction forests with
  | nil => exact isSafe_nil
  | cons forest forests ih =>
    obtain ⟨hforest, hforests⟩ := List.forall_mem_cons.mp h
    exact isSafe_append hforest (ih hforests)

theorem isSafe_text (s : String) : IsSafe [.text s] := by
  rintro piece (_ | ⟨_, ⟨⟩⟩)
  exact isEscaped_escapeChars s.toList

theorem isSafe_comment {s : String} (h : IsComment s.toList) : IsSafe [.comment s] := by
  rintro piece (_ | ⟨_, ⟨⟩⟩)
  exact h

theorem name_mem_pairedTags (tag : Tag) : tag.name.toList ∈ pairedTags := by
  cases tag with
  | heading level => revert level; decide
  | _ => decide

theorem name_mem_voidTags (tag : VoidTag) : tag.name.toList ∈ voidTags := by
  cases tag <;> decide

theorem name_mem_attributeNames (name : AttributeName) : name.name.toList ∈ attributeNames := by
  cases name <;> decide

theorem name_injective : Function.Injective fun name : AttributeName => name.name.toList := by
  -- the written names are listed in the order of the constructors
  have hindex (name : AttributeName) :
      AttributeName.ofNat (attributeNames.idxOf name.name.toList) = name := by
    cases name <;> decide
  intro name other h
  rw [← hindex name, ← hindex other]
  exact congrArg (fun chars => AttributeName.ofNat (attributeNames.idxOf chars)) h

theorem areAttributes_map {attributes : List HtmlAttribute}
    (h : (attributes.map HtmlAttribute.name).Nodup) :
    AreAttributes (attributes.map attributePiece) where
  distinct := by
    have hmap : (attributes.map attributePiece).map Prod.fst =
        (attributes.map HtmlAttribute.name).map fun name => name.name.toList := by
      rw [List.map_map, List.map_map]
      rfl
    rw [hmap]
    exact List.Pairwise.map _ (fun _ _ hne heq => hne (name_injective heq)) h
  known := by
    intro a ha
    obtain ⟨b, -, rfl⟩ := List.mem_map.mp ha
    exact name_mem_attributeNames b.name
  escaped := by
    intro a ha
    obtain ⟨b, -, rfl⟩ := List.mem_map.mp ha
    exact isEscaped_escapeChars b.value.toList

theorem isSafe_element {tag : Tag} {attributes : List HtmlAttribute} {children : List Html}
    (hattributes : (attributes.map HtmlAttribute.name).Nodup) (h : IsSafe children) :
    IsSafe [.element tag attributes children] := by
  have htag := name_mem_pairedTags tag
  intro piece hpiece
  rw [forestPieces, forestPieces, List.append_nil, pieces] at hpiece
  rcases List.mem_cons.mp hpiece with rfl | hpiece
  · exact ⟨htag, areAttributes_map hattributes⟩
  · rcases List.mem_append.mp hpiece with hpiece | hpiece
    · exact h piece hpiece
    · obtain rfl := List.mem_singleton.mp hpiece
      exact htag

theorem isSafe_void {tag : VoidTag} {attributes : List HtmlAttribute}
    (hattributes : (attributes.map HtmlAttribute.name).Nodup) :
    IsSafe [.void tag attributes] := by
  rintro piece (_ | ⟨_, ⟨⟩⟩)
  exact ⟨name_mem_voidTags tag, areAttributes_map hattributes⟩

end Html

/-! ## Elements -/

/-- Whatever a computation gives has the property `P`, from any supply of ids. -/
def Draws {α : Type} (P : α → Prop) (drawing : Drawing α) : Prop :=
  ∀ ids, P (drawing ids).1

theorem draws_pure {α : Type} {P : α → Prop} {value : α} (h : P value) :
    Draws P (pure value) :=
  fun _ => h

theorem draws_bind {α β : Type} {P : α → Prop} {Q : β → Prop} {drawing : Drawing α}
    {next : α → Drawing β} (h : Draws P drawing) (hnext : ∀ value, P value → Draws Q (next value)) :
    Draws Q (drawing >>= next) :=
  fun ids => hnext _ (h ids) _

theorem draws_any {α : Type} (drawing : Drawing α) : Draws (fun _ => True) drawing :=
  fun _ => trivial

namespace ElementHead

open Html

variable (head : ElementHead) (scope : Scope)

theorem names_classAttributes :
    ((head.classAttributes scope).map HtmlAttribute.name).Sublist
      ([.classes] ++ [.dataDynamicClass]) := by
  unfold classAttributes
  rw [List.map_append]
  refine List.Sublist.append ?_ ?_
  · split <;> simp
  · split <;> simp

theorem names_styleAttributes (layout : Option Layout) :
    ((head.styleAttributes layout).map HtmlAttribute.name).Sublist [.style] := by
  unfold styleAttributes
  cases layout with
  | none =>
    dsimp only
    split <;> simp
  | some layout => exact List.Sublist.refl _

theorem names_lookAttributes (layout : Option Layout) :
    ((head.lookAttributes scope layout).map HtmlAttribute.name).Sublist
      [.classes, .dataDynamicClass, .style] := by
  rw [lookAttributes, List.map_append]
  exact (head.names_classAttributes scope).append (head.names_styleAttributes layout)

theorem names_fieldAttributes (names : List String) :
    ((head.fieldAttributes names).map HtmlAttribute.name).Sublist
      ([.dataBind, .value] ++ [.dataOnchange]) := by
  unfold fieldAttributes
  rw [List.map_append]
  refine List.Sublist.append ?_ ?_
  · split <;> simp
  · split <;> simp

/-- Attributes before those of the look of an element, none of them twice. -/
theorem nodup_names_append (known : List AttributeName) {attributes : List HtmlAttribute}
    {layout : Option Layout} (h : (attributes.map HtmlAttribute.name).Sublist known)
    (hknown : (known ++ [AttributeName.classes, .dataDynamicClass, .style]).Nodup) :
    ((attributes ++ head.lookAttributes scope layout).map HtmlAttribute.name).Nodup := by
  rw [List.map_append]
  exact (h.append (head.names_lookAttributes scope layout)).nodup hknown

theorem textHtml_isSafe (tag : Tag) {children : List Html} (h : IsSafe children) :
    Draws (fun html => IsSafe [html]) (head.textHtml scope tag children) := by
  have hbody := isSafe_cons (isSafe_text (head.markedText scope)) h
  unfold textHtml
  extract_lets text paths body
  split
  · refine draws_pure (isSafe_element ?_ hbody)
    exact (head.names_lookAttributes scope none).nodup (by decide)
  · refine draws_bind (draws_any _) fun id _ => draws_pure (isSafe_element ?_ hbody)
    exact head.nodup_names_append scope [.elementId, .dataTemplate, .dataVars]
      (List.Sublist.refl _) (by decide)

theorem fieldHtml_isSafe (names : List String) (kind : FieldKind) :
    Draws (fun html => IsSafe [html]) (head.fieldHtml scope names kind) := by
  have hattributes (id shown : String) :
      (([HtmlAttribute.mk .elementId id, ⟨.placeholder, shown⟩] ++ head.lookAttributes scope ++
        head.fieldAttributes names).map HtmlAttribute.name).Sublist
      [.elementId, .placeholder, .classes, .dataDynamicClass, .style, .dataBind, .value,
        .dataOnchange] := by
    rw [List.map_append, List.map_append]
    exact ((List.Sublist.refl _).append (head.names_lookAttributes scope none)).append
      (head.names_fieldAttributes names)
  refine draws_bind (draws_any _) fun id _ => ?_
  cases kind with
  | input =>
    -- an input has its type in front of what both kinds have
    refine draws_pure (isSafe_void ?_)
    exact ((hattributes id _).cons_cons .type).nodup (by decide)
  | textarea =>
    refine draws_pure (isSafe_element ?_ isSafe_nil)
    exact (hattributes id _).nodup (by decide)

/-- **The markup of an element is safe** if that of its children is. -/
theorem html_isSafe (names : List String) {children : List Html} (h : IsSafe children) :
    Draws (fun html => IsSafe [html]) (head.html scope names children) := by
  have hbody := isSafe_cons (isSafe_text (head.markedText scope)) h
  unfold html
  cases head.form scope with
  | text tag => exact head.textHtml_isSafe scope tag h
  | field kind => exact head.fieldHtml_isSafe scope names kind
  | button =>
    refine draws_pure (isSafe_element ?_ hbody)
    refine head.nodup_names_append scope [.onclick] ?_ (by decide)
    cases head.attributes.get? "onClick" with
    | none => exact List.nil_sublist _
    | some handler => exact List.Sublist.refl _
  | image =>
    refine draws_pure (isSafe_void ?_)
    exact head.nodup_names_append scope [.src, .alt] (List.Sublist.refl _) (by decide)
  | link =>
    refine draws_pure (isSafe_element ?_ hbody)
    refine head.nodup_names_append scope [.href, .target] ?_ (by decide)
    cases head.attributeText scope "target" with
    | none => exact (List.nil_sublist _).cons_cons _
    | some name => exact List.Sublist.refl _
  | box layout =>
    -- the style of the layout joins the style of the element in one attribute
    refine draws_pure (isSafe_element ?_ hbody)
    exact (head.names_lookAttributes scope layout).nodup (by decide)

end ElementHead

/-! ## Views -/

mutual

/-- The components that a view names, expanded or not, are named by identifiers. -/
def View.IsNamed : View → Prop
  | .element _ children => ViewsNamed children
  | .expanded name children => IsUseName name ∧ ViewsNamed children
  | .missing name => IsIdentifier name
  | .recursive name => IsIdentifier name
  | .conditional _ body rest => ViewsNamed body ∧ rest.IsNamed
  | .loop _ _ body => ViewsNamed body

/-- The components that later branches name are named by identifiers. -/
def ViewChain.IsNamed : ViewChain → Prop
  | .done => True
  | .elseIf _ body rest => ViewsNamed body ∧ rest.IsNamed
  | .otherwise body => ViewsNamed body

/-- The components that views name are named by identifiers. -/
def ViewsNamed : List View → Prop
  | [] => True
  | view :: views => view.IsNamed ∧ ViewsNamed views

end

mutual

theorem UiNode.substitute_isNamed (props : PropValues) :
    (node : UiNode) → node.IsNamed → (node.substitute props).IsNamed
  | .element _ children _, h => substituteAll_named props children h
  | .component _ _ children _, h => ⟨h.1, substituteAll_named props children h.2⟩
  | .conditional _ body rest _, h =>
    ⟨substituteAll_named props body h.1, rest.substitute_isNamed props h.2⟩
  | .loop _ _ body _, h => substituteAll_named props body h

theorem ElseChain.substitute_isNamed (props : PropValues) :
    (chain : ElseChain) → chain.IsNamed → (chain.substitute props).IsNamed
  | .done, _ => trivial
  | .elseIf _ body rest, h =>
    ⟨substituteAll_named props body h.1, rest.substitute_isNamed props h.2⟩
  | .otherwise body, h => substituteAll_named props body h

theorem substituteAll_named (props : PropValues) :
    (nodes : List UiNode) → NodesNamed nodes → NodesNamed (substituteAll props nodes)
  | [], _ => trivial
  | node :: nodes, h => ⟨node.substitute_isNamed props h.1, substituteAll_named props nodes h.2⟩

end

/-- Uses keep the name that they have, expanded or not. -/
def Expansion.IsNamed (expand : Expansion) : Prop :=
  ∀ name attributes, IsUseName name → (expand name attributes).IsNamed

mutual

theorem UiNode.toView_isNamed {expand : Expansion} (hexpand : expand.IsNamed) :
    (node : UiNode) → node.IsNamed → (node.toView expand).IsNamed
  | .element _ children _, h => viewsOf_named hexpand children h
  | .component name attributes _ _, h => hexpand name attributes h.1
  | .conditional _ body rest _, h =>
    ⟨viewsOf_named hexpand body h.1, rest.toView_isNamed hexpand h.2⟩
  | .loop _ _ body _, h => viewsOf_named hexpand body h

theorem ElseChain.toView_isNamed {expand : Expansion} (hexpand : expand.IsNamed) :
    (chain : ElseChain) → chain.IsNamed → (chain.toView expand).IsNamed
  | .done, _ => trivial
  | .elseIf _ body rest, h =>
    ⟨viewsOf_named hexpand body h.1, rest.toView_isNamed hexpand h.2⟩
  | .otherwise body, h => viewsOf_named hexpand body h

theorem viewsOf_named {expand : Expansion} (hexpand : expand.IsNamed) :
    (nodes : List UiNode) → NodesNamed nodes → ViewsNamed (viewsOf expand nodes)
  | [], _ => trivial
  | node :: nodes, h => ⟨node.toView_isNamed hexpand h.1, viewsOf_named hexpand nodes h.2⟩

end

theorem nodesNamed_iff {nodes : List UiNode} : NodesNamed nodes ↔ ∀ node ∈ nodes, node.IsNamed := by
  induction nodes with
  | nil => exact ⟨fun _ => List.forall_mem_nil _, fun _ => trivial⟩
  | cons node nodes ih => rw [NodesNamed, ih, List.forall_mem_cons]

/-- What is picked from the body of a component is named if its statement is. -/
theorem Component.IsNamed.of_mem_filterMap {component : Component} (h : component.IsNamed)
    {α : Type} (statement : α → Statement) {pick : Statement → Option α}
    (hpick : ∀ picked a, pick picked = some a → picked = statement a) :
    ∀ a ∈ component.body.filterMap pick, (statement a).IsNamed := by
  intro a ha
  obtain ⟨picked, hpicked, hsome⟩ := List.mem_filterMap.mp ha
  exact hpick picked a hsome ▸ h.body picked hpicked

theorem Component.IsNamed.nodes {component : Component} (h : component.IsNamed) :
    NodesNamed component.nodes := by
  rw [nodesNamed_iff]
  refine h.of_mem_filterMap .node fun picked node hsome => ?_
  split at hsome <;> cases hsome
  rfl

theorem Component.IsNamed.props {component : Component} (h : component.IsNamed) {props : Props}
    (hprops : component.props? = some props) : ∀ name ∈ props.names, IsIdentifier name := by
  refine h.of_mem_filterMap .props (fun picked declared hsome => ?_) props
    (List.mem_of_head? hprops)
  split at hsome <;> cases hsome
  rfl

/-- Expansion goes on in the definitions of the program, at most `depth` deep, and there all names
are identifiers again. -/
theorem Program.instantiate_isNamed {program : Program} (h : program.IsNamed) (depth : Nat)
    (opened : List String) : (program.instantiate depth opened).IsNamed := by
  -- the induction is on the depth; a use is missing, stands inside itself or is expanded with one
  -- level less left
  induction depth generalizing opened with
  | zero =>
    intro name attributes hname
    unfold instantiate
    split
    · exact hname.identifier
    · split <;> exact hname.identifier
  | succ depth ih =>
    intro name attributes hname
    unfold instantiate
    split
    · exact hname.identifier
    · rename_i definition hfound
      split
      · exact hname.identifier
      · have hdefinition := h definition (List.mem_of_find?_eq_some hfound)
        exact ⟨hname, viewsOf_named (ih (name :: opened)) _
          (substituteAll_named _ _ hdefinition.nodes)⟩

theorem Program.componentViews_named {program : Program} (h : program.IsNamed)
    {component : Component} (hcomponent : component.IsNamed) :
    ViewsNamed (program.componentViews component) :=
  viewsOf_named (program.instantiate_isNamed h _ _) _ hcomponent.nodes

/-! ## Markup -/

open Html Markup

section Blocks

variable {level : Nat} {nodes : List (List Html)} (h : ∀ node ∈ nodes, IsSafe node)

include h

theorem indentedLines_isSafe : IsSafe (indentedLines level nodes) := by
  unfold indentedLines
  rw [List.flatMap_def]
  refine isSafe_flatten fun forest hforest => ?_
  obtain ⟨node, hnode, rfl⟩ := List.mem_map.mp hforest
  exact isSafe_cons (isSafe_text _) (h node hnode)

theorem childBlock_isSafe : IsSafe (childBlock level nodes) := by
  unfold childBlock
  split
  · exact isSafe_nil
  · exact isSafe_append (indentedLines_isSafe h) (isSafe_text _)

theorem componentBlock_isSafe : IsSafe (componentBlock level nodes) := by
  unfold componentBlock
  split
  · exact isSafe_text _
  · exact childBlock_isSafe h

end Blocks

theorem branchHtml_isSafe (id : String) (condition : Option Condition) {children : List Html}
    (h : IsSafe children) : IsSafe [branchHtml id condition children] := by
  refine isSafe_element ?_ h
  cases condition <;> simp

theorem loopHtml_isSafe (level : Nat) (id item : String) (array : Path) {children : List Html}
    (h : IsSafe children) : IsSafe (loopHtml level id item array children) := by
  have hblock : IsSafe [Html.element .div
      [⟨.elementId, id⟩, ⟨.dataLoop, array.text⟩, ⟨.dataItem, item⟩]
      [.comment " Loop items will be rendered here "]] :=
    isSafe_element (by simp) (isSafe_comment .loopItems)
  have htemplate : IsSafe [Html.element .template [⟨.elementId, id ++ "-template"⟩] children] :=
    isSafe_element (by simp) h
  exact isSafe_cons hblock (isSafe_cons (isSafe_text _) htemplate)

-- Ids are drawn before or after the children, but they are only values of attributes: what is drawn
-- does not matter, so each step asks nothing of them.
mutual

/-- **The markup of a view is safe.** -/
theorem View.html_isSafe (names : List String) (level : Nat) (scope : Scope) :
    (view : View) → view.IsNamed → Draws IsSafe (view.html names level scope)
  | .element head children, h => by
    refine draws_bind (viewsHtml_isSafe names (level + 1) scope.inner children h)
      fun inner hinner => ?_
    exact draws_bind (head.html_isSafe scope names (childBlock_isSafe hinner))
      fun html hhtml => draws_pure hhtml
  | .expanded name children, h => by
    refine draws_bind (viewsHtml_isSafe names (level + 1) scope.inner children h.2)
      fun inner hinner => draws_bind (draws_any _) fun id _ => draws_pure ?_
    exact isSafe_element (by simp) (componentBlock_isSafe hinner)
  | .missing name, h => draws_pure (isSafe_comment (.missing h))
  | .recursive name, h => draws_pure (isSafe_comment (.recursive h))
  | .conditional condition body rest, h => by
    refine draws_bind (draws_any _) fun id _ => ?_
    refine draws_bind (viewsHtml_isSafe names (level + 1) scope.inner body h.1)
      fun inner hinner => ?_
    refine draws_bind (rest.html_isSafe names level scope id 0 h.2) fun later hlater =>
      draws_pure ?_
    exact isSafe_cons (branchHtml_isSafe _ _ (childBlock_isSafe hinner)) hlater
  | .loop item array body, h => by
    refine draws_bind (draws_any _) fun id _ => ?_
    refine draws_bind (viewsHtml_isSafe names (level + 1) (.ofLoop item array) body h)
      fun inner hinner => draws_pure ?_
    exact loopHtml_isSafe level id item array (childBlock_isSafe hinner)

theorem ViewChain.html_isSafe (names : List String) (level : Nat) (scope : Scope) (id : String)
    (index : Nat) :
    (chain : ViewChain) → chain.IsNamed → Draws IsSafe (chain.html names level scope id index)
  | .done, _ => draws_pure isSafe_nil
  | .elseIf condition body rest, h => by
    refine draws_bind (viewsHtml_isSafe names (level + 1) scope.inner body h.1)
      fun inner hinner => ?_
    refine draws_bind (rest.html_isSafe names level scope id (index + 1) h.2) fun later hlater =>
      draws_pure ?_
    exact isSafe_cons (isSafe_text _)
      (isSafe_cons (branchHtml_isSafe _ _ (childBlock_isSafe hinner)) hlater)
  | .otherwise body, h => by
    refine draws_bind (viewsHtml_isSafe names (level + 1) scope.inner body h)
      fun inner hinner => draws_pure ?_
    exact isSafe_cons (isSafe_text _) (branchHtml_isSafe _ _ (childBlock_isSafe hinner))

theorem viewsHtml_isSafe (names : List String) (level : Nat) (scope : Scope) :
    (views : List View) → ViewsNamed views →
      Draws (fun nodes => ∀ node ∈ nodes, IsSafe node) (viewsHtml names level scope views)
  | [], _ => draws_pure (List.forall_mem_nil _)
  | view :: views, h => by
    refine draws_bind (view.html_isSafe names level scope h.1) fun first hfirst => ?_
    refine draws_bind (viewsHtml_isSafe names level scope views h.2) fun rest hrest =>
      draws_pure ?_
    exact List.forall_mem_cons.mpr ⟨hfirst, hrest⟩

end

theorem Component.html_isSafe {program : Program} (h : program.IsNamed) {component : Component}
    (hcomponent : component.IsNamed) :
    Draws (fun html => IsSafe [html]) (component.html program) := by
  unfold Component.html
  split
  · rename_i props hprops
    exact draws_pure (isSafe_comment (.withProps hcomponent.name (hcomponent.props hprops)))
  · refine draws_bind (viewsHtml_isSafe program.bindable 1 {} _
      (program.componentViews_named h hcomponent)) fun inner hinner => draws_pure ?_
    exact isSafe_element (by simp) (componentBlock_isSafe hinner)

theorem componentsHtml_isSafe {program : Program} (h : program.IsNamed) :
    (components : List Component) → (∀ component ∈ components, component.IsNamed) →
      Draws IsSafe (componentsHtml program components)
  | [], _ => draws_pure isSafe_nil
  | component :: components, hcomponents => by
    obtain ⟨hfirst, hrest⟩ := List.forall_mem_cons.mp hcomponents
    refine draws_bind (component.html_isSafe h hfirst) fun first hfirst => ?_
    refine draws_bind (componentsHtml_isSafe h components hrest) fun rest hrest => draws_pure ?_
    refine isSafe_cons hfirst ?_
    split
    · exact isSafe_nil
    · exact isSafe_cons (isSafe_text _) hrest

/-- The markup of a program whose names are identifiers is safe. -/
theorem Program.html_isSafe {program : Program} (h : program.IsNamed) : IsSafe program.html :=
  componentsHtml_isSafe h program.components h {}

/-- **The markup of every source is safe.**  A reader of the markup finds the tags and comments of
the tree that it was written from, and nothing else: they are properly nested and of the known
forms, no tag has an attribute twice, and no text or value holds a character with a meaning in
markup, except an `&` that starts one of the entities. -/
theorem parseSource_markup_isSafe (source : String) :
    ∃ pieces, pieces? (parseSource source).program.markup.toList = some pieces ∧
      pieces = joined (forestPieces (parseSource source).program.html) ∧
      isNested [] pieces = true ∧ ∀ piece ∈ pieces, piece.IsSafe := by
  have hsafe := Program.html_isSafe (parseSource_isNamed source)
  refine ⟨_, ?_, rfl, ?_, isSafe_joined hsafe⟩
  · rw [Program.markup, render, String.toList_ofList]
    exact pieces?_forestChars hsafe
  · rw [isNested_joined]
    exact isNested_forestPieces _

end UiLang
