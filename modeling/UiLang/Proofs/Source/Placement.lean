import UiLang.Compiler
import UiLang.Proofs.Relocation
import UiLang.Store

/-!
# Output does not depend on places

The markup, the styles and the script of a program are made from what it declares, and so is its
state record.  Where a declaration was written is not part of them, and neither is whether it was
exported.  A program is therefore compared without both.

## Main definitions

* `Program.Moved`: another program declares the same at other places
* `Item.bare`, `Program.bare`: a program without places and exports

## Main results

* `Program.Moved.output`, `Program.Moved.ofProgram`: such a program compiles to the same
* `Program.output_eq_of_bare`: places and exports do not show
* `Item.bare_relocate`: where an item stands does not show without places
-/

namespace UiLang

variable (f : Location → Location)

/-! ## Nodes -/

mutual

theorem UiNode.toView_relocate (expand : Expansion) :
    (node : UiNode) → (node.relocate f).toView expand = node.toView expand
  | .element head children loc => by
    rw [UiNode.relocate, UiNode.toView, viewsOf_relocateNodes expand children, UiNode.toView]
  | .component name attributes children loc => by
    rw [UiNode.relocate, UiNode.toView, UiNode.toView]
  | .conditional condition body rest loc => by
    rw [UiNode.relocate, UiNode.toView, viewsOf_relocateNodes expand body,
      rest.toView_relocate expand, UiNode.toView]
  | .loop item array body loc => by
    rw [UiNode.relocate, UiNode.toView, viewsOf_relocateNodes expand body, UiNode.toView]

theorem ElseChain.toView_relocate (expand : Expansion) :
    (chain : ElseChain) → (chain.relocate f).toView expand = chain.toView expand
  | .done => rfl
  | .elseIf condition body rest => by
    rw [ElseChain.relocate, ElseChain.toView, viewsOf_relocateNodes expand body,
      rest.toView_relocate expand, ElseChain.toView]
  | .otherwise body => by
    rw [ElseChain.relocate, ElseChain.toView, viewsOf_relocateNodes expand body, ElseChain.toView]

/-- The views of nodes do not depend on where the nodes stand. -/
theorem viewsOf_relocateNodes (expand : Expansion) :
    (nodes : List UiNode) → viewsOf expand (relocateNodes f nodes) = viewsOf expand nodes
  | [] => rfl
  | node :: nodes => by
    rw [relocateNodes, viewsOf, node.toView_relocate expand, viewsOf_relocateNodes expand nodes,
      viewsOf]

end

mutual

theorem UiNode.substitute_relocate (props : PropValues) :
    (node : UiNode) → (node.relocate f).substitute props = (node.substitute props).relocate f
  | .element head children loc => by
    rw [UiNode.relocate, UiNode.substitute, substituteAll_relocateNodes props children,
      UiNode.substitute, UiNode.relocate]
  | .component name attributes children loc => by
    rw [UiNode.relocate, UiNode.substitute, substituteAll_relocateNodes props children,
      UiNode.substitute, UiNode.relocate]
  | .conditional condition body rest loc => by
    rw [UiNode.relocate, UiNode.substitute, substituteAll_relocateNodes props body,
      rest.substitute_relocate props, UiNode.substitute, UiNode.relocate]
  | .loop item array body loc => by
    rw [UiNode.relocate, UiNode.substitute, substituteAll_relocateNodes props body,
      UiNode.substitute, UiNode.relocate]

theorem ElseChain.substitute_relocate (props : PropValues) :
    (chain : ElseChain) → (chain.relocate f).substitute props = (chain.substitute props).relocate f
  | .done => rfl
  | .elseIf condition body rest => by
    rw [ElseChain.relocate, ElseChain.substitute, substituteAll_relocateNodes props body,
      rest.substitute_relocate props, ElseChain.substitute, ElseChain.relocate]
  | .otherwise body => by
    rw [ElseChain.relocate, ElseChain.substitute, substituteAll_relocateNodes props body,
      ElseChain.substitute, ElseChain.relocate]

/-- Putting in the texts of props does not move nodes. -/
theorem substituteAll_relocateNodes (props : PropValues) :
    (nodes : List UiNode) →
      substituteAll props (relocateNodes f nodes) = relocateNodes f (substituteAll props nodes)
  | [] => rfl
  | node :: nodes => by
    rw [relocateNodes, substituteAll, node.substitute_relocate props,
      substituteAll_relocateNodes props nodes, substituteAll, relocateNodes]

end

theorem relocateNodes_eq_map (nodes : List UiNode) :
    relocateNodes f nodes = nodes.map (UiNode.relocate f) := by
  induction nodes with
  | nil => rfl
  | cons node nodes ih => rw [relocateNodes, ih, List.map_cons]

/-! ## Components -/

namespace Component

variable (component : Component)

/-- Statements of one sort move with their component. -/
theorem filterMap_relocate {α : Type} (place : α → α) (pick : Statement → Option α)
    (h : ∀ statement, pick (statement.relocate f) = (pick statement).map place) :
    (component.relocate f).body.filterMap pick = (component.body.filterMap pick).map place := by
  rw [Component.relocate, List.filterMap_map, List.map_filterMap]
  exact congrArg (component.body.filterMap ·) (funext h)

theorem states_relocate :
    (component.relocate f).states = component.states.map (StateDeclaration.relocate f) :=
  component.filterMap_relocate f _ _ fun statement => by cases statement <;> rfl

theorem computed_relocate :
    (component.relocate f).computed = component.computed.map (Computed.relocate f) :=
  component.filterMap_relocate f _ _ fun statement => by cases statement <;> rfl

theorem hooks_relocate :
    (component.relocate f).hooks = component.hooks.map (Hook.relocate f) :=
  component.filterMap_relocate f _ _ fun statement => by cases statement <;> rfl

theorem fetches_relocate :
    (component.relocate f).fetches = component.fetches.map (Fetch.relocate f) :=
  component.filterMap_relocate f _ _ fun statement => by cases statement <;> rfl

theorem watchers_relocate :
    (component.relocate f).watchers = component.watchers.map (Watcher.relocate f) :=
  component.filterMap_relocate f _ _ fun statement => by cases statement <;> rfl

theorem nodes_relocate : (component.relocate f).nodes = relocateNodes f component.nodes := by
  rw [relocateNodes_eq_map]
  exact component.filterMap_relocate f _ _ fun statement => by cases statement <;> rfl

theorem props?_relocate :
    (component.relocate f).props? = component.props?.map (Props.relocate f) := by
  have hall : (component.relocate f).allProps = component.allProps.map (Props.relocate f) :=
    component.filterMap_relocate f _ _ fun statement => by cases statement <;> rfl
  rw [props?, hall, List.head?_map]
  rfl

theorem registration_relocate (names : List String) :
    (component.relocate f).registration names = component.registration names := by
  unfold registration
  rw [watchers_relocate, fetches_relocate, hooks_relocate, List.map_map, List.map_map,
    List.map_map, List.isEmpty_map]
  rfl

end Component

/-! ## Programs -/

/-- Another program declares the same at other places. -/
structure Program.Moved (program other : Program) : Prop where
  components : other.components = program.components.map (Component.relocate f)
  functions : other.functions = program.functions.map (Function.relocate f)
  imports : other.imports = program.imports.map (Import.relocate f)

namespace Program.Moved

variable {f} {program other : Program} (h : Moved f program other)
include h

theorem states : other.states = program.states.map (StateDeclaration.relocate f) := by
  rw [Program.states, h.components, List.flatMap_map, Program.states, List.map_flatMap]
  exact congrArg program.components.flatMap (funext fun component => component.states_relocate f)

theorem computed : other.computed = program.computed.map (Computed.relocate f) := by
  rw [Program.computed, h.components, List.flatMap_map, Program.computed, List.map_flatMap]
  exact congrArg program.components.flatMap (funext fun component => component.computed_relocate f)

theorem findComponent? (name : String) :
    other.findComponent? name = (program.findComponent? name).map (Component.relocate f) := by
  rw [Program.findComponent?, h.components, List.find?_map]
  rfl

/-! ## Markup -/

/-- The expansion of a use does not depend on where components stand. -/
theorem instantiate (depth : Nat) (opened : List String) :
    other.instantiate depth opened = program.instantiate depth opened := by
  induction depth generalizing opened with
  | zero =>
    funext name attributes
    rw [Program.instantiate, Program.instantiate, h.findComponent?]
    cases program.findComponent? name <;> rfl
  | succ depth ih =>
    funext name attributes
    rw [Program.instantiate, Program.instantiate, h.findComponent?]
    cases program.findComponent? name with
    | none => rfl
    | some definition =>
      dsimp only [Option.map_some]
      rw [ih, Component.nodes_relocate, substituteAll_relocateNodes, viewsOf_relocateNodes]

theorem componentViews (component : Component) :
    other.componentViews (component.relocate f) = program.componentViews component := by
  rw [Program.componentViews, h.instantiate, h.components, List.length_map,
    Component.nodes_relocate, viewsOf_relocateNodes]
  rfl

theorem bindable : other.bindable = program.bindable := by
  rw [Program.bindable, h.states, h.computed, List.map_map, List.map_map]
  rfl

theorem html_component (component : Component) :
    (component.relocate f).html other = component.html program := by
  rw [Component.html, Component.props?_relocate, h.bindable, h.componentViews, Component.html]
  cases component.props? <;> rfl

theorem componentsHtml (components : List Component) :
    UiLang.componentsHtml other (components.map (Component.relocate f)) =
      UiLang.componentsHtml program components := by
  induction components with
  | nil => rfl
  | cons component components ih =>
    rw [List.map_cons, UiLang.componentsHtml, h.html_component, ih, UiLang.componentsHtml]

theorem markup : other.markup = program.markup := by
  rw [Program.markup, Program.html, h.components, h.componentsHtml]
  rfl

/-! ## Script and state -/

theorem stateNames : other.stateNames = program.stateNames := by
  rw [Program.stateNames, h.states, List.map_map]
  rfl

theorem computedNames : other.computedNames = program.computedNames := by
  rw [Program.computedNames, h.computed, List.map_map]
  rfl

theorem readable : other.readable = program.readable := by
  rw [Program.readable, h.stateNames, h.computedNames]
  rfl

theorem stateSection : other.stateSection = program.stateSection := by
  have hrecord : other.stateRecord = program.stateRecord := by
    rw [stateRecord, h.states, List.map_map]
    rfl
  dsimp only [Program.stateSection]
  rw [hrecord]

theorem stateful : other.stateful = program.stateful.map (Component.relocate f) := by
  rw [Program.stateful, h.components, List.filter_map, Program.stateful]
  congr 1
  refine List.filter_congr fun component _ => ?_
  rw [Function.comp_apply, Component.states_relocate, List.isEmpty_map]

theorem registration : other.registration = program.registration := by
  have hmap : other.stateful.map (·.registration other.readable) =
      program.stateful.map (·.registration program.readable) := by
    rw [h.stateful, h.readable, List.map_map]
    exact List.map_congr_left fun component _ => component.registration_relocate f _
  dsimp only [Program.registration]
  rw [hmap]

/-- No section of the script depends on where its declarations stand. -/
theorem scriptSections : other.scriptSections = program.scriptSections := by
  have himports : other.imports.map Import.script = program.imports.map Import.script := by
    rw [h.imports, List.map_map]
    rfl
  have hcomputed : other.computed.map (·.script program.stateNames program.computedNames) =
      program.computed.map (·.script program.stateNames program.computedNames) := by
    rw [h.computed, List.map_map]
    rfl
  have hfunctions : other.functions.map (·.script program.readable) =
      program.functions.map (·.script program.readable) := by
    rw [h.functions, List.map_map]
    rfl
  have hfetches : (other.components.all fun component => component.fetches.isEmpty) =
      program.components.all fun component => component.fetches.isEmpty := by
    rw [h.components, List.all_map]
    refine congrArg program.components.all (funext fun component => ?_)
    rw [Function.comp_apply, Component.fetches_relocate, List.isEmpty_map]
  dsimp only [Program.scriptSections]
  rw [himports, h.stateNames, h.computedNames, hcomputed, h.readable, hfunctions, hfetches,
    h.stateSection, h.registration, h.imports, h.computed, h.stateful, List.isEmpty_map,
    List.isEmpty_map, List.isEmpty_map]

/-- A program that declares the same at other places compiles to the same. -/
theorem output : other.output = program.output := by
  have hscript : other.script = program.script := by
    dsimp only [script]
    rw [h.scriptSections]
  rw [Program.output, h.markup, hscript]
  rfl

theorem ofProgram : Store.ofProgram other = Store.ofProgram program := by
  rw [Store.ofProgram, h.states, List.map_map]
  rfl

end Program.Moved

/-! ## Moved twice -/

section Twice

variable (f g : Location → Location)

mutual

theorem UiNode.relocate_relocate :
    (node : UiNode) → (node.relocate f).relocate g = node.relocate (g ∘ f)
  | .element head children loc => by
    rw [UiNode.relocate, UiNode.relocate, relocateNodes_relocateNodes children, UiNode.relocate]
    rfl
  | .component name attributes children loc => by
    rw [UiNode.relocate, UiNode.relocate, relocateNodes_relocateNodes children, UiNode.relocate]
    rfl
  | .conditional condition body rest loc => by
    rw [UiNode.relocate, UiNode.relocate, relocateNodes_relocateNodes body,
      rest.relocate_relocate, UiNode.relocate]
    rfl
  | .loop item array body loc => by
    rw [UiNode.relocate, UiNode.relocate, relocateNodes_relocateNodes body, UiNode.relocate]
    rfl

theorem ElseChain.relocate_relocate :
    (chain : ElseChain) → (chain.relocate f).relocate g = chain.relocate (g ∘ f)
  | .done => rfl
  | .elseIf condition body rest => by
    rw [ElseChain.relocate, ElseChain.relocate, relocateNodes_relocateNodes body,
      rest.relocate_relocate, ElseChain.relocate]
  | .otherwise body => by
    rw [ElseChain.relocate, ElseChain.relocate, relocateNodes_relocateNodes body,
      ElseChain.relocate]

theorem relocateNodes_relocateNodes :
    (nodes : List UiNode) → relocateNodes g (relocateNodes f nodes) = relocateNodes (g ∘ f) nodes
  | [] => rfl
  | node :: nodes => by
    rw [relocateNodes, relocateNodes, node.relocate_relocate, relocateNodes_relocateNodes nodes,
      relocateNodes]

end

theorem Statement.relocate_relocate (statement : Statement) :
    (statement.relocate f).relocate g = statement.relocate (g ∘ f) := by
  cases statement with
  | node node => exact congrArg Statement.node (node.relocate_relocate f g)
  | _ => rfl

theorem Declaration.relocate_relocate (declaration : Declaration) :
    (declaration.relocate f).relocate g = declaration.relocate (g ∘ f) := by
  cases declaration with
  | component component =>
    have hbody : Statement.relocate g ∘ Statement.relocate f = Statement.relocate (g ∘ f) :=
      funext (Statement.relocate_relocate f g)
    rw [Declaration.relocate, Declaration.relocate, Component.relocate, Component.relocate,
      List.map_map, hbody]
    rfl
  | function function => rfl

end Twice

/-! ## Without places and exports -/

/-- An item without places, and without its export. -/
def Item.bare : Item → Item
  | .declaration d | .exported d _ => .declaration (d.relocate fun _ => Position.start.spanning 0)
  | .importFrom i => .importFrom (i.relocate fun _ => Position.start.spanning 0)

/-- Where an item stands does not show without places. -/
theorem Item.bare_relocate (item : Item) : (item.relocate f).bare = item.bare := by
  cases item with
  | declaration d | exported d loc =>
    exact congrArg Item.declaration (d.relocate_relocate f _)
  | importFrom i => rfl

/-- A program without places and exports. -/
def Program.bare (program : Program) : Program :=
  ⟨program.items.map Item.bare⟩

theorem Program.moved_bare (program : Program) :
    Moved (fun _ => Position.start.spanning 0) program program.bare where
  components := by
    rw [components, bare, List.filterMap_map, components, List.map_filterMap]
    refine congrArg (program.items.filterMap ·) (funext fun item => ?_)
    rcases item with ⟨_ | _⟩ | ⟨_ | _, _⟩ | _ <;> rfl
  functions := by
    rw [functions, bare, List.filterMap_map, functions, List.map_filterMap]
    refine congrArg (program.items.filterMap ·) (funext fun item => ?_)
    rcases item with ⟨_ | _⟩ | ⟨_ | _, _⟩ | _ <;> rfl
  imports := by
    rw [imports, bare, List.filterMap_map, imports, List.map_filterMap]
    refine congrArg (program.items.filterMap ·) (funext fun item => ?_)
    cases item <;> rfl

/-- **Places and exports do not show** in what a program compiles to, nor in its state record. -/
theorem Program.output_eq_of_bare {program other : Program} (h : other.bare = program.bare) :
    other.output = program.output ∧ Store.ofProgram other = Store.ofProgram program := by
  constructor
  · rw [← program.moved_bare.output, ← other.moved_bare.output, h]
  · rw [← program.moved_bare.ofProgram, ← other.moved_bare.ofProgram, h]

end UiLang
