import UiLang.Markup.Basic
import Mathlib.Data.List.Dedup
import Mathlib.Data.List.Perm.Subperm

/-!
# Writing a page step by step

A page can be written by going through the nodes and keeping three things: the ids drawn so far,
the indentation, and the names of the components being expanded, innermost first.  Inside a block
the indentation is one level deeper; inside a use of a component the name of the component is put on
top of the others.  Nothing bounds how deep this goes: a use is expanded unless its component is
already being expanded.

Such a run exists for every program, also if components use each other in cycles, and it gives the
markup of the program.  All names that are being expanded differ, so there are never more of them
than there are components.

## Main definitions

* `WriterState`, `Moment`: what is kept, and what happens during a run
* `Task`, `Program.Runs`: the parts of a page, and the runs that write them

## Main results

* `Program.Runs.restores`: a run leaves the indentation and the opened names as they were
* `Program.Runs.unique`: there is at most one run
* `Program.Runs.isSound`: all opened names differ, and uses of these are refused
* `Program.follows_instantiate`: the bound on the depth of expansions is never reached
* `Program.html_run`: every page is written to its end
-/

namespace UiLang

/-- What is kept while a page is written: the ids drawn so far, the indentation, and the names of
the components being expanded, innermost first. -/
structure WriterState where
  ids : IdSupply := {}
  level : Nat := 0
  opened : List String := []

/-- A part of a page that is written in one go: a node, nodes on lines of their own, the nodes of a
block, the later branches of a conditional, or components. -/
inductive Task where
  | node (node : UiNode)
  | lines (nodes : List UiNode)
  | block (nodes : List UiNode)
  | chain (id : String) (index : Nat) (rest : ElseChain)
  | components (components : List Component)

/-- What happens during a run: nodes of a block are about to be written, or a node was written. -/
inductive Moment where
  | inside (state : WriterState)
  | node (before : WriterState) (node : UiNode) (html : List Html) (after : WriterState)

def Moment.states : Moment → List WriterState
  | .inside state => [state]
  | .node before _ _ after => [before, after]

/-- The content of an element: nothing, or lines with the closing tag on a line of its own. -/
def closedLines (level : Nat) (lines : List Html) : List Html :=
  if lines.isEmpty then [] else lines ++ [.text (lineBreak level)]

/-- The content of a component: lines, or one empty line. -/
def componentLines (level : Nat) (lines : List Html) : List Html :=
  if lines.isEmpty then [.text ("\n" ++ lineBreak level)] else closedLines level lines

/-- More components below the first one. -/
def below (html : List Html) : List Html :=
  if html.isEmpty then [] else .text "\n" :: html

namespace Program

/-- `program.Runs task scope s html trace t`: starting in the state `s`, writing the task gives
`html` and ends in the state `t`; what happens meanwhile is the trace. -/
inductive Runs (program : Program) :
    Task → Scope → WriterState → List Html → List Moment → WriterState → Prop
  | element {head : ElementHead} {children : List UiNode} {location : Location} {scope : Scope}
      {s t : WriterState} {lines : List Html} {html : Html} {ids : IdSupply} {trace : List Moment}
      (inside : program.Runs (.block children) scope.inner s lines trace t)
      (own : head.html scope program.bindable (closedLines t.level lines) t.ids = (html, ids)) :
      program.Runs (.node (.element head children location)) scope s [html]
        (.node s (.element head children location) [html] { t with ids } :: trace) { t with ids }
  | missing {name : String} {attributes : Attributes} {children : List UiNode}
      {location : Location} {scope : Scope} {s : WriterState} {html : List Html}
      (absent : program.findComponent? name = none)
      (own : html = [.comment (" Error: Component " ++ name ++ " not found ")]) :
      program.Runs (.node (.component name attributes children location)) scope s html
        [.node s (.component name attributes children location) html s] s
  | recursive {name : String} {attributes : Attributes} {children : List UiNode}
      {location : Location} {scope : Scope} {s : WriterState} {html : List Html}
      {definition : Component} (found : program.findComponent? name = some definition)
      (again : name ∈ s.opened)
      (own : html = [.comment (" Error: Component " ++ name ++ " cannot instantiate itself ")]) :
      program.Runs (.node (.component name attributes children location)) scope s html
        [.node s (.component name attributes children location) html s] s
  | expanded {name : String} {attributes : Attributes} {children : List UiNode}
      {location : Location} {scope : Scope} {s t u : WriterState} {lines html : List Html}
      {id : String} {ids : IdSupply} {trace : List Moment} {definition : Component}
      (found : program.findComponent? name = some definition) (new : name ∉ s.opened)
      (inside : program.Runs
        (.block (substituteAll (PropValues.ofAttributes attributes) definition.nodes)) scope.inner
        { s with opened := name :: s.opened } lines trace t)
      (drawn : IdSupply.numbered name t.ids = (id, ids))
      (own : html = [.element .div [⟨.elementId, id⟩, ⟨.classes, "frobo-component-instance"⟩]
        (componentLines t.level lines)])
      (left : u = { t with ids, opened := t.opened.tail }) :
      program.Runs (.node (.component name attributes children location)) scope s html
        (.node s (.component name attributes children location) html u :: trace) u
  | conditional {condition : Condition} {body : List UiNode} {rest : ElseChain}
      {location : Location} {scope : Scope} {s t u : WriterState} {lines html later : List Html}
      {id : String} {ids : IdSupply} {trace more : List Moment}
      (drawn : IdSupply.numbered "cond" s.ids = (id, ids))
      (inside : program.Runs (.block body) scope.inner { s with ids } lines trace t)
      (branches : program.Runs (.chain id 0 rest) scope t later more u)
      (own : html =
        branchHtml (id ++ "-if") (some condition) (closedLines t.level lines) :: later) :
      program.Runs (.node (.conditional condition body rest location)) scope s html
        (.node s (.conditional condition body rest location) html u :: (trace ++ more)) u
  | loop {item : String} {array : Path} {body : List UiNode} {location : Location} {scope : Scope}
      {s t : WriterState} {lines html : List Html} {id : String} {ids : IdSupply}
      {trace : List Moment} (drawn : IdSupply.numbered "loop" s.ids = (id, ids))
      (inside : program.Runs (.block body) (.ofLoop item array) { s with ids } lines trace t)
      (own : html = loopHtml t.level id item array (closedLines t.level lines)) :
      program.Runs (.node (.loop item array body location)) scope s html
        (.node s (.loop item array body location) html t :: trace) t
  | noLines {scope : Scope} {s : WriterState} : program.Runs (.lines []) scope s [] [] s
  | line {node : UiNode} {nodes : List UiNode} {scope : Scope} {s t u : WriterState}
      {html more : List Html} {trace later : List Moment}
      (first : program.Runs (.node node) scope s html trace t)
      (rest : program.Runs (.lines nodes) scope t more later u) :
      program.Runs (.lines (node :: nodes)) scope s
        (.text (lineBreak t.level) :: (html ++ more)) (trace ++ later) u
  | block {nodes : List UiNode} {scope : Scope} {s t : WriterState} {lines : List Html}
      {trace : List Moment}
      (inside : program.Runs (.lines nodes) scope { s with level := s.level + 1 } lines trace t) :
      program.Runs (.block nodes) scope s lines
        (.inside { s with level := s.level + 1 } :: trace) { t with level := t.level - 1 }
  | done {id : String} {index : Nat} {scope : Scope} {s : WriterState} :
      program.Runs (.chain id index .done) scope s [] [] s
  | elseIf {condition : Condition} {body : List UiNode} {rest : ElseChain} {id : String}
      {index : Nat} {scope : Scope} {s t u : WriterState} {lines later : List Html}
      {trace more : List Moment}
      (inside : program.Runs (.block body) scope.inner s lines trace t)
      (branches : program.Runs (.chain id (index + 1) rest) scope t later more u) :
      program.Runs (.chain id index (.elseIf condition body rest)) scope s
        (.text (lineBreak t.level) ::
          branchHtml (id ++ "-elseif-" ++ toString index) (some condition)
            (closedLines t.level lines) :: later) (trace ++ more) u
  | otherwise {body : List UiNode} {id : String} {index : Nat} {scope : Scope} {s t : WriterState}
      {lines : List Html} {trace : List Moment}
      (inside : program.Runs (.block body) scope.inner s lines trace t) :
      program.Runs (.chain id index (.otherwise body)) scope s
        [.text (lineBreak t.level), branchHtml (id ++ "-else") none (closedLines t.level lines)]
        trace t
  | noComponents {scope : Scope} {s : WriterState} : program.Runs (.components []) scope s [] [] s
  | declared {component : Component} {components : List Component} {scope : Scope}
      {s t : WriterState} {html : List Html} {trace : List Moment} {props : Props}
      (withProps : component.props? = some props)
      (rest : program.Runs (.components components) scope s html trace t) :
      program.Runs (.components (component :: components)) scope s
        (.comment (" Component " ++ component.name ++ " defined with props: " ++
          String.intercalate ", " props.names ++ " ") :: below html) trace t
  | top {component : Component} {components : List Component} {scope : Scope}
      {s t u : WriterState} {lines html : List Html} {trace more : List Moment}
      (withoutProps : component.props? = none)
      (inside : program.Runs (.block component.nodes) {} s lines trace t)
      (rest : program.Runs (.components components) scope t html more u) :
      program.Runs (.components (component :: components)) scope s
        (.element .div [⟨.elementId, component.name⟩, ⟨.classes, "frobo-component"⟩]
          (componentLines t.level lines) :: below html) (trace ++ more) u

/-! ## Every run -/

namespace Runs

variable {program : Program} {task : Task} {scope : Scope} {s t : WriterState} {html : List Html}
  {trace : List Moment}

/-- **A run leaves the indentation and the opened names as they were.** -/
theorem restores (h : program.Runs task scope s html trace t) :
    t.level = s.level ∧ t.opened = s.opened := by
  induction h with
  | element inside own ih => exact ih
  | missing absent own => exact ⟨rfl, rfl⟩
  | recursive found again own => exact ⟨rfl, rfl⟩
  | expanded found new inside drawn own left ih =>
    subst left
    exact ⟨ih.1, congrArg List.tail ih.2⟩
  | conditional drawn inside branches own ihInside ihBranches =>
    exact ⟨ihBranches.1.trans ihInside.1, ihBranches.2.trans ihInside.2⟩
  | loop drawn inside own ih => exact ih
  | noLines => exact ⟨rfl, rfl⟩
  | line first rest ihFirst ihRest =>
    exact ⟨ihRest.1.trans ihFirst.1, ihRest.2.trans ihFirst.2⟩
  | block inside ih => exact ⟨congrArg (· - 1) ih.1, ih.2⟩
  | done => exact ⟨rfl, rfl⟩
  | elseIf inside branches ihInside ihBranches =>
    exact ⟨ihBranches.1.trans ihInside.1, ihBranches.2.trans ihInside.2⟩
  | otherwise inside ih => exact ih
  | noComponents => exact ⟨rfl, rfl⟩
  | declared withProps rest ih => exact ih
  | top withoutProps inside rest ihInside ihRest =>
    exact ⟨ihRest.1.trans ihInside.1, ihRest.2.trans ihInside.2⟩

/-- **There is at most one run.** -/
theorem unique {html' : List Html} {trace' : List Moment} {t' : WriterState}
    (h : program.Runs task scope s html trace t) (h' : program.Runs task scope s html' trace' t') :
    html = html' ∧ trace = trace' ∧ t = t' := by
  -- at most one rule fits: uses differ by what is found for the name and whether it is opened
  induction h generalizing html' trace' t' with
  | element inside own ih =>
    cases h' with
    | element inside' own' =>
      obtain ⟨rfl, rfl, rfl⟩ := ih inside'
      obtain ⟨rfl, rfl⟩ := Prod.mk.inj (own.symm.trans own')
      exact ⟨rfl, rfl, rfl⟩
  | missing absent own =>
    cases h' with
    | missing absent' own' => exact ⟨own.trans own'.symm, by rw [own, own'], rfl⟩
    | recursive found' again' own' => cases absent.symm.trans found'
    | expanded found' new' inside' drawn' own' left' => cases absent.symm.trans found'
  | recursive found again own =>
    cases h' with
    | missing absent' own' => cases absent'.symm.trans found
    | recursive found' again' own' => exact ⟨own.trans own'.symm, by rw [own, own'], rfl⟩
    | expanded found' new' inside' drawn' own' left' => exact absurd again new'
  | expanded found new inside drawn own left ih =>
    cases h' with
    | missing absent' own' => cases absent'.symm.trans found
    | recursive found' again' own' => exact absurd again' new
    | expanded found' new' inside' drawn' own' left' =>
      cases found.symm.trans found'
      obtain ⟨rfl, rfl, rfl⟩ := ih inside'
      obtain ⟨rfl, rfl⟩ := Prod.mk.inj (drawn.symm.trans drawn')
      subst own own' left left'
      exact ⟨rfl, rfl, rfl⟩
  | conditional drawn inside branches own ihInside ihBranches =>
    cases h' with
    | conditional drawn' inside' branches' own' =>
      obtain ⟨rfl, rfl⟩ := Prod.mk.inj (drawn.symm.trans drawn')
      obtain ⟨rfl, rfl, rfl⟩ := ihInside inside'
      obtain ⟨rfl, rfl, rfl⟩ := ihBranches branches'
      subst own own'
      exact ⟨rfl, rfl, rfl⟩
  | loop drawn inside own ih =>
    cases h' with
    | loop drawn' inside' own' =>
      obtain ⟨rfl, rfl⟩ := Prod.mk.inj (drawn.symm.trans drawn')
      obtain ⟨rfl, rfl, rfl⟩ := ih inside'
      subst own own'
      exact ⟨rfl, rfl, rfl⟩
  | noLines =>
    cases h' with
    | noLines => exact ⟨rfl, rfl, rfl⟩
  | line first rest ihFirst ihRest =>
    cases h' with
    | line first' rest' =>
      obtain ⟨rfl, rfl, rfl⟩ := ihFirst first'
      obtain ⟨rfl, rfl, rfl⟩ := ihRest rest'
      exact ⟨rfl, rfl, rfl⟩
  | block inside ih =>
    cases h' with
    | block inside' =>
      obtain ⟨rfl, rfl, rfl⟩ := ih inside'
      exact ⟨rfl, rfl, rfl⟩
  | done =>
    cases h' with
    | done => exact ⟨rfl, rfl, rfl⟩
  | elseIf inside branches ihInside ihBranches =>
    cases h' with
    | elseIf inside' branches' =>
      obtain ⟨rfl, rfl, rfl⟩ := ihInside inside'
      obtain ⟨rfl, rfl, rfl⟩ := ihBranches branches'
      exact ⟨rfl, rfl, rfl⟩
  | otherwise inside ih =>
    cases h' with
    | otherwise inside' =>
      obtain ⟨rfl, rfl, rfl⟩ := ih inside'
      exact ⟨rfl, rfl, rfl⟩
  | noComponents =>
    cases h' with
    | noComponents => exact ⟨rfl, rfl, rfl⟩
  | declared withProps rest ih =>
    cases h' with
    | declared withProps' rest' =>
      cases withProps.symm.trans withProps'
      obtain ⟨rfl, rfl, rfl⟩ := ih rest'
      exact ⟨rfl, rfl, rfl⟩
    | top withoutProps' inside' rest' => cases withProps.symm.trans withoutProps'
  | top withoutProps inside rest ihInside ihRest =>
    cases h' with
    | declared withProps' rest' => cases withoutProps.symm.trans withProps'
    | top withoutProps' inside' rest' =>
      obtain ⟨rfl, rfl, rfl⟩ := ihInside inside'
      obtain ⟨rfl, rfl, rfl⟩ := ihRest rest'
      exact ⟨rfl, rfl, rfl⟩

end Runs

/-- All names that are being expanded differ, and they are names of components. -/
structure Opens (program : Program) (opened : List String) : Prop where
  nodup : opened.Nodup
  names : ∀ name ∈ opened, name ∈ program.components.map (·.name)

/-- What is said of every moment of a run.  A node leaves the indentation and the opened names as
they were, and a use of a component is refused exactly when its name is among these. -/
def IsSound (program : Program) : Moment → Prop
  | .inside state => program.Opens state.opened
  | .node before node html after =>
    program.Opens before.opened ∧ after.level = before.level ∧ after.opened = before.opened ∧
      ∀ name attributes children location, node = .component name attributes children location →
        (program.findComponent? name).isSome = true →
        (html = [.comment (" Error: Component " ++ name ++ " cannot instantiate itself ")] ↔
          name ∈ before.opened)

theorem mem_names_of_findComponent? {program : Program} {name : String} {definition : Component}
    (h : program.findComponent? name = some definition) :
    name ∈ program.components.map (·.name) := by
  have hname : definition.name = name := by simpa using List.find?_some h
  rw [← hname]
  exact List.mem_map_of_mem (List.mem_of_find?_eq_some h)

theorem Opens.push {program : Program} {opened : List String} (h : program.Opens opened)
    {name : String} {definition : Component} (found : program.findComponent? name = some definition)
    (new : name ∉ opened) : program.Opens (name :: opened) :=
  ⟨List.nodup_cons.mpr ⟨new, h.nodup⟩,
    List.forall_mem_cons.mpr ⟨mem_names_of_findComponent? found, h.names⟩⟩

/-- There are never more opened names than names of components. -/
theorem Opens.length_le {program : Program} {opened : List String} (h : program.Opens opened) :
    opened.length ≤ (program.components.map (·.name)).dedup.length :=
  (List.subperm_of_subset h.nodup fun name hname =>
    List.mem_dedup.mpr (h.names name hname)).length_le

/-- The names that are being expanded at a sound moment. -/
theorem IsSound.opens {program : Program} {moment : Moment} (h : program.IsSound moment) :
    ∀ state ∈ moment.states, program.Opens state.opened := by
  cases moment with
  | inside state => exact List.forall_mem_singleton.mpr h
  | node before node html after =>
    obtain ⟨hbefore, -, hafter, -⟩ := h
    exact List.forall_mem_cons.mpr
      ⟨hbefore, List.forall_mem_singleton.mpr (hafter.symm ▸ hbefore)⟩

/-- **Every moment of a run is sound.** -/
theorem Runs.isSound {program : Program} {task : Task} {scope : Scope} {s t : WriterState}
    {html : List Html} {trace : List Moment} (h : program.Runs task scope s html trace t)
    (hs : program.Opens s.opened) : ∀ moment ∈ trace, program.IsSound moment := by
  -- every part of a run restores level and opened names, so the next part starts sound again
  induction h with
  | element inside own ih =>
    obtain ⟨hlevel, hopened⟩ := inside.restores
    exact List.forall_mem_cons.mpr ⟨⟨hs, hlevel, hopened, nofun⟩, ih hs⟩
  | missing absent own =>
    refine List.forall_mem_singleton.mpr ⟨hs, rfl, rfl, ?_⟩
    rintro _ _ _ _ ⟨⟩ hsome
    rw [absent] at hsome
    cases hsome
  | recursive found again own =>
    refine List.forall_mem_singleton.mpr ⟨hs, rfl, rfl, ?_⟩
    rintro _ _ _ _ ⟨⟩ -
    exact ⟨fun _ => again, fun _ => own⟩
  | expanded found new inside drawn own left ih =>
    obtain ⟨hlevel, hopened⟩ := inside.restores
    subst left
    refine List.forall_mem_cons.mpr
      ⟨⟨hs, hlevel, congrArg List.tail hopened, ?_⟩, ih (hs.push found new)⟩
    rintro _ _ _ _ ⟨⟩ -
    refine ⟨fun habs => ?_, fun habs => absurd habs new⟩
    cases own.symm.trans habs
  | conditional drawn inside branches own ihInside ihBranches =>
    obtain ⟨hlevel, hopened⟩ := branches.restores
    have hinside := inside.restores
    refine List.forall_mem_cons.mpr
      ⟨⟨hs, hlevel.trans hinside.1, hopened.trans hinside.2, nofun⟩, ?_⟩
    exact List.forall_mem_append.mpr ⟨ihInside hs, ihBranches (hinside.2 ▸ hs)⟩
  | loop drawn inside own ih =>
    obtain ⟨hlevel, hopened⟩ := inside.restores
    exact List.forall_mem_cons.mpr ⟨⟨hs, hlevel, hopened, nofun⟩, ih hs⟩
  | noLines => exact List.forall_mem_nil _
  | line first rest ihFirst ihRest =>
    exact List.forall_mem_append.mpr ⟨ihFirst hs, ihRest (first.restores.2 ▸ hs)⟩
  | block inside ih => exact List.forall_mem_cons.mpr ⟨hs, ih hs⟩
  | done => exact List.forall_mem_nil _
  | elseIf inside branches ihInside ihBranches =>
    exact List.forall_mem_append.mpr ⟨ihInside hs, ihBranches (inside.restores.2 ▸ hs)⟩
  | otherwise inside ih => exact ih hs
  | noComponents => exact List.forall_mem_nil _
  | declared withProps rest ih => exact ih hs
  | top withoutProps inside rest ihInside ihRest =>
    exact List.forall_mem_append.mpr ⟨ihInside hs, ihRest (inside.restores.2 ▸ hs)⟩

/-! ## There is a run -/

theorem childBlock_eq (level : Nat) (inner : List (List Html)) :
    childBlock level inner = closedLines level (indentedLines level inner) := by
  cases inner <;> rfl

theorem componentBlock_eq (level : Nat) (inner : List (List Html)) :
    componentBlock level inner = componentLines level (indentedLines level inner) := by
  cases inner <;> rfl

/-- What the parts of a drawing gave, when the whole gave something. -/
theorem exists_of_bind_eq {α β : Type} {draw : Drawing α} {next : α → Drawing β}
    {ids last : IdSupply} {b : β} (h : (draw >>= next) ids = (b, last)) :
    ∃ a between, draw ids = (a, between) ∧ next a between = (b, last) :=
  ⟨_, _, rfl, h⟩

section Exists

variable {program : Program} {expand : Expansion} {opened : List String}

/-- Where the names `opened` are being expanded, uses of components are written as `expand` expands
them. -/
def Follows (program : Program) (opened : List String) (expand : Expansion) : Prop :=
  ∀ (name : String) (attributes : Attributes) (children : List UiNode) (location : Location)
    (scope : Scope) (s : WriterState) (html : List Html) (ids : IdSupply),
    s.opened = opened →
    (expand name attributes).html program.bindable s.level scope s.ids = (html, ids) →
    ∃ trace, program.Runs (.node (.component name attributes children location)) scope s html trace
      { s with ids }

/-- Lines one level deeper are a block. -/
theorem exists_block_of_lines {nodes : List UiNode} {scope : Scope} {s : WriterState}
    {inner : List (List Html)} {ids : IdSupply}
    (h : ∃ trace, program.Runs (.lines nodes) scope { s with level := s.level + 1 }
      (inner.flatMap fun node => .text (lineBreak (s.level + 1)) :: node) trace
      { s with level := s.level + 1, ids }) :
    ∃ trace, program.Runs (.block nodes) scope s (indentedLines s.level inner) trace
      { s with ids } := by
  obtain ⟨trace, hlines⟩ := h
  exact ⟨_, .block hlines⟩

mutual

/-- **Nodes are written as their views.** -/
theorem Follows.exists_node (hexpand : program.Follows opened expand) (node : UiNode)
    {scope : Scope} {s : WriterState} {html : List Html} {ids : IdSupply}
    (hopened : s.opened = opened)
    (h : (node.toView expand).html program.bindable s.level scope s.ids = (html, ids)) :
    ∃ trace, program.Runs (.node node) scope s html trace { s with ids } := by
  match node with
  | .element head children location =>
    rw [UiNode.toView, View.html] at h
    obtain ⟨inner, between, hinner, h⟩ := exists_of_bind_eq h
    obtain ⟨own, last, hown, h⟩ := exists_of_bind_eq h
    cases h
    obtain ⟨trace, hinside⟩ := exists_block_of_lines
      (hexpand.exists_lines children (s := { s with level := s.level + 1 }) hopened hinner)
    rw [childBlock_eq] at hown
    exact ⟨_, .element (t := { s with ids := between }) hinside hown⟩
  | .component name attributes children location =>
    exact hexpand name attributes children location scope s html ids hopened h
  | .conditional condition body rest location =>
    rw [UiNode.toView, View.html] at h
    obtain ⟨id, first, hid, h⟩ := exists_of_bind_eq h
    obtain ⟨inner, between, hinner, h⟩ := exists_of_bind_eq h
    obtain ⟨later, last, hlater, h⟩ := exists_of_bind_eq h
    cases h
    obtain ⟨trace, hinside⟩ := exists_block_of_lines (s := { s with ids := first })
      (hexpand.exists_lines body (s := { s with ids := first, level := s.level + 1 }) hopened
        hinner)
    obtain ⟨more, hbranches⟩ :=
      hexpand.exists_chain rest (s := { s with ids := between }) hopened hlater
    exact ⟨_, .conditional hid hinside hbranches (by rw [childBlock_eq])⟩
  | .loop item array body location =>
    rw [UiNode.toView, View.html] at h
    obtain ⟨id, first, hid, h⟩ := exists_of_bind_eq h
    obtain ⟨inner, last, hinner, h⟩ := exists_of_bind_eq h
    cases h
    obtain ⟨trace, hinside⟩ := exists_block_of_lines (s := { s with ids := first })
      (hexpand.exists_lines body (s := { s with ids := first, level := s.level + 1 }) hopened
        hinner)
    exact ⟨_, .loop hid hinside (by rw [childBlock_eq])⟩

theorem Follows.exists_chain (hexpand : program.Follows opened expand) (chain : ElseChain)
    {scope : Scope} {id : String} {index : Nat} {s : WriterState} {html : List Html}
    {ids : IdSupply} (hopened : s.opened = opened)
    (h : (chain.toView expand).html program.bindable s.level scope id index s.ids = (html, ids)) :
    ∃ trace, program.Runs (.chain id index chain) scope s html trace { s with ids } := by
  match chain with
  | .done =>
    rw [ElseChain.toView, ViewChain.html] at h
    cases h
    exact ⟨_, .done⟩
  | .elseIf condition body rest =>
    rw [ElseChain.toView, ViewChain.html] at h
    obtain ⟨inner, between, hinner, h⟩ := exists_of_bind_eq h
    obtain ⟨later, last, hlater, h⟩ := exists_of_bind_eq h
    cases h
    obtain ⟨trace, hinside⟩ := exists_block_of_lines
      (hexpand.exists_lines body (s := { s with level := s.level + 1 }) hopened hinner)
    obtain ⟨more, hbranches⟩ :=
      hexpand.exists_chain rest (s := { s with ids := between }) hopened hlater
    rw [childBlock_eq]
    exact ⟨_, .elseIf (t := { s with ids := between }) hinside hbranches⟩
  | .otherwise body =>
    rw [ElseChain.toView, ViewChain.html] at h
    obtain ⟨inner, between, hinner, h⟩ := exists_of_bind_eq h
    cases h
    obtain ⟨trace, hinside⟩ := exists_block_of_lines
      (hexpand.exists_lines body (s := { s with level := s.level + 1 }) hopened hinner)
    rw [childBlock_eq]
    exact ⟨_, .otherwise hinside⟩

theorem Follows.exists_lines (hexpand : program.Follows opened expand) (nodes : List UiNode)
    {scope : Scope} {s : WriterState} {inner : List (List Html)} {ids : IdSupply}
    (hopened : s.opened = opened)
    (h : viewsHtml program.bindable s.level scope (viewsOf expand nodes) s.ids = (inner, ids)) :
    ∃ trace, program.Runs (.lines nodes) scope s
      (inner.flatMap fun node => .text (lineBreak s.level) :: node) trace { s with ids } := by
  match nodes with
  | [] =>
    rw [viewsOf, viewsHtml] at h
    cases h
    exact ⟨_, .noLines⟩
  | node :: nodes =>
    rw [viewsOf, viewsHtml] at h
    obtain ⟨first, between, hfirst, h⟩ := exists_of_bind_eq h
    obtain ⟨rest, last, hrest, h⟩ := exists_of_bind_eq h
    cases h
    obtain ⟨trace, hnode⟩ := hexpand.exists_node node hopened hfirst
    obtain ⟨more, hnodes⟩ :=
      hexpand.exists_lines nodes (s := { s with ids := between }) hopened hrest
    exact ⟨_, .line (t := { s with ids := between }) hnode hnodes⟩

end

theorem Follows.exists_block (hexpand : program.Follows opened expand) (nodes : List UiNode)
    {scope : Scope} {s : WriterState} {inner : List (List Html)} {ids : IdSupply}
    (hopened : s.opened = opened)
    (h : viewsHtml program.bindable (s.level + 1) scope (viewsOf expand nodes) s.ids =
      (inner, ids)) :
    ∃ trace, program.Runs (.block nodes) scope s (indentedLines s.level inner) trace
      { s with ids } :=
  exists_block_of_lines
    (hexpand.exists_lines nodes (s := { s with level := s.level + 1 }) hopened h)

section Instantiate

variable {depth : Nat} {name : String} {definition : Component}

theorem instantiate_of_none (h : program.findComponent? name = none) (attributes : Attributes) :
    program.instantiate depth opened name attributes = .missing name := by
  cases depth <;> simp only [instantiate, h]

theorem instantiate_of_mem (h : program.findComponent? name = some definition)
    (hmem : name ∈ opened) (attributes : Attributes) :
    program.instantiate depth opened name attributes = .recursive name := by
  cases depth <;> simp only [instantiate, h, if_pos hmem]

theorem instantiate_of_notMem (h : program.findComponent? name = some definition)
    (hnew : name ∉ opened) (attributes : Attributes) :
    program.instantiate (depth + 1) opened name attributes =
      .expanded name (viewsOf (program.instantiate depth (name :: opened))
        (substituteAll (PropValues.ofAttributes attributes) definition.nodes)) := by
  simp only [instantiate, h, if_neg hnew]

end Instantiate

/-- Only uses of components that are not being expanded yet have to be followed. -/
theorem follows_of_notMem {depth : Nat}
    (h : ∀ (name : String) (definition : Component) (attributes : Attributes)
      (children : List UiNode) (location : Location) (scope : Scope) (s : WriterState)
      (html : List Html) (ids : IdSupply), program.findComponent? name = some definition →
      name ∉ opened → s.opened = opened →
      (program.instantiate depth opened name attributes).html program.bindable s.level scope s.ids =
        (html, ids) →
      ∃ trace, program.Runs (.node (.component name attributes children location)) scope s html
        trace { s with ids }) :
    program.Follows opened (program.instantiate depth opened) := by
  intro name attributes children location scope s html ids hs hhtml
  cases found : program.findComponent? name with
  | none =>
    rw [instantiate_of_none found, View.html] at hhtml
    cases hhtml
    exact ⟨_, .missing found rfl⟩
  | some definition =>
    by_cases hmem : name ∈ opened
    · rw [instantiate_of_mem found hmem, View.html] at hhtml
      cases hhtml
      exact ⟨_, .recursive found (hs ▸ hmem) rfl⟩
    · exact h name definition attributes children location scope s html ids found hmem hs hhtml

/-- **As long as `depth` allows for all components that are not being expanded yet, it is never what
ends an expansion.** -/
theorem follows_instantiate {depth : Nat} {opened : List String} (hopened : program.Opens opened)
    (hdepth : (program.components.map (·.name)).dedup.length ≤ depth + opened.length) :
    program.Follows opened (program.instantiate depth opened) := by
  induction depth generalizing opened with
  | zero =>
    refine follows_of_notMem fun name definition _ _ _ _ _ _ _ found new => ?_
    -- one more name could be opened, but all of them are
    have hlength := (hopened.push found new).length_le
    rw [List.length_cons] at hlength
    omega
  | succ depth ih =>
    refine follows_of_notMem ?_
    intro name definition attributes children location scope s html ids found new hs h
    rw [instantiate_of_notMem found new, View.html] at h
    obtain ⟨inner, between, hinner, h⟩ := exists_of_bind_eq h
    obtain ⟨id, last, hid, h⟩ := exists_of_bind_eq h
    cases h
    have hfollows := ih (hopened.push found new) (by rw [List.length_cons]; omega)
    obtain ⟨trace, hinside⟩ := hfollows.exists_block
      (substituteAll (PropValues.ofAttributes attributes) definition.nodes)
      (s := { s with opened := name :: s.opened }) (by rw [hs]) hinner
    exact ⟨_, .expanded found (hs ▸ new) hinside hid (by rw [componentBlock_eq]) rfl⟩

theorem opens_nil (program : Program) : program.Opens [] :=
  ⟨List.nodup_nil, List.forall_mem_nil _⟩

/-- **Components are written one below the other.** -/
theorem exists_components {components : List Component} {s : WriterState} {html : List Html}
    {ids : IdSupply} (hlevel : s.level = 0) (hopened : s.opened = [])
    (h : componentsHtml program components s.ids = (html, ids)) :
    ∃ trace, program.Runs (.components components) {} s html trace { s with ids } := by
  induction components generalizing s html with
  | nil =>
    cases h
    exact ⟨_, .noComponents⟩
  | cons component components ih =>
    rw [componentsHtml] at h
    obtain ⟨first, between, hfirst, h⟩ := exists_of_bind_eq h
    obtain ⟨rest, last, hrest, h⟩ := exists_of_bind_eq h
    cases h
    obtain ⟨more, hruns⟩ := ih (s := { s with ids := between }) hlevel hopened hrest
    unfold Component.html at hfirst
    cases hprops : component.props? with
    | some props =>
      rw [hprops] at hfirst
      cases hfirst
      exact ⟨_, .declared hprops hruns⟩
    | none =>
      rw [hprops] at hfirst
      obtain ⟨inner, last, hinner, hfirst⟩ := exists_of_bind_eq hfirst
      cases hfirst
      -- nothing is opened at the top, and the depth allows for every name of a component
      have hfollows : program.Follows [] (program.instantiate program.components.length []) := by
        refine follows_instantiate program.opens_nil ?_
        exact Nat.le_trans (List.dedup_sublist _).length_le (by simp)
      have hblock : viewsHtml program.bindable (s.level + 1) {}
          (program.componentViews component) s.ids = (inner, between) := by
        rw [hlevel]
        exact hinner
      obtain ⟨trace, hinside⟩ := hfollows.exists_block component.nodes hopened hblock
      rw [componentBlock_eq, ← hlevel]
      exact ⟨_, .top (t := { s with ids := between }) hprops hinside hruns⟩

end Exists

/-- **Every page is written to its end.**  For every program, also if components use themselves or
each other, there is exactly one run that writes its components, and it gives the markup of the
program.  During the run all names being expanded differ and are names of components, so there are
never more of them than components with different names.  Every node leaves the indentation and
these names as they were, and a use of a component that exists is refused as standing inside itself
exactly when its name is among them. -/
theorem html_run (program : Program) :
    ∃ trace last, program.Runs (.components program.components) {} {} program.html trace last ∧
      (∀ html' trace' last',
        program.Runs (.components program.components) {} {} html' trace' last' →
        html' = program.html ∧ trace' = trace ∧ last' = last) ∧
      last.level = 0 ∧ last.opened = [] ∧
      (∀ moment ∈ trace, ∀ state ∈ moment.states, state.opened.Nodup ∧
        (∀ name ∈ state.opened, name ∈ program.components.map (·.name)) ∧
        state.opened.length ≤ (program.components.map (·.name)).dedup.length) ∧
      ∀ before node html after, Moment.node before node html after ∈ trace →
        after.level = before.level ∧ after.opened = before.opened ∧
        ∀ name attributes children location,
          node = .component name attributes children location →
          (program.findComponent? name).isSome = true →
          (html = [.comment (" Error: Component " ++ name ++ " cannot instantiate itself ")] ↔
            name ∈ before.opened) := by
  obtain ⟨trace, hruns⟩ : ∃ trace, program.Runs (.components program.components) {} {} program.html
      trace { ids := (componentsHtml program program.components {}).2 } :=
    exists_components rfl rfl rfl
  have hsound := hruns.isSound program.opens_nil
  refine ⟨trace, _, hruns, ?_, hruns.restores.1, hruns.restores.2, ?_, ?_⟩
  · intro html' trace' last' hruns'
    exact hruns'.unique hruns
  · intro moment hmoment state hstate
    have hopens := (hsound moment hmoment).opens state hstate
    exact ⟨hopens.nodup, hopens.names, hopens.length_le⟩
  · intro before node html after hmoment
    exact (hsound _ hmoment).2

end Program

end UiLang
