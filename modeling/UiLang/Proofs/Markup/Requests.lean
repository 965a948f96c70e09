import Mathlib.Data.Multiset.OrderedMonoid
import Mathlib.Tactic.Abel
import UiLang.Proofs.Markup.Safety

/-!
# The ids that markup asks for

Which ids markup asks for does not depend on the ids that were drawn before, so it can be read off
the views alone, as a list of requests in order.  Markup takes a supply where its requests take it,
and every id in it is an answer, or derived from one.  The accounts are kept as multisets: an id
that stands in the markup twice was answered twice.

## Main definitions

* `IdRequest`, `IdSupply.after`, `IdSupply.given`: requests, what they leave and what they are given
* `View.requests`, `Program.requests`: the requests of markup
* `Program.ids`: all ids that the markup of a program is given, and those derived from them
* `Html.ids`, `Html.forestIds`: the ids that stand in markup
* `Answers`: a computation with ids against its requests

## Main results

* `Answers.bind`: computations one after another
* `ElementHead.html_answers`, `View.html_answers`: markup answers its requests
* `Program.html_answers`: so does that of a program, but for the names of its components
-/

namespace UiLang

/-! ## Requests -/

/-- A request for an id: the next number after a stem, from which ids with the given endings are
derived, or an id that is named after a base. -/
inductive IdRequest where
  | numbered (stem : String) (endings : List String)
  | named (base : String)
  deriving DecidableEq, Repr

/-- A list of ids as a multiset, one id at a time. -/
theorem coe_id_cons (id : String) (ids : List String) :
    ((id :: ids : List String) : Multiset String) = {id} + ids :=
  rfl

namespace IdRequest

/-- Draws the id that a request asks for. -/
def draw : IdRequest → Drawing String
  | .numbered stem _ => IdSupply.numbered stem
  | .named base => IdSupply.named base

/-- The request of a field that is bound to a name, points in it written as hyphens. -/
def ofField (kind : FieldKind) (name : String) : IdRequest :=
  .named (kind.name ++ "-" ++ name)

/-- An id that was drawn for a request, with the ids derived from it. -/
def family : IdRequest → String → List String
  | .numbered _ endings, id => id :: endings.map (id ++ ·)
  | .named _, id => [id]

end IdRequest

namespace IdSupply

/-- The supply after some requests. -/
def after (ids : IdSupply) : List IdRequest → IdSupply
  | [] => ids
  | request :: requests => (request.draw ids).2.after requests

/-- The ids that some requests are given, each with those derived from it. -/
def given (ids : IdSupply) : List IdRequest → List String
  | [] => []
  | request :: requests =>
    request.family (request.draw ids).1 ++ (request.draw ids).2.given requests

theorem after_append (ids : IdSupply) (requests later : List IdRequest) :
    ids.after (requests ++ later) = (ids.after requests).after later := by
  induction requests generalizing ids with
  | nil => rfl
  | cons request requests ih => exact ih _

theorem given_append (ids : IdSupply) (requests later : List IdRequest) :
    ids.given (requests ++ later) = ids.given requests ++ (ids.after requests).given later := by
  induction requests generalizing ids with
  | nil => rfl
  | cons request requests ih =>
    rw [List.cons_append, given, given, ih, List.append_assoc]
    rfl

end IdSupply

namespace ElementHead

/-- The paths that tie a text to the script. -/
def textPaths (head : ElementHead) (scope : Scope) : List String :=
  if scope.loop.isSome then [] else (interpolatedPaths (head.markedText scope)).map Path.text

/-- The request of a text. -/
def textRequests (head : ElementHead) (scope : Scope) : List IdRequest :=
  if (head.textPaths scope).isEmpty then []
  else [.named ("text-" ++ hyphenated (String.intercalate "-" (head.textPaths scope)))]

/-- The request of a field. -/
def fieldRequest (head : ElementHead) (names : List String) (kind : FieldKind) : IdRequest :=
  match head.binding? names with
  | some name => .ofField kind (hyphenated name)
  | none => .numbered kind.name []

/-- The requests of an element, those of its children apart. -/
def requests (head : ElementHead) (scope : Scope) (names : List String) : List IdRequest :=
  match head.form scope with
  | .text _ => head.textRequests scope
  | .field kind => [head.fieldRequest names kind]
  | _ => []

end ElementHead

/-- The endings of the ids of later branches.  `index` counts the `else if` branches before. -/
def ViewChain.endings (index : Nat) : ViewChain → List String
  | .done => []
  | .elseIf _ _ rest => ("-elseif-" ++ toString index) :: rest.endings (index + 1)
  | .otherwise _ => ["-else"]

mutual

/-- The requests of a view, in the order in which ids are drawn. -/
def View.requests (names : List String) (scope : Scope) : View → List IdRequest
  | .element head children =>
    viewsRequests names scope.inner children ++ head.requests scope names
  | .expanded name children => viewsRequests names scope.inner children ++ [.numbered name []]
  | .missing _ | .recursive _ => []
  | .conditional _ body rest =>
    .numbered "cond" ("-if" :: rest.endings 0) ::
      (viewsRequests names scope.inner body ++ rest.requests names scope)
  | .loop item array body =>
    .numbered "loop" ["-template"] :: viewsRequests names (.ofLoop item array) body

/-- The requests of the bodies of later branches. -/
def ViewChain.requests (names : List String) (scope : Scope) : ViewChain → List IdRequest
  | .done => []
  | .elseIf _ body rest => viewsRequests names scope.inner body ++ rest.requests names scope
  | .otherwise body => viewsRequests names scope.inner body

/-- The requests of views. -/
def viewsRequests (names : List String) (scope : Scope) : List View → List IdRequest
  | [] => []
  | view :: views => view.requests names scope ++ viewsRequests names scope views

end

/-- The requests of a component at the top of a page. -/
def Component.requests (program : Program) (component : Component) : List IdRequest :=
  match component.props? with
  | some _ => []
  | none => viewsRequests program.bindable {} (program.componentViews component)

/-- The requests of the markup of a program. -/
def Program.requests (program : Program) : List IdRequest :=
  program.components.flatMap (Component.requests program)

/-- All ids that the markup of a program is given, each with those derived from it. -/
def Program.ids (program : Program) : List String :=
  IdSupply.given {} program.requests

/-! ## Ids in markup -/

namespace Html

/-- The ids among the attributes of a tag. -/
def attributeIds (attributes : List HtmlAttribute) : Multiset String :=
  (attributes.filter (·.name = .elementId)).map HtmlAttribute.value

mutual

/-- The ids that stand in a piece of markup. -/
def ids : Html → Multiset String
  | .text _ | .comment _ => 0
  | .element _ attributes children => attributeIds attributes + forestIds children
  | .void _ attributes => attributeIds attributes

/-- The ids that stand in pieces of markup. -/
def forestIds : List Html → Multiset String
  | [] => 0
  | html :: rest => html.ids + forestIds rest

end

@[simp] theorem forestIds_nil : forestIds [] = 0 := by
  rw [forestIds]

@[simp] theorem forestIds_cons (html : Html) (rest : List Html) :
    forestIds (html :: rest) = html.ids + forestIds rest := by
  rw [forestIds]

@[simp] theorem forestIds_append (forest others : List Html) :
    forestIds (forest ++ others) = forestIds forest + forestIds others := by
  induction forest with
  | nil => simp
  | cons html forest ih => rw [List.cons_append, forestIds_cons, forestIds_cons, ih, add_assoc]

@[simp] theorem ids_text (s : String) : (Html.text s).ids = 0 := by
  rw [ids]

@[simp] theorem ids_comment (s : String) : (Html.comment s).ids = 0 := by
  rw [ids]

@[simp] theorem ids_element (tag : Tag) (attributes : List HtmlAttribute) (children : List Html) :
    (Html.element tag attributes children).ids = attributeIds attributes + forestIds children := by
  rw [ids]

@[simp] theorem ids_void (tag : VoidTag) (attributes : List HtmlAttribute) :
    (Html.void tag attributes).ids = attributeIds attributes := by
  rw [ids]

@[simp] theorem attributeIds_nil : attributeIds [] = 0 :=
  rfl

@[simp] theorem attributeIds_cons (a : HtmlAttribute) (attributes : List HtmlAttribute) :
    attributeIds (a :: attributes) =
      (if a.name = .elementId then {a.value} else 0) + attributeIds attributes := by
  by_cases h : a.name = .elementId <;> simp [attributeIds, h]

@[simp] theorem attributeIds_append (attributes others : List HtmlAttribute) :
    attributeIds (attributes ++ others) = attributeIds attributes + attributeIds others := by
  rw [attributeIds, List.filter_append, List.map_append]
  rfl

/-- Attributes of other names hold no id. -/
theorem attributeIds_eq_zero {attributes : List HtmlAttribute}
    (h : AttributeName.elementId ∉ attributes.map HtmlAttribute.name) :
    attributeIds attributes = 0 := by
  have hnone : attributes.filter (·.name = .elementId) = [] := by
    rw [List.filter_eq_nil_iff]
    intro a ha hname
    exact h (List.mem_map.mpr ⟨a, ha, by simpa using hname⟩)
  rw [attributeIds, hnone]
  rfl

theorem attributeIds_of_sublist {attributes : List HtmlAttribute} {known : List AttributeName}
    (h : (attributes.map HtmlAttribute.name).Sublist known) (hknown : .elementId ∉ known) :
    attributeIds attributes = 0 :=
  attributeIds_eq_zero fun hid => hknown (h.subset hid)

end Html

open Html

/-- The ids that stand in nodes. -/
def nodesIds (nodes : List (List Html)) : Multiset String :=
  forestIds nodes.flatten

section Blocks

variable (level : Nat) (nodes : List (List Html))

@[simp] theorem forestIds_indentedLines : forestIds (indentedLines level nodes) = nodesIds nodes := by
  unfold indentedLines nodesIds
  induction nodes with
  | nil => rfl
  | cons node nodes ih =>
    rw [List.flatMap_cons, List.flatten_cons, forestIds_append, forestIds_append, ih]
    simp

@[simp] theorem forestIds_childBlock : forestIds (childBlock level nodes) = nodesIds nodes := by
  unfold childBlock
  split
  · rename_i h
    rw [List.isEmpty_iff.mp h]
    rfl
  · simp

@[simp] theorem forestIds_componentBlock :
    forestIds (componentBlock level nodes) = nodesIds nodes := by
  unfold componentBlock
  split
  · rename_i h
    rw [List.isEmpty_iff.mp h]
    simp [nodesIds]
  · exact forestIds_childBlock level nodes

end Blocks

/-! ## Answers -/

/-- A computation answers requests: it takes every supply to where the requests take it, and the ids
in what it gives were known before or are answers. -/
def Answers {α : Type} (requests : List IdRequest) (known : Multiset String)
    (idsOf : α → Multiset String) (drawing : Drawing α) : Prop :=
  ∀ ids, (drawing ids).2 = ids.after requests ∧
    idsOf (drawing ids).1 ≤ known + ids.given requests

section Answers

variable {α β : Type} {requests later : List IdRequest} {known : Multiset String}
  {idsOf : α → Multiset String} {idsOf' : β → Multiset String}

theorem answers_pure {value : α} (h : idsOf value ≤ known) :
    Answers [] known idsOf (pure value) := by
  intro ids
  refine ⟨rfl, h.trans ?_⟩
  exact Multiset.le_add_right known _

theorem answers_draw (request : IdRequest) :
    Answers [request] 0 (fun id => request.family id) request.draw := by
  intro ids
  refine ⟨rfl, le_of_eq ?_⟩
  rw [IdSupply.given, IdSupply.given, List.append_nil, zero_add]

/-- Computations one after another: what the first one gives is known to the second. -/
theorem Answers.bind {drawing : Drawing α} {next : α → Drawing β}
    (h : Answers requests known idsOf drawing)
    (hnext : ∀ value, Answers later (idsOf value) idsOf' (next value)) :
    Answers (requests ++ later) known idsOf' (drawing >>= next) := by
  intro ids
  obtain ⟨hafter, hids⟩ := h ids
  obtain ⟨hafter', hids'⟩ := hnext (drawing ids).1 (drawing ids).2
  rw [hafter] at hafter' hids'
  refine ⟨(congrArg (fun ids => (next (drawing _).1 ids).2) hafter).trans ?_, ?_⟩
  · rw [IdSupply.after_append]
    exact hafter'
  · have hgiven : (ids.given (requests ++ later) : Multiset String) =
        ids.given requests + (ids.after requests).given later := by
      rw [IdSupply.given_append, Multiset.coe_add]
    calc idsOf' ((drawing >>= next) ids).1
        = idsOf' (next (drawing ids).1 (ids.after requests)).1 := by rw [← hafter]; rfl
      _ ≤ idsOf (drawing ids).1 + (ids.after requests).given later := hids'
      _ ≤ known + ids.given requests + (ids.after requests).given later :=
        add_le_add hids le_rfl
      _ = known + ids.given (requests ++ later) := by rw [hgiven, add_assoc]

/-- What is known apart stays known. -/
theorem Answers.frame {drawing : Drawing α} (h : Answers requests known idsOf drawing)
    (more : Multiset String) :
    Answers requests (more + known) (fun value => more + idsOf value) drawing := by
  intro ids
  obtain ⟨hafter, hids⟩ := h ids
  refine ⟨hafter, ?_⟩
  rw [add_assoc]
  exact add_le_add le_rfl hids

/-- A computation that builds on nothing can run after any other. -/
theorem Answers.beside {drawing : Drawing α} (h : Answers requests 0 idsOf drawing)
    (known : Multiset String) :
    Answers requests known (fun value => known + idsOf value) drawing := by
  have hframe := h.frame known
  rwa [add_zero] at hframe

/-- What is computed from a result without further ids. -/
theorem Answers.bind_pure {drawing : Drawing α} {f : α → β}
    (h : Answers requests known idsOf drawing) (hf : ∀ value, idsOf' (f value) ≤ idsOf value) :
    Answers requests known idsOf' (drawing >>= fun value => pure (f value)) := by
  intro ids
  obtain ⟨hafter, hids⟩ := h ids
  exact ⟨hafter, (hf _).trans hids⟩

end Answers

/-! ## Elements -/

namespace ElementHead

variable (head : ElementHead) (scope : Scope)

@[simp] theorem attributeIds_lookAttributes (layout : Option Layout) :
    attributeIds (head.lookAttributes scope layout) = 0 :=
  attributeIds_of_sublist (head.names_lookAttributes scope layout) (by decide)

@[simp] theorem attributeIds_fieldAttributes (names : List String) :
    attributeIds (head.fieldAttributes names) = 0 :=
  attributeIds_of_sublist (head.names_fieldAttributes names) (by decide)

theorem drawFieldId_eq_draw (names : List String) (kind : FieldKind) :
    head.drawFieldId names kind = (head.fieldRequest names kind).draw := by
  unfold drawFieldId fieldRequest
  cases head.binding? names <;> rfl

theorem family_fieldRequest (names : List String) (kind : FieldKind) (id : String) :
    (head.fieldRequest names kind).family id = [id] := by
  unfold fieldRequest
  cases head.binding? names <;> rfl

theorem textHtml_answers (tag : Tag) (children : List Html) :
    Answers (head.textRequests scope) (forestIds children) Html.ids
      (head.textHtml scope tag children) := by
  unfold textHtml textRequests
  extract_lets text paths body
  change Answers (if paths.isEmpty then _ else _) _ _ _
  split
  · refine answers_pure (le_of_eq ?_)
    simp [body]
  · refine ((answers_draw (.named _)).beside _).bind_pure fun id => le_of_eq ?_
    simp [body, IdRequest.family, add_comm]

/-- A field holds its own id and drops what stands inside it. -/
theorem fieldHtml_answers (names : List String) (kind : FieldKind) (known : Multiset String) :
    Answers [head.fieldRequest names kind] known Html.ids (head.fieldHtml scope names kind) := by
  unfold fieldHtml
  rw [drawFieldId_eq_draw]
  cases kind with
  | input =>
    refine ((answers_draw _).beside known).bind_pure fun id => ?_
    simp [family_fieldRequest]
  | textarea =>
    refine ((answers_draw _).beside known).bind_pure fun id => ?_
    simp [family_fieldRequest]

/-- **The markup of an element answers its requests**, with the ids of its children known. -/
theorem html_answers (names : List String) (children : List Html) :
    Answers (head.requests scope names) (forestIds children) Html.ids
      (head.html scope names children) := by
  unfold html requests
  cases head.form scope with
  | text tag => exact head.textHtml_answers scope tag children
  | field kind => exact head.fieldHtml_answers scope names kind _
  | button =>
    refine answers_pure ?_
    cases head.attributes.get? "onClick" <;> simp
  | image =>
    refine answers_pure ?_
    simp
  | link =>
    refine answers_pure ?_
    cases head.attributeText scope "target" <;> simp
  | box layout =>
    refine answers_pure ?_
    simp

end ElementHead

/-! ## Views -/

@[simp] theorem ids_branchHtml (id : String) (condition : Option Condition)
    (children : List Html) :
    (branchHtml id condition children).ids = {id} + forestIds children := by
  cases condition <;> simp [branchHtml]

@[simp] theorem forestIds_loopHtml (level : Nat) (id item : String) (array : Path)
    (children : List Html) :
    forestIds (loopHtml level id item array children) =
      {id} + ({id ++ "-template"} + forestIds children) := by
  simp [loopHtml]

mutual

/-- **The markup of a view answers its requests.** -/
theorem View.html_answers (names : List String) (level : Nat) (scope : Scope) :
    (view : View) → Answers (view.requests names scope) 0 forestIds (view.html names level scope)
  | .element head children => by
    rw [View.requests]
    refine (viewsHtml_answers names (level + 1) scope.inner children).bind fun inner => ?_
    have hhead := head.html_answers scope names (childBlock level inner)
    rw [forestIds_childBlock] at hhead
    refine hhead.bind_pure fun html => ?_
    simp
  | .expanded name children => by
    rw [View.requests]
    refine (viewsHtml_answers names (level + 1) scope.inner children).bind fun inner => ?_
    refine ((answers_draw (.numbered name [])).beside _).bind_pure fun id => ?_
    simp [IdRequest.family, add_comm]
  | .missing name => by
    rw [View.requests]
    exact answers_pure (by simp)
  | .recursive name => by
    rw [View.requests]
    exact answers_pure (by simp)
  | .conditional condition body rest => by
    rw [View.requests]
    refine (answers_draw (.numbered "cond" ("-if" :: rest.endings 0))).bind fun id => ?_
    refine ((viewsHtml_answers names (level + 1) scope.inner body).beside _).bind fun inner => ?_
    -- of the ids of the conditional, the first two are used here and the others by later branches
    have hrest := (rest.html_answers names level scope id 0).frame
      ({id} + {id ++ "-if"} + nodesIds inner)
    have hfamily : (((IdRequest.numbered "cond" ("-if" :: rest.endings 0)).family id :) :
        Multiset String) + nodesIds inner =
        {id} + {id ++ "-if"} + nodesIds inner + (rest.endings 0).map (id ++ ·) := by
      rw [IdRequest.family, List.map_cons, coe_id_cons, coe_id_cons]
      abel
    rw [hfamily]
    refine hrest.bind_pure fun later => ?_
    calc forestIds (branchHtml (id ++ "-if") (some condition) (childBlock level inner) :: later)
        = {id ++ "-if"} + nodesIds inner + forestIds later := by simp
      _ ≤ {id} + ({id ++ "-if"} + nodesIds inner + forestIds later) := Multiset.le_add_left _ _
      _ = {id} + {id ++ "-if"} + nodesIds inner + forestIds later := by abel
  | .loop item array body => by
    rw [View.requests]
    refine (answers_draw (.numbered "loop" ["-template"])).bind fun id => ?_
    refine ((viewsHtml_answers names (level + 1) (.ofLoop item array) body).beside _).bind_pure
      fun inner => ?_
    rw [forestIds_loopHtml, forestIds_childBlock, ← add_assoc]
    exact le_of_eq rfl

theorem ViewChain.html_answers (names : List String) (level : Nat) (scope : Scope) (id : String)
    (index : Nat) :
    (chain : ViewChain) →
      Answers (chain.requests names scope) ((chain.endings index).map (id ++ ·)) forestIds
        (chain.html names level scope id index)
  | .done => answers_pure (le_of_eq rfl)
  | .elseIf condition body rest => by
    rw [ViewChain.requests]
    refine ((viewsHtml_answers names (level + 1) scope.inner body).beside _).bind fun inner => ?_
    have hrest := (rest.html_answers names level scope id (index + 1)).frame
      ({id ++ ("-elseif-" ++ toString index)} + nodesIds inner)
    have hendings : ((((ViewChain.elseIf condition body rest).endings index).map (id ++ ·) :) :
        Multiset String) + nodesIds inner =
        {id ++ ("-elseif-" ++ toString index)} + nodesIds inner +
          (rest.endings (index + 1)).map (id ++ ·) := by
      rw [ViewChain.endings, List.map_cons, coe_id_cons]
      abel
    rw [hendings]
    refine hrest.bind_pure fun later => le_of_eq ?_
    simp [String.append_assoc]
  | .otherwise body => by
    rw [ViewChain.requests]
    refine ((viewsHtml_answers names (level + 1) scope.inner body).beside _).bind_pure
      fun inner => le_of_eq ?_
    simp [ViewChain.endings]

theorem viewsHtml_answers (names : List String) (level : Nat) (scope : Scope) :
    (views : List View) →
      Answers (viewsRequests names scope views) 0 nodesIds (viewsHtml names level scope views)
  | [] => answers_pure (by simp [nodesIds])
  | view :: views => by
    rw [viewsRequests]
    refine (view.html_answers names level scope).bind fun first => ?_
    refine ((viewsHtml_answers names level scope views).beside _).bind_pure fun rest => ?_
    simp [nodesIds]

end

/-! ## Programs -/

/-- The components at the top of a page that are written there. -/
def Program.topNames (program : Program) : List String :=
  (program.components.filter (·.props?.isNone)).map Component.name

theorem Component.html_answers (program : Program) (component : Component) :
    Answers (component.requests program)
      (if component.props?.isNone then {component.name} else 0) Html.ids
      (component.html program) := by
  unfold Component.requests Component.html
  cases component.props? with
  | some props =>
    refine answers_pure ?_
    simp
  | none =>
    refine ((viewsHtml_answers program.bindable 1 {} _).beside _).bind_pure fun inner => ?_
    simp

theorem componentsHtml_answers (program : Program) :
    (components : List Component) →
      Answers (components.flatMap (Component.requests program))
        ((components.filter (·.props?.isNone)).map Component.name) forestIds
        (componentsHtml program components)
  | [] => answers_pure (le_of_eq rfl)
  | component :: components => by
    -- what the first component may use is set apart from the names of the others
    have hnames : ((((component :: components).filter (·.props?.isNone)).map Component.name :) :
        Multiset String) = ((components.filter (·.props?.isNone)).map Component.name :) +
          if component.props?.isNone then {component.name} else 0 := by
      cases h : component.props?.isNone
      · simp [h]
      · rw [List.filter_cons, h, if_pos rfl, if_pos rfl, List.map_cons, coe_id_cons, add_comm]
    rw [hnames, List.flatMap_cons]
    refine ((component.html_answers program).frame _).bind fun first => ?_
    rw [add_comm]
    refine ((componentsHtml_answers program components).frame first.ids).bind_pure fun rest => ?_
    cases rest <;> simp

/-- **The markup of a program answers its requests.**  Nothing else draws from the supply, and the
only other ids in the markup are the names of the components at the top of the page. -/
theorem Program.html_answers (program : Program) :
    (componentsHtml program program.components {}).2 = IdSupply.after {} program.requests ∧
      forestIds program.html ≤ program.topNames + (program.ids : Multiset String) :=
  componentsHtml_answers program program.components {}

end UiLang
