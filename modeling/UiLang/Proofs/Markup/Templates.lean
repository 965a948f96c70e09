import UiLang.Proofs.Markup.Marking
import UiLang.Proofs.Markup.Statements

/-!
# Templates of loops

The body of a loop is written once, as a template.  Texts of the body stand in the contents of
elements and in eight of their attributes.  Outside inner loops, which have templates of their own,
each of these texts has its markers, however deep it stands in elements, branches and uses of
components.  There are two exceptions: classes and the values of fields are written as they are.  So
a template is marked completely exactly when none of its classes and values names the item.

## Main definitions

* `Slot`, `Html.slots`, `View.slots`: the texts of markup, and those that a view brings in
* `Html.templates`, `ShownLoop`, `View.loops`: templates, and the loops that markup shows
* `Shows`: markup with the texts and the templates that belong to given texts and loops
* `Slot.IsWrittenAs`, `Slot.IsMarkedAs`: what is written for a text, and what complete marking is

## Main results

* `ElementHead.html_shows`, `View.html_shows`, `Program.html_shows`: the texts and templates of
  markup
* `parseSource_templates_marked_iff`: what is marked in templates, and which of them are marked
  completely
-/

namespace UiLang

/-! ## Texts and templates of markup -/

/-- A text in markup: the value of an attribute, or content. -/
structure Slot where
  name? : Option AttributeName
  text : String
  deriving DecidableEq, Repr

/-- The attributes that hold texts of an element. -/
def AttributeName.holdsText : AttributeName → Bool
  | .classes | .type | .placeholder | .value | .src | .alt | .href | .target => true
  | _ => false

instance : DecidablePred IsGap :=
  fun text => List.decidableBAll (fun c : Char => c.isWhitespace = true) text.toList

/-- A text as content.  Blanks and line breaks are none. -/
def contentSlots (text : String) : List Slot :=
  if IsGap text then [] else [⟨none, text⟩]

def attributeSlots (attributes : List HtmlAttribute) : List Slot :=
  (attributes.filter (·.name.holdsText)).map fun a => ⟨some a.name, a.value⟩

namespace Html

mutual

/-- The texts of a piece of markup, without those of templates in it. -/
def slots : Html → List Slot
  | .text s => contentSlots s
  | .comment _ => []
  | .element tag attributes children =>
    if tag = .template then [] else attributeSlots attributes ++ slotsOf children
  | .void _ attributes => attributeSlots attributes

def slotsOf : List Html → List Slot
  | [] => []
  | html :: rest => html.slots ++ slotsOf rest

end

mutual

/-- The contents of the templates in a piece of markup, outer ones first. -/
def templates : Html → List (List Html)
  | .element tag _ children =>
    if tag = .template then children :: templatesOf children else templatesOf children
  | _ => []

def templatesOf : List Html → List (List Html)
  | [] => []
  | html :: rest => html.templates ++ templatesOf rest

end

theorem slotsOf_append (forest others : List Html) :
    slotsOf (forest ++ others) = slotsOf forest ++ slotsOf others := by
  induction forest with
  | nil => rfl
  | cons html rest ih => rw [List.cons_append, slotsOf, ih, slotsOf, List.append_assoc]

theorem templatesOf_append (forest others : List Html) :
    templatesOf (forest ++ others) = templatesOf forest ++ templatesOf others := by
  induction forest with
  | nil => rfl
  | cons html rest ih => rw [List.cons_append, templatesOf, ih, templatesOf, List.append_assoc]

end Html

/-! ## Texts and loops of views -/

namespace ElementHead

variable (head : ElementHead)

/-- An attribute as it was written. -/
def sourceText? (name : String) : Option String :=
  (head.attributes.get? name).map AttributeValue.toText

/-- The classes that do not depend on state.  Elements directly inside a loop have one more. -/
def classSlots (atRoot : Bool) : List Slot :=
  let own := match head.attributes.get? "class" with
    | none | some (.classMap _) => []
    | some value => [value.toText]
  let classes := if atRoot then "loop-item" :: own else own
  if classes.isEmpty then [] else [⟨some .classes, String.intercalate " " classes⟩]

/-- The value of a field that is not bound to one of the given names. -/
def valueSlots (names : List String) : List Slot :=
  if (head.binding? names).isSome then []
  else ((head.sourceText? "value").map fun text => ⟨some .value, text⟩).toList

/-- The texts that an element brings into markup. -/
def slots (names : List String) (atRoot : Bool) : List Slot :=
  let text := head.text.getD ""
  if head.name = "input" then
    ⟨some .type, (head.sourceText? "type").getD "text"⟩ ::
      ⟨some .placeholder, (head.sourceText? "placeholder").getD text⟩ ::
      (head.classSlots atRoot ++ head.valueSlots names)
  else if head.name = "textarea" then
    ⟨some .placeholder, (head.sourceText? "placeholder").getD text⟩ ::
      (head.classSlots atRoot ++ head.valueSlots names)
  else if head.name = "image" then
    ⟨some .src, (head.sourceText? "src").getD text⟩ ::
      ⟨some .alt, (head.sourceText? "alt").getD "Image"⟩ :: head.classSlots atRoot
  else if head.name = "link" then
    ⟨some .href, (head.sourceText? "href").getD "#"⟩ ::
      (((head.sourceText? "target").map fun text => ⟨some .target, text⟩).toList ++
        (head.classSlots atRoot ++ contentSlots text))
  else head.classSlots atRoot ++ contentSlots text

end ElementHead

mutual

/-- The texts that a view brings into markup, outside loops in it. -/
def View.slots (names : List String) (atRoot : Bool) : View → List Slot
  | .element head children =>
    head.slots names atRoot ++ if head.hidesChildren then [] else viewsSlots names false children
  | .expanded _ children =>
    ⟨some .classes, "frobo-component-instance"⟩ :: viewsSlots names false children
  | .missing _ | .recursive _ => []
  | .conditional _ body rest => viewsSlots names false body ++ rest.slots names
  | .loop _ _ _ => []

def ViewChain.slots (names : List String) : ViewChain → List Slot
  | .done => []
  | .elseIf _ body rest => viewsSlots names false body ++ rest.slots names
  | .otherwise body => viewsSlots names false body

def viewsSlots (names : List String) (atRoot : Bool) : List View → List Slot
  | [] => []
  | view :: views => view.slots names atRoot ++ viewsSlots names atRoot views

end

/-- A loop with its body. -/
structure ShownLoop where
  item : String
  array : Path
  body : List View

/-- The texts of the body of a loop. -/
def ShownLoop.slots (loop : ShownLoop) (names : List String) : List Slot :=
  viewsSlots names true loop.body

mutual

/-- The loops that the markup of a view shows, outer ones first. -/
def View.loops : View → List ShownLoop
  | .element head children => if head.hidesChildren then [] else viewsLoops children
  | .expanded _ children => viewsLoops children
  | .missing _ | .recursive _ => []
  | .conditional _ body rest => viewsLoops body ++ rest.loops
  | .loop item array body => ⟨item, array, body⟩ :: viewsLoops body

def ViewChain.loops : ViewChain → List ShownLoop
  | .done => []
  | .elseIf _ body rest => viewsLoops body ++ rest.loops
  | .otherwise body => viewsLoops body

def viewsLoops : List View → List ShownLoop
  | [] => []
  | view :: views => view.loops ++ viewsLoops views

end

/-- The loops that a component at the top of a page shows.  One with props is not shown. -/
def Component.shownLoops (program : Program) (component : Component) : List ShownLoop :=
  match component.props? with
  | some _ => []
  | none => viewsLoops (program.componentViews component)

/-- The loops that a page shows. -/
def Program.shownLoops (program : Program) : List ShownLoop :=
  program.components.flatMap (·.shownLoops program)

/-! ## What is written for a text -/

namespace Slot

/-- Classes and values are written as they are. -/
def isRaw (slot : Slot) : Bool :=
  slot.name? = some .classes ∨ slot.name? = some .value

/-- What is written for a text in a scope. -/
def written (scope : Scope) (slot : Slot) : Slot :=
  if slot.isRaw then slot else ⟨slot.name?, scope.mark slot.text⟩

end Slot

section Mark

variable (scope : Scope)

theorem mark_eq_ofLoop {loop : LoopScope} (h : scope.loop = some loop) (text : String) :
    scope.mark text = (Scope.ofLoop loop.item loop.array).mark text := by
  unfold Scope.mark
  rw [h]
  rfl

theorem mark_of_none (h : scope.loop = none) (text : String) : scope.mark text = text := by
  unfold Scope.mark
  rw [h]

/-- A text without braces needs no markers. -/
theorem mark_of_notMem {text : String} (h : '\x7b' ∉ text.toList) : scope.mark text = text := by
  have hchars := templateParts_chars text.toList
  cases hloop : scope.loop with
  | none => exact mark_of_none scope hloop text
  | some loop =>
    have hself : markedParts loop.item (templateParts text.toList) = templateParts text.toList := by
      refine markedParts_eq_self_iff.mpr fun path hpath => absurd ?_ h
      rw [← hchars]
      exact List.mem_flatMap.mpr ⟨.hole path, hpath, List.mem_cons_self⟩
    rw [mark_eq_ofLoop scope hloop, ← String.toList_inj, toList_mark, hself]
    exact hchars

theorem isWhitespace_markedParts (item : String) (parts : List TemplatePart) :
    (∀ c ∈ partsChars (markedParts item parts), c.isWhitespace = true) ↔
      ∀ c ∈ partsChars parts, c.isWhitespace = true := by
  have hbrace {cs : List Char} : ¬∀ c ∈ '\x7b' :: cs, c.isWhitespace = true :=
    fun h => absurd (h '\x7b' List.mem_cons_self) (by decide)
  induction parts with
  | nil => rfl
  | cons part parts ih =>
    cases part with
    | char c => simp only [markedParts_char, partsChars_char, List.forall_mem_cons, ih]
    | hole path =>
      -- a path and a marker both start with a brace
      rw [partsChars_hole]
      refine iff_of_false ?_ hbrace
      by_cases hroot : path.root = item
      · rw [markedParts_hole_of_eq hroot, partsChars_char]
        exact hbrace
      · rw [markedParts_hole_of_ne hroot, partsChars_hole]
        exact hbrace

/-- Markers are no blanks. -/
theorem isGap_mark {text : String} : IsGap (scope.mark text) ↔ IsGap text := by
  cases hloop : scope.loop with
  | none => rw [mark_of_none scope hloop]
  | some loop =>
    rw [mark_eq_ofLoop scope hloop, IsGap, toList_mark, isWhitespace_markedParts, partsChars,
      templateParts_chars, IsGap]

theorem contentSlots_mark (text : String) :
    contentSlots (scope.mark text) = (contentSlots text).map (Slot.written scope) := by
  unfold contentSlots
  by_cases h : IsGap text
  · rw [if_pos h, if_pos ((isGap_mark scope).mpr h)]
    rfl
  · rw [if_neg h, if_neg (mt (isGap_mark scope).mp h)]
    rfl

/-- The text of an attribute with markers, or a default that needs none. -/
theorem getD_map_mark {default : String} (h : '\x7b' ∉ default.toList) (text? : Option String) :
    (text?.map scope.mark).getD default = scope.mark (text?.getD default) := by
  cases text? with
  | none => exact (mark_of_notMem scope h).symm
  | some text => rfl

end Mark

/-! ## Markup that shows texts and loops -/

/-- Whatever ids are drawn, the result of a computation has a property. -/
def Always {α : Type} (P : α → Prop) (drawing : Drawing α) : Prop :=
  ∀ ids, P (drawing ids).1

theorem always_bind {α β : Type} {P : α → Prop} {Q : β → Prop} {drawing : Drawing α}
    {next : α → Drawing β} (h : Always P drawing)
    (hnext : ∀ value, P value → Always Q (next value)) : Always Q (drawing >>= next) :=
  fun ids => hnext _ (h ids) (drawing ids).2

/-- What an id is does not matter. -/
theorem always_draw {α β : Type} {Q : β → Prop} {drawing : Drawing α} {next : α → Drawing β}
    (h : ∀ value, Always Q (next value)) : Always Q (drawing >>= next) :=
  fun ids => h _ (drawing ids).2

/-- The texts of the template of a loop are those of its body. -/
def ShownLoop.HasTexts (names : List String) (content : List Html) (loop : ShownLoop) : Prop :=
  Html.slotsOf content = (loop.slots names).map (Slot.written (.ofLoop loop.item loop.array))

/-- Markup in a scope shows texts and, one after another, loops. -/
structure Shows (names : List String) (scope : Scope) (slots : List Slot) (loops : List ShownLoop)
    (forest : List Html) : Prop where
  slots : Html.slotsOf forest = slots.map (Slot.written scope)
  templates : List.Forall₂ (ShownLoop.HasTexts names) (Html.templatesOf forest) loops

namespace Shows

open Html

variable {names : List String} {scope : Scope} {slots more : List Slot}
  {loops others : List ShownLoop} {forest rest : List Html}

theorem nil : Shows names scope [] [] [] :=
  ⟨rfl, .nil⟩

theorem append (h : Shows names scope slots loops forest)
    (hrest : Shows names scope more others rest) :
    Shows names scope (slots ++ more) (loops ++ others) (forest ++ rest) where
  slots := by rw [slotsOf_append, h.slots, hrest.slots, List.map_append]
  templates := by
    rw [templatesOf_append]
    exact List.rel_append h.templates hrest.templates

theorem content (text : String) :
    Shows names scope (contentSlots text) [] [.text (scope.mark text)] where
  slots := by rw [slotsOf, slotsOf, List.append_nil, Html.slots, contentSlots_mark]
  templates := .nil

theorem gap {text : String} (h : IsGap text) : Shows names scope [] [] [.text text] where
  slots := by rw [slotsOf, slotsOf, Html.slots, contentSlots, if_pos h]; rfl
  templates := .nil

theorem comment (text : String) : Shows names scope [] [] [.comment text] :=
  ⟨rfl, .nil⟩

theorem void (tag : VoidTag) {attributes : List HtmlAttribute}
    (h : attributeSlots attributes = slots.map (Slot.written scope)) :
    Shows names scope slots [] [.void tag attributes] where
  slots := by rw [slotsOf, slotsOf, Html.slots, h, List.append_nil]
  templates := .nil

theorem element {tag : Tag} (htag : tag ≠ .template) {attributes : List HtmlAttribute}
    (h : attributeSlots attributes = slots.map (Slot.written scope))
    (hforest : Shows names scope more loops forest) :
    Shows names scope (slots ++ more) loops [.element tag attributes forest] where
  slots := by
    rw [slotsOf, slotsOf, Html.slots, if_neg htag, h, hforest.slots, List.append_nil,
      List.map_append]
  templates := by
    rw [templatesOf, templatesOf, Html.templates, if_neg htag, List.append_nil]
    exact hforest.templates

/-- A component is a block with a class. -/
theorem block (id name : String) (hforest : Shows names scope more loops forest) :
    Shows names scope (⟨some .classes, name⟩ :: more) loops
      [.element .div [⟨.elementId, id⟩, ⟨.classes, name⟩] forest] := by
  have hclass : attributeSlots [⟨.elementId, id⟩, ⟨.classes, name⟩] =
      [⟨some .classes, name⟩].map (Slot.written scope) := rfl
  exact .element (by decide) hclass hforest

theorem template {item : String} {array : Path} {body : List View} (id : String)
    (h : Shows names (.ofLoop item array) (viewsSlots names true body) loops forest) :
    Shows names scope [] (⟨item, array, body⟩ :: loops)
      [.element .template [⟨.elementId, id⟩] forest] where
  slots := by rw [slotsOf, slotsOf, Html.slots, if_pos rfl]; rfl
  templates := by
    rw [templatesOf, templatesOf, Html.templates, if_pos rfl, List.append_nil]
    exact .cons h.slots h.templates

/-- Markers depend on the loop only. -/
theorem of_inner (h : Shows names scope.inner slots loops forest) :
    Shows names scope slots loops forest :=
  ⟨h.slots, h.templates⟩

end Shows

/-! ## Elements -/

theorem attributeSlots_append (attributes others : List HtmlAttribute) :
    attributeSlots (attributes ++ others) = attributeSlots attributes ++ attributeSlots others := by
  rw [attributeSlots, List.filter_append, List.map_append]
  rfl

/-- Classes and values are written as they are. -/
theorem map_written_of_isRaw {slots : List Slot} (h : ∀ slot ∈ slots, slot.isRaw = true)
    (scope : Scope) : slots.map (Slot.written scope) = slots := by
  have hself : ∀ slot ∈ slots, slot.written scope = slot := fun slot hslot => if_pos (h slot hslot)
  rw [List.map_congr_left hself, List.map_id']

namespace ElementHead

open Html

variable (head : ElementHead) (scope : Scope)

theorem attributeText_eq (name : String) :
    head.attributeText scope name = (head.sourceText? name).map scope.mark := by
  rw [attributeText, sourceText?, Option.map_map]
  rfl

theorem markedText_eq : head.markedText scope = scope.mark (head.text.getD "") :=
  getD_map_mark scope (by decide) head.text

/-- An attribute, or the text of the element in its place. -/
theorem getD_attributeText (name : String) :
    (head.attributeText scope name).getD (head.markedText scope) =
      scope.mark ((head.sourceText? name).getD (head.text.getD "")) := by
  rw [attributeText_eq, markedText_eq, Option.getD_map]

/-- An attribute, or a default that needs no markers. -/
theorem getD_attributeText_default {default : String} (h : '\x7b' ∉ default.toList)
    (name : String) : (head.attributeText scope name).getD default =
      scope.mark ((head.sourceText? name).getD default) := by
  rw [attributeText_eq, getD_map_mark scope h]

theorem attributeSlots_lookAttributes (layout : Option Layout) :
    attributeSlots (head.lookAttributes scope layout) =
      (head.classSlots scope.atRoot).map (Slot.written scope) := by
  have hraw : ∀ slot ∈ head.classSlots scope.atRoot, slot.isRaw = true := by
    intro slot hslot
    unfold classSlots at hslot
    extract_lets own classes at hslot
    split at hslot
    · cases hslot
    · obtain rfl := List.mem_singleton.mp hslot
      rfl
  have hstyle : attributeSlots (head.styleAttributes layout) = [] := by
    unfold styleAttributes
    cases layout with
    | none =>
      dsimp only
      split <;> rfl
    | some layout => rfl
  rw [lookAttributes, attributeSlots_append, hstyle, List.append_nil, map_written_of_isRaw hraw]
  unfold classAttributes fixedClasses classSlots
  cases head.attributes.get? "class" with
  | none => cases scope.atRoot <;> rfl
  | some value => cases value <;> cases scope.atRoot <;> rfl

theorem attributeSlots_fieldAttributes (names : List String) :
    attributeSlots (head.fieldAttributes names) =
      (head.valueSlots names).map (Slot.written scope) := by
  have hraw : ∀ slot ∈ head.valueSlots names, slot.isRaw = true := by
    intro slot hslot
    unfold valueSlots at hslot
    split at hslot
    · cases hslot
    · obtain ⟨text, -, rfl⟩ := Option.map_eq_some_iff.mp (Option.mem_toList.mp hslot)
      rfl
  rw [map_written_of_isRaw hraw, fieldAttributes, attributeSlots_append, valueSlots, sourceText?]
  -- a handler is no text
  cases head.binding? names <;> cases head.attributes.get? "value" <;>
    cases head.attributes.get? "onChange" <;> rfl

/-- The names that decide which texts an element has. -/
theorem form_cases :
    (head.name = "input" ∧ head.form scope = .field .input) ∨
    (head.name = "textarea" ∧ head.form scope = .field .textarea) ∨
    (head.name = "image" ∧ head.form scope = .image) ∨
    (head.name = "link" ∧ head.form scope = .link) ∨
    head.name ∉ ["input", "textarea", "image", "link"] ∧
      (head.form scope = .button ∨ (∃ layout, head.form scope = .box layout) ∨
        ∃ tag, tag ≠ .template ∧ head.form scope = .text tag) := by
  have hheading (level : Option String) : headingTag level ≠ .template := by
    unfold headingTag
    split
    · split <;> simp
    · simp
  unfold form
  split <;> simp_all

theorem textHtml_shows {tag : Tag} (htag : tag ≠ .template) {names : List String}
    {children : List Html} {inner : List Slot} {loops : List ShownLoop}
    (h : Shows names scope inner loops children) :
    Always (fun html => Shows names scope
        (head.classSlots scope.atRoot ++ (contentSlots (head.text.getD "") ++ inner)) loops [html])
      (head.textHtml scope tag children) := by
  have hlook := head.attributeSlots_lookAttributes scope none
  have hbody := (Shows.content (head.text.getD "")).append h
  unfold textHtml
  rw [markedText_eq]
  extract_lets text paths body
  split
  · exact fun _ => .element htag hlook hbody
  · -- what ties a text to the script is not shown
    exact fun _ => .element htag hlook hbody

theorem fieldHtml_shows (names : List String) (kind : FieldKind) (hname : head.name = kind.name) :
    Always (fun html => Shows names scope (head.slots names scope.atRoot) [] [html])
      (head.fieldHtml scope names kind) := by
  have hlook := head.attributeSlots_lookAttributes scope none
  have hfield := head.attributeSlots_fieldAttributes scope names
  refine always_draw fun id => ?_
  rw [getD_attributeText]
  have hattributes : attributeSlots ([⟨.elementId, id⟩, ⟨.placeholder,
        scope.mark ((head.sourceText? "placeholder").getD (head.text.getD ""))⟩] ++
      head.lookAttributes scope ++ head.fieldAttributes names) =
      (⟨some .placeholder, (head.sourceText? "placeholder").getD (head.text.getD "")⟩ ::
        (head.classSlots scope.atRoot ++ head.valueSlots names)).map (Slot.written scope) := by
    rw [attributeSlots_append, attributeSlots_append, hlook, hfield, List.map_cons,
      List.map_append, List.append_assoc]
    rfl
  cases kind with
  | input =>
    have hinput : head.name = "input" := hname
    rw [slots, if_pos hinput, getD_attributeText_default head scope (by decide)]
    exact fun _ => .void .input (congrArg (_ :: ·) hattributes)
  | textarea =>
    have hinput : head.name ≠ "input" := fun h => absurd (hname.symm.trans h) (by decide)
    have htextarea : head.name = "textarea" := hname
    rw [slots, if_neg hinput, if_pos htextarea, ← List.append_nil (_ :: _)]
    exact fun _ => .element (by decide) hattributes .nil

theorem attributeSlots_image : attributeSlots
      ([⟨.src, (head.attributeText scope "src").getD (head.markedText scope)⟩,
        ⟨.alt, (head.attributeText scope "alt").getD "Image"⟩] ++ head.lookAttributes scope) =
    (⟨some .src, (head.sourceText? "src").getD (head.text.getD "")⟩ ::
      ⟨some .alt, (head.sourceText? "alt").getD "Image"⟩ ::
      head.classSlots scope.atRoot).map (Slot.written scope) := by
  rw [attributeSlots_append, attributeSlots_lookAttributes, getD_attributeText,
    getD_attributeText_default head scope (by decide)]
  rfl

theorem attributeSlots_link : attributeSlots
      (⟨.href, (head.attributeText scope "href").getD "#"⟩ ::
        ((head.attributeText scope "target").map fun name => ⟨.target, name⟩).toList ++
        head.lookAttributes scope) =
    (⟨some .href, (head.sourceText? "href").getD "#"⟩ ::
      (((head.sourceText? "target").map fun text => ⟨some .target, text⟩).toList ++
        head.classSlots scope.atRoot)).map (Slot.written scope) := by
  rw [attributeSlots_append, attributeSlots_lookAttributes, attributeText_eq head scope "target",
    getD_attributeText_default head scope (by decide), List.map_cons, List.map_append]
  cases head.sourceText? "target" <;> rfl

theorem attributeSlots_button : attributeSlots
      ((((head.attributes.get? "onClick").map (handlerScript scope)).map fun script =>
        ⟨.onclick, script⟩).toList ++ head.lookAttributes scope) =
    (head.classSlots scope.atRoot).map (Slot.written scope) := by
  rw [attributeSlots_append, attributeSlots_lookAttributes]
  cases head.attributes.get? "onClick" <;> rfl

/-- **The markup of an element shows its texts**, and what its children show unless they are
hidden. -/
theorem html_shows {names : List String} {children : List Html} {inner : List Slot}
    {loops : List ShownLoop} (h : Shows names scope inner loops children) :
    Always (fun html => Shows names scope
        (head.slots names scope.atRoot ++ if head.hidesChildren then [] else inner)
        (if head.hidesChildren then [] else loops) [html])
      (head.html scope names children) := by
  have hbody : Shows names scope (contentSlots (head.text.getD "") ++ inner) loops
      (.text (head.markedText scope) :: children) := by
    rw [markedText_eq]
    exact (Shows.content _).append h
  unfold html
  rcases head.form_cases scope with ⟨hname, hform⟩ | ⟨hname, hform⟩ | ⟨hname, hform⟩ |
    ⟨hname, hform⟩ | ⟨hname, hform⟩
  · have hhides : head.hidesChildren := by simp [hidesChildren, hname]
    rw [hform, if_pos hhides, if_pos hhides, List.append_nil]
    exact head.fieldHtml_shows scope names .input hname
  · have hhides : head.hidesChildren := by simp [hidesChildren, hname]
    rw [hform, if_pos hhides, if_pos hhides, List.append_nil]
    exact head.fieldHtml_shows scope names .textarea hname
  · have hhides : head.hidesChildren := by simp [hidesChildren, hname]
    have himage := head.attributeSlots_image scope
    rw [hform, if_pos hhides, if_pos hhides, List.append_nil]
    refine fun _ => .void .img (himage.trans ?_)
    simp [slots, hname]
  · have hhides : ¬head.hidesChildren := by simp [hidesChildren, hname]
    have hlink := head.attributeSlots_link scope
    rw [hform, if_neg hhides, if_neg hhides]
    have hslots : head.slots names scope.atRoot ++ inner =
        ⟨some .href, (head.sourceText? "href").getD "#"⟩ ::
          (((head.sourceText? "target").map fun text => ⟨some .target, text⟩).toList ++
            head.classSlots scope.atRoot) ++ (contentSlots (head.text.getD "") ++ inner) := by
      simp [slots, hname]
    rw [hslots]
    exact fun _ => .element (by decide) hlink hbody
  · have hhides : ¬head.hidesChildren := by simp_all [hidesChildren]
    have hslots : head.slots names scope.atRoot ++ inner =
        head.classSlots scope.atRoot ++ (contentSlots (head.text.getD "") ++ inner) := by
      simp_all [slots]
    rw [if_neg hhides, if_neg hhides, hslots]
    rcases hform with hform | ⟨layout, hform⟩ | ⟨tag, htag, hform⟩
    · rw [hform]
      exact fun _ => .element (by decide) (head.attributeSlots_button scope) hbody
    · rw [hform]
      exact fun _ => .element (by decide) (head.attributeSlots_lookAttributes scope layout) hbody
    · rw [hform]
      exact head.textHtml_shows scope htag h

end ElementHead

/-! ## Views -/

open Html

/-- Nodes show texts and loops on lines of their own at any level. -/
def NodesShow (names : List String) (scope : Scope) (slots : List Slot) (loops : List ShownLoop)
    (nodes : List (List Html)) : Prop :=
  ∀ level, Shows names scope slots loops (indentedLines level nodes)

section Nodes

variable {names : List String} {scope : Scope} {slots more : List Slot}
  {loops others : List ShownLoop} {node : List Html} {nodes : List (List Html)}

theorem nodesShow_cons (h : Shows names scope slots loops node)
    (hnodes : NodesShow names scope more others nodes) :
    NodesShow names scope (slots ++ more) (loops ++ others) (node :: nodes) :=
  fun level => (Shows.gap (isGap_lineBreak (level + 1))).append (h.append (hnodes level))

theorem NodesShow.childBlock (h : NodesShow names scope slots loops nodes) (level : Nat) :
    Shows names scope slots loops (childBlock level nodes) := by
  unfold UiLang.childBlock
  split
  · rename_i hempty
    have hnil := h level
    rwa [List.isEmpty_iff.mp hempty] at hnil
  · have hline := (h level).append (Shows.gap (isGap_lineBreak level))
    rwa [List.append_nil, List.append_nil] at hline

theorem NodesShow.componentBlock (h : NodesShow names scope slots loops nodes) (level : Nat) :
    Shows names scope slots loops (componentBlock level nodes) := by
  unfold UiLang.componentBlock
  split
  · rename_i hempty
    have hnil := h level
    rw [List.isEmpty_iff.mp hempty] at hnil
    have hgap : IsGap ("\n" ++ lineBreak level) := by
      intro c hc
      rw [String.toList_append] at hc
      rcases List.mem_append.mp hc with hc | hc
      · rw [List.mem_singleton.mp hc]
        rfl
      · exact isGap_lineBreak level c hc
    exact (Shows.gap hgap).append hnil
  · exact h.childBlock level

/-- A branch of a conditional has no texts of its own. -/
theorem Shows.branch {forest : List Html} (id : String) (condition : Option Condition)
    (h : Shows names scope.inner slots loops forest) :
    Shows names scope slots loops [branchHtml id condition forest] := by
  have hnone : attributeSlots (⟨.elementId, id⟩ ::
      (condition.map fun c => ⟨.dataCondition, c.script⟩).toList ++ [⟨.style, "display: none;"⟩]) =
      [].map (Slot.written scope) := by
    cases condition <;> rfl
  exact .element (by decide) hnone h.of_inner

/-- A loop has no texts but those of its template. -/
theorem Shows.loop {item : String} {array : Path} {body : List View} {forest : List Html}
    (level : Nat) (id : String)
    (h : Shows names (.ofLoop item array) (viewsSlots names true body) loops forest) :
    Shows names scope [] (⟨item, array, body⟩ :: loops) (loopHtml level id item array forest) := by
  have hnone : attributeSlots [⟨.elementId, id⟩, ⟨.dataLoop, array.text⟩, ⟨.dataItem, item⟩] =
      [].map (Slot.written scope) := rfl
  exact (Shows.element (by decide) hnone (.comment _)).append
    ((Shows.gap (isGap_lineBreak level)).append (.template _ h))

end Nodes

mutual

/-- **The markup of a view shows its texts and its loops.** -/
theorem View.html_shows (names : List String) (level : Nat) (scope : Scope) : (view : View) →
    Always (Shows names scope (view.slots names scope.atRoot) view.loops)
      (view.html names level scope)
  | .element head children => by
    rw [View.slots, View.loops]
    refine always_bind (viewsHtml_show names (level + 1) scope.inner children)
      fun inner hinner => ?_
    exact always_bind (head.html_shows scope (hinner.childBlock level).of_inner)
      fun html hhtml _ => hhtml
  | .expanded name children => by
    rw [View.slots, View.loops]
    refine always_bind (viewsHtml_show names (level + 1) scope.inner children)
      fun inner hinner => ?_
    exact fun _ => .block _ "frobo-component-instance" (hinner.componentBlock level).of_inner
  | .missing _ => fun _ => .comment _
  | .recursive _ => fun _ => .comment _
  | .conditional condition body rest => by
    rw [View.slots, View.loops]
    refine always_draw fun id => ?_
    refine always_bind (viewsHtml_show names (level + 1) scope.inner body) fun inner hinner => ?_
    refine always_bind (rest.html_shows names level scope id 0) fun later hlater _ => ?_
    exact (Shows.branch _ _ (hinner.childBlock level)).append hlater
  | .loop item array body => by
    rw [View.slots, View.loops]
    refine always_draw fun id => ?_
    refine always_bind (viewsHtml_show names (level + 1) (.ofLoop item array) body)
      fun inner hinner _ => ?_
    exact Shows.loop level id (hinner.childBlock level)

theorem ViewChain.html_shows (names : List String) (level : Nat) (scope : Scope) (id : String)
    (index : Nat) : (chain : ViewChain) →
    Always (Shows names scope (chain.slots names) chain.loops)
      (chain.html names level scope id index)
  | .done => fun _ => .nil
  | .elseIf condition body rest => by
    rw [ViewChain.slots, ViewChain.loops]
    refine always_bind (viewsHtml_show names (level + 1) scope.inner body) fun inner hinner => ?_
    refine always_bind (rest.html_shows names level scope id (index + 1)) fun later hlater _ => ?_
    exact (Shows.gap (isGap_lineBreak level)).append
      ((Shows.branch _ _ (hinner.childBlock level)).append hlater)
  | .otherwise body => by
    rw [ViewChain.slots, ViewChain.loops]
    refine always_bind (viewsHtml_show names (level + 1) scope.inner body) fun inner hinner _ => ?_
    exact (Shows.gap (isGap_lineBreak level)).append (Shows.branch _ _ (hinner.childBlock level))

theorem viewsHtml_show (names : List String) (level : Nat) (scope : Scope) :
    (views : List View) →
      Always (NodesShow names scope (viewsSlots names scope.atRoot views) (viewsLoops views))
        (viewsHtml names level scope views)
  | [] => fun _ _ => .nil
  | view :: views => by
    rw [viewsSlots, viewsLoops]
    refine always_bind (view.html_shows names level scope) fun first hfirst => ?_
    exact always_bind (viewsHtml_show names level scope views) fun rest hrest _ =>
      nodesShow_cons hfirst hrest

end

/-! ## Programs -/

theorem Component.html_shows (program : Program) (component : Component) :
    Always (fun html => List.Forall₂ (ShownLoop.HasTexts program.bindable) html.templates
        (component.shownLoops program)) (component.html program) := by
  unfold Component.html Component.shownLoops
  cases component.props? with
  | some props => exact fun _ => .nil
  | none =>
    refine always_bind (viewsHtml_show program.bindable 1 {} _) fun inner hinner _ => ?_
    have hblock := (hinner.componentBlock 0).templates
    exact hblock

theorem componentsHtml_show (program : Program) : (components : List Component) →
    Always (fun forest => List.Forall₂ (ShownLoop.HasTexts program.bindable) (templatesOf forest)
        (components.flatMap (·.shownLoops program))) (componentsHtml program components)
  | [] => fun _ => .nil
  | component :: components => by
    refine always_bind (component.html_shows program) fun first hfirst => ?_
    refine always_bind (componentsHtml_show program components) fun rest hrest _ => ?_
    have hbelow : templatesOf (if rest.isEmpty then [] else .text "\n" :: rest) =
        templatesOf rest := by
      split
      · rename_i hempty
        rw [List.isEmpty_iff.mp hempty]
      · rfl
    rw [List.flatMap_cons]
    change List.Forall₂ _ (first.templates ++ templatesOf _) _
    rw [hbelow]
    exact List.rel_append hfirst hrest

/-- The templates of a page are those of the loops that it shows. -/
theorem Program.html_shows (program : Program) :
    List.Forall₂ (ShownLoop.HasTexts program.bindable) (templatesOf program.html)
      program.shownLoops :=
  componentsHtml_show program program.components {}

/-! ## Complete marking -/

/-- What is written for a text in the template of a loop over `item`: the text with its markers and
no other path of the item, but classes and values as they are. -/
structure Slot.IsWrittenAs (item : String) (slot written : Slot) : Prop where
  name : written.name? = slot.name?
  marked : slot.isRaw = false → IsMarkedFor item slot.text written.text
  complete : slot.isRaw = false → ¬LeavesItem item written.text
  raw : slot.isRaw = true → written.text = slot.text

/-- What is written for a text has its markers and no other path of the item, whatever the text is
for. -/
structure Slot.IsMarkedAs (item : String) (slot written : Slot) : Prop where
  name : written.name? = slot.name?
  marked : IsMarkedFor item slot.text written.text
  complete : ¬LeavesItem item written.text

section Written

variable (item : String) (array : Path) (slot : Slot)

theorem Slot.isWrittenAs_written : slot.IsWrittenAs item (slot.written (.ofLoop item array)) := by
  cases hraw : slot.isRaw with
  | true =>
    rw [Slot.written, if_pos hraw]
    exact ⟨rfl, by simp [hraw], by simp [hraw], fun _ => rfl⟩
  | false =>
    have hmark := isMarkedFor_mark item array slot.text
    rw [Slot.written, if_neg (by simp [hraw])]
    exact ⟨rfl, fun _ => hmark, fun _ => hmark.not_leavesItem, by simp [hraw]⟩

theorem Slot.isMarkedAs_written_iff : slot.IsMarkedAs item (slot.written (.ofLoop item array)) ↔
    (slot.isRaw = true → ¬MentionsItem item slot.text) := by
  cases hraw : slot.isRaw with
  | true =>
    rw [Slot.written, if_pos hraw, ← isMarkedFor_self_iff]
    exact ⟨fun h _ => h.marked, fun h => ⟨rfl, h rfl, (h rfl).not_leavesItem⟩⟩
  | false =>
    have hmark := isMarkedFor_mark item array slot.text
    rw [Slot.written, if_neg (by simp [hraw])]
    exact iff_of_true ⟨rfl, hmark, hmark.not_leavesItem⟩ (by simp)

end Written

open Markup

/-- **What is marked in templates.**  A reader of the markup finds the tree that it was written
from.  Its templates are those of the loops that are shown, in order, and the texts of a template
are those of the body of its loop, however deep they stand, but for the bodies of inner loops.  Each
has its markers, all other paths in it are kept, and it leaves no path of the item, unless it is a
class or a value: these are written as they are.  So a template is marked completely exactly when no
class and no value in it names the item. -/
theorem parseSource_templates_marked_iff (source : String) :
    pieces? (parseSource source).program.markup.toList =
        some (joined (forestPieces (parseSource source).program.html)) ∧
      List.Forall₂ (fun content loop =>
          List.Forall₂ (Slot.IsWrittenAs loop.item)
            (loop.slots (parseSource source).program.bindable) (slotsOf content) ∧
          (List.Forall₂ (Slot.IsMarkedAs loop.item)
              (loop.slots (parseSource source).program.bindable) (slotsOf content) ↔
            ∀ slot ∈ loop.slots (parseSource source).program.bindable,
              slot.isRaw = true → ¬MentionsItem loop.item slot.text))
        (templatesOf (parseSource source).program.html)
        (parseSource source).program.shownLoops := by
  have hnamed := parseSource_isNamed source
  constructor
  · rw [Program.markup, render, String.toList_ofList]
    exact pieces?_forestChars (Program.html_isSafe hnamed)
  · refine (Program.html_shows _).imp fun content loop htexts => ?_
    rw [htexts, List.forall₂_map_right_iff, List.forall₂_same, List.forall₂_map_right_iff,
      List.forall₂_same]
    refine ⟨fun slot _ => slot.isWrittenAs_written _ _, ?_⟩
    exact forall₂_congr fun slot _ => slot.isMarkedAs_written_iff _ _

/-- A class that names the item is written without a marker. -/
theorem template_of_class_with_item :
    let program := (parseSource ("component C \x7b\nstate xs = []\nfor x in xs \x7b\n" ++
      "text \"a\" class=\"\x7bx\x7d\"\n\x7d\n\x7d")).program
    program.shownLoops.map (·.item) = ["x"] ∧
      (templatesOf program.html).map slotsOf =
        [[⟨some .classes, "loop-item \x7bx\x7d"⟩, ⟨none, "a"⟩]] ∧
      ¬List.Forall₂ (fun content loop => List.Forall₂ (Slot.IsMarkedAs loop.item)
          (loop.slots program.bindable) (slotsOf content))
        (templatesOf program.html) program.shownLoops := by
  intro program
  have hitems : program.shownLoops.map (·.item) = ["x"] := by decide +kernel
  have htexts : (templatesOf program.html).map slotsOf =
      [[⟨some .classes, "loop-item \x7bx\x7d"⟩, ⟨none, "a"⟩]] := by decide +kernel
  refine ⟨hitems, htexts, fun hall => ?_⟩
  obtain ⟨loop, hloops, hitem⟩ := List.map_eq_singleton_iff.mp hitems
  obtain ⟨content, hcontents, hslots⟩ := List.map_eq_singleton_iff.mp htexts
  rw [hloops, hcontents, List.forall₂_cons, hslots, hitem] at hall
  obtain ⟨slot, _, hmarked, -, -⟩ := List.forall₂_cons_right_iff.mp hall.1
  have hpath : templateParts "loop-item \x7bx\x7d".toList =
      "loop-item ".toList.map .char ++ [.hole ⟨"x", []⟩] := by decide +kernel
  exact hmarked.complete ⟨_, _, [], hpath, rfl, by decide⟩

end UiLang
