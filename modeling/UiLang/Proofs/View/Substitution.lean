import UiLang.Proofs.View.Filling

/-!
# Props in trees of nodes

Putting in the texts of props changes the texts of elements and the string attributes of a tree, and
nothing else.  It is done one prop after another, so the order of the props shows where the text of
one prop holds the placeholder of a later one, or makes one with the braces around it: in `{a}` the
props `a` = `{b}` and `b` = `x` give `x` in this order and `{b}` in the other.

All props are filled in at once, in every order and whichever of them are given, exactly if no prop
brings a new placeholder of another into a text of the tree.

## Main definitions

* `UiNode.texts`, `UiNode.mapTexts`: the texts of a tree, and a change of all of them
* `PropValues.KeepApart`: no prop brings a placeholder of another into a text

## Main results

* `UiNode.substitute_eq_mapTexts`: substitution is a change of the texts
* `PropValues.KeepApart.replace_eq_fill`: props that keep apart are filled in at once
* `UiNode.substitute_eq_fill_iff`: when substitution does not depend on the order of the props
-/

namespace UiLang

/-! ## The texts of a tree -/

/-- The string of an attribute, if it is one. -/
def AttributeValue.texts : AttributeValue → List String
  | .text s => [s]
  | _ => []

/-- Changes the string of an attribute. -/
def AttributeValue.mapText (f : String → String) : AttributeValue → AttributeValue
  | .text s => .text (f s)
  | value => value

/-- The string attributes of an element or of a use. -/
def attributeTexts (attributes : Attributes) : List String :=
  attributes.entries.flatMap fun entry => entry.2.texts

/-- The text and the string attributes of an element. -/
def ElementHead.texts (head : ElementHead) : List String :=
  head.text.toList ++ attributeTexts head.attributes

/-- Changes the text and the string attributes of an element. -/
def ElementHead.mapTexts (f : String → String) (head : ElementHead) : ElementHead :=
  { head with
    text := head.text.map f
    attributes := head.attributes.mapValues (·.mapText f) }

mutual

/-- The texts and string attributes of a node. -/
def UiNode.texts : UiNode → List String
  | .element head children _ => head.texts ++ nodeTexts children
  | .component _ attributes children _ => attributeTexts attributes ++ nodeTexts children
  | .conditional _ body rest _ => nodeTexts body ++ rest.texts
  | .loop _ _ body _ => nodeTexts body

/-- The texts and string attributes of the later branches of a conditional. -/
def ElseChain.texts : ElseChain → List String
  | .done => []
  | .elseIf _ body rest => nodeTexts body ++ rest.texts
  | .otherwise body => nodeTexts body

/-- The texts and string attributes of nodes. -/
def nodeTexts : List UiNode → List String
  | [] => []
  | node :: nodes => node.texts ++ nodeTexts nodes

end

mutual

/-- Changes the texts and string attributes of a node. -/
def UiNode.mapTexts (f : String → String) : UiNode → UiNode
  | .element head children loc => .element (head.mapTexts f) (mapNodeTexts f children) loc
  | .component name attributes children loc =>
    .component name (attributes.mapValues (·.mapText f)) (mapNodeTexts f children) loc
  | .conditional condition body rest loc =>
    .conditional condition (mapNodeTexts f body) (rest.mapTexts f) loc
  | .loop item array body loc => .loop item array (mapNodeTexts f body) loc

/-- Changes the texts and string attributes of the later branches of a conditional. -/
def ElseChain.mapTexts (f : String → String) : ElseChain → ElseChain
  | .done => .done
  | .elseIf condition body rest => .elseIf condition (mapNodeTexts f body) (rest.mapTexts f)
  | .otherwise body => .otherwise (mapNodeTexts f body)

/-- Changes the texts and string attributes of nodes. -/
def mapNodeTexts (f : String → String) : List UiNode → List UiNode
  | [] => []
  | node :: nodes => node.mapTexts f :: mapNodeTexts f nodes

end

/-! ## Substitution is a change of the texts -/

theorem AttributeValue.substitute_eq_mapText (props : PropValues) (value : AttributeValue) :
    value.substitute props = value.mapText props.replace := by
  cases value <;> rfl

theorem ElementHead.substitute_eq_mapTexts (props : PropValues) (head : ElementHead) :
    head.substitute props = head.mapTexts props.replace := by
  simp only [substitute, mapTexts, AttributeValue.substitute_eq_mapText]

mutual

/-- **Substitution is a change of the texts**, and of nothing else. -/
theorem UiNode.substitute_eq_mapTexts (props : PropValues) :
    (node : UiNode) → node.substitute props = node.mapTexts props.replace
  | .element head children loc => by
    rw [UiNode.substitute, UiNode.mapTexts, head.substitute_eq_mapTexts,
      substituteAll_eq_mapNodeTexts props children]
  | .component name attributes children loc => by
    simp only [UiNode.substitute, UiNode.mapTexts, AttributeValue.substitute_eq_mapText,
      substituteAll_eq_mapNodeTexts props children]
  | .conditional condition body rest loc => by
    rw [UiNode.substitute, UiNode.mapTexts, substituteAll_eq_mapNodeTexts props body,
      rest.substitute_eq_mapTexts props]
  | .loop item array body loc => by
    rw [UiNode.substitute, UiNode.mapTexts, substituteAll_eq_mapNodeTexts props body]

theorem ElseChain.substitute_eq_mapTexts (props : PropValues) :
    (chain : ElseChain) → chain.substitute props = chain.mapTexts props.replace
  | .done => rfl
  | .elseIf condition body rest => by
    rw [ElseChain.substitute, ElseChain.mapTexts, substituteAll_eq_mapNodeTexts props body,
      rest.substitute_eq_mapTexts props]
  | .otherwise body => by
    rw [ElseChain.substitute, ElseChain.mapTexts, substituteAll_eq_mapNodeTexts props body]

theorem substituteAll_eq_mapNodeTexts (props : PropValues) :
    (nodes : List UiNode) → substituteAll props nodes = mapNodeTexts props.replace nodes
  | [] => rfl
  | node :: nodes => by
    rw [substituteAll, mapNodeTexts, node.substitute_eq_mapTexts props,
      substituteAll_eq_mapNodeTexts props nodes]

end

/-! ## Two changes of the texts -/

section Changes

variable {f g : String → String}

theorem AttributeValue.mapText_eq_iff (value : AttributeValue) :
    value.mapText f = value.mapText g ↔ ∀ text ∈ value.texts, f text = g text := by
  cases value <;> simp [mapText, texts]

theorem mapValues_mapText_eq_iff (attributes : Attributes) :
    attributes.mapValues (·.mapText f) = attributes.mapValues (·.mapText g) ↔
      ∀ text ∈ attributeTexts attributes, f text = g text := by
  rw [OrderedMap.mapValues, OrderedMap.mapValues, OrderedMap.mk.injEq, List.map_inj_left]
  simp only [Prod.mk.injEq, true_and, AttributeValue.mapText_eq_iff, attributeTexts,
    List.mem_flatMap, forall_exists_index, and_imp]
  exact ⟨fun h text entry hentry htext => h entry hentry text htext,
    fun h entry hentry text htext => h text entry hentry htext⟩

theorem ElementHead.mapTexts_eq_iff (head : ElementHead) :
    head.mapTexts f = head.mapTexts g ↔ ∀ text ∈ head.texts, f text = g text := by
  have htext : head.text.map f = head.text.map g ↔ ∀ text ∈ head.text.toList, f text = g text := by
    cases head.text <;> simp
  rw [mapTexts, mapTexts, ElementHead.mk.injEq, texts, List.forall_mem_append, htext,
    mapValues_mapText_eq_iff]
  simp

mutual

/-- **Two changes give the same tree** exactly if they agree on its texts. -/
theorem UiNode.mapTexts_eq_iff :
    (node : UiNode) → (node.mapTexts f = node.mapTexts g ↔ ∀ text ∈ node.texts, f text = g text)
  | .element head children loc => by
    rw [UiNode.mapTexts, UiNode.mapTexts, UiNode.element.injEq, head.mapTexts_eq_iff,
      mapNodeTexts_eq_iff children, UiNode.texts, List.forall_mem_append, and_iff_left rfl]
  | .component name attributes children loc => by
    rw [UiNode.mapTexts, UiNode.mapTexts, UiNode.component.injEq, mapValues_mapText_eq_iff,
      mapNodeTexts_eq_iff children, UiNode.texts, List.forall_mem_append, and_iff_left rfl,
      and_iff_right rfl]
  | .conditional condition body rest loc => by
    rw [UiNode.mapTexts, UiNode.mapTexts, UiNode.conditional.injEq, mapNodeTexts_eq_iff body,
      rest.mapTexts_eq_iff, UiNode.texts, List.forall_mem_append, and_iff_left rfl,
      and_iff_right rfl]
  | .loop item array body loc => by
    rw [UiNode.mapTexts, UiNode.mapTexts, UiNode.loop.injEq, mapNodeTexts_eq_iff body,
      UiNode.texts, and_iff_left rfl, and_iff_right rfl, and_iff_right rfl]

theorem ElseChain.mapTexts_eq_iff :
    (chain : ElseChain) →
      (chain.mapTexts f = chain.mapTexts g ↔ ∀ text ∈ chain.texts, f text = g text)
  | .done => by simp [ElseChain.mapTexts, ElseChain.texts]
  | .elseIf condition body rest => by
    rw [ElseChain.mapTexts, ElseChain.mapTexts, ElseChain.elseIf.injEq, mapNodeTexts_eq_iff body,
      rest.mapTexts_eq_iff, ElseChain.texts, List.forall_mem_append, and_iff_right rfl]
  | .otherwise body => by
    rw [ElseChain.mapTexts, ElseChain.mapTexts, ElseChain.otherwise.injEq,
      mapNodeTexts_eq_iff body, ElseChain.texts]

theorem mapNodeTexts_eq_iff :
    (nodes : List UiNode) →
      (mapNodeTexts f nodes = mapNodeTexts g nodes ↔ ∀ text ∈ nodeTexts nodes, f text = g text)
  | [] => by simp [mapNodeTexts, nodeTexts]
  | node :: nodes => by
    rw [mapNodeTexts, mapNodeTexts, List.cons.injEq, node.mapTexts_eq_iff,
      mapNodeTexts_eq_iff nodes, nodeTexts, List.forall_mem_append]

end

end Changes

/-! ## Props that keep apart -/

namespace PropValues

/-- No prop brings a new placeholder of another prop into the text: filling in the others leaves as
many of its placeholders as there were.  A prop that stands for its own placeholder does no harm. -/
def KeepApart (props : PropValues) (text : String) : Prop :=
  ∀ prop ∈ props, prop.2.toList = placeholder prop.1 ∨
    placeholderCount prop.1 (fill (props.erase prop) text).toList =
      placeholderCount prop.1 text.toList

instance (props : PropValues) (text : String) : Decidable (props.KeepApart text) :=
  inferInstanceAs (Decidable (∀ _ ∈ props, _))

section Replacing

variable {props others chosen rest : PropValues} {prop : String × String} {text : String}

theorem toList_fill (props : PropValues) (text : String) :
    (props.fill text).toList = props.fillFrom 0 text.toList :=
  String.toList_ofList

theorem fill_perm (h : props.WellNamed) (hperm : props.Perm others) (text : String) :
    props.fill text = others.fill text :=
  congrArg String.ofList (fillFrom_perm h hperm 0 text.toList)

/-- The last prop is put into what the others gave. -/
theorem replace_concat (props : PropValues) (prop : String × String) (text : String) :
    replace (props ++ [prop]) text =
      String.ofList (fillFrom [prop] 0 (props.replace text).toList) := by
  rw [replace, List.foldl_append, List.foldl_cons, List.foldl_nil, replaceAll_eq_fillFrom, replace,
    String.toList_ofList]

/-- To put in one more prop is to fill it in with the others, exactly if they bring no new
placeholder of it. -/
theorem replace_concat_eq_fill_iff (h : WellNamed (prop :: props))
    (hprops : props.replace text = props.fill text) :
    replace (props ++ [prop]) text = fill (props ++ [prop]) text ↔
      prop.2.toList = placeholder prop.1 ∨
        placeholderCount prop.1 (props.fill text).toList = placeholderCount prop.1 text.toList := by
  have hperm : (prop :: props).Perm (props ++ [prop]) :=
    (List.perm_append_singleton prop props).symm
  rw [replace_concat, hprops, ← fill_perm h hperm, toList_fill, fill, String.ofList_inj]
  exact fillFrom_singleton_eq_iff h text.toList

/-- **Props that keep apart are filled in at once**, in every order and whichever are chosen. -/
theorem KeepApart.replace_eq_fill (hprops : props.KeepApart text) (h : props.WellNamed)
    (hperm : (chosen ++ rest).Perm props) : chosen.replace text = chosen.fill text := by
  induction chosen using List.reverseRecOn generalizing rest with
  | nil => exact congrArg String.ofList (fillFrom_nil text.toList).symm
  | append_singleton init prop ih =>
    rw [← List.append_cons] at hperm
    have hothers : (prop :: (rest ++ init)).Perm props :=
      ((List.perm_append_comm.cons prop).trans List.perm_middle.symm).trans hperm
    have hnamed := h.perm hothers.symm
    have hinit : WellNamed (prop :: init) :=
      hnamed.sublist (List.cons_sublist_cons.mpr (List.sublist_append_right rest init))
    obtain ⟨hmem, herase⟩ := List.cons_perm_iff_perm_erase.mp hothers
    rw [replace_concat_eq_fill_iff hinit (ih hperm)]
    refine (hprops prop hmem).imp_right fun hcount => ?_
    -- the props that are chosen bring no more placeholders than all the others do
    have hmore : placeholderCount prop.1 (fill init text).toList ≤
        placeholderCount prop.1 (fill (rest ++ init) text).toList := by
      rw [toList_fill, toList_fill]
      apply placeholderCount_fillFrom_mono hnamed.tail hnamed.head
      exact fun p hp => hnamed.ne_head p (List.mem_append_left _ hp)
    rw [fill_perm hnamed.tail herase, hcount] at hmore
    apply Nat.le_antisymm hmore
    rw [toList_fill]
    exact placeholderCount_le_fillFrom hinit text.toList

/-- Props that are filled in at once keep apart. -/
theorem keepApart_of_replace_eq_fill (h : props.WellNamed)
    (hfill : ∀ chosen rest : PropValues, (chosen ++ rest).Perm props →
      chosen.replace text = chosen.fill text) : props.KeepApart text := by
  intro prop hmem
  have hothers : (prop :: props.erase prop).Perm props := (List.perm_cons_erase hmem).symm
  have hlast : (props.erase prop ++ [prop]).Perm props :=
    (List.perm_append_singleton prop _).trans hothers
  apply (replace_concat_eq_fill_iff (h.perm hothers.symm) (hfill _ [prop] hlast)).mp
  apply hfill _ []
  rw [List.append_nil]
  exact hlast

end Replacing

end PropValues

/-- **When substitution does not depend on the order of the props.**  Let the names of the props
differ and have no braces.  Whichever of the props are chosen, and in whichever order, substitution
fills all of them in at once, exactly if no prop brings a new placeholder of another into a text of
the tree.  Then every order of the props gives the same tree. -/
theorem UiNode.substitute_at_once_iff {props : PropValues} (h : props.WellNamed) (node : UiNode) :
    ((∀ chosen rest : PropValues, (chosen ++ rest).Perm props →
        node.substitute chosen = node.mapTexts chosen.fill) ↔
      ∀ text ∈ node.texts, props.KeepApart text) ∧
    ((∀ text ∈ node.texts, props.KeepApart text) →
      ∀ order : PropValues, order.Perm props → node.substitute order = node.substitute props) := by
  have hapart (htexts : ∀ text ∈ node.texts, props.KeepApart text) {chosen rest : PropValues}
      (hperm : (chosen ++ rest).Perm props) :
      node.substitute chosen = node.mapTexts chosen.fill := by
    rw [node.substitute_eq_mapTexts, node.mapTexts_eq_iff]
    exact fun text htext => (htexts text htext).replace_eq_fill h hperm
  refine ⟨⟨fun hfill text htext => ?_, fun htexts chosen rest => hapart htexts⟩, ?_⟩
  · apply PropValues.keepApart_of_replace_eq_fill h
    intro chosen rest hperm
    have hsame := hfill chosen rest hperm
    rw [node.substitute_eq_mapTexts, node.mapTexts_eq_iff] at hsame
    exact hsame text htext
  · intro htexts order horder
    have hfill {chosen : PropValues} (hchosen : chosen.Perm props) :
        node.substitute chosen = node.mapTexts chosen.fill :=
      hapart htexts ((List.append_nil chosen).symm ▸ hchosen)
    rw [hfill horder, hfill (List.Perm.refl props), node.mapTexts_eq_iff]
    exact fun text _ => PropValues.fill_perm (h.perm horder.symm) horder text

/-- Texts with braces do no harm as long as they make no placeholder. -/
theorem UiNode.substitute_of_keepApart :
    let node : UiNode := .element
      { name := "text", text := some "\x7ba\x7d: \x7b\x7bb\x7d\x7d" } [] (Position.start.spanning 0)
    let props : PropValues := [("a", "\x7bc\x7d"), ("b", "x\x7d \x7by")]
    props.WellNamed ∧ (∀ text ∈ node.texts, props.KeepApart text) ∧
      node.substitute [("b", "x\x7d \x7by"), ("a", "\x7bc\x7d")] = node.substitute props ∧
      (node.substitute props).texts = ["\x7bc\x7d: \x7bx\x7d \x7by\x7d"] := by
  intro node props
  have h : props.WellNamed := ⟨by decide, by decide⟩
  have htexts : ∀ text ∈ node.texts, props.KeepApart text := by decide
  refine ⟨h, htexts, ?_, by decide⟩
  exact (UiNode.substitute_at_once_iff h node).2 htexts _ (List.Perm.swap _ _ _)

/-- **The order of the props shows** where the text of a prop is the placeholder of another, and
where it makes one with the braces around it. -/
theorem UiNode.substitute_of_brought_placeholder :
    let node (text : String) : UiNode :=
      .element { name := "text", text := some text } [] (Position.start.spanning 0)
    let brought := node "\x7ba\x7d"
    let made := node "\x7b\x7ba\x7db\x7d"
    (brought.substitute [("a", "\x7bb\x7d"), ("b", "x")]).texts = ["x"] ∧
      (brought.substitute [("b", "x"), ("a", "\x7bb\x7d")]).texts = ["\x7bb\x7d"] ∧
      (made.substitute [("a", ""), ("b", "x")]).texts = ["x"] ∧
      (made.substitute [("b", "x"), ("a", "")]).texts = ["\x7bb\x7d"] := by
  decide

end UiLang
