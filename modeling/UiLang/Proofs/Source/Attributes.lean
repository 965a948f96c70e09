import UiLang.Proofs.Source.Names

/-!
# Attribute values of programs

The attribute values of a program stand at its elements and uses of components, at any depth.  All
of them come from the reader of attribute values or from a block of class conditions, apart from
the string after the name of a component.  So what holds of everything that these readers give for
the tokens of a source holds of all attribute values of its program.

## Main definitions

* `UiNode.attributeValues`, `Program.attributeValues`: the attribute values, in order
* `ValueLaw`: a property of all values that are read from certain tokens

## Main results

* `ValueLaw.nodeLaw`, `ValueLaw.programLaw`: it holds of whatever is read
* `ValueLaw.parseSource`: it holds of all attribute values of a source
-/

namespace UiLang

/-- The values of attributes in order of first writing. -/
def attributeValuesOf (attributes : Attributes) : List AttributeValue :=
  attributes.entries.map (·.2)

mutual

/-- The attribute values of a node and of all nodes inside it. -/
def UiNode.attributeValues : UiNode → List AttributeValue
  | .element head children _ => attributeValuesOf head.attributes ++ nodeValues children
  | .component _ attributes children _ => attributeValuesOf attributes ++ nodeValues children
  | .conditional _ body rest _ => nodeValues body ++ rest.attributeValues
  | .loop _ _ body _ => nodeValues body

/-- The attribute values of later branches. -/
def ElseChain.attributeValues : ElseChain → List AttributeValue
  | .done => []
  | .elseIf _ body rest => nodeValues body ++ rest.attributeValues
  | .otherwise body => nodeValues body

/-- The attribute values of nodes. -/
def nodeValues : List UiNode → List AttributeValue
  | [] => []
  | node :: nodes => node.attributeValues ++ nodeValues nodes

end

/-- The attribute values that a node has itself. -/
def NodePart.attributeValues : NodePart → List AttributeValue
  | .element head => attributeValuesOf head.attributes
  | .use _ attributes => attributeValuesOf attributes
  | _ => []

mutual

theorem UiNode.attributeValues_eq :
    (node : UiNode) → node.attributeValues = node.parts.flatMap NodePart.attributeValues
  | .element head children _ => congrArg (attributeValuesOf head.attributes ++ ·)
      (nodeValues_eq children)
  | .component _ attributes children _ => congrArg (attributeValuesOf attributes ++ ·)
      (nodeValues_eq children)
  | .conditional _ body rest _ => by
    rw [UiNode.attributeValues, UiNode.parts, nodeValues_eq body, rest.attributeValues_eq]
    simp [NodePart.attributeValues]
  | .loop _ _ body _ => nodeValues_eq body

theorem ElseChain.attributeValues_eq :
    (chain : ElseChain) → chain.attributeValues = chain.parts.flatMap NodePart.attributeValues
  | .done => rfl
  | .elseIf _ body rest => by
    rw [ElseChain.attributeValues, ElseChain.parts, nodeValues_eq body, rest.attributeValues_eq]
    simp [NodePart.attributeValues]
  | .otherwise body => nodeValues_eq body

theorem nodeValues_eq :
    (nodes : List UiNode) → nodeValues nodes = (partsOf nodes).flatMap NodePart.attributeValues
  | [] => rfl
  | node :: nodes => by
    rw [nodeValues, partsOf, node.attributeValues_eq, nodeValues_eq nodes, List.flatMap_append]

end

def Statement.attributeValues : Statement → List AttributeValue
  | .node content => content.attributeValues
  | _ => []

def Component.attributeValues (component : Component) : List AttributeValue :=
  component.body.flatMap Statement.attributeValues

/-- The attribute values of all components, exported or not. -/
def Program.attributeValues (program : Program) : List AttributeValue :=
  program.components.flatMap Component.attributeValues

/-! ## Maps of attributes -/

section Maps

variable {P : AttributeValue → Prop} {attributes : Attributes}

theorem forall_insert {value : AttributeValue} (hvalue : P value)
    (h : ∀ v ∈ attributeValuesOf attributes, P v) (key : String) :
    ∀ v ∈ attributeValuesOf (attributes.insert key value), P v := by
  refine List.forall_mem_map.mpr (OrderedMap.forall_insert hvalue ?_ key)
  exact List.forall_mem_map.mp h

theorem forall_insertNew {value : AttributeValue} (hvalue : P value)
    (h : ∀ v ∈ attributeValuesOf attributes, P v) (key : String) :
    ∀ v ∈ attributeValuesOf (attributes.insertNew key value), P v := by
  unfold OrderedMap.insertNew
  split
  · exact h
  · exact forall_insert hvalue h key

end Maps

/-! ## What readers give -/

/-- `P` holds of every attribute value that is read from tokens with the property `S`, which is
kept when tokens are taken away in front. -/
structure ValueLaw (S : List Token → Prop) (P : AttributeValue → Prop) : Prop where
  suffix {ts us : List Token} : S ts → us <:+ ts → S us
  text (s : String) : P (.text s)
  value (stop : Token) (key : String) {ts : List Token} :
    S ts → Ensures P (readAttributeValue stop key ts)
  classes (stop : Token) {ts : List Token} :
    S ts → Ensures (fun map => P (.classMap map)) (readClassMap stop ts)

namespace ValueLaw

variable {S : List Token → Prop} {P : AttributeValue → Prop} {stop : Token}

section Nodes

variable {ts : List Token}

theorem rest (law : ValueLaw S P) {α : Type} (h : S ts) (r : Reading α ts) : S r.rest :=
  law.suffix h r.suffix

theorem tail (law : ValueLaw S P) {first : Token} (h : S (first :: ts)) : S ts :=
  law.suffix h (List.suffix_cons first ts)

theorem readAttribute (law : ValueLaw S P) (key : String) {head : ElementHead}
    (hhead : ∀ v ∈ attributeValuesOf head.attributes, P v) (h : S ts) :
    Ensures (fun one => ∀ v ∈ attributeValuesOf one.attributes, P v)
      (readAttribute stop key head ts) := by
  unfold UiLang.readAttribute
  split
  · exact ensures_bind fun _ _ => ensures_ok hhead
  split
  · exact ensures_bind fun map hmap =>
      ensures_ok (forall_insert (law.classes stop h map hmap) hhead "class")
  split
  · exact ensures_bind fun _ _ => ensures_ok hhead
  · exact ensures_bind fun value hvalue =>
      ensures_ok (forall_insert (law.value stop key h value hvalue) hhead key)

theorem readAttributes (law : ValueLaw S P) {head : ElementHead} {ts : List Token}
    (hhead : ∀ v ∈ attributeValuesOf head.attributes, P v) (h : S ts) :
    Ensures (fun all => ∀ v ∈ attributeValuesOf all.attributes, P v)
      (readAttributes stop head ts) := by
  match ts, h with
  | [], h =>
    rw [UiLang.readAttributes]
    · exact ensures_ok hhead
    · simp
  | [token], h =>
    rw [UiLang.readAttributes]
    · exact ensures_ok hhead
    · simp
  | key :: assign :: rest, h =>
    rw [UiLang.readAttributes]
    split
    · have hrest := law.tail (law.tail h)
      refine ensures_bind fun one hone => ensures_bind fun all hall => ensures_ok ?_
      exact law.readAttributes (law.readAttribute key.text hhead hrest one hone)
        (law.rest hrest one) all hall
    · exact ensures_ok hhead
termination_by ts.length
decreasing_by
  have := one.length_le
  simp only [List.length_cons]
  omega

theorem readElementHead (law : ValueLaw S P) (name : String) (h : S ts) :
    Ensures (fun head => ∀ v ∈ attributeValuesOf head.attributes, P v)
      (readElementHead stop name ts) := by
  refine ensures_bind fun all hall => ensures_ok ?_
  exact law.readAttributes (List.forall_mem_nil _) (law.rest h _) all hall

/-- **A law of values is one of the parts of nodes.** -/
theorem nodeLaw (law : ValueLaw S P) : NodeLaw S fun part => ∀ v ∈ part.attributeValues, P v where
  suffix := law.suffix
  head stop first ts _ h head hhead := by
    have hvalues := law.readElementHead first.text (law.tail h) head hhead
    show ∀ v ∈ head.value.part.attributeValues, P v
    unfold ElementHead.part
    split
    · cases head.value.text with
      | none => exact hvalues
      | some text => exact forall_insertNew (law.text text) hvalues "text"
    · exact hvalues
  condition _ _ _ _ _ := List.forall_mem_nil _
  loop _ _ _ _ _ := List.forall_mem_nil _

end Nodes

/-! ## Statements and items -/

section Items

/-- `P` holds of all attribute values of the component that a declaration holds, if any. -/
def ForDeclaration (P : AttributeValue → Prop) : Declaration → Prop
  | .component declared => ∀ v ∈ declared.attributeValues, P v
  | .function _ => True

/-- **A law of values is one of programs.** -/
theorem programLaw (law : ValueLaw S P) : ProgramLaw S (fun _ => True)
    (fun statement => ∀ v ∈ statement.attributeValues, P v) fun _ => True where
  suffix := law.suffix
  name _ _ _ _ _ := trivial
  statement stop first ts h := by
    unfold UiLang.readStatement
    split
    iterate 7 exact ensures_bind fun _ _ => ensures_ok (List.forall_mem_nil _)
    · refine ensures_bind fun node hnode => ensures_ok ?_
      show ∀ v ∈ node.value.attributeValues, P v
      rw [node.value.attributeValues_eq]
      exact List.forall_mem_flatMap.mpr (law.nodeLaw.readNode h node hnode)
  function _ _ _ _ _ _ _ := trivial

theorem readItemList (law : ValueLaw S P) {ts : List Token} (h : S ts) :
    ∀ item ∈ (readItemList stop ts).items,
      ∀ declaration ∈ item.declaration?, ForDeclaration P declaration := by
  intro item hitem declaration hdeclaration
  have hobeys := law.programLaw.readItemList h item hitem declaration hdeclaration
  cases declaration with
  | component declared => exact List.forall_mem_flatMap.mpr hobeys.2
  | function declared => trivial

/-- **What holds of all values that are read from the tokens of a source holds of all attribute
values of its program**, however much of the source had to be skipped. -/
theorem parseSource (law : ValueLaw S P) {source : String} (h : S (scan source).stream.tokens) :
    ∀ v ∈ (parseSource source).program.attributeValues, P v := by
  intro v hv
  obtain ⟨component, hcomponent, hv⟩ := List.mem_flatMap.mp hv
  obtain ⟨item, hitem, hsome⟩ := List.mem_filterMap.mp hcomponent
  have hdeclaration := law.readItemList h item hitem
  unfold Item.component? at hsome
  split at hsome
  · rename_i declared hdeclared
    cases hsome
    exact hdeclaration _ hdeclared v hv
  · cases hsome

end Items

end ValueLaw

end UiLang
