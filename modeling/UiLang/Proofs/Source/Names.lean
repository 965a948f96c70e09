import UiLang.Proofs.Scan.Account
import UiLang.Proofs.Source.Laws

/-!
# Names in programs

Components, the props, state and computed values that they declare and the components that nodes
use are named by identifier tokens, and those are spelled as identifiers.  So every such name in
the program of a source is an identifier, however much of the source had to be skipped.

## Main definitions

* `UiNode.IsNamed`, `Component.IsNamed`, `Program.IsNamed`: all names are identifiers

## Main results

* `namedParts`, `namedProgram`: readers keep to identifiers
* `parseSource_isNamed`: every program does
-/

namespace UiLang

open Seam (readMoreNames_cons)

/-- A name that is an identifier. -/
def IsIdentifier (name : String) : Prop :=
  isIdentifier name.toList = true

theorem IsIdentifier.isIdentifierChar {name : String} (h : IsIdentifier name) :
    ∀ c ∈ name.toList, isIdentifierChar c = true := by
  unfold IsIdentifier at h
  cases hname : name.toList with
  | nil => exact List.forall_mem_nil _
  | cons c cs =>
    rw [hname, isIdentifier_cons] at h
    refine List.forall_mem_cons.mpr ⟨?_, h.2⟩
    have hstart := h.1
    rw [isIdentifierStart, Bool.or_eq_true] at hstart
    rw [UiLang.isIdentifierChar, Char.isAlphanum, Bool.or_eq_true, Bool.or_eq_true]
    exact hstart.imp .inl id

theorem IsIdentifier.notMem {name : String} {c : Char} (h : IsIdentifier name)
    (hc : UiLang.isIdentifierChar c = false) : c ∉ name.toList := by
  intro hmem
  rw [h.isIdentifierChar c hmem] at hc
  cases hc

/-- Names that a component is used by: identifiers that start with an uppercase letter.  A
component may be declared under any identifier, but under another one no use is read. -/
structure IsUseName (name : String) : Prop where
  identifier : IsIdentifier name
  uppercase : isComponentName name = true

mutual

/-- The components that a node uses are named by identifiers. -/
def UiNode.IsNamed : UiNode → Prop
  | .element _ children _ => NodesNamed children
  | .component name _ children _ => IsUseName name ∧ NodesNamed children
  | .conditional _ body rest _ => NodesNamed body ∧ rest.IsNamed
  | .loop _ _ body _ => NodesNamed body

/-- The components that later branches use are named by identifiers. -/
def ElseChain.IsNamed : ElseChain → Prop
  | .done => True
  | .elseIf _ body rest => NodesNamed body ∧ rest.IsNamed
  | .otherwise body => NodesNamed body

/-- The components that nodes use are named by identifiers. -/
def NodesNamed : List UiNode → Prop
  | [] => True
  | node :: nodes => node.IsNamed ∧ NodesNamed nodes

end

/-- What a statement declares, and the components that it uses, are named by identifiers. -/
def Statement.IsNamed : Statement → Prop
  | .props declared => ∀ name ∈ declared.names, IsIdentifier name
  | .state declared => IsIdentifier declared.name
  | .computed declared => IsIdentifier declared.name
  | .node content => content.IsNamed
  | _ => True

/-- A component, what it declares and the components that it uses are named by identifiers. -/
structure Component.IsNamed (component : Component) : Prop where
  name : IsIdentifier component.name
  body : ∀ statement ∈ component.body, statement.IsNamed

/-- The component of a declaration is named by identifiers. -/
def Declaration.IsNamed : Declaration → Prop
  | .component declared => declared.IsNamed
  | .function _ => True

/-- The component of an item is named by identifiers. -/
def Item.IsNamed (item : Item) : Prop :=
  ∀ declaration ∈ item.declaration?, declaration.IsNamed

/-- All components of a program are named by identifiers. -/
def Program.IsNamed (program : Program) : Prop :=
  ∀ component ∈ program.components, component.IsNamed

/-! ## What readers give -/

/-- Identifier tokens are spelled as identifiers. -/
def Spelled (ts : List Token) : Prop :=
  ∀ token ∈ ts, token.kind = .identifier → IsIdentifier token.text

theorem Spelled.of_suffix {ts us : List Token} (h : Spelled ts) (hus : us <:+ ts) : Spelled us :=
  fun token htoken => h token (hus.subset htoken)

theorem Spelled.rest {α : Type} {ts : List Token} (h : Spelled ts) (r : Reading α ts) :
    Spelled r.rest :=
  h.of_suffix r.suffix

theorem Spelled.tail {first : Token} {ts : List Token} (h : Spelled (first :: ts)) : Spelled ts :=
  h.of_suffix (List.suffix_cons first ts)

/-! ## Names and nodes -/

section Nodes

variable {stop : Token}

theorem expect_isIdentifier {ts : List Token} (h : Spelled ts) :
    Ensures (fun token => IsIdentifier token.text) (expect stop .identifier ts) := by
  cases ts with
  | nil => exact ensures_error _
  | cons token rest =>
    rw [expect]
    split
    · rename_i hkind
      exact ensures_ok (h token List.mem_cons_self hkind)
    · exact ensures_error _

theorem readAttribute_name (key : String) (head : ElementHead) (ts : List Token) :
    Ensures (·.name = head.name) (readAttribute stop key head ts) := by
  unfold readAttribute
  split
  · exact ensures_bind fun _ _ => ensures_ok rfl
  split
  · exact ensures_bind fun _ _ => ensures_ok rfl
  split
  · exact ensures_bind fun _ _ => ensures_ok rfl
  · exact ensures_bind fun _ _ => ensures_ok rfl

theorem readAttributes_name (head : ElementHead) (ts : List Token) :
    Ensures (·.name = head.name) (readAttributes stop head ts) := by
  match ts with
  | [] =>
    rw [readAttributes]
    · exact ensures_ok rfl
    · simp
  | [token] =>
    rw [readAttributes]
    · exact ensures_ok rfl
    · simp
  | key :: assign :: rest =>
    rw [readAttributes]
    split
    · refine ensures_bind fun one hone => ensures_bind fun all hall => ensures_ok ?_
      exact (readAttributes_name one.value one.rest all hall).trans
        (readAttribute_name key.text head rest one hone)
    · exact ensures_ok rfl
termination_by ts.length
decreasing_by
  have := one.length_le
  simp only [List.length_cons]
  omega

theorem readElementHead_name (name : String) (ts : List Token) :
    Ensures (·.name = name) (readElementHead stop name ts) :=
  ensures_bind fun all hall => ensures_ok (readAttributes_name _ _ all hall)

/-- The component that a part uses is named by an identifier. -/
def NodePart.IsNamed : NodePart → Prop
  | .use name _ => IsUseName name
  | _ => True

mutual

theorem UiNode.isNamed_of_parts :
    (node : UiNode) → (∀ part ∈ node.parts, part.IsNamed) → node.IsNamed
  | .element _ children _, h => nodesNamed_of_parts children (List.forall_mem_cons.mp h).2
  | .component _ _ children _, h =>
    (List.forall_mem_cons.mp h).imp_right (nodesNamed_of_parts children)
  | .conditional _ body rest _, h =>
    (List.forall_mem_append.mp (List.forall_mem_cons.mp h).2).imp (nodesNamed_of_parts body)
      rest.isNamed_of_parts
  | .loop _ _ body _, h => nodesNamed_of_parts body (List.forall_mem_cons.mp h).2

theorem ElseChain.isNamed_of_parts :
    (chain : ElseChain) → (∀ part ∈ chain.parts, part.IsNamed) → chain.IsNamed
  | .done, _ => trivial
  | .elseIf _ body rest, h =>
    (List.forall_mem_append.mp (List.forall_mem_cons.mp h).2).imp (nodesNamed_of_parts body)
      rest.isNamed_of_parts
  | .otherwise body, h => nodesNamed_of_parts body h

theorem nodesNamed_of_parts :
    (nodes : List UiNode) → (∀ part ∈ partsOf nodes, part.IsNamed) → NodesNamed nodes
  | [], _ => trivial
  | node :: nodes, h =>
    (List.forall_mem_append.mp h).imp node.isNamed_of_parts (nodesNamed_of_parts nodes)

end

/-- Parts that are read from spelled tokens are named by identifiers. -/
theorem namedParts : NodeLaw Spelled NodePart.IsNamed where
  suffix := Spelled.of_suffix
  head stop first ts hkind h head hhead := by
    -- attributes do not change the name, which is the text of the first token
    have hname := readElementHead_name first.text ts head hhead
    show head.value.part.IsNamed
    unfold ElementHead.part
    split
    · rename_i huse
      exact ⟨hname.symm ▸ h first List.mem_cons_self hkind, huse⟩
    · trivial
  condition _ _ _ _ _ := trivial
  loop _ _ _ _ _ := trivial

end Nodes

/-! ## Statements and items -/

section Items

variable {stop : Token}

theorem readMoreNames_isIdentifier {ts : List Token} (h : Spelled ts) :
    Ensures (fun names => ∀ name ∈ names, IsIdentifier name) (readMoreNames stop ts) := by
  match ts, h with
  | [], _ => exact ensures_ok (List.forall_mem_nil _)
  | token :: ts, h =>
    rw [readMoreNames_cons]
    split
    · refine ensures_bind fun name hname => ensures_bind fun more hmore => ensures_ok ?_
      exact List.forall_mem_cons.mpr ⟨expect_isIdentifier h.tail name hname,
        readMoreNames_isIdentifier (h.tail.rest name) more hmore⟩
    · exact ensures_ok (List.forall_mem_nil _)
termination_by ts.length
decreasing_by
  have := name.length_le
  rw [List.length_cons]
  omega

theorem readProps_isIdentifier {keyword : Token} {ts : List Token} (h : Spelled ts) :
    Ensures (fun props => ∀ name ∈ props.names, IsIdentifier name)
      (readProps stop keyword ts) := by
  refine ensures_bind fun first hfirst => ensures_bind fun more hmore =>
    ensures_bind fun close _ => ensures_ok ?_
  exact List.forall_mem_cons.mpr ⟨expect_isIdentifier h first hfirst,
    readMoreNames_isIdentifier (h.rest first) more hmore⟩

theorem readState_isIdentifier {keyword : Token} {ts : List Token} (h : Spelled ts) :
    Ensures (fun declared => IsIdentifier declared.name) (readState stop keyword ts) :=
  ensures_bind fun name hname => ensures_bind fun _ _ => ensures_bind fun _ _ =>
    ensures_bind fun _ _ => ensures_ok (expect_isIdentifier h name hname)

theorem readComputed_isIdentifier {keyword : Token} {ts : List Token} (h : Spelled ts) :
    Ensures (fun declared => IsIdentifier declared.name) (readComputed stop keyword ts) := by
  refine ensures_bind fun name hname => ensures_bind fun assign _ => ?_
  dsimp only
  split
  · exact ensures_error _
  · exact ensures_ok (expect_isIdentifier h name hname)

/-- Components that are read from spelled tokens are named by identifiers. -/
theorem namedProgram : ProgramLaw Spelled IsIdentifier Statement.IsNamed fun _ => True where
  suffix := Spelled.of_suffix
  name _ _ h := expect_isIdentifier h
  statement stop first ts hfirst := by
    have h := hfirst.tail
    unfold readStatement
    split
    · exact ensures_bind fun props hprops => ensures_ok (readProps_isIdentifier h props hprops)
    · exact ensures_bind fun state hstate => ensures_ok (readState_isIdentifier h state hstate)
    · exact ensures_bind fun computed hcomputed =>
        ensures_ok (readComputed_isIdentifier h computed hcomputed)
    iterate 4 exact ensures_bind fun _ _ => ensures_ok trivial
    · exact ensures_bind fun node hnode =>
        ensures_ok (node.value.isNamed_of_parts (namedParts.readNode hfirst node hnode))
  function _ _ _ _ _ _ _ := trivial

/-- **Items are named by identifiers**, also those after an item that had to be skipped. -/
theorem readItemList_isNamed {ts : List Token} (h : Spelled ts) :
    ∀ item ∈ (readItemList stop ts).items, item.IsNamed := by
  intro item hitem declaration hdeclaration
  have hobeys := namedProgram.readItemList h item hitem declaration hdeclaration
  cases declaration with
  | component declared => exact ⟨hobeys.1, hobeys.2⟩
  | function declared => trivial

end Items

/-! ## Sources -/

theorem Spells.isIdentifier {text : String} {lexeme : List Char}
    (h : Spells .identifier text lexeme) : IsIdentifier text := by
  generalize hkind : Kind.identifier = kind at h
  cases h with
  | word letters identifier => rwa [IsIdentifier, String.toList_ofList]
  | symbol mark listed =>
    have all : ∀ form ∈ symbolForms, form.1 ≠ .identifier := by decide
    exact absurd hkind.symm (all _ listed)
  | _ => cases hkind

theorem scan_spelled (source : String) : Spelled (scan source).stream.tokens := by
  intro token htoken hkind
  rcases (account_scanFrom [] source.toList).spells token htoken with hstring | ⟨lexeme, hspells⟩
  · rw [hkind] at hstring
    cases hstring
  · rw [hkind] at hspells
    exact hspells.isIdentifier

/-- **The program of a source is named by identifiers.** -/
theorem parseSource_isNamed (source : String) : (parseSource source).program.IsNamed := by
  intro component hcomponent
  obtain ⟨item, hitem, hsome⟩ := List.mem_filterMap.mp hcomponent
  have hnamed : item.IsNamed := readItemList_isNamed (scan_spelled source) item hitem
  unfold Item.component? at hsome
  split at hsome
  · rename_i declared hdeclared
    cases hsome
    exact hnamed _ hdeclared
  · cases hsome

end UiLang
