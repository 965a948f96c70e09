import UiLang.Proofs.Seam.Program
import UiLang.Source

/-!
# Laws of what is read

A node says something itself, such as the attributes of an element or the condition of a branch,
and holds other nodes.  Readers find the parts of all nodes in suffixes of the tokens they start
from.  So a property of every part that can be read from such a suffix holds of all parts of a
node, and in the same way one of statements and functions holds throughout a program, however much
of its source had to be skipped.

## Main definitions

* `Ensures`: a property of whatever a reader gives
* `NodePart`, `UiNode.parts`: what nodes say themselves, at any depth
* `NodeLaw`, `ProgramLaw`: a property of all parts, or of all declarations, that are read from
  certain tokens

## Main results

* `NodeLaw.readNode`: it holds of all parts of a node that is read
* `ProgramLaw.readItemList`, `ProgramLaw.ofComponent`, `ProgramLaw.ofFunction`: it holds of all
  items, and of all components and functions of a source
-/

namespace UiLang

open Seam (readElseChain_of_nil readElseChain_of_cons readNodes_of_nil readNodes_of_cons
  readStatements_of_nil readStatements_of_cons)

/-- Whatever a reader gives has the property `P`. -/
def Ensures {α : Type} {ts : List Token} (P : α → Prop) (outcome : Read α ts) : Prop :=
  ∀ r, outcome = .ok r → P r.value

section Ensures

variable {α β : Type} {ts us : List Token} {P : α → Prop} {Q : β → Prop}

theorem ensures_ok {r : Reading α ts} (h : P r.value) : Ensures P (.ok r) := by
  rintro _ ⟨⟩
  exact h

theorem ensures_error (fault : Diagnostic) : Ensures P (.error fault : Read α ts) :=
  fun _ h => nomatch h

theorem ensures_bind {outcome : Read α ts} {next : Reading α ts → Read β us}
    (h : ∀ r, outcome = .ok r → Ensures Q (next r)) : Ensures Q (outcome >>= next) := by
  cases outcome with
  | error fault => exact ensures_error fault
  | ok r => exact h r rfl

end Ensures

/-! ## Maps that are filled while reading -/

section Maps

variable {κ ν : Type} [DecidableEq κ]

theorem OrderedMap.mem_insertEntry {k : κ} {v : ν}
    {es : List (κ × ν)} {e : κ × ν} (h : e ∈ insertEntry k v es) : e = (k, v) ∨ e ∈ es := by
  induction es with
  | nil => exact .inl (List.mem_singleton.mp h)
  | cons first es ih =>
    rw [insertEntry] at h
    split at h
    · exact (List.mem_cons.mp h).imp_right (List.mem_cons_of_mem first)
    · rcases List.mem_cons.mp h with rfl | h
      · exact .inr List.mem_cons_self
      · exact (ih h).imp_right (List.mem_cons_of_mem first)

theorem OrderedMap.forall_insert {P : ν → Prop} {map : OrderedMap κ ν} {value : ν}
    (hvalue : P value) (h : ∀ entry ∈ map.entries, P entry.2) (key : κ) :
    ∀ entry ∈ (map.insert key value).entries, P entry.2 := by
  intro entry hentry
  rcases OrderedMap.mem_insertEntry hentry with rfl | hold
  · exact hvalue
  · exact h entry hold

end Maps

/-! ## Parts of nodes -/

/-- What a node says itself, without the nodes inside it. -/
inductive NodePart where
  | element (head : ElementHead)
  | use (name : String) (attributes : Attributes)
  | condition (condition : Condition)
  | loop (item : String) (array : Path)

mutual

/-- The parts of a node and of all nodes inside it. -/
def UiNode.parts : UiNode → List NodePart
  | .element head children _ => .element head :: partsOf children
  | .component name attributes children _ => .use name attributes :: partsOf children
  | .conditional condition body rest _ => .condition condition :: (partsOf body ++ rest.parts)
  | .loop item array body _ => .loop item array :: partsOf body

/-- The parts of later branches. -/
def ElseChain.parts : ElseChain → List NodePart
  | .done => []
  | .elseIf condition body rest => .condition condition :: (partsOf body ++ rest.parts)
  | .otherwise body => partsOf body

/-- The parts of nodes. -/
def partsOf : List UiNode → List NodePart
  | [] => []
  | node :: nodes => node.parts ++ partsOf nodes

end

/-- What the node of an element header says itself. -/
def ElementHead.part (head : ElementHead) : NodePart :=
  if isComponentName head.name then
    .use head.name (match head.text with
      | some text => head.attributes.insertNew "text" (.text text)
      | none => head.attributes)
  else .element head

theorem ElementHead.parts_toNode (head : ElementHead) (children : List UiNode)
    (location : Location) :
    (head.toNode children location).parts = head.part :: partsOf children := by
  unfold ElementHead.toNode ElementHead.part
  split
  · rfl
  · rfl

/-! ## What readers of nodes give -/

/-- `P` holds of every part of a node that is read from tokens with the property `S`, which is
kept when tokens are taken away in front. -/
structure NodeLaw (S : List Token → Prop) (P : NodePart → Prop) : Prop where
  suffix {ts us : List Token} : S ts → us <:+ ts → S us
  head (stop : Token) {first : Token} {ts : List Token} : first.kind = .identifier →
    S (first :: ts) → Ensures (fun head => P head.part) (readElementHead stop first.text ts)
  condition (stop : Token) {ts : List Token} : S ts →
    Ensures (fun condition => P (.condition condition)) (readCondition stop ts)
  loop (stop : Token) {ts : List Token} : S ts →
    Ensures (fun head => P (.loop head.1 head.2)) (readLoopHead stop ts)

namespace NodeLaw

variable {S : List Token → Prop} {P : NodePart → Prop} {stop : Token} {ts : List Token}

theorem rest (law : NodeLaw S P) {α : Type} (h : S ts) (r : Reading α ts) : S r.rest :=
  law.suffix h r.suffix

theorem tail (law : NodeLaw S P) {first : Token} (h : S (first :: ts)) : S ts :=
  law.suffix h (List.suffix_cons first ts)

theorem skipNewlines (law : NodeLaw S P) (h : S ts) : S (skipNewlines ts) :=
  law.suffix h (skipNewlines_suffix ts)

-- What is left is always a suffix of what was there, so every reader of the group finds tokens
-- with the property again.
mutual

theorem readNode (law : NodeLaw S P) {first : Token} {ts : List Token} (h : S (first :: ts)) :
    Ensures (fun node => ∀ part ∈ node.parts, P part) (readNode stop first ts) := by
  have hts := law.tail h
  rw [UiLang.readNode]
  split
  · -- the header is what the node says itself, whether it is an element or a use of a component
    rename_i hkind
    refine ensures_bind fun head hhead => ensures_bind fun children hchildren =>
      ensures_bind fun close _ => ensures_ok ?_
    change ∀ part ∈ (head.value.toNode children.value first.location).parts, P part
    rw [ElementHead.parts_toNode]
    exact List.forall_mem_cons.mpr ⟨law.head stop hkind h head hhead,
      law.readOptionalBlock (law.rest hts head) children hchildren⟩
  · refine ensures_bind fun condition hcondition => ensures_bind fun body hbody =>
      ensures_bind fun chain hchain => ensures_ok ?_
    refine List.forall_mem_cons.mpr ⟨law.condition stop hts condition hcondition, ?_⟩
    exact List.forall_mem_append.mpr
      ⟨law.readBlock (law.rest hts condition.skipNewlines) body hbody,
        law.readElseChain (law.rest hts (condition.skipNewlines.andThen body)) chain hchain⟩
  · refine ensures_bind fun head hhead => ensures_bind fun body hbody => ensures_ok ?_
    exact List.forall_mem_cons.mpr ⟨law.loop stop hts head hhead,
      law.readBlock (law.rest hts head.skipNewlines) body hbody⟩
  · exact ensures_error _
termination_by 3 * ts.length + 2
decreasing_by
  · have := head.length_le
    omega
  · have := condition.skipNewlines.length_le
    omega
  · have := (condition.skipNewlines.andThen body).length_le
    omega
  · have := head.skipNewlines.length_le
    omega

theorem readElseChain (law : NodeLaw S P) {ts : List Token} (h : S ts) :
    Ensures (fun chain => ∀ part ∈ chain.parts, P part) (readElseChain stop ts) := by
  cases hskip : UiLang.skipNewlines ts with
  | nil =>
    rw [readElseChain_of_nil stop hskip]
    exact ensures_ok (List.forall_mem_nil _)
  | cons first us =>
    have hus : S us := law.tail (hskip ▸ law.skipNewlines h)
    rw [readElseChain_of_cons stop hskip]
    split
    · refine ensures_bind fun condition hcondition => ensures_bind fun body hbody =>
        ensures_bind fun chain hchain => ensures_ok ?_
      have hrest := law.rest hus condition.skipNewlines
      refine List.forall_mem_cons.mpr ⟨law.condition stop hus condition hcondition, ?_⟩
      exact List.forall_mem_append.mpr ⟨law.readBlock hrest body hbody,
        law.readElseChain (law.rest hrest body) chain hchain⟩
    · refine ensures_bind fun body hbody => ensures_ok ?_
      exact law.readBlock (law.skipNewlines hus) body hbody
    · exact ensures_ok (List.forall_mem_nil _)
termination_by 3 * ts.length + 1
decreasing_by
  · have := length_lt_of_skipNewlines hskip
    have := condition.skipNewlines.length_le
    omega
  · have := length_lt_of_skipNewlines hskip
    have : body.rest.length ≤ us.length := (condition.skipNewlines.andThen body).length_le
    omega
  · have := length_lt_of_skipNewlines hskip
    have := length_skipNewlines_le us
    omega

theorem readOptionalBlock (law : NodeLaw S P) {ts : List Token} (h : S ts) :
    Ensures (fun nodes => ∀ part ∈ partsOf nodes, P part) (readOptionalBlock stop ts) := by
  match ts, h with
  | [], h =>
    rw [UiLang.readOptionalBlock]
    exact ensures_ok (List.forall_mem_nil _)
  | first :: rest, h =>
    rw [UiLang.readOptionalBlock]
    split
    · exact ensures_bind fun nodes hnodes =>
        ensures_ok (law.readNodes (law.tail h) nodes hnodes)
    · exact ensures_ok (List.forall_mem_nil _)
termination_by 3 * ts.length + 1
decreasing_by
  simp only [List.length_cons]
  omega

theorem readBlock (law : NodeLaw S P) {ts : List Token} (h : S ts) :
    Ensures (fun nodes => ∀ part ∈ partsOf nodes, P part) (readBlock stop ts) := by
  rw [UiLang.readBlock]
  refine ensures_bind fun brace _ => ensures_bind fun nodes hnodes => ensures_ok ?_
  exact law.readNodes (law.rest h brace) nodes hnodes
termination_by 3 * ts.length + 1
decreasing_by
  have := brace.length_le
  omega

theorem readNodes (law : NodeLaw S P) {ts : List Token} (h : S ts) :
    Ensures (fun nodes => ∀ part ∈ partsOf nodes, P part) (readNodes stop ts) := by
  cases hskip : UiLang.skipNewlines ts with
  | nil =>
    rw [readNodes_of_nil stop hskip]
    exact ensures_error _
  | cons first us =>
    have hfirst : S (first :: us) := hskip ▸ law.skipNewlines h
    rw [readNodes_of_cons stop hskip]
    split
    · exact ensures_ok (List.forall_mem_nil _)
    · refine ensures_bind fun node hnode => ensures_bind fun nodes hnodes => ensures_ok ?_
      exact List.forall_mem_append.mpr ⟨law.readNode hfirst node hnode,
        law.readNodes (law.rest (law.tail hfirst) node) nodes hnodes⟩
termination_by 3 * ts.length
decreasing_by
  · have := length_lt_of_skipNewlines hskip
    omega
  · have := length_lt_of_skipNewlines hskip
    have := node.length_le
    omega

end

end NodeLaw

/-! ## What readers of items give -/

/-- The name of a component has the property `N` and its statements have `P`, or a function has
the property `F`. -/
def Declaration.Obeys (N : String → Prop) (P : Statement → Prop) (F : Function → Prop) :
    Declaration → Prop
  | .component declared => N declared.name ∧ ∀ statement ∈ declared.body, P statement
  | .function declared => F declared

/-- `N` holds of every identifier, `P` of every statement and `F` of every function that is read
from tokens with the property `S`, which is kept when tokens are taken away in front. -/
structure ProgramLaw (S : List Token → Prop) (N : String → Prop) (P : Statement → Prop)
    (F : Function → Prop) : Prop where
  suffix {ts us : List Token} : S ts → us <:+ ts → S us
  name (stop : Token) {ts : List Token} : S ts →
    Ensures (fun token => N token.text) (expect stop .identifier ts)
  statement (stop : Token) {first : Token} {ts : List Token} : S (first :: ts) →
    Ensures P (readStatement stop first ts)
  function (stop : Token) (isAsync : Bool) (keyword : Token) {ts : List Token} : S ts →
    Ensures F (readFunction stop isAsync keyword ts)

namespace ProgramLaw

variable {S : List Token → Prop} {N : String → Prop} {P : Statement → Prop} {F : Function → Prop}
  {stop : Token}

theorem readStatements (law : ProgramLaw S N P F) {ts : List Token} (h : S ts) :
    Ensures (fun body => ∀ statement ∈ body, P statement) (readStatements stop ts) := by
  cases hskip : skipNewlines ts with
  | nil =>
    rw [readStatements_of_nil stop hskip]
    exact ensures_error _
  | cons first us =>
    have hfirst : S (first :: us) := hskip ▸ law.suffix h (skipNewlines_suffix ts)
    rw [readStatements_of_cons stop hskip]
    split
    · exact ensures_ok (List.forall_mem_nil _)
    · refine ensures_bind fun statement hstatement => ensures_bind fun statements hstatements =>
        ensures_ok ?_
      have hrest : S statement.rest :=
        law.suffix hfirst (statement.suffix.trans (List.suffix_cons first us))
      exact List.forall_mem_cons.mpr ⟨law.statement stop hfirst statement hstatement,
        law.readStatements hrest statements hstatements⟩
termination_by ts.length
decreasing_by
  have := length_lt_of_skipNewlines hskip
  have := statement.length_le
  omega

theorem readDeclaration (law : ProgramLaw S N P F) (first : Token) {ts : List Token} (h : S ts) :
    Ensures (Declaration.Obeys N P F) (readDeclaration stop first ts) := by
  unfold UiLang.readDeclaration
  split
  · refine ensures_bind fun component hcomponent => ensures_ok ?_
    have hread : Ensures (fun declared : Component =>
        N declared.name ∧ ∀ statement ∈ declared.body, P statement)
        (readComponent stop first ts) := by
      refine ensures_bind fun name hname => ensures_bind fun brace _ =>
        ensures_bind fun body hbody => ensures_ok ?_
      have hrest := law.suffix h (name.skipNewlines.andThen brace).suffix
      exact ⟨law.name stop h name hname, law.readStatements hrest body hbody⟩
    exact hread component hcomponent
  · exact ensures_bind fun function hfunction =>
      ensures_ok (law.function stop false first h function hfunction)
  · refine ensures_bind fun keyword _ => ensures_bind fun function hfunction => ensures_ok ?_
    exact law.function stop true keyword.value (law.suffix h keyword.suffix) function hfunction
  · exact ensures_error _

theorem readItem (law : ProgramLaw S N P F) (first : Token) {ts : List Token} (h : S ts) :
    Ensures (fun item => ∀ declaration ∈ item.declaration?, declaration.Obeys N P F)
      (readItem stop first ts) := by
  have hdeclared : Ensures
      (fun item : Item => ∀ declaration ∈ item.declaration?, declaration.Obeys N P F)
      (do return (← UiLang.readDeclaration stop first ts).map .declaration) := by
    refine ensures_bind fun declaration hdeclaration => ensures_ok ?_
    rintro _ ⟨⟩
    exact law.readDeclaration first h declaration hdeclaration
  unfold UiLang.readItem
  split
  · exact ensures_bind fun _ _ => ensures_ok (fun _ hnone => nomatch hnone)
  · cases ts with
    | nil => exact ensures_error _
    | cons next rest =>
      refine ensures_bind fun declaration hdeclaration => ensures_ok ?_
      rintro _ ⟨⟩
      exact law.readDeclaration next (law.suffix h (List.suffix_cons next rest)) declaration
        hdeclaration
  iterate 3 exact hdeclared
  · exact ensures_error _

/-- **The law holds of all items that are read**, also of those after an item that had to be
skipped. -/
theorem readItemList (law : ProgramLaw S N P F) {ts : List Token} (h : S ts) :
    ∀ item ∈ (readItemList stop ts).items,
      ∀ declaration ∈ item.declaration?, declaration.Obeys N P F := by
  cases hskip : skipNewlines ts with
  | nil =>
    rw [readItemList_of_nil stop hskip]
    exact List.forall_mem_nil _
  | cons first us =>
    have hus : S us := by
      refine law.suffix h ?_
      exact (List.suffix_cons first us).trans (hskip ▸ skipNewlines_suffix ts)
    cases hread : UiLang.readItem stop first us with
    | ok item =>
      rw [readItemList_of_ok stop hskip hread]
      exact List.forall_mem_cons.mpr ⟨law.readItem first hus item hread,
        law.readItemList (law.suffix hus item.suffix)⟩
    | error fault =>
      -- nothing is given for what was skipped, and what comes after it is a suffix again
      rw [readItemList_of_error stop hskip hread]
      exact law.readItemList (law.suffix hus (skipItem_suffix stop 0 first us))
termination_by ts.length
decreasing_by
  · exact Nat.lt_of_le_of_lt (skipItem_suffix stop 0 first us).length_le
      (length_lt_of_skipNewlines hskip)
  · exact Nat.lt_of_le_of_lt item.length_le (length_lt_of_skipNewlines hskip)

variable {source : String}

theorem ofComponent (law : ProgramLaw S N P F) (h : S (scan source).stream.tokens)
    {component : Component} (hcomponent : component ∈ (parseSource source).program.components) :
    N component.name ∧ ∀ statement ∈ component.body, P statement := by
  obtain ⟨item, hitem, hsome⟩ := List.mem_filterMap.mp hcomponent
  have hitems := law.readItemList h item hitem
  unfold Item.component? at hsome
  split at hsome
  · rename_i declared hdeclared
    cases hsome
    exact hitems _ hdeclared
  · cases hsome

theorem ofFunction (law : ProgramLaw S N P F) (h : S (scan source).stream.tokens)
    {function : Function} (hfunction : function ∈ (parseSource source).program.functions) :
    F function := by
  obtain ⟨item, hitem, hsome⟩ := List.mem_filterMap.mp hfunction
  have hitems := law.readItemList h item hitem
  unfold Item.function? at hsome
  split at hsome
  · rename_i declared hdeclared
    cases hsome
    exact hitems _ hdeclared
  · cases hsome

end ProgramLaw

end UiLang
