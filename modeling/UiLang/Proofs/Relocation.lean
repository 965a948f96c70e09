import UiLang.Program.Reader

/-!
# Moving a program to another place

Locations occur in tokens, in diagnostics and in every node of a program.  Moving them leaves
everything else as it is: what a program says does not depend on where it stands, only on which
tokens touch each other.

A relocation is a map of locations that keeps this.  Line ends may move in a way of their own,
since no node and no raw text has the location of a newline.

## Main definitions

* `Location.down`: a location some lines below
* `UiNode.relocate`, `Item.relocate`: programs with every location mapped
* `Relocation`: maps of locations that keep joins and gaps
* `Relocation.down`: the move down by some lines

## Main results

* `Relocation.join_map`, `Relocation.body_map`, `Relocation.arguments_map`: raw text does not move
* `Item.relocate_id`: a move that goes nowhere changes nothing
-/

namespace UiLang

/-- The location `n` lines below. -/
def Location.down (n : Nat) (loc : Location) : Location :=
  { loc with line := loc.line + n }

/-- The position `n` lines below. -/
def Position.down (n : Nat) (pos : Position) : Position :=
  { pos with line := pos.line + n }

/-! ## Programs with every location mapped -/

section Maps

variable (f : Location → Location)

def Token.relocate (token : Token) : Token :=
  { token with location := f token.location }

def Diagnostic.relocate (diagnostic : Diagnostic) : Diagnostic :=
  { diagnostic with location := f diagnostic.location }

mutual

/-- A node with every location mapped. -/
def UiNode.relocate : UiNode → UiNode
  | .element head children loc => .element head (relocateNodes children) (f loc)
  | .component name attributes children loc =>
    .component name attributes (relocateNodes children) (f loc)
  | .conditional condition body rest loc =>
    .conditional condition (relocateNodes body) rest.relocate (f loc)
  | .loop item array body loc => .loop item array (relocateNodes body) (f loc)

/-- The later branches of a conditional with every location mapped. -/
def ElseChain.relocate : ElseChain → ElseChain
  | .done => .done
  | .elseIf condition body rest => .elseIf condition (relocateNodes body) rest.relocate
  | .otherwise body => .otherwise (relocateNodes body)

/-- Nodes with every location mapped. -/
def relocateNodes : List UiNode → List UiNode
  | [] => []
  | node :: nodes => node.relocate :: relocateNodes nodes

end

def Props.relocate (props : Props) : Props :=
  { props with location := f props.location }

def StateDeclaration.relocate (declaration : StateDeclaration) : StateDeclaration :=
  { declaration with location := f declaration.location }

def Computed.relocate (declaration : Computed) : Computed :=
  { declaration with location := f declaration.location }

def Hook.relocate (hook : Hook) : Hook :=
  { hook with location := f hook.location }

def Fetch.relocate (fetch : Fetch) : Fetch :=
  { fetch with location := f fetch.location }

def Watcher.relocate (watcher : Watcher) : Watcher :=
  { watcher with location := f watcher.location }

/-- A statement with every location mapped. -/
def Statement.relocate : Statement → Statement
  | .props p => .props (p.relocate f)
  | .state s => .state (s.relocate f)
  | .computed c => .computed (c.relocate f)
  | .hook h => .hook (h.relocate f)
  | .fetch r => .fetch (r.relocate f)
  | .watcher w => .watcher (w.relocate f)
  | .node n => .node (n.relocate f)

/-- A component with every location mapped. -/
def Component.relocate (component : Component) : Component :=
  { component with
    body := component.body.map (Statement.relocate f)
    location := f component.location }

def Function.relocate (function : Function) : Function :=
  { function with location := f function.location }

def Import.relocate (declaration : Import) : Import :=
  { declaration with location := f declaration.location }

/-- A declaration with every location mapped. -/
def Declaration.relocate : Declaration → Declaration
  | .component c => .component (c.relocate f)
  | .function g => .function (g.relocate f)

/-- An item with every location mapped. -/
def Item.relocate : Item → Item
  | .declaration d => .declaration (d.relocate f)
  | .exported d loc => .exported (d.relocate f) (f loc)
  | .importFrom i => .importFrom (i.relocate f)

end Maps

/-! ## A move that goes nowhere -/

mutual

theorem UiNode.relocate_id : (node : UiNode) → node.relocate id = node
  | .element head children loc => by rw [UiNode.relocate, relocateNodes_id children, id]
  | .component name attributes children loc => by
    rw [UiNode.relocate, relocateNodes_id children, id]
  | .conditional condition body rest loc => by
    rw [UiNode.relocate, relocateNodes_id body, rest.relocate_id, id]
  | .loop item array body loc => by rw [UiNode.relocate, relocateNodes_id body, id]

theorem ElseChain.relocate_id : (chain : ElseChain) → chain.relocate id = chain
  | .done => rfl
  | .elseIf condition body rest => by
    rw [ElseChain.relocate, relocateNodes_id body, rest.relocate_id]
  | .otherwise body => by rw [ElseChain.relocate, relocateNodes_id body]

theorem relocateNodes_id : (nodes : List UiNode) → relocateNodes id nodes = nodes
  | [] => rfl
  | node :: nodes => by rw [relocateNodes, node.relocate_id, relocateNodes_id nodes]

end

theorem Statement.relocate_id (statement : Statement) : statement.relocate id = statement := by
  cases statement with
  | node node => rw [Statement.relocate, node.relocate_id]
  | _ => rfl

theorem Component.relocate_id (component : Component) : component.relocate id = component := by
  have hbody : component.body.map (Statement.relocate id) = component.body :=
    (List.map_congr_left fun statement _ => statement.relocate_id).trans (List.map_id _)
  rw [Component.relocate, hbody]
  rfl

theorem Declaration.relocate_id (declaration : Declaration) :
    declaration.relocate id = declaration := by
  cases declaration with
  | component component => rw [Declaration.relocate, component.relocate_id]
  | function function => rfl

/-- A move that goes nowhere changes nothing. -/
theorem Item.relocate_id (item : Item) : item.relocate id = item := by
  cases item with
  | declaration declaration => rw [Item.relocate, declaration.relocate_id]
  | exported declaration loc => rw [Item.relocate, declaration.relocate_id, id]
  | importFrom declaration => rfl

theorem Item.map_relocate_id (items : List Item) : items.map (Item.relocate id) = items :=
  (List.map_congr_left fun item _ => item.relocate_id).trans (List.map_id _)

/-! ## Relocations -/

/-- A map of locations that keeps what programs depend on: the span from one location to another,
and whether something stands between two tokens.  The locations of newlines are mapped apart. -/
structure Relocation where
  place : Location → Location
  lineEnd : Location → Location
  join_place (first second : Location) :
    (place first).join (place second) = place (first.join second)
  separated_place (previous next : Token) :
    RawText.separated (previous.relocate place) (next.relocate place) =
      RawText.separated previous next

namespace Relocation

/-- Nothing moves. -/
def refl : Relocation where
  place := id
  lineEnd := id
  join_place _ _ := rfl
  separated_place _ _ := rfl

/-- Everything moves down by `n` lines. -/
def down (n : Nat) : Relocation where
  place := .down n
  lineEnd := .down n
  join_place first second := by
    unfold Location.join Location.down
    simp only [Nat.add_right_cancel_iff]
    split <;> rfl
  separated_place previous next := by
    have hline (a b : Nat) : (a + n != b + n) = (a != b) := by
      rw [Bool.eq_iff_iff]
      simp
    simp only [RawText.separated, Token.relocate, Location.down, hline]
    rfl

variable (move : Relocation)

/-- The map of the locations of tokens of a given kind. -/
def placeOf (kind : Kind) : Location → Location :=
  if kind = .newline then move.lineEnd else move.place

/-- A token where it stands after the move. -/
def token (t : Token) : Token :=
  t.relocate (move.placeOf t.kind)

@[simp] theorem token_kind (t : Token) : (move.token t).kind = t.kind := by
  simp only [token, Token.relocate]

@[simp] theorem token_text (t : Token) : (move.token t).text = t.text := by
  simp only [token, Token.relocate]

theorem token_of_ne_newline {t : Token} (h : t.kind ≠ .newline) :
    move.token t = t.relocate move.place := by
  rw [token, placeOf, if_neg h]

theorem location_token_of_ne_newline {t : Token} (h : t.kind ≠ .newline) :
    (move.token t).location = move.place t.location := by
  rw [move.token_of_ne_newline h]
  rfl

@[simp] theorem refl_token (t : Token) : refl.token t = t := by
  unfold token placeOf refl
  split <;> rfl

@[simp] theorem down_token (n : Nat) (t : Token) :
    (down n).token t = t.relocate (.down n) := by
  unfold token placeOf down
  split <;> rfl

/-- Diagnostics of one fault at a token and where that token stands after the move. -/
def Moved (d d' : Diagnostic) : Prop :=
  ∃ fault t, d = .ofToken fault t ∧ d' = .ofToken fault (move.token t)

theorem moved_ofToken (fault : Fault) (t : Token) :
    move.Moved (.ofToken fault t) (.ofToken fault (move.token t)) :=
  ⟨fault, t, rfl, rfl⟩

theorem eq_of_moved_down {n : Nat} {d d' : Diagnostic} (h : (down n).Moved d d') :
    d' = d.relocate (.down n) := by
  obtain ⟨fault, t, rfl, rfl⟩ := h
  rw [down_token]
  rfl

/-! ## Raw text does not move -/

@[simp] theorem written_token (t : Token) :
    RawText.written (move.token t) = RawText.written t := rfl

theorem joinAfter_map {previous : Token} {tokens : List Token} (hp : previous.kind ≠ .newline)
    (hall : ∀ t ∈ tokens, t.kind ≠ .newline) :
    RawText.joinAfter (move.token previous) (tokens.map move.token) =
      RawText.joinAfter previous tokens := by
  induction tokens generalizing previous with
  | nil => rfl
  | cons t tokens ih =>
    have ht : t.kind ≠ .newline := hall t List.mem_cons_self
    have hsep : RawText.separated (move.token previous) (move.token t) =
        RawText.separated previous t := by
      rw [move.token_of_ne_newline hp, move.token_of_ne_newline ht, move.separated_place]
    rw [List.map_cons, RawText.joinAfter, hsep, written_token,
      ih ht fun u hu => hall u (List.mem_cons_of_mem t hu), RawText.joinAfter]

theorem filter_map_token (p : Kind → Bool) (tokens : List Token) :
    (tokens.map move.token).filter (fun t => p t.kind) =
      (tokens.filter fun t => p t.kind).map move.token := by
  rw [List.filter_map]
  rfl

/-- Tokens on one line join to the same text. -/
theorem join_map (tokens : List Token) :
    RawText.join (tokens.map move.token) = RawText.join tokens := by
  -- newlines are dropped before the join, so only locations that `place` maps are compared
  unfold RawText.join
  rw [move.filter_map_token (· != .newline)]
  have hall : ∀ t ∈ tokens.filter (fun t => t.kind != .newline), t.kind ≠ .newline := by
    intro t ht
    simpa using (List.mem_filter.mp ht).2
  cases hfilter : tokens.filter fun t => t.kind != .newline with
  | nil => rfl
  | cons t rest =>
    rw [hfilter] at hall
    simp only [List.map_cons, written_token]
    rw [move.joinAfter_map (hall t List.mem_cons_self)
      fun u hu => hall u (List.mem_cons_of_mem t hu)]

theorem splitWhen_map_token (p : Kind → Bool) (tokens : List Token) :
    splitWhen (fun t => p t.kind) (tokens.map move.token) =
      (splitWhen (fun t => p t.kind) tokens).map (List.map move.token) := by
  induction tokens with
  | nil => rfl
  | cons t tokens ih =>
    rw [List.map_cons, splitWhen, splitWhen, ih, token_kind]
    split
    · rfl
    · cases splitWhen (fun t => p t.kind) tokens with
      | nil => rfl
      | cons piece pieces => rfl

theorem endsStatement_map (line next : List Token) :
    RawText.endsStatement (line.map move.token) (next.map move.token) =
      RawText.endsStatement line next := by
  unfold RawText.endsStatement
  rw [List.getLast?_map, List.head?_map, Option.any_map, Option.any_map]
  rfl

theorem joinLines_map (lines : List (List Token)) :
    RawText.joinLines (lines.map (List.map move.token)) = RawText.joinLines lines := by
  fun_induction RawText.joinLines lines with
  | case1 => rfl
  | case2 line => exact move.join_map line
  | case3 line next lines ih =>
    rw [List.map_cons, List.map_cons, RawText.joinLines, move.join_map, move.endsStatement_map,
      ← List.map_cons, ih]

/-- The tokens of a block give the same text. -/
theorem body_map (tokens : List Token) :
    RawText.body (tokens.map move.token) = RawText.body tokens := by
  have hlines : RawText.bodyLines (tokens.map move.token) =
      (RawText.bodyLines tokens).map (List.map move.token) := by
    unfold RawText.bodyLines
    rw [move.splitWhen_map_token (· == .newline), List.filter_map]
    congr 1
    refine List.filter_congr fun line _ => ?_
    simp
  rw [RawText.body, hlines, move.joinLines_map]
  rfl

theorem splitArguments_map (depth : Nat) (tokens : List Token) :
    RawText.splitArguments depth (tokens.map move.token) =
      (RawText.splitArguments depth tokens).map (List.map move.token) := by
  induction tokens generalizing depth with
  | nil => rfl
  | cons t tokens ih =>
    rw [List.map_cons, RawText.splitArguments, RawText.splitArguments, ih, ih, token_kind,
      show RawText.depthAfter depth (move.token t) = RawText.depthAfter depth t from rfl]
    split
    · rfl
    · cases RawText.splitArguments (RawText.depthAfter depth t) tokens with
      | nil => rfl
      | cons part parts => rfl

/-- The arguments of a call are the same texts. -/
theorem arguments_map (tokens : List Token) :
    RawText.arguments (tokens.map move.token) = RawText.arguments tokens := by
  unfold RawText.arguments
  rw [move.splitArguments_map, List.filter_map, List.map_map]
  have hfilter : (fun part : List Token => !part.isEmpty) ∘ List.map move.token =
      fun part => !part.isEmpty := by
    funext part
    simp
  rw [hfilter]
  exact List.map_congr_left fun part _ => move.join_map part

end Relocation

end UiLang
