import UiLang.Proofs.Relocation
import UiLang.Proofs.Seam.Program
import UiLang.Proofs.Ui.Header
import UiLang.Source

/-!
# Printed nodes are read back

The nodes of a printed component are read back, to any depth and in any order.  The readers of
nodes, of blocks and of later branches call each other, so what they give is said of all three at
once, by recursion on the nodes that were printed.

Locations are the only thing that printing forgets.  They are compared after all of them were moved
to a single one.

## Main definitions

* `GivesUpTo`: a reader gives a value up to what a function forgets
* `EndsNode`: tokens that no node goes on with
* `NodesReadBack`: what is to be shown of the nodes of a block

## Main results

* `UiNode.IsPrintable.gives`, `ElseChain.IsPrintable.gives`, `ArePrintable.gives`: nodes, later
  branches and blocks
* `ArePrintable.gives_readStatements`: component bodies
* `parseSource_componentText`: a printed component is parsed back
-/

namespace UiLang

/-- The reader leaves `rest`, and gives `value` up to what `f` forgets. -/
def GivesUpTo {α β : Type} (f : α → β) {ts : List Token} (outcome : Read α ts) (value : α)
    (rest : List Token) : Prop :=
  ∃ read, Gives outcome read rest ∧ f read = f value

/-! ## Where a node starts and ends -/

/-- The tokens that a node starts with. -/
def Kind.startsNode : Kind → Bool
  | .identifier | .keyword .ifWord | .keyword .forWord => true
  | _ => false

/-- A node ends where these tokens start: at the end of a line, with no later branch of a
conditional after it.  Even on a line of its own such a branch would belong to the node. -/
structure EndsNode (rest : List Token) : Prop where
  newline : ∃ token us, rest = token :: us ∧ token.kind = .newline
  no_branch : ∀ token ∈ (skipNewlines rest).head?,
    token.kind ≠ .keyword .elseIf ∧ token.kind ≠ .keyword .elseWord

section Ends

variable {stop newline first closing : Token} {ts us rest : List Token}

theorem skipNewlines_newline (hnewline : newline.kind = .newline) (hfirst : first.kind ≠ .newline) :
    skipNewlines (newline :: first :: ts) = first :: ts := by
  rw [skipNewlines_cons, if_pos hnewline, skipNewlines_of_ne hfirst]

theorem endsNode_of_newline (hnewline : newline.kind = .newline) (hfirst : first.kind ≠ .newline)
    (helseIf : first.kind ≠ .keyword .elseIf) (helse : first.kind ≠ .keyword .elseWord) :
    EndsNode (newline :: first :: ts) := by
  refine ⟨⟨newline, _, rfl, hnewline⟩, ?_⟩
  rw [skipNewlines_newline hnewline hfirst]
  rintro token ⟨⟩
  exact ⟨helseIf, helse⟩

theorem EndsNode.endsHeader (h : EndsNode rest) : EndsHeader rest := by
  obtain ⟨newline, us, rfl, hnewline⟩ := h.newline
  rintro token ⟨⟩
  exact .inl hnewline

theorem ne_of_startsNode {kind : Kind} (hfirst : first.kind.startsNode = true)
    (hkind : kind.startsNode = false) : first.kind ≠ kind := by
  rintro rfl
  rw [hfirst] at hkind
  cases hkind

/-- The first word of a node. -/
theorem UiNode.glyphs_eq (node : UiNode) :
    ∃ kind text more, node.glyphs = .word ⟨kind, text⟩ :: more ∧ kind.startsNode = true := by
  cases node with
  | element head children loc => exact ⟨_, _, _, by rw [UiNode.glyphs]; rfl, rfl⟩
  | component name attributes children loc => exact ⟨_, _, _, by rw [UiNode.glyphs]; rfl, rfl⟩
  | conditional condition body rest loc => exact ⟨_, _, _, by rw [UiNode.glyphs], rfl⟩
  | loop item array body loc => exact ⟨_, _, _, by rw [UiNode.glyphs], rfl⟩

theorem UiNode.exists_first {node : UiNode} (hts : TokensOf ts node.glyphs) :
    ∃ first us, ts = first :: us ∧ first.kind.startsNode = true := by
  obtain ⟨kind, text, more, hglyphs, hkind⟩ := node.glyphs_eq
  rw [hglyphs] at hts
  obtain ⟨first, us, rfl, ⟨rfl, -⟩, -⟩ := tokensOf_word.mp hts
  exact ⟨first, us, rfl, hkind⟩

/-- The lines after a node, up to the end of its block. -/
theorem endsNode_of_tokensOf {nodes : List UiNode} (hts : TokensOf ts (nodeGlyphs nodes))
    (hclosing : closing.kind = .closing .brace) : EndsNode (ts ++ closing :: rest) := by
  cases nodes with
  | nil =>
    rw [nodeGlyphs] at hts
    obtain ⟨newline, rfl, hnewline, -⟩ := tokensOf_single.mp hts
    exact endsNode_of_newline hnewline (by simp [hclosing]) (by simp [hclosing])
      (by simp [hclosing])
  | cons node nodes =>
    rw [nodeGlyphs] at hts
    obtain ⟨newline, us, rfl, ⟨hnewline, -⟩, hus⟩ := tokensOf_word.mp hts
    obtain ⟨p, q, rfl, hp, -⟩ := tokensOf_append.mp hus
    obtain ⟨first, p, rfl, hfirst⟩ := UiNode.exists_first hp
    exact endsNode_of_newline hnewline (ne_of_startsNode hfirst rfl) (ne_of_startsNode hfirst rfl)
      (ne_of_startsNode hfirst rfl)

end Ends

/-! ## One step of each reader -/

section Steps

variable {stop newline first closing : Token} {ts us vs rest : List Token}
  {node : UiNode} {nodes : List UiNode} {condition : Condition} {chain : ElseChain}

theorem expectStatementEnd_of_endsNode (h : EndsNode rest) :
    Gives (expectStatementEnd stop rest) () rest := by
  obtain ⟨newline, us, rfl, hnewline⟩ := h.newline
  rw [expectStatementEnd, show (peek stop (newline :: us)).kind = .newline from hnewline]
  exact gives_ok _

/-- An element or a use of a component. -/
theorem readNode_of_header {head : ElementHead} (hfirst : first.kind = .identifier)
    (hhead : Gives (readElementHead stop first.text ts) head us)
    (hchildren : Gives (readOptionalBlock stop us) nodes rest) (hrest : EndsNode rest) :
    Gives (readNode stop first ts) (head.toNode nodes first.location) rest := by
  rw [readNode, hfirst]
  refine hhead.bind fun _ => hchildren.bind fun _ => ?_
  exact (expectStatementEnd_of_endsNode hrest).bind fun _ => gives_ok _

theorem readNode_of_condition (hfirst : first.kind = .keyword .ifWord)
    (hcondition : Gives (readCondition stop ts) condition us)
    (hbody : Gives (readBlock stop (skipNewlines us)) nodes vs)
    (hchain : Gives (readElseChain stop vs) chain rest) :
    Gives (readNode stop first ts) (.conditional condition nodes chain first.location) rest := by
  rw [readNode, hfirst]
  exact hcondition.bind fun _ => hbody.bind fun _ => hchain.bind fun _ => gives_ok _

theorem readNode_of_loopHead {item : String} {array : Path}
    (hfirst : first.kind = .keyword .forWord)
    (hhead : Gives (readLoopHead stop ts) (item, array) us)
    (hbody : Gives (readBlock stop (skipNewlines us)) nodes rest) :
    Gives (readNode stop first ts) (.loop item array nodes first.location) rest := by
  rw [readNode, hfirst]
  exact hhead.bind fun _ => hbody.bind fun _ => gives_ok _

theorem readElseChain_of_condition (hfirst : first.kind = .keyword .elseIf)
    (hcondition : Gives (readCondition stop ts) condition us)
    (hbody : Gives (readBlock stop (skipNewlines us)) nodes vs)
    (hchain : Gives (readElseChain stop vs) chain rest) :
    Gives (readElseChain stop (first :: ts)) (.elseIf condition nodes chain) rest := by
  have hskip : skipNewlines (first :: ts) = first :: ts := skipNewlines_of_ne (by simp [hfirst])
  rw [Seam.readElseChain_of_cons stop hskip, hfirst]
  exact hcondition.bind fun _ => hbody.bind fun _ => hchain.bind fun _ => gives_ok _

theorem readElseChain_of_else (hfirst : first.kind = .keyword .elseWord)
    (hbody : Gives (readBlock stop (skipNewlines ts)) nodes rest) :
    Gives (readElseChain stop (first :: ts)) (.otherwise nodes) rest := by
  have hskip : skipNewlines (first :: ts) = first :: ts := skipNewlines_of_ne (by simp [hfirst])
  rw [Seam.readElseChain_of_cons stop hskip, hfirst]
  exact hbody.bind fun _ => gives_ok _

theorem readElseChain_of_endsNode (h : EndsNode rest) :
    Gives (readElseChain stop rest) .done rest := by
  cases hskip : skipNewlines rest with
  | nil =>
    rw [Seam.readElseChain_of_nil stop hskip]
    exact gives_ok _
  | cons token us =>
    obtain ⟨helseIf, helse⟩ := h.no_branch token (by rw [hskip]; rfl)
    rw [Seam.readElseChain_of_cons stop hskip]
    split
    · exact absurd ‹_› helseIf
    · exact absurd ‹_› helse
    · exact gives_ok _

theorem readNodes_of_closing (hnewline : newline.kind = .newline)
    (hclosing : closing.kind = .closing .brace) :
    Gives (readNodes stop (newline :: closing :: rest)) [] rest := by
  rw [Seam.readNodes_of_cons stop (skipNewlines_newline hnewline (by simp [hclosing])),
    if_pos hclosing]
  exact gives_ok _

theorem readNodes_of_gives (hnewline : newline.kind = .newline)
    (hfirst : first.kind.startsNode = true) (hnode : Gives (readNode stop first ts) node us)
    (hnodes : Gives (readNodes stop us) nodes rest) :
    Gives (readNodes stop (newline :: first :: ts)) (node :: nodes) rest := by
  rw [Seam.readNodes_of_cons stop (skipNewlines_newline hnewline (ne_of_startsNode hfirst rfl)),
    if_neg (ne_of_startsNode hfirst rfl)]
  exact hnode.bind fun _ => hnodes.bind fun _ => gives_ok _

end Steps

/-! ## Parts of a node -/

section Parts

variable {stop : Token} {here : Location} {ts rest : List Token} {nodes : List UiNode}

/-- A printed condition with a block after it. -/
theorem readCondition_of_tokensOf {e : Condition} {inner more : List Glyph} (h : e.IsLexable)
    (hts : TokensOf ts (e.glyphs ++ (blockGlyphs inner ++ more))) :
    ∃ us, Gives (readCondition stop (ts ++ rest)) e (us ++ rest) ∧
      TokensOf us (blockGlyphs inner ++ more) := by
  obtain ⟨p, us, rfl, hp, hus⟩ := tokensOf_append.mp hts
  refine ⟨us, ?_, hus⟩
  obtain ⟨brace, vs, rfl, ⟨hbrace, -⟩, -⟩ := tokensOf_word.mp (tokensOf_blank.mp hus)
  have hwhole : Derives .disjunction p e :=
    .ofConjunction (.ofNegation (.ofComparison (.ofPrimary (h.derives hp))))
  rw [List.append_assoc]
  exact hwhole.gives_readDisjunction (by simp [Stratum.EndsAt, Stratum.goesOn, hbrace])

theorem Path.IsLexable.gives_readPath {path : Path} (h : path.IsLexable)
    (hts : TokensOf ts path.glyphs) (hrest : ∀ token ∈ rest.head?, token.kind ≠ .dot) :
    Gives (readPath stop (ts ++ rest)) path rest := by
  obtain ⟨root, us, rfl, hroot, hpath, hleft⟩ := h.readPathAfter hts hrest
  exact (expect_gives hroot).bind fun _ => gives_iff.mpr ⟨_, rfl, hpath, hleft⟩

/-- The item and the array of a printed loop, with a block after them. -/
theorem readLoopHead_of_tokensOf {item : String} {array : Path} {inner : List Glyph}
    (h : array.IsLexable)
    (hts : TokensOf ts (.word ⟨.identifier, item⟩ :: .blank :: .word ⟨.keyword .inWord, "in"⟩ ::
      .blank :: (array.glyphs ++ blockGlyphs inner))) :
    ∃ us, Gives (readLoopHead stop (ts ++ rest)) (item, array) (us ++ rest) ∧
      TokensOf us (blockGlyphs inner) := by
  obtain ⟨name, vs, rfl, ⟨hname, rfl⟩, hvs⟩ := tokensOf_word.mp hts
  obtain ⟨word, ws, rfl, ⟨hword, -⟩, hws⟩ := tokensOf_word.mp (tokensOf_blank.mp hvs)
  obtain ⟨p, us, rfl, hp, hus⟩ := tokensOf_append.mp (tokensOf_blank.mp hws)
  refine ⟨us, ?_, hus⟩
  obtain ⟨brace, xs, rfl, ⟨hbrace, -⟩, -⟩ := tokensOf_word.mp (tokensOf_blank.mp hus)
  have hpath : Gives (readPath stop (p ++ (brace :: xs ++ rest))) array (brace :: xs ++ rest) :=
    h.gives_readPath hp (by simp [hbrace])
  rw [List.cons_append, List.cons_append, List.append_assoc]
  refine (expect_gives hname).bind fun _ => ?_
  dsimp only
  rw [eat_of_eq _ hword]
  exact hpath.bind fun _ => gives_ok _

/-- The nodes are read back, up to locations, from the lines that they are printed on. -/
def NodesReadBack (stop : Token) (here : Location) (nodes : List UiNode) : Prop :=
  ∀ ts closing rest, TokensOf ts (nodeGlyphs nodes) → closing.kind = .closing .brace →
    GivesUpTo (relocateNodes fun _ => here) (readNodes stop (ts ++ closing :: rest)) nodes rest

/-- A printed block. -/
theorem readBlock_of_tokensOf (h : NodesReadBack stop here nodes)
    (hts : TokensOf ts (blockGlyphs (nodeGlyphs nodes))) :
    GivesUpTo (relocateNodes fun _ => here) (readBlock stop (skipNewlines (ts ++ rest))) nodes
      rest := by
  obtain ⟨opening, p, closing, rfl, hopening, hp, hclosing⟩ := (tokensOf_blank.mp hts).of_braced
  obtain ⟨read, hread, hsame⟩ := h p closing rest hp hclosing
  refine ⟨read, ?_, hsame⟩
  rw [List.cons_append, skipNewlines_of_ne (by simp [hopening]), List.append_assoc, readBlock]
  exact (expect_gives hopening).bind fun _ => hread.bind fun _ => gives_ok _

/-- The children of a printed element. -/
theorem readOptionalBlock_of_tokensOf (h : NodesReadBack stop here nodes)
    (hts : TokensOf ts (if nodes.isEmpty then [] else blockGlyphs (nodeGlyphs nodes)))
    (hrest : EndsNode rest) :
    EndsHeader (ts ++ rest) ∧
      GivesUpTo (relocateNodes fun _ => here) (readOptionalBlock stop (ts ++ rest)) nodes rest := by
  cases nodes with
  | nil =>
    obtain rfl := tokensOf_nil.mp hts
    refine ⟨hrest.endsHeader, [], ?_, rfl⟩
    obtain ⟨newline, us, rfl, hnewline⟩ := hrest.newline
    rw [List.nil_append, readOptionalBlock, if_neg (by simp [hnewline])]
    exact gives_ok _
  | cons node nodes =>
    obtain ⟨opening, p, closing, rfl, hopening, hp, hclosing⟩ := (tokensOf_blank.mp hts).of_braced
    refine ⟨?_, ?_⟩
    · rintro token ⟨⟩
      exact .inr hopening
    · obtain ⟨read, hread, hsame⟩ := h p closing rest hp hclosing
      refine ⟨read, ?_, hsame⟩
      rw [List.cons_append, List.append_assoc, readOptionalBlock, if_pos hopening]
      exact hread.bind fun _ => gives_ok _

/-- A printed element or use of a component. -/
theorem readNode_of_tokensOf {head : ElementHead} (hhead : head.IsPrintable)
    (h : NodesReadBack stop here nodes)
    (hts : TokensOf ts
      (head.glyphs ++ if nodes.isEmpty then [] else blockGlyphs (nodeGlyphs nodes)))
    (hrest : EndsNode rest) (loc : Location) :
    ∃ first us, ts = first :: us ∧ first.kind.startsNode = true ∧
      GivesUpTo (UiNode.relocate fun _ => here) (readNode stop first (us ++ rest))
        (head.toNode nodes loc) rest := by
  obtain ⟨p, q, rfl, hp, hq⟩ := tokensOf_append.mp hts
  obtain ⟨hends, read, hread, hsame⟩ := readOptionalBlock_of_tokensOf h hq hrest
  obtain ⟨first, us, rfl, hfirst, hgives⟩ := hhead.gives hp hends
  rw [← List.append_assoc] at hgives
  refine ⟨first, us ++ q, rfl, by rw [hfirst]; rfl, _,
    readNode_of_header hfirst hgives hread hrest, ?_⟩
  rw [Seam.relocate_toNode, Seam.relocate_toNode, hsame]

end Parts

/-! ## Nodes, later branches and blocks -/

variable (stop : Token) (here : Location)

-- The recursion is on the nodes that were printed.  It cannot be on the tokens, as the readers' own
-- recursion is: of the tokens no more is known than which glyphs they belong to.
mutual

/-- **A printed node is read back**, up to locations. -/
theorem UiNode.IsPrintable.gives : (node : UiNode) → node.IsPrintable → ∀ {ts rest : List Token},
    TokensOf ts node.glyphs → EndsNode rest → ∃ first us, ts = first :: us ∧
      first.kind.startsNode = true ∧
      GivesUpTo (UiNode.relocate fun _ => here) (readNode stop first (us ++ rest)) node rest
  | .element head children loc, ⟨hname, hhead, hchildren⟩, ts, rest, hts, hrest => by
    -- elements and uses of components are read alike, and told apart by their name
    have hnode : UiNode.element head children loc = head.toNode children loc := by
      rw [ElementHead.toNode, hname]
      rfl
    rw [UiNode.glyphs] at hts
    rw [hnode]
    exact readNode_of_tokensOf hhead (ArePrintable.gives children hchildren) hts hrest loc
  | .component name attributes children loc, ⟨hname, hhead, hchildren⟩, ts, rest, hts, hrest => by
    have hnode : UiNode.component name attributes children loc =
        ElementHead.toNode { name, attributes } children loc := by
      rw [ElementHead.toNode, if_pos hname]
    rw [UiNode.glyphs] at hts
    rw [hnode]
    exact readNode_of_tokensOf hhead (ArePrintable.gives children hchildren) hts hrest loc
  | .conditional condition body chain loc, ⟨hcondition, hbody, hchain⟩, ts, rest, hts, hrest => by
    rw [UiNode.glyphs] at hts
    obtain ⟨first, us, rfl, ⟨hfirst, -⟩, hus⟩ := tokensOf_word.mp hts
    obtain ⟨vs, hread, hvs⟩ := readCondition_of_tokensOf hcondition (tokensOf_blank.mp hus)
    obtain ⟨p, q, rfl, hp, hq⟩ := tokensOf_append.mp hvs
    obtain ⟨chain', hchain', hsame⟩ := ElseChain.IsPrintable.gives chain hchain hq hrest
    obtain ⟨body', hbody', hsame'⟩ := readBlock_of_tokensOf (ArePrintable.gives body hbody) hp
    rw [List.append_assoc] at hread
    refine ⟨first, us, rfl, by rw [hfirst]; rfl, _,
      readNode_of_condition hfirst hread hbody' hchain', ?_⟩
    rw [UiNode.relocate, UiNode.relocate, hsame, hsame']
  | .loop item array body loc, ⟨_, harray, hbody⟩, ts, rest, hts, _ => by
    rw [UiNode.glyphs] at hts
    obtain ⟨first, us, rfl, ⟨hfirst, -⟩, hus⟩ := tokensOf_word.mp hts
    obtain ⟨vs, hread, hvs⟩ := readLoopHead_of_tokensOf harray (tokensOf_blank.mp hus)
    obtain ⟨body', hbody', hsame⟩ := readBlock_of_tokensOf (ArePrintable.gives body hbody) hvs
    refine ⟨first, us, rfl, by rw [hfirst]; rfl, _,
      readNode_of_loopHead hfirst hread hbody', ?_⟩
    rw [UiNode.relocate, UiNode.relocate, hsame]

/-- **Printed later branches are read back**, up to locations. -/
theorem ElseChain.IsPrintable.gives : (chain : ElseChain) → chain.IsPrintable →
    ∀ {ts rest : List Token}, TokensOf ts chain.glyphs → EndsNode rest →
      GivesUpTo (ElseChain.relocate fun _ => here) (readElseChain stop (ts ++ rest)) chain rest
  | .done, _, ts, rest, hts, hrest => by
    rw [ElseChain.glyphs] at hts
    obtain rfl := tokensOf_nil.mp hts
    exact ⟨.done, readElseChain_of_endsNode hrest, rfl⟩
  | .elseIf condition body chain, ⟨hcondition, hbody, hchain⟩, ts, rest, hts, hrest => by
    rw [ElseChain.glyphs] at hts
    obtain ⟨first, us, rfl, ⟨hfirst, -⟩, hus⟩ := tokensOf_word.mp (tokensOf_blank.mp hts)
    obtain ⟨vs, hread, hvs⟩ := readCondition_of_tokensOf hcondition (tokensOf_blank.mp hus)
    obtain ⟨p, q, rfl, hp, hq⟩ := tokensOf_append.mp hvs
    obtain ⟨chain', hchain', hsame⟩ := ElseChain.IsPrintable.gives chain hchain hq hrest
    obtain ⟨body', hbody', hsame'⟩ := readBlock_of_tokensOf (ArePrintable.gives body hbody) hp
    rw [List.append_assoc] at hread
    refine ⟨_, readElseChain_of_condition hfirst hread hbody' hchain', ?_⟩
    rw [ElseChain.relocate, ElseChain.relocate, hsame, hsame']
  | .otherwise body, hbody, ts, rest, hts, hrest => by
    rw [ElseChain.glyphs] at hts
    obtain ⟨first, us, rfl, ⟨hfirst, -⟩, hus⟩ := tokensOf_word.mp (tokensOf_blank.mp hts)
    obtain ⟨body', hbody', hsame⟩ := readBlock_of_tokensOf (ArePrintable.gives body hbody) hus
    refine ⟨_, readElseChain_of_else hfirst hbody', ?_⟩
    rw [ElseChain.relocate, ElseChain.relocate, hsame]

/-- **Printed nodes are read back** up to the brace that closes their block, up to locations. -/
theorem ArePrintable.gives : (nodes : List UiNode) → ArePrintable nodes →
    NodesReadBack stop here nodes
  | [], _, ts, closing, rest, hts, hclosing => by
    rw [nodeGlyphs] at hts
    obtain ⟨newline, rfl, hnewline, -⟩ := tokensOf_single.mp hts
    exact ⟨[], readNodes_of_closing hnewline hclosing, rfl⟩
  | node :: nodes, ⟨hnode, hnodes⟩, ts, closing, rest, hts, hclosing => by
    rw [nodeGlyphs] at hts
    obtain ⟨newline, us, rfl, ⟨hnewline, -⟩, hus⟩ := tokensOf_word.mp hts
    obtain ⟨p, q, rfl, hp, hq⟩ := tokensOf_append.mp hus
    obtain ⟨first, vs, rfl, hfirst, read, hread, hsame⟩ :=
      UiNode.IsPrintable.gives node hnode hp (endsNode_of_tokensOf hq hclosing)
    obtain ⟨reads, hreads, hsame'⟩ := ArePrintable.gives nodes hnodes q closing rest hq hclosing
    refine ⟨read :: reads, ?_, ?_⟩
    · rw [List.cons_append, List.append_assoc, List.cons_append]
      exact readNodes_of_gives hnewline hfirst hread hreads
    · rw [relocateNodes, relocateNodes, hsame, hsame']

end

/-! ## Component bodies and components -/

section Bodies

variable {newline first closing : Token} {ts us rest : List Token}

/-- What starts a node starts no other statement. -/
theorem readStatement_of_gives {node : UiNode} (hfirst : first.kind.startsNode = true)
    (h : Gives (readNode stop first ts) node rest) :
    Gives (readStatement stop first ts) (.node node) rest := by
  unfold readStatement
  split
  case h_8 => exact h.bind fun _ => gives_ok _
  all_goals exact absurd ‹_› (ne_of_startsNode hfirst rfl)

theorem readStatements_of_closing (hnewline : newline.kind = .newline)
    (hclosing : closing.kind = .closing .brace) :
    Gives (readStatements stop (newline :: closing :: rest)) [] rest := by
  rw [Seam.readStatements_of_cons stop (skipNewlines_newline hnewline (by simp [hclosing])),
    if_pos hclosing]
  exact gives_ok _

theorem readStatements_of_gives {statement : Statement} {statements : List Statement}
    (hnewline : newline.kind = .newline) (hfirst : first.kind.startsNode = true)
    (hstatement : Gives (readStatement stop first ts) statement us)
    (hstatements : Gives (readStatements stop us) statements rest) :
    Gives (readStatements stop (newline :: first :: ts)) (statement :: statements) rest := by
  rw [Seam.readStatements_of_cons stop
      (skipNewlines_newline hnewline (ne_of_startsNode hfirst rfl)),
    if_neg (ne_of_startsNode hfirst rfl)]
  exact hstatement.bind fun _ => hstatements.bind fun _ => gives_ok _

/-- **A printed component body is read back**, up to locations. -/
theorem ArePrintable.gives_readStatements {nodes : List UiNode} (h : ArePrintable nodes)
    (hts : TokensOf ts (nodeGlyphs nodes)) (hclosing : closing.kind = .closing .brace) :
    GivesUpTo (List.map (Statement.relocate fun _ => here))
      (readStatements stop (ts ++ closing :: rest)) (nodes.map .node) rest := by
  induction nodes generalizing ts with
  | nil =>
    rw [nodeGlyphs] at hts
    obtain ⟨newline, rfl, hnewline, -⟩ := tokensOf_single.mp hts
    exact ⟨[], readStatements_of_closing stop hnewline hclosing, rfl⟩
  | cons node nodes ih =>
    rw [nodeGlyphs] at hts
    obtain ⟨hnode, hnodes⟩ := h
    obtain ⟨newline, us, rfl, ⟨hnewline, -⟩, hus⟩ := tokensOf_word.mp hts
    obtain ⟨p, q, rfl, hp, hq⟩ := tokensOf_append.mp hus
    obtain ⟨first, vs, rfl, hfirst, read, hread, hsame⟩ :=
      UiNode.IsPrintable.gives stop here node hnode hp (endsNode_of_tokensOf hq hclosing)
    obtain ⟨reads, hreads, hsame'⟩ := ih hnodes hq
    refine ⟨.node read :: reads, ?_, ?_⟩
    · rw [List.cons_append, List.append_assoc, List.cons_append]
      exact readStatements_of_gives stop hnewline hfirst
        (readStatement_of_gives stop hfirst hread) hreads
    · rw [List.map_cons, List.map_cons, List.map_cons, hsame', Statement.relocate,
        Statement.relocate, hsame]

/-- A component, from its name on. -/
theorem readItem_of_gives {word opening : Token} {body : List Statement}
    (hfirst : first.kind = .keyword .component) (hword : word.kind = .identifier)
    (hopening : opening.kind = .opening .brace) (hbody : Gives (readStatements stop ts) body rest) :
    Gives (readItem stop first (word :: opening :: ts))
      (.declaration (.component ⟨word.text, body, first.location.join word.location⟩)) rest := by
  have hbrace : Gives (expect stop (.opening .brace) (skipNewlines (opening :: ts))) opening
      ts := by
    rw [skipNewlines_of_ne (by simp [hopening])]
    exact expect_gives hopening
  have hcomponent : Gives (readComponent stop first (word :: opening :: ts))
      ⟨word.text, body, first.location.join word.location⟩ rest :=
    (expect_gives hword).bind fun _ => hbrace.bind fun _ => hbody.bind fun _ => gives_ok _
  have hdeclaration : Gives (readDeclaration stop first (word :: opening :: ts))
      (.component ⟨word.text, body, first.location.join word.location⟩) rest := by
    rw [readDeclaration, hfirst]
    exact hcomponent.bind fun _ => gives_ok _
  rw [readItem, hfirst]
  exact hdeclaration.bind fun _ => gives_ok _

/-- **A printed component is read back**, up to locations. -/
theorem ArePrintable.gives_readItem {name : String} {nodes : List UiNode} (h : ArePrintable nodes)
    (hts : TokensOf ts (componentGlyphs name nodes)) :
    ∃ first us, ts = first :: us ∧ first.kind = .keyword .component ∧
      GivesUpTo (Item.relocate fun _ => here) (readItem stop first us)
        (.declaration (.component ⟨name, nodes.map .node, here⟩)) [] := by
  obtain ⟨first, us, rfl, ⟨hfirst, -⟩, hus⟩ := tokensOf_word.mp hts
  obtain ⟨word, vs, rfl, ⟨hword, rfl⟩, hvs⟩ := tokensOf_word.mp (tokensOf_blank.mp hus)
  obtain ⟨opening, p, closing, rfl, hopening, hp, hclosing⟩ := (tokensOf_blank.mp hvs).of_braced
  obtain ⟨body, hbody, hsame⟩ := h.gives_readStatements stop here hp hclosing
  refine ⟨first, _, rfl, hfirst, _, readItem_of_gives stop hfirst hword hopening hbody, ?_⟩
  rw [Item.relocate, Item.relocate, Declaration.relocate, Declaration.relocate, Component.relocate,
    Component.relocate, hsame]

end Bodies

/-- **A printed component is parsed back.**  Nodes of any depth are printed one per line: attributes
as `key=value`, style properties in a `style` block, conditions with all their parentheses.  The
text has no lexical and no syntax fault, and it is one component with the given nodes in its body,
up to their locations: all locations are compared as `here`. -/
theorem parseSource_componentText (name : String) (nodes : List UiNode) (hname : IsName name)
    (hnodes : ArePrintable nodes) (here : Location) :
    (parseSource (componentText name nodes)).isClean = true ∧
      (parseSource (componentText name nodes)).program.items.map (Item.relocate fun _ => here) =
        [.declaration (.component
          ⟨name, nodes.map fun node => .node (node.relocate fun _ => here), here⟩)] := by
  -- scanning places the words of the glyphs; from here on their positions do not matter
  have hscan := scan_inked (fitsBefore_componentGlyphs hname hnodes)
  have hwords := tokensOf_placed Position.start (componentGlyphs name nodes)
  generalize placed Position.start (componentGlyphs name nodes) = ts at hscan hwords
  generalize (Position.start.advance (inked (componentGlyphs name nodes))).spanning 0 = loc at hscan
  obtain ⟨first, us, rfl, hfirst, item, ⟨suffix, hitem⟩, hsame⟩ :=
    hnodes.gives_readItem ⟨.eof, "", loc⟩ here hwords
  have hskip : skipNewlines (first :: us) = first :: us := skipNewlines_of_ne (by simp [hfirst])
  have hlist : readItemList ⟨.eof, "", loc⟩ (first :: us) = ⟨[item], []⟩ := by
    rw [readItemList_of_ok _ hskip hitem, readItemList_of_nil _ rfl]
  have hparsed : parseSource (componentText name nodes) = ⟨⟨[item]⟩, [], []⟩ := by
    rw [parseSource, componentText, hscan]
    simp only [readProgram, hlist]
  rw [hparsed]
  refine ⟨rfl, ?_⟩
  rw [List.map_singleton, hsame, Item.relocate, Declaration.relocate, Component.relocate,
    List.map_map]
  rfl

/-- A use of a component inside an element, and a loop inside the last branch of a conditional.  On
the component `color` is an attribute like any other. -/
theorem parseSource_nested_nodes :
    let here := Position.start.spanning 1
    let nodes : List UiNode :=
      [.element
        { name := "div", text := some "a",
          attributes := ⟨[("n", .number "-1"), ("on", .boolean true)]⟩,
          styles := ⟨[("font-size", "2px"), ("color", "red")]⟩ }
        [.component "Card" ⟨[("color", .text "x"), ("of", .identifier ⟨"user", ["name"]⟩)]⟩ [] here]
        here,
       .conditional (.compare .less (.path ⟨"n", []⟩) (.literal (.number "1"))) []
        (.elseIf (.not (.path ⟨"on", []⟩)) []
          (.otherwise [.loop "x" ⟨"xs", []⟩ [.element { name := "li" } [] here] here])) here]
    ArePrintable nodes ∧ (parseSource (componentText "C" nodes)).isClean = true ∧
      (parseSource (componentText "C" nodes)).program.items.map (Item.relocate fun _ => here) =
        [.declaration (.component ⟨"C", nodes.map .node, here⟩)] := by
  intro here nodes
  have hpath (name : String) (h : IsName name) : Path.IsLexable ⟨name, []⟩ := ⟨h, by simp⟩
  have hn : IsName "n" := isName_iff.mpr ⟨rfl, rfl⟩
  have hon : IsName "on" := isName_iff.mpr ⟨rfl, rfl⟩
  have hone : Word.IsWritten ⟨.number, "1"⟩ := .integer ['1'] (by simp) rfl
  have huser : Path.IsLexable ⟨"user", ["name"]⟩ :=
    ⟨isName_iff.mpr ⟨rfl, rfl⟩,
      List.forall_mem_singleton.mpr ⟨rfl, Spells.word "name".toList rfl⟩⟩
  have hdiv : ElementHead.IsPrintable
      { name := "div", text := some "a",
        attributes := ⟨[("n", .number "-1"), ("on", .boolean true)]⟩,
        styles := ⟨[("font-size", "2px"), ("color", "red")]⟩ } :=
    { name := isName_iff.mpr ⟨rfl, rfl⟩
      text := by simp
      keys_nodup := by simp [OrderedMap.keys]
      keys := List.forall_mem_cons.mpr
        ⟨⟨hn, by simp, rfl⟩, List.forall_mem_singleton.mpr ⟨hon, by simp, rfl⟩⟩
      values := List.forall_mem_cons.mpr
        ⟨.inr ⟨"1", rfl, hone⟩, List.forall_mem_singleton.mpr trivial⟩
      properties_nodup := by simp [OrderedMap.keys]
      properties := by simp }
  have hcard : ElementHead.IsPrintable
      { name := "Card",
        attributes := ⟨[("color", .text "x"), ("of", .identifier ⟨"user", ["name"]⟩)]⟩ } :=
    { name := isName_iff.mpr ⟨rfl, rfl⟩
      text := by simp
      keys_nodup := by simp [OrderedMap.keys]
      keys := List.forall_mem_cons.mpr
        ⟨⟨isName_iff.mpr ⟨rfl, rfl⟩, by simp, rfl⟩,
          List.forall_mem_singleton.mpr ⟨isName_iff.mpr ⟨rfl, rfl⟩, by simp, rfl⟩⟩
      values := List.forall_mem_cons.mpr
        ⟨show '"' ∉ ['x'] by simp, List.forall_mem_singleton.mpr huser⟩
      properties_nodup := List.nodup_nil
      properties := List.forall_mem_nil _ }
  have hli : ElementHead.IsPrintable { name := "li" } :=
    { name := isName_iff.mpr ⟨rfl, rfl⟩
      text := by simp
      keys_nodup := List.nodup_nil
      keys := List.forall_mem_nil _
      values := List.forall_mem_nil _
      properties_nodup := List.nodup_nil
      properties := List.forall_mem_nil _ }
  have hnodes : ArePrintable nodes := by
    refine ⟨⟨rfl, hdiv, ⟨rfl, hcard, trivial⟩, trivial⟩,
      ⟨⟨hpath "n" hn, .inl hone⟩, trivial, hpath "on" hon, trivial, ?_⟩, trivial⟩
    have hx : IsName "x" := isName_iff.mpr ⟨rfl, rfl⟩
    have hxs : IsName "xs" := isName_iff.mpr ⟨rfl, rfl⟩
    exact ⟨⟨hx, hpath "xs" hxs, ⟨rfl, hli, trivial⟩, trivial⟩, trivial⟩
  have hname : IsName "C" := isName_iff.mpr ⟨rfl, rfl⟩
  exact ⟨hnodes, parseSource_componentText "C" nodes hname hnodes here⟩

end UiLang
