import UiLang.Proofs.Condition.Written
import UiLang.Program.Basic
import UiLang.Ui.Attribute

/-!
# Nodes as they are printed

A component is printed with one node per line: attributes as `key=value`, style properties in a
`style` block, conditions with all their parentheses, and blocks in braces.  Printing is glyph by
glyph, so the text and the words in it come from the same list.

Nodes are printable when every part of them can be written as a word: names are identifiers, texts
and style properties have no quote inside, and no attribute is read as a style property.  The text
of printable nodes is scanned back into the words that it was put together from.

## Main definitions

* `AttributeValue.IsPrintable`, `ElementHead.IsPrintable`, `UiNode.IsPrintable`: what can be printed
* `AttributeValue.glyphs`, `ElementHead.glyphs`, `UiNode.glyphs`: how it is printed
* `componentText`: a component as text

## Main results

* `ElementHead.IsPrintable.fitsBefore`, `UiNode.IsPrintable.fitsBefore`: printed nodes are scanned
  back, wherever they stand
* `fitsBefore_componentGlyphs`: so is a component
-/

namespace UiLang

/-! ## What can be printed -/

/-- An identifier that is no reserved word. -/
def IsName (text : String) : Prop :=
  Word.IsWritten ⟨.identifier, text⟩

theorem isName_iff {text : String} :
    IsName text ↔ isIdentifier text.toList = true ∧ wordKind text = .identifier := by
  constructor
  · intro h
    obtain ⟨hkind, hletters⟩ := Word.IsWritten.of_isLettered h rfl (by simp)
    exact ⟨hletters, hkind⟩
  · rintro ⟨hletters, hkind⟩
    have hspells := Spells.word text.toList hletters
    rw [String.ofList_toList, hkind] at hspells
    exact hspells

/-- Texts, numbers, booleans and paths that can be written. -/
def AttributeValue.IsPrintable : AttributeValue → Prop
  | .text s => (Literal.string s).IsLexable
  | .number s => (Literal.number s).IsLexable
  | .boolean value => (Literal.boolean value).IsLexable
  | .identifier p => p.IsLexable
  | .call _ _ => False
  | .classMap _ => False

/-- An element header whose parts can be written: no key stands twice, texts and style properties
have no quote inside, and no attribute is read as a style property. -/
structure ElementHead.IsPrintable (head : ElementHead) : Prop where
  name : IsName head.name
  text : ∀ text ∈ head.text, '"' ∉ text.toList
  keys_nodup : head.attributes.keys.Nodup
  keys : ∀ key ∈ head.attributes.keys, IsName key ∧ key ≠ "style" ∧ head.styleProperty? key = none
  values : ∀ entry ∈ head.attributes.entries, entry.2.IsPrintable
  properties_nodup : head.styles.keys.Nodup
  properties : ∀ entry ∈ head.styles.entries, '"' ∉ entry.1.toList ∧ '"' ∉ entry.2.toList

mutual

/-- The names of components start with a capital letter, those of elements do not.  Conditions and
paths have lexable leaves. -/
def UiNode.IsPrintable : UiNode → Prop
  | .element head children _ =>
    isComponentName head.name = false ∧ head.IsPrintable ∧ ArePrintable children
  | .component name attributes children _ =>
    isComponentName name = true ∧ ElementHead.IsPrintable { name, attributes } ∧
      ArePrintable children
  | .conditional condition body rest _ =>
    condition.IsLexable ∧ ArePrintable body ∧ rest.IsPrintable
  | .loop item array body _ => IsName item ∧ array.IsLexable ∧ ArePrintable body

def ElseChain.IsPrintable : ElseChain → Prop
  | .done => True
  | .elseIf condition body rest => condition.IsLexable ∧ ArePrintable body ∧ rest.IsPrintable
  | .otherwise body => ArePrintable body

def ArePrintable : List UiNode → Prop
  | [] => True
  | node :: nodes => node.IsPrintable ∧ ArePrintable nodes

end

/-! ## How it is printed -/

def AttributeValue.glyphs : AttributeValue → List Glyph
  | .text s => (Literal.string s).glyphs
  | .number s => (Literal.number s).glyphs
  | .boolean value => (Literal.boolean value).glyphs
  | .identifier p => p.glyphs
  | .call _ _ => []
  | .classMap _ => []

/-- Attributes, each after a blank. -/
def attributeGlyphs : List (String × AttributeValue) → List Glyph
  | [] => []
  | (key, value) :: entries =>
    .blank :: .word ⟨.identifier, key⟩ :: .word ⟨.assign, "="⟩ ::
      (value.glyphs ++ attributeGlyphs entries)

/-- Glyphs in braces. -/
def braced (glyphs : List Glyph) : List Glyph :=
  .word ⟨.opening .brace, "\x7b"⟩ :: (glyphs ++ [.word ⟨.closing .brace, "\x7d"⟩])

/-- A style property and its value. -/
def propertyGlyphs (entry : String × String) : List Glyph :=
  [.word ⟨.string, entry.1⟩, .word ⟨.colon, ":"⟩, .blank, .word ⟨.string, entry.2⟩]

/-- Style properties after the first one. -/
def morePropertyGlyphs : List (String × String) → List Glyph
  | [] => []
  | entry :: entries =>
    .word ⟨.comma, ","⟩ :: .blank :: (propertyGlyphs entry ++ morePropertyGlyphs entries)

/-- The `style` attribute, if there are style properties. -/
def styleGlyphs : List (String × String) → List Glyph
  | [] => []
  | entry :: entries =>
    .blank :: .word ⟨.identifier, "style"⟩ :: .word ⟨.assign, "="⟩ ::
      braced (.blank :: (propertyGlyphs entry ++ morePropertyGlyphs entries) ++ [.blank])

/-- The string after the name of an element, if there is one. -/
def textGlyphs : Option String → List Glyph
  | none => []
  | some text => [.blank, .word ⟨.string, text⟩]

def ElementHead.glyphs (head : ElementHead) : List Glyph :=
  .word ⟨.identifier, head.name⟩ ::
    (textGlyphs head.text ++ (attributeGlyphs head.attributes.entries ++
      styleGlyphs head.styles.entries))

/-- A block after something else on its line. -/
def blockGlyphs (inner : List Glyph) : List Glyph :=
  .blank :: braced inner

mutual

/-- A node, without the end of its line. -/
def UiNode.glyphs : UiNode → List Glyph
  | .element head children _ =>
    head.glyphs ++ if children.isEmpty then [] else blockGlyphs (nodeGlyphs children)
  | .component name attributes children _ =>
    ElementHead.glyphs { name, attributes } ++
      if children.isEmpty then [] else blockGlyphs (nodeGlyphs children)
  | .conditional condition body rest _ =>
    .word ⟨.keyword .ifWord, "if"⟩ :: .blank ::
      (condition.glyphs ++ (blockGlyphs (nodeGlyphs body) ++ rest.glyphs))
  | .loop item array body _ =>
    .word ⟨.keyword .forWord, "for"⟩ :: .blank :: .word ⟨.identifier, item⟩ :: .blank ::
      .word ⟨.keyword .inWord, "in"⟩ :: .blank ::
        (array.glyphs ++ blockGlyphs (nodeGlyphs body))

/-- Later branches stand on the line of the brace before them. -/
def ElseChain.glyphs : ElseChain → List Glyph
  | .done => []
  | .elseIf condition body rest =>
    .blank :: .word ⟨.keyword .elseIf, "else if"⟩ :: .blank ::
      (condition.glyphs ++ (blockGlyphs (nodeGlyphs body) ++ rest.glyphs))
  | .otherwise body =>
    .blank :: .word ⟨.keyword .elseWord, "else"⟩ :: blockGlyphs (nodeGlyphs body)

/-- Nodes inside braces, each on a line of its own. -/
def nodeGlyphs : List UiNode → List Glyph
  | [] => [.word ⟨.newline, "\n"⟩]
  | node :: nodes => .word ⟨.newline, "\n"⟩ :: (node.glyphs ++ nodeGlyphs nodes)

end

def componentGlyphs (name : String) (nodes : List UiNode) : List Glyph :=
  .word ⟨.keyword .component, "component"⟩ :: .blank :: .word ⟨.identifier, name⟩ ::
    blockGlyphs (nodeGlyphs nodes)

/-- A component with nothing but nodes in its body, as text. -/
def componentText (name : String) (nodes : List UiNode) : String :=
  String.ofList (inked (componentGlyphs name nodes))

example (loc : Location) :
    componentText "C"
      [.element
        { name := "a", text := some "t", attributes := ⟨[("n", .number "-1")]⟩,
          styles := ⟨[("p", "v"), ("q", "w")]⟩ }
        [.loop "x" ⟨"xs", ["all"]⟩ [] loc] loc,
       .conditional (.not (.path ⟨"b", []⟩)) [.component "D" ∅ [] loc] (.otherwise []) loc] =
      "component C \x7b\n" ++
      "a \"t\" n=-1 style=\x7b \"p\": \"v\", \"q\": \"w\" \x7d \x7b\n" ++
      "for x in xs.all \x7b\n\x7d\n" ++
      "\x7d\n" ++
      "if (!b) \x7b\nD\n\x7d else \x7b\n\x7d\n" ++
      "\x7d" := by
  rfl

/-! ## The text is scanned back -/

section Fits

variable {after : List Char}

theorem breaks_newline : Breaks ('\n' :: after) :=
  breaks_cons (by decide) (by decide) (by decide) (by decide)

theorem isWritten_text {text : String} (h : '"' ∉ text.toList) :
    Word.IsWritten ⟨.string, text⟩ := by
  have hwritten := isWritten_string h
  rwa [String.ofList_toList] at hwritten

/-- Glyphs that may stand after any word, in front of whatever breaks off their last one. -/
def Follows (glyphs : List Glyph) : Prop :=
  ∀ after, Breaks after → FitsBefore after glyphs ∧ Breaks (inked glyphs ++ after)

theorem follows_nil : Follows [] :=
  fun _ hafter => ⟨trivial, hafter⟩

theorem Follows.append {first second : List Glyph} (hfirst : Follows first)
    (hsecond : Follows second) : Follows (first ++ second) := by
  intro after hafter
  obtain ⟨hfits, hbreaks⟩ := hsecond after hafter
  obtain ⟨hfits', hbreaks'⟩ := hfirst _ hbreaks
  rw [inked_append, List.append_assoc]
  exact ⟨fitsBefore_append.mpr ⟨hfits', hfits⟩, hbreaks'⟩

/-- A blank and a word that goes on neither with what is before it nor with what is after it. -/
theorem follows_blank {w : Word} {glyphs : List Glyph} (hw : w.IsWritten)
    (hkind : w.kind ≠ .keyword .ifWord)
    (h : ∀ after, Breaks after → w.EndsBefore (inked glyphs ++ after) ∧ FitsBefore after glyphs) :
    Follows (.blank :: .word w :: glyphs) := by
  intro after hafter
  obtain ⟨hends, hfits⟩ := h after hafter
  refine ⟨⟨hw, hends, hfits⟩, ?_⟩
  rw [inked_blank, inked_word, List.cons_append, List.append_assoc]
  exact breaks_blank hw hkind hends.letters

theorem AttributeValue.IsPrintable.fitsBefore {value : AttributeValue} (h : value.IsPrintable)
    (hafter : Breaks after) : FitsBefore after value.glyphs := by
  cases value with
  | text s => exact (show (Literal.string s).IsLexable from h).fitsBefore hafter
  | number s => exact (show (Literal.number s).IsLexable from h).fitsBefore hafter
  | boolean b => exact (show (Literal.boolean b).IsLexable from h).fitsBefore hafter
  | identifier p => exact Path.IsLexable.fitsBefore h hafter
  | call name arguments => exact h.elim
  | classMap classes => exact h.elim

theorem AttributeValue.IsPrintable.opens {value : AttributeValue} (h : value.IsPrintable) :
    Opens value.glyphs := by
  cases value with
  | number s => exact opens_numberGlyphs s
  | call name arguments => exact h.elim
  | classMap classes => exact h.elim
  | _ => exact ⟨_, _, rfl, by simp, by simp⟩

/-- A key, the sign after it, and a value that does not start with the same sign. -/
theorem follows_assignment {key : String} {glyphs : List Glyph} (hkey : IsName key)
    (hglyphs : ∀ after, Breaks after → FitsBefore after glyphs) (hopens : Opens glyphs) :
    Follows (.blank :: .word ⟨.identifier, key⟩ :: .word ⟨.assign, "="⟩ :: glyphs) := by
  refine follows_blank hkey (by simp) fun after hafter => ?_
  have hfits := hglyphs after hafter
  refine ⟨?_, isWritten_mark (by decide), ?_, hfits⟩
  · exact Word.endsBefore_of_isLettered rfl (lacks_cons.mpr (by decide)) nofun
  · exact ⟨nofun, nofun, nofun, nofun, fun _ => hfits.lacks_equals hopens⟩

theorem follows_attributeGlyphs {entries : List (String × AttributeValue)}
    (hkeys : ∀ key ∈ entries.map (·.1), IsName key)
    (hvalues : ∀ entry ∈ entries, entry.2.IsPrintable) : Follows (attributeGlyphs entries) := by
  induction entries with
  | nil => exact follows_nil
  | cons entry entries ih =>
    obtain ⟨key, value⟩ := entry
    obtain ⟨hkey, hkeys⟩ := List.forall_mem_cons.mp hkeys
    obtain ⟨hvalue, hvalues⟩ := List.forall_mem_cons.mp hvalues
    exact (follows_assignment hkey (fun _ => hvalue.fitsBefore) hvalue.opens).append
      (ih hkeys hvalues)

theorem fitsBefore_braced {glyphs : List Glyph} (h : FitsBefore ('\x7d' :: after) glyphs) :
    FitsBefore after (braced glyphs) := by
  refine ⟨isWritten_mark (by decide), Word.endsBefore_any rfl (by simp) rfl, ?_⟩
  refine fitsBefore_append.mpr ⟨h, isWritten_mark (by decide), ?_, trivial⟩
  exact Word.endsBefore_any rfl (by simp) rfl

theorem fitsBefore_propertyGlyphs {entry : String × String}
    (h : '"' ∉ entry.1.toList ∧ '"' ∉ entry.2.toList) :
    FitsBefore after (propertyGlyphs entry) := by
  refine ⟨isWritten_text h.1, ?_, isWritten_mark (by decide), ?_, isWritten_text h.2, ?_, trivial⟩
  · exact Word.endsBefore_any rfl (by simp) rfl
  · exact Word.endsBefore_any rfl (by simp) rfl
  · exact Word.endsBefore_any rfl (by simp) rfl

theorem fitsBefore_morePropertyGlyphs {entries : List (String × String)}
    (h : ∀ entry ∈ entries, '"' ∉ entry.1.toList ∧ '"' ∉ entry.2.toList) :
    FitsBefore after (morePropertyGlyphs entries) := by
  induction entries with
  | nil => trivial
  | cons entry entries ih =>
    obtain ⟨hentry, hentries⟩ := List.forall_mem_cons.mp h
    refine ⟨isWritten_mark (by decide), Word.endsBefore_any rfl (by simp) rfl, ?_⟩
    exact fitsBefore_append.mpr ⟨fitsBefore_propertyGlyphs hentry, ih hentries⟩

theorem follows_styleGlyphs {entries : List (String × String)}
    (h : ∀ entry ∈ entries, '"' ∉ entry.1.toList ∧ '"' ∉ entry.2.toList) :
    Follows (styleGlyphs entries) := by
  cases entries with
  | nil => exact follows_nil
  | cons entry entries =>
    obtain ⟨hentry, hentries⟩ := List.forall_mem_cons.mp h
    refine follows_assignment (isName_iff.mpr ⟨rfl, rfl⟩) (fun after _ => ?_)
      ⟨_, _, rfl, by simp, by simp⟩
    refine fitsBefore_braced (fitsBefore_append.mpr ⟨?_, trivial⟩)
    exact fitsBefore_append.mpr
      ⟨fitsBefore_propertyGlyphs hentry, fitsBefore_morePropertyGlyphs hentries⟩

theorem follows_textGlyphs {text : Option String} (h : ∀ t ∈ text, '"' ∉ t.toList) :
    Follows (textGlyphs text) := by
  cases text with
  | none => exact follows_nil
  | some text =>
    exact follows_blank (isWritten_text (h text rfl)) (by simp) fun _ hafter => ⟨hafter _, trivial⟩

/-- **A printed element header is scanned back**, wherever it stands. -/
theorem ElementHead.IsPrintable.fitsBefore {head : ElementHead} (h : head.IsPrintable)
    (hafter : Breaks after) : FitsBefore after head.glyphs := by
  have hattributes : Follows (attributeGlyphs head.attributes.entries) :=
    follows_attributeGlyphs (fun key hkey => (h.keys key hkey).1) h.values
  obtain ⟨hfits, hbreaks⟩ := (follows_textGlyphs h.text).append
    (hattributes.append (follows_styleGlyphs h.properties)) after hafter
  exact ⟨h.name, hbreaks _, hfits⟩

/-- A block may stand after any word, and any text may stand after it. -/
theorem fitsBefore_blockGlyphs {inner : List Glyph} (h : ∀ after, FitsBefore after inner)
    (after : List Char) :
    FitsBefore after (blockGlyphs inner) ∧ Breaks (inked (blockGlyphs inner) ++ after) := by
  refine ⟨fitsBefore_braced (h _), ?_⟩
  have hbrace : Word.IsWritten ⟨.opening .brace, "\x7b"⟩ := isWritten_mark (by decide)
  exact breaks_blank hbrace (by simp) nofun

/-- The children of an element. -/
theorem follows_children {inner : List Glyph} (h : ∀ after, FitsBefore after inner) (b : Bool) :
    Follows (if b then [] else blockGlyphs inner) := by
  cases b with
  | true => exact follows_nil
  | false => exact fun after _ => fitsBefore_blockGlyphs h after

/-- A condition, a block and the branches after it. -/
theorem fitsBefore_branch {condition : Condition} {inner more : List Glyph}
    (hcondition : condition.IsLexable) (hinner : ∀ after, FitsBefore after inner)
    (hmore : FitsBefore after more) :
    FitsBefore after (condition.glyphs ++ (blockGlyphs inner ++ more)) := by
  obtain ⟨hfits, hbreaks⟩ := fitsBefore_blockGlyphs hinner (inked more ++ after)
  refine fitsBefore_append.mpr ⟨hcondition.fitsBefore ?_, fitsBefore_append.mpr ⟨hfits, hmore⟩⟩
  rwa [inked_append, List.append_assoc]

end Fits

mutual

/-- **A printed node is scanned back**, wherever it stands. -/
theorem UiNode.IsPrintable.fitsBefore : (node : UiNode) → node.IsPrintable →
    ∀ {after : List Char}, Breaks after → FitsBefore after node.glyphs
  | .element head children loc, ⟨_, hhead, hchildren⟩, after, hafter => by
    obtain ⟨hfits, hbreaks⟩ := follows_children
      (ArePrintable.fitsBefore children hchildren) children.isEmpty after hafter
    rw [UiNode.glyphs]
    exact fitsBefore_append.mpr ⟨hhead.fitsBefore hbreaks, hfits⟩
  | .component name attributes children loc, ⟨_, hhead, hchildren⟩, after, hafter => by
    obtain ⟨hfits, hbreaks⟩ := follows_children
      (ArePrintable.fitsBefore children hchildren) children.isEmpty after hafter
    rw [UiNode.glyphs]
    exact fitsBefore_append.mpr ⟨hhead.fitsBefore hbreaks, hfits⟩
  | .conditional condition body rest loc, ⟨hcondition, hbody, hrest⟩, after, _ => by
    rw [UiNode.glyphs]
    -- the node ends with a closing brace, so anything may follow it
    refine ⟨Spells.word "if".toList (by decide), Word.endsBefore_blank (by simp) _, ?_⟩
    exact fitsBefore_branch hcondition (ArePrintable.fitsBefore body hbody)
      (ElseChain.IsPrintable.fitsBefore rest hrest after)
  | .loop item array body loc, ⟨hitem, harray, hbody⟩, after, _ => by
    obtain ⟨hfits, hbreaks⟩ :=
      fitsBefore_blockGlyphs (ArePrintable.fitsBefore body hbody) after
    rw [UiNode.glyphs]
    refine ⟨Spells.word "for".toList (by decide), Word.endsBefore_blank (by simp) _, hitem,
      Word.endsBefore_blank (by simp) _, Spells.word "in".toList (by decide),
      Word.endsBefore_blank (by simp) _, ?_⟩
    exact fitsBefore_append.mpr ⟨harray.fitsBefore hbreaks, hfits⟩

/-- Later branches end with a brace, so any text may stand after them. -/
theorem ElseChain.IsPrintable.fitsBefore : (chain : ElseChain) → chain.IsPrintable →
    ∀ after : List Char, FitsBefore after chain.glyphs
  | .done, _, _ => trivial
  | .elseIf condition body rest, ⟨hcondition, hbody, hrest⟩, after => by
    rw [ElseChain.glyphs]
    refine ⟨Spells.elseIf [' '] (by simp) (by decide), Word.endsBefore_blank (by simp) _, ?_⟩
    exact fitsBefore_branch hcondition (ArePrintable.fitsBefore body hbody)
      (ElseChain.IsPrintable.fitsBefore rest hrest after)
  | .otherwise body, hbody, after => by
    obtain ⟨hfits, hbreaks⟩ :=
      fitsBefore_blockGlyphs (ArePrintable.fitsBefore body hbody) after
    rw [ElseChain.glyphs]
    exact ⟨Spells.word "else".toList (by decide), hbreaks _, hfits⟩

/-- Lines end with a newline, so any text may stand after them. -/
theorem ArePrintable.fitsBefore : (nodes : List UiNode) → ArePrintable nodes →
    ∀ after : List Char, FitsBefore after (nodeGlyphs nodes)
  | [], _, after => by
    rw [nodeGlyphs]
    exact ⟨.newline, Word.endsBefore_any rfl (by simp) rfl, trivial⟩
  | node :: nodes, ⟨hnode, hnodes⟩, after => by
    rw [nodeGlyphs]
    refine ⟨.newline, Word.endsBefore_any rfl (by simp) rfl, ?_⟩
    refine fitsBefore_append.mpr ⟨UiNode.IsPrintable.fitsBefore node hnode ?_,
      ArePrintable.fitsBefore nodes hnodes after⟩
    -- the next line starts with a newline
    cases nodes with
    | nil => exact breaks_newline
    | cons next nodes => exact breaks_newline

end

/-- **A printed component is scanned back.** -/
theorem fitsBefore_componentGlyphs {name : String} {nodes : List UiNode} (hname : IsName name)
    (hnodes : ArePrintable nodes) : FitsBefore [] (componentGlyphs name nodes) := by
  obtain ⟨hfits, hbreaks⟩ := fitsBefore_blockGlyphs (ArePrintable.fitsBefore nodes hnodes) []
  exact ⟨Spells.word "component".toList (by decide), Word.endsBefore_blank (by simp) _, hname,
    hbreaks _, hfits⟩

end UiLang
