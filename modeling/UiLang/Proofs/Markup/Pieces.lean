import UiLang.Proofs.Markup.Reading
import UiLang.Proofs.Source.Names

/-!
# Markup trees as pieces

What a reader of markup finds in a tree that was written: the pieces of the tree, whatever its
texts and values are.  Only names and comments are written as they are, so nothing more is asked of
a tree than that no tag has an attribute twice and that its comments are the known ones.

## Main definitions

* `Markup.isEscaped`: a text without markup
* `Markup.isNested`: every tag is closed, in the right order
* `Markup.Piece.IsSafe`: a piece of one of the known forms
* `Html.pieces`, `Html.forestPieces`: the pieces of a tree

## Main results

* `Html.pieces?_forestChars`: a safe tree is read back
* `Html.isNested_forestPieces`: trees are nested
-/

namespace UiLang

namespace Markup

/-! ## Safe pieces -/

/-- The entities that stand for characters with a meaning in markup. -/
def entities : List (List Char) :=
  ["&amp;", "&lt;", "&gt;", "&quot;", "&#039;"].map String.toList

/-- A text that holds no character with a meaning in markup, except an `&` that starts an
entity. -/
def isEscaped : List Char → Bool
  | [] => true
  | c :: cs =>
    (if c = '&' then entities.any (·.isPrefixOf (c :: cs))
      else !(['<', '>', '"', '\''].contains c)) && isEscaped cs

/-- Every tag is closed by one of the same name, and what is opened last is closed first.
`opened` are the tags still to be closed, innermost first. -/
def isNested : List (List Char) → List Piece → Bool
  | opened, [] => opened.isEmpty
  | opened, .opening name _ :: pieces => isNested (name :: opened) pieces
  | last :: opened, .closing name :: pieces => name == last && isNested opened pieces
  | [], .closing _ :: _ => false
  | opened, _ :: pieces => isNested opened pieces

/-- The names of tags with content. -/
def pairedTags : List (List Char) :=
  ["div", "p", "h1", "h2", "h3", "h4", "h5", "h6", "button", "a", "template", "textarea"].map
    String.toList

/-- The names of tags without content. -/
def voidTags : List (List Char) :=
  ["input", "img"].map String.toList

/-- The names of attributes. -/
def attributeNames : List (List Char) :=
  ["id", "class", "style", "type", "placeholder", "value", "src", "alt", "href", "target",
    "onclick", "data-template", "data-vars", "data-bind", "data-onchange", "data-condition",
    "data-dynamic-class", "data-loop", "data-item"].map String.toList

/-- The comments that markup holds.  Nothing in them is free but identifiers. -/
inductive IsComment : List Char → Prop
  | loopItems : IsComment " Loop items will be rendered here ".toList
  | missing {name : String} (named : IsIdentifier name) :
      IsComment (" Error: Component " ++ name ++ " not found ").toList
  | recursive {name : String} (named : IsIdentifier name) :
      IsComment (" Error: Component " ++ name ++ " cannot instantiate itself ").toList
  | withProps {name : String} {props : List String} (named : IsIdentifier name)
      (props_named : ∀ prop ∈ props, IsIdentifier prop) :
      IsComment (" Component " ++ name ++ " defined with props: " ++
        String.intercalate ", " props ++ " ").toList

/-- The attributes of a tag: known names, each at most once, and escaped values. -/
structure AreAttributes (attributes : List Attribute) : Prop where
  distinct : (attributes.map Prod.fst).Nodup
  known : ∀ a ∈ attributes, a.1 ∈ attributeNames
  escaped : ∀ a ∈ attributes, isEscaped a.2 = true

/-- A piece of one of the known forms, with escaped text. -/
def Piece.IsSafe : Piece → Prop
  | .text run => isEscaped run = true
  | .comment inner => IsComment inner
  | .opening name attributes => name ∈ pairedTags ∧ AreAttributes attributes
  | .void name attributes => name ∈ voidTags ∧ AreAttributes attributes
  | .closing name => name ∈ pairedTags

/-! ## Escaped text -/

theorem isEscaped_append {cs ds : List Char} (hcs : isEscaped cs = true)
    (hds : isEscaped ds = true) : isEscaped (cs ++ ds) = true := by
  induction cs with
  | nil => exact hds
  | cons c cs ih =>
    rw [isEscaped, Bool.and_eq_true] at hcs
    rw [List.cons_append, isEscaped, ih hcs.2, Bool.and_true, ← hcs.1]
    split
    · -- an entity that starts before the seam does not reach over it
      rename_i hc
      rw [if_pos hc] at hcs
      obtain ⟨entity, hentity, hprefix⟩ := List.any_eq_true.mp hcs.1
      have hmore := (List.isPrefixOf_iff_prefix.mp hprefix).trans (List.prefix_append (c :: cs) ds)
      rw [hcs.1]
      exact List.any_eq_true.mpr ⟨entity, hentity, List.isPrefixOf_iff_prefix.mpr hmore⟩
    · rfl

theorem isEscaped_escapeChar (c : Char) : isEscaped (Html.escapeChar c) = true := by
  unfold Html.escapeChar Html.entity?
  -- five characters become entities, and what is left is none of them
  split <;> rename_i heq
  · split at heq <;> cases heq <;> decide
  · split at heq <;> simp_all [isEscaped]

theorem isEscaped_escapeChars (cs : List Char) : isEscaped (Html.escapeChars cs) = true := by
  induction cs with
  | nil => rfl
  | cons c cs ih => exact isEscaped_append (isEscaped_escapeChar c) ih

theorem not_mem_of_isEscaped {cs : List Char} (h : isEscaped cs = true) {c : Char}
    (hc : c ∈ ['<', '>', '"', '\'']) : c ∉ cs := by
  induction cs with
  | nil => exact List.not_mem_nil
  | cons d cs ih =>
    rw [isEscaped, Bool.and_eq_true] at h
    rintro (_ | ⟨_, hmem⟩)
    · split at h
      · subst c
        exact absurd hc (by decide)
      · simp_all
    · exact ih h.2 hmem

/-! ## Safe pieces are read back -/

theorem mem_intercalate {c : Char} {gap : List Char} {texts : List (List Char)}
    (h : c ∈ gap.intercalate texts) : c ∈ gap ∨ ∃ text ∈ texts, c ∈ text := by
  induction texts with
  | nil => cases h
  | cons text texts ih =>
    cases texts with
    | nil =>
      rw [List.intercalate_singleton] at h
      exact .inr ⟨text, List.mem_cons_self, h⟩
    | cons next texts =>
      rw [List.intercalate_cons_cons, List.mem_append, List.mem_append] at h
      rcases h with (h | h) | h
      · exact .inr ⟨text, List.mem_cons_self, h⟩
      · exact .inl h
      · rcases ih h with hgap | ⟨other, hother, hc⟩
        · exact .inl hgap
        · exact .inr ⟨other, List.mem_cons_of_mem _ hother, hc⟩

/-- A character that comments are made of: one of an identifier, or one between words. -/
def isCommentChar (c : Char) : Bool :=
  isIdentifierChar c || [' ', ',', ':'].contains c

theorem IsComment.all_isCommentChar {inner : List Char} (h : IsComment inner) :
    inner.all isCommentChar = true := by
  have hname {name : String} (named : IsIdentifier name) : name.toList.all isCommentChar = true :=
    List.all_eq_true.mpr fun c hc =>
      Bool.or_eq_true_iff.mpr (.inl (named.isIdentifierChar c hc))
  cases h with
  | loopItems => decide
  | missing named =>
    simp only [String.toList_append, List.all_append, Bool.and_eq_true]
    exact ⟨⟨by decide, hname named⟩, by decide⟩
  | recursive named =>
    simp only [String.toList_append, List.all_append, Bool.and_eq_true]
    exact ⟨⟨by decide, hname named⟩, by decide⟩
  | withProps named props_named =>
    simp only [String.toList_append, String.toList_intercalate, List.all_append, Bool.and_eq_true]
    refine ⟨⟨⟨⟨by decide, hname named⟩, by decide⟩, ?_⟩, by decide⟩
    have hgap : ", ".toList.all isCommentChar = true := by decide
    refine List.all_eq_true.mpr fun c hc => ?_
    rcases mem_intercalate hc with hmem | ⟨text, htext, hmem⟩
    · exact List.all_eq_true.mp hgap c hmem
    · obtain ⟨prop, hprop, rfl⟩ := List.mem_map.mp htext
      exact List.all_eq_true.mp (hname (props_named prop hprop)) c hmem

theorem IsComment.notMem {inner : List Char} (h : IsComment inner) {c : Char}
    (hc : isCommentChar c = false) : c ∉ inner := fun hmem =>
  absurd (List.all_eq_true.mp h.all_isCommentChar c hmem) (Bool.eq_false_iff.mp hc)

theorem isName_of_mem {names : List (List Char)} {name : List Char}
    (hnames : names.all (fun name => !name.isEmpty && name.all isNameChar) = true)
    (h : name ∈ names) : IsName name := by
  have hname := List.all_eq_true.mp hnames name h
  rw [Bool.and_eq_true, List.all_eq_true] at hname
  exact ⟨by simpa using hname.1, hname.2⟩

theorem AreAttributes.isAttribute {attributes : List Attribute} (h : AreAttributes attributes) :
    ∀ a ∈ attributes, IsAttribute a := by
  intro a ha
  exact ⟨isName_of_mem (by decide) (h.known a ha),
    not_mem_of_isEscaped (h.escaped a ha) (by decide)⟩

theorem Piece.IsSafe.isWritten {piece : Piece} (h : piece.IsSafe) : piece.IsWritten := by
  cases piece with
  | text run => exact not_mem_of_isEscaped h (by decide)
  | comment inner => exact h.notMem (by decide)
  | opening name attributes => exact ⟨isName_of_mem (by decide) h.1, h.2.isAttribute⟩
  | void name attributes => exact ⟨isName_of_mem (by decide) h.1, h.2.isAttribute⟩
  | closing name => exact isName_of_mem (by decide) h

/-! ## Joined texts -/

theorem isSafe_addTo {piece : Piece} {pieces : List Piece} (hpiece : piece.IsSafe)
    (h : ∀ other ∈ pieces, other.IsSafe) : ∀ other ∈ piece.addTo pieces, other.IsSafe := by
  unfold Piece.addTo
  split
  · exact h
  · obtain ⟨hnext, hrest⟩ := List.forall_mem_cons.mp h
    exact List.forall_mem_cons.mpr ⟨isEscaped_append hpiece hnext, hrest⟩
  · exact List.forall_mem_cons.mpr ⟨hpiece, h⟩

theorem isSafe_joined {pieces : List Piece} (h : ∀ piece ∈ pieces, piece.IsSafe) :
    ∀ piece ∈ joined pieces, piece.IsSafe := by
  induction pieces with
  | nil => exact h
  | cons piece pieces ih =>
    obtain ⟨hpiece, hpieces⟩ := List.forall_mem_cons.mp h
    exact isSafe_addTo hpiece (ih hpieces)

@[simp] theorem isNested_text (opened : List (List Char)) (run : List Char)
    (pieces : List Piece) : isNested opened (.text run :: pieces) = isNested opened pieces := by
  cases opened <;> rfl

theorem isNested_addTo (opened : List (List Char)) (piece : Piece) (pieces : List Piece) :
    isNested opened (piece.addTo pieces) = isNested opened (piece :: pieces) := by
  unfold Piece.addTo
  split
  · rw [isNested_text]
  · rw [isNested_text, isNested_text, isNested_text]
  · rfl

theorem isNested_cons_congr {pieces others : List Piece}
    (h : ∀ opened, isNested opened pieces = isNested opened others) (opened : List (List Char))
    (piece : Piece) : isNested opened (piece :: pieces) = isNested opened (piece :: others) := by
  cases piece <;> cases opened <;> simp only [isNested, h]

theorem isNested_joined (opened : List (List Char)) (pieces : List Piece) :
    isNested opened (joined pieces) = isNested opened pieces := by
  induction pieces generalizing opened with
  | nil => rfl
  | cons piece pieces ih =>
    rw [joined, List.foldr_cons, isNested_addTo]
    exact isNested_cons_congr ih opened piece

end Markup

/-! ## Trees -/

namespace Html

open Markup

/-- An attribute of a tree as it is written. -/
def attributePiece (a : HtmlAttribute) : Attribute :=
  (a.name.name.toList, escapeChars a.value.toList)

mutual

/-- The pieces of a tree.  Texts that stand next to each other are pieces of their own. -/
def pieces : Html → List Piece
  | .text s => [.text (escapeChars s.toList)]
  | .comment s => [.comment s.toList]
  | .element tag attributes children =>
    .opening tag.name.toList (attributes.map attributePiece) ::
      (forestPieces children ++ [.closing tag.name.toList])
  | .void tag attributes => [.void tag.name.toList (attributes.map attributePiece)]

/-- The pieces of trees, one after another. -/
def forestPieces : List Html → List Piece
  | [] => []
  | html :: rest => html.pieces ++ forestPieces rest

end

theorem flatMap_attributeChars (attributes : List HtmlAttribute) :
    (attributes.map attributePiece).flatMap attributeChars =
      attributes.flatMap HtmlAttribute.chars := by
  rw [List.flatMap_map]
  rfl

mutual

theorem flatMap_chars_pieces : (html : Html) → html.pieces.flatMap Piece.chars = html.chars
  | .text s => by
    rw [pieces, chars, List.flatMap_singleton, Piece.chars]
  | .comment s => by
    rw [pieces, chars, List.flatMap_singleton, Piece.chars]
  | .element tag attributes children => by
    rw [pieces, chars, List.flatMap_cons, List.flatMap_append, flatMap_chars_forestPieces children,
      List.flatMap_singleton, Piece.chars, Piece.chars, flatMap_attributeChars]
    simp only [List.append_assoc]
  | .void tag attributes => by
    rw [pieces, chars, List.flatMap_singleton, Piece.chars, flatMap_attributeChars]

theorem flatMap_chars_forestPieces :
    (forest : List Html) → (forestPieces forest).flatMap Piece.chars = forestChars forest
  | [] => rfl
  | html :: rest => by
    rw [forestPieces, forestChars, List.flatMap_append, flatMap_chars_pieces html,
      flatMap_chars_forestPieces rest]

end

/-- **A safe tree is read back**: whatever its texts and values hold, what is found in the markup
are its own tags and comments. -/
theorem pieces?_forestChars {forest : List Html}
    (h : ∀ piece ∈ forestPieces forest, piece.IsSafe) :
    pieces? (forestChars forest) = some (joined (forestPieces forest)) := by
  rw [← flatMap_chars_forestPieces]
  exact pieces?_flatMap_chars fun piece hpiece => (h piece hpiece).isWritten

mutual

theorem isNested_pieces_append (opened : List (List Char)) (after : List Piece) :
    (html : Html) → isNested opened (html.pieces ++ after) = isNested opened after
  | .text s => by cases opened <;> rfl
  | .comment s => by cases opened <;> rfl
  | .element tag attributes children => by
    -- the children leave the tag on top, and the closing tag takes it off
    rw [pieces, List.cons_append, isNested, List.append_assoc,
      isNested_forestPieces_append _ _ children, List.singleton_append, isNested, beq_self_eq_true,
      Bool.true_and]
  | .void tag attributes => by cases opened <;> rfl

theorem isNested_forestPieces_append (opened : List (List Char)) (after : List Piece) :
    (forest : List Html) →
      isNested opened (forestPieces forest ++ after) = isNested opened after
  | [] => rfl
  | html :: rest => by
    rw [forestPieces, List.append_assoc, isNested_pieces_append opened _ html,
      isNested_forestPieces_append opened after rest]

end

/-- Trees are nested. -/
theorem isNested_forestPieces (forest : List Html) :
    isNested [] (forestPieces forest) = true := by
  rw [← List.append_nil (forestPieces forest), isNested_forestPieces_append]
  rfl

end Html

end UiLang
