import UiLang.Html.Basic
import UiLang.Proofs.Scan.Lexemes

/-!
# Reading markup back

A reader of markup takes text up to the next `<`, a comment up to the next `-->`, a name up to the
first character that is not part of one, and a value up to the next quote.  It knows nothing of how
the markup came about: whatever stands in a text, a value or a comment can end it, or start a tag.

## Main definitions

* `Markup.Piece`, `Markup.pieces?`: the pieces of markup text
* `Markup.Piece.IsWritten`: pieces that nothing in them ends too early
* `Markup.joined`: pieces with neighbouring texts joined

## Main results

* `Markup.pieces?_chars_append`: a piece in front of any text is read back
* `Markup.pieces?_flatMap_chars`: pieces that are written well are read back
-/

namespace UiLang.Markup

/-- The name and the value of an attribute, as they are written. -/
abbrev Attribute := List Char × List Char

/-- A piece of markup text: a run of text, a comment, or a tag that opens or closes something or
does both. -/
inductive Piece where
  | text (run : List Char)
  | comment (inner : List Char)
  | opening (name : List Char) (attributes : List Attribute)
  | void (name : List Char) (attributes : List Attribute)
  | closing (name : List Char)
  deriving DecidableEq, Repr

/-! ## The reader -/

/-- A character of the name of a tag or an attribute. -/
def isNameChar (c : Char) : Bool :=
  c.isAlphanum || c == '-'

/-- The comment in front of a text, up to its end, and what follows. -/
def comment? : List Char → Option (Piece × List Char)
  | [] => none
  | c :: cs =>
    if ['-', '-', '>'].isPrefixOf (c :: cs) then some (.comment [], cs.drop 2)
    else
      match comment? cs with
      | some (.comment inner, rest) => some (.comment (c :: inner), rest)
      | _ => none

/-- The attribute in front of a text, after the blank that is in front of it, and what follows. -/
def attribute? (cs : List Char) : Option (Attribute × List Char) :=
  match cs.dropWhile isNameChar with
  | '=' :: '"' :: quoted =>
    match quoted.dropWhile (· != '"') with
    | _ :: rest => some ((cs.takeWhile isNameChar, quoted.takeWhile (· != '"')), rest)
    | [] => none
  | _ => none

theorem length_lt_of_attribute? {cs rest : List Char} {a : Attribute}
    (h : attribute? cs = some (a, rest)) : rest.length < cs.length := by
  unfold attribute? at h
  split at h
  · rename_i quoted hquoted
    split at h
    · rename_i c more hmore
      cases h
      have := (List.dropWhile_suffix (l := cs) isNameChar).length_le
      have := (List.dropWhile_suffix (l := quoted) (· != '"')).length_le
      rw [hquoted, List.length_cons, List.length_cons] at *
      rw [hmore, List.length_cons] at *
      omega
    · cases h
  · cases h

/-- The attributes in front of a text, up to the end of the tag, and what follows. -/
def attributes? (cs : List Char) : Option (List Attribute × List Char) :=
  match cs with
  | ' ' :: rest =>
    if rest.head? = some '/' then some ([], cs)
    else
      match _h : attribute? rest with
      | some (a, more) => (attributes? more).map fun r => (a :: r.1, r.2)
      | none => none
  | _ => some ([], cs)
termination_by cs.length
decreasing_by
  have := length_lt_of_attribute? _h
  simp only [List.length_cons]
  omega

/-- The end of a tag in front of a text, and what follows. -/
def tagEnd? (name : List Char) (attributes : List Attribute) :
    List Char → Option (Piece × List Char)
  | '>' :: rest => some (.opening name attributes, rest)
  | ' ' :: '/' :: '>' :: rest => some (.void name attributes, rest)
  | _ => none

/-- The tag in front of a text, after its `<`, and what follows. -/
def tag? (cs : List Char) : Option (Piece × List Char) :=
  (attributes? (cs.dropWhile isNameChar)).bind fun r => tagEnd? (cs.takeWhile isNameChar) r.1 r.2

/-- The closing tag in front of a text, after its `</`, and what follows. -/
def closing? (cs : List Char) : Option (Piece × List Char) :=
  match cs.dropWhile isNameChar with
  | '>' :: rest => some (.closing (cs.takeWhile isNameChar), rest)
  | _ => none

/-- What a `<` in front of a text starts, and what follows. -/
def marked? : List Char → Option (Piece × List Char)
  | '!' :: '-' :: '-' :: rest => comment? rest
  | '/' :: rest => closing? rest
  | cs => tag? cs

theorem length_le_of_comment? {cs rest : List Char} {piece : Piece}
    (h : comment? cs = some (piece, rest)) : rest.length ≤ cs.length := by
  fun_induction comment? cs generalizing piece with
  | case1 => cases h
  | case2 c cs => cases h; grind
  | case3 c cs _ inner more hmore ih => cases h; grind
  | case4 => cases h

theorem length_le_of_attributes? {cs rest : List Char} {attributes : List Attribute}
    (h : attributes? cs = some (attributes, rest)) : rest.length ≤ cs.length := by
  fun_induction attributes? cs generalizing attributes with
  | case1 => cases h; exact le_rfl
  | case2 cs hcs a more hmore ih =>
    obtain ⟨⟨others, rest⟩, hothers, heq⟩ := Option.map_eq_some_iff.mp h
    cases heq
    have := length_lt_of_attribute? hmore
    have := ih hothers
    grind
  | case3 => cases h
  | case4 => cases h; exact le_rfl

theorem length_le_of_tag? {cs rest : List Char} {piece : Piece}
    (h : tag? cs = some (piece, rest)) : rest.length ≤ cs.length := by
  obtain ⟨⟨attributes, more⟩, hattributes, hend⟩ := Option.bind_eq_some_iff.mp h
  have := (List.dropWhile_suffix (l := cs) isNameChar).length_le
  have := length_le_of_attributes? hattributes
  unfold tagEnd? at hend
  split at hend
  · cases hend
    grind
  · cases hend
    grind
  · cases hend

theorem length_le_of_closing? {cs rest : List Char} {piece : Piece}
    (h : closing? cs = some (piece, rest)) : rest.length ≤ cs.length := by
  have := (List.dropWhile_suffix (l := cs) isNameChar).length_le
  unfold closing? at h
  split at h
  · cases h
    grind
  · cases h

theorem length_le_of_marked? {cs rest : List Char} {piece : Piece}
    (h : marked? cs = some (piece, rest)) : rest.length ≤ cs.length := by
  unfold marked? at h
  split at h
  · have := length_le_of_comment? h
    grind
  · have := length_le_of_closing? h
    grind
  · exact length_le_of_tag? h

/-- The pieces of markup text, in order, if all of it can be read. -/
def pieces? : List Char → Option (List Piece)
  | [] => some []
  | '<' :: cs =>
    match _h : marked? cs with
    | some (piece, rest) => (pieces? rest).map (piece :: ·)
    | none => none
  | c :: cs =>
    (pieces? (cs.dropWhile (· != '<'))).map (.text (c :: cs.takeWhile (· != '<')) :: ·)
termination_by cs => cs.length
decreasing_by
  · have := length_le_of_marked? _h
    simp only [List.length_cons]
    omega
  · have := (List.dropWhile_suffix (l := cs) (· != '<')).length_le
    simp only [List.length_cons]
    omega

/-! ## Writing pieces -/

/-- An attribute as it is written, with the blank before it. -/
def attributeChars (a : Attribute) : List Char :=
  ' ' :: a.1 ++ ['=', '"'] ++ a.2 ++ ['"']

/-- A piece as it is written. -/
def Piece.chars : Piece → List Char
  | .text run => run
  | .comment inner => "<!--".toList ++ inner ++ "-->".toList
  | .opening name attributes => '<' :: name ++ attributes.flatMap attributeChars ++ ['>']
  | .void name attributes => '<' :: name ++ attributes.flatMap attributeChars ++ [' ', '/', '>']
  | .closing name => ['<', '/'] ++ name ++ ['>']

/-- A name that can be read back. -/
def IsName (name : List Char) : Prop :=
  name ≠ [] ∧ ∀ c ∈ name, isNameChar c = true

/-- An attribute that can be read back: nothing in its value ends it. -/
def IsAttribute (a : Attribute) : Prop :=
  IsName a.1 ∧ '"' ∉ a.2

/-- A piece that can be read back: nothing in it ends it or starts another one. -/
def Piece.IsWritten : Piece → Prop
  | .text run => '<' ∉ run
  | .comment inner => '-' ∉ inner
  | .opening name attributes => IsName name ∧ ∀ a ∈ attributes, IsAttribute a
  | .void name attributes => IsName name ∧ ∀ a ∈ attributes, IsAttribute a
  | .closing name => IsName name

/-- A piece in front of others.  A text joins the text that follows, and no text is no piece. -/
def Piece.addTo : Piece → List Piece → List Piece
  | .text [], pieces => pieces
  | .text run, .text next :: pieces => .text (run ++ next) :: pieces
  | piece, pieces => piece :: pieces

/-- Pieces with neighbouring texts joined. -/
def joined (pieces : List Piece) : List Piece :=
  pieces.foldr Piece.addTo []

theorem comment?_append {inner : List Char} (h : '-' ∉ inner) (rest : List Char) :
    comment? (inner ++ "-->".toList ++ rest) = some (.comment inner, rest) := by
  induction inner with
  | nil => rfl
  | cons c inner ih =>
    rw [List.mem_cons, not_or] at h
    -- the end of a comment starts with a hyphen, and none stands here
    have hc : ['-', '-', '>'].isPrefixOf (c :: (inner ++ "-->".toList ++ rest)) = false := by
      simp [List.isPrefixOf, h.1]
    rw [List.cons_append, List.cons_append, comment?, hc, ih h.2]
    rfl

theorem attribute?_append {name value : List Char} (hname : ∀ c ∈ name, isNameChar c = true)
    (hvalue : '"' ∉ value) (rest : List Char) :
    attribute? (name ++ '=' :: '"' :: (value ++ '"' :: rest)) = some ((name, value), rest) := by
  have hquoted := forall_bne_of_notMem hvalue
  unfold attribute?
  rw [takeWhile_append_of_all hname (by decide), dropWhile_append_of_all hname (by decide)]
  change (match (value ++ '"' :: rest).dropWhile (· != '"') with
    | _ :: more => some ((name, (value ++ '"' :: rest).takeWhile (· != '"')), more)
    | [] => none) = _
  rw [takeWhile_append_of_all hquoted (by decide), dropWhile_append_of_all hquoted (by decide)]

theorem attributes?_cons {rest more : List Char} {a : Attribute}
    (hslash : rest.head? ≠ some '/') (h : attribute? rest = some (a, more)) :
    attributes? (' ' :: rest) = (attributes? more).map fun r => (a :: r.1, r.2) := by
  rw [attributes?, if_neg hslash]
  split
  · rename_i hread
    rw [h] at hread
    cases hread
    rfl
  · rename_i hread
    rw [h] at hread
    cases hread

theorem attributes?_append {attributes : List Attribute}
    (h : ∀ a ∈ attributes, IsAttribute a) {rest : List Char}
    (hrest : attributes? rest = some ([], rest)) :
    attributes? (attributes.flatMap attributeChars ++ rest) = some (attributes, rest) := by
  induction attributes with
  | nil => exact hrest
  | cons a attributes ih =>
    obtain ⟨⟨⟨hne, hname⟩, hvalue⟩, hothers⟩ := List.forall_mem_cons.mp h
    have hread := attribute?_append hname hvalue (attributes.flatMap attributeChars ++ rest)
    have hchars : (a :: attributes).flatMap attributeChars ++ rest =
        ' ' :: (a.1 ++ '=' :: '"' :: (a.2 ++ '"' ::
          (attributes.flatMap attributeChars ++ rest))) := by
      simp [attributeChars]
    -- a name does not start with a slash, so this is no end of a tag
    have hslash : (a.1 ++ '=' :: '"' :: (a.2 ++ '"' ::
        (attributes.flatMap attributeChars ++ rest))).head? ≠ some '/' := by
      obtain ⟨c, name, hcons⟩ := List.exists_cons_of_ne_nil hne
      rw [hcons, List.cons_append, List.head?_cons]
      intro hc
      cases hc
      rw [hcons] at hname
      exact absurd (hname '/' List.mem_cons_self) (by decide)
    rw [hchars, attributes?_cons hslash hread, ih hothers, Option.map_some]

theorem tag?_append {name : List Char} {attributes : List Attribute} (hname : IsName name)
    (h : ∀ a ∈ attributes, IsAttribute a) {c : Char} {rest : List Char}
    (hc : isNameChar c = false) (hrest : attributes? (c :: rest) = some ([], c :: rest)) :
    tag? (name ++ attributes.flatMap attributeChars ++ c :: rest) =
      tagEnd? name attributes (c :: rest) := by
  obtain ⟨d, more, hmore, hd⟩ : ∃ d more,
      attributes.flatMap attributeChars ++ c :: rest = d :: more ∧ isNameChar d = false := by
    cases attributes with
    | nil => exact ⟨c, rest, rfl, hc⟩
    | cons a attributes => exact ⟨' ', _, rfl, by decide⟩
  -- the name ends where the attributes or the end of the tag start
  have hread := attributes?_append h hrest
  unfold tag?
  rw [List.append_assoc, hmore, takeWhile_append_of_all hname.2 hd,
    dropWhile_append_of_all hname.2 hd, ← hmore, hread, Option.bind_some]

theorem closing?_append {name : List Char} (hname : IsName name) (rest : List Char) :
    closing? (name ++ '>' :: rest) = some (.closing name, rest) := by
  unfold closing?
  rw [takeWhile_append_of_all hname.2 (by decide), dropWhile_append_of_all hname.2 (by decide)]
  rfl

theorem marked?_append {name : List Char} {attributes : List Attribute} (hname : IsName name)
    (h : ∀ a ∈ attributes, IsAttribute a) {c : Char} {rest : List Char}
    (hc : isNameChar c = false) (hrest : attributes? (c :: rest) = some ([], c :: rest)) :
    marked? (name ++ attributes.flatMap attributeChars ++ c :: rest) =
      tagEnd? name attributes (c :: rest) := by
  rw [← tag?_append hname h hc hrest]
  -- a name starts neither a comment nor a closing tag
  obtain ⟨d, more, rfl⟩ := List.exists_cons_of_ne_nil hname.1
  have hd := hname.2 d List.mem_cons_self
  unfold marked?
  split
  · rename_i heq
    rw [(List.cons.inj heq).1] at hd
    exact absurd hd (by decide)
  · rename_i heq
    rw [(List.cons.inj heq).1] at hd
    exact absurd hd (by decide)
  · rfl

theorem pieces?_marked {cs rest : List Char} {piece : Piece}
    (h : marked? cs = some (piece, rest)) :
    pieces? ('<' :: cs) = (pieces? rest).map (piece :: ·) := by
  rw [pieces?]
  split
  · rename_i hread
    rw [h] at hread
    cases hread
    rfl
  · rename_i hread
    rw [h] at hread
    cases hread

/-- A piece that is no text. -/
def Piece.IsMarked : Piece → Prop
  | .text _ => False
  | _ => True

theorem Piece.text_addTo {c : Char} {run : List Char} {piece : Piece} (h : piece.IsMarked)
    (pieces : List Piece) :
    (Piece.text (c :: run)).addTo (piece :: pieces) = .text (c :: run) :: piece :: pieces := by
  cases piece with
  | text => exact h.elim
  | _ => rfl

theorem isMarked_of_marked? {cs rest : List Char} {piece : Piece}
    (h : marked? cs = some (piece, rest)) : piece.IsMarked := by
  unfold marked? at h
  split at h
  · unfold comment? at h
    grind [Piece.IsMarked]
  · unfold closing? at h
    grind [Piece.IsMarked]
  · obtain ⟨r, -, hend⟩ := Option.bind_eq_some_iff.mp h
    unfold tagEnd? at hend
    grind [Piece.IsMarked]

theorem pieces?_of_ne {c : Char} (h : c ≠ '<') (cs : List Char) :
    pieces? (c :: cs) =
      (pieces? (cs.dropWhile (· != '<'))).map
        (.text (c :: cs.takeWhile (· != '<')) :: ·) := by
  rw [pieces?]
  exact h

/-- A run of text joins the text that is read after it. -/
theorem pieces?_text_append {run : List Char} (h : '<' ∉ run) (rest : List Char) :
    pieces? (run ++ rest) = (pieces? rest).map (Piece.text run).addTo := by
  cases run with
  | nil =>
    rw [List.nil_append]
    exact Option.map_id'.symm
  | cons c run =>
    rw [List.mem_cons, not_or] at h
    have hrun := forall_bne_of_notMem h.2
    rw [List.cons_append, pieces?_of_ne (Ne.symm h.1), List.takeWhile_append_of_pos hrun,
      List.dropWhile_append_of_pos hrun]
    rcases rest with _ | ⟨d, rest⟩
    · rw [List.takeWhile_nil, List.dropWhile_nil, List.append_nil, pieces?]
      rfl
    · by_cases hd : d = '<'
      · -- the text ends here, and what a `<` starts is no text
        subst hd
        rw [List.takeWhile_cons_of_neg (by decide), List.dropWhile_cons_of_neg (by decide),
          List.append_nil]
        cases hmarked : marked? rest with
        | none =>
          rw [pieces?]
          grind
        | some r =>
          obtain ⟨piece, more⟩ := r
          rw [pieces?_marked hmarked, Option.map_map, Option.map_map]
          congr 1
          funext pieces
          exact (Piece.text_addTo (isMarked_of_marked? hmarked) pieces).symm
      · have hne : (d != '<') = true := by simpa using hd
        rw [List.takeWhile_cons_of_pos (p := (· != '<')) hne,
          List.dropWhile_cons_of_pos (p := (· != '<')) hne, pieces?_of_ne hd, Option.map_map]
        rfl

/-- A piece that is written well is read back, and what follows is read as if nothing stood in
front of it. -/
theorem pieces?_chars_append {piece : Piece} (h : piece.IsWritten) (rest : List Char) :
    pieces? (piece.chars ++ rest) = (pieces? rest).map piece.addTo := by
  cases piece with
  | text run => exact pieces?_text_append h rest
  | comment inner => exact pieces?_marked (comment?_append h rest)
  | opening name attributes =>
    have hend : attributes? ('>' :: rest) = some ([], '>' :: rest) := by
      rw [attributes?]
      simp
    rw [Piece.chars, List.append_assoc]
    exact pieces?_marked (marked?_append h.1 h.2 (by decide) hend)
  | void name attributes =>
    have hend : attributes? (' ' :: '/' :: '>' :: rest) = some ([], ' ' :: '/' :: '>' :: rest) := by
      rw [attributes?, if_pos List.head?_cons]
    rw [Piece.chars, List.append_assoc]
    exact pieces?_marked (marked?_append h.1 h.2 (by decide) hend)
  | closing name =>
    rw [Piece.chars, List.append_assoc]
    exact pieces?_marked (closing?_append h rest)

/-- **Reading back**: pieces that are written well are read back, with neighbouring texts
joined. -/
theorem pieces?_flatMap_chars {pieces : List Piece} (h : ∀ piece ∈ pieces, piece.IsWritten) :
    pieces? (pieces.flatMap Piece.chars) = some (joined pieces) := by
  induction pieces with
  | nil => exact pieces?.eq_1
  | cons piece pieces ih =>
    obtain ⟨hpiece, hpieces⟩ := List.forall_mem_cons.mp h
    rw [List.flatMap_cons, pieces?_chars_append hpiece, ih hpieces]
    rfl

-- Text that is not escaped is read as what it looks like.
example : pieces? "<p>1 <a> 2</p>".toList =
    some [.opening ['p'] [], .text ['1', ' '], .opening ['a'] [], .text [' ', '2'],
      .closing ['p']] := by
  decide +kernel

end UiLang.Markup
