import UiLang.Proofs.Syntax.Gives
import UiLang.Proofs.Ui.Printed
import UiLang.Proofs.Seam.Node

/-!
# Printed element headers are read back

The readers are followed over the tokens of a printed element header, part by part: each reader
takes exactly the tokens of its part and gives that part.  What stands after a part decides where
it ends, so every statement is about the tokens of a part with more tokens after them.

## Main definitions

* `EndsValue`, `EndsHeader`: tokens that no value and no header goes on with

## Main results

* `AttributeValue.IsPrintable.gives`: values of attributes
* `readEntries_of_tokensOf`: blocks of style properties
* `ElementHead.IsPrintable.gives`: element headers
-/

namespace UiLang

/-! ## Entries with different keys -/

namespace OrderedMap

variable {κ ν : Type} [DecidableEq κ]

theorem insertEntry_of_notMem {k : κ} (v : ν) {es : List (κ × ν)} (h : k ∉ es.map (·.1)) :
    insertEntry k v es = es ++ [(k, v)] := by
  induction es with
  | nil => rfl
  | cons e es ih =>
    rw [List.map_cons, List.mem_cons, not_or] at h
    rw [insertEntry, if_neg (Ne.symm h.1), ih h.2, List.cons_append]

/-- Entries with keys of their own are written one after another. -/
theorem insertAll_of_nodup {m : OrderedMap κ ν} {es : List (κ × ν)}
    (h : (m.keys ++ es.map (·.1)).Nodup) : m.insertAll es = ⟨m.entries ++ es⟩ := by
  induction es generalizing m with
  | nil => rw [List.append_nil]; rfl
  | cons e es ih =>
    obtain ⟨k, v⟩ := e
    have hk : k ∉ m.keys := by
      intro hmem
      exact (List.nodup_append.mp h).2.2 k hmem k (by simp) rfl
    have hinsert : m.insert k v = ⟨m.entries ++ [(k, v)]⟩ := by
      rw [insert, insertEntry_of_notMem v hk]
    change (m.insert k v).insertAll es = _
    rw [hinsert, ih]
    · simp
    · simpa [keys] using h

/-- A map is what its entries write. -/
theorem insertAll_entries {m : OrderedMap κ ν} (h : m.keys.Nodup) :
    insertAll ∅ m.entries = m :=
  insertAll_of_nodup (m := ∅) h

end OrderedMap

/-- Tokens in braces. -/
theorem TokensOf.of_braced {ts : List Token} {glyphs : List Glyph}
    (h : TokensOf ts (braced glyphs)) :
    ∃ opening p closing, ts = opening :: (p ++ [closing]) ∧ opening.kind = .opening .brace ∧
      TokensOf p glyphs ∧ closing.kind = .closing .brace := by
  obtain ⟨opening, us, rfl, ⟨hopening, -⟩, hus⟩ := tokensOf_word.mp h
  obtain ⟨p, last, rfl, hp, hlast⟩ := tokensOf_append.mp hus
  obtain ⟨closing, rfl, hclosing, -⟩ := tokensOf_single.mp hlast
  exact ⟨opening, p, closing, rfl, hopening, hp, hclosing⟩

theorem skipNewlines_of_ne {first : Token} {ts : List Token} (h : first.kind ≠ .newline) :
    skipNewlines (first :: ts) = first :: ts := by
  rw [skipNewlines_cons, if_neg h]

/-! ## Values of attributes -/

/-- What may stand after the name, the text or an attribute of an element: one more attribute, a
block, or the end of the line. -/
def Kind.endsValue : Kind → Bool
  | .identifier | .newline | .opening .brace => true
  | _ => false

/-- The value of an attribute ends where these tokens start. -/
def EndsValue (rest : List Token) : Prop :=
  ∀ token ∈ rest.head?, token.kind.endsValue = true

section Values

variable {stop : Token} {ts rest : List Token}

theorem EndsValue.ne (h : EndsValue rest) {kind : Kind} (hkind : kind.endsValue = false) :
    ∀ token ∈ rest.head?, token.kind ≠ kind := by
  rintro token htoken rfl
  rw [h token htoken] at hkind
  cases hkind

/-- A printed path is read back after its root. -/
theorem Path.IsLexable.readPathAfter {path : Path} (h : path.IsLexable)
    (hts : TokensOf ts path.glyphs) (hrest : ∀ token ∈ rest.head?, token.kind ≠ .dot) :
    ∃ root us, ts = root :: us ∧ root.kind = .identifier ∧
      (readPathAfter root (us ++ rest)).value = path ∧
      (readPathAfter root (us ++ rest)).rest = rest := by
  obtain ⟨root, us, rfl, hroot, htext, hfields⟩ := h.derives hts
  obtain ⟨hvalue, hleft⟩ := readFields_of_derives hfields hrest
  refine ⟨root, us, rfl, hroot, ?_, hleft⟩
  change Path.mk root.text (readFields (us ++ rest)).value = path
  rw [hvalue, htext]

theorem readCallAfter_of_ne {path : Path}
    (h : ∀ token ∈ rest.head?, token.kind ≠ .opening .round) :
    Gives (readCallAfter stop path rest) (.identifier path) rest := by
  cases rest with
  | nil => exact gives_ok _
  | cons token rest =>
    rw [readCallAfter, if_neg (h token rfl)]
    exact gives_ok _

/-- **A printed value is read back.** -/
theorem AttributeValue.IsPrintable.gives {value : AttributeValue} (h : value.IsPrintable)
    (hts : TokensOf ts value.glyphs) (hrest : EndsValue rest) (name : String) :
    Gives (readAttributeValue stop name (ts ++ rest)) value rest := by
  cases value with
  | text s =>
    obtain ⟨token, rfl, hkind, rfl⟩ := tokensOf_single.mp hts
    rw [List.singleton_append, readAttributeValue, hkind]
    exact gives_ok _
  | number s =>
    rw [AttributeValue.glyphs, Literal.glyphs] at hts
    rcases IsNumeral.glyphs_eq h with ⟨hglyphs, -⟩ | ⟨digits, rfl, hglyphs, -⟩
    · rw [hglyphs] at hts
      obtain ⟨token, rfl, hkind, rfl⟩ := tokensOf_single.mp hts
      rw [List.singleton_append, readAttributeValue, hkind]
      exact gives_ok _
    · rw [hglyphs] at hts
      obtain ⟨minus, us, rfl, ⟨hminus, -⟩, hus⟩ := tokensOf_word.mp hts
      obtain ⟨token, rfl, hkind, rfl⟩ := tokensOf_single.mp hus
      rw [List.cons_append, List.singleton_append, readAttributeValue, hminus, readNegated?]
      dsimp only
      rw [if_pos hkind]
      exact gives_ok _
  | boolean b =>
    obtain ⟨token, rfl, hkind, htext⟩ := tokensOf_single.mp hts
    have hvalue : (token.text == "true") = b := by
      rw [htext]
      cases b <;> rfl
    rw [List.singleton_append, readAttributeValue, hkind, ← hvalue]
    exact gives_ok _
  | identifier p =>
    obtain ⟨root, us, rfl, hroot, hpath, hleft⟩ := Path.IsLexable.readPathAfter h hts (hrest.ne rfl)
    have hcall : Gives (readCallAfter stop (readPathAfter root (us ++ rest)).value
        (readPathAfter root (us ++ rest)).rest) (.identifier p) rest := by
      rw [hpath, hleft]
      exact readCallAfter_of_ne (hrest.ne rfl)
    rw [List.cons_append, readAttributeValue, hroot]
    exact hcall.bind fun _ => gives_ok _
  | call name arguments => exact h.elim
  | classMap classes => exact h.elim

/-- No value of an attribute starts with a brace. -/
theorem Gives.peek_ne_brace {name : String} {value : AttributeValue}
    (h : Gives (readAttributeValue stop name ts) value rest) :
    (peek stop ts).kind ≠ .opening .brace := by
  obtain ⟨suffix, h⟩ := h
  cases ts with
  | nil => cases h
  | cons token ts =>
    intro hkind
    rw [readAttributeValue, show token.kind = .opening .brace from hkind] at h
    cases h

end Values

/-! ## Attributes -/

section Attributes

variable {stop : Token} {head one all : ElementHead} {ts us rest after : List Token}

theorem readAttribute_of_ne_style {key : String} {value : AttributeValue} (hkey : key ≠ "style")
    (hproperty : head.styleProperty? key = none)
    (h : Gives (readAttributeValue stop key ts) value rest) :
    Gives (readAttribute stop key head ts)
      { head with attributes := head.attributes.insert key value } rest := by
  -- a block of classes would start with a brace
  rw [readAttribute, if_neg hkey, if_neg fun hclass => h.peek_ne_brace hclass.2, hproperty]
  exact h.bind fun _ => gives_ok _

/-- One more attribute. -/
theorem readAttributes_of_gives {key assign : Token} (hkey : key.kind.isWord = true)
    (hassign : assign.kind = .assign) (hone : Gives (readAttribute stop key.text head ts) one us)
    (hall : Gives (readAttributes stop one us) all rest) :
    Gives (readAttributes stop head (key :: assign :: ts)) all rest := by
  rw [readAttributes, if_pos ⟨hkey, hassign⟩]
  exact hone.bind fun _ => hall.bind fun _ => gives_ok _

/-- A value ends before one more attribute. -/
theorem endsValue_of_key {key : String} {glyphs : List Glyph}
    (hts : TokensOf ts (.blank :: .word ⟨.identifier, key⟩ :: glyphs)) :
    EndsValue (ts ++ rest) := by
  obtain ⟨name, us, rfl, ⟨hkind, -⟩, -⟩ := tokensOf_word.mp (tokensOf_blank.mp hts)
  rintro token ⟨⟩
  rw [hkind]
  rfl

theorem endsValue_of_attributeGlyphs {entries : List (String × AttributeValue)}
    (hts : TokensOf ts (attributeGlyphs entries)) (hrest : EndsValue rest) :
    EndsValue (ts ++ rest) := by
  cases entries with
  | nil =>
    obtain rfl := tokensOf_nil.mp hts
    exact hrest
  | cons entry entries => exact endsValue_of_key hts

/-- **Printed attributes are read one after another**, into what was read before them. -/
theorem readAttributes_of_tokensOf {entries : List (String × AttributeValue)}
    (hkeys : ∀ key ∈ entries.map (·.1),
      IsName key ∧ key ≠ "style" ∧ head.styleProperty? key = none)
    (hvalues : ∀ entry ∈ entries, entry.2.IsPrintable)
    (hts : TokensOf ts (attributeGlyphs entries)) (hrest : EndsValue rest)
    (h : Gives (readAttributes stop
      { head with attributes := head.attributes.insertAll entries } rest) all after) :
    Gives (readAttributes stop head (ts ++ rest)) all after := by
  induction entries generalizing head ts with
  | nil =>
    obtain rfl := tokensOf_nil.mp hts
    exact h
  | cons entry entries ih =>
    obtain ⟨key, value⟩ := entry
    obtain ⟨⟨-, hstyle, hproperty⟩, hkeys'⟩ := List.forall_mem_cons.mp hkeys
    obtain ⟨hvalue, hvalues'⟩ := List.forall_mem_cons.mp hvalues
    obtain ⟨name, us, rfl, ⟨hkind, htext⟩, hus⟩ := tokensOf_word.mp (tokensOf_blank.mp hts)
    obtain ⟨assign, vs, rfl, ⟨hassign, -⟩, hvs⟩ := tokensOf_word.mp hus
    obtain ⟨p, q, rfl, hp, hq⟩ := tokensOf_append.mp hvs
    have hread : Gives (readAttributeValue stop key (p ++ (q ++ rest))) value (q ++ rest) :=
      hvalue.gives hp (endsValue_of_attributeGlyphs hq hrest) key
    have hone := readAttribute_of_ne_style hstyle hproperty hread
    rw [← htext] at hone
    rw [List.cons_append, List.cons_append, List.append_assoc]
    exact readAttributes_of_gives (by rw [hkind]; rfl) hassign hone
      (ih (by rwa [htext]) hvalues' hq (by rwa [htext]))

end Attributes

/-! ## Style properties -/

section Styles

variable {stop : Token} {known all : Styles} {ts us rest after : List Token}

/-- A lone string is read as what stands between its quotes. -/
theorem readStyleValue_of_string {value : Token} (hvalue : value.kind = .string)
    (hrest : ∀ token ∈ rest.head?, endsStyleValue token = true) (property : String) :
    Gives (readStyleValue stop property (value :: rest)) value.text rest := by
  have hgoes : (!endsStyleValue value) = true := by simp [endsStyleValue, hvalue]
  have htake : (value :: rest).takeWhile (fun token => !endsStyleValue token) = [value] := by
    rw [List.takeWhile_cons, if_pos hgoes]
    cases rest with
    | nil => rfl
    | cons token rest => rw [List.takeWhile_cons, if_neg (by simp [hrest token rfl])]
  have hdrop : (value :: rest).dropWhile (fun token => !endsStyleValue token) = rest := by
    rw [List.dropWhile_cons, if_pos hgoes]
    cases rest with
    | nil => rfl
    | cons token rest => rw [List.dropWhile_cons, if_neg (by simp [hrest token rfl])]
  obtain ⟨kind, text, loc⟩ := value
  obtain rfl : kind = .string := hvalue
  rw [gives_iff]
  unfold readStyleValue
  simp only [htake, hdrop]
  exact ⟨_, rfl, rfl, rfl⟩

/-- One more style property. -/
theorem readEntries_of_property {entry : String × String} (hts : TokensOf ts (propertyGlyphs entry))
    (hrest : ∀ token ∈ rest.head?, endsStyleValue token = true)
    (h : Gives (readEntries stop (readStyleValue stop) (known.insert entry.1 entry.2)
      (eat .comma rest).rest) all after) :
    Gives (readEntries stop (readStyleValue stop) known (ts ++ rest)) all after := by
  obtain ⟨name, us, rfl, ⟨hname, htext⟩, hus⟩ := tokensOf_word.mp hts
  obtain ⟨colon, vs, rfl, ⟨hcolon, -⟩, hvs⟩ := tokensOf_word.mp hus
  obtain ⟨value, rfl, hvalue, htext'⟩ := tokensOf_single.mp (tokensOf_blank.mp hvs)
  have hskip : skipNewlines (name :: colon :: value :: rest) = name :: colon :: value :: rest :=
    skipNewlines_of_ne (by simp [hname])
  rw [← htext, ← htext'] at h
  rw [List.cons_append, List.cons_append, List.singleton_append,
    Seam.readEntries_of_cons stop _ known hskip, if_neg (by simp [hname]), if_pos (.inr hname),
    Seam.readDashedAfter_of_ne_minus _ (by simp [hcolon])]
  refine (expect_gives hcolon).bind fun _ => ?_
  exact (readStyleValue_of_string hvalue hrest name.text).bind fun _ => h.bind fun _ => gives_ok _

/-- **Printed style properties are read one after another**, into what was read before them. -/
theorem readEntries_of_tokensOf {entry : String × String} {entries : List (String × String)}
    {closing : Token} (hts : TokensOf ts (propertyGlyphs entry ++ morePropertyGlyphs entries))
    (hclosing : closing.kind = .closing .brace) :
    Gives (readEntries stop (readStyleValue stop) known (ts ++ closing :: rest))
      (known.insertAll (entry :: entries)) rest := by
  induction entries generalizing entry known ts with
  | nil =>
    rw [morePropertyGlyphs, List.append_nil] at hts
    refine readEntries_of_property hts (by simp [endsStyleValue, hclosing]) ?_
    have hskip : skipNewlines (closing :: rest) = closing :: rest :=
      skipNewlines_of_ne (by simp [hclosing])
    rw [eat_of_ne rest (by simp [hclosing]), Reading.nothing,
      Seam.readEntries_of_cons stop _ _ hskip, if_pos hclosing]
    exact gives_ok _
  | cons next entries ih =>
    obtain ⟨p, q, rfl, hp, hq⟩ := tokensOf_append.mp hts
    obtain ⟨comma, us, rfl, ⟨hcomma, -⟩, hus⟩ := tokensOf_word.mp hq
    rw [List.append_assoc, List.cons_append]
    refine readEntries_of_property hp (by simp [endsStyleValue, hcomma]) ?_
    rw [eat_of_eq _ hcomma]
    exact ih (tokensOf_blank.mp hus)

theorem readStyleBlock_of_tokensOf {entry : String × String} {entries : List (String × String)}
    (hts : TokensOf ts (braced (.blank :: (propertyGlyphs entry ++ morePropertyGlyphs entries) ++
      [.blank]))) :
    Gives (readStyleBlock stop (ts ++ rest)) (.insertAll ∅ (entry :: entries)) rest := by
  obtain ⟨opening, p, closing, rfl, hopening, hp, hclosing⟩ := hts.of_braced
  obtain ⟨q, last, rfl, hq, hlast⟩ := tokensOf_append.mp hp
  obtain rfl := tokensOf_nil.mp (tokensOf_blank.mp hlast)
  rw [List.append_nil, List.cons_append, List.append_assoc, List.singleton_append]
  unfold readStyleBlock
  refine (expect_gives hopening).bind fun _ => ?_
  exact (readEntries_of_tokensOf (tokensOf_blank.mp hq) hclosing).bind fun _ => gives_ok _

end Styles

/-! ## Element headers -/

/-- An element header ends where these tokens start: a block, or the end of the line. -/
def EndsHeader (rest : List Token) : Prop :=
  ∀ token ∈ rest.head?, token.kind = .newline ∨ token.kind = .opening .brace

section Headers

variable {stop : Token} {head : ElementHead} {ts rest : List Token}

theorem EndsHeader.endsValue (h : EndsHeader rest) : EndsValue rest := by
  intro token htoken
  rcases h token htoken with hkind | hkind
  · rw [hkind]
    rfl
  · rw [hkind]
    rfl

theorem EndsHeader.not_startsAttribute (h : EndsHeader rest) : ¬ Seam.StartsAttribute rest := by
  rintro ⟨key, assign, more, rfl, hword, -⟩
  rcases h key rfl with hkind | hkind
  · rw [hkind] at hword
    cases hword
  · rw [hkind] at hword
    cases hword

theorem endsValue_of_styleGlyphs {entries : List (String × String)}
    (hts : TokensOf ts (styleGlyphs entries)) (hrest : EndsValue rest) :
    EndsValue (ts ++ rest) := by
  cases entries with
  | nil =>
    obtain rfl := tokensOf_nil.mp hts
    exact hrest
  | cons entry entries => exact endsValue_of_key hts

/-- **A printed `style` attribute is read** into a header without style properties. -/
theorem readAttributes_of_styleGlyphs {styles : Styles} (hnodup : styles.keys.Nodup)
    (hstyles : head.styles = ∅) (hts : TokensOf ts (styleGlyphs styles.entries))
    (hrest : EndsHeader rest) :
    Gives (readAttributes stop head (ts ++ rest)) { head with styles } rest := by
  -- nothing that starts an attribute follows the header
  have hdone (head : ElementHead) : Gives (readAttributes stop head rest) head rest := by
    rw [Seam.readAttributes_of_not stop head hrest.not_startsAttribute]
    exact gives_ok _
  obtain ⟨entries⟩ := styles
  cases entries with
  | nil =>
    obtain rfl := tokensOf_nil.mp hts
    obtain ⟨name, text, attributes, _⟩ := head
    obtain rfl := hstyles
    exact hdone _
  | cons entry entries =>
    obtain ⟨key, us, rfl, ⟨hkey, htext⟩, hus⟩ := tokensOf_word.mp (tokensOf_blank.mp hts)
    obtain ⟨assign, vs, rfl, ⟨hassign, -⟩, hvs⟩ := tokensOf_word.mp hus
    refine readAttributes_of_gives (by rw [hkey]; rfl) hassign ?_ (hdone _)
    rw [htext, readAttribute, if_pos rfl]
    have hblock : Gives (readStyleBlock stop (vs ++ rest)) ⟨entry :: entries⟩ rest := by
      rw [← OrderedMap.insertAll_entries hnodup]
      exact readStyleBlock_of_tokensOf hvs
    have hall : head.styles.insertAll (entry :: entries) = ⟨entry :: entries⟩ := by
      rw [hstyles]
      exact OrderedMap.insertAll_entries hnodup
    exact hblock.bind fun _ => gives_iff.mpr
      ⟨_, rfl, congrArg (fun styles => { head with styles }) hall, rfl⟩

/-- Reads the string after the name of an element. -/
theorem readElementText_of_tokensOf {text : Option String} (hts : TokensOf ts (textGlyphs text))
    (hrest : EndsValue rest) :
    (readElementText (ts ++ rest)).value = text ∧ (readElementText (ts ++ rest)).rest = rest := by
  cases text with
  | none =>
    obtain rfl := tokensOf_nil.mp hts
    cases rest with
    | nil => exact ⟨rfl, rfl⟩
    | cons token rest =>
      rw [List.nil_append, readElementText, if_neg (hrest.ne rfl token rfl)]
      exact ⟨rfl, rfl⟩
  | some text =>
    obtain ⟨token, rfl, hkind, rfl⟩ := tokensOf_single.mp (tokensOf_blank.mp hts)
    rw [List.singleton_append, readElementText, if_pos hkind]
    exact ⟨rfl, rfl⟩

/-- **A printed element header is read back.** -/
theorem ElementHead.IsPrintable.gives (h : head.IsPrintable) (hts : TokensOf ts head.glyphs)
    (hrest : EndsHeader rest) :
    ∃ first us, ts = first :: us ∧ first.kind = .identifier ∧
      Gives (readElementHead stop first.text (us ++ rest)) head rest := by
  obtain ⟨first, us, rfl, ⟨hkind, htext⟩, hus⟩ := tokensOf_word.mp hts
  obtain ⟨p, vs, rfl, hp, hvs⟩ := tokensOf_append.mp hus
  obtain ⟨q, r, rfl, hq, hr⟩ := tokensOf_append.mp hvs
  refine ⟨first, _, rfl, hkind, ?_⟩
  have hstyles : EndsValue (r ++ rest) := endsValue_of_styleGlyphs hr hrest.endsValue
  obtain ⟨hvalue, hleft⟩ := readElementText_of_tokensOf hp (endsValue_of_attributeGlyphs hq hstyles)
  have hall : Gives (readAttributes stop
      { name := first.text, text := (readElementText (p ++ (q ++ (r ++ rest)))).value }
      (readElementText (p ++ (q ++ (r ++ rest)))).rest) head rest := by
    rw [hvalue, hleft, htext]
    refine readAttributes_of_tokensOf h.keys h.values hq hstyles ?_
    rw [OrderedMap.insertAll_entries h.keys_nodup]
    exact readAttributes_of_styleGlyphs h.properties_nodup rfl hr hrest
  rw [List.append_assoc, List.append_assoc]
  exact hall.bind fun _ => gives_ok _

end Headers

end UiLang
