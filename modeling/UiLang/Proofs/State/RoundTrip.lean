import UiLang.Proofs.Ui.RoundTrip

/-!
# State literals are read back

A state value is written as a literal: numbers as they are, strings and keys in quotes, the entries
of arrays and objects with commas between them.  After an opening bracket and after a comma the
literal may go on in the same line or in a later one, each time as one likes, so a value has many
literals.  All of them are read back as the value they were written from.

What can be written is said by `StateValue.IsLexable`.  Keys of one object have to differ: writing a
key again would replace the field and keep its place.

## Main definitions

* `IsDecimal`, `StateValue.IsLexable`: values that can be written
* `IsLayout`, `StateValue.WrittenAs`: the literals of a value
* `stateText`: a component that declares one state variable

## Main results

* `StateValue.WrittenAs.fitsBefore`: literals are scanned back, wherever they stand
* `StateValue.WrittenAs.gives`: literals are read back
* `parseSource_stateText`: so is the declaration of a state variable
-/

namespace UiLang

/-! ## What can be written -/

/-- A run of digits. -/
def IsDigits (cs : List Char) : Prop :=
  cs ≠ [] ∧ cs.all Char.isDigit = true

/-- Digits, with a point and more digits after them or without, and with a minus sign before them or
without. -/
def IsDecimal (text : String) : Prop :=
  ∃ sign digits places, text.toList = sign ++ (digits ++ places) ∧
    (sign = [] ∨ sign = ['-']) ∧ IsDigits digits ∧
    (places = [] ∨ ∃ more, places = '.' :: more ∧ IsDigits more)

theorem IsDecimal.isNumeral {text : String} (h : IsDecimal text) : IsNumeral text := by
  obtain ⟨sign, digits, places, htext, hsign, hdigits, hplaces⟩ := h
  have hnumber : Word.IsWritten ⟨.number, String.ofList (digits ++ places)⟩ := by
    rcases hplaces with rfl | ⟨more, rfl, hmore⟩
    · rw [List.append_nil]
      exact (Spells.integer digits hdigits.1 hdigits.2).isWritten
    · exact (Spells.fraction digits more hdigits.1 hmore.1 hdigits.2 hmore.2).isWritten
  rcases hsign with rfl | rfl
  · refine .inl ?_
    rwa [← String.ofList_toList (s := text), htext]
  · refine .inr ⟨_, ?_, hnumber⟩
    rw [← String.toList_inj, htext]
    simp

mutual

/-- Numbers are decimals, strings and keys have no quote inside, and no object has a key twice. -/
def StateValue.IsLexable : StateValue → Prop
  | .number text => IsDecimal text
  | .string text => '"' ∉ text.toList
  | .boolean _ => True
  | .null => True
  | .array items => ItemsLexable items
  | .object fields => (fields.map (·.1)).Nodup ∧ FieldsLexable fields

def ItemsLexable : List StateValue → Prop
  | [] => True
  | item :: items => item.IsLexable ∧ ItemsLexable items

def FieldsLexable : List (String × StateValue) → Prop
  | [] => True
  | (key, value) :: fields => '"' ∉ key.toList ∧ value.IsLexable ∧ FieldsLexable fields

end

/-! ## How it is written -/

/-- What may stand after an opening bracket and after a comma: newlines and blanks, or nothing. -/
def IsLayout (glyphs : List Glyph) : Prop :=
  ∀ glyph ∈ glyphs, glyph = .blank ∨ glyph = .word ⟨.newline, "\n"⟩

namespace StateValue

mutual

/-- The glyphs are a literal of the value. -/
inductive WrittenAs : StateValue → List Glyph → Prop
  | number (text : String) : WrittenAs (.number text) (Literal.number text).glyphs
  | string (text : String) : WrittenAs (.string text) (Literal.string text).glyphs
  | boolean (value : Bool) : WrittenAs (.boolean value) (Literal.boolean value).glyphs
  | null : WrittenAs .null Literal.null.glyphs
  | array {items : List StateValue} {glyphs : List Glyph} (h : ItemsWrittenAs items glyphs) :
      WrittenAs (.array items) (.word ⟨.opening .square, "["⟩ :: glyphs)
  | object {fields : List (String × StateValue)} {glyphs : List Glyph}
      (h : FieldsWrittenAs fields glyphs) :
      WrittenAs (.object fields) (.word ⟨.opening .brace, "\x7b"⟩ :: glyphs)

/-- The glyphs are the items of an array and its closing bracket. -/
inductive ItemsWrittenAs : List StateValue → List Glyph → Prop
  | nil {layout : List Glyph} (hlayout : IsLayout layout) :
      ItemsWrittenAs [] (layout ++ [.word ⟨.closing .square, "]"⟩])
  | last {layout glyphs : List Glyph} {item : StateValue} (hlayout : IsLayout layout)
      (h : item.WrittenAs glyphs) :
      ItemsWrittenAs [item] (layout ++ (glyphs ++ [.word ⟨.closing .square, "]"⟩]))
  | cons {layout glyphs more : List Glyph} {item next : StateValue} {items : List StateValue}
      (hlayout : IsLayout layout) (h : item.WrittenAs glyphs)
      (hmore : ItemsWrittenAs (next :: items) more) :
      ItemsWrittenAs (item :: next :: items)
        (layout ++ (glyphs ++ .word ⟨.comma, ","⟩ :: more))

/-- The glyphs are the fields of an object and its closing brace.  A value stands on the line of its
key. -/
inductive FieldsWrittenAs : List (String × StateValue) → List Glyph → Prop
  | nil {layout : List Glyph} (hlayout : IsLayout layout) :
      FieldsWrittenAs [] (layout ++ [.word ⟨.closing .brace, "\x7d"⟩])
  | last (blanks : Nat) {layout glyphs : List Glyph} {key : String} {value : StateValue}
      (hlayout : IsLayout layout) (h : value.WrittenAs glyphs) :
      FieldsWrittenAs [(key, value)]
        (layout ++ .word ⟨.string, key⟩ :: .word ⟨.colon, ":"⟩ ::
          (List.replicate blanks .blank ++ (glyphs ++ [.word ⟨.closing .brace, "\x7d"⟩])))
  | cons (blanks : Nat) {layout glyphs more : List Glyph} {key : String} {value : StateValue}
      {next : String × StateValue} {fields : List (String × StateValue)}
      (hlayout : IsLayout layout) (h : value.WrittenAs glyphs)
      (hmore : FieldsWrittenAs (next :: fields) more) :
      FieldsWrittenAs ((key, value) :: next :: fields)
        (layout ++ .word ⟨.string, key⟩ :: .word ⟨.colon, ":"⟩ ::
          (List.replicate blanks .blank ++ (glyphs ++ .word ⟨.comma, ","⟩ :: more)))

end

theorem isLayout_nil : IsLayout [] :=
  List.forall_mem_nil _

mutual

/-- Every value has a literal: one without any newline, if no other. -/
theorem exists_writtenAs : (value : StateValue) → ∃ literal, value.WrittenAs literal
  | .number text => ⟨_, .number text⟩
  | .string text => ⟨_, .string text⟩
  | .boolean value => ⟨_, .boolean value⟩
  | .null => ⟨_, .null⟩
  | .array items =>
    let ⟨_, h⟩ := exists_itemsWrittenAs items
    ⟨_, .array h⟩
  | .object fields =>
    let ⟨_, h⟩ := exists_fieldsWrittenAs fields
    ⟨_, .object h⟩

theorem exists_itemsWrittenAs : (items : List StateValue) → ∃ glyphs, ItemsWrittenAs items glyphs
  | [] => ⟨_, .nil isLayout_nil⟩
  | [item] =>
    let ⟨_, h⟩ := exists_writtenAs item
    ⟨_, .last isLayout_nil h⟩
  | item :: next :: items =>
    let ⟨_, h⟩ := exists_writtenAs item
    let ⟨_, hmore⟩ := exists_itemsWrittenAs (next :: items)
    ⟨_, .cons isLayout_nil h hmore⟩

theorem exists_fieldsWrittenAs :
    (fields : List (String × StateValue)) → ∃ glyphs, FieldsWrittenAs fields glyphs
  | [] => ⟨_, .nil isLayout_nil⟩
  | [(_, value)] =>
    let ⟨_, h⟩ := exists_writtenAs value
    ⟨_, .last 0 isLayout_nil h⟩
  | (_, value) :: next :: fields =>
    let ⟨_, h⟩ := exists_writtenAs value
    let ⟨_, hmore⟩ := exists_fieldsWrittenAs (next :: fields)
    ⟨_, .cons 0 isLayout_nil h hmore⟩

end

end StateValue

/-! ## Literals are scanned back -/

section Fits

variable {after : List Char}

theorem IsLayout.fitsBefore {layout glyphs : List Glyph} (hlayout : IsLayout layout)
    (h : FitsBefore after glyphs) : FitsBefore after (layout ++ glyphs) := by
  induction layout with
  | nil => exact h
  | cons glyph layout ih =>
    obtain ⟨hglyph, hrest⟩ := List.forall_mem_cons.mp hlayout
    rcases hglyph with rfl | rfl
    · exact ih hrest
    · exact ⟨.newline, Word.endsBefore_any rfl (by simp) rfl, ih hrest⟩

theorem fitsBefore_blanks {glyphs : List Glyph} (blanks : Nat) (h : FitsBefore after glyphs) :
    FitsBefore after (List.replicate blanks .blank ++ glyphs) :=
  IsLayout.fitsBefore (fun _ hglyph => .inl (List.eq_of_mem_replicate hglyph)) h

/-- A key and the colon after it. -/
theorem fitsBefore_key {key : String} {glyphs : List Glyph} (hkey : '"' ∉ key.toList)
    (h : FitsBefore after glyphs) :
    FitsBefore after (.word ⟨.string, key⟩ :: .word ⟨.colon, ":"⟩ :: glyphs) :=
  ⟨isWritten_text hkey, Word.endsBefore_any rfl (by simp) rfl,
    fitsBefore_mark [':'] (by decide) rfl h⟩

end Fits

namespace StateValue

mutual

/-- **A literal is scanned back**, in front of whatever breaks off its last word. -/
theorem WrittenAs.fitsBefore {after : List Char} : (value : StateValue) → (glyphs : List Glyph) →
    value.IsLexable → value.WrittenAs glyphs → Breaks after → FitsBefore after glyphs
  | .number text, _, hvalue, .number _, hafter =>
    (show (Literal.number text).IsLexable from IsDecimal.isNumeral hvalue).fitsBefore hafter
  | .string text, _, hvalue, .string _, hafter =>
    (show (Literal.string text).IsLexable from hvalue).fitsBefore hafter
  | .boolean value, _, _, .boolean _, hafter =>
    (show (Literal.boolean value).IsLexable from trivial).fitsBefore hafter
  | .null, _, _, .null, hafter =>
    (show Literal.null.IsLexable from trivial).fitsBefore hafter
  | .array items, _, hvalue, .array h, _ =>
    fitsBefore_mark ['['] (by decide) rfl
      (ItemsWrittenAs.fitsBefore items _ hvalue h)
  | .object fields, _, hvalue, .object h, _ =>
    fitsBefore_mark ['\x7b'] (by decide) rfl
      (FieldsWrittenAs.fitsBefore fields _ hvalue.2 h)

/-- Items end with their bracket, so any text may stand after them. -/
theorem ItemsWrittenAs.fitsBefore {after : List Char} : (items : List StateValue) →
    (glyphs : List Glyph) → ItemsLexable items → ItemsWrittenAs items glyphs →
    FitsBefore after glyphs
  | [], _, _, .nil hlayout =>
    hlayout.fitsBefore (fitsBefore_mark [']'] (by decide) rfl trivial)
  | [item], _, hitems, .last hlayout h =>
    hlayout.fitsBefore (fitsBefore_append.mpr
      ⟨WrittenAs.fitsBefore item _ hitems.1 h breaks_square,
        fitsBefore_mark [']'] (by decide) rfl trivial⟩)
  | item :: next :: items, _, hitems, .cons hlayout h hmore =>
    hlayout.fitsBefore (fitsBefore_append.mpr
      ⟨WrittenAs.fitsBefore item _ hitems.1 h breaks_comma,
        fitsBefore_mark [','] (by decide) rfl
          (ItemsWrittenAs.fitsBefore (next :: items) _ hitems.2 hmore)⟩)

/-- Fields end with their brace, so any text may stand after them. -/
theorem FieldsWrittenAs.fitsBefore {after : List Char} : (fields : List (String × StateValue)) →
    (glyphs : List Glyph) → FieldsLexable fields → FieldsWrittenAs fields glyphs →
    FitsBefore after glyphs
  | [], _, _, .nil hlayout =>
    hlayout.fitsBefore (fitsBefore_mark ['\x7d'] (by decide) rfl trivial)
  | [(key, value)], _, hfields, .last blanks hlayout h =>
    hlayout.fitsBefore (fitsBefore_key hfields.1 (fitsBefore_blanks blanks (fitsBefore_append.mpr
      ⟨WrittenAs.fitsBefore value _ hfields.2.1 h breaks_brace,
        fitsBefore_mark ['\x7d'] (by decide) rfl trivial⟩)))
  | (key, value) :: next :: fields, _, hfields, .cons blanks hlayout h hmore =>
    hlayout.fitsBefore (fitsBefore_key hfields.1 (fitsBefore_blanks blanks (fitsBefore_append.mpr
      ⟨WrittenAs.fitsBefore value _ hfields.2.1 h breaks_comma,
        fitsBefore_mark [','] (by decide) rfl
          (FieldsWrittenAs.fitsBefore (next :: fields) _ hfields.2.2 hmore)⟩)))

end

end StateValue

/-! ## Literals are read back -/

/-- The kinds of tokens that a literal starts with. -/
def Kind.startsLiteral : Kind → Bool
  | .number | .minus | .string | .boolean | .null | .opening _ => true
  | _ => false

theorem ne_of_startsLiteral {first : Token} {kind : Kind}
    (hfirst : first.kind.startsLiteral = true) (hkind : kind.startsLiteral = false) :
    first.kind ≠ kind := by
  rintro rfl
  rw [hfirst] at hkind
  cases hkind

section Layout

variable {ts us : List Token} {layout : List Glyph}

/-- A layout has no tokens but newlines. -/
theorem IsLayout.kind_eq (hlayout : IsLayout layout) (hts : TokensOf ts layout) :
    ∀ token ∈ ts, token.kind = .newline := by
  intro token htoken
  have hword : token.word ∈ wordsOf layout := by
    rw [← show ts.map Token.word = wordsOf layout from hts]
    exact List.mem_map_of_mem htoken
  obtain ⟨glyph, hglyph, hsome⟩ := List.mem_filterMap.mp hword
  rcases hlayout glyph hglyph with rfl | rfl
  · cases hsome
  · exact congrArg Word.kind (Option.some.inj hsome).symm

/-- What follows a layout is found behind its newlines. -/
theorem IsLayout.skipNewlines_append {first : Token} (hlayout : IsLayout layout)
    (hts : TokensOf ts layout) (hfirst : first.kind ≠ .newline) :
    skipNewlines (ts ++ first :: us) = first :: us := by
  have hall := hlayout.kind_eq hts
  clear hts
  induction ts with
  | nil => exact skipNewlines_of_ne hfirst
  | cons newline ts ih =>
    obtain ⟨hnewline, hall⟩ := List.forall_mem_cons.mp hall
    rw [List.cons_append, skipNewlines_cons, if_pos hnewline]
    exact ih hall

theorem tokensOf_blanks {glyphs : List Glyph} {blanks : Nat} :
    TokensOf ts (List.replicate blanks .blank ++ glyphs) ↔ TokensOf ts glyphs := by
  induction blanks with
  | zero => rfl
  | succ blanks ih => exact ih

/-- A field behind a layout: its key, the colon, and the tokens of the value and what follows. -/
theorem TokensOf.of_field {glyphs : List Glyph} {key : String} {blanks : Nat}
    (h : TokensOf ts (layout ++ .word ⟨.string, key⟩ :: .word ⟨.colon, ":"⟩ ::
      (List.replicate blanks .blank ++ glyphs))) :
    ∃ p token colon us, ts = p ++ token :: colon :: us ∧ TokensOf p layout ∧
      (token.kind = .string ∧ token.text = key) ∧ colon.kind = .colon ∧ TokensOf us glyphs := by
  obtain ⟨p, q, rfl, hp, hq⟩ := tokensOf_append.mp h
  obtain ⟨token, q, rfl, htoken, hq⟩ := tokensOf_word.mp hq
  obtain ⟨colon, us, rfl, ⟨hcolon, -⟩, hus⟩ := tokensOf_word.mp hq
  exact ⟨p, token, colon, us, rfl, hp, htoken, hcolon, tokensOf_blanks.mp hus⟩

end Layout

/-- A new key is written after those that are known. -/
theorem insert_of_nodup {known : OrderedMap String StateValue} {key : String} {value : StateValue}
    {fields : List (String × StateValue)}
    (h : (known.keys ++ ((key, value) :: fields).map (·.1)).Nodup) :
    known.insert key value = ⟨known.entries ++ [(key, value)]⟩ := by
  have hkey : key ∉ known.keys := fun hmem =>
    (List.nodup_append.mp h).2.2 key hmem key (by simp) rfl
  rw [OrderedMap.insert, OrderedMap.insertEntry_of_notMem value hkey]

section Steps

variable {stop comma closing key colon : Token} {ts us rest : List Token} {item : StateValue}
  {items : List StateValue}

theorem readItemsAfter_of_closing (hclosing : closing.kind = .closing .square) :
    Gives (readItemsAfter stop item (closing :: rest)) [item] rest := by
  rw [readItemsAfter, if_neg (by simp [hclosing])]
  exact (expect_gives hclosing).bind fun _ => gives_ok _

theorem readItemsAfter_of_comma (hcomma : comma.kind = .comma)
    (hitems : Gives (readItems stop us) items rest) :
    Gives (readItemsAfter stop item (comma :: us)) (item :: items) rest := by
  rw [readItemsAfter, if_pos hcomma]
  exact hitems.bind fun _ => gives_ok _

/-- An item, and what follows it. -/
theorem readItems_of_gives {first next : Token} {left : List Token}
    (hskip : skipNewlines ts = first :: us) (hfirst : first.kind.startsLiteral = true)
    (hitem : Gives (readStateValue stop (first :: us)) item (next :: left))
    (hnext : next.kind ≠ .newline)
    (hafter : Gives (readItemsAfter stop item (next :: left)) items rest) :
    Gives (readItems stop ts) items rest := by
  rw [Seam.readItems_of_cons stop hskip, if_neg (ne_of_startsLiteral hfirst rfl)]
  refine hitem.bind fun _ => ?_
  rw [← skipNewlines_of_ne hnext] at hafter
  exact hafter.bind fun _ => gives_ok _

variable {known : OrderedMap String StateValue} {value : StateValue}
  {fields : OrderedMap String StateValue}

theorem readObjectFields_of_closing (hskip : skipNewlines ts = closing :: rest)
    (hclosing : closing.kind = .closing .brace) :
    Gives (readObjectFields stop known ts) known rest := by
  rw [Seam.readObjectFields_of_cons stop known hskip, if_pos hclosing]
  exact gives_ok _

/-- A field, a comma or none after it, and what follows. -/
theorem readObjectFields_of_gives {left : List Token} (hskip : skipNewlines ts = key :: colon :: us)
    (hkey : key.kind = .string) (hcolon : colon.kind = .colon)
    (hvalue : Gives (readStateValue stop us) value left)
    (hafter : Gives (readObjectFields stop (known.insert key.text value) (eat .comma left).rest)
      fields rest) :
    Gives (readObjectFields stop known ts) fields rest := by
  rw [Seam.readObjectFields_of_cons stop known hskip, if_neg (by simp [hkey]), if_pos (.inr hkey)]
  exact (expect_gives hcolon).bind fun _ => hvalue.bind fun _ => hafter.bind fun _ => gives_ok _

end Steps

/-- The first word of a literal. -/
theorem StateValue.WrittenAs.glyphs_eq {value : StateValue} {glyphs : List Glyph}
    (h : value.WrittenAs glyphs) :
    ∃ kind text more, glyphs = .word ⟨kind, text⟩ :: more ∧ kind.startsLiteral = true := by
  cases h with
  | number text =>
    rw [Literal.glyphs, numberGlyphs]
    split
    · exact ⟨_, _, _, rfl, rfl⟩
    · exact ⟨_, _, _, rfl, rfl⟩
  | _ => exact ⟨_, _, _, rfl, rfl⟩

theorem StateValue.WrittenAs.exists_first {value : StateValue} {glyphs : List Glyph}
    (h : value.WrittenAs glyphs) {ts : List Token} (hts : TokensOf ts glyphs) :
    ∃ first us, ts = first :: us ∧ first.kind.startsLiteral = true := by
  obtain ⟨kind, text, more, rfl, hkind⟩ := h.glyphs_eq
  obtain ⟨first, us, rfl, ⟨rfl, -⟩, -⟩ := tokensOf_word.mp hts
  exact ⟨first, us, rfl, hkind⟩

/-- A numeral is read back with its sign. -/
theorem readStateValue_of_number {stop : Token} {text : String} {ts : List Token}
    (h : IsNumeral text) (hts : TokensOf ts (numberGlyphs text)) (rest : List Token) :
    Gives (readStateValue stop (ts ++ rest)) (.number text) rest := by
  rcases h.glyphs_eq with ⟨hglyphs, -⟩ | ⟨digits, rfl, hglyphs, -⟩
  · rw [hglyphs] at hts
    obtain ⟨token, rfl, hkind, rfl⟩ := tokensOf_single.mp hts
    rw [List.singleton_append, readStateValue, hkind]
    exact gives_ok _
  · rw [hglyphs] at hts
    obtain ⟨minus, us, rfl, ⟨hminus, -⟩, hus⟩ := tokensOf_word.mp hts
    obtain ⟨token, rfl, hkind, rfl⟩ := tokensOf_single.mp hus
    rw [List.cons_append, List.singleton_append, readStateValue, hminus, readNegated?]
    dsimp only
    rw [if_pos hkind]
    exact gives_ok _

variable (stop : Token)

namespace StateValue

-- The recursion is on the value that was written: what is known of the tokens is only which glyphs
-- they belong to.
mutual

/-- **A literal is read back.** -/
theorem WrittenAs.gives : (value : StateValue) → (glyphs : List Glyph) → value.IsLexable →
    value.WrittenAs glyphs → ∀ {ts : List Token}, TokensOf ts glyphs → ∀ rest : List Token,
      Gives (readStateValue stop (ts ++ rest)) value rest
  | .number text, _, hvalue, .number _, ts, hts, rest =>
    readStateValue_of_number (IsDecimal.isNumeral hvalue) hts rest
  | .string text, _, _, .string _, ts, hts, rest => by
    obtain ⟨token, rfl, hkind, rfl⟩ := tokensOf_single.mp hts
    rw [List.singleton_append, readStateValue, hkind]
    exact gives_ok _
  | .boolean value, _, _, .boolean _, ts, hts, rest => by
    obtain ⟨token, rfl, hkind, htext⟩ := tokensOf_single.mp hts
    rw [List.singleton_append, readStateValue, hkind]
    dsimp only
    rw [htext]
    cases value <;> exact gives_ok _
  | .null, _, _, .null, ts, hts, rest => by
    obtain ⟨token, rfl, hkind, -⟩ := tokensOf_single.mp hts
    rw [List.singleton_append, readStateValue, hkind]
    exact gives_ok _
  | .array items, _, hvalue, .array h, ts, hts, rest => by
    obtain ⟨token, us, rfl, ⟨hkind, -⟩, hus⟩ := tokensOf_word.mp hts
    rw [List.cons_append, readStateValue, hkind]
    exact (ItemsWrittenAs.gives items _ hvalue h hus rest).bind fun _ => gives_ok _
  | .object fields, _, hvalue, .object h, ts, hts, rest => by
    obtain ⟨token, us, rfl, ⟨hkind, -⟩, hus⟩ := tokensOf_word.mp hts
    have hfields := FieldsWrittenAs.gives fields _ hvalue.2 h ∅ hvalue.1 hus rest
    rw [List.cons_append, readStateValue, hkind]
    exact hfields.bind fun _ => gives_ok _

/-- Items are read back up to their bracket, and past it. -/
theorem ItemsWrittenAs.gives : (items : List StateValue) → (glyphs : List Glyph) →
    ItemsLexable items → ItemsWrittenAs items glyphs → ∀ {ts : List Token}, TokensOf ts glyphs →
      ∀ rest : List Token, Gives (readItems stop (ts ++ rest)) items rest
  | [], _, _, .nil hlayout, ts, hts, rest => by
    obtain ⟨p, q, rfl, hp, hq⟩ := tokensOf_append.mp hts
    obtain ⟨closing, rfl, hclosing, -⟩ := tokensOf_single.mp hq
    rw [List.append_assoc, List.singleton_append, Seam.readItems_of_cons stop
      (hlayout.skipNewlines_append hp (by simp [hclosing])), if_pos hclosing]
    exact gives_ok _
  | [item], _, hitems, .last hlayout h, ts, hts, rest => by
    obtain ⟨p, q, rfl, hp, hq⟩ := tokensOf_append.mp hts
    obtain ⟨us, last, rfl, hus, hlast⟩ := tokensOf_append.mp hq
    obtain ⟨closing, rfl, hclosing, -⟩ := tokensOf_single.mp hlast
    have hitem := WrittenAs.gives item _ hitems.1 h hus (closing :: rest)
    obtain ⟨first, us, rfl, hfirst⟩ := h.exists_first hus
    rw [List.append_assoc, List.append_assoc]
    have hskip : skipNewlines (p ++ first :: (us ++ closing :: rest)) = _ :=
      hlayout.skipNewlines_append hp (ne_of_startsLiteral hfirst rfl)
    exact readItems_of_gives hskip hfirst hitem (by simp [hclosing])
      (readItemsAfter_of_closing hclosing)
  | item :: next :: items, _, hitems, .cons hlayout h hmore, ts, hts, rest => by
    obtain ⟨p, q, rfl, hp, hq⟩ := tokensOf_append.mp hts
    obtain ⟨us, more, rfl, hus, hlast⟩ := tokensOf_append.mp hq
    obtain ⟨comma, more, rfl, ⟨hcomma, -⟩, hrest⟩ := tokensOf_word.mp hlast
    have hitem := WrittenAs.gives item _ hitems.1 h hus (comma :: (more ++ rest))
    obtain ⟨first, us, rfl, hfirst⟩ := h.exists_first hus
    rw [List.append_assoc, List.append_assoc]
    have hskip : skipNewlines (p ++ first :: (us ++ comma :: (more ++ rest))) = _ :=
      hlayout.skipNewlines_append hp (ne_of_startsLiteral hfirst rfl)
    exact readItems_of_gives hskip hfirst hitem (by simp [hcomma]) (readItemsAfter_of_comma hcomma
      (ItemsWrittenAs.gives (next :: items) _ hitems.2 hmore hrest rest))

/-- Fields are read back up to their brace, and past it, after the fields that are known. -/
theorem FieldsWrittenAs.gives : (fields : List (String × StateValue)) → (glyphs : List Glyph) →
    FieldsLexable fields → FieldsWrittenAs fields glyphs →
    ∀ known : OrderedMap String StateValue, (known.keys ++ fields.map (·.1)).Nodup →
      ∀ {ts : List Token}, TokensOf ts glyphs → ∀ rest : List Token,
        Gives (readObjectFields stop known (ts ++ rest)) ⟨known.entries ++ fields⟩ rest
  | [], _, _, .nil hlayout, known, _, ts, hts, rest => by
    obtain ⟨p, q, rfl, hp, hq⟩ := tokensOf_append.mp hts
    obtain ⟨closing, rfl, hclosing, -⟩ := tokensOf_single.mp hq
    rw [List.append_assoc, List.append_nil]
    exact readObjectFields_of_closing
      (hlayout.skipNewlines_append hp (by simp [hclosing])) hclosing
  | [(key, value)], _, hfields, .last _ hlayout h, known, hnodup, ts, hts, rest => by
    obtain ⟨p, token, colon, us, rfl, hp, ⟨hkey, rfl⟩, hcolon, hq⟩ := hts.of_field
    obtain ⟨us, last, rfl, hus, hlast⟩ := tokensOf_append.mp hq
    obtain ⟨closing, rfl, hclosing, -⟩ := tokensOf_single.mp hlast
    have hvalue := WrittenAs.gives value _ hfields.2.1 h hus (closing :: rest)
    have hskip : skipNewlines (p ++ token :: colon :: (us ++ closing :: rest)) = _ :=
      hlayout.skipNewlines_append hp (by simp [hkey])
    have hne : closing.kind ≠ .newline := by simp [hclosing]
    rw [List.append_assoc, List.cons_append, List.cons_append, List.append_assoc]
    refine readObjectFields_of_gives hskip hkey hcolon hvalue ?_
    -- the key is new, so its field goes behind the known ones
    rw [eat_of_ne rest (by simp [hclosing]), insert_of_nodup hnodup]
    exact readObjectFields_of_closing (skipNewlines_of_ne hne) hclosing
  | (key, value) :: next :: fields, _, hfields, .cons _ hlayout h hmore, known, hnodup, ts, hts,
      rest => by
    obtain ⟨p, token, colon, us, rfl, hp, ⟨hkey, rfl⟩, hcolon, hq⟩ := hts.of_field
    obtain ⟨us, more, rfl, hus, hlast⟩ := tokensOf_append.mp hq
    obtain ⟨comma, more, rfl, ⟨hcomma, -⟩, hrest⟩ := tokensOf_word.mp hlast
    have hvalue := WrittenAs.gives value _ hfields.2.1 h hus (comma :: (more ++ rest))
    have hskip : skipNewlines (p ++ token :: colon :: (us ++ comma :: (more ++ rest))) = _ :=
      hlayout.skipNewlines_append hp (by simp [hkey])
    rw [List.append_assoc, List.cons_append, List.cons_append, List.append_assoc]
    refine readObjectFields_of_gives hskip hkey hcolon hvalue ?_
    rw [eat_of_eq (more ++ rest) hcomma, insert_of_nodup hnodup]
    have hafter := FieldsWrittenAs.gives (next :: fields) _ hfields.2.2 hmore
      ⟨known.entries ++ [(token.text, value)]⟩ (by simpa [OrderedMap.keys] using hnodup) hrest rest
    rwa [List.append_assoc] at hafter

end

end StateValue

/-! ## Declarations -/

section Declarations

variable {newline first closing : Token} {ts us rest : List Token}

/-- A state variable is declared by a word, the sign after it, and a literal up to the end of the
line. -/
theorem readStatement_of_state {name assign : Token} {value : StateValue}
    (hfirst : first.kind = .keyword .state) (hname : name.kind = .identifier)
    (hassign : assign.kind = .assign) (hnewline : newline.kind = .newline)
    (hvalue : Gives (readStateValue stop ts) value (newline :: rest)) :
    Gives (readStatement stop first (name :: assign :: ts))
      (.state ⟨name.text, value, first.location.join name.location⟩) (newline :: rest) := by
  have hend : Gives (expectStatementEnd stop (newline :: rest)) () (newline :: rest) := by
    rw [expectStatementEnd, show (peek stop (newline :: rest)).kind = .newline from hnewline]
    exact gives_ok _
  have hstate : Gives (readState stop first (name :: assign :: ts))
      ⟨name.text, value, first.location.join name.location⟩ (newline :: rest) :=
    (expect_gives hname).bind fun _ => (expect_gives hassign).bind fun _ => hvalue.bind fun _ =>
      hend.bind fun _ => gives_ok _
  rw [readStatement, hfirst]
  exact hstate.bind fun _ => gives_ok _

/-- A component body that is one statement on a line of its own. -/
theorem readStatements_of_state {last : Token} {statement : Statement}
    (hnewline : newline.kind = .newline) (hfirst : first.kind = .keyword .state)
    (hlast : last.kind = .newline) (hclosing : closing.kind = .closing .brace)
    (hstatement : Gives (readStatement stop first ts) statement (last :: closing :: rest)) :
    Gives (readStatements stop (newline :: first :: ts)) [statement] rest := by
  rw [Seam.readStatements_of_cons stop (skipNewlines_newline hnewline (by simp [hfirst])),
    if_neg (by simp [hfirst])]
  exact hstatement.bind fun _ =>
    (readStatements_of_closing stop hlast hclosing).bind fun _ => gives_ok _

end Declarations

/-- The declaration of a state variable `x`, on a line of its own. -/
def stateGlyphs (literal : List Glyph) : List Glyph :=
  .word ⟨.newline, "\n"⟩ :: .word ⟨.keyword .state, "state"⟩ :: .blank ::
    .word ⟨.identifier, "x"⟩ :: .blank :: .word ⟨.assign, "="⟩ :: .blank ::
      (literal ++ [.word ⟨.newline, "\n"⟩])

/-- A component that declares a state variable `x` with a literal, and nothing else. -/
def stateText (literal : List Glyph) : String :=
  "component C \x7b\nstate x = " ++ String.ofList (inked literal) ++ "\n\x7d"

/-- The text, word by word. -/
def stateComponentGlyphs (literal : List Glyph) : List Glyph :=
  .word ⟨.keyword .component, "component"⟩ :: .blank :: .word ⟨.identifier, "C"⟩ ::
    blockGlyphs (stateGlyphs literal)

theorem stateText_eq (literal : List Glyph) :
    stateText literal = String.ofList (inked (stateComponentGlyphs literal)) := by
  have hback : inked (literal ++ [.word ⟨.newline, "\n"⟩] ++ [.word ⟨.closing .brace, "\x7d"⟩]) =
      inked literal ++ "\n\x7d".toList := by
    rw [List.append_assoc, inked_append]
    rfl
  have hfront : inked (stateComponentGlyphs literal) =
      "component C \x7b\nstate x = ".toList ++
        inked (literal ++ [.word ⟨.newline, "\n"⟩] ++ [.word ⟨.closing .brace, "\x7d"⟩]) := rfl
  rw [hfront, hback, String.ofList_append, String.ofList_append, String.ofList_toList,
    String.ofList_toList, ← String.append_assoc]
  rfl

theorem fitsBefore_stateComponentGlyphs {value : StateValue} {literal : List Glyph}
    (hvalue : value.IsLexable) (hliteral : value.WrittenAs literal) :
    FitsBefore [] (stateComponentGlyphs literal) := by
  have hinner (after : List Char) : FitsBefore after (stateGlyphs literal) := by
    have hname : IsName "x" := isName_iff.mpr ⟨rfl, rfl⟩
    have hassign : Word.EndsBefore ⟨.assign, "="⟩
        (' ' :: (inked (literal ++ [.word ⟨.newline, "\n"⟩]) ++ after)) :=
      Word.endsBefore_blank (by simp) _
    refine ⟨.newline, Word.endsBefore_any rfl (by simp) rfl, Spells.word "state".toList (by decide),
      Word.endsBefore_blank (by simp) _, hname, Word.endsBefore_blank (by simp) _,
      isWritten_mark (by decide), hassign, fitsBefore_append.mpr ⟨?_, .newline, ?_, trivial⟩⟩
    · exact StateValue.WrittenAs.fitsBefore value literal hvalue hliteral breaks_newline
    · exact Word.endsBefore_any rfl (by simp) rfl
  obtain ⟨hfits, hbreaks⟩ := fitsBefore_blockGlyphs hinner []
  exact ⟨Spells.word "component".toList (by decide), Word.endsBefore_blank (by simp) _,
    isName_iff.mpr ⟨rfl, rfl⟩, hbreaks _, hfits⟩

/-- The component is read back, with the state variable and nothing else in it. -/
theorem readItem_of_stateComponent {value : StateValue} {literal : List Glyph} {ts : List Token}
    (hvalue : value.IsLexable) (hliteral : value.WrittenAs literal)
    (hts : TokensOf ts (stateComponentGlyphs literal)) :
    ∃ first us here there, ts = first :: us ∧ first.kind = .keyword .component ∧
      Gives (readItem stop first us)
        (.declaration (.component ⟨"C", [.state ⟨"x", value, here⟩], there⟩)) [] := by
  obtain ⟨first, us, rfl, ⟨hfirst, -⟩, hus⟩ := tokensOf_word.mp hts
  obtain ⟨word, us, rfl, ⟨hword, htext⟩, hus⟩ := tokensOf_word.mp (tokensOf_blank.mp hus)
  obtain ⟨opening, p, closing, rfl, hopening, hp, hclosing⟩ := (tokensOf_blank.mp hus).of_braced
  obtain ⟨newline, p, rfl, ⟨hnewline, -⟩, hp⟩ := tokensOf_word.mp hp
  obtain ⟨keyword, p, rfl, ⟨hkeyword, -⟩, hp⟩ := tokensOf_word.mp hp
  obtain ⟨name, p, rfl, ⟨hname, hx⟩, hp⟩ := tokensOf_word.mp (tokensOf_blank.mp hp)
  obtain ⟨assign, p, rfl, ⟨hassign, -⟩, hp⟩ := tokensOf_word.mp (tokensOf_blank.mp hp)
  obtain ⟨vs, q, rfl, hvs, hq⟩ := tokensOf_append.mp (tokensOf_blank.mp hp)
  obtain ⟨last, rfl, hlast, -⟩ := tokensOf_single.mp hq
  have hread := StateValue.WrittenAs.gives stop value literal hvalue hliteral hvs
    ([last] ++ [closing])
  rw [← List.append_assoc] at hread
  have hstatement := readStatement_of_state stop hkeyword hname hassign hlast hread
  have hbody := readStatements_of_state stop hnewline hkeyword hlast hclosing hstatement
  have hitem := readItem_of_gives stop hfirst hword hopening hbody
  rw [htext, hx] at hitem
  exact ⟨first, _, _, _, rfl, hfirst, hitem⟩

/-- **State literals are read back.**  Every value that can be written, nested to any depth, has
literals.  In whatever way one of them is laid out, a component that declares a state variable with
it has neither lexical nor syntax faults, and its only state variable has the value, with the order
of all items and of all keys. -/
theorem parseSource_stateText (value : StateValue) (hvalue : value.IsLexable) :
    (∃ literal, value.WrittenAs literal) ∧ ∀ literal, value.WrittenAs literal →
      (parseSource (stateText literal)).isClean = true ∧
        ∃ location, (parseSource (stateText literal)).program.states =
          [⟨"x", value, location⟩] := by
  refine ⟨value.exists_writtenAs, fun literal hliteral => ?_⟩
  have hscan := scan_inked (fitsBefore_stateComponentGlyphs hvalue hliteral)
  have hwords := tokensOf_placed Position.start (stateComponentGlyphs literal)
  generalize placed Position.start (stateComponentGlyphs literal) = ts at hscan hwords
  generalize (Position.start.advance (inked (stateComponentGlyphs literal))).spanning 0 = loc
    at hscan
  obtain ⟨first, us, here, there, rfl, hfirst, suffix, hitem⟩ :=
    readItem_of_stateComponent ⟨.eof, "", loc⟩ hvalue hliteral hwords
  have hskip : skipNewlines (first :: us) = first :: us := skipNewlines_of_ne (by simp [hfirst])
  have hlist : readItemList ⟨.eof, "", loc⟩ (first :: us) =
      ⟨[.declaration (.component ⟨"C", [.state ⟨"x", value, here⟩], there⟩)], []⟩ := by
    rw [readItemList_of_ok _ hskip hitem, readItemList_of_nil _ rfl]
  have hparsed : parseSource (stateText literal) =
      ⟨⟨[.declaration (.component ⟨"C", [.state ⟨"x", value, here⟩], there⟩)]⟩, [], []⟩ := by
    rw [parseSource, stateText_eq, hscan]
    simp only [readProgram, hlist]
  rw [hparsed]
  exact ⟨rfl, here, rfl⟩

/-- An object with an array inside, over several lines.  Its second key would come first in
alphabetical order, and its string looks like the end of the array. -/
theorem parseSource_nested_literal :
    let value : StateValue :=
      .object [("b", .array [.number "-1.50", .string "],", .null]), ("a", .object [])]
    let newline : Glyph := .word ⟨.newline, "\n"⟩
    let comma : Glyph := .word ⟨.comma, ","⟩
    let items : List Glyph :=
      [newline, .word ⟨.minus, "-"⟩, .word ⟨.number, "1.50"⟩, comma, .blank,
        .word ⟨.string, "],"⟩, comma, .word ⟨.null, "null"⟩, .word ⟨.closing .square, "]"⟩]
    let literal : List Glyph :=
      .word ⟨.opening .brace, "\x7b"⟩ :: .word ⟨.string, "b"⟩ :: .word ⟨.colon, ":"⟩ :: .blank ::
        .word ⟨.opening .square, "["⟩ :: (items ++ [comma, newline, newline, .word ⟨.string, "a"⟩,
          .word ⟨.colon, ":"⟩, .word ⟨.opening .brace, "\x7b"⟩,
          .word ⟨.closing .brace, "\x7d"⟩, .word ⟨.closing .brace, "\x7d"⟩])
    stateText literal = "component C \x7b\nstate x = " ++
        "\x7b\"b\": [\n-1.50, \"],\",null],\n\n\"a\":\x7b\x7d\x7d\n\x7d" ∧
      value.IsLexable ∧ value.WrittenAs literal ∧
      (parseSource (stateText literal)).isClean = true ∧
        ∃ location, (parseSource (stateText literal)).program.states =
          [⟨"x", value, location⟩] := by
  intro value newline comma items literal
  have hlayout (glyphs : List Glyph) (h : glyphs.all (fun glyph =>
      glyph == .blank || glyph == newline) = true) : IsLayout glyphs := by
    simpa [IsLayout, newline] using h
  have hvalue : value.IsLexable := by
    refine ⟨by decide, by decide, ⟨?_, show '"' ∉ [']', ','] by decide, trivial, trivial⟩,
      by decide, ⟨List.nodup_nil, trivial⟩, trivial⟩
    exact ⟨['-'], ['1'], ['.', '5', '0'], rfl, .inr rfl, ⟨by simp, rfl⟩,
      .inr ⟨['5', '0'], rfl, by simp, rfl⟩⟩
  have hitems : StateValue.ItemsWrittenAs [.number "-1.50", .string "],", .null] items :=
    .cons (hlayout [newline] rfl) (.number "-1.50")
      (.cons (hlayout [.blank] rfl) (.string "],") (.last (hlayout [] rfl) .null))
  have hliteral : value.WrittenAs literal :=
    .object (.cons 1 (hlayout [] rfl) (.array hitems)
      (.last 0 (hlayout [newline, newline] rfl) (.object (.nil (hlayout [] rfl)))))
  exact ⟨rfl, hvalue, hliteral, (parseSource_stateText value hvalue).2 literal hliteral⟩

end UiLang
