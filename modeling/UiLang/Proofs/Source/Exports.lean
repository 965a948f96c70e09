import Mathlib.Data.List.Forall2
import UiLang.Proofs.Extent.Program
import UiLang.Proofs.Scan.Insertion
import UiLang.Proofs.Source.Locations
import UiLang.Proofs.Source.Placement

/-!
# Exports

A declaration at the top of a source may be exported or not.  The word `export` in front of it
changes nothing but that: the source still has no faults, and it compiles to the same.

The word is put in front of one declaration after another, the last one first, so that the places of
the others stay as they are.  Each step leaves the items before the declaration alone, and moves
what stands after the word in its line.

## Main definitions

* `sourceItems`, `localStarts`: the items of a source, and where those start that are not exported
* `exportAt`, `withExports`: a source with the word `export` in front of chosen declarations
* `Faultless`: a text without faults, and its items

## Main results

* `Faultless.exported`: one step
* `Faultless.foldr_exportAt`: all of them
* `parseSource_withExports`: exports do not show in what a source compiles to
-/

namespace UiLang

/-! ## Sources with more exports -/

/-- The items of a source, each with the token that it starts with. -/
def sourceItems (source : String) : List (Token × Item) :=
  startedItems (scan source).stream.stop (scan source).stream.tokens

namespace Item

/-- An item that is exported. -/
def isExported : Item → Bool
  | .exported _ _ => true
  | _ => false

/-- A declaration that is not exported. -/
def isLocal : Item → Bool
  | .declaration _ => true
  | _ => false

theorem isExported_relocate (f : Location → Location) (item : Item) :
    (item.relocate f).isExported = item.isExported := by
  cases item <;> rfl

end Item

/-- Where the declarations among some items start that are not exported. -/
def localStarts (starts : List (Token × Item)) : List Position :=
  (starts.filter fun start => start.2.isLocal).map fun start => start.1.location.toPosition

/-- A text that starts at `pos`, with the word `export` put in at a place. -/
def exportAt (place pos : Position) : List Char → List Char
  | [] => []
  | c :: cs =>
    if pos = place then "export ".toList ++ c :: cs else c :: exportAt place (pos.next c) cs

/-- A source with the word `export` in front of the chosen ones of its declarations. -/
def withExports (chosen : Position → Bool) (source : String) : String :=
  String.ofList (((localStarts (sourceItems source)).filter chosen).foldr (exportAt · .start)
    source.toList)

/-- The items of a source are those of its program. -/
theorem map_snd_sourceItems (source : String) :
    (sourceItems source).map Prod.snd = (parseSource source).program.items :=
  map_snd_startedItems _ _

theorem Position.ne_advance {cs : List Char} (h : cs ≠ []) (pos : Position) :
    pos ≠ pos.advance cs := by
  intro heq
  have := precedes_advance h pos
  rw [← heq] at this
  rcases this with hlt | ⟨-, hlt⟩
  · omega
  · omega

/-- The word is put in after the text that leads to its place. -/
theorem exportAt_append (pos : Position) (front : List Char) {text : List Char} (h : text ≠ []) :
    exportAt (pos.advance front) pos (front ++ text) = front ++ ("export ".toList ++ text) := by
  induction front generalizing pos with
  | nil =>
    obtain ⟨c, cs, rfl⟩ := List.exists_cons_of_ne_nil h
    exact if_pos rfl
  | cons c front ih =>
    have hne : pos ≠ pos.advance (c :: front) := pos.ne_advance (by simp)
    rw [List.cons_append, exportAt, if_neg hne, Position.advance_cons, ih, List.cons_append]

/-! ## Texts without faults -/

/-- A text without faults, and its items with the tokens they start with. -/
structure Faultless (text : List Char) (starts : List (Token × Item)) : Prop where
  scanned : (scanFrom .start text).faults = []
  itemized : Itemized (scanFrom .start text).stream.stop (scanFrom .start text).stream.tokens starts

theorem faultless_iff {source : String} {starts : List (Token × Item)} :
    Faultless source.toList starts ↔
      (parseSource source).isClean = true ∧ sourceItems source = starts := by
  have hclean : (parseSource source).isClean = true ↔ (scan source).faults = [] ∧
      (readItemList (scan source).stream.stop (scan source).stream.tokens).faults = [] := by
    rw [ParsedSource.isClean, List.isEmpty_iff]
    exact List.append_eq_nil_iff
  rw [hclean]
  constructor
  · rintro ⟨hscan, hitems⟩
    obtain ⟨hstarts, hfaults⟩ := itemized_iff.mp hitems
    exact ⟨⟨hscan, hfaults⟩, hstarts⟩
  · rintro ⟨⟨hscan, hfaults⟩, hstarts⟩
    exact ⟨hscan, itemized_iff.mpr ⟨hstarts, hfaults⟩⟩

/-- A declaration starts with a word that is not mistaken for a part of the token before it. -/
theorem beginsWord_of_startsDeclaration {token : Token} (h : startsDeclaration token.kind = true)
    {lexeme : List Char} (hspells : Spells token.kind token.text lexeme) (more : List Char) :
    BeginsWord (lexeme ++ more) := by
  unfold startsDeclaration at h
  split at h
  · rename_i hkind
    rw [hkind] at hspells
    rw [hspells.eq_of_keyword (by decide)]
    exact ⟨'c', 'o', _, rfl, rfl, by decide, rfl⟩
  · rename_i hkind
    rw [hkind] at hspells
    rw [hspells.eq_of_keyword (by decide)]
    exact ⟨'f', 'u', _, rfl, rfl, by decide, rfl⟩
  · rename_i hkind
    rw [hkind] at hspells
    rw [hspells.eq_of_keyword (by decide)]
    exact ⟨'a', 's', _, rfl, rfl, by decide, rfl⟩
  · cases h

theorem beginsWord_export (text : List Char) : BeginsWord ("export ".toList ++ text) :=
  ⟨'e', 'x', _, rfl, rfl, by decide, rfl⟩

/-- **One more export.**  The items before the declaration stay as they are, with their places; the
declaration is exported, and the items after it move. -/
theorem Faultless.exported {text : List Char} {earlier later : List (Token × Item)} {token : Token}
    {d : Declaration} (h : Faultless text (earlier ++ (token, .declaration d) :: later)) :
    ∃ (move : Relocation) (word : Token),
      Faultless (exportAt token.location.toPosition .start text)
        (earlier ++ (word, .exported (d.relocate move.place) word.location) ::
          later.map move.start) := by
  obtain ⟨hkind, before, after, htokens, hexported⟩ := h.itemized.exported rfl
  obtain ⟨front, text, rfl, hstarts, hplace, hscan⟩ := scanFrom_cut h.scanned htokens
    fun lexeme more hspells => beginsWord_of_startsDeclaration hkind hspells more
  have hne : text ≠ [] := by
    obtain ⟨c, d, more, rfl, -⟩ := hstarts
    simp
  -- the scan of the text before and after the word is put in
  have hold := hscan text hstarts
  have hnew := hscan _ (beginsWord_export text)
  rw [scanFrom_export] at hnew
  let move := Relocation.rightOn (Position.start.advance front).line 7
  let word : Token := ⟨.keyword .exportWord, "export", (Position.start.advance front).spanning 6⟩
  have hback : (scanFrom (Position.start.advance front) text).stream.tokens = token :: after := by
    rw [hold] at htokens
    exact List.append_cancel_left htokens
  have hmove : move.token = Token.relocate (.rightOn (Position.start.advance front).line 7) :=
    funext (Relocation.rightOn_token _ _)
  refine ⟨move, word, ?_⟩
  rw [hplace, exportAt_append .start front hne]
  constructor
  · have hfaults := h.scanned
    rw [hold] at hfaults
    rw [hnew]
    exact congrArg (List.map _) hfaults
  · have hitems := hexported move word rfl
    rw [hold] at hitems
    rw [hnew]
    rw [hmove, ← hback] at hitems
    exact hitems

/-! ## All chosen declarations -/

/-- What becomes of an item when the chosen declarations are exported: it stays as it is but for
places, and is exported if it was or is chosen. -/
def ExportedBy (chosen : Position → Bool) (start start' : Token × Item) : Prop :=
  start'.2.bare = start.2.bare ∧ start'.2.isExported =
    (start.2.isExported || (start.2.isLocal && chosen start.1.location.toPosition))

theorem ExportedBy.start {chosen : Position → Bool} {start start' : Token × Item}
    (h : ExportedBy chosen start start') (move : Relocation) :
    ExportedBy chosen start (move.start start') :=
  ⟨(Item.bare_relocate _ _).trans h.1, (Item.isExported_relocate _ _).trans h.2⟩

/-- What holds of every single item holds of the lists. -/
theorem map_eq_map_of_exportedBy {α : Type} {chosen : Position → Bool}
    {starts starts' : List (Token × Item)} {f g : Token × Item → α}
    (h : List.Forall₂ (ExportedBy chosen) starts starts')
    (hone : ∀ start start', ExportedBy chosen start start' → g start' = f start) :
    starts'.map g = starts.map f := by
  induction h with
  | nil => rfl
  | cons hstart _ ih => rw [List.map_cons, List.map_cons, hone _ _ hstart, ih]

section Steps

variable {chosen : Position → Bool} {token : Token} {starts : List (Token × Item)}

theorem filter_localStarts_of_chosen {d : Declaration}
    (h : chosen token.location.toPosition = true) :
    (localStarts ((token, .declaration d) :: starts)).filter chosen =
      token.location.toPosition :: (localStarts starts).filter chosen :=
  List.filter_cons_of_pos h

theorem filter_localStarts_of_not {item : Item}
    (h : (item.isLocal && chosen token.location.toPosition) = false) :
    (localStarts ((token, item) :: starts)).filter chosen = (localStarts starts).filter chosen := by
  cases item with
  | declaration d =>
    have hnot : chosen token.location.toPosition = false := h
    exact List.filter_cons_of_neg (by simp [hnot])
  | exported d loc => rfl
  | importFrom i => rfl

end Steps

/-- **The chosen declarations are exported**, from the last one to the first.  The induction goes
along the items; those before the ones that are done are where they were. -/
theorem Faultless.foldr_exportAt (chosen : Position → Bool) {text : List Char}
    {earlier later : List (Token × Item)} (h : Faultless text (earlier ++ later)) :
    ∃ later', Faultless (((localStarts later).filter chosen).foldr (exportAt · .start) text)
        (earlier ++ later') ∧ List.Forall₂ (ExportedBy chosen) later later' := by
  induction later generalizing earlier with
  | nil => exact ⟨[], h, .nil⟩
  | cons start later ih =>
    obtain ⟨token, item⟩ := start
    obtain ⟨later', hfaultless, hall⟩ := @ih (earlier ++ [(token, item)]) (by simpa using h)
    rw [List.append_assoc, List.singleton_append] at hfaultless
    by_cases hchosen : (item.isLocal && chosen token.location.toPosition) = true
    · cases item with
      | declaration d =>
        -- the word moves what stands behind it, and all that stands before stays
        obtain ⟨move, word, hexported⟩ := hfaultless.exported
        have hplace : chosen token.location.toPosition = true := hchosen
        rw [filter_localStarts_of_chosen hplace]
        refine ⟨_, hexported, .cons ⟨?_, ?_⟩ ?_⟩
        · exact Item.bare_relocate move.place (.declaration d)
        · exact hchosen.symm
        · exact List.forall₂_map_right_iff.mpr (hall.imp fun _ _ hone => hone.start move)
      | exported d loc => cases hchosen
      | importFrom i => cases hchosen
    · rw [Bool.not_eq_true] at hchosen
      rw [filter_localStarts_of_not hchosen]
      refine ⟨(token, item) :: later', hfaultless, .cons ⟨rfl, ?_⟩ hall⟩
      rw [hchosen, Bool.or_false]

/-! ## Sources -/

/-- **Exports do not show.**  With the word `export` in front of any chosen ones of its top level
declarations that are not exported, a source without faults still has none.  Exactly the chosen
declarations are exported in addition, and the source compiles to the same markup, styles and
script and starts with the same state record. -/
theorem parseSource_withExports (chosen : Position → Bool) (source : String)
    (h : (parseSource source).isClean = true) :
    (parseSource (withExports chosen source)).isClean = true ∧
      (parseSource (withExports chosen source)).program.items.map Item.isExported =
        (sourceItems source).map (fun start =>
          start.2.isExported || (start.2.isLocal && chosen start.1.location.toPosition)) ∧
      (∀ compiler : Compiler, compiler.limit = none →
        ∃ plain more, compiler.compile source = .ok plain ∧
          compiler.compile (withExports chosen source) = .ok more ∧ more.output = plain.output) ∧
      Store.ofProgram (parseSource (withExports chosen source)).program =
        Store.ofProgram (parseSource source).program := by
  have hplain : Faultless source.toList ([] ++ sourceItems source) := faultless_iff.mpr ⟨h, rfl⟩
  obtain ⟨starts, hmore, hall⟩ := hplain.foldr_exportAt chosen
  have hchars : (withExports chosen source).toList =
      ((localStarts (sourceItems source)).filter chosen).foldr (exportAt · .start)
        source.toList := String.toList_ofList
  rw [← hchars, List.nil_append] at hmore
  obtain ⟨hclean, rfl⟩ := faultless_iff.mp hmore
  have hbare : (parseSource (withExports chosen source)).program.bare =
      (parseSource source).program.bare := by
    refine congrArg Program.mk ?_
    rw [← map_snd_sourceItems, ← map_snd_sourceItems, List.map_map, List.map_map]
    exact map_eq_map_of_exportedBy hall fun _ _ hone => hone.1
  have hflags : (parseSource (withExports chosen source)).program.items.map Item.isExported =
      (sourceItems source).map (fun start =>
        start.2.isExported || (start.2.isLocal && chosen start.1.location.toPosition)) := by
    rw [← map_snd_sourceItems, List.map_map]
    exact map_eq_map_of_exportedBy hall fun _ _ hone => hone.2
  obtain ⟨houtput, hstore⟩ := Program.output_eq_of_bare hbare
  refine ⟨hclean, hflags, ?_, hstore⟩
  intro compiler hlimit
  exact ⟨_, _, Compiler.compile_of_unlimited hlimit h, Compiler.compile_of_unlimited hlimit hclean,
    houtput⟩

/-- A component, and an asynchronous function that starts in the same line; the function in the next
line is not chosen. -/
theorem parseSource_exported_line :
    (parseSource
        "component B \x7b\x7d async function f() \x7b\x7d\nfunction g() \x7b\x7d").isClean = true ∧
      withExports (fun pos => pos.line == 1)
          "component B \x7b\x7d async function f() \x7b\x7d\nfunction g() \x7b\x7d" =
        "export component B \x7b\x7d export async function f() \x7b\x7d\nfunction g() \x7b\x7d" ∧
      List.map Item.isExported (parseSource
        "export component B \x7b\x7d export async function f() \x7b\x7d\nfunction g() \x7b\x7d"
        ).program.items = [true, true, false] := by
  have hclean : (parseSource
      "component B \x7b\x7d async function f() \x7b\x7d\nfunction g() \x7b\x7d").isClean =
        true := by
    decide +kernel
  have hmore : withExports (fun pos => pos.line == 1)
      "component B \x7b\x7d async function f() \x7b\x7d\nfunction g() \x7b\x7d" =
      "export component B \x7b\x7d export async function f() \x7b\x7d\nfunction g() \x7b\x7d" := by
    decide +kernel
  have hitems := (parseSource_withExports (fun pos => pos.line == 1) _ hclean).2.1
  rw [hmore] at hitems
  exact ⟨hclean, hmore, hitems.trans (by decide +kernel)⟩

end UiLang
