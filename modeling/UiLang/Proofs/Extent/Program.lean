import UiLang.Proofs.Extent.Item
import UiLang.Proofs.Seam.Program

/-!
# Items and the tokens they start with

Every item of a program starts with a token of its own.  Where a declaration starts, the word
`export` may be put in: the items before it end before the word just as they ended before the
declaration, the declaration becomes an exported one, and the items after it are read as before.

## Main definitions

* `startedItems`: the items of a token sequence, each with the token that it starts with
* `Itemized`: a token sequence without faults, and its items

## Main results

* `map_snd_startedItems`: the items are those of the program
* `itemized_iff`: `Itemized` is what sequences without faults are
* `Itemized.relocated`: moving all tokens moves the items
* `Itemized.exported`: the word `export` in front of a declaration
-/

namespace UiLang

variable {stop first : Token} {ts us : List Token}

/-! ## Items and their first tokens -/

section Started

variable (stop : Token)

/-- The items of a token sequence, each with the token that it starts with. -/
def startedItems (ts : List Token) : List (Token × Item) :=
  match h : skipNewlines ts with
  | [] => []
  | first :: rest =>
    have _hlt := length_lt_of_skipNewlines h
    match readItem stop first rest with
    | .ok item => (first, item.value) :: startedItems item.rest
    | .error _ => startedItems (skipItem stop 0 (first :: rest))
termination_by ts.length
decreasing_by
  · exact Nat.lt_of_le_of_lt item.length_le _hlt
  · exact Nat.lt_of_le_of_lt (skipItem_suffix stop 0 first rest).length_le _hlt

theorem startedItems_of_nil (h : skipNewlines ts = []) : startedItems stop ts = [] := by
  rw [startedItems]
  split
  · rfl
  · simp_all

theorem startedItems_of_ok (h : skipNewlines ts = first :: us) {item : Reading Item us}
    (hread : readItem stop first us = .ok item) :
    startedItems stop ts = (first, item.value) :: startedItems stop item.rest := by
  rw [startedItems]
  split
  · simp_all
  · rename_i h'
    obtain ⟨rfl, rfl⟩ := List.cons.inj (h.symm.trans h')
    rw [hread]

theorem startedItems_of_error (h : skipNewlines ts = first :: us) {fault : Diagnostic}
    (hread : readItem stop first us = .error fault) :
    startedItems stop ts = startedItems stop (skipItem stop 0 (first :: us)) := by
  rw [startedItems]
  split
  · simp_all
  · rename_i h'
    obtain ⟨rfl, rfl⟩ := List.cons.inj (h.symm.trans h')
    rw [hread]

/-- The items are those of the program, faults or not. -/
theorem map_snd_startedItems (ts : List Token) :
    (startedItems stop ts).map Prod.snd = (readItemList stop ts).items := by
  cases hskip : skipNewlines ts with
  | nil => rw [startedItems_of_nil stop hskip, readItemList_of_nil stop hskip, List.map_nil]
  | cons first us =>
    have hlt := length_lt_of_skipNewlines hskip
    cases hread : readItem stop first us with
    | ok item =>
      rw [startedItems_of_ok stop hskip hread, readItemList_of_ok stop hskip hread, List.map_cons,
        map_snd_startedItems item.rest]
    | error fault =>
      rw [startedItems_of_error stop hskip hread, readItemList_of_error stop hskip hread,
        map_snd_startedItems (skipItem stop 0 (first :: us))]
termination_by ts.length
decreasing_by
  · exact Nat.lt_of_le_of_lt (skipItem_suffix stop 0 first us).length_le hlt
  · exact Nat.lt_of_le_of_lt item.length_le hlt

end Started

/-- A token sequence without faults, and its items with the tokens they start with. -/
inductive Itemized (stop : Token) : List Token → List (Token × Item) → Prop
  | done {ts : List Token} (skip : skipNewlines ts = []) : Itemized stop ts []
  | item {ts us : List Token} {first : Token} {item : Reading Item us}
      {more : List (Token × Item)} (skip : skipNewlines ts = first :: us)
      (read : readItem stop first us = .ok item) (rest : Itemized stop item.rest more) :
      Itemized stop ts ((first, item.value) :: more)

theorem itemized_of_faults {ts : List Token} (h : (readItemList stop ts).faults = []) :
    Itemized stop ts (startedItems stop ts) := by
  cases hskip : skipNewlines ts with
  | nil =>
    rw [startedItems_of_nil stop hskip]
    exact .done hskip
  | cons first us =>
    cases hread : readItem stop first us with
    | ok item =>
      rw [readItemList_of_ok stop hskip hread] at h
      rw [startedItems_of_ok stop hskip hread]
      exact .item hskip hread (itemized_of_faults h)
    | error fault =>
      rw [readItemList_of_error stop hskip hread] at h
      cases h
termination_by ts.length
decreasing_by
  exact Nat.lt_of_le_of_lt item.length_le (length_lt_of_skipNewlines hskip)

/-- A token sequence has no faults exactly if it is itemized, and then its items are known. -/
theorem itemized_iff {starts : List (Token × Item)} :
    Itemized stop ts starts ↔
      startedItems stop ts = starts ∧ (readItemList stop ts).faults = [] := by
  constructor
  · intro h
    induction h with
    | done skip => exact ⟨startedItems_of_nil stop skip, by rw [readItemList_of_nil stop skip]⟩
    | item skip read rest ih =>
      rw [startedItems_of_ok stop skip read, readItemList_of_ok stop skip read, ih.1]
      exact ⟨rfl, ih.2⟩
  · rintro ⟨rfl, h⟩
    exact itemized_of_faults h

/-! ## The first token of a declaration -/

/-- A word that a declaration starts with. -/
def startsDeclaration : Kind → Bool
  | .keyword .component | .keyword .function | .keyword .async => true
  | _ => false

theorem startsItem_of_startsDeclaration {kind : Kind} (h : startsDeclaration kind = true) :
    startsItem kind = true := by
  unfold startsDeclaration at h
  split at h
  iterate 3 rfl
  · cases h

/-- An item that is a declaration of its own is read as one. -/
theorem readDeclaration_of_readItem {r : Reading Item ts} {d : Declaration}
    (h : readItem stop first ts = .ok r) (hd : r.value = .declaration d) :
    startsDeclaration first.kind = true ∧ Gives (readDeclaration stop first ts) d r.rest := by
  have hdeclared
      (h : (do return (← readDeclaration stop first ts).map Item.declaration) = Except.ok r) :
      Gives (readDeclaration stop first ts) d r.rest := by
    obtain ⟨declaration, hread, h⟩ := ok_of_bind_eq h
    cases h
    cases hd
    rw [hread]
    exact gives_ok declaration
  unfold readItem at h
  split at h
  · obtain ⟨names, -, h⟩ := ok_of_bind_eq h
    cases h
    cases hd
  · cases ts with
    | nil => cases h
    | cons next ts =>
      obtain ⟨declaration, -, h⟩ := ok_of_bind_eq h
      cases h
      cases hd
  iterate 3
    refine ⟨?_, hdeclared h⟩
    simp [startsDeclaration, *]
  · cases h

/-- No item starts where a statement ends. -/
theorem not_startsItem_of_statementEnd {r : Reading Unit ts}
    (h : expectStatementEnd stop ts = .ok r) : startsItem (peek stop r.rest).kind = false := by
  unfold expectStatementEnd at h
  split at h
  iterate 3
    rename_i hkind
    cases h
    change startsItem (peek stop ts).kind = false
    rw [hkind]
    rfl
  · cases h

/-- No item starts right after an import. -/
theorem not_startsItem_of_import {r : Reading Item ts} (h : readItem stop first ts = .ok r)
    (hkind : first.kind = .keyword .importWord) : startsItem (peek stop r.rest).kind = false := by
  rw [readItem, hkind] at h
  dsimp only at h
  obtain ⟨names, hnames, h⟩ := ok_of_bind_eq h
  cases h
  obtain ⟨closed, -, h⟩ := ok_of_bind_eq hnames
  obtain ⟨word, -, h⟩ := ok_of_bind_eq h
  obtain ⟨source, -, h⟩ := ok_of_bind_eq h
  obtain ⟨close, hclose, h⟩ := ok_of_bind_eq h
  cases h
  change startsItem (peek stop close.rest).kind = false
  exact not_startsItem_of_statementEnd hclose

/-! ## Moving all tokens -/

/-- An item with its first token, moved. -/
def Relocation.start (move : Relocation) (s : Token × Item) : Token × Item :=
  (move.token s.1, s.2.relocate move.place)

theorem Relocation.gives_of_firm {α : Type} {f : α → α} {move : Relocation} {ts us : List Token}
    {outcome : Read α ts} {outcome' : Read α us} {value : α} {rest : List Token}
    (h : (move.seam stop).Firm f outcome outcome') (hgives : Gives outcome value rest) :
    Gives outcome' (f value) (rest.map move.token) := by
  obtain ⟨suffix, rfl⟩ := hgives
  obtain ⟨r, rfl, hvalue, hrest⟩ := h.ok_of_ok
  have hrest : r.rest = rest.map move.token := hrest.trans (List.append_nil _)
  exact gives_iff.mpr ⟨r, rfl, hvalue, hrest⟩

theorem skipNewlines_map (move : Relocation) (ts : List Token) :
    skipNewlines (ts.map move.token) = (skipNewlines ts).map move.token := by
  rw [skipNewlines, List.dropWhile_map]
  rfl

/-- An item in front, by what its reader gives. -/
theorem Itemized.of_gives {item : Item} {rest : List Token} {more : List (Token × Item)}
    (hskip : skipNewlines ts = first :: us) (hread : Gives (readItem stop first us) item rest)
    (hmore : Itemized stop rest more) : Itemized stop ts ((first, item) :: more) := by
  obtain ⟨suffix, hread⟩ := hread
  exact .item hskip hread hmore

/-- Moving all tokens moves the items. -/
theorem Itemized.relocated {starts : List (Token × Item)} (h : Itemized stop ts starts)
    (move : Relocation) :
    Itemized (move.token stop) (ts.map move.token) (starts.map move.start) := by
  induction h with
  | done skip => exact .done (by rw [skipNewlines_map, skip, List.map_nil])
  | @item ts us first item more skip read rest ih =>
    have hskip : skipNewlines (ts.map move.token) = move.token first :: us.map move.token := by
      rw [skipNewlines_map, skip, List.map_cons]
    have hfirm := Seam.readItem_firm first (move.sync_seam stop us)
    exact .of_gives hskip (Relocation.gives_of_firm hfirm (read ▸ gives_ok item)) ih

/-! ## The word `export` in front of a declaration -/

/-- Newlines before a token are before any other one too. -/
theorem exists_newlines (h : skipNewlines ts = first :: us) :
    ∃ newlines, ts = newlines ++ first :: us ∧ ∀ next rest, next.kind ≠ .newline →
      skipNewlines (newlines ++ next :: rest) = next :: rest := by
  have hall : ∀ token ∈ ts.takeWhile (fun token => token.kind == .newline),
      (token.kind == .newline) = true := List.all_eq_true.mp List.all_takeWhile
  refine ⟨ts.takeWhile fun token => token.kind == .newline, ?_, ?_⟩
  · rw [← h]
    exact List.takeWhile_append_dropWhile.symm
  · intro next rest hnext
    rw [skipNewlines, List.dropWhile_append_of_pos hall,
      List.dropWhile_cons_of_neg (by simp [hnext])]

theorem kind_ne_newline_of_skipNewlines (h : skipNewlines ts = first :: us) :
    first.kind ≠ .newline := by
  have hhead := List.head?_dropWhile_not (fun token : Token => token.kind == .newline) ts
  rw [show ts.dropWhile (fun token => token.kind == .newline) = first :: us from h] at hhead
  simpa using hhead

/-- **The word `export` in front of a declaration.**  The items before it stay, the declaration is
exported, and everything after the word may move. -/
theorem Itemized.exported {starts : List (Token × Item)} (h : Itemized stop ts starts)
    {earlier later : List (Token × Item)} {token : Token} {d : Declaration}
    (hstarts : starts = earlier ++ (token, .declaration d) :: later) :
    startsDeclaration token.kind = true ∧ ∃ before after, ts = before ++ token :: after ∧
      ∀ (move : Relocation) (word : Token), word.kind = .keyword .exportWord →
        Itemized (move.token stop) (before ++ word :: (token :: after).map move.token)
          (earlier ++ (word, .exported (d.relocate move.place) word.location) ::
            later.map move.start) := by
  induction h generalizing earlier with
  | done skip => simp at hstarts
  | @item ts us first item more skip read rest ih =>
    obtain ⟨newlines, hts, hskip⟩ := exists_newlines skip
    cases earlier with
    | nil =>
      obtain ⟨hhead, rfl⟩ := List.cons.inj hstarts
      obtain ⟨rfl, hd⟩ := Prod.mk.inj hhead
      obtain ⟨hkind, hread⟩ := readDeclaration_of_readItem read hd
      refine ⟨hkind, newlines, us, hts, fun move word hword => ?_⟩
      refine .of_gives (hskip word _ (by simp [hword])) ?_ (rest.relocated move)
      rw [readItem, hword]
      have hfirm := Seam.readDeclaration_firm first (move.sync_seam stop us)
      exact (Relocation.gives_of_firm hfirm hread).bind fun _ => gives_ok _
    | cons start earlier =>
      obtain ⟨rfl, hmore⟩ := List.cons.inj hstarts
      obtain ⟨hkind, before, after, hrest, hexported⟩ := ih hmore
      obtain ⟨front, hus, hread⟩ := readItem_extent read
      refine ⟨hkind, newlines ++ first :: (front ++ before), after, ?_, fun move word hword => ?_⟩
      · rw [hts, hus, hrest]
        simp
      · -- an import ends before its line does, so the word does not follow it directly
        have hnext (himport : first.kind = .keyword .importWord) :
            (peek (move.token stop) (before ++ word :: (token :: after).map move.token)).kind =
              (peek stop item.rest).kind := by
          have hnot := not_startsItem_of_import read himport
          rw [hrest] at hnot ⊢
          cases before with
          | nil =>
            change startsItem token.kind = false at hnot
            rw [startsItem_of_startsDeclaration hkind] at hnot
            cases hnot
          | cons t before => rfl
        have hshape (rest : List Token) : newlines ++ first :: (front ++ before) ++ rest =
            newlines ++ first :: (front ++ (before ++ rest)) := by
          simp
        rw [hshape]
        exact .of_gives (hskip first _ (kind_ne_newline_of_skipNewlines skip))
          (hread _ _ hnext) (hexported move word hword)

end UiLang
