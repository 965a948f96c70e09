import UiLang.Proofs.Markup.Uniqueness

/-!
# Markers in texts

In the body of a loop the paths in braces that start at the item become markers: `LOOP_ITEM` in the
place of the item, and one more pair of braces.  Everything else stays.  What this means is said by
the pieces of the two texts, each read as a template of its own: markers come from paths of the
item, and all other paths and characters are read as before.  No brace of a marker makes a new path
with what stands next to it.

## Main definitions

* `markedPart`, `IsMarkedFor`: a text and the same text with markers
* `LeavesItem`: a path of the item that is not part of a marker

## Main results

* `templateParts_partsChars`: pieces that stand apart are read back
* `isMarkedFor_mark`: marking a text gives its markers
* `IsMarkedFor.not_leavesItem`: a marked text has no other paths of the item
* `isMarkedFor_self_iff`: which texts need no markers
-/

namespace UiLang

/-- A piece of a text with markers: a path of the item is a path of `LOOP_ITEM` in one more pair of
braces. -/
def markedPart (item : String) : TemplatePart → List TemplatePart
  | .hole path =>
    if path.root = item then [.char '\x7b', .hole ⟨"LOOP_ITEM", path.fields⟩, .char '\x7d']
    else [.hole path]
  | .char c => [.char c]

/-- `marked` is `text` with a marker for every path of the item, and with nothing else changed. -/
def IsMarkedFor (item text marked : String) : Prop :=
  templateParts marked.toList = (templateParts text.toList).flatMap (markedPart item)

/-- The text has a path of the item that is not part of a marker. -/
def LeavesItem (item text : String) : Prop :=
  ∃ before path after, templateParts text.toList = before ++ .hole path :: after ∧
    path.root = item ∧
    ¬(path.root = "LOOP_ITEM" ∧ before.getLast? = some (.char '\x7b') ∧
      after.head? = some (.char '\x7d'))

/-- The text has a path of the item. -/
def MentionsItem (item text : String) : Prop :=
  ∃ path, .hole path ∈ templateParts text.toList ∧ path.root = item

/-! ## Paths as texts -/

section Paths

theorem Path.toList_text (path : Path) :
    path.text.toList =
      path.root.toList ++ path.fields.flatMap fun field => '.' :: field.toList := by
  obtain ⟨root, fields⟩ := path
  rw [Path.text, Path.segments, String.toList_intercalate]
  induction fields generalizing root with
  | nil => simp
  | cons field fields ih =>
    rw [List.map_cons, List.map_cons, List.intercalate_cons_cons, ← List.map_cons, ih]
    simp

theorem splitWhen_intercalate {pieces : List (List Char)} {separator : Char} (hne : pieces ≠ [])
    (h : ∀ piece ∈ pieces, separator ∉ piece) :
    splitWhen (· == separator) ([separator].intercalate pieces) = pieces := by
  have hapart {piece : List Char} (hpiece : separator ∉ piece) :
      splitWhen (· == separator) piece = [piece] := by
    refine splitWhen_of_forall fun c hc => beq_eq_false_iff_ne.mpr ?_
    rintro rfl
    exact hpiece hc
  induction pieces with
  | nil => exact absurd rfl hne
  | cons piece pieces ih =>
    obtain ⟨hpiece, hpieces⟩ := List.forall_mem_cons.mp h
    cases pieces with
    | nil => rw [List.intercalate_singleton, hapart hpiece]
    | cons next pieces =>
      rw [List.intercalate_cons_cons, List.append_assoc, List.singleton_append,
        splitWhen_append_cons (by simp), hapart hpiece, ih (List.cons_ne_nil _ _) hpieces]
      rfl

theorem pathOf?_of_splitWhen {cs root : List Char} {fields : List (List Char)}
    (hsplit : splitWhen (· == '.') cs = root :: fields)
    (h : (root :: fields).all isIdentifier = true) :
    pathOf? cs = some ⟨String.ofList root, fields.map String.ofList⟩ := by
  rw [pathOf?, hsplit]
  exact if_pos h

/-- A path whose segments are identifiers is read back. -/
theorem pathOf?_text {path : Path} (h : ∀ segment ∈ path.segments, IsIdentifier segment) :
    pathOf? path.text.toList = some path := by
  have hpoint : ∀ piece ∈ path.segments.map String.toList, '.' ∉ piece := by
    intro piece hpiece
    obtain ⟨segment, hsegment, rfl⟩ := List.mem_map.mp hpiece
    exact (h segment hsegment).notMem (by decide)
  have hall : (path.segments.map String.toList).all isIdentifier = true := by
    rw [List.all_map, List.all_eq_true]
    exact h
  have hsplit : splitWhen (· == '.') path.text.toList = path.segments.map String.toList := by
    rw [Path.text, String.toList_intercalate]
    exact splitWhen_intercalate (by simp [Path.segments]) hpoint
  obtain ⟨root, fields⟩ := path
  rw [pathOf?_of_splitWhen hsplit hall]
  simp [Function.comp_def]

/-- The characters of a path are no braces. -/
theorem notMem_of_pathOf? {cs : List Char} {path : Path} (h : pathOf? cs = some path) {c : Char}
    (hc : isIdentifierChar c = false) (hpoint : c ≠ '.') : c ∉ cs := by
  have hsegments := isIdentifier_of_pathOf? h
  rw [← toList_text_of_pathOf? h, Path.toList_text]
  intro hmem
  rcases List.mem_append.mp hmem with hroot | hfields
  · exact (hsegments path.root List.mem_cons_self).notMem hc hroot
  · obtain ⟨field, hfield, hmem⟩ := List.mem_flatMap.mp hfields
    rcases List.mem_cons.mp hmem with heq | hmem
    · exact hpoint heq
    · exact (hsegments field (List.mem_cons_of_mem _ hfield)).notMem hc hmem

end Paths

/-! ## Pieces that stand apart -/

/-- The characters of pieces, one after another. -/
def partsChars (parts : List TemplatePart) : List Char :=
  parts.flatMap TemplatePart.chars

/-- Pieces that are read back from their characters: every path is one, and no opening brace that
stands for itself opens one with what follows. -/
def StandApart : List TemplatePart → Prop
  | [] => True
  | .char c :: parts => (c = '\x7b' → hole? (partsChars parts) = none) ∧ StandApart parts
  | .hole path :: parts =>
    (∀ segment ∈ path.segments, IsIdentifier segment) ∧ StandApart parts

section Apart

variable {parts : List TemplatePart}

@[simp] theorem partsChars_char (c : Char) (parts : List TemplatePart) :
    partsChars (.char c :: parts) = c :: partsChars parts := rfl

@[simp] theorem partsChars_hole (path : Path) (parts : List TemplatePart) :
    partsChars (.hole path :: parts) =
      '\x7b' :: (path.text.toList ++ '\x7d' :: partsChars parts) := by
  simp [partsChars, TemplatePart.chars]

theorem isIdentifier_of_hole? {cs rest : List Char} {path : Path}
    (h : hole? cs = some (path, rest)) : ∀ segment ∈ path.segments, IsIdentifier segment := by
  unfold hole? at h
  split at h
  · cases h
  · obtain ⟨found, hfound, heq⟩ := Option.map_eq_some_iff.mp h
    obtain ⟨rfl, -⟩ := Prod.mk.inj heq
    exact isIdentifier_of_pathOf? hfound

/-- A path in braces is found right after its opening brace. -/
theorem hole?_text {path : Path} (h : ∀ segment ∈ path.segments, IsIdentifier segment)
    (rest : List Char) : hole? (path.text.toList ++ '\x7d' :: rest) = some (path, rest) := by
  have hpath := pathOf?_text h
  have hbrace : ∀ c ∈ path.text.toList, (c != '\x7d') = true := by
    intro c hc
    rw [bne_iff_ne]
    rintro rfl
    exact notMem_of_pathOf? hpath (by decide) (by decide) hc
  rw [hole?, List.dropWhile_append_of_pos hbrace, List.takeWhile_append_of_pos hbrace,
    List.dropWhile_cons_of_neg (by simp), List.takeWhile_cons_of_neg (by simp), List.append_nil]
  dsimp only
  rw [hpath, Option.map_some]

/-- **Pieces that stand apart are read back.** -/
theorem templateParts_partsChars (h : StandApart parts) :
    templateParts (partsChars parts) = parts := by
  induction parts with
  | nil => rw [partsChars, List.flatMap_nil, templateParts]
  | cons part parts ih =>
    cases part with
    | char c =>
      obtain ⟨hc, hparts⟩ := h
      rw [partsChars_char, templateParts]
      split
      · rename_i hbrace
        split
        · rename_i path after hhole
          rw [hc hbrace] at hhole
          cases hhole
        · rw [ih hparts]
      · rw [ih hparts]
    | hole path =>
      obtain ⟨hpath, hparts⟩ := h
      have hhole := hole?_text hpath (partsChars parts)
      rw [partsChars_hole, templateParts, if_pos rfl]
      split
      · rename_i found after hfound
        rw [hhole] at hfound
        cases hfound
        rw [ih hparts]
      · rename_i hnone
        rw [hhole] at hnone
        cases hnone

/-- The pieces of a text stand apart. -/
theorem standApart_templateParts (cs : List Char) : StandApart (templateParts cs) := by
  fun_induction templateParts cs with
  | case1 => trivial
  | case2 rest path after hhole _ ih => exact ⟨isIdentifier_of_hole? hhole, ih⟩
  | case3 rest hhole ih =>
    refine ⟨fun _ => ?_, ih⟩
    rw [partsChars, templateParts_chars]
    exact hhole
  | case4 c rest hbrace ih => exact ⟨fun habs => absurd habs hbrace, ih⟩

end Apart

/-! ## Marking -/

section Marking

variable {item : String}

/-- The pieces with markers. -/
def markedParts (item : String) (parts : List TemplatePart) : List TemplatePart :=
  parts.flatMap (markedPart item)

theorem hole?_eq_none_iff {cs : List Char} :
    hole? cs = none ↔ '\x7d' ∉ cs ∨ pathOf? (cs.takeWhile (· != '\x7d')) = none := by
  unfold hole?
  cases hdrop : cs.dropWhile (· != '\x7d') with
  | nil =>
    have hnot : '\x7d' ∉ cs := fun hmem => by simpa using List.dropWhile_eq_nil_iff.mp hdrop _ hmem
    simp [hnot]
  | cons c rest =>
    have hmem : '\x7d' ∈ cs := by
      by_contra hnot
      have hnil : cs.dropWhile (· != '\x7d') = [] := by
        refine List.dropWhile_eq_nil_iff.mpr fun d hd => bne_iff_ne.mpr ?_
        rintro rfl
        exact hnot hd
      rw [hnil] at hdrop
      cases hdrop
    simp [hmem]

@[simp] theorem markedParts_char (c : Char) (parts : List TemplatePart) :
    markedParts item (.char c :: parts) = .char c :: markedParts item parts := rfl

theorem markedParts_hole_of_eq {path : Path} (h : path.root = item) (parts : List TemplatePart) :
    markedParts item (.hole path :: parts) = .char '\x7b' :: .hole ⟨"LOOP_ITEM", path.fields⟩ ::
      .char '\x7d' :: markedParts item parts := by
  rw [markedParts, List.flatMap_cons, markedPart, if_pos h]
  rfl

theorem markedParts_hole_of_ne {path : Path} (h : path.root ≠ item) (parts : List TemplatePart) :
    markedParts item (.hole path :: parts) = .hole path :: markedParts item parts := by
  rw [markedParts, List.flatMap_cons, markedPart, if_neg h]
  rfl

/-- Up to the first closing brace, marking changes nothing unless an opening brace comes first. -/
theorem takeWhile_markedParts (item : String) (parts : List TemplatePart) :
    ('\x7b' ∈ (partsChars parts).takeWhile (· != '\x7d') ∧
        '\x7b' ∈ (partsChars (markedParts item parts)).takeWhile (· != '\x7d')) ∨
      (partsChars parts).takeWhile (· != '\x7d') =
          (partsChars (markedParts item parts)).takeWhile (· != '\x7d') ∧
        ('\x7d' ∈ partsChars parts ↔ '\x7d' ∈ partsChars (markedParts item parts)) := by
  induction parts with
  | nil => exact .inr ⟨rfl, Iff.rfl⟩
  | cons part parts ih =>
    cases part with
    | char c =>
      rw [markedParts_char, partsChars_char, partsChars_char]
      by_cases hc : c = '\x7d'
      · subst hc
        exact .inr ⟨rfl, by simp⟩
      · rw [List.takeWhile_cons_of_pos (by simp [hc]), List.takeWhile_cons_of_pos (by simp [hc])]
        refine ih.imp (And.imp (List.mem_cons_of_mem c) (List.mem_cons_of_mem c)) ?_
        rintro ⟨hfront, hmem⟩
        exact ⟨congrArg (c :: ·) hfront, by simp [hmem]⟩
    | hole path =>
      -- a path in braces and its marker both start with an opening brace
      refine .inl ⟨?_, ?_⟩
      · rw [partsChars_hole, List.takeWhile_cons_of_pos (by decide)]
        exact List.mem_cons_self
      · by_cases hroot : path.root = item
        · rw [markedParts_hole_of_eq hroot, partsChars_char,
            List.takeWhile_cons_of_pos (by decide)]
          exact List.mem_cons_self
        · rw [markedParts_hole_of_ne hroot, partsChars_hole,
            List.takeWhile_cons_of_pos (by decide)]
          exact List.mem_cons_self

theorem pathOf?_eq_none_of_mem {cs : List Char} (h : '\x7b' ∈ cs) : pathOf? cs = none := by
  cases hpath : pathOf? cs with
  | none => rfl
  | some path => exact absurd h (notMem_of_pathOf? hpath (by decide) (by decide))

/-- **Pieces with markers stand apart.** -/
theorem StandApart.markedParts {parts : List TemplatePart} (h : StandApart parts) (item : String) :
    StandApart (markedParts item parts) := by
  induction parts with
  | nil => trivial
  | cons part parts ih =>
    cases part with
    | char c =>
      rw [markedParts_char]
      refine ⟨fun hc => ?_, ih h.2⟩
      -- what follows an opening brace is no path, before the markers are put in and after
      rw [hole?_eq_none_iff]
      rcases takeWhile_markedParts item parts with ⟨-, hfront⟩ | ⟨hfront, hmem⟩
      · exact .inr (pathOf?_eq_none_of_mem hfront)
      · rw [← hfront, ← hmem]
        exact hole?_eq_none_iff.mp (h.1 hc)
    | hole path =>
      obtain ⟨hpath, hparts⟩ := h
      by_cases hroot : path.root = item
      · rw [markedParts_hole_of_eq hroot]
        refine ⟨fun _ => ?_, ?_, ⟨fun habs => absurd habs (by decide), ih hparts⟩⟩
        · rw [hole?_eq_none_iff, partsChars_hole, List.takeWhile_cons_of_pos (by decide)]
          exact .inr (pathOf?_eq_none_of_mem List.mem_cons_self)
        · have hmarker : IsIdentifier "LOOP_ITEM" := by
            unfold IsIdentifier
            decide
          exact List.forall_mem_cons.mpr
            ⟨hmarker, fun field hfield => hpath field (List.mem_cons_of_mem _ hfield)⟩
      · rw [markedParts_hole_of_ne hroot]
        exact ⟨hpath, ih hparts⟩

/-- The marker of an item is its path in two pairs of braces. -/
theorem itemMarker_eq (fields : List String) :
    itemMarker fields = partsChars [.char '\x7b', .hole ⟨"LOOP_ITEM", fields⟩, .char '\x7d'] := by
  have hfront : "\x7b\x7bLOOP_ITEM".toList = '\x7b' :: '\x7b' :: "LOOP_ITEM".toList := by decide
  rw [partsChars_char, partsChars_hole, partsChars_char, Path.toList_text]
  change "\x7b\x7bLOOP_ITEM".toList ++ fields.flatMap (fun field => '.' :: field.toList) ++
    ['\x7d', '\x7d'] = _
  rw [hfront]
  rfl

theorem toList_mark (item : String) (array : Path) (text : String) :
    ((Scope.ofLoop item array).mark text).toList =
      partsChars (markedParts item (templateParts text.toList)) := by
  change (String.ofList _).toList = _
  rw [String.toList_ofList, partsChars, markedParts, List.flatMap_assoc]
  refine List.flatMap_congr fun part _ => ?_
  cases part with
  | char c => rfl
  | hole path =>
    rw [LoopScope.markPart, markedPart]
    split
    · exact itemMarker_eq path.fields
    · simp

/-- **Marking a text puts in its markers and changes nothing else.** -/
theorem isMarkedFor_mark (item : String) (array : Path) (text : String) :
    IsMarkedFor item text ((Scope.ofLoop item array).mark text) := by
  rw [IsMarkedFor, toList_mark,
    templateParts_partsChars ((standApart_templateParts text.toList).markedParts item)]
  rfl

/-- A path of the item among marked pieces stands inside a marker. -/
theorem eq_marker_of_markedParts {parts before after : List TemplatePart} {path : Path}
    (h : markedParts item parts = before ++ .hole path :: after) (hroot : path.root = item) :
    path.root = "LOOP_ITEM" ∧ before.getLast? = some (.char '\x7b') ∧
      after.head? = some (.char '\x7d') := by
  have hlast {first : TemplatePart} {rest : List TemplatePart}
      (hrest : rest.getLast? = some (.char '\x7b')) :
      (first :: rest).getLast? = some (.char '\x7b') := by
    rw [List.getLast?_cons, hrest]
    rfl
  induction parts generalizing before with
  | nil => simp [markedParts] at h
  | cons part parts ih =>
    cases part with
    | char c =>
      rw [markedParts_char] at h
      cases before with
      | nil => cases (List.cons.inj h).1
      | cons first before =>
        obtain ⟨hmarker, hbefore, hafter⟩ := ih (List.cons.inj h).2
        exact ⟨hmarker, hlast hbefore, hafter⟩
    | hole found =>
      by_cases hfound : found.root = item
      · rw [markedParts_hole_of_eq hfound] at h
        -- the marker itself, or a later one
        rcases before with _ | ⟨first, _ | ⟨second, _ | ⟨third, before⟩⟩⟩
        · cases (List.cons.inj h).1
        · obtain ⟨rfl, hrest⟩ := List.cons.inj h
          obtain ⟨heq, rfl⟩ := List.cons.inj hrest
          obtain rfl := TemplatePart.hole.inj heq
          exact ⟨rfl, rfl, rfl⟩
        · cases (List.cons.inj (List.cons.inj (List.cons.inj h).2).2).1
        · obtain ⟨hmarker, hbefore, hafter⟩ :=
            ih (List.cons.inj (List.cons.inj (List.cons.inj h).2).2).2
          exact ⟨hmarker, hlast (hlast (hlast hbefore)), hafter⟩
      · rw [markedParts_hole_of_ne hfound] at h
        cases before with
        | nil =>
          obtain rfl := TemplatePart.hole.inj (List.cons.inj h).1
          exact absurd hroot hfound
        | cons first before =>
          obtain ⟨hmarker, hbefore, hafter⟩ := ih (List.cons.inj h).2
          exact ⟨hmarker, hlast hbefore, hafter⟩

/-- **A marked text has no paths of the item but in markers.** -/
theorem IsMarkedFor.not_leavesItem {text marked : String} (h : IsMarkedFor item text marked) :
    ¬LeavesItem item marked := by
  rintro ⟨before, path, after, hparts, hroot, hnot⟩
  exact hnot (eq_marker_of_markedParts (h.symm.trans hparts) hroot)

theorem markedParts_eq_self_iff {parts : List TemplatePart} :
    markedParts item parts = parts ↔ ∀ path, .hole path ∈ parts → path.root ≠ item := by
  induction parts with
  | nil => simp [markedParts]
  | cons part parts ih =>
    cases part with
    | char c => simp [ih]
    | hole found =>
      by_cases hfound : found.root = item
      · rw [markedParts_hole_of_eq hfound]
        refine ⟨fun h => ?_, fun h => absurd hfound (h found List.mem_cons_self)⟩
        cases (List.cons.inj h).1
      · rw [markedParts_hole_of_ne hfound]
        simp [ih, hfound]

/-- **A text that is written as it is has its markers exactly when it needs none.** -/
theorem isMarkedFor_self_iff {text : String} :
    IsMarkedFor item text text ↔ ¬MentionsItem item text := by
  rw [IsMarkedFor, eq_comm]
  refine markedParts_eq_self_iff.trans ?_
  simp [MentionsItem]

end Marking

end UiLang
