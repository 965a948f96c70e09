import Mathlib.Data.List.Forall2
import UiLang.Proofs.Seam.Item

/-!
# Programs across a seam

A program is read item by item, and every step takes both streams to places that belong together.
After an item that can not be read, skipping goes side by side too: where the first stream ends,
the second is before the newline of the tail, and a guarded tail starts a line there that an item
starts with.

## Main results

* `Seam.skipItem_sync`: skipping, one step of the recovery
* `Seam.readItemList_sync`: the items and faults of both streams
* `readItemList_relocated`, `readItemList_down`: moving all tokens moves the items and the faults
* `readItemList_append`: two sequences with a newline between them
-/

namespace UiLang

/-! ## One item at a time -/

section Steps

variable (stop : Token) {ts us : List Token} {first : Token}

theorem readItemList_of_nil (h : skipNewlines ts = []) : readItemList stop ts = ⟨[], []⟩ := by
  rw [readItemList]
  split
  · rfl
  · simp_all

theorem readItemList_of_ok (h : skipNewlines ts = first :: us) {item : Reading Item us}
    (hread : readItem stop first us = .ok item) :
    readItemList stop ts =
      ⟨item.value :: (readItemList stop item.rest).items,
        (readItemList stop item.rest).faults⟩ := by
  rw [readItemList]
  split
  · simp_all
  · rename_i h'
    obtain ⟨rfl, rfl⟩ := List.cons.inj (h.symm.trans h')
    rw [hread]

theorem readItemList_of_error (h : skipNewlines ts = first :: us) {fault : Diagnostic}
    (hread : readItem stop first us = .error fault) :
    readItemList stop ts =
      ⟨(readItemList stop (skipItem stop 0 (first :: us))).items,
        fault :: (readItemList stop (skipItem stop 0 (first :: us))).faults⟩ := by
  rw [readItemList]
  split
  · simp_all
  · rename_i h'
    obtain ⟨rfl, rfl⟩ := List.cons.inj (h.symm.trans h')
    rw [hread]

/-- Newlines before an item say nothing. -/
theorem readItemList_congr (h : skipNewlines ts = skipNewlines us) :
    readItemList stop ts = readItemList stop us := by
  rcases hus : skipNewlines us with _ | ⟨first, rest⟩
  · rw [readItemList_of_nil stop hus, readItemList_of_nil stop (h.trans hus)]
  · cases hread : readItem stop first rest with
    | ok item => rw [readItemList_of_ok stop hus hread, readItemList_of_ok stop (h.trans hus) hread]
    | error fault =>
      rw [readItemList_of_error stop hus hread, readItemList_of_error stop (h.trans hus) hread]

theorem readItemList_cons_newline {newline : Token} (h : newline.kind = .newline) :
    readItemList stop (newline :: ts) = readItemList stop ts :=
  readItemList_congr stop (by rw [skipNewlines_cons, if_pos h])

end Steps

namespace Seam

variable {S : Seam} {ts ts' : List Token}

theorem Sync.skipNewlines_of_nil (h : S.Sync ts ts') (hnil : skipNewlines ts = []) :
    skipNewlines ts' = skipNewlines S.tail := by
  induction ts generalizing ts' with
  | nil => exact congrArg skipNewlines h
  | cons t ts ih =>
    obtain ⟨ts', rfl, rest⟩ := h.uncons
    rw [skipNewlines_cons] at hnil
    split at hnil
    · rename_i hkind
      rw [skipNewlines_cons, Relocation.token_kind, if_pos hkind]
      exact ih rest hnil
    · cases hnil

theorem Sync.startsItem_peek (h : S.Sync ts ts') :
    startsItem (peek S.stop' ts').kind = startsItem (peek S.stop ts).kind := by
  rcases peek_of_front h with hpeek | ⟨-, heof, hnewline⟩
  · rw [hpeek, Relocation.token_kind]
  · rw [heof, hnewline]
    rfl

/-- Skipping an item goes side by side.  When the first stream ends, the second is past the
newline of a guarded tail. -/
theorem skipItem_sync (hguard : S.tail = [] ∨ S.Guarded) (depth : Int) (h : S.Sync ts ts') :
    S.Sync (skipItem S.stop depth ts) (skipItem S.stop' depth ts') ∨
      S.tail ≠ [] ∧ skipItem S.stop depth ts = [] ∧ skipItem S.stop' depth ts' = S.tail.tail := by
  induction ts generalizing depth ts' with
  | nil =>
    cases h.front with
    | shut same nil => exact .inl h
    | opened newline more kind eof tail =>
      -- the first stream is skipped to its end; in the second a newline comes next, and the line
      -- after it starts with a word that stops the skipping at any depth
      have hmore : Guard more := by
        rcases hguard with hnil | hguard
        · simp [hnil] at tail
        · exact hguard.guard_more tail
      obtain ⟨first, rest, rfl, hstarts, -⟩ := hmore.starts
      refine .inr ⟨by simp [tail], rfl, ?_⟩
      rw [skipItem, kind, tail]
      exact if_pos (.inr hstarts)
  | cons t ts ih =>
    obtain ⟨ts', rfl, rest⟩ := h.uncons
    rw [skipItem, skipItem, Relocation.token_kind]
    split
    · exact ih _ rest
    · exact ih _ rest
    · -- whether a newline ends the item depends on the token after it, on either side
      rw [rest.startsItem_peek]
      split
      · exact .inl rest
      · exact ih _ rest
    · exact ih _ rest

theorem readItemList_tail : readItemList S.stop' S.tail.tail = readItemList S.stop' S.tail := by
  rcases S.edge with ⟨hnil, -⟩ | ⟨-, newline, more, htail, hkind⟩
  · rw [hnil, List.tail_nil]
  · rw [htail, List.tail_cons, readItemList_cons_newline S.stop' hkind]

theorem Firm.ok_of_ok {α : Type} {f : α → α} {us us' : List Token} {r : Reading α us}
    {outcome : Read α us'} (h : S.Firm f (.ok r) outcome) :
    ∃ r', outcome = .ok r' ∧ r'.value = f r.value ∧ S.Sync r.rest r'.rest := by
  cases h with
  | ok value rest => exact ⟨_, rfl, value, rest⟩

/-- When the first stream can not be read any further, neither can the second. -/
theorem Firm.error_of_error {α : Type} {f : α → α} {us us' : List Token} {d : Diagnostic}
    {outcome : Read α us'} (h : S.Firm f (.error d : Read α us) outcome)
    (hguard : S.tail = [] ∨ S.Guarded) :
    ∃ d', outcome = .error d' ∧ (S.tail = [] → S.move.Moved d d') := by
  cases h with
  | error moved => exact ⟨_, rfl, fun _ => moved⟩
  | ranOut opened blocked =>
    obtain ⟨d', hd'⟩ := blocked (hguard.resolve_left opened)
    exact ⟨d', hd', fun hnil => absurd hnil opened⟩

/-- What both streams say: the second has the items of the first, moved, and as many faults, and
after them what its tail says.  Without a tail the faults are moved too. -/
theorem readItemList_sync {ts ts' : List Token} (h : S.Sync ts ts')
    (hguard : S.tail = [] ∨ S.Guarded ∨ (readItemList S.stop ts).faults = []) :
    ∃ faults, List.Forall₂ (fun d d' => S.tail = [] → S.move.Moved d d')
        (readItemList S.stop ts).faults faults ∧
      readItemList S.stop' ts' =
        ⟨(readItemList S.stop ts).items.map (Item.relocate S.move.place) ++
            (readItemList S.stop' S.tail).items,
          faults ++ (readItemList S.stop' S.tail).faults⟩ := by
  -- The recursion is that of `readItemList` on the first stream.  Both sides read one item or skip
  -- one, and are then at places that belong together again, or the first side is at its end.
  obtain ⟨us, us', hus, hus', hle, hskip⟩ := h.skip
  match us, hskip with
  | [], hskip =>
    rw [readItemList_of_nil S.stop hus, readItemList_congr S.stop' (h.skipNewlines_of_nil hus)]
    exact ⟨[], .nil, rfl⟩
  | first :: us, .token _ _ us' kind rest =>
    have hfirm := readItem_firm first rest
    cases hread : readItem S.stop first us with
    | ok item =>
      rw [hread] at hfirm
      rw [readItemList_of_ok S.stop hus hread] at hguard ⊢
      obtain ⟨item', hread', value, rest⟩ := hfirm.ok_of_ok
      obtain ⟨faults, hfaults, hlist⟩ := readItemList_sync rest hguard
      refine ⟨faults, hfaults, ?_⟩
      rw [readItemList_of_ok S.stop' hus' hread', hlist, value]
      rfl
    | error fault =>
      rw [hread] at hfirm
      rw [readItemList_of_error S.stop hus hread] at hguard ⊢
      have hguarded : S.tail = [] ∨ S.Guarded := by simpa using hguard
      obtain ⟨fault', hread', hmoved⟩ := hfirm.error_of_error hguarded
      rw [readItemList_of_error S.stop' hus' hread']
      rcases skipItem_sync hguarded 0 rest.cons with hsync | ⟨hne, hnil, htail⟩
      · obtain ⟨faults, hfaults, hlist⟩ := readItemList_sync hsync (hguarded.imp_right .inl)
        refine ⟨fault' :: faults, .cons hmoved hfaults, ?_⟩
        rw [hlist]
        rfl
      · -- skipping took the first stream to its end and the second one past the newline
        refine ⟨[fault'], .cons hmoved ?_, ?_⟩
        · rw [hnil, readItemList_of_nil S.stop rfl]
          exact .nil
        · rw [hnil, htail, readItemList_of_nil S.stop rfl, readItemList_tail]
          rfl
termination_by ts.length
decreasing_by
  · have := (skipItem_suffix S.stop 0 first us).length_le
    rw [List.length_cons] at hle
    omega
  · have := item.length_le
    rw [List.length_cons] at hle
    omega

end Seam

/-! ## Whole programs -/

/-- A seam without a tail: the second stream is the first one moved. -/
def Relocation.seam (move : Relocation) (stop : Token) : Seam :=
  ⟨move, stop, move.token stop, [], .inl ⟨rfl, rfl⟩⟩

theorem Relocation.sync_seam (move : Relocation) (stop : Token) (ts : List Token) :
    (move.seam stop).Sync ts (ts.map move.token) :=
  (List.append_nil _).symm

/-- Moving all tokens moves the items and the faults. -/
theorem readItemList_relocated (move : Relocation) (stop : Token) (ts : List Token) :
    ∃ faults, List.Forall₂ move.Moved (readItemList stop ts).faults faults ∧
      readItemList (move.token stop) (ts.map move.token) =
        ⟨(readItemList stop ts).items.map (Item.relocate move.place), faults⟩ := by
  obtain ⟨faults, hfaults, hlist⟩ := Seam.readItemList_sync (move.sync_seam stop ts) (.inl rfl)
  have htail : readItemList (move.seam stop).stop' (move.seam stop).tail = ⟨[], []⟩ :=
    readItemList_of_nil _ rfl
  rw [htail, List.append_nil, List.append_nil] at hlist
  exact ⟨faults, hfaults.imp fun d d' hmoved => hmoved rfl, hlist⟩

/-- Moving all tokens down moves the items and the faults down. -/
theorem readItemList_down (n : Nat) (stop : Token) (ts : List Token) :
    readItemList (stop.relocate (.down n)) (ts.map (Token.relocate (.down n))) =
      ⟨(readItemList stop ts).items.map (Item.relocate (.down n)),
        (readItemList stop ts).faults.map (Diagnostic.relocate (.down n))⟩ := by
  have htoken : (Relocation.down n).token = Token.relocate (.down n) :=
    funext (Relocation.down_token n)
  obtain ⟨faults, hfaults, hlist⟩ := readItemList_relocated (.down n) stop ts
  have hmoved : (readItemList stop ts).faults.map (Diagnostic.relocate (.down n)) = faults := by
    rw [← List.forall₂_eq_eq_eq, List.forall₂_map_left_iff]
    exact hfaults.imp fun d d' hmoved => (Relocation.eq_of_moved_down hmoved).symm
  rw [hmoved, ← htoken]
  exact hlist

/-- Two sequences with a newline between them, the first without faults or the second one
guarded: the items of both, and no more faults than each has alone. -/
theorem readItemList_append {stop : Token} (stop' newline : Token) {ts more : List Token}
    (hstop : stop.kind = .eof) (hnewline : newline.kind = .newline)
    (h : Guard more ∨ (readItemList stop ts).faults = []) :
    ∃ faults, faults.length = (readItemList stop ts).faults.length ∧
      readItemList stop' (ts ++ newline :: more) =
        ⟨(readItemList stop ts).items ++ (readItemList stop' more).items,
          faults ++ (readItemList stop' more).faults⟩ := by
  -- a seam that moves nothing: the second stream goes on where the first one ends
  let S : Seam := ⟨.refl, stop, stop', newline :: more, .inr ⟨hstop, newline, more, rfl, hnewline⟩⟩
  have hsync : S.Sync ts (ts ++ newline :: more) := by
    change _ = ts.map Relocation.refl.token ++ newline :: more
    rw [show Relocation.refl.token = id from funext Relocation.refl_token, List.map_id]
  obtain ⟨faults, hfaults, hlist⟩ := Seam.readItemList_sync hsync (.inr h)
  refine ⟨faults, hfaults.length_eq.symm, hlist.trans ?_⟩
  change ItemList.mk ((readItemList stop ts).items.map (Item.relocate id) ++
    (readItemList stop' (newline :: more)).items)
      (faults ++ (readItemList stop' (newline :: more)).faults) = _
  rw [Item.map_relocate_id, readItemList_cons_newline stop' hnewline]

end UiLang
