import Mathlib.Logic.Relation
import UiLang.Proofs.Source.Cursor
import UiLang.Proofs.Source.Recovery

/-!
# Reading makes progress

Reading a program is a loop over its tokens, whatever they are.  Every turn passes at least one
token and adds one item or one fault, and no turn passes the first end marker.  So the loop ends,
and nothing behind the end marker counts.  A cursor over the whole sequence moves the same way.

## Main definitions

* `Progress`, `Progress.turn?`: where the loop stands, and one turn of it

## Main results

* `Progress.turn?_cases`: what a turn can do
* `Progress.Reaches.position_le`: no turn passes the first end marker
* `Progress.exists_last`: the loop ends with what is read
* `readProgram_progress`: all of this for every token sequence
-/

namespace UiLang

/-! ## Turns -/

/-- Where reading a program stands between two turns: how many tokens were passed, and what they
said. -/
structure Progress where
  position : Nat := 0
  items : List Item := []
  faults : List Diagnostic := []

namespace Progress

/-- One turn.  Newlines are passed; then an item is read, or its fault is noted and the item is
skipped from its first token on.  There is no turn when only newlines are left. -/
def turn? (stream : TokenStream) (now : Progress) : Option Progress :=
  match skipNewlines (stream.tokens.drop now.position) with
  | [] => none
  | first :: rest =>
    match readItem stream.stop first rest with
    | .ok item =>
      some ⟨stream.tokens.length - item.rest.length, now.items ++ [item.value], now.faults⟩
    | .error fault =>
      some ⟨stream.tokens.length - (skipItem stream.stop 0 (first :: rest)).length, now.items,
        now.faults ++ [fault]⟩

/-- Some turns lead from one place to another. -/
def Reaches (stream : TokenStream) : Progress → Progress → Prop :=
  Relation.ReflTransGen fun now next => now.turn? stream = some next

variable {stream : TokenStream} {now next : Progress}

/-- **What a turn can do.**  It leaves `rest`, which is shorter than what was there, and adds an item
that was read or a fault; what is said from there on is what is said now, without that. -/
theorem turn?_cases (h : now.turn? stream = some next) :
    ∃ rest, rest <:+ stream.tokens ∧ rest.length < (stream.tokens.drop now.position).length ∧
      next.position = stream.tokens.length - rest.length ∧
      ((∃ item, next.items = now.items ++ [item] ∧ next.faults = now.faults ∧
          readItemList stream.stop (stream.tokens.drop now.position) =
            ⟨item :: (readItemList stream.stop rest).items,
              (readItemList stream.stop rest).faults⟩) ∨
        ∃ fault, next.items = now.items ∧ next.faults = now.faults ++ [fault] ∧
          readItemList stream.stop (stream.tokens.drop now.position) =
            ⟨(readItemList stream.stop rest).items,
              fault :: (readItemList stream.stop rest).faults⟩) := by
  unfold turn? at h
  split at h
  · cases h
  · rename_i first us hskip
    have hlt := length_lt_of_skipNewlines hskip
    have hus : us <:+ stream.tokens := by
      have hskipped := skipNewlines_suffix (stream.tokens.drop now.position)
      rw [hskip] at hskipped
      exact ((List.suffix_cons first us).trans hskipped).trans (List.drop_suffix _ _)
    split at h
    · rename_i item hread
      obtain rfl := Option.some.inj h
      refine ⟨item.rest, item.suffix.trans hus, Nat.lt_of_le_of_lt item.length_le hlt, rfl, ?_⟩
      left
      exact ⟨item.value, rfl, rfl, readItemList_of_ok stream.stop hskip hread⟩
    · rename_i fault hread
      obtain rfl := Option.some.inj h
      -- an item that can not be read is skipped together with its first token
      have hsuffix := skipItem_suffix stream.stop 0 first us
      refine ⟨_, hsuffix.trans hus, Nat.lt_of_le_of_lt hsuffix.length_le hlt, rfl, ?_⟩
      right
      exact ⟨fault, rfl, rfl, readItemList_of_error stream.stop hskip hread⟩

theorem readItemList_of_turn?_eq_none (h : now.turn? stream = none) :
    readItemList stream.stop (stream.tokens.drop now.position) = ⟨[], []⟩ := by
  unfold turn? at h
  split at h
  · rename_i hskip
    exact readItemList_of_nil stream.stop hskip
  · split at h <;> cases h

/-- Every turn passes a token. -/
theorem position_lt_of_turn? (h : now.turn? stream = some next) : now.position < next.position := by
  obtain ⟨rest, hsuffix, hlt, hposition, -⟩ := turn?_cases h
  rw [List.length_drop] at hlt
  omega

/-- Every turn adds one item or one fault. -/
theorem adds_of_turn? (h : now.turn? stream = some next) :
    (∃ item, next.items = now.items ++ [item] ∧ next.faults = now.faults) ∨
      ∃ fault, next.items = now.items ∧ next.faults = now.faults ++ [fault] := by
  obtain ⟨rest, -, -, -, hadds⟩ := turn?_cases h
  rcases hadds with ⟨item, hitems, hfaults, -⟩ | ⟨fault, hitems, hfaults, -⟩
  · exact .inl ⟨item, hitems, hfaults⟩
  · exact .inr ⟨fault, hitems, hfaults⟩

/-- No turn passes the end. -/
theorem position_le_of_turn? (h : now.turn? stream = some next) :
    next.position ≤ stream.tokens.length := by
  obtain ⟨rest, -, -, hposition, -⟩ := turn?_cases h
  omega

theorem Reaches.position_le (h : Reaches stream {} now) : now.position ≤ stream.tokens.length := by
  induction h with
  | refl => exact Nat.zero_le _
  | tail _ hturn _ => exact position_le_of_turn? hturn

/-- **The loop ends** from any place, and has then added what the tokens left there say.  The
induction is on the number of these tokens, of which every turn leaves fewer. -/
theorem exists_last (stream : TokenStream) (now : Progress) :
    ∃ last, Reaches stream now last ∧ last.turn? stream = none ∧
      last.items =
        now.items ++ (readItemList stream.stop (stream.tokens.drop now.position)).items ∧
      last.faults =
        now.faults ++ (readItemList stream.stop (stream.tokens.drop now.position)).faults := by
  cases hturn : now.turn? stream with
  | none =>
    refine ⟨now, .refl, hturn, ?_, ?_⟩
    · rw [readItemList_of_turn?_eq_none hturn, List.append_nil]
    · rw [readItemList_of_turn?_eq_none hturn, List.append_nil]
  | some next =>
    obtain ⟨rest, hsuffix, hlt, hposition, hadds⟩ := turn?_cases hturn
    have hrest : stream.tokens.drop next.position = rest := by
      rw [hposition, ← List.suffix_iff_eq_drop.mp hsuffix]
    obtain ⟨last, hreaches, hnone, hitems, hfaults⟩ := exists_last stream next
    rw [hrest] at hitems hfaults
    refine ⟨last, .head hturn hreaches, hnone, ?_, ?_⟩
    · rcases hadds with ⟨item, hadded, -, hread⟩ | ⟨fault, hadded, -, hread⟩
      · rw [hitems, hread, hadded, List.append_assoc]
        rfl
      · rw [hitems, hread, hadded]
    · rcases hadds with ⟨item, -, hadded, hread⟩ | ⟨fault, -, hadded, hread⟩
      · rw [hfaults, hread, hadded]
      · rw [hfaults, hread, hadded, List.append_assoc]
        rfl
termination_by stream.tokens.length - now.position
decreasing_by
  have := position_lt_of_turn? hturn
  have := position_le_of_turn? hturn
  omega

end Progress

/-! ## Every token sequence -/

theorem lineCount_le_countP {α : Type} (ends : α → Bool) (as : List α) :
    lineCount ends as ≤ 1 + as.countP ends := by
  induction as with
  | nil => exact Nat.zero_le _
  | cons a as ih =>
    rw [lineCount, List.countP_cons]
    split <;> omega

/-- **Reading makes progress on every token sequence**, with or without end markers.  Turn by turn
it passes tokens, never the first end marker, and adds one item or one fault; after some turns none
is left, and what was added is the program with its faults.  A cursor over the whole sequence does
not pass that marker either: after any number of moves it shows the token that the turns find there.
There is at most one fault more than there are newlines before the first end marker, and nothing
behind that marker counts. -/
theorem readProgram_progress (tokens : List Token) :
    (∃ last, Progress.Reaches (.ofList tokens) {} last ∧ last.turn? (.ofList tokens) = none ∧
        readProgram (.ofList tokens) = (⟨last.items⟩, last.faults)) ∧
      (∀ now, Progress.Reaches (.ofList tokens) {} now →
        now.position ≤ firstEnd tokens ∧
          ∀ next, now.turn? (.ofList tokens) = some next →
            now.position < next.position ∧
              ((∃ item, next.items = now.items ++ [item] ∧ next.faults = now.faults) ∨
                ∃ fault, next.items = now.items ∧ next.faults = now.faults ++ [fault])) ∧
      (∀ n, (Cursor.next^[n] (.ofList tokens)).position = min n (firstEnd tokens) ∧
        (Cursor.next^[n] (.ofList tokens)).peek =
          peek (TokenStream.ofList tokens).stop ((TokenStream.ofList tokens).tokens.drop n)) ∧
      (readProgram (.ofList tokens)).2.length ≤
        1 + (tokens.take (firstEnd tokens)).countP Token.isNewline ∧
      readProgram (.ofList (tokens.take (firstEnd tokens + 1))) = readProgram (.ofList tokens) := by
  refine ⟨?_, ?_, ?_, ?_, ?_⟩
  · obtain ⟨last, hreaches, hnone, hitems, hfaults⟩ :=
      Progress.exists_last (TokenStream.ofList tokens) {}
    refine ⟨last, hreaches, hnone, ?_⟩
    rw [hitems, hfaults]
    rfl
  · intro now hnow
    constructor
    · rw [← length_tokens_ofList]
      exact hnow.position_le
    · intro next hturn
      exact ⟨Progress.position_lt_of_turn? hturn, Progress.adds_of_turn? hturn⟩
  · intro n
    exact ⟨Cursor.position_iterate_next tokens n, Cursor.peek_iterate_next tokens n⟩
  · rw [← tokens_ofList]
    exact (length_faults_le_lineCount _ _).trans (lineCount_le_countP _ _)
  · rw [ofList_take_firstEnd]

end UiLang
