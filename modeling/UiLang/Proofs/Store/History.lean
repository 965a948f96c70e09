import Mathlib.Data.List.DropRight
import UiLang.Distinct
import UiLang.Store

/-!
# Histories of the state record

A history is any sequence of writes, registrations and flushes.  What it leaves in a record can be
read off the history alone: the queue holds the keys written since the last flush, each once and in
order of first writing, and the values are those written last.  Listeners do not enter: a write has
reached the record before any of them is called, so it stays when one of them fails.

## Main definitions

* `lastValue?`: the last of the values assigned to a key
* `writes`, `batch`: what a history writes, and which of its keys a flush would take
* `Store.initial`, `Store.seeds`: where a history starts

## Main results

* `OrderedMap.keys_ofList`, `OrderedMap.get?_ofList`: a map against the assignments that made it
* `Store.Follows.step`, `Store.Follows.run`: one event, and whole histories
* `Store.run_batches`: queue, flushes and values of every history
-/

namespace UiLang

/-! ## Assignments in order -/

section Assignments

variable {κ ν : Type} [DecidableEq κ]

/-- An element that comes last is new, or changes nothing. -/
theorem distinct_append_singleton (as : List κ) (a : κ) :
    distinct (as ++ [a]) = if a ∈ as then distinct as else distinct as ++ [a] := by
  induction as with
  | nil => rfl
  | cons b as ih =>
    rw [List.cons_append, distinct, distinct, ih]
    by_cases hb : a = b
    · -- the first element drops its repetition, wherever it stands
      subst hb
      rw [if_pos List.mem_cons_self]
      split <;> simp
    · by_cases has : a ∈ as
      · rw [if_pos has, if_pos (List.mem_cons_of_mem b has)]
      · have hnew : a ∉ b :: as := by
          simpa [hb] using has
        rw [if_neg has, if_neg hnew, List.filter_append]
        simp [hb]

/-- The last of the values assigned to a key. -/
def lastValue? (key : κ) (entries : List (κ × ν)) : Option ν :=
  (entries.filter fun entry => entry.1 = key).getLast?.map Prod.snd

theorem lastValue?_append_singleton (key : κ) (entries : List (κ × ν)) (entry : κ × ν) :
    lastValue? key (entries ++ [entry]) =
      if entry.1 = key then some entry.2 else lastValue? key entries := by
  unfold lastValue?
  rw [List.filter_append]
  split
  · rename_i h
    simp [h]
  · rename_i h
    simp [h]

namespace OrderedMap

theorem ofList_append_singleton (entries : List (κ × ν)) (entry : κ × ν) :
    ofList (entries ++ [entry]) = (ofList entries).insert entry.1 entry.2 := by
  unfold ofList insertAll
  rw [List.foldl_append]
  rfl

/-- The keys of a map stand in order of first assignment. -/
theorem keys_ofList (entries : List (κ × ν)) :
    (ofList entries).keys = distinct (entries.map Prod.fst) := by
  induction entries using List.reverseRecOn with
  | nil => rfl
  | append_singleton entries entry ih =>
    rw [ofList_append_singleton, keys_insert, ih, List.map_append, List.map_singleton,
      distinct_append_singleton]
    simp only [mem_distinct]

/-- A map holds what was assigned last. -/
theorem get?_ofList (entries : List (κ × ν)) (key : κ) :
    (ofList entries).get? key = lastValue? key entries := by
  induction entries using List.reverseRecOn with
  | nil => rfl
  | append_singleton entries entry ih =>
    rw [ofList_append_singleton, get?_insert, ih, lastValue?_append_singleton]

end OrderedMap

end Assignments

/-! ## What a history says -/

namespace Event

/-- The assignment that an event makes. -/
def write? : Event → Option (String × JsonValue)
  | .set key value => some (key, value)
  | _ => none

/-- The event takes all queued keys. -/
def isFlush : Event → Bool
  | .flush => true
  | _ => false

end Event

/-- The assignments of a history in order. -/
def writes (events : List Event) : List (String × JsonValue) :=
  events.filterMap Event.write?

/-- The keys written since the last flush, each once and in order of first writing. -/
def batch (events : List Event) : List String :=
  distinct ((writes (events.rtakeWhile (!·.isFlush))).map Prod.fst)

section History

variable (events : List Event)

@[simp] theorem writes_append_set (key : String) (value : JsonValue) :
    writes (events ++ [.set key value]) = writes events ++ [(key, value)] :=
  List.filterMap_append

@[simp] theorem writes_append_watch (key : String) (listener : Listener) :
    writes (events ++ [.watch key listener]) = writes events :=
  List.filterMap_append.trans (List.append_nil _)

@[simp] theorem writes_append_flush : writes (events ++ [.flush]) = writes events :=
  List.filterMap_append.trans (List.append_nil _)

theorem batch_append_flush : batch (events ++ [.flush]) = [] := by
  unfold batch
  rw [List.rtakeWhile_concat_neg _ _ _ (by simp [Event.isFlush])]
  rfl

theorem batch_append_watch (key : String) (listener : Listener) :
    batch (events ++ [.watch key listener]) = batch events := by
  unfold batch
  rw [List.rtakeWhile_concat_pos _ _ _ rfl, writes_append_watch]

theorem batch_append_set (key : String) (value : JsonValue) :
    batch (events ++ [.set key value]) = Store.enqueue (batch events) key := by
  unfold batch
  rw [List.rtakeWhile_concat_pos _ _ _ rfl, writes_append_set, List.map_append, List.map_singleton,
    distinct_append_singleton, Store.enqueue]
  simp only [mem_distinct]

end History

namespace Store

/-- The record that a history starts with: an empty one, or that of a program. -/
def initial : Option Program → Store
  | none => {}
  | some program => ofProgram program

/-- The assignments that the first record stands for. -/
def seeds : Option Program → List (String × JsonValue)
  | none => []
  | some program => program.states.map fun state => (state.name, state.value.toJson)

/-! ## Steps and runs -/

theorem run_cons (store : Store) (event : Event) (events : List Event) :
    store.run (event :: events) = (((store.step event).1.run events).1,
      (store.step event).2 :: ((store.step event).1.run events).2) :=
  rfl

theorem run_append (store : Store) (events later : List Event) :
    store.run (events ++ later) = (((store.run events).1.run later).1,
      (store.run events).2 ++ ((store.run events).1.run later).2) := by
  induction events generalizing store with
  | nil => rfl
  | cons event events ih =>
    rw [List.cons_append, run_cons, run_cons, ih]
    rfl

theorem length_answers (store : Store) (events : List Event) :
    (store.run events).2.length = events.length := by
  induction events generalizing store with
  | nil => rfl
  | cons event events ih =>
    rw [run_cons, List.length_cons, List.length_cons, ih]

/-- A record that was seeded with some assignments follows a history: its values are those of all
assignments so far, and its queue is the batch of the history. -/
structure Follows (store : Store) (seeded : List (String × JsonValue)) (events : List Event) :
    Prop where
  values : store.values = .ofList (seeded ++ writes events)
  queue : store.queue = batch events

/-- **One event.**  Whatever listeners there are, a record goes on following its history. -/
theorem Follows.step {store : Store} {seeded : List (String × JsonValue)} {events : List Event}
    (h : store.Follows seeded events) (event : Event) :
    (store.step event).1.Follows seeded (events ++ [event]) := by
  cases event with
  | set key value =>
    constructor
    · change store.values.insert key value = _
      rw [h.values, writes_append_set, ← List.append_assoc]
      exact (OrderedMap.ofList_append_singleton _ (key, value)).symm
    · rw [batch_append_set, ← h.queue]
      rfl
  | watch key listener =>
    -- a registration changes the listeners alone
    constructor
    · rw [writes_append_watch]
      exact h.values
    · rw [batch_append_watch]
      exact h.queue
  | flush =>
    constructor
    · rw [writes_append_flush]
      exact h.values
    · rw [batch_append_flush]
      rfl

theorem follows_initial (seed : Option Program) : (initial seed).Follows (seeds seed) [] := by
  constructor
  · cases seed with
    | none => rfl
    | some program => exact congrArg OrderedMap.ofList (List.append_nil _).symm
  · cases seed <;> rfl

/-- **Whole histories.**  The induction is on the history from its end: its last event meets a
record that follows the events before it. -/
theorem Follows.run {store : Store} {seeded : List (String × JsonValue)}
    (h : store.Follows seeded []) (events : List Event) :
    (store.run events).1.Follows seeded events := by
  induction events using List.reverseRecOn with
  | nil => exact h
  | append_singleton events event ih =>
    rw [run_append]
    exact ih.step event

theorem run_follows (seed : Option Program) (events : List Event) :
    ((initial seed).run events).1.Follows (seeds seed) events :=
  (follows_initial seed).run events

/-- **Batches.**  After any history the queue holds the keys written since the last flush, each once
and in order of first writing; a flush answers with that list and leaves nothing queued.  The record
holds for every key what was assigned last, its keys stand in order of first assignment, and a write
leaves all other keys as they are.  Listeners may fail at any write. -/
theorem run_batches (seed : Option Program) (events : List Event) :
    ((initial seed).run events).1.queue = batch events ∧
      (∀ later, ((initial seed).run (events ++ .flush :: later)).2[events.length]? =
        some ⟨[], batch events⟩) ∧
      ((initial seed).run (events ++ [.flush])).1.queue = [] ∧
      ((initial seed).run events).1.values.keys =
        distinct ((seeds seed ++ writes events).map Prod.fst) ∧
      (∀ key, ((initial seed).run events).1.get? key =
        lastValue? key (seeds seed ++ writes events)) ∧
      ∀ key value other, other ≠ key →
        ((initial seed).run (events ++ [.set key value])).1.get? other =
          ((initial seed).run events).1.get? other := by
  have hnow := run_follows seed events
  have hget (history : List Event) (key : String) : ((initial seed).run history).1.get? key =
      lastValue? key (seeds seed ++ writes history) := by
    rw [Store.get?, (run_follows seed history).values, OrderedMap.get?_ofList]
  refine ⟨hnow.queue, ?_, ?_, ?_, hget events, ?_⟩
  · intro later
    -- the answers before the flush are those of the events before it
    rw [run_append, ← length_answers (initial seed) events, List.getElem?_append_right (le_refl _),
      Nat.sub_self, ← hnow.queue]
    rfl
  · rw [(run_follows seed (events ++ [Event.flush])).queue, batch_append_flush]
  · rw [hnow.values, OrderedMap.keys_ofList]
  · intro key value other hne
    rw [hget, hget, writes_append_set, ← List.append_assoc]
    exact (lastValue?_append_singleton other _ (key, value)).trans (if_neg hne.symm)

/-- A listener that fails: the write stays, and is queued once although the key is written again. -/
example : (((initial none).run [.watch "a" ⟨"l", fun _ => true⟩, .set "a" .null, .flush,
    .set "b" .null, .set "a" (.bool true), .set "b" (.bool false)]).1.queue) = ["b", "a"] := by
  decide

end Store

end UiLang
