import UiLang.Proofs.Store.History

/-!
# Who is told about a write

The calls that a write makes can be read off the history before it.  The listeners that were
registered for its key are told in order of registration, up to the first that fails at this write;
they learn the value being written and the value assigned last before.  How listeners fared at
other writes does not enter, and neither do listeners of other keys.

## Main definitions

* `registered`: the listeners that a history registers for a key
* `told`: those of them that a write reaches
* `Event.alter`: a history with other listeners in the place of its own

## Main results

* `Store.Knows.step`, `Store.Knows.run`: one event, and whole histories
* `Store.run_calls`: the calls of every event of every history
-/

namespace UiLang

/-! ## What a history says about listeners -/

namespace Event

/-- The listener that an event registers for a key. -/
def listener? (key : String) : Event → Option Listener
  | .watch watched listener => if watched = key then some listener else none
  | _ => none

/-- The event with another listener in the place of the one it registers. -/
def alter (f : Listener → Listener) : Event → Event
  | .set key value => .set key value
  | .watch key listener => .watch key (f listener)
  | .flush => .flush

@[simp] theorem write?_alter (f : Listener → Listener) (event : Event) :
    (event.alter f).write? = event.write? := by
  cases event <;> rfl

@[simp] theorem listener?_alter (f : Listener → Listener) (key : String) (event : Event) :
    (event.alter f).listener? key = (event.listener? key).map f := by
  cases event with
  | watch watched listener =>
    rw [alter, listener?, listener?]
    split <;> rfl
  | _ => rfl

end Event

/-- The listeners that a history registers for a key, in order. -/
def registered (key : String) (events : List Event) : List Listener :=
  events.filterMap (Event.listener? key)

/-- The listeners that the write number `n` reaches: those before the first that fails at it, and
that one. -/
def told (n : Nat) (listeners : List Listener) : List Listener :=
  listeners.takeWhile (!·.fails n) ++ (listeners.find? (·.fails n)).toList

section Listeners

variable (key : String) (events : List Event)

theorem registered_append_set (written : String) (value : JsonValue) :
    registered key (events ++ [.set written value]) = registered key events :=
  List.filterMap_append.trans (List.append_nil _)

theorem registered_append_flush : registered key (events ++ [.flush]) = registered key events :=
  List.filterMap_append.trans (List.append_nil _)

theorem registered_append_watch (watched : String) (listener : Listener) :
    registered key (events ++ [.watch watched listener]) =
      if watched = key then registered key events ++ [listener] else registered key events := by
  unfold registered
  rw [List.filterMap_append, List.filterMap_cons, List.filterMap_nil, Event.listener?]
  by_cases h : watched = key
  · simp [h]
  · simp [h]

theorem writes_map_alter (f : Listener → Listener) :
    writes (events.map (Event.alter f)) = writes events := by
  unfold writes
  rw [List.filterMap_map]
  exact List.filterMap_congr fun event _ => event.write?_alter f

theorem registered_map_alter (f : Listener → Listener) :
    registered key (events.map (Event.alter f)) = (registered key events).map f := by
  unfold registered
  rw [List.filterMap_map, List.map_filterMap]
  exact List.filterMap_congr fun event _ => event.listener?_alter f key

/-- Listeners that fare alike at a write are told about it alike. -/
theorem told_map {n : Nat} {f : Listener → Listener} (h : ∀ l, (f l).fails n = l.fails n)
    (listeners : List Listener) : told n (listeners.map f) = (told n listeners).map f := by
  unfold told
  rw [List.takeWhile_map, List.find?_map, List.map_append]
  simp only [Function.comp_def, h]
  cases listeners.find? (·.fails n) <;> rfl

end Listeners

namespace Store

/-- Going through the listeners one by one reaches those that are told. -/
theorem called_eq_told (n : Nat) (listeners : List Listener) :
    called n listeners = told n listeners := by
  induction listeners with
  | nil => rfl
  | cons listener rest ih =>
    rw [called]
    unfold told at ih ⊢
    by_cases h : listener.fails n = true
    · simp [h]
    · simp [h, ih]

/-! ## Steps and runs -/

theorem listenersOf_watch (store : Store) (key watched : String) (listener : Listener) :
    (store.watch watched listener).listenersOf key =
      if watched = key then store.listenersOf key ++ [listener] else store.listenersOf key := by
  unfold listenersOf watch
  rw [OrderedMap.get?_insert]
  split
  · rename_i h
    rw [h]
    rfl
  · rfl

/-- A record knows what a history says about listeners: which ones there are for every key, and how
many writes there were. -/
structure Knows (store : Store) (events : List Event) : Prop where
  listenersOf (key : String) : store.listenersOf key = registered key events
  clock : store.clock = (writes events).length

/-- **One event.**  A write is counted also when a listener fails at it, and adds no listener. -/
theorem Knows.step {store : Store} {events : List Event} (h : store.Knows events) (event : Event) :
    (store.step event).1.Knows (events ++ [event]) := by
  cases event with
  | set key value =>
    constructor
    · intro other
      rw [registered_append_set]
      exact h.listenersOf other
    · rw [writes_append_set, List.length_append, ← h.clock]
      rfl
  | watch key listener =>
    constructor
    · intro other
      rw [registered_append_watch, ← h.listenersOf other]
      exact listenersOf_watch store other key listener
    · rw [writes_append_watch]
      exact h.clock
  | flush =>
    constructor
    · intro other
      rw [registered_append_flush]
      exact h.listenersOf other
    · rw [writes_append_flush]
      exact h.clock

/-- **Whole histories**, by induction from their end. -/
theorem Knows.run {store : Store} (h : store.Knows []) (events : List Event) :
    (store.run events).1.Knows events := by
  induction events using List.reverseRecOn with
  | nil => exact h
  | append_singleton events event ih =>
    rw [run_append]
    exact ih.step event

theorem run_knows (seed : Option Program) (events : List Event) :
    ((initial seed).run events).1.Knows events := by
  refine Knows.run ⟨fun key => ?_, ?_⟩ events
  · cases seed <;> rfl
  · cases seed <;> rfl

/-- The answer to an event, given by the record that its history leaves. -/
theorem getElem?_answers (store : Store) (before later : List Event) (event : Event) :
    (store.run (before ++ event :: later)).2[before.length]? =
      some ((store.run before).1.step event).2 := by
  rw [run_append, ← length_answers store before, List.getElem?_append_right (le_refl _),
    Nat.sub_self, run_cons]
  rfl

/-- The calls of a write after any history. -/
theorem callsOf_run (seed : Option Program) (events : List Event) (key : String)
    (value : JsonValue) :
    ((initial seed).run events).1.callsOf key value =
      (told (writes events).length (registered key events)).map fun listener =>
        ⟨listener.name, value, (lastValue? key (seeds seed ++ writes events)).getD .null⟩ := by
  have hknows := run_knows seed events
  have hold : ((initial seed).run events).1.get? key =
      lastValue? key (seeds seed ++ writes events) := by
    rw [Store.get?, (run_follows seed events).values, OrderedMap.get?_ofList]
  unfold callsOf
  dsimp only
  rw [called_eq_told, hknows.listenersOf, hknows.clock, hold]

/-- **Notification.**  A write tells the listeners registered for its key before it, once each and
in order of registration, up to and including the first that fails at this write.  Each learns the
value written and the value assigned last before, by a write or as a seed, or null.  The calls stay
the same if listeners fare otherwise at other writes.  Registrations and flushes call nobody. -/
theorem run_calls (seed : Option Program) (before later : List Event) :
    (∀ key value, ((initial seed).run (before ++ .set key value :: later)).2[before.length]? =
      some ⟨(told (writes before).length (registered key before)).map fun listener =>
        ⟨listener.name, value, (lastValue? key (seeds seed ++ writes before)).getD .null⟩, []⟩) ∧
      (∀ key value (f : Listener → Listener),
        (∀ listener, (f listener).name = listener.name ∧
          (f listener).fails (writes before).length = listener.fails (writes before).length) →
        ((initial seed).run
            ((before ++ .set key value :: later).map (Event.alter f))).2[before.length]? =
          ((initial seed).run (before ++ .set key value :: later)).2[before.length]?) ∧
      (∀ key listener,
        ((initial seed).run (before ++ .watch key listener :: later)).2[before.length]? =
          some ⟨[], []⟩) ∧
      ∃ flushed, ((initial seed).run (before ++ .flush :: later)).2[before.length]? =
        some ⟨[], flushed⟩ := by
  have hset (history later : List Event) (key : String) (value : JsonValue) :
      ((initial seed).run (history ++ .set key value :: later)).2[history.length]? =
        some ⟨((initial seed).run history).1.callsOf key value, []⟩ :=
    getElem?_answers _ _ _ _
  refine ⟨?_, ?_, ?_, ?_⟩
  · intro key value
    rw [hset, callsOf_run]
  · intro key value f hf
    have hlength : before.length = (before.map (Event.alter f)).length :=
      (List.length_map _).symm
    rw [List.map_append, List.map_cons, Event.alter, hset, hlength, hset, callsOf_run, callsOf_run,
      registered_map_alter, writes_map_alter, told_map fun l => (hf l).2, List.map_map]
    simp only [Function.comp_def, fun l => (hf l).1]
  · intro key listener
    exact getElem?_answers _ _ _ _
  · exact ⟨_, getElem?_answers _ _ _ _⟩

/-- A listener that fails at the first write only: the one behind it is told about the second. -/
example : ((initial none).run [.watch "a" ⟨"l", (· == 0)⟩, .watch "a" ⟨"m", fun _ => false⟩,
    .set "a" .null, .set "a" .null]).2.map (fun answer => answer.calls.map Call.listener) =
      [[], [], ["l"], ["l", "m"]] := by
  decide

end Store

end UiLang
