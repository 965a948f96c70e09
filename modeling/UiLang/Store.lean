import UiLang.Json.Basic
import UiLang.Program.Basic

/-!
# The observable state record

The state of a running page, kept on the host.  A write is queued once until the next flush, and
the listeners of its key are called right away with the new and the old value.  A listener may
fail: then the listeners after it are not called, while the value and the queued key stay.  It may
fail at one write and not at another, so writes are counted.

## Main definitions

* `Listener`, `Call`: who is told about a write, and what
* `Store`, `Store.set`, `Store.watch`, `Store.flush`
* `Event`, `Store.step`, `Store.run`: whole histories

## Main results

* `Store.get?_set`: a write is seen at its key and nowhere else
* `Store.flush_flush`: a flush leaves nothing to flush
-/

namespace UiLang

/-- Someone who is told about the writes of a key.  `fails n` says that it fails when it is told
about the write number `n` of a record, counted from zero. -/
structure Listener where
  name : String
  fails : Nat → Bool := fun _ => false

/-- A listener being told about a write. -/
structure Call where
  listener : String
  new : JsonValue
  old : JsonValue

/-- The state record of a page, with the number of writes so far. -/
structure Store where
  values : OrderedMap String JsonValue := ∅
  listeners : OrderedMap String (List Listener) := ∅
  queue : List String := []
  clock : Nat := 0

namespace Store

/-- The listeners that are called at the write number `n`: all up to and including the first that
fails. -/
def called (n : Nat) : List Listener → List Listener
  | [] => []
  | listener :: rest => if listener.fails n then [listener] else listener :: called n rest

/-- The listeners of a key in order of registration. -/
def listenersOf (store : Store) (key : String) : List Listener :=
  (store.listeners.get? key).getD []

/-- Adds a key to a queue that holds every key at most once. -/
def enqueue (queue : List String) (key : String) : List String :=
  if key ∈ queue then queue else queue ++ [key]

/-- The record that a program starts with.  A name declared again keeps its place and takes the
later value. -/
def ofProgram (program : Program) : Store where
  values := .ofList (program.states.map fun state => (state.name, state.value.toJson))

/-- The value of a key. -/
def get? (store : Store) (key : String) : Option JsonValue :=
  store.values.get? key

/-- Writes a value and queues its key. -/
def write (store : Store) (key : String) (value : JsonValue) : Store :=
  { store with
    values := store.values.insert key value
    queue := enqueue store.queue key
    clock := store.clock + 1 }

/-- The calls that a write makes.  A key never set reads as null. -/
def callsOf (store : Store) (key : String) (value : JsonValue) : List Call :=
  let old := (store.get? key).getD .null
  (called store.clock (store.listenersOf key)).map fun listener => ⟨listener.name, value, old⟩

/-- Some listener of the key fails at the next write. -/
def failsOn (store : Store) (key : String) : Bool :=
  (store.listenersOf key).any (·.fails store.clock)

/-- Writes a value: the record after it, and the calls it makes. -/
def set (store : Store) (key : String) (value : JsonValue) : Store × List Call :=
  (store.write key value, store.callsOf key value)

/-- Registers a listener for the writes of a key. -/
def watch (store : Store) (key : String) (listener : Listener) : Store :=
  { store with listeners := store.listeners.insert key (store.listenersOf key ++ [listener]) }

/-- Takes all queued keys. -/
def flush (store : Store) : Store × List String :=
  ({ store with queue := [] }, store.queue)

/-- The whole record as one JSON object. -/
def snapshot (store : Store) : JsonValue :=
  .object store.values.entries

/-- The record with its watched keys and its queue, for inspection. -/
def describe (store : Store) : String :=
  "ReactiveState \x7b values: \x7b" ++
    String.intercalate ", " (JsonValue.describeFields store.values.entries) ++
    "\x7d, watched: [" ++ String.intercalate ", " (store.listeners.keys.map Text.quote) ++
    "], queue: \x7b" ++ String.intercalate ", " (store.queue.map Text.quote) ++ "\x7d \x7d"

@[simp] theorem get?_set (store : Store) (key key' : String) (value : JsonValue) :
    (store.set key value).1.get? key' = if key = key' then some value else store.get? key' :=
  OrderedMap.get?_insert _ _ _ _

@[simp] theorem flush_flush (store : Store) : store.flush.1.flush = (store.flush.1, []) := rfl

end Store

/-- Something that happens to a record. -/
inductive Event where
  | set (key : String) (value : JsonValue)
  | watch (key : String) (listener : Listener)
  | flush

/-- What an event answers: the calls it makes and the keys it takes from the queue. -/
structure Answer where
  calls : List Call := []
  flushed : List String := []

namespace Store

/-- The record after an event, and what the event answers. -/
def step (store : Store) : Event → Store × Answer
  | .set key value =>
    let (store, calls) := store.set key value
    (store, { calls })
  | .watch key listener => (store.watch key listener, {})
  | .flush =>
    let (store, flushed) := store.flush
    (store, { flushed })

/-- The record after a history, and the answers of its events in order. -/
def run (store : Store) : List Event → Store × List Answer
  | [] => (store, [])
  | event :: events =>
    let (store, answer) := store.step event
    let (store, answers) := store.run events
    (store, answer :: answers)

end Store

end UiLang
