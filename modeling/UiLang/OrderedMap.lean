/-!
# Maps that remember the order of insertion

Entries stand in the order in which their keys were first written.  Writing a key again replaces
its value and keeps its place.

## Main definitions

* `OrderedMap`: the entries in order
* `OrderedMap.insert`, `OrderedMap.get?`, `OrderedMap.keys`, `OrderedMap.ofList`

## Main results

* `OrderedMap.get?_insert`: a write is seen at its key and nowhere else
* `OrderedMap.keys_insert`: a write appends a new key and keeps the order of the others
-/

namespace UiLang

/-- A finite map whose entries stand in order of first insertion. -/
structure OrderedMap (κ ν : Type) where
  entries : List (κ × ν)
  deriving Repr

namespace OrderedMap

variable {κ ν : Type} [DecidableEq κ]

instance : EmptyCollection (OrderedMap κ ν) := ⟨⟨[]⟩⟩

/-- Writes a key in a list of entries: in place if it is there, at the end otherwise. -/
def insertEntry (k : κ) (v : ν) : List (κ × ν) → List (κ × ν)
  | [] => [(k, v)]
  | (k', v') :: rest => if k' = k then (k, v) :: rest else (k', v') :: insertEntry k v rest

/-- Writes a key. -/
def insert (m : OrderedMap κ ν) (k : κ) (v : ν) : OrderedMap κ ν :=
  ⟨insertEntry k v m.entries⟩

/-- The value of a key, if it was written. -/
def get? (m : OrderedMap κ ν) (k : κ) : Option ν :=
  (m.entries.find? fun entry => entry.1 = k).map (·.2)

/-- The key was written. -/
def contains (m : OrderedMap κ ν) (k : κ) : Bool :=
  m.entries.any fun entry => entry.1 = k

/-- The keys in order of first insertion. -/
def keys (m : OrderedMap κ ν) : List κ :=
  m.entries.map (·.1)

/-- Writes a key only if it was not written before. -/
def insertNew (m : OrderedMap κ ν) (k : κ) (v : ν) : OrderedMap κ ν :=
  if m.contains k then m else m.insert k v

/-- Writes several entries, first to last. -/
def insertAll (m : OrderedMap κ ν) (entries : List (κ × ν)) : OrderedMap κ ν :=
  entries.foldl (fun m entry => m.insert entry.1 entry.2) m

/-- The map after writing several entries, first to last. -/
def ofList (entries : List (κ × ν)) : OrderedMap κ ν :=
  insertAll ∅ entries

/-- Applies a function to every value. -/
def mapValues {μ : Type} (f : ν → μ) (m : OrderedMap κ ν) : OrderedMap κ μ :=
  ⟨m.entries.map fun entry => (entry.1, f entry.2)⟩

theorem find?_insertEntry (k k' : κ) (v : ν) (es : List (κ × ν)) :
    (insertEntry k v es).find? (fun entry => entry.1 = k') =
      if k = k' then some (k, v) else es.find? (fun entry => entry.1 = k') := by
  induction es with
  | nil => by_cases h : k = k' <;> simp [insertEntry, h]
  | cons e es ih =>
    obtain ⟨k₁, v₁⟩ := e
    by_cases h₁ : k₁ = k
    · by_cases h : k = k' <;> simp_all [insertEntry]
    · by_cases h : k = k'
      · subst h
        simp_all [insertEntry]
      · by_cases h₂ : k₁ = k' <;> simp_all [insertEntry]

/-- **A write is seen at its key and nowhere else.** -/
theorem get?_insert (m : OrderedMap κ ν) (k k' : κ) (v : ν) :
    (m.insert k v).get? k' = if k = k' then some v else m.get? k' := by
  unfold get? insert
  rw [find?_insertEntry]
  split <;> rfl

/-- **A write appends a new key and keeps the order of the others.** -/
theorem keys_insert (m : OrderedMap κ ν) (k : κ) (v : ν) :
    (m.insert k v).keys = if k ∈ m.keys then m.keys else m.keys ++ [k] := by
  obtain ⟨es⟩ := m
  unfold keys insert
  induction es with
  | nil => simp [insertEntry]
  | cons e es ih =>
    obtain ⟨k₁, v₁⟩ := e
    simp only [insertEntry, List.map_cons, List.mem_cons]
    by_cases h₁ : k₁ = k
    · simp [h₁]
    · have h₂ : ¬k = k₁ := fun h => h₁ h.symm
      simp only [h₁, h₂, if_false, false_or, List.map_cons, ih]
      split <;> simp

end OrderedMap

end UiLang
