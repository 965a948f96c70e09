import Mathlib.Data.List.Forall2
import UiLang.Proofs.Document.Script
import UiLang.Proofs.Store.History

/-!
# The state record in the script and on the host

The declarations of a program reach a running page twice: the script passes them as a record to the
page, and the host seeds its own record with them.  Both flatten the declarations of all components,
where a name may be declared again, in the same component or in another one, with a value of another
kind.  Whatever the declarations are, both records have the same names in the same order, and at each
name both are written from the declaration that comes last.

## Main definitions

* `Program.lastDeclared?`: the last of the values declared for a name
* `recordText`: how a record is written in the script
* `IsLiteralOf`: how a declared value is written, with the value that the host has for it

## Main results

* `OrderedMap.mem_entries_iff`: the entries of a map are what it holds
* `Program.stateSection_eq`: the section of the state record
* `Program.script_agrees_with_snapshot`: the two records side by side
-/

namespace UiLang

/-! ## Entries of maps -/

namespace OrderedMap

variable {κ ν : Type} [DecidableEq κ]

/-- The entries of a map are what it holds, as long as no key stands in it twice. -/
theorem mem_entries_iff {m : OrderedMap κ ν} (h : m.keys.Nodup) {key : κ} {value : ν} :
    (key, value) ∈ m.entries ↔ m.get? key = some value := by
  obtain ⟨entries⟩ := m
  unfold keys at h
  unfold get?
  induction entries with
  | nil => simp
  | cons entry entries ih =>
    obtain ⟨first, held⟩ := entry
    obtain ⟨hfirst, hrest⟩ := List.nodup_cons.mp h
    by_cases hkey : first = key
    · -- the first entry is the only one at its key
      subst hkey
      have hother : (first, value) ∉ entries := fun hmem =>
        hfirst (List.mem_map.mpr ⟨_, hmem, rfl⟩)
      simp [hother, eq_comm]
    · simpa [hkey, Ne.symm hkey] using ih hrest

theorem nodup_keys_ofList (entries : List (κ × ν)) : (ofList entries).keys.Nodup := by
  rw [keys_ofList]
  exact nodup_distinct _

end OrderedMap

/-! ## Declarations -/

namespace Program

/-- The last of the values that all components of a program declare for a name. -/
def lastDeclared? (program : Program) (name : String) : Option StateValue :=
  lastValue? name (program.states.map fun state => (state.name, state.value))

variable (program : Program)

theorem keys_initialValues :
    program.initialValues.keys = distinct (program.states.map (·.name)) := by
  rw [initialValues, OrderedMap.keys_ofList, List.map_map]
  rfl

theorem lastDeclared?_of_mem {entry : String × StateValue}
    (h : entry ∈ program.initialValues.entries) :
    program.lastDeclared? entry.1 = some entry.2 := by
  rw [lastDeclared?, ← OrderedMap.get?_ofList]
  exact (OrderedMap.mem_entries_iff (OrderedMap.nodup_keys_ofList _)).mp h

/-- The host is seeded with the values that are declared last. -/
theorem values_ofProgram :
    (Store.ofProgram program).values = program.initialValues.mapValues StateValue.toJson := by
  rw [initialValues, ← OrderedMap.ofList_map, List.map_map]
  rfl

end Program

/-! ## Records as text -/

/-- A record as it is written in the script: every name with its literal, in order. -/
def recordText (fields : List (String × String)) : String :=
  if fields.isEmpty then "\x7b\x7d"
  else "\x7b " ++ String.intercalate ", " (fields.map fun field => field.1 ++ ": " ++ field.2) ++
    " \x7d"

/-- How a declared value is written in the script, if the host has the given value for it: a number
as it was declared, and everything else as the compact JSON text of the value of the host. -/
structure IsLiteralOf (declared : StateValue) (hosted : JsonValue) (literal : String) : Prop where
  number : ∀ text, declared = .number text → literal = text
  other : (∀ text, declared ≠ .number text) → literal = hosted.text

theorem isLiteralOf_script (declared : StateValue) :
    IsLiteralOf declared declared.toJson declared.script := by
  cases declared with
  | number text =>
    constructor
    · rintro _ ⟨⟩
      rfl
    · intro h
      exact absurd rfl (h text)
  | _ => exact ⟨nofun, fun _ => rfl⟩

namespace Program

variable (program : Program)

/-- The section of the state record, with its record as text. -/
theorem stateSection_eq :
    program.stateSection = "// Initialize state\nconst state = Frobo.createState(" ++
      recordText program.stateRecord.entries ++ ");" := by
  dsimp only [stateSection, recordText]
  rw [List.isEmpty_map]

/-- The section of the state record is one of the sections of the script. -/
theorem exists_scriptSections_eq :
    ∃ before after, program.scriptSections = before ++ program.stateSection :: after := by
  dsimp only [scriptSections]
  rw [List.append_assoc, List.append_assoc, List.append_assoc, List.append_assoc]
  exact ⟨_, _, List.append_assoc _ [program.stateSection] _⟩

/-- **The record in the script and the record on the host agree.**  The script passes a record with
the names of the host's record, in the same order and none of them twice: the declared names in order
of first declaration.  The literal of a name is the compact JSON text of the value that the host has
for it, unless the value declared last for it is a number: that is passed as it is written. -/
theorem script_agrees_with_snapshot :
    ∃ (fields : List (String × JsonValue)) (literals : List (String × String))
      (before after : List String),
      (Store.ofProgram program).snapshot = .object fields ∧
      program.script = String.intercalate "\n\n" (before ++
        ("// Initialize state\nconst state = Frobo.createState(" ++ recordText literals ++ ");") ::
          after) ∧
      literals.map Prod.fst = fields.map Prod.fst ∧
      fields.map Prod.fst = distinct (program.states.map (·.name)) ∧
      (fields.map Prod.fst).Nodup ∧
      List.Forall₂ (fun field literal => ∃ declared,
        program.lastDeclared? field.1 = some declared ∧ IsLiteralOf declared field.2 literal.2)
        fields literals := by
  obtain ⟨before, after, hsections⟩ := program.exists_scriptSections_eq
  have hkeys : (Store.ofProgram program).values.entries.map Prod.fst =
      distinct (program.states.map (·.name)) := by
    rw [values_ofProgram, ← program.keys_initialValues]
    exact List.map_map
  refine ⟨(Store.ofProgram program).values.entries, program.stateRecord.entries, before, after,
    rfl, ?_, ?_, hkeys, ?_, ?_⟩
  · rw [script, hsections, stateSection_eq]
  · -- both records are written from the same declarations, in the same order
    rw [values_ofProgram, stateRecord_eq_mapValues, OrderedMap.mapValues, OrderedMap.mapValues,
      List.map_map, List.map_map]
    rfl
  · rw [hkeys]
    exact nodup_distinct _
  · rw [values_ofProgram, stateRecord_eq_mapValues, OrderedMap.mapValues, OrderedMap.mapValues,
      List.forall₂_map_left_iff, List.forall₂_map_right_iff, List.forall₂_same]
    intro entry hentry
    exact ⟨entry.2, program.lastDeclared?_of_mem hentry, isLiteralOf_script entry.2⟩

end Program

end UiLang
