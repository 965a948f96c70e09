import UiLang.Proofs.Document.Literals
import UiLang.Script.Basic

/-!
# Tags in the script of a program

The script is fixed text around texts of the source: names, literals, addresses and bodies.  None
of the fixed texts holds a tag, and each of them parts what stands around it.  So the tags in a
script are those in the texts of the source that it holds, and all of those.

## Main definitions

* `Import.scriptTexts`, `Computed.scriptTexts`, `Component.scriptTexts`, `Function.scriptTexts`: the
  texts of the source in the parts of a script
* `Program.initialValues`: the literals that the state record is written from
* `Program.scriptTexts`: the texts of the source in the whole script

## Main results

* `Component.occurrencesIn_registration`, `Program.occurrencesIn_stateSection`: the tags of parts
* `Program.occurrencesIn_script`: the tags of a script
-/

namespace UiLang

variable {word : List Char}

/-! ## Texts of the source -/

/-- The texts of a state literal.  A number by itself is written as it stands in the source. -/
def StateValue.scriptTexts : StateValue → List String
  | .number text => [text]
  | value => value.toJson.strings

/-- The address and the keys of a fetch. -/
def Fetch.scriptTexts (fetch : Fetch) : List String :=
  fetch.url :: (fetch.into.toList ++ fetch.loading.toList ++ fetch.error.toList)

/-- The names and the source of an import. -/
def Import.scriptTexts (import_ : Import) : List String :=
  import_.specifiers ++ [import_.source]

/-- The target and the body of a watcher. -/
def Watcher.scriptTexts (names : List String) (watcher : Watcher) : List String :=
  [watcher.target.root, Qualifier.qualify ⟨names, ["newVal", "oldVal"], true⟩ watcher.body]

/-- The body of a hook. -/
def Hook.scriptTexts (names : List String) (hook : Hook) : List String :=
  [Qualifier.qualify ⟨names, [], true⟩ hook.body]

/-- The name, the parameters and the body of a function. -/
def Function.scriptTexts (names : List String) (function : Function) : List String :=
  function.name :: function.params ++
    [Qualifier.qualify ⟨names, function.params, true⟩ function.body]

/-- The name of a computed property, at both places, and its expression. -/
def Computed.scriptTexts (states computed : List String) (property : Computed) : List String :=
  [property.name, Qualifier.qualify ⟨states ++ computed.filter (· != property.name), [], false⟩
    property.expression, property.name]

/-- The texts of what a component registers. -/
def Component.scriptTexts (names : List String) (component : Component) : List String :=
  component.watchers.flatMap (·.scriptTexts names) ++
    component.fetches.flatMap Fetch.scriptTexts ++ component.hooks.flatMap (·.scriptTexts names)

namespace Program

/-- The literals that the state record is written from: for a name that is declared again, the
later one. -/
def initialValues (program : Program) : OrderedMap String StateValue :=
  .ofList (program.states.map fun state => (state.name, state.value))

/-- The names and literals of the state record. -/
def stateTexts (program : Program) : List String :=
  program.initialValues.entries.flatMap fun entry => entry.1 :: entry.2.scriptTexts

/-- **All texts of the source in the script**, as the script holds them. -/
def scriptTexts (program : Program) : List String :=
  program.imports.flatMap Import.scriptTexts ++ program.stateTexts ++
    program.computed.flatMap (·.scriptTexts program.stateNames program.computedNames) ++
    program.stateful.flatMap (·.scriptTexts program.readable) ++
    program.functions.flatMap (·.scriptTexts program.readable)

end Program

/-! ## Fixed code -/

/-- Lines without tags.  They are taken as lists of characters, which is how they are looked at. -/
inductive AreTagless : List String → Prop
  | nil : AreTagless []
  | cons {line : List Char} {lines : List String} (tagless : isTagless line = true)
      (rest : AreTagless lines) : AreTagless (String.ofList line :: lines)

/-- Fixed code holds no tag if no line of it does. -/
theorem AreTagless.occurrencesIn_lines {lines : List String} (h : AreTagless lines)
    (hword : word ∈ tagWords) : occurrencesIn word (String.intercalate "\n" lines) = 0 := by
  rw [occurrencesIn_intercalate hword (by decide)]
  induction h with
  | nil => rfl
  | cons tagless _ ih => rw [total_cons, occurrencesIn_fixed hword tagless, ih]

/-- The code that does not depend on the program. -/
def fixedCode : List String :=
  [Script.runtime, Script.fetchHelper, Script.dynamicClasses, Script.textWatchers,
    Script.conditionals, Script.inputBindings, Script.loops]

/-- **Fixed code holds no tag.** -/
theorem occurrencesIn_of_mem_fixedCode (hword : word ∈ tagWords) :
    ∀ code ∈ fixedCode, occurrencesIn word code = 0 := by
  have hlines {lines : List String} (h : AreTagless lines) := h.occurrencesIn_lines hword
  simp only [fixedCode, List.forall_mem_cons]
  refine ⟨hlines ?_, hlines ?_, hlines ?_, hlines ?_, hlines ?_, hlines ?_, hlines ?_,
    List.forall_mem_nil _⟩
  all_goals
    repeat refine .cons (by decide +kernel) ?_
    exact .nil

/-! ## Parts of the script -/

section Parts

variable (hword : word ∈ tagWords) (names : List String)

include hword

theorem StateValue.occurrencesIn_script (value : StateValue) :
    occurrencesIn word value.script = total word value.scriptTexts := by
  cases value with
  | number text => rfl
  | _ => exact JsonValue.occurrencesIn_text hword _

theorem occurrencesIn_keyScript (key : Option String) :
    occurrencesIn word (keyScript key) = total word key.toList := by
  cases key with
  | none => exact occurrencesIn_fixed hword (by decide)
  | some key => exact occurrencesIn_stringText hword key

theorem Fetch.occurrencesIn_script (fetch : Fetch) :
    occurrencesIn word fetch.script = total word fetch.scriptTexts := by
  dsimp only [Fetch.script]
  rw [occurrencesIn_trailing hword (by decide), occurrencesIn_leading hword (by decide),
    occurrencesIn_intercalate hword (by decide)]
  simp only [Fetch.scriptTexts, total_cons, total_append, total_nil,
    occurrencesIn_stringText hword, occurrencesIn_keyScript hword]
  omega

theorem Import.occurrencesIn_script (import_ : Import) :
    occurrencesIn word import_.script = total word import_.scriptTexts := by
  dsimp only [Import.script]
  rw [occurrencesIn_parted hword (by decide), occurrencesIn_stringText hword,
    occurrencesIn_leading hword (by decide), occurrencesIn_intercalate hword (by decide),
    Import.scriptTexts, total_append, total_cons, total_nil, Nat.add_zero]

theorem Watcher.occurrencesIn_script (watcher : Watcher) :
    occurrencesIn word (watcher.script names) = total word (watcher.scriptTexts names) := by
  dsimp only [Watcher.script]
  rw [occurrencesIn_trailing hword (by decide), occurrencesIn_parted hword (by decide),
    occurrencesIn_indent hword, occurrencesIn_leading hword (by decide), Watcher.scriptTexts,
    total_cons, total_cons, total_nil, Nat.add_zero]

theorem Hook.occurrencesIn_script (hook : Hook) :
    occurrencesIn word (hook.script names) = total word (hook.scriptTexts names) := by
  rw [Hook.scriptTexts, total_cons, total_nil, Nat.add_zero]
  dsimp only [Hook.script]
  split
  · rw [occurrencesIn_trailing hword (by decide), occurrencesIn_leading hword (by decide),
      occurrencesIn_indent hword]
  · rw [occurrencesIn_trailing hword (by decide), occurrencesIn_leading hword (by decide),
      occurrencesIn_indent hword]

theorem Function.occurrencesIn_script (function : Function) :
    occurrencesIn word (function.script names) = total word (function.scriptTexts names) := by
  have hasync : occurrencesIn word (if function.isAsync then "async " else "") = 0 := by
    cases function.isAsync <;> exact occurrencesIn_fixed hword (by decide)
  dsimp only [Function.script]
  rw [occurrencesIn_trailing hword (by decide), occurrencesIn_parted hword (by decide),
    occurrencesIn_indent hword, occurrencesIn_parted hword (by decide),
    occurrencesIn_intercalate hword (by decide), occurrencesIn_parted hword (by decide), hasync,
    Nat.zero_add, Function.scriptTexts, total_append, total_cons, total_cons, total_nil,
    Nat.add_zero]

theorem Computed.occurrencesIn_script (states computed : List String) (property : Computed) :
    occurrencesIn word (property.script states computed) =
      total word (property.scriptTexts states computed) := by
  dsimp only [Computed.script]
  rw [occurrencesIn_trailing hword (by decide), occurrencesIn_parted hword (by decide),
    occurrencesIn_trailing hword (by decide),
    occurrencesIn_parted hword (by decide), occurrencesIn_leading hword (by decide)]
  simp only [Computed.scriptTexts, total_cons, total_nil]
  omega

omit hword in
theorem Watcher.startsApart_script (watcher : Watcher) :
    startsApart (watcher.script names).toList = true := by
  dsimp only [Watcher.script]
  simp only [String.append_assoc]
  exact startsApart_parting (by decide) _

omit hword in
theorem Hook.startsApart_script (hook : Hook) : startsApart (hook.script names).toList = true := by
  dsimp only [Hook.script]
  split
  · rw [String.append_assoc]
    exact startsApart_parting (by decide) _
  · rw [String.append_assoc]
    exact startsApart_parting (by decide) _

/-- The section of the fetches of a component, which is left out if there are none. -/
theorem occurrencesIn_fetches (fetches : List Fetch) :
    occurrencesIn word (if fetches.isEmpty then ""
      else "\n  // Fetch data\n" ++ String.intercalate "\n" (fetches.map Fetch.script) ++ "\n") =
      total word (fetches.flatMap Fetch.scriptTexts) := by
  rw [← total_map word fun fetch _ => fetch.occurrencesIn_script hword]
  cases fetches with
  | nil => exact occurrencesIn_fixed hword (by decide)
  | cons fetch fetches =>
    rw [if_neg (by simp), occurrencesIn_trailing hword (by decide),
      occurrencesIn_leading hword (by decide), occurrencesIn_intercalate hword (by decide)]

omit hword in
theorem startsApart_fetches (fetches : List Fetch) :
    startsApart (if fetches.isEmpty then ""
      else "\n  // Fetch data\n" ++ String.intercalate "\n" (fetches.map Fetch.script) ++
        "\n").toList = true := by
  split
  · rfl
  · rw [String.append_assoc]
    exact startsApart_parting (by decide) _

omit hword in
theorem Component.startsApart_registration (component : Component) :
    startsApart (component.registration names).toList = true := by
  refine startsApart_append (startsApart_append ?_ (startsApart_fetches _)) ?_
  · exact startsApart_join (List.forall_mem_map.mpr fun watcher _ =>
      watcher.startsApart_script names)
  · exact startsApart_join (List.forall_mem_map.mpr fun hook _ => hook.startsApart_script names)

/-- The tags of what a component registers. -/
theorem Component.occurrencesIn_registration (component : Component) :
    occurrencesIn word (component.registration names) =
      total word (component.scriptTexts names) := by
  have hwatchers : ∀ text ∈ component.watchers.map (·.script names),
      startsApart text.toList = true :=
    List.forall_mem_map.mpr fun watcher _ => watcher.startsApart_script names
  have hhooks : ∀ text ∈ component.hooks.map (·.script names), startsApart text.toList = true :=
    List.forall_mem_map.mpr fun hook _ => hook.startsApart_script names
  rw [Component.registration, occurrencesIn_append hword (startsApart_join hhooks),
    occurrencesIn_append hword (startsApart_fetches _), occurrencesIn_fetches hword,
    occurrencesIn_join hword hwatchers, occurrencesIn_join hword hhooks,
    total_map word fun watcher _ => watcher.occurrencesIn_script hword names,
    total_map word fun hook _ => hook.occurrencesIn_script hword names, Component.scriptTexts,
    total_append, total_append]

end Parts

/-! ## The state record -/

namespace OrderedMap

variable {κ ν μ : Type} [DecidableEq κ]

theorem insert_mapValues (f : ν → μ) (m : OrderedMap κ ν) (k : κ) (v : ν) :
    (m.mapValues f).insert k (f v) = (m.insert k v).mapValues f := by
  obtain ⟨entries⟩ := m
  unfold mapValues insert
  congr 1
  induction entries with
  | nil => rfl
  | cons entry entries ih =>
    rw [List.map_cons, insertEntry, insertEntry]
    split
    · rfl
    · rw [List.map_cons, ih]

/-- Values can be changed before or after they are written. -/
theorem ofList_map (f : ν → μ) (entries : List (κ × ν)) :
    ofList (entries.map fun entry => (entry.1, f entry.2)) = (ofList entries).mapValues f := by
  -- the induction is on the entries, from any map that was written to before
  suffices h : ∀ m : OrderedMap κ ν,
      (m.mapValues f).insertAll (entries.map fun entry => (entry.1, f entry.2)) =
        (m.insertAll entries).mapValues f from h ∅
  induction entries with
  | nil => exact fun m => rfl
  | cons entry entries ih =>
    intro m
    have hstep := ih (m.insert entry.1 entry.2)
    rw [← insert_mapValues] at hstep
    exact hstep

end OrderedMap

namespace Program

variable (program : Program)

/-- The record is written from the literals that are declared last. -/
theorem stateRecord_eq_mapValues :
    program.stateRecord = program.initialValues.mapValues StateValue.script := by
  rw [initialValues, ← OrderedMap.ofList_map, List.map_map]
  rfl

/-- A section that is left out if there is nothing to write in it. -/
theorem total_section {α : Type} {values : List α} {text : String} {parts : α → List String}
    (h : occurrencesIn word text = total word (values.flatMap parts)) :
    total word (if values.isEmpty then [] else [text]) = total word (values.flatMap parts) := by
  cases values with
  | nil => rfl
  | cons value values => rw [if_neg (by simp), total_cons, total_nil, Nat.add_zero, h]

section Tags

variable (hword : word ∈ tagWords)

include hword

theorem occurrencesIn_stateSection :
    occurrencesIn word program.stateSection = total word program.stateTexts := by
  have hfields : total word (program.stateRecord.entries.map fun entry =>
      entry.1 ++ ": " ++ entry.2) = total word program.stateTexts := by
    rw [stateRecord_eq_mapValues, OrderedMap.mapValues, List.map_map, stateTexts]
    refine total_map word fun entry _ => ?_
    rw [Function.comp_apply, occurrencesIn_parted hword (by decide), total_cons,
      entry.2.occurrencesIn_script hword]
  rw [← hfields]
  dsimp only [stateSection]
  rw [occurrencesIn_trailing hword (by decide), occurrencesIn_leading hword (by decide)]
  split
  · -- an empty record is written without the blanks inside its braces
    rename_i hnone
    rw [List.isEmpty_iff.mp hnone]
    exact occurrencesIn_fixed hword (by decide)
  · rw [occurrencesIn_trailing hword (by decide), occurrencesIn_leading hword (by decide),
      occurrencesIn_intercalate hword (by decide)]

theorem occurrencesIn_registration :
    occurrencesIn word program.registration =
      total word (program.stateful.flatMap (·.scriptTexts program.readable)) := by
  have hcode := occurrencesIn_of_mem_fixedCode hword
  have hcomponents : ∀ text ∈ program.stateful.map (·.registration program.readable),
      startsApart text.toList = true :=
    List.forall_mem_map.mpr fun component _ => component.startsApart_registration _
  have hsetup : ∀ text ∈ [Script.textWatchers, Script.conditionals, Script.inputBindings,
      Script.loops].map fun part => "\n" ++ part, startsApart text.toList = true :=
    List.forall_mem_map.mpr fun part _ => startsApart_parting (by decide) part
  have hnone : total word ([Script.textWatchers, Script.conditionals, Script.inputBindings,
      Script.loops].map fun part => "\n" ++ part) = 0 := by
    rw [total_eq_zero_iff, List.forall_mem_map]
    intro part hpart
    rw [occurrencesIn_leading hword (by decide)]
    refine hcode part ?_
    exact List.mem_cons_of_mem _ (List.mem_cons_of_mem _ (List.mem_cons_of_mem _ hpart))
  have hclasses := hcode Script.dynamicClasses
    (List.mem_cons_of_mem _ (List.mem_cons_of_mem _ List.mem_cons_self))
  -- every part starts apart, so no tag goes over the joint of two parts
  dsimp only [registration]
  rw [occurrencesIn_trailing hword (by decide),
    occurrencesIn_append hword (startsApart_join hsetup), occurrencesIn_join hword hsetup, hnone,
    occurrencesIn_append hword (startsApart_join hcomponents),
    occurrencesIn_join hword hcomponents, occurrencesIn_leading hword (by decide +kernel),
    hclasses, Nat.zero_add, Nat.add_zero]
  exact total_map word fun component _ => component.occurrencesIn_registration hword _

/-- **The tags of a script** are those of the texts of the source that it holds. -/
theorem occurrencesIn_script :
    occurrencesIn word program.script = total word program.scriptTexts := by
  -- section by section: fixed code has no tags, the others have those of their texts
  have hcode := occurrencesIn_of_mem_fixedCode hword
  have hruntime : total word [Script.runtime] = 0 := by
    rw [total_cons, total_nil, Nat.add_zero]
    exact hcode Script.runtime List.mem_cons_self
  have himports : occurrencesIn word
      (String.intercalate "\n" (program.imports.map Import.script)) =
      total word (program.imports.flatMap Import.scriptTexts) := by
    rw [occurrencesIn_intercalate hword (by decide)]
    exact total_map word fun import_ _ => import_.occurrencesIn_script hword
  have hstate : total word [program.stateSection] = total word program.stateTexts := by
    rw [total_cons, total_nil, Nat.add_zero, program.occurrencesIn_stateSection hword]
  have hcomputed : occurrencesIn word ("// Computed properties\n" ++ String.intercalate "\n"
      (program.computed.map (·.script program.stateNames program.computedNames))) =
      total word (program.computed.flatMap
        (·.scriptTexts program.stateNames program.computedNames)) := by
    rw [occurrencesIn_leading hword (by decide), occurrencesIn_intercalate hword (by decide)]
    exact total_map word fun property _ => property.occurrencesIn_script hword _ _
  have hhelper : total word (if program.components.all fun component => component.fetches.isEmpty
      then [] else ["// Fetch helper function\n" ++ Script.fetchHelper]) = 0 := by
    split
    · rfl
    · rw [total_cons, total_nil, Nat.add_zero, occurrencesIn_leading hword (by decide)]
      exact hcode Script.fetchHelper (List.mem_cons_of_mem _ List.mem_cons_self)
  have hfunctions : total word (program.functions.map (·.script program.readable)) =
      total word (program.functions.flatMap (·.scriptTexts program.readable)) :=
    total_map word fun function _ => function.occurrencesIn_script hword _
  have hloaded : total word ["console.log(\"Frobo app loaded!\");"] = 0 := by
    rw [total_cons, total_nil, Nat.add_zero]
    exact occurrencesIn_fixed hword (by decide)
  dsimp only [script, scriptSections, scriptTexts]
  rw [occurrencesIn_intercalate hword (by decide)]
  iterate 11 rw [total_append]
  rw [hruntime, total_section himports, hstate, total_section hcomputed, hhelper,
    total_section (program.occurrencesIn_registration hword), hfunctions, hloaded]
  omega

end Tags

end Program

end UiLang
