import UiLang.Proofs.Script.Requalification
import UiLang.Script.Basic
import UiLang.Source

/-!
# Computed properties that read themselves

A computed property is a getter of the state record, so an expression that reads the property through
the state record calls the getter again, without end.  The own name of a property is taken out of the
computed names that are qualified in its expression.  It is not taken out of the state names, which
are collected over all components.  So the getter reads itself exactly if some component declares
state of that name, and the name stands in the expression where it is qualified.

## Main definitions

* `ReadsState`: a text in which a name is read from the state record
* `Computed.getter`: what the getter of a computed property returns

## Main results

* `readsState_iff_words`: reads, as the words of a text show them
* `Qualifier.readsState_qualify_iff`: where a qualified text reads a name from the state record
* `Program.getter_reads_itself_iff`: which getters read themselves
-/

namespace UiLang

/-- The text reads `name` from the state record: it holds `state.name`, both of them as whole
words. -/
def ReadsState (text name : List Char) : Prop :=
  ∃ (record : WordPlace text "state".toList) (field : WordPlace text name),
    field.before = record.before ++ "state.".toList

/-! ## Reads, as the words show them -/

section Words

variable {text name : List Char}

/-- **Reads, as the words of a text show them**: the word `state` with a point after it, and the
name. -/
theorem readsState_iff_words :
    ReadsState text name ↔ ∃ earlier gap later,
      (splitWords text).2 = earlier ++ stateWord :: ⟨name, gap⟩ :: later := by
  constructor
  · rintro ⟨record, field, hbefore⟩
    obtain ⟨start, earlier, later, hcut⟩ := record.exists_isCutAt
    have hpoint : ∀ c ∈ ['.'], isWordStart c = false := by simp [isWordStart]
    obtain ⟨hgap, w, later, rfl, rfl⟩ := hcut.next_word field hbefore hpoint
    refine ⟨earlier, w.gap, later, ?_⟩
    rw [hcut.splitWords_eq, hgap]
    rfl
  · rintro ⟨earlier, gap, later, hwords⟩
    have hfield : (splitWords text).2 = earlier ++ [stateWord] ++ ⟨name, gap⟩ :: later := by
      rw [hwords, List.append_assoc, List.singleton_append]
    refine ⟨.ofSplit hwords, .ofSplit hfield, ?_⟩
    simp [WordPlace.ofSplit, stateWord]

/-- Every word of a text stands at a place, around which the text is cut. -/
theorem exists_isCutAt_of_splitWords {earlier later : List ScriptWord} {w : ScriptWord}
    (h : (splitWords text).2 = earlier ++ w :: later) :
    ∃ place : WordPlace text w.word, place.gap = w.gap ∧
      place.IsCutAt (splitWords text).1 earlier later := by
  have hcut := cutFrom_splitWords text
  have htext := (isCut_splitWords text).whole
  rw [h] at hcut htext
  have hgap : (WordPlace.ofSplit h).gap = w.gap :=
    takeWhile_append_of_startsAtWord hcut.back.wordless_gap hcut.back.tail.startsAtWord
  refine ⟨.ofSplit h, hgap, ?_⟩
  constructor
  · intro c hc
    exact isWordStart_of_mem_takeWhile hc
  · rw [hgap]
    exact hcut.eq_wordsText ▸ hcut
  · rfl
  · rw [hgap]
    exact htext

end Words

/-! ## Reads in a qualified text -/

namespace Qualifier

variable (q : Qualifier)

theorem wordsWritten_append (context : WordContext) (words more : List ScriptWord) :
    q.wordsWritten context (words ++ more) =
      q.wordsWritten context words ++ q.wordsWritten (context.after words) more := by
  induction words generalizing context with
  | nil => rfl
  | cons w words ih =>
    rw [List.cons_append, wordsWritten, wordsWritten, ih, List.append_assoc]
    rfl

/-- Where `state.` is written in front of a name, the name is qualified.  The induction is on the
words; none of them is the word `state`, so each `state` that is written belongs to the word right
after it. -/
theorem exists_qualifies_of_wordsWritten {words earlier later : List ScriptWord}
    {name gap : List Char} (hstate : ∀ w ∈ words, w.word ≠ "state".toList) (context : WordContext)
    (h : q.wordsWritten context words = earlier ++ stateWord :: ⟨name, gap⟩ :: later) :
    ∃ before w after, words = before ++ w :: after ∧ w.word = name ∧
      q.qualifies (context.after before) w = true := by
  induction words generalizing context earlier with
  | nil =>
    rw [wordsWritten] at h
    simp at h
  | cons w words ih =>
    obtain ⟨hw, hwords⟩ := List.forall_mem_cons.mp hstate
    -- a read further on is found further on
    have hlater : ∀ earlier', q.wordsWritten (context.next w) words =
        earlier' ++ stateWord :: ⟨name, gap⟩ :: later →
        ∃ before w' after, w :: words = before ++ w' :: after ∧ w'.word = name ∧
          q.qualifies (context.after before) w' = true := by
      intro earlier' hrest
      obtain ⟨before, w', after, rfl, hname, hq⟩ := ih hwords (context.next w) hrest
      exact ⟨w :: before, w', after, rfl, hname, hq⟩
    rw [wordsWritten, wordsFor] at h
    split at h
    · rename_i hq
      rcases earlier with _ | ⟨first, _ | ⟨second, earlier⟩⟩
      · -- the read is this word
        obtain ⟨-, hword⟩ := List.cons.inj h
        have hname := congrArg ScriptWord.word (List.cons.inj hword).1
        exact ⟨[], w, words, rfl, hname, hq⟩
      · -- the word would be `state` itself
        obtain ⟨-, hword⟩ := List.cons.inj h
        exact absurd (congrArg ScriptWord.word (List.cons.inj hword).1) hw
      · exact hlater earlier (List.cons.inj (List.cons.inj h).2).2
    · rcases earlier with _ | ⟨first, earlier⟩
      · exact absurd (congrArg ScriptWord.word (List.cons.inj h).1) hw
      · exact hlater earlier (List.cons.inj h).2

/-- **Where a qualified text reads a name from the state record**: at the places where the name gets
`state.` in front, if the text itself does not hold the word `state`. -/
theorem readsState_qualify_iff {body name : List Char}
    (hstate : ∀ w ∈ (splitWords body).2, w.word ≠ "state".toList) :
    ReadsState (q.qualified body) name ↔ ∃ place : WordPlace body name, q.PutsState place := by
  have hstart : ∀ c ∈ (splitWords body).1, isWordStart c = false :=
    fun c hc => isWordStart_of_mem_takeWhile hc
  have hcut := cutFrom_splitWords body
  have hqualified : q.qualified body = (splitWords body).1 ++
      q.qualifyWords { before := (splitWords body).1.getLast? } (splitWords body).2 := by
    have hparts := q.qualified_of_cut hstart hcut
    rwa [show (splitWords body).1 ++ body.dropWhile (!isWordStart ·) = body from
      List.takeWhile_append_dropWhile] at hparts
  have hsplit := splitWords_append hstart
    (q.cutFrom_wordsWritten hcut { before := (splitWords body).1.getLast? })
  -- from here on the texts are their words, and those of the qualified text are the written ones
  rw [readsState_iff_words, hqualified, hsplit]
  constructor
  · rintro ⟨earlier, gap, later, hwords⟩
    obtain ⟨before, w, after, hbody, rfl, hq⟩ :=
      q.exists_qualifies_of_wordsWritten hstate _ hwords
    obtain ⟨place, hgap, hat⟩ := exists_isCutAt_of_splitWords hbody
    refine ⟨place, (q.putsState_iff_qualifies hat).mpr ?_⟩
    rwa [hgap]
  · rintro ⟨place, hputs⟩
    obtain ⟨start, earlier, later, hat⟩ := place.exists_isCutAt
    have hq := (q.putsState_iff_qualifies hat).mp hputs
    rw [hat.splitWords_eq, wordsWritten_append, wordsWritten, wordsFor, if_pos hq]
    exact ⟨_, _, _, rfl⟩

end Qualifier

/-- A text without `state` inside does not hold the word `state`. -/
theorem word_ne_state_of_absent {text : List Char} (h : ¬ "state".toList <:+: text) :
    ∀ w ∈ (splitWords text).2, w.word ≠ "state".toList := by
  intro w hw heq
  obtain ⟨earlier, later, hwords⟩ := List.append_of_mem hw
  apply h
  refine ⟨(splitWords text).1 ++ wordsText earlier, w.gap ++ wordsText later, ?_⟩
  rw [← heq, List.append_assoc]
  exact (WordPlace.eq_of_splitWords hwords).symm

/-! ## Getters -/

/-- What is qualified in the expression of a computed property. -/
def Computed.qualifier (states computed : List String) (property : Computed) : Qualifier :=
  ⟨states ++ computed.filter (· != property.name), [], false⟩

/-- What the getter of a computed property returns. -/
def Computed.getter (states computed : List String) (property : Computed) : String :=
  (property.qualifier states computed).qualify property.expression

/-- How a computed property is written around what its getter returns. -/
theorem Computed.script_eq (states computed : List String) (property : Computed) :
    property.script states computed = "Object.defineProperty(state, '" ++ property.name ++
      "', \x7b\n  get() \x7b return " ++ property.getter states computed ++
      "; \x7d,\n  enumerable: true\n\x7d);\n" ++ "Frobo.computedKeys.push('" ++ property.name ++
      "');" := by
  dsimp only [Computed.script, Computed.getter, Computed.qualifier]

/-- A text between others is a part of all of them together. -/
theorem exists_append_of_mem_intercalate {text : String} {texts : List String} (gap : String)
    (h : text ∈ texts) :
    ∃ before after, String.intercalate gap texts = before ++ text ++ after := by
  induction texts with
  | nil => cases h
  | cons first texts ih =>
    cases texts with
    | nil =>
      obtain rfl := List.mem_singleton.mp h
      exact ⟨"", "", by simp⟩
    | cons second texts =>
      rw [String.intercalate_cons_cons]
      rcases List.mem_cons.mp h with rfl | hlater
      · exact ⟨"", gap ++ String.intercalate gap (second :: texts), by simp [String.append_assoc]⟩
      · obtain ⟨before, after, heq⟩ := ih hlater
        refine ⟨first ++ gap ++ before, after, ?_⟩
        rw [heq]
        simp only [String.append_assoc]

namespace Program

variable (program : Program)

/-- The script of every computed property is a part of the script of the program. -/
theorem exists_script_of_computed {property : Computed} (h : property ∈ program.computed) :
    ∃ before after, program.script =
      before ++ property.script program.stateNames program.computedNames ++ after := by
  have hsection : "// Computed properties\n" ++ String.intercalate "\n" (program.computed.map
      (·.script program.stateNames program.computedNames)) ∈ program.scriptSections := by
    unfold scriptSections
    simp [List.ne_nil_of_mem h]
  obtain ⟨before, after, hscript⟩ := exists_append_of_mem_intercalate "\n\n" hsection
  obtain ⟨front, back, hproperties⟩ := exists_append_of_mem_intercalate "\n"
    (List.mem_map_of_mem h (f := (·.script program.stateNames program.computedNames)))
  refine ⟨before ++ "// Computed properties\n" ++ front, back ++ after, ?_⟩
  rw [script, hscript, hproperties]
  simp only [String.append_assoc]

/-- The own name of a property is qualified in its expression if it is a state name, and only
then. -/
theorem mem_qualifier_names_iff (property : Computed) :
    property.name ∈ (property.qualifier program.stateNames program.computedNames).names ↔
      ∃ state ∈ program.states, state.name = property.name := by
  simp [Computed.qualifier, stateNames]

/-- **Which getters read themselves.**  The getter of a computed property whose expression does not
hold `state` reads the property from the state record if and only if some component declares state of
the same name, and the name stands in the expression as a whole word that is no local and follows
neither a point nor a digit. -/
theorem getter_reads_itself_iff {property : Computed} (hproperty : property ∈ program.computed)
    (hstate : ¬ "state".toList <:+: property.expression.toList) :
    (∃ before after, program.script = before ++ ("Object.defineProperty(state, '" ++
        property.name ++ "', \x7b\n  get() \x7b return " ++
        property.getter program.stateNames program.computedNames ++
        "; \x7d,\n  enumerable: true\n\x7d);\n" ++ "Frobo.computedKeys.push('" ++ property.name ++
        "');") ++ after) ∧
      (ReadsState (property.getter program.stateNames program.computedNames).toList
          property.name.toList ↔
        (∃ state ∈ program.states, state.name = property.name) ∧
          ∃ place : WordPlace property.expression.toList property.name.toList,
            ¬ place.IsLocal ∧ ∀ c ∈ place.before.getLast?, c ≠ '.' ∧ c.isDigit = false) := by
  constructor
  · obtain ⟨before, after, hscript⟩ := program.exists_script_of_computed hproperty
    rw [Computed.script_eq] at hscript
    exact ⟨before, after, hscript⟩
  · have hgetter : (property.getter program.stateNames program.computedNames).toList =
        (property.qualifier program.stateNames program.computedNames).qualified
          property.expression.toList := by
      rw [Qualifier.qualified, String.ofList_toList]
      rfl
    rw [hgetter, Qualifier.readsState_qualify_iff _ (word_ne_state_of_absent hstate),
      ← program.mem_qualifier_names_iff]
    constructor
    · rintro ⟨place, hputs⟩
      rw [Qualifier.putsState_iff, String.ofList_toList] at hputs
      obtain ⟨-, hlocal, hmember, hknown⟩ := hputs
      refine ⟨?_, place, hlocal, hmember⟩
      -- nothing is qualified just because it is assigned to
      rcases hknown with hname | ⟨hassignments, -⟩
      · exact hname
      · cases hassignments
    · rintro ⟨hname, place, hlocal, hmember⟩
      refine ⟨place, ?_⟩
      rw [Qualifier.putsState_iff, String.ofList_toList]
      exact ⟨List.not_mem_nil, hlocal, hmember, .inl hname⟩

/-- A property by its name and its expression. -/
theorem exists_computed {name expression : String}
    (h : program.computed.map (fun property => (property.name, property.expression)) =
      [(name, expression)]) :
    ∃ property ∈ program.computed, property.name = name ∧ property.expression = expression := by
  have hmem : (name, expression) ∈
      program.computed.map fun property => (property.name, property.expression) := by
    rw [h]
    exact List.mem_singleton_self _
  obtain ⟨property, hproperty, hparts⟩ := List.mem_map.mp hmem
  exact ⟨property, hproperty, Prod.mk.inj hparts⟩

/-- The getter of `doubled` does not read itself, although its own name stands in the expression: it
is a computed name only. -/
theorem getter_of_own_name :
    ∃ program, (parseSource ("component A \x7b\nstate count = 1\n\x7d\ncomponent B \x7b\n" ++
        "computed doubled = count + doubled\n\x7d")).program = program ∧
      ∃ property ∈ program.computed, property.expression = "count + doubled" ∧
        ¬ "state".toList <:+: property.expression.toList ∧
        ¬ ReadsState (property.getter program.stateNames program.computedNames).toList
          property.name.toList := by
  have hall : ∀ program : Program, program.computed.map (fun p => (p.name, p.expression)) =
      [("doubled", "count + doubled")] → program.stateNames = ["count"] →
      ∃ property ∈ program.computed, property.expression = "count + doubled" ∧
        ¬ "state".toList <:+: property.expression.toList ∧
        ¬ ReadsState (property.getter program.stateNames program.computedNames).toList
          property.name.toList := by
    intro program hcomputed hstates
    obtain ⟨property, hproperty, hname, hexpression⟩ := program.exists_computed hcomputed
    have hstate : ¬ "state".toList <:+: property.expression.toList := by
      rw [hexpression]
      decide +kernel
    refine ⟨property, hproperty, hexpression, hstate, fun hreads => ?_⟩
    obtain ⟨⟨state, hmem, hsame⟩, -⟩ :=
      (program.getter_reads_itself_iff hproperty hstate).2.mp hreads
    -- the only state variable has another name
    have hcount : state.name ∈ program.stateNames := mem_distinct.mpr (List.mem_map_of_mem hmem)
    rw [hstates, hsame, hname] at hcount
    exact absurd hcount (by decide)
  exact ⟨_, rfl, hall _ (by decide +kernel) (by decide +kernel)⟩

/-- **A getter that reads itself**: `n` is a state variable as well as a computed property, and the
getter of the property returns `state.n + 1`. -/
theorem getter_of_state_name :
    ∃ program, (parseSource "component C \x7b\nstate n = 1\ncomputed n = n + 1\n\x7d").program =
        program ∧
      ∃ property ∈ program.computed, property.name = "n" ∧ property.expression = "n + 1" ∧
        ¬ "state".toList <:+: "n + 1".toList ∧
        property.getter program.stateNames program.computedNames = "state.n + 1" ∧
        ReadsState "state.n + 1".toList "n".toList := by
  have hall : ∀ program : Program, program.computed.map (fun p => (p.name, p.expression)) =
      [("n", "n + 1")] → program.stateNames = ["n"] → program.computedNames = ["n"] →
      ∃ property ∈ program.computed, property.name = "n" ∧ property.expression = "n + 1" ∧
        property.getter program.stateNames program.computedNames = "state.n + 1" := by
    intro program hcomputed hstates hnames
    obtain ⟨property, hproperty, hname, hexpression⟩ := program.exists_computed hcomputed
    refine ⟨property, hproperty, hname, hexpression, ?_⟩
    rw [hstates, hnames, Computed.getter, Computed.qualifier, hname, hexpression]
    decide +kernel
  obtain ⟨property, hproperty, hname, hexpression, hgetter⟩ :=
    hall (parseSource "component C \x7b\nstate n = 1\ncomputed n = n + 1\n\x7d").program
      (by decide +kernel) (by decide +kernel) (by decide +kernel)
  refine ⟨_, rfl, property, hproperty, hname, hexpression, by decide +kernel, hgetter, ?_⟩
  exact readsState_iff_words.mpr ⟨[], " + 1".toList, [], by decide +kernel⟩

end Program

end UiLang
