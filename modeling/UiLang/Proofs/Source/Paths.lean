import UiLang.Proofs.Condition.Written
import UiLang.Proofs.Source.Attributes

/-!
# Paths of programs

The conditions, attribute values, class conditions, loops and watchers of a program hold paths.
Each of them stands in the tokens of the source: an identifier, and a point with a word behind it
for every field.  Any word may follow a point, reserved ones too.  They are all spelled as
identifiers but one: an `else` with an `if` behind it is a single word, and its text has a blank
inside.

So the names in a program are identifiers, and so are the segments of its paths, except where the
source has an `else if` right behind a point.

## Main definitions

* `Program.names`: what components, functions and all that they declare are named
* `Program.paths`: the paths, at any depth
* `Path.StandsIn`: how a path is written in tokens
* `Path.IsSpelled`: its segments are identifiers, or an `else if` behind a point

## Main results

* `pathProgram`, `nameProgram`: where paths stand, and that names are identifiers
* `Path.StandsIn.isSpelled`: what a path that stands in the tokens of a source is made of
* `parseSource_names_isIdentifier`: both for the program of any source
-/

namespace UiLang

open Seam (readEntries_of_nil readEntries_of_cons readParams_cons)

/-! ## Names and paths in the tree -/

/-- The paths of a condition, left to right. -/
def Condition.paths : Condition → List Path
  | .path p => [p]
  | .literal _ => []
  | .not operand => operand.paths
  | .logical _ left right => left.paths ++ right.paths
  | .compare _ left right => left.paths ++ right.paths

/-- The path or the name of a call that an attribute is set to, or the conditions of classes. -/
def AttributeValue.paths : AttributeValue → List Path
  | .identifier path => [path]
  | .call name _ => [name]
  | .classMap classes => classes.entries.map (·.2)
  | _ => []

def NodePart.paths : NodePart → List Path
  | .element head => (attributeValuesOf head.attributes).flatMap AttributeValue.paths
  | .use _ attributes => (attributeValuesOf attributes).flatMap AttributeValue.paths
  | .condition shown => shown.paths
  | .loop _ array => [array]

def NodePart.names : NodePart → List String
  | .element head => [head.name]
  | .use name _ => [name]
  | .condition _ => []
  | .loop item _ => [item]

def Statement.paths : Statement → List Path
  | .watcher declared => [declared.target]
  | .node content => content.parts.flatMap NodePart.paths
  | _ => []

def Statement.names : Statement → List String
  | .props declared => declared.names
  | .state declared => [declared.name]
  | .computed declared => [declared.name]
  | .node content => content.parts.flatMap NodePart.names
  | _ => []

/-- What the attributes of a fetch are set to. -/
def Fetch.values (fetch : Fetch) : List String :=
  fetch.url :: (fetch.into.toList ++ fetch.loading.toList ++ fetch.error.toList)

def Statement.fetchValues : Statement → List String
  | .fetch declared => declared.values
  | _ => []

/-- The paths of all components. -/
def Program.paths (program : Program) : List Path :=
  program.components.flatMap fun component => component.body.flatMap Statement.paths

/-- What the attributes of all fetches are set to. -/
def Program.fetchValues (program : Program) : List String :=
  program.components.flatMap fun component => component.body.flatMap Statement.fetchValues

/-- The names of components, of what they declare and of their elements and loop items, and the
names of functions and their parameters. -/
def Program.names (program : Program) : List String :=
  (program.components.flatMap fun component =>
      component.name :: component.body.flatMap Statement.names) ++
    program.functions.flatMap fun function => function.name :: function.params

/-! ## Where paths stand -/

/-- The path stands in the tokens: an identifier, then a point and a word for every field.  A lone
`null` counts as a path where an attribute is set to it. -/
inductive Path.StandsIn (whole : List Token) : Path → Prop
  | fields {root : Token} {us : List Token} {fields : List String}
      (kind : root.kind = .identifier) (rest : DerivesFields us fields)
      (stands : root :: us <:+: whole) : StandsIn whole ⟨root.text, fields⟩
  | null : StandsIn whole ⟨"null", []⟩

section StandsIn

variable {whole ts : List Token} {stop : Token}

theorem standsIn_readPathAfter {root : Token} (kind : root.kind = .identifier)
    (h : root :: ts <:+ whole) : (readPathAfter root ts).value.StandsIn whole := by
  obtain ⟨us, hus, hfields⟩ := derivesFields_of_readFields ts
  refine .fields kind hfields ?_
  have hfront : root :: us <+: root :: ts :=
    ⟨(readFields ts).rest, congrArg (root :: ·) hus.symm⟩
  exact hfront.isInfix.trans h.isInfix

theorem readPath_standsIn (h : ts <:+ whole) :
    Ensures (Path.StandsIn whole) (readPath stop ts) := by
  cases ts with
  | nil => exact ensures_error _
  | cons root rest =>
    rw [readPath, expect]
    split
    · rename_i hkind
      exact ensures_ok (standsIn_readPathAfter hkind h)
    · exact ensures_error _

/-- The paths of a derived condition stand in the tokens that derive it. -/
theorem Derives.paths_standIn {stratum : Stratum} {p : List Token} {e : Condition}
    (h : Derives stratum p e) (hp : p <:+: whole) : ∀ path ∈ e.paths, path.StandsIn whole := by
  -- both operands of an operator are parts of the tokens around it
  have hsides {p q : List Token} {op : Token} (h : p ++ op :: q <:+: whole) :
      p <:+: whole ∧ q <:+: whole := by
    refine ⟨(List.prefix_append p (op :: q)).isInfix.trans h, ?_⟩
    exact ((List.suffix_cons op q).trans (List.suffix_append p (op :: q))).isInfix.trans h
  induction h with
  | ofConjunction inner ih => exact ih hp
  | or left kind right ihleft ihright =>
    exact List.forall_mem_append.mpr ⟨ihleft (hsides hp).1, ihright (hsides hp).2⟩
  | ofNegation inner ih => exact ih hp
  | and left kind right ihleft ihright =>
    exact List.forall_mem_append.mpr ⟨ihleft (hsides hp).1, ihright (hsides hp).2⟩
  | not kind operand ih => exact ih ((List.suffix_cons _ _).isInfix.trans hp)
  | ofComparison inner ih => exact ih hp
  | compare left kind right ihleft ihright =>
    exact List.forall_mem_append.mpr ⟨ihleft (hsides hp).1, ihright (hsides hp).2⟩
  | ofPrimary inner ih => exact ih hp
  | path kind rest => exact List.forall_mem_singleton.mpr (.fields kind rest hp)
  | group opens inner closes ih =>
    rename_i p opening closing e
    exact ih (List.IsInfix.trans ⟨[opening], [closing], rfl⟩ hp)
  | _ => exact List.forall_mem_nil _

theorem readCondition_standsIn (h : ts <:+ whole) :
    Ensures (fun condition => ∀ path ∈ condition.paths, path.StandsIn whole)
      (readCondition stop ts) := by
  intro r hread
  obtain ⟨p, hp, hderives⟩ := derives_of_readDisjunction hread
  have hfront : p <+: ts := ⟨r.rest, hp.symm⟩
  exact hderives.paths_standIn (hfront.isInfix.trans h.isInfix)

theorem readCallAfter_paths (path : Path) (ts : List Token) :
    Ensures (fun value => value.paths = [path]) (readCallAfter stop path ts) := by
  unfold readCallAfter
  split
  · exact ensures_ok rfl
  split
  · exact ensures_bind fun _ _ => ensures_ok rfl
  · exact ensures_ok rfl

theorem readAttributeValue_standsIn (key : String) (h : ts <:+ whole) :
    Ensures (fun value => ∀ path ∈ value.paths, path.StandsIn whole)
      (readAttributeValue stop key ts) := by
  cases ts with
  | nil => exact ensures_error _
  | cons token rest =>
    rw [readAttributeValue]
    split
    · exact ensures_ok (List.forall_mem_nil _)
    · exact ensures_ok (List.forall_mem_nil _)
    · split
      · exact ensures_ok (List.forall_mem_nil _)
      · exact ensures_error _
    · exact ensures_ok (List.forall_mem_nil _)
    · exact ensures_ok (List.forall_mem_singleton.mpr .null)
    · -- the path is the same whether arguments follow it or not
      rename_i hkind
      refine ensures_bind fun value hvalue => ensures_ok ?_
      have hpaths := readCallAfter_paths _ _ value hvalue
      intro path hpath
      have hread : path ∈ value.value.paths := hpath
      rw [hpaths, List.mem_singleton] at hread
      exact hread ▸ standsIn_readPathAfter hkind h
    · exact ensures_error _

/-- A property of all values that are read for the entries of a block holds of the whole block. -/
theorem ensures_readEntries {ν : Type} {Q : ν → Prop}
    {readValue : String → (ts : List Token) → Read ν ts}
    (hvalue : ∀ key ts, ts <:+ whole → Ensures Q (readValue key ts)) {known : OrderedMap String ν}
    (hknown : ∀ entry ∈ known.entries, Q entry.2) {ts : List Token} (h : ts <:+ whole) :
    Ensures (fun map => ∀ entry ∈ map.entries, Q entry.2)
      (readEntries stop readValue known ts) := by
  cases hskip : skipNewlines ts with
  | nil =>
    rw [readEntries_of_nil stop readValue known hskip]
    exact ensures_error _
  | cons first us =>
    have hus : us <:+ whole := by
      refine List.IsSuffix.trans ?_ h
      exact (List.suffix_cons first us).trans (hskip ▸ skipNewlines_suffix ts)
    rw [readEntries_of_cons stop readValue known hskip]
    split
    · exact ensures_ok hknown
    split
    · refine ensures_bind fun colon _ => ensures_bind fun value hread =>
        ensures_bind fun entries hentries => ensures_ok ?_
      have hcolon : colon.rest <:+ whole :=
        (colon.suffix.trans (readDashedAfter first.text us).suffix).trans hus
      have hone := hvalue _ _ hcolon value hread
      have hcomma := ((eat .comma value.rest).suffix.trans value.suffix).trans hcolon
      exact ensures_readEntries hvalue (OrderedMap.forall_insert hone hknown _) hcomma entries
        hentries
    · exact ensures_error _
termination_by ts.length
decreasing_by
  have := length_lt_of_skipNewlines hskip
  have : (eat .comma value.rest).rest.length ≤ us.length :=
    (((eat .comma value.rest).suffix.trans value.suffix).trans
      (colon.suffix.trans (readDashedAfter first.text us).suffix)).length_le
  omega

end StandsIn

/-! ## Paths and fetches of programs -/

/-- What an attribute of a fetch can be set to: nothing yet, a string, or a path as text. -/
inductive Fetched (whole : List Token) : String → Prop
  | unset : Fetched whole ""
  | string {token : Token} (kind : token.kind = .string) (stands : token ∈ whole) :
      Fetched whole token.text
  | path {path : Path} (stands : path.StandsIn whole) : Fetched whole path.text

section Paths

variable {whole ts : List Token} {stop : Token}

/-- The paths of attribute values stand in the tokens they are read from. -/
theorem pathValues : ValueLaw (· <:+ whole) fun value =>
    ∀ path ∈ value.paths, path.StandsIn whole where
  suffix h hus := hus.trans h
  text _ := List.forall_mem_nil _
  value stop key ts h := readAttributeValue_standsIn key h
  classes stop ts h := by
    refine ensures_bind fun brace _ => ensures_bind fun map hmap => ensures_ok ?_
    refine List.forall_mem_map.mpr (ensures_readEntries ?_ (List.forall_mem_nil _)
      (brace.suffix.trans h) map hmap)
    intro key us hus
    exact readPath_standsIn hus

theorem ElementHead.paths_part (head : ElementHead) :
    head.part.paths = head.part.attributeValues.flatMap AttributeValue.paths := by
  unfold ElementHead.part
  split
  · rfl
  · rfl

theorem pathParts : NodeLaw (· <:+ whole) fun part =>
    ∀ path ∈ part.paths, path.StandsIn whole where
  suffix h hus := hus.trans h
  head stop first ts hkind h head hhead := by
    show ∀ path ∈ head.value.part.paths, path.StandsIn whole
    rw [ElementHead.paths_part]
    exact List.forall_mem_flatMap.mpr (pathValues.nodeLaw.head stop hkind h head hhead)
  condition stop ts h := readCondition_standsIn h
  loop stop ts h := by
    refine ensures_bind fun item _ => ?_
    dsimp only
    split
    · refine ensures_bind fun array harray => ensures_ok (List.forall_mem_singleton.mpr ?_)
      exact readPath_standsIn ((item.andThen (eat _ item.rest)).suffix.trans h) array harray
    · exact ensures_error _

theorem forall_values_set {Q : String → Prop} {fetch : Fetch} {value : String} (hvalue : Q value)
    (h : ∀ v ∈ fetch.values, Q v) (key : String) : ∀ v ∈ (fetch.set key value).values, Q v := by
  unfold Fetch.set
  simp only [Fetch.values, List.forall_mem_cons, List.forall_mem_append] at h ⊢
  split
  · exact ⟨hvalue, h.2⟩
  · exact ⟨h.1, ⟨List.forall_mem_singleton.mpr hvalue, h.2.1.2⟩, h.2.2⟩
  · exact ⟨h.1, ⟨h.2.1.1, List.forall_mem_singleton.mpr hvalue⟩, h.2.2⟩
  · exact ⟨h.1, h.2.1, List.forall_mem_singleton.mpr hvalue⟩
  · exact h

theorem readFetchValue_fetched (key : String) (h : ts <:+ whole) :
    Ensures (Fetched whole) (readFetchValue stop key ts) := by
  cases ts with
  | nil => exact ensures_error _
  | cons token rest =>
    rw [readFetchValue]
    split
    · rename_i hkind
      exact ensures_ok (.string hkind (h.subset List.mem_cons_self))
    · rename_i hkind
      exact ensures_ok (.path (standsIn_readPathAfter hkind h))
    · exact ensures_error _

theorem readFetchAttributes_fetched {fetch : Fetch} {ts : List Token}
    (hfetch : ∀ v ∈ fetch.values, Fetched whole v) (h : ts <:+ whole) :
    Ensures (fun all => ∀ v ∈ all.values, Fetched whole v)
      (readFetchAttributes stop fetch ts) := by
  match ts, h with
  | [], h =>
    rw [readFetchAttributes]
    · exact ensures_ok hfetch
    · simp
  | [token], h =>
    rw [readFetchAttributes]
    · exact ensures_ok hfetch
    · simp
  | key :: assign :: rest, h =>
    have hrest : rest <:+ whole :=
      ((List.suffix_cons assign rest).trans (List.suffix_cons key _)).trans h
    rw [readFetchAttributes]
    split
    · refine ensures_bind fun value hvalue => ensures_bind fun all hall => ensures_ok ?_
      have hone := readFetchValue_fetched key.text hrest value hvalue
      exact readFetchAttributes_fetched (forall_values_set hone hfetch key.text)
        (value.suffix.trans hrest) all hall
    · exact ensures_ok hfetch
termination_by ts.length
decreasing_by
  have := value.length_le
  simp only [List.length_cons]
  omega

/-- **The paths of a program stand in the tokens that it is read from**, and so do the strings and
paths that its fetches are set to. -/
theorem pathProgram : ProgramLaw (· <:+ whole) (fun _ => True)
    (fun statement => (∀ path ∈ statement.paths, path.StandsIn whole) ∧
      ∀ value ∈ statement.fetchValues, Fetched whole value) fun _ => True where
  suffix h hus := hus.trans h
  name _ _ _ _ _ := trivial
  statement stop first ts hfirst := by
    have h : ts <:+ whole := (List.suffix_cons first ts).trans hfirst
    unfold readStatement
    split
    -- the statements that have neither paths nor fetches
    iterate 5 exact ensures_bind fun _ _ =>
      ensures_ok ⟨List.forall_mem_nil _, List.forall_mem_nil _⟩
    · refine ensures_bind fun fetch hfetch => ensures_ok ⟨List.forall_mem_nil _, ?_⟩
      have hread : Ensures (fun all => ∀ v ∈ all.values, Fetched whole v)
          (readFetch stop first ts) := by
        refine ensures_bind fun all hall => ensures_bind fun close _ => ensures_ok ?_
        exact readFetchAttributes_fetched (List.forall_mem_singleton.mpr .unset) h all hall
      exact hread fetch hfetch
    · refine ensures_bind fun watcher hwatcher => ensures_ok ⟨?_, List.forall_mem_nil _⟩
      have hread : Ensures (fun declared => declared.target.StandsIn whole)
          (readWatcher stop first ts) :=
        ensures_bind fun target htarget => ensures_bind fun _ _ =>
          ensures_ok (readPath_standsIn h target htarget)
      exact List.forall_mem_singleton.mpr (hread watcher hwatcher)
    · refine ensures_bind fun node hnode => ensures_ok ⟨?_, List.forall_mem_nil _⟩
      exact List.forall_mem_flatMap.mpr (pathParts.readNode hfirst node hnode)
  function _ _ _ _ _ _ _ := trivial

end Paths

/-! ## Names of programs -/

section Names

variable {stop : Token}

theorem readParams_isIdentifier {ts : List Token} (h : Spelled ts) :
    Ensures (fun names => ∀ name ∈ names, IsIdentifier name) (readParams stop ts) := by
  match ts, h with
  | [], _ => exact ensures_error _
  | token :: ts, h =>
    rw [readParams_cons]
    split
    · exact ensures_ok (List.forall_mem_nil _)
    split
    · rename_i hkind
      have hname := h token List.mem_cons_self hkind
      split
      · refine ensures_bind fun more hmore => ensures_ok ?_
        exact List.forall_mem_cons.mpr
          ⟨hname, readParams_isIdentifier (h.tail.rest (eat .comma ts)) more hmore⟩
      · exact ensures_bind fun _ _ => ensures_ok (List.forall_mem_singleton.mpr hname)
    · exact ensures_error _
termination_by ts.length
decreasing_by
  have := (eat .comma ts).length_le
  rw [List.length_cons]
  omega

theorem nameParts : NodeLaw Spelled fun part => ∀ name ∈ part.names, IsIdentifier name where
  suffix := Spelled.of_suffix
  head stop first ts hkind h head hhead := by
    have hname := readElementHead_name first.text ts head hhead
    have hidentifier : IsIdentifier head.value.name :=
      hname.symm ▸ h first List.mem_cons_self hkind
    show ∀ name ∈ head.value.part.names, IsIdentifier name
    unfold ElementHead.part
    split
    · exact List.forall_mem_singleton.mpr hidentifier
    · exact List.forall_mem_singleton.mpr hidentifier
  condition _ _ _ _ _ := List.forall_mem_nil _
  loop stop ts h := by
    refine ensures_bind fun item hitem => ?_
    dsimp only
    split
    · exact ensures_bind fun _ _ =>
        ensures_ok (List.forall_mem_singleton.mpr (expect_isIdentifier h item hitem))
    · exact ensures_error _

/-- **The names of a program that is read from spelled tokens are identifiers.** -/
theorem nameProgram : ProgramLaw Spelled IsIdentifier
    (fun statement => ∀ name ∈ statement.names, IsIdentifier name)
    (fun function => ∀ name ∈ function.name :: function.params, IsIdentifier name) where
  suffix := Spelled.of_suffix
  name _ _ h := expect_isIdentifier h
  statement stop first ts hfirst := by
    have h := hfirst.tail
    unfold readStatement
    split
    · exact ensures_bind fun props hprops => ensures_ok (readProps_isIdentifier h props hprops)
    · exact ensures_bind fun state hstate =>
        ensures_ok (List.forall_mem_singleton.mpr (readState_isIdentifier h state hstate))
    · exact ensures_bind fun computed hcomputed =>
        ensures_ok (List.forall_mem_singleton.mpr (readComputed_isIdentifier h computed hcomputed))
    iterate 4 exact ensures_bind fun _ _ => ensures_ok (List.forall_mem_nil _)
    · exact ensures_bind fun node hnode =>
        ensures_ok (List.forall_mem_flatMap.mpr (nameParts.readNode hfirst node hnode))
  function stop isAsync keyword ts h := by
    refine ensures_bind fun name hname => ensures_bind fun paren _ =>
      ensures_bind fun params hparams => ensures_bind fun body _ => ensures_ok ?_
    exact List.forall_mem_cons.mpr ⟨expect_isIdentifier h name hname,
      readParams_isIdentifier (h.rest (name.andThen paren)) params hparams⟩

end Names

/-! ## Words of a source -/

/-- The root of the path is an identifier.  So is every field, apart from the word `else if`, which
then stands right behind a point. -/
structure Path.IsSpelled (tokens : List Token) (path : Path) : Prop where
  root : IsIdentifier path.root
  fields : ∀ field ∈ path.fields, IsIdentifier field ∨
    field = "else if" ∧ ∃ point word, [point, word] <:+: tokens ∧ point.kind = .dot ∧
      word.kind = .keyword .elseIf

section Words

variable {source : String}

/-- Only one word is no identifier. -/
theorem Spells.isIdentifier_or_elseIf {kind : Kind} {text : String} {lexeme : List Char}
    (h : Spells kind text lexeme) (hword : kind.isWord = true) :
    IsIdentifier text ∨ kind = .keyword .elseIf ∧ text = "else if" := by
  cases h with
  | word letters identifier =>
    left
    rwa [IsIdentifier, String.toList_ofList]
  | elseIf blanks some_blank all_blanks => exact .inr ⟨rfl, rfl⟩
  | symbol mark listed =>
    have all : ∀ form ∈ symbolForms, form.1.isWord = false := by decide
    rw [all _ listed] at hword
    cases hword
  | _ => cases hword

theorem isIdentifier_or_elseIf_of_mem_scan {token : Token}
    (htoken : token ∈ (scan source).stream.tokens) (hword : token.kind.isWord = true) :
    IsIdentifier token.text ∨ token.kind = .keyword .elseIf ∧ token.text = "else if" := by
  rcases (account_scanFrom [] source.toList).spells token htoken with hstring | ⟨lexeme, hspells⟩
  · rw [hstring] at hword
    cases hword
  · exact hspells.isIdentifier_or_elseIf hword

/-- Every field is a word behind a point. -/
theorem DerivesFields.exists_point {us : List Token} {fields : List String}
    (h : DerivesFields us fields) : ∀ field ∈ fields, ∃ point word, [point, word] <:+: us ∧
      point.kind = .dot ∧ word.kind.isWord = true ∧ word.text = field := by
  induction h with
  | nil => exact List.forall_mem_nil _
  | cons point word ts fields dot isWord rest ih =>
    refine List.forall_mem_cons.mpr ⟨⟨point, word, ⟨[], ts, rfl⟩, dot, isWord, rfl⟩, ?_⟩
    intro field hfield
    obtain ⟨point', word', hstands, hrest⟩ := ih field hfield
    have hbehind : ts <:+ point :: word :: ts :=
      (List.suffix_cons word ts).trans (List.suffix_cons point _)
    exact ⟨point', word', hstands.trans hbehind.isInfix, hrest⟩

theorem Path.StandsIn.isSpelled {path : Path} (h : path.StandsIn (scan source).stream.tokens) :
    path.IsSpelled (scan source).stream.tokens := by
  cases h with
  | null =>
    refine ⟨?_, List.forall_mem_nil _⟩
    unfold IsIdentifier
    decide
  | fields kind rest stands =>
    rename_i root us fields
    refine ⟨scan_spelled source root (stands.subset List.mem_cons_self) kind, ?_⟩
    intro field hfield
    -- a field is the text of the word behind its point, which is spelled in one of two ways
    obtain ⟨point, word, hstands, hdot, hword, rfl⟩ := rest.exists_point field hfield
    have hin : [point, word] <:+: (scan source).stream.tokens :=
      (hstands.trans (List.suffix_cons root us).isInfix).trans stands
    refine (isIdentifier_or_elseIf_of_mem_scan (hin.subset (by simp)) hword).imp_right ?_
    rintro ⟨hkind, htext⟩
    exact ⟨htext, point, word, hin, hdot, hkind⟩

theorem not_isIdentifier_elseIf : ¬ IsIdentifier "else if" := by
  unfold IsIdentifier
  decide

end Words

/-- **The names in the program of a source are identifiers, and its paths are made of identifiers
unless an `else if` stands behind a point.**  This holds of all names of components, functions,
parameters, props, state, computed values, elements and loop items.  The paths are those of
conditions, attribute values, calls, class conditions, loops and watchers at any depth.  What a
fetch is set to is a string of the source or the text of such a path.  All segments of all paths
are identifiers exactly when no path has the field `else if`. -/
theorem parseSource_names_isIdentifier (source : String) :
    (∀ name ∈ (parseSource source).program.names, IsIdentifier name) ∧
    (∀ path ∈ (parseSource source).program.paths,
      path.IsSpelled (scan source).stream.tokens) ∧
    (∀ value ∈ (parseSource source).program.fetchValues, value = "" ∨
      (∃ token ∈ (scan source).stream.tokens, token.kind = .string ∧ token.text = value) ∨
      ∃ path : Path, path.IsSpelled (scan source).stream.tokens ∧ path.text = value) ∧
    ((∀ path ∈ (parseSource source).program.paths, ∀ segment ∈ path.segments,
        IsIdentifier segment) ↔
      ∀ path ∈ (parseSource source).program.paths, "else if" ∉ path.fields) := by
  have hpaths : ∀ path ∈ (parseSource source).program.paths,
      path.IsSpelled (scan source).stream.tokens := by
    intro path hpath
    obtain ⟨component, hcomponent, hbody⟩ := List.mem_flatMap.mp hpath
    obtain ⟨statement, hstatement, hpath⟩ := List.mem_flatMap.mp hbody
    have hlaw := pathProgram.ofComponent (List.suffix_refl _) hcomponent
    exact ((hlaw.2 statement hstatement).1 path hpath).isSpelled
  refine ⟨?_, hpaths, ?_, ?_, ?_⟩
  · refine List.forall_mem_append.mpr ⟨?_, ?_⟩
    · refine List.forall_mem_flatMap.mpr fun component hcomponent => ?_
      have hlaw := nameProgram.ofComponent (scan_spelled source) hcomponent
      exact List.forall_mem_cons.mpr ⟨hlaw.1, List.forall_mem_flatMap.mpr hlaw.2⟩
    · exact List.forall_mem_flatMap.mpr fun function hfunction =>
        nameProgram.ofFunction (scan_spelled source) hfunction
  · intro value hvalue
    obtain ⟨component, hcomponent, hbody⟩ := List.mem_flatMap.mp hvalue
    obtain ⟨statement, hstatement, hvalue⟩ := List.mem_flatMap.mp hbody
    have hlaw := pathProgram.ofComponent (List.suffix_refl _) hcomponent
    cases (hlaw.2 statement hstatement).2 value hvalue with
    | unset => exact .inl rfl
    | string kind stands => exact .inr (.inl ⟨_, stands, kind, rfl⟩)
    | path stands => exact .inr (.inr ⟨_, stands.isSpelled, rfl⟩)
  · intro h path hpath helse
    exact not_isIdentifier_elseIf (h path hpath _ (List.mem_cons_of_mem _ helse))
  · intro h path hpath
    refine List.forall_mem_cons.mpr ⟨(hpaths path hpath).root, fun field hfield => ?_⟩
    rcases (hpaths path hpath).fields field hfield with hidentifier | ⟨rfl, -⟩
    · exact hidentifier
    · exact absurd hfield (h path hpath)

/-- One path of every kind, two of them with a reserved word behind the point. -/
theorem parseSource_names_of_card :
    let source := "component Card \x7b\nprops a\nwatch n.in \x7b\n\x7d\nfetch into=user.data\n" ++
      "for x in a.b \x7b\nif !x.c \x7b\np id=x class=\x7bon: x.state\x7d go=f.g()\n\x7d\n" ++
      "\x7d\n\x7d\nfunction f(q) \x7b\n\x7d"
    let program := (parseSource source).program
    program.names = ["Card", "a", "x", "p", "f", "q"] ∧
      program.paths = [⟨"n", ["in"]⟩, ⟨"a", ["b"]⟩, ⟨"x", ["c"]⟩, ⟨"x", []⟩, ⟨"x", ["state"]⟩,
        ⟨"f", ["g"]⟩] ∧
      program.fetchValues = ["", "user.data"] ∧
      ∀ path ∈ program.paths, ∀ segment ∈ path.segments, IsIdentifier segment := by
  intro source program
  have hprogram : (program.names, program.paths, program.fetchValues) =
      (["Card", "a", "x", "p", "f", "q"], [⟨"n", ["in"]⟩, ⟨"a", ["b"]⟩, ⟨"x", ["c"]⟩, ⟨"x", []⟩,
        ⟨"x", ["state"]⟩, ⟨"f", ["g"]⟩], ["", "user.data"]) := by decide +kernel
  obtain ⟨hnames, hpaths, hfetches⟩ : _ ∧ _ ∧ _ :=
    (Prod.mk.inj hprogram).imp_right Prod.mk.inj
  obtain ⟨-, -, -, hsegments⟩ := parseSource_names_isIdentifier source
  refine ⟨hnames, hpaths, hfetches, hsegments.mpr ?_⟩
  change ∀ path ∈ program.paths, "else if" ∉ path.fields
  rw [hpaths]
  decide

/-- `else if` is one word, so `a.else if` is a path whose field is no identifier. -/
theorem path_with_else_if :
    ¬ ∀ source : String, ∀ path ∈ (parseSource source).program.paths,
      ∀ segment ∈ path.segments, IsIdentifier segment := by
  intro h
  have hmem : (⟨"a", ["else if"]⟩ : Path) ∈
      (parseSource "component C \x7b\nif a.else if \x7b\n\x7d\n\x7d").program.paths := by
    decide +kernel
  exact not_isIdentifier_elseIf (h _ _ hmem "else if" (by simp [Path.segments]))

end UiLang
