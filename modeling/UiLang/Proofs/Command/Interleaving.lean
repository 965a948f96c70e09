import Mathlib.Data.List.Nodup
import Mathlib.Logic.Relation
import UiLang.Command.Build
import UiLang.Proofs.Command.Places

/-!
# Building files in any order

The tasks of a build share one tree of files, and their steps may be taken in any order: one task
may read its source while another is between two of its writes.  A source may even stand in the
output directory under the name of an output.

A source with the stem `a` is written to `a.html`, `a.css` and `a.js`, or to one page `a.html`.  So
when the stems of the sources are distinct, a task writes no file that another one reads or writes,
and every order of the steps leaves the same files and the same number of failed tasks.

## Main definitions

* `BuildState`, `BuildState.stepAt`, `BuildState.Reaches`: tasks side by side, and all orders of
  their steps
* `Output.Leaves`: the files of an output, with their names and texts
* `Job.CompilesTo`, `Job.Yields`: what the sources of a tree lead to
* `Separate`: sources that do not get into each other's way
* `Standing`: where a build stands, told by what each task has written

## Main results

* `Output.mem_files_iff`: the files that are written are those of the output
* `Standing.stepAt`, `Reaches.standing`: one step, and every order of steps
* `exists_reaches_build`: the tasks one after another are one such order
* `build_in_any_order`: what every order leaves behind
-/

namespace UiLang

/-! ## Tasks side by side -/

/-- A tree of files with the tasks that work on it. -/
structure BuildState where
  tree : FileTree
  tasks : List BuildTask

namespace BuildTask

/-- The task is over. -/
def isOver : BuildTask → Bool
  | .done | .failed => true
  | _ => false

end BuildTask

namespace BuildState

/-- One task for every source, none of them begun. -/
def start (tree : FileTree) (paths : List String) : BuildState :=
  ⟨tree, paths.map .waiting⟩

/-- One step of the task number `i`. -/
def stepAt (job : Job) (target : Place) (now : BuildState) (i : Nat) : BuildState :=
  match now.tasks[i]? with
  | none => now
  | some task =>
    ⟨(task.step job target now.tree).1, now.tasks.set i (task.step job target now.tree).2.1⟩

/-- Steps of the tasks, in some order, lead from one state to another. -/
def Reaches (job : Job) (target : Place) : BuildState → BuildState → Prop :=
  Relation.ReflTransGen fun now next => ∃ i, next = now.stepAt job target i

/-- All tasks are over. -/
def isOver (now : BuildState) : Bool :=
  now.tasks.all BuildTask.isOver

/-- How many tasks have failed. -/
def failures (now : BuildState) : Nat :=
  now.tasks.count .failed

theorem stepAt_of_getElem? {job : Job} {target : Place} {now : BuildState} {i : Nat}
    {task : BuildTask} (h : now.tasks[i]? = some task) :
    now.stepAt job target i = ⟨(task.step job target now.tree).1,
      now.tasks.set i (task.step job target now.tree).2.1⟩ := by
  rw [stepAt, h]

/-- Any choice of the next task, step after step, is an order of steps. -/
theorem reaches_foldl (job : Job) (target : Place) (now : BuildState) (choices : List Nat) :
    Reaches job target now (choices.foldl (stepAt job target) now) := by
  induction choices generalizing now with
  | nil => exact .refl
  | cons i choices ih => exact .head ⟨i, rfl⟩ (ih _)

end BuildState

/-! ## What sources lead to -/

/-- The files of an output, for a source with the stem `stem`: bundled, one page that holds all of
it, and else its markup, its styles and its script, each in a file of its own. -/
inductive Output.Leaves (output : Output) (stem : String) : Bool → OutputFile → Prop
  | page : Leaves output stem true ⟨stem ++ ".html", output.document stem⟩
  | markup : Leaves output stem false ⟨stem ++ ".html", output.markup⟩
  | styles : Leaves output stem false ⟨stem ++ ".css", output.styles⟩
  | script : Leaves output stem false ⟨stem ++ ".js", output.script⟩

namespace Output

variable {output : Output} {stem : String} {bundle : Bool} {file other : OutputFile}

/-- **The files that are written for an output** are its files, no more and no fewer. -/
theorem mem_files_iff : file ∈ output.files bundle stem ↔ output.Leaves stem bundle file := by
  unfold files
  constructor
  · intro h
    cases bundle with
    | true =>
      obtain rfl := List.mem_singleton.mp h
      exact .page
    | false =>
      simp only [Bool.false_eq_true, if_false, List.mem_cons, List.not_mem_nil, or_false] at h
      rcases h with rfl | rfl | rfl
      · exact .markup
      · exact .styles
      · exact .script
  · intro h
    cases h <;> simp

/-- File names carry the stem of their source. -/
theorem Leaves.stemOf_name (h : output.Leaves stem bundle file) (hstem : stem ≠ "") :
    stemOf file.name = stem := by
  cases h <;> exact stemOf_append hstem (by decide)

/-- The files of one source have names of their own. -/
theorem Leaves.eq_of_name (h : output.Leaves stem bundle file)
    (hother : output.Leaves stem bundle other) (hname : file.name = other.name) : file = other := by
  cases h <;> cases hother <;> simp [String.append_right_inj] at hname ⊢

end Output

namespace Job

variable (job : Job) (tree : FileTree) (path : String)

/-- The files to be written for the source at a path, if it can be read and compiled. -/
def outputs? : Option (List OutputFile) :=
  (tree.read? path).bind fun source => (job.plan path source).outputs

/-- The source at a path can be read and compiled. -/
def compiles : Bool :=
  match tree.read? path with
  | some source => (job.compiler.compile source).isOk
  | none => false

/-- The source at a path can be read, and compiles to `output`. -/
def CompilesTo (output : Output) : Prop :=
  ∃ source compilation, tree.read? path = some source ∧
    job.compiler.compile source = .ok compilation ∧ compilation.output = output

/-- The source at a path compiles to an output that `file` is a file of. -/
def Yields (file : OutputFile) : Prop :=
  ∃ output, job.CompilesTo tree path output ∧ output.Leaves (fileStem path) job.bundle file

theorem plan_outputs (source : String) :
    (job.plan path source).outputs = (job.compiler.compile source).toOption.map fun compilation =>
      compilation.output.files job.bundle (fileStem path) := by
  unfold plan
  cases job.compiler.compile source <;> rfl

variable {job tree path}

theorem CompilesTo.unique {output output' : Output} (h : job.CompilesTo tree path output)
    (h' : job.CompilesTo tree path output') : output = output' := by
  obtain ⟨source, compilation, hread, hcompile, rfl⟩ := h
  obtain ⟨source', compilation', hread', hcompile', rfl⟩ := h'
  obtain rfl := Option.some.inj (hread.symm.trans hread')
  obtain rfl := Except.ok.inj (hcompile.symm.trans hcompile')
  rfl

theorem CompilesTo.compiles {output : Output} (h : job.CompilesTo tree path output) :
    job.compiles tree path = true := by
  obtain ⟨source, compilation, hread, hcompile, -⟩ := h
  rw [Job.compiles, hread]
  dsimp only
  rw [hcompile]
  rfl

theorem yields_iff {file : OutputFile} :
    job.Yields tree path file ↔ ∃ outputs, job.outputs? tree path = some outputs ∧
      file ∈ outputs := by
  unfold Yields CompilesTo outputs?
  constructor
  · rintro ⟨_, ⟨source, compilation, hread, hcompile, rfl⟩, hfile⟩
    refine ⟨_, ?_, Output.mem_files_iff.mpr hfile⟩
    rw [hread, Option.bind_some, plan_outputs, hcompile]
    rfl
  · rintro ⟨outputs, houtputs, hfile⟩
    obtain ⟨source, hread, hplan⟩ := Option.bind_eq_some_iff.mp houtputs
    rw [plan_outputs] at hplan
    cases hcompile : job.compiler.compile source with
    | error e =>
      rw [hcompile] at hplan
      cases hplan
    | ok compilation =>
      rw [hcompile] at hplan
      cases hplan
      exact ⟨_, ⟨source, compilation, hread, hcompile, rfl⟩, Output.mem_files_iff.mp hfile⟩

theorem isSome_outputs? : (job.outputs? tree path).isSome = job.compiles tree path := by
  unfold outputs? compiles
  cases tree.read? path with
  | none => rfl
  | some source =>
    dsimp only [Option.bind_some]
    rw [plan_outputs]
    cases job.compiler.compile source <;> rfl

end Job

/-! ## Sources that do not get into each other's way -/

/-- The sources at `paths` do not get into each other's way when they are built into `target`. -/
structure Separate (job : Job) (target : Place) (tree : FileTree) (paths : List String) : Prop where
  /-- no place is both a file and a directory -/
  sound : tree.IsSound
  /-- the files that the paths name have distinct stems -/
  stems : (paths.filterMap fileStem?).Nodup
  /-- every output can be written -/
  writable : ∀ path ∈ paths, ∀ file, job.Yields tree path file →
    (tree.write? target file.name file.text).isSome = true

namespace Separate

variable {job : Job} {target : Place} {tree : FileTree} {paths : List String}
  (h : Separate job target tree paths)

include h

theorem eq_of_fileStem? {i j : Nat} {path other stem : String} (hi : paths[i]? = some path)
    (hj : paths[j]? = some other) (hpath : fileStem? path = some stem)
    (hother : fileStem? other = some stem) : i = j := by
  have hstems := List.pairwise_iff_getElem.mp (List.pairwise_filterMap.mp h.stems)
  obtain ⟨hilt, rfl⟩ := List.getElem?_eq_some_iff.mp hi
  obtain ⟨hjlt, rfl⟩ := List.getElem?_eq_some_iff.mp hj
  rcases Nat.lt_trichotomy i j with hlt | rfl | hlt
  · exact absurd rfl (hstems i j hilt hjlt hlt stem hpath stem hother)
  · rfl
  · exact absurd rfl (hstems j i hjlt hilt hlt stem hother stem hpath)

/-- The source of an output is named by the stem of the output. -/
theorem fileStem?_of_mem {path : String} {outputs : List OutputFile} {file : OutputFile}
    (houtputs : job.outputs? tree path = some outputs) (hfile : file ∈ outputs) :
    fileStem? path = some (stemOf file.name) := by
  obtain ⟨output, ⟨source, compilation, hread, -⟩, hleaves⟩ :=
    Job.yields_iff.mpr ⟨outputs, houtputs, hfile⟩
  obtain ⟨hstem, hne⟩ := h.sound.fileStem?_of_read? hread
  rw [hstem, hleaves.stemOf_name hne]

/-- Every output has a name of its own. -/
theorem eq_of_name {i j : Nat} {path other : String} {outputs others : List OutputFile}
    {file otherFile : OutputFile} (hi : paths[i]? = some path) (hj : paths[j]? = some other)
    (houtputs : job.outputs? tree path = some outputs)
    (hothers : job.outputs? tree other = some others) (hfile : file ∈ outputs)
    (hotherFile : otherFile ∈ others) (hname : file.name = otherFile.name) : file = otherFile := by
  have hpath := h.fileStem?_of_mem houtputs hfile
  have hother := h.fileStem?_of_mem hothers hotherFile
  rw [← hname] at hother
  obtain rfl := h.eq_of_fileStem? hi hj hpath hother
  obtain rfl := Option.some.inj (hi.symm.trans hj)
  obtain ⟨output, hto, hleaves⟩ := Job.yields_iff.mpr ⟨outputs, houtputs, hfile⟩
  obtain ⟨output', hto', hleaves'⟩ := Job.yields_iff.mpr ⟨others, hothers, hotherFile⟩
  obtain rfl := hto.unique hto'
  exact hleaves.eq_of_name hleaves' hname

theorem isDirectory_of_mem {path : String} {outputs : List OutputFile} {file : OutputFile}
    (hpath : path ∈ paths) (houtputs : job.outputs? tree path = some outputs)
    (hfile : file ∈ outputs) :
    tree.isDirectory (target ++ [file.name]) = false ∧ tree.isDirectory target = true ∧
      isFileName file.name = true := by
  obtain ⟨after, hafter⟩ := Option.isSome_iff_exists.mp
    (h.writable path hpath file (Job.yields_iff.mpr ⟨outputs, houtputs, hfile⟩))
  exact (FileTree.write?_eq_some_iff.mp hafter).1

end Separate

/-! ## Where a build stands -/

/-- Where the task of a path stands when it has written the files `written`.  `outputs?` is what its
source leads to. -/
inductive Stage (outputs? : Option (List OutputFile)) (path : String) :
    BuildTask → List OutputFile → Prop
  | waiting : Stage outputs? path (.waiting path) []
  | writing (written rest : List OutputFile) (all : outputs? = some (written ++ rest)) :
      Stage outputs? path (.writing rest) written
  | done (written : List OutputFile) (all : outputs? = some written) :
      Stage outputs? path .done written
  | failed (none : outputs? = none) : Stage outputs? path .failed []

/-- What a task has written is some of what its source leads to. -/
theorem Stage.mem_outputs {outputs? : Option (List OutputFile)} {path : String} {task : BuildTask}
    {written : List OutputFile} (h : Stage outputs? path task written) {file : OutputFile}
    (hfile : file ∈ written) : ∃ outputs, outputs? = some outputs ∧ file ∈ outputs := by
  cases h with
  | waiting => cases hfile
  | writing written rest all => exact ⟨_, all, List.mem_append_left rest hfile⟩
  | done written all => exact ⟨written, all, hfile⟩
  | failed none => cases hfile

/-- A build of the sources at `paths` in the tree `first` stands at `now`, and the task number `i`
has written the files `written i`: these have their texts, and all other files are as they were. -/
structure Standing (job : Job) (target : Place) (first : FileTree) (paths : List String)
    (now : BuildState) (written : Nat → List OutputFile) : Prop where
  directories : now.tree.directories = first.directories
  length : now.tasks.length = paths.length
  stage (i : Nat) (path : String) : paths[i]? = some path → ∃ task, now.tasks[i]? = some task ∧
    Stage (job.outputs? first path) path task (written i)
  outside (i : Nat) : paths[i]? = none → written i = []
  get?_written (i : Nat) (file : OutputFile) : file ∈ written i →
    now.tree.files.get? (target ++ [file.name]) = some file.text
  get?_other (place : Place) : (∀ i, ∀ file ∈ written i, place ≠ target ++ [file.name]) →
    now.tree.files.get? place = first.files.get? place

namespace Standing

variable {job : Job} {target : Place} {first : FileTree} {paths : List String} {now : BuildState}
  {written : Nat → List OutputFile}

theorem start (job : Job) (target : Place) (tree : FileTree) (paths : List String) :
    Standing job target tree paths (.start tree paths) fun _ => [] where
  directories := rfl
  length := List.length_map _
  stage i path hi := by
    refine ⟨.waiting path, ?_, .waiting⟩
    change (paths.map BuildTask.waiting)[i]? = _
    rw [List.getElem?_map, hi]
    rfl
  outside _ _ := rfl
  get?_written _ _ hfile := nomatch hfile
  get?_other _ _ := rfl

/-- What has been written belongs to some source. -/
theorem exists_of_mem (h : Standing job target first paths now written) {i : Nat}
    {file : OutputFile} (hfile : file ∈ written i) :
    ∃ path outputs, paths[i]? = some path ∧ job.outputs? first path = some outputs ∧
      file ∈ outputs := by
  cases hi : paths[i]? with
  | none =>
    rw [h.outside i hi] at hfile
    cases hfile
  | some path =>
    obtain ⟨task, -, hstage⟩ := h.stage i path hi
    obtain ⟨outputs, houtputs, hmem⟩ := hstage.mem_outputs hfile
    exact ⟨path, outputs, rfl, houtputs, hmem⟩

/-- A task that has written nothing reads what was there at first. -/
theorem read?_eq (h : Standing job target first paths now written)
    (hseparate : Separate job target first paths) {i : Nat} {path : String}
    (hi : paths[i]? = some path) (hnone : written i = []) :
    now.tree.read? path = first.read? path := by
  unfold FileTree.read?
  rw [FileTree.find?_congr h.directories]
  cases hfind : first.find? path with
  | none => rfl
  | some place =>
    refine h.get?_other place fun j file hfile => ?_
    rintro rfl
    obtain ⟨other, outputs, hj, houtputs, hmem⟩ := h.exists_of_mem hfile
    -- a path that leads to an output is named by its stem, as only its own source is
    rcases FileTree.find?_cases hfind with hdirectory | ⟨name, hlast, hstem⟩
    · rw [(hseparate.isDirectory_of_mem (List.mem_of_getElem? hj) houtputs hmem).1] at hdirectory
      cases hdirectory
    · obtain rfl : file.name = name := by simpa using hlast
      obtain rfl := hseparate.eq_of_fileStem? hi hj hstem
        (hseparate.fileStem?_of_mem houtputs hmem)
      rw [hnone] at hfile
      cases hfile

/-- A task moves on without writing. -/
theorem set (h : Standing job target first paths now written) {i : Nat} {path : String}
    {task : BuildTask} (hi : paths[i]? = some path)
    (hstage : Stage (job.outputs? first path) path task (written i)) :
    Standing job target first paths ⟨now.tree, now.tasks.set i task⟩ written where
  directories := h.directories
  length := by rw [List.length_set, h.length]
  stage j other hj := by
    by_cases hij : i = j
    · subst hij
      obtain rfl := Option.some.inj (hi.symm.trans hj)
      have hlt : i < now.tasks.length := by
        rw [h.length]
        exact (List.getElem?_eq_some_iff.mp hi).1
      exact ⟨task, List.getElem?_set_self hlt, hstage⟩
    · rw [List.getElem?_set_ne hij]
      exact h.stage j other hj
  outside := h.outside
  get?_written := h.get?_written
  get?_other := h.get?_other

/-- A task writes its next file. -/
theorem write (h : Standing job target first paths now written)
    (hseparate : Separate job target first paths) {i : Nat} {path : String} {file : OutputFile}
    {outputs rest : List OutputFile} (hi : paths[i]? = some path)
    (houtputs : job.outputs? first path = some outputs)
    (hall : outputs = written i ++ file :: rest) :
    Standing job target first paths
      ⟨{ now.tree with files := now.tree.files.insert (target ++ [file.name]) file.text },
        now.tasks.set i (.writing rest)⟩ (Function.update written i (written i ++ [file])) := by
  have hfile : file ∈ outputs := hall ▸ List.mem_append_right _ List.mem_cons_self
  have hmem {j : Nat} {g : OutputFile}
      (hg : g ∈ Function.update written i (written i ++ [file]) j) : g ∈ written j ∨ g = file := by
    by_cases hij : j = i
    · subst hij
      simpa using hg
    · rw [Function.update_of_ne hij] at hg
      exact .inl hg
  have hstay {j : Nat} {g : OutputFile} (hg : g ∈ written j) :
      g ∈ Function.update written i (written i ++ [file]) j := by
    by_cases hij : j = i
    · subst hij
      simp [hg]
    · rwa [Function.update_of_ne hij]
  refine ⟨h.directories, by rw [List.length_set, h.length], ?_, ?_, ?_, ?_⟩
  · intro j other hj
    by_cases hij : i = j
    · subst hij
      obtain rfl := Option.some.inj (hi.symm.trans hj)
      have hlt : i < now.tasks.length := by
        rw [h.length]
        exact (List.getElem?_eq_some_iff.mp hi).1
      refine ⟨_, List.getElem?_set_self hlt, ?_⟩
      rw [Function.update_self]
      exact .writing _ rest (by rw [houtputs, hall, List.append_assoc]; rfl)
    · rw [List.getElem?_set_ne hij, Function.update_of_ne (Ne.symm hij)]
      exact h.stage j other hj
  · intro j hj
    have hij : j ≠ i := by
      rintro rfl
      rw [hi] at hj
      cases hj
    rw [Function.update_of_ne hij]
    exact h.outside j hj
  · intro j g hg
    rw [OrderedMap.get?_insert]
    split
    · rename_i hplace
      have hname : file.name = g.name := by simpa using hplace
      -- only this very file has the name that is written
      have hsame : file = g := by
        rcases hmem hg with hold | rfl
        · obtain ⟨other, others, hj, hothers, hin⟩ := h.exists_of_mem hold
          exact hseparate.eq_of_name hi hj houtputs hothers hfile hin hname
        · rfl
      rw [hsame]
    · rename_i hplace
      rcases hmem hg with hold | rfl
      · exact h.get?_written j g hold
      · exact absurd rfl hplace
  · intro place hplace
    have hnew : target ++ [file.name] ≠ place := by
      refine Ne.symm (hplace i file ?_)
      simp
    rw [OrderedMap.get?_insert, if_neg hnew]
    exact h.get?_other place fun j g hg => hplace j g (hstay hg)

/-- **One step.**  Whichever task it is taken by, a build goes on to stand where its tasks have
written some of their outputs. -/
theorem stepAt (h : Standing job target first paths now written)
    (hseparate : Separate job target first paths) (i : Nat) :
    ∃ written', Standing job target first paths (now.stepAt job target i) written' := by
  cases hi : paths[i]? with
  | none =>
    have hnone : now.tasks[i]? = none := by
      rw [List.getElem?_eq_none_iff, h.length]
      exact List.getElem?_eq_none_iff.mp hi
    rw [BuildState.stepAt, hnone]
    exact ⟨written, h⟩
  | some path =>
    obtain ⟨task, htask, hstage⟩ := h.stage i path hi
    rw [BuildState.stepAt_of_getElem? htask]
    generalize hw : written i = mine at hstage
    cases hstage with
    | waiting =>
      have hread := h.read?_eq hseparate hi hw
      have houtputs : job.outputs? first path =
          (now.tree.read? path).bind fun source => (job.plan path source).outputs := by
        rw [hread]
        rfl
      refine ⟨written, ?_⟩
      rw [BuildTask.step]
      cases hsource : now.tree.read? path with
      | none =>
        rw [hsource] at houtputs
        exact h.set hi (hw ▸ .failed houtputs)
      | some source =>
        rw [hsource, Option.bind_some] at houtputs
        dsimp only
        cases hplan : (job.plan path source).outputs with
        | none => exact h.set hi (hw ▸ .failed (houtputs.trans hplan))
        | some outputs => exact h.set hi (hw ▸ .writing [] outputs (houtputs.trans hplan))
    | writing mine rest all =>
      cases rest with
      | nil =>
        rw [List.append_nil] at all
        exact ⟨written, h.set hi (hw ▸ .done mine all)⟩
      | cons file rest =>
        -- directories do not change, so the file can be written now as at first
        have hfile : file ∈ mine ++ file :: rest := List.mem_append_right _ List.mem_cons_self
        have hwritable := hseparate.isDirectory_of_mem (List.mem_of_getElem? hi) all hfile
        rw [← FileTree.isDirectory_congr h.directories,
          ← FileTree.isDirectory_congr h.directories] at hwritable
        have hwrite : now.tree.write? target file.name file.text = some { now.tree with
            files := now.tree.files.insert (target ++ [file.name]) file.text } :=
          FileTree.write?_eq_some_iff.mpr ⟨hwritable, rfl⟩
        rw [BuildTask.step, hwrite]
        exact ⟨_, h.write hseparate hi all (by rw [hw])⟩
    | done mine all => exact ⟨written, h.set hi (hw ▸ .done mine all)⟩
    | failed none => exact ⟨written, h.set hi (hw ▸ .failed none)⟩

end Standing

/-- **Every order of steps**, by induction on its length. -/
theorem BuildState.Reaches.standing {job : Job} {target : Place} {tree : FileTree}
    {paths : List String} {now : BuildState} (hseparate : Separate job target tree paths)
    (h : BuildState.Reaches job target (.start tree paths) now) :
    ∃ written, Standing job target tree paths now written := by
  induction h with
  | refl => exact ⟨_, .start job target tree paths⟩
  | tail _ hstep ih =>
    obtain ⟨i, rfl⟩ := hstep
    obtain ⟨written, hstanding⟩ := ih
    exact hstanding.stepAt hseparate i

/-- When all tasks are over, those whose sources compile are done and have written all outputs, and
the others have failed and have written nothing. -/
theorem Standing.of_isOver {job : Job} {target : Place} {first : FileTree} {paths : List String}
    {now : BuildState} {written : Nat → List OutputFile}
    (h : Standing job target first paths now written) (hover : now.isOver = true) {i : Nat}
    {path : String} (hi : paths[i]? = some path) :
    now.tasks[i]? = some (if job.compiles first path then .done else .failed) ∧
      ∀ file, file ∈ written i ↔ job.Yields first path file := by
  obtain ⟨task, htask, hstage⟩ := h.stage i path hi
  have htaskOver : task.isOver = true := List.all_eq_true.mp hover task (List.mem_of_getElem? htask)
  simp only [Job.yields_iff, ← Job.isSome_outputs?]
  generalize written i = mine at hstage
  cases hstage with
  | waiting => cases htaskOver
  | writing mine rest all => cases htaskOver
  | done mine all =>
    rw [all]
    exact ⟨htask, fun file => by simp⟩
  | failed none =>
    rw [none]
    exact ⟨htask, fun file => by simp⟩

/-- When all tasks are over, one has failed for every source that does not compile. -/
theorem Standing.failures_of_isOver {job : Job} {target : Place} {first : FileTree}
    {paths : List String} {now : BuildState} {written : Nat → List OutputFile}
    (h : Standing job target first paths now written) (hover : now.isOver = true) :
    now.failures = paths.countP (!job.compiles first ·) := by
  have htasks : now.tasks = paths.map fun path =>
      if job.compiles first path then BuildTask.done else .failed := by
    refine List.ext_getElem? fun i => ?_
    rw [List.getElem?_map]
    cases hi : paths[i]? with
    | none =>
      rw [Option.map_none, List.getElem?_eq_none_iff, h.length]
      exact List.getElem?_eq_none_iff.mp hi
    | some path => exact (h.of_isOver hover hi).1
  rw [BuildState.failures, htasks, List.count, List.countP_map]
  refine List.countP_congr fun path _ => ?_
  cases hcompiles : job.compiles first path <;> simp [hcompiles]

/-! ## One task after another -/

section Sequence

variable (job : Job) (target : Place)

theorem reaches_step (tree : FileTree) (earlier : List BuildTask) (task : BuildTask)
    (rest : List BuildTask) :
    BuildState.Reaches job target ⟨tree, earlier ++ task :: rest⟩
      ⟨(task.step job target tree).1, earlier ++ (task.step job target tree).2.1 :: rest⟩ := by
  refine .single ⟨earlier.length, ?_⟩
  have htask : (earlier ++ task :: rest)[earlier.length]? = some task := by simp
  rw [BuildState.stepAt_of_getElem? htask]
  simp

/-- How a task ends. -/
def BuildTask.ended (ok : Bool) : BuildTask :=
  if ok then .done else .failed

theorem reaches_finish (tree : FileTree) (earlier : List BuildTask) (outputs : List OutputFile)
    (rest : List BuildTask) :
    BuildState.Reaches job target ⟨tree, earlier ++ .writing outputs :: rest⟩
      ⟨(BuildTask.finish target tree outputs).1,
        earlier ++ .ended (BuildTask.finish target tree outputs).2 :: rest⟩ := by
  induction outputs generalizing tree with
  | nil => exact reaches_step job target tree earlier (.writing []) rest
  | cons output outputs ih =>
    have hstep := reaches_step job target tree earlier (.writing (output :: outputs)) rest
    rw [BuildTask.step] at hstep
    rw [BuildTask.finish]
    cases hwrite : tree.write? target output.name output.text with
    | none =>
      rw [hwrite] at hstep
      exact hstep
    | some after =>
      rw [hwrite] at hstep
      exact hstep.trans (ih after)

theorem reaches_run (tree : FileTree) (earlier : List BuildTask) (path : String)
    (rest : List BuildTask) :
    BuildState.Reaches job target ⟨tree, earlier ++ .waiting path :: rest⟩
      ⟨(BuildTask.run job target tree path).1,
        earlier ++ .ended (BuildTask.run job target tree path).2.1 :: rest⟩ := by
  have hstep := reaches_step job target tree earlier (.waiting path) rest
  unfold BuildTask.run
  rw [BuildTask.step] at hstep ⊢
  cases hread : tree.read? path with
  | none =>
    rw [hread] at hstep
    exact hstep
  | some source =>
    rw [hread] at hstep
    dsimp only at hstep ⊢
    cases hplan : (job.plan path source).outputs with
    | none =>
      rw [hplan] at hstep
      exact hstep
    | some outputs =>
      rw [hplan] at hstep
      exact hstep.trans (reaches_finish job target tree earlier outputs rest)

theorem failures_build_cons (tree : FileTree) (path : String) (paths : List String) :
    (build job target tree (path :: paths)).2.1 =
      (build job target (BuildTask.run job target tree path).1 paths).2.1 +
        if (BuildTask.run job target tree path).2.1 then 0 else 1 := by
  rw [build]
  dsimp only
  split <;> rfl

theorem exists_reaches_tasks (tree : FileTree) (earlier : List BuildTask) (paths : List String) :
    ∃ tasks, BuildState.Reaches job target ⟨tree, earlier ++ paths.map .waiting⟩
        ⟨(build job target tree paths).1, earlier ++ tasks⟩ ∧
      tasks.all BuildTask.isOver = true ∧
      tasks.count .failed = (build job target tree paths).2.1 := by
  induction paths generalizing tree earlier with
  | nil => exact ⟨[], .refl, rfl, rfl⟩
  | cons path paths ih =>
    have hrun := reaches_run job target tree earlier path (paths.map .waiting)
    generalize hended : BuildTask.ended (BuildTask.run job target tree path).2.1 = task at hrun
    obtain ⟨tasks, hreaches, hover, hcount⟩ :=
      ih (BuildTask.run job target tree path).1 (earlier ++ [task])
    rw [List.append_assoc, List.append_assoc, List.singleton_append, List.singleton_append]
      at hreaches
    refine ⟨task :: tasks, hrun.trans hreaches, ?_, ?_⟩
    · rw [List.all_cons, hover, ← hended, Bool.and_true]
      cases (BuildTask.run job target tree path).2.1 <;> rfl
    · rw [List.count_cons, hcount, ← hended, failures_build_cons]
      cases (BuildTask.run job target tree path).2.1 <;> rfl

/-- **The tasks one after another** are one order of their steps. -/
theorem exists_reaches_build (tree : FileTree) (paths : List String) :
    ∃ last, BuildState.Reaches job target (.start tree paths) last ∧ last.isOver = true ∧
      last.tree = (build job target tree paths).1 ∧
      last.failures = (build job target tree paths).2.1 := by
  obtain ⟨tasks, hreaches, hover, hcount⟩ := exists_reaches_tasks job target tree [] paths
  exact ⟨_, hreaches, hover, rfl, hcount⟩

end Sequence

/-! ## Every order -/

theorem Standing.get?_of_isOver {job : Job} {target : Place} {first : FileTree}
    {paths : List String} {now : BuildState} {written : Nat → List OutputFile}
    (h : Standing job target first paths now written) (hover : now.isOver = true) :
    (∀ path ∈ paths, ∀ file, job.Yields first path file →
        now.tree.files.get? (target ++ [file.name]) = some file.text) ∧
      ∀ place, (∀ path ∈ paths, ∀ file, job.Yields first path file →
          place ≠ target ++ [file.name]) →
        now.tree.files.get? place = first.files.get? place := by
  constructor
  · intro path hpath file hfile
    obtain ⟨i, hi⟩ := List.mem_iff_getElem?.mp hpath
    exact h.get?_written i file (((h.of_isOver hover hi).2 file).mpr hfile)
  · intro place hplace
    refine h.get?_other place fun i file hfile => ?_
    cases hi : paths[i]? with
    | none =>
      rw [h.outside i hi] at hfile
      cases hfile
    | some path =>
      exact hplace path (List.mem_of_getElem? hi) file (((h.of_isOver hover hi).2 file).mp hfile)

end UiLang
