import Mathlib.Data.List.Basic
import Mathlib.Data.List.Induction
import UiLang.Command.Files

/-!
# Where paths lead

A path that leads to a file ends in the name of that file; one that ends in an idle name or in `..`
leads to a directory.  So in a tree where no place is both, the stem of a path whose file can be
read is the stem of the name at its place.

## Main definitions

* `stemOf`, `fileStem?`: the stem of a name, and of the file that a path names
* `FileTree.IsSound`: no place is both a file and a directory

## Main results

* `nameStem_append`: an extension does not change the stem
* `FileTree.find?_cases`: a path leads to a directory, or to the name that it ends in
* `FileTree.write?_eq_some_iff`: what a write does
-/

namespace UiLang

/-! ## Stems -/

/-- An extension does not change the stem. -/
theorem nameStem_append {stem extension : List Char} (hstem : stem ≠ [])
    (hextension : '.' ∉ extension) : nameStem (stem ++ '.' :: extension) = stem := by
  have hlast : splitWhen (· == '.') extension = [extension] := by
    refine splitWhen_of_forall fun c hc => ?_
    rw [beq_eq_false_iff_ne]
    rintro rfl
    exact hextension hc
  have hpieces : (splitWhen (· == '.') (stem ++ '.' :: extension)).dropLast =
      splitWhen (· == '.') stem := by
    rw [splitWhen_append_cons (by decide), hlast, List.dropLast_concat]
  unfold nameStem
  rw [hpieces]
  split
  · rename_i hnil
    exact absurd hnil (splitWhen_ne_nil _ stem)
  · dsimp only
    rw [intercalate_splitWhen, if_neg]
    simpa using hstem

theorem nameStem_ne_nil {name : List Char} (h : name ≠ []) : nameStem name ≠ [] := by
  unfold nameStem
  split
  · exact h
  · dsimp only
    split
    · exact h
    · rename_i hstem
      simpa using hstem

/-- The stem of a name. -/
def stemOf (name : String) : String :=
  String.ofList (nameStem name.toList)

/-- The name that a path ends in. -/
def lastName (path : String) : String :=
  (pathNames path).getLastD ""

theorem fileStem_eq (path : String) : fileStem path = stemOf (lastName path) := rfl

/-- The name leads to a directory, whatever stands before it. -/
def leadsToDirectory (name : String) : Bool :=
  isIdle name || name == ".."

/-- The stem of the file that a path names.  A path that can only lead to a directory names no
file. -/
def fileStem? (path : String) : Option String :=
  if leadsToDirectory (lastName path) then none else some (fileStem path)

theorem stemOf_ne_empty {name : String} (h : leadsToDirectory name = false) : stemOf name ≠ "" := by
  have hname : name.toList ≠ [] := by
    intro hnil
    rw [String.toList_eq_nil_iff.mp hnil] at h
    exact absurd h (by decide)
  intro hempty
  exact nameStem_ne_nil hname (String.ofList_eq_empty_iff.mp hempty)

theorem stemOf_append {stem : String} {extension : List Char} (hstem : stem ≠ "")
    (hextension : '.' ∉ extension) :
    stemOf (stem ++ String.ofList ('.' :: extension)) = stem := by
  rw [stemOf, String.toList_append, String.toList_ofList,
    nameStem_append (mt String.toList_eq_nil_iff.mp hstem) hextension, String.ofList_toList]

/-! ## Walks -/

namespace FileTree

variable {tree : FileTree} {place next : Place} {name : String} {names : List String}

/-- No place is both a file and a directory. -/
def IsSound (tree : FileTree) : Prop :=
  ∀ place, tree.isDirectory place = true → tree.files.get? place = none

theorem isSound_iff : tree.IsSound ↔ ∀ place ∈ tree.files.keys, tree.isDirectory place = false := by
  have hget (place : Place) : tree.files.get? place = none ↔ place ∉ tree.files.keys := by
    rw [OrderedMap.get?, Option.map_eq_none_iff, List.find?_eq_none]
    simp only [decide_eq_true_eq, OrderedMap.keys, List.mem_map, not_exists, not_and]
  unfold IsSound
  simp only [hget]
  constructor
  · intro h place hplace
    rw [← Bool.not_eq_true]
    exact fun hdirectory => h place hdirectory hplace
  · intro h place hdirectory hplace
    rw [h place hplace] at hdirectory
    cases hdirectory

/-- What a step of a walk can do. -/
theorem enter?_cases (h : tree.enter? place name = some next) :
    tree.isDirectory place = true ∧
      (isIdle name = true ∧ next = place ∨
        name = ".." ∧ place.all (· == "..") = true ∧ next = place ++ [".."] ∨
        name = ".." ∧ place.all (· == "..") = false ∧ next = place.dropLast ∨
        leadsToDirectory name = false ∧ next = place ++ [name]) := by
  unfold enter? at h
  split at h
  · cases h
  rename_i hdirectory
  refine ⟨by simpa using hdirectory, ?_⟩
  split at h
  · rename_i hidle
    exact .inl ⟨hidle, (Option.some.inj h).symm⟩
  rename_i hidle
  split at h
  · rename_i hup
    split at h
    · rename_i hall
      exact .inr (.inl ⟨hup, hall, (Option.some.inj h).symm⟩)
    · rename_i hall
      exact .inr (.inr (.inl ⟨hup, by simpa using hall, (Option.some.inj h).symm⟩))
  rename_i hup
  split at h
  · refine .inr (.inr (.inr ⟨?_, (Option.some.inj h).symm⟩))
    simp [leadsToDirectory, hidle, hup]
  · cases h

theorem walk?_concat (tree : FileTree) (names : List String) (name : String) :
    tree.walk? (names ++ [name]) = (tree.walk? names).bind (tree.enter? · name) := by
  unfold walk?
  rw [List.foldlM_append]
  refine congrArg (Option.bind _) (funext fun place => ?_)
  rw [List.foldlM_cons]
  exact Option.bind_fun_some _

theorem isDirectory_of_all (tree : FileTree) (h : place.all (· == "..") = true) :
    tree.isDirectory place = true := by
  rw [isDirectory, h, Bool.true_or]

/-- A walk goes through directories only. -/
theorem isDirectory_take_of_walk? (h : tree.walk? names = some place) :
    ∀ n < place.length, tree.isDirectory (place.take n) = true := by
  induction names using List.reverseRecOn generalizing place with
  | nil =>
    obtain rfl : [] = place := Option.some.inj h
    intro n hn
    exact absurd hn (Nat.not_lt_zero n)
  | append_singleton names name ih =>
    rw [walk?_concat] at h
    obtain ⟨here, hwalk, henter⟩ := Option.bind_eq_some_iff.mp h
    obtain ⟨hdirectory, hcases⟩ := enter?_cases henter
    -- a walk that goes on to a new name was in a directory before
    have hconcat (name : String) : ∀ n < (here ++ [name]).length,
        tree.isDirectory ((here ++ [name]).take n) = true := by
      intro n hn
      rw [List.length_append, List.length_singleton] at hn
      rw [List.take_append_of_le_length (Nat.le_of_lt_succ hn)]
      rcases Nat.lt_succ_iff_lt_or_eq.mp hn with hlt | rfl
      · exact ih hwalk n hlt
      · rwa [List.take_length]
    rcases hcases with ⟨-, rfl⟩ | ⟨-, -, rfl⟩ | ⟨-, -, rfl⟩ | ⟨-, rfl⟩
    · exact ih hwalk
    · exact hconcat ".."
    · intro n hn
      rw [List.length_dropLast] at hn
      rw [List.dropLast_eq_take, List.take_take, Nat.min_eq_left (Nat.le_of_lt hn)]
      exact ih hwalk n (Nat.lt_of_lt_pred hn)
    · exact hconcat name

/-- A walk ends in a directory, or at the name it took last. -/
theorem walk?_cases (h : tree.walk? names = some place) :
    tree.isDirectory place = true ∨
      leadsToDirectory (names.getLastD "") = false ∧ place.getLast? = some (names.getLastD "") := by
  rcases List.eq_nil_or_concat names with rfl | ⟨names, name, rfl⟩
  · obtain rfl : [] = place := Option.some.inj h
    exact .inl rfl
  · rw [List.concat_eq_append] at h ⊢
    rw [walk?_concat] at h
    obtain ⟨here, hwalk, henter⟩ := Option.bind_eq_some_iff.mp h
    obtain ⟨hdirectory, hcases⟩ := enter?_cases henter
    rcases hcases with ⟨-, rfl⟩ | ⟨-, hall, rfl⟩ | ⟨-, hall, rfl⟩ | ⟨hname, rfl⟩
    · exact .inl hdirectory
    · exact .inl (isDirectory_of_all tree (by simpa using hall))
    · -- the place above is one that the walk went through
      have hpos : 0 < here.length := by
        cases here with
        | nil => simp at hall
        | cons first rest => exact Nat.succ_pos _
      left
      rw [List.dropLast_eq_take]
      exact isDirectory_take_of_walk? hwalk _ (Nat.pred_lt_self hpos)
    · right
      simpa using hname

/-- A path leads to a directory, or to the name that it ends in. -/
theorem find?_cases {path : String} (h : tree.find? path = some place) :
    tree.isDirectory place = true ∨
      ∃ name, place.getLast? = some name ∧ fileStem? path = some (stemOf name) := by
  unfold find? at h
  split at h
  · cases h
  · rcases walk?_cases h with hdirectory | ⟨hname, hlast⟩
    · exact .inl hdirectory
    · refine .inr ⟨lastName path, hlast, ?_⟩
      change leadsToDirectory (lastName path) = false at hname
      rw [fileStem?, hname, fileStem_eq]
      rfl

/-- In a sound tree, a path whose file can be read names that file. -/
theorem IsSound.fileStem?_of_read? (hsound : tree.IsSound) {path text : String}
    (h : tree.read? path = some text) :
    fileStem? path = some (fileStem path) ∧ fileStem path ≠ "" := by
  obtain ⟨place, hfind, hget⟩ := Option.bind_eq_some_iff.mp h
  rcases find?_cases hfind with hdirectory | ⟨name, -, hstem⟩
  · rw [hsound place hdirectory] at hget
    cases hget
  · unfold fileStem? at hstem ⊢
    split at hstem
    · cases hstem
    · rename_i hname
      rw [if_neg hname]
      exact ⟨rfl, stemOf_ne_empty (Bool.eq_false_iff.mpr hname)⟩

/-! ## Writes -/

/-- What a write does, and when it can be done. -/
theorem write?_eq_some_iff {directory : Place} {text : String} {after : FileTree} :
    tree.write? directory name text = some after ↔
      (tree.isDirectory (directory ++ [name]) = false ∧ tree.isDirectory directory = true ∧
          isFileName name = true) ∧
        after = { tree with files := tree.files.insert (directory ++ [name]) text } := by
  unfold write?
  dsimp only
  split
  · rename_i h
    simp only [reduceCtorEq, false_iff, not_and]
    rintro ⟨h₁, h₂, h₃⟩
    simp [h₁, h₂, h₃] at h
  · rename_i h
    simp only [Bool.or_eq_true, Bool.not_eq_true', not_or, Bool.not_eq_true, Bool.not_eq_false]
      at h
    simp only [Option.some.injEq, h, and_self, true_and]
    exact eq_comm

/-- Directories alone decide where a path leads. -/
theorem find?_congr {tree' : FileTree} (h : tree'.directories = tree.directories) (path : String) :
    tree'.find? path = tree.find? path := by
  obtain ⟨files, directories⟩ := tree
  obtain ⟨files', directories'⟩ := tree'
  obtain rfl : directories' = directories := h
  rfl

theorem isDirectory_congr {tree' : FileTree} (h : tree'.directories = tree.directories)
    (place : Place) : tree'.isDirectory place = tree.isDirectory place := by
  unfold isDirectory
  rw [h]

end FileTree

end UiLang
