import UiLang.Condition.Basic
import UiLang.Distinct
import UiLang.Text.Split
import UiLang.Token.Word

/-!
# Text templates

A text may hold paths in braces, as in `Hello {user.name}`.  Everything else, other braces
too, stands for itself.

## Main definitions

* `TemplatePart`, `templateParts`: a text as characters and holes
* `interpolatedPaths`: the distinct paths of a text

## Main results

* `templateParts_chars`: the parts make up the text
-/

namespace UiLang

/-- A piece of a text: a character that stands for itself, or a path in braces. -/
inductive TemplatePart where
  | char (c : Char)
  | hole (path : Path)
  deriving DecidableEq, Repr

namespace TemplatePart

/-- The characters of a piece. -/
def chars : TemplatePart → List Char
  | .char c => [c]
  | .hole path => '\x7b' :: path.text.toList ++ ['\x7d']

end TemplatePart

/-- The path that makes up a text, if the text is one. -/
def pathOf? (cs : List Char) : Option Path :=
  match splitWhen (· == '.') cs with
  | [] => none
  | root :: fields =>
    if (root :: fields).all isIdentifier then
      some ⟨String.ofList root, fields.map String.ofList⟩
    else none

theorem toList_text_of_pathOf? {cs : List Char} {path : Path} (h : pathOf? cs = some path) :
    path.text.toList = cs := by
  unfold pathOf? at h
  split at h
  · simp at h
  · rename_i root fields hsplit
    split at h
    · obtain rfl := Option.some.inj h
      have hlist : ([String.ofList root] ++ fields.map String.ofList).map String.toList
          = root :: fields := by
        simp [Function.comp_def]
      rw [Path.text, String.toList_intercalate]
      simp only [Path.segments]
      rw [show (String.ofList root :: fields.map String.ofList).map String.toList
          = root :: fields from hlist, ← hsplit]
      exact intercalate_splitWhen '.' cs
    · simp at h

/-- The hole that opens right before a text: its path, and what follows its closing brace. -/
def hole? (cs : List Char) : Option (Path × List Char) :=
  match cs.dropWhile (· != '\x7d') with
  | [] => none
  | _ :: rest => (pathOf? (cs.takeWhile (· != '\x7d'))).map fun path => (path, rest)

theorem length_lt_of_hole? {cs rest : List Char} {path : Path} (h : hole? cs = some (path, rest)) :
    rest.length < cs.length := by
  unfold hole? at h
  split at h
  · simp at h
  · rename_i c tail hdrop
    obtain ⟨p, -, hp⟩ := Option.map_eq_some_iff.mp h
    obtain ⟨rfl, rfl⟩ := Prod.mk.inj hp
    have hle := (List.dropWhile_suffix (l := cs) (· != '\x7d')).length_le
    rw [hdrop, List.length_cons] at hle
    exact hle

/-- A hole and what follows it make up the text. -/
theorem chars_append_of_hole? {cs rest : List Char} {path : Path}
    (h : hole? cs = some (path, rest)) :
    (TemplatePart.hole path).chars ++ rest = '\x7b' :: cs := by
  unfold hole? at h
  split at h
  · simp at h
  · rename_i c tail hdrop
    obtain ⟨p, hpath, hp⟩ := Option.map_eq_some_iff.mp h
    obtain ⟨rfl, rfl⟩ := Prod.mk.inj hp
    have hc : c = '\x7d' := by
      have hhead := List.head?_dropWhile_not (· != '\x7d') cs
      rw [hdrop] at hhead
      simpa using hhead
    have happ := List.takeWhile_append_dropWhile (p := (· != '\x7d')) (l := cs)
    rw [hdrop, hc] at happ
    rw [TemplatePart.chars, toList_text_of_pathOf? hpath]
    simpa using happ

/-- A text as characters and holes. -/
def templateParts (cs : List Char) : List TemplatePart :=
  match cs with
  | [] => []
  | c :: rest =>
    if c = '\x7b' then
      match h : hole? rest with
      | some (path, after) =>
        have := length_lt_of_hole? h
        .hole path :: templateParts after
      | none => .char c :: templateParts rest
    else .char c :: templateParts rest
termination_by cs.length

/-- The parts make up the text. -/
theorem templateParts_chars (cs : List Char) :
    (templateParts cs).flatMap TemplatePart.chars = cs := by
  fun_induction templateParts cs with
  | case1 => rfl
  | case2 rest path after h _ ih =>
    rw [List.flatMap_cons, ih]
    exact chars_append_of_hole? h
  | case3 rest h ih => simp [TemplatePart.chars, ih]
  | case4 c rest h ih => simp [TemplatePart.chars, ih]

/-- The paths of the holes that do not follow an opening brace.  A hole after an opening brace is
part of a marker. -/
def pathsAfter (before : Option Char) : List TemplatePart → List Path
  | [] => []
  | .hole path :: parts =>
    if before = some '\x7b' then pathsAfter (some '\x7d') parts
    else path :: pathsAfter (some '\x7d') parts
  | .char c :: parts => pathsAfter (some c) parts

/-- The distinct paths of a text in order of first appearance. -/
def interpolatedPaths (text : String) : List Path :=
  distinct (pathsAfter none (templateParts text.toList))

end UiLang
