import UiLang.OrderedMap
import UiLang.Text.Split

/-!
# Trees of files

A tree of files below one directory.  Places in it are lists of names; a path is walked name by
name, and only directories can be walked through.  The directories above the tree are there, with
nothing known in them; paths that start at the top of the file system can not be walked.

## Main definitions

* `Place`, `FileTree`: places and trees
* `FileTree.find?`, `FileTree.read?`: walking a path, and the text of the file at its end
* `FileTree.write?`, `FileTree.makeDirectory?`: changes
* `directoryPaths`: the directories that are made on the way to a directory
* `fileStem`: the name of a file without its extension
-/

namespace UiLang

/-- A place: the names on the way to it from the top directory of a tree.  A place that is not in
the tree starts with as many `..` as lead out of it. -/
abbrev Place := List String

/-- A place is in the tree. -/
def isInside (place : Place) : Bool :=
  place.head? != some ".."

/-- The names of a path. -/
def pathNames (path : String) : List String :=
  (splitWhen (· == '/') path.toList).map String.ofList

/-- A path that starts at the top of the file system. -/
def isAbsolute (path : String) : Bool :=
  path.toList.head? == some '/'

/-- A name that leads nowhere else. -/
def isIdle (name : String) : Bool :=
  name == "" || name == "."

/-- A name that a file or a directory can have: it has at most 255 bytes. -/
def isFileName (name : String) : Bool :=
  name.utf8ByteSize ≤ 255

/-- The paths that names lead through, after those already walked; idle names lead nowhere else. -/
def leadingPaths (walked : List String) : List String → List String
  | [] => []
  | name :: names =>
    let rest := leadingPaths (walked ++ [name]) names
    if isIdle name then rest else String.intercalate "/" (walked ++ [name]) :: rest

/-- The directories that are made on the way to a directory, in order.  The last one is the path as
it is written, so a point after its last name asks for a directory that is already there. -/
def directoryPaths (path : String) : List String :=
  (leadingPaths [] (pathNames path)).dropLast ++ [path]

/-- Files with their texts, and directories. -/
structure FileTree where
  files : OrderedMap Place String := ∅
  directories : List Place := []

/-- The directories that a place is in. -/
def ancestors (place : Place) : List Place :=
  (List.range place.length).map fun n => place.take n

namespace FileTree

/-- A tree that holds files, and the directories they are in. -/
def ofFiles (entries : List (Place × String)) : FileTree where
  files := .ofList entries
  directories := entries.flatMap fun entry => ancestors entry.1

/-- A place is a directory.  The top place and those above it always are. -/
def isDirectory (tree : FileTree) (place : Place) : Bool :=
  place.all (· == "..") || tree.directories.contains place

/-- One step of a walk. -/
def enter? (tree : FileTree) (place : Place) (name : String) : Option Place :=
  if !tree.isDirectory place then none
  else if isIdle name then some place
  else if name = ".." then some (if place.all (· == "..") then place ++ [".."] else place.dropLast)
  else if isFileName name then some (place ++ [name])
  else none

/-- The place that names lead to. -/
def walk? (tree : FileTree) (names : List String) : Option Place :=
  names.foldlM tree.enter? []

/-- The place that a path leads to. -/
def find? (tree : FileTree) (path : String) : Option Place :=
  if isAbsolute path then none else tree.walk? (pathNames path)

/-- The text of the file that a path leads to. -/
def read? (tree : FileTree) (path : String) : Option String :=
  (tree.find? path).bind tree.files.get?

/-- Writes a file into a directory. -/
def write? (tree : FileTree) (directory : Place) (name text : String) : Option FileTree :=
  let place := directory ++ [name]
  if tree.isDirectory place || !tree.isDirectory directory || !isFileName name then none
  else some { tree with files := tree.files.insert place text }

/-- Makes one directory, if it is not there.  Slashes after its name do not count. -/
def makeOne? (tree : FileTree) (path : String) : Option FileTree :=
  if isAbsolute path then none
  else do
    let place ← tree.walk? ((pathNames path).reverse.dropWhile (· == "")).reverse
    if tree.isDirectory place then return tree
    if tree.files.contains place then none
    else return { tree with directories := place :: tree.directories }

/-- Makes a directory with the directories on the way to it, and gives its place. -/
def makeDirectory? (tree : FileTree) (path : String) : Option (FileTree × Place) := do
  let tree ← (directoryPaths path).foldlM makeOne? tree
  let place ← tree.find? path
  return (tree, place)

end FileTree

/-- The name of a file without its extension: what stands before the last point, unless nothing
does. -/
def nameStem (name : List Char) : List Char :=
  match (splitWhen (· == '.') name).dropLast with
  | [] => name
  | pieces =>
    let stem := ['.'].intercalate pieces
    if stem.isEmpty then name else stem

/-- The stem of the file at the end of a path. -/
def fileStem (path : String) : String :=
  String.ofList (nameStem ((pathNames path).getLastD "").toList)

end UiLang
