import UiLang.Template

/-!
# Loop scopes

The body of a loop is a template that the script fills in once per item.  Where the item is meant,
the template holds a marker: `{{LOOP_ITEM}}` for the item itself, `{{LOOP_INDEX}}` for its
position.  Only the innermost loop counts.

## Main definitions

* `LoopScope`, `Scope`: the loop around an element
* `Scope.mark`: a text with its markers
* `Scope.argument`: a handler argument with its markers
-/

namespace UiLang

/-- A loop: the name of its item, and the path of the array it runs through. -/
structure LoopScope where
  item : String
  array : Path
  deriving DecidableEq, Repr

/-- Where an element stands: the innermost loop around it, and whether it is a direct child of the
body of that loop. -/
structure Scope where
  loop : Option LoopScope := none
  atRoot : Bool := false
  deriving DecidableEq, Repr

/-- The marker of an item, or of a field of it. -/
def itemMarker (fields : List String) : List Char :=
  "\x7b\x7bLOOP_ITEM".toList ++ fields.flatMap (fun field => '.' :: field.toList) ++
    ['\x7d', '\x7d']

namespace LoopScope

/-- A piece of a text; a path that starts at the item becomes a marker. -/
def markPart (scope : LoopScope) : TemplatePart → List Char
  | .hole path => if path.root = scope.item then itemMarker path.fields
      else (TemplatePart.hole path).chars
  | .char c => [c]

/-- A script expression for the item at the position the template is filled in for. -/
def lookup (scope : LoopScope) : String :=
  "Frobo.resolve('" ++ scope.array.text ++ "')[\x7b\x7bLOOP_INDEX\x7d\x7d]"

/-- A handler argument; one that starts at the item looks the item up. -/
def argument (scope : LoopScope) (arg : String) : String :=
  match arg.toList.drop scope.item.length with
  | [] => if arg = scope.item then scope.lookup else arg
  | c :: rest =>
    if scope.item.toList.isPrefixOf arg.toList && c == '.' then
      scope.lookup ++ String.ofList (c :: rest)
    else arg

end LoopScope

namespace Scope

/-- The scope of what stands inside an element. -/
def inner (scope : Scope) : Scope :=
  { scope with atRoot := false }

/-- The scope of the direct children of the body of a loop. -/
def ofLoop (item : String) (array : Path) : Scope where
  loop := some ⟨item, array⟩
  atRoot := true

/-- A text with markers for the item of the loop. -/
def mark (scope : Scope) (text : String) : String :=
  match scope.loop with
  | none => text
  | some loop => String.ofList ((templateParts text.toList).flatMap loop.markPart)

/-- A handler argument with markers for the item of the loop. -/
def argument (scope : Scope) (arg : String) : String :=
  match scope.loop with
  | none => arg
  | some loop => loop.argument arg

end Scope

end UiLang
