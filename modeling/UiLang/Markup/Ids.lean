import UiLang.OrderedMap

/-!
# Ids of generated elements

Elements that the script looks up have ids.  A numbered id takes the next number of one counter.
A named id is its base, and on later uses of that base the base with the number of the use.

## Main definitions

* `IdSupply`, `IdSupply.numbered`, `IdSupply.named`
-/

namespace UiLang

/-- What has been drawn so far: how many numbered ids, and how often each base was used. -/
structure IdSupply where
  drawn : Nat := 0
  uses : OrderedMap String Nat := ∅
  deriving Repr

/-- A computation that draws ids. -/
abbrev Drawing := StateM IdSupply

namespace IdSupply

/-- Draws an id such as `cond-3`. -/
def numbered (stem : String) : Drawing String := fun ids =>
  let number := ids.drawn + 1
  (stem ++ "-" ++ toString number, { ids with drawn := number })

/-- How often a base was used. -/
def usesOf (ids : IdSupply) (base : String) : Nat :=
  (ids.uses.get? base).getD 0

/-- Draws an id from a base: `text-a`, then `text-a-2`. -/
def named (base : String) : Drawing String := fun ids =>
  let count := ids.usesOf base + 1
  (if count = 1 then base else base ++ "-" ++ toString count,
    { ids with uses := ids.uses.insert base count })

end IdSupply

end UiLang
