import UiLang.Condition.Reader
import UiLang.OrderedMap
import UiLang.State.Basic

/-!
# Reading state values

Arrays separate their items by commas, with newlines anywhere around them; objects separate their
fields by commas, newlines or nothing at all.  Both may end in a comma.

## Main definitions

* `readStateValue`: a literal
-/

namespace UiLang

variable (stop : Token)

/-- Fails at a token that starts no state value. -/
def invalidStateValue {α : Type} {ts : List Token} (found : Token) : Read α ts :=
  .error (.ofToken (.invalidStateValue found.kind found.text) found)

mutual

/-- Reads a literal. -/
def readStateValue (ts : List Token) : Read StateValue ts :=
  match ts with
  | [] => invalidStateValue stop
  | token :: rest =>
    match token.kind with
    | .number => .ok ((Reading.nothing (.number token.text) rest).cons token)
    | .minus =>
      match readNegated? rest with
      | some number => .ok ((number.map .number).cons token)
      | none => invalidStateValue token
    | .string => .ok ((Reading.nothing (.string token.text) rest).cons token)
    | .boolean => .ok ((Reading.nothing (.boolean (token.text == "true")) rest).cons token)
    | .null => .ok ((Reading.nothing .null rest).cons token)
    | .opening .square => do
      return ((← readItems rest).map .array).cons token
    | .opening .brace => do
      return ((← readObjectFields ∅ rest).map fun fields => .object fields.entries).cons token
    | _ => invalidStateValue token
termination_by 2 * ts.length

/-- Reads the items of an array and its closing bracket. -/
def readItems (ts : List Token) : Read (List StateValue) ts := do
  let start := (Reading.nothing () ts).skipNewlines
  let close := eat (.closing .square) start.rest
  if close.value then
    return start.andThen (close.map fun _ => [])
  let item ← readStateValue start.rest
  let item := (start.andThen item).skipNewlines
  return item.andThen (← readItemsAfter item.value item.rest)
termination_by 2 * ts.length + 1
decreasing_by
  · exact Nat.lt_succ_of_le (Nat.mul_le_mul_left 2 (Reading.length_le _))
  · exact Nat.lt_succ_of_le (Nat.mul_le_mul_left 2 (Reading.length_le _))

/-- Reads what follows the first item of an array: a comma and more items, or the closing
bracket. -/
def readItemsAfter (first : StateValue) (ts : List Token) : Read (List StateValue) ts :=
  match ts with
  | [] => expected (.closing .square) stop
  | token :: rest =>
    if token.kind = .comma then do
      return ((← readItems rest).map (first :: ·)).cons token
    else do
      let close ← expect stop (.closing .square) (token :: rest)
      return close.map fun _ => [first]
termination_by 2 * ts.length

/-- Reads the fields of an object and its closing brace, after the fields `known`. -/
def readObjectFields (known : OrderedMap String StateValue) (ts : List Token) :
    Read (OrderedMap String StateValue) ts :=
  match h : skipNewlines ts with
  | [] => expected .identifier stop
  | key :: rest =>
    if key.kind = .closing .brace then
      .ok (((Reading.nothing known rest).cons key).within (h ▸ skipNewlines_suffix ts))
    else if key.kind.isWord ∨ key.kind = .string then do
      let colon ← expect stop .colon rest
      let value ← readStateValue colon.rest
      let value := colon.andThen value
      let comma := value.andThen (eat .comma value.rest)
      let fields ← readObjectFields (known.insert key.text value.value) comma.rest
      return ((comma.andThen fields).cons key).within (h ▸ skipNewlines_suffix ts)
    else expected .identifier key
termination_by 2 * ts.length
decreasing_by
  · have := length_lt_of_skipNewlines h
    have := colon.length_le
    omega
  · refine Nat.lt_of_le_of_lt (Nat.mul_le_mul_left 2 (Reading.length_le _)) ?_
    have := length_lt_of_skipNewlines h
    omega

end

end UiLang
