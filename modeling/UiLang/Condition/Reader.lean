import UiLang.Condition.Basic
import UiLang.Syntax.Reading

/-!
# Reading conditions

From loosest to tightest: `||`, `&&`, `!`, one comparison, and a primary.  The connectives group
to the left; a comparison joins two primaries and does not chain.

## Main definitions

* `readPath`: a path; any word, reserved ones too, may follow a point
* `readCondition`: a condition
-/

namespace UiLang

/-- The fields after the root of a path. -/
def readFields : (ts : List Token) → Reading (List String) ts
  | [] => .nothing [] []
  | [token] => .nothing [] [token]
  | point :: field :: rest =>
    if point.kind = .dot ∧ field.kind.isWord then
      (((readFields rest).map (field.text :: ·)).cons field).cons point
    else .nothing [] (point :: field :: rest)

/-- The path whose root was just read. -/
def readPathAfter (root : Token) (ts : List Token) : Reading Path ts :=
  (readFields ts).map fun fields => ⟨root.text, fields⟩

variable (stop : Token)

/-- Reads a path. -/
def readPath (ts : List Token) : Read Path ts := do
  let root ← expect stop .identifier ts
  return root.andThen (readPathAfter root.value root.rest)

/-- Reads the number after a minus sign, as its text with the sign. -/
def readNegated? : (ts : List Token) → Option (Reading String ts)
  | [] => none
  | token :: rest =>
    if token.kind = .number then some ((Reading.nothing ("-" ++ token.text) rest).cons token)
    else none

/-- Fails at a token that starts no condition. -/
def invalidCondition {α : Type} {ts : List Token} (found : Token) : Read α ts :=
  .error (.ofToken (.invalidCondition found.kind) found)

mutual

/-- Reads operands joined by `||`. -/
def readDisjunction (ts : List Token) : Read Condition ts := do
  let first ← readConjunction ts
  return first.andThen (← readDisjunctionAfter first.value first.rest)
termination_by 6 * ts.length + 5
decreasing_by
  · omega
  · have := first.length_le
    omega

/-- Reads the operands after the first of a disjunction, grouping to the left. -/
def readDisjunctionAfter (left : Condition) (ts : List Token) : Read Condition ts :=
  match ts with
  | [] => .ok (.nothing left [])
  | token :: rest =>
    if token.kind = .connective .or then do
      let right ← readConjunction rest
      let more ← readDisjunctionAfter (.logical .or left right.value) right.rest
      return (right.andThen more).cons token
    else .ok (.nothing left (token :: rest))
termination_by 6 * ts.length
decreasing_by
  · simp only [List.length_cons]
    omega
  · have := right.length_le
    simp only [List.length_cons]
    omega

/-- Reads operands joined by `&&`. -/
def readConjunction (ts : List Token) : Read Condition ts := do
  let first ← readNegation ts
  return first.andThen (← readConjunctionAfter first.value first.rest)
termination_by 6 * ts.length + 4
decreasing_by
  · omega
  · have := first.length_le
    omega

/-- Reads the operands after the first of a conjunction, grouping to the left. -/
def readConjunctionAfter (left : Condition) (ts : List Token) : Read Condition ts :=
  match ts with
  | [] => .ok (.nothing left [])
  | token :: rest =>
    if token.kind = .connective .and then do
      let right ← readNegation rest
      let more ← readConjunctionAfter (.logical .and left right.value) right.rest
      return (right.andThen more).cons token
    else .ok (.nothing left (token :: rest))
termination_by 6 * ts.length
decreasing_by
  · simp only [List.length_cons]
    omega
  · have := right.length_le
    simp only [List.length_cons]
    omega

/-- Reads a comparison with any number of `!` before it. -/
def readNegation (ts : List Token) : Read Condition ts :=
  match ts with
  | [] => readComparison []
  | token :: rest =>
    if token.kind = .bang then do
      let operand ← readNegation rest
      return (operand.map .not).cons token
    else readComparison (token :: rest)
termination_by 6 * ts.length + 3

/-- Reads a primary, or two with a comparison between them. -/
def readComparison (ts : List Token) : Read Condition ts := do
  let left ← readPrimary ts
  return left.andThen (← readComparisonAfter left.value left.rest)
termination_by 6 * ts.length + 2
decreasing_by
  · omega
  · have := left.length_le
    omega

/-- Reads the comparison after its left operand, if there is one. -/
def readComparisonAfter (left : Condition) (ts : List Token) : Read Condition ts :=
  match ts with
  | [] => .ok (.nothing left [])
  | token :: rest =>
    match token.kind with
    | .comparison op => do
      let right ← readPrimary rest
      return (right.map (.compare op left)).cons token
    | _ => .ok (.nothing left (token :: rest))
termination_by 6 * ts.length

/-- Reads a path, a literal, or a condition in parentheses. -/
def readPrimary (ts : List Token) : Read Condition ts :=
  match ts with
  | [] => invalidCondition stop
  | token :: rest =>
    match token.kind with
    | .identifier => .ok (((readPathAfter token rest).map .path).cons token)
    | .number => .ok ((Reading.nothing (.literal (.number token.text)) rest).cons token)
    | .minus =>
      match readNegated? rest with
      | some number => .ok ((number.map fun text => .literal (.number text)).cons token)
      | none => invalidCondition token
    | .string => .ok ((Reading.nothing (.literal (.string token.text)) rest).cons token)
    | .boolean =>
      .ok ((Reading.nothing (.literal (.boolean (token.text == "true"))) rest).cons token)
    | .null => .ok ((Reading.nothing (.literal .null) rest).cons token)
    | .opening .round => do
      let inner ← readDisjunction rest
      let close ← expect stop (.closing .round) inner.rest
      return ((inner.andThen close).map fun _ => inner.value).cons token
    | _ => invalidCondition token
termination_by 6 * ts.length + 1

end

/-- Reads a condition. -/
def readCondition (ts : List Token) : Read Condition ts :=
  readDisjunction stop ts

end UiLang
