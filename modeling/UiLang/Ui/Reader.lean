import UiLang.Ui.Attribute

/-!
# Reading user interface nodes

A node is an element, a use of a component, a conditional or a loop.  Each reader below takes what
follows the token that a node starts with, so what it calls itself on is always shorter.

## Main definitions

* `readNode`: the node that starts with a given token
* `readBlock`: the nodes inside braces
-/

namespace UiLang

/-- Reads the string after the name of an element, if there is one. -/
def readElementText : (ts : List Token) → Reading (Option String) ts
  | [] => .nothing none []
  | token :: rest =>
    if token.kind = .string then (Reading.nothing (some token.text) rest).cons token
    else .nothing none (token :: rest)

/-- The node of an element header: a use of a component keeps its text as the attribute `text`
unless it has one. -/
def ElementHead.toNode (head : ElementHead) (children : List UiNode) (location : Location) :
    UiNode :=
  if isComponentName head.name then
    let attributes := match head.text with
      | some text => head.attributes.insertNew "text" (.text text)
      | none => head.attributes
    .component head.name attributes children location
  else .element head children location

variable (stop : Token)

/-- Reads the text and the attributes after the name of an element. -/
def readElementHead (name : String) (ts : List Token) : Read ElementHead ts := do
  let text := readElementText ts
  return text.andThen (← readAttributes stop { name, text := text.value } text.rest)

/-- Reads the item, the `in` and the array of a loop. -/
def readLoopHead (ts : List Token) : Read (String × Path) ts := do
  let item ← expect stop .identifier ts
  let word := eat (.keyword .inWord) item.rest
  if word.value then
    let word := item.andThen word
    let array ← readPath stop word.rest
    return (word.andThen array).map fun array => (item.value.text, array)
  else .error (.ofToken .expectedIn (peek stop item.rest))

mutual

/-- Reads the node that starts with the token `first`, from what follows it. -/
def readNode (first : Token) (ts : List Token) : Read UiNode ts :=
  match first.kind with
  | .identifier => do
    let head ← readElementHead stop first.text ts
    let children ← readOptionalBlock head.rest
    let children := head.andThen children
    let close ← expectStatementEnd stop children.rest
    return (children.andThen close).map fun _ =>
      head.value.toNode children.value first.location
  | .keyword .ifWord => do
    let condition ← readCondition stop ts
    let condition := condition.skipNewlines
    let body ← readBlock condition.rest
    let body := condition.andThen body
    let chain ← readElseChain body.rest
    return (body.andThen chain).map fun rest =>
      .conditional condition.value body.value rest first.location
  | .keyword .forWord => do
    let head ← readLoopHead stop ts
    let head := head.skipNewlines
    let body ← readBlock head.rest
    return (head.andThen body).map fun body =>
      .loop head.value.1 head.value.2 body first.location
  | _ => unexpected first
termination_by 3 * ts.length + 2
decreasing_by
  · have := head.length_le
    omega
  · exact Nat.lt_succ_of_le (Nat.succ_le_succ (Nat.mul_le_mul_left 3 (Reading.length_le _)))
  · exact Nat.lt_succ_of_le (Nat.succ_le_succ (Nat.mul_le_mul_left 3 (Reading.length_le _)))
  · exact Nat.lt_succ_of_le (Nat.succ_le_succ (Nat.mul_le_mul_left 3 (Reading.length_le _)))

/-- Reads the branches after the first of a conditional.  They may start on a later line. -/
def readElseChain (ts : List Token) : Read ElseChain ts :=
  match h : skipNewlines ts with
  | [] => .ok (.nothing .done ts)
  | token :: rest =>
    match token.kind with
    | .keyword .elseIf => do
      let condition ← readCondition stop rest
      let condition := condition.skipNewlines
      let body ← readBlock condition.rest
      let body := condition.andThen body
      let chain ← readElseChain body.rest
      return (((body.andThen chain).map fun rest =>
        .elseIf condition.value body.value rest).cons token).within
          (h ▸ skipNewlines_suffix ts)
    | .keyword .elseWord => do
      let start := (Reading.nothing () rest).skipNewlines
      let body ← readBlock start.rest
      return (((start.andThen body).map .otherwise).cons token).within
        (h ▸ skipNewlines_suffix ts)
    | _ => .ok (.nothing .done ts)
termination_by 3 * ts.length + 1
decreasing_by
  all_goals
    refine Nat.lt_of_le_of_lt
      (Nat.succ_le_succ (Nat.mul_le_mul_left 3 (Reading.length_le _))) ?_
    have := length_lt_of_skipNewlines h
    omega

/-- Reads the children of an element if there is a block of them. -/
def readOptionalBlock (ts : List Token) : Read (List UiNode) ts :=
  match ts with
  | [] => .ok (.nothing [] [])
  | token :: rest =>
    if token.kind = .opening .brace then do
      return (← readNodes rest).cons token
    else .ok (.nothing [] (token :: rest))
termination_by 3 * ts.length + 1
decreasing_by
  simp only [List.length_cons]
  omega

/-- Reads the nodes inside braces. -/
def readBlock (ts : List Token) : Read (List UiNode) ts := do
  let brace ← expect stop (.opening .brace) ts
  return brace.andThen (← readNodes brace.rest)
termination_by 3 * ts.length + 1
decreasing_by
  have := brace.length_le
  omega

/-- Reads nodes up to the closing brace, and past it. -/
def readNodes (ts : List Token) : Read (List UiNode) ts :=
  match h : skipNewlines ts with
  | [] => expected (.closing .brace) stop
  | first :: rest =>
    if first.kind = .closing .brace then
      .ok (((Reading.nothing [] rest).cons first).within (h ▸ skipNewlines_suffix ts))
    else do
      let node ← readNode first rest
      let nodes ← readNodes node.rest
      return (((node.andThen nodes).map (node.value :: ·)).cons first).within
        (h ▸ skipNewlines_suffix ts)
termination_by 3 * ts.length
decreasing_by
  · have := length_lt_of_skipNewlines h
    omega
  · have := length_lt_of_skipNewlines h
    have := node.length_le
    omega

end

end UiLang
