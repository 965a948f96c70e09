import UiLang.Program.Basic
import UiLang.State.Reader
import UiLang.Ui.Reader

/-!
# Reading programs

A program is read item by item.  An item that can not be read is reported and skipped: reading
goes on after a line end outside its braces, or at a line that starts with a word that only an
item starts with.

## Main definitions

* `readStatement`, `readComponent`, `readFunction`, `readItem`: the productions
* `skipItem`: where reading goes on after an item that can not be read
* `readProgram`: the program of a token stream, and all its faults

## Main results

* `skipItem_suffix`: skipping takes at least the first token
-/

namespace UiLang

variable (stop : Token)

/-! ## Statements of component bodies -/

/-- Reads more names, each after a comma. -/
def readMoreNames : (ts : List Token) → Read (List String) ts
  | [] => .ok (.nothing [] [])
  | token :: rest =>
    if token.kind = .comma then
      match rest with
      | [] => expected .identifier stop
      | name :: rest =>
        if name.kind = .identifier then do
          return (((← readMoreNames rest).map (name.text :: ·)).cons name).cons token
        else expected .identifier name
    else .ok (.nothing [] (token :: rest))

/-- Reads the names after `props`. -/
def readProps (keyword : Token) (ts : List Token) : Read Props ts := do
  let first ← expect stop .identifier ts
  let more ← readMoreNames stop first.rest
  let more := first.andThen more
  let close ← expectStatementEnd stop more.rest
  return (more.andThen close).map fun _ =>
    ⟨first.value.text :: more.value, keyword.location⟩

/-- Reads what follows `state`. -/
def readState (keyword : Token) (ts : List Token) : Read StateDeclaration ts := do
  let name ← expect stop .identifier ts
  let assign ← expect stop .assign name.rest
  let assign := name.andThen assign
  let value ← readStateValue stop assign.rest
  let value := assign.andThen value
  let close ← expectStatementEnd stop value.rest
  return (value.andThen close).map fun _ =>
    ⟨name.value.text, value.value, keyword.location.join name.value.location⟩

/-- Reads what follows `computed`: the expression goes to the end of the line. -/
def readComputed (keyword : Token) (ts : List Token) : Read Computed ts := do
  let name ← expect stop .identifier ts
  let assign ← expect stop .assign name.rest
  let assign := name.andThen assign
  let expression := tokensToLineEnd 0 assign.rest
  if expression.value.isEmpty then unexpected (peek stop expression.rest)
  else
    return (assign.andThen expression).map fun tokens =>
      ⟨name.value.text, RawText.join tokens, keyword.location.join name.value.location⟩

/-- Reads the body after `onMount` or `onUpdate`. -/
def readHook (kind : HookKind) (keyword : Token) (ts : List Token) : Read Hook ts := do
  let start := (Reading.nothing () ts).skipNewlines
  let body ← readBraced stop start.rest
  return (start.andThen body).map fun tokens => ⟨kind, RawText.body tokens, keyword.location⟩

/-- Sets an attribute of a fetch; unknown ones have no effect. -/
def Fetch.set (fetch : Fetch) (key value : String) : Fetch :=
  match key with
  | "url" => { fetch with url := value }
  | "into" => { fetch with into := some value }
  | "loading" => { fetch with loading := some value }
  | "error" => { fetch with error := some value }
  | _ => fetch

/-- Reads the value of an attribute of a fetch: a string or a path. -/
def readFetchValue (key : String) : (ts : List Token) → Read String ts
  | [] => invalidAttribute key stop
  | token :: rest =>
    match token.kind with
    | .string => .ok ((Reading.nothing token.text rest).cons token)
    | .identifier => .ok (((readPathAfter token rest).map Path.text).cons token)
    | _ => invalidAttribute key token

/-- Reads the attributes of a fetch. -/
def readFetchAttributes (fetch : Fetch) (ts : List Token) : Read Fetch ts :=
  match ts with
  | key :: assign :: rest =>
    if key.kind.isWord ∧ assign.kind = .assign then do
      let value ← readFetchValue stop key.text rest
      let all ← readFetchAttributes (fetch.set key.text value.value) value.rest
      return ((value.andThen all).cons assign).cons key
    else .ok (.nothing fetch (key :: assign :: rest))
  | ts => .ok (.nothing fetch ts)
termination_by ts.length
decreasing_by
  have := value.length_le
  simp only [List.length_cons]
  omega

/-- Reads what follows `fetch`. -/
def readFetch (keyword : Token) (ts : List Token) : Read Fetch ts := do
  let fetch ← readFetchAttributes stop { location := keyword.location } ts
  let close ← expectStatementEnd stop fetch.rest
  return (fetch.andThen close).map fun _ => fetch.value

/-- Reads what follows `watch`. -/
def readWatcher (keyword : Token) (ts : List Token) : Read Watcher ts := do
  let target ← readPath stop ts
  let target := target.skipNewlines
  let body ← readBraced stop target.rest
  return (target.andThen body).map fun tokens =>
    ⟨target.value, RawText.body tokens, keyword.location⟩

/-- Reads the statement of a component body that starts with the token `first`. -/
def readStatement (first : Token) (ts : List Token) : Read Statement ts :=
  match first.kind with
  | .keyword .props => do return (← readProps stop first ts).map .props
  | .keyword .state => do return (← readState stop first ts).map .state
  | .keyword .computed => do return (← readComputed stop first ts).map .computed
  | .keyword .onMount => do return (← readHook stop .mount first ts).map .hook
  | .keyword .onUpdate => do return (← readHook stop .update first ts).map .hook
  | .keyword .fetch => do return (← readFetch stop first ts).map .fetch
  | .keyword .watch => do return (← readWatcher stop first ts).map .watcher
  | _ => do return (← readNode stop first ts).map .node

/-- Reads the statements of a component body up to its closing brace, and past it. -/
def readStatements (ts : List Token) : Read (List Statement) ts :=
  match h : skipNewlines ts with
  | [] => unexpected stop
  | first :: rest =>
    if first.kind = .closing .brace then
      .ok (((Reading.nothing [] rest).cons first).within (h ▸ skipNewlines_suffix ts))
    else do
      let statement ← readStatement stop first rest
      let statements ← readStatements statement.rest
      return (((statement.andThen statements).map (statement.value :: ·)).cons first).within
        (h ▸ skipNewlines_suffix ts)
termination_by ts.length
decreasing_by
  exact Nat.lt_of_le_of_lt statement.length_le (length_lt_of_skipNewlines h)

/-! ## Items -/

/-- Reads what follows `component`. -/
def readComponent (keyword : Token) (ts : List Token) : Read Component ts := do
  let name ← expect stop .identifier ts
  let name := name.skipNewlines
  let brace ← expect stop (.opening .brace) name.rest
  let brace := name.andThen brace
  let body ← readStatements stop brace.rest
  return (brace.andThen body).map fun body =>
    ⟨name.value.text, body, keyword.location.join name.value.location⟩

/-- Reads the parameters of a function up to the closing parenthesis, and past it.  A comma may
stand before the parenthesis. -/
def readParams : (ts : List Token) → Read (List String) ts
  | [] => expected .identifier stop
  | token :: rest =>
    if token.kind = .closing .round then .ok ((Reading.nothing [] rest).cons token)
    else if token.kind = .identifier then
      match rest with
      | [] => expected (.closing .round) stop
      | next :: rest =>
        if next.kind = .comma then do
          return (((← readParams rest).map (token.text :: ·)).cons next).cons token
        else do
          let close ← expect stop (.closing .round) (next :: rest)
          return (close.map fun _ => [token.text]).cons token
    else expected .identifier token

/-- Reads what follows `function`. -/
def readFunction (isAsync : Bool) (keyword : Token) (ts : List Token) : Read Function ts := do
  let name ← expect stop .identifier ts
  let paren ← expect stop (.opening .round) name.rest
  let paren := name.andThen paren
  let params ← readParams stop paren.rest
  let params := (paren.andThen params).skipNewlines
  let body ← readBraced stop params.rest
  return (params.andThen body).map fun tokens =>
    ⟨name.value.text, params.value, RawText.body tokens, isAsync,
      keyword.location.join name.value.location⟩

/-- Reads the declaration that starts with the token `first`. -/
def readDeclaration (first : Token) (ts : List Token) : Read Declaration ts :=
  match first.kind with
  | .keyword .component => do return (← readComponent stop first ts).map .component
  | .keyword .function => do return (← readFunction stop false first ts).map .function
  | .keyword .async => do
    let keyword ← expect stop (.keyword .function) ts
    let function ← readFunction stop true keyword.value keyword.rest
    return (keyword.andThen function).map .function
  | kind => .error (.ofToken (.expectedDeclaration kind) first)

/-- Reads the names of an import.  A comma may follow the last one. -/
def readSpecifiers : (ts : List Token) → Reading (List String) ts
  | [] => .nothing [] []
  | token :: rest =>
    if token.kind = .identifier then
      match rest with
      | [] => (Reading.nothing [token.text] []).cons token
      | next :: rest =>
        if next.kind = .comma then
          (((readSpecifiers rest).map (token.text :: ·)).cons next).cons token
        else (Reading.nothing [token.text] (next :: rest)).cons token
    else .nothing [] (token :: rest)

/-- Reads a closing brace if one was opened. -/
def readClosingIf (opened : Bool) (ts : List Token) : Read Unit ts :=
  if opened then do return (← expect stop (.closing .brace) ts).map fun _ => ()
  else .ok (.nothing () ts)

/-- Reads what follows `import`.  The names may stand in braces. -/
def readImport (keyword : Token) (ts : List Token) : Read Import ts := do
  let opened := eat (.opening .brace) ts
  let names := opened.andThen (readSpecifiers opened.rest)
  let closed ← readClosingIf stop opened.value names.rest
  let closed := names.andThen closed
  let word ← expect stop (.keyword .fromWord) closed.rest
  let word := closed.andThen word
  let source ← expect stop .string word.rest
  let source := word.andThen source
  let close ← expectStatementEnd stop source.rest
  return (source.andThen close).map fun _ =>
    ⟨names.value, source.value.text, keyword.location⟩

/-- Reads the declaration after `export`. -/
def readExported (keyword : Token) : (ts : List Token) → Read Item ts
  | [] => .error (.ofToken (.expectedDeclaration stop.kind) stop)
  | first :: rest => do
    let declaration ← readDeclaration stop first rest
    return (declaration.map fun d => .exported d keyword.location).cons first

/-- Reads the item that starts with the token `first`. -/
def readItem (first : Token) (ts : List Token) : Read Item ts :=
  match first.kind with
  | .keyword .importWord => do return (← readImport stop first ts).map .importFrom
  | .keyword .exportWord => readExported stop first ts
  | .keyword .component | .keyword .function | .keyword .async => do
    return (← readDeclaration stop first ts).map .declaration
  | _ => unexpected first

/-! ## Recovery and the whole program -/

/-- A word that only an item starts with. -/
def startsItem : Kind → Bool
  | .keyword .component | .keyword .function | .keyword .async | .keyword .importWord
  | .keyword .exportWord => true
  | _ => false

/-- What is left after an item that can not be read.  The item ends at a newline outside its
braces, or before a line that starts with a word that only an item starts with. -/
def skipItem (depth : Int) : List Token → List Token
  | [] => []
  | token :: rest =>
    match token.kind with
    | .opening .brace => skipItem (depth + 1) rest
    | .closing .brace => skipItem (depth - 1) rest
    | .newline =>
      if depth ≤ 0 ∨ startsItem (peek stop rest).kind then rest else skipItem depth rest
    | _ => skipItem depth rest

/-- Skipping takes at least the first token. -/
theorem skipItem_suffix (depth : Int) (token : Token) (rest : List Token) :
    skipItem stop depth (token :: rest) <:+ rest := by
  induction rest generalizing depth token with
  | nil =>
    unfold skipItem
    split <;> simp [skipItem]
  | cons next rest ih =>
    have h (d : Int) : skipItem stop d (next :: rest) <:+ next :: rest :=
      (ih d next).trans (List.suffix_cons next rest)
    rw [skipItem]
    split
    · exact h _
    · exact h _
    · split
      · exact List.suffix_refl _
      · exact h _
    · exact h _

/-- What a sequence of tokens says: its items, and the faults of those that can not be read. -/
structure ItemList where
  items : List Item
  faults : List Diagnostic

/-- Reads items until no token is left. -/
def readItemList (ts : List Token) : ItemList :=
  match h : skipNewlines ts with
  | [] => ⟨[], []⟩
  | first :: rest =>
    have _hlt := length_lt_of_skipNewlines h
    match readItem stop first rest with
    | .ok item =>
      let more := readItemList item.rest
      { more with items := item.value :: more.items }
    | .error fault =>
      let more := readItemList (skipItem stop 0 (first :: rest))
      { more with faults := fault :: more.faults }
termination_by ts.length
decreasing_by
  · exact Nat.lt_of_le_of_lt item.length_le _hlt
  · exact Nat.lt_of_le_of_lt (skipItem_suffix stop 0 first rest).length_le _hlt

/-- The program of a token stream, and the faults found while reading it. -/
def readProgram (stream : TokenStream) : Program × List Diagnostic :=
  let list := readItemList stream.stop stream.tokens
  (⟨list.items⟩, list.faults)

end UiLang
