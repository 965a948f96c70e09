import UiLang.Proofs.Scan.Words

/-!
# Reading script expressions

The running page evaluates expressions of its script language, and groups them by the rules of that
language: `!` binds tightest, then the four order comparisons, then `==` and `!=`, then `&&`, then
`||`, and each rank groups to the left.  So `a == b == c` compares the outcome of `a == b` with `c`,
and `a < b == c` compares the outcome of `a < b` with `c`.

This module reads the part of the script language in which conditions are written: names with their
members, numbers and strings by their text, the two truth values, `null`, the operators above and
parentheses.  It knows nothing of how conditions are written.

## Main definitions

* `Script.Expression`, `Script.Operator.rank`: expressions, and how loosely operators bind
* `Script.marks?`: the marks of a text
* `Script.readRank`, `Script.read?`: the expression of some marks, and of a text

## Main results

* `Script.takes_succ`, `Script.takes_of_le`: an operand is read at every looser rank
-/

namespace UiLang.Script

/-- A name: letters, digits and underscores, with no digit in front. -/
structure Name where
  text : String
  isIdentifier : isIdentifier text.toList = true
  deriving DecidableEq, Repr

/-- A text as a name, if it is one. -/
def Name.ofText? (text : String) : Option Name :=
  if h : UiLang.isIdentifier text.toList = true then some ⟨text, h⟩ else none

/-- An operator with two operands. -/
inductive Operator where
  | compare (op : Comparison)
  | logical (op : Connective)
  deriving DecidableEq, Repr

/-- How loosely a comparison binds. -/
def comparisonRank : Comparison → Nat
  | .greater | .less | .greaterEq | .lessEq => 1
  | .equal | .notEqual => 2

/-- How loosely an operator binds. -/
def Operator.rank : Operator → Nat
  | .compare op => comparisonRank op
  | .logical .and => 3
  | .logical .or => 4

/-- An expression as it is grouped. -/
inductive Expression where
  | name (name : Name)
  | member (object : Expression) (optional : Bool) (field : Name)
  | number (text : String)
  | string (text : String)
  | boolean (value : Bool)
  | null
  | not (operand : Expression)
  | negate (operand : Expression)
  | binary (op : Operator) (left right : Expression)
  deriving DecidableEq, Repr

/-- The words and signs that an expression is written with. -/
inductive Mark where
  | name (name : Name)
  | number (text : String)
  | string (text : String)
  | point
  | optionalPoint
  | bang
  | minus
  | opening
  | closing
  | operator (op : Operator)
  deriving DecidableEq, Repr

/-! ## From text to marks -/

/-- A character that stands for itself in a string. -/
def isPlain (c : Char) : Bool :=
  c != '\\' && c != '\n' && c != '\r'

/-- The sign at the front of a text, with the number of further characters that it takes.  Signs
with three characters are none of those in conditions. -/
def Mark.sign? : Char → List Char → Option (Mark × Nat)
  | '(', _ => some (.opening, 0)
  | ')', _ => some (.closing, 0)
  | '.', _ => some (.point, 0)
  | '-', _ => some (.minus, 0)
  | '?', '.' :: c :: _ => if c.isDigit then none else some (.optionalPoint, 1)
  | '=', '=' :: rest =>
    if rest.head? = some '=' then none else some (.operator (.compare .equal), 1)
  | '!', '=' :: rest =>
    if rest.head? = some '=' then none else some (.operator (.compare .notEqual), 1)
  | '!', _ => some (.bang, 0)
  | '>', '=' :: _ => some (.operator (.compare .greaterEq), 1)
  | '>', _ => some (.operator (.compare .greater), 0)
  | '<', '=' :: _ => some (.operator (.compare .lessEq), 1)
  | '<', _ => some (.operator (.compare .less), 0)
  | '&', '&' :: _ => some (.operator (.logical .and), 1)
  | '|', '|' :: _ => some (.operator (.logical .or), 1)
  | _, _ => none

/-- The string after an opening quote. -/
def Mark.quoted? (rest : List Char) : Option (Mark × Nat) :=
  let inner := rest.takeWhile (· != '"')
  if inner.length < rest.length ∧ inner.all isPlain = true then
    some (.string (String.ofList inner), inner.length + 1)
  else none

theorem isIdentifier_front {c : Char} (h : isIdentifierStart c = true) (rest : List Char) :
    UiLang.isIdentifier (String.ofList (c :: rest.takeWhile isIdentifierChar)).toList = true := by
  rw [String.toList_ofList, isIdentifier_cons]
  exact ⟨h, fun d hd => List.mem_takeWhile_imp hd⟩

/-- The mark at the front of a text, with the number of further characters that it takes. -/
def Mark.first? (c : Char) (rest : List Char) : Option (Mark × Nat) :=
  if h : isIdentifierStart c = true then
    some (.name ⟨_, isIdentifier_front h rest⟩, (rest.takeWhile isIdentifierChar).length)
  else if c.isDigit then
    some (.number (String.ofList (c :: decimalPart rest)), (decimalPart rest).length)
  else if c = '"' then Mark.quoted? rest
  else Mark.sign? c rest

/-- All marks of a text, without the blanks between them. -/
def marks? : List Char → Option (List Mark)
  | [] => some []
  | c :: rest =>
    if c = ' ' then marks? rest
    else
      match Mark.first? c rest with
      | some (mark, more) => (marks? (rest.drop more)).map (mark :: ·)
      | none => none
termination_by text => text.length
decreasing_by
  · simp
  · simp only [List.length_drop, List.length_cons]
    omega

/-! ## From marks to expressions -/

/-- An expression read from the front of some marks, and the marks that are left. -/
structure Taken (ms : List Mark) where
  value : Expression
  rest : List Mark
  length_le : rest.length ≤ ms.length

/-- What was taken, seen from longer marks. -/
def Taken.within {ms ms' : List Mark} (taken : Taken ms) (h : ms.length ≤ ms'.length) :
    Taken ms' :=
  ⟨taken.value, taken.rest, Nat.le_trans taken.length_le h⟩

/-- What a name stands for where an expression starts. -/
def Name.expression (name : Name) : Expression :=
  if name.text = "true" then .boolean true
  else if name.text = "false" then .boolean false
  else if name.text = "null" then .null
  else .name name

/-- Reads the members taken from an object one after another. -/
def readMembers (object : Expression) : (ms : List Mark) → Taken ms
  | .point :: .name field :: rest =>
    (readMembers (.member object false field) rest).within (by simp only [List.length_cons]; omega)
  | .optionalPoint :: .name field :: rest =>
    (readMembers (.member object true field) rest).within (by simp only [List.length_cons]; omega)
  | ms => ⟨object, ms, Nat.le_refl _⟩

/-- Closes a group, and reads the members taken from it. -/
def closeGroup {ms : List Mark} (inner : Taken ms) : Option (Taken ms) :=
  match h : inner.rest with
  | .closing :: rest =>
    some ((readMembers inner.value rest).within (by
      have hle := inner.length_le
      rw [h, List.length_cons] at hle
      omega))
  | _ => none

mutual

/-- Reads an operand of the tightest operators. -/
def readUnary (ms : List Mark) : Option (Taken ms) :=
  match ms with
  | .bang :: rest => do
    let operand ← readUnary rest
    return Taken.within ⟨.not operand.value, operand.rest, operand.length_le⟩ (Nat.le_succ _)
  | .minus :: .number text :: rest =>
    some ⟨.negate (.number text), rest, by simp only [List.length_cons]; omega⟩
  | .opening :: rest => do
    let inner ← readRank 4 rest
    return (← closeGroup inner).within (Nat.le_succ _)
  | .name name :: rest => some ((readMembers name.expression rest).within (Nat.le_succ _))
  | .number text :: rest => some ⟨.number text, rest, Nat.le_succ _⟩
  | .string text :: rest => some ⟨.string text, rest, Nat.le_succ _⟩
  | _ => none
termination_by (ms.length, 0)

/-- Reads operands joined by operators up to a rank. -/
def readRank (rank : Nat) (ms : List Mark) : Option (Taken ms) :=
  match rank with
  | 0 => readUnary ms
  | rank + 1 => do
    let first ← readRank rank ms
    return (← readOperators rank first.value first.rest).within first.length_le
termination_by (ms.length, 2 * rank + 1)
decreasing_by
  · exact Prod.Lex.right _ (by omega)
  · exact Prod.Lex.right _ (by omega)
  · rcases Nat.lt_or_eq_of_le first.length_le with hlt | heq
    · exact Prod.Lex.left _ _ hlt
    · rw [heq]
      exact Prod.Lex.right _ (by omega)

/-- Reads the operators of the rank after `rank` and their right operands, grouping to the left. -/
def readOperators (rank : Nat) (left : Expression) (ms : List Mark) : Option (Taken ms) :=
  match ms with
  | .operator op :: rest =>
    if op.rank = rank + 1 then do
      let right ← readRank rank rest
      let all ← readOperators rank (.binary op left right.value) right.rest
      return all.within (Nat.le_trans right.length_le (Nat.le_succ _))
    else some ⟨left, .operator op :: rest, Nat.le_refl _⟩
  | ms => some ⟨left, ms, Nat.le_refl _⟩
termination_by (ms.length, 2 * rank + 2)
decreasing_by
  · exact Prod.Lex.left _ _ (by simp)
  · exact Prod.Lex.left _ _ (Nat.lt_succ_of_le right.length_le)

end

/-- The expression of a whole text. -/
def read? (text : String) : Option Expression := do
  let taken ← readRank 4 (← marks? text.toList)
  if taken.rest = [] then some taken.value else none

/-! ## What the readers take -/

/-- The reader takes `value` and leaves `rest`. -/
def Takes {ms : List Mark} (outcome : Option (Taken ms)) (value : Expression) (rest : List Mark) :
    Prop :=
  ∃ length_le, outcome = some ⟨value, rest, length_le⟩

/-- Marks that go on with an operand up to a rank. -/
def Mark.goesOn (rank : Nat) : Mark → Bool
  | .point | .optionalPoint => true
  | .operator op => op.rank ≤ rank
  | _ => false

/-- The next mark does not go on with an operand up to a rank. -/
def EndsAt (rank : Nat) (rest : List Mark) : Prop :=
  ∀ mark ∈ rest.head?, mark.goesOn rank = false

section Takes

variable {ms ms' rest rest' : List Mark} {x y : Expression} {rank rank' : Nat}

theorem takes_some (taken : Taken ms) : Takes (some taken) taken.value taken.rest :=
  ⟨taken.length_le, rfl⟩

theorem Takes.bind {outcome : Option (Taken ms)} {next : Taken ms → Option (Taken ms')}
    (h : Takes outcome x rest) (hnext : ∀ length_le, Takes (next ⟨x, rest, length_le⟩) y rest') :
    Takes (outcome >>= next) y rest' := by
  obtain ⟨length_le, rfl⟩ := h
  exact hnext length_le

theorem EndsAt.of_le (h : EndsAt rank' rest) (hle : rank ≤ rank') : EndsAt rank rest := by
  intro mark hmark
  have hgoes := h mark hmark
  cases mark with
  | operator op =>
    simp only [Mark.goesOn, decide_eq_false_iff_not] at hgoes ⊢
    omega
  | _ => exact hgoes

theorem endsAt_nil (rank : Nat) : EndsAt rank [] := by
  simp [EndsAt]

theorem endsAt_closing (rank : Nat) (rest : List Mark) : EndsAt rank (.closing :: rest) := by
  simp [EndsAt, Mark.goesOn]

theorem readMembers_of_endsAt (object : Expression) (h : EndsAt rank rest) :
    readMembers object rest = ⟨object, rest, Nat.le_refl _⟩ := by
  unfold readMembers
  split
  · exact absurd (h .point rfl) (by simp [Mark.goesOn])
  · exact absurd (h .optionalPoint rfl) (by simp [Mark.goesOn])
  · rfl

theorem readOperators_of_endsAt (left : Expression) (h : EndsAt (rank + 1) rest) :
    Takes (readOperators rank left rest) left rest := by
  unfold readOperators
  split
  · rename_i op rest
    have hgoes := h (.operator op) rfl
    simp only [Mark.goesOn, decide_eq_false_iff_not] at hgoes
    rw [if_neg (by omega)]
    exact takes_some _
  · exact takes_some _

/-- What is read at a rank is read at the next one, if nothing goes on there. -/
theorem takes_succ (h : Takes (readRank rank ms) x rest) (hrest : EndsAt (rank + 1) rest) :
    Takes (readRank (rank + 1) ms) x rest := by
  rw [readRank]
  exact h.bind fun _ => (readOperators_of_endsAt x hrest).bind fun _ => takes_some _

theorem takes_of_le (hle : rank ≤ rank') (h : Takes (readRank rank ms) x rest)
    (hrest : EndsAt rank' rest) : Takes (readRank rank' ms) x rest := by
  induction hle with
  | refl => exact h
  | step hle ih => exact takes_succ (ih (hrest.of_le (Nat.le_succ _))) hrest

/-- An operator of the rank takes the next operand and goes on. -/
theorem readOperators_cons {op : Operator} {left right : Expression} (hop : op.rank = rank + 1)
    (hright : Takes (readRank rank ms) right rest)
    (hmore : Takes (readOperators rank (.binary op left right) rest) x rest') :
    Takes (readOperators rank left (.operator op :: ms)) x rest' := by
  rw [readOperators, if_pos hop]
  exact hright.bind fun _ => hmore.bind fun _ => takes_some _

theorem closeGroup_of_endsAt {inner : Taken ms} (hinner : inner.rest = .closing :: rest)
    (hrest : EndsAt 0 rest) : Takes (closeGroup inner) inner.value rest := by
  unfold closeGroup
  split
  · rename_i after hafter
    obtain rfl : after = rest := (List.cons.inj (hafter.symm.trans hinner)).2
    rw [readMembers_of_endsAt _ hrest]
    exact takes_some _
  · rename_i hnot
    exact absurd hinner (hnot rest)

/-- A group is read as what stands inside. -/
theorem readUnary_opening (h : Takes (readRank 4 ms) x (.closing :: rest)) (hrest : EndsAt 0 rest) :
    Takes (readUnary (.opening :: ms)) x rest := by
  rw [readUnary]
  exact h.bind fun _ => (closeGroup_of_endsAt rfl hrest).bind fun _ => takes_some _

theorem readUnary_bang (h : Takes (readUnary ms) x rest) :
    Takes (readUnary (.bang :: ms)) (.not x) rest := by
  rw [readUnary]
  exact h.bind fun _ => takes_some _

end Takes

/-! ## The marks of a text put together -/

section Marks

variable {after : List Char} {c : Char}

theorem marks?_cons (hc : c ≠ ' ') (rest : List Char) :
    marks? (c :: rest) =
      (Mark.first? c rest).bind fun found => (marks? (rest.drop found.2)).map (found.1 :: ·) := by
  rw [marks?, if_neg hc]
  cases Mark.first? c rest <;> rfl

theorem marks?_blank (rest : List Char) : marks? (' ' :: rest) = marks? rest := by
  rw [marks?, if_pos rfl]

theorem marks?_name (name : Name) (h : Lacks isIdentifierChar after) :
    marks? (name.text.toList ++ after) = (marks? after).map (.name name :: ·) := by
  obtain ⟨text, hname⟩ := name
  cases htext : text.toList with
  | nil =>
    rw [htext] at hname
    cases hname
  | cons c letters =>
    have hletters := hname
    rw [htext, isIdentifier_cons] at hletters
    obtain ⟨hc, hall⟩ := hletters
    have hblank : c ≠ ' ' := by
      rintro rfl
      cases hc
    have htake := takeWhile_append_of_lacks hall h
    have hfirst : Mark.first? c (letters ++ after) =
        some (.name ⟨text, hname⟩, letters.length) := by
      unfold Mark.first?
      rw [dif_pos hc]
      congr 2
      · congr 2
        rw [htake, ← htext, String.ofList_toList]
      · rw [htake]
    rw [List.cons_append, marks?_cons hblank, hfirst, Option.bind_some, List.drop_left]

/-- A sign is neither a letter nor a digit, no quote and no blank. -/
theorem marks?_sign {rest : List Char} {mark : Mark} {more : Nat}
    (h : Mark.sign? c rest = some (mark, more)) :
    marks? (c :: rest) = (marks? (rest.drop more)).map (mark :: ·) := by
  have hc : c ≠ ' ' ∧ isIdentifierStart c = false ∧ c.isDigit = false ∧ c ≠ '"' := by
    unfold Mark.sign? at h
    split at h <;> first | decide | cases h
  obtain ⟨hblank, hletter, hdigit, hquote⟩ := hc
  rw [marks?_cons hblank, Mark.first?, dif_neg (by simp [hletter]), if_neg (by simp [hdigit]),
    if_neg hquote, h, Option.bind_some]

theorem marks?_string {inner : List Char} (hquote : '"' ∉ inner)
    (hplain : inner.all isPlain = true) :
    marks? ('"' :: inner ++ '"' :: after) =
      (marks? after).map (.string (String.ofList inner) :: ·) := by
  have htake : (inner ++ '"' :: after).takeWhile (· != '"') = inner :=
    takeWhile_append_of_all (forall_bne_of_notMem hquote) (by decide) after
  have hfirst : Mark.first? '"' (inner ++ '"' :: after) =
      some (.string (String.ofList inner), inner.length + 1) := by
    rw [Mark.first?, dif_neg (by decide), if_neg (by decide), if_pos rfl, Mark.quoted?, htake,
      if_pos ⟨by simp, hplain⟩]
  have hdrop : (inner ++ '"' :: after).drop (inner.length + 1) = after := by
    rw [← List.drop_drop, List.drop_left]
    rfl
  rw [List.cons_append, marks?_cons (by decide), hfirst, Option.bind_some, hdrop]

/-- A decimal that ends before what follows it. -/
theorem marks?_number {text : String} (h : Word.IsWritten ⟨.number, text⟩)
    (hends : Word.EndsBefore ⟨.number, text⟩ after) :
    marks? (text.toList ++ after) = (marks? after).map (.number text :: ·) := by
  obtain ⟨c, rest, found, hfront, -, hfound, -, htext, hwidth⟩ := first?_of_spells h hends
  change text.toList ++ after = c :: rest at hfront
  change found.width = text.toList.length at hwidth
  have hdigit : c.isDigit = true := by
    obtain ⟨d, digits, hdigits⟩ := List.exists_cons_of_ne_nil (Spells.ne_nil h)
    unfold Word.IsWritten at h
    rw [hdigits] at h
    change text.toList = d :: digits at hdigits
    rw [hdigits] at hfront
    obtain ⟨rfl, -⟩ := List.cons.inj hfront
    exact h.isDigit_head rfl
  -- the scanner of sources takes the same decimal
  obtain rfl : Lexeme.verbatim .number c (decimalPart rest) = found :=
    Option.some.inj ((first?_of_isDigit hdigit rest).2.symm.trans hfound)
  change String.ofList (c :: decimalPart rest) = text at htext
  have hnumber : Mark.first? c rest = some (.number text, (decimalPart rest).length) := by
    rw [Mark.first?, dif_neg (by simp [not_isIdentifierStart_of_isDigit hdigit]), if_pos hdigit,
      htext]
  have hdrop : rest.drop (decimalPart rest).length = after := by
    have hall := congrArg (List.drop text.toList.length) hfront
    rw [List.drop_left, ← hwidth] at hall
    exact hall.symm
  rw [hfront, marks?_cons (ne_of_class hdigit (by decide)), hnumber, Option.bind_some, hdrop]

end Marks

end UiLang.Script
