import UiLang.Proofs.Condition.Written
import UiLang.Proofs.Script.Expression

/-!
# How the script of a condition is grouped

The script of a condition has parentheses around connectives and around the operands of negations,
and none around comparisons.  A comparison of comparisons therefore keeps its grouping only where
the script language groups the same way: the left operand may bind as loosely as the comparison
itself, the right operand has to bind tighter.  In `a == (b == c)` it does not, and the script is
that of `(a == b) == c`.

Every condition has a neighbour with the same script that is grouped as the script is read.  So a
script is read back as the tree of its condition exactly when the condition is grouped that way, and
all its fields are names of the script language; the field `else if`, which is one word of the
source, is none.

## Main definitions

* `Condition.expression?`: the tree that a condition stands for
* `Condition.IsGrouped`: comparisons nested as the script language groups them
* `Condition.IsGiven`: conditions that the reader gives for some source

## Main results

* `Condition.marks?_script`: the marks of a script
* `Condition.IsGrouped.readsBack`: a grouped condition is read back
* `Condition.exists_grouped`: every script is the script of a grouped condition
* `Condition.script_reads_back_iff`: which scripts are read back as the tree of their condition
-/

namespace UiLang

open Script (Expression Mark Name Operator Takes EndsAt Taken comparisonRank marks? readUnary
  readRank readOperators readMembers takes_some takes_of_le)

/-! ## The tree that a condition stands for -/

section Trees

def stateName : Name := ⟨"state", rfl⟩

def boolName : Bool → Name
  | true => ⟨"true", rfl⟩
  | false => ⟨"false", rfl⟩

def nullName : Name := ⟨"null", rfl⟩

/-- A name of the state, and the fields taken from its value one after another.  A field of a
missing value reads as undefined. -/
def memberChain (root : Name) (fields : List Name) : Expression :=
  fields.foldl (fun object field => .member object true field)
    (.member (.name stateName) false root)

/-- A path of names. -/
def Path.expression? (path : Path) : Option Expression := do
  let root ← Name.ofText? path.root
  let fields ← path.fields.mapM Name.ofText?
  return memberChain root fields

/-- A literal; a sign is an operator. -/
def Literal.expression : Literal → Expression
  | .string text => .string text
  | .number text =>
    match text.toList with
    | '-' :: digits => .negate (.number (String.ofList digits))
    | _ => .number text
  | .boolean value => .boolean value
  | .null => .null

/-- The tree that a condition stands for, if its paths are made of names. -/
def Condition.expression? : Condition → Option Expression
  | .path p => p.expression?
  | .literal value => some value.expression
  | .not operand => operand.expression?.map .not
  | .logical op left right => do
    return .binary (.logical op) (← left.expression?) (← right.expression?)
  | .compare op left right => do
    return .binary (.compare op) (← left.expression?) (← right.expression?)

/-- How loosely the script of a condition binds. -/
def Condition.rank : Condition → Nat
  | .compare op _ _ => comparisonRank op
  | _ => 0

/-- Comparisons are nested as the script language groups them: to the left, and the order
comparisons tighter than the other two. -/
def Condition.IsGrouped : Condition → Prop
  | .path _ => True
  | .literal _ => True
  | .not operand => operand.IsGrouped
  | .logical _ left right => left.IsGrouped ∧ right.IsGrouped
  | .compare op left right =>
    left.rank ≤ comparisonRank op ∧ right.rank < comparisonRank op ∧
      left.IsGrouped ∧ right.IsGrouped

/-- The marks of an expression that is written as conditions are. -/
def Script.Expression.marks : Expression → List Mark
  | .name n => [.name n]
  | .member object optional field =>
    object.marks ++ [if optional then .optionalPoint else .point, .name field]
  | .number text => [.number text]
  | .string text => [.string text]
  | .boolean value => [.name (boolName value)]
  | .null => [.name nullName]
  | .not operand => .bang :: .opening :: operand.marks ++ [.closing]
  | .negate operand => .minus :: operand.marks
  | .binary (.compare op) left right => left.marks ++ .operator (.compare op) :: right.marks
  | .binary (.logical op) left right =>
    .opening :: (left.marks ++ .operator (.logical op) :: right.marks) ++ [.closing]

theorem Literal.expression_number (text : String) :
    (∃ digits, text = "-" ++ digits ∧
      (Literal.number text).expression = .negate (.number digits)) ∨
    (∀ digits, text ≠ "-" ++ digits) ∧ (Literal.number text).expression = .number text := by
  rw [Literal.expression]
  split
  · rename_i digits htext
    refine .inl ⟨String.ofList digits, ?_, rfl⟩
    rw [← String.toList_inj, htext]
    simp
  · rename_i hnot
    refine .inr ⟨?_, rfl⟩
    rintro digits rfl
    exact hnot digits.toList (by simp)

/-- The operands of an operator have trees of their own. -/
theorem exists_of_expression?_binary {op : Operator} {left right : Condition} {x : Expression}
    (h : (do return .binary op (← left.expression?) (← right.expression?)) = some x) :
    ∃ l r, left.expression? = some l ∧ right.expression? = some r ∧ x = .binary op l r := by
  obtain ⟨l, hl, r, hr, heq⟩ : ∃ l, left.expression? = some l ∧ ∃ r, right.expression? = some r ∧
      Expression.binary op l r = x := by
    simpa [Option.bind_eq_some_iff] using h
  exact ⟨l, r, hl, hr, heq.symm⟩

theorem Condition.rank_le (e : Condition) : e.rank ≤ 2 := by
  cases e with
  | compare op left right =>
    change comparisonRank op ≤ 2
    cases op <;> decide
  | _ => exact Nat.zero_le 2

end Trees

/-! ## A grouped condition is read back -/

section Reading

variable {rest after : List Mark} {x y : Expression} {e : Condition} {n : Nat}

theorem marks_memberChain (root : Name) (fields : List Name) :
    (memberChain root fields).marks =
      .name stateName :: .point :: .name root ::
        fields.flatMap fun field => [.optionalPoint, .name field] := by
  have hfold (object : Expression) :
      (fields.foldl (fun object field => Expression.member object true field) object).marks =
        object.marks ++ fields.flatMap fun field => [.optionalPoint, .name field] := by
    induction fields generalizing object with
    | nil => simp
    | cons field fields ih =>
      rw [List.foldl_cons, ih, Expression.marks, List.append_assoc]
      rfl
  rw [memberChain, hfold]
  rfl

theorem takes_readMembers (object : Expression) (fields : List Name) (hrest : EndsAt 0 rest) :
    Takes (some (readMembers object
        ((fields.flatMap fun field => [Mark.optionalPoint, .name field]) ++ rest)))
      (fields.foldl (fun object field => .member object true field) object) rest := by
  induction fields generalizing object with
  | nil =>
    rw [List.flatMap_nil, List.nil_append, Script.readMembers_of_endsAt object hrest]
    exact takes_some _
  | cons field fields ih =>
    rw [List.flatMap_cons, List.append_assoc, List.cons_append, List.cons_append, List.nil_append,
      readMembers]
    obtain ⟨hle, htaken⟩ := ih (.member object true field)
    rw [Option.some.inj htaken]
    exact takes_some _

/-- Reading an operand that is no comparison, and the loop of comparisons after one that is. -/
def ReadsBack (e : Condition) (x : Expression) : Prop :=
  (e.rank = 0 → ∀ rest, EndsAt 0 rest → Takes (readUnary (x.marks ++ rest)) x rest) ∧
    ∀ n, e.rank = n + 1 → ∀ rest y after, EndsAt n rest →
      Takes (readOperators n x rest) y after → Takes (readRank (n + 1) (x.marks ++ rest)) y after

/-- An operand is read at every rank that is as loose as its own. -/
theorem ReadsBack.takes (h : ReadsBack e x) (hle : e.rank ≤ n) (hrest : EndsAt n rest) :
    Takes (readRank n (x.marks ++ rest)) x rest := by
  cases hrank : e.rank with
  | zero =>
    refine takes_of_le (Nat.zero_le n) ?_ hrest
    rw [readRank]
    exact h.1 hrank rest (hrest.of_le (Nat.zero_le n))
  | succ k =>
    rw [hrank] at hle
    refine takes_of_le hle ?_ hrest
    exact h.2 k hrank rest x rest (hrest.of_le (by omega))
      (Script.readOperators_of_endsAt x (hrest.of_le hle))

theorem readUnary_boolName (value : Bool) (hrest : EndsAt 0 rest) :
    Takes (readUnary (.name (boolName value) :: rest)) (.boolean value) rest := by
  rw [readUnary, Script.readMembers_of_endsAt _ hrest]
  cases value <;> exact takes_some _

theorem Literal.takes (value : Literal) (hrest : EndsAt 0 rest) :
    Takes (readUnary (value.expression.marks ++ rest)) value.expression rest := by
  cases value with
  | string text =>
    rw [Literal.expression, Expression.marks, List.singleton_append, readUnary]
    exact takes_some _
  | number text =>
    rcases Literal.expression_number text with ⟨digits, -, heq⟩ | ⟨-, heq⟩
    · rw [heq, Expression.marks, Expression.marks, List.cons_append, List.singleton_append,
        readUnary]
      exact takes_some _
    · rw [heq, Expression.marks, List.singleton_append, readUnary]
      exact takes_some _
  | boolean value => exact readUnary_boolName value hrest
  | null =>
    rw [Literal.expression, Expression.marks, List.singleton_append, readUnary,
      Script.readMembers_of_endsAt _ hrest]
    exact takes_some _

theorem Path.takes {path : Path} (hx : path.expression? = some x) (hrest : EndsAt 0 rest) :
    Takes (readUnary (x.marks ++ rest)) x rest := by
  obtain ⟨root, -, fields, -, hchain⟩ : ∃ root, Name.ofText? path.root = some root ∧
      ∃ fields, path.fields.mapM Name.ofText? = some fields ∧ memberChain root fields = x := by
    simpa [Path.expression?, Option.bind_eq_some_iff] using hx
  subst hchain
  rw [marks_memberChain, List.cons_append, readUnary, List.cons_append, List.cons_append,
    readMembers]
  obtain ⟨hle, htaken⟩ := takes_readMembers (.member (.name stateName) false root) fields hrest
  have hname : stateName.expression = .name stateName := rfl
  rw [hname, Option.some.inj htaken]
  exact takes_some _

/-- Two operands with an operator between them.  The left one may end with operators of the same
rank. -/
theorem takes_binary {op : Operator} {left right : Condition} {l r : Expression}
    (hop : op.rank = n + 1) (hleft : ReadsBack left l) (hl : left.rank ≤ n + 1)
    (hright : ReadsBack right r) (hr : right.rank ≤ n) (hrest : EndsAt n rest)
    (hmore : Takes (readOperators n (.binary op l r) rest) y after) :
    Takes (readRank (n + 1) (l.marks ++ .operator op :: (r.marks ++ rest))) y after := by
  have hloop : Takes (readOperators n l (.operator op :: (r.marks ++ rest))) y after :=
    Script.readOperators_cons hop (hright.takes hr hrest) hmore
  have hends : EndsAt n (.operator op :: (r.marks ++ rest)) := by
    simp [EndsAt, Mark.goesOn, hop]
  rcases Nat.lt_or_eq_of_le hl with hlt | heq
  · rw [readRank]
    exact (hleft.takes (Nat.le_of_lt_succ hlt) hends).bind fun _ => hloop.bind fun _ => takes_some _
  · exact hleft.2 n heq _ y after hends hloop

/-- **A grouped condition is read back.** -/
theorem Condition.IsGrouped.readsBack (h : e.IsGrouped) (hx : e.expression? = some x) :
    ReadsBack e x := by
  induction e generalizing x with
  | path p => exact ⟨fun _ rest hrest => Path.takes hx hrest, nofun⟩
  | literal value =>
    obtain rfl := Option.some.inj hx
    exact ⟨fun _ rest hrest => value.takes hrest, nofun⟩
  | not operand ih =>
    obtain ⟨x, hoperand, rfl⟩ := Option.map_eq_some_iff.mp hx
    refine ⟨fun _ rest hrest => ?_, nofun⟩
    have hinner := (ih h hoperand).takes (Nat.le_trans operand.rank_le (by decide))
      (Script.endsAt_closing 4 rest)
    rw [Expression.marks, List.append_assoc]
    exact Script.readUnary_bang (Script.readUnary_opening hinner hrest)
  | logical op left right ihleft ihright =>
    obtain ⟨l, r, hl, hr, rfl⟩ := exists_of_expression?_binary hx
    refine ⟨fun _ rest hrest => ?_, nofun⟩
    -- the parentheses are read as a group, whatever the rank of the connective
    obtain ⟨n, hn, hle, hrank⟩ : ∃ n, (Operator.logical op).rank = n + 1 ∧ n + 1 ≤ 4 ∧ 2 ≤ n := by
      cases op with
      | and => exact ⟨2, rfl, by decide, by decide⟩
      | or => exact ⟨3, rfl, by decide, by decide⟩
    have hbinary := takes_binary hn (ihleft h.1 hl) (Nat.le_trans left.rank_le (by omega))
      (ihright h.2 hr) (Nat.le_trans right.rank_le hrank) (Script.endsAt_closing n rest)
      (Script.readOperators_of_endsAt _ (Script.endsAt_closing (n + 1) rest))
    have hgroup := takes_of_le hle hbinary (Script.endsAt_closing 4 rest)
    rw [Expression.marks, List.append_assoc, List.cons_append, List.append_assoc]
    exact Script.readUnary_opening hgroup hrest
  | compare op left right ihleft ihright =>
    obtain ⟨l, r, hl, hr, rfl⟩ := exists_of_expression?_binary hx
    obtain ⟨hleft, hright, hleft', hright'⟩ := h
    refine ⟨fun hzero => ?_, fun n hn rest y after hrest hmore => ?_⟩
    · exact absurd (show comparisonRank op = 0 from hzero) (by cases op <;> decide)
    · change comparisonRank op = n + 1 at hn
      rw [hn] at hleft hright
      rw [Expression.marks, List.append_assoc]
      exact takes_binary hn (ihleft hleft' hl) hleft (ihright hright' hr)
        (Nat.le_of_lt_succ hright) hrest hmore

end Reading

/-! ## The marks of a script -/

/-- The paths and literals of a condition, in order. -/
def Condition.leaves : Condition → List Condition
  | .path p => [.path p]
  | .literal value => [.literal value]
  | .not operand => operand.leaves
  | .logical _ left right => left.leaves ++ right.leaves
  | .compare _ left right => left.leaves ++ right.leaves

/-- Every character of a string stands for itself in a script. -/
def Condition.IsPlain (e : Condition) : Prop :=
  ∀ text, .literal (.string text) ∈ e.leaves → text.toList.all Script.isPlain = true

/-- No field is the word `else if`, which is no name of a script. -/
def Condition.HasNames (e : Condition) : Prop :=
  ∀ p, .path p ∈ e.leaves → "else if" ∉ p.fields

section Marks

variable {after : List Char} {x : Expression} {e : Condition}

theorem Name.text_of_ofText? {text : String} {name : Name} (h : Name.ofText? text = some name) :
    name.text = text := by
  unfold Name.ofText? at h
  split at h
  · obtain rfl := Option.some.inj h
    rfl
  · cases h

theorem map_text_of_mapM {texts : List String} {names : List Name}
    (h : texts.mapM Name.ofText? = some names) : names.map Name.text = texts := by
  induction texts generalizing names with
  | nil =>
    obtain rfl : [] = names := by simpa using h
    rfl
  | cons text texts ih =>
    obtain ⟨name, hname, rest, hrest, rfl⟩ : ∃ name, Name.ofText? text = some name ∧
        ∃ rest, texts.mapM Name.ofText? = some rest ∧ name :: rest = names := by
      simpa [List.mapM_cons, Option.bind_eq_some_iff] using h
    rw [List.map_cons, Name.text_of_ofText? hname, ih hrest]

theorem Path.eq_of_expression? {path : Path} (h : path.expression? = some x) :
    ∃ root fields, x = memberChain root fields ∧ path = ⟨root.text, fields.map Name.text⟩ := by
  obtain ⟨root, hroot, fields, hfields, hchain⟩ : ∃ root, Name.ofText? path.root = some root ∧
      ∃ fields, path.fields.mapM Name.ofText? = some fields ∧ memberChain root fields = x := by
    simpa [Path.expression?, Option.bind_eq_some_iff] using h
  refine ⟨root, fields, hchain.symm, ?_⟩
  rw [Name.text_of_ofText? hroot, map_text_of_mapM hfields]

theorem Breaks.lacks (h : Breaks after) : Lacks isIdentifierChar after :=
  (h ⟨.identifier, ""⟩).letters rfl

theorem toList_segments (root : Name) (fields : List Name) :
    (String.intercalate "?." (root.text :: fields.map Name.text)).toList =
      root.text.toList ++ fields.flatMap fun field => '?' :: '.' :: field.text.toList := by
  rw [String.toList_intercalate]
  induction fields generalizing root with
  | nil => simp
  | cons field fields ih =>
    have hrest := ih field
    simp only [List.map_cons] at hrest ⊢
    rw [List.intercalate_cons_cons, hrest]
    simp

theorem marks?_fields (hafter : Breaks after) (fields : List Name) :
    marks? ((fields.flatMap fun field => '?' :: '.' :: field.text.toList) ++ after) =
      (marks? after).map
        ((fields.flatMap fun field => [Mark.optionalPoint, .name field]) ++ ·) := by
  induction fields with
  | nil => simp
  | cons field fields ih =>
    -- a field ends at the `?` of the next one, or where `after` starts
    have hlacks : Lacks isIdentifierChar
        ((fields.flatMap fun field => '?' :: '.' :: field.text.toList) ++ after) := by
      cases fields with
      | nil => exact hafter.lacks
      | cons field fields => exact lacks_cons.mpr (by decide)
    -- `?.` is one sign unless a digit follows, and no field starts with a digit
    have hsign (tail : List Char) : Mark.sign? '?' ('.' :: (field.text.toList ++ tail)) =
        some (.optionalPoint, 1) := by
      cases htext : field.text.toList with
      | nil =>
        have hname := field.isIdentifier
        rw [htext] at hname
        cases hname
      | cons c letters =>
        have hname := field.isIdentifier
        rw [htext, isIdentifier_cons] at hname
        have hdigit : c.isDigit = false := by
          rw [Bool.eq_false_iff]
          intro hdigit
          rw [not_isIdentifierStart_of_isDigit hdigit] at hname
          cases hname.1
        rw [List.cons_append, Mark.sign?, if_neg (by simp [hdigit])]
    rw [List.flatMap_cons, List.append_assoc, List.cons_append, List.cons_append,
      Script.marks?_sign (hsign _), List.drop_one, List.tail_cons, Script.marks?_name field hlacks,
      ih, List.flatMap_cons]
    cases marks? after <;> rfl

theorem marks?_path (root : Name) (fields : List Name) (hafter : Breaks after) :
    marks? (("state." ++ String.intercalate "?." (root.text :: fields.map Name.text)).toList ++
        after) =
      (marks? after).map ((memberChain root fields).marks ++ ·) := by
  have hlacks : Lacks isIdentifierChar
      ((fields.flatMap fun field => '?' :: '.' :: field.text.toList) ++ after) := by
    cases fields with
    | nil => exact hafter.lacks
    | cons field fields => exact lacks_cons.mpr (by decide)
  have hfront : ("state." ++ String.intercalate "?." (root.text :: fields.map Name.text)).toList ++
      after = stateName.text.toList ++ '.' :: (root.text.toList ++
        ((fields.flatMap fun field => '?' :: '.' :: field.text.toList) ++ after)) := by
    rw [String.toList_append, toList_segments]
    simp [stateName]
  rw [hfront, Script.marks?_name stateName (lacks_cons.mpr (by decide)), Script.marks?_sign rfl,
    List.drop_zero, Script.marks?_name root hlacks, marks?_fields hafter, marks_memberChain]
  cases marks? after <;> rfl

/-- An operator between blanks. -/
theorem marks?_operator {op : Operator} (c : Char) (more after : List Char)
    (h : Mark.sign? c (more ++ ' ' :: after) = some (.operator op, more.length)) :
    marks? (' ' :: (c :: more ++ ' ' :: after)) = (marks? after).map (.operator op :: ·) := by
  rw [Script.marks?_blank, List.cons_append, Script.marks?_sign h, List.drop_left,
    Script.marks?_blank]

theorem marks?_comparison (op : Comparison) (after : List Char) :
    marks? (' ' :: (op.symbol.toList ++ ' ' :: after)) =
      (marks? after).map (.operator (.compare op) :: ·) := by
  cases op with
  | greater => exact marks?_operator '>' [] after rfl
  | less => exact marks?_operator '<' [] after rfl
  | greaterEq => exact marks?_operator '>' ['='] after rfl
  | lessEq => exact marks?_operator '<' ['='] after rfl
  | equal => exact marks?_operator '=' ['='] after rfl
  | notEqual => exact marks?_operator '!' ['='] after rfl

theorem marks?_connective (op : Connective) (after : List Char) :
    marks? (' ' :: (op.symbol.toList ++ ' ' :: after)) =
      (marks? after).map (.operator (.logical op) :: ·) := by
  cases op with
  | and => exact marks?_operator '&' ['&'] after rfl
  | or => exact marks?_operator '|' ['|'] after rfl

theorem Literal.marks?_text {value : Literal} (h : value.IsLexable)
    (hplain : ∀ text, value = .string text → text.toList.all Script.isPlain = true)
    (hafter : Breaks after) :
    marks? (value.text.toList ++ after) = (marks? after).map (value.expression.marks ++ ·) := by
  cases value with
  | string text =>
    rw [show (Literal.string text).text.toList ++ after = '"' :: text.toList ++ '"' :: after by
      simp [Literal.text], Script.marks?_string h (hplain text rfl), String.ofList_toList]
    rfl
  | number text =>
    rcases Literal.expression_number text with ⟨digits, rfl, heq⟩ | ⟨hsign, heq⟩
    · have hdigits : Word.IsWritten ⟨.number, digits⟩ := IsNumeral.of_sign h
      have htext : (Literal.number ("-" ++ digits)).text.toList ++ after =
          '-' :: (digits.toList ++ after) := by
        simp [Literal.text]
      rw [heq, htext, Script.marks?_sign rfl, List.drop_zero,
        Script.marks?_number hdigits (hafter _)]
      cases marks? after <;> rfl
    · have htext : Word.IsWritten ⟨.number, text⟩ := by
        rcases h with htext | ⟨digits, htext, -⟩
        · exact htext
        · exact absurd htext (hsign digits)
      rw [heq]
      exact Script.marks?_number htext (hafter _)
  | boolean value =>
    have hname := Script.marks?_name (boolName value) hafter.lacks
    cases value with
    | true => exact hname
    | false => exact hname
  | null => exact Script.marks?_name nullName hafter.lacks

/-- The operands of a binary condition have the strings of the whole. -/
theorem isPlain_of_append {left right : Condition}
    (h : ∀ text, .literal (.string text) ∈ left.leaves ++ right.leaves →
      text.toList.all Script.isPlain = true) : left.IsPlain ∧ right.IsPlain :=
  ⟨fun text htext => h text (List.mem_append_left _ htext),
    fun text htext => h text (List.mem_append_right _ htext)⟩

/-- **The marks of a script** are those of the tree that the condition stands for. -/
theorem Condition.marks?_script (h : e.IsLexable) (hplain : e.IsPlain)
    (hx : e.expression? = some x) (hafter : Breaks after) :
    marks? (e.script.toList ++ after) = (marks? after).map (x.marks ++ ·) := by
  induction e generalizing x after with
  | path p =>
    obtain ⟨root, fields, rfl, rfl⟩ := Path.eq_of_expression? hx
    exact marks?_path root fields hafter
  | literal value =>
    obtain rfl := Option.some.inj hx
    refine value.marks?_text h (fun text htext => hplain text ?_) hafter
    rw [htext]
    exact List.mem_singleton_self _
  | not operand ih =>
    obtain ⟨x, hoperand, rfl⟩ := Option.map_eq_some_iff.mp hx
    have hscript : (Condition.not operand).script.toList ++ after =
        '!' :: '(' :: (operand.script.toList ++ ')' :: after) := by
      simp [Condition.script, Condition.write]
    rw [hscript, Script.marks?_sign rfl, List.drop_zero, Script.marks?_sign rfl, List.drop_zero,
      ih h hplain hoperand breaks_round, Script.marks?_sign rfl, List.drop_zero, Expression.marks]
    cases marks? after with
    | none => rfl
    | some ms => simp
  | logical op left right ihleft ihright =>
    obtain ⟨l, r, hl, hr, rfl⟩ := exists_of_expression?_binary hx
    have hscript : (Condition.logical op left right).script.toList ++ after =
        '(' :: (left.script.toList ++
          ' ' :: (op.symbol.toList ++ ' ' :: (right.script.toList ++ ')' :: after))) := by
      simp [Condition.script, Condition.write]
    -- a blank ends whatever the left operand ends in
    have hbreaks :
        Breaks (' ' :: (op.symbol.toList ++ ' ' :: (right.script.toList ++ ')' :: after))) :=
      breaks_blank op.isWritten nofun nofun
    obtain ⟨hplainleft, hplainright⟩ := isPlain_of_append hplain
    rw [hscript, Script.marks?_sign rfl, List.drop_zero, ihleft h.1 hplainleft hl hbreaks,
      marks?_connective, ihright h.2 hplainright hr breaks_round, Script.marks?_sign rfl,
      List.drop_zero, Expression.marks]
    cases marks? after with
    | none => rfl
    | some ms => simp
  | compare op left right ihleft ihright =>
    obtain ⟨l, r, hl, hr, rfl⟩ := exists_of_expression?_binary hx
    have hscript : (Condition.compare op left right).script.toList ++ after =
        left.script.toList ++
          ' ' :: (op.symbol.toList ++ ' ' :: (right.script.toList ++ after)) := by
      simp [Condition.script, Condition.write]
    have hbreaks : Breaks (' ' :: (op.symbol.toList ++ ' ' :: (right.script.toList ++ after))) :=
      breaks_blank op.isWritten nofun nofun
    obtain ⟨hplainleft, hplainright⟩ := isPlain_of_append hplain
    rw [hscript, ihleft h.1 hplainleft hl hbreaks, marks?_comparison,
      ihright h.2 hplainright hr hafter, Expression.marks]
    cases marks? after with
    | none => rfl
    | some ms => simp

end Marks

/-! ## Which conditions have a tree -/

section Names

variable {x : Expression} {e : Condition}

theorem Name.ofText?_of_isIdentifier {text : String} (h : isIdentifier text.toList = true) :
    Name.ofText? text = some ⟨text, h⟩ :=
  dif_pos h

theorem exists_mapM_ofText? {texts : List String}
    (h : ∀ text ∈ texts, isIdentifier text.toList = true) :
    ∃ names, texts.mapM Name.ofText? = some names := by
  induction texts with
  | nil => exact ⟨[], rfl⟩
  | cons text texts ih =>
    obtain ⟨htext, htexts⟩ := List.forall_mem_cons.mp h
    obtain ⟨names, hnames⟩ := ih htexts
    refine ⟨⟨text, htext⟩ :: names, ?_⟩
    rw [List.mapM_cons, Name.ofText?_of_isIdentifier htext, hnames]
    rfl

theorem Path.IsLexable.exists_expression? {path : Path} (h : path.IsLexable)
    (hnames : "else if" ∉ path.fields) : ∃ x, path.expression? = some x := by
  have hroot := (h.root.of_isLettered rfl (by simp)).2
  have hfield : ∀ field ∈ path.fields, isIdentifier field.toList = true := by
    intro field hfield
    have hne : field ≠ "else if" := by
      rintro rfl
      exact hnames hfield
    obtain ⟨hword, hwritten⟩ := h.fields field hfield
    unfold fieldWord at hword hwritten
    rw [if_neg hne] at hword hwritten
    exact (hwritten.of_isLettered (isLettered_of_isWord hword) (wordKind_ne_elseIf _)).2
  obtain ⟨names, hfields⟩ := exists_mapM_ofText? hfield
  refine ⟨memberChain ⟨path.root, hroot⟩ names, ?_⟩
  rw [Path.expression?, Name.ofText?_of_isIdentifier hroot, hfields]
  rfl

/-- A condition whose fields are names has a tree. -/
theorem Condition.IsLexable.exists_expression? (h : e.IsLexable) (hnames : e.HasNames) :
    ∃ x, e.expression? = some x := by
  have hbinary {op : Operator} {left right : Condition} (hl : ∃ x, left.expression? = some x)
      (hr : ∃ x, right.expression? = some x) :
      ∃ x, (do
        return Expression.binary op (← left.expression?) (← right.expression?)) = some x := by
    obtain ⟨l, hl⟩ := hl
    obtain ⟨r, hr⟩ := hr
    exact ⟨.binary op l r, by rw [hl, hr]; rfl⟩
  induction e with
  | path p => exact Path.IsLexable.exists_expression? h (hnames p (List.mem_singleton_self _))
  | literal value => exact ⟨_, rfl⟩
  | not operand ih =>
    obtain ⟨x, hx⟩ := ih h hnames
    exact ⟨.not x, by rw [Condition.expression?, hx]; rfl⟩
  | logical op left right ihleft ihright =>
    exact hbinary (ihleft h.1 fun p hp => hnames p (List.mem_append_left _ hp))
      (ihright h.2 fun p hp => hnames p (List.mem_append_right _ hp))
  | compare op left right ihleft ihright =>
    exact hbinary (ihleft h.1 fun p hp => hnames p (List.mem_append_left _ hp))
      (ihright h.2 fun p hp => hnames p (List.mem_append_right _ hp))

/-- A condition with a tree has names for fields. -/
theorem Condition.hasNames_of_expression? (h : e.expression? = some x) : e.HasNames := by
  induction e generalizing x with
  | path p =>
    rintro _ hp helse
    obtain rfl := Condition.path.inj (List.mem_singleton.mp hp)
    obtain ⟨root, fields, -, heq⟩ := Path.eq_of_expression? h
    rw [heq] at helse
    obtain ⟨name, -, htext⟩ := List.mem_map.mp helse
    have hname := name.isIdentifier
    rw [htext] at hname
    exact absurd hname (by decide)
  | literal value =>
    intro p hp
    cases List.mem_singleton.mp hp
  | not operand ih =>
    obtain ⟨x, hoperand, -⟩ := Option.map_eq_some_iff.mp h
    exact ih hoperand
  | logical op left right ihleft ihright =>
    obtain ⟨l, r, hl, hr, -⟩ := exists_of_expression?_binary h
    exact fun p hp => (List.mem_append.mp hp).elim (ihleft hl p) (ihright hr p)
  | compare op left right ihleft ihright =>
    obtain ⟨l, r, hl, hr, -⟩ := exists_of_expression?_binary h
    exact fun p hp => (List.mem_append.mp hp).elim (ihleft hl p) (ihright hr p)

end Names

/-! ## A tree is the tree of one condition -/

section Injective

variable {x : Expression} {e e' : Condition}

/-- The names of a chain of members. -/
def Script.Expression.segments : Expression → List String
  | .member object _ field => object.segments ++ [field.text]
  | _ => []

/-- The condition that a tree stands for. -/
def Script.Expression.condition : Expression → Condition
  | .member object _ field =>
    match object.segments ++ [field.text] with
    | root :: fields => .path ⟨root, fields⟩
    | [] => .literal .null
  | .number text => .literal (.number text)
  | .negate (.number text) => .literal (.number ("-" ++ text))
  | .string text => .literal (.string text)
  | .boolean value => .literal (.boolean value)
  | .not operand => .not operand.condition
  | .binary (.logical op) left right => .logical op left.condition right.condition
  | .binary (.compare op) left right => .compare op left.condition right.condition
  | _ => .literal .null

theorem segments_memberChain (root : Name) (fields : List Name) :
    (memberChain root fields).segments = root.text :: fields.map Name.text := by
  have hfold (object : Expression) :
      (fields.foldl (fun object field => Expression.member object true field) object).segments =
        object.segments ++ fields.map Name.text := by
    induction fields generalizing object with
    | nil => simp
    | cons field fields ih =>
      rw [List.foldl_cons, ih, Expression.segments, List.append_assoc]
      rfl
  rw [memberChain, hfold]
  rfl

theorem exists_member_memberChain (root : Name) (fields : List Name) :
    ∃ object optional field, memberChain root fields = .member object optional field := by
  have hfold (object : Expression) (h : ∃ o b f, object = .member o b f) :
      ∃ o b f, fields.foldl (fun object field => Expression.member object true field) object =
        .member o b f := by
    induction fields generalizing object with
    | nil => exact h
    | cons field fields ih => exact ih _ ⟨_, _, _, rfl⟩
  exact hfold _ ⟨_, _, _, rfl⟩

theorem condition_memberChain (root : Name) (fields : List Name) :
    (memberChain root fields).condition = .path ⟨root.text, fields.map Name.text⟩ := by
  obtain ⟨object, optional, field, hmember⟩ := exists_member_memberChain root fields
  have hsegments := segments_memberChain root fields
  rw [hmember, Expression.segments] at hsegments
  rw [hmember, Expression.condition, hsegments]

theorem condition_of_expression? (h : e.expression? = some x) : x.condition = e := by
  induction e generalizing x with
  | path p =>
    obtain ⟨root, fields, rfl, rfl⟩ := Path.eq_of_expression? h
    exact condition_memberChain root fields
  | literal value =>
    obtain rfl := Option.some.inj h
    cases value with
    | number text =>
      rcases Literal.expression_number text with ⟨digits, rfl, heq⟩ | ⟨-, heq⟩
      · rw [heq]
        rfl
      · rw [heq]
        rfl
    | _ => rfl
  | not operand ih =>
    obtain ⟨x, hoperand, rfl⟩ := Option.map_eq_some_iff.mp h
    exact congrArg Condition.not (ih hoperand)
  | logical op left right ihleft ihright =>
    obtain ⟨l, r, hl, hr, rfl⟩ := exists_of_expression?_binary h
    exact congrArg₂ (Condition.logical op) (ihleft hl) (ihright hr)
  | compare op left right ihleft ihright =>
    obtain ⟨l, r, hl, hr, rfl⟩ := exists_of_expression?_binary h
    exact congrArg₂ (Condition.compare op) (ihleft hl) (ihright hr)

/-- Different conditions stand for different trees. -/
theorem eq_of_expression?_eq (h : e.expression? = some x) (h' : e'.expression? = some x) : e = e' :=
  (condition_of_expression? h).symm.trans (condition_of_expression? h')

end Injective

/-! ## Every script is the script of a grouped condition -/

namespace Condition

theorem one_le_comparisonRank (op : Comparison) : 1 ≤ comparisonRank op := by
  cases op <;> decide

theorem comparisonRank_le (op : Comparison) : comparisonRank op ≤ 2 := by
  cases op <;> decide

theorem script_compare (op : Comparison) (left right : Condition) :
    (compare op left right).script = left.script ++ " " ++ op.symbol ++ " " ++ right.script :=
  rfl

/-- A comparison whose right operand binds tighter. -/
theorem exists_grouped_of_lt {op : Comparison} {left right : Condition} (hl : left.IsGrouped)
    (hr : right.IsGrouped) (hlt : right.rank < comparisonRank op) :
    ∃ g : Condition, g.IsGrouped ∧ g.script = (compare op left right).script ∧
      g.leaves = (compare op left right).leaves := by
  by_cases hle : left.rank ≤ comparisonRank op
  · exact ⟨compare op left right, ⟨hle, hlt, hl, hr⟩, rfl, rfl⟩
  · -- the left operand is a looser comparison, and its right operand goes over to this one
    cases left with
    | compare outer a b =>
      obtain ⟨hab, hb, ha', hb'⟩ := hl
      have hrank : b.rank ≤ comparisonRank op := by
        have := one_le_comparisonRank op
        have := comparisonRank_le outer
        omega
      refine ⟨compare outer a (compare op b right),
        ⟨hab, Nat.lt_of_not_le hle, ha', hrank, hlt, hb', hr⟩, ?_, ?_⟩
      · simp only [script_compare, String.append_assoc]
      · simp only [leaves, List.append_assoc]
    | _ => exact absurd (Nat.zero_le _) hle

theorem exists_grouped_compare (op : Comparison) {left right : Condition} (hl : left.IsGrouped)
    (hr : right.IsGrouped) :
    ∃ g : Condition, g.IsGrouped ∧ g.script = (compare op left right).script ∧
      g.leaves = (compare op left right).leaves := by
  induction right generalizing op left with
  | compare inner a b iha ihb =>
    by_cases hlt : (compare inner a b).rank < comparisonRank op
    · exact exists_grouped_of_lt hl hr hlt
    · -- the right operand is as loose, and its left operand goes over to this one
      obtain ⟨-, -, ha, hb⟩ := hr
      obtain ⟨g, hg, hscript, hleaves⟩ := iha op hl ha
      obtain ⟨g', hg', hscript', hleaves'⟩ := ihb inner hg hb
      refine ⟨g', hg', ?_, ?_⟩
      · rw [hscript', script_compare, hscript]
        simp only [script_compare, String.append_assoc]
      · rw [hleaves', leaves, hleaves]
        simp only [leaves, List.append_assoc]
  | _ => exact exists_grouped_of_lt hl hr (one_le_comparisonRank op)

/-- **Every script is the script of a grouped condition** with the same leaves. -/
theorem exists_grouped (e : Condition) :
    ∃ g : Condition, g.IsGrouped ∧ g.script = e.script ∧ g.leaves = e.leaves := by
  induction e with
  | path p => exact ⟨.path p, trivial, rfl, rfl⟩
  | literal value => exact ⟨.literal value, trivial, rfl, rfl⟩
  | not operand ih =>
    obtain ⟨g, hg, hscript, hleaves⟩ := ih
    exact ⟨.not g, hg, congrArg (fun s => "!(" ++ s ++ ")") hscript, hleaves⟩
  | logical op left right ihleft ihright =>
    obtain ⟨l, hl, hl', hl''⟩ := ihleft
    obtain ⟨r, hr, hr', hr''⟩ := ihright
    refine ⟨.logical op l r, ⟨hl, hr⟩, ?_, congrArg₂ (· ++ ·) hl'' hr''⟩
    exact congrArg₂ (fun s t => "(" ++ s ++ " " ++ op.symbol ++ " " ++ t ++ ")") hl' hr'
  | compare op left right ihleft ihright =>
    obtain ⟨l, hl, hl', hl''⟩ := ihleft
    obtain ⟨r, hr, hr', hr''⟩ := ihright
    obtain ⟨g, hg, hscript, hleaves⟩ := exists_grouped_compare op hl hr
    refine ⟨g, hg, ?_, hleaves.trans (congrArg₂ (· ++ ·) hl'' hr'')⟩
    rw [hscript, script_compare, script_compare, hl', hr']

/-! ## Which scripts are read back -/

/-- A condition is lexable when its leaves are. -/
theorem isLexable_iff {e : Condition} : e.IsLexable ↔ ∀ leaf ∈ e.leaves, leaf.IsLexable := by
  induction e with
  | path p => simp [leaves]
  | literal value => simp [leaves]
  | not operand ih => exact ih
  | logical op left right ihleft ihright =>
    rw [leaves, List.forall_mem_append, ← ihleft, ← ihright]
    rfl
  | compare op left right ihleft ihright =>
    rw [leaves, List.forall_mem_append, ← ihleft, ← ihright]
    rfl

/-- The reader gives the condition for tokens of some source. -/
def IsGiven (e : Condition) : Prop :=
  ∃ source stop ts, ts <:+ (scan source).stream.tokens ∧
    ∃ r, readCondition stop ts = .ok r ∧ r.value = e

/-- **The reader gives the conditions with lexable leaves**, and no others. -/
theorem isGiven_iff {e : Condition} : e.IsGiven ↔ e.IsLexable := by
  constructor
  · rintro ⟨source, stop, ts, hts, r, hr, rfl⟩
    obtain ⟨p, hp, hderives⟩ := derives_of_readDisjunction hr
    refine hderives.isLexable fun t ht => ?_
    have hmem : t ∈ ts := by
      rw [hp]
      exact List.mem_append_left _ ht
    exact (account_scanFrom [] source.toList).isWritten t (hts.subset hmem)
  · intro h
    obtain ⟨r, hr, hvalue, -⟩ := gives_iff.mp (h.gives ⟨.eof, "", Position.start.spanning 0⟩).2
    exact ⟨_, _, _, List.suffix_refl _, r, hr, hvalue⟩

/-- The script of a grouped condition is read back as its tree. -/
theorem IsGrouped.read?_script {e : Condition} (h : e.IsGrouped) (hlexable : e.IsLexable)
    (hplain : e.IsPlain) {x : Expression} (hx : e.expression? = some x) :
    Script.read? e.script = some x := by
  have hmarks : marks? e.script.toList = some (x.marks ++ []) := by
    have hscript := marks?_script hlexable hplain hx breaks_nil
    rwa [List.append_nil, marks?] at hscript
  obtain ⟨hle, htaken⟩ := (h.readsBack hx).takes (n := 4) (Nat.le_trans e.rank_le (by decide))
    (Script.endsAt_nil 4)
  rw [Script.read?, hmarks, Option.bind_eq_bind, Option.bind_some, htaken]
  rfl

/-- **Which scripts are read back as the tree of their condition.**  Let the reader give a condition
whose strings stand for themselves in a script.  Its script is read as the tree of the condition
exactly when comparisons are nested as the script language groups them and no field is the word
`else if`.  Two such conditions never have the same script. -/
theorem script_reads_back_iff {e : Condition} (hgiven : e.IsGiven) (hplain : e.IsPlain) :
    ((∃ x, e.expression? = some x ∧ Script.read? e.script = some x) ↔
      e.IsGrouped ∧ e.HasNames) ∧
    ∀ e' : Condition, e'.IsGiven → e'.IsPlain → e.IsGrouped → e.HasNames → e'.IsGrouped →
      e'.HasNames → e.script = e'.script → e = e' := by
  have hlexable := isGiven_iff.mp hgiven
  refine ⟨⟨?_, ?_⟩, ?_⟩
  · -- the grouped condition with the same script is read back as its own tree
    rintro ⟨x, hx, hread⟩
    have hnames := hasNames_of_expression? hx
    obtain ⟨g, hg, hscript, hleaves⟩ := exists_grouped e
    have hglexable : g.IsLexable := by
      rw [isLexable_iff, hleaves, ← isLexable_iff]
      exact hlexable
    have hgplain : g.IsPlain := by
      unfold IsPlain
      rwa [hleaves]
    have hgnames : g.HasNames := by
      unfold HasNames
      rwa [hleaves]
    obtain ⟨y, hy⟩ := hglexable.exists_expression? hgnames
    have hgread := hg.read?_script hglexable hgplain hy
    rw [hscript, hread] at hgread
    obtain rfl := Option.some.inj hgread
    obtain rfl := eq_of_expression?_eq hx hy
    exact ⟨hg, hnames⟩
  · rintro ⟨hgrouped, hnames⟩
    obtain ⟨x, hx⟩ := hlexable.exists_expression? hnames
    exact ⟨x, hx, hgrouped.read?_script hlexable hplain hx⟩
  · intro e' hgiven' hplain' hgrouped hnames hgrouped' hnames' hscript
    have hlexable' := isGiven_iff.mp hgiven'
    obtain ⟨x, hx⟩ := hlexable.exists_expression? hnames
    obtain ⟨x', hx'⟩ := hlexable'.exists_expression? hnames'
    have hread := hgrouped.read?_script hlexable hplain hx
    rw [hscript, hgrouped'.read?_script hlexable' hplain' hx'] at hread
    obtain rfl := Option.some.inj hread
    exact eq_of_expression?_eq hx hx'

/-- A comparison on the left is read back, and its script is the script of nothing else. -/
theorem script_of_left_comparison :
    let less : Condition := .compare .less (.path ⟨"a", ["b"]⟩) (.literal (.number "-1"))
    let e : Condition := .compare .equal less (.literal (.string "on"))
    e.IsGiven ∧ e.IsPlain ∧ (∃ x, e.expression? = some x ∧ Script.read? e.script = some x) ∧
      less.IsGiven ∧ less.IsPlain ∧ e.script ≠ less.script := by
  intro less e
  have hpath : Path.IsLexable ⟨"a", ["b"]⟩ :=
    ⟨.word ['a'] rfl, List.forall_mem_singleton.mpr ⟨rfl, .word ['b'] rfl⟩⟩
  have hless : less.IsLexable := ⟨hpath, .inr ⟨"1", rfl, .integer ['1'] (by simp) rfl⟩⟩
  have hgiven : e.IsGiven := isGiven_iff.mpr ⟨hless, (by decide : '"' ∉ "on".toList)⟩
  have hplain : e.IsPlain := by
    intro text htext
    simp only [e, less, leaves, List.cons_append, List.nil_append, List.mem_cons,
      literal.injEq, Literal.string.injEq, reduceCtorEq, List.not_mem_nil, or_false, false_or]
      at htext
    subst htext
    decide
  have hplain' : less.IsPlain := by
    intro text htext
    simp [less, leaves] at htext
  have hnames' : less.HasNames := by
    intro p hp
    simp only [less, leaves, List.cons_append, List.nil_append, List.mem_cons, path.injEq,
      reduceCtorEq, List.not_mem_nil, or_false] at hp
    subst hp
    decide
  have hnames : e.HasNames := by
    intro p hp
    refine hnames' p ?_
    simpa [e, leaves] using hp
  have hgrouped' : less.IsGrouped := ⟨by decide, by decide, trivial, trivial⟩
  have hgrouped : e.IsGrouped := ⟨by decide, by decide, hgrouped', trivial⟩
  obtain ⟨hiff, hinjective⟩ := script_reads_back_iff hgiven hplain
  refine ⟨hgiven, hplain, hiff.mpr ⟨hgrouped, hnames⟩, isGiven_iff.mpr hless, hplain', ?_⟩
  intro hscript
  have heq :=
    hinjective less (isGiven_iff.mpr hless) hplain' hgrouped hnames hgrouped' hnames' hscript
  exact absurd heq (by decide)

/-- **A comparison on the right is not read back.**  The conditions `a == (b == c)` and
`(a == b) == c` have one script, and it is read as the second. -/
theorem script_of_right_comparison :
    let name (text : String) : Condition := .path ⟨text, []⟩
    let right : Condition := .compare .equal (name "a") (.compare .equal (name "b") (name "c"))
    let left : Condition := .compare .equal (.compare .equal (name "a") (name "b")) (name "c")
    right.IsGiven ∧ right.IsPlain ∧ left.IsGiven ∧ right ≠ left ∧ right.script = left.script ∧
      Script.read? right.script = left.expression? ∧
      Script.read? right.script ≠ right.expression? := by
  intro name right left
  have hname {c : Char} (hc : isIdentifier [c] = true)
      (hkind : wordKind (String.ofList [c]) = .identifier) :
      Path.IsLexable ⟨String.ofList [c], []⟩ :=
    ⟨hkind ▸ (Spells.word [c] hc).isWritten, by simp⟩
  have ha : (name "a").IsLexable := hname (c := 'a') rfl rfl
  have hb : (name "b").IsLexable := hname (c := 'b') rfl rfl
  have hc : (name "c").IsLexable := hname (c := 'c') rfl rfl
  have hplain : right.IsPlain := by
    intro text htext
    simp [right, name, leaves] at htext
  have hleft : left.IsLexable := ⟨⟨ha, hb⟩, hc⟩
  have hgrouped : left.IsGrouped :=
    ⟨by decide, by decide, ⟨by decide, by decide, trivial, trivial⟩, trivial⟩
  have hne : right ≠ left := by decide
  obtain ⟨x, hx⟩ := hleft.exists_expression? (by
    intro p hp
    simp only [left, name, leaves, List.cons_append, List.nil_append, List.mem_cons, path.injEq,
      List.not_mem_nil, or_false] at hp
    rcases hp with rfl | rfl | rfl <;> simp)
  have hread : Script.read? left.script = some x := hgrouped.read?_script hleft hplain hx
  refine ⟨isGiven_iff.mpr ⟨ha, hb, hc⟩, hplain, isGiven_iff.mpr hleft, hne, rfl,
    hread.trans hx.symm, fun hright => ?_⟩
  exact hne (eq_of_expression?_eq (hright.symm.trans hread) hx)

end Condition

end UiLang
