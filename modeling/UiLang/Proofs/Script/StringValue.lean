import UiLang.Proofs.Script.Expression

/-!
# The values of script strings

A string of the script language is written between two double quotes.  A backslash starts an
escape, which stands for other characters or for none, and hides a quote from being the closing
one; a line feed or a carriage return may stand in a string only after a backslash.  All other
characters stand for themselves.  The value is a row of code units: one for a character of the
first 65536, two for any other.

An escape never stands for more code units than the characters after its backslash have, so a
string with an escape is longer than its value.

## Main definitions

* `Script.codeUnits`, `Script.unitsOf`: the code units of a code point, and of a text
* `Script.escape?`: what the characters after a backslash stand for
* `Script.quoted?`: the value of the string after an opening quote, and the text after it
* `Script.strings?`: all strings of a text

## Main results

* `Script.length_units_le_of_escape?`: an escape is not shorter than what it stands for
* `Script.quoted?_plain_or_shorter`: a string has its own characters for its value, or is longer
* `Script.quoted?_eq_some_iff`: which texts stand for themselves between two quotes
* `Script.strings?_append`, `Script.strings?_quote_eq_some_iff`: the strings of a text, from its
  parts
-/

namespace UiLang.Script

/-! ## Code units and digits -/

/-- The code units of a code point: itself, or the two halves of a pair. -/
def codeUnits (point : Nat) : List Nat :=
  if point < 0x10000 then [point]
  else [0xd800 + (point - 0x10000) / 0x400, 0xdc00 + (point - 0x10000) % 0x400]

/-- The code units of a text. -/
def unitsOf (cs : List Char) : List Nat :=
  cs.flatMap fun c => codeUnits c.toNat

/-- The value of a hexadecimal digit, and 16 for every other character. -/
def digitValue (c : Char) : Nat :=
  if c.isDigit then c.toNat - '0'.toNat
  else if 'a' ≤ c ∧ c ≤ 'f' then c.toNat - 'a'.toNat + 10
  else if 'A' ≤ c ∧ c ≤ 'F' then c.toNat - 'A'.toNat + 10
  else 16

/-- A digit of numbers to a base up to 16. -/
def isDigitOf (base : Nat) (c : Char) : Bool :=
  digitValue c < base

/-- The number that digits are written for. -/
def numberOf (base : Nat) (digits : List Char) : Nat :=
  digits.foldl (fun n c => base * n + digitValue c) 0

/-! ## Escapes -/

/-- What an escape stands for, and how many characters it takes after its backslash. -/
structure Escape where
  units : List Nat
  size : Nat
  deriving DecidableEq, Repr

/-- The line breaks of the script language. -/
def isLineBreak (c : Char) : Bool :=
  c == '\n' || c == '\r' || c == '\u2028' || c == '\u2029'

/-- The code units with a letter of their own: backspace, tab, line feed, vertical tab, form feed
and carriage return. -/
def controlUnit? (c : Char) : Option Nat :=
  [('b', 8), ('t', 9), ('n', 10), ('v', 11), ('f', 12), ('r', 13)].lookup c

/-- One letter and `count` hexadecimal digits: a code unit. -/
def unitEscape? (count : Nat) (cs : List Char) : Option Escape :=
  if (cs.take count).length = count ∧ (cs.take count).all (isDigitOf 16) = true then
    some ⟨[numberOf 16 (cs.take count)], count + 1⟩
  else none

/-- A letter and hexadecimal digits in braces, of which the first brace was read: a code point. -/
def pointEscape? (cs : List Char) : Option Escape :=
  let digits := cs.takeWhile (isDigitOf 16)
  if digits ≠ [] ∧ (cs.drop digits.length).head? = some '\x7d' ∧ numberOf 16 digits ≤ 0x10ffff then
    some ⟨codeUnits (numberOf 16 digits), digits.length + 3⟩
  else none

/-- Up to three octal digits, of a number below 256. -/
def octalEscape (c : Char) (cs : List Char) : Escape :=
  let digits := ((c :: cs).takeWhile (isDigitOf 8)).take (if c ≤ '3' then 3 else 2)
  ⟨[numberOf 8 digits], digits.length⟩

/-- Reads what follows a backslash.  A line break is skipped, and a character without a meaning
of its own stands for itself. -/
def escape? : List Char → Option Escape
  | [] => none
  | c :: cs =>
    if isLineBreak c then some ⟨[], if c = '\r' ∧ cs.head? = some '\n' then 2 else 1⟩
    else if c = 'x' then unitEscape? 2 cs
    else if c = 'u' then
      if cs.head? = some '\x7b' then pointEscape? cs.tail else unitEscape? 4 cs
    else if isDigitOf 8 c then some (octalEscape c cs)
    else some ⟨((controlUnit? c).map fun unit => [unit]).getD (codeUnits c.toNat), 1⟩

/-! ## Strings -/

/-- A string that was read: its value, and the text after its closing quote. -/
structure Quoted where
  value : List Nat
  rest : List Char
  deriving DecidableEq, Repr

/-- Reads the string after an opening quote.  `skip` characters of an escape are left to pass. -/
def quoted? (skip : Nat) : List Char → Option Quoted
  | [] => none
  | c :: cs =>
    if 0 < skip then quoted? (skip - 1) cs
    else if c = '"' then some ⟨[], cs⟩
    else if c = '\\' then
      (escape? cs).bind fun e => (quoted? e.size cs).map fun q => ⟨e.units ++ q.value, q.rest⟩
    else if isPlain c then
      (quoted? 0 cs).map fun q => ⟨codeUnits c.toNat ++ q.value, q.rest⟩
    else none

/-- All strings of a text, each with the text after it.  Outside of strings the text has no comments
and no other quotes.  `skip` characters of a string are left to pass. -/
def strings? (skip : Nat) : List Char → Option (List Quoted)
  | [] => some []
  | c :: cs =>
    if 0 < skip then strings? (skip - 1) cs
    else if c = '"' then
      (quoted? 0 cs).bind fun q => (strings? (cs.length - q.rest.length) cs).map (q :: ·)
    else strings? 0 cs

/-! ## Lengths -/

@[simp] theorem unitsOf_nil : unitsOf [] = [] := rfl

@[simp] theorem unitsOf_cons (c : Char) (cs : List Char) :
    unitsOf (c :: cs) = codeUnits c.toNat ++ unitsOf cs := rfl

@[simp] theorem unitsOf_append (cs ds : List Char) :
    unitsOf (cs ++ ds) = unitsOf cs ++ unitsOf ds :=
  List.flatMap_append

theorem length_codeUnits_pos (point : Nat) : 0 < (codeUnits point).length := by
  unfold codeUnits
  split <;> simp

theorem length_codeUnits_le (point : Nat) : (codeUnits point).length ≤ 2 := by
  unfold codeUnits
  split <;> simp

theorem length_le_length_unitsOf (cs : List Char) : cs.length ≤ (unitsOf cs).length := by
  induction cs with
  | nil => exact Nat.le_refl _
  | cons c cs ih =>
    have hpos := length_codeUnits_pos c.toNat
    simp only [unitsOf_cons, List.length_append, List.length_cons]
    omega

/-! ## Escapes are not shorter than what they stand for -/

section Escapes

variable {cs : List Char} {c : Char} {e : Escape}

/-- Code units that are no more than the characters which they are written with. -/
theorem length_le_of_size (hunits : e.units.length ≤ e.size) (hsize : e.size ≤ cs.length) :
    e.units.length ≤ (unitsOf (cs.take e.size)).length := by
  have hlength := length_le_length_unitsOf (cs.take e.size)
  rw [List.length_take, Nat.min_eq_left hsize] at hlength
  exact Nat.le_trans hunits hlength

theorem size_of_unitEscape? {count : Nat} (h : unitEscape? count cs = some e) :
    e.units.length ≤ e.size ∧ e.size ≤ (c :: cs).length := by
  unfold unitEscape? at h
  split at h
  · rename_i hdigits
    obtain rfl := Option.some.inj h
    have hcount := hdigits.1
    rw [List.length_take] at hcount
    refine ⟨Nat.le_add_left _ _, ?_⟩
    dsimp only [List.length_cons]
    omega
  · cases h

theorem size_of_pointEscape? (hbrace : cs.head? = some '\x7b')
    (h : pointEscape? cs.tail = some e) :
    e.units.length ≤ e.size ∧ e.size ≤ (c :: cs).length := by
  unfold pointEscape? at h
  dsimp only at h
  split at h
  · rename_i hdigits
    obtain rfl := Option.some.inj h
    obtain ⟨cs', rfl⟩ := List.head?_eq_some_iff.mp hbrace
    rw [List.tail_cons] at hdigits ⊢
    -- the closing brace stands after the digits
    have hclosing := List.length_pos_of_mem (List.mem_of_mem_head? hdigits.2.1)
    rw [List.length_drop] at hclosing
    have hunits := length_codeUnits_le (numberOf 16 (cs'.takeWhile (isDigitOf 16)))
    dsimp only [List.length_cons]
    constructor <;> omega
  · cases h

theorem size_of_octalEscape (h : isDigitOf 8 c = true) :
    (octalEscape c cs).units.length ≤ (octalEscape c cs).size ∧
      (octalEscape c cs).size ≤ (c :: cs).length := by
  unfold octalEscape
  rw [List.takeWhile_cons_of_pos h]
  have hrun := (List.takeWhile_sublist (isDigitOf 8) (l := cs)).length_le
  constructor
  · split <;> simp
  · simp only [List.length_take, List.length_cons]
    omega

/-- **An escape is not shorter than what it stands for**, its backslash apart. -/
theorem length_units_le_of_escape? :
    escape? cs = some e → e.units.length ≤ (unitsOf (cs.take e.size)).length := by
  fun_cases escape? cs with
  | case1 => nofun
  | case2 c cs hbreak =>
    intro h
    obtain rfl := Option.some.inj h
    exact Nat.zero_le _
  | case3 cs =>
    intro h
    obtain ⟨hunits, hsize⟩ := size_of_unitEscape? h
    exact length_le_of_size hunits hsize
  | case4 cs hbrace =>
    intro h
    obtain ⟨hunits, hsize⟩ := size_of_pointEscape? hbrace h
    exact length_le_of_size hunits hsize
  | case5 cs hbrace =>
    intro h
    obtain ⟨hunits, hsize⟩ := size_of_unitEscape? h
    exact length_le_of_size hunits hsize
  | case6 c cs hbreak hx hu hdigit =>
    intro h
    obtain rfl := Option.some.inj h
    obtain ⟨hunits, hsize⟩ := size_of_octalEscape hdigit
    exact length_le_of_size hunits hsize
  | case7 c cs hbreak hx hu hdigit =>
    intro h
    obtain rfl := Option.some.inj h
    -- a letter for a code unit, or the character itself with all its code units
    cases controlUnit? c with
    | none => simp
    | some unit => simpa [Nat.succ_le_iff] using length_codeUnits_pos c.toNat

end Escapes

/-! ## Which texts stand for themselves -/

section Strings

variable {skip : Nat} {cs text after : List Char} {c : Char} {q : Quoted}

/-- **A string stands for its own characters, or is longer than its value.** -/
theorem quoted?_plain_or_shorter (h : quoted? skip cs = some q) :
    ∃ body, cs.drop skip = body ++ '"' :: q.rest ∧
      ((body.all isPlain = true ∧ q.value = unitsOf body) ∨
        q.value.length < (unitsOf body).length) := by
  induction cs generalizing skip q with
  | nil => cases h
  | cons c cs ih =>
    unfold quoted? at h
    split at h
    · -- the characters of an escape are passed over
      rename_i hskip
      obtain ⟨more, rfl⟩ := Nat.exists_eq_add_one_of_ne_zero (Nat.ne_of_gt hskip)
      exact ih h
    · rename_i hskip
      obtain rfl : skip = 0 := Nat.eq_zero_of_not_pos hskip
      rw [List.drop_zero]
      split at h
      · rename_i hquote
        obtain rfl := Option.some.inj h
        exact ⟨[], by rw [hquote]; rfl, .inl ⟨rfl, rfl⟩⟩
      · split at h
        · -- the backslash makes the string longer than what its escape stands for
          obtain ⟨e, hescape, hmore⟩ := Option.bind_eq_some_iff.mp h
          obtain ⟨more, hrest, rfl⟩ := Option.map_eq_some_iff.mp hmore
          obtain ⟨body, hbody, hvalue⟩ := ih hrest
          refine ⟨c :: (cs.take e.size ++ body), ?_, .inr ?_⟩
          · calc c :: cs = c :: (cs.take e.size ++ cs.drop e.size) := by rw [List.take_append_drop]
              _ = _ := by rw [hbody]; simp
          · have hunits := length_units_le_of_escape? hescape
            have hpos := length_codeUnits_pos c.toNat
            have hle : more.value.length ≤ (unitsOf body).length := by
              rcases hvalue with ⟨-, heq⟩ | hlt
              · rw [heq]
              · exact Nat.le_of_lt hlt
            simp only [unitsOf_cons, unitsOf_append, List.length_append]
            omega
        · split at h
          · rename_i hplain
            obtain ⟨more, hrest, rfl⟩ := Option.map_eq_some_iff.mp h
            obtain ⟨body, hbody, hvalue⟩ := ih hrest
            refine ⟨c :: body, congrArg (c :: ·) hbody, ?_⟩
            rcases hvalue with ⟨hall, heq⟩ | hlt
            · exact .inl ⟨by rw [List.all_cons, hplain, hall]; rfl, congrArg (_ ++ ·) heq⟩
            · refine .inr ?_
              simp only [unitsOf_cons, List.length_append]
              omega
          · cases h

/-- A plain character other than a quote stands for itself. -/
theorem quoted?_cons_of_isPlain (hplain : isPlain c = true) (hquote : c ≠ '"') :
    quoted? 0 (c :: cs) =
      (quoted? 0 cs).map fun q => ⟨codeUnits c.toNat ++ q.value, q.rest⟩ := by
  have hbackslash : c ≠ '\\' := by
    rintro rfl
    cases hplain
  rw [quoted?, if_neg (Nat.lt_irrefl 0), if_neg hquote, if_neg hbackslash, if_pos hplain]

/-- **Which texts stand for themselves between two quotes**: those whose characters are plain. -/
theorem quoted?_eq_some_iff (hquote : '"' ∉ text) :
    quoted? 0 (text ++ '"' :: after) = some ⟨unitsOf text, after⟩ ↔ text.all isPlain = true := by
  constructor
  · intro h
    obtain ⟨body, hbody, hvalue⟩ := quoted?_plain_or_shorter h
    -- the string ends at its own closing quote
    obtain rfl : text = body := List.append_cancel_right hbody
    rcases hvalue with ⟨hplain, -⟩ | hlt
    · exact hplain
    · exact absurd hlt (Nat.lt_irrefl _)
  · intro hplain
    induction text with
    | nil => rfl
    | cons c text ih =>
      obtain ⟨hne, hmore⟩ := not_or.mp (List.mem_cons.not.mp hquote)
      obtain ⟨hc, hall⟩ := Bool.and_eq_true_iff.mp hplain
      rw [List.cons_append, quoted?_cons_of_isPlain hc (Ne.symm hne), ih hmore hall]
      rfl

-- Digits, a line break and a hidden quote; the value is `A`, a quote and a pair.
example : quoted? 0 ['\\', 'x', '4', '1', '\\', '\n', '\\', '"', '\\', 'u', '\x7b', '1', 'f', '6',
    '0', '0', '\x7d', '"', ';'] = some ⟨[0x41, 0x22, 0xd83d, 0xde00], [';']⟩ := by decide

/-! ## All strings of a text -/

theorem strings?_drop (skip : Nat) (cs : List Char) :
    strings? skip cs = strings? 0 (cs.drop skip) := by
  induction cs generalizing skip with
  | nil => rw [List.drop_nil]; rfl
  | cons c cs ih =>
    cases skip with
    | zero => rfl
    | succ skip => rw [strings?, if_pos (Nat.succ_pos skip), ih]; rfl

/-- Text without quotes has no strings. -/
theorem strings?_append {outside : List Char} (h : '"' ∉ outside) (cs : List Char) :
    strings? 0 (outside ++ cs) = strings? 0 cs := by
  induction outside with
  | nil => rfl
  | cons c outside ih =>
    obtain ⟨hne, hmore⟩ := not_or.mp (List.mem_cons.not.mp h)
    rw [List.cons_append, strings?, if_neg (Nat.lt_irrefl 0), if_neg (Ne.symm hne), ih hmore]

/-- A string is read at its opening quote, and the others after its closing quote. -/
theorem strings?_quote (cs : List Char) :
    strings? 0 ('"' :: cs) = (quoted? 0 cs).bind fun q => (strings? 0 q.rest).map (q :: ·) := by
  rw [strings?, if_neg (Nat.lt_irrefl 0), if_pos rfl]
  refine Option.bind_congr fun q hq => ?_
  obtain ⟨body, hbody, -⟩ := quoted?_plain_or_shorter hq
  have hcs : cs = (body ++ ['"']) ++ q.rest := by
    rw [← List.append_cons]
    exact hbody
  have hrest : cs.drop (cs.length - q.rest.length) = q.rest := by
    rw [hcs, List.length_append, Nat.add_sub_cancel, List.drop_left]
  rw [strings?_drop, hrest]

theorem strings?_quote_eq_some_iff {qs : List Quoted} :
    strings? 0 ('"' :: cs) = some (q :: qs) ↔
      quoted? 0 cs = some q ∧ strings? 0 q.rest = some qs := by
  rw [strings?_quote, Option.bind_eq_some_iff]
  constructor
  · rintro ⟨q', hq', hqs⟩
    obtain ⟨qs', hrest, heq⟩ := Option.map_eq_some_iff.mp hqs
    obtain ⟨rfl, rfl⟩ := List.cons.inj heq
    exact ⟨hq', hrest⟩
  · rintro ⟨hq, hqs⟩
    exact ⟨q, hq, by rw [hqs]; rfl⟩

end Strings

end UiLang.Script
