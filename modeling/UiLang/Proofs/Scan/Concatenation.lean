import UiLang.Proofs.Relocation
import UiLang.Proofs.Scan.Account

/-!
# Scanning two texts with a line feed between them

No form goes over a line feed except a string in quotes.  So unless the first text ends in a string
without its closing quote, scanning the whole gives the tokens of the first text, the newline, and
the tokens of the second text some lines below.

## Main definitions

* `IsLineEnd`: line feeds and carriage returns
* `Scan.append`: two scans with a newline between them
* `Scan.relocate`: a scan with every location mapped

## Main results

* `first?_append`: the end of a line does not change the token before it
* `scanFrom_moved`: a text that starts at another place has its tokens there
* `scanFrom_append`, `scanFrom_down`, `scan_append`
-/

namespace UiLang

/-! ## The end of a line does not change the token before it -/

section LineEnd

theorem takeWhile_append_cons {α : Type} {p : α → Bool} {x : α} (hx : p x = false)
    (front rest : List α) : (front ++ x :: rest).takeWhile p = front.takeWhile p := by
  induction front with
  | nil => rw [List.nil_append, List.takeWhile_cons, hx, List.takeWhile_nil, if_neg (by simp)]
  | cons a front ih => rw [List.cons_append, List.takeWhile_cons, List.takeWhile_cons, ih]

theorem dropWhile_append_cons {α : Type} {p : α → Bool} {x : α} (hx : p x = false)
    (front rest : List α) :
    (front ++ x :: rest).dropWhile p = front.dropWhile p ++ x :: rest := by
  induction front with
  | nil =>
    rw [List.nil_append, List.dropWhile_cons, hx, List.dropWhile_nil, if_neg (by simp)]
    rfl
  | cons a front ih =>
    rw [List.cons_append, List.dropWhile_cons, List.dropWhile_cons, ih]
    split <;> rfl

/-- A fraction ends before a character that is neither a digit nor a point. -/
theorem fraction_append {x : Char} (hdigit : x.isDigit = false) (hpoint : x ≠ '.')
    (rest more : List Char) : fraction (rest ++ x :: more) = fraction rest := by
  rcases rest with _ | ⟨c, _ | ⟨d, rest⟩⟩
  · simp [fraction, hpoint]
  · by_cases hc : c = '.'
    · simp [fraction, hc, hdigit]
    · simp [fraction, hc]
  · by_cases hc : c = '.'
    · simp [fraction, hc, takeWhile_append_cons hdigit]
    · simp [fraction, hc]

/-- A character that ends lines: a line feed, or the carriage return before one. -/
def IsLineEnd (x : Char) : Prop :=
  x = '\n' ∨ x = '\r'

variable {x : Char} (hx : IsLineEnd x) (c : Char) (rest more : List Char)
include hx

theorem symbol?_append : Lexeme.symbol? c (rest ++ x :: more) = Lexeme.symbol? c rest := by
  obtain rfl | rfl := hx
  all_goals
    unfold Lexeme.symbol?
    cases rest <;> split <;> simp_all

theorem decimalPart_append : decimalPart (rest ++ x :: more) = decimalPart rest := by
  have hdigit : x.isDigit = false := by obtain rfl | rfl := hx <;> rfl
  have hpoint : x ≠ '.' := by obtain rfl | rfl := hx <;> decide
  unfold decimalPart
  rw [takeWhile_append_cons hdigit, dropWhile_append_cons hdigit, fraction_append hdigit hpoint]

theorem elseIfTail?_append : elseIfTail? (rest ++ x :: more) = elseIfTail? rest := by
  have hblank : isElseBlank x = false := by obtain rfl | rfl := hx <;> rfl
  have hword : isIdentifierChar x = false := by obtain rfl | rfl := hx <;> rfl
  have hi : x ≠ 'i' := by obtain rfl | rfl := hx <;> decide
  have hf : x ≠ 'f' := by obtain rfl | rfl := hx <;> decide
  unfold elseIfTail?
  rw [dropWhile_append_cons hblank, takeWhile_append_cons hblank]
  rcases rest.dropWhile isElseBlank with _ | ⟨c, _ | ⟨d, after⟩⟩
  · simp [hi]
  · simp [hf]
  · by_cases hword : c = 'i' ∧ d = 'f'
    · obtain ⟨rfl, rfl⟩ := hword
      cases after <;> simp_all
    · simp at hword
      simp_all

theorem word_append (letters : List Char) :
    Lexeme.word c letters (rest ++ x :: more) = Lexeme.word c letters rest := by
  simp only [Lexeme.word, elseIfTail?_append hx]

/-- The end of a line does not change the token before it, and neither does what follows, unless
that token is a string that is still open. -/
theorem first?_append (h : c = '"' → '"' ∈ rest) :
    Lexeme.first? c (rest ++ x :: more) = Lexeme.first? c rest := by
  have hword : isIdentifierChar x = false := by obtain rfl | rfl := hx <;> rfl
  rw [first?_eq, first?_eq, decimalPart_append hx, takeWhile_append_cons hword,
    dropWhile_append_cons hword, word_append hx, symbol?_append hx]
  by_cases hquote : c = '"'
  · rcases quote_notMem_or_exists_append rest with hnot | ⟨inner, after, rfl, hinner⟩
    · exact absurd (h hquote) hnot
    · rw [List.append_assoc, List.cons_append, quoted?_append inner _ hinner,
        quoted?_append inner _ hinner]
  · rw [if_neg hquote, if_neg hquote]

end LineEnd

/-! ## Scans one after another -/

namespace Scan

/-- Two scans with a newline between them. -/
def append (first : Scan) (newline : Token) (second : Scan) : Scan :=
  ⟨⟨first.stream.tokens ++ newline :: second.stream.tokens, second.stream.stop⟩,
    first.faults ++ second.faults⟩

/-- A scan with every location mapped. -/
def relocate (f : Location → Location) (s : Scan) : Scan :=
  ⟨⟨s.stream.tokens.map (Token.relocate f), s.stream.stop.relocate f⟩,
    s.faults.map (Diagnostic.relocate f)⟩

end Scan

/-- Scanning goes over a line feed unless a string is still open there.  The induction follows the
scan of the first text. -/
theorem scanFrom_append (pos : Position) (first second : List Char)
    (h : ∀ d ∈ (scanFrom pos first).faults, d.fault ≠ .unterminatedString) :
    scanFrom pos (first ++ '\n' :: second) =
      (scanFrom pos first).append ⟨.newline, "\n", (pos.advance first).spanning 1⟩
        (scanFrom ((pos.advance first).next '\n') second) := by
  fun_induction scanFrom pos first with
  | case1 pos =>
    rw [List.nil_append, scanFrom]
    rfl
  | case2 pos c rest hgap ih =>
    rw [List.cons_append, scanFrom, if_pos hgap, ih h]
    rfl
  | case3 pos c rest hgap found hfound ih =>
    -- a string that was found is closed, so its end is before the line feed
    have hclosed : c = '"' → '"' ∈ rest := by
      rintro rfl
      by_contra hnot
      simp [Lexeme.first?, quoted?_eq_none_iff.mpr hnot] at hfound
    obtain ⟨lexeme, after, heq, hlen, -⟩ := isLongest_of_first? hfound
    rw [List.cons_append, scanFrom, if_neg hgap, first?_append (.inl rfl) c rest second hclosed,
      hfound]
    specialize ih h
    simp only [← List.cons_append, heq, List.append_assoc, ← hlen, List.take_left,
      List.drop_left, Position.advance_append] at ih ⊢
    rw [ih]
    rfl
  | case4 pos rest hgap hfound =>
    -- an open string is a fault, which the hypothesis rules out
    exact absurd rfl (h ⟨.unterminatedString, pos.spanning (rest.length + 1)⟩ List.mem_cons_self)
  | case5 pos c rest hgap hfound hquote ih =>
    have hrest : ∀ d ∈ (scanFrom (pos.next c) rest).faults, d.fault ≠ .unterminatedString :=
      fun d hd => h d (List.mem_cons_of_mem _ hd)
    rw [List.cons_append, scanFrom, if_neg hgap,
      first?_append (.inl rfl) c rest second fun hc => absurd hc hquote, hfound, ih hrest]
    simp only [if_neg hquote]
    rfl

/-! ## Scans at another place -/

section Moved

variable {step : Position → Position} {place : Location → Location} {reached : Position → Prop}
  (hreached : ∀ pos c, reached pos → reached (pos.next c))
  (hstep : ∀ pos c, reached pos → step (pos.next c) = (step pos).next c)
include hreached hstep

theorem advance_moved {pos : Position} (h : reached pos) (cs : List Char) :
    (step pos).advance cs = step (pos.advance cs) ∧ reached (pos.advance cs) := by
  induction cs generalizing pos with
  | nil => exact ⟨rfl, h⟩
  | cons c cs ih =>
    rw [Position.advance_cons, ← hstep pos c h, Position.advance_cons]
    exact ih (hreached pos c h)

/-- A text that starts at another place has its tokens and faults there, if walking over a character
leads from each place to the other one of the next. -/
theorem scanFrom_moved (hplace : ∀ pos length,
      place (Position.spanning pos length) = (step pos).spanning length)
    {pos : Position} (h : reached pos) (cs : List Char) :
    scanFrom (step pos) cs = (scanFrom pos cs).relocate place := by
  -- the cases of the scanner: the end, a gap, a lexeme, an open string, a stray character
  fun_induction scanFrom pos cs with
  | case1 pos =>
    rw [scanFrom, Scan.finish, ← hplace]
    rfl
  | case2 pos c rest hgap ih =>
    rw [scanFrom, if_pos hgap, ← hstep pos c h, ih (hreached pos c h)]
  | case3 pos c rest hgap found hfound ih =>
    obtain ⟨hadvance, hlater⟩ := advance_moved hreached hstep h ((c :: rest).take found.width)
    rw [scanFrom, if_neg hgap, hfound]
    dsimp only
    rw [hadvance, ih hlater, ← hplace]
    rfl
  | case4 pos rest hgap hfound =>
    rw [scanFrom, if_neg hgap, hfound]
    dsimp only
    rw [if_pos rfl]
    unfold Scan.unterminated
    dsimp only
    rw [(advance_moved hreached hstep h _).1, Scan.finish, ← hplace, ← hplace]
    rfl
  | case5 pos c rest hgap hfound hquote ih =>
    rw [scanFrom, if_neg hgap, hfound]
    dsimp only
    rw [if_neg hquote, ← hstep pos c h, ih (hreached pos c h), ← hplace]
    rfl

end Moved

/-! ## Scans further down -/

section Down

variable (n : Nat)

theorem next_down (pos : Position) (c : Char) : (pos.down n).next c = (pos.next c).down n := by
  unfold Position.next
  split
  · exact congrArg (Position.mk · 1) (Nat.add_right_comm _ _ _)
  · rfl

/-- Some lines below, the same text has the same tokens and faults some lines below. -/
theorem scanFrom_down (pos : Position) (cs : List Char) :
    scanFrom (pos.down n) cs = (scanFrom pos cs).relocate (.down n) :=
  @scanFrom_moved (Position.down n) (Location.down n) (fun _ => True) (fun _ _ _ => trivial)
    (fun pos c _ => (next_down n pos c).symm) (fun _ _ => rfl) pos trivial cs

end Down

/-- The second of two texts with a line feed between them is scanned as many lines further down as
the first one has line feeds, and one more. -/
theorem scan_append (first second : String)
    (h : ∀ d ∈ (scan first).faults, d.fault ≠ .unterminatedString) :
    scan (first ++ "\n" ++ second) =
      (scan first).append ⟨.newline, "\n", spanAfter first.toList 1⟩
        ((scan second).relocate (.down (first.toList.count '\n' + 1))) := by
  have htext : (first ++ "\n" ++ second).toList = first.toList ++ '\n' :: second.toList := by
    simp
  have hpos : (Position.start.advance first.toList).next '\n' =
      Position.start.down (first.toList.count '\n' + 1) := by
    rw [start_advance, Position.next, if_pos rfl]
    exact congrArg (Position.mk · 1) (by simp only [Position.start]; omega)
  unfold scan
  rw [htext, scanFrom_append Position.start _ _ h, hpos, scanFrom_down, spanning_advance]

end UiLang
