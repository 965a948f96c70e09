import Mathlib.Data.List.DropRight
import Mathlib.Data.List.GetD
import UiLang.Diagnostic.Report
import UiLang.Proofs.Source.Faults
import UiLang.Proofs.Source.Locations

/-!
# Reports point at the fault

A fault of a source is located after some front of it: where a token starts, at a character that
starts none, or at the end.  So its line is one of the lines of the source.  A report shows this
line with up to two lines before it and after it, each with its number, and a row of tildes under
the fault, which goes no further than the line does.

The window is clipped at both ends of the source, the numbers are flush right in a gutter as wide as
the last of them, and a fault without characters, or at the end of its line, still has one tilde.

## Main definitions

* `firstShown`, `lastShown`: the numbers of the lines that a report shows
* `numberedRow`, `tildeRow`: the rows of a report
* `pointedRows`: all lines shown, with the row of tildes among them

## Main results

* `exists_front_of_mem_faults`: faults are located after a front of their source
* `Window.lines_eq`: the lines of a window by their numbers
* `Report.allRows_eq`: the rows of a report on a line of its source
* `render_points_at_fault`: reports of all faults of a source
-/

namespace UiLang

/-! ## Lines of a text -/

theorem splitOn_eq_lines (cs : List Char) : cs.splitOn '\n' = Text.lines cs := by
  unfold List.splitOn Text.lines
  induction cs with
  | nil => rfl
  | cons c cs ih =>
    rw [List.splitOnP_cons_eq_if_modifyHead, splitWhen, ih]
    split
    · rfl
    · cases hlines : splitWhen (· == '\n') cs with
      | nil => exact absurd hlines (splitWhen_ne_nil _ cs)
      | cons line lines => rfl

/-- A text has one line more than it has line feeds. -/
theorem length_lines (cs : List Char) : (Text.lines cs).length = 1 + cs.count '\n' := by
  induction cs with
  | nil => rfl
  | cons c cs ih =>
    unfold Text.lines at ih ⊢
    rw [splitWhen]
    by_cases hc : c = '\n'
    · subst hc
      rw [if_pos (by simp), List.length_cons, ih, List.count_cons_self]
      omega
    · rw [if_neg (by simpa using hc), List.count_cons_of_ne (by simpa using hc), ← ih]
      cases hlines : splitWhen (· == '\n') cs with
      | nil => exact absurd hlines (splitWhen_ne_nil _ cs)
      | cons line lines => rfl

/-! ## Where faults are found -/

theorem Account.front_of_mem_faults {before text source : List Char} {tokens : List Token}
    {faults : List Diagnostic} {stop : Token} (h : Account before text tokens faults stop)
    (hsource : before ++ text = source) {d : Diagnostic} (hd : d ∈ faults) :
    ∃ front length, front <+: source ∧ d.location = spanAfter front length := by
  induction h with
  | done => cases hd
  | token before gap lexeme after isGapRun longest nonempty rest ih =>
    exact ih (by simpa using hsource) hd
  | stray before gap c after isGapRun not_gap not_quote no_form rest ih =>
    rcases List.mem_cons.mp hd with rfl | hd
    · exact ⟨before ++ gap, 1, ⟨[c] ++ after, by simpa using hsource⟩, rfl⟩
    · exact ih (by simpa using hsource) hd
  | unterminated before gap inner isGapRun unclosed =>
    obtain rfl := List.mem_singleton.mp hd
    exact ⟨before ++ gap, _, ⟨'"' :: inner, by simpa using hsource⟩, rfl⟩

/-- **Faults are located after a front of their source**, the ones found while scanning as well as
those found while reading. -/
theorem exists_front_of_mem_faults {source : String} {d : Diagnostic}
    (hd : d ∈ (parseSource source).faults) :
    ∃ front length, front <+: source.toList ∧ d.location = spanAfter front length := by
  rcases List.mem_append.mp hd with hlexical | hsyntax
  · exact (account_scanFrom [] source.toList).front_of_mem_faults rfl hlexical
  · -- a reader fails at a token of the source or at its end marker
    have hknown : Known (fun token => ∃ front length, front <+: source.toList ∧
        token.location = spanAfter front length) (scan source).stream.stop
        (scan source).stream.tokens := by
      constructor
      · exact ⟨source.toList, 0, List.prefix_rfl, by rw [scan_stop]⟩
      · intro token htoken
        obtain ⟨before, lexeme, after, hsource, -, hlocation⟩ := exists_of_mem_scan htoken
        exact ⟨before, lexeme.length, ⟨lexeme ++ after, hsource.symm⟩, hlocation⟩
    obtain ⟨fault, token, ⟨front, length, hfront, hlocation⟩, rfl⟩ :=
      readItemList_blames hknown d hsyntax
    exact ⟨front, length, hfront, hlocation⟩

theorem line_le_length_lines {front source : List Char} (h : front <+: source) (length : Nat) :
    (spanAfter front length).line ≤ (Text.lines source).length := by
  rw [length_lines]
  exact Nat.add_le_add_left (h.sublist.count_le '\n') 1

/-! ## Rows -/

/-- The number of the first line that a report on a line shows. -/
def firstShown (line : Nat) : Nat :=
  max 1 (line - 2)

/-- The number of the last line that a report on a line shows, in a source of `count` lines. -/
def lastShown (count line : Nat) : Nat :=
  min count (line + 2)

/-- The row of a line: its number flush right, a bar, and the line without its trailing blanks. -/
def numberedRow (width : Nat) (lines : List (List Char)) (number : Nat) : List Char :=
  (Nat.toDigits 10 number).leftpad width ' ' ++ [' ', '|', ' '] ++
    (lines.getD (number - 1) []).rdropWhile Text.isBlank

/-- The row of tildes under a location.  It ends where its line ends, and has at least one tilde. -/
def tildeRow (width : Nat) (lines : List (List Char)) (loc : Location) : List Char :=
  List.replicate (width + 3 + (loc.column - 1)) ' ' ++
    List.replicate (max 1 (min loc.length
      (((lines.getD (loc.line - 1) []).rdropWhile (· == '\r')).length - (loc.column - 1)))) '~'

/-- The rows of all lines shown, with the row of tildes after the line of the location. -/
def pointedRows (width : Nat) (lines : List (List Char)) (loc : Location) : List (List Char) :=
  (List.range' (firstShown loc.line) (loc.line + 1 - firstShown loc.line)).map
      (numberedRow width lines) ++
    tildeRow width lines loc ::
    (List.range' (loc.line + 1) (lastShown lines.length loc.line - loc.line)).map
      (numberedRow width lines)

-- a string that is never closed is longer than its line, which ends before the carriage return
example : pointedRows 1 [['a', ' ', '"', 'x', '\r'], ['y']] ⟨⟨1, 3⟩, 5⟩ =
    ["1 | a \"x".toList, "      ~~".toList, "2 | y".toList] := by
  decide

/-- A line of a source by its number, without its trailing carriage returns. -/
def shownLine (lines : List (List Char)) (number : Nat) : NumberedLine :=
  ⟨number, (lines.getD (number - 1) []).rdropWhile (· == '\r')⟩

theorem numberLines_eq (n : Nat) (lines : List (List Char)) :
    numberLines n lines =
      (List.range' n lines.length).map fun k => ⟨k, lines.getD (k - n) []⟩ := by
  induction lines generalizing n with
  | nil => rfl
  | cons line lines ih =>
    rw [numberLines, ih, List.length_cons, List.range'_succ, List.map_cons]
    congr 1
    · simp
    · refine List.map_congr_left fun k hk => ?_
      have hle := (List.mem_range'_1.mp hk).1
      rw [show k - n = k - (n + 1) + 1 by omega, List.getD_cons_succ]

theorem range'_split {s m n : Nat} (hsm : s ≤ m) (hmn : m ≤ n) :
    List.range' s (n - s) = List.range' s (m - s) ++ List.range' m (n - m) := by
  have happend := List.range'_append_1 (s := s) (m := m - s) (n := n - m)
  rwa [Nat.add_sub_cancel' hsm, show m - s + (n - m) = n - s by omega, eq_comm] at happend

/-- The numbers of a range that lie between two others. -/
theorem filter_range'_between {count first last : Nat} (hfirst : 1 ≤ first) (hle : first ≤ last)
    (hcount : first ≤ count) :
    (List.range' 1 count).filter (fun k => first ≤ k && k ≤ last) =
      List.range' first (min count last + 1 - first) := by
  have hsplit : List.range' 1 (count + 1 - 1) = List.range' 1 (first - 1) ++
      (List.range' first (min count last + 1 - first) ++
        List.range' (min count last + 1) (count + 1 - (min count last + 1))) := by
    rw [range'_split hfirst (by omega), range'_split (s := first) (m := min count last + 1)
      (by omega) (by omega)]
  rw [Nat.add_sub_cancel] at hsplit
  rw [hsplit, List.filter_append, List.filter_append, List.filter_eq_nil_iff.mpr,
    List.filter_eq_self.mpr, List.filter_eq_nil_iff.mpr, List.nil_append, List.append_nil]
  all_goals
    intro k hk
    have hbounds := List.mem_range'_1.mp hk
    simp only [Bool.and_eq_true, decide_eq_true_eq]
    omega

/-- **The lines of a window by their numbers**, if the line that it is around is one of the
source. -/
theorem Window.lines_eq {source : List Char} {line : Nat} (hpos : 1 ≤ line)
    (hline : line ≤ (Text.lines source).length) :
    ({} : Window).lines source line =
      (List.range' (firstShown line)
        (lastShown (Text.lines source).length line + 1 - firstShown line)).map
          (shownLine (Text.lines source)) := by
  have hfirst : max (line - 2) 1 = firstShown line := max_comm _ _
  have hfilter : (List.range' 1 (Text.lines source).length).filter
      (fun k => firstShown line ≤ k && k ≤ line + 2) =
      List.range' (firstShown line)
        (lastShown (Text.lines source).length line + 1 - firstShown line) := by
    unfold firstShown lastShown
    exact filter_range'_between (by omega) (by omega) (by omega)
  unfold Window.lines
  rw [numberLines_eq, List.filter_map, List.length_map]
  dsimp only [Function.comp_def]
  rw [hfirst, hfilter]
  refine List.map_congr_left fun k _ => ?_
  exact congrArg (NumberedLine.mk k) (List.getD_map _ [] (Text.dropWhileRight (· == '\r')))

/-! ## The gutter -/

theorem length_toDigits_mono {m n : Nat} (h : m ≤ n) :
    (Nat.toDigits 10 m).length ≤ (Nat.toDigits 10 n).length := by
  have hpos : 0 < (Nat.toDigits 10 n).length := List.length_pos_iff.mpr Nat.toDigits_ne_nil
  rw [Nat.length_toDigits_le_iff (by decide) hpos]
  exact Nat.lt_of_le_of_lt h ((Nat.length_toDigits_le_iff (by decide) hpos).mp (Nat.le_refl _))

theorem foldl_max_eq {widths : List Nat} {start width : Nat} (hstart : start ≤ width)
    (hle : ∀ w ∈ widths, w ≤ width) (hmem : start = width ∨ width ∈ widths) :
    widths.foldl max start = width := by
  induction widths generalizing start with
  | nil => simpa using hmem
  | cons w widths ih =>
    obtain ⟨hw, hrest⟩ := List.forall_mem_cons.mp hle
    refine ih (max_le hstart hw) hrest ?_
    rcases hmem with rfl | hmem
    · exact .inl (max_eq_left hw)
    · rcases List.mem_cons.mp hmem with rfl | hmem
      · exact .inl (max_eq_right hstart)
      · exact .inr hmem

/-- The gutter is as wide as the last number in it. -/
theorem Report.gutterWidth_eq {first last : Nat} (h : first ≤ last) (lines : List (List Char)) :
    Report.gutterWidth ((List.range' first (last + 1 - first)).map (shownLine lines)) =
      (Nat.toDigits 10 last).length := by
  unfold Report.gutterWidth
  rw [List.map_map]
  refine foldl_max_eq (List.length_pos_iff.mpr Nat.toDigits_ne_nil) ?_ (.inr ?_)
  · intro w hw
    obtain ⟨k, hk, rfl⟩ := List.mem_map.mp hw
    have hbounds := List.mem_range'_1.mp hk
    have hk : k ≤ last := by omega
    exact length_toDigits_mono hk
  · exact List.mem_map.mpr ⟨last, List.mem_range'_1.mpr (by omega), rfl⟩

/-! ## Reports -/

/-- Trailing blanks go with the carriage returns among them. -/
theorem dropBlanksRight_rdropWhile (line : List Char) :
    Text.dropBlanksRight (line.rdropWhile (· == '\r')) = line.rdropWhile Text.isBlank := by
  have hdrop (cs : List Char) :
      (cs.dropWhile (· == '\r')).dropWhile Text.isBlank = cs.dropWhile Text.isBlank := by
    induction cs with
    | nil => rfl
    | cons c cs ih =>
      by_cases hc : c = '\r'
      · subst hc
        rw [List.dropWhile_cons_of_pos (by rfl), ih, List.dropWhile_cons_of_pos (by decide)]
      · rw [List.dropWhile_cons_of_neg (by simpa using hc)]
  rw [Text.dropBlanksRight, Text.dropWhileRight, List.rdropWhile, List.rdropWhile,
    List.reverse_reverse, hdrop]

section Rows

variable {loc : Location} {width : Nat} {lines : List (List Char)}

theorem Report.rows_of_ne {number : Nat} (h : number ≠ loc.line) :
    Report.rows width loc (shownLine lines number) = [numberedRow width lines number] := by
  unfold Report.rows shownLine
  rw [if_neg h, dropBlanksRight_rdropWhile]
  rfl

theorem Report.rows_self :
    Report.rows width loc (shownLine lines loc.line) =
      [numberedRow width lines loc.line, tildeRow width lines loc] := by
  unfold Report.rows shownLine
  rw [if_pos rfl, dropBlanksRight_rdropWhile, Report.underline, List.replicate_append_replicate,
    Report.underlineLength, max_comm]
  rfl

/-- A line that is not the one of the location has one row. -/
theorem Report.flatMap_rows_of_ne {numbers : List Nat} (h : ∀ k ∈ numbers, k ≠ loc.line) :
    (numbers.map (shownLine lines)).flatMap (Report.rows width loc) =
      numbers.map (numberedRow width lines) := by
  rw [List.flatMap_map, List.map_eq_flatMap]
  exact List.flatMap_congr fun k hk => Report.rows_of_ne (h k hk)

/-- The rows of all lines shown: those before the line of the location, its own with the tildes, and
those after it. -/
theorem Report.flatMap_rows (hpos : 1 ≤ loc.line) (hline : loc.line ≤ lines.length) :
    ((List.range' (firstShown loc.line)
        (lastShown lines.length loc.line + 1 - firstShown loc.line)).map (shownLine lines)).flatMap
      (Report.rows width loc) = pointedRows width lines loc := by
  have hfirst : firstShown loc.line ≤ loc.line := by
    unfold firstShown
    omega
  have hlast : loc.line + 1 ≤ lastShown lines.length loc.line + 1 := by
    unfold lastShown
    omega
  have hbefore : ∀ k ∈ List.range' (firstShown loc.line) (loc.line - firstShown loc.line),
      k ≠ loc.line := by
    intro k hk
    have hbounds := List.mem_range'_1.mp hk
    omega
  have hafter : ∀ k ∈ List.range' (loc.line + 1) (lastShown lines.length loc.line - loc.line),
      k ≠ loc.line := by
    intro k hk
    have hbounds := List.mem_range'_1.mp hk
    omega
  have hself : List.range' loc.line (loc.line + 1 - loc.line) = [loc.line] := by
    rw [Nat.add_sub_cancel_left]
    rfl
  -- the lines shown are cut in front of the line of the location and behind it
  unfold pointedRows
  rw [range'_split (Nat.le_succ_of_le hfirst) hlast, range'_split hfirst (Nat.le_succ _), hself,
    Nat.succ_eq_add_one, Nat.add_sub_add_right, List.map_append, List.map_append,
    List.flatMap_append, List.flatMap_append, flatMap_rows_of_ne hbefore,
    flatMap_rows_of_ne hafter, List.map_singleton, List.flatMap_singleton, Report.rows_self,
    List.map_append]
  simp

end Rows

/-- **The rows of a report** on a line of its source. -/
theorem Report.allRows_eq {source : List Char} {report : Report} (origin : String)
    (severity : Severity) (hpos : 1 ≤ report.location.line)
    (hline : report.location.line ≤ (Text.lines source).length) :
    allRows source origin severity report =
      [(severity.name ++ ": " ++ report.message).toList,
        ("  -> " ++ origin ++ ":" ++ report.location.text).toList] ++
      pointedRows (Nat.toDigits 10
        (lastShown (Text.lines source).length report.location.line)).length
        (Text.lines source) report.location ++
      report.suggestion.toList.map fun suggestion => ("  help: " ++ suggestion).toList := by
  have hshown : firstShown report.location.line ≤
      lastShown (Text.lines source).length report.location.line := by
    unfold firstShown lastShown
    omega
  unfold allRows
  dsimp only
  rw [Window.lines_eq hpos hline, gutterWidth_eq hshown, flatMap_rows hpos hline]
  cases report.suggestion <;> rfl

/-- **Reports point at the fault.**  Whatever the source, the line of a fault is one of its lines,
and the report on it shows exactly the lines from two before it to two after it that are there, in
order: each with its number flush right in a gutter that all of them fit in, and without its
trailing blanks.  One row of tildes stands among them, right after the line of the fault: it starts
under the column of the fault, and ends with it or with its line. -/
theorem render_points_at_fault (source origin : String) (severity : Severity) {d : Diagnostic}
    (hd : d ∈ (parseSource source).faults) :
    1 ≤ d.location.line ∧ d.location.line ≤ (source.toList.splitOn '\n').length ∧
    1 ≤ d.location.column ∧
    ∃ width,
      (∀ number, firstShown d.location.line ≤ number →
        number ≤ lastShown (source.toList.splitOn '\n').length d.location.line →
        (Nat.toDigits 10 number).length ≤ width) ∧
      d.report.render source origin severity = String.ofList
        (([(severity.name ++ ": " ++ d.fault.message).toList,
            ("  -> " ++ origin ++ ":" ++ d.location.text).toList] ++
          pointedRows width (source.toList.splitOn '\n') d.location ++
          d.fault.suggestion.toList.map fun suggestion => ("  help: " ++ suggestion).toList).flatMap
            (· ++ ['\n'])) := by
  obtain ⟨front, length, hfront, hlocation⟩ := exists_front_of_mem_faults hd
  have hpos : 1 ≤ d.location.line := by
    rw [hlocation]
    exact Nat.le_add_right 1 _
  have hline : d.location.line ≤ (Text.lines source.toList).length := by
    rw [hlocation]
    exact line_le_length_lines hfront length
  rw [splitOn_eq_lines]
  refine ⟨hpos, hline, ?_, (Nat.toDigits 10
    (lastShown (Text.lines source.toList).length d.location.line)).length, ?_, ?_⟩
  · rw [hlocation]
    exact Nat.le_add_right 1 _
  · intro number _ hnumber
    exact length_toDigits_mono hnumber
  · rw [Report.render, Report.allRows_eq origin severity hpos hline]
    rfl

/-- A string that is never closed, in a source of two lines. -/
theorem render_points_at_open_string :
    ∃ d ∈ (parseSource "a \"x\r\ny").faults, d.location = ⟨⟨1, 3⟩, 5⟩ ∧
      ∃ width, d.report.render "a \"x\r\ny" "f" .error = String.ofList
        (([("error" ++ ": " ++ d.fault.message).toList,
            ("  -> " ++ "f" ++ ":" ++ d.location.text).toList] ++
          pointedRows width ("a \"x\r\ny".toList.splitOn '\n') d.location ++
          d.fault.suggestion.toList.map fun suggestion => ("  help: " ++ suggestion).toList).flatMap
            (· ++ ['\n'])) := by
  have hmem : (⟨.unterminatedString, ⟨⟨1, 3⟩, 5⟩⟩ : Diagnostic) ∈
      (parseSource "a \"x\r\ny").faults := by
    decide +kernel
  obtain ⟨-, -, -, width, -, hrender⟩ := render_points_at_fault "a \"x\r\ny" "f" .error hmem
  exact ⟨_, hmem, rfl, width, hrender⟩

end UiLang
