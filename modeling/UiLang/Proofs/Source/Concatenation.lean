import UiLang.Proofs.Scan.Concatenation
import UiLang.Proofs.Seam.Program
import UiLang.Source

/-!
# Two sources with a line feed between them

A source that parses without faults does not depend on what follows it in later lines, and what
follows says the same as on its own, only further down.

## Main definitions

* `Source.below`: how the second of two sources moves

## Main results

* `parseSource_append`: the items and faults of both sources
* `parseSource_append_of_isClean`: nothing is lost, changed or added after a clean source
-/

namespace UiLang

/-- How the second of two sources with a line feed between them moves: below the lines of the
first. -/
def Source.below (first : String) : Location → Location :=
  .down (first.toList.count '\n' + 1)

/-! ## Guards do not move -/

theorem nestedAfter_map (f : Location → Location) (opened : List Bracket) (ts : List Token) :
    nestedAfter opened (ts.map (Token.relocate f)) = nestedAfter opened ts := by
  fun_induction nestedAfter opened ts with
  | case1 opened => rfl
  | _ => simp_all [nestedAfter, Token.relocate]

theorem Guard.map {ts : List Token} (h : Guard ts) (f : Location → Location) :
    Guard (ts.map (Token.relocate f)) := by
  obtain ⟨first, rest, rfl, hstarts, hnext⟩ := h.starts
  refine ⟨⟨first.relocate f, rest.map (Token.relocate f), rfl, hstarts, ?_⟩, ?_⟩
  · intro next hmem
    rw [List.head?_map] at hmem
    obtain ⟨t, ht, rfl⟩ := Option.map_eq_some_iff.mp hmem
    exact hnext t ht
  · rw [nestedAfter_map]
    exact h.nested

/-! ## Two sources -/

theorem scan_stop_kind (source : String) : (scan source).stream.stop.kind = .eof := by
  rw [scan, ← Position.advance_nil Position.start, (account_scanFrom [] source.toList).stop_eq]

/-- The items and faults of two sources, if the first one is read without faults or the second one
is guarded: the second source says the same further down, and the first one has its own items and
as many faults as it has alone. -/
theorem parseSource_append (first second : String)
    (hclosed : ∀ d ∈ (parseSource first).lexicalFaults, d.fault ≠ .unterminatedString)
    (h : Guard (scan second).stream.tokens ∨ (parseSource first).syntaxFaults = []) :
    ∃ faults, faults.length = (parseSource first).syntaxFaults.length ∧
      parseSource (first ++ "\n" ++ second) =
        ⟨⟨(parseSource first).program.items ++
            (parseSource second).program.items.map (Item.relocate (Source.below first))⟩,
          (parseSource first).lexicalFaults ++
            (parseSource second).lexicalFaults.map (Diagnostic.relocate (Source.below first)),
          faults ++
            (parseSource second).syntaxFaults.map (Diagnostic.relocate (Source.below first))⟩ := by
  have hscan := scan_append first second hclosed
  have hguard : Guard ((scan second).stream.tokens.map (Token.relocate (Source.below first))) ∨
      (readItemList (scan first).stream.stop (scan first).stream.tokens).faults = [] :=
    h.imp_left fun hguard => hguard.map _
  -- the tokens of the second source are moved first, and then stand behind those of the first
  obtain ⟨faults, hlength, hlist⟩ := readItemList_append
    ((scan second).stream.stop.relocate (Source.below first))
    ⟨.newline, "\n", spanAfter first.toList 1⟩ (scan_stop_kind first) rfl hguard
  refine ⟨faults, hlength, ?_⟩
  rw [Source.below, readItemList_down] at hlist
  unfold parseSource readProgram
  rw [hscan]
  simp only [Scan.append, Scan.relocate, hlist]
  rfl

/-- **A clean source is not touched by what follows it, and does not touch it.**  The items are
those of both sources, the faults those of the second one, and everything of the second source
stands below the lines of the first. -/
theorem parseSource_append_of_isClean (first second : String)
    (h : (parseSource first).isClean = true) :
    (parseSource (first ++ "\n" ++ second)).program.items =
        (parseSource first).program.items ++
          (parseSource second).program.items.map (Item.relocate (Source.below first)) ∧
      (parseSource (first ++ "\n" ++ second)).lexicalFaults =
        (parseSource second).lexicalFaults.map (Diagnostic.relocate (Source.below first)) ∧
      (parseSource (first ++ "\n" ++ second)).syntaxFaults =
        (parseSource second).syntaxFaults.map (Diagnostic.relocate (Source.below first)) := by
  obtain ⟨hlexical, hread⟩ : (parseSource first).lexicalFaults = [] ∧
      (parseSource first).syntaxFaults = [] := by
    simpa [ParsedSource.isClean, ParsedSource.faults] using h
  obtain ⟨faults, hlength, hwhole⟩ := parseSource_append first second
    (by simp [hlexical]) (.inr hread)
  have hnone : faults = [] := by
    rw [hread] at hlength
    exact List.length_eq_zero_iff.mp hlength
  rw [hwhole, hlexical, hnone]
  exact ⟨rfl, rfl, rfl⟩

/-- An `else` that nothing is left of to belong to, in the sixth line, and a component after it. -/
theorem parseSource_append_else :
    (parseSource "component A \x7b\n  if ready \x7b\n    Text \"a\"\n  \x7d\n\x7d").isClean = true ∧
      (parseSource ("component A \x7b\n  if ready \x7b\n    Text \"a\"\n  \x7d\n\x7d" ++ "\n" ++
        "  else \x7b\ncomponent B \x7b\x7d")).program.items.length = 2 ∧
      (parseSource ("component A \x7b\n  if ready \x7b\n    Text \"a\"\n  \x7d\n\x7d" ++ "\n" ++
        "  else \x7b\ncomponent B \x7b\x7d")).syntaxFaults =
          [⟨.unexpectedToken (.keyword .elseWord) "else", ⟨⟨6, 3⟩, 4⟩⟩] := by
  obtain ⟨hitems, -, hread⟩ := parseSource_append_of_isClean
    "component A \x7b\n  if ready \x7b\n    Text \"a\"\n  \x7d\n\x7d"
    "  else \x7b\ncomponent B \x7b\x7d" (by decide +kernel)
  rw [hitems, hread]
  decide +kernel

end UiLang
