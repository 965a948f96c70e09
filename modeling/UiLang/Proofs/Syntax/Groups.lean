import Mathlib.Data.List.TakeWhile
import UiLang.Proofs.Seam.Basic
import UiLang.Proofs.Syntax.Gives
import UiLang.Token.Scan

/-!
# The tokens of a group

A block in braces and a list in parentheses are kept as the tokens that stand between the two
brackets.  Which closing bracket belongs to an opening one is said by counting: it stands where, for
the first time, as many brackets of the kind are closed as were opened.

The readers of both groups go along the tokens with a counter.  A closing bracket takes one away
from it, and no test stands in front of that.  The counter is still exact: at every token it is the
number of brackets opened and not closed so far, so nothing is ever taken away from zero.

## Main definitions

* `excess`, `Matches`: counting brackets, and the bracket that closes a group
* `Balanced`: every closing bracket has its opening one before it, and none is left open
* `Capture`: a reader that goes along the tokens of a group with a counter
* `CapturesGroup`, `CountsExactly`: what such a reader finds, and what its counter is

## Main results

* `Capture.seen_read_append`: the reader past some tokens of the group
* `Capture.capturesGroup`: the tokens between matching brackets, or a failure if none match
* `groups_captured_exactly`: blocks and lists in any sequence of tokens
-/

namespace UiLang

/-! ## Counting brackets -/

/-- The number of opening brackets of a kind minus the number of closing ones. -/
def excess (bracket : Bracket) (tokens : List Token) : Int :=
  (tokens.countP fun token => token.kind == .opening bracket : Nat) -
    (tokens.countP fun token => token.kind == .closing bracket : Nat)

/-- The token at `last` closes the group that the token at `first` opens: counted from `first` on,
there are for the first time as many closing brackets as opening ones. -/
structure Matches (bracket : Bracket) (tokens : List Token) (first last : Nat) : Prop where
  later : first < last
  inside : last < tokens.length
  level : excess bracket ((tokens.take (last + 1)).drop first) = 0
  above : ∀ k, first ≤ k → k < last → 0 < excess bracket ((tokens.take (k + 1)).drop first)

/-- Every closing bracket has its opening one before it, and no bracket is left open. -/
structure Balanced (bracket : Bracket) (tokens : List Token) : Prop where
  nonneg : ∀ front, front <+: tokens → 0 ≤ excess bracket front
  level : excess bracket tokens = 0

/-- The tokens strictly between two positions. -/
def between (tokens : List Token) (first last : Nat) : List Token :=
  (tokens.take last).drop (first + 1)

section Excess

variable {bracket : Bracket} {token : Token}

@[simp] theorem excess_nil (bracket : Bracket) : excess bracket [] = 0 := rfl

@[simp] theorem excess_append (bracket : Bracket) (front rest : List Token) :
    excess bracket (front ++ rest) = excess bracket front + excess bracket rest := by
  simp only [excess, List.countP_append]
  omega

theorem excess_opening (h : token.kind = .opening bracket) : excess bracket [token] = 1 := by
  simp [excess, h]

theorem excess_closing (h : token.kind = .closing bracket) : excess bracket [token] = -1 := by
  simp [excess, h]

theorem excess_other (hopening : token.kind ≠ .opening bracket)
    (hclosing : token.kind ≠ .closing bracket) : excess bracket [token] = 0 := by
  simp [excess, hopening, hclosing]

theorem excess_cons (bracket : Bracket) (token : Token) (rest : List Token) :
    excess bracket (token :: rest) = excess bracket [token] + excess bracket rest :=
  excess_append bracket [token] rest

/-- One token takes at most one bracket away, and only a closing bracket does. -/
theorem closing_of_excess_neg (h : excess bracket [token] < 0) :
    token.kind = .closing bracket ∧ excess bracket [token] = -1 := by
  by_cases hclosing : token.kind = .closing bracket
  · exact ⟨hclosing, excess_closing hclosing⟩
  · by_cases hopening : token.kind = .opening bracket
    · rw [excess_opening hopening] at h
      omega
    · rw [excess_other hopening hclosing] at h
      omega

/-- The counter of a reader after a token is the exact one, unless that would be less than zero. -/
theorem depthPast_eq {depth : Nat} (h : 0 ≤ depth + excess bracket [token]) :
    (depthPast bracket depth token.kind : Int) = depth + excess bracket [token] := by
  unfold depthPast
  split
  · rename_i hopening
    rw [excess_opening hopening]
    omega
  split
  · rename_i hclosing
    rw [excess_closing hclosing] at h ⊢
    omega
  · rename_i hopening hclosing
    rw [excess_other hopening hclosing]
    omega

end Excess

/-! ## Readers that count

What a reader finds is looked at without the proof that it leaves a suffix, so outcomes for
different lists of tokens can be compared. -/

/-- The outcome of a reader: what it gives and what it leaves, or where it fails. -/
def seen {α : Type} {ts : List Token} (outcome : Read α ts) :
    Except Diagnostic (α × List Token) :=
  outcome.map fun r => (r.value, r.rest)

/-- The same outcome with more tokens in front of those that are given. -/
def prepend (front : List Token) (outcome : Except Diagnostic (List Token × List Token)) :
    Except Diagnostic (List Token × List Token) :=
  outcome.map fun found => (front ++ found.1, found.2)

@[simp] theorem prepend_nil (outcome : Except Diagnostic (List Token × List Token)) :
    prepend [] outcome = outcome := by
  cases outcome <;> rfl

theorem prepend_append (front more : List Token)
    (outcome : Except Diagnostic (List Token × List Token)) :
    prepend (front ++ more) outcome = prepend front (prepend more outcome) := by
  cases outcome with
  | error d => rfl
  | ok found => simp [prepend, Except.map]

/-- A reader of the tokens up to the bracket that closes a group.  It goes along the tokens with a
counter, and fails at the end marker and at the kinds that `breaks` names. -/
structure Capture where
  bracket : Bracket
  breaks : Kind → Bool
  fault : Kind → Fault
  read : Token → Nat → (ts : List Token) → Read (List Token) ts
  read_nil : ∀ stop depth, read stop depth [] = .error (.ofToken (fault stop.kind) stop)
  read_cons : ∀ stop depth token rest, read stop depth (token :: rest) =
    if breaks token.kind then .error (.ofToken (fault token.kind) token)
    else if token.kind = .closing bracket ∧ depth = 0 then
      .ok ((Reading.nothing [] rest).cons token)
    else read stop (depthPast bracket depth token.kind) rest >>= fun r =>
      .ok ((r.map (token :: ·)).cons token)

namespace Capture

/-- The tokens of a block, which may go on over lines. -/
def braces : Capture where
  bracket := .brace
  breaks _ := false
  fault _ := .unclosedBlock
  read := bracedTokens
  read_nil _ _ := rfl
  read_cons stop depth token rest := bracedTokens_cons stop depth token rest

/-- The tokens of a list in parentheses, all on one line. -/
def parentheses : Capture where
  bracket := .round
  breaks kind := kind == .newline
  fault := .expectedToken (.closing .round)
  read := parenthesizedTokens
  read_nil _ _ := rfl
  read_cons stop depth token rest := by
    simp only [beq_iff_eq]
    exact parenthesizedTokens_cons stop depth token rest

variable (capture : Capture) (stop : Token)

/-- The number of tokens before the first at which the reader gives up. -/
def reach (ts : List Token) : Nat :=
  (ts.takeWhile fun token => !capture.breaks token.kind).length

/-- The failure of a reader that found no closing bracket: it is at the token at which it gave up,
or at the end marker. -/
def failure (ts : List Token) : Diagnostic :=
  .ofToken (capture.fault (peek stop (ts.drop (capture.reach ts))).kind)
    (peek stop (ts.drop (capture.reach ts)))

variable {capture}

section Step

variable {token : Token} {rest : List Token} {depth : Nat}

theorem seen_read_closing (hbreaks : capture.breaks token.kind = false)
    (hkind : token.kind = .closing capture.bracket) :
    seen (capture.read stop 0 (token :: rest)) = .ok ([], rest) := by
  rw [capture.read_cons, if_neg (by simp [hbreaks]), if_pos ⟨hkind, rfl⟩]
  rfl

/-- A token at which the counter does not fall below zero is taken, and counted exactly. -/
theorem seen_read_cons (hbreaks : capture.breaks token.kind = false)
    (hdepth : 0 ≤ depth + excess capture.bracket [token]) :
    seen (capture.read stop depth (token :: rest)) = prepend [token]
      (seen (capture.read stop (depthPast capture.bracket depth token.kind) rest)) := by
  have hopen : ¬ (token.kind = .closing capture.bracket ∧ depth = 0) := by
    rintro ⟨hkind, rfl⟩
    rw [excess_closing hkind] at hdepth
    omega
  rw [capture.read_cons, if_neg (by simp [hbreaks]), if_neg hopen]
  cases capture.read stop (depthPast capture.bracket depth token.kind) rest <;> rfl

end Step

/-- **The reader past some tokens of the group.**  If none of them makes it give up and the count
never falls below zero, they are taken as they are, and the counter is what the count comes to. -/
theorem seen_read_append {front : List Token} (more : List Token) {depth : Nat}
    (hbreaks : ∀ token ∈ front, capture.breaks token.kind = false)
    (hcount : ∀ part, part <+: front → 0 ≤ depth + excess capture.bracket part) :
    ∃ after : Nat, (after : Int) = depth + excess capture.bracket front ∧
      seen (capture.read stop depth (front ++ more)) =
        prepend front (seen (capture.read stop after more)) := by
  induction front generalizing depth with
  | nil => exact ⟨depth, by simp, by simp⟩
  | cons token front ih =>
    obtain ⟨htoken, hfront⟩ := List.forall_mem_cons.mp hbreaks
    have hdepth := hcount [token] (by simp)
    have hpast := depthPast_eq hdepth
    have hnext : ∀ part, part <+: front →
        0 ≤ (depthPast capture.bracket depth token.kind : Int) + excess capture.bracket part := by
      intro part hpart
      have hwhole := hcount (token :: part) ((List.prefix_cons_inj token).mpr hpart)
      rw [excess_cons] at hwhole
      omega
    obtain ⟨after, hafter, heq⟩ := ih hfront hnext
    refine ⟨after, ?_, ?_⟩
    · rw [hafter, hpast, excess_cons _ token front]
      omega
    · rw [List.cons_append, seen_read_cons stop htoken hdepth, heq, ← prepend_append]
      rfl

theorem drop_reach (ts : List Token) :
    ts.drop (capture.reach ts) = ts.dropWhile fun token => !capture.breaks token.kind := by
  have hsplit := List.takeWhile_append_dropWhile
    (p := fun token => !capture.breaks token.kind) (l := ts)
  exact (congrArg (List.drop _) hsplit.symm).trans List.drop_left

/-- The reader gives up where it has to, whatever its counter is. -/
theorem seen_read_reach (ts : List Token) (depth : Nat) :
    seen (capture.read stop depth (ts.drop (capture.reach ts))) =
      .error (capture.failure stop ts) := by
  unfold failure
  cases hdrop : ts.drop (capture.reach ts) with
  | nil => rw [capture.read_nil]; rfl
  | cons token rest =>
    -- the tokens before it are exactly those at which the reader goes on
    have hwhile : ts.dropWhile (fun token => !capture.breaks token.kind) = token :: rest := by
      rw [← hdrop, drop_reach]
    have hbreaks : capture.breaks token.kind = true := by
      have := List.head?_dropWhile_not (fun token => !capture.breaks token.kind) ts
      rw [hwhile] at this
      simpa using this
    rw [capture.read_cons, if_pos hbreaks]
    rfl

theorem breaks_of_mem_take {ts : List Token} {k : Nat} (hk : k ≤ capture.reach ts) :
    ∀ token ∈ ts.take k, capture.breaks token.kind = false := by
  intro token htoken
  have hpart : ts.take k <+: ts.takeWhile fun token => !capture.breaks token.kind := by
    refine List.prefix_of_prefix_length_le (List.take_prefix k ts) (List.takeWhile_prefix _) ?_
    exact Nat.le_trans (List.length_take_le k ts) hk
  simpa using List.mem_takeWhile_imp (hpart.subset htoken)

end Capture

/-! ## Where a group ends

From the token after the opening bracket on, the group ends at the first token that brings the count
below zero. -/

/-- The token number `j` is the first that closes more brackets than were opened before it. -/
structure Ends (bracket : Bracket) (ts : List Token) (j : Nat) : Prop where
  inside : j < ts.length
  below : excess bracket (ts.take (j + 1)) = -1
  nonneg : ∀ i, i ≤ j → 0 ≤ excess bracket (ts.take i)

section Ends

variable {bracket : Bracket} {ts : List Token}

theorem excess_take_succ (bracket : Bracket) {j : Nat} (hj : j < ts.length) :
    excess bracket (ts.take (j + 1)) = excess bracket (ts.take j) + excess bracket [ts[j]] := by
  rw [List.take_succ_eq_append_getElem hj, excess_append]

/-- As long as the group has not ended, the count has not fallen below zero. -/
theorem excess_take_nonneg {i : Nat} (h : ∀ j, j < i → ¬ Ends bracket ts j) :
    0 ≤ excess bracket (ts.take i) := by
  induction i using Nat.strongRecOn with
  | ind i ih =>
    cases i with
    | zero => simp
    | succ j =>
      have hearlier : ∀ i, i ≤ j → 0 ≤ excess bracket (ts.take i) := fun i hi =>
        ih i (by omega) fun m hm => h m (by omega)
      have hbefore := hearlier j (Nat.le_refl j)
      by_cases hj : j < ts.length
      · by_contra hneg
        -- the token number `j` would be the end of the group
        have hstep := excess_take_succ bracket hj
        obtain ⟨-, hone⟩ := @closing_of_excess_neg bracket ts[j] (by omega)
        exact h j (Nat.lt_succ_self j) ⟨hj, by omega, hearlier⟩
      · rw [List.take_of_length_le (by omega)] at hbefore ⊢
        exact hbefore

/-- The same for all fronts of the first `i` tokens. -/
theorem excess_front_nonneg {i : Nat} (h : ∀ j, j < i → ¬ Ends bracket ts j) {front : List Token}
    (hfront : front <+: ts.take i) : 0 ≤ excess bracket front := by
  have hlength : front.length ≤ i := Nat.le_trans hfront.length_le (List.length_take_le i ts)
  rw [List.prefix_iff_eq_take.mp (hfront.trans (List.take_prefix i ts))]
  exact excess_take_nonneg fun j hj => h j (Nat.lt_of_lt_of_le hj hlength)

/-- A group ends once. -/
theorem Ends.not_earlier {i j : Nat} (h : Ends bracket ts j) (hi : i < j) :
    ¬ Ends bracket ts i := by
  intro hends
  have hbelow := hends.below
  have hnonneg := h.nonneg (i + 1) hi
  omega

/-- The token that ends a group is a closing bracket, and before it all brackets are closed. -/
theorem Ends.exists_closing {j : Nat} (h : Ends bracket ts j) :
    ∃ token, ts.drop j = token :: ts.drop (j + 1) ∧ token.kind = .closing bracket ∧
      excess bracket (ts.take j) = 0 := by
  have hj := h.inside
  have hstep := excess_take_succ bracket hj
  have hbelow := h.below
  have hbefore := h.nonneg j (Nat.le_refl j)
  obtain ⟨hkind, hone⟩ := @closing_of_excess_neg bracket ts[j] (by omega)
  exact ⟨ts[j], List.drop_eq_getElem_cons hj, hkind, by omega⟩

theorem Ends.balanced {j : Nat} (h : Ends bracket ts j) : Balanced bracket (ts.take j) := by
  obtain ⟨token, -, -, hlevel⟩ := h.exists_closing
  exact ⟨fun front hfront => excess_front_nonneg (fun i hi => h.not_earlier hi) hfront, hlevel⟩

end Ends

namespace Capture

variable {capture : Capture} {ts : List Token}

/-- **The counter is exact** as long as the group has not ended. -/
theorem exists_depth (stop : Token) {i : Nat} (hi : i ≤ capture.reach ts)
    (h : ∀ j, j < i → ¬ Ends capture.bracket ts j) :
    ∃ depth : Nat, (depth : Int) = excess capture.bracket (ts.take i) ∧
      seen (capture.read stop 0 ts) =
        prepend (ts.take i) (seen (capture.read stop depth (ts.drop i))) := by
  have hcount : ∀ front, front <+: ts.take i →
      0 ≤ ((0 : Nat) : Int) + excess capture.bracket front := by
    intro front hfront
    have hnonneg := excess_front_nonneg h hfront
    omega
  obtain ⟨depth, hdepth, heq⟩ :=
    seen_read_append stop (ts.drop i) (breaks_of_mem_take hi) hcount
  rw [List.take_append_drop] at heq
  exact ⟨depth, by omega, heq⟩

/-- The tokens before the end of the group are given, and what stands after it is left. -/
theorem seen_read_of_ends (stop : Token) {j : Nat} (hj : j < capture.reach ts)
    (h : Ends capture.bracket ts j) :
    seen (capture.read stop 0 ts) = .ok (ts.take j, ts.drop (j + 1)) := by
  obtain ⟨token, hdrop, hkind, hlevel⟩ := h.exists_closing
  obtain ⟨depth, hdepth, heq⟩ := exists_depth stop hj.le fun i hi => h.not_earlier hi
  obtain rfl : depth = 0 := by omega
  have htoken : token ∈ ts.take (j + 1) := by
    rw [List.take_add_one, ← List.head?_drop, hdrop]
    simp
  rw [heq, hdrop, seen_read_closing stop (breaks_of_mem_take hj token htoken) hkind]
  simp [prepend, Except.map]

/-- Without an end the reader goes on until it gives up. -/
theorem seen_read_of_not_ends (stop : Token)
    (h : ∀ j, j < capture.reach ts → ¬ Ends capture.bracket ts j) :
    seen (capture.read stop 0 ts) = .error (capture.failure stop ts) := by
  obtain ⟨depth, -, heq⟩ := exists_depth stop (Nat.le_refl _) h
  rw [heq, seen_read_reach]
  rfl

end Capture

/-! ## Positions -/

section Positions

variable {bracket : Bracket} {tokens : List Token} {position : Nat} {first : Token}

theorem between_eq (tokens : List Token) (position k : Nat) :
    between tokens position k = (tokens.drop (position + 1)).take (k - (position + 1)) :=
  List.drop_take

/-- Counted from the opening bracket on, there is one more bracket open than after it. -/
theorem excess_from_opening (hfirst : tokens[position]? = some first)
    (hkind : first.kind = .opening bracket) {k : Nat} (hk : position ≤ k) :
    excess bracket ((tokens.take (k + 1)).drop position) =
      1 + excess bracket ((tokens.drop (position + 1)).take (k - position)) := by
  have hdrop : tokens.drop position = first :: tokens.drop (position + 1) := by
    obtain ⟨hlt, rfl⟩ := List.getElem?_eq_some_iff.mp hfirst
    exact List.drop_eq_getElem_cons hlt
  rw [List.drop_take, hdrop, Nat.succ_sub hk, List.take_succ_cons, excess_cons,
    excess_opening hkind]

/-- The bracket that closes a group is the token at which the tokens after the opening bracket end
it. -/
theorem matches_iff_ends (hfirst : tokens[position]? = some first)
    (hkind : first.kind = .opening bracket) {last : Nat} :
    Matches bracket tokens position last ↔
      ∃ j, last = position + 1 + j ∧ Ends bracket (tokens.drop (position + 1)) j := by
  have hcount {k : Nat} (hk : position ≤ k) := excess_from_opening hfirst hkind hk
  constructor
  · intro h
    have hlater := h.later
    have hinside := h.inside
    refine ⟨last - (position + 1), by omega, ?_, ?_, fun i hi => ?_⟩
    · rw [List.length_drop]
      omega
    · have hlevel := h.level
      rw [hcount hlater.le] at hlevel
      rw [show last - (position + 1) + 1 = last - position by omega]
      omega
    · have habove := h.above (position + i) (by omega) (by omega)
      rw [hcount (by omega), Nat.add_sub_cancel_left] at habove
      omega
  · rintro ⟨j, rfl, h⟩
    have hinside := h.inside
    rw [List.length_drop] at hinside
    refine ⟨by omega, by omega, ?_, fun k hk hlt => ?_⟩
    · have hbelow := h.below
      rw [hcount (by omega), show position + 1 + j - position = j + 1 by omega, hbelow]
      rfl
    · have hnonneg := h.nonneg (k - position) (by omega)
      rw [hcount hk]
      omega

end Positions

/-- What a reader finds from the opening bracket at `position` on, if the closing one must stand
before the position `limit`: it succeeds exactly if there is a matching bracket, with the tokens
strictly between the two, and goes on right after the second one; otherwise it fails as told. -/
structure CapturesGroup (bracket : Bracket) (tokens : List Token) (position limit : Nat)
    (outcome : Except Diagnostic (List Token × List Token)) (failure : Diagnostic) : Prop where
  succeeds_iff : (∃ found, outcome = .ok found) ↔
    ∃ last, last < limit ∧ Matches bracket tokens position last
  captured : ∀ last, last < limit → Matches bracket tokens position last →
    outcome = .ok (between tokens position last, tokens.drop (last + 1)) ∧
      Balanced bracket (between tokens position last)
  otherwise : (∀ last, last < limit → ¬ Matches bracket tokens position last) →
    outcome = .error failure

/-- The counter of a reader is exact at every token up to `limit` that it comes to before the group
ends: the reader goes on with a counter, a natural number, that is the number of brackets opened
minus the number of those closed. -/
def CountsExactly (bracket : Bracket) (tokens : List Token) (position limit : Nat)
    (read : Nat → (ts : List Token) → Read (List Token) ts) : Prop :=
  ∀ k, position < k → k ≤ limit → (∀ last, last < k → ¬ Matches bracket tokens position last) →
    ∃ depth : Nat, (depth : Int) = excess bracket (between tokens position k) ∧
      seen (read 0 (tokens.drop (position + 1))) =
        prepend (between tokens position k) (seen (read depth (tokens.drop k)))

namespace Capture

/-- Nothing but the end marker ends the search for a closing brace. -/
theorem reach_braces (ts : List Token) : braces.reach ts = ts.length := by
  have hall : ∀ token ∈ ts, (!braces.breaks token.kind) = true := fun _ _ => rfl
  rw [reach, List.takeWhile_eq_self_iff.mpr hall]

theorem failure_braces (stop : Token) (ts : List Token) :
    braces.failure stop ts = ⟨.unclosedBlock, stop.location⟩ := by
  rw [failure, reach_braces, List.drop_length]
  rfl

variable {capture : Capture} {tokens : List Token} {position : Nat} {first : Token}

theorem capturesGroup (stop : Token) (hfirst : tokens[position]? = some first)
    (hkind : first.kind = .opening capture.bracket) :
    CapturesGroup capture.bracket tokens position
      (position + 1 + capture.reach (tokens.drop (position + 1)))
      (seen (capture.read stop 0 (tokens.drop (position + 1))))
      (capture.failure stop (tokens.drop (position + 1))) := by
  have hmatches {last : Nat} := @matches_iff_ends _ tokens position first hfirst hkind last
  have hcaptured : ∀ last, last < position + 1 + capture.reach (tokens.drop (position + 1)) →
      Matches capture.bracket tokens position last →
      seen (capture.read stop 0 (tokens.drop (position + 1))) =
        .ok (between tokens position last, tokens.drop (last + 1)) ∧
      Balanced capture.bracket (between tokens position last) := by
    intro last hlast hmatch
    obtain ⟨j, rfl, hends⟩ := hmatches.mp hmatch
    rw [between_eq, Nat.add_sub_cancel_left, seen_read_of_ends stop (by omega) hends,
      List.drop_drop]
    exact ⟨rfl, hends.balanced⟩
  have hotherwise : (∀ last, last < position + 1 + capture.reach (tokens.drop (position + 1)) →
      ¬ Matches capture.bracket tokens position last) →
      seen (capture.read stop 0 (tokens.drop (position + 1))) =
        .error (capture.failure stop (tokens.drop (position + 1))) := by
    intro hnone
    refine seen_read_of_not_ends stop fun j hj hends => ?_
    exact hnone (position + 1 + j) (by omega) (hmatches.mpr ⟨j, rfl, hends⟩)
  refine ⟨⟨fun ⟨found, hfound⟩ => ?_, fun ⟨last, hlast, hmatch⟩ => ?_⟩, hcaptured, hotherwise⟩
  · by_contra hnone
    rw [hotherwise fun last hlast hmatch => hnone ⟨last, hlast, hmatch⟩] at hfound
    cases hfound
  · exact ⟨_, (hcaptured last hlast hmatch).1⟩

theorem countsExactly (stop : Token) (hfirst : tokens[position]? = some first)
    (hkind : first.kind = .opening capture.bracket) :
    CountsExactly capture.bracket tokens position
      (position + 1 + capture.reach (tokens.drop (position + 1))) (capture.read stop) := by
  intro k hk hlimit hnone
  obtain ⟨i, rfl⟩ := Nat.exists_eq_add_of_lt hk
  have hdrop : tokens.drop (position + i + 1) = (tokens.drop (position + 1)).drop i := by
    rw [List.drop_drop, Nat.add_right_comm]
  rw [between_eq, show position + i + 1 - (position + 1) = i by omega, hdrop]
  have hreach : i ≤ capture.reach (tokens.drop (position + 1)) := by omega
  refine exists_depth stop hreach fun j hj hends => ?_
  exact hnone (position + 1 + j) (by omega)
    ((matches_iff_ends hfirst hkind).mpr ⟨j, rfl, hends⟩)

end Capture

/-! ## Sequences of tokens -/

theorem seen_readBraced_cons (stop : Token) {first : Token} (rest : List Token)
    (h : first.kind = .opening .brace) :
    seen (readBraced stop (first :: rest)) = seen (bracedTokens stop 0 rest) := by
  rw [readBraced, expect, if_pos h]
  change seen (bracedTokens stop 0 rest >>= fun r => .ok ((Reading.head first rest).andThen r)) = _
  cases bracedTokens stop 0 rest <;> rfl

namespace TokenStream

/-- A block in braces from a position on: the tokens inside, and those after it. -/
def bracedAt (stream : TokenStream) (position : Nat) :
    Except Diagnostic (List Token × List Token) :=
  seen (readBraced stream.stop (stream.tokens.drop position))

/-- A list in parentheses from the position of the first one on: the tokens inside, and those after
it. -/
def parenthesizedAt (stream : TokenStream) (position : Nat) :
    Except Diagnostic (List Token × List Token) :=
  seen (parenthesizedTokens stream.stop 0 (stream.tokens.drop (position + 1)))

/-- The position of the first line end after a position, or of the end marker. -/
def lineEnd (stream : TokenStream) (position : Nat) : Nat :=
  position + 1 +
    ((stream.tokens.drop (position + 1)).takeWhile fun token => token.kind != .newline).length

/-- The token at a position: the end marker where no other token is. -/
def tokenAt (stream : TokenStream) (position : Nat) : Token :=
  peek stream.stop (stream.tokens.drop position)

/-- The end marker of a sequence is an end marker. -/
theorem stop_ofList_kind (tokens : List Token) : (ofList tokens).stop.kind = .eof := by
  unfold ofList
  cases hfind : tokens.find? fun token => token.kind = .eof with
  | some token => simpa using List.find?_some hfind
  | none => exact kind_defaultStop tokens

variable {stream : TokenStream} {position : Nat} {first : Token}

theorem bracedAt_eq (hfirst : stream.tokens[position]? = some first)
    (hkind : first.kind = .opening .brace) :
    stream.bracedAt position =
      seen (bracedTokens stream.stop 0 (stream.tokens.drop (position + 1))) := by
  obtain ⟨hlt, rfl⟩ := List.getElem?_eq_some_iff.mp hfirst
  rw [bracedAt, List.drop_eq_getElem_cons hlt, seen_readBraced_cons stream.stop _ hkind]

end TokenStream

/-- **Groups are captured exactly.**  In any sequence of tokens, a block is read from an opening
brace on exactly if a brace before the end marker matches it.  What is given are the tokens strictly
between the two braces, which are balanced, and reading goes on right after the second one;
otherwise the block is unclosed, and that is found at the end marker.

The same holds of a list in parentheses, all of which must stand on one line.  What is missing then
is a closing parenthesis, and that is found at the line end, or at the end marker.

The counters of both readers are exact all along, so none of them falls below zero. -/
theorem groups_captured_exactly {tokens : List Token} {stream : TokenStream}
    (hstream : stream = .ofList tokens) (position : Nat) :
    stream.stop.kind = .eof ∧
    (stream.tokens[position]?.map (·.kind) = some (.opening .brace) →
      CapturesGroup .brace stream.tokens position stream.tokens.length
        (stream.bracedAt position) ⟨.unclosedBlock, stream.stop.location⟩ ∧
      CountsExactly .brace stream.tokens position stream.tokens.length
        (bracedTokens stream.stop)) ∧
    (stream.tokens[position]?.map (·.kind) = some (.opening .round) →
      CapturesGroup .round stream.tokens position (stream.lineEnd position)
        (stream.parenthesizedAt position)
        ⟨.expectedToken (.closing .round) (stream.tokenAt (stream.lineEnd position)).kind,
          (stream.tokenAt (stream.lineEnd position)).location⟩ ∧
      CountsExactly .round stream.tokens position (stream.lineEnd position)
        (parenthesizedTokens stream.stop)) := by
  refine ⟨hstream ▸ TokenStream.stop_ofList_kind tokens, fun h => ?_, fun h => ?_⟩
  · obtain ⟨first, hfirst, hkind⟩ := Option.map_eq_some_iff.mp h
    have hlimit : position + 1 + Capture.braces.reach (stream.tokens.drop (position + 1)) =
        stream.tokens.length := by
      have hlt := (List.getElem?_eq_some_iff.mp hfirst).1
      rw [Capture.reach_braces, List.length_drop]
      omega
    have hcaptures := Capture.braces.capturesGroup stream.stop hfirst hkind
    have hcounts := Capture.braces.countsExactly stream.stop hfirst hkind
    rw [hlimit] at hcaptures hcounts
    rw [Capture.failure_braces] at hcaptures
    rw [TokenStream.bracedAt_eq hfirst hkind]
    exact ⟨hcaptures, hcounts⟩
  · obtain ⟨first, hfirst, hkind⟩ := Option.map_eq_some_iff.mp h
    have hcaptures := Capture.parentheses.capturesGroup stream.stop hfirst hkind
    have hcounts := Capture.parentheses.countsExactly stream.stop hfirst hkind
    -- the token at the line end is where the reader gives up
    have htoken : stream.tokenAt (stream.lineEnd position) =
        peek stream.stop ((stream.tokens.drop (position + 1)).drop
          (Capture.parentheses.reach (stream.tokens.drop (position + 1)))) := by
      rw [TokenStream.tokenAt, TokenStream.lineEnd, List.drop_drop]
      rfl
    rw [htoken]
    exact ⟨hcaptures, hcounts⟩

/-- A block with a block inside, before more tokens. -/
theorem groups_captured_nested :
    ∃ stream : TokenStream, stream = .ofList (scan "\x7ba\x7bb\x7d\x7dc").stream.toList ∧
      Matches .brace stream.tokens 0 5 ∧
      stream.bracedAt 0 = .ok (between stream.tokens 0 5, stream.tokens.drop 6) ∧
      Balanced .brace (between stream.tokens 0 5) := by
  refine ⟨_, rfl, ?_⟩
  have hmatches : Matches .brace (TokenStream.ofList
      (scan "\x7ba\x7bb\x7d\x7dc").stream.toList).tokens 0 5 := by
    have habove : ∀ k < 5, 0 < excess .brace (((TokenStream.ofList
        (scan "\x7ba\x7bb\x7d\x7dc").stream.toList).tokens.take (k + 1)).drop 0) := by
      decide +kernel
    exact ⟨by decide, by decide +kernel, by decide +kernel, fun k _ hk => habove k hk⟩
  have hgroups := groups_captured_exactly
    (rfl : TokenStream.ofList (scan "\x7ba\x7bb\x7d\x7dc").stream.toList = _) 0
  have hcaptured := (hgroups.2.1 (by decide +kernel)).1.captured 5 (by decide +kernel) hmatches
  exact ⟨hmatches, hcaptured⟩

/-- A list that is not closed is no unclosed block: what is missing is a parenthesis. -/
theorem unclosed_parentheses_expected :
    ∃ stream : TokenStream, stream = .ofList (scan "f(").stream.toList ∧
      stream.tokens[1]?.map (·.kind) = some (.opening .round) ∧
      (∀ last, ¬ Matches .round stream.tokens 1 last) ∧
      stream.parenthesizedAt 1 =
        .error ⟨.expectedToken (.closing .round) .eof, stream.stop.location⟩ ∧
      ¬ CapturesGroup .round stream.tokens 1 (stream.lineEnd 1) (stream.parenthesizedAt 1)
        ⟨.unclosedBlock, stream.stop.location⟩ := by
  have hnone : ∀ last, ¬ Matches .round
      (TokenStream.ofList (scan "f(").stream.toList).tokens 1 last := by
    intro last h
    have hlength : (TokenStream.ofList (scan "f(").stream.toList).tokens.length = 2 := by
      decide +kernel
    have hlater := h.later
    have hinside := h.inside
    omega
  have hfails : (TokenStream.ofList (scan "f(").stream.toList).parenthesizedAt 1 =
      .error ⟨.expectedToken (.closing .round) .eof,
        (TokenStream.ofList (scan "f(").stream.toList).stop.location⟩ := by
    decide +kernel
  refine ⟨_, rfl, by decide +kernel, hnone, hfails, fun h => ?_⟩
  have hblock := h.otherwise fun last _ => hnone last
  rw [hfails] at hblock
  cases hblock

end UiLang
