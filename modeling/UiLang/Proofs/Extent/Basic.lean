import UiLang.Proofs.Seam.Item

/-!
# Reading up to a closing brace

Two token streams are the same up to a closing brace and differ after it.  A reader looks at tokens
from the front, one or two ahead, and no reader looks past a closing brace that it does not take.
So as long as the brace is not taken, a reader does the same on both streams; once it is taken,
nothing is said about the second stream any more.

## Main definitions

* `Onward`, `GoesOn`: what comes after a reading starts where the reading stopped
* `Cut`, `Cut.Sync`: two streams, and the places in them that belong together
* `Cut.Late`: a reader that takes the brace if it gives anything
* `Cut.Local`: how the outcomes of a reader on both streams belong together

## Main results

* `Cut.Local.bind`: readers one after another
* `Cut.expect_local`, `Cut.bracedTokens_local`, `Cut.tokensToLineEnd_local`: the steps readers are
  made of
-/

namespace UiLang

/-! ## Going on where a reading stopped

A reader is steps one after another, and each takes its tokens from where the last one stopped.  The
type of a step says only where the whole reader started, so that is found from its shape. -/

section Onward

variable {α β γ : Type} {ts us : List Token}

/-- A place that is found from a reading, and is where the reading stopped or later. -/
class Onward (place : Reading α ts → List Token) : Prop where
  length_le : ∀ r, (place r).length ≤ r.rest.length

/-- What is done after a reading, and takes tokens from where the reading stopped. -/
class GoesOn (next : Reading α ts → Read β us) : Prop where
  length_le : ∀ r s, next r = .ok s → s.rest.length ≤ r.rest.length

-- The places that readers go on from: where the last reading stopped, the same after newlines, and
-- where another reading from such a place stops.
instance onward_rest : Onward fun r : Reading α ts => r.rest :=
  ⟨fun _ => Nat.le_refl _⟩

instance onward_skipNewlines (place : Reading α ts → List Token) [Onward place] :
    Onward fun r => skipNewlines (place r) :=
  ⟨fun r => Nat.le_trans (length_skipNewlines_le _) (Onward.length_le r)⟩

instance onward_reading (place : Reading α ts → List Token) [Onward place]
    (f : ∀ r, Reading β (place r)) : Onward fun r => (f r).rest :=
  ⟨fun r => Nat.le_trans (f r).length_le (Onward.length_le r)⟩

-- A reading may be seen from further back, with another value, and stops where it did.
instance onward_andThen (f : Reading α ts → Reading β us) (g : ∀ r, Reading γ (f r).rest)
    [h : Onward fun r => (g r).rest] : Onward fun r => ((f r).andThen (g r)).rest :=
  h

instance onward_map (f : Reading α ts → β → γ) (g : Reading α ts → Reading β us)
    [h : Onward fun r => (g r).rest] : Onward fun r => ((g r).map (f r)).rest :=
  h

instance onward_cons (t : Reading α ts → Token) (g : Reading α ts → Reading β us)
    [h : Onward fun r => (g r).rest] : Onward fun r => ((g r).cons (t r)).rest :=
  h

instance onward_within {whole : List Token} (g : Reading α ts → Reading β us) (hus : us <:+ whole)
    [h : Onward fun r => (g r).rest] : Onward fun r => ((g r).within hus).rest :=
  h

instance goesOn_ok (f : Reading α ts → Reading β us) [h : Onward fun r => (f r).rest] :
    GoesOn fun r => .ok (f r) where
  length_le r s hs := by
    cases hs
    exact h.length_le r

instance goesOn_pure (f : Reading α ts → Reading β us) [Onward fun r => (f r).rest] :
    GoesOn fun r => (pure (f r) : Read β us) :=
  goesOn_ok f

instance goesOn_error (d : Reading α ts → Diagnostic) :
    GoesOn fun r => (.error (d r) : Read β us) :=
  ⟨nofun⟩

instance goesOn_bind (place : Reading α ts → List Token) [h : Onward place]
    (f : ∀ r, Read β (place r)) (g : ∀ r, Reading β (place r) → Read γ us)
    [hg : ∀ r, GoesOn (g r)] : GoesOn fun r => f r >>= g r where
  length_le r s hs := by
    cases hf : f r with
    | error d =>
      rw [hf] at hs
      cases hs
    | ok t =>
      rw [hf] at hs
      calc s.rest.length ≤ t.rest.length := (hg r).length_le t s hs
        _ ≤ (place r).length := t.length_le
        _ ≤ r.rest.length := h.length_le r

instance goesOn_ite (p : Reading α ts → Prop) [∀ r, Decidable (p r)]
    (f g : Reading α ts → Read β us) [hf : GoesOn f] [hg : GoesOn g] :
    GoesOn fun r => if p r then f r else g r where
  length_le r s hs := by
    split at hs
    · exact hf.length_le r s hs
    · exact hg.length_le r s hs

end Onward

/-! ## Two streams up to a closing brace -/

/-- A closing brace, and what follows it in one token stream and in another. -/
structure Cut where
  brace : Token
  kind : brace.kind = .closing .brace
  after : List Token
  after' : List Token

namespace Cut

variable (C : Cut)

/-- What is left of the two streams before the brace is taken. -/
def Sync (ts ts' : List Token) : Prop :=
  ∃ front, ts = front ++ C.brace :: C.after ∧ ts' = front ++ C.brace :: C.after'

/-- The brace is taken. -/
def Past (ts : List Token) : Prop :=
  ts.length ≤ C.after.length

/-- Whatever the reader gives, the brace is taken. -/
def Late {α : Type} {ts : List Token} (outcome : Read α ts) : Prop :=
  ∀ r, outcome = .ok r → C.Past r.rest

/-- The outcomes of a reader on both streams: the same value at places that belong together, or
the first reader fails or takes the brace. -/
inductive Local {α : Type} {ts ts' : List Token} : Read α ts → Read α ts' → Prop
  | ok {r : Reading α ts} {r' : Reading α ts'} (value : r'.value = r.value)
      (rest : C.Sync r.rest r'.rest) : Local (.ok r) (.ok r')
  | late {outcome : Read α ts} {outcome' : Read α ts'} (late : C.Late outcome) :
      Local outcome outcome'

variable {C} {α β : Type} {ts ts' us us' : List Token}

variable (C) in
/-- What is left of the two streams after a token of both: they go on together, or the token was
the brace. -/
def Next (t : Token) (us us' : List Token) : Prop :=
  C.Sync us us' ∨ t.kind = .closing .brace ∧ us = C.after ∧ us' = C.after'

theorem Next.sync {t : Token} (h : C.Next t us us') (hne : t.kind ≠ .closing .brace) :
    C.Sync us us' :=
  h.resolve_right fun hbrace => hne hbrace.1

/-- The next token is the same in both streams. -/
theorem Sync.uncons (h : C.Sync ts ts') :
    ∃ t us us', ts = t :: us ∧ ts' = t :: us' ∧ C.Next t us us' := by
  obtain ⟨front, rfl, rfl⟩ := h
  cases front with
  | nil => exact ⟨C.brace, C.after, C.after', rfl, rfl, .inr ⟨C.kind, rfl, rfl⟩⟩
  | cons t front => exact ⟨t, _, _, rfl, rfl, .inl ⟨front, rfl, rfl⟩⟩

theorem past_of_eq (h : ts = C.after) : C.Past ts :=
  Nat.le_of_eq (congrArg List.length h)

theorem Past.reading {r : Reading α ts} (h : C.Past ts) : C.Past r.rest :=
  Nat.le_trans r.length_le h

/-! ## Readers that take the brace -/

theorem late_ok {r : Reading α ts} (h : C.Past r.rest) : C.Late (.ok r) := by
  rintro _ ⟨⟩
  exact h

theorem late_error (d : Diagnostic) : C.Late (.error d : Read α ts) :=
  nofun

/-- A reader that starts after the brace. -/
theorem late_of_past (h : C.Past ts) (outcome : Read α ts) : C.Late outcome :=
  fun _ _ => h.reading

/-- What comes after a reader that took the brace starts behind it. -/
theorem late_bind {outcome : Read α us} {next : Reading α us → Read β ts} [GoesOn next]
    (h : C.Late outcome) : C.Late (outcome >>= next) := by
  cases outcome with
  | error d => exact late_error d
  | ok r =>
    intro s hs
    exact Nat.le_trans (GoesOn.length_le r s hs) (h r rfl)

/-! ## Readers one after another -/

theorem local_error (d : Diagnostic) (outcome' : Read α ts') :
    C.Local (.error d : Read α ts) outcome' :=
  .late (late_error d)

/-- Two readings that are given on both streams. -/
theorem Local.of_ok {r : Reading α ts} {r' : Reading α ts'} (h : C.Local (.ok r) (.ok r')) :
    r'.value = r.value ∧ C.Sync r.rest r'.rest ∨ C.Past r.rest := by
  cases h with
  | ok value rest => exact .inl ⟨value, rest⟩
  | late late => exact .inr (late r rfl)

/-- Readers one after another. -/
theorem Local.bind {outcome : Read α ts} {outcome' : Read α ts'} (h : C.Local outcome outcome')
    {next : Reading α ts → Read β us} {next' : Reading α ts' → Read β us'} [GoesOn next]
    (hnext : ∀ r r', r'.value = r.value → C.Sync r.rest r'.rest → C.Local (next r) (next' r')) :
    C.Local (outcome >>= next) (outcome' >>= next') := by
  cases h with
  | ok value rest => exact hnext _ _ value rest
  | late late => exact .late (late_bind late)

/-! ## Single tokens -/

variable {stop stop' : Token}

theorem expect_local (kind : Kind) (h : C.Sync ts ts') :
    C.Local (expect stop kind ts) (expect stop' kind ts') := by
  obtain ⟨t, us, us', rfl, rfl, hrest⟩ := h.uncons
  rw [expect, expect]
  split
  · rcases hrest with rest | ⟨-, hafter, -⟩
    · exact .ok rfl rest
    · exact .late (late_ok (past_of_eq hafter))
  · exact local_error _ _

/-- A token that is read only if it is there.  It is not the brace. -/
theorem eat_sync (kind : Kind) (hkind : kind ≠ .closing .brace) (h : C.Sync ts ts') :
    (eat kind ts').value = (eat kind ts).value ∧ C.Sync (eat kind ts).rest (eat kind ts').rest := by
  obtain ⟨t, us, us', rfl, rfl, hrest⟩ := h.uncons
  by_cases hk : t.kind = kind
  · rw [eat_of_eq us hk, eat_of_eq us' hk]
    exact ⟨rfl, hrest.sync (hk ▸ hkind)⟩
  · rw [eat_of_ne us hk, eat_of_ne us' hk]
    exact ⟨rfl, h⟩

theorem peek_eq (stop stop' : Token) (h : C.Sync ts ts') : peek stop' ts' = peek stop ts := by
  obtain ⟨t, us, us', rfl, rfl, -⟩ := h.uncons
  rfl

theorem expectStatementEnd_local (h : C.Sync ts ts') :
    C.Local (expectStatementEnd stop ts) (expectStatementEnd stop' ts') := by
  unfold expectStatementEnd
  rw [peek_eq stop stop' h]
  split
  · exact .ok rfl h
  · exact .ok rfl h
  · exact .ok rfl h
  · exact local_error _ _

/-! ## Runs of tokens -/

theorem Local.cons_token {t : Token} {outcome : Read (List Token) ts}
    {outcome' : Read (List Token) ts'} (h : C.Local outcome outcome') :
    C.Local (outcome >>= fun r => .ok ((r.map (t :: ·)).cons t))
      (outcome' >>= fun r => .ok ((r.map (t :: ·)).cons t)) :=
  h.bind fun _ _ value rest => .ok (congrArg (t :: ·) value) rest

theorem bracedTokens_local (depth : Nat) (h : C.Sync ts ts') :
    C.Local (bracedTokens stop depth ts) (bracedTokens stop' depth ts') := by
  induction ts generalizing depth ts' with
  | nil =>
    obtain ⟨t, us, us', ⟨⟩, -⟩ := h.uncons
  | cons t ts ih =>
    obtain ⟨_, _, us', ⟨⟩, rfl, hrest⟩ := h.uncons
    rw [bracedTokens_cons, bracedTokens_cons]
    rcases hrest with rest | ⟨-, hafter, -⟩
    · split
      · exact .ok rfl rest
      · exact (ih _ rest).cons_token
    · refine .late ?_
      split
      · exact late_ok (past_of_eq hafter)
      · exact late_bind (late_of_past (past_of_eq hafter) _)

theorem parenthesizedTokens_local (depth : Nat) (h : C.Sync ts ts') :
    C.Local (parenthesizedTokens stop depth ts) (parenthesizedTokens stop' depth ts') := by
  induction ts generalizing depth ts' with
  | nil =>
    obtain ⟨t, us, us', ⟨⟩, -⟩ := h.uncons
  | cons t ts ih =>
    obtain ⟨_, _, us', ⟨⟩, rfl, hrest⟩ := h.uncons
    rw [parenthesizedTokens_cons, parenthesizedTokens_cons]
    rcases hrest with rest | ⟨-, hafter, -⟩
    · split
      · exact local_error _ _
      · split
        · exact .ok rfl rest
        · exact (ih _ rest).cons_token
    · refine .late ?_
      split
      · exact late_error _
      · split
        · exact late_ok (past_of_eq hafter)
        · exact late_bind (late_of_past (past_of_eq hafter) _)

/-- The end of a line outside brackets is the brace at the latest; inside brackets the brace may be
taken. -/
theorem tokensToLineEnd_local (depth : Nat) (h : C.Sync ts ts') :
    C.Local (.ok (tokensToLineEnd depth ts)) (.ok (tokensToLineEnd depth ts')) := by
  induction ts generalizing depth ts' with
  | nil =>
    obtain ⟨t, us, us', ⟨⟩, -⟩ := h.uncons
  | cons t ts ih =>
    obtain ⟨_, _, us', ⟨⟩, rfl, hrest⟩ := h.uncons
    rw [tokensToLineEnd_cons, tokensToLineEnd_cons]
    split
    · exact .ok rfl h
    · rcases hrest with rest | ⟨-, hafter, -⟩
      · exact Local.cons_token (ih _ rest)
      · exact .late (late_ok (past_of_eq hafter).reading)

/-! ## Newlines -/

theorem Sync.skipNewlines (h : C.Sync ts ts') : C.Sync (skipNewlines ts) (skipNewlines ts') := by
  induction ts generalizing ts' with
  | nil =>
    obtain ⟨t, us, us', ⟨⟩, -⟩ := h.uncons
  | cons t ts ih =>
    obtain ⟨_, _, us', ⟨⟩, rfl, hrest⟩ := h.uncons
    rw [skipNewlines_cons, skipNewlines_cons]
    split
    · rename_i hnewline
      exact ih (hrest.sync (by simp [hnewline]))
    · exact h

theorem readBraced_local (h : C.Sync ts ts') :
    C.Local (readBraced stop ts) (readBraced stop' ts') :=
  (expect_local _ h).bind fun _ _ _ rest =>
    (bracedTokens_local 0 rest).bind fun _ _ value rest => .ok value rest

end Cut

end UiLang
