import UiLang.Proofs.Relocation
import UiLang.Proofs.Syntax.Nesting

/-!
# Reading two token streams side by side

One stream stands, moved, at the front of another: the first ends where the second goes on with a
tail.  Without a tail both end together, and a reader does the same on both.  With a tail, a
newline stands where the first stream ends; a reader that needs more than the first stream has
fails on it, and all others never look past that newline.

What a reader does on the second stream once it is past the seam is known when the tail is
guarded: it opens with a word that only an item starts with, and its brackets are properly nested.
Then the reader fails there as well.

## Main definitions

* `Guard`: tokens that no broken text can take in
* `Seam`, `Seam.Sync`: two streams side by side, and the places in them that belong together
* `Seam.Firm`, `Seam.Loose`: how the outcomes of a reader on both streams belong together

## Main results

* `Seam.Firm.bind`, `Seam.Loose.bind`: readers one after another
* `Seam.expect_firm`, `Seam.bracedTokens_firm`, `Seam.tokensToLineEnd_loose`: the steps readers are
  made of
-/

namespace UiLang

/-! ## Guards -/

/-- A well-formed item starts here: a word that only an item starts with, which is no key of an
entry, and properly nested brackets from there on. -/
structure Guard (ts : List Token) : Prop where
  starts : ∃ first rest, ts = first :: rest ∧ startsItem first.kind = true ∧
    ∀ next ∈ rest.head?, next.kind ≠ .colon ∧ next.kind ≠ .minus
  nested : nestedAfter [] ts = true

theorem ne_of_startsItem {kind other : Kind} (h : startsItem kind = true)
    (hother : startsItem other = false) : kind ≠ other := by
  rintro rfl
  rw [h] at hother
  cases hother

theorem eq_keyword_of_startsItem {kind : Kind} (h : startsItem kind = true) :
    ∃ word, kind = .keyword word := by
  cases kind with
  | keyword word => exact ⟨word, rfl⟩
  | _ => cases h

theorem isWord_of_startsItem {kind : Kind} (h : startsItem kind = true) : kind.isWord = true := by
  obtain ⟨word, rfl⟩ := eq_keyword_of_startsItem h
  rfl

theorem expect_error_of_ne (stop : Token) {kind : Kind} {ts : List Token}
    (h : ∀ t ∈ ts.head?, t.kind ≠ kind) : ∃ d, expect stop kind ts = .error d := by
  cases ts with
  | nil => exact ⟨_, rfl⟩
  | cons t ts =>
    rw [expect, if_neg (h t rfl)]
    exact ⟨_, rfl⟩

theorem eat_of_eq {kind : Kind} {t : Token} (ts : List Token) (h : t.kind = kind) :
    eat kind (t :: ts) = ⟨true, ts, List.suffix_cons t ts⟩ := by
  rw [eat, if_pos h]

theorem eat_of_ne {kind : Kind} {t : Token} (ts : List Token) (h : t.kind ≠ kind) :
    eat kind (t :: ts) = .nothing false (t :: ts) := by
  rw [eat, if_neg h]

/-! ## Two streams -/

/-- Two token streams.  The second one is the first one moved, up to the end of the first; there
either both end or the second goes on after a newline. -/
structure Seam where
  move : Relocation
  stop : Token
  stop' : Token
  tail : List Token
  edge : tail = [] ∧ stop' = move.token stop ∨
    stop.kind = .eof ∧ ∃ newline more, tail = newline :: more ∧ newline.kind = .newline

namespace Seam

variable (S : Seam)

/-- The tail goes on with a well-formed item after its newline. -/
def Guarded : Prop :=
  Guard S.tail.tail

/-- What is left of the two streams at places that belong together. -/
def Sync (ts ts' : List Token) : Prop :=
  ts' = ts.map S.move.token ++ S.tail

/-- The next tokens at places that belong together. -/
inductive Front : List Token → List Token → Prop
  | token (t : Token) (ts ts' : List Token) (rest : S.Sync ts ts') :
      Front (t :: ts) (S.move.token t :: ts')
  | shut (same : S.stop' = S.move.token S.stop) (nil : S.tail = []) : Front [] []
  | opened (newline : Token) (more : List Token) (kind : newline.kind = .newline)
      (eof : S.stop.kind = .eof) (tail : S.tail = newline :: more) : Front [] (newline :: more)

variable {S}

theorem Sync.front {ts ts' : List Token} (h : S.Sync ts ts') : S.Front ts ts' := by
  unfold Sync at h
  subst h
  cases ts with
  | nil =>
    rcases S.edge with ⟨hnil, hstop⟩ | ⟨heof, newline, more, htail, hkind⟩
    · rw [List.map_nil, List.nil_append, hnil]
      exact .shut hstop hnil
    · rw [List.map_nil, List.nil_append, htail]
      exact .opened newline more hkind heof htail
  | cons t ts => exact .token t ts _ rfl

theorem Sync.cons {t : Token} {ts ts' : List Token} (h : S.Sync ts ts') :
    S.Sync (t :: ts) (S.move.token t :: ts') := by
  unfold Sync at h ⊢
  rw [h, List.map_cons, List.cons_append]

theorem Sync.uncons {t : Token} {ts ts' : List Token} (h : S.Sync (t :: ts) ts') :
    ∃ rest, ts' = S.move.token t :: rest ∧ S.Sync ts rest :=
  ⟨_, h, rfl⟩

theorem Sync.head_of_nil {ts' : List Token} (h : S.Sync [] ts') :
    ∀ t ∈ ts'.head?, t.kind = .newline := by
  cases h.front with
  | shut same nil => simp
  | opened newline more kind eof tail => simpa using kind

theorem Sync.not_isWord_of_nil {ts' : List Token} (h : S.Sync [] ts') :
    ∀ t ∈ ts'.head?, t.kind.isWord = false := by
  intro t ht
  rw [h.head_of_nil t ht]
  rfl

/-! ## Outcomes that belong together -/

/-- The outcomes of a reader on both streams: values that belong together, with what is left of
both; or faults at tokens that belong together; or the first stream ran out before its end was
allowed, and then the second outcome is a fault too if the tail is guarded. -/
inductive Firm (S : Seam) {α : Type} (f : α → α) {ts ts' : List Token} :
    Read α ts → Read α ts' → Prop
  | ok {r : Reading α ts} {r' : Reading α ts'} (value : r'.value = f r.value)
      (rest : S.Sync r.rest r'.rest) : Firm S f (.ok r) (.ok r')
  | error {d d' : Diagnostic} (moved : S.move.Moved d d') : Firm S f (.error d) (.error d')
  | ranOut {d : Diagnostic} {outcome : Read α ts'} (opened : S.tail ≠ [])
      (blocked : S.Guarded → ∃ d', outcome = .error d') : Firm S f (.error d) outcome

/-- Where no list of nodes or statements goes on: at the end, and before a well-formed item. -/
def Blocked (ts : List Token) : Prop :=
  ts = [] ∨ Guard (skipNewlines ts)

/-- Like `Firm`, but the first stream may also run out at an allowed end: then only newlines are
left of it, and what is left of the second stream is blocked if the tail is guarded. -/
inductive Loose (S : Seam) {α : Type} (f : α → α) {ts ts' : List Token} :
    Read α ts → Read α ts' → Prop
  | firm {outcome : Read α ts} {outcome' : Read α ts'} (firm : S.Firm f outcome outcome') :
      Loose S f outcome outcome'
  | spent {outcome : Read α ts} {outcome' : Read α ts'} (opened : S.tail ≠ [])
      (spent : ∀ r, outcome = .ok r → skipNewlines r.rest = [])
      (blocked : S.Guarded → ∀ r, outcome' = .ok r → Blocked r.rest) : Loose S f outcome outcome'

variable {α β : Type} {f : α → α} {g : β → β} {ts ts' us us' : List Token}

/-- Readers one after another. -/
theorem Firm.bind {outcome : Read α ts} {outcome' : Read α ts'} (h : S.Firm f outcome outcome')
    {next : Reading α ts → Read β us} {next' : Reading α ts' → Read β us'}
    (hnext : ∀ r r', r'.value = f r.value → S.Sync r.rest r'.rest →
      S.Firm g (next r) (next' r')) :
    S.Firm g (outcome >>= next) (outcome' >>= next') := by
  cases h with
  | ok value rest => exact hnext _ _ value rest
  | error moved => exact .error moved
  | ranOut opened blocked =>
    refine .ranOut opened fun hguard => ?_
    obtain ⟨d', rfl⟩ := blocked hguard
    exact ⟨d', rfl⟩

/-- A part that may run out, after one that may not. -/
theorem Firm.bind_loose {outcome : Read α ts} {outcome' : Read α ts'}
    (h : S.Firm f outcome outcome') {next : Reading α ts → Read β us}
    {next' : Reading α ts' → Read β us'}
    (hnext : ∀ r r', r'.value = f r.value → S.Sync r.rest r'.rest →
      S.Loose g (next r) (next' r')) :
    S.Loose g (outcome >>= next) (outcome' >>= next') := by
  cases h with
  | ok value rest => exact hnext _ _ value rest
  | error moved => exact .firm (.error moved)
  | ranOut opened blocked =>
    refine .firm (.ranOut opened fun hguard => ?_)
    obtain ⟨d', rfl⟩ := blocked hguard
    exact ⟨d', rfl⟩

/-- A reader that needs something after a part that may run out. -/
theorem Loose.bind {outcome : Read α ts} {outcome' : Read α ts'} (h : S.Loose f outcome outcome')
    {next : Reading α ts → Read β us} {next' : Reading α ts' → Read β us'}
    (hnext : ∀ r r', r'.value = f r.value → S.Sync r.rest r'.rest →
      S.Firm g (next r) (next' r'))
    (hspent : ∀ r, skipNewlines r.rest = [] → ∃ d, next r = .error d)
    (hblocked : ∀ r, Blocked r.rest → ∃ d, next' r = .error d) :
    S.Firm g (outcome >>= next) (outcome' >>= next') := by
  cases h with
  | firm firm => exact firm.bind hnext
  | spent opened spent blocked =>
    -- what comes next needs a token, and the first stream has none left but newlines
    have herror : ∃ d, (outcome >>= next) = .error d := by
      cases outcome with
      | error d => exact ⟨d, rfl⟩
      | ok r => exact hspent r (spent r rfl)
    obtain ⟨d, hd⟩ := herror
    rw [hd]
    -- the second stream may have gone on into the tail, but only to a place where `next'` fails
    refine .ranOut opened fun hguard => ?_
    cases outcome' with
    | error d => exact ⟨d, rfl⟩
    | ok r => exact hblocked r (blocked hguard r rfl)

/-- A part that may run out, at the end of a reader. -/
theorem Loose.map {outcome : Read α ts} {outcome' : Read α ts'} (h : S.Loose f outcome outcome')
    (next : Reading α ts → Reading β us) (next' : Reading α ts' → Reading β us')
    (hrest : ∀ r, (next r).rest = r.rest) (hrest' : ∀ r, (next' r).rest = r.rest)
    (hvalue : ∀ r r', r'.value = f r.value → (next' r').value = g (next r).value) :
    S.Loose g (outcome >>= fun r => .ok (next r)) (outcome' >>= fun r => .ok (next' r)) := by
  cases h with
  | firm firm =>
    refine .firm (firm.bind fun r r' value rest => .ok (hvalue r r' value) ?_)
    rw [hrest, hrest']
    exact rest
  | spent opened spent blocked =>
    -- `next` leaves what the part left, so the streams are spent and blocked as before
    refine .spent opened ?_ ?_
    · intro r hr
      cases outcome with
      | error d => cases hr
      | ok first =>
        cases hr
        rw [hrest]
        exact spent first rfl
    · intro hguard r hr
      cases outcome' with
      | error d => cases hr
      | ok first =>
        cases hr
        rw [hrest']
        exact blocked hguard first rfl

/-- Readings that belong together, of readers that always succeed. -/
structure Matched (S : Seam) (f : α → α) (r : Reading α ts) (r' : Reading α ts') : Prop where
  value : r'.value = f r.value
  rest : S.Sync r.rest r'.rest

/-! ## Single tokens -/

theorem expected_moved (kind : Kind) (t : Token) :
    S.Firm f (expected kind t : Read α ts) (expected kind (S.move.token t) : Read α ts') :=
  .error (S.move.moved_ofToken (.expectedToken kind t.kind) t)

theorem unexpected_moved (t : Token) :
    S.Firm f (unexpected t : Read α ts) (unexpected (S.move.token t) : Read α ts') :=
  .error (S.move.moved_ofToken (.unexpectedToken t.kind t.text) t)

/-- The first stream ran out, and the second reader fails as well. -/
theorem firm_of_errors {d d' : Diagnostic} (htail : S.tail ≠ []) :
    S.Firm f (.error d : Read α ts) (.error d' : Read α ts') :=
  .ranOut htail fun _ => ⟨d', rfl⟩

theorem expect_firm {kind : Kind} (hkind : kind ≠ .newline) (h : S.Sync ts ts') :
    S.Firm (Token.relocate S.move.place) (expect S.stop kind ts) (expect S.stop' kind ts') := by
  cases h.front with
  | token t ts ts' rest =>
    simp only [expect, Relocation.token_kind]
    by_cases hk : t.kind = kind
    · rw [if_pos hk, if_pos hk]
      exact .ok (S.move.token_of_ne_newline (hk ▸ hkind)) rest
    · rw [if_neg hk, if_neg hk]
      exact expected_moved kind t
  | shut same nil =>
    simp only [expect, same]
    exact expected_moved kind S.stop
  | opened newline more newline_kind eof tail =>
    -- the end marker fails on one side, the newline of the tail on the other
    simp only [expect, newline_kind, Ne.symm hkind, if_false]
    exact firm_of_errors (by simp [tail])

theorem eat_matched {kind : Kind} (hkind : kind ≠ .newline) (h : S.Sync ts ts') :
    S.Matched id (eat kind ts) (eat kind ts') := by
  cases h.front with
  | token t ts ts' rest =>
    by_cases hk : t.kind = kind
    · rw [eat_of_eq ts hk, eat_of_eq ts' ((S.move.token_kind t).trans hk)]
      exact ⟨rfl, rest⟩
    · rw [eat_of_ne ts hk, eat_of_ne ts' (S.move.token_kind t ▸ hk)]
      exact ⟨rfl, h⟩
  | shut same nil => exact ⟨rfl, h⟩
  | opened newline more newline_kind eof tail =>
    rw [eat_of_ne more (newline_kind ▸ Ne.symm hkind)]
    exact ⟨rfl, h⟩

theorem peek_of_front {ts ts' : List Token} (h : S.Sync ts ts') :
    peek S.stop' ts' = S.move.token (peek S.stop ts) ∨
      S.tail ≠ [] ∧ (peek S.stop ts).kind = .eof ∧ (peek S.stop' ts').kind = .newline := by
  cases h.front with
  | token t ts ts' rest => exact .inl rfl
  | shut same nil => exact .inl same
  | opened newline more newline_kind eof tail => exact .inr ⟨by simp [tail], eof, newline_kind⟩

theorem expectStatementEnd_firm (h : S.Sync ts ts') :
    S.Firm id (expectStatementEnd S.stop ts) (expectStatementEnd S.stop' ts') := by
  unfold expectStatementEnd
  rcases peek_of_front h with hpeek | ⟨-, heof, hnewline⟩
  · rw [hpeek, Relocation.token_kind]
    split
    · exact .ok rfl h
    · exact .ok rfl h
    · exact .ok rfl h
    · exact unexpected_moved _
  · -- a statement may end at the end of the first stream and before the newline of the tail
    rw [heof, hnewline]
    exact .ok rfl h

end Seam

/-! ## Runs of tokens, one step at a time -/

/-- How many brackets of one kind are open after a token, if `depth` were before it. -/
def depthPast (bracket : Bracket) (depth : Nat) (kind : Kind) : Nat :=
  if kind = .opening bracket then depth + 1
  else if kind = .closing bracket then depth - 1 else depth

theorem bracedTokens_cons (stop : Token) (depth : Nat) (t : Token) (ts : List Token) :
    bracedTokens stop depth (t :: ts) =
      if t.kind = .closing .brace ∧ depth = 0 then .ok ((Reading.nothing [] ts).cons t)
      else bracedTokens stop (depthPast .brace depth t.kind) ts >>= fun r =>
        .ok ((r.map (t :: ·)).cons t) := by
  obtain ⟨kind, text, loc⟩ := t
  cases kind with
  | opening bracket => cases bracket <;> rfl
  | closing bracket => cases bracket <;> cases depth <;> rfl
  | _ => rfl

theorem parenthesizedTokens_cons (stop : Token) (depth : Nat) (t : Token) (ts : List Token) :
    parenthesizedTokens stop depth (t :: ts) =
      if t.kind = .newline then expected (.closing .round) t
      else if t.kind = .closing .round ∧ depth = 0 then .ok ((Reading.nothing [] ts).cons t)
      else parenthesizedTokens stop (depthPast .round depth t.kind) ts >>= fun r =>
        .ok ((r.map (t :: ·)).cons t) := by
  obtain ⟨kind, text, loc⟩ := t
  cases kind with
  | opening bracket => cases bracket <;> rfl
  | closing bracket => cases bracket <;> cases depth <;> rfl
  | _ => rfl

theorem tokensToLineEnd_cons (depth : Nat) (t : Token) (ts : List Token) :
    tokensToLineEnd depth (t :: ts) =
      if (t.kind = .newline ∨ t.kind = .closing .brace) ∧ depth = 0 then .nothing [] (t :: ts)
      else ((tokensToLineEnd (RawText.depthAfter depth t) ts).map (t :: ·)).cons t := by
  obtain ⟨kind, text, loc⟩ := t
  cases kind with
  | opening bracket => rfl
  | closing bracket => cases bracket <;> cases depth <;> rfl
  | _ => cases depth <;> rfl

/-! ## Runs of tokens and nested brackets -/

/-- Properly nested brackets do not close a block that was open before them. -/
theorem bracedTokens_error_of_nestedAfter (stop : Token) {opened : List Bracket} {depth : Nat}
    {ts : List Token} (h : nestedAfter opened ts = true) (hdepth : opened.count .brace ≤ depth) :
    ∃ d, bracedTokens stop depth ts = .error d := by
  -- a brace that closes at depth zero would have to be among the opened ones
  induction ts generalizing opened depth with
  | nil => exact ⟨_, rfl⟩
  | cons t ts ih =>
    obtain ⟨inner, hinner, hstep⟩ := nestedAfter_cons h
    have hnot : ¬ (t.kind = .closing .brace ∧ depth = 0) := by
      rintro ⟨hk, rfl⟩
      grind
    have hle : inner.count .brace ≤ depthPast .brace depth t.kind := by
      unfold depthPast
      grind
    obtain ⟨d, hd⟩ := ih hinner hle
    rw [bracedTokens_cons, if_neg hnot, hd]
    exact ⟨d, rfl⟩

/-- A line that goes on inside an open bracket takes in all properly nested brackets. -/
theorem tokensToLineEnd_rest_of_nestedAfter {opened : List Bracket} {depth : Nat}
    {ts : List Token} (h : nestedAfter opened ts = true) (hdepth : opened.length < depth) :
    (tokensToLineEnd depth ts).rest = [] := by
  -- one bracket more is open than the tokens close, so the depth never comes down to zero
  induction ts generalizing opened depth with
  | nil => rfl
  | cons t ts ih =>
    obtain ⟨inner, hinner, hstep⟩ := nestedAfter_cons h
    have hlt : inner.length < RawText.depthAfter depth t := by
      unfold RawText.depthAfter
      grind
    rw [tokensToLineEnd_cons, if_neg (by omega)]
    exact ih hinner hlt

theorem skipNewlines_cons (t : Token) (ts : List Token) :
    skipNewlines (t :: ts) = if t.kind = .newline then skipNewlines ts else t :: ts := by
  unfold skipNewlines
  rw [List.dropWhile_cons]
  simp only [beq_iff_eq]

theorem Guard.skipNewlines {ts : List Token} (h : Guard ts) : skipNewlines ts = ts := by
  obtain ⟨first, rest, rfl, hstarts, -⟩ := h.starts
  rw [skipNewlines_cons, if_neg (ne_of_startsItem hstarts rfl)]

/-! ## Runs of tokens across the seam -/

namespace Seam

variable {S : Seam} {ts ts' : List Token}

theorem Guarded.guard_more (h : S.Guarded) {newline : Token} {more : List Token}
    (htail : S.tail = newline :: more) : Guard more := by
  unfold Guarded at h
  rwa [htail] at h

theorem Guarded.nestedAfter_tail (h : S.Guarded) {newline : Token} {more : List Token}
    (htail : S.tail = newline :: more) (hkind : newline.kind = .newline) :
    nestedAfter [] (newline :: more) = true := by
  have hmore := (h.guard_more htail).nested
  obtain ⟨kind, text, loc⟩ := newline
  obtain rfl : kind = .newline := hkind
  exact hmore

/-- Token runs that go on past a token, with that token put in front. -/
theorem Firm.cons_token {t : Token} {outcome : Read (List Token) ts}
    {outcome' : Read (List Token) ts'}
    (h : S.Firm (List.map S.move.token) outcome outcome') :
    S.Firm (List.map S.move.token)
      (outcome >>= fun r => .ok ((r.map (t :: ·)).cons t))
      (outcome' >>= fun r => .ok ((r.map (S.move.token t :: ·)).cons (S.move.token t))) := by
  refine h.bind fun r r' value rest => .ok ?_ rest
  exact congrArg (S.move.token t :: ·) value

theorem bracedTokens_firm (depth : Nat) (h : S.Sync ts ts') :
    S.Firm (List.map S.move.token) (bracedTokens S.stop depth ts)
      (bracedTokens S.stop' depth ts') := by
  induction ts generalizing depth ts' with
  | nil =>
    cases h.front with
    | shut same nil =>
      rw [bracedTokens, bracedTokens, same]
      exact .error (S.move.moved_ofToken _ _)
    | opened newline more kind eof tail =>
      -- the block is still open at the seam, and nothing in a guarded tail closes it
      refine .ranOut (by simp [tail]) fun hguard => ?_
      exact bracedTokens_error_of_nestedAfter S.stop' (hguard.nestedAfter_tail tail kind) (by simp)
  | cons t ts ih =>
    cases h.front with
    | token t ts ts' rest =>
      rw [bracedTokens_cons, bracedTokens_cons, Relocation.token_kind]
      split
      · exact .ok rfl rest
      · exact (ih _ rest).cons_token

theorem parenthesizedTokens_firm (depth : Nat) (h : S.Sync ts ts') :
    S.Firm (List.map S.move.token) (parenthesizedTokens S.stop depth ts)
      (parenthesizedTokens S.stop' depth ts') := by
  induction ts generalizing depth ts' with
  | nil =>
    cases h.front with
    | shut same nil =>
      rw [parenthesizedTokens, parenthesizedTokens, same]
      exact expected_moved _ _
    | opened newline more kind eof tail =>
      -- arguments stand on one line, so the newline of the tail ends them
      rw [parenthesizedTokens_cons, if_pos kind]
      exact firm_of_errors (by simp [tail])
  | cons t ts ih =>
    cases h.front with
    | token t ts ts' rest =>
      rw [parenthesizedTokens_cons, parenthesizedTokens_cons, Relocation.token_kind]
      split
      · exact expected_moved _ _
      · split
        · exact .ok rfl rest
        · exact (ih _ rest).cons_token

/-- A line may run out inside brackets that it opened. -/
theorem tokensToLineEnd_loose (depth : Nat) (h : S.Sync ts ts') :
    S.Loose (List.map S.move.token) (.ok (tokensToLineEnd depth ts))
      (.ok (tokensToLineEnd depth ts')) := by
  induction ts generalizing depth ts' with
  | nil =>
    cases h.front with
    | shut same nil => exact .firm (.ok rfl h)
    | opened newline more kind eof tail =>
      cases depth with
      | zero =>
        rw [tokensToLineEnd_cons, if_pos ⟨.inl kind, rfl⟩]
        exact .firm (.ok rfl h)
      | succ depth =>
        -- inside a bracket the newline does not end the line, and the tail is taken in as a whole
        refine .spent (by simp [tail]) ?_ ?_
        · rintro r ⟨⟩
          rfl
        · rintro hguard r ⟨⟩
          have hnested := hguard.nestedAfter_tail tail kind
          exact .inl (tokensToLineEnd_rest_of_nestedAfter hnested (Nat.succ_pos depth))
  | cons t ts ih =>
    cases h.front with
    | token t ts ts' rest =>
      rw [tokensToLineEnd_cons, tokensToLineEnd_cons, Relocation.token_kind]
      split
      · exact .firm (.ok rfl h)
      · refine (ih _ rest).map (fun r => (r.map (t :: ·)).cons t)
          (fun r => (r.map (S.move.token t :: ·)).cons (S.move.token t))
          (fun _ => rfl) (fun _ => rfl) fun r r' value => ?_
        exact congrArg (S.move.token t :: ·) value

/-! ## Newlines across the seam -/

variable (S) in
/-- The next tokens once all newlines are skipped at places that belong together. -/
inductive Skipped : List Token → List Token → Prop
  | token (t : Token) (ts ts' : List Token) (kind : t.kind ≠ .newline) (rest : S.Sync ts ts') :
      Skipped (t :: ts) (S.move.token t :: ts')
  | shut (same : S.stop' = S.move.token S.stop) : Skipped [] []
  | opened (ts' : List Token) (tail : S.tail ≠ []) (eof : S.stop.kind = .eof)
      (guard : S.Guarded → Guard ts') : Skipped [] ts'

theorem Sync.skipped (h : S.Sync ts ts') : S.Skipped (skipNewlines ts) (skipNewlines ts') := by
  induction ts generalizing ts' with
  | nil =>
    cases h.front with
    | shut same nil => exact .shut same
    | opened newline more kind eof tail =>
      refine .opened _ (by simp [tail]) eof fun hguard => ?_
      have hmore := hguard.guard_more tail
      rwa [skipNewlines_cons, if_pos kind, hmore.skipNewlines]
  | cons t ts ih =>
    cases h.front with
    | token t ts ts' rest =>
      rw [skipNewlines_cons, skipNewlines_cons, Relocation.token_kind]
      split
      · exact ih rest
      · exact .token t ts ts' ‹_› rest

/-- Both streams past the newlines, with no fewer tokens taken than that. -/
theorem Sync.skip (h : S.Sync ts ts') :
    ∃ us us', skipNewlines ts = us ∧ skipNewlines ts' = us' ∧ us.length ≤ ts.length ∧
      S.Skipped us us' :=
  ⟨_, _, rfl, rfl, length_skipNewlines_le ts, h.skipped⟩

theorem expect_firm_of_skipped {kind : Kind} (hkind : startsItem kind = false)
    (h : S.Skipped ts ts') :
    S.Firm (Token.relocate S.move.place) (expect S.stop kind ts) (expect S.stop' kind ts') := by
  cases h with
  | token t ts ts' notNewline rest =>
    by_cases hk : t.kind = kind
    · exact expect_firm (hk ▸ notNewline) rest.cons
    · rw [expect, expect, if_neg hk, Relocation.token_kind, if_neg hk]
      exact expected_moved kind t
  | shut same =>
    rw [expect, same]
    exact expected_moved kind S.stop
  | opened ts' tail eof guard =>
    -- past the newlines stands a word that an item starts with, which is not the one expected
    refine .ranOut tail fun hguard => ?_
    obtain ⟨first, rest, rfl, hstarts, -⟩ := (guard hguard).starts
    refine expect_error_of_ne S.stop' ?_
    rintro t ⟨⟩
    exact ne_of_startsItem hstarts hkind

theorem readBraced_firm (h : S.Skipped ts ts') :
    S.Firm (List.map S.move.token) (readBraced S.stop ts) (readBraced S.stop' ts') :=
  (expect_firm_of_skipped rfl h).bind fun _ _ _ rest =>
    (bracedTokens_firm 0 rest).bind fun _ _ value rest => .ok value rest

end Seam

end UiLang
