import Mathlib.Data.List.TakeWhile
import Mathlib.Logic.Function.Iterate
import UiLang.Program.Reader

/-!
# A cursor over the whole sequence

Readers are on a stream, which is cut at the first end marker of its token sequence.  A cursor keeps
the whole sequence, with whatever stands behind end markers, and a position in it.  It looks at the
current token or one further on, and moves on by one token unless that is an end marker.  So it
never passes the first end marker, and what it shows on its way is the stream.

## Main definitions

* `firstEnd`: how many tokens stand before the first end marker
* `Cursor`, `Cursor.ofList`: a place in a sequence that ends in an end marker
* `Cursor.peekNth`, `Cursor.peek`, `Cursor.next`, `Cursor.advance`: looking and moving on
* `Cursor.eat`, `Cursor.expect`, `Cursor.skipNewlines`, `Cursor.recover`: the steps made of these
* `Cursor.left`: the stream from the current token on

## Main results

* `ofList_take_firstEnd`: what stands behind the first end marker is no part of a stream
* `Cursor.left_ofList`: a cursor starts with the stream of its sequence
* `Cursor.peek_eq`, `Cursor.peekNth_eq`, `Cursor.left_next`: looking and moving on in the stream
* `Cursor.position_iterate_next`, `Cursor.peek_iterate_next`: where any number of moves leads, and
  what is seen there
* `Cursor.eat_agrees`, `Cursor.expect_agrees`, `Cursor.left_skipNewlines`, `Cursor.left_recover`:
  the steps are those of the readers
-/

namespace UiLang

/-! ## The first end marker -/

/-- How many tokens stand before the first end marker. -/
def firstEnd (tokens : List Token) : Nat :=
  tokens.findIdx fun token => token.kind = .eof

section FirstEnd

variable {before : List Token} {marker : Token} (after : List Token)
  (hbefore : ∀ token ∈ before, token.kind ≠ .eof) (hmarker : marker.kind = .eof)

include hbefore hmarker

theorem firstEnd_append_cons : firstEnd (before ++ marker :: after) = before.length := by
  have hnone : before.findIdx (fun token => token.kind = .eof) = before.length := by
    rw [List.findIdx_eq_length]
    intro token htoken
    simpa using hbefore token htoken
  rw [firstEnd, List.findIdx_append, hnone, if_neg (Nat.lt_irrefl _)]
  simp [List.findIdx_cons, hmarker]

theorem ofList_append_cons : TokenStream.ofList (before ++ marker :: after) = ⟨before, marker⟩ := by
  have htake : (before ++ marker :: after).takeWhile (fun token => token.kind ≠ .eof) = before := by
    rw [List.takeWhile_append_of_pos (by simpa using hbefore)]
    simp [hmarker]
  have hfind :
      (before ++ marker :: after).find? (fun token => token.kind = .eof) = some marker := by
    rw [List.find?_append, List.find?_eq_none.mpr (by simpa using hbefore)]
    simp [hmarker]
  rw [TokenStream.ofList, htake, hfind]
  rfl

end FirstEnd

/-- A sequence has no end marker, or stands around its first one. -/
theorem firstEnd_cases (tokens : List Token) :
    (∀ token ∈ tokens, token.kind ≠ .eof) ∨
      ∃ before marker after, tokens = before ++ marker :: after ∧
        (∀ token ∈ before, token.kind ≠ .eof) ∧ marker.kind = .eof := by
  cases hfind : tokens.find? (fun token => token.kind = .eof) with
  | none =>
    left
    simpa using hfind
  | some marker =>
    right
    obtain ⟨hmarker, before, after, rfl, hbefore⟩ := List.find?_eq_some_iff_append.mp hfind
    exact ⟨before, marker, after, rfl, by simpa using hbefore, by simpa using hmarker⟩

theorem firstEnd_of_forall {tokens : List Token} (h : ∀ token ∈ tokens, token.kind ≠ .eof) :
    firstEnd tokens = tokens.length := by
  rw [firstEnd, List.findIdx_eq_length]
  intro token htoken
  simpa using h token htoken

theorem ofList_of_forall {tokens : List Token} (h : ∀ token ∈ tokens, token.kind ≠ .eof) :
    TokenStream.ofList tokens = ⟨tokens, TokenStream.defaultStop tokens⟩ := by
  have htake : tokens.takeWhile (fun token => token.kind ≠ .eof) = tokens :=
    List.takeWhile_eq_self_iff.mpr (by simpa using h)
  have hfind : tokens.find? (fun token => token.kind = .eof) = none :=
    List.find?_eq_none.mpr (by simpa using h)
  rw [TokenStream.ofList, htake, hfind]
  rfl

theorem tokens_ofList (tokens : List Token) :
    (TokenStream.ofList tokens).tokens = tokens.take (firstEnd tokens) := by
  rcases firstEnd_cases tokens with h | ⟨before, marker, after, rfl, hbefore, hmarker⟩
  · rw [firstEnd_of_forall h, List.take_length, ofList_of_forall h]
  · rw [ofList_append_cons after hbefore hmarker, firstEnd_append_cons after hbefore hmarker,
      List.take_left]

theorem length_tokens_ofList (tokens : List Token) :
    (TokenStream.ofList tokens).tokens.length = firstEnd tokens := by
  rw [tokens_ofList, List.length_take]
  exact min_eq_left List.findIdx_le_length

/-- What stands behind the first end marker is no part of a stream. -/
theorem ofList_take_firstEnd (tokens : List Token) :
    TokenStream.ofList (tokens.take (firstEnd tokens + 1)) = .ofList tokens := by
  rcases firstEnd_cases tokens with h | ⟨before, marker, after, rfl, hbefore, hmarker⟩
  · rw [firstEnd_of_forall h, List.take_of_length_le (Nat.le_succ _)]
  · rw [firstEnd_append_cons after hbefore hmarker, ofList_append_cons after hbefore hmarker,
      List.take_length_add_append, List.take_succ_cons, List.take_zero,
      ofList_append_cons [] hbefore hmarker]

theorem ofList_cons {token : Token} (h : token.kind ≠ .eof) {tokens : List Token}
    (hne : tokens ≠ []) : TokenStream.ofList (token :: tokens) =
      ⟨token :: (TokenStream.ofList tokens).tokens, (TokenStream.ofList tokens).stop⟩ := by
  have hstop : TokenStream.defaultStop (token :: tokens) = TokenStream.defaultStop tokens := by
    unfold TokenStream.defaultStop
    rw [List.getLast?_cons_of_ne_nil hne]
  rw [TokenStream.ofList, TokenStream.ofList, hstop]
  simp [h]

/-! ## Cursors -/

/-- A token sequence that ends in an end marker, and a position in it.  There may be more end
markers before the last one. -/
structure Cursor where
  tokens : List Token
  position : Nat
  ends : ∃ marker ∈ tokens.getLast?, marker.kind = .eof
  position_lt : position < tokens.length

namespace Cursor

/-- The sequence with an end marker behind it, unless its last token is one. -/
def closed (tokens : List Token) : List Token :=
  if tokens.getLast?.any fun token => token.kind = .eof then tokens
  else tokens ++ [TokenStream.defaultStop tokens]

theorem closed_ends (tokens : List Token) :
    ∃ marker ∈ (closed tokens).getLast?, marker.kind = .eof := by
  unfold closed
  split
  · rename_i hlast
    simpa [Option.any_eq_true] using hlast
  · exact ⟨_, List.getLast?_concat, TokenStream.kind_defaultStop tokens⟩

theorem closed_length_pos (tokens : List Token) : 0 < (closed tokens).length := by
  obtain ⟨marker, hmarker, -⟩ := closed_ends tokens
  exact List.length_pos_of_mem (List.mem_of_getLast? hmarker)

/-- A cursor at the first token of a sequence. -/
def ofList (tokens : List Token) : Cursor :=
  ⟨closed tokens, 0, closed_ends tokens, closed_length_pos tokens⟩

variable (c : Cursor)

theorem min_lt_length (n : Nat) : min (c.position + n) (c.tokens.length - 1) < c.tokens.length := by
  have := c.position_lt
  omega

/-- The `n`-th token behind the current one, and the last token where there is none. -/
def peekNth (n : Nat) : Token :=
  c.tokens.get ⟨min (c.position + n) (c.tokens.length - 1), c.min_lt_length n⟩

/-- The current token. -/
def peek : Token :=
  c.peekNth 0

theorem getElem?_eq_peekNth (n : Nat) :
    c.tokens[min (c.position + n) (c.tokens.length - 1)]? = some (c.peekNth n) :=
  List.getElem?_eq_getElem (c.min_lt_length n)

theorem getElem?_position : c.tokens[c.position]? = some c.peek := by
  have hmin : min (c.position + 0) (c.tokens.length - 1) = c.position := by
    have := c.position_lt
    omega
  rw [peek, ← c.getElem?_eq_peekNth 0, hmin]

/-- The last token is an end marker, so any other one has a token behind it. -/
theorem succ_position_lt (h : c.peek.kind ≠ .eof) : c.position + 1 < c.tokens.length := by
  refine Nat.lt_of_le_of_ne c.position_lt fun hlast => h ?_
  obtain ⟨marker, hmarker, hkind⟩ := c.ends
  have hpeek := c.getElem?_position
  -- the current token is the last one, which is an end marker
  rw [← Nat.add_sub_cancel (n := c.position) (m := 1), hlast, ← List.getLast?_eq_getElem?] at hpeek
  rw [← Option.some.inj (hmarker.symm.trans hpeek)]
  exact hkind

/-- Moves on to the token behind the current one, unless that is an end marker. -/
def next : Cursor :=
  if h : c.peek.kind ≠ .eof then ⟨c.tokens, c.position + 1, c.ends, c.succ_position_lt h⟩ else c

/-- Hands out the current token and moves on. -/
def advance : Token × Cursor :=
  (c.peek, c.next)

/-! ## What a cursor shows -/

/-- The stream from the current token on. -/
def left : TokenStream :=
  .ofList (c.tokens.drop c.position)

theorem ofList_closed (tokens : List Token) :
    TokenStream.ofList (closed tokens) = .ofList tokens := by
  unfold closed
  split
  · rfl
  · rcases firstEnd_cases tokens with h | ⟨before, marker, after, rfl, hbefore, hmarker⟩
    · rw [ofList_append_cons [] h (TokenStream.kind_defaultStop tokens), ofList_of_forall h]
    · -- what is put behind a sequence with an end marker does not show
      rw [List.append_assoc, List.cons_append, ofList_append_cons _ hbefore hmarker,
        ofList_append_cons _ hbefore hmarker]

/-- **A cursor starts with the stream of its sequence.** -/
theorem left_ofList (tokens : List Token) : (ofList tokens).left = .ofList tokens :=
  ofList_closed tokens

variable {c}

theorem drop_position : c.tokens.drop c.position = c.peek :: c.tokens.drop (c.position + 1) := by
  rw [List.drop_eq_getElem_cons c.position_lt]
  congr 1
  exact Option.some.inj ((List.getElem?_eq_getElem c.position_lt).symm.trans c.getElem?_position)

theorem next_of_end (h : c.peek.kind = .eof) : c.next = c :=
  dif_neg (not_not.mpr h)

theorem left_of_end (h : c.peek.kind = .eof) : c.left = ⟨[], c.peek⟩ := by
  rw [left, drop_position]
  exact ofList_append_cons _ (List.forall_mem_nil _) h

section Within

variable (h : c.peek.kind ≠ .eof)

include h

theorem next_eq : c.next = ⟨c.tokens, c.position + 1, c.ends, c.succ_position_lt h⟩ :=
  dif_pos h

theorem left_eq_cons : c.left = ⟨c.peek :: c.next.left.tokens, c.next.left.stop⟩ := by
  have hne : c.tokens.drop (c.position + 1) ≠ [] := by
    rw [Ne, List.drop_eq_nil_iff, not_le]
    exact c.succ_position_lt h
  rw [next_eq h, left, drop_position, ofList_cons h hne]
  rfl

/-- Looking further on is looking from the next token on. -/
theorem peekNth_succ (n : Nat) : c.peekNth (n + 1) = c.next.peekNth n := by
  have hnext := c.next.getElem?_eq_peekNth n
  rw [next_eq h] at hnext ⊢
  rw [← Option.some_inj, ← getElem?_eq_peekNth, ← hnext, Nat.add_right_comm, Nat.add_assoc]

end Within

/-- **The current token is the next one of the stream**, which is its end marker at the end. -/
theorem peek_eq : c.peek = UiLang.peek c.left.stop c.left.tokens := by
  by_cases h : c.peek.kind = .eof
  · rw [left_of_end h]
    rfl
  · rw [left_eq_cons h]
    rfl

/-- **Moving on takes a token from the stream**, and leaves it as it is at the end. -/
theorem left_next : c.next.left = ⟨c.left.tokens.tail, c.left.stop⟩ := by
  by_cases h : c.peek.kind = .eof
  · rw [next_of_end h, left_of_end h]
    rfl
  · rw [left_eq_cons h]
    rfl

/-- **Tokens further on are those of the stream**, up to its end marker.  Behind that one a cursor
sees more than the stream holds. -/
theorem peekNth_eq {n : Nat} (h : n ≤ c.left.tokens.length) :
    c.peekNth n = UiLang.peek c.left.stop (c.left.tokens.drop n) := by
  induction n generalizing c with
  | zero => exact peek_eq
  | succ n ih =>
    have hend : c.peek.kind ≠ .eof := by
      intro habs
      rw [left_of_end habs] at h
      exact absurd h (Nat.not_succ_le_zero n)
    rw [left_eq_cons hend] at h ⊢
    rw [peekNth_succ hend, ih (Nat.le_of_succ_le_succ h)]
    rfl

/-- What is passed and what is left before the first end marker stays the same in sum. -/
theorem position_next :
    c.next.position + c.next.left.tokens.length = c.position + c.left.tokens.length := by
  by_cases h : c.peek.kind = .eof
  · rw [next_of_end h]
  · rw [left_eq_cons h, List.length_cons, next_eq h]
    exact Nat.add_right_comm c.position 1 _

/-! ## Any number of moves -/

theorem left_iterate_next (c : Cursor) (n : Nat) :
    (next^[n] c).left = ⟨c.left.tokens.drop n, c.left.stop⟩ := by
  induction n with
  | zero => rfl
  | succ n ih => rw [Function.iterate_succ_apply', left_next, ih, List.tail_drop]

theorem position_iterate_add (c : Cursor) (n : Nat) :
    (next^[n] c).position + (next^[n] c).left.tokens.length =
      c.position + c.left.tokens.length := by
  induction n with
  | zero => rfl
  | succ n ih => rw [Function.iterate_succ_apply', position_next, ih]

/-- **No number of moves passes the first end marker**, and each one before it counts. -/
theorem position_iterate_next (tokens : List Token) (n : Nat) :
    (next^[n] (ofList tokens)).position = min n (firstEnd tokens) := by
  -- the moves are known by what they leave
  have hsum := position_iterate_add (ofList tokens) n
  rw [left_iterate_next, left_ofList, List.length_drop, length_tokens_ofList] at hsum
  change _ = 0 + _ at hsum
  omega

/-- **On its way a cursor shows the stream of its sequence**, one token after each move, and then
its end marker for good. -/
theorem peek_iterate_next (tokens : List Token) (n : Nat) :
    (next^[n] (ofList tokens)).peek =
      UiLang.peek (TokenStream.ofList tokens).stop ((TokenStream.ofList tokens).tokens.drop n) := by
  rw [peek_eq, left_iterate_next, left_ofList]

/-! ## Steps of readers -/

variable (c)

/-- Takes the current token if it is of a given kind. -/
def eat (kind : Kind) : Option Token × Cursor :=
  if c.peek.kind = kind then (some c.peek, c.next) else (none, c)

/-- Takes a token of a given kind. -/
def expect (kind : Kind) : Except Diagnostic (Token × Cursor) :=
  if c.peek.kind = kind then .ok c.advance
  else .error (.ofToken (.expectedToken kind c.peek.kind) c.peek)

theorem length_sub_next_lt (h : c.peek.kind ≠ .eof) :
    c.next.tokens.length - c.next.position < c.tokens.length - c.position := by
  have := c.succ_position_lt h
  rw [next_eq h]
  dsimp only
  omega

/-- Moves on to the first token that is not a newline. -/
def skipNewlines (c : Cursor) : Cursor :=
  if _h : c.peek.kind = .newline then c.next.skipNewlines else c
termination_by c.tokens.length - c.position
decreasing_by exact c.length_sub_next_lt (_h ▸ Kind.noConfusion)

/-- Moves on behind an item that can not be read.  It ends at a newline outside its braces, or
before a line that starts with a word that only an item starts with. -/
def recover (depth : Int) (c : Cursor) : Cursor :=
  if _h : c.peek.kind = .eof then c
  else
    match c.peek.kind with
    | .opening .brace => c.next.recover (depth + 1)
    | .closing .brace => c.next.recover (depth - 1)
    | .newline =>
      if depth ≤ 0 ∨ startsItem c.next.peek.kind then c.next else c.next.recover depth
    | _ => c.next.recover depth
termination_by c.tokens.length - c.position
decreasing_by all_goals exact c.length_sub_next_lt _h

/-! Each step takes from a cursor what the reader's step takes from the stream.  Readers never ask
for an end marker, which a cursor would hand out again and again. -/

variable {c}

theorem eat_agrees {kind : Kind} (hkind : kind ≠ .eof) :
    (c.eat kind).1.isSome = (UiLang.eat kind c.left.tokens).value ∧
      (c.eat kind).2.left = ⟨(UiLang.eat kind c.left.tokens).rest, c.left.stop⟩ := by
  unfold eat
  by_cases hend : c.peek.kind = .eof
  · rw [if_neg (fun habs => hkind (habs.symm.trans hend)), left_of_end hend]
    exact ⟨rfl, rfl⟩
  · rw [left_eq_cons hend, UiLang.eat]
    split
    · exact ⟨rfl, rfl⟩
    · exact ⟨rfl, left_eq_cons hend⟩

theorem expect_agrees {kind : Kind} (hkind : kind ≠ .eof) :
    (c.expect kind).map (fun taken => (taken.1, taken.2.left)) =
      (UiLang.expect c.left.stop kind c.left.tokens).map
        fun found => (found.value, ⟨found.rest, c.left.stop⟩) := by
  unfold expect
  by_cases hend : c.peek.kind = .eof
  · rw [if_neg (fun habs => hkind (habs.symm.trans hend)), left_of_end hend]
    rfl
  · rw [left_eq_cons hend, UiLang.expect]
    split
    · rfl
    · rfl

theorem left_skipNewlines :
    c.skipNewlines.left = ⟨UiLang.skipNewlines c.left.tokens, c.left.stop⟩ := by
  fun_induction skipNewlines c with
  | case1 c hnewline ih =>
    have hend : c.peek.kind ≠ .eof := hnewline ▸ Kind.noConfusion
    rw [ih, left_eq_cons hend]
    simp [UiLang.skipNewlines, hnewline]
  | case2 c hother =>
    by_cases hend : c.peek.kind = .eof
    · rw [left_of_end hend]
      rfl
    · rw [left_eq_cons hend]
      simp [UiLang.skipNewlines, hother]

theorem left_recover (depth : Int) :
    (c.recover depth).left = ⟨skipItem c.left.stop depth c.left.tokens, c.left.stop⟩ := by
  fun_induction recover depth c with
  | case1 depth c hend =>
    rw [left_of_end hend]
    rfl
  | case2 depth c hend hkind ih =>
    rw [ih, left_eq_cons hend, skipItem, hkind]
  | case3 depth c hend hkind ih =>
    rw [ih, left_eq_cons hend, skipItem, hkind]
  | case4 depth c hend hkind hstops =>
    rw [peek_eq] at hstops
    rw [left_eq_cons hend, skipItem, hkind]
    exact congrArg (TokenStream.mk · _) (if_pos hstops).symm
  | case5 depth c hend hkind hgoes ih =>
    rw [peek_eq] at hgoes
    rw [ih, left_eq_cons hend, skipItem, hkind]
    exact congrArg (TokenStream.mk · _) (if_neg hgoes).symm
  | case6 depth c hend hopening hclosing hnewline ih =>
    rw [ih, left_eq_cons hend, skipItem]
    split
    · rename_i hkind
      exact absurd hkind hopening
    · rename_i hkind
      exact absurd hkind hclosing
    · rename_i hkind
      exact absurd hkind hnewline
    · rfl

end Cursor

end UiLang
