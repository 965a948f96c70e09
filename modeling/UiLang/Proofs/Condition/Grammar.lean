import UiLang.Condition.Reader
import UiLang.Proofs.Seam.Condition
import UiLang.Proofs.Syntax.Gives

/-!
# The grammar of conditions

Conditions have a stratified grammar.  From loosest to tightest, with left grouping for the two
connectives and at most one comparison:

  `disjunction ::= conjunction | disjunction || conjunction`
  `conjunction ::= negation | conjunction && negation`
  `negation    ::= ! negation | comparison`
  `comparison  ::= primary | primary op primary`
  `primary     ::= path | number | - number | string | boolean | null | ( disjunction )`

The reader goes through the same strata with loops in place of the two left recursions.  It is
sound: what it takes from the front derives what it gives.  It is complete: tokens that derive a
condition are taken whole, as long as the next token does not make them longer.

## Main definitions

* `Stratum`, `Derives`: the strata, and the derivations
* `Stratum.EndsAt`: the next token does not go on with a stratum

## Main results

* `derives_of_readDisjunction`: soundness
* `Derives.gives_readDisjunction`: completeness
-/

namespace UiLang

/-- The strata of the grammar, loosest first. -/
inductive Stratum where
  | disjunction
  | conjunction
  | negation
  | comparison
  | primary
  deriving DecidableEq, Repr

/-- Fields of a path: a point and a word each. -/
inductive DerivesFields : List Token → List String → Prop
  | nil : DerivesFields [] []
  | cons (point field : Token) (ts : List Token) (fields : List String) (dot : point.kind = .dot)
      (word : field.kind.isWord = true) (rest : DerivesFields ts fields) :
      DerivesFields (point :: field :: ts) (field.text :: fields)

/-- The tokens derive the condition in a stratum. -/
inductive Derives : Stratum → List Token → Condition → Prop
  | ofConjunction {p : List Token} {e : Condition} (inner : Derives .conjunction p e) :
      Derives .disjunction p e
  | or {p q : List Token} {op : Token} {l r : Condition} (left : Derives .disjunction p l)
      (kind : op.kind = .connective .or) (right : Derives .conjunction q r) :
      Derives .disjunction (p ++ op :: q) (.logical .or l r)
  | ofNegation {p : List Token} {e : Condition} (inner : Derives .negation p e) :
      Derives .conjunction p e
  | and {p q : List Token} {op : Token} {l r : Condition} (left : Derives .conjunction p l)
      (kind : op.kind = .connective .and) (right : Derives .negation q r) :
      Derives .conjunction (p ++ op :: q) (.logical .and l r)
  | not {p : List Token} {bang : Token} {e : Condition} (kind : bang.kind = .bang)
      (operand : Derives .negation p e) : Derives .negation (bang :: p) (.not e)
  | ofComparison {p : List Token} {e : Condition} (inner : Derives .comparison p e) :
      Derives .negation p e
  | compare {p q : List Token} {token : Token} {op : Comparison} {l r : Condition}
      (left : Derives .primary p l) (kind : token.kind = .comparison op)
      (right : Derives .primary q r) : Derives .comparison (p ++ token :: q) (.compare op l r)
  | ofPrimary {p : List Token} {e : Condition} (inner : Derives .primary p e) :
      Derives .comparison p e
  | path {root : Token} {ts : List Token} {fields : List String} (kind : root.kind = .identifier)
      (rest : DerivesFields ts fields) : Derives .primary (root :: ts) (.path ⟨root.text, fields⟩)
  | number {token : Token} (kind : token.kind = .number) :
      Derives .primary [token] (.literal (.number token.text))
  | negative {minus token : Token} (sign : minus.kind = .minus) (kind : token.kind = .number) :
      Derives .primary [minus, token] (.literal (.number ("-" ++ token.text)))
  | string {token : Token} (kind : token.kind = .string) :
      Derives .primary [token] (.literal (.string token.text))
  | boolean {token : Token} (kind : token.kind = .boolean) :
      Derives .primary [token] (.literal (.boolean (token.text == "true")))
  | null {token : Token} (kind : token.kind = .null) : Derives .primary [token] (.literal .null)
  | group {p : List Token} {opening closing : Token} {e : Condition}
      (opens : opening.kind = .opening .round) (inner : Derives .disjunction p e)
      (closes : closing.kind = .closing .round) : Derives .primary (opening :: p ++ [closing]) e

/-! ## Soundness -/

section Soundness

variable {stop : Token}

/-- Two parts taken one after another. -/
theorem eq_append_of_parts {ts us vs p q : List Token} (hp : ts = p ++ us) (hq : us = q ++ vs) :
    ts = p ++ q ++ vs := by
  rw [hp, hq, List.append_assoc]

theorem derivesFields_of_readFields (ts : List Token) :
    ∃ p, ts = p ++ (readFields ts).rest ∧ DerivesFields p (readFields ts).value := by
  fun_induction readFields ts with
  | case1 => exact ⟨[], rfl, .nil⟩
  | case2 token => exact ⟨[], rfl, .nil⟩
  | case3 point field rest hboth ih =>
    obtain ⟨p, hp, hfields⟩ := ih
    refine ⟨point :: field :: p, ?_, .cons point field p _ hboth.1 hboth.2 hfields⟩
    exact congrArg (point :: field :: ·) hp
  | case4 point field rest hboth => exact ⟨[], rfl, .nil⟩

-- Each theorem follows its reader.  The readers that go on after a left operand are given the
-- derivation of that operand, and make it longer.
mutual

/-- **Soundness.**  What is taken as a condition derives it. -/
theorem derives_of_readDisjunction {ts : List Token} {r : Reading Condition ts}
    (h : readDisjunction stop ts = .ok r) :
    ∃ p, ts = p ++ r.rest ∧ Derives .disjunction p r.value := by
  rw [readDisjunction] at h
  obtain ⟨first, hfirst, h⟩ := ok_of_bind_eq h
  obtain ⟨more, hmore, h⟩ := ok_of_bind_eq h
  cases h
  obtain ⟨p, hp, hderives⟩ := derives_of_readConjunction hfirst
  obtain ⟨q, hq, hall⟩ := derives_of_readDisjunctionAfter (.ofConjunction hderives) hmore
  exact ⟨p ++ q, eq_append_of_parts hp hq, hall⟩
termination_by 6 * ts.length + 5
decreasing_by
  · omega
  · have := first.length_le
    omega

theorem derives_of_readDisjunctionAfter {left : Condition} {ts p : List Token}
    {r : Reading Condition ts} (hleft : Derives .disjunction p left)
    (h : readDisjunctionAfter stop left ts = .ok r) :
    ∃ q, ts = q ++ r.rest ∧ Derives .disjunction (p ++ q) r.value := by
  match ts, r, h with
  | [], r, h =>
    rw [readDisjunctionAfter] at h
    cases h
    exact ⟨[], rfl, by rwa [List.append_nil]⟩
  | token :: rest, r, h =>
    rw [readDisjunctionAfter] at h
    split at h
    · rename_i hkind
      obtain ⟨right, hright, h⟩ := ok_of_bind_eq h
      obtain ⟨more, hmore, h⟩ := ok_of_bind_eq h
      cases h
      obtain ⟨q, hq, hderives⟩ := derives_of_readConjunction hright
      obtain ⟨q', hq', hall⟩ :=
        derives_of_readDisjunctionAfter (.or hleft hkind hderives) hmore
      rw [List.append_assoc] at hall
      exact ⟨token :: q ++ q', congrArg (token :: ·) (eq_append_of_parts hq hq'), hall⟩
    · cases h
      exact ⟨[], rfl, by rwa [List.append_nil]⟩
termination_by 6 * ts.length
decreasing_by
  · simp only [List.length_cons]
    omega
  · have := right.length_le
    simp only [List.length_cons]
    omega

theorem derives_of_readConjunction {ts : List Token} {r : Reading Condition ts}
    (h : readConjunction stop ts = .ok r) :
    ∃ p, ts = p ++ r.rest ∧ Derives .conjunction p r.value := by
  rw [readConjunction] at h
  obtain ⟨first, hfirst, h⟩ := ok_of_bind_eq h
  obtain ⟨more, hmore, h⟩ := ok_of_bind_eq h
  cases h
  obtain ⟨p, hp, hderives⟩ := derives_of_readNegation hfirst
  obtain ⟨q, hq, hall⟩ := derives_of_readConjunctionAfter (.ofNegation hderives) hmore
  exact ⟨p ++ q, eq_append_of_parts hp hq, hall⟩
termination_by 6 * ts.length + 4
decreasing_by
  · omega
  · have := first.length_le
    omega

theorem derives_of_readConjunctionAfter {left : Condition} {ts p : List Token}
    {r : Reading Condition ts} (hleft : Derives .conjunction p left)
    (h : readConjunctionAfter stop left ts = .ok r) :
    ∃ q, ts = q ++ r.rest ∧ Derives .conjunction (p ++ q) r.value := by
  match ts, r, h with
  | [], r, h =>
    rw [readConjunctionAfter] at h
    cases h
    exact ⟨[], rfl, by rwa [List.append_nil]⟩
  | token :: rest, r, h =>
    rw [readConjunctionAfter] at h
    split at h
    · rename_i hkind
      obtain ⟨right, hright, h⟩ := ok_of_bind_eq h
      obtain ⟨more, hmore, h⟩ := ok_of_bind_eq h
      cases h
      obtain ⟨q, hq, hderives⟩ := derives_of_readNegation hright
      obtain ⟨q', hq', hall⟩ :=
        derives_of_readConjunctionAfter (.and hleft hkind hderives) hmore
      rw [List.append_assoc] at hall
      exact ⟨token :: q ++ q', congrArg (token :: ·) (eq_append_of_parts hq hq'), hall⟩
    · cases h
      exact ⟨[], rfl, by rwa [List.append_nil]⟩
termination_by 6 * ts.length
decreasing_by
  · simp only [List.length_cons]
    omega
  · have := right.length_le
    simp only [List.length_cons]
    omega

theorem derives_of_readNegation {ts : List Token} {r : Reading Condition ts}
    (h : readNegation stop ts = .ok r) :
    ∃ p, ts = p ++ r.rest ∧ Derives .negation p r.value := by
  have hcomparison (h : readComparison stop ts = .ok r) :
      ∃ p, ts = p ++ r.rest ∧ Derives .negation p r.value := by
    obtain ⟨p, hp, hderives⟩ := derives_of_readComparison h
    exact ⟨p, hp, .ofComparison hderives⟩
  match ts, r, h, hcomparison with
  | [], r, h, hcomparison =>
    rw [readNegation] at h
    exact hcomparison h
  | token :: rest, r, h, hcomparison =>
    rw [readNegation] at h
    split at h
    · rename_i hkind
      obtain ⟨operand, hoperand, h⟩ := ok_of_bind_eq h
      cases h
      obtain ⟨p, hp, hderives⟩ := derives_of_readNegation hoperand
      exact ⟨token :: p, congrArg (token :: ·) hp, .not hkind hderives⟩
    · exact hcomparison h
termination_by 6 * ts.length + 3

theorem derives_of_readComparison {ts : List Token} {r : Reading Condition ts}
    (h : readComparison stop ts = .ok r) :
    ∃ p, ts = p ++ r.rest ∧ Derives .comparison p r.value := by
  rw [readComparison] at h
  obtain ⟨left, hleft, h⟩ := ok_of_bind_eq h
  obtain ⟨more, hmore, h⟩ := ok_of_bind_eq h
  cases h
  obtain ⟨p, hp, hderives⟩ := derives_of_readPrimary hleft
  obtain ⟨q, hq, hall⟩ := derives_of_readComparisonAfter hderives hmore
  exact ⟨p ++ q, eq_append_of_parts hp hq, hall⟩
termination_by 6 * ts.length + 2
decreasing_by
  · omega
  · have := left.length_le
    omega

theorem derives_of_readComparisonAfter {left : Condition} {ts p : List Token}
    {r : Reading Condition ts} (hleft : Derives .primary p left)
    (h : readComparisonAfter stop left ts = .ok r) :
    ∃ q, ts = q ++ r.rest ∧ Derives .comparison (p ++ q) r.value := by
  match ts, r, h with
  | [], r, h =>
    rw [readComparisonAfter] at h
    cases h
    exact ⟨[], rfl, by rw [List.append_nil]; exact .ofPrimary hleft⟩
  | token :: rest, r, h =>
    rw [readComparisonAfter] at h
    split at h
    · rename_i op hkind
      obtain ⟨right, hright, h⟩ := ok_of_bind_eq h
      cases h
      obtain ⟨q, hq, hderives⟩ := derives_of_readPrimary hright
      exact ⟨token :: q, congrArg (token :: ·) hq, .compare hleft hkind hderives⟩
    · cases h
      exact ⟨[], rfl, by rw [List.append_nil]; exact .ofPrimary hleft⟩
termination_by 6 * ts.length

theorem derives_of_readPrimary {ts : List Token} {r : Reading Condition ts}
    (h : readPrimary stop ts = .ok r) :
    ∃ p, ts = p ++ r.rest ∧ Derives .primary p r.value := by
  match ts, r, h with
  | [], r, h =>
    rw [readPrimary] at h
    cases h
  | token :: rest, r, h =>
    rw [readPrimary] at h
    split at h
    · rename_i hkind
      cases h
      obtain ⟨p, hp, hfields⟩ := derivesFields_of_readFields rest
      exact ⟨token :: p, congrArg (token :: ·) hp, .path hkind hfields⟩
    · rename_i hkind
      cases h
      exact ⟨[token], rfl, .number hkind⟩
    · rename_i hkind
      cases rest with
      | nil => cases h
      | cons number rest =>
        rw [readNegated?] at h
        split at h
        · rename_i value hvalue
          split at hvalue
          · rename_i hnumber
            cases hvalue
            cases h
            exact ⟨[token, number], rfl, .negative hkind hnumber⟩
          · cases hvalue
        · cases h
    · rename_i hkind
      cases h
      exact ⟨[token], rfl, .string hkind⟩
    · rename_i hkind
      cases h
      exact ⟨[token], rfl, .boolean hkind⟩
    · rename_i hkind
      cases h
      exact ⟨[token], rfl, .null hkind⟩
    · rename_i hkind
      obtain ⟨inner, hinner, h⟩ := ok_of_bind_eq h
      obtain ⟨close, hclose, h⟩ := ok_of_bind_eq h
      cases h
      obtain ⟨p, hp, hderives⟩ := derives_of_readDisjunction hinner
      obtain ⟨hrest, hclosing⟩ := ok_of_expect_eq hclose
      exact ⟨token :: p ++ [close.value], congrArg (token :: ·) (eq_append_of_parts hp hrest),
        .group hkind hderives hclosing⟩
    · cases h
termination_by 6 * ts.length + 1

end

end Soundness

/-! ## Completeness -/

/-- The next tighter stratum. -/
def Stratum.tighter : Stratum → Stratum
  | .disjunction => .conjunction
  | .conjunction => .negation
  | .negation => .comparison
  | .comparison | .primary => .primary

/-- Kinds that go on with a stratum. -/
def Stratum.goesOn : Stratum → Kind → Bool
  | _, .dot => true
  | .primary, _ => false
  | _, .comparison _ => true
  | .conjunction, .connective .and => true
  | .disjunction, .connective _ => true
  | _, _ => false

/-- The next token does not go on with a stratum. -/
def Stratum.EndsAt (stratum : Stratum) (rest : List Token) : Prop :=
  ∀ token ∈ rest.head?, stratum.goesOn token.kind = false

section Completeness

variable {stop : Token} {rest : List Token} {stratum : Stratum}

theorem Stratum.EndsAt.ne {kind : Kind} (h : stratum.EndsAt rest)
    (hkind : stratum.goesOn kind = true) : ∀ token ∈ rest.head?, token.kind ≠ kind := by
  rintro token htoken rfl
  rw [h token htoken] at hkind
  cases hkind

/-- What ends a stratum ends the next tighter one. -/
theorem Stratum.EndsAt.tighten (h : stratum.EndsAt rest) : stratum.tighter.EndsAt rest := by
  intro token htoken
  have hkind := h token htoken
  generalize token.kind = kind at hkind ⊢
  cases stratum <;> cases kind <;> first | exact hkind | rfl | cases hkind

theorem readFields_of_derives {p : List Token} {fields : List String} (h : DerivesFields p fields)
    (hrest : ∀ token ∈ rest.head?, token.kind ≠ .dot) :
    (readFields (p ++ rest)).value = fields ∧ (readFields (p ++ rest)).rest = rest := by
  induction h with
  | nil =>
    rw [List.nil_append, Seam.readFields_of_ne_dot hrest]
    exact ⟨rfl, rfl⟩
  | cons point field ts fields dot word more ih =>
    rw [List.cons_append, List.cons_append, readFields, if_pos ⟨dot, word⟩]
    exact ⟨congrArg (field.text :: ·) ih.1, ih.2⟩

theorem readConjunctionAfter_of_ne {left : Condition}
    (h : ∀ token ∈ rest.head?, token.kind ≠ .connective .and) :
    Gives (readConjunctionAfter stop left rest) left rest := by
  cases rest with
  | nil =>
    rw [readConjunctionAfter]
    exact gives_ok _
  | cons token rest =>
    rw [readConjunctionAfter, if_neg (h token rfl)]
    exact gives_ok _

theorem readDisjunctionAfter_of_ne {left : Condition}
    (h : ∀ token ∈ rest.head?, token.kind ≠ .connective .or) :
    Gives (readDisjunctionAfter stop left rest) left rest := by
  cases rest with
  | nil =>
    rw [readDisjunctionAfter]
    exact gives_ok _
  | cons token rest =>
    rw [readDisjunctionAfter, if_neg (h token rfl)]
    exact gives_ok _

theorem readComparisonAfter_of_endsAt {left : Condition} (h : Stratum.comparison.EndsAt rest) :
    Gives (readComparisonAfter stop left rest) left rest := by
  cases rest with
  | nil =>
    rw [readComparisonAfter]
    exact gives_ok _
  | cons token rest =>
    rw [readComparisonAfter]
    split
    · rename_i op hkind
      exact absurd hkind (h.ne rfl token rfl)
    · exact gives_ok _

/-- Neither a comparison nor a primary starts with a bang. -/
theorem Derives.head_ne_bang {p : List Token} {e : Condition}
    (h : Derives stratum p e) (hs : stratum = .comparison ∨ stratum = .primary) :
    ∃ token ts, p = token :: ts ∧ token.kind ≠ .bang := by
  induction h with
  | compare left kind right ihleft ihright =>
    obtain ⟨token, ts, rfl, hkind⟩ := ihleft (.inr rfl)
    exact ⟨token, _, rfl, hkind⟩
  | ofPrimary inner ih => exact ih (.inr rfl)
  | path kind rest => exact ⟨_, _, rfl, by simp [kind]⟩
  | number kind => exact ⟨_, _, rfl, by simp [kind]⟩
  | negative sign kind => exact ⟨_, _, rfl, by simp [sign]⟩
  | string kind => exact ⟨_, _, rfl, by simp [kind]⟩
  | boolean kind => exact ⟨_, _, rfl, by simp [kind]⟩
  | null kind => exact ⟨_, _, rfl, by simp [kind]⟩
  | group opens inner closes ih => exact ⟨_, _, rfl, by simp [opens]⟩
  | _ => simp at hs

/-- Tokens that derive a condition are taken whole.  In the two strata with a loop, the loop goes
on from the condition derived so far. -/
def Stratum.Complete (stop : Token) : Stratum → List Token → Condition → Prop
  | .disjunction, p, e => ∀ rest value after, Stratum.conjunction.EndsAt rest →
      Gives (readDisjunctionAfter stop e rest) value after →
      Gives (readDisjunction stop (p ++ rest)) value after
  | .conjunction, p, e => ∀ rest value after, Stratum.negation.EndsAt rest →
      Gives (readConjunctionAfter stop e rest) value after →
      Gives (readConjunction stop (p ++ rest)) value after
  | .negation, p, e => ∀ rest, Stratum.negation.EndsAt rest →
      Gives (readNegation stop (p ++ rest)) e rest
  | .comparison, p, e => ∀ rest, Stratum.comparison.EndsAt rest →
      Gives (readComparison stop (p ++ rest)) e rest
  | .primary, p, e => ∀ rest, Stratum.primary.EndsAt rest →
      Gives (readPrimary stop (p ++ rest)) e rest

/-- A whole conjunction is taken. -/
theorem Stratum.Complete.gives_readConjunction {p : List Token} {e : Condition}
    (h : Stratum.conjunction.Complete stop p e) (hrest : Stratum.conjunction.EndsAt rest) :
    Gives (readConjunction stop (p ++ rest)) e rest :=
  h rest e rest hrest.tighten (readConjunctionAfter_of_ne (hrest.ne rfl))

theorem Derives.complete {p : List Token} {e : Condition}
    (h : Derives stratum p e) : stratum.Complete stop p e := by
  induction h with
  | ofConjunction inner ih =>
    intro rest value after hrest hloop
    rw [readDisjunction]
    exact (ih.gives_readConjunction hrest).bind fun _ => hloop.bind fun _ => gives_ok _
  | @or p q op l r left kind right ihleft ihright =>
    intro rest value after hrest hloop
    rw [List.append_assoc]
    -- the loop goes on behind the left operand, with the operator in front
    refine ihleft _ _ _ (by simp [Stratum.EndsAt, kind, Stratum.goesOn]) ?_
    rw [List.cons_append, readDisjunctionAfter, if_pos kind]
    exact (ihright.gives_readConjunction hrest).bind fun _ => hloop.bind fun _ => gives_ok _
  | ofNegation inner ih =>
    intro rest value after hrest hloop
    rw [readConjunction]
    exact (ih rest hrest).bind fun _ => hloop.bind fun _ => gives_ok _
  | @and p q op l r left kind right ihleft ihright =>
    intro rest value after hrest hloop
    rw [List.append_assoc]
    refine ihleft _ _ _ (by simp [Stratum.EndsAt, kind, Stratum.goesOn]) ?_
    rw [List.cons_append, readConjunctionAfter, if_pos kind]
    exact (ihright rest hrest).bind fun _ => hloop.bind fun _ => gives_ok _
  | not kind operand ih =>
    intro rest hrest
    rw [List.cons_append, readNegation, if_pos kind]
    exact (ih rest hrest).bind fun _ => gives_ok _
  | ofComparison inner ih =>
    intro rest hrest
    obtain ⟨token, ts, rfl, hkind⟩ := inner.head_ne_bang (.inl rfl)
    rw [List.cons_append, readNegation, if_neg hkind]
    exact ih rest hrest.tighten
  | @compare p q token op l r left kind right ihleft ihright =>
    intro rest hrest
    rw [List.append_assoc, readComparison]
    refine (ihleft (token :: q ++ rest) (by simp [Stratum.EndsAt, kind, Stratum.goesOn])).bind
      fun _ => ?_
    refine Gives.bind ?_ fun _ => gives_ok _
    change Gives (readComparisonAfter stop l (token :: (q ++ rest))) _ _
    rw [readComparisonAfter, kind]
    exact (ihright rest hrest.tighten).bind fun _ => gives_ok _
  | ofPrimary inner ih =>
    intro rest hrest
    rw [readComparison]
    exact (ih rest hrest.tighten).bind fun _ =>
      (readComparisonAfter_of_endsAt hrest).bind fun _ => gives_ok _
  | @path root ts fields kind more =>
    intro rest hrest
    obtain ⟨hvalue, hleft⟩ := readFields_of_derives more (hrest.ne rfl)
    rw [List.cons_append, readPrimary, kind]
    refine gives_iff.mpr ⟨_, rfl, ?_, hleft⟩
    exact congrArg (fun fields => Condition.path ⟨root.text, fields⟩) hvalue
  | number kind =>
    intro rest hrest
    rw [List.singleton_append, readPrimary, kind]
    exact gives_ok _
  | negative sign kind =>
    intro rest hrest
    rw [List.cons_append, readPrimary, sign, List.singleton_append, readNegated?, if_pos kind]
    exact gives_ok _
  | string kind =>
    intro rest hrest
    rw [List.singleton_append, readPrimary, kind]
    exact gives_ok _
  | boolean kind =>
    intro rest hrest
    rw [List.singleton_append, readPrimary, kind]
    exact gives_ok _
  | null kind =>
    intro rest hrest
    rw [List.singleton_append, readPrimary, kind]
    exact gives_ok _
  | @group p opening closing e opens inner closes ih =>
    intro rest hrest
    have hends : Stratum.disjunction.EndsAt (closing :: rest) := by
      simp [Stratum.EndsAt, closes, Stratum.goesOn]
    rw [List.append_assoc, List.cons_append, readPrimary, opens]
    refine (ih _ _ _ hends.tighten
      (readDisjunctionAfter_of_ne (hends.ne rfl))).bind fun _ => ?_
    exact (expect_gives closes).bind fun _ => gives_ok _

/-- **Completeness.**  Tokens that derive a condition are taken whole, as long as the next token
does not go on with them. -/
theorem Derives.gives_readDisjunction {p : List Token} {e : Condition}
    (h : Derives .disjunction p e) (hrest : Stratum.disjunction.EndsAt rest) :
    Gives (readDisjunction stop (p ++ rest)) e rest :=
  h.complete rest e rest hrest.tighten (readDisjunctionAfter_of_ne (hrest.ne rfl))

end Completeness

end UiLang
