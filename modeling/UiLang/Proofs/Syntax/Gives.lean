import UiLang.Syntax.Reading

/-!
# What a reader gives

A reader that ends well gives a value and leaves some tokens.  `Gives` says both at once, so it is
a statement that the reader does not fail, and readers one after another are followed token by
token.

## Main definitions

* `Gives`: a reader gives a value and leaves the rest

## Main results

* `Gives.bind`: readers one after another
* `ok_of_bind_eq`: what the parts of a reader gave, when the whole gave something
-/

namespace UiLang

/-- The reader gives `value` and leaves `rest`. -/
def Gives {α : Type} {ts : List Token} (outcome : Read α ts) (value : α) (rest : List Token) :
    Prop :=
  ∃ suffix, outcome = .ok ⟨value, rest, suffix⟩

section Gives

variable {α β : Type} {ts us rest rest' : List Token} {value : α} {value' : β}

theorem gives_ok (r : Reading α ts) : Gives (.ok r) r.value r.rest :=
  ⟨r.suffix, rfl⟩

/-- Readers one after another. -/
theorem Gives.bind {outcome : Read α ts} {next : Reading α ts → Read β us}
    (h : Gives outcome value rest)
    (hnext : ∀ suffix, Gives (next ⟨value, rest, suffix⟩) value' rest') :
    Gives (outcome >>= next) value' rest' := by
  obtain ⟨suffix, rfl⟩ := h
  exact hnext suffix

/-- A reader that gives something, with what it gives. -/
theorem gives_iff {outcome : Read α ts} :
    Gives outcome value rest ↔ ∃ r, outcome = .ok r ∧ r.value = value ∧ r.rest = rest := by
  constructor
  · rintro ⟨suffix, rfl⟩
    exact ⟨_, rfl, rfl, rfl⟩
  · rintro ⟨r, rfl, rfl, rfl⟩
    exact gives_ok r

/-- What the parts of a reader gave, when the whole gave something. -/
theorem ok_of_bind_eq {outcome : Read α ts} {next : Reading α ts → Read β us} {r : Reading β us}
    (h : (outcome >>= next) = .ok r) : ∃ first, outcome = .ok first ∧ next first = .ok r := by
  cases outcome with
  | error fault => cases h
  | ok first => exact ⟨first, rfl, h⟩

end Gives

section Single

variable {stop token : Token} {kind : Kind} {rest : List Token}

theorem expect_gives (h : token.kind = kind) :
    Gives (expect stop kind (token :: rest)) token rest := by
  rw [expect, if_pos h]
  exact gives_ok _

theorem ok_of_expect_eq {ts : List Token} {r : Reading Token ts} (h : expect stop kind ts = .ok r) :
    ts = r.value :: r.rest ∧ r.value.kind = kind := by
  cases ts with
  | nil => cases h
  | cons token rest =>
    rw [expect] at h
    split at h
    · cases h
      exact ⟨rfl, by assumption⟩
    · cases h

end Single

end UiLang
