/-!
# Distinct elements

## Main definitions

* `distinct`: a list without repetitions, in order of first appearance

## Main results

* `mem_distinct`, `nodup_distinct`
-/

namespace UiLang

variable {α : Type} [DecidableEq α]

/-- The elements of a list in order of first appearance. -/
def distinct : List α → List α
  | [] => []
  | a :: as => a :: (distinct as).filter (· ≠ a)

@[simp] theorem mem_distinct {a : α} {as : List α} : a ∈ distinct as ↔ a ∈ as := by
  induction as with
  | nil => simp [distinct]
  | cons b as ih => by_cases h : a = b <;> simp [distinct, h, ih]

theorem nodup_distinct (as : List α) : (distinct as).Nodup := by
  induction as with
  | nil => simp [distinct]
  | cons b as ih => exact List.nodup_cons.mpr ⟨by simp, ih.filter _⟩

end UiLang
