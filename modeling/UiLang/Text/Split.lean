/-!
# Splitting at separators

A list is cut at every element that is a separator; the separators themselves are dropped.  A
list without separators is one piece, so there is always at least one piece.

## Main definitions

* `splitWhen`: the pieces between separators
* `Text.lines`: the pieces of a text between line feeds

## Main results

* `splitWhen_ne_nil`: there is at least one piece
* `mem_splitWhen`: no piece holds a separator
* `splitWhen_append_cons`: the pieces before and after a separator
* `intercalate_splitWhen`: the pieces with their separator between them make up the list
-/

namespace UiLang

variable {α : Type}

/-- The pieces of a list between the elements that satisfy `p`. -/
def splitWhen (p : α → Bool) : List α → List (List α)
  | [] => [[]]
  | a :: as =>
    if p a then [] :: splitWhen p as
    else
      match splitWhen p as with
      | [] => [[a]]
      | piece :: pieces => (a :: piece) :: pieces

theorem splitWhen_ne_nil (p : α → Bool) (as : List α) : splitWhen p as ≠ [] := by
  cases as with
  | nil => simp [splitWhen]
  | cons a as =>
    rw [splitWhen]
    split
    · simp
    · split <;> simp

/-- No piece holds a separator. -/
theorem mem_splitWhen {p : α → Bool} {as piece : List α} (h : piece ∈ splitWhen p as) :
    ∀ a ∈ piece, p a = false := by
  induction as generalizing piece with
  | nil => simp_all [splitWhen]
  | cons a as ih =>
    rw [splitWhen] at h
    split at h
    · rcases List.mem_cons.mp h with rfl | h
      · simp
      · exact ih h
    · rename_i hp
      split at h
      · rename_i hnil
        exact absurd hnil (splitWhen_ne_nil p as)
      · rename_i first pieces hcons
        rcases List.mem_cons.mp h with rfl | h
        · intro b hb
          rcases List.mem_cons.mp hb with rfl | hb
          · simpa using hp
          · exact ih (hcons ▸ List.mem_cons_self) b hb
        · exact ih (hcons ▸ List.mem_cons_of_mem _ h)

/-- A separator cuts a list into two, whose pieces are the pieces of the list. -/
theorem splitWhen_append_cons {p : α → Bool} {x : α} (hx : p x = true) (front rest : List α) :
    splitWhen p (front ++ x :: rest) = splitWhen p front ++ splitWhen p rest := by
  induction front with
  | nil =>
    change splitWhen p (x :: rest) = [] :: splitWhen p rest
    rw [splitWhen, if_pos hx]
  | cons a front ih =>
    rw [List.cons_append, splitWhen, splitWhen, ih]
    split
    · rfl
    · cases hfront : splitWhen p front with
      | nil => exact absurd hfront (splitWhen_ne_nil p front)
      | cons piece pieces => rfl

theorem splitWhen_of_forall {p : α → Bool} {as : List α} (h : ∀ a ∈ as, p a = false) :
    splitWhen p as = [as] := by
  induction as with
  | nil => rfl
  | cons a as ih =>
    rw [splitWhen, h a List.mem_cons_self, ih fun b hb => h b (List.mem_cons_of_mem a hb)]
    rfl

/-- The pieces with their separator between them make up the list. -/
theorem intercalate_splitWhen [DecidableEq α] (separator : α) (as : List α) :
    [separator].intercalate (splitWhen (· == separator) as) = as := by
  induction as with
  | nil => rfl
  | cons a as ih =>
    rw [splitWhen]
    split
    · rename_i h
      obtain ⟨piece, pieces, hp⟩ :=
        List.exists_cons_of_ne_nil (splitWhen_ne_nil (· == separator) as)
      rw [hp] at ih ⊢
      rw [List.intercalate_cons_cons, ih, eq_of_beq h]
      rfl
    · split
      · rename_i h
        exact absurd h (splitWhen_ne_nil _ as)
      · rename_i piece pieces hp
        rw [hp] at ih
        cases pieces with
        | nil => simpa using ih
        | cons next pieces =>
          rw [List.intercalate_cons_cons] at ih ⊢
          rw [← ih]
          simp

namespace Text

/-- The lines of a text: its pieces between line feeds. -/
def lines (cs : List Char) : List (List Char) :=
  splitWhen (· == '\n') cs

end Text

end UiLang
