import Mathlib.Data.List.Perm.Basic

/-!
# Loops over arrays

What a loop over a storage array leaves behind: a table in which one entry was overwritten for every
element, or an array from which elements were removed by swap and pop.
-/

namespace MonadExecution

open Function List

variable {α β : Type}

/-! ## Overwriting a table -/

section Overwrite

variable [DecidableEq α]

theorem foldl_update (f : α → β) (l : List α) (table : α → β) (x : α) :
    l.foldl (fun table y => update table y (f y)) table x = if x ∈ l then f x else table x := by
  induction l generalizing table with
  | nil => simp
  | cons y l ih =>
    rw [foldl_cons, ih]
    by_cases hl : x ∈ l
    · simp [hl]
    by_cases hx : x = y
    · simp [hx]
    · simp [hl, hx]

theorem foldr_update (b : β) (l : List α) (table : α → β) (x : α) :
    l.foldr (fun y table => update table y b) table x = if x ∈ l then b else table x := by
  induction l with
  | nil => simp
  | cons y l ih =>
    rw [foldr_cons]
    by_cases hx : x = y
    · simp [hx]
    rw [update_of_ne hx, ih]
    simp [hx]

end Overwrite

/-! ## Swap and pop

An entry of an unordered array is removed by moving the last entry into its place. What stands
before the index is untouched, and what stands behind it is only permuted. -/

/-- Remove the entry at index `i`: the last entry takes its place. -/
def swapRemove (d : α) (i : Nat) (l : List α) : List α := l.dropLast.set i (l.getLastD d)

theorem swapRemove_append (d : α) (front : List α) (x : α) (back : List α) :
    ∃ back', swapRemove d front.length (front ++ x :: back) = front ++ back' ∧ back'.Perm back := by
  rcases eq_nil_or_concat back with rfl | ⟨back, y, rfl⟩
  · -- the entry is the last one
    refine ⟨[], ?_, List.Perm.refl _⟩
    rw [swapRemove, dropLast_concat, set_eq_of_length_le (Nat.le_refl _), append_nil]
  refine ⟨y :: back, ?_, ?_⟩
  · have hl : front ++ x :: (back.concat y) = (front ++ x :: back).concat y := by simp
    rw [swapRemove, hl, concat_eq_append, dropLast_concat, getLastD_concat,
      set_append_right _ _ (Nat.le_refl _), Nat.sub_self, set_cons_zero]
  · rw [concat_eq_append]
    exact (perm_append_singleton y back).symm

end MonadExecution
