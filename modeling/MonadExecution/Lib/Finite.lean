import Mathlib.Algebra.BigOperators.Group.Finset.Basic
import Mathlib.Data.Fintype.Basic

/-!
# Sums over a finite table of which one entry changes

Totals over all accounts are compared before and after an operation that touches one of them. No
subtraction occurs: each side is completed with the entry that the other one has.
-/

namespace MonadExecution

open Function Finset

variable {ι M : Type} [Fintype ι] [DecidableEq ι] [AddCommMonoid M]

/-- Two tables that differ at `a` only. -/
theorem sum_change {f g : ι → M} (a : ι) (h : ∀ x, x ≠ a → f x = g x) : ∑ x, f x + g a = ∑ x, g x + f a := by
  have hrest : ∑ x ∈ Finset.univ.erase a, f x = ∑ x ∈ Finset.univ.erase a, g x :=
    sum_congr rfl fun x hx => h x (ne_of_mem_erase hx)
  rw [← add_sum_erase _ f (mem_univ a), ← add_sum_erase _ g (mem_univ a),
    hrest, add_right_comm, add_right_comm (g a), add_comm (f a)]

/-- One entry of a table is overwritten, and a field of the entries is added up. -/
theorem sum_update {β : Type} (f : β → M) (g : ι → β) (a : ι) (b : β) :
    ∑ x, f (update g a b x) + f (g a) = ∑ x, f (g x) + f b := by
  have h := sum_change (f := fun x => f (update g a b x)) (g := fun x => f (g x)) a
    fun x hx => by rw [update_of_ne hx]
  simpa using h

end MonadExecution
