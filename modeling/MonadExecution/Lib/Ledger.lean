import Mathlib.Algebra.BigOperators.Group.Finset.Piecewise
import Mathlib.Algebra.BigOperators.Group.Finset.Basic
import Mathlib.Algebra.Order.BigOperators.Group.Finset

/-!
# Ledgers

A ledger says how much each of finitely many holders has. Changing the entry of one holder changes the
total by the difference, whoever else holds what.
-/

namespace MonadExecution

open Function Finset

namespace Ledger

variable {κ : Type} [Fintype κ] [DecidableEq κ]

/-- All there is. -/
def total (f : κ → Nat) : Nat := ∑ a, f a

omit [DecidableEq κ] in
theorem le_total (f : κ → Nat) (a : κ) : f a ≤ total f :=
  single_le_sum (f := f) (fun _ _ => Nat.zero_le _) (mem_univ a)

theorem total_update (f : κ → Nat) (a : κ) (x : Nat) : total (update f a x) + f a = total f + x := by
  unfold total
  rw [sum_update_of_mem (mem_univ a), ← add_sum_erase _ f (mem_univ a), sdiff_singleton_eq_erase]
  omega

/-- A debit that is covered. -/
theorem total_debit {f : κ → Nat} {a : κ} {x : Nat} (h : x ≤ f a) : total (update f a (f a - x)) + x = total f := by
  have hupd := total_update f a (f a - x)
  omega

theorem total_credit (f : κ → Nat) (a : κ) (x : Nat) : total (update f a (f a + x)) = total f + x := by
  have hupd := total_update f a (f a + x)
  omega

omit [DecidableEq κ] in
/-- What some holders lose is lost in total. -/
theorem total_add (f g : κ → Nat) : total (fun a => f a + g a) = total f + total g := sum_add_distrib

/-- A ledger with one holder. -/
theorem total_single (a : κ) (x : Nat) : total (update (fun _ => 0) a x) = x := by
  have hupd := total_update (fun _ : κ => 0) a x
  have hzero : total (fun _ : κ => 0) = 0 := sum_const_zero
  omega

end Ledger

end MonadExecution
