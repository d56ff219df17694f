import Mathlib.Data.Int.Basic
import Mathlib.Tactic.Ring

/-!
# Actions on a counter

An action runs on a counter from which it deducts, and some of which it may hold back: the counter lies by
a reserve below the amount that is really left. The action sees the counter only with the reserve added, and
where it tests the counter it tests what is there. A run with a reserve and one without see the same amounts,
so they have the same result, as long as at the end the reserve is still covered.
-/

namespace MonadExecution.Lib

/-- How an action ends that hands an amount on: at once, or after some of the amount was used. -/
inductive HandOver (α : Type) where
  | skipped (a : α)
  | returned (cost : Nat) (a : α)

/-- Deductions that are tested, reads of the amount that is left, and handing an amount on. Handing on
deducts without a test, tests what is left with the reserve, and gives back a part. -/
inductive Metered (α : Type) where
  | fail
  | done (a : α)
  | deduct (cost : Nat) (rest : Metered α)
  | read (rest : Int → Metered α)
  | handOver (before back : Nat) (h : back ≤ before) (rest : Int → HandOver α)

namespace Metered

variable {α : Type}

def run (reserve : Int) : Metered α → Int → Option (α × Int)
  | fail, _ => none
  | done a, gas => some (a, gas)
  | deduct cost rest, gas => if gas - cost < 0 then none else rest.run reserve (gas - cost)
  | read rest, gas => (rest (gas + reserve)).run reserve gas
  | handOver before back _ rest, gas =>
    if gas - before + reserve < 0 then none
    else
      match rest (gas - before + reserve) with
      | .skipped a => some (a, gas - before + back)
      | .returned cost a => if gas - before + back - cost < 0 then none else some (a, gas - before + back - cost)

variable {reserve gas gas' : Int} {m : Metered α} {a : α}

/-- The counter does not go up. -/
theorem run_le (h : m.run reserve gas = some (a, gas')) : gas' ≤ gas := by
  induction m generalizing gas with
  | fail => cases h
  | done b =>
    cases h
    exact le_refl _
  | deduct cost rest ih =>
    unfold run at h
    split at h
    · cases h
    have hle := ih h
    omega
  | read rest ih => exact ih _ h
  | handOver before back hback rest =>
    unfold run at h
    split at h
    · cases h
    split at h
    · cases h
      omega
    split at h
    · cases h
    cases h
    omega

/-- Without a reserve, the counter does not become negative. -/
theorem run_nonneg (hgas : 0 ≤ gas) (h : m.run 0 gas = some (a, gas')) : 0 ≤ gas' := by
  induction m generalizing gas with
  | fail => cases h
  | done b =>
    cases h
    exact hgas
  | deduct cost rest ih =>
    unfold run at h
    split at h
    · cases h
    rename_i hleft
    exact ih (Int.not_lt.mp hleft) h
  | read rest ih => exact ih _ hgas h
  | handOver before back hback rest =>
    unfold run at h
    split at h
    · cases h
    split at h
    · cases h
      omega
    split at h
    · cases h
    rename_i hleft
    cases h
    exact Int.not_lt.mp hleft

/-- What runs without a reserve runs with one that is covered at the end, and the other way round. -/
theorem run_reserve (hr : 0 ≤ reserve) (hend : 0 ≤ gas' - reserve) :
    m.run 0 gas = some (a, gas') ↔ m.run reserve (gas - reserve) = some (a, gas' - reserve) := by
  induction m generalizing gas with
  | fail => simp [run]
  | done b => simp [run]
  | deduct cost rest ih =>
    have hcomm : gas - reserve - cost = gas - cost - reserve := by ring
    unfold run
    rw [hcomm]
    by_cases hgas : gas - cost - reserve < 0
    · rw [if_pos hgas]
      refine ⟨fun h => ?_, fun h => by cases h⟩
      -- what is left at the end covers the reserve, so the counter did all the way
      split_ifs at h
      have hle := run_le h
      omega
    · rw [if_neg hgas, if_neg (by omega)]
      exact ih
  | read rest ih =>
    unfold run
    rw [Int.add_zero, Int.sub_add_cancel]
    exact ih gas
  | handOver before back hback rest =>
    have hseen : gas - reserve - before + reserve = gas - before + 0 := by ring
    unfold run
    rw [hseen]
    split
    · simp
    split
    · simp only [Option.some.injEq, Prod.mk.injEq]
      exact and_congr_right fun _ => by omega
    split_ifs
    · simp
    · omega
    · refine ⟨fun h => ?_, fun h => by cases h⟩
      cases h
      omega
    · simp only [Option.some.injEq, Prod.mk.injEq]
      exact and_congr_right fun _ => by omega

theorem run_of_reserve (hr : 0 ≤ reserve) (hend : 0 ≤ gas') (h : m.run reserve gas = some (a, gas')) :
    m.run 0 (gas + reserve) = some (a, gas' + reserve) := by
  rw [run_reserve hr (by omega), Int.add_sub_cancel, Int.add_sub_cancel]
  exact h

end Metered

end MonadExecution.Lib
