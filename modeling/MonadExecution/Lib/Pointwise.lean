import Mathlib.Data.List.Nodup
import Mathlib.Logic.Function.Basic

/-!
# Updates that each concern one key

A list of updates is applied to a function, one after the other; each of them looks only at the value of
its own key and may be refused there. If the keys are distinct, the order does not matter: every update
sees the value that was there at first.
-/

namespace MonadExecution.Pointwise

open Function List

variable {κ β υ : Type} [DecidableEq κ] (key : υ → κ) (f : υ → β → Option β)

/-- Apply the updates, or fail if one of them is refused. -/
def apply : List υ → (κ → β) → Option (κ → β)
  | [], s => some s
  | u :: us, s => (f u (s (key u))).bind fun b => apply us (update s (key u) b)

/-- Updates of distinct keys that are all accepted where they find the first values. -/
theorem apply_spec {us : List υ} {s : κ → β} (hkeys : (us.map key).Nodup)
    (h : ∀ u ∈ us, ∃ b, f u (s (key u)) = some b) :
    ∃ s', apply key f us s = some s' ∧ (∀ u ∈ us, f u (s (key u)) = some (s' (key u))) ∧
      ∀ k, k ∉ us.map key → s' k = s k := by
  induction us generalizing s with
  | nil => exact ⟨s, rfl, by simp, fun _ _ => rfl⟩
  | cons u us ih =>
    obtain ⟨hnot, hkeys⟩ := nodup_cons.mp hkeys
    obtain ⟨b, hb⟩ := h u mem_cons_self
    have hsame : ∀ u' ∈ us, update s (key u) b (key u') = s (key u') := by
      intro u' hu'
      refine update_of_ne (fun heq => hnot ?_) _ _
      rw [← heq]
      exact mem_map_of_mem hu'
    obtain ⟨s', happ, hin, hout⟩ := ih (s := update s (key u) b) hkeys (by
      intro u' hu'
      rw [hsame u' hu']
      exact h u' (mem_cons_of_mem _ hu'))
    refine ⟨s', ?_, ?_, ?_⟩
    · rw [apply, hb]
      exact happ
    · intro u' hu'
      rcases mem_cons.mp hu' with rfl | hu'
      · rw [hout _ hnot, update_self]
        exact hb
      · rw [← hin u' hu', hsame u' hu']
    · intro k hk
      rw [map_cons, mem_cons, not_or] at hk
      rw [hout k hk.2, update_of_ne hk.1]

omit [DecidableEq κ] in
/-- The keys of updates that are made from some of the entries of a table are distinct. -/
theorem nodup_filterMap {ι : Type} (fst : ι → κ) {make : ι → Option υ}
    (hmake : ∀ e u, make e = some u → key u = fst e) {l : List ι} (h : (l.map fst).Nodup) :
    ((l.filterMap make).map key).Nodup := by
  induction l with
  | nil => exact nodup_nil
  | cons e l ih =>
    obtain ⟨hnot, hl⟩ := nodup_cons.mp h
    cases hu : make e with
    | none =>
      rw [filterMap_cons_none hu]
      exact ih hl
    | some u =>
      rw [filterMap_cons_some hu, map_cons, nodup_cons]
      refine ⟨fun hmem => hnot ?_, ih hl⟩
      obtain ⟨u', hu', hkey⟩ := mem_map.mp hmem
      obtain ⟨e', he', hmade⟩ := mem_filterMap.mp hu'
      rw [← hmake e u hu, ← hkey, hmake e' u' hmade]
      exact mem_map_of_mem he'

end MonadExecution.Pointwise
