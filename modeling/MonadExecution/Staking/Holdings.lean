import MonadExecution.Staking.Calldata
import MonadExecution.Staking.Protocol
import MonadExecution.Staking.Timely

/-!
# What a delegator holds

The stake of a validator is the sum of what its delegators hold, in buckets that are empty or worth
more than dust, and that are empty exactly when they have no epoch. The last part is lost when the
epochs run out: the epoch of a new bucket is then 0.
-/

namespace MonadExecution.Staking

open Program Function

/-- Nothing or more than dust. -/
def Solid (x : Nat) : Prop := x = 0 ∨ Limits.dustThreshold ≤ x

theorem Solid.add {x y : Nat} (hx : Solid x) (hy : Solid y) : Solid (x + y) := by
  rcases hx with rfl | hx
  · rwa [Nat.zero_add]
  · exact .inr (hx.trans (Nat.le_add_right _ _))

theorem dustThreshold_pos : 0 < Limits.dustThreshold := by decide

/-- The buckets hold nothing or more than dust, and one with an epoch is not empty. -/
structure Delegator.Solid (d : Delegator) : Prop where
  stake : Staking.Solid d.stake
  delta : Staking.Solid d.deltaStake
  next : Staking.Solid d.nextDeltaStake
  delta_filled : d.deltaEpoch ≠ 0 → d.deltaStake ≠ 0
  next_filled : d.nextDeltaEpoch ≠ 0 → d.nextDeltaStake ≠ 0

namespace Delegator.Solid

variable {d : Delegator}

theorem promoteDelta (h : d.Solid) : (promoteDelta d).Solid where
  stake := h.stake
  delta := h.next
  next := .inl rfl
  delta_filled := h.next_filled
  next_filled h0 := absurd rfl h0

theorem compounded (h : d.Solid) (acc r : Nat) : (d.compounded acc r).Solid where
  stake := h.stake.add h.delta
  delta := h.next
  next := .inl rfl
  delta_filled := h.next_filled
  next_filled h0 := absurd rfl h0

theorem staged (h : d.Solid) (inDelay : Bool) {s : Nat} (hs : Limits.dustThreshold ≤ s)
    (epoch : Nat) : (d.staged inDelay s epoch).Solid := by
  have hpos := dustThreshold_pos
  unfold Delegator.staged
  split_ifs
  · exact ⟨h.stake, h.delta, h.next.add (.inr hs), h.delta_filled, fun _ => by dsimp only; omega⟩
  · exact ⟨h.stake, h.delta.add (.inr hs), h.next, fun _ => by dsimp only; omega, h.next_filled⟩

theorem lowered (h : d.Solid) {out : Nat} (hout : Staking.Solid (d.stake - out)) : (d.lowered out).Solid :=
  ⟨hout, h.delta, h.next, h.delta_filled, h.next_filled⟩

end Delegator.Solid

namespace Pool

variable {ι κ : Type} [DecidableEq ι] [DecidableEq κ] {p p' : Pool ι κ} {a : ι}

def Solid (p : Pool ι κ) : Prop := ∀ a, (p.del a).Solid

omit [DecidableEq κ] in
theorem Solid.update {q : Pool ι κ} {d : Delegator} (h : p.Solid)
    (hdel : q.del = update p.del a d) (hself : d.Solid) : q.Solid := by
  intro b
  rw [hdel]
  rcases eq_or_ne b a with rfl | hb
  · rwa [update_self]
  rw [update_of_ne hb]
  exact h b

omit [DecidableEq κ] in
theorem Solid.pull (h : p.Solid) (safe : p.PullSafe a) : (p.pull a).Solid := by
  refine pull_induct (P := Solid) safe ?_ ?_ ?_
  · refine h.update (promote_del a p) ?_
    split_ifs
    · exact (h a).promoteDelta
    · exact h a
  · intro q hq _ _
    exact hq.update (compound_del a q) ((hq a).compounded _ _)
  · intro q hq _ _ _
    have ha := hq a
    exact hq.update (settle_del a q) ⟨ha.stake, ha.delta, ha.next, ha.delta_filled, ha.next_filled⟩

omit [DecidableEq κ] in
theorem Solid.takeRewards (h : p.Solid) (a : ι) : (p.takeRewards a).Solid :=
  h.update (takeRewards_del a p) ⟨(h a).stake, (h a).delta, (h a).next, (h a).delta_filled, (h a).next_filled⟩

omit [DecidableEq ι] [DecidableEq κ] in
/-- What remains after an undelegation is not dust. -/
theorem solid_leaving (a : ι) (amount : Nat) (p : Pool ι κ) :
    Staking.Solid ((p.del a).stake - p.leaving a amount) := by
  unfold leaving
  split_ifs with hdust
  · exact .inl (Nat.sub_self _)
  · exact .inr (Nat.not_lt.mp hdust)

/-- Every operation keeps the buckets solid. -/
theorem Solid.step {op : Op ι κ} (hstep : Step op p p') (h : p.Solid) : p'.Solid := by
  cases hstep with
  | idle | withdraw | changeEpoch | takeSnapshot => exact h
  | pull safe => exact h.pull safe
  | @delegate _ a s hs safe hr => exact (h.pull safe).update (stage_del a s _) ((h.pull safe a).staged _ hs _)
  | @undelegate _ a i amount h0 hw safe hx hl =>
    exact (h.pull safe).update (lower_del a i amount _) ((h.pull safe a).lowered (solid_leaving a amount _))
  | compoundNothing safe h0 | claim safe => exact (h.pull safe).takeRewards _
  | @compound _ _ a r safe hr hq hs safe' hb =>
    have hq' := (h.pull safe).takeRewards a
    rw [hq] at hq'
    exact (hq'.pull safe').update (stage_del a r _) ((hq'.pull safe' a).staged _ hs _)
  | @reward _ auth commission r hv =>
    have ha := h auth
    exact h.update (reward_del auth commission r p) ⟨ha.stake, ha.delta, ha.next, ha.delta_filled, ha.next_filled⟩

end Pool

section Runs

variable (rev : MonadRevision) (crypto : Crypto)

theorem timely_after (calls : List Call) (v : ValId) : ((after rev crypto calls).pool v).Timely :=
  pool_after rev crypto (fun _ => .empty _ _) Pool.Timely.step calls v

theorem solid_after (calls : List Call) (v : ValId) : ((after rev crypto calls).pool v).Solid := by
  refine pool_after rev crypto (fun a => ?_) Pool.Solid.step calls v
  exact ⟨.inl rfl, .inl rfl, .inl rfl, fun h => absurd rfl h, fun h => absurd rfl h⟩

/-- The record of a delegator in epoch `e`. -/
structure Delegator.InOrder (d : Delegator) (e : Nat) : Prop where
  stake : d.stake = 0 ∨ Limits.dustThreshold ≤ d.stake
  deltaStake : d.deltaStake = 0 ∨ Limits.dustThreshold ≤ d.deltaStake
  nextDeltaStake : d.nextDeltaStake = 0 ∨ Limits.dustThreshold ≤ d.nextDeltaStake
  deltaEpoch : d.deltaStake = 0 ↔ d.deltaEpoch = 0
  nextDeltaEpoch : d.nextDeltaStake = 0 ↔ d.nextDeltaEpoch = 0
  consecutive : d.deltaEpoch ≠ 0 → d.nextDeltaEpoch ≠ 0 → d.nextDeltaEpoch = d.deltaEpoch + 1
  deltaEpoch_le : d.deltaEpoch ≤ e + 1
  nextDeltaEpoch_le : d.nextDeltaEpoch ≤ e + 2

/-- As long as the epochs exist, the stake of a validator is what its delegators hold, and all
their records are in order. -/
theorem stake_eq_holdings {calls : List Call} (hepoch : (after rev crypto calls).epoch + 2 < 2 ^ 64) (v : ValId) :
    let w := after rev crypto calls
    (w.valExecution v).stake = ∑ a, ((w.delegator v a).stake + (w.delegator v a).deltaStake +
        (w.delegator v a).nextDeltaStake) ∧
      ∀ a, (w.delegator v a).InOrder w.epoch := by
  have hexi : (after rev crypto calls).EpochsExist := by
    unfold World.EpochsExist uint64Size
    exact hepoch
  have hledger := ledger_after rev crypto hexi v
  intro w
  refine ⟨hledger.stake_eq, fun a => ?_⟩
  have hemp : Pool.EmptyWithoutEpoch (w.delegator v a) := hledger.empty a
  have hsolid : (w.delegator v a).Solid := solid_after rev crypto calls v a
  have htim : (w.delegator v a).Timely w.epoch (w.pool v).horizon := timely_after rev crypto calls v a
  exact
    { stake := hsolid.stake
      deltaStake := hsolid.delta
      nextDeltaStake := hsolid.next
      deltaEpoch := ⟨fun h => of_not_not fun h0 => hsolid.delta_filled h0 h, hemp.delta⟩
      nextDeltaEpoch := ⟨fun h => of_not_not fun h0 => hsolid.next_filled h0 h, hemp.next⟩
      consecutive := htim.consecutive
      deltaEpoch_le := htim.delta_le
      nextDeltaEpoch_le := htim.next_le.trans (Pool.horizon_le _) }

end Runs

/-- Two delegations before and after a snapshot fill both buckets of a delegator. -/
theorem stake_eq_holdings_twoBuckets :
    let calls := [Call.delegate 1 9 mon, .snapshot, .delegate 1 9 mon,
      .register 7 8 0 9 (100000 * mon), .onEpochChange 1]
    let w := after .five .acceptAll calls
    Conforms .five .acceptAll calls ∧ w.epoch + 2 < 2 ^ 64 ∧
      (w.delegator 1 9).deltaEpoch = 2 ∧ (w.delegator 1 9).nextDeltaEpoch = 3 ∧
      (w.valExecution 1).stake = ∑ a, ((w.delegator 1 a).stake + (w.delegator 1 a).deltaStake +
        (w.delegator 1 a).nextDeltaStake) := by
  intro calls w
  obtain ⟨hrun, hep, hdelta, hnext⟩ : Conforms .five .acceptAll calls ∧ w.epoch + 2 < 2 ^ 64 ∧
    (w.delegator 1 9).deltaEpoch = 2 ∧ (w.delegator 1 9).nextDeltaEpoch = 3 := by decide +kernel
  exact ⟨hrun, hep, hdelta, hnext, (stake_eq_holdings .five .acceptAll hep 1).1⟩

/-- In the last epoch the first bucket of a new validator has stake and no epoch. -/
theorem not_inOrder_lastEpoch :
    let calls := [Call.register 7 8 0 9 (100000 * mon), .onEpochChange (2 ^ 64 - 1)]
    let w := after .five .acceptAll calls
    Conforms .five .acceptAll calls ∧ ¬ (w.delegator 1 8).InOrder w.epoch := by
  refine ⟨by decide +kernel, fun h => ?_⟩
  exact absurd (h.deltaEpoch.mpr (by decide +kernel)) (by decide +kernel)

end MonadExecution.Staking
