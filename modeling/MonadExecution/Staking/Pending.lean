import MonadExecution.Staking.Accounting
import MonadExecution.Staking.Solvency

/-!
# Pending rewards

The rewards that a delegator would be paid if everything was settled now, computed as the contract would
do it. A sound pool can pay them, so no call of a conforming run finds that it cannot.
-/

namespace MonadExecution.Staking

open Program Finset Pool Nat

namespace Pool

section Definitions

variable {ι κ : Type}

/-- `live_accumulated_reward_per_token` -/
def liveAccumulatedRewardPerToken (p : Pool ι κ) (epoch : Nat) : Nat :=
  if p.epoch < epoch then p.acc else (p.cell epoch).value

/-- `withdrawal_reward` -/
def withdrawalReward (p : Pool ι κ) (j : ι × κ) : Nat :=
  if (p.request j).epoch = 0 then 0
  else earned (p.request j).amount (p.liveAccumulatedRewardPerToken (p.request j).epoch) (p.request j).acc

/-- The accumulator at which the first bucket starts to earn, if it is active. -/
def firstStop (p : Pool ι κ) (a : ι) : Nat :=
  if p.isActive (p.del a).deltaEpoch then (p.cell (p.del a).deltaEpoch).value
  else (p.del a).accumulatedRewardPerToken

/-- The accumulator at which the second bucket starts to earn, if it is active. -/
def secondStop (p : Pool ι κ) (a : ι) : Nat :=
  if p.isActive (p.del a).nextDeltaEpoch then (p.cell (p.del a).nextDeltaEpoch).value
  else p.firstStop a

/-- `unaccumulated_rewards` -/
def unaccumulatedRewards (p : Pool ι κ) (a : ι) : Nat :=
  let t1 := (p.del a).stake
  let t2 := t1 + if (p.del a).deltaEpoch ≤ p.epoch then (p.del a).deltaStake else 0
  let t3 := t2 + if (p.del a).nextDeltaEpoch ≤ p.epoch then (p.del a).nextDeltaStake else 0
  earned t1 (p.firstStop a) (p.del a).accumulatedRewardPerToken +
    earned t2 (p.secondStop a) (p.firstStop a) + earned t3 p.acc (p.secondStop a)

/-- `pending_rewards` -/
def pendingRewards [Fintype κ] (p : Pool ι κ) (a : ι) : Nat :=
  ∑ i, p.withdrawalReward (a, i) + p.unaccumulatedRewards a

end Definitions

variable {ι κ : Type} [DecidableEq ι] [DecidableEq κ] [Fintype ι] [Fintype κ] {p : Pool ι κ} {a : ι}
  {price : Nat → Nat}

/-! ## Withdrawal requests -/

variable {j : ι × κ}

omit [DecidableEq ι] [DecidableEq κ] in
theorem Sound.live_eq (h : p.Sound price) (hw : (p.request j).hasValue) :
    p.liveAccumulatedRewardPerToken (p.request j).epoch = price (p.request j).epoch := by
  unfold liveAccumulatedRewardPerToken
  split_ifs with hlt
  · rw [h.priced.above _ hlt]
  · exact h.priced.cell _ (h.priced.request_pos j hw) (.inl (not_lt.mp hlt)) (h.counted.request_refcount_ne hw)

omit [DecidableEq ι] [DecidableEq κ] [Fintype ι] [Fintype κ] in
/-- A request that is not open is owed nothing. -/
theorem withdrawalReward_of_not (price : Nat → Nat) (h : (p.request j).hasValue = false) :
    p.withdrawalReward j = 0 ∧ owed price (p.request j) = 0 := by
  have hamount := amount_of_hasValue h
  simp only [WithdrawalRequest.hasValue, Bool.or_eq_false_iff, bne_eq_false_iff_eq] at h
  exact ⟨if_pos h.2, by simp [owed, hamount]⟩

section

variable (h : p.Sound price)

include h

omit [DecidableEq ι] [DecidableEq κ] in
theorem Sound.withdrawalReward_bounds (j : ι × κ) : (unitBias : ℤ) * p.withdrawalReward j ≤ owed price (p.request j) ∧
    owed price (p.request j) ≤ unitBias * p.withdrawalReward j +
      (unitBias - 1) * if (p.request j).hasValue then 1 else 0 := by
  by_cases hw : (p.request j).hasValue
  · have hle := h.priced.request_le j
    unfold withdrawalReward
    rw [if_neg (h.priced.request_pos j hw), h.live_eq hw, if_pos hw]
    refine ⟨earned_le _ hle, (le_earned _ hle).trans ?_⟩
    have hbias := unitBias_sub_one_nonneg
    split_ifs <;> linarith
  · obtain ⟨hreward, howed⟩ := withdrawalReward_of_not price (Bool.not_eq_true _ ▸ hw)
    rw [hreward, howed, if_neg hw]
    simp

/-! ## Active stake and buckets -/

omit [DecidableEq ι] [DecidableEq κ] in
theorem Sound.firstStop_eq (hact : p.isActive (p.del a).deltaEpoch) : p.firstStop a = price (p.del a).deltaEpoch := by
  obtain ⟨h0, hle⟩ := isActive_iff.mp hact
  unfold firstStop
  rw [if_pos hact]
  exact h.priced.cell _ h0 (.inl hle) (h.counted.refcount_ne h0 (.inl rfl))

omit [DecidableEq ι] [DecidableEq κ] in
theorem Sound.secondStop_eq (hact : p.isActive (p.del a).nextDeltaEpoch) :
    p.secondStop a = price (p.del a).nextDeltaEpoch := by
  obtain ⟨h0, hle⟩ := isActive_iff.mp hact
  unfold secondStop
  rw [if_pos hact]
  exact h.priced.cell _ h0 (.inl hle) (h.counted.refcount_ne h0 (.inr rfl))

omit [DecidableEq ι] [DecidableEq κ] in
/-- The accumulators between which the rewards are computed are in order. -/
theorem Sound.stops (a : ι) : (p.del a).accumulatedRewardPerToken ≤ p.firstStop a ∧ p.firstStop a ≤ p.secondStop a ∧
    p.secondStop a ≤ p.acc := by
  have ha := h.priced.del a
  have hfst : (p.del a).accumulatedRewardPerToken ≤ p.firstStop a ∧ p.firstStop a ≤ p.acc := by
    by_cases hact : p.isActive (p.del a).deltaEpoch
    · rw [h.firstStop_eq hact]
      exact ⟨ha.delta_le (isActive_iff.mp hact).1, h.priced.le_acc _⟩
    · unfold firstStop
      rw [if_neg hact]
      exact ⟨le_refl _, ha.acc_le⟩
  refine ⟨hfst.1, ?_⟩
  by_cases hnext : p.isActive (p.del a).nextDeltaEpoch
  · obtain ⟨h0, -⟩ := isActive_iff.mp hnext
    rw [h.secondStop_eq hnext]
    refine ⟨?_, h.priced.le_acc _⟩
    by_cases hact : p.isActive (p.del a).deltaEpoch
    · rw [h.firstStop_eq hact, (h.counted.timely a).consecutive (isActive_iff.mp hact).1 h0]
      exact h.priced.mono (le_succ _)
    · unfold firstStop
      rw [if_neg hact]
      exact ha.next_le h0
  · unfold secondStop
    rw [if_neg hnext]
    exact ⟨le_refl _, hfst.2⟩

omit [DecidableEq ι] [DecidableEq κ] in
/-- A bucket of `s` for epoch `f`, which starts to earn at `stop` if it is active. -/
theorem Sound.bucket {f s stop : Nat} (hemp : f = 0 → s = 0) (hstop : p.isActive f → stop = price f) :
    (s : ℤ) * ((p.acc : ℤ) - price f) = ((if f ≤ p.epoch then s else 0 : Nat) : ℤ) * ((p.acc : ℤ) - stop) := by
  split_ifs with hle
  · rcases eq_or_ne f 0 with h0 | h0
    · rw [hemp h0]
      simp
    · rw [hstop (isActive_iff.mpr ⟨h0, hle⟩)]
  · rw [h.priced.above f (not_le.mp hle)]
    simp

omit [DecidableEq ι] [DecidableEq κ] in
/-- The three windows make up the liability. -/
theorem Sound.liability_eq (a : ι) : liability price p.acc (p.del a) =
    (p.del a).stake * ((p.firstStop a : ℤ) - (p.del a).accumulatedRewardPerToken) +
    ((p.del a).stake + (if (p.del a).deltaEpoch ≤ p.epoch then (p.del a).deltaStake else 0) : Nat) *
      ((p.secondStop a : ℤ) - p.firstStop a) +
    ((p.del a).stake + (if (p.del a).deltaEpoch ≤ p.epoch then (p.del a).deltaStake else 0) +
      (if (p.del a).nextDeltaEpoch ≤ p.epoch then (p.del a).nextDeltaStake else 0) : Nat) *
      ((p.acc : ℤ) - p.secondStop a) := by
  have hemp := h.counted.early h.bounded a
  have hdel := h.bucket hemp.delta fun hact => h.firstStop_eq hact
  have hnext := h.bucket hemp.next fun hact => h.secondStop_eq hact
  unfold liability
  rw [hdel, hnext]
  push_cast
  ring

omit [DecidableEq ι] [DecidableEq κ] in
theorem Sound.unaccumulatedRewards_le (a : ι) :
    (unitBias : ℤ) * p.unaccumulatedRewards a ≤ liability price p.acc (p.del a) := by
  obtain ⟨hfst, hsnd, hthird⟩ := h.stops a
  rw [h.liability_eq]
  unfold unaccumulatedRewards
  push_cast
  have h1 := earned_le (p.del a).stake hfst
  have h2 := earned_le ((p.del a).stake + if (p.del a).deltaEpoch ≤ p.epoch then (p.del a).deltaStake else 0) hsnd
  have h3 := earned_le ((p.del a).stake + (if (p.del a).deltaEpoch ≤ p.epoch then (p.del a).deltaStake else 0) +
    if (p.del a).nextDeltaEpoch ≤ p.epoch then (p.del a).nextDeltaStake else 0) hthird
  push_cast at h1 h2 h3
  linarith

omit [DecidableEq ι] [DecidableEq κ] in
/-- A sound pool can pay what is pending. -/
theorem Sound.pending_le : ∑ a, p.unaccumulatedRewards a + ∑ j, p.withdrawalReward j ≤ p.unclaimed := by
  have hpay (a : ι) : (unitBias : ℤ) * (p.unaccumulatedRewards a + ∑ i, p.withdrawalReward (a, i) :
      Nat) ≤ p.claim price a := by
    have hstk := h.unaccumulatedRewards_le a
    have hreqs : ∑ i, (unitBias : ℤ) * p.withdrawalReward (a, i) ≤ ∑ i, owed price (p.request (a, i)) :=
      sum_le_sum fun i _ => (h.withdrawalReward_bounds (a, i)).1
    unfold claim
    push_cast
    rw [mul_add, mul_sum]
    linarith
  have hsum : (unitBias : ℤ) * (∑ a, (p.unaccumulatedRewards a + ∑ i, p.withdrawalReward (a, i)) :
      Nat) ≤ unitBias * p.unclaimed := by
    push_cast
    rw [mul_sum]
    refine (sum_le_sum fun a _ => ?_).trans h.solvent
    have := hpay a
    push_cast at this
    exact this
  have hpos : (0 : ℤ) < unitBias := by exact_mod_cast unitBias_pos
  have hle : ∑ a, (p.unaccumulatedRewards a + ∑ i, p.withdrawalReward (a, i)) ≤ p.unclaimed := by
    exact_mod_cast le_of_mul_le_mul_left hsum hpos
  rwa [sum_add_distrib, ← Fintype.sum_prod_type] at hle

end

end Pool

/-! ## After a conforming run -/

section Runs

variable (rev : MonadRevision) (crypto : Crypto)

theorem sound_empty : (empty : Pool Address WithdrawalId).Sound fun _ => 0 where
  counted := counted_empty
  bounded := by
    show 1 < uint64Size
    unfold uint64Size
    norm_num
  priced := priced_empty
  solvent := by
    have hclaim (a : Address) : (empty : Pool Address WithdrawalId).claim (fun _ => 0) a = 0 := by
      have hreqs : ∑ i, owed (fun _ => 0) ((empty : Pool Address WithdrawalId).request (a, i)) = 0 :=
        sum_eq_zero fun i _ => by simp [empty, owed]
      unfold claim
      rw [hreqs]
      simp [empty, liability]
    rw [sum_eq_zero fun a _ => hclaim a]
    simp [empty]

theorem sound_after {calls : List Call} (h : Conforms rev crypto calls)
    (hexi : (after rev crypto calls).EpochsExist) (v : ValId) :
    ((after rev crypto calls).pool v).Sound (priceAfter rev crypto v calls) := by
  induction calls with
  | nil => exact sound_empty
  | cons c calls ih =>
    have hexi' := epochsExist_tail rev crypto hexi
    have hrun := conforms_tail rev crypto h
    exact (ih hrun hexi').step (step_calledOp rev crypto c calls v) (lawful_of_conforms h v)
      (earning_after rev crypto hrun hexi' v) (counted_after rev crypto (c :: calls) v)
      (hexi.horizon v)

/-- No action on sound pools finds them unsound. -/
theorem safe_of_sound {w : World} {price : ValId → Nat → Nat} (hsound : ∀ v, (w.pool v).Sound (price v))
    (hledger : ∀ v, (w.pool v).Ledger) (hros : Roster rev w.registry w.stakes)
    (hbacked : w.liabilities ≤ w.balance stakingCa) (act : Action) : act.Safe w := by
  cases act with
  | pull v a | delegate v a | claim v a => exact (hsound v).pullSafe a
  | addValidator i s => exact (hsound _).pullSafe _
  | undelegate v a =>
    refine ⟨(hsound v).pullSafe a, ?_⟩
    have hheld := ((hledger v).pull ((hsound v).pullSafe a)).held_le a
    unfold Delegator.held at hheld
    omega
  | compound v a => exact ⟨(hsound v).pullSafe a, (((hsound v).pull a).1.takeRewards a).pullSafe a⟩
  | withdraw v a i =>
    intro hw ready
    have hlt := epoch_lt_of_ready (hsound v).bounded ((hsound v).counted.request_le _) ready
    have hcan := (hsound v).canRedeem hw hlt.le
    refine ⟨hcan, ?_⟩
    -- the pool owes what it is about to pay, and the balance covers the liabilities
    have htotal := total_redeem hcan
    have hpool : (w.pool v).total ≤ w.liabilities := by
      rw [liabilities_eq]
      exact single_le_sum (f := fun v => (w.pool v).total) (fun _ _ => zero_le _) (mem_univ v)
    omega
  | blockReward author rawReward =>
    show (w.thisEpochView (w.valId author)).commission ≤ mon
    unfold World.thisEpochView
    split_ifs
    · exact hros.snapshot.commission_le _
    · exact hros.consensus.commission_le _
  | _ => trivial

/-- The pool of a validator can always pay the rewards that are pending, and no call finds that it
cannot. -/
theorem pending_le_unclaimed {calls : List Call} (hrun : Conforms rev crypto calls)
    (hepoch : (after rev crypto calls).epoch + 2 < 2 ^ 64) :
    let w := after rev crypto calls
    (∀ v, ∑ a, (w.pool v).unaccumulatedRewards a + ∑ j, (w.pool v).withdrawalReward j ≤
        (w.valExecution v).unclaimedRewards) ∧
      ∀ c e, (exec rev crypto c w).1 = .error e → e ≠ .staking .solvencyError ∧ e ≠ .math .underflow ∧
          e ≠ .exception .stakingCompoundLogicError ∧ e ≠ .exception .withdrawalInsolvent := by
  intro w
  have hexi : w.EpochsExist := by
    unfold World.EpochsExist uint64Size
    exact hepoch
  have hsound (v : ValId) := sound_after rev crypto hrun hexi v
  refine ⟨fun v => (hsound v).pending_le, fun c e he => ?_⟩
  have hsafe : (c.action rev).Safe w := safe_of_sound rev hsound (ledger_after rev crypto hexi)
    (roster_after rev crypto calls) (backed_after rev crypto calls) _
  have hkind := (exec_error rev crypto w he).1 hsafe
  refine ⟨?_, ?_, ?_, ?_⟩ <;> rintro rfl <;> cases hkind

end Runs

/-- Rewards are pending after a reward in epoch 2, for the active stake and for a withdrawal
request. -/
theorem pending_le_unclaimed_rewarded :
    let calls := [Call.reward 7 mon, .undelegate 1 mon 0 8, .onEpochChange 2, .snapshot,
      .register 7 8 0 9 (10000000 * mon), .onEpochChange 1]
    let w := after .five .acceptAll calls
    Conforms .five .acceptAll calls ∧ w.epoch + 2 < 2 ^ 64 ∧
      (w.pool 1).unaccumulatedRewards 8 ≠ 0 ∧ (w.pool 1).withdrawalReward (8, 0) ≠ 0 ∧
      ∑ a, (w.pool 1).unaccumulatedRewards a + ∑ j, (w.pool 1).withdrawalReward j ≤
        (w.valExecution 1).unclaimedRewards := by
  intro calls w
  obtain ⟨hrun, hep, hdel, hreq⟩ : Conforms .five .acceptAll calls ∧ w.epoch + 2 < 2 ^ 64 ∧
    (w.pool 1).unaccumulatedRewards 8 ≠ 0 ∧ (w.pool 1).withdrawalReward (8, 0) ≠ 0 := by decide +kernel
  exact ⟨hrun, hep, hdel, hreq, (pending_le_unclaimed .five .acceptAll hrun hep).1 1⟩

/-- In the delay period of the last epoch a new validator's stake waits for epoch 1, which is over;
the second bucket is active then and the first one is not. -/
theorem compoundLogicError_lastEpoch :
    let calls := [Call.register 7 8 0 9 (100000 * mon), .snapshot, .onEpochChange (2 ^ 64 - 1)]
    Conforms .five .acceptAll (.getDelegator 1 8 9 :: calls) ∧
      (exec .five .acceptAll (.getDelegator 1 8 9) (after .five .acceptAll calls)).1 =
        .error (.exception .stakingCompoundLogicError) := by decide +kernel

end MonadExecution.Staking
