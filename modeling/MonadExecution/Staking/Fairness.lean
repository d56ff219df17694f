import MonadExecution.Staking.Pending

/-!
# Fairness of the lazy accumulator

Had every reward been distributed at once, each delegator would have got the exact share of the stake
that earned. The contract pays later, in windows, and rounds every window down. So a delegator gets at
most the exact share, and the difference is less than one token for each settlement, for each bucket
and for each withdrawal request.
-/

namespace MonadExecution.Staking

open Program Function Finset Pool

/-- The buckets of a delegator that have stake. -/
def Delegator.openBuckets (d : Delegator) : Nat :=
  (if d.deltaStake = 0 then 0 else 1) + if d.nextDeltaStake = 0 then 0 else 1

namespace Pool

variable {ι κ : Type} [DecidableEq ι] [DecidableEq κ] [Fintype ι] [Fintype κ] {p p' : Pool ι κ}
  {a : ι} {price : Nat → Nat}

def openRequests (p : Pool ι κ) (a : ι) : Nat := (Finset.univ.filter fun i => (p.request (a, i)).hasValue).card

/-- What an operation is worth for a delegator, in units of the accumulator: the exact share of a
reward, and the commission for the auth address. -/
def gain (p : Pool ι κ) (a : ι) : Op ι κ → Nat
  | .reward auth commission r => perToken r p.view * p.earning a + if a = auth then unitBias * commission else 0
  | _ => 0

omit [DecidableEq κ] [Fintype ι] in
theorem gain_reward (a auth : ι) (commission r : Nat) (p : Pool ι κ) : p.gain a (.reward auth commission r) =
    perToken r p.view * p.earning a + if a = auth then unitBias * commission else 0 := rfl

variable {op : Op ι κ}

omit [DecidableEq κ] [Fintype ι] in
theorem gain_of_not (hop : op.isReward = false) (a : ι) : p.gain a op = 0 := by
  cases op with
  | reward auth commission r => cases hop
  | _ => rfl

/-! ## One operation -/

/-- What a delegator has earned is worth `ideal`, but for the roundings. -/
structure Fair (price : Nat → Nat) (ideal : Nat) (p : Pool ι κ) (a : ι) : Prop where
  le : p.potential price a ≤ ideal
  ge : ideal ≤ p.potential price a + (unitBias - 1) * p.roundings a

omit [DecidableEq κ] [Fintype ι] in
theorem potential_reward (h : p.Priced price) (auth : ι) (commission r : Nat) (a : ι) :
    (p.reward auth commission r).potential (nextPrice price p (p.reward auth commission r)) a =
      p.potential price a + p.gain a (.reward auth commission r) := by
  unfold potential
  rw [gain_reward, claim_reward h]
  unfold credited
  rw [reward_del, reward_payouts]
  rcases eq_or_ne a auth with rfl | ha
  · rw [update_self, if_pos rfl]
    dsimp only
    push_cast
    ring
  · rw [update_of_ne ha, if_neg ha]
    push_cast
    ring

omit [DecidableEq κ] [Fintype ι] [Fintype κ] in
theorem roundings_reward (auth : ι) (commission r : Nat) (p : Pool ι κ) (a : ι) :
    (p.reward auth commission r).roundings a = p.roundings a := by
  unfold roundings
  rw [reward_settlements, reward_del]
  rcases eq_or_ne a auth with rfl | ha
  · rw [update_self]
  · rw [update_of_ne ha]

theorem Fair.step {ideal : Nat} (hstep : Step op p p') (hsound : p.Sound price) (h : p.Fair price ideal a) :
    p'.Fair (nextPrice price p p') (ideal + p.gain a op) a := by
  have hle := h.le
  have hge := h.ge
  cases hop : op.isReward with
  | true =>
    cases hstep with
    | @reward _ auth commission r hv =>
      have hpot := potential_reward hsound.priced auth commission r a
      have hrnd := roundings_reward auth commission r p a
      constructor
      · rw [hpot]
        push_cast
        linarith
      · rw [hpot, hrnd]
        push_cast
        linarith
    | _ => cases hop
  | false =>
    have hrds := hsound.rounds_step hstep hop
    rw [hsound.priced.nextPrice_eq (acc_step hstep hop), gain_of_not hop, Nat.add_zero]
    exact ⟨(hrds.le a).trans hle, hge.trans (hrds.ge a)⟩

/-! ## What pending rewards lose -/

/-- Windows of no length lose nothing. -/
theorem le_earned_window (s : Nat) {new old : Nat} (h : old ≤ new) :
    (s : ℤ) * ((new : ℤ) - old) ≤ unitBias * earned s new old +
      (unitBias - 1) * if s = 0 ∨ new = old then 0 else 1 := by
  have hle := le_earned s h
  rcases eq_or_ne new old with rfl | hne
  · have hzero : earned s new new = 0 := by simp [earned]
    rw [hzero]
    simp
  · simpa [hne] using hle

omit [DecidableEq ι] [DecidableEq κ] in
/-- Each window that is rounded is paid for by a part of the stake. -/
theorem Sound.windows (h : p.Sound price) (hsolid : (p.del a).Solid) :
    (if (p.del a).stake = 0 ∨ p.firstStop a = (p.del a).accumulatedRewardPerToken then 0 else 1) +
      (if (p.del a).stake + (if (p.del a).deltaEpoch ≤ p.epoch then (p.del a).deltaStake else 0) = 0 ∨
        p.secondStop a = p.firstStop a then 0 else 1) +
      (if (p.del a).stake + (if (p.del a).deltaEpoch ≤ p.epoch then (p.del a).deltaStake else 0) +
        (if (p.del a).nextDeltaEpoch ≤ p.epoch then (p.del a).nextDeltaStake else 0) = 0 ∨
        p.acc = p.secondStop a then 0 else 1) ≤
      (if (p.del a).stake = 0 then 0 else 1) + (p.del a).openBuckets := by
  have hemp := h.counted.early h.bounded a
  have hdel : (if (p.del a).deltaEpoch ≤ p.epoch then (p.del a).deltaStake else 0) = 0 ∧
        p.firstStop a = (p.del a).accumulatedRewardPerToken ∨ (p.del a).deltaStake ≠ 0 := by
    by_cases hact : p.isActive (p.del a).deltaEpoch
    · exact .inr (hsolid.delta_filled (isActive_iff.mp hact).1)
    refine .inl ⟨?_, if_neg hact⟩
    rw [Bool.not_eq_true, isActive_eq_false] at hact
    split_ifs with hle
    · exact hemp.delta (hact.resolve_right (Nat.not_lt.mpr hle))
    · rfl
  have hnext : (if (p.del a).nextDeltaEpoch ≤ p.epoch then (p.del a).nextDeltaStake else 0) = 0 ∧
        p.secondStop a = p.firstStop a ∨ (p.del a).nextDeltaStake ≠ 0 := by
    by_cases hact : p.isActive (p.del a).nextDeltaEpoch
    · exact .inr (hsolid.next_filled (isActive_iff.mp hact).1)
    refine .inl ⟨?_, if_neg hact⟩
    rw [Bool.not_eq_true, isActive_eq_false] at hact
    split_ifs with hle
    · exact hemp.next (hact.resolve_right (Nat.not_lt.mpr hle))
    · rfl
  unfold Delegator.openBuckets
  rcases hdel with ⟨hd, hstop⟩ | hd <;> rcases hnext with ⟨hn, hstop'⟩ | hn
  · rw [hd, hn]
    split_ifs <;> omega
  · rw [hd]
    split_ifs <;> omega
  · rw [hn]
    split_ifs <;> omega
  · split_ifs <;> omega

omit [DecidableEq ι] [DecidableEq κ] in
theorem Sound.liability_le_pending (h : p.Sound price) (hsolid : (p.del a).Solid) :
    liability price p.acc (p.del a) ≤ unitBias * p.unaccumulatedRewards a + (unitBias - 1) *
        ((if (p.del a).stake = 0 then 0 else 1 : Nat) + (p.del a).openBuckets : Nat) := by
  obtain ⟨hfst, hsnd, hthird⟩ := h.stops a
  have hwindows := h.windows hsolid
  have hbias := unitBias_sub_one_nonneg
  have h1 := le_earned_window (p.del a).stake hfst
  have h2 := le_earned_window ((p.del a).stake +
    if (p.del a).deltaEpoch ≤ p.epoch then (p.del a).deltaStake else 0) hsnd
  have h3 := le_earned_window ((p.del a).stake +
    (if (p.del a).deltaEpoch ≤ p.epoch then (p.del a).deltaStake else 0) +
    if (p.del a).nextDeltaEpoch ≤ p.epoch then (p.del a).nextDeltaStake else 0) hthird
  have hmul := mul_le_mul_of_nonneg_left (Int.ofNat_le.mpr hwindows) hbias
  rw [h.liability_eq]
  unfold unaccumulatedRewards
  push_cast at h1 h2 h3 hmul ⊢
  linarith

omit [DecidableEq ι] [DecidableEq κ] in
theorem Sound.owed_le_pending (h : p.Sound price) (a : ι) :
    ∑ i, owed price (p.request (a, i)) ≤ unitBias * ∑ i, (p.withdrawalReward (a, i) : ℤ) +
      (unitBias - 1) * p.openRequests a := by
  have hsum : ∑ i, owed price (p.request (a, i)) ≤ ∑ i, ((unitBias : ℤ) * p.withdrawalReward (a, i) +
        (unitBias - 1) * if (p.request (a, i)).hasValue then 1 else 0) :=
    sum_le_sum fun i _ => (h.withdrawalReward_bounds (a, i)).2
  rw [sum_add_distrib, ← mul_sum, ← mul_sum] at hsum
  refine hsum.trans (le_of_eq ?_)
  unfold openRequests
  rw [card_filter]
  push_cast
  rfl

omit [DecidableEq ι] [DecidableEq κ] in
/-- A fair pool pays at most the exact share, and less only by what is lost in rounding. -/
theorem Fair.total {ideal : Nat} (h : p.Fair price ideal a) (hsound : p.Sound price) (hsolid : (p.del a).Solid) :
    let total := p.payouts a + (p.del a).rewards + p.pendingRewards a
    unitBias * total ≤ ideal ∧ (ideal : ℤ) ≤ unitBias * total +
        (unitBias - 1) * (p.settlements a + (p.del a).openBuckets + p.openRequests a : Nat) := by
  intro total
  have hle := h.le
  have hge := h.ge
  have hstk := hsound.unaccumulatedRewards_le a
  have hstk' := hsound.liability_le_pending hsolid
  have hreqs : (unitBias : ℤ) * ∑ i, (p.withdrawalReward (a, i) : ℤ) ≤ ∑ i, owed price (p.request (a, i)) := by
    rw [mul_sum]
    exact sum_le_sum fun i _ => (hsound.withdrawalReward_bounds (a, i)).1
  have hreqs' := hsound.owed_le_pending a
  have htotal : (total : ℤ) = p.credited a + p.unaccumulatedRewards a + ∑ i, (p.withdrawalReward (a, i) : ℤ) := by
    show ((p.payouts a + (p.del a).rewards + (∑ i, p.withdrawalReward (a, i) +
      p.unaccumulatedRewards a) : Nat) : ℤ) = _
    unfold credited
    push_cast
    ring
  unfold potential claim at hle hge
  unfold roundings at hge
  constructor
  · zify
    rw [htotal]
    linarith
  · rw [htotal]
    push_cast at hge hstk' ⊢
    linarith

end Pool

/-! ## After a conforming run -/

section Runs

variable (rev : MonadRevision) (crypto : Crypto)

/-- What delegator `a` of `v` should have earned, in units of the accumulator. -/
def idealRewards (v : ValId) (a : Address) : List Call → Nat
  | [] => 0
  | c :: calls => idealRewards v a calls +
      ((after rev crypto calls).pool v).gain a (calledOp rev crypto c (after rev crypto calls) v)

theorem fair_after {calls : List Call} (h : Conforms rev crypto calls)
    (hexi : (after rev crypto calls).EpochsExist) (v : ValId) (a : Address) :
    ((after rev crypto calls).pool v).Fair (priceAfter rev crypto v calls) (idealRewards rev crypto v a calls) a := by
  induction calls with
  | nil =>
    have hreqs : ∑ i, owed (fun _ => 0) ((empty : Pool Address WithdrawalId).request (a, i)) = 0 :=
      sum_eq_zero fun i _ => by simp [empty, owed]
    have hpot : (empty : Pool Address WithdrawalId).potential (fun _ => 0) a = 0 := by
      unfold potential claim
      rw [hreqs]
      simp [empty, liability, credited]
    have hrnd : (empty : Pool Address WithdrawalId).roundings a = 0 := by simp [empty, roundings]
    exact ⟨hpot.le, by
      show (0 : ℤ) ≤ (empty : Pool Address WithdrawalId).potential (fun _ => 0) a +
        (unitBias - 1) * (empty : Pool Address WithdrawalId).roundings a
      rw [hpot, hrnd, mul_zero, add_zero]⟩
  | cons c calls ih =>
    have hexi' := epochsExist_tail rev crypto hexi
    have hrun := conforms_tail rev crypto h
    exact (ih hrun hexi').step (step_calledOp rev crypto c calls v) (sound_after rev crypto hrun hexi' v)

/-- The rewards of a delegator: paid or compounded, in the record, and pending. -/
def totalRewards (w : World) (v : ValId) (a : Address) : Nat :=
  w.payouts v a + (w.delegator v a).rewards + (w.pool v).pendingRewards a

/-- The settlements of a delegator, and what is still to be settled. -/
def roundingSteps (w : World) (v : ValId) (a : Address) : Nat :=
  w.settlements v a + (w.delegator v a).openBuckets + (w.pool v).openRequests a

/-- A delegator gets at most the exact share of all rewards. Unless nothing was or is to be settled,
the difference is less than the number of settlements, buckets and requests; then there is none. -/
theorem totalRewards_near_ideal {calls : List Call} (hrun : Conforms rev crypto calls)
    (hepoch : (after rev crypto calls).epoch + 2 < 2 ^ 64) (v : ValId) (a : Address) :
    let w := after rev crypto calls
    let ideal : ℚ := idealRewards rev crypto v a calls / unitBias
    totalRewards w v a ≤ ideal ∧ (roundingSteps w v a ≠ 0 → ideal - totalRewards w v a < roundingSteps w v a) ∧
      (roundingSteps w v a = 0 → ideal = totalRewards w v a) := by
  intro w ideal
  have hexi : w.EpochsExist := by
    unfold World.EpochsExist uint64Size
    exact hepoch
  obtain ⟨hle, hge⟩ := (fair_after rev crypto hrun hexi v a).total
    (sound_after rev crypto hrun hexi v) (solid_after rev crypto calls v a)
  have hle' : (unitBias : ℚ) * totalRewards w v a ≤ idealRewards rev crypto v a calls := by exact_mod_cast hle
  have hge' : (idealRewards rev crypto v a calls : ℚ) ≤ unitBias * totalRewards w v a +
      (unitBias - 1) * roundingSteps w v a := by exact_mod_cast hge
  have hpos : (0 : ℚ) < unitBias := by exact_mod_cast unitBias_pos
  have hideal : ideal * unitBias = idealRewards rev crypto v a calls := div_mul_cancel₀ _ hpos.ne'
  rw [← hideal] at hle' hge'
  have hlo : (totalRewards w v a : ℚ) ≤ ideal := by
    refine le_of_mul_le_mul_right ?_ hpos
    linarith
  refine ⟨hlo, fun hne => ?_, fun h0 => ?_⟩
  · have hss : (0 : ℚ) < roundingSteps w v a := by exact_mod_cast Nat.pos_of_ne_zero hne
    refine lt_of_mul_lt_mul_right ?_ hpos.le
    linarith
  · rw [h0] at hge'
    refine le_antisymm (le_of_mul_le_mul_right ?_ hpos) hlo
    push_cast at hge'
    linarith

end Runs

/-- A delegator with a withdrawal request and a validator with a commission of a tenth. -/
theorem totalRewards_near_ideal_rewarded :
    let calls := [Call.claimRewards 1 8, .reward 7 mon, .undelegate 1 mon 0 8, .onEpochChange 2,
      .snapshot, .register 7 8 (mon / 10) 9 (10000000 * mon), .onEpochChange 1]
    let w := after .five .acceptAll calls
    let ideal : ℚ := idealRewards .five .acceptAll 1 8 calls / unitBias
    Conforms .five .acceptAll calls ∧ w.epoch + 2 < 2 ^ 64 ∧ w.payouts 1 8 ≠ 0 ∧ totalRewards w 1 8 ≤ ideal ∧
      (roundingSteps w 1 8 ≠ 0 → ideal - totalRewards w 1 8 < roundingSteps w 1 8) := by
  intro calls w ideal
  obtain ⟨hrun, hep, hpaid⟩ : Conforms .five .acceptAll calls ∧ w.epoch + 2 < 2 ^ 64 ∧ w.payouts 1 8 ≠ 0 := by decide +kernel
  obtain ⟨hle, hlt, -⟩ := totalRewards_near_ideal .five .acceptAll hrun hep 1 8
  exact ⟨hrun, hep, hpaid, hle, hlt⟩

/-- In the last epoch a withdrawal request waits for epoch 0 and counts as matured at once; the next
undelegation writes the accumulator of now into its cell, and the request is paid for a reward that
came too late for it. -/
def lateWithdrawal : List Call :=
  [.withdraw 1 0 8, .undelegate 1 mon 1 8, .reward 7 mon, .undelegate 1 mon 0 8,
    .onEpochChange (2 ^ 64 - 1), .snapshot, .register 7 8 0 9 (10000000 * mon),
    .onEpochChange (2 ^ 64 - 2)]

/-- A delegator who never did anything has no step in which something could be lost, and gets nothing
less than 0. In the last epoch a delegator gets too much. -/
theorem not_totalRewards_near_ideal : ¬ ((idealRewards .five .acceptAll 1 8 [] / unitBias : ℚ) -
        totalRewards (after .five .acceptAll []) 1 8 <
      roundingSteps (after .five .acceptAll []) 1 8) ∧
    Conforms .five .acceptAll lateWithdrawal ∧
    (idealRewards .five .acceptAll 1 8 lateWithdrawal / unitBias : ℚ) <
      totalRewards (after .five .acceptAll lateWithdrawal) 1 8 := by
  obtain ⟨hrun, hlt⟩ : Conforms .five .acceptAll lateWithdrawal ∧
    idealRewards .five .acceptAll 1 8 lateWithdrawal < ((after .five .acceptAll lateWithdrawal).payouts 1 8 +
      ((after .five .acceptAll lateWithdrawal).delegator 1 8).rewards) * unitBias := by decide +kernel
  refine ⟨?_, hrun, ?_⟩
  · have hss : roundingSteps (after .five .acceptAll []) 1 8 = 0 := rfl
    have htotal : totalRewards (after .five .acceptAll []) 1 8 = 0 := by decide +kernel
    rw [hss, htotal]
    simp [idealRewards]
  have hle : (after .five .acceptAll lateWithdrawal).payouts 1 8 +
      ((after .five .acceptAll lateWithdrawal).delegator 1 8).rewards ≤
      totalRewards (after .five .acceptAll lateWithdrawal) 1 8 := Nat.le_add_right _ _
  have hpos : (0 : ℚ) < unitBias := by exact_mod_cast unitBias_pos
  rw [div_lt_iff₀ hpos]
  exact_mod_cast hlt.trans_le (Nat.mul_le_mul_right _ hle)

end MonadExecution.Staking
