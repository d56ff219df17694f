import MonadExecution.Staking.Prices

/-!
# What a pool owes

Every delegator has a claim on the rewards of the pool: what the active stake has earned since it was
paid, what the buckets have earned since their epochs began, and what the withdrawal requests have
earned until theirs. Settling pays a claim rounded down, so what was paid out and is still claimed never
grows, and shrinks by less than one token per settlement.
-/

namespace MonadExecution.Staking

open Program Function Finset Delegator Nat

/-! ## Rounding -/

section Rounding

variable {s new old : Nat}

theorem earned_le (s : Nat) (h : old ≤ new) : (unitBias : ℤ) * earned s new old ≤ s * ((new : ℤ) - old) := by
  have hdiv := mul_div_le ((new - old) * s) unitBias
  unfold earned
  zify [h] at hdiv ⊢
  linarith

/-- Less than one token is lost, and none if there is no stake. -/
theorem le_earned (s : Nat) (h : old ≤ new) : (s : ℤ) * ((new : ℤ) - old) ≤
    unitBias * earned s new old + (unitBias - 1) * if s = 0 then 0 else 1 := by
  split_ifs with h0
  · subst h0
    simp [earned]
  have hdiv := div_add_mod ((new - old) * s) unitBias
  have hmod := mod_lt ((new - old) * s) unitBias_pos
  unfold earned
  zify [h] at hdiv hmod ⊢
  linarith

end Rounding

namespace Pool

variable {ι κ : Type} [DecidableEq ι] [DecidableEq κ] [Fintype ι] [Fintype κ] {p q p' : Pool ι κ}
  {a : ι} {price : Nat → Nat}

/-! ## Claims -/

/-- What the stake of a delegator has earned and was not paid. -/
def liability (price : Nat → Nat) (acc : Nat) (d : Delegator) : ℤ :=
  d.stake * ((acc : ℤ) - d.accumulatedRewardPerToken) + d.deltaStake * ((acc : ℤ) - price d.deltaEpoch) +
    d.nextDeltaStake * ((acc : ℤ) - price d.nextDeltaEpoch)

/-- What a withdrawal request has earned. -/
def owed (price : Nat → Nat) (r : WithdrawalRequest) : ℤ := r.amount * ((price r.epoch : ℤ) - r.acc)

def claim (price : Nat → Nat) (p : Pool ι κ) (a : ι) : ℤ :=
  liability price p.acc (p.del a) + ∑ i, owed price (p.request (a, i))

/-- What a delegator got out of the pool: paid or compounded, or in the record. -/
def credited (p : Pool ι κ) (a : ι) : Nat := (p.del a).rewards + p.payouts a

/-- Everything a delegator has earned, as far as it was not lost in rounding. -/
def potential (price : Nat → Nat) (p : Pool ι κ) (a : ι) : ℤ := p.claim price a + unitBias * p.credited a

/-- The settlements that may have lost something. The first active stake has lost nothing yet, but
was settled once when it became active. -/
def roundings (p : Pool ι κ) (a : ι) : ℤ := p.settlements a - if (p.del a).stake = 0 then 0 else 1

section

variable (h : p.Priced price)

include h

omit [DecidableEq ι] [DecidableEq κ] [Fintype ι] [Fintype κ] in
theorem liability_le (a : ι) {new : Nat} (hle : new ≤ p.acc) :
    ((p.del a).stake : ℤ) * ((new : ℤ) - (p.del a).accumulatedRewardPerToken) ≤ liability price p.acc (p.del a) := by
  have hbkt (f s : Nat) : 0 ≤ (s : ℤ) * ((p.acc : ℤ) - price f) := by
    have := h.le_acc f
    exact mul_nonneg (by positivity) (by omega)
  have hstk : ((p.del a).stake : ℤ) * ((new : ℤ) - (p.del a).accumulatedRewardPerToken) ≤
      (p.del a).stake * ((p.acc : ℤ) - (p.del a).accumulatedRewardPerToken) := by
    refine mul_le_mul_of_nonneg_left ?_ (by positivity)
    omega
  have hdelta := hbkt (p.del a).deltaEpoch (p.del a).deltaStake
  have hnext := hbkt (p.del a).nextDeltaEpoch (p.del a).nextDeltaStake
  unfold liability
  linarith

omit [DecidableEq ι] [DecidableEq κ] [Fintype ι] [Fintype κ] in
theorem owed_nonneg (j : ι × κ) : 0 ≤ owed price (p.request j) := by
  have := h.request_le j
  exact mul_nonneg (by positivity) (by omega)

omit [DecidableEq ι] [DecidableEq κ] [Fintype ι] [Fintype κ] in
theorem liability_nonneg (a : ι) : 0 ≤ liability price p.acc (p.del a) := by
  have hle := liability_le h a (h.del a).acc_le
  rwa [sub_self, mul_zero] at hle

omit [DecidableEq ι] [DecidableEq κ] [Fintype ι] in
theorem liability_le_claim (a : ι) : liability price p.acc (p.del a) ≤ p.claim price a := by
  have hsum : 0 ≤ ∑ i, owed price (p.request (a, i)) := sum_nonneg fun i _ => owed_nonneg h (a, i)
  unfold claim
  linarith

omit [DecidableEq ι] [DecidableEq κ] [Fintype ι] in
theorem owed_le_claim (a : ι) (i : κ) : owed price (p.request (a, i)) ≤ p.claim price a := by
  have hone : owed price (p.request (a, i)) ≤ ∑ i, owed price (p.request (a, i)) :=
    single_le_sum (f := fun i => owed price (p.request (a, i))) (fun i _ => owed_nonneg h (a, i)) (mem_univ i)
  have hliab := liability_nonneg h a
  unfold claim
  linarith

omit [DecidableEq ι] [DecidableEq κ] [Fintype ι] in
theorem claim_nonneg (a : ι) : 0 ≤ p.claim price a := (liability_nonneg h a).trans (liability_le_claim h a)

end

/-! ## Operations that only round -/

/-- What the pool has for its delegators, and what they have got. -/
def proceeds (p : Pool ι κ) : Nat := p.unclaimed + ∑ a, p.credited a

/-- From `p` to `q` nobody gains, and nobody loses but by rounding; what the pool gives away, its
delegators get. -/
structure Rounds (price : Nat → Nat) (p q : Pool ι κ) : Prop where
  le : ∀ a, q.potential price a ≤ p.potential price a
  ge : ∀ a, p.potential price a + (unitBias - 1) * p.roundings a ≤
    q.potential price a + (unitBias - 1) * q.roundings a
  proceeds : q.proceeds = p.proceeds

omit [DecidableEq ι] [DecidableEq κ] in
theorem Rounds.refl (price : Nat → Nat) (p : Pool ι κ) : Rounds price p p :=
  ⟨fun _ => le_refl _, fun _ => le_refl _, rfl⟩

omit [DecidableEq ι] [DecidableEq κ] in
theorem Rounds.trans {r : Pool ι κ} (h : Rounds price p q) (h' : Rounds price q r) : Rounds price p r where
  le a := (h'.le a).trans (h.le a)
  ge a := (h.ge a).trans (h'.ge a)
  proceeds := h'.proceeds.trans h.proceeds

/-- Nothing of a delegator `b` has changed. -/
structure SameFor (b : ι) (p q : Pool ι κ) : Prop where
  acc : q.acc = p.acc
  del : q.del b = p.del b
  request : ∀ i, q.request (b, i) = p.request (b, i)
  payouts : q.payouts b = p.payouts b
  settlements : q.settlements b = p.settlements b

variable {b : ι} {d : Delegator} {i : κ} {op : Op ι κ}

omit [DecidableEq ι] [DecidableEq κ] [Fintype ι] in
theorem SameFor.potential_eq (h : SameFor b p q) : q.potential price b = p.potential price b := by
  unfold potential claim credited
  simp only [h.acc, h.del, h.request, h.payouts]

omit [DecidableEq ι] [DecidableEq κ] [Fintype ι] [Fintype κ] in
theorem SameFor.credited_eq (h : SameFor b p q) : q.credited b = p.credited b := by
  unfold credited
  rw [h.del, h.payouts]

omit [DecidableEq ι] [DecidableEq κ] [Fintype ι] [Fintype κ] in
theorem SameFor.roundings_eq (h : SameFor b p q) : q.roundings b = p.roundings b := by
  unfold roundings
  rw [h.del, h.settlements]

omit [DecidableEq κ] in
/-- An operation on the account of `a`. -/
theorem rounds_at (hother : ∀ b, b ≠ a → SameFor b p q) (hle : q.potential price a ≤ p.potential price a)
    (hge : p.potential price a + (unitBias - 1) * p.roundings a ≤ q.potential price a + (unitBias - 1) * q.roundings a)
    (hproceeds : q.unclaimed + q.credited a = p.unclaimed + p.credited a) : Rounds price p q := by
  refine ⟨fun b => ?_, fun b => ?_, ?_⟩
  · rcases eq_or_ne b a with rfl | hb
    · exact hle
    · rw [(hother b hb).potential_eq]
  · rcases eq_or_ne b a with rfl | hb
    · exact hge
    · rw [(hother b hb).potential_eq, (hother b hb).roundings_eq]
  · have hsum := sum_change (f := q.credited) (g := p.credited) a fun b hb =>
      (hother b hb).credited_eq
    unfold Pool.proceeds
    omega

theorem unitBias_sub_one_nonneg : (0 : ℤ) ≤ unitBias - 1 := by
  have := unitBias_pos
  omega

omit [DecidableEq ι] [DecidableEq κ] in
/-- Nothing that counts for a claim has changed. -/
theorem Rounds.of_same (hacc : q.acc = p.acc) (hdel : q.del = p.del) (hreq : q.request = p.request)
    (hpayouts : q.payouts = p.payouts) (hstm : q.settlements = p.settlements)
    (hunclaimed : q.unclaimed = p.unclaimed) : Rounds price p q := by
  have hsame (b : ι) : SameFor b p q := ⟨hacc, by rw [hdel], fun i => by rw [hreq], by rw [hpayouts], by rw [hstm]⟩
  refine ⟨fun b => (hsame b).potential_eq.le, fun b => ?_, ?_⟩
  · rw [(hsame b).potential_eq, (hsame b).roundings_eq]
  unfold Pool.proceeds
  rw [hunclaimed, sum_congr rfl fun b _ => (hsame b).credited_eq]

omit [DecidableEq κ] in
/-- The record of `a` changes and something is paid for the active stake `s`; the claim falls by
what `s` has earned up to `new`. -/
theorem rounds_pay (new : Nat) (hdel : q.del = update p.del a d) (hacc : q.acc = p.acc)
    (hreq : q.request = p.request) (hpayouts : q.payouts = p.payouts)
    (hstm : q.settlements = update p.settlements a (p.settlements a + 1))
    (hnew : (p.del a).accumulatedRewardPerToken ≤ new)
    (hunclaimed : q.unclaimed + earned (p.del a).stake new (p.del a).accumulatedRewardPerToken = p.unclaimed)
    (hrew : d.rewards = (p.del a).rewards + earned (p.del a).stake new (p.del a).accumulatedRewardPerToken)
    (hliab : liability price p.acc d + (p.del a).stake * ((new : ℤ) - (p.del a).accumulatedRewardPerToken) =
      liability price p.acc (p.del a)) :
    Rounds price p q := by
  have hle := earned_le (p.del a).stake hnew
  have hge := le_earned (p.del a).stake hnew
  have hbias := unitBias_sub_one_nonneg
  have hpot : q.potential price a + (p.del a).stake * ((new : ℤ) - (p.del a).accumulatedRewardPerToken) =
      p.potential price a + unitBias * earned (p.del a).stake new (p.del a).accumulatedRewardPerToken := by
    unfold potential claim credited
    rw [hdel, update_self, hacc, hreq, hpayouts, hrew, ← hliab]
    push_cast
    ring
  have hrnd : p.roundings a + (if (p.del a).stake = 0 then 0 else 1) ≤ q.roundings a := by
    unfold roundings
    rw [hstm, update_self, hdel, update_self]
    split_ifs <;> omega
  refine rounds_at (a := a) (fun b hb => ?_) ?_ ?_ ?_
  · exact ⟨hacc, by rw [hdel, update_of_ne hb], fun i => by rw [hreq],
      by rw [hpayouts], by rw [hstm, update_of_ne hb]⟩
  · linarith
  · have hmul := mul_le_mul_of_nonneg_left hrnd hbias
    linarith
  · unfold credited
    rw [hdel, update_self, hpayouts, hrew]
    omega

omit [DecidableEq κ] in
/-- The record of `a` changes, and the claim does not. -/
theorem rounds_keep (hdel : q.del = update p.del a d) (hacc : q.acc = p.acc)
    (hreq : q.request = p.request) (hstm : q.settlements = p.settlements)
    (hunclaimed : q.unclaimed = p.unclaimed) (hpayouts : ∀ b, b ≠ a → q.payouts b = p.payouts b)
    (hcredited : d.rewards + q.payouts a = (p.del a).rewards + p.payouts a) (hstk : d.stake = (p.del a).stake)
    (hliab : liability price p.acc d = liability price p.acc (p.del a)) : Rounds price p q := by
  have hpot : q.potential price a = p.potential price a := by
    unfold potential claim credited
    rw [hdel, update_self, hacc, hreq, hliab, hcredited]
  have hrnd : q.roundings a = p.roundings a := by
    unfold roundings
    rw [hstm, hdel, update_self, hstk]
  refine rounds_at (a := a) (fun b hb => ?_) hpot.le ?_ ?_
  · exact ⟨hacc, by rw [hdel, update_of_ne hb], fun i => by rw [hreq], hpayouts b hb, by rw [hstm]⟩
  · rw [hpot, hrnd]
  · unfold credited
    rw [hdel, update_self, hunclaimed, hcredited]

omit [DecidableEq κ] in
theorem rounds_promote (hemp : EmptyWithoutEpoch (p.del a)) : Rounds price p (p.promote a) := by
  refine rounds_keep (promote_del a p) rfl rfl rfl rfl (fun _ _ => rfl) ?_ ?_ ?_
  · split_ifs <;> rfl
  · split_ifs <;> rfl
  split_ifs with hp
  · simp only [canPromoteDelta, Bool.and_eq_true, beq_iff_eq] at hp
    simp [liability, promoteDelta, hemp.delta hp.1]
  · rfl

omit [DecidableEq κ] in
theorem rounds_compound (h : p.Priced price) (hc : p.Counted) (hact : p.isActive (p.del a).deltaEpoch)
    (can : p.CanCompound a) : Rounds price p (p.compound a) := by
  obtain ⟨h0, -⟩ := isActive_iff.mp hact
  have hacc := h.bucketAcc_eq hc hact
  refine rounds_pay (price (p.del a).deltaEpoch) (compound_del a p) rfl rfl rfl rfl ((h.del a).delta_le h0) ?_ ?_ ?_
  · rw [← hacc]
    exact Nat.sub_add_cancel can.solvent
  · rw [← hacc]
    rfl
  · rw [hacc]
    simp only [liability, Delegator.compounded]
    push_cast
    ring

omit [DecidableEq κ] in
theorem rounds_settle (h : p.Priced price) (can : p.CanSettle a) : Rounds price p (p.settle a) := by
  refine rounds_pay p.acc (settle_del a p) rfl rfl rfl rfl (h.del a).acc_le (Nat.sub_add_cancel can.solvent) rfl ?_
  simp only [liability, Delegator.settled]
  ring

omit [DecidableEq κ] in
theorem rounds_takeRewards (price : Nat → Nat) (p : Pool ι κ) (a : ι) : Rounds price p (p.takeRewards a) := by
  refine rounds_keep (takeRewards_del a p) rfl rfl rfl rfl (fun b hb => ?_) ?_ rfl rfl
  · rw [takeRewards_payouts, update_of_ne hb]
  rw [takeRewards_payouts, update_self]
  dsimp only
  omega

omit [DecidableEq κ] in
theorem rounds_stage (h : p.Priced price) (hc : p.Counted) (hh : p.horizon < uint64Size)
    (hup : (p.del a).UpToDate p.epoch p.inDelay) (s : Nat) : Rounds price p (p.stage a s) := by
  have hemp := hc.early hh a
  have hstg := stagedEpoch_eq hup (hc.timely a)
  have hpr : price p.activation = p.acc := by
    refine h.above _ ?_
    rw [activation_of_horizon hh]
    exact epoch_lt_horizon p
  have hstk : ((p.del a).staged p.inDelay s p.activation).stake = (p.del a).stake ∧
      ((p.del a).staged p.inDelay s p.activation).rewards = (p.del a).rewards := by
    unfold Delegator.staged
    split_ifs <;> exact ⟨rfl, rfl⟩
  refine rounds_keep (stage_del a s p) rfl rfl rfl rfl (fun _ _ => rfl) (by rw [hstk.2]; rfl) hstk.1 ?_
  -- a bucket that is filled has earned nothing, whether it was empty or not
  have hdelta := hemp.delta
  have hnext := hemp.next
  unfold Delegator.stagedEpoch at hstg
  unfold Delegator.staged liability
  split_ifs at hstg ⊢ with hdly
  · rcases eq_or_ne (p.del a).nextDeltaEpoch 0 with h0 | h0
    · simp [hpr, hnext h0]
    · simp [hpr, hstg h0]
  · rcases eq_or_ne (p.del a).deltaEpoch 0 with h0 | h0
    · simp [hpr, hdelta h0]
    · simp [hpr, hstg h0]

omit [Fintype ι] in
/-- The sum over the requests of `a` of which one is replaced. -/
theorem sum_owed_update (price : Nat → Nat) {r : WithdrawalRequest} (hreq : q.request = update p.request (a, i) r) :
    ∑ k, owed price (q.request (a, k)) + owed price (p.request (a, i)) =
      ∑ k, owed price (p.request (a, k)) + owed price r := by
  rw [hreq]
  have hsum := sum_change (f := fun k => owed price (update p.request (a, i) r (a, k)))
    (g := fun k => owed price (p.request (a, k))) i fun k hk => by rw [update_of_ne (by simpa using hk)]
  rwa [update_self] at hsum

theorem rounds_lower (h : p.Priced price) (hh : p.horizon < uint64Size) {amount : Nat}
    (hw : (p.request (a, i)).hasValue = false) (hx : amount ≤ (p.del a).stake) :
    Rounds price p (p.lower a i amount) := by
  have hle := leaving_le hx
  have hpr : price p.activation = p.acc := by
    refine h.above _ ?_
    rw [activation_of_horizon hh]
    exact epoch_lt_horizon p
  have hsum := sum_owed_update price (lower_request a i amount p)
  have hclosed : owed price (p.request (a, i)) = 0 := by simp [owed, amount_of_hasValue hw]
  have hopen : owed price
      { amount := p.leaving a amount, acc := (p.del a).accumulatedRewardPerToken,
        epoch := p.activation } =
      p.leaving a amount * ((p.acc : ℤ) - (p.del a).accumulatedRewardPerToken) := by simp [owed, hpr]
  -- what the active stake loses is what the request gets
  have hliab : liability price p.acc ((p.del a).lowered (p.leaving a amount)) +
      p.leaving a amount * ((p.acc : ℤ) - (p.del a).accumulatedRewardPerToken) =
      liability price p.acc (p.del a) := by
    have hrest : (((p.del a).stake - p.leaving a amount : Nat) : ℤ) *
        ((p.acc : ℤ) - (if (p.del a).stake - p.leaving a amount = 0 then 0
          else (p.del a).accumulatedRewardPerToken : Nat)) =
        ((p.del a).stake - p.leaving a amount) * ((p.acc : ℤ) - (p.del a).accumulatedRewardPerToken) := by
      rw [cast_sub hle]
      split_ifs with h0
      · have hzero : ((p.del a).stake : ℤ) - p.leaving a amount = 0 := by omega
        rw [hzero, zero_mul, zero_mul]
      · rfl
    unfold liability
    rw [lowered_stake, lowered_accumulatedRewardPerToken, lowered_deltaEpoch, lowered_deltaStake,
      lowered_nextDeltaEpoch, lowered_nextDeltaStake, hrest]
    ring
  have hpot : (p.lower a i amount).potential price a = p.potential price a := by
    unfold potential claim credited
    rw [lower_del, update_self, lower_acc, lower_payouts, lowered_rewards]
    linarith
  have hrnd : p.roundings a ≤ (p.lower a i amount).roundings a := by
    unfold roundings
    rw [lower_settlements, lower_del, update_self, lowered_stake]
    split_ifs <;> omega
  refine rounds_at (a := a) (fun b hb => ?_) hpot.le ?_ ?_
  · refine ⟨rfl, ?_, fun k => ?_, rfl, rfl⟩
    · rw [lower_del, update_of_ne hb]
    · rw [lower_request, update_of_ne (by simp [hb])]
  · have hmul := mul_le_mul_of_nonneg_left hrnd unitBias_sub_one_nonneg
    linarith
  · unfold credited
    rw [lower_del, update_self]
    rfl

omit [DecidableEq ι] [DecidableEq κ] in
/-- The cell of a request that is due has the price. -/
theorem Priced.released_eq (h : p.Priced price) (hc : p.Counted) {j : ι × κ} (hw : (p.request j).hasValue)
    (hle : (p.request j).epoch ≤ p.epoch) : (p.cell (p.request j).epoch).released = price (p.request j).epoch := by
  have hcnt := hc.request_refcount_ne hw
  unfold RefCountedAccumulator.released
  rw [if_neg hcnt]
  exact h.cell _ (h.request_pos j hw) (.inl hle) hcnt

theorem rounds_redeem (h : p.Priced price) (hc : p.Counted) (hw : (p.request (a, i)).hasValue)
    (hdue : (p.request (a, i)).epoch ≤ p.epoch) (can : p.CanRedeem (a, i)) : Rounds price p (p.redeem a i) := by
  have hsolvent := can.solvent
  have hsum := sum_owed_update price (redeem_request a i p)
  have hclosed : owed price {} = 0 := by simp [owed]
  have hreward : p.requestReward (a, i) = earned (p.request (a, i)).amount
      (price (p.request (a, i)).epoch) (p.request (a, i)).acc := by
    unfold requestReward
    rw [h.released_eq hc hw hdue]
  have hle := earned_le (p.request (a, i)).amount (h.request_le (a, i))
  have hge := le_earned (p.request (a, i)).amount (h.request_le (a, i))
  have hbias := unitBias_sub_one_nonneg
  have hpot : (p.redeem a i).potential price a + owed price (p.request (a, i)) =
      p.potential price a + unitBias * p.requestReward (a, i) := by
    unfold potential claim credited
    rw [redeem_del, redeem_acc, redeem_payouts, update_self]
    push_cast
    linarith
  have hrnd : p.roundings a + (if (p.request (a, i)).amount = 0 then 0 else 1) ≤ (p.redeem a i).roundings a := by
    unfold roundings
    rw [redeem_settlements, update_self, redeem_del]
    split_ifs <;> omega
  rw [hreward] at hpot
  unfold owed at hpot
  refine rounds_at (a := a) (fun b hb => ?_) (by linarith) ?_ ?_
  · refine ⟨rfl, rfl, fun k => ?_, ?_, ?_⟩
    · rw [redeem_request, update_of_ne (by simp [hb])]
    · rw [redeem_payouts, update_of_ne hb]
    · rw [redeem_settlements, update_of_ne hb]
  · have hmul := mul_le_mul_of_nonneg_left hrnd hbias
    linarith
  · unfold credited
    rw [redeem_unclaimed, redeem_payouts, update_self, redeem_del]
    omega

/-! ## Sound pools -/

/-- The pool is in order and can pay all claims. -/
structure Sound (price : Nat → Nat) (p : Pool ι κ) : Prop where
  counted : p.Counted
  bounded : p.horizon < uint64Size
  priced : p.Priced price
  solvent : ∑ a, p.claim price a ≤ unitBias * p.unclaimed

section

variable (h : p.Sound price)

include h

omit [DecidableEq ι] [DecidableEq κ] in
theorem Sound.keep (counted : q.Counted) (bounded : q.horizon < uint64Size) (priced : q.Priced price)
    (rounds : Rounds price p q) : q.Sound price := by
  refine ⟨counted, bounded, priced, ?_⟩
  have hsum : ∑ a, q.potential price a ≤ ∑ a, p.potential price a := sum_le_sum fun a _ => rounds.le a
  have hsolvent := h.solvent
  unfold potential at hsum
  rw [sum_add_distrib, sum_add_distrib, ← mul_sum, ← mul_sum] at hsum
  have hproceeds := rounds.proceeds
  unfold proceeds at hproceeds
  zify at hproceeds
  have hmul := congrArg (fun x : ℤ => unitBias * x) hproceeds
  linarith

omit [DecidableEq ι] [DecidableEq κ] in
/-- A claim can be paid. -/
theorem Sound.le_unclaimed (a : ι) {paid : Nat} (hle : (unitBias : ℤ) * paid ≤ p.claim price a) :
    paid ≤ p.unclaimed := by
  have hone : p.claim price a ≤ ∑ a, p.claim price a :=
    single_le_sum (f := fun a => p.claim price a) (fun b _ => claim_nonneg h.priced b) (mem_univ a)
  have hmul : (unitBias : ℤ) * paid ≤ unitBias * p.unclaimed := (hle.trans hone).trans h.solvent
  have hpos : (0 : ℤ) < unitBias := by exact_mod_cast unitBias_pos
  exact_mod_cast le_of_mul_le_mul_left hmul hpos

omit [DecidableEq ι] [DecidableEq κ] in
theorem Sound.canCompound (hact : p.isActive (p.del a).deltaEpoch) : p.CanCompound a := by
  obtain ⟨h0, -⟩ := isActive_iff.mp hact
  have hacc := h.priced.bucketAcc_eq h.counted hact
  have hle := (h.priced.del a).delta_le h0
  refine ⟨hacc ▸ hle, h.le_unclaimed a ?_⟩
  unfold compoundReward
  rw [hacc]
  exact (earned_le _ hle).trans ((liability_le h.priced a (h.priced.le_acc _)).trans (liability_le_claim h.priced a))

omit [DecidableEq ι] [DecidableEq κ] in
theorem Sound.canSettle (a : ι) : p.CanSettle a := by
  have hle := (h.priced.del a).acc_le
  refine ⟨hle, h.le_unclaimed a ?_⟩
  exact (earned_le _ hle).trans ((liability_le h.priced a (le_refl _)).trans (liability_le_claim h.priced a))

omit [DecidableEq ι] [DecidableEq κ] in
theorem Sound.canRedeem (hw : (p.request (a, i)).hasValue) (hdue : (p.request (a, i)).epoch ≤ p.epoch) :
    p.CanRedeem (a, i) := by
  have hreleased := h.priced.released_eq h.counted hw hdue
  have hle := h.priced.request_le (a, i)
  refine ⟨hreleased ▸ hle, h.le_unclaimed a ?_⟩
  unfold requestReward
  rw [hreleased]
  exact (earned_le _ hle).trans (owed_le_claim h.priced a i)

/-! A pull of a sound pool goes through, and leaves it sound. -/

omit [DecidableEq κ] in
theorem Sound.promote (a : ι) : (p.promote a).Sound price :=
  h.keep (h.counted.promote a) h.bounded (h.priced.promote a) (rounds_promote (h.counted.early h.bounded a))

omit [DecidableEq κ] in
theorem Sound.compound (hact : p.isActive (p.del a).deltaEpoch) : (p.compound a).Sound price :=
  h.keep (h.counted.compound hact) h.bounded (h.priced.compound h.counted hact)
    (rounds_compound h.priced h.counted hact (h.canCompound hact))

omit [DecidableEq κ] in
theorem Sound.settle (hcalm : Calm a p) : (p.settle a).Sound price :=
  h.keep (h.counted.settle a) h.bounded (h.priced.settle hcalm) (rounds_settle h.priced (h.canSettle a))

omit [DecidableEq κ] in
theorem Sound.foldBuckets (horder : p.isActive (p.del a).nextDeltaEpoch → p.isActive (p.del a).deltaEpoch) :
    (p.foldBuckets a).Sound price := by
  unfold Pool.foldBuckets
  split_ifs with hnext hdelta
  · refine (h.compound (horder hnext)).compound ?_
    simpa using hnext
  · exact h.compound hdelta
  · exact h

omit [DecidableEq κ] in
theorem Sound.pullSafe (a : ι) : p.PullSafe a := by
  have hq := h.promote a
  have horder : (p.promote a).isActive ((p.promote a).del a).nextDeltaEpoch →
      (p.promote a).isActive ((p.promote a).del a).deltaEpoch := by
    intro hact
    obtain ⟨h0, hle⟩ := isActive_iff.mp hact
    have hbdd := h.bounded
    have hlt := epoch_lt_horizon p
    have hep : (p.promote a).epoch = p.epoch := rfl
    refine isActive_iff.mpr ?_
    rcases eq_or_ne ((p.promote a).del a).deltaEpoch 0 with hd | hd
    · -- a second bucket without a first one has been promoted
      rcases promoted_promote a p hd with hn | hn
      · exact absurd hn h0
      rw [mod_eq_of_lt (by omega)] at hn
      omega
    · have hconsecutive := (hq.counted.timely a).consecutive hd h0
      exact ⟨hd, by omega⟩
  refine ⟨⟨horder, fun hact => hq.canCompound hact, fun hact => ?_⟩, fun _ => ?_⟩
  · refine (hq.compound (horder hact)).canCompound ?_
    simpa using hact
  · exact (hq.foldBuckets horder).canSettle a

omit [DecidableEq κ] in
theorem Sound.pull (a : ι) : (p.pull a).Sound price ∧ Rounds price p (p.pull a) := by
  refine pull_induct (P := fun q => q.Sound price ∧ Rounds price p q) (h.pullSafe a) ?_ ?_ ?_
  · exact ⟨h.promote a, rounds_promote (h.counted.early h.bounded a)⟩
  · intro q hq hact can
    exact ⟨hq.1.compound hact, hq.2.trans (rounds_compound hq.1.priced hq.1.counted hact can)⟩
  · intro q hq hcalm _ can
    exact ⟨hq.1.settle hcalm, hq.2.trans (rounds_settle hq.1.priced can)⟩

/-! ## The operations -/

omit [DecidableEq κ] in
theorem Sound.takeRewards (a : ι) : (p.takeRewards a).Sound price :=
  h.keep (h.counted.takeRewards a) h.bounded (h.priced.takeRewards a) (rounds_takeRewards price p a)

end

def Op.isReward : Op ι κ → Bool
  | .reward _ _ _ => true
  | _ => false

/-- An operation that is no reward only rounds. -/
theorem Sound.rounds_step (hstep : Step op p p') (hop : op.isReward = false) (h : p.Sound price) :
    Rounds price p p' := by
  cases hstep with
  | idle => exact .refl _ _
  | pull safe => exact (h.pull _).2
  | @delegate _ a s hs safe hr =>
    obtain ⟨hq, hrds⟩ := h.pull a
    refine hrds.trans (rounds_stage hq.priced hq.counted hq.bounded ?_ s)
    rw [epoch_pull, inDelay_pull]
    exact (h.counted.timely.pull safe).2
  | @undelegate _ a i amount h0 hw safe hx hl =>
    obtain ⟨hq, hrds⟩ := h.pull a
    refine hrds.trans (rounds_lower hq.priced hq.bounded ?_ hx)
    rwa [request_pull]
  | @compoundNothing _ a safe h0 | @claim _ a safe => exact (h.pull a).2.trans (rounds_takeRewards price _ a)
  | @compound _ q a r safe hr hq hs safe' hb =>
    obtain ⟨hpull, hrds⟩ := h.pull a
    have hsnd := hpull.takeRewards a
    have hrds' := hrds.trans (rounds_takeRewards price _ a)
    rw [hq] at hsnd hrds'
    obtain ⟨hpull', hrds''⟩ := hsnd.pull a
    refine (hrds'.trans hrds'').trans (rounds_stage hpull'.priced hpull'.counted hpull'.bounded ?_ r)
    rw [epoch_pull, inDelay_pull]
    exact (hsnd.counted.timely.pull safe').2
  | @withdraw _ a i hw ready can =>
    have hlt := epoch_lt_of_ready h.bounded (h.counted.request_le _) ready
    exact rounds_redeem h.priced h.counted hw hlt.le can
  | reward hv => cases hop
  | changeEpoch | takeSnapshot => exact .of_same rfl rfl rfl rfl rfl rfl

omit [Fintype ι] [Fintype κ] in
/-- Only rewards move the accumulator. -/
theorem acc_step (hstep : Step op p p') (hop : op.isReward = false) : p'.acc = p.acc := by
  cases hstep with
  | reward hv => cases hop
  | compound safe hr hq hs safe' hb => simp [← hq]
  | idle => rfl
  | _ => simp

/-- What earns a reward of this epoch: the active stake, and what has not matured. -/
def earning (p : Pool ι κ) (a : ι) : Nat := (p.del a).activeAt p.epoch + ∑ i, (p.request (a, i)).unmaturedAt p.epoch

omit [DecidableEq ι] [DecidableEq κ] in
theorem sum_earning (p : Pool ι κ) : ∑ a, p.earning a = p.earningStake p.epoch := by
  unfold earning earningStake
  rw [sum_add_distrib, Fintype.sum_prod_type]

omit [DecidableEq κ] [Fintype ι] in
/-- A reward raises the claim of everybody by the share of the stake that earns. -/
theorem claim_reward (h : p.Priced price) (auth : ι) (commission r : Nat) (b : ι) :
    (p.reward auth commission r).claim (nextPrice price p (p.reward auth commission r)) b =
      p.claim price b + perToken r p.view * p.earning b := by
  set t := perToken r p.view
  set price' := nextPrice price p (p.reward auth commission r)
  have hpr (f : Nat) : (price' f : ℤ) = price f + if f ≤ p.epoch then 0 else t := by
    show ((nextPrice price p (p.reward auth commission r) f : Nat) : ℤ) = _
    unfold nextPrice
    split_ifs with hf
    · simp
    rw [h.above f (not_le.mp hf), reward_acc]
    rfl
  have hliab (d : Delegator) : liability price' (p.reward auth commission r).acc d =
      liability price p.acc d + t * d.activeAt p.epoch := by
    unfold liability Delegator.activeAt
    rw [hpr, hpr, reward_acc]
    push_cast
    split_ifs <;> ring
  have howed (x : WithdrawalRequest) : owed price' x = owed price x + t * x.unmaturedAt p.epoch := by
    unfold owed WithdrawalRequest.unmaturedAt
    rw [hpr]
    split_ifs <;> first | omega | (push_cast; ring)
  have hdel : liability price' (p.reward auth commission r).acc ((p.reward auth commission r).del b) =
      liability price' (p.reward auth commission r).acc (p.del b) := by
    rw [reward_del]
    rcases eq_or_ne b auth with rfl | hb
    · rw [update_self]
      rfl
    · rw [update_of_ne hb]
  unfold claim earning
  rw [hdel, hliab, reward_request]
  simp only [howed, sum_add_distrib, ← mul_sum]
  push_cast
  ring

theorem perToken_le {r activeStake : Nat} : activeStake * perToken r activeStake ≤ unitBias * r := by
  unfold perToken
  exact mul_div_le _ _

omit [DecidableEq κ] in
/-- A pool can pay what a reward adds to the claims, since the reward is divided by the stake that
earns. -/
theorem Sound.reward (h : p.Sound price) (hearning : p.Earning) (hv : p.view ≠ 0) (auth : ι)
    (commission r : Nat) (hctd : (p.reward auth commission r).Counted) :
    (p.reward auth commission r).Sound (nextPrice price p (p.reward auth commission r)) := by
  refine ⟨hctd, h.bounded, h.priced.reward hv auth commission r, ?_⟩
  have hadded : p.earningStake p.epoch * perToken r p.view ≤ unitBias * r := by
    rw [← hearning.view_eq hv]
    exact perToken_le
  have hsolvent := h.solvent
  simp only [claim_reward h.priced, sum_add_distrib, ← mul_sum]
  rw [← sum_earning] at hadded
  zify at hadded
  rw [reward_unclaimed]
  push_cast
  linarith

/-- Every lawful operation leaves a sound pool sound. -/
theorem Sound.step (hstep : Step op p p') (hlawful : p.Lawful op) (hearning : p.Earning) (hctd : p'.Counted)
    (hh : p'.horizon < uint64Size) (h : p.Sound price) : p'.Sound (nextPrice price p p') := by
  cases hop : op.isReward with
  | true =>
    cases hstep with
    | reward hv => exact h.reward hearning hv _ _ _ hctd
    | _ => cases hop
  | false =>
    have hpriced := h.priced.step hstep hlawful h.counted hh
    rw [h.priced.nextPrice_eq (acc_step hstep hop)] at hpriced ⊢
    exact h.keep hctd hh hpriced (h.rounds_step hstep hop)

end Pool

end MonadExecution.Staking
