import MonadExecution.Staking.Registry

/-!
# The contract refines the pools and the registry — methods

One specification for each part of a method, then for each method. A specification is a weakest
precondition: what `Acted` says where the method returns, and which failures are possible.
-/

namespace MonadExecution.Staking

open Program Function World Limits Registry Acted

section Methods

variable (rev : MonadRevision) (crypto : Crypto) (w : World) (v : ValId) (a : Address)

/-! ## Delegating -/

@[simp]
theorem getActivationEpoch_modifyDelegator (f : Delegator → Delegator) :
    (w.modifyDelegator v a f).getActivationEpoch = w.getActivationEpoch := rfl

theorem activation_pool : (w.pool v).activation = w.getActivationEpoch := rfl

@[simp]
theorem pool_incrementAccumulatorRefcount : (w.incrementAccumulatorRefcount v).pool v =
    { w.pool v with
      cell := update (fun f => w.accumulatedRewardPerToken f v) w.getActivationEpoch
        ((w.accumulatedRewardPerToken w.getActivationEpoch v).acquire
          (w.valExecution v).accumulatedRewardPerToken) } := by
  unfold World.incrementAccumulatorRefcount
  rw [pool_setAccumulator]
  rfl

theorem stageDelegation_spec (s : Nat) : wp (stageDelegation v s a)
    (fun _ w' => Acted v w { (w.pool v).stage a s with stake := (w.pool v).stake } w.registry w.balance True w')
    (Fault True True True w) w := by
  unfold stageDelegation
  simp only [wp_bind, wp_load, wp_ite, wp_checkedAdd, wp_update, wp_onlyIf, incrementAccumulatorRefcount]
  refine ⟨fun hd => ⟨fun _ => ⟨fun h0 => ?_, fun h0 => ?_⟩, fun _ => .overflow fun _ => rfl⟩,
    fun hd => ⟨fun _ => ⟨fun h0 => ?_, fun h0 => ?_⟩, fun _ => .overflow fun _ => rfl⟩⟩
  all_goals
    constructor
    · simp [Pool.stage, Delegator.staged, Delegator.stagedEpoch, hd, h0, activation_pool]
    · intro u hu
      simp [World.incrementAccumulatorRefcount, pool_setAccumulator_of_ne _ hu, pool_modifyDelegator_of_ne _ _ hu]
    · simp [World.incrementAccumulatorRefcount]
    · rfl
    · exact fun _ => rfl

theorem wp_addToValset {Q : Bool → World → Prop} {E : Error → World → Prop} : wp (addToValset v) Q E w ↔
    Q (!w.registry.hasBit v) { w with
      valBitsetBucket := update w.valBitsetBucket (valBucket v)
        (w.valBitsetBucket (valBucket v) ||| valMask v) } := by
  have h : (!w.registry.hasBit v) = (w.valBitsetBucket (valBucket v) &&& valMask v == 0#256) := by
    unfold hasBit
    rw [bne, Bool.not_not]
    rfl
  rw [h]
  unfold addToValset
  simp

theorem registry_clearFlag (flag : BitVec 64) : (w.modifyVal v (clearFlag flag)).registry =
    w.registry.setFlags v (w.registry.flags v &&& ~~~ flag) :=
  registry_modifyVal_flags w v (· &&& ~~~ flag)

theorem pool_clearFlag (flag : BitVec 64) (u : ValId) : (w.modifyVal v (clearFlag flag)).pool u = w.pool u :=
  pool_modifyVal_flags w v u (· &&& ~~~ flag)

/-- The flag updates of a call that raises the stake. -/
theorem acted_raiseFlags (reached restored : Prop) [Decidable reached] [Decidable restored] : Acted v w (w.pool v)
    (w.registry.setFlags v (raisedFlags (w.registry.flags v) reached restored))
    w.balance True
    (if restored then (if reached then w.modifyVal v (clearFlag validatorFlagsStakeTooLow)
        else w).modifyVal v (clearFlag validatorFlagWithdrawn)
      else if reached then w.modifyVal v (clearFlag validatorFlagsStakeTooLow) else w) := by
  unfold raisedFlags
  by_cases h1 : reached <;> by_cases h2 : restored <;>
    simp only [h1, h2, if_true, if_false, decide_true, decide_false] <;> constructor
  all_goals simp [registry_clearFlag, pool_clearFlag]

theorem enlistCandidate_spec : wp (enlistCandidate v) (fun _ w' => Acted v w (w.pool v)
      (if w.registry.flags v = validatorFlagsOk then w.registry.enlist v else w.registry)
      w.balance True w')
    (fun _ _ => False) w := by
  have hflags : (w.valExecution v).flags = w.registry.flags v := rfl
  unfold enlistCandidate
  simp only [wp_bind, wp_load, wp_onlyIf, wp_addToValset, wp_update, hflags]
  refine ⟨fun hok => ⟨fun hbit => ?_, fun hbit => ?_⟩, fun hok => ?_⟩
  · refine ⟨rfl, fun _ _ => rfl, ?_, rfl, fun _ => rfl⟩
    have hno : w.registry.hasBit v = false := by simpa using hbit
    rw [if_pos hok, enlist, hno]
    rfl
  · refine ⟨rfl, fun _ _ => rfl, ?_, rfl, fun _ => rfl⟩
    have hyes : w.registry.hasBit v = true := by simpa using hbit
    rw [if_pos hok, enlist, hyes]
    rfl
  · refine ⟨rfl, fun _ _ => rfl, ?_, rfl, fun _ => rfl⟩
    rw [if_neg hok]

theorem emitIfStatusChanged_spec (old : BitVec 64) : wp (emitIfStatusChanged v old)
    (fun _ w' => Acted v w (w.pool v) w.registry w.balance True w') (fun _ _ => False) w := by
  unfold emitIfStatusChanged
  simp only [wp_bind, wp_load, wp_onlyIf, wp_update]
  exact ⟨fun _ => ⟨rfl, fun _ _ => rfl, rfl, rfl, fun _ => rfl⟩,
    fun _ => ⟨rfl, fun _ _ => rfl, rfl, rfl, fun _ => rfl⟩⟩

theorem raiseValidatorStake_spec (s : Nat) : wp (raiseValidatorStake rev v s a)
    (fun _ w' => (w.pool v).stake + s < uint256Size ∧ Acted v w { w.pool v with stake := (w.pool v).stake + s }
        (w.registry.raise v (activeValidatorStake rev ≤ (w.pool v).stake + s) (w.registry.authAddress v = a ∧
            minAuthAddressStake ≤ ((w.pool v).del a).getNextEpochStake))
        w.balance True w')
    (Fault True True True w) w := by
  unfold raiseValidatorStake
  simp only [wp_bind, wp_load, wp_checkedAdd, wp_update, wp_onlyIf_update]
  refine ⟨fun hb => ?_, fun _ => .overflow fun _ => rfl⟩
  have h1 : Acted v w { w.pool v with stake := (w.pool v).stake + s } w.registry w.balance True
      (w.modifyVal v fun val => { val with stake := (w.valExecution v).stake + s }) :=
    ⟨by simp [pool_modifyVal], fun u hu => pool_modifyVal_of_ne _ hu _, by simp, rfl, fun _ => rfl⟩
  generalize hw1 : (w.modifyVal v fun val => { val with stake := (w.valExecution v).stake + s }) = w1 at h1 ⊢
  have hdel (c : Prop) [Decidable c] :
      (if c then w1.modifyVal v (clearFlag validatorFlagsStakeTooLow) else w1).delegator v a = (w.pool v).del a := by
    subst hw1
    split_ifs <;> rfl
  have h2 := acted_raiseFlags w1 v (activeValidatorStake rev ≤ (w.valExecution v).stake + s)
    ((w.valExecution v).authAddress = a ∧ minAuthAddressStake ≤ ((w.pool v).del a).getNextEpochStake)
  rw [hdel]
  refine wp_mono (emitIfStatusChanged_spec _ v _) ?_ (fun _ _ => False.elim)
  intro _ w3 h3
  refine wp_mono (enlistCandidate_spec w3 v) ?_ (fun _ _ => False.elim)
  intro _ w4 h4
  rw [h1.pool, h1.registry, h1.balance] at h2
  rw [h2.pool, h2.registry, h2.balance] at h3
  rw [h3.pool, h3.registry, h3.balance] at h4
  exact ⟨hb, ((h1.trans h2 id).trans h3 id).trans h4 id⟩

/-! The delegation lists are kept apart from all this. -/

section Lists

variable {Key Ptr : Type} [DecidableEq Ptr] (T : LinkedListTrait Key Ptr) (key : Key) (ptr : Ptr)

theorem linkedListInsert_spec : wp (linkedListInsert T key ptr) (fun _ w' => (ptr ≠ T.empty ∧ ptr ≠ T.sentinel) ∧
      Acted v w (w.pool v) w.registry w.balance True w')
    (Fault True True True w) w := by
  unfold linkedListInsert
  simp only [wp_bind, wp_require, wp_load, wp_ite, wp_pure, wp_onlyIf, wp_update]
  refine ⟨fun hp => ⟨fun _ => ⟨hp, ?_⟩, fun _ => ⟨fun _ => ⟨hp, ?_⟩, fun _ => ⟨hp, ?_⟩⟩⟩, fun _ => ?_⟩
  · exact .refl w v
  · exact (((refl w v).storeNode ..).storeNode ..).storeNode ..
  · exact ((refl w v).storeNode ..).storeNode ..
  · exact .harmless rfl rfl

theorem linkedListRemove_spec : wp (linkedListRemove T key ptr)
    (fun _ w' => Acted v w (w.pool v) w.registry w.balance True w') (Fault True True True w) w := by
  unfold linkedListRemove
  simp only [wp_bind, wp_require, wp_load, wp_ite, wp_pure, wp_onlyIf, wp_update]
  refine ⟨fun _ => ⟨fun _ => ?_, fun _ => ⟨fun _ => ?_, fun _ => ?_⟩⟩, fun _ => ?_⟩
  · exact .refl w v
  · exact (((refl w v).storeNode ..).storeNode ..).storeNode ..
  · exact ((refl w v).storeNode ..).storeNode ..
  · exact .harmless rfl rfl

end Lists

theorem exist_iff : (w.valExecution v).exist = true ↔ w.registry.authAddress v ≠ 0 := by
  simp [ValExecution.exist, World.registry]

/-- The registry after a delegation of `s` by `a`. -/
def Registry.delegated (v : ValId) (a : Address) (p : Pool Address WithdrawalId) (r : Registry) : Registry :=
  r.raise v (Limits.activeValidatorStake rev ≤ p.stake)
    (r.authAddress v = a ∧ Limits.minAuthAddressStake ≤ (p.del a).getNextEpochStake)

/-- A delegation stages the stake in the pool of `v`, after the pull. -/
theorem delegate_spec (s : Nat) : wp (delegate rev v s a)
    (fun _ w' => w.registry.authAddress v ≠ 0 ∧ (v ≠ 0 ∧ v ≠ BitVec.allOnes 64) ∧
      Pool.Step (.delegate a s) (w.pool v) (((w.pool v).pull a).stage a s) ∧
      Acted v w (((w.pool v).pull a).stage a s)
        (w.registry.delegated rev v a (((w.pool v).pull a).stage a s)) w.balance
        ((w.pool v).Referenced a) w')
    (Fault ((w.pool v).PullSafe a) True ((w.pool v).Referenced a) w) w := by
  unfold delegate
  simp only [wp_bind, wp_load, wp_require]
  refine ⟨fun hexi => ⟨fun hdust => ?_, fun _ => ?_⟩, fun _ => ?_⟩
  · refine wp_mono (pullDelegatorUpToDate_spec w v a) ?_ fun _ _ => id
    rintro - w1 ⟨safe, t1⟩
    have h1 := t1.acted
    -- from here on only overflows and bad list entries can stop the call
    refine wp_mono (stageDelegation_spec w1 v a s) ?_ fun _ _ => h1.fault
    intro _ w2 h2
    rw [h1.pool, h1.registry, h1.balance] at h2
    have h12 := h1.seq h2
    refine wp_mono (raiseValidatorStake_spec rev w2 v a s) ?_ fun _ _ => h12.fault
    rintro - w3 ⟨hb, h3⟩
    rw [h2.pool] at hb
    rw [h2.pool, h2.registry, h2.balance] at h3
    have h13 := h12.seq h3
    refine wp_mono (linkedListInsert_spec w3 v delegatorList v a) ?_ fun _ _ => h13.fault
    rintro - w4 ⟨-, h4⟩
    rw [h3.pool, h3.registry, h3.balance] at h4
    have h14 := h13.seq h4
    refine wp_mono (linkedListInsert_spec w4 v validatorList a v) ?_ fun _ _ => h14.fault
    rintro - w5 ⟨hv, h5⟩
    rw [h4.pool, h4.registry, h4.balance] at h5
    refine ⟨?_, hv, .delegate hdust safe hb, ?_⟩
    · exact (exist_iff w v).mp hexi
    · exact h14.seq h5
  · exact .harmless rfl rfl
  · exact .harmless rfl rfl

/-! ## Undelegating -/

theorem lowerStake_spec (amount : Nat) : wp (lowerStake v a amount)
    (fun out w' => out = (w.pool v).leaving a amount ∧ amount ≤ ((w.pool v).del a).stake ∧ out ≤ (w.pool v).stake ∧
      Acted v w ((w.pool v).takeOut a out) w.registry w.balance True w')
    (Fault (((w.pool v).del a).stake ≤ (w.pool v).stake) True True w) w := by
  have hacted (x y : Nat) : Acted v w
      { w.pool v with
        stake := x
        del := update (w.pool v).del a { (w.pool v).del a with stake := y } }
      w.registry w.balance True
      ((w.modifyVal v fun val => { val with stake := x }).modifyDelegator v a fun d => { d with stake := y }) :=
    ⟨by simp [pool_modifyVal], fun u hu => by
        rw [pool_modifyDelegator_of_ne _ _ hu, pool_modifyVal_of_ne _ hu], by simp, rfl, fun _ => rfl⟩
  unfold lowerStake
  simp only [wp_bind, wp_load, wp_require, wp_checkedSub, wp_checkedAdd, wp_ite, wp_update, wp_pure]
  refine ⟨fun hx => ⟨fun hv => ⟨fun _ => ⟨fun hdust => ⟨fun _ => ⟨fun hv' => ?_, fun hv' => ?_⟩,
    fun _ => ?_⟩, fun hdust => ?_⟩, fun hlt => ?_⟩, fun hlt => ?_⟩, fun _ => ?_⟩
  · -- what remains is dust and goes with the rest
    have hall : amount + ((w.delegator v a).stake - amount) = (w.delegator v a).stake := by omega
    rw [hall]
    refine ⟨(if_pos hdust).symm, hx, ?_, ?_⟩
    · simp only [pool_stake]
      omega
    have hval : (w.valExecution v).stake - amount - ((w.delegator v a).stake - amount) =
        (w.pool v).stake - (w.delegator v a).stake := by
      simp only [pool_stake]
      omega
    have hdel : ((w.pool v).del a).stake - (w.delegator v a).stake = 0 := by simp
    rw [Pool.takeOut, hdel, hval]
    exact hacted _ 0
  · refine .unsound (fun h => ?_) (by decide) fun _ => rfl
    simp only [pool_stake, pool_del] at h
    omega
  · exact .overflow fun _ => rfl
  · exact ⟨(if_neg hdust).symm, hx, hv, hacted _ _⟩
  · omega
  · refine .unsound (fun h => ?_) (by decide) fun _ => rfl
    simp only [pool_stake, pool_del] at h
    omega
  · exact .harmless rfl rfl

theorem registry_setFlag (flag : BitVec 64) : (w.modifyVal v (setFlag flag)).registry =
    w.registry.setFlags v (w.registry.flags v ||| flag) :=
  registry_modifyVal_flags w v (· ||| flag)

theorem pool_setFlag (flag : BitVec 64) (u : ValId) : (w.modifyVal v (setFlag flag)).pool u = w.pool u :=
  pool_modifyVal_flags w v u (· ||| flag)

theorem acted_lowerFlags (withdrawn tooLow : Prop) [Decidable withdrawn] [Decidable tooLow] :
    Acted v w (w.pool v) (w.registry.lower v withdrawn tooLow) w.balance True
      (if tooLow then (if withdrawn then w.modifyVal v (setFlag validatorFlagWithdrawn)
          else w).modifyVal v (setFlag validatorFlagsStakeTooLow)
        else if withdrawn then w.modifyVal v (setFlag validatorFlagWithdrawn) else w) := by
  unfold lower loweredFlags
  by_cases h1 : withdrawn <;> by_cases h2 : tooLow <;>
    simp only [h1, h2, if_true, if_false, decide_true, decide_false] <;> constructor
  all_goals simp [registry_setFlag, pool_setFlag]

theorem flagLoweredStake_spec : wp (flagLoweredStake rev v a) (fun _ w' => Acted v w (w.pool v)
      (w.registry.lower v (a = w.registry.authAddress v ∧
          ((w.pool v).del a).getNextEpochStake < minAuthAddressStake)
        ((w.pool v).stake < activeValidatorStake rev))
      w.balance True w')
    (fun _ _ => False) w := by
  unfold flagLoweredStake
  simp only [wp_bind, wp_load, wp_onlyIf_update]
  have h1 := acted_lowerFlags w v (a = (w.valExecution v).authAddress ∧
    (w.delegator v a).getNextEpochStake < minAuthAddressStake)
    ((w.valExecution v).stake < activeValidatorStake rev)
  refine wp_mono (emitIfStatusChanged_spec _ v _) ?_ (fun _ _ => False.elim)
  intro _ w2 h2
  rw [h1.pool, h1.registry, h1.balance] at h2
  exact h1.trans h2 id

theorem openWithdrawalRequest_spec (i : WithdrawalId) (out : Nat) : wp (openWithdrawalRequest v a i out)
    (fun _ w' => Acted v w ((w.pool v).openRequest a i out) w.registry w.balance True w')
    (fun _ _ => False) w := by
  unfold openWithdrawalRequest incrementAccumulatorRefcount
  refine ⟨?_, fun u hu => ?_, rfl, rfl, fun _ => rfl⟩
  · rw [pool_incrementAccumulatorRefcount, pool_setWithdrawalRequest]
    rfl
  · rw [World.incrementAccumulatorRefcount, pool_setAccumulator_of_ne _ hu,
      pool_setWithdrawalRequest_of_ne _ _ hu, pool_emitLog]

theorem releaseDelegator_spec : wp (releaseDelegator v a)
    (fun _ w' => Acted v w ((w.pool v).forgetAcc a) w.registry w.balance True w')
    (Fault True True True w) w := by
  unfold releaseDelegator
  rw [wp_bind, wp_load, wp_bind, wp_onlyIf_update]
  have h1 : Acted v w ((w.pool v).forgetAcc a) w.registry w.balance True (if (w.delegator v a).stake = 0 then
        w.modifyDelegator v a fun d => { d with accumulatedRewardPerToken := 0 } else w) := by
    by_cases h0 : (w.delegator v a).stake = 0
    · rw [if_pos h0]
      exact ⟨by simp [Pool.forgetAcc, h0], fun u hu => pool_modifyDelegator_of_ne _ _ hu _, rfl, rfl, fun _ => rfl⟩
    · rw [if_neg h0]
      exact ⟨by simp [Pool.forgetAcc, h0]; rfl, fun _ _ => rfl, rfl, rfl, fun _ => rfl⟩
  simp only [wp_onlyIf, wp_bind]
  refine ⟨fun _ => ?_, fun _ => h1⟩
  refine wp_mono (linkedListRemove_spec _ v delegatorList v a) ?_ fun _ _ => h1.fault
  intro _ w2 h2
  rw [h1.pool, h1.registry, h1.balance] at h2
  have h12 := h1.trans h2 id
  refine wp_mono (linkedListRemove_spec w2 v validatorList a v) ?_ fun _ _ => h12.fault
  intro _ w3 h3
  rw [h2.pool, h2.registry, h2.balance] at h3
  exact h12.trans h3 id

/-- The registry after an undelegation by `a`. -/
def Registry.undelegated (v : ValId) (a : Address) (p : Pool Address WithdrawalId) (r : Registry) : Registry :=
  r.lower v (a = r.authAddress v ∧ (p.del a).getNextEpochStake < Limits.minAuthAddressStake)
    (p.stake < Limits.activeValidatorStake rev)

/-- An undelegation turns active stake of the pool of `v` into a withdrawal request. -/
theorem undelegate_spec (amount : Nat) (h0 : amount ≠ 0) (i : WithdrawalId) : wp (undelegate rev v amount i a)
    (fun _ w' => w.registry.authAddress v ≠ 0 ∧
      Pool.Step (.undelegate a i amount) (w.pool v) (((w.pool v).pull a).lower a i amount) ∧
      Acted v w (((w.pool v).pull a).lower a i amount)
        (w.registry.undelegated rev v a (((w.pool v).pull a).lower a i amount)) w.balance
        ((w.pool v).Referenced a) w')
    (Fault ((w.pool v).PullSafe a ∧ (((w.pool v).pull a).del a).stake ≤ ((w.pool v).pull a).stake)
      True ((w.pool v).Referenced a) w) w := by
  unfold undelegate
  simp only [wp_bind, wp_load, wp_require]
  refine ⟨fun hexi => ⟨fun hfree => ?_, fun _ => ?_⟩, fun _ => ?_⟩
  · refine wp_mono (pullDelegatorUpToDate_spec w v a) ?_ fun _ _ fault =>
      ⟨fun h => fault.sound h.1, fault.covered, fault.quiet⟩
    rintro - w1 ⟨safe, t1⟩
    have h1 := t1.acted
    refine wp_mono (lowerStake_spec w1 v a amount) ?_ ?_
    · rintro out w2 ⟨hout, hx, hv, h2⟩
      rw [h1.pool] at hout hx hv
      rw [h1.pool, h1.registry, h1.balance] at h2
      refine wp_mono (flagLoweredStake_spec rev w2 v a) ?_ fun _ _ => False.elim
      intro _ w3 h3
      rw [h2.pool, h2.registry, h2.balance] at h3
      refine wp_mono (openWithdrawalRequest_spec w3 v a i out) ?_ fun _ _ => False.elim
      intro _ w4 h4
      rw [h3.pool, h3.registry, h3.balance] at h4
      have h14 := ((h1.seq h2).seq h3).seq h4
      refine wp_mono (releaseDelegator_spec w4 v a) ?_ fun _ _ => h14.fault
      intro _ w5 h5
      rw [h4.pool, h4.registry, h4.balance] at h5
      have h15 := h14.seq h5
      refine ⟨(exist_iff w v).mp hexi, .undelegate h0 (by simpa using hfree) safe hx ?_, ?_⟩
      · rw [← hout]
        exact hv
      · subst hout
        rw [undelegated, Pool.getNextEpochStake_lower, Pool.lower_eq]
        exact h15
    · intro e w2 fault
      rw [h1.pool] at fault
      exact ⟨fun h => fault.sound h.2, fault.covered, fun ref => (fault.quiet trivial).trans (h1.quiet ref)⟩
  · exact .harmless rfl rfl
  · exact .harmless rfl rfl

/-! ## Payments -/

/-- Balances after a payment by the contract. -/
def paidOut (recipient : Address) (amount : Nat) (b : Address → Nat) : Address → Nat :=
  let b' := update b recipient (b recipient + amount)
  update b' stakingCa (b' stakingCa - amount)

theorem sendTokens_spec (x : Nat) : wp (sendTokens a x)
    (fun _ w' => Acted v w (w.pool v) w.registry (paidOut a x w.balance) True w' ∧
      w'.valExecution = w.valExecution ∧ w'.delegator = w.delegator)
    (Fault True (x ≤ w.balance stakingCa) True w) w := by
  unfold sendTokens addToBalance subtractFromBalance
  simp only [wp_bind, wp_load, wp_require, wp_update]
  refine ⟨fun _ => ⟨fun _ => ?_, fun hlt => ?_⟩, fun _ => ?_⟩
  · exact ⟨⟨rfl, fun _ _ => rfl, rfl, rfl, fun _ => rfl⟩, rfl, rfl⟩
  · refine ⟨fun _ => rfl, fun hx => absurd ?_ hlt, fun _ => rfl⟩
    by_cases ha : stakingCa = a
    · subst ha
      simp
    · simpa [update_of_ne ha] using hx
  · exact .harmless rfl rfl

/-- What a withdrawal may blame on the contract: a request that is due cannot be paid. -/
def Pool.WithdrawSafe (a : Address) (i : WithdrawalId) (balance : Nat) (p : Pool Address WithdrawalId) : Prop :=
  (p.request (a, i)).hasValue → p.isActive (((p.request (a, i)).epoch + Limits.withdrawalDelay) % uint64Size) →
    p.CanRedeem (a, i) ∧ (p.request (a, i)).amount + p.requestReward (a, i) ≤ balance

/-- The state in which a withdrawal is paid: the request is cleared, its reference released and its
reward taken from the pool. -/
def World.closeRequest (i : WithdrawalId) (w : World) : World :=
  (((w.setWithdrawalRequest v a i {}).releaseAccumulator (w.withdrawalRequest v a i).epoch
    v).noteSettlement v a).modifyVal v fun val =>
      { val with
        unclaimedRewards := (w.valExecution v).unclaimedRewards - (w.pool v).requestReward (a, i) }

theorem acted_closeRequest (i : WithdrawalId) :
    Acted v w { (w.pool v).redeem a i with payouts := (w.pool v).payouts } w.registry w.balance
      (((w.pool v).cell ((w.pool v).request (a, i)).epoch).refcount ≠ 0)
      (w.closeRequest v a i) := by
  have houtside : (w.closeRequest v a i).outside v = w.outside v := by simp [World.closeRequest]
  refine Touched.acted ⟨?_, houtside, fun hc => ?_⟩
  · simp [World.closeRequest, pool_modifyVal, Pool.redeem]
  · exact diagnostics_releaseAccumulator (w.setWithdrawalRequest v a i {}) v _ hc

theorem withdraw_spec (i : WithdrawalId) : wp (withdraw v i a)
    (fun _ w' => Pool.Step (.withdraw a i) (w.pool v) ((w.pool v).redeem a i) ∧
      Acted v w ((w.pool v).redeem a i) w.registry
        (paidOut a (((w.pool v).request (a, i)).amount + (w.pool v).requestReward (a, i)) w.balance)
        (((w.pool v).cell ((w.pool v).request (a, i)).epoch).refcount ≠ 0) w')
    (Fault ((w.pool v).WithdrawSafe a i (w.balance stakingCa)) True (((w.pool v).request (a, i)).hasValue →
        ((w.pool v).cell ((w.pool v).request (a, i)).epoch).refcount ≠ 0) w) w := by
  have hqt (hw : ((w.pool v).request (a, i)).hasValue) (hc : ((w.pool v).request (a, i)).hasValue →
        ((w.pool v).cell ((w.pool v).request (a, i)).epoch).refcount ≠ 0) :
      (w.closeRequest v a i).diagnostics = w.diagnostics :=
    (acted_closeRequest w v a i).quiet (hc hw)
  have hreward : earned (w.withdrawalRequest v a i).amount
      (w.accumulatedRewardPerToken (w.withdrawalRequest v a i).epoch v).released
      (w.withdrawalRequest v a i).acc = (w.pool v).requestReward (a, i) := rfl
  unfold withdraw rewardInvariant
  simp only [wp_bind, wp_load, wp_require, wp_update, wp_decrementAccumulatorRefcount,
    wp_calculateRewards, wp_checkedSub, wp_checkedAdd, noteSettlement_valExecution,
    kept_releaseAccumulator, setWithdrawalRequest_valExecution,
    setWithdrawalRequest_accumulatedRewardPerToken, modifyVal_balance,
    noteSettlement_balance, setWithdrawalRequest_balance,
    hreward]
  refine ⟨fun hw => ⟨fun ready => ⟨fun hle hmul => ⟨fun hs => ⟨fun _ => ⟨fun hadd =>
    ⟨fun hbal => ?_, fun hbal => ?_⟩, fun hadd => ?_⟩, fun hs' => ?_⟩, fun hs => ?_⟩, fun hlt => ?_,
    fun _ _ => ?_⟩, fun _ => ?_⟩, fun _ => ?_⟩
  · have h1 := acted_closeRequest w v a i
    have hfunded : (w.withdrawalRequest v a i).amount + (w.pool v).requestReward (a, i) ≤
        (w.closeRequest v a i).balance stakingCa := by rwa [h1.balance]
    refine wp_mono (sendTokens_spec (w.closeRequest v a i) v a _) ?_ fun _ _ fault =>
      ⟨fun _ => fault.sound trivial, fun _ => fault.covered hfunded,
        fun hc => (fault.quiet trivial).trans (hqt hw hc)⟩
    rintro - w2 ⟨h2, -, -⟩
    rw [h1.pool, h1.registry, h1.balance] at h2
    have h3 := acted_notePayout a w2 v ((w.pool v).requestReward (a, i))
    rw [h2.pool, h2.registry, h2.balance] at h3
    exact ⟨.withdraw hw ready ⟨hle, hs⟩, ((h1.seq h2).seq h3).emitLog _⟩
  · refine .unsound (fun safe => hbal ?_) (by decide) (hqt hw)
    simpa using (safe hw ready).2
  · exact .overflow (hqt hw)
  · omega
  · refine .unsound (fun safe => hs ?_) (by decide) (hqt hw)
    simpa using (safe hw ready).1.solvent
  · refine .unsound (fun safe => ?_) (by decide) (hqt hw)
    exact absurd (safe hw ready).1.acc_le (not_le.mpr hlt)
  · exact .overflow (hqt hw)
  · exact .harmless rfl rfl
  · exact .harmless rfl rfl

theorem acted_takeRewards : Acted v w ((w.pool v).takeRewards a) w.registry w.balance True
    ((w.modifyDelegator v a fun d => { d with rewards := 0 }).notePayout v a (w.delegator v a).rewards) := by
  refine Touched.acted ⟨?_, by simp, fun _ => rfl⟩
  simp [Pool.takeRewards]

theorem paidOut_zero (b : Address → Nat) : paidOut a 0 b = b := by simp [paidOut]

theorem claimRewards_spec : wp (claimRewards v a)
    (fun _ w' => Pool.Step (.claim a) (w.pool v) (((w.pool v).pull a).takeRewards a) ∧
      Acted v w (((w.pool v).pull a).takeRewards a) w.registry
        (paidOut a (((w.pool v).pull a).del a).rewards w.balance)
        ((w.pool v).Referenced a) w')
    (Fault ((w.pool v).PullSafe a)
      ((w.pool v).PullSafe a → (((w.pool v).pull a).del a).rewards ≤ w.balance stakingCa)
      ((w.pool v).Referenced a) w) w := by
  unfold claimRewards
  rw [wp_bind]
  refine wp_mono (pullDelegatorUpToDate_spec w v a) ?_ fun _ _ fault =>
    ⟨fault.sound, fun _ => fault.covered trivial, fault.quiet⟩
  rintro - w1 ⟨safe, t1⟩
  have h1 := t1.acted
  have hrew : (w1.delegator v a).rewards = (((w.pool v).pull a).del a).rewards := by
    rw [← h1.pool]
    rfl
  simp only [wp_bind, wp_load, wp_onlyIf, hrew]
  refine ⟨fun h0 => ?_, fun h0 => ⟨.claim safe, ?_⟩⟩
  · refine wp_mono (sendTokens_spec w1 v a _) ?_ fun _ _ fault =>
      ⟨fun _ => fault.sound trivial, fun hb => fault.covered (by rw [h1.balance]; exact hb safe),
        fun ref => (fault.quiet trivial).trans (h1.quiet ref)⟩
    rintro - w2 ⟨h2, -, hdel⟩
    rw [h1.pool, h1.registry, h1.balance] at h2
    have h3 := acted_takeRewards w2 v a
    rw [hdel, hrew, h2.pool, h2.registry, h2.balance] at h3
    exact ⟨.claim safe, ((h1.seq h2).seq h3).emitLog _⟩
  · -- without rewards nothing is paid and nothing changes
    have hzero : (((w.pool v).pull a).del a).rewards = 0 := by simpa using h0
    have hsame : ((w.pool v).pull a).takeRewards a = (w.pool v).pull a := by
      unfold Pool.takeRewards
      rw [hzero, add_zero, update_eq_self]
      have hd : { ((w.pool v).pull a).del a with rewards := 0 } = ((w.pool v).pull a).del a := by rw [← hzero]
      rw [hd, update_eq_self]
    rw [hzero, paidOut_zero, hsame]
    exact h1

/-- What a compound call that turns the pool `p` of `v` into `p'` does to the registry: nothing if
there were no rewards, else what a delegation does. -/
def Registry.AfterCompound (v : ValId) (a : Address) (r : Registry)
    (p p' : Pool Address WithdrawalId) (r' : Registry) : Prop :=
  p' = (p.pull a).takeRewards a ∧ r' = r ∨
    r.authAddress v ≠ 0 ∧ (v ≠ 0 ∧ v ≠ BitVec.allOnes 64) ∧ r' = r.delegated rev v a p'

theorem compound_spec : wp (compound rev v a) (fun _ w' => ∃ p' r', Pool.Step (.compound a) (w.pool v) p' ∧
      w.registry.AfterCompound rev v a (w.pool v) p' r' ∧
      Acted v w p' r' w.balance ((w.pool v).Referenced a ∧ (((w.pool v).pull a).takeRewards a).Referenced a) w')
    (Fault ((w.pool v).PullSafe a ∧ (((w.pool v).pull a).takeRewards a).PullSafe a) True
      ((w.pool v).Referenced a ∧ (((w.pool v).pull a).takeRewards a).Referenced a) w) w := by
  unfold compound
  rw [wp_bind]
  refine wp_mono (pullDelegatorUpToDate_spec w v a) ?_ fun _ _ fault =>
    ⟨fun h => fault.sound h.1, fault.covered, fun h => fault.quiet h.1⟩
  rintro - w1 ⟨safe, t1⟩
  have h1 := t1.acted
  have hrew : (w1.delegator v a).rewards = (((w.pool v).pull a).del a).rewards := by
    rw [← h1.pool]
    rfl
  have h2 := acted_takeRewards w1 v a
  rw [hrew, h1.pool, h1.registry, h1.balance] at h2
  simp only [wp_bind, wp_load, wp_update, wp_onlyIf, hrew]
  generalize hw2 : (w1.modifyDelegator v a fun d => { d with rewards := 0 }).notePayout v a
    (((w.pool v).pull a).del a).rewards = w2 at h2 ⊢
  have h12 := h1.seq h2
  refine ⟨fun h0 => ?_, fun h0 => ?_⟩
  · have h3 := h2.emitLog (.claimRewards v a (((w.pool v).pull a).del a).rewards w2.epoch)
    refine wp_mono (delegate_spec rev (w2.emitLog _) v a _) ?_ ?_
    · rintro - w4 ⟨hexi, hv, hstep, h4⟩
      rw [h3.registry] at hexi
      rw [h3.pool] at hstep
      rw [h3.pool, h3.registry, h3.balance] at h4
      have h14 := ((h1.weaken And.left).seq h3).trans h4 And.right
      refine ⟨_, _, ?_, .inr ⟨hexi, hv, rfl⟩, h14⟩
      cases hstep with
      | delegate hs safe' hb => exact .compound safe rfl rfl hs safe' hb
    · intro e w4 fault
      rw [h3.pool] at fault
      exact ⟨fun h => fault.sound h.2, fault.covered,
        fun ref => (fault.quiet ref.2).trans ((h3.quiet trivial).trans (h1.quiet ref.1))⟩
  · have hzero : (((w.pool v).pull a).del a).rewards = 0 := by simpa using h0
    exact ⟨_, _, .compoundNothing safe hzero, .inl ⟨rfl, rfl⟩, h12.weaken And.left⟩

/-! ## Rewards and commission -/

theorem applyReward_spec (source : Address) (r activeStake : Nat) : wp (applyReward v source r activeStake)
    (fun _ w' => Acted v w
      { w.pool v with
        acc := (w.pool v).acc + perToken r activeStake
        unclaimed := (w.pool v).unclaimed + r }
      w.registry w.balance True w')
    (Fault True True True w) w := by
  have hper : r * unitBias / activeStake = perToken r activeStake := by rw [perToken, mul_comm]
  unfold applyReward
  simp only [wp_bind, wp_load, wp_checkedMulDiv, wp_checkedAdd, wp_update, hper]
  refine ⟨fun _ _ => ⟨fun _ => ⟨fun _ => ?_, fun _ => ?_⟩, fun _ => ?_⟩, fun _ _ => ?_, fun _ => ?_⟩
  · apply Acted.emitLog
    refine Touched.acted ⟨?_, ?_, fun _ => rfl⟩
    · simp [pool_modifyVal]
    · simp
  · exact .overflow fun _ => rfl
  · exact .overflow fun _ => rfl
  · exact .harmless rfl rfl
  · exact .overflow fun _ => rfl

theorem stake_thisEpochView : (w.thisEpochView v).stake = (w.pool v).view := by
  unfold World.thisEpochView Pool.view
  by_cases h : w.inEpochDelayPeriod <;> simp [h]

theorem externalReward_spec (r : Nat) : wp (externalReward v r a)
    (fun _ w' => Pool.Step (.reward a 0 r) (w.pool v) ((w.pool v).reward a 0 r) ∧
      Acted v w ((w.pool v).reward a 0 r) w.registry w.balance True w')
    (Fault True True True w) w := by
  unfold externalReward
  simp only [wp_bind, wp_load, wp_require, stake_thisEpochView]
  refine ⟨fun _ => ⟨fun hv => ⟨fun _ => ⟨fun _ => ?_, fun _ => ?_⟩, fun _ => ?_⟩, fun _ => ?_⟩, fun _ => ?_⟩
  · refine wp_mono (applyReward_spec w v a r _) ?_ fun _ _ => id
    intro _ w' h
    refine ⟨.reward hv, ?_⟩
    have hsame : (w.pool v).reward a 0 r =
        { w.pool v with
          acc := (w.pool v).acc + perToken r (w.pool v).view
          unclaimed := (w.pool v).unclaimed + r } := by simp [Pool.reward]
    rwa [hsame]
  all_goals exact .harmless rfl rfl

/-- The commission of a block reward. -/
def World.commissionOf (v : ValId) (rawReward : Nat) (w : World) : Nat :=
  rawReward * (w.thisEpochView v).commission / mon

theorem rewardValidator_spec (rawReward : Nat) : wp (rewardValidator v rawReward)
    (fun _ w' => w.commissionOf v rawReward ≤ rawReward ∧
      Pool.Step (.reward (w.valExecution v).authAddress (w.commissionOf v rawReward)
        (rawReward - w.commissionOf v rawReward)) (w.pool v)
        ((w.pool v).reward (w.valExecution v).authAddress (w.commissionOf v rawReward)
          (rawReward - w.commissionOf v rawReward)) ∧
      Acted v w ((w.pool v).reward (w.valExecution v).authAddress (w.commissionOf v rawReward)
          (rawReward - w.commissionOf v rawReward)) w.registry
        (update w.balance stakingCa (w.balance stakingCa + rawReward)) True w')
    (Fault ((w.thisEpochView v).commission ≤ mon) True True w) w := by
  unfold rewardValidator mintTokens addToBalance
  have hcomm : rawReward * (w.thisEpochView v).commission / mon = w.commissionOf v rawReward := rfl
  simp only [wp_bind, wp_load, wp_require, wp_checkedMulDiv, wp_checkedAdd, wp_checkedSub,
    wp_update, stake_thisEpochView, hcomm, setBalance_valExecution,
    setBalance_delegator]
  generalize w.commissionOf v rawReward = c at hcomm ⊢
  refine ⟨fun hv => ⟨fun _ => ⟨fun _ _ => ⟨fun _ => ⟨fun hc => ?_, fun hc => ?_⟩, fun _ => ?_⟩,
    fun _ h => absurd h mon_pos.ne', fun _ => ?_⟩, fun _ => ?_⟩, fun _ => ?_⟩
  · have h1 : Acted v w
        { w.pool v with
          del := update (w.pool v).del (w.valExecution v).authAddress
            { (w.pool v).del (w.valExecution v).authAddress with
              rewards := ((w.pool v).del (w.valExecution v).authAddress).rewards + c } }
        w.registry (update w.balance stakingCa (w.balance stakingCa + rawReward)) True
        ((w.setBalance stakingCa (w.balance stakingCa + rawReward)).modifyDelegator v
          (w.valExecution v).authAddress fun d =>
            { d with rewards := (w.delegator v (w.valExecution v).authAddress).rewards + c }) := by
      refine ⟨?_, fun u hu => ?_, rfl, rfl, fun _ => rfl⟩
      · rw [pool_modifyDelegator]
        rfl
      · rw [pool_modifyDelegator_of_ne _ _ hu, pool_setBalance]
    refine wp_mono (applyReward_spec _ v systemSender _ _) ?_ fun _ _ => h1.fault
    intro _ w2 h2
    refine ⟨hc, .reward hv, ?_⟩
    have h12 := h1.trans h2 id
    rw [h1.pool, h1.registry, h1.balance] at h12
    exact h12
  · -- a commission rate of at most one never exceeds the reward
    refine .unsound (fun hrate => absurd hc (not_lt.mpr ?_)) (by decide) fun _ => rfl
    rw [← hcomm]
    exact Nat.div_le_of_le_mul (by rw [mul_comm mon]; exact Nat.mul_le_mul_left _ hrate)
  · exact .overflow fun _ => rfl
  · exact .overflow fun _ => rfl
  · exact .harmless rfl rfl
  · exact .harmless rfl rfl

theorem changeCommission_spec (newCommission : Nat) : wp (changeCommission v newCommission a)
    (fun _ w' => w.registry.authAddress v ≠ 0 ∧ newCommission ≤ maxCommission ∧
      Acted v w (w.pool v) (w.registry.setCommission v newCommission) w.balance True w')
    (Fault True True True w) w := by
  unfold changeCommission
  simp only [wp_bind, wp_load, wp_require, wp_onlyIf, wp_update]
  refine ⟨fun hexi => ⟨fun _ => ⟨fun hmax => ⟨fun _ => ?_, fun hsame => ?_⟩, fun _ => ?_⟩, fun _ => ?_⟩, fun _ => ?_⟩
  · refine ⟨(exist_iff w v).mp hexi, hmax, emitLog ?_ _⟩
    refine ⟨?_, fun u hu => pool_modifyVal_of_ne _ hu _, ?_, rfl, fun _ => rfl⟩
    · rw [pool_modifyVal]
      rfl
    · rw [registry_modifyVal_commission]
  · refine ⟨(exist_iff w v).mp hexi, hmax, ?_⟩
    have hid : w.registry.setCommission v newCommission = w.registry := by
      have hv : w.registry.commission v = newCommission := of_not_not hsame
      rw [← hv, setCommission, update_eq_self]
    rw [hid]
    exact .refl w v
  all_goals exact .harmless rfl rfl

/-! ## New validators -/

theorem verifyAddValidator_spec (crypto : Crypto) (i : AddValidatorInput) (value : Nat) :
    wp (verifyAddValidator crypto i value) (fun _ w' => w' = w ∧ minAuthAddressStake ≤ value ∧
        i.commission ≤ maxCommission)
      (fun e w' => w' = w ∧ e.isUnsound = false ∧ e ≠ .exception .balanceUnderflow) w := by
  unfold verifyAddValidator
  simp +contextual [Error.isUnsound]

theorem registerValidator_spec (crypto : Crypto) (i : AddValidatorInput) : wp (registerValidator crypto i)
    (fun v w' => v = w.lastValId + 1 ∧ Acted v w (w.pool v)
        (w.registry.register v { secpPubkey := i.secpPubkey, blsPubkey := i.blsPubkey }
          i.authAddress i.commission) w.balance True w')
    (Fault True True True w) w := by
  unfold registerValidator
  simp only [wp_bind, wp_load, wp_require, wp_update, wp_pure]
  refine ⟨fun _ => ⟨trivial, emitLog ?_ _⟩, fun _ => .harmless rfl rfl⟩
  refine ⟨?_, fun u hu => ?_, ?_, rfl, fun _ => rfl⟩
  · rw [pool_modifyVal]
    rfl
  · rw [pool_modifyVal_of_ne _ hu]
    rfl
  · rw [registry_modifyVal]
    rfl

/-- A new validator is registered under the next id, and its auth address delegates to it. -/
theorem precompileAddValidator_spec (crypto : Crypto) {input : Bytes} {i : AddValidatorInput}
    (hi : decodeAddValidator input = .ok i) (value : Nat) :
    wp (precompileAddValidator rev crypto input value)
      (fun v w' => v = w.lastValId + 1 ∧ minAuthAddressStake ≤ value ∧
        i.commission ≤ maxCommission ∧ i.authAddress ≠ 0 ∧
        (v ≠ 0 ∧ v ≠ BitVec.allOnes 64) ∧
        Pool.Step (.delegate i.authAddress value) (w.pool v)
          (((w.pool v).pull i.authAddress).stage i.authAddress value) ∧
        Acted v w (((w.pool v).pull i.authAddress).stage i.authAddress value)
          ((w.registry.register v { secpPubkey := i.secpPubkey, blsPubkey := i.blsPubkey }
            i.authAddress i.commission).delegated rev v i.authAddress
              (((w.pool v).pull i.authAddress).stage i.authAddress value)) w.balance
          ((w.pool v).Referenced i.authAddress) w')
      (Fault ((w.pool (w.lastValId + 1)).PullSafe i.authAddress) True
        ((w.pool (w.lastValId + 1)).Referenced i.authAddress) w) w := by
  unfold precompileAddValidator
  simp only [hi, wp_bind, wp_lift_ok]
  refine wp_mono (verifyAddValidator_spec w crypto i value) ?_ ?_
  · rintro - w1 ⟨rfl, hmin, hmax⟩
    refine wp_mono (registerValidator_spec w1 crypto i) ?_ fun _ _ => ((refl w1 0).weaken fun _ => trivial).fault
    rintro v w2 ⟨rfl, h2⟩
    refine wp_mono (delegate_spec rev w2 _ i.authAddress value) ?_ ?_
    · rintro - w3 ⟨hexi, hv, hstep, h3⟩
      rw [h2.pool] at hstep
      rw [h2.registry] at hexi
      rw [h2.pool, h2.registry, h2.balance] at h3
      have hauth : i.authAddress ≠ 0 := by simpa [register] using hexi
      exact ⟨rfl, hmin, hmax, hauth, hv, hstep, (h2.weaken fun _ => trivial).trans h3 id⟩
    · intro e w3 fault
      rw [h2.pool] at fault
      exact ⟨fault.sound, fault.covered, fun ref => (fault.quiet ref).trans (h2.quiet trivial)⟩
  · rintro e w1 ⟨rfl, he, hb⟩
    exact ⟨fun _ => he, fun _ => hb, fun _ => rfl⟩

end Methods

end MonadExecution.Staking
