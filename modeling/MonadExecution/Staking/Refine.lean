import MonadExecution.Staking.Pool
import MonadExecution.Staking.Run

/-!
# The contract refines the pools — helpers

`World.pool v` is what a state says about validator `v`, and `World.outside v` is all the rest. The
specifications below say for every helper of the contract that it does to the pool of its validator
what the abstract operation does, that it leaves the rest alone, and which of its failures blame
the pool.
-/

namespace MonadExecution.Staking

open Program Function World Pool

/-- The pool of a validator. -/
@[simps -fullyApplied]
def World.pool (w : World) (v : ValId) : Pool Address WithdrawalId where
  epoch := w.epoch
  inDelay := w.inEpochDelayPeriod
  consensus := (w.consensusView v).stake
  snapshot := (w.snapshotView v).stake
  stake := (w.valExecution v).stake
  acc := (w.valExecution v).accumulatedRewardPerToken
  unclaimed := (w.valExecution v).unclaimedRewards
  del := w.delegator v
  request := fun j => w.withdrawalRequest v j.1 j.2
  cell := fun f => w.accumulatedRewardPerToken f v
  settlements := w.settlements v
  payouts := w.payouts v

/-- A validator without the amounts of its pool. -/
def ValExecution.blank (val : ValExecution) : ValExecution :=
  { val with stake := 0, accumulatedRewardPerToken := 0, unclaimedRewards := 0 }

/-- The state with the amounts of one pool, and the process log, blanked out. -/
def World.outside (v : ValId) (w : World) : World :=
  { w with
    valExecution := update w.valExecution v (w.valExecution v).blank
    delegator := update w.delegator v fun _ => {}
    withdrawalRequest := update w.withdrawalRequest v fun _ _ => {}
    accumulatedRewardPerToken := fun f => update (w.accumulatedRewardPerToken f) v {}
    settlements := update w.settlements v fun _ => 0
    payouts := update w.payouts v fun _ => 0
    diagnostics := [] }

/-! ## Storage access -/

section Access

variable (w : World) (v : ValId) (a : Address)

theorem pool_outside {u : ValId} (h : u ≠ v) : (w.outside v).pool u = w.pool u := by
  simp [pool, outside, update_of_ne h]

@[simp]
theorem pool_modifyDelegator (f : Delegator → Delegator) : (w.modifyDelegator v a f).pool v =
    { w.pool v with del := update (w.delegator v) a (f (w.delegator v a)) } := by simp [pool]

@[simp]
theorem outside_modifyDelegator (f : Delegator → Delegator) : (w.modifyDelegator v a f).outside v = w.outside v := by
  simp [outside, modifyDelegator]

theorem pool_modifyVal (f : ValExecution → ValExecution) : (w.modifyVal v f).pool v =
    { w.pool v with
      stake := (f (w.valExecution v)).stake
      acc := (f (w.valExecution v)).accumulatedRewardPerToken
      unclaimed := (f (w.valExecution v)).unclaimedRewards } := by simp [pool]

/-- A change of amounts only is not seen from outside. -/
theorem outside_modifyVal {f : ValExecution → ValExecution}
    (h : ∀ val, (f val).blank = val.blank) : (w.modifyVal v f).outside v = w.outside v := by
  simp [outside, modifyVal, h]

@[simp]
theorem outside_setAcc (x : Nat) : (w.modifyVal v fun val => { val with accumulatedRewardPerToken := x }).outside v =
    w.outside v :=
  outside_modifyVal w v fun _ => rfl

@[simp]
theorem outside_setUnclaimed (x : Nat) :
    (w.modifyVal v fun val => { val with unclaimedRewards := x }).outside v = w.outside v :=
  outside_modifyVal w v fun _ => rfl

@[simp]
theorem pool_setAccumulator (f : Nat) (c : RefCountedAccumulator) : (w.setAccumulator f v c).pool v =
    { w.pool v with
      cell := update (fun f => w.accumulatedRewardPerToken f v) f c } := by
  simp only [pool, setAccumulator]
  congr 1
  funext g
  by_cases h : g = f
  · subst h
    simp
  · simp [update_of_ne h]

@[simp]
theorem outside_setAccumulator (f : Nat) (c : RefCountedAccumulator) :
    (w.setAccumulator f v c).outside v = w.outside v := by
  simp only [outside, setAccumulator]
  congr 1
  funext g
  by_cases h : g = f
  · subst h
    simp
  · simp [update_of_ne h]

@[simp]
theorem pool_setWithdrawalRequest (i : WithdrawalId) (r : WithdrawalRequest) :
    (w.setWithdrawalRequest v a i r).pool v =
      { w.pool v with request := update (w.pool v).request (a, i) r } := by
  simp only [pool, setWithdrawalRequest]
  congr 1
  funext j
  obtain ⟨b, k⟩ := j
  by_cases hb : b = a
  · subst hb
    by_cases hk : k = i
    · subst hk
      simp
    · have hne : ((b, k) : Address × WithdrawalId) ≠ (b, i) := by simp [hk]
      simp [update_of_ne hk, update_of_ne hne]
  · have hne : ((b, k) : Address × WithdrawalId) ≠ (a, i) := by simp [hb]
    simp [update_of_ne hb, update_of_ne hne]

@[simp]
theorem outside_setWithdrawalRequest (i : WithdrawalId) (r : WithdrawalRequest) :
    (w.setWithdrawalRequest v a i r).outside v = w.outside v := by simp [outside, setWithdrawalRequest]

@[simp]
theorem pool_noteSettlement : (w.noteSettlement v a).pool v =
    { w.pool v with
      settlements := update (w.settlements v) a (w.settlements v a + 1) } := by simp [pool]

@[simp]
theorem outside_noteSettlement : (w.noteSettlement v a).outside v = w.outside v := by simp [outside, noteSettlement]

@[simp]
theorem pool_notePayout (r : Nat) : (w.notePayout v a r).pool v =
    { w.pool v with payouts := update (w.payouts v) a (w.payouts v a + r) } := by simp [pool]

@[simp]
theorem outside_notePayout (r : Nat) : (w.notePayout v a r).outside v = w.outside v := by simp [outside, notePayout]

@[simp]
theorem pool_diagnose (d : Diagnostic) : (w.diagnose d).pool v = w.pool v := rfl

@[simp]
theorem outside_diagnose (d : Diagnostic) : (w.diagnose d).outside v = w.outside v := rfl

@[simp]
theorem pool_setBalance (b : Address) (x : Nat) : (w.setBalance b x).pool v = w.pool v := rfl

@[simp]
theorem pool_emitLog (e : Event) : (w.emitLog e).pool v = w.pool v := rfl

end Access

/-! ## Checked arithmetic -/

section Arithmetic

variable {σ : Type} {Q : Nat → σ → Prop} {E : Error → σ → Prop} {s : σ} (x y z : Nat)

@[simp]
theorem wp_checkedAdd : wp (lift (checkedAdd x y)) Q E s ↔
    (x + y < uint256Size → Q (x + y) s) ∧ (uint256Size ≤ x + y → E (.math .overflow) s) := by
  unfold checkedAdd
  by_cases h : x + y < uint256Size
  · simp [h]
  · simp [h, Nat.le_of_not_lt h]

@[simp]
theorem wp_checkedSub : wp (lift (checkedSub x y)) Q E s ↔
    (y ≤ x → Q (x - y) s) ∧ (x < y → E (.math .underflow) s) := by
  unfold checkedSub
  by_cases h : y ≤ x
  · simp [h]
  · simp [h, Nat.lt_of_not_le h]

@[simp]
theorem wp_checkedMulDiv : wp (lift (checkedMulDiv x y z)) Q E s ↔ (x * y < uint256Size → z ≠ 0 → Q (x * y / z) s) ∧
    (x * y < uint256Size → z = 0 → E (.math .divisionByZero) s) ∧
    (uint256Size ≤ x * y → E (.math .overflow) s) := by
  unfold checkedMulDiv checkedMul checkedDiv
  by_cases h : x * y < uint256Size
  · by_cases hz : z = 0 <;> simp [h, hz, bind, Except.bind]
  · simp [h, Nat.le_of_not_lt h, bind, Except.bind]

@[simp]
theorem wp_calculateRewards : wp (lift (calculateRewards x y z)) Q E s ↔
    (z ≤ y → (y - z) * x < uint256Size → Q (earned x y z) s) ∧
    (y < z → E (.math .underflow) s) ∧
    (z ≤ y → uint256Size ≤ (y - z) * x → E (.math .overflow) s) := by
  unfold calculateRewards checkedSub checkedMulDiv checkedMul checkedDiv earned
  by_cases h : z ≤ y
  · by_cases hm : (y - z) * x < uint256Size
    · simp [h, hm, bind, Except.bind, unitBias_pos.ne']
    · simp [h, hm, Nat.le_of_not_lt hm, bind, Except.bind]
  · simp [h, Nat.lt_of_not_le h, bind, Except.bind]

end Arithmetic

/-! ## Outcomes -/

/-- The errors that blame the pool: its accounts do not add up. -/
def Error.isUnsound : Error → Bool
  | .staking .solvencyError | .math .underflow | .exception .stakingCompoundLogicError
  | .exception .withdrawalInsolvent => true
  | _ => false

/-- A failed part of a call: it does not blame a `safe` pool, it does not find the contract's
balance too low if it is `funded`, and it says nothing about reference counts that are
`counted`. -/
structure Fault (safe funded counted : Prop) (w : World) (e : Error) (w' : World) : Prop where
  sound : safe → e.isUnsound = false
  covered : funded → e ≠ .exception .balanceUnderflow
  quiet : counted → w'.diagnostics = w.diagnostics

section Fault

variable {safe funded counted : Prop} {w w' : World} {e : Error}

/-- An error that blames nobody. -/
theorem Fault.harmless (he : (e.isUnsound || e == .exception .balanceUnderflow) = false)
    (quiet : w'.diagnostics = w.diagnostics) : Fault safe funded counted w e w' := by
  rw [Bool.or_eq_false_iff, beq_eq_false_iff_ne] at he
  exact ⟨fun _ => he.1, fun _ => he.2, fun _ => quiet⟩

theorem Fault.overflow (quiet : counted → w'.diagnostics = w.diagnostics) :
    Fault safe funded counted w (.math .overflow) w' :=
  ⟨fun _ => rfl, fun _ => by decide, quiet⟩

/-- An error that blames a pool which is not safe. -/
theorem Fault.unsound (hsafe : ¬ safe) (hb : e ≠ .exception .balanceUnderflow)
    (quiet : counted → w'.diagnostics = w.diagnostics) : Fault safe funded counted w e w' :=
  ⟨fun h => absurd h hsafe, fun _ => hb, quiet⟩

end Fault

/-- A part of a call that turned the pool of `v` into `p` and left the rest alone. -/
structure Touched (v : ValId) (w : World) (p : Pool Address WithdrawalId) (counted : Prop)
    (w' : World) : Prop where
  pool : w'.pool v = p
  outside : w'.outside v = w.outside v
  quiet : counted → w'.diagnostics = w.diagnostics

/-! ## Reference counts -/

/-- `decrement_accumulator_refcount`, which always returns. -/
def World.releaseAccumulator (f : Nat) (v : ValId) (w : World) : World := let c := w.accumulatedRewardPerToken f v
  if c.refcount = 0 then w.diagnose (.refcountIsZero f v) else w.setAccumulator f v c.release

section Release

variable (w : World) (v : ValId) (f : Nat)

@[simp]
theorem wp_decrementAccumulatorRefcount {Q : Nat → World → Prop} {E : Error → World → Prop} :
    wp (decrementAccumulatorRefcount f v) Q E w ↔
      Q (w.accumulatedRewardPerToken f v).released (w.releaseAccumulator f v) := by
  unfold decrementAccumulatorRefcount releaseAccumulator
  by_cases h : (w.accumulatedRewardPerToken f v).refcount = 0
  · simp [h, RefCountedAccumulator.released]
  · simp [h, RefCountedAccumulator.released, RefCountedAccumulator.release]

@[simp]
theorem pool_releaseAccumulator : (w.releaseAccumulator f v).pool v =
    { w.pool v with
      cell := update (fun f => w.accumulatedRewardPerToken f v) f (w.accumulatedRewardPerToken f v).release } := by
  unfold releaseAccumulator
  by_cases h : (w.accumulatedRewardPerToken f v).refcount = 0
  · have hid : (w.accumulatedRewardPerToken f v).release = w.accumulatedRewardPerToken f v := by
      simp [RefCountedAccumulator.release, h]
    simp only [h, if_true, pool_diagnose, hid]
    rw [update_eq_self (f := fun f => w.accumulatedRewardPerToken f v)]
    rfl
  · simp [h]

@[simp]
theorem kept_releaseAccumulator : (w.releaseAccumulator f v).outside v = w.outside v ∧
    (w.releaseAccumulator f v).delegator = w.delegator ∧ (w.releaseAccumulator f v).valExecution = w.valExecution ∧
    (w.releaseAccumulator f v).settlements = w.settlements ∧ (w.releaseAccumulator f v).balance = w.balance := by
  unfold releaseAccumulator
  by_cases h : (w.accumulatedRewardPerToken f v).refcount = 0 <;> simp [h]

theorem diagnostics_releaseAccumulator (h : (w.accumulatedRewardPerToken f v).refcount ≠ 0) :
    (w.releaseAccumulator f v).diagnostics = w.diagnostics := by simp [releaseAccumulator, h]

end Release

/-! ## Bringing a delegator up to date -/

/-- Rewards moved from the pool to a delegator. -/
def World.credit (v : ValId) (a : Address) (rewards : Nat) (w : World) : World := (w.modifyVal v fun val =>
    { val with unclaimedRewards := (w.valExecution v).unclaimedRewards - rewards }).modifyDelegator
    v a fun d => { d with rewards := (w.delegator v a).rewards + rewards }

section Pull

variable (w : World) (v : ValId) (a : Address)

@[simp]
theorem wp_creditRewards {Q : Unit → World → Prop} {E : Error → World → Prop} (r : Nat) :
    wp (creditRewards v a r) Q E w ↔
      (r ≤ (w.valExecution v).unclaimedRewards → (w.delegator v a).rewards + r < uint256Size →
        Q () (w.credit v a r)) ∧
      ((w.valExecution v).unclaimedRewards < r → E (.staking .solvencyError) w) ∧
      (r ≤ (w.valExecution v).unclaimedRewards → uint256Size ≤ (w.delegator v a).rewards + r →
        E (.math .overflow) (w.modifyVal v fun val =>
          { val with unclaimedRewards := (w.valExecution v).unclaimedRewards - r })) := by
  unfold creditRewards rewardInvariant credit
  by_cases h : r ≤ (w.valExecution v).unclaimedRewards
  · simp [h, Nat.not_lt.mpr h]
  · simp [h, Nat.lt_of_not_le h]

@[simp]
theorem pool_credit (r : Nat) : (w.credit v a r).pool v =
    { w.pool v with
      unclaimed := (w.valExecution v).unclaimedRewards - r
      del := update (w.delegator v) a
        { w.delegator v a with rewards := (w.delegator v a).rewards + r } } := by simp [credit, pool_modifyVal]

@[simp]
theorem outside_credit (r : Nat) : (w.credit v a r).outside v = w.outside v := by simp [credit]

@[simp]
theorem delegator_credit (r : Nat) : (w.credit v a r).delegator = (w.modifyDelegator v a fun d =>
    { d with rewards := (w.delegator v a).rewards + r }).delegator := rfl

@[simp]
theorem diagnostics_credit (r : Nat) : (w.credit v a r).diagnostics = w.diagnostics := rfl

theorem compoundAndCredit_spec : wp (compoundAndCredit v a) (fun _ w' => (w.pool v).CanCompound a ∧
      Touched v w ((w.pool v).compound a) (((w.pool v).cell ((w.pool v).del a).deltaEpoch).refcount ≠ 0) w')
    (Fault ((w.pool v).CanCompound a) True (((w.pool v).cell ((w.pool v).del a).deltaEpoch).refcount ≠ 0) w) w := by
  have quiet := diagnostics_releaseAccumulator w v (w.delegator v a).deltaEpoch
  unfold compoundAndCredit applyCompound
  simp only [wp_bind, wp_load, wp_decrementAccumulatorRefcount, wp_calculateRewards, wp_update,
    wp_checkedAdd, wp_pure, wp_creditRewards, kept_releaseAccumulator]
  refine ⟨fun hle hmul => ⟨fun hadd => ⟨fun hsolv hrew => ⟨⟨hle, ?_⟩, ?_, ?_, ?_⟩, ?_, ?_⟩, ?_⟩, ?_, ?_⟩
  · simpa [Pool.compoundReward, Pool.bucketAcc] using hsolv
  · simp [Pool.compound, Delegator.compounded, promoteDelta, Pool.compoundReward, Pool.bucketAcc]
  · simp
  · simpa using quiet
  · intro hlt
    refine .unsound (fun can => ?_) (by decide) (by simpa using quiet)
    have := can.solvent
    simp [Pool.compoundReward, Pool.bucketAcc] at this hlt
    omega
  · intro _ _
    exact .overflow (by simpa using quiet)
  · intro _
    exact .overflow (by simpa using quiet)
  · intro hlt
    refine .unsound (fun can => ?_) (by decide) (by simpa using quiet)
    exact absurd can.acc_le (Nat.not_le.mpr hlt)
  · intro _ _
    exact .overflow (by simpa using quiet)

theorem settleActiveStake_spec : wp (settleActiveStake v a)
    (fun _ w' => ((w.delegator v a).stake ≠ 0 → (w.pool v).CanSettle a) ∧
      Touched v w ((w.pool v).settleIfStaked a) True w')
    (Fault ((w.delegator v a).stake ≠ 0 → (w.pool v).CanSettle a) True True w) w := by
  unfold settleActiveStake
  by_cases h0 : (w.delegator v a).stake = 0
  · simp [h0]
    exact ⟨by simp [settleIfStaked, h0], rfl, fun _ => rfl⟩
  simp only [wp_bind, wp_load, h0, if_false, wp_calculateRewards, wp_update, wp_creditRewards]
  refine ⟨fun hle hmul => ⟨fun hsolv hrew => ⟨fun _ => ⟨hle, ?_⟩, ?_, ?_, ?_⟩, ?_, ?_⟩, ?_, ?_⟩
  · simpa [settleReward] using hsolv
  · simp [settleIfStaked, h0, settle, Delegator.settled, settleReward]
  · simp
  · simp
  · intro hlt
    refine .unsound (fun can => ?_) (by decide) (by simp)
    have := (can h0).solvent
    simp [settleReward] at this hlt
    omega
  · intro _ _
    exact .overflow (by simp)
  · intro hlt
    refine .unsound (fun can => ?_) (by decide) (by simp)
    exact absurd (can h0).acc_le (Nat.not_le.mpr hlt)
  · intro _ _
    exact .overflow (by simp)

/-- The cells that folding in the active buckets releases are in use. -/
structure Pool.FoldReferenced (a : Address) (q : Pool Address WithdrawalId) : Prop where
  first : q.isActive (q.del a).deltaEpoch → (q.cell (q.del a).deltaEpoch).refcount ≠ 0
  second : q.isActive (q.del a).nextDeltaEpoch → ((q.compound a).cell (q.del a).nextDeltaEpoch).refcount ≠ 0

def Pool.Referenced (a : Address) (p : Pool Address WithdrawalId) : Prop := FoldReferenced a (p.promote a)

theorem foldActiveBuckets_spec : wp (foldActiveBuckets v a) (fun _ w' => (w.pool v).BucketsSafe a ∧
      Touched v w ((w.pool v).foldBuckets a) ((w.pool v).FoldReferenced a) w')
    (Fault ((w.pool v).BucketsSafe a) True ((w.pool v).FoldReferenced a) w) w := by
  have hdel : w.isEpochActive (w.delegator v a).deltaEpoch = (w.pool v).isActive ((w.pool v).del a).deltaEpoch := rfl
  have hnext : w.isEpochActive (w.delegator v a).nextDeltaEpoch =
      (w.pool v).isActive ((w.pool v).del a).nextDeltaEpoch := rfl
  unfold foldActiveBuckets
  simp only [wp_bind, wp_load, wp_onlyIf, wp_require, hdel, hnext]
  refine ⟨fun hn => ⟨fun hd => ?_, fun hd => ?_⟩, fun hn => ⟨fun hd => ?_, fun hd => ?_⟩⟩
  · refine wp_mono (compoundAndCredit_spec w v a) ?_ ?_
    · rintro - w1 ⟨can, t⟩
      refine ⟨fun _ => ?_, fun h => absurd hd h⟩
      -- the second bucket has moved up, so the second round finds it in the first place
      refine wp_mono (compoundAndCredit_spec w1 v a) ?_ ?_
      · rintro - w2 ⟨can', t'⟩
        rw [t.pool] at can' t'
        refine ⟨⟨fun _ => hd, fun _ => can, fun _ => can'⟩, ?_, t'.outside.trans t.outside, ?_⟩
        · rw [t'.pool, foldBuckets, if_pos hn]
        intro ref
        rw [t'.quiet ?_, t.quiet (ref.first hd)]
        simpa using ref.second hn
      · intro e w2 fault
        rw [t.pool] at fault
        refine ⟨fun safe => fault.sound (safe.second hn), fault.covered, fun ref => ?_⟩
        rw [fault.quiet ?_, t.quiet (ref.first hd)]
        simpa using ref.second hn
    · intro e w1 fault
      exact ⟨fun safe => fault.sound (safe.first hd), fault.covered, fun ref => fault.quiet (ref.first hd)⟩
  · exact .unsound (fun safe => hd (safe.order hn)) (by decide) fun _ => rfl
  · refine wp_mono (compoundAndCredit_spec w v a) ?_ ?_
    · rintro - w1 ⟨can, t⟩
      refine ⟨⟨fun h => absurd h hn, fun _ => can, fun h => absurd h hn⟩, ?_, t.outside,
        fun ref => t.quiet (ref.first hd)⟩
      rw [t.pool, foldBuckets, if_neg hn, if_pos hd]
    · intro e w1 fault
      exact ⟨fun safe => fault.sound (safe.first hd), fault.covered, fun ref => fault.quiet (ref.first hd)⟩
  · refine ⟨⟨fun h => absurd h hn, fun h => absurd h hd, fun h => absurd h hn⟩, ?_, rfl, fun _ => rfl⟩
    rw [foldBuckets, if_neg hn, if_neg hd]

/-- `pull_delegator_up_to_date` does to the pool what `Pool.pull` does. -/
theorem pullDelegatorUpToDate_spec : wp (pullDelegatorUpToDate v a) (fun _ w' => (w.pool v).PullSafe a ∧
      Touched v w ((w.pool v).pull a) ((w.pool v).Referenced a) w')
    (Fault ((w.pool v).PullSafe a) True ((w.pool v).Referenced a) w) w := by
  -- the state after the promotion
  have hpromote : ∃ w1, Touched v w ((w.pool v).promote a) True w1 ∧
      ∀ Q E, wp (do foldActiveBuckets v a; settleActiveStake v a) Q E w1 → wp (pullDelegatorUpToDate v a) Q E w := by
    by_cases h : canPromoteDelta (w.delegator v a) w.epoch
    · refine ⟨w.modifyDelegator v a promoteDelta, ⟨?_, by simp, fun _ => rfl⟩, fun Q E hw => ?_⟩
      · simp [promote, h]
      · simpa [pullDelegatorUpToDate, h] using hw
    · refine ⟨w, ⟨?_, rfl, fun _ => rfl⟩, fun Q E hw => ?_⟩
      · simp [promote, h]
        rfl
      · simpa [pullDelegatorUpToDate, h] using hw
  obtain ⟨w1, t1, hrest⟩ := hpromote
  apply hrest
  rw [wp_bind]
  refine wp_mono (foldActiveBuckets_spec w1 v a) ?_ ?_
  · rintro - w2 ⟨safe, t2⟩
    rw [t1.pool] at safe t2
    have hstk : (w2.delegator v a).stake = ((((w.pool v).promote a).foldBuckets a).del a).stake := by
      rw [← t2.pool]
      rfl
    refine wp_mono (settleActiveStake_spec w2 v a) ?_ ?_
    · rintro - w3 ⟨can, t3⟩
      rw [t2.pool, hstk] at can
      rw [t2.pool] at t3
      refine ⟨⟨safe, can⟩, t3.pool, t3.outside.trans (t2.outside.trans t1.outside), fun ref => ?_⟩
      rw [t3.quiet trivial, t2.quiet ref, t1.quiet trivial]
    · intro e w3 fault
      rw [t2.pool, hstk] at fault
      refine ⟨fun h => fault.sound h.settle, fault.covered, fun ref => ?_⟩
      rw [fault.quiet trivial, t2.quiet ref, t1.quiet trivial]
  · intro e w2 fault
    rw [t1.pool] at fault
    refine ⟨fun h => fault.sound h.toBucketsSafe, fault.covered, fun ref => ?_⟩
    rw [fault.quiet ref, t1.quiet trivial]

end Pull

end MonadExecution.Staking
