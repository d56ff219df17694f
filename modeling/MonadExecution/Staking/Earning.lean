import MonadExecution.Staking.References

/-!
# The stake that earns

Rewards are divided by the stake of a frozen view, while the delegators go on delegating and
undelegating. A delegation earns from its activation epoch on, and an undelegated amount earns until
that epoch; so the stake that earns in an epoch does not change while the epoch lasts, and it is the
stake that was frozen for it.
-/

namespace MonadExecution.Staking

open Program Function Finset Delegator WithdrawalRequest Nat

/-- The stake of a delegator that earns in epoch `f`, if nothing happens before. -/
def Delegator.activeAt (d : Delegator) (f : Nat) : Nat :=
  d.stake + (if d.deltaEpoch ≤ f then d.deltaStake else 0) + if d.nextDeltaEpoch ≤ f then d.nextDeltaStake else 0

/-- The amount of a withdrawal request that earns in epoch `f`. -/
def WithdrawalRequest.unmaturedAt (r : WithdrawalRequest) (f : Nat) : Nat := if f < r.epoch then r.amount else 0

namespace Pool

variable {ι κ : Type} [DecidableEq ι] [DecidableEq κ] [Fintype ι] [Fintype κ] {p q p' : Pool ι κ}
  {a : ι}

/-- All the stake that earns in epoch `f`. -/
def earningStake (p : Pool ι κ) (f : Nat) : Nat := ∑ a, (p.del a).activeAt f + ∑ j, (p.request j).unmaturedAt f

/-- The frozen stakes are the stakes that earn: of this epoch, and once the snapshot is taken, of the
next one. -/
structure Earning (p : Pool ι κ) : Prop where
  view_eq : p.view ≠ 0 → p.view = p.earningStake p.epoch
  next_eq : p.inDelay = true → p.consensus ≠ 0 → p.consensus = p.earningStake (p.epoch + 1)

/-! ## Operations of the delegators -/

variable {f : Nat} {d : Delegator} {op : Op ι κ}

section

variable (h : p.Counted) (hh : p.horizon < uint64Size) (safe : p.PullSafe a) (hf : p.epoch ≤ f)

include h hh safe hf

omit [DecidableEq κ] in
/-- In the epochs that are decided, the stake of `a` that earns is the same. -/
theorem activeAt_pull (b : ι) : ((p.pull a).del b).activeAt f = (p.del b).activeAt f := by
  rcases eq_or_ne b a with rfl | hb
  · have hinv : (p.pull b).epoch = p.epoch ∧ ((p.pull b).del b).activeAt f = (p.del b).activeAt f := by
      refine pull_induct (P := fun q => q.epoch = p.epoch ∧ (q.del b).activeAt f = (p.del b).activeAt f) safe ?_ ?_ ?_
      · refine ⟨rfl, ?_⟩
        rw [promote_del, update_self]
        split_ifs with hp
        · simp only [canPromoteDelta, Bool.and_eq_true, beq_iff_eq] at hp
          have h0 := (h.early hh b).delta hp.1
          simp [Delegator.activeAt, promoteDelta, h0]
          rfl
        · rfl
      · intro q hq hact _
        obtain ⟨-, hle⟩ := isActive_iff.mp hact
        refine ⟨hq.1, ?_⟩
        rw [← hq.2, compound_del, update_self]
        have hdelta : (q.del b).deltaEpoch ≤ f := by omega
        simp [Delegator.activeAt, hdelta]
      · intro q hq _ _ _
        refine ⟨hq.1, ?_⟩
        rw [← hq.2, settle_del, update_self]
        rfl
    exact hinv.2
  · rw [del_pull_of_ne hb]

omit [DecidableEq κ] in
theorem earningStake_pull : (p.pull a).earningStake f = p.earningStake f := by
  unfold earningStake
  rw [request_pull]
  exact congrArg (· + _) (sum_congr rfl fun b _ => activeAt_pull h hh safe hf b)

end

omit [DecidableEq κ] in
/-- A change of one record that does not change what earns. -/
theorem earningStake_update (hdel : q.del = update p.del a d) (hreq : q.request = p.request)
    (hd : d.activeAt f = (p.del a).activeAt f) : q.earningStake f = p.earningStake f := by
  have hsum := sum_update (fun d => Delegator.activeAt d f) p.del a d
  unfold earningStake
  rw [hdel, hreq]
  omega

omit [DecidableEq κ] in
theorem earningStake_takeRewards (p : Pool ι κ) (a : ι) (f : Nat) :
    (p.takeRewards a).earningStake f = p.earningStake f :=
  earningStake_update (takeRewards_del a p) rfl rfl

variable {s e : Nat} {i : κ}

/-- A staged bucket earns from its epoch on, which is behind `f`. -/
theorem activeAt_staged {inDelay : Bool}
    (hd : d.stagedEpoch inDelay = 0 → (if inDelay then d.nextDeltaStake else d.deltaStake) = 0)
    (he : d.stagedEpoch inDelay ≠ 0 → d.stagedEpoch inDelay = e) (hf : f < e) :
    (d.staged inDelay s e).activeAt f = d.activeAt f := by
  unfold Delegator.stagedEpoch at hd he
  unfold Delegator.staged Delegator.activeAt
  cases inDelay with
  | true =>
    simp only [if_true] at hd he ⊢
    split_ifs with h1 h2 h2 <;> omega
  | false =>
    simp only [Bool.false_eq_true, if_false] at hd he ⊢
    split_ifs with h1 h2 h2 <;> omega

omit [DecidableEq κ] in
theorem earningStake_stage (h : p.Counted) (hh : p.horizon < uint64Size) (hup : (p.del a).UpToDate p.epoch p.inDelay)
    (hf : f < p.horizon) : (p.stage a s).earningStake f = p.earningStake f := by
  have hemp := h.early hh a
  refine earningStake_update (stage_del a s p) rfl ?_
  refine activeAt_staged (fun h0 => ?_) (stagedEpoch_eq hup (h.timely a)) (activation_of_horizon hh ▸ hf)
  unfold Delegator.stagedEpoch at h0
  split_ifs at h0 ⊢
  · exact hemp.next h0
  · exact hemp.delta h0

theorem amount_of_hasValue {r : WithdrawalRequest} (h : r.hasValue = false) : r.amount = 0 := by
  simp only [hasValue, Bool.or_eq_false_iff, bne_eq_false_iff_eq] at h
  exact h.1.1

theorem earningStake_lower (hh : p.horizon < uint64Size) {amount : Nat} (hw : (p.request (a, i)).hasValue = false)
    (hx : amount ≤ (p.del a).stake) (hf : f < p.horizon) :
    (p.lower a i amount).earningStake f = p.earningStake f := by
  have hle := leaving_le hx
  have hsum := sum_update (fun d => Delegator.activeAt d f) p.del a ((p.del a).lowered (p.leaving a amount))
  have hreq := sum_update (fun r => unmaturedAt r f) p.request (a, i)
    { amount := p.leaving a amount, acc := (p.del a).accumulatedRewardPerToken,
      epoch := p.activation }
  have hclosed : (p.request (a, i)).unmaturedAt f = 0 := by simp [unmaturedAt, amount_of_hasValue hw]
  have hopen (acc : Nat) : unmaturedAt
      { amount := p.leaving a amount, acc := acc, epoch := p.activation } f =
      p.leaving a amount := by
    rw [activation_of_horizon hh]
    exact if_pos hf
  have hact : ((p.del a).lowered (p.leaving a amount)).activeAt f + p.leaving a amount = (p.del a).activeAt f := by
    unfold Delegator.activeAt
    rw [lowered_stake, lowered_deltaEpoch, lowered_deltaStake, lowered_nextDeltaEpoch, lowered_nextDeltaStake]
    omega
  rw [hclosed, hopen] at hreq
  unfold earningStake
  simp only [lower_del, lower_request]
  omega

omit [DecidableEq ι] [DecidableEq κ] [Fintype ι] [Fintype κ] in
/-- The epoch of a request that can be withdrawn is over. -/
theorem epoch_lt_of_ready (hh : p.horizon < uint64Size) (he : e ≤ p.horizon)
    (ready : p.isActive ((e + Limits.withdrawalDelay) % uint64Size)) : e < p.epoch := by
  obtain ⟨h0, hle⟩ := isActive_iff.mp ready
  unfold Limits.withdrawalDelay at h0 hle
  have hne : e + 1 ≠ uint64Size := by
    intro heq
    rw [heq, mod_self] at h0
    exact h0 rfl
  rw [mod_eq_of_lt (by omega)] at hle
  omega

theorem earningStake_redeem (hf : (p.request (a, i)).epoch ≤ f) :
    (p.redeem a i).earningStake f = p.earningStake f := by
  have hreq := sum_update (fun r => unmaturedAt r f) p.request (a, i) {}
  have hmatured : (p.request (a, i)).unmaturedAt f = 0 := if_neg (not_lt.mpr hf)
  have hclosed : unmaturedAt {} f = 0 := by simp [unmaturedAt]
  unfold earningStake
  simp only [redeem_del, redeem_request]
  omega

/-- No operation of a delegator changes the stake that earns in an epoch that is decided. -/
theorem earningStake_step (hstep : Step op p p') (h : p.Counted) (hh : p.horizon < uint64Size) (hf : p.epoch ≤ f)
    (hf' : f < p.horizon) : p'.earningStake f = p.earningStake f := by
  cases hstep with
  | idle => rfl
  | pull safe => exact earningStake_pull h hh safe hf
  | delegate hs safe hr =>
    have hup := (h.timely.pull safe).2
    rw [earningStake_stage (h.pull safe) (by rwa [horizon_pull])
      (by rwa [epoch_pull, inDelay_pull]) (by rwa [horizon_pull]), earningStake_pull h hh safe hf]
  | undelegate h0 hw safe hx hl =>
    rw [earningStake_lower (by rwa [horizon_pull]) (by rwa [request_pull]) hx
      (by rwa [horizon_pull]), earningStake_pull h hh safe hf]
  | compoundNothing safe h0 => rw [earningStake_takeRewards, earningStake_pull h hh safe hf]
  | @compound _ q a r safe hr hq hs safe' hb =>
    have hctd := (h.pull safe).takeRewards a
    have hstk := earningStake_takeRewards (p.pull a) a f
    have hep : q.epoch = p.epoch := by rw [← hq]; simp
    have hhor : q.horizon = p.horizon := by rw [← hq]; simp [horizon]
    rw [hq] at hctd hstk
    have hup := (hctd.timely.pull safe').2
    rw [earningStake_stage (hctd.pull safe') (by rwa [horizon_pull, hhor])
      (by rwa [epoch_pull, inDelay_pull]) (by rwa [horizon_pull, hhor]),
      earningStake_pull hctd (by rwa [hhor]) safe' (by rwa [hep]), hstk,
      earningStake_pull h hh safe hf]
  | withdraw hw ready can =>
    have hlt := epoch_lt_of_ready hh (h.request_le _) ready
    exact earningStake_redeem (by omega)
  | claim safe => rw [earningStake_takeRewards, earningStake_pull h hh safe hf]
  | @reward _ auth commission r hv => exact earningStake_update (reward_del auth commission r p) rfl rfl
  | changeEpoch he hn => rfl
  | takeSnapshot hd => rfl

/-! ## Operations of consensus -/

omit [DecidableEq ι] [DecidableEq κ] in
/-- Before the snapshot, all the stake of the pool will earn in the next epoch, and no withdrawn
stake. -/
theorem stake_eq_earningStake (h : p.Counted) (ledger : p.Ledger) (hd : p.inDelay = false) :
    p.stake = p.earningStake (p.epoch + 1) := by
  have hhor : p.horizon = p.epoch + 1 := by simp [horizon, hd]
  have hact (a : ι) : (p.del a).activeAt (p.epoch + 1) = (p.del a).held := by
    have hdelta := (h.timely a).delta_le
    have hnext := (h.timely a).next_le
    rw [hhor] at hnext
    unfold Delegator.activeAt Delegator.held
    rw [if_pos hdelta, if_pos hnext]
  have hreq : ∑ j, (p.request j).unmaturedAt (p.epoch + 1) = 0 := by
    refine sum_eq_zero fun j _ => if_neg ?_
    have hj := h.request_le j
    omega
  unfold earningStake
  rw [hreq, add_zero, ledger.stake_eq]
  exact sum_congr rfl fun a _ => (hact a).symm

omit [DecidableEq ι] [DecidableEq κ] in
/-- The views that an operation of a delegator leaves alone. -/
theorem Earning.of_same (h : p.Earning) (hep : p'.epoch = p.epoch) (hdly : p'.inDelay = p.inDelay)
    (hcons : p'.consensus = p.consensus) (hsnap : p'.snapshot = p.snapshot)
    (hstk : ∀ f, p.epoch ≤ f → f < p.horizon → p'.earningStake f = p.earningStake f) : p'.Earning := by
  have hview : p'.view = p.view := by
    unfold view
    rw [hdly, hcons, hsnap]
  refine ⟨fun hv => ?_, fun hd hc => ?_⟩
  · rw [hview] at hv ⊢
    rw [hep, hstk _ (le_refl _) (epoch_lt_horizon p)]
    exact h.view_eq hv
  · rw [hdly] at hd
    rw [hcons] at hc ⊢
    have hlt : p.epoch + 1 < p.horizon := by simp [horizon, hd]
    rw [hep, hstk _ (le_succ _) hlt]
    exact h.next_eq hd hc

/-- Every lawful operation keeps the frozen stakes equal to the stakes that earn. -/
theorem Earning.step (hstep : Step op p p') (hlawful : p.Lawful op) (hc : p.Counted) (ledger : p.Ledger)
    (hh : p.horizon < uint64Size) (h : p.Earning) : p'.Earning := by
  have hstk := fun f => earningStake_step (f := f) hstep hc hh
  cases hstep with
  | @changeEpoch _ next listed he hn =>
    rcases hlawful with ⟨-, -, hcons, -⟩ | ⟨-, hdly, rfl, -⟩
    · refine ⟨fun hv => absurd hcons (by simpa [view] using hv), fun hd => ?_⟩
      simp at hd
    refine ⟨fun hv => ?_, fun hd => ?_⟩
    · have hv' : p.consensus ≠ 0 := by simpa [view] using hv
      have hview : (p.changeEpoch (p.epoch + 1) listed).view = p.consensus := by
        simp only [view, changeEpoch_inDelay, Bool.false_eq_true, if_false, changeEpoch_consensus]
      exact h.next_eq hdly hv'
    · simp at hd
  | @takeSnapshot _ chosen hd =>
    have hview : (p.takeSnapshot chosen).view = p.view := by simp [view, hd]
    refine ⟨fun hv => ?_, fun _ hne => ?_⟩
    · rw [hview] at hv ⊢
      exact h.view_eq hv
    simp only [takeSnapshot_consensus] at hne ⊢
    split_ifs at hne ⊢ with hcho
    · exact stake_eq_earningStake hc ledger hd
    · exact absurd rfl hne
  | compound safe hr hq hs safe' hb => refine h.of_same ?_ ?_ ?_ ?_ hstk <;> simp [← hq]
  | idle => exact h
  | _ => exact h.of_same (by simp) (by simp) (by simp) (by simp) hstk

omit [DecidableEq ι] [DecidableEq κ] in
/-- A bucket without an epoch is empty, so it does not matter whether it is counted. -/
theorem earningStake_eq (h : ∀ a, EmptyWithoutEpoch (p.del a)) (f : Nat) : p.earningStake f = ∑ a, ((p.del a).stake +
      (if 1 ≤ (p.del a).deltaEpoch ∧ (p.del a).deltaEpoch ≤ f then (p.del a).deltaStake else 0) +
      (if 1 ≤ (p.del a).nextDeltaEpoch ∧ (p.del a).nextDeltaEpoch ≤ f then
        (p.del a).nextDeltaStake else 0)) +
    ∑ j, if f < (p.request j).epoch then (p.request j).amount else 0 := by
  refine congrArg (· + _) (sum_congr rfl fun a _ => ?_)
  have hdelta := (h a).delta
  have hnext := (h a).next
  unfold Delegator.activeAt
  split_ifs <;> omega

omit [Fintype ι] [Fintype κ] in
/-- No request waits for an epoch beyond 64 bits. -/
theorem request_lt_step (hstep : Step op p p') (h : ∀ j, (p.request j).epoch < uint64Size) (j : ι × κ) :
    (p'.request j).epoch < uint64Size := by
  cases hstep with
  | @undelegate _ a i amount h0 hw safe hx hl =>
    rw [lower_request]
    rcases eq_or_ne j (a, i) with rfl | hj
    · rw [update_self]
      rw [activation_eq]
      exact mod_lt _ uint64Size_pos
    · rw [update_of_ne hj, request_pull]
      exact h j
  | @withdraw _ a i hw ready can =>
    rw [redeem_request]
    rcases eq_or_ne j (a, i) with rfl | hj
    · rw [update_self]
      exact uint64Size_pos
    · rw [update_of_ne hj]
      exact h j
  | compound safe hr hq hs safe' hb =>
    subst hq
    simpa using h j
  | _ => simpa using h j

omit [DecidableEq ι] [DecidableEq κ] in
/-- The stake of the delegators that earns is at most the stake of the pool. -/
theorem Counted.sum_active_le (h : p.Counted) (f : Nat) : ∑ a, ((p.del a).stake +
    (if 1 ≤ (p.del a).deltaEpoch ∧ (p.del a).deltaEpoch ≤ f then (p.del a).deltaStake else 0) +
    (if 1 ≤ (p.del a).nextDeltaEpoch ∧ (p.del a).nextDeltaEpoch ≤ f then
      (p.del a).nextDeltaStake else 0)) ≤ p.stake := by
  have hkn : ∑ a, (p.del a).known ≤ p.stake := by
    have hpaid := h.paid
    have hzero := mul_le_mul_left Limits.dustThreshold h.zero
    omega
  refine (sum_le_sum fun a _ => ?_).trans hkn
  unfold Delegator.known
  split_ifs <;> omega

end Pool

/-! ## After a conforming run -/

section Runs

variable (rev : MonadRevision) (crypto : Crypto) {calls : List Call}

/-- What holds of a fresh pool, and is kept by every lawful operation on a pool that is in order,
holds of every pool after a conforming run as long as the epochs exist. -/
theorem pool_after_exist {P : Pool Address WithdrawalId → Prop} (h0 : P Pool.empty)
    (hstep : ∀ {op p p'}, Pool.Step op p p' → p.Lawful op → p.Counted → p.Ledger → p'.horizon < uint64Size → P p → P p')
    (h : Conforms rev crypto calls) (hexi : (after rev crypto calls).EpochsExist) (v : ValId) :
    P ((after rev crypto calls).pool v) := by
  induction calls with
  | nil => exact h0
  | cons c calls ih =>
    have hexi' := epochsExist_tail rev crypto hexi
    exact hstep (step_calledOp rev crypto c calls v) (lawful_of_conforms h v)
      (counted_after rev crypto calls v) (ledger_after rev crypto hexi' v) (hexi.horizon v)
      (ih (conforms_tail rev crypto h) hexi')

theorem earning_after (h : Conforms rev crypto calls) (hexi : (after rev crypto calls).EpochsExist) (v : ValId) :
    ((after rev crypto calls).pool v).Earning :=
  pool_after_exist rev crypto ⟨fun h0 => absurd rfl h0, fun h0 => nomatch h0⟩ (fun hstep hlawful hc ledger hh hp =>
      hp.step hstep hlawful hc ledger ((Pool.horizon_step hstep).trans_lt hh)) h hexi v

/-- The stake that rewards are divided by is the stake that earns them: the active stake of the
delegators, the buckets that have become active, and the amounts of the withdrawal requests that have
not matured. -/
theorem thisEpochView_eq_earning {calls : List Call} (hrun : Conforms rev crypto calls)
    (hepoch : (after rev crypto calls).epoch + 2 < 2 ^ 64) (v : ValId)
    (hview : ((after rev crypto calls).thisEpochView v).stake ≠ 0) :
    let w := after rev crypto calls
    (w.thisEpochView v).stake = ∑ a, ((w.delegator v a).stake +
        (if 1 ≤ (w.delegator v a).deltaEpoch ∧ (w.delegator v a).deltaEpoch ≤ w.epoch then
          (w.delegator v a).deltaStake else 0) +
        (if 1 ≤ (w.delegator v a).nextDeltaEpoch ∧ (w.delegator v a).nextDeltaEpoch ≤ w.epoch then
          (w.delegator v a).nextDeltaStake else 0)) +
      ∑ j : Address × WithdrawalId, if w.epoch < (w.withdrawalRequest v j.1 j.2).epoch then
          (w.withdrawalRequest v j.1 j.2).amount else 0 := by
  intro w
  have hexi : w.EpochsExist := by
    unfold World.EpochsExist uint64Size
    exact hepoch
  have hpool : (w.pool v).view = (w.thisEpochView v).stake := by
    show (if w.inEpochDelayPeriod then _ else _) = _
    unfold World.thisEpochView
    split_ifs <;> rfl
  have hearning := (earning_after rev crypto hrun hexi v).view_eq (by rwa [hpool])
  rw [Pool.earningStake_eq (ledger_after rev crypto hexi v).empty, hpool] at hearning
  exact hearning

end Runs

/-- In epoch 2 a delegator undelegates part of an active stake; it earns until the next epoch. -/
theorem thisEpochView_eq_earning_undelegated :
    let calls := [Call.undelegate 1 mon 0 8, .onEpochChange 2, .snapshot,
      .register 7 8 0 9 (10000000 * mon), .onEpochChange 1]
    let w := after .five .acceptAll calls
    Conforms .five .acceptAll calls ∧ w.epoch + 2 < 2 ^ 64 ∧
      (w.thisEpochView 1).stake = 10000000 * mon ∧ (w.delegator 1 8).stake = 9999999 * mon ∧
      (w.thisEpochView 1).stake = ∑ a, ((w.delegator 1 a).stake +
          (if 1 ≤ (w.delegator 1 a).deltaEpoch ∧ (w.delegator 1 a).deltaEpoch ≤ w.epoch then
            (w.delegator 1 a).deltaStake else 0) +
          (if 1 ≤ (w.delegator 1 a).nextDeltaEpoch ∧ (w.delegator 1 a).nextDeltaEpoch ≤ w.epoch then
            (w.delegator 1 a).nextDeltaStake else 0)) +
        ∑ j : Address × WithdrawalId, if w.epoch < (w.withdrawalRequest 1 j.1 j.2).epoch then
            (w.withdrawalRequest 1 j.1 j.2).amount else 0 := by
  intro calls w
  obtain ⟨hrun, hep, hview, hstk⟩ : Conforms .five .acceptAll calls ∧ w.epoch + 2 < 2 ^ 64 ∧
    (w.thisEpochView 1).stake = 10000000 * mon ∧ (w.delegator 1 8).stake = 9999999 * mon := by decide +kernel
  exact ⟨hrun, hep, hview, hstk, thisEpochView_eq_earning .five .acceptAll hrun hep 1 (by decide +kernel)⟩

/-- In the last epoch an undelegated amount waits for epoch 0. It is not counted any more, though it
is in the stake of the view. -/
theorem thisEpochView_ne_earning_lastEpoch :
    let calls := [Call.undelegate 1 mon 0 8, .onEpochChange (2 ^ 64 - 1), .snapshot,
      .register 7 8 0 9 (10000000 * mon), .onEpochChange (2 ^ 64 - 2)]
    let w := after .five .acceptAll calls
    Conforms .five .acceptAll calls ∧ (w.thisEpochView 1).stake ≠ 0 ∧ (w.thisEpochView 1).stake ≠
        ∑ a, ((w.delegator 1 a).stake +
          (if 1 ≤ (w.delegator 1 a).deltaEpoch ∧ (w.delegator 1 a).deltaEpoch ≤ w.epoch then
            (w.delegator 1 a).deltaStake else 0) +
          (if 1 ≤ (w.delegator 1 a).nextDeltaEpoch ∧ (w.delegator 1 a).nextDeltaEpoch ≤ w.epoch then
            (w.delegator 1 a).nextDeltaStake else 0)) +
        ∑ j : Address × WithdrawalId, if w.epoch < (w.withdrawalRequest 1 j.1 j.2).epoch then
            (w.withdrawalRequest 1 j.1 j.2).amount else 0 := by
  intro calls w
  obtain ⟨hrun, hne, hlast, hstk⟩ : Conforms .five .acceptAll calls ∧ (w.thisEpochView 1).stake ≠ 0 ∧
    w.epoch + 1 = uint64Size ∧ ((after .five .acceptAll calls).pool 1).stake < (w.thisEpochView 1).stake := by decide +kernel
  have hdels := (counted_after .five .acceptAll calls 1).sum_active_le w.epoch
  have hreqs : ∑ j : Address × WithdrawalId, (if w.epoch < (w.withdrawalRequest 1 j.1 j.2).epoch then
        (w.withdrawalRequest 1 j.1 j.2).amount else 0) = 0 := by
    refine sum_eq_zero fun j _ => if_neg ?_
    have hj : (w.withdrawalRequest 1 j.1 j.2).epoch < uint64Size :=
      pool_after .five .acceptAll (fun _ => uint64Size_pos) Pool.request_lt_step calls 1 j
    omega
  refine ⟨hrun, hne, ?_⟩
  rw [hreqs, add_zero]
  exact (lt_of_le_of_lt hdels hstk).ne'

end MonadExecution.Staking
