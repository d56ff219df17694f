import MonadExecution.Staking.Calldata

/-!
# Token accounting

A pool holds the stake, the rewards that nobody has settled yet, the rewards settled with a
delegator, and the amounts of the withdrawal requests. Every operation moves tokens between these
ledgers, or in and out of the pool, and the contract's balance moves with it.
-/

namespace MonadExecution.Staking

open Program Function Finset World Delegator Nat

namespace Pool

section Total

variable {ι κ : Type} [Fintype ι] [Fintype κ] [DecidableEq ι] [DecidableEq κ] {p p' : Pool ι κ}
  {a : ι} {op : Op ι κ}

/-- All that a pool holds. -/
def total (p : Pool ι κ) : Nat := p.stake + p.unclaimed + ∑ a, (p.del a).rewards + ∑ j, (p.request j).amount

/-- What an operation brings into the pool. -/
def Op.inflow : Op ι κ → Nat
  | .delegate _ s => s
  | .reward _ commission r => commission + r
  | _ => 0

/-- What an operation pays out of the pool. -/
def Op.outflow (p : Pool ι κ) : Op ι κ → Nat
  | .withdraw a i => (p.request (a, i)).amount + p.requestReward (a, i)
  | .claim a => ((p.pull a).del a).rewards
  | _ => 0

/-! The rewards of one delegator change at a time, and so do the requests. -/

omit [Fintype κ] [DecidableEq κ] in
theorem sum_rewards_update (d : Delegator) : ∑ x, (update p.del a d x).rewards + (p.del a).rewards =
    ∑ x, (p.del x).rewards + d.rewards :=
  sum_update rewards p.del a d

theorem sum_amount_update (j : ι × κ) (r : WithdrawalRequest) :
    ∑ x, (update p.request j r x).amount + (p.request j).amount = ∑ x, (p.request x).amount + r.amount :=
  sum_update WithdrawalRequest.amount p.request j r

omit [DecidableEq κ] in
theorem total_promote (a : ι) (p : Pool ι κ) : (p.promote a).total = p.total := by
  have h := sum_rewards_update (p := p) (a := a)
    (if canPromoteDelta (p.del a) p.epoch then promoteDelta (p.del a) else p.del a)
  have hsame : (if canPromoteDelta (p.del a) p.epoch then promoteDelta (p.del a)
      else p.del a).rewards = (p.del a).rewards := by split_ifs <;> rfl
  simp only [total, promote]
  omega

omit [DecidableEq κ] in
theorem total_compound (can : p.CanCompound a) : (p.compound a).total = p.total := by
  have h := sum_rewards_update (p := p) (a := a) ((p.del a).compounded (p.bucketAcc a) (p.compoundReward a))
  have hle := can.solvent
  simp only [compounded_rewards] at h
  simp only [total, compound]
  omega

omit [DecidableEq κ] in
theorem total_settle (can : p.CanSettle a) : (p.settle a).total = p.total := by
  have h := sum_rewards_update (p := p) (a := a) ((p.del a).settled p.acc (p.settleReward a))
  have hle := can.solvent
  simp only [settled_rewards] at h
  simp only [total, settle]
  omega

omit [DecidableEq κ] in
/-- A pull only moves rewards within the pool. -/
theorem total_pull (safe : p.PullSafe a) : (p.pull a).total = p.total :=
  pull_induct (P := fun q => q.total = p.total) safe (total_promote a p)
    (fun _ hq _ can => (total_compound can).trans hq)
    (fun _ hq _ _ can => (total_settle can).trans hq)

omit [DecidableEq κ] in
theorem total_stage (s : Nat) : (p.stage a s).total = p.total + s := by
  have h := sum_rewards_update (p := p) (a := a) ((p.del a).staged p.inDelay s p.activation)
  have hsame : ((p.del a).staged p.inDelay s p.activation).rewards = (p.del a).rewards := by
    unfold staged
    split_ifs <;> rfl
  simp only [total, stage]
  omega

theorem total_lower {i : κ} {amount : Nat} (hw : (p.request (a, i)).hasValue = false)
    (hl : p.leaving a amount ≤ p.stake) : (p.lower a i amount).total = p.total := by
  have h := sum_rewards_update (p := p) (a := a) ((p.del a).lowered (p.leaving a amount))
  have hj := sum_amount_update (p := p) (a, i)
    { amount := p.leaving a amount, acc := (p.del a).accumulatedRewardPerToken,
      epoch := p.activation }
  have hfree : (p.request (a, i)).amount = 0 := by
    simp [WithdrawalRequest.hasValue] at hw
    omega
  simp only [lowered_rewards] at h
  dsimp only at hj
  simp only [total, lower]
  omega

omit [DecidableEq κ] in
theorem total_takeRewards (a : ι) (p : Pool ι κ) : (p.takeRewards a).total + (p.del a).rewards = p.total := by
  have h := sum_rewards_update (p := p) (a := a) { p.del a with rewards := 0 }
  dsimp only at h
  simp only [total, takeRewards]
  omega

theorem total_redeem {i : κ} (can : p.CanRedeem (a, i)) :
    (p.redeem a i).total + ((p.request (a, i)).amount + p.requestReward (a, i)) = p.total := by
  have h := sum_amount_update (p := p) (a, i) {}
  have hle := can.solvent
  dsimp only at h
  simp only [total, redeem]
  omega

omit [DecidableEq κ] in
theorem total_reward (auth : ι) (commission r : Nat) (p : Pool ι κ) :
    (p.reward auth commission r).total = p.total + (commission + r) := by
  have h := sum_rewards_update (p := p) (a := auth)
    { p.del auth with rewards := (p.del auth).rewards + commission }
  dsimp only at h
  simp only [total, reward_stake, reward_unclaimed, reward_del, reward_request]
  omega

/-- No operation makes or loses tokens. -/
theorem total_step (h : Step op p p') : p'.total + op.outflow p = p.total + op.inflow := by
  cases h with
  | idle => rfl
  | pull safe => simp only [Op.outflow, Op.inflow, total_pull safe]
  | delegate hs safe hr => simp only [Op.outflow, Op.inflow, total_stage, total_pull safe, add_zero]
  | @undelegate _ a i amount h0 hw safe hx hl =>
    have hfree : ((p.pull a).request (a, i)).hasValue = false := by rwa [request_pull]
    simp only [Op.outflow, Op.inflow, total_lower hfree hl, total_pull safe]
  | @compoundNothing _ a safe h0 =>
    have h := total_takeRewards a (p.pull a)
    rw [h0, total_pull safe] at h
    exact h
  | @compound _ _ a _ safe hr hq hs safe' hb =>
    have h := total_takeRewards a (p.pull a)
    rw [hr, hq, total_pull safe] at h
    simp only [Op.outflow, Op.inflow, total_stage, total_pull safe', add_zero, h]
  | withdraw hw ready can => simp only [Op.outflow, Op.inflow, add_zero, total_redeem can]
  | @claim _ a safe =>
    have h := total_takeRewards a (p.pull a)
    rw [total_pull safe] at h
    exact h
  | reward hv => simp only [Op.outflow, Op.inflow, add_zero, total_reward]
  | changeEpoch he hn => rfl
  | takeSnapshot hd => rfl

end Total

end Pool

/-! ## The contract -/

/-- All that the contract holds for somebody: the stakes and the unclaimed rewards of the pools,
the rewards of the delegators and the amounts of the withdrawal requests. -/
def World.liabilities (w : World) : Nat :=
  ∑ v, ((w.valExecution v).stake + (w.valExecution v).unclaimedRewards) +
    ∑ v, ∑ a, (w.delegator v a).rewards + ∑ v, ∑ a, ∑ i, (w.withdrawalRequest v a i).amount

theorem liabilities_eq (w : World) : w.liabilities = ∑ v, (w.pool v).total := by
  simp only [liabilities, Pool.total, sum_add_distrib, Fintype.sum_prod_type,
    pool_stake, pool_unclaimed, pool_del, pool_request]

namespace Action

/-- What an action brings into the contract. -/
def inflow : Action → Nat
  | .addValidator _ s | .delegate _ _ s => s
  | .externalReward _ _ r | .blockReward _ r => r
  | _ => 0

/-- What an action pays out of the contract. -/
def outflow (w : World) : Action → Nat
  | .withdraw v a i => ((w.pool v).request (a, i)).amount + (w.pool v).requestReward (a, i)
  | .claim v a => (((w.pool v).pull a).del a).rewards
  | _ => 0

/-- Who is paid. -/
def payee : Action → Option Address
  | .withdraw _ a _ | .claim _ a => some a
  | _ => none

theorem inflow_or_outflow (w : World) (act : Action) : act.inflow = 0 ∨ act.outflow w = 0 := by
  cases act <;> simp [inflow, outflow]

end Action

section Flows

variable {rev : MonadRevision} {w w' : World} {act : Action}

theorem sum_inflow_opAt (v : ValId) (op : Pool.Op Address WithdrawalId) : ∑ u, (opAt u v op).inflow = op.inflow := by
  rw [sum_eq_single v]
  · simp [opAt]
  · intro u _ hu
    simp [opAt, hu, Pool.Op.inflow]
  · intro h
    exact absurd (mem_univ v) h

theorem sum_outflow_opAt (w : World) (v : ValId) (op : Pool.Op Address WithdrawalId) :
    ∑ u, (opAt u v op).outflow (w.pool u) = op.outflow (w.pool v) := by
  rw [sum_eq_single v]
  · simp [opAt]
  · intro u _ hu
    simp [opAt, hu, Pool.Op.outflow]
  · intro h
    exact absurd (mem_univ v) h

/-- The pools together take in what the action brings. -/
theorem sum_inflow (hc : act.CommissionFits w) : ∑ u, (act.op w u).inflow = act.inflow := by
  cases act with
  | blockReward author rawReward =>
    have hle : w.commissionOf (w.valId author) rawReward ≤ rawReward := hc
    simp only [Action.op, sum_inflow_opAt, Action.inflow]
    simp only [Pool.Op.inflow]
    omega
  | _ =>
    simp only [Action.op, sum_inflow_opAt, Action.inflow]
    simp only [Pool.Op.inflow, sum_const_zero, zero_add]

/-- The pools together pay what the action pays. -/
theorem sum_outflow (w : World) (act : Action) : ∑ u, (act.op w u).outflow (w.pool u) = act.outflow w := by
  cases act with
  | _ =>
    simp only [Action.op, sum_outflow_opAt, Action.outflow]
    simp only [Pool.Op.outflow, sum_const_zero]

theorem liabilities_takeSnapshot (w : World) : w.takeSnapshot.liabilities = w.liabilities := by
  obtain ⟨_, _, h, -, -⟩ := takeSnapshot_spec w
  rw [h]
  rfl

theorem liabilities_effect (h : Effect rev w act w') :
    w'.liabilities + act.outflow w = w.liabilities + act.inflow := by
  cases h with
  | performed step registry balance commission =>
    have hsum : ∑ u, ((w'.pool u).total + (act.op w u).outflow (w.pool u)) =
        ∑ u, ((w.pool u).total + (act.op w u).inflow) :=
      sum_congr rfl fun u _ => Pool.total_step (step u)
    rw [sum_add_distrib, sum_add_distrib, sum_outflow, sum_inflow commission,
      ← liabilities_eq, ← liabilities_eq] at hsum
    exact hsum
  | snapshot hd =>
    rw [liabilities_takeSnapshot]
    rfl

theorem paidOut_self (x : Nat) (b : Address → Nat) : paidOut stakingCa x b stakingCa = b stakingCa := by
  simp [paidOut]

theorem paidOut_other {a : Address} (h : a ≠ stakingCa) (x : Nat) (b : Address → Nat) :
    paidOut a x b stakingCa = b stakingCa - x := by simp [paidOut, update_of_ne h.symm]

/-- A payment to anybody else lowers the balance of the contract. -/
theorem balance_payee (hp : act.payee ≠ some stakingCa) (ho : act.outflow w ≤ w.balance stakingCa) :
    act.balance w stakingCa + act.outflow w = w.balance stakingCa + act.inflow := by
  cases act with
  | withdraw v a i | claim v a =>
    have ha : a ≠ stakingCa := fun h => hp (by rw [h]; rfl)
    simp only [Action.balance, Action.inflow, Action.outflow] at ho ⊢
    rw [paidOut_other ha]
    omega
  | _ => simp only [Action.balance, Action.inflow, Action.outflow, credited, update_self, add_zero]

/-- A payment of the contract to itself changes nothing. -/
theorem balance_payee_self (hp : act.payee = some stakingCa) : act.balance w stakingCa = w.balance stakingCa := by
  cases act with
  | withdraw v a i | claim v a =>
    obtain rfl : a = stakingCa := by simpa [Action.payee] using hp
    exact paidOut_self _ _
  | _ => cases hp

section

variable (h : Effect rev w act w')

include h

theorem balance_effect : w'.balance = act.balance w := by
  cases h with
  | performed step registry balance commission => exact balance
  | snapshot hd =>
    obtain ⟨_, _, h, -, -⟩ := takeSnapshot_spec w
    rw [h]
    rfl

theorem outflow_le : act.outflow w ≤ w.liabilities := by
  have hflow := liabilities_effect h
  rcases act.inflow_or_outflow w with h0 | h0 <;> omega

/-- The balance covers the liabilities, whoever is paid. -/
theorem effect_backed (hb : w.liabilities ≤ w.balance stakingCa) : w'.liabilities ≤ w'.balance stakingCa := by
  have hflow := liabilities_effect h
  have hout := outflow_le h
  rw [balance_effect h]
  by_cases hp : act.payee = some stakingCa
  · have hin : act.inflow = 0 := by
      rcases act.inflow_or_outflow w with h0 | h0
      · exact h0
      · cases act <;> first | rfl | cases hp
    rw [balance_payee_self hp]
    omega
  · have hbal := balance_payee hp (hout.trans hb)
    omega

/-- What the contract pays to itself stays in its balance and is in no ledger any more. -/
theorem effect_self_payment (hp : act.payee = some stakingCa) (hout : 0 < act.outflow w)
    (hb : w.liabilities ≤ w.balance stakingCa) : w'.liabilities < w'.balance stakingCa := by
  have hflow := liabilities_effect h
  have hin : act.inflow = 0 := by
    rcases act.inflow_or_outflow w with h0 | h0 <;> omega
  rw [balance_effect h, balance_payee_self hp]
  omega

/-- The balance is the liabilities, as long as the contract does not pay itself. -/
theorem effect_exact (hp : act.payee ≠ some stakingCa) (hb : w.balance stakingCa = w.liabilities) :
    w'.balance stakingCa = w'.liabilities := by
  have hflow := liabilities_effect h
  have hbal := balance_payee hp ((outflow_le h).trans hb.ge)
  rw [balance_effect h]
  omega

end

end Flows

/-! ## Runs -/

def Call.sender : Call → Address
  | .precompile _ sender _ _ => sender
  | .system _ _ => systemSender

theorem payee_decoded {α : Type} {x : Except Error α} {f : α → Action} {a : Address}
    (h : (decoded x f).payee = some a) : ∃ y, x = .ok y ∧ (f y).payee = some a := by
  match x, h with
  | .ok y, h => exact ⟨y, rfl, h⟩
  | .error _, h => cases h

/-- Only the sender of a call is paid by it. -/
theorem sender_of_payee {rev : MonadRevision} {c : Call} {a : Address}
    (h : (c.action rev).payee = some a) : c.sender = a := by
  cases c with
  | precompile input sender value gas =>
    simp only [Call.action] at h
    generalize (precompileDispatch rev input).1.1 = method at h
    cases method with
    | withdraw | claimRewards =>
      obtain ⟨y, -, hy⟩ := payee_decoded h
      exact Option.some.inj hy
    | delegate | undelegate =>
      obtain ⟨y, -, hy⟩ := payee_decoded h
      split_ifs at hy <;> cases hy
    | addValidator | compound | changeCommission | externalReward | getDelegator =>
      obtain ⟨y, -, hy⟩ := payee_decoded h
      cases hy
    | _ => cases h
  | system calldata value =>
    simp only [Call.action] at h
    split_ifs at h
    · cases h
    generalize syscallDispatch calldata = dispatch at h
    obtain ⟨syscall, input⟩ := dispatch
    cases syscall with
    | none => cases h
    | some syscall =>
      cases syscall with
      | snapshot => cases h
      | reward | onEpochChange =>
        obtain ⟨y, -, hy⟩ := payee_decoded h
        cases hy

section Runs

variable (rev : MonadRevision) (crypto : Crypto)

theorem liabilities_empty : empty.liabilities = 0 := by
  rw [liabilities_eq]
  refine sum_eq_zero fun v _ => ?_
  have hrew : ∑ a, ((empty.pool v).del a).rewards = 0 := sum_eq_zero fun _ _ => rfl
  have hamount : ∑ j, ((empty.pool v).request j).amount = 0 := sum_eq_zero fun _ _ => rfl
  rw [Pool.total, hrew, hamount]
  rfl

theorem backed_after (calls : List Call) :
    (after rev crypto calls).liabilities ≤ (after rev crypto calls).balance stakingCa := by
  induction calls with
  | nil => exact liabilities_empty.le
  | cons c calls ih =>
    rw [after]
    rcases exec_cases rev crypto (after rev crypto calls) c with h | h
    · exact effect_backed h ih
    rw [h]
    exact ih

theorem exact_after (calls : List Call) (hs : ∀ c ∈ calls, c.sender ≠ stakingCa) :
    (after rev crypto calls).balance stakingCa = (after rev crypto calls).liabilities := by
  induction calls with
  | nil => exact liabilities_empty.symm
  | cons c calls ih =>
    have hcalls := ih fun c' hc' => hs c' (List.mem_cons_of_mem c hc')
    have hsen := hs c List.mem_cons_self
    rw [after]
    rcases exec_cases rev crypto (after rev crypto calls) c with h | h
    · exact effect_exact h (fun hp => hsen (sender_of_payee hp)) hcalls
    rw [h]
    exact hcalls

/-- Rewards that are about to be paid are covered. -/
theorem funded_of_backed {w : World} (hb : w.liabilities ≤ w.balance stakingCa) (act : Action) : act.Funded w := by
  cases act with
  | claim v a =>
    intro safe
    have hrew : (((w.pool v).pull a).del a).rewards ≤ ((w.pool v).pull a).total := by
      have h := Pool.total_takeRewards a ((w.pool v).pull a)
      omega
    have htotal : (w.pool v).total ≤ w.liabilities := by
      rw [liabilities_eq]
      exact single_le_sum (f := fun v => (w.pool v).total) (fun _ _ => zero_le _) (mem_univ v)
    rw [Pool.total_pull safe] at hrew
    omega
  | _ => trivial

/-- Tokens of the contract are accounted for exactly in every run in which the contract is not the
sender of a call; with any senders they cover the ledgers, and no payment finds too few. -/
theorem balance_eq_liabilities (calls : List Call) : ((∀ c ∈ calls, c.sender ≠ stakingCa) →
      (after rev crypto calls).balance stakingCa = (after rev crypto calls).liabilities) ∧
    (after rev crypto calls).liabilities ≤ (after rev crypto calls).balance stakingCa ∧
    ∀ c, (exec rev crypto c (after rev crypto calls)).1 ≠ .error (.exception .balanceUnderflow) := by
  refine ⟨exact_after rev crypto calls, backed_after rev crypto calls, fun c he => ?_⟩
  have hfunded := funded_of_backed (backed_after rev crypto calls) (c.action rev)
  exact (exec_error rev crypto _ he).2.1 hfunded rfl

end Runs

/-- Somebody registers a validator and delegates to it. -/
theorem balance_eq_liabilities_registered :
    let calls := [Call.delegate 1 9 Limits.dustThreshold, Call.register 7 8 0 9 (100000 * mon)]
    (∀ c ∈ calls, c.sender ≠ stakingCa) ∧
      (after .five .acceptAll calls).balance stakingCa = (after .five .acceptAll calls).liabilities := by
  intro calls
  have hs : ∀ c ∈ calls, c.sender ≠ stakingCa := by decide +kernel
  exact ⟨hs, (balance_eq_liabilities .five .acceptAll calls).1 hs⟩

/-- A run in which the contract is the delegator of a validator: it undelegates, waits, and is
about to withdraw. -/
def selfDelegation : List Call :=
  [.onEpochChange 3, .onEpochChange 2, .undelegate 1 Limits.dustThreshold 0 stakingCa,
    .onEpochChange 1, .register 7 stakingCa 0 9 (100000 * mon)]

/-- A withdrawal of the contract from itself closes the request and leaves the balance as it is. -/
theorem balance_ne_liabilities_selfPayment :
    (after .five .acceptAll (.withdraw 1 0 stakingCa :: selfDelegation)).balance stakingCa ≠
      (after .five .acceptAll (.withdraw 1 0 stakingCa :: selfDelegation)).liabilities := by
  have hok : (exec .five .acceptAll (.withdraw 1 0 stakingCa)
      (after .five .acceptAll selfDelegation)).1 = .ok .success := by decide +kernel
  have hamount : ((after .five .acceptAll selfDelegation).withdrawalRequest 1 stakingCa 0).amount ≠
      0 := by decide +kernel
  have heffect := exec_ok .five .acceptAll _ hok
  have hlt := effect_self_payment heffect rfl
    (Nat.add_pos_left (Nat.pos_of_ne_zero hamount) _) (backed_after .five .acceptAll selfDelegation)
  exact hlt.ne'

end MonadExecution.Staking
