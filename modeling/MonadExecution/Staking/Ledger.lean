import MonadExecution.Staking.Pool

/-!
# The stake ledger of a pool

The stake of a pool is the sum of what its delegators hold, active and staged. This needs that a
bucket without an epoch is empty, since promoting the second bucket overwrites the first one. It
holds as long as no epoch a bucket can wait for is beyond 64 bits: the `horizon` of the pool.
-/

namespace MonadExecution.Staking

open Function Delegator Nat

/-- All the stake of a delegator, active and staged. -/
def Delegator.held (d : Delegator) : Nat := d.stake + d.deltaStake + d.nextDeltaStake

namespace Pool

variable {ι κ : Type} [DecidableEq ι] [DecidableEq κ] {p p' : Pool ι κ} {a : ι}

/-- The last epoch that somebody can wait for. -/
def horizon (p : Pool ι κ) : Nat := if p.inDelay then p.epoch + 2 else p.epoch + 1

omit [DecidableEq ι] [DecidableEq κ] in
theorem activation_eq (p : Pool ι κ) : p.activation = p.horizon % uint64Size := by
  unfold activation horizon
  split_ifs <;> rfl

omit [DecidableEq ι] [DecidableEq κ] in
theorem activation_of_horizon (h : p.horizon < uint64Size) : p.activation = p.horizon := by
  rw [activation_eq, mod_eq_of_lt h]

omit [DecidableEq ι] [DecidableEq κ] in
theorem epoch_lt_horizon (p : Pool ι κ) : p.epoch < p.horizon := by
  unfold horizon
  split_ifs <;> omega

omit [DecidableEq ι] [DecidableEq κ] in
theorem horizon_le (p : Pool ι κ) : p.horizon ≤ p.epoch + 2 := by
  unfold horizon
  split_ifs <;> omega

omit [DecidableEq κ] in
@[simp]
theorem horizon_pull (a : ι) (p : Pool ι κ) : (p.pull a).horizon = p.horizon := by simp [horizon]

omit [DecidableEq κ] in
@[simp]
theorem activation_pull (a : ι) (p : Pool ι κ) : (p.pull a).activation = p.activation := by simp [activation]

variable {op : Op ι κ} {d : Delegator} {q : Pool ι κ}

/-- The horizon never moves back. -/
theorem horizon_step (h : Step op p p') : p.horizon ≤ p'.horizon := by
  cases h with
  | @changeEpoch _ next listed he hn =>
    have hle := horizon_le p
    have hnew : (p.changeEpoch next listed).horizon = next + 1 := by simp [horizon]
    omega
  | takeSnapshot hd =>
    simp only [horizon, takeSnapshot_inDelay, takeSnapshot_epoch, hd, Bool.false_eq_true, if_false, if_true]
    omega
  | compound safe hr hq hs safe' hb => simp [horizon, ← hq]
  | _ => simp [horizon]

theorem epoch_step (h : Step op p p') : p.epoch ≤ p'.epoch := by
  cases h with
  | changeEpoch he hn => exact he.le
  | compound safe hr hq hs safe' hb => simp [← hq]
  | _ => simp

/-! ## Buckets without an epoch -/

/-- A bucket without an epoch is empty. -/
structure EmptyWithoutEpoch (d : Delegator) : Prop where
  delta : d.deltaEpoch = 0 → d.deltaStake = 0
  next : d.nextDeltaEpoch = 0 → d.nextDeltaStake = 0

section

variable (h : EmptyWithoutEpoch d)

include h

theorem EmptyWithoutEpoch.promote : EmptyWithoutEpoch (promoteDelta d) := ⟨h.next, fun _ => rfl⟩

theorem EmptyWithoutEpoch.compounded (acc r : Nat) : EmptyWithoutEpoch (d.compounded acc r) := ⟨h.next, fun _ => rfl⟩

theorem EmptyWithoutEpoch.staged {inDelay : Bool} {s epoch : Nat} (hep : epoch ≠ 0) :
    EmptyWithoutEpoch (d.staged inDelay s epoch) := by
  unfold Delegator.staged
  split_ifs
  · exact ⟨h.delta, fun h0 => absurd h0 hep⟩
  · exact ⟨fun h0 => absurd h0 hep, h.next⟩

/-! Folding buckets in keeps what a delegator holds. -/

theorem held_promoteDelta (h0 : d.deltaEpoch = 0) : (promoteDelta d).held = d.held := by
  have := h.delta h0
  simp only [held, promoteDelta]
  omega

end

theorem held_compounded (d : Delegator) (acc r : Nat) : (d.compounded acc r).held = d.held := by simp [held]

theorem held_settled (d : Delegator) (acc r : Nat) : (d.settled acc r).held = d.held := rfl

theorem held_staged (d : Delegator) (inDelay : Bool) (s epoch : Nat) :
    (d.staged inDelay s epoch).held = d.held + s := by
  unfold staged held
  split_ifs <;> simp only <;> omega

theorem held_lowered {out : Nat} (h : out ≤ d.stake) : (d.lowered out).held + out = d.held := by
  simp only [held, lowered]
  omega

/-- What happens to the records of the delegators in an operation that moves no stake. -/
structure SameHeld (p q : Pool ι κ) : Prop where
  held : ∀ b, (q.del b).held = (p.del b).held
  empty : ∀ b, EmptyWithoutEpoch (q.del b)
  stake : q.stake = p.stake

omit [DecidableEq ι] [DecidableEq κ] in
theorem SameHeld.refl (h : ∀ b, EmptyWithoutEpoch (p.del b)) : SameHeld p p := ⟨fun _ => rfl, h, rfl⟩

omit [DecidableEq κ] in
theorem SameHeld.update (hq : SameHeld p q) {q' : Pool ι κ} (hdel : q'.del = update q.del a d)
    (hheld : d.held = (q.del a).held) (hemp : EmptyWithoutEpoch d) (hstk : q'.stake = q.stake) :
    SameHeld p q' := by
  refine ⟨fun b => ?_, fun b => ?_, hstk.trans hq.stake⟩ <;> rw [hdel] <;>
    rcases eq_or_ne b a with rfl | hb
  · rw [update_self, hheld, hq.held]
  · rw [update_of_ne hb, hq.held]
  · rwa [update_self]
  · rw [update_of_ne hb]
    exact hq.empty b

omit [DecidableEq κ] in
theorem sameHeld_pull (h : ∀ b, EmptyWithoutEpoch (p.del b)) (safe : p.PullSafe a) : SameHeld p (p.pull a) := by
  refine pull_induct (P := fun q => SameHeld p q) safe ?_ ?_ ?_
  · refine (SameHeld.refl h).update (promote_del a p) ?_ ?_ rfl
    · split_ifs with hp
      · simp only [canPromoteDelta, Bool.and_eq_true, beq_iff_eq] at hp
        exact held_promoteDelta (h a) hp.1
      · rfl
    · split_ifs
      · exact (h a).promote
      · exact h a
  · intro q hq _ _
    exact hq.update (compound_del a q) (held_compounded _ _ _) ((hq.empty a).compounded _ _) rfl
  · intro q hq _ _ _
    exact hq.update (settle_del a q) (held_settled _ _ _) ⟨(hq.empty a).delta, (hq.empty a).next⟩ rfl

omit [DecidableEq κ] in
/-- A pull for `a` does not touch the others. -/
theorem del_pull_of_ne {b : ι} (hb : b ≠ a) (p : Pool ι κ) : (p.pull a).del b = p.del b := by
  unfold pull settleIfStaked foldBuckets
  split_ifs <;> simp [update_of_ne hb]

omit [DecidableEq ι] [DecidableEq κ] in
theorem leaving_le {amount : Nat} (h : amount ≤ (p.del a).stake) : p.leaving a amount ≤ (p.del a).stake := by
  unfold leaving
  split_ifs
  · exact le_refl _
  · exact h

theorem Step.safe_of_compound (h : Step (.compound a) p p') : p.PullSafe a := by
  cases h with
  | compoundNothing safe h0 => exact safe
  | compound safe hr hq hs safe' hb => exact safe

omit [DecidableEq κ] in
theorem sameHeld_takeRewards (hq : SameHeld p q) (a : ι) : SameHeld p (q.takeRewards a) :=
  hq.update (takeRewards_del a q) rfl ⟨(hq.empty a).delta, (hq.empty a).next⟩ rfl

/-- What an operation does to the holdings of a delegator `b`. -/
theorem held_step (hstep : Step op p p') (h : ∀ b, EmptyWithoutEpoch (p.del b)) (b : ι) :
    match op with
    | .delegate a s => (p'.del b).held = (p.del b).held + if b = a then s else 0
    | .undelegate a _ _ => (p'.del b).held ≤ (p.del b).held ∧ (b ≠ a → (p'.del b).held = (p.del b).held)
    | .compound a => (p.del b).held ≤ (p'.del b).held ∧ (b ≠ a → (p'.del b).held = (p.del b).held)
    | _ => (p'.del b).held = (p.del b).held := by
  cases hstep with
  | idle | withdraw | changeEpoch | takeSnapshot => rfl
  | pull safe => exact (sameHeld_pull h safe).held b
  | @delegate _ a s hs safe hr =>
    have hpull := (sameHeld_pull h safe).held b
    rcases eq_or_ne b a with rfl | hb
    · simp [held_staged, hpull]
    · simp [hb, hpull]
  | @undelegate _ a i amount h0 hw safe hx hl =>
    have hpull := (sameHeld_pull h safe).held b
    rcases eq_or_ne b a with rfl | hb
    · have hlow := held_lowered (leaving_le hx)
      simp only [lower_del, update_self, ne_eq, not_true_eq_false, false_implies, and_true]
      omega
    · simp [hb, hpull]
  | @compoundNothing _ a safe h0 =>
    have hheld := (sameHeld_takeRewards (sameHeld_pull h safe) a).held b
    exact ⟨hheld.ge, fun _ => hheld⟩
  | @compound _ _ a r safe hr hq hs safe' hb =>
    have hsame := sameHeld_takeRewards (sameHeld_pull h safe) a
    rw [hq] at hsame
    have hpull := ((sameHeld_pull hsame.empty safe').held b).trans (hsame.held b)
    rcases eq_or_ne b a with rfl | hb
    · simp [held_staged, hpull]
    · simp [hb, hpull]
  | @claim _ a safe => exact (sameHeld_takeRewards (sameHeld_pull h safe) a).held b
  | @reward _ auth commission r hv =>
    rw [reward_del]
    rcases eq_or_ne b auth with rfl | hb
    · rw [update_self]
      rfl
    · rw [update_of_ne hb]

/-- Compounding nothing moves no stake, and compounding something leaves the delegator with
stake. -/
theorem held_compound (hstep : Step (.compound a) p p') (h : ∀ b, EmptyWithoutEpoch (p.del b)) :
    if ((p.pull a).del a).rewards = 0 then (p'.del a).held = (p.del a).held
    else (p'.del a).held ≠ 0 := by
  have hdust : 0 < Limits.dustThreshold := by decide
  cases hstep with
  | compoundNothing safe h0 =>
    rw [if_pos h0]
    exact (sameHeld_takeRewards (sameHeld_pull h safe) a).held a
  | compound safe hr hq hs safe' hb =>
    rw [if_neg (by omega)]
    simp only [stage_del, update_self, held_staged]
    omega

/-! ## The ledger -/

section Ledger

variable [Fintype ι]

structure Ledger (p : Pool ι κ) : Prop where
  empty : ∀ a, EmptyWithoutEpoch (p.del a)
  stake_eq : p.stake = ∑ a, (p.del a).held
  stake_lt : p.stake < uint256Size

section

variable (h : p.Ledger)

include h

omit [DecidableEq ι] [DecidableEq κ] in
theorem Ledger.held_le (a : ι) : (p.del a).held ≤ p.stake := by
  rw [h.stake_eq]
  exact Finset.single_le_sum (f := fun a => (p.del a).held) (fun _ _ => zero_le _) (Finset.mem_univ a)

omit [DecidableEq ι] [DecidableEq κ] in
/-- The unchecked sum of the source does not wrap around. -/
theorem Ledger.getNextEpochStake (a : ι) : (p.del a).getNextEpochStake = (p.del a).held :=
  mod_eq_of_lt (lt_of_le_of_lt (h.held_le a) h.stake_lt)

omit [DecidableEq ι] [DecidableEq κ] in
theorem Ledger.of_sameHeld (hq : SameHeld p q) : q.Ledger where
  empty := hq.empty
  stake_eq := by simp only [hq.stake, h.stake_eq, hq.held]
  stake_lt := by rw [hq.stake]; exact h.stake_lt

omit [DecidableEq κ] in
theorem Ledger.pull (safe : p.PullSafe a) : (p.pull a).Ledger := h.of_sameHeld (sameHeld_pull h.empty safe)

omit [DecidableEq κ] in
theorem Ledger.takeRewards (a : ι) : (p.takeRewards a).Ledger :=
  h.of_sameHeld (sameHeld_takeRewards (SameHeld.refl h.empty) a)

omit [DecidableEq κ] in
theorem Ledger.stage {s : Nat} (hf : p.activation ≠ 0) (hs : p.stake + s < uint256Size) : (p.stage a s).Ledger where
  empty b := by
    rw [stage_del]
    rcases eq_or_ne b a with rfl | hb
    · rw [update_self]
      exact (h.empty b).staged hf
    · rw [update_of_ne hb]
      exact h.empty b
  stake_eq := by
    have hsum := sum_update held p.del a ((p.del a).staged p.inDelay s p.activation)
    have hstk := h.stake_eq
    rw [held_staged] at hsum
    simp only [stage_stake, stage_del]
    omega
  stake_lt := hs

theorem Ledger.lower {i : κ} {amount : Nat} (hx : amount ≤ (p.del a).stake) : (p.lower a i amount).Ledger where
  empty b := by
    rw [lower_del]
    rcases eq_or_ne b a with rfl | hb
    · rw [update_self]
      exact ⟨(h.empty b).delta, (h.empty b).next⟩
    · rw [update_of_ne hb]
      exact h.empty b
  stake_eq := by
    have hsum := sum_update held p.del a ((p.del a).lowered (p.leaving a amount))
    have hlow := held_lowered (leaving_le hx)
    have hstk := h.stake_eq
    simp only [lower_stake, lower_del]
    omega
  stake_lt := by
    have := h.stake_lt
    simp only [lower_stake]
    omega

end

/-- Every operation keeps the ledger, within the horizon. -/
theorem Ledger.step (hstep : Step op p p') (hh : p'.horizon < uint64Size) (h : p.Ledger) : p'.Ledger := by
  have hp : p.horizon < uint64Size := (horizon_step hstep).trans_lt hh
  have hactv : p.activation ≠ 0 := by
    have := epoch_lt_horizon p
    rw [activation_of_horizon hp]
    omega
  cases hstep with
  | idle => exact h
  | pull safe => exact h.pull safe
  | delegate hs safe hr => exact (h.pull safe).stage (by rwa [activation_pull]) hr
  | undelegate h0 hw safe hx hl => exact (h.pull safe).lower hx
  | compoundNothing safe h0 => exact (h.pull safe).takeRewards _
  | @compound _ _ a _ safe hr hq hs safe' hb =>
    have hq' := (h.pull safe).takeRewards a
    rw [hq] at hq'
    refine (hq'.pull safe').stage ?_ hb
    rw [activation_pull, ← hq]
    simpa [activation] using hactv
  | withdraw | changeEpoch | takeSnapshot => exact ⟨h.empty, h.stake_eq, h.stake_lt⟩
  | claim safe => exact (h.pull safe).takeRewards _
  | @reward _ auth commission r hv =>
    exact h.of_sameHeld ((SameHeld.refl h.empty).update (reward_del auth commission r p) rfl
      ⟨(h.empty auth).delta, (h.empty auth).next⟩ rfl)

end Ledger

end Pool

end MonadExecution.Staking
