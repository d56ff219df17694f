import MonadExecution.Staking.Calldata
import MonadExecution.Staking.Protocol

/-!
# The validator sets and the flags, in the words of the contract

`Roster` keeps the sets in order after any calls. The flag `Withdrawn` tells besides whether the auth
address of a validator holds too little. It looks at all the stake of that delegator, staged stake
included, and it is exact as long as the epochs do not run out: in the last 64-bit epoch the buckets
wait for epoch 0, and the next pull drops them.
-/

namespace MonadExecution.Staking

open Program Function Pool Registry Limits

/-! ## The withdrawn flag -/

/-- The flag of `v` tells whether its auth address holds too little; `held` are the holdings with
every validator. -/
def WithdrawnExact (r : Registry) (held : ValId → Address → Nat) (v : ValId) : Prop :=
  r.authAddress v ≠ 0 → ((r.flags v).getLsbD 1 = true ↔ held v (r.authAddress v) < Limits.minAuthAddressStake)

def World.held (w : World) (v : ValId) (a : Address) : Nat := ((w.pool v).del a).held

section Preserved

variable {r : Registry} {held held' : ValId → Address → Nat} {v : ValId} {a : Address}

theorem WithdrawnExact.of_held {u : ValId} (h : WithdrawnExact r held u) (hu : held' u = held u) :
    WithdrawnExact r held' u := by
  intro hauth
  rw [hu]
  exact h hauth

theorem withdrawnExact_setFlags {flags : BitVec 64} (h : ∀ u, u ≠ v → WithdrawnExact r held u)
    (hself : flags.getLsbD 1 = true ↔ held v (r.authAddress v) < minAuthAddressStake)
    (u : ValId) : WithdrawnExact (r.setFlags v flags) held u := by
  intro hu
  rcases eq_or_ne u v with rfl | hne
  · rw [flags_setFlags]
    exact hself
  · simpa [Registry.setFlags, hne] using h u hne hu

theorem withdrawnExact_raise {reached restored : Bool} (h : ∀ u, u ≠ v → WithdrawnExact r held u)
    (hself : (Registry.raisedFlags (r.flags v) reached restored).getLsbD 1 = true ↔
      held v (r.authAddress v) < minAuthAddressStake)
    (u : ValId) : WithdrawnExact (r.raise v reached restored) held u := by
  have hset := withdrawnExact_setFlags h hself u
  unfold Registry.raise
  dsimp only
  split_ifs
  · exact hset
  · exact hset

section

variable (h : WithdrawnExact r held v) (hauth : r.authAddress v ≠ 0) (hoth : ∀ b, b ≠ a → held' v b = held v b)

include h hauth hoth

/-- More stake for `a`; the condition under which the flag is cleared is the test of the contract. -/
theorem raisedFlags_exact (hle : held v a ≤ held' v a) (reached : Bool) : (Registry.raisedFlags (r.flags v) reached
    (r.authAddress v = a ∧ minAuthAddressStake ≤ held' v a)).getLsbD 1 = true ↔
    held' v (r.authAddress v) < minAuthAddressStake := by
  rw [raisedFlags_withdrawn, Bool.and_eq_true, h hauth, Bool.not_eq_true', decide_eq_false_iff_not]
  by_cases ha : r.authAddress v = a
  · rw [ha]
    simp only [true_and]
    omega
  · rw [hoth _ ha]
    simp [ha]

/-- Less stake for `a`. -/
theorem loweredFlags_exact (hle : held' v a ≤ held v a) (tooLow : Bool) : (Registry.loweredFlags (r.flags v)
    (a = r.authAddress v ∧ held' v a < minAuthAddressStake) tooLow).getLsbD 1 = true ↔
    held' v (r.authAddress v) < minAuthAddressStake := by
  rw [loweredFlags_withdrawn, Bool.or_eq_true, h hauth, decide_eq_true_iff]
  by_cases ha : r.authAddress v = a
  · rw [ha]
    simp only [true_and]
    omega
  · rw [hoth _ ha]
    simp [Ne.symm ha]

end

end Preserved

section Calls

variable {rev : MonadRevision} {crypto : Crypto} {w w' : World} {act : Action} {v : ValId}
  {op : Pool.Op Address WithdrawalId}

theorem held_other (step : ∀ u, Pool.Step (opAt u v op) (w.pool u) (w'.pool u)) {u : ValId}
    (hu : u ≠ v) : w'.held u = w.held u := by
  funext b
  rw [World.held, pool_other step hu, World.held]

theorem held_same (step : ∀ u, Pool.Step (opAt u v op) (w.pool u) (w'.pool u))
    (hself : ∀ b, ((w'.pool v).del b).held = ((w.pool v).del b).held) : w'.held = w.held := by
  funext u b
  rcases eq_or_ne u v with rfl | hu
  · exact hself b
  · rw [held_other step hu]

/-- Every call keeps the flags exact, as long as the ledgers are in order. -/
theorem withdrawnExact_effect (h : ∀ u, WithdrawnExact w.registry w.held u) (roster : Roster rev w.registry w.stakes)
    (ledger : ∀ u, (w.pool u).Ledger) (ledger' : ∀ u, (w'.pool u).Ledger) (he : Effect rev w act w') :
    ∀ u, WithdrawnExact w'.registry w'.held u := by
  cases he with
  | snapshot hd =>
    have hheld : w.takeSnapshot.held = w.held := by
      funext u b
      rw [World.held, roster.pool_takeSnapshot]
      rfl
    obtain ⟨execution, bits, hspec, -, -⟩ := takeSnapshot_spec w
    rw [hheld, hspec]
    exact h
  | performed step registry balance commission =>
    have hnext (u : ValId) (b : Address) :
        ((w'.pool u).del b).getNextEpochStake = w'.held u b := (ledger' u).getNextEpochStake b
    generalize w'.registry = r' at registry ⊢
    cases registry with
    | idle | changeCommission | changeEpoch =>
      have hheld : w'.held = w.held := funext fun u => funext fun b => held_step (step u) (ledger u).empty b
      rwa [hheld]
    | @pull v | @withdraw v | @claim v | @externalReward v =>
      rw [held_same step (held_step (step_self step) (ledger v).empty)]
      exact h
    | blockReward =>
      rw [held_same step (held_step (step_self step) (ledger _).empty)]
      exact h
    | @addValidator i s v hv hv' hs hc ha =>
      subst hv
      -- the new validator has the flag for too little stake only, and its auth address enough stake
      have hheld : w'.held (w.lastValId + 1) i.authAddress =
          w.held (w.lastValId + 1) i.authAddress + if i.authAddress = i.authAddress then s else 0 :=
        held_step (step_self step) (ledger _).empty i.authAddress
      have hself : (w.registry.register (w.lastValId + 1)
          { secpPubkey := i.secpPubkey, blsPubkey := i.blsPubkey } i.authAddress
          i.commission).authAddress (w.lastValId + 1) = i.authAddress := update_self ..
      refine withdrawnExact_raise (fun u hu => ?_) ?_
      · refine WithdrawnExact.of_held (fun hauth => ?_) (held_other step hu)
        have hold := h u
        unfold WithdrawnExact at hold
        have hne : u ≠ w.registry.lastValId + 1 := hu
        simp only [Registry.register, update_of_ne hne] at hauth ⊢
        exact hold hauth
      have hflags : (w.registry.register (w.lastValId + 1)
          { secpPubkey := i.secpPubkey, blsPubkey := i.blsPubkey } i.authAddress
          i.commission).flags (w.lastValId + 1) = validatorFlagsStakeTooLow :=
        update_self ..
      have hclear : validatorFlagsStakeTooLow.getLsbD 1 = false := by decide
      have hen : ¬ w'.held (w.lastValId + 1) i.authAddress < minAuthAddressStake := by
        rw [hheld, if_pos rfl]
        omega
      rw [raisedFlags_withdrawn]
      show (((w.registry.register (w.lastValId + 1) _ _ _).flags (w.lastValId + 1)).getLsbD 1 && _)
        = true ↔ w'.held (w.lastValId + 1) ((w.registry.register (w.lastValId + 1) _ _
          _).authAddress (w.lastValId + 1)) < _
      rw [hflags, hclear, hself, Bool.false_and]
      exact ⟨fun hf => absurd hf Bool.false_ne_true, fun hlt => absurd hlt hen⟩
    | @delegate v a s ha hv =>
      have hstep (b : Address) : w'.held v b = w.held v b + if b = a then s else 0 :=
        held_step (step_self step) (ledger v).empty b
      unfold Registry.delegated
      rw [hnext]
      refine withdrawnExact_raise (fun u hu => (h u).of_held (held_other step hu))
        (raisedFlags_exact (h v) ha (fun b hb => ?_) ?_ _)
      · rw [hstep, if_neg hb, Nat.add_zero]
      rw [hstep]
      exact Nat.le_add_right _ _
    | @undelegate v a i amount ha =>
      have hstep := held_step (step_self step) (ledger v).empty
      unfold Registry.undelegated
      rw [hnext]
      exact withdrawnExact_setFlags (fun u hu => (h u).of_held (held_other step hu))
        (loweredFlags_exact (h v) ha (fun b hb => (hstep b).2 hb) (hstep a).1 _)
    | @compound v a r' hr =>
      have hstep := held_step (step_self step) (ledger v).empty
      rcases hr with ⟨hp, rfl⟩ | ⟨ha, -, rfl⟩
      · have hsame := sameHeld_takeRewards (sameHeld_pull (ledger v).empty (step_self step).safe_of_compound) a
        rw [← hp] at hsame
        rw [held_same step hsame.held]
        exact h
      · unfold Registry.delegated
        rw [hnext]
        exact withdrawnExact_raise (fun u hu => (h u).of_held (held_other step hu))
          (raisedFlags_exact (h v) ha (fun b hb => (hstep b).2 hb) (hstep a).1 _)

theorem withdrawnExact_after {calls : List Call} (h : (after rev crypto calls).EpochsExist)
    (v : ValId) : WithdrawnExact (after rev crypto calls).registry (after rev crypto calls).held v := by
  induction calls generalizing v with
  | nil => exact fun hauth => absurd rfl hauth
  | cons c calls ih =>
    have htail := epochsExist_tail rev crypto h
    have hledger := ledger_after rev crypto h
    rw [after] at hledger ⊢
    rcases exec_cases rev crypto (after rev crypto calls) c with he | he
    · exact withdrawnExact_effect (ih htail) (roster_after rev crypto calls)
        (ledger_after rev crypto htail) hledger he v
    · rw [he]
      exact ih htail v

end Calls

/-! ## The whole invariant -/

/-- The validator sets, their bits and views, and the flag for too little stake. -/
structure World.SetsExact (rev : MonadRevision) (w : World) : Prop where
  execution_nodup : w.valsetExecution.Nodup
  execution_bits : ∀ v, v ∈ w.valsetExecution ↔ w.valBitsetBucket (valBucket v) &&& valMask v ≠ 0
  execution_ok : ∀ v, (w.valExecution v).exist → (w.valExecution v).flags = validatorFlagsOk → v ∈ w.valsetExecution
  consensus_nodup : w.valsetConsensus.Nodup
  consensus_length : w.valsetConsensus.length ≤ 200
  consensus_view : ∀ v, v ∈ w.valsetConsensus ↔ (w.consensusView v).stake ≠ 0
  consensus_subset : ∀ v, v ∈ w.valsetConsensus → v ∈ w.valsetExecution
  snapshot_nodup : w.valsetSnapshot.Nodup
  snapshot_length : w.valsetSnapshot.length ≤ 200
  snapshot_view : ∀ v, v ∈ w.valsetSnapshot ↔ (w.snapshotView v).stake ≠ 0
  stakeTooLow : ∀ v, (w.valExecution v).exist → ((w.valExecution v).flags &&& validatorFlagsStakeTooLow ≠ 0 ↔
      (w.valExecution v).stake < Limits.activeValidatorStake rev)

/-- The flag for an auth address that holds too little. -/
def World.WithdrawnFlagExact (w : World) : Prop :=
  ∀ v, (w.valExecution v).exist → let auth := w.delegator v (w.valExecution v).authAddress
    ((w.valExecution v).flags &&& validatorFlagWithdrawn ≠ 0 ↔
      auth.stake + auth.deltaStake + auth.nextDeltaStake < Limits.minAuthAddressStake)

theorem Roster.setsExact {rev : MonadRevision} {w : World} (h : Roster rev w.registry w.stakes) :
    w.SetsExact rev where
  execution_nodup := h.nodup
  execution_bits v := (h.bits v).trans bne_iff_ne
  execution_ok v hv hf := h.listed v ((exist_iff w v).mp hv) hf
  consensus_nodup := h.consensus.nodup
  consensus_length := h.consensus.length_le
  consensus_view := h.consensus.mem_iff
  consensus_subset := h.consensus_subset
  snapshot_nodup := h.snapshot.nodup
  snapshot_length := h.snapshot.length_le
  snapshot_view := h.snapshot.mem_iff
  stakeTooLow v hv := (stakeTooLow_iff _).trans (h.tooLow v ((exist_iff w v).mp hv))

/-- Any calls keep the sets in order, and the flag `Withdrawn` is exact as long as the epochs
exist. -/
theorem sets_and_flags_after (rev : MonadRevision) (crypto : Crypto) (calls : List Call) :
    (after rev crypto calls).SetsExact rev ∧ ((after rev crypto calls).epoch + 2 < 2 ^ 64 →
        (after rev crypto calls).WithdrawnFlagExact) := by
  refine ⟨(roster_after rev crypto calls).setsExact, fun hep v hv => ?_⟩
  have hexi : (after rev crypto calls).EpochsExist := by
    unfold World.EpochsExist uint64Size
    exact hep
  exact (withdrawn_iff _).trans (withdrawnExact_after hexi v ((exist_iff _ v).mp hv))

/-- A validator whose auth address takes out nearly all of its stake is flagged. -/
theorem sets_and_flags_after_undelegate :
    let calls := [Call.undelegate 1 (100000 * mon) 0 8, .onEpochChange 2, .onEpochChange 1,
      .register 7 8 0 9 (100000 * mon)]
    (after .five .acceptAll calls).epoch + 2 < 2 ^ 64 ∧
      ((after .five .acceptAll calls).valExecution 1).flags &&& validatorFlagWithdrawn ≠ 0 ∧
      (after .five .acceptAll calls).WithdrawnFlagExact := by
  intro calls
  have hep : (after .five .acceptAll calls).epoch + 2 < 2 ^ 64 := by decide +kernel
  exact ⟨hep, by decide +kernel, (sets_and_flags_after .five .acceptAll calls).2 hep⟩

/-- In the last epoch the stake of a new validator waits for epoch 0. Reading the delegator drops
it, and the flag is not set. -/
theorem not_withdrawnFlagExact_lastEpoch :
    ¬ (after .five .acceptAll [.getDelegator 1 8 9, .register 7 8 0 9 (100000 * mon),
      .onEpochChange (2 ^ 64 - 1)]).WithdrawnFlagExact := by
  intro h
  exact absurd (h 1 (by decide +kernel)) (by decide +kernel)

end MonadExecution.Staking
