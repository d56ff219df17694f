import MonadExecution.Staking.Action

/-!
# The validator sets

The candidates are kept twice, as an array and as a bitset. A snapshot drops the candidates whose
flags are set from both, freezes the two hundred with the most stake as the next validator set, and
rotates the sets by one epoch. The invariant `Roster` ties these together, in every state that any
calls can reach.
-/

namespace MonadExecution.Staking

open Program Function List Registry BitVec Limits World

/-! ## The flags -/

theorem stakeTooLow_iff (flags : BitVec 64) : flags &&& validatorFlagsStakeTooLow ≠ 0 ↔ flags.getLsbD 0 = true :=
  and_twoPow_ne_zero flags (k := 0) (by decide)

theorem withdrawn_iff (flags : BitVec 64) : flags &&& validatorFlagWithdrawn ≠ 0 ↔ flags.getLsbD 1 = true :=
  and_twoPow_ne_zero flags (k := 1) (by decide)

namespace Registry

variable (flags : BitVec 64) (x y : Bool)

theorem raisedFlags_tooLow : (raisedFlags flags x y).getLsbD 0 = (flags.getLsbD 0 && !x) := by
  cases x <;> cases y <;> simp [raisedFlags, validatorFlagsStakeTooLow, validatorFlagWithdrawn]

theorem raisedFlags_withdrawn : (raisedFlags flags x y).getLsbD 1 = (flags.getLsbD 1 && !y) := by
  cases x <;> cases y <;> simp [raisedFlags, validatorFlagsStakeTooLow, validatorFlagWithdrawn]

theorem loweredFlags_tooLow : (loweredFlags flags x y).getLsbD 0 = (flags.getLsbD 0 || y) := by
  cases x <;> cases y <;> simp [loweredFlags, validatorFlagsStakeTooLow, validatorFlagWithdrawn]

theorem loweredFlags_withdrawn : (loweredFlags flags x y).getLsbD 1 = (flags.getLsbD 1 || x) := by
  cases x <;> cases y <;> simp [loweredFlags, validatorFlagsStakeTooLow, validatorFlagWithdrawn]

/-- Less stake clears no flag. -/
theorem loweredFlags_ok (h : loweredFlags flags x y = validatorFlagsOk) : flags = validatorFlagsOk := by
  cases x <;> cases y <;>
    simp_all [loweredFlags, validatorFlagsOk, validatorFlagsStakeTooLow, validatorFlagWithdrawn, or_eq_zero_iff]

end Registry

/-! ## The invariant -/

/-- A frozen validator set and the view that goes with it. -/
structure Frozen (valset : List ValId) (view : ValId → ConsensusView) : Prop where
  nodup : valset.Nodup
  length_le : valset.length ≤ Limits.activeValsetSize
  mem_iff : ∀ v, v ∈ valset ↔ (view v).stake ≠ 0
  commission_le : ∀ v, (view v).commission ≤ mon

/-- The validator sets, the bits, the flags and the ids fit together; `stake` are the stakes of the
pools. -/
structure Roster (rev : MonadRevision) (r : Registry) (stake : ValId → Nat) : Prop where
  nodup : r.valsetExecution.Nodup
  bits : ∀ v, v ∈ r.valsetExecution ↔ r.hasBit v = true
  listed : ∀ v, r.authAddress v ≠ 0 → r.flags v = validatorFlagsOk → v ∈ r.valsetExecution
  exist : ∀ v, v ∈ r.valsetExecution → r.authAddress v ≠ 0
  consensus : Frozen r.valsetConsensus r.consensusView
  snapshot : Frozen r.valsetSnapshot r.snapshotView
  consensus_subset : ∀ v, v ∈ r.valsetConsensus → v ∈ r.valsetExecution
  snapshot_exist : ∀ v, v ∈ r.valsetSnapshot → r.authAddress v ≠ 0
  tooLow : ∀ v, r.authAddress v ≠ 0 → ((r.flags v).getLsbD 0 = true ↔ stake v < Limits.activeValidatorStake rev)
  unborn : ∀ v, r.authAddress v = 0 → stake v = 0
  ids : ∀ v, r.authAddress v ≠ 0 → v.toNat ≤ r.lastValId.toNat
  commission_le : ∀ v, r.commission v ≤ mon

section Preserved

variable {rev : MonadRevision} {r : Registry} {stake stake' : ValId → Nat} {v : ValId}

/-- `v` becomes a candidate. -/
theorem Roster.enlist (h : Roster rev r stake) (ha : r.authAddress v ≠ 0) : Roster rev (r.enlist v) stake := by
  have hbit : ∀ u, (r.enlist v).hasBit u = (r.hasBit u || decide (u = v)) := hasBit_set v rfl
  have hmem : ∀ u, u ∈ (r.enlist v).valsetExecution ↔ u ∈ r.valsetExecution ∨ u = v := by
    intro u
    by_cases hv : r.hasBit v
    · have hlst := (h.bits v).mpr hv
      simp only [Registry.enlist, hv, if_true]
      exact ⟨.inl, fun hu => hu.elim id fun h => h ▸ hlst⟩
    · simp [Registry.enlist, hv]
  exact
    { h with
      nodup := by
        by_cases hv : r.hasBit v
        · simpa [Registry.enlist, hv] using h.nodup
        have hnew : v ∉ r.valsetExecution := fun hm => hv ((h.bits v).mp hm)
        have hlist : (r.enlist v).valsetExecution = r.valsetExecution.concat v := by simp [Registry.enlist, hv]
        rw [hlist]
        exact h.nodup.concat hnew
      bits := fun u => by rw [hmem, hbit, h.bits, Bool.or_eq_true, decide_eq_true_iff]
      listed := fun u hu hf => (hmem u).mpr (.inl (h.listed u hu hf))
      exist := fun u hu => ((hmem u).mp hu).elim (h.exist u) fun heq => heq ▸ ha
      consensus_subset := fun u hu => (hmem u).mpr (.inl (h.consensus_subset u hu)) }

section

variable (h : Roster rev r stake) (ha : r.authAddress v ≠ 0) (hstk : ∀ u, u ≠ v → stake' u = stake u)

include h ha hstk

/-- The flags of `v` and the stake of its pool change together; if `v` has no flag then, it is a
candidate already. -/
theorem Roster.setFlags {flags : BitVec 64}
    (htooLow : flags.getLsbD 0 = true ↔ stake' v < activeValidatorStake rev)
    (hlst : flags = validatorFlagsOk → v ∈ r.valsetExecution) : Roster rev (r.setFlags v flags) stake' := by
  exact
    { h with
      bits := h.bits
      listed := fun u hu hf => by
        rcases eq_or_ne u v with rfl | hne
        · exact hlst (by simpa [Registry.setFlags] using hf)
        · exact h.listed u hu (by simpa [Registry.setFlags, hne] using hf)
      tooLow := fun u hu => by
        rcases eq_or_ne u v with rfl | hne
        · simpa [Registry.setFlags] using htooLow
        rw [hstk u hne]
        simpa [Registry.setFlags, hne] using h.tooLow u hu
      unborn := fun u hu => by
        have hne : u ≠ v := fun heq => ha (heq ▸ hu)
        rw [hstk u hne]
        exact h.unborn u hu }

/-- More stake in the pool of `v`. -/
theorem Roster.raise (hle : stake v ≤ stake' v) (restored : Bool) :
    Roster rev (r.raise v (activeValidatorStake rev ≤ stake' v) restored) stake' := by
  have htooLow : (Registry.raisedFlags (r.flags v) (activeValidatorStake rev ≤ stake' v)
      restored).getLsbD 0 = true ↔ stake' v < activeValidatorStake rev := by
    rw [raisedFlags_tooLow, Bool.and_eq_true, h.tooLow v ha]
    simp only [Bool.not_eq_true', decide_eq_false_iff_not, Nat.not_le]
    omega
  unfold Registry.raise
  simp only [flags_setFlags]
  split_ifs with hok
  · -- enlisting does not look at the flags, so it may as well come first
    have hcomm : (r.setFlags v (Registry.raisedFlags (r.flags v)
        (activeValidatorStake rev ≤ stake' v) restored)).enlist v =
        (r.enlist v).setFlags v (Registry.raisedFlags (r.flags v)
          (activeValidatorStake rev ≤ stake' v) restored) := rfl
    refine (h.enlist ha).setFlags ha hstk htooLow fun _ => ?_
    have hbit : (r.enlist v).hasBit v = true := by
      rw [hasBit_set v rfl]
      simp
    exact ((h.enlist ha).bits v).mpr hbit
  · exact h.setFlags ha hstk htooLow fun h => absurd h hok

/-- Less stake in the pool of `v`. -/
theorem Roster.lower (hle : stake' v ≤ stake v) (withdrawn : Bool) :
    Roster rev (r.lower v withdrawn (stake' v < activeValidatorStake rev)) stake' := by
  refine h.setFlags ha hstk ?_ fun hok => h.listed v ha (loweredFlags_ok _ _ _ hok)
  rw [loweredFlags_tooLow, Bool.or_eq_true, h.tooLow v ha, decide_eq_true_iff]
  omega

end

theorem toNat_nextId (hv : v = r.lastValId + 1) (hv0 : v ≠ 0) : v.toNat = r.lastValId.toNat + 1 := by
  have hlt : r.lastValId.toNat + 1 ≠ 2 ^ 64 := by
    intro hlast
    apply hv0
    apply eq_of_toNat_eq
    rw [hv, toNat_add]
    simp [hlast]
  rw [hv, toNat_add]
  show (r.lastValId.toNat + 1) % 2 ^ 64 = _
  omega

/-- The id that a new validator gets is not in use. -/
theorem Roster.unregistered (h : Roster rev r stake) (hv : v = r.lastValId + 1) (hv0 : v ≠ 0) :
    r.authAddress v = 0 := by
  by_contra hne
  have hle := h.ids v hne
  have hnat := toNat_nextId hv hv0
  omega

variable {commission : Nat}

/-- A new validator has a flag, and its pool is empty. -/
theorem Roster.register (h : Roster rev r stake) (hv : v = r.lastValId + 1) (hv0 : v ≠ 0) {auth : Address}
    (hauth : auth ≠ 0) (keys : KeysPacked) (hc : commission ≤ mon) :
    Roster rev (r.register v keys auth commission) stake := by
  have hnat := toNat_nextId hv hv0
  have hnew := h.unregistered hv hv0
  have hauthAddress : ∀ u, u ≠ v → (r.register v keys auth commission).authAddress u =
      r.authAddress u := fun u hu => update_of_ne hu _ _
  have hflags : ∀ u, u ≠ v → (r.register v keys auth commission).flags u = r.flags u :=
    fun u hu => update_of_ne hu _ _
  have hself : (r.register v keys auth commission).flags v = validatorFlagsStakeTooLow := update_self ..
  have hexi : ∀ u, r.authAddress u ≠ 0 → (r.register v keys auth commission).authAddress u ≠ 0 := by
    intro u hu
    have hne : u ≠ v := fun heq => hu (heq ▸ hnew)
    rwa [hauthAddress u hne]
  exact
    { h with
      bits := h.bits
      listed := fun u hu hf => by
        rcases eq_or_ne u v with rfl | hne
        · rw [hself] at hf
          exact absurd hf (by decide)
        · rw [hauthAddress u hne] at hu
          rw [hflags u hne] at hf
          exact h.listed u hu hf
      exist := fun u hu => hexi u (h.exist u hu)
      snapshot_exist := fun u hu => hexi u (h.snapshot_exist u hu)
      tooLow := fun u hu => by
        rcases eq_or_ne u v with rfl | hne
        · rw [hself, h.unborn u hnew]
          refine ⟨fun _ => ?_, fun _ => by decide⟩
          have := mon_pos
          unfold activeValidatorStake
          split_ifs <;> omega
        · rw [hauthAddress u hne] at hu
          rw [hflags u hne]
          exact h.tooLow u hu
      unborn := fun u hu => by
        have hne : u ≠ v := by
          rintro rfl
          exact hauth (by simpa [Registry.register] using hu)
        rw [hauthAddress u hne] at hu
        exact h.unborn u hu
      ids := fun u hu => by
        show u.toNat ≤ v.toNat
        rcases eq_or_ne u v with rfl | hne
        · exact Nat.le_refl _
        rw [hauthAddress u hne] at hu
        have := h.ids u hu
        omega
      commission_le := fun u => by
        rcases eq_or_ne u v with rfl | hne
        · simpa [Registry.register] using hc
        · simpa [Registry.register, hne] using h.commission_le u }

theorem Roster.setCommission (h : Roster rev r stake) (hc : commission ≤ mon) :
    Roster rev (r.setCommission v commission) stake :=
  { h with
    bits := h.bits
    commission_le := fun u => by
      rcases eq_or_ne u v with rfl | hne
      · simpa [Registry.setCommission] using hc
      · simpa [Registry.setCommission, hne] using h.commission_le u }

end Preserved

/-! ## Calls keep the invariant -/

/-- The stake of every pool. -/
def World.stakes (w : World) (v : ValId) : Nat := (w.pool v).stake

section Calls

variable {rev : MonadRevision} {w w' : World} {act : Action}

theorem Frozen.cleared {valset : List ValId} {view : ValId → ConsensusView} (h : Frozen valset view) (v : ValId) :
    (if v ∈ valset then ({} : ConsensusView) else view v).stake = 0 := by
  split_ifs with hv
  · rfl
  · exact of_not_not fun h0 => hv ((h.mem_iff v).mpr h0)

theorem activeValidatorStake_pos (rev : MonadRevision) : 0 < activeValidatorStake rev := by
  have := mon_pos
  unfold activeValidatorStake
  split_ifs <;> omega

section

variable (h : Roster rev w.registry w.stakes)

include h

/-- A candidate without a flag has stake. -/
theorem Roster.stake_chosen {v : ValId} (hv : v ∈ w.chosen) : (w.valExecution v).stake ≠ 0 := by
  obtain ⟨hmem, hflags⟩ := mem_execution_of_mem_chosen w hv
  have hlow : ¬ (w.registry.flags v).getLsbD 0 = true := by
    show ¬ (w.valExecution v).flags.getLsbD 0 = true
    rw [hflags]
    decide
  rw [h.tooLow v (h.exist v hmem)] at hlow
  have hpos := activeValidatorStake_pos rev
  have hstk : w.stakes v = (w.valExecution v).stake := rfl
  omega

/-- The views after a snapshot: what was frozen for the next epoch is now the set of this one, and
the chosen validators are frozen. -/
theorem Roster.views_takeSnapshot (v : ValId) : (w.takeSnapshot.snapshotView v).stake = (w.consensusView v).stake ∧
    (w.takeSnapshot.consensusView v).stake = if v ∈ w.chosen then (w.valExecution v).stake else 0 := by
  obtain ⟨execution, bits, hspec, -, -⟩ := takeSnapshot_spec w
  rw [hspec]
  have hc := h.consensus.cleared v
  have hs := h.snapshot.cleared v
  constructor
  · show (if v ∈ w.valsetConsensus then w.consensusView v
      else if v ∈ w.valsetSnapshot then {} else w.snapshotView v).stake = _
    split_ifs with hv
    · rfl
    all_goals
      simp_all [registry]
  · show (if v ∈ w.chosen then ConsensusView.mk (w.valExecution v).stake (w.valExecution v).commission
      else if v ∈ w.valsetConsensus then {} else w.consensusView v).stake = _
    split_ifs with hv hv'
    · rfl
    · rfl
    · simpa [registry, hv'] using hc

theorem Roster.pool_takeSnapshot (v : ValId) :
    w.takeSnapshot.pool v = (w.pool v).takeSnapshot (decide (v ∈ w.chosen)) := by
  obtain ⟨hsnap, hcons⟩ := h.views_takeSnapshot v
  obtain ⟨execution, bits, hspec, -, -⟩ := takeSnapshot_spec w
  unfold pool Pool.takeSnapshot
  rw [hsnap, hcons, hspec]
  simp

theorem Roster.takeSnapshot : Roster rev w.takeSnapshot.registry w.takeSnapshot.stakes := by
  have hvs := h.views_takeSnapshot
  obtain ⟨execution, bits, hspec, hperm, hbits⟩ := takeSnapshot_spec w
  have hmem : ∀ v, v ∈ execution ↔ v ∈ w.valsetExecution ∧ (w.valExecution v).flags = validatorFlagsOk := by
    intro v
    rw [hperm.mem_iff, mem_filter, beq_iff_eq]
  rw [hspec] at hvs ⊢
  exact
    { h with
      nodup := hperm.nodup_iff.mpr (h.nodup.filter _)
      bits := fun v => by
        show v ∈ execution ↔ Registry.hasBit v { w.registry with valBitsetBucket := bits } = true
        rw [hbits, hmem, Bool.and_eq_true, ← h.bits v]
        show v ∈ w.valsetExecution ∧ _ ↔ v ∈ w.valsetExecution ∧ _
        by_cases hv : v ∈ w.valsetExecution
        · simp [hv]
        · simp [hv]
      listed := fun v hv hf => (hmem v).mpr ⟨h.listed v hv hf, hf⟩
      exist := fun v hv => h.exist v ((hmem v).mp hv).1
      consensus :=
        { nodup := nodup_topCandidates (by
            rw [map_fst_candidates]
            exact h.nodup.filter _)
          length_le := by
            show w.chosen.length ≤ _
            rw [chosen, length_map]
            exact length_topCandidates _
          mem_iff := fun v => by
            have hstk := (hvs v).2
            constructor
            · intro hv
              have hcho : v ∈ w.chosen := hv
              rw [if_pos hcho] at hstk
              exact ne_of_eq_of_ne hstk (h.stake_chosen hcho)
            · intro hne
              by_contra hv
              have hcho : v ∉ w.chosen := hv
              rw [if_neg hcho] at hstk
              exact hne hstk
          commission_le := fun v => by
            show (if v ∈ w.chosen then ConsensusView.mk (w.valExecution v).stake (w.valExecution v).commission
              else if v ∈ w.valsetConsensus then {} else w.consensusView v).commission ≤ mon
            split_ifs
            · exact h.commission_le v
            · exact Nat.zero_le _
            · exact h.consensus.commission_le v }
      snapshot :=
        { nodup := h.consensus.nodup
          length_le := h.consensus.length_le
          mem_iff := fun v => (h.consensus.mem_iff v).trans (by
            show (w.consensusView v).stake ≠ 0 ↔ _
            rw [← (hvs v).1]
            rfl)
          commission_le := fun v => by
            show (if v ∈ w.valsetConsensus then w.consensusView v
              else if v ∈ w.valsetSnapshot then {} else w.snapshotView v).commission ≤ mon
            split_ifs
            · exact h.consensus.commission_le v
            · exact Nat.zero_le _
            · exact h.snapshot.commission_le v }
      consensus_subset := fun v hv => (hmem v).mpr (mem_execution_of_mem_chosen w hv)
      snapshot_exist := fun v hv => h.exist v (h.consensus_subset v hv) }

end

variable {p p' : Pool Address WithdrawalId}

/-- What an operation does to the stake of its pool. -/
theorem stake_step {op : Pool.Op Address WithdrawalId} (h : Pool.Step op p p') :
    match op with
    | .delegate _ s => p'.stake = p.stake + s
    | .undelegate _ _ _ => p'.stake ≤ p.stake
    | .compound _ => p.stake ≤ p'.stake
    | _ => p'.stake = p.stake := by
  cases h with
  | undelegate h0 hw safe hx hl => simp
  | compound safe hr hq hs safe' hb => simp [← hq]
  | _ => simp

theorem pool_of_idle (h : Pool.Step .idle p p') : p' = p := by
  cases h
  rfl

section Target

variable {v : ValId} {op : Pool.Op Address WithdrawalId} (step : ∀ u, Pool.Step (opAt u v op) (w.pool u) (w'.pool u))

include step

theorem step_self : Pool.Step op (w.pool v) (w'.pool v) := by
  have h := step v
  rwa [opAt, if_pos rfl] at h

theorem pool_other {u : ValId} (hu : u ≠ v) : w'.pool u = w.pool u := by
  have h := step u
  rw [opAt, if_neg hu] at h
  exact pool_of_idle h

theorem stakes_other {u : ValId} (hu : u ≠ v) : w'.stakes u = w.stakes u := by rw [stakes, pool_other step hu, stakes]

/-- An operation that moves no stake keeps all stakes. -/
theorem stakes_same (hself : (w'.pool v).stake = (w.pool v).stake) : w'.stakes = w.stakes := by
  funext u
  rcases eq_or_ne u v with rfl | hu
  · exact hself
  · exact stakes_other step hu

end Target

/-- Every call keeps the roster. -/
theorem Roster.effect (h : Roster rev w.registry w.stakes) (he : Effect rev w act w') :
    Roster rev w'.registry w'.stakes := by
  cases he with
  | snapshot hd => exact h.takeSnapshot
  | performed step registry balance commission =>
    generalize w'.registry = r' at registry ⊢
    cases registry with
    | idle =>
      have hstakes : w'.stakes = w.stakes := funext fun u => stake_step (step u)
      rwa [hstakes]
    | changeCommission ha hc =>
      have hstakes : w'.stakes = w.stakes := funext fun u => stake_step (step u)
      rw [hstakes]
      exact h.setCommission hc
    | changeEpoch =>
      have hstakes : w'.stakes = w.stakes := funext fun u => stake_step (step u)
      rw [hstakes]
      exact { h with bits := h.bits }
    | pull | withdraw | claim | externalReward | blockReward =>
      rw [stakes_same step (stake_step (step_self step))]
      exact h
    | @addValidator i s v hv hv' hs hc ha =>
      subst hv
      have hself : w'.stakes _ = w.stakes _ + s := stake_step (step_self step)
      exact (h.register rfl hv'.1 ha _ hc).raise (ne_of_eq_of_ne (update_self ..) ha)
        (fun u hu => stakes_other step hu) (hself ▸ Nat.le_add_right _ _) _
    | @delegate v a s ha hv =>
      have hself : w'.stakes v = w.stakes v + s := stake_step (step_self step)
      exact h.raise ha (fun u hu => stakes_other step hu) (hself ▸ Nat.le_add_right _ _) _
    | undelegate ha => exact h.lower ha (fun u hu => stakes_other step hu) (stake_step (step_self step)) _
    | compound hr =>
      rcases hr with ⟨hp, rfl⟩ | ⟨ha, -, rfl⟩
      · rw [stakes_same step (by rw [hp]; simp)]
        exact h
      · exact h.raise ha (fun u hu => stakes_other step hu) (stake_step (step_self step)) _

theorem roster_empty (rev : MonadRevision) : Roster rev empty.registry empty.stakes where
  nodup := nodup_nil
  bits v := by
    refine ⟨fun h => absurd h (not_mem_nil), fun h => ?_⟩
    rw [hasBit_iff] at h
    simp [empty, registry] at h
  listed v ha := absurd rfl ha
  exist v hv := absurd hv not_mem_nil
  consensus := ⟨nodup_nil, Nat.zero_le _,
    fun v => ⟨fun h => absurd h not_mem_nil, fun h => absurd rfl h⟩, fun _ => Nat.zero_le _⟩
  snapshot := ⟨nodup_nil, Nat.zero_le _,
    fun v => ⟨fun h => absurd h not_mem_nil, fun h => absurd rfl h⟩, fun _ => Nat.zero_le _⟩
  consensus_subset v hv := absurd hv not_mem_nil
  snapshot_exist v hv := absurd hv not_mem_nil
  tooLow v ha := absurd rfl ha
  unborn v _ := rfl
  ids v ha := absurd rfl ha
  commission_le v := Nat.zero_le _

/-- The roster is in order after any calls. -/
theorem roster_after (rev : MonadRevision) (crypto : Crypto) (calls : List Call) :
    Roster rev (after rev crypto calls).registry (after rev crypto calls).stakes := by
  induction calls with
  | nil => exact roster_empty rev
  | cons c calls ih =>
    rw [after]
    rcases exec_cases rev crypto (after rev crypto calls) c with h | h
    · exact ih.effect h
    rw [h]
    exact ih

/-- The operation of every pool in a call, snapshots included. -/
theorem Effect.step (he : Effect rev w act w') (h : Roster rev w.registry w.stakes) (u : ValId) :
    Pool.Step (act.op w u) (w.pool u) (w'.pool u) := by
  cases he with
  | performed step registry balance commission => exact step u
  | snapshot hd =>
    rw [h.pool_takeSnapshot]
    exact .takeSnapshot hd

end Calls

end MonadExecution.Staking
