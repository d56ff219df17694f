import MonadExecution.Staking.Calldata
import MonadExecution.Staking.Protocol

/-!
# Reading the validator set of an epoch

`read_valset` finds the set of an epoch in three places, one after the other: as the set of the next
epoch once the snapshot of the epoch before has been taken, as the consensus set of the epoch, and as
its snapshot set in the delay period. Consensus must get the same answer from all of them.
-/

namespace MonadExecution.Staking

open Program World

/-- The moments at which the set of epoch `e` can be read: from the snapshot in the epoch before it
to its own end. -/
def World.Readable (w : World) (e : Nat) : Prop := w.epoch = e ∨ w.epoch + 1 = e ∧ w.inEpochDelayPeriod = true

/-- The validators of epoch `e`, where they are kept now. -/
def World.members (w : World) (e : Nat) : List ValId :=
  if e = w.epoch + 1 then w.valsetConsensus else w.thisEpochValset

def World.memberStake (w : World) (e : Nat) (v : ValId) : Nat :=
  if e = w.epoch + 1 then (w.consensusView v).stake else (w.thisEpochView v).stake

def World.validator (w : World) (e : Nat) (v : ValId) : Validator where
  secpPubkey := (w.valExecution v).keys.secpPubkey
  blsPubkey := (w.valExecution v).keys.blsPubkey
  stake := w.memberStake e v

section Sets

variable {rev : MonadRevision} {crypto : Crypto} {w w' : World} {e : Nat}

theorem length_members (h : Roster rev w.registry w.stakes) (e : Nat) :
    (w.members e).length ≤ Limits.activeValsetSize := by
  unfold members thisEpochValset
  split_ifs
  · exact h.consensus.length_le
  · exact h.snapshot.length_le
  · exact h.consensus.length_le

variable {v : ValId}

theorem exist_of_mem_members (h : Roster rev w.registry w.stakes) (hv : v ∈ w.members e) :
    w.registry.authAddress v ≠ 0 := by
  unfold members thisEpochValset at hv
  split_ifs at hv
  · exact h.exist v (h.consensus_subset v hv)
  · exact h.snapshot_exist v hv
  · exact h.exist v (h.consensus_subset v hv)

/-- As long as the epoch after it exists, a readable set is read. -/
theorem readValset_of_readable (h : Roster rev w.registry w.stakes) (hr : w.Readable e)
    (he : e + 1 < uint64Size) : readValset w e = .valset ((w.members e).map (w.validator e)) := by
  have hnext : (w.epoch + 1) % uint64Size = w.epoch + 1 := by
    refine Nat.mod_eq_of_lt ?_
    rcases hr with hr | hr <;> omega
  have hlen := length_members h e
  have h1 : ¬ (e = w.epoch + 1 ∧ w.inEpochDelayPeriod = false) := by
    rintro ⟨rfl, hd⟩
    rcases hr with hr | ⟨-, hr⟩
    · omega
    rw [hr] at hd
    cases hd
  have h2 : ¬ e < w.epoch := by rcases hr with hr | hr <;> omega
  have h3 : ¬ w.epoch + 1 < e := by rcases hr with hr | hr <;> omega
  unfold readValset
  simp only [hnext, if_neg h1, if_neg h2, if_neg h3, decide_eq_true_iff]
  exact if_neg (Nat.not_lt.mpr hlen)

/-- The same set, as far as `read_valset` can see it. -/
structure SameSet (e : Nat) (w w' : World) : Prop where
  members : w'.members e = w.members e
  validator : ∀ v ∈ w.members e, w'.validator e v = w.validator e v

theorem SameSet.read (h : SameSet e w w') (hr : Roster rev w.registry w.stakes)
    (hr' : Roster rev w'.registry w'.stakes) (hw : w.Readable e) (hw' : w'.Readable e)
    (he : e + 1 < uint64Size) : readValset w' e = readValset w e := by
  rw [readValset_of_readable hr hw he, readValset_of_readable hr' hw' he, h.members]
  exact congrArg ReadValset.valset (List.map_congr_left h.validator)

/-! ## Calls keep the set -/

theorem keys_raise (v : ValId) (x y : Bool) (r : Registry) : (r.raise v x y).keys = r.keys := by
  unfold Registry.raise
  dsimp only
  split_ifs <;> rfl

/-- The keys of a validator never change: a new one has a new id. -/
theorem Effect.keys {act : Action} (he : Effect rev w act w') (h : Roster rev w.registry w.stakes)
    (hv : w.registry.authAddress v ≠ 0) : w'.registry.keys v = w.registry.keys v := by
  cases he with
  | snapshot hd =>
    obtain ⟨execution, bits, hspec, -, -⟩ := takeSnapshot_spec w
    rw [hspec]
    rfl
  | performed step registry balance commission =>
    generalize w'.registry = r' at registry ⊢
    cases registry with
    | idle | pull | withdraw | claim | externalReward | blockReward => rfl
    | changeEpoch => rfl
    | changeCommission ha hc => rfl
    | undelegate ha => rfl
    | delegate ha hv => exact congrFun (keys_raise _ _ _ _) v
    | compound hr =>
      rcases hr with ⟨-, rfl⟩ | ⟨-, -, rfl⟩
      · rfl
      · exact congrFun (keys_raise _ _ _ _) v
    | @addValidator i s u hu hu' hs hc ha =>
      have hne : v ≠ u := by
        rintro rfl
        exact hv (h.unregistered hu hu'.1)
      refine (congrFun (keys_raise _ _ _ _) v).trans ?_
      exact Function.update_of_ne hne _ _

theorem keys_exec (h : Roster rev w.registry w.stakes) (c : Call) (hv : w.registry.authAddress v ≠ 0) :
    (exec rev crypto c w).2.registry.keys v = w.registry.keys v := by
  rcases exec_cases rev crypto w c with he | he
  · exact he.keys h hv
  rw [he]
  rfl

/-- The set is the same if its ids, their stakes and their keys are. -/
theorem sameSet_exec (h : Roster rev w.registry w.stakes) (c : Call)
    (members : (exec rev crypto c w).2.members e = w.members e)
    (stake : ∀ v ∈ w.members e, (exec rev crypto c w).2.memberStake e v = w.memberStake e v) :
    SameSet e w (exec rev crypto c w).2 := by
  refine ⟨members, fun v hv => ?_⟩
  have hkeys : ((exec rev crypto c w).2.valExecution v).keys = (w.valExecution v).keys :=
    keys_exec h c (exist_of_mem_members h hv)
  unfold validator
  rw [stake v hv, hkeys]

/-- One call of the protocol keeps every set that is readable before and after it. -/
theorem ProtocolStep.sameSet {c : Call} {phase phase' : Phase} (hstep : ProtocolStep rev crypto w c phase phase')
    (hphase : phase.Holds w) (h : Roster rev w.registry w.stakes) (hw : w.Readable e)
    (hw' : (exec rev crypto c w).2.Readable e) : SameSet e w (exec rev crypto c w).2 := by
  cases hstep with
  | other hact =>
    have hsame := sameSets_exec crypto w hact
    obtain ⟨hep, hdly, hcons, hsnap⟩ := hsame.fields
    have hview : (exec rev crypto c w).2.consensusView = w.consensusView := hsame.consensusView
    have hview' : (exec rev crypto c w).2.snapshotView = w.snapshotView := hsame.snapshotView
    refine sameSet_exec h c ?_ fun v _ => ?_
    · unfold members thisEpochValset
      rw [hep, hdly, hcons, hsnap]
    · unfold memberStake thisEpochView
      rw [hep, hdly, hview, hview']
  | snapshot hact hok =>
    -- the consensus set of the epoch becomes its snapshot set
    have he := exec_ok rev crypto w hok
    rw [hact] at he
    obtain ⟨hd, hw1⟩ := he.registry_takeSnapshot
    have hep : w.epoch = e := by
      rcases hw with hw | ⟨-, hw⟩
      · exact hw
      rw [hw] at hd
      cases hd
    have hvs := h.views_takeSnapshot
    obtain ⟨execution, bits, hspec, -, -⟩ := takeSnapshot_spec w
    refine sameSet_exec h c ?_ fun v _ => ?_
    · rw [hw1, hspec]
      simp [members, thisEpochValset, ← hep, hd]
    have hstk := (hvs v).1
    rw [hw1]
    rw [hspec] at hstk ⊢
    simpa [memberStake, thisEpochView, ← hep, hd] using hstk
  | firstEpoch hact hnext hok =>
    have hbef : e = 0 := by
      rcases hw with hw | ⟨-, hw⟩
      · exact hw.symm.trans hphase.1
      rw [hphase.2.1] at hw
      cases hw
    have he := exec_ok rev crypto w hok
    rw [hact] at he
    have hafter : (exec rev crypto c w).2.epoch = _ := congrArg Registry.epoch he.registry_changeEpoch
    dsimp only at hafter
    rcases hw' with hw' | ⟨hw', -⟩ <;> omega
  | nextEpoch hact hok =>
    -- the set of the next epoch becomes the set of the epoch
    have he := exec_ok rev crypto w hok
    rw [hact] at he
    have hr := he.registry_changeEpoch
    have hep : (exec rev crypto c w).2.epoch = w.epoch + 1 := congrArg Registry.epoch hr
    have hdly : (exec rev crypto c w).2.inEpochDelayPeriod = false := congrArg Registry.inDelay hr
    have hcons : (exec rev crypto c w).2.valsetConsensus = w.valsetConsensus := congrArg Registry.valsetConsensus hr
    have hview : (exec rev crypto c w).2.consensusView = w.consensusView := congrArg Registry.consensusView hr
    have hnext : e = w.epoch + 1 := by
      rcases hw' with hw' | ⟨-, hw'⟩
      · omega
      rw [hdly] at hw'
      cases hw'
    refine sameSet_exec h c ?_ fun v _ => ?_
    · simp [members, thisEpochValset, hep, hdly, hcons, hnext]
    · simp [memberStake, thisEpochView, hep, hdly, hview, hnext]

/-! ## From the snapshot to the end of the epoch -/

/-- Time in half epochs: an epoch and its delay period. -/
def Pool.moment {ι κ : Type} (p : Pool ι κ) : Nat := 2 * p.epoch + p.inDelay.toNat

theorem Pool.moment_step {ι κ : Type} [DecidableEq ι] [DecidableEq κ] {op : Pool.Op ι κ}
    {p p' : Pool ι κ} (h : Pool.Step op p p') : p.moment ≤ p'.moment := by
  cases h with
  | changeEpoch he hn =>
    have := p.inDelay.toNat_le
    simp only [moment, changeEpoch_epoch, changeEpoch_inDelay, Bool.toNat_false]
    omega
  | takeSnapshot hd => simp [moment, hd]
  | compound safe hr hq hs safe' hb => simp [moment, ← hq]
  | _ => simp [moment]

theorem readable_iff : w.Readable e ↔ 2 * e ≤ (w.pool 0).moment + 1 ∧ (w.pool 0).moment ≤ 2 * e + 1 := by
  show _ ↔ 2 * e ≤ 2 * w.epoch + w.inEpochDelayPeriod.toNat + 1 ∧ 2 * w.epoch + w.inEpochDelayPeriod.toNat ≤ 2 * e + 1
  unfold World.Readable
  cases w.inEpochDelayPeriod <;> simp <;> omega

variable (rev crypto) in
/-- The set of an epoch is the same at all moments at which it can be read. -/
theorem readValset_stable {earlier later : List Call} {e : Nat} (he : e + 1 < 2 ^ 64)
    (hrun : Conforms rev crypto (later ++ earlier)) (h : (after rev crypto earlier).Readable e)
    (h' : (after rev crypto (later ++ earlier)).Readable e) :
    ∃ valset, readValset (after rev crypto earlier) e = .valset valset ∧
      readValset (after rev crypto (later ++ earlier)) e = .valset valset := by
  have he64 : e + 1 < uint64Size := by
    unfold uint64Size
    exact he
  refine ⟨_, readValset_of_readable (roster_after rev crypto earlier) h he64, ?_⟩
  rw [← readValset_of_readable (roster_after rev crypto earlier) h he64]
  induction later with
  | nil => rfl
  | cons c later ih =>
    have hmoment : ((after rev crypto earlier).pool 0).moment ≤
        ((after rev crypto (later ++ earlier)).pool 0).moment := by
      clear ih hrun h'
      induction later with
      | nil => exact Nat.le_refl _
      | cons c later ih => exact ih.trans (Pool.moment_step (step_calledOp rev crypto c (later ++ earlier) 0))
    have hmoment' := Pool.moment_step (step_calledOp rev crypto c (later ++ earlier) 0)
    have hmid : (after rev crypto (later ++ earlier)).Readable e := by
      rw [readable_iff] at h h' ⊢
      exact ⟨h.1.trans (Nat.add_le_add_right hmoment 1), hmoment'.trans h'.2⟩
    obtain ⟨phase, phase', hphase, hstep⟩ := conforms_step hrun
    have hros := roster_after rev crypto (later ++ earlier)
    rw [← ih (conforms_tail rev crypto hrun) hmid]
    exact (hstep.sameSet hphase hros hmid h').read hros
      (roster_after rev crypto (c :: (later ++ earlier))) hmid h' he64

end Sets

/-- A validator is registered and chosen in epoch 1, its set read in the delay period, and again in
the delay period of epoch 2 after another delegation. -/
theorem readValset_stable_secondEpoch :
    let earlier := [Call.snapshot, .register 7 8 0 9 (10000000 * mon), .onEpochChange 1]
    let later := [Call.snapshot, .delegate 1 9 mon, .onEpochChange 2]
    (after .five .acceptAll earlier).members 2 = [1] ∧
      ∃ valset, readValset (after .five .acceptAll earlier) 2 = .valset valset ∧
        readValset (after .five .acceptAll (later ++ earlier)) 2 = .valset valset := by
  intro earlier later
  refine ⟨by decide +kernel, ?_⟩
  exact readValset_stable .five .acceptAll (by norm_num) (by decide +kernel)
    (.inr (by decide +kernel)) (.inl (by decide +kernel))

/-- The set of the last epoch can be read in the epoch before it, but not in the epoch itself. -/
theorem not_readValset_stable_lastEpoch :
    let earlier := [Call.snapshot, .onEpochChange (2 ^ 64 - 2)]
    let later := [Call.onEpochChange (2 ^ 64 - 1)]
    Conforms .five .acceptAll (later ++ earlier) ∧ (after .five .acceptAll earlier).Readable (2 ^ 64 - 1) ∧
      (after .five .acceptAll (later ++ earlier)).Readable (2 ^ 64 - 1) ∧
      readValset (after .five .acceptAll earlier) (2 ^ 64 - 1) = .valset [] ∧
      readValset (after .five .acceptAll (later ++ earlier)) (2 ^ 64 - 1) = .nullopt := by
  exact ⟨by decide +kernel, .inr (by decide +kernel), .inl (by decide +kernel), by decide +kernel⟩

end MonadExecution.Staking
