import MonadExecution.Staking.Ledger

/-!
# The epochs of the buckets

A delegator has at most two buckets with an epoch, of two consecutive epochs, and the pool does not
know an epoch behind its horizon. After a pull, the first bucket waits for the next epoch if for any,
and the second one for the epoch after that. This holds after any operations, the last epochs
included, in which a bucket gets the epoch 0 and is taken for an empty one.
-/

namespace MonadExecution.Staking

open Function Nat

/-- The epochs of the buckets in epoch `e`, if nobody can wait for an epoch behind `horizon`. -/
structure Delegator.Timely (e horizon : Nat) (d : Delegator) : Prop where
  consecutive : d.deltaEpoch ≠ 0 → d.nextDeltaEpoch ≠ 0 → d.nextDeltaEpoch = d.deltaEpoch + 1
  delta_le : d.deltaEpoch ≤ e + 1
  next_le : d.nextDeltaEpoch ≤ horizon
  delta_lt : d.deltaEpoch < uint64Size
  next_lt : d.nextDeltaEpoch < uint64Size

/-- The epochs of the buckets after a pull. -/
structure Delegator.UpToDate (e : Nat) (inDelay : Bool) (d : Delegator) : Prop where
  delta : d.deltaEpoch = 0 ∨ d.deltaEpoch = e + 1
  next : d.nextDeltaEpoch = 0 ∨ inDelay = true ∧ d.nextDeltaEpoch = e + 2

theorem uint64Size_pos : 0 < uint64Size := by
  unfold uint64Size
  norm_num

namespace Delegator.Timely

variable {e h : Nat} {d : Delegator}

theorem empty (e h : Nat) : ({} : Delegator).Timely e h where
  consecutive h0 := absurd rfl h0
  delta_le := zero_le _
  next_le := zero_le _
  delta_lt := uint64Size_pos
  next_lt := uint64Size_pos

theorem mono {e' h' : Nat} (ht : d.Timely e h) (he : e ≤ e') (hh : h ≤ h') : d.Timely e' h' where
  consecutive := ht.consecutive
  delta_le := ht.delta_le.trans (Nat.add_le_add_right he 1)
  next_le := ht.next_le.trans hh
  delta_lt := ht.delta_lt
  next_lt := ht.next_lt

variable {d' : Delegator}

/-- Only the epochs count. -/
theorem congr (ht : d.Timely e h) (hd : d'.deltaEpoch = d.deltaEpoch) (hn : d'.nextDeltaEpoch = d.nextDeltaEpoch) :
    d'.Timely e h where
  consecutive := by
    rw [hd, hn]
    exact ht.consecutive
  delta_le := hd ▸ ht.delta_le
  next_le := hn ▸ ht.next_le
  delta_lt := hd ▸ ht.delta_lt
  next_lt := hn ▸ ht.next_lt

/-- The second bucket becomes the first one. -/
theorem shift (ht : d.Timely e h) (hd : d'.deltaEpoch = d.nextDeltaEpoch) (hn : d'.nextDeltaEpoch = 0)
    (hle : d.nextDeltaEpoch ≤ e + 1) : d'.Timely e h where
  consecutive _ h0 := absurd hn h0
  delta_le := hd ▸ hle
  next_le := hn ▸ zero_le _
  delta_lt := hd ▸ ht.next_lt
  next_lt := hn ▸ uint64Size_pos

end Delegator.Timely

namespace Pool

variable {ι κ : Type} [DecidableEq ι] [DecidableEq κ] {p p' : Pool ι κ} {a : ι}

def Timely (p : Pool ι κ) : Prop := ∀ a, (p.del a).Timely p.epoch p.horizon

variable {d : Delegator}

omit [DecidableEq κ] in
theorem Timely.update {q : Pool ι κ} (h : p.Timely) (hdel : q.del = update p.del a d)
    (he : q.epoch = p.epoch) (hd : q.inDelay = p.inDelay) (hself : d.Timely p.epoch p.horizon) : q.Timely := by
  intro b
  have hh : q.horizon = p.horizon := by
    unfold horizon
    rw [he, hd]
  rw [hdel, he, hh]
  rcases eq_or_ne b a with rfl | hb
  · rwa [update_self]
  rw [update_of_ne hb]
  exact h b

/-! ## A pull -/

omit [DecidableEq κ] in
theorem calm_pull (a : ι) (p : Pool ι κ) : Calm a (p.pull a) := by
  have h := calm_foldBuckets a (p.promote a)
  unfold pull settleIfStaked
  split_ifs
  · exact h
  · simpa [Calm] using h

/-- A pool whose promotion for `a` is done: a second bucket without a first one waits for an epoch
behind the next one. -/
def Promoted (a : ι) (q : Pool ι κ) : Prop :=
  (q.del a).deltaEpoch = 0 → (q.del a).nextDeltaEpoch = 0 ∨ (q.epoch + 1) % uint64Size < (q.del a).nextDeltaEpoch

omit [DecidableEq κ] in
theorem promoted_promote (a : ι) (p : Pool ι κ) : (p.promote a).Promoted a := by
  intro h0
  simp only [promote_del, promote_epoch, update_self] at h0 ⊢
  split_ifs at h0 ⊢ with hp
  · exact .inl rfl
  simp only [canPromoteDelta, h0, Bool.and_eq_true, beq_self_eq_true, decide_eq_true_iff, true_and] at hp
  exact .inr (not_le.mp hp)

omit [DecidableEq κ] in
theorem Timely.promote (h : p.Timely) (a : ι) : (p.promote a).Timely := by
  refine h.update (promote_del a p) rfl rfl ?_
  split_ifs with hp
  · simp only [canPromoteDelta, Bool.and_eq_true, decide_eq_true_iff] at hp
    refine (h a).shift rfl rfl (hp.2.trans ?_)
    exact mod_le _ _
  · exact h a

omit [DecidableEq κ] in
theorem Timely.compound (h : p.Timely) (hact : p.isActive (p.del a).deltaEpoch) : (p.compound a).Timely := by
  obtain ⟨h0, hle⟩ := isActive_iff.mp hact
  refine h.update (compound_del a p) rfl rfl ((h a).shift rfl rfl ?_)
  rcases eq_or_ne (p.del a).nextDeltaEpoch 0 with hn | hn
  · omega
  rw [(h a).consecutive h0 hn]
  omega

omit [DecidableEq κ] in
/-- After a pull every record is timely, and the one that was pulled is up to date. -/
theorem Timely.pull (h : p.Timely) (safe : p.PullSafe a) :
    (p.pull a).Timely ∧ ((p.pull a).del a).UpToDate p.epoch p.inDelay := by
  have hinv : (p.pull a).Timely ∧ (p.pull a).Promoted a := by
    refine pull_induct (P := fun q => q.Timely ∧ q.Promoted a) safe ?_ ?_ ?_
    · exact ⟨h.promote a, promoted_promote a p⟩
    · intro q hq hact _
      refine ⟨hq.1.compound hact, fun _ => .inl ?_⟩
      simp
    · intro q hq _ _ _
      refine ⟨hq.1.update (settle_del a q) rfl rfl ((hq.1 a).congr rfl rfl), ?_⟩
      simpa [Promoted] using hq.2
  obtain ⟨htim, hpromoted⟩ := hinv
  obtain ⟨hdelta, hnext⟩ := calm_pull a p
  rw [isActive_eq_false, epoch_pull] at hdelta hnext
  have ht := htim a
  rw [epoch_pull, horizon_pull] at ht
  unfold Promoted at hpromoted
  rw [epoch_pull] at hpromoted
  have hdel' : ((p.pull a).del a).deltaEpoch = 0 ∨ ((p.pull a).del a).deltaEpoch = p.epoch + 1 := by
    have := ht.delta_le
    omega
  refine ⟨htim, hdel', ?_⟩
  rcases eq_or_ne ((p.pull a).del a).nextDeltaEpoch 0 with h0 | h0
  · exact .inl h0
  -- the second bucket cannot wait for the next epoch, so the pool is in the delay period
  have htwo : p.epoch + 2 ≤ ((p.pull a).del a).nextDeltaEpoch := by
    rcases hdel' with hd | hd
    · rcases hpromoted hd with hn | hn
      · exact absurd hn h0
      have hlt := ht.next_lt
      rw [mod_eq_of_lt (by omega)] at hn
      omega
    · rw [ht.consecutive (by omega) h0, hd]
  have hle := ht.next_le
  unfold horizon at hle
  split_ifs at hle with hdly
  · exact .inr ⟨hdly, by omega⟩
  · omega

/-! ## The operations -/

omit [DecidableEq ι] [DecidableEq κ] in
/-- The epoch of the bucket that is filled is the one it gets, if it has one. -/
theorem stagedEpoch_eq (hd : d.UpToDate p.epoch p.inDelay) (ht : d.Timely p.epoch p.horizon)
    (h0 : d.stagedEpoch p.inDelay ≠ 0) : d.stagedEpoch p.inDelay = p.activation := by
  have hdelta := hd.delta
  have hnext := hd.next
  have hlt := ht.delta_lt
  have hlt' := ht.next_lt
  unfold Delegator.stagedEpoch activation at *
  cases hdly : p.inDelay with
  | true =>
    simp only [hdly, if_true, true_and] at *
    rw [mod_eq_of_lt (by omega)]
    omega
  | false =>
    simp only [hdly, Bool.false_eq_true, if_false] at *
    rw [mod_eq_of_lt (by omega)]
    omega

omit [DecidableEq κ] in
theorem Timely.stage (h : p.Timely) (hd : (p.del a).UpToDate p.epoch p.inDelay) (s : Nat) : (p.stage a s).Timely := by
  refine h.update (stage_del a s p) rfl rfl ?_
  have ht := h a
  have hdelta := hd.delta
  have hnext := hd.next
  have hactv : p.activation < uint64Size := by
    rw [activation_eq]
    exact mod_lt _ uint64Size_pos
  have hle : p.activation ≤ p.horizon := by
    rw [activation_eq]
    exact mod_le _ _
  cases hdly : p.inDelay with
  | true =>
    refine ⟨fun h0 h1 => ?_, ht.delta_le, hle, ht.delta_lt, hactv⟩
    -- there is a first bucket, so the next epoch exists; the one after it is no multiple of `2 ^ 64`
    have hone : (p.del a).deltaEpoch = p.epoch + 1 := hdelta.resolve_left h0
    have hlt := ht.delta_lt
    have hmod : p.activation = (p.epoch + 2) % uint64Size := by simp [activation, hdly]
    have htwo : p.epoch + 2 ≠ uint64Size := by
      intro heq
      apply h1
      show p.activation = 0
      rw [hmod, heq, mod_self]
    show p.activation = (p.del a).deltaEpoch + 1
    rw [hmod, hone, mod_eq_of_lt (by omega)]
  | false =>
    refine ⟨fun _ h0 => ?_, ?_, ht.next_le, hactv, ht.next_lt⟩
    · rcases hnext with hn | ⟨hn, -⟩
      · exact absurd hn h0
      rw [hdly] at hn
      cases hn
    · refine hle.trans ?_
      simp [horizon, hdly]

omit [DecidableEq κ] in
theorem Timely.takeRewards (h : p.Timely) (a : ι) : (p.takeRewards a).Timely :=
  h.update (takeRewards_del a p) rfl rfl ((h a).congr rfl rfl)

/-- Every operation keeps the buckets timely. -/
theorem Timely.step {op : Op ι κ} (hstep : Step op p p') (h : p.Timely) : p'.Timely := by
  have hhor := horizon_step hstep
  have hep := epoch_step hstep
  cases hstep with
  | idle => exact h
  | pull safe => exact (h.pull safe).1
  | delegate hs safe hr =>
    obtain ⟨htim, hself⟩ := h.pull safe
    exact htim.stage (by rwa [epoch_pull, inDelay_pull]) _
  | @undelegate _ a i amount h0 hw safe hx hl =>
    obtain ⟨htim, -⟩ := h.pull safe
    exact htim.update (lower_del a i amount _) rfl rfl ((htim a).congr rfl rfl)
  | compoundNothing safe h0 | claim safe => exact (h.pull safe).1.takeRewards _
  | @compound _ _ a r safe hr hq hs safe' hb =>
    have hq' := (h.pull safe).1.takeRewards a
    rw [hq] at hq'
    obtain ⟨htim, hself⟩ := hq'.pull safe'
    exact htim.stage (by rwa [epoch_pull, inDelay_pull]) _
  | withdraw hw ready can => exact h
  | @reward _ auth commission r hv => exact h.update (reward_del auth commission r p) rfl rfl ((h auth).congr rfl rfl)
  | changeEpoch | takeSnapshot => exact fun a => (h a).mono hep hhor

end Pool

end MonadExecution.Staking
