import MonadExecution.Staking.Holdings

/-!
# References to the accumulator cells

Every bucket and every withdrawal request that waits for an epoch holds a reference to the cell of
that epoch, and a cell without references is cleared. In the last epochs the cell of epoch 0 is used for
buckets that lose their stake; its count is bounded by the stake that was lost.
-/

namespace MonadExecution.Staking

open Program Function Finset Delegator Pool RefCountedAccumulator Fintype Limits

/-! ## Counting -/

/-- The references of a delegator to the cell of epoch `f`. -/
def Delegator.refs (d : Delegator) (f : Nat) : Nat :=
  (if d.deltaEpoch = f then 1 else 0) + if d.nextDeltaEpoch = f then 1 else 0

/-- The reference of an open withdrawal request. -/
def WithdrawalRequest.refs (r : WithdrawalRequest) (f : Nat) : Nat := if r.hasValue ∧ r.epoch = f then 1 else 0

/-- The stake that the contract still knows of: the buckets with an epoch and the active stake. -/
def Delegator.known (d : Delegator) : Nat :=
  d.stake + (if d.deltaEpoch = 0 then 0 else d.deltaStake) + if d.nextDeltaEpoch = 0 then 0 else d.nextDeltaStake

theorem Delegator.refs_le (d : Delegator) (f : Nat) : d.refs f ≤ 2 := by
  unfold refs
  split_ifs <;> omega

theorem WithdrawalRequest.refs_le (r : WithdrawalRequest) (f : Nat) : r.refs f ≤ 1 := by
  unfold refs
  split_ifs <;> omega

theorem WithdrawalRequest.refs_of_not (r : WithdrawalRequest) (h : r.hasValue = false) (f : Nat) : r.refs f = 0 := by
  simp [refs, h]

/-! The cells. -/

namespace RefCountedAccumulator

/-- A cell without references is empty. -/
def Clear (c : RefCountedAccumulator) : Prop := c.refcount = 0 → c.value = 0

theorem clear_acquire (c : RefCountedAccumulator) (acc : Nat) (h : c.refcount + 1 < uint256Size) :
    (c.acquire acc).refcount = c.refcount + 1 ∧ (c.acquire acc).Clear := by
  have hcnt : (c.acquire acc).refcount = c.refcount + 1 := Nat.mod_eq_of_lt h
  refine ⟨hcnt, fun h0 => ?_⟩
  rw [hcnt] at h0
  exact absurd h0 (Nat.succ_ne_zero _)

variable {c : RefCountedAccumulator}

theorem clear_release (h : c.refcount ≠ 0) : c.release.refcount + 1 = c.refcount ∧ c.release.Clear := by
  unfold release
  rw [if_neg h]
  split_ifs with h1
  · exact ⟨by dsimp only; omega, fun _ => rfl⟩
  · exact ⟨by dsimp only; omega, fun h0 => absurd h0 h1⟩

theorem clear_refresh (h : c.Clear) (acc : Nat) : (c.refresh acc).refcount = c.refcount ∧ (c.refresh acc).Clear := by
  unfold refresh
  split_ifs with hv
  · refine ⟨rfl, fun h0 => ?_⟩
    have h0' : c.refcount = 0 := h0
    simp [hasValue, h h0', h0'] at hv
  · exact ⟨rfl, h⟩

end RefCountedAccumulator

namespace Pool

variable {ι κ : Type} [DecidableEq ι] [DecidableEq κ] [Fintype ι] [Fintype κ] {p q p' : Pool ι κ}
  {a : ι}

def bucketRefs (p : Pool ι κ) (f : Nat) : Nat := ∑ a, (p.del a).refs f

def requestRefs (p : Pool ι κ) (f : Nat) : Nat := ∑ j, (p.request j).refs f

/-- More references than there can be. -/
def capacity (ι κ : Type) [Fintype ι] [Fintype κ] : Nat := 2 * Fintype.card ι + Fintype.card (ι × κ) + 1

theorem capacity_eq (ι κ : Type) [Fintype ι] [Fintype κ] :
    capacity ι κ = 2 * card ι + card ι * card κ + 1 := by
  unfold capacity
  rw [card_prod]

omit [DecidableEq ι] [DecidableEq κ] in
theorem refs_lt_capacity (p : Pool ι κ) (f : Nat) : p.bucketRefs f + p.requestRefs f < capacity ι κ := by
  have hb : p.bucketRefs f ≤ card ι * 2 := by
    refine (sum_le_card_nsmul _ _ 2 fun a _ => (p.del a).refs_le f).trans ?_
    rw [smul_eq_mul, card_univ]
  have hr : p.requestRefs f ≤ card (ι × κ) * 1 := by
    refine (sum_le_card_nsmul _ _ 1 fun j _ => (p.request j).refs_le f).trans ?_
    rw [smul_eq_mul, card_univ]
  unfold capacity
  omega

omit [DecidableEq ι] [DecidableEq κ] [Fintype κ] in
theorem le_bucketRefs (p : Pool ι κ) (a : ι) (f : Nat) : (p.del a).refs f ≤ p.bucketRefs f :=
  single_le_sum (f := fun a => (p.del a).refs f) (fun _ _ => Nat.zero_le _) (mem_univ a)

omit [DecidableEq ι] [DecidableEq κ] in
theorem le_requestRefs (p : Pool ι κ) (j : ι × κ) (f : Nat) : (p.request j).refs f ≤ p.requestRefs f :=
  single_le_sum (f := fun j => (p.request j).refs f) (fun _ _ => Nat.zero_le _) (mem_univ j)

/-- The references and the stake behind them. -/
structure Counted (p : Pool ι κ) : Prop where
  epoch_lt : p.epoch < uint64Size
  timely : p.Timely
  request_le : ∀ j, (p.request j).epoch ≤ p.horizon
  exact : ∀ f, f ≠ 0 → (p.cell f).refcount = p.bucketRefs f + p.requestRefs f
  clear : ∀ f, (p.cell f).Clear
  /-- the cell of epoch 0 counts at least the requests that wait for it -/
  zero : p.requestRefs 0 ≤ (p.cell 0).refcount
  early : p.horizon < uint64Size → ∀ a, EmptyWithoutEpoch (p.del a)
  /-- every other reference to the cell of epoch 0 has cost more than dust -/
  paid : Limits.dustThreshold * (p.cell 0).refcount + ∑ a, (p.del a).known ≤
    p.stake + Limits.dustThreshold * p.requestRefs 0
  stake_lt : p.stake < uint256Size

section Update

variable {d : Delegator}

omit [DecidableEq κ] [Fintype κ] in
theorem bucketRefs_update (hdel : q.del = update p.del a d) (f : Nat) :
    q.bucketRefs f + (p.del a).refs f = p.bucketRefs f + d.refs f := by
  unfold bucketRefs
  rw [hdel]
  exact sum_update (fun d => Delegator.refs d f) p.del a d

omit [DecidableEq κ] [Fintype κ] in
theorem known_update (hdel : q.del = update p.del a d) :
    ∑ b, (q.del b).known + (p.del a).known = ∑ b, (p.del b).known + d.known := by
  rw [hdel]
  exact sum_update Delegator.known p.del a d

omit [DecidableEq κ] in
/-- A change of the record of `a` and of the cells, by which the references move together. -/
theorem Counted.update (h : p.Counted) (hdel : q.del = update p.del a d) (hreq : q.request = p.request)
    (hstk : q.stake = p.stake) (hep : q.epoch = p.epoch) (hdly : q.inDelay = p.inDelay) (timely : q.Timely)
    (early : EmptyWithoutEpoch (p.del a) → EmptyWithoutEpoch d) (known : d.known = (p.del a).known)
    (refs : ∀ f, f ≠ 0 → (q.cell f).refcount + (p.del a).refs f = (p.cell f).refcount + d.refs f)
    (clear : ∀ f, (q.cell f).Clear) (zero : (q.cell 0).refcount = (p.cell 0).refcount) : q.Counted := by
  have hhor : q.horizon = p.horizon := by
    unfold horizon
    rw [hep, hdly]
  have hrefs (f : Nat) : q.requestRefs f = p.requestRefs f := by
    unfold requestRefs
    rw [hreq]
  refine
    { epoch_lt := by rw [hep]; exact h.epoch_lt
      timely := timely
      request_le := by rw [hreq, hhor]; exact h.request_le
      exact := fun f hf => ?_
      clear := clear
      zero := by rw [hrefs, zero]; exact h.zero
      early := fun hh b => ?_
      paid := ?_
      stake_lt := by rw [hstk]; exact h.stake_lt }
  · have hb := bucketRefs_update hdel f
    have hp := h.exact f hf
    have hq := refs f hf
    rw [hrefs]
    omega
  · rw [hhor] at hh
    rw [hdel]
    rcases eq_or_ne b a with rfl | hb
    · rw [update_self]
      exact early (h.early hh b)
    · rw [update_of_ne hb]
      exact h.early hh b
  · have hsum := known_update hdel
    have hpaid := h.paid
    rw [zero, hstk, hrefs]
    omega

end Update

section

variable (h : p.Counted)

include h

omit [DecidableEq ι] [DecidableEq κ] in
/-- Nobody waits for an epoch behind the horizon. -/
theorem Counted.refs_eq_zero {f : Nat} (hf : p.horizon < f) : p.bucketRefs f + p.requestRefs f = 0 := by
  have hlt := epoch_lt_horizon p
  have hbkt : p.bucketRefs f = 0 := by
    refine sum_eq_zero fun a _ => ?_
    have hd := (h.timely a).delta_le
    have hn := (h.timely a).next_le
    unfold Delegator.refs
    rw [if_neg (by omega), if_neg (by omega), Nat.add_zero]
  have hreq : p.requestRefs f = 0 := by
    refine sum_eq_zero fun j _ => ?_
    have hj := h.request_le j
    unfold WithdrawalRequest.refs
    rw [if_neg (by omega)]
  omega

/-! ## A pull -/

omit [DecidableEq κ] in
theorem Counted.promote (a : ι) : (p.promote a).Counted := by
  refine h.update (promote_del a p) rfl rfl rfl rfl (h.timely.promote a) ?_ ?_ ?_ h.clear rfl
  · intro he
    split_ifs
    · exact he.promote
    · exact he
  · split_ifs with hp
    · simp only [canPromoteDelta, Bool.and_eq_true, beq_iff_eq] at hp
      simp [Delegator.known, promoteDelta, hp.1]
      rfl
    · rfl
  · intro f hf
    split_ifs with hp
    · simp only [canPromoteDelta, Bool.and_eq_true, beq_iff_eq] at hp
      simp [Delegator.refs, promoteDelta, hp.1, hf.symm]
      rfl
    · rfl

omit [DecidableEq ι] [DecidableEq κ] in
/-- A bucket with an epoch has a reference. -/
theorem Counted.refcount_ne {f : Nat} (hf : f ≠ 0) (ha : (p.del a).deltaEpoch = f ∨ (p.del a).nextDeltaEpoch = f) :
    (p.cell f).refcount ≠ 0 := by
  have hle := p.le_bucketRefs a f
  have hone : 1 ≤ (p.del a).refs f := by
    unfold Delegator.refs
    rcases ha with ha | ha <;> simp [ha]
  rw [h.exact f hf]
  omega

omit [DecidableEq κ] in
theorem Counted.compound (hact : p.isActive (p.del a).deltaEpoch) : (p.compound a).Counted := by
  obtain ⟨h0, -⟩ := isActive_iff.mp hact
  have hcnt := h.refcount_ne h0 (.inl rfl)
  obtain ⟨hrelease, hclear⟩ := clear_release hcnt
  refine h.update (compound_del a p) rfl rfl rfl rfl (h.timely.compound hact) ?_ ?_ ?_ ?_ ?_
  · exact fun he => he.compounded _ _
  · simp [Delegator.known, h0]
  · intro f hf
    simp only [compound_cell, Delegator.refs, compounded_deltaEpoch, compounded_nextDeltaEpoch]
    rcases eq_or_ne f (p.del a).deltaEpoch with rfl | hne
    · rw [update_self, if_pos rfl, if_neg hf.symm]
      omega
    · rw [update_of_ne hne, if_neg hne.symm, if_neg hf.symm]
      omega
  · intro f
    rw [compound_cell]
    rcases eq_or_ne f (p.del a).deltaEpoch with rfl | hne
    · rwa [update_self]
    rw [update_of_ne hne]
    exact h.clear f
  · rw [compound_cell, update_of_ne h0.symm]

omit [DecidableEq κ] in
theorem Counted.settle (a : ι) : (p.settle a).Counted :=
  h.update (settle_del a p) rfl rfl rfl rfl (h.timely.update (settle_del a p) rfl rfl ((h.timely a).congr rfl rfl))
    (fun he => ⟨he.delta, he.next⟩) rfl (fun _ _ => rfl) h.clear rfl

omit [DecidableEq κ] in
theorem Counted.pull (safe : p.PullSafe a) : (p.pull a).Counted :=
  pull_induct (P := Counted) safe (h.promote a) (fun _ hq hact _ => hq.compound hact) fun _ hq _ _ _ => hq.settle a

omit [DecidableEq κ] in
theorem Counted.takeRewards (a : ι) : (p.takeRewards a).Counted :=
  h.update (takeRewards_del a p) rfl rfl rfl rfl (h.timely.takeRewards a)
    (fun he => ⟨he.delta, he.next⟩) rfl (fun _ _ => rfl) h.clear rfl

/-! ## Staging and undelegating -/

omit [DecidableEq ι] [DecidableEq κ] in
/-- A reference more fits. -/
theorem Counted.refcount_lt (hcap : 2 * capacity ι κ < uint256Size) (f : Nat) :
    (p.cell f).refcount + 1 < uint256Size := by
  have hrefs := p.refs_lt_capacity f
  rcases eq_or_ne f 0 with rfl | hf
  · have hpaid := h.paid
    have hlt := h.stake_lt
    unfold dustThreshold at hpaid
    omega
  · rw [h.exact f hf]
    omega

end

omit [DecidableEq κ] [Fintype ι] [Fintype κ] in
/-- In the last epoch a pull empties the second bucket. -/
theorem nextDeltaStake_pull (h : p.Timely) (safe : p.PullSafe a) (hlast : p.epoch + 1 = uint64Size) :
    ((p.pull a).del a).nextDeltaStake = 0 := by
  have hinv : ((p.pull a).del a).deltaEpoch ≠ 0 ∨ ((p.pull a).del a).nextDeltaEpoch ≠ 0 ∨
      ((p.pull a).del a).nextDeltaStake = 0 := by
    refine pull_induct (P := fun q => (q.del a).deltaEpoch ≠ 0 ∨ (q.del a).nextDeltaEpoch ≠ 0 ∨
      (q.del a).nextDeltaStake = 0) safe ?_ ?_ ?_
    · rw [promote_del, update_self]
      split_ifs with hp
      · exact .inr (.inr rfl)
      simp only [canPromoteDelta, hlast, Nat.mod_self, Bool.and_eq_true, beq_iff_eq,
        decide_eq_true_iff, not_and] at hp
      by_cases h0 : (p.del a).deltaEpoch = 0
      · exact .inr (.inl fun hn => hp h0 hn.le)
      · exact .inl h0
    · intro q _ _ _
      exact .inr (.inr (by simp))
    · intro q hq _ _ _
      simpa using hq
  obtain ⟨htim, hup⟩ := h.pull safe
  have ht := htim a
  have hdelta := hup.delta
  have hnext := hup.next
  have hdelta_lt := ht.delta_lt
  have hnext_lt := ht.next_lt
  omega

omit [DecidableEq κ] in
/-- The bucket that is filled is empty if it has no epoch and gets one. -/
theorem Counted.empty_of_activation (h : p.Counted) (safe : p.PullSafe a)
    (hactv : p.activation ≠ 0) (h0 : ((p.pull a).del a).stagedEpoch p.inDelay = 0) :
    (if p.inDelay then ((p.pull a).del a).nextDeltaStake else ((p.pull a).del a).deltaStake) = 0 := by
  by_cases hh : p.horizon < uint64Size
  · have hemp := (h.pull safe).early (by rwa [horizon_pull]) a
    unfold Delegator.stagedEpoch at h0
    split_ifs at h0 ⊢
    · exact hemp.next h0
    · exact hemp.delta h0
  -- only the delay period of the last epoch is left
  have hlt := h.epoch_lt
  rw [activation_eq] at hactv
  unfold horizon at hh hactv
  split_ifs at hh hactv ⊢ with hdly
  · have hne : p.epoch + 2 ≠ uint64Size := by
      intro heq
      rw [heq, Nat.mod_self] at hactv
      exact hactv rfl
    exact nextDeltaStake_pull h.timely safe (by omega)
  · have heq : p.epoch + 1 = uint64Size := by omega
    rw [heq, Nat.mod_self] at hactv
    exact absurd rfl hactv

theorem refs_staged (d : Delegator) (inDelay : Bool) (s e f : Nat) :
    (d.staged inDelay s e).refs f + (if d.stagedEpoch inDelay = f then 1 else 0) =
      d.refs f + if e = f then 1 else 0 := by
  unfold Delegator.staged Delegator.stagedEpoch Delegator.refs
  cases inDelay <;> simp only [Bool.false_eq_true, if_true, if_false] <;> omega

variable {d : Delegator} {inDelay : Bool} {s amount : Nat} {j : ι × κ}

/-- A staged bucket that has no epoch is not known. -/
theorem known_staged_zero (h0 : d.stagedEpoch inDelay = 0) : (d.staged inDelay s 0).known = d.known := by
  unfold Delegator.stagedEpoch at h0
  unfold Delegator.staged Delegator.known
  cases inDelay <;> simp_all

theorem known_staged {e : Nat} (he : e ≠ 0)
    (h0 : d.stagedEpoch inDelay = 0 → (if inDelay then d.nextDeltaStake else d.deltaStake) = 0) :
    (d.staged inDelay s e).known = d.known + s := by
  unfold Delegator.stagedEpoch at h0
  unfold Delegator.staged Delegator.known
  cases inDelay with
  | true => split_ifs at h0 ⊢ with hd hn hn <;> simp_all <;> omega
  | false => split_ifs at h0 ⊢ with hd hn hn <;> simp_all <;> omega

omit [DecidableEq κ] in
theorem Counted.stage (h : p.Counted) (hcap : 2 * capacity ι κ < uint256Size)
    (hup : (p.del a).UpToDate p.epoch p.inDelay)
    (hemp : p.activation ≠ 0 → (p.del a).stagedEpoch p.inDelay = 0 →
      (if p.inDelay then (p.del a).nextDeltaStake else (p.del a).deltaStake) = 0)
    (hs : dustThreshold ≤ s) (hlt : p.stake + s < uint256Size) : (p.stage a s).Counted := by
  obtain ⟨hacquire, hclear⟩ := clear_acquire (p.cell p.activation) p.acc (h.refcount_lt hcap _)
  have hsum := known_update (stage_del a s p)
  have hbkt (f : Nat) := bucketRefs_update (stage_del a s p) f
  have hstg (f : Nat) := refs_staged (p.del a) p.inDelay s p.activation f
  have hpaid := h.paid
  have hzero := h.zero
  have hreq (f : Nat) : (p.stage a s).requestRefs f = p.requestRefs f := rfl
  refine
    { epoch_lt := h.epoch_lt
      timely := h.timely.stage hup s
      request_le := h.request_le
      exact := fun f hf => ?_
      clear := fun f => ?_
      zero := ?_
      early := fun hh b => ?_
      paid := ?_
      stake_lt := hlt }
  · have hexact := h.exact f hf
    specialize hbkt f
    specialize hstg f
    rw [stage_cell, hreq]
    split_ifs with h0
    · rw [h0, if_neg hf.symm] at hstg
      rcases eq_or_ne f p.activation with rfl | hne
      · rw [update_self, hacquire]
        rw [if_pos rfl] at hstg
        omega
      · rw [update_of_ne hne]
        rw [if_neg hne.symm] at hstg
        omega
    · rw [stagedEpoch_eq hup (h.timely a) h0] at hstg
      omega
  · rw [stage_cell]
    split_ifs
    · rcases eq_or_ne f p.activation with rfl | hne
      · rwa [update_self]
      rw [update_of_ne hne]
      exact h.clear f
    · exact h.clear f
  · rw [stage_cell, hreq]
    split_ifs
    · rcases eq_or_ne 0 p.activation with h0 | hne
      · rw [h0, update_self, hacquire, ← h0]
        omega
      · rwa [update_of_ne hne]
    · exact hzero
  · have hp : p.horizon < uint64Size := hh
    have hactv : p.activation ≠ 0 := by
      have := epoch_lt_horizon p
      rw [activation_of_horizon hp]
      omega
    rw [stage_del]
    rcases eq_or_ne b a with rfl | hb
    · rw [update_self]
      exact (h.early hp b).staged hactv
    · rw [update_of_ne hb]
      exact h.early hp b
  · rw [stage_cell, stage_stake, hreq]
    by_cases h0 : (p.del a).stagedEpoch p.inDelay = 0
    · rw [if_pos h0]
      rcases eq_or_ne p.activation 0 with hz | hne
      · -- the bucket gets no epoch, and its stake is lost
        rw [hz, known_staged_zero h0] at hsum
        rw [hz, update_self, ← hz, hacquire, hz, Nat.mul_add]
        omega
      · rw [known_staged hne (hemp hne)] at hsum
        rw [update_of_ne hne.symm]
        omega
    · rw [if_neg h0]
      have hne : p.activation ≠ 0 := stagedEpoch_eq hup (h.timely a) h0 ▸ h0
      rw [known_staged hne fun h0' => absurd h0' h0] at hsum
      omega

omit [DecidableEq ι] [DecidableEq κ] [Fintype ι] [Fintype κ] in
theorem leaving_pos (h0 : amount ≠ 0) (hx : amount ≤ (p.del a).stake) : p.leaving a amount ≠ 0 := by
  unfold leaving
  split_ifs <;> omega

theorem requestRefs_update {r : WithdrawalRequest} (hreq : q.request = update p.request j r) (f : Nat) :
    q.requestRefs f + (p.request j).refs f = p.requestRefs f + r.refs f := by
  unfold requestRefs
  rw [hreq]
  exact sum_update (fun r => WithdrawalRequest.refs r f) p.request j r

section

variable (h : p.Counted)

include h

theorem Counted.lower (hcap : 2 * capacity ι κ < uint256Size) {i : κ} (h0 : amount ≠ 0)
    (hw : (p.request (a, i)).hasValue = false) (hx : amount ≤ (p.del a).stake) (hl : p.leaving a amount ≤ p.stake) :
    (p.lower a i amount).Counted := by
  obtain ⟨hacquire, hclear⟩ := clear_acquire (p.cell p.activation) p.acc (h.refcount_lt hcap _)
  have hout := leaving_pos h0 hx
  have hsum := known_update (lower_del a i amount p)
  have hbkt (f : Nat) := bucketRefs_update (lower_del a i amount p) f
  have hreq (f : Nat) := requestRefs_update (lower_request a i amount p) f
  have hclosed (f : Nat) := (p.request (a, i)).refs_of_not hw f
  have hopen (acc f : Nat) : WithdrawalRequest.refs
      { amount := p.leaving a amount, acc := acc, epoch := p.activation } f =
      if p.activation = f then 1 else 0 := by simp [WithdrawalRequest.refs, WithdrawalRequest.hasValue, hout]
  have hpaid := h.paid
  have hzero := h.zero
  have hcell (f : Nat) : ((p.lower a i amount).cell f).refcount =
      (p.cell f).refcount + if p.activation = f then 1 else 0 := by
    rw [lower_cell]
    rcases eq_or_ne f p.activation with rfl | hne
    · rw [update_self, hacquire, if_pos rfl]
    · rw [update_of_ne hne, if_neg hne.symm, Nat.add_zero]
  refine
    { epoch_lt := h.epoch_lt
      timely := h.timely.update (lower_del a i amount p) rfl rfl ((h.timely a).congr rfl rfl)
      request_le := fun j => ?_
      exact := fun f hf => ?_
      clear := fun f => ?_
      zero := ?_
      early := fun hh b => ?_
      paid := ?_
      stake_lt := Nat.lt_of_le_of_lt (Nat.sub_le _ _) h.stake_lt }
  · rw [lower_request]
    rcases eq_or_ne j (a, i) with rfl | hj
    · rw [update_self]
      rw [activation_eq]
      exact Nat.mod_le _ _
    · rw [update_of_ne hj]
      exact h.request_le j
  · have hexact := h.exact f hf
    specialize hbkt f
    specialize hreq f
    have hsame : ((p.del a).lowered (p.leaving a amount)).refs f = (p.del a).refs f := rfl
    rw [hclosed, hopen] at hreq
    rw [hcell]
    omega
  · rw [lower_cell]
    rcases eq_or_ne f p.activation with rfl | hne
    · rwa [update_self]
    rw [update_of_ne hne]
    exact h.clear f
  · specialize hreq 0
    rw [hclosed, hopen] at hreq
    rw [hcell]
    omega
  · rw [lower_del]
    rcases eq_or_ne b a with rfl | hb
    · rw [update_self]
      exact ⟨(h.early hh b).delta, (h.early hh b).next⟩
    · rw [update_of_ne hb]
      exact h.early hh b
  · specialize hreq 0
    rw [hclosed, hopen] at hreq
    have hlow : ((p.del a).lowered (p.leaving a amount)).known + p.leaving a amount = (p.del a).known := by
      have hle := leaving_le hx
      have hrest : ((p.del a).lowered (p.leaving a amount)).known + (p.del a).stake =
          (p.del a).stake - p.leaving a amount + (p.del a).known := by
        unfold Delegator.known
        rw [lowered_stake, lowered_deltaEpoch, lowered_deltaStake, lowered_nextDeltaEpoch, lowered_nextDeltaStake]
        omega
      omega
    rw [hcell, lower_stake, Nat.mul_add]
    have hmul : dustThreshold * (p.lower a i amount).requestRefs 0 = dustThreshold * p.requestRefs 0 +
          dustThreshold * (if p.activation = 0 then 1 else 0) := by rw [← Nat.mul_add, ← hreq, Nat.add_zero]
    omega

/-! ## Withdrawing -/

omit [DecidableEq ι] [DecidableEq κ] in
theorem Counted.request_refcount_ne (hw : (p.request j).hasValue) : (p.cell (p.request j).epoch).refcount ≠ 0 := by
  have hle := p.le_requestRefs j (p.request j).epoch
  have hone : (p.request j).refs (p.request j).epoch = 1 := by simp [WithdrawalRequest.refs, hw]
  rcases eq_or_ne (p.request j).epoch 0 with h0 | h0
  · have hzero := h.zero
    rw [h0] at hle hone ⊢
    omega
  · rw [h.exact _ h0]
    omega

theorem Counted.redeem {i : κ} (hw : (p.request (a, i)).hasValue) : (p.redeem a i).Counted := by
  have hcnt := h.request_refcount_ne hw
  obtain ⟨hrelease, hclear⟩ := clear_release hcnt
  have hreq (f : Nat) := requestRefs_update (redeem_request a i p) f
  have hopen (f : Nat) : (p.request (a, i)).refs f =
      if (p.request (a, i)).epoch = f then 1 else 0 := by simp [WithdrawalRequest.refs, hw]
  have hclosed (f : Nat) : WithdrawalRequest.refs {} f = 0 := by
    simp [WithdrawalRequest.refs, WithdrawalRequest.hasValue]
  have hcell (f : Nat) : ((p.redeem a i).cell f).refcount +
      (if (p.request (a, i)).epoch = f then 1 else 0) = (p.cell f).refcount := by
    rw [redeem_cell]
    rcases eq_or_ne f (p.request (a, i)).epoch with rfl | hne
    · rw [update_self, if_pos rfl, hrelease]
    · rw [update_of_ne hne, if_neg hne.symm, Nat.add_zero]
  have hbkt (f : Nat) : (p.redeem a i).bucketRefs f = p.bucketRefs f := rfl
  refine
    { epoch_lt := h.epoch_lt
      timely := h.timely
      request_le := fun j => ?_
      exact := fun f hf => ?_
      clear := fun f => ?_
      zero := ?_
      early := h.early
      paid := ?_
      stake_lt := h.stake_lt }
  · rw [redeem_request]
    rcases eq_or_ne j (a, i) with rfl | hj
    · rw [update_self]
      exact Nat.zero_le _
    · rw [update_of_ne hj]
      exact h.request_le j
  · have hexact := h.exact f hf
    specialize hreq f
    specialize hcell f
    rw [hclosed, hopen] at hreq
    rw [hbkt]
    omega
  · rw [redeem_cell]
    rcases eq_or_ne f (p.request (a, i)).epoch with rfl | hne
    · rwa [update_self]
    rw [update_of_ne hne]
    exact h.clear f
  · have hzero := h.zero
    specialize hreq 0
    specialize hcell 0
    rw [hclosed, hopen] at hreq
    omega
  · have hpaid := h.paid
    specialize hreq 0
    specialize hcell 0
    rw [hclosed, hopen, Nat.add_zero] at hreq
    have hdel : (p.redeem a i).del = p.del := rfl
    have hstk : (p.redeem a i).stake = p.stake := rfl
    rw [← hcell, ← hreq, Nat.mul_add, Nat.mul_add] at hpaid
    rw [hdel, hstk]
    omega

/-! ## The operations -/

theorem Counted.changeEpoch {next : Nat} {listed : Bool}
    (hstep : Step (.changeEpoch next listed) p (p.changeEpoch next listed)) (hn : next < uint64Size) :
    (p.changeEpoch next listed).Counted := by
  have hhor := horizon_step hstep
  have hcell (f : Nat) : ((p.changeEpoch next listed).cell f).refcount = (p.cell f).refcount ∧
      ((p.changeEpoch next listed).cell f).Clear := by
    obtain ⟨hcnt, hclear⟩ := clear_refresh (h.clear f) p.acc
    have hsame := h.clear f
    rw [changeEpoch_cell]
    split_ifs
    · dsimp only
      split_ifs
      · exact ⟨hcnt, hclear⟩
      · exact ⟨rfl, hsame⟩
    · exact ⟨rfl, hsame⟩
  exact
    { epoch_lt := hn
      timely := h.timely.step hstep
      request_le := fun j => (h.request_le j).trans hhor
      exact := fun f hf => (hcell f).1.trans (h.exact f hf)
      clear := fun f => (hcell f).2
      zero := by rw [(hcell 0).1]; exact h.zero
      early := fun hh => h.early (hhor.trans_lt hh)
      paid := by rw [(hcell 0).1]; exact h.paid
      stake_lt := h.stake_lt }

theorem Counted.takeSnapshot {chosen : Bool} (hstep : Step (.takeSnapshot chosen) p (p.takeSnapshot chosen)) :
    (p.takeSnapshot chosen).Counted :=
  { h with
    timely := h.timely.step hstep
    request_le := fun j => (h.request_le j).trans (horizon_step hstep)
    exact := h.exact
    zero := h.zero
    early := fun hh => h.early ((horizon_step hstep).trans_lt hh)
    paid := h.paid }

end

/-- Every operation keeps the references counted. -/
theorem Counted.step (hcap : 2 * capacity ι κ < uint256Size) {op : Op ι κ} (hstep : Step op p p')
    (h : p.Counted) : p'.Counted := by
  cases hstep with
  | idle => exact h
  | pull safe => exact h.pull safe
  | delegate hs safe hr =>
    refine (h.pull safe).stage hcap ?_ (fun hactv h0 => ?_) hs hr
    · rw [epoch_pull, inDelay_pull]
      exact (h.timely.pull safe).2
    · rw [activation_pull] at hactv
      rw [inDelay_pull] at h0 ⊢
      exact h.empty_of_activation safe hactv h0
  | undelegate h0 hw safe hx hl => exact (h.pull safe).lower hcap h0 (by rwa [request_pull]) hx hl
  | compoundNothing safe h0 => exact (h.pull safe).takeRewards _
  | @compound _ _ a r safe hr hq hs safe' hb =>
    have hq' := (h.pull safe).takeRewards a
    rw [hq] at hq'
    refine (hq'.pull safe').stage hcap ?_ (fun hactv h0 => ?_) hs hb
    · rw [epoch_pull, inDelay_pull]
      exact (hq'.timely.pull safe').2
    · rw [activation_pull] at hactv
      rw [inDelay_pull] at h0 ⊢
      exact hq'.empty_of_activation safe' hactv h0
  | withdraw hw ready can => exact h.redeem hw
  | claim safe => exact (h.pull safe).takeRewards _
  | @reward _ auth commission r hv =>
    exact h.update (reward_del auth commission r p) rfl rfl rfl rfl
      (h.timely.update (reward_del auth commission r p) rfl rfl ((h.timely auth).congr rfl rfl))
      (fun he => ⟨he.delta, he.next⟩) rfl (fun _ _ => rfl) h.clear rfl
  | changeEpoch he hn => exact h.changeEpoch (.changeEpoch he hn) hn
  | takeSnapshot hd => exact h.takeSnapshot (.takeSnapshot hd)

end Pool

/-! ## No reference is released that was not taken -/

section Released

variable {p : Pool Address WithdrawalId} {a : Address}

theorem Pool.Counted.referenced (h : p.Counted) (a : Address) : p.Referenced a := by
  have hq := h.promote a
  refine ⟨fun hd => ?_, fun hn => ?_⟩
  · exact hq.refcount_ne (isActive_iff.mp hd).1 (.inl rfl)
  -- the cell of the second bucket is not the one that the first fold releases
  obtain ⟨h0, -⟩ := isActive_iff.mp hn
  have hne : ((p.promote a).del a).nextDeltaEpoch ≠ ((p.promote a).del a).deltaEpoch := by
    intro heq
    have := (hq.timely a).consecutive (heq ▸ h0) h0
    omega
  rw [compound_cell, update_of_ne hne]
  exact hq.refcount_ne h0 (.inr rfl)

/-- A pool without active buckets releases nothing. -/
theorem Pool.Calm.referenced (h : p.Calm a) : p.Referenced a := by
  obtain ⟨hd, hn⟩ := h
  have hdel : (((p.promote a).del a).deltaEpoch = (p.del a).deltaEpoch ∨
      ((p.promote a).del a).deltaEpoch = (p.del a).nextDeltaEpoch) ∧
      (((p.promote a).del a).nextDeltaEpoch = (p.del a).nextDeltaEpoch ∨
      ((p.promote a).del a).nextDeltaEpoch = 0) := by
    rw [promote_del, update_self]
    split_ifs
    · exact ⟨.inr rfl, .inr rfl⟩
    · exact ⟨.inl rfl, .inl rfl⟩
  refine ⟨fun hact => ?_, fun hact => ?_⟩
  · rcases hdel.1 with heq | heq <;> simp_all
  · rcases hdel.2 with heq | heq <;> simp_all

variable {w : World}

theorem counted_of_pools (h : ∀ v, (w.pool v).Counted) (act : Action) : act.Counted w := by
  cases act with
  | pull v a | delegate v a | claim v a => exact (h v).referenced a
  | undelegate v a => exact (h v).referenced a
  | addValidator i s => exact (h _).referenced i.authAddress
  | compound v a =>
    refine ⟨(h v).referenced a, Pool.Calm.referenced ?_⟩
    simpa [Pool.Calm, Pool.isActive] using calm_pull a (w.pool v)
  | withdraw v a i => exact fun hw => (h v).request_refcount_ne hw
  | _ => trivial

end Released

/-! ## The reference counts after any calls -/

/-- The buckets and the open withdrawal requests of a pool that wait for epoch `e`. -/
def Pool.references {ι κ : Type} [Fintype ι] [Fintype κ] (p : Pool ι κ) (e : Nat) : Nat :=
  (Finset.univ.filter fun a => (p.del a).deltaEpoch = e).card +
    (Finset.univ.filter fun a => (p.del a).nextDeltaEpoch = e).card +
    (Finset.univ.filter fun j => (p.request j).hasValue ∧ (p.request j).epoch = e).card

theorem Pool.references_eq {ι κ : Type} [Fintype ι] [Fintype κ] (p : Pool ι κ) (e : Nat) :
    p.references e = p.bucketRefs e + p.requestRefs e := by
  unfold references bucketRefs requestRefs
  rw [card_filter, card_filter, card_filter, ← sum_add_distrib]
  rfl

theorem card_bitVec (n : Nat) : card (BitVec n) = 2 ^ n := by rw [← FinEnum.card_eq_fintypeCard, FinEnum.card_bitVec]

theorem capacity_lt : 2 * Pool.capacity Address WithdrawalId < uint256Size := by
  -- the cardinalities are rewritten and not unfolded, since the kernel would count
  rw [capacity_eq, card_bitVec, card_bitVec]
  unfold uint256Size
  norm_num

section Runs

variable (rev : MonadRevision) (crypto : Crypto)

theorem counted_empty : (Pool.empty : Pool Address WithdrawalId).Counted := by
  have hbkt (f : Nat) (hf : f ≠ 0) : (.empty : Pool Address WithdrawalId).bucketRefs f = 0 :=
    sum_eq_zero fun a _ => by simp [Pool.empty, Delegator.refs, hf.symm]
  have hreq (f : Nat) : (.empty : Pool Address WithdrawalId).requestRefs f = 0 :=
    sum_eq_zero fun j _ => WithdrawalRequest.refs_of_not _ rfl f
  have hkn : ∑ a, ((.empty : Pool Address WithdrawalId).del a).known = 0 := sum_eq_zero fun a _ => rfl
  exact
    { epoch_lt := uint64Size_pos
      timely := fun _ => .empty _ _
      request_le := fun _ => Nat.zero_le _
      exact := fun f hf => by
        rw [hbkt f hf, hreq f]
        rfl
      clear := fun _ _ => rfl
      zero := by
        rw [hreq]
        exact Nat.zero_le _
      early := fun _ _ => ⟨fun _ => rfl, fun _ => rfl⟩
      paid := by
        rw [hkn, hreq]
        simp [Pool.empty]
      stake_lt := by
        show 0 < uint256Size
        unfold uint256Size
        norm_num }

theorem counted_after (calls : List Call) (v : ValId) : ((after rev crypto calls).pool v).Counted :=
  pool_after rev crypto counted_empty (.step capacity_lt) calls v

/-- No call ever releases a reference that was not taken. -/
theorem complaints_after (calls : List Call) : (after rev crypto calls).complaints = [] := by
  induction calls with
  | nil => rfl
  | cons c calls ih =>
    rw [after, exec_quiet rev crypto _ (counted_of_pools (counted_after rev crypto calls) _)]
    exact ih

/-- The reference count of a cell is the number of those who wait for its epoch; a cell nobody waits
for is empty, nobody waits for an epoch that is more than two ahead, and the process log never
complains about a count. -/
theorem refcount_eq_references (calls : List Call) (v : ValId) :
    let w := after rev crypto calls
    (∀ e, 1 ≤ e → (w.accumulatedRewardPerToken e v).refcount = (w.pool v).references e ∧
        (w.accumulatedRewardPerToken e v = {} ↔ (w.pool v).references e = 0)) ∧
      (∀ e, w.epoch + 2 < e → w.accumulatedRewardPerToken e v = {}) ∧ w.complaints = [] := by
  intro w
  have h : (w.pool v).Counted := counted_after rev crypto calls v
  have hexact (e : Nat) (he : 1 ≤ e) : (w.accumulatedRewardPerToken e v).refcount = (w.pool v).references e := by
    rw [references_eq]
    exact h.exact e (by omega)
  have hemp (e : Nat) (h0 : (w.accumulatedRewardPerToken e v).refcount = 0) :
      w.accumulatedRewardPerToken e v = {} := by
    have hval : (w.accumulatedRewardPerToken e v).value = 0 := h.clear e h0
    cases hcell : w.accumulatedRewardPerToken e v with
    | mk value refcount => simp_all
  refine ⟨fun e he => ⟨hexact e he, fun h0 => ?_, fun h0 => hemp e ?_⟩, fun e he => hemp e ?_,
    complaints_after rev crypto calls⟩
  · rw [← hexact e he, h0]
  · rw [hexact e he, h0]
  · rw [hexact e (by omega), references_eq]
    have hhor := (w.pool v).horizon_le
    exact h.refs_eq_zero (hhor.trans_lt he)

end Runs

end MonadExecution.Staking
