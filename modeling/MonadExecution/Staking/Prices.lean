import MonadExecution.Staking.Earning

/-!
# The price of an epoch

A bucket or a withdrawal request that waits for an epoch is settled with the accumulator at the
moment the epoch began. Call this the price of the epoch; the price of an epoch that has not begun
is the accumulator of now. The cells keep the prices of the past epochs for those who ask for them.
They are written when a reference is taken, and again at the beginning of the epoch for the validators
of the snapshot set: the others get no rewards in between.
-/

namespace MonadExecution.Staking

open Program Function RefCountedAccumulator Nat

/-- The accumulator a delegator was paid up to is not ahead of any price the delegator waits for. -/
structure Delegator.Ordered (price : Nat → Nat) (acc : Nat) (d : Delegator) : Prop where
  acc_le : d.accumulatedRewardPerToken ≤ acc
  delta_le : d.deltaEpoch ≠ 0 → d.accumulatedRewardPerToken ≤ price d.deltaEpoch
  next_le : d.nextDeltaEpoch ≠ 0 → d.accumulatedRewardPerToken ≤ price d.nextDeltaEpoch

theorem RefCountedAccumulator.release_value {c : RefCountedAccumulator}
    (h : c.release.refcount ≠ 0) : c.refcount ≠ 0 ∧ c.release.value = c.value := by
  unfold release at h ⊢
  split_ifs at h ⊢ with h0 h1
  · exact absurd h0 h
  · exact absurd rfl h
  · exact ⟨h0, rfl⟩

namespace Pool

variable {ι κ : Type} [DecidableEq ι] [DecidableEq κ] [Fintype ι] [Fintype κ] {p q p' : Pool ι κ}
  {a : ι} {price : Nat → Nat}

structure Priced (price : Nat → Nat) (p : Pool ι κ) : Prop where
  above : ∀ f, p.epoch < f → price f = p.acc
  mono : Monotone price
  /-- a cell that is in use has the price of its epoch; before the epoch begins, only in a pool that
  gets no rewards -/
  cell : ∀ f, f ≠ 0 → f ≤ p.epoch ∨ p.view = 0 → (p.cell f).refcount ≠ 0 → (p.cell f).value = price f
  del : ∀ a, (p.del a).Ordered price p.acc
  request_pos : ∀ j, (p.request j).hasValue → (p.request j).epoch ≠ 0
  request_le : ∀ j, (p.request j).acc ≤ price (p.request j).epoch

/-- What becomes of the prices in an operation: the epochs that had begun keep theirs. -/
def nextPrice (price : Nat → Nat) (p p' : Pool ι κ) (f : Nat) : Nat := if f ≤ p.epoch then price f else p'.acc

omit [DecidableEq ι] [DecidableEq κ] [Fintype ι] [Fintype κ] in
theorem Priced.le_acc (h : p.Priced price) (f : Nat) : price f ≤ p.acc := by
  rw [← h.above (p.epoch + 1 + f) (by omega)]
  exact h.mono (le_add_left _ _)

omit [DecidableEq ι] [DecidableEq κ] [Fintype ι] [Fintype κ] in
/-- Only rewards change prices. -/
theorem Priced.nextPrice_eq (h : p.Priced price) (hacc : p'.acc = p.acc) : nextPrice price p p' = price := by
  funext f
  unfold nextPrice
  split_ifs with hf
  · rfl
  · rw [hacc, h.above f (by omega)]

/-- The cells in use have been left alone, or written for an epoch that has not begun. -/
def CellsKept (p q : Pool ι κ) : Prop :=
  ∀ f, f ≠ 0 → (q.cell f).refcount ≠ 0 → (p.cell f).refcount ≠ 0 ∧ (q.cell f).value = (p.cell f).value ∨
      p.epoch < f ∧ (q.cell f).value = p.acc

omit [DecidableEq ι] [DecidableEq κ] [Fintype ι] [Fintype κ] in
theorem cellsKept_of_eq (h : q.cell = p.cell) : CellsKept p q := by
  intro f _ hcnt
  rw [h] at hcnt ⊢
  exact .inl ⟨hcnt, rfl⟩

omit [DecidableEq ι] [DecidableEq κ] [Fintype ι] [Fintype κ] in
theorem cellsKept_release {f : Nat} (h : q.cell = update p.cell f (p.cell f).release) : CellsKept p q := by
  intro g _ hcnt
  rw [h] at hcnt ⊢
  rcases eq_or_ne g f with rfl | hne
  · rw [update_self] at hcnt ⊢
    exact .inl (release_value hcnt)
  · rw [update_of_ne hne] at hcnt ⊢
    exact .inl ⟨hcnt, rfl⟩

omit [DecidableEq ι] [DecidableEq κ] [Fintype ι] [Fintype κ] in
theorem cellsKept_acquire {f : Nat} (hf : p.epoch < f)
    (h : q.cell = update p.cell f ((p.cell f).acquire p.acc)) : CellsKept p q := by
  intro g _ hcnt
  rw [h] at hcnt ⊢
  rcases eq_or_ne g f with rfl | hne
  · rw [update_self]
    exact .inr ⟨hf, rfl⟩
  · rw [update_of_ne hne] at hcnt ⊢
    exact .inl ⟨hcnt, rfl⟩

/-- The pools between which only the record of a delegator and cells have changed. -/
structure SameMarket (p q : Pool ι κ) : Prop where
  epoch : q.epoch = p.epoch
  acc : q.acc = p.acc
  view : q.view = p.view
  cells : CellsKept p q

section

variable (h : p.Priced price)

include h

omit [DecidableEq ι] [DecidableEq κ] [Fintype ι] [Fintype κ] in
theorem Priced.cell_of_kept (hsame : SameMarket p q) :
    ∀ f, f ≠ 0 → f ≤ q.epoch ∨ q.view = 0 → (q.cell f).refcount ≠ 0 → (q.cell f).value = price f := by
  intro f hf hpast hcnt
  rw [hsame.epoch, hsame.view] at hpast
  rcases hsame.cells f hf hcnt with ⟨hcnt', hval⟩ | ⟨hlt, hval⟩
  · rw [hval]
    exact h.cell f hf hpast hcnt'
  · rw [hval, h.above f hlt]

omit [DecidableEq κ] [Fintype ι] [Fintype κ] in
/-- A change of the record of `a`. -/
theorem Priced.update {d : Delegator} (hsame : SameMarket p q) (hdel : q.del = update p.del a d)
    (hreq : q.request = p.request) (hd : d.Ordered price p.acc) : q.Priced price where
  above := by
    rw [hsame.epoch, hsame.acc]
    exact h.above
  mono := h.mono
  cell := h.cell_of_kept hsame
  del b := by
    rw [hdel, hsame.acc]
    rcases eq_or_ne b a with rfl | hb
    · rwa [update_self]
    rw [update_of_ne hb]
    exact h.del b
  request_pos := by
    rw [hreq]
    exact h.request_pos
  request_le := by
    rw [hreq]
    exact h.request_le

/-! ## A pull -/

omit [DecidableEq κ] [Fintype ι] [Fintype κ] in
theorem Priced.promote (a : ι) : (p.promote a).Priced price := by
  have ha := h.del a
  refine h.update ⟨rfl, rfl, rfl, cellsKept_of_eq rfl⟩ (promote_del a p) rfl ?_
  split_ifs
  · exact ⟨ha.acc_le, ha.next_le, fun h0 => absurd rfl h0⟩
  · exact ha

omit [DecidableEq ι] [DecidableEq κ] in
/-- The cell of an active bucket has the price. -/
theorem Priced.bucketAcc_eq (hc : p.Counted) (hact : p.isActive (p.del a).deltaEpoch) :
    p.bucketAcc a = price (p.del a).deltaEpoch := by
  obtain ⟨h0, hle⟩ := isActive_iff.mp hact
  have hcnt := hc.refcount_ne h0 (.inl rfl)
  unfold bucketAcc released
  rw [if_neg hcnt]
  exact h.cell _ h0 (.inl hle) hcnt

omit [DecidableEq κ] in
theorem Priced.compound (hc : p.Counted) (hact : p.isActive (p.del a).deltaEpoch) : (p.compound a).Priced price := by
  obtain ⟨h0, -⟩ := isActive_iff.mp hact
  refine h.update ⟨rfl, rfl, rfl, cellsKept_release (compound_cell a p)⟩ (compound_del a p) rfl ?_
  rw [h.bucketAcc_eq hc hact]
  refine ⟨h.le_acc _, fun hn => h.mono ?_, fun hn => absurd rfl hn⟩
  rw [Delegator.compounded_deltaEpoch] at hn ⊢
  rw [(hc.timely a).consecutive h0 hn]
  exact le_succ _

omit [DecidableEq κ] [Fintype ι] [Fintype κ] in
theorem Priced.settle (hcalm : Calm a p) : (p.settle a).Priced price := by
  have hpr (f : Nat) (hf : p.isActive f = false) (h0 : f ≠ 0) : p.acc ≤ price f := by
    rw [isActive_eq_false] at hf
    rw [h.above f (hf.resolve_left h0)]
  refine h.update ⟨rfl, rfl, rfl, cellsKept_of_eq rfl⟩ (settle_del a p) rfl ?_
  exact ⟨le_refl _, hpr _ hcalm.1, hpr _ hcalm.2⟩

omit [DecidableEq κ] in
theorem Priced.pull (hc : p.Counted) (safe : p.PullSafe a) : (p.pull a).Priced price := by
  have hinv : (p.pull a).Counted ∧ (p.pull a).Priced price := by
    refine pull_induct (P := fun q => q.Counted ∧ q.Priced price) safe ?_ ?_ ?_
    · exact ⟨hc.promote a, h.promote a⟩
    · intro q hq hact _
      exact ⟨hq.1.compound hact, hq.2.compound hq.1 hact⟩
    · intro q hq hcalm _ _
      exact ⟨hq.1.settle a, hq.2.settle hcalm⟩
  exact hinv.2

/-! ## The other operations -/

omit [DecidableEq κ] [Fintype ι] [Fintype κ] in
theorem Priced.takeRewards (a : ι) : (p.takeRewards a).Priced price :=
  h.update ⟨rfl, rfl, rfl, cellsKept_of_eq rfl⟩ (takeRewards_del a p) rfl
    ⟨(h.del a).acc_le, (h.del a).delta_le, (h.del a).next_le⟩

omit [DecidableEq κ] [Fintype ι] [Fintype κ] in
theorem Priced.stage (hh : p.horizon < uint64Size) (s : Nat) : (p.stage a s).Priced price := by
  have ha := h.del a
  have hlt : p.epoch < p.activation := by
    rw [activation_of_horizon hh]
    exact epoch_lt_horizon p
  refine h.update ⟨rfl, rfl, rfl, ?_⟩ (stage_del a s p) rfl ?_
  · by_cases h0 : (p.del a).stagedEpoch p.inDelay = 0
    · refine cellsKept_acquire hlt ?_
      rw [stage_cell, if_pos h0]
    · refine cellsKept_of_eq ?_
      rw [stage_cell, if_neg h0]
  · have hpr : (p.del a).accumulatedRewardPerToken ≤ price p.activation := by
      rw [h.above _ hlt]
      exact ha.acc_le
    unfold Delegator.staged
    split_ifs
    · exact ⟨ha.acc_le, ha.delta_le, fun _ => hpr⟩
    · exact ⟨ha.acc_le, fun _ => hpr, ha.next_le⟩

omit [Fintype ι] [Fintype κ] in
theorem Priced.lower (hh : p.horizon < uint64Size) (i : κ) (amount : Nat) : (p.lower a i amount).Priced price := by
  have ha := h.del a
  have hlt : p.epoch < p.activation := by
    rw [activation_of_horizon hh]
    exact epoch_lt_horizon p
  have hle : (if (p.del a).stake - p.leaving a amount = 0 then 0
      else (p.del a).accumulatedRewardPerToken) ≤ (p.del a).accumulatedRewardPerToken := by
    split_ifs
    · exact zero_le _
    · exact le_refl _
  have hkept : CellsKept p (p.lower a i amount) := cellsKept_acquire hlt (lower_cell a i amount p)
  refine
    { above := h.above
      mono := h.mono
      cell := h.cell_of_kept ⟨rfl, rfl, rfl, hkept⟩
      del := fun b => ?_
      request_pos := fun j hw => ?_
      request_le := fun j => ?_ }
  · rw [lower_del]
    rcases eq_or_ne b a with rfl | hb
    · rw [update_self]
      exact ⟨hle.trans ha.acc_le, fun h0 => hle.trans (ha.delta_le h0), fun h0 => hle.trans (ha.next_le h0)⟩
    · rw [update_of_ne hb]
      exact h.del b
  · rw [lower_request] at hw ⊢
    rcases eq_or_ne j (a, i) with rfl | hj
    · rw [update_self]
      show p.activation ≠ 0
      omega
    · rw [update_of_ne hj] at hw ⊢
      exact h.request_pos j hw
  · rw [lower_request]
    rcases eq_or_ne j (a, i) with rfl | hj
    · rw [update_self]
      show _ ≤ price p.activation
      rw [h.above _ hlt]
      exact ha.acc_le
    · rw [update_of_ne hj]
      exact h.request_le j

omit [Fintype ι] [Fintype κ] in
theorem Priced.redeem (a : ι) (i : κ) : (p.redeem a i).Priced price := by
  have hkept : CellsKept p (p.redeem a i) := cellsKept_release (redeem_cell a i p)
  refine
    { above := h.above
      mono := h.mono
      cell := h.cell_of_kept ⟨rfl, rfl, rfl, hkept⟩
      del := h.del
      request_pos := fun j hw => ?_
      request_le := fun j => ?_ }
  · rw [redeem_request] at hw ⊢
    rcases eq_or_ne j (a, i) with rfl | hj
    · rw [update_self] at hw
      simp [WithdrawalRequest.hasValue] at hw
    · rw [update_of_ne hj] at hw ⊢
      exact h.request_pos j hw
  · rw [redeem_request]
    rcases eq_or_ne j (a, i) with rfl | hj
    · rw [update_self]
      exact zero_le _
    · rw [update_of_ne hj]
      exact h.request_le j

omit [DecidableEq κ] [Fintype ι] [Fintype κ] in
/-- A reward raises the prices of the epochs that have not begun. -/
theorem Priced.reward (hv : p.view ≠ 0) (auth : ι) (commission r : Nat) :
    (p.reward auth commission r).Priced (nextPrice price p (p.reward auth commission r)) := by
  have hacc : p.acc ≤ (p.reward auth commission r).acc := le_add_right _ _
  have hle (f : Nat) : price f ≤ nextPrice price p (p.reward auth commission r) f := by
    unfold nextPrice
    split_ifs
    · exact le_refl _
    · exact (h.le_acc f).trans hacc
  have hordered (d : Delegator) (hd : d.Ordered price p.acc) :
      d.Ordered (nextPrice price p (p.reward auth commission r)) (p.reward auth commission r).acc :=
    ⟨hd.acc_le.trans hacc, fun h0 => (hd.delta_le h0).trans (hle _), fun h0 => (hd.next_le h0).trans (hle _)⟩
  refine
    { above := fun f hf => ?_
      mono := fun f g hfg => ?_
      cell := fun f hf hpast hcnt => ?_
      del := fun b => ?_
      request_pos := h.request_pos
      request_le := fun j => (h.request_le j).trans (hle _) }
  · have hf' : ¬ f ≤ p.epoch := not_le.mpr hf
    exact if_neg hf'
  · unfold nextPrice
    split_ifs with h1 h2 h2
    · exact h.mono hfg
    · exact (h.le_acc f).trans hacc
    · omega
    · exact le_refl _
  · have hf' : f ≤ p.epoch := hpast.resolve_right hv
    unfold nextPrice
    rw [if_pos hf']
    exact h.cell f hf (.inl hf') hcnt
  · rw [reward_del]
    rcases eq_or_ne b auth with rfl | hb
    · rw [update_self]
      have hb := hordered _ (h.del b)
      exact ⟨hb.acc_le, hb.delta_le, hb.next_le⟩
    · rw [update_of_ne hb]
      exact hordered _ (h.del b)

end

theorem refresh_value {c : RefCountedAccumulator} (h : c.refcount ≠ 0) (acc : Nat) : (c.refresh acc).value = acc := by
  unfold refresh
  rw [if_pos (by simp [hasValue, h])]

omit [DecidableEq ι] [DecidableEq κ] in
/-- At the beginning of an epoch the cell of the epoch has its price: it is refreshed, or the pool
has had no rewards since it was written. -/
theorem Priced.changeEpoch (h : p.Priced price) (hc : p.Counted) {next : Nat} {listed : Bool}
    (hlawful : p.Lawful (.changeEpoch next listed)) (he : p.epoch < next)
    (hn : next + 1 < uint64Size) : (p.changeEpoch next listed).Priced price := by
  refine
    { above := fun f hf => h.above f (he.trans hf)
      mono := h.mono
      cell := fun f hf hpast hcnt => ?_
      del := h.del
      request_pos := h.request_pos
      request_le := h.request_le }
  have hfresh {f : Nat} (hlt : p.epoch < f) (hcnt : (p.cell f).refcount ≠ 0) :
      ((p.cell f).refresh p.acc).value = price f := by rw [refresh_value hcnt, h.above f hlt]
  have hcounts : (p.cell f).refcount ≠ 0 := by
    rw [changeEpoch_cell] at hcnt
    split_ifs at hcnt with hlst
    · dsimp only at hcnt
      split_ifs at hcnt
      · rwa [(clear_refresh (hc.clear f) _).1] at hcnt
      · exact hcnt
    · exact hcnt
  rw [changeEpoch_cell, mod_eq_of_lt hn]
  rcases lt_or_ge p.epoch f with hlt | hge
  · -- an epoch that had not begun
    by_cases hview : p.view = 0
    · have hold := h.cell f hf (.inr hview) hcounts
      split_ifs
      · dsimp only
        split_ifs
        · exact hfresh hlt hcounts
        · exact hold
      · exact hold
    · -- the pool got rewards, so it is listed and the cell is refreshed
      rcases hlawful with ⟨-, hdly, hcons, -⟩ | ⟨-, hdly, hnext, hlst⟩
      · exact absurd (by simp [view, hdly, hcons]) hview
      have hsnap : p.snapshot ≠ 0 := by simpa [view, hdly] using hview
      have hle : f ≤ p.horizon := by
        -- somebody waits for the epoch
        refine of_not_not fun hgt => hcounts ?_
        rw [hc.exact f hf]
        exact hc.refs_eq_zero (not_le.mp hgt)
      have hhor : p.horizon = p.epoch + 2 := by simp [horizon, hdly]
      rw [if_pos (hlst.mpr hsnap), if_pos (by omega)]
      exact hfresh hlt hcounts
  · -- an epoch that had begun is not refreshed
    have hold := h.cell f hf (.inl hge) hcounts
    split_ifs
    · dsimp only
      rw [if_neg (by omega)]
      exact hold
    · exact hold

omit [DecidableEq ι] [DecidableEq κ] [Fintype ι] [Fintype κ] in
theorem Priced.takeSnapshot (h : p.Priced price) (hd : p.inDelay = false) (chosen : Bool) :
    (p.takeSnapshot chosen).Priced price := by
  have hview : (p.takeSnapshot chosen).view = p.view := by simp [view, hd]
  exact
    { h with
      cell := fun f hf hpast hcnt => h.cell f hf (hview ▸ hpast) hcnt }

/-- Every lawful operation keeps the cells priced. -/
theorem Priced.step {op : Op ι κ} (hstep : Step op p p') (hlawful : p.Lawful op) (hc : p.Counted)
    (hh : p'.horizon < uint64Size) (h : p.Priced price) : p'.Priced (nextPrice price p p') := by
  have hp : p.horizon < uint64Size := (horizon_step hstep).trans_lt hh
  cases hstep with
  | reward hv => exact h.reward hv _ _ _
  | idle =>
    rw [h.nextPrice_eq rfl]
    exact h
  | pull safe =>
    rw [h.nextPrice_eq (acc_pull _ p)]
    exact h.pull hc safe
  | delegate hs safe hr =>
    rw [h.nextPrice_eq (by simp)]
    exact (h.pull hc safe).stage (by rwa [horizon_pull]) _
  | undelegate h0 hw safe hx hl =>
    rw [h.nextPrice_eq (by simp)]
    exact (h.pull hc safe).lower (by rwa [horizon_pull]) _ _
  | compoundNothing safe h0 | claim safe =>
    rw [h.nextPrice_eq (by simp)]
    exact (h.pull hc safe).takeRewards _
  | @compound _ q a r safe hr hq hs safe' hb =>
    rw [h.nextPrice_eq (by simp [← hq])]
    have hpriced := (h.pull hc safe).takeRewards a
    have hctd := (hc.pull safe).takeRewards a
    have hhor : q.horizon = p.horizon := by rw [← hq]; simp [horizon]
    rw [hq] at hpriced hctd
    exact (hpriced.pull hctd safe').stage (by rwa [horizon_pull, hhor]) _
  | @withdraw _ a i hw ready can =>
    rw [h.nextPrice_eq (redeem_acc a i p)]
    exact h.redeem a i
  | @changeEpoch _ next listed he hn =>
    rw [h.nextPrice_eq (changeEpoch_acc next listed p)]
    refine h.changeEpoch hc hlawful he ?_
    simpa [horizon] using hh
  | @takeSnapshot _ chosen hd =>
    rw [h.nextPrice_eq (takeSnapshot_acc chosen p)]
    exact h.takeSnapshot hd chosen

end Pool

/-! ## After a conforming run -/

section Runs

variable (rev : MonadRevision) (crypto : Crypto)

/-- The price of an epoch for a validator: the accumulator, up to the moment the epoch begins. -/
def priceAfter (v : ValId) : List Call → Nat → Nat
  | [] => fun _ => 0
  | c :: calls => Pool.nextPrice (priceAfter v calls) ((after rev crypto calls).pool v)
      ((after rev crypto (c :: calls)).pool v)

theorem priced_empty : (Pool.empty : Pool Address WithdrawalId).Priced fun _ => 0 where
  above _ _ := rfl
  mono _ _ _ := le_refl _
  cell _ _ _ hcnt := absurd rfl hcnt
  del _ := ⟨le_refl _, fun h0 => absurd rfl h0, fun h0 => absurd rfl h0⟩
  request_pos _ hw := nomatch hw
  request_le _ := le_refl _

variable {calls : List Call}

theorem priced_after (h : Conforms rev crypto calls) (hexi : (after rev crypto calls).EpochsExist) (v : ValId) :
    ((after rev crypto calls).pool v).Priced (priceAfter rev crypto v calls) := by
  induction calls with
  | nil => exact priced_empty
  | cons c calls ih =>
    have hexi' := epochsExist_tail rev crypto hexi
    exact (ih (conforms_tail rev crypto h) hexi').step (step_calledOp rev crypto c calls v)
      (lawful_of_conforms h v) (counted_after rev crypto calls v) (hexi.horizon v)

/-- The accumulator of `v` at the moment at which the contract entered the first epoch that is not
before `e`. -/
def accumulatorAtEntry (v : ValId) (e : Nat) : List Call → Nat
  | [] => 0
  | c :: calls =>
    if (after rev crypto calls).epoch < e ∧ e ≤ (after rev crypto (c :: calls)).epoch then
      ((after rev crypto (c :: calls)).valExecution v).accumulatedRewardPerToken
    else accumulatorAtEntry v e calls

theorem priceAfter_eq_entry (v : ValId) {e : Nat} (h1 : 1 ≤ e) (he : e ≤ (after rev crypto calls).epoch) :
    priceAfter rev crypto v calls e = accumulatorAtEntry rev crypto v e calls := by
  induction calls with
  | nil =>
    have h0 : e ≤ 0 := he
    omega
  | cons c calls ih =>
    show (if e ≤ (after rev crypto calls).epoch then _ else _) = _
    rw [accumulatorAtEntry]
    by_cases hpast : e ≤ (after rev crypto calls).epoch
    · rw [if_pos hpast, if_neg (by omega)]
      exact ih hpast
    · rw [if_neg hpast, if_pos ⟨not_le.mp hpast, he⟩]
      rfl

/-- A cell that is in use keeps the accumulator of the moment at which its epoch began. -/
theorem cell_eq_accumulatorAtEntry {calls : List Call} (hrun : Conforms rev crypto calls)
    (hepoch : (after rev crypto calls).epoch + 2 < 2 ^ 64) (v : ValId) {e : Nat} (h1 : 1 ≤ e)
    (he : e ≤ (after rev crypto calls).epoch)
    (hcount : ((after rev crypto calls).accumulatedRewardPerToken e v).refcount ≠ 0) :
    ((after rev crypto calls).accumulatedRewardPerToken e v).value = accumulatorAtEntry rev crypto v e calls := by
  have hexi : (after rev crypto calls).EpochsExist := by
    unfold World.EpochsExist uint64Size
    exact hepoch
  rw [← priceAfter_eq_entry rev crypto v h1 he]
  exact (priced_after rev crypto hrun hexi v).cell e (by omega) (.inl he) hcount

end Runs

/-- A reward between the undelegation in epoch 2 and the beginning of epoch 3: the cell of epoch 3
is refreshed. -/
theorem cell_eq_accumulatorAtEntry_refreshed :
    let calls := [Call.onEpochChange 3, .snapshot, .reward 7 mon, .undelegate 1 mon 0 8,
      .onEpochChange 2, .snapshot, .register 7 8 0 9 (10000000 * mon), .onEpochChange 1]
    let w := after .five .acceptAll calls
    Conforms .five .acceptAll calls ∧ w.epoch + 2 < 2 ^ 64 ∧
      (w.accumulatedRewardPerToken 3 1).refcount = 1 ∧ (w.accumulatedRewardPerToken 3 1).value ≠ 0 ∧
      (w.accumulatedRewardPerToken 3 1).value = accumulatorAtEntry .five .acceptAll 1 3 calls := by
  intro calls w
  obtain ⟨hrun, hep, hcnt, hval⟩ : Conforms .five .acceptAll calls ∧ w.epoch + 2 < 2 ^ 64 ∧
    (w.accumulatedRewardPerToken 3 1).refcount = 1 ∧ (w.accumulatedRewardPerToken 3 1).value ≠ 0 := by decide +kernel
  refine ⟨hrun, hep, hcnt, hval, ?_⟩
  exact cell_eq_accumulatorAtEntry .five .acceptAll hrun hep 1 (by decide) (by decide +kernel) (hcnt ▸ by decide)

/-- In the delay period of the last epoch a withdrawal request waits for epoch 1, which is long
over; its cell gets the accumulator of now. -/
theorem cell_ne_accumulatorAtEntry_lastEpoch :
    let calls := [Call.undelegate 1 mon 0 8, .snapshot, .reward 7 mon, .onEpochChange (2 ^ 64 - 1),
      .snapshot, .register 7 8 0 9 (10000000 * mon), .onEpochChange (2 ^ 64 - 2)]
    let w := after .five .acceptAll calls
    Conforms .five .acceptAll calls ∧ 1 ≤ w.epoch ∧ (w.accumulatedRewardPerToken 1 1).refcount ≠ 0 ∧
      (w.accumulatedRewardPerToken 1 1).value ≠ accumulatorAtEntry .five .acceptAll 1 1 calls := by decide +kernel

end MonadExecution.Staking
