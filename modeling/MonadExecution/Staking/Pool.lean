import MonadExecution.Lib.Finite
import MonadExecution.Staking.Contract

/-!
# The pool of one validator

Seen from one validator, the contract is a pool: delegators with an active stake and two staged
buckets, withdrawal requests that go on earning until they mature, a reward accumulator, and one
reference-counted copy of it for every epoch that somebody waits for. This module says what the
calls do to such a pool, over any types `ι` of delegators and `κ` of withdrawal ids. No other
validator occurs in it, and neither do balances, lists of validators or call data.
-/

namespace MonadExecution.Staking

open Function Delegator

structure Pool (ι κ : Type) where
  epoch : Nat
  inDelay : Bool
  /-- stake of the consensus view and of the snapshot view -/
  consensus : Nat
  snapshot : Nat
  stake : Nat
  acc : Nat
  unclaimed : Nat
  del : ι → Delegator
  request : ι × κ → WithdrawalRequest
  cell : Nat → RefCountedAccumulator
  settlements : ι → Nat
  payouts : ι → Nat

/-! ## Cells and delegator records -/

namespace RefCountedAccumulator

/-- One more reference, at the accumulator's present value. -/
def acquire (c : RefCountedAccumulator) (acc : Nat) : RefCountedAccumulator :=
  { value := acc, refcount := (c.refcount + 1) % uint256Size }

/-- One reference less; the last one clears the cell. -/
def release (c : RefCountedAccumulator) : RefCountedAccumulator :=
  if c.refcount = 0 then c
  else if c.refcount - 1 = 0 then {}
  else { c with refcount := c.refcount - 1 }

/-- The value that releasing a reference returns. -/
def released (c : RefCountedAccumulator) : Nat := if c.refcount = 0 then 0 else c.value

/-- Write the accumulator into a cell that is in use. -/
def refresh (c : RefCountedAccumulator) (acc : Nat) : RefCountedAccumulator :=
  if c.hasValue then { c with value := acc } else c

end RefCountedAccumulator

namespace Delegator

/-- The first bucket folded into the active stake, which has been paid `r` up to `acc`. -/
@[simps -fullyApplied]
def compounded (d : Delegator) (acc r : Nat) : Delegator where
  stake := d.stake + d.deltaStake
  accumulatedRewardPerToken := acc
  rewards := d.rewards + r
  deltaStake := d.nextDeltaStake
  nextDeltaStake := 0
  deltaEpoch := d.nextDeltaEpoch
  nextDeltaEpoch := 0

/-- The active stake paid `r` up to `acc`. -/
@[simps -fullyApplied]
def settled (d : Delegator) (acc r : Nat) : Delegator :=
  { d with accumulatedRewardPerToken := acc, rewards := d.rewards + r }

/-- `s` more in the first bucket, or in the second one in the delay period. -/
def staged (d : Delegator) (inDelay : Bool) (s epoch : Nat) : Delegator :=
  if inDelay then { d with nextDeltaStake := d.nextDeltaStake + s, nextDeltaEpoch := epoch }
  else { d with deltaStake := d.deltaStake + s, deltaEpoch := epoch }

/-- The epoch of the bucket that is filled in a phase. -/
def stagedEpoch (d : Delegator) (inDelay : Bool) : Nat := if inDelay then d.nextDeltaEpoch else d.deltaEpoch

/-- `out` less of active stake. Without any, the accumulator is forgotten. -/
@[simps -fullyApplied]
def lowered (d : Delegator) (out : Nat) : Delegator :=
  { d with
    stake := d.stake - out
    accumulatedRewardPerToken := if d.stake - out = 0 then 0 else d.accumulatedRewardPerToken }

end Delegator

/-- What `stake` earns while the accumulator rises from `old` to `new`, rounded down. -/
@[irreducible] def earned (stake new old : Nat) : Nat := (new - old) * stake / unitBias

/-- What a reward adds to the accumulator, rounded down. The constant stands on the left, since the
kernel would unfold a product with a literal on its right. -/
@[irreducible] def perToken (r activeStake : Nat) : Nat := unitBias * r / activeStake

namespace Pool

variable {ι κ : Type} [DecidableEq ι] [DecidableEq κ]

/-- The stake that rewards of this epoch are divided by. -/
def view (p : Pool ι κ) : Nat := if p.inDelay then p.snapshot else p.consensus

def activation (p : Pool ι κ) : Nat := if p.inDelay then (p.epoch + 2) % uint64Size else (p.epoch + 1) % uint64Size

def isActive (p : Pool ι κ) (f : Nat) : Bool := f != 0 && f ≤ p.epoch

/-! ## Bringing a delegator up to date -/

@[simps -fullyApplied]
def promote (a : ι) (p : Pool ι κ) : Pool ι κ :=
  { p with
    del := update p.del a (if canPromoteDelta (p.del a) p.epoch then promoteDelta (p.del a) else p.del a) }

/-- The accumulator in the cell of the first bucket. -/
def bucketAcc (a : ι) (p : Pool ι κ) : Nat := (p.cell (p.del a).deltaEpoch).released

def compoundReward (a : ι) (p : Pool ι κ) : Nat :=
  earned (p.del a).stake (p.bucketAcc a) (p.del a).accumulatedRewardPerToken

/-- Fold the first bucket into the active stake, after paying the active stake up to the epoch of
the bucket. -/
@[simps -fullyApplied]
def compound (a : ι) (p : Pool ι κ) : Pool ι κ :=
  { p with
    unclaimed := p.unclaimed - p.compoundReward a
    del := update p.del a ((p.del a).compounded (p.bucketAcc a) (p.compoundReward a))
    cell := update p.cell (p.del a).deltaEpoch (p.cell (p.del a).deltaEpoch).release
    settlements := update p.settlements a (p.settlements a + 1) }

def settleReward (a : ι) (p : Pool ι κ) : Nat := earned (p.del a).stake p.acc (p.del a).accumulatedRewardPerToken

/-- Pay the active stake up to now. -/
@[simps -fullyApplied]
def settle (a : ι) (p : Pool ι κ) : Pool ι κ :=
  { p with
    unclaimed := p.unclaimed - p.settleReward a
    del := update p.del a ((p.del a).settled p.acc (p.settleReward a))
    settlements := update p.settlements a (p.settlements a + 1) }

/-- The accumulators are in order and the pool can pay, so that `compound` goes through. -/
structure CanCompound (a : ι) (p : Pool ι κ) : Prop where
  acc_le : (p.del a).accumulatedRewardPerToken ≤ p.bucketAcc a
  solvent : p.compoundReward a ≤ p.unclaimed

structure CanSettle (a : ι) (p : Pool ι κ) : Prop where
  acc_le : (p.del a).accumulatedRewardPerToken ≤ p.acc
  solvent : p.settleReward a ≤ p.unclaimed

/-- Fold in the buckets that have become active: both, the first one, or none. -/
def foldBuckets (a : ι) (p : Pool ι κ) : Pool ι κ :=
  if p.isActive (p.del a).nextDeltaEpoch then (p.compound a).compound a
  else if p.isActive (p.del a).deltaEpoch then p.compound a
  else p

/-- A delegator without active stake is not touched. -/
def settleIfStaked (a : ι) (p : Pool ι κ) : Pool ι κ := if (p.del a).stake = 0 then p else p.settle a

/-- `pull_delegator_up_to_date` where it succeeds. -/
def pull (a : ι) (p : Pool ι κ) : Pool ι κ := ((p.promote a).foldBuckets a).settleIfStaked a

/-- The conditions under which folding in the buckets finds the pool in order. -/
structure BucketsSafe (a : ι) (q : Pool ι κ) : Prop where
  order : q.isActive (q.del a).nextDeltaEpoch → q.isActive (q.del a).deltaEpoch
  first : q.isActive (q.del a).deltaEpoch → q.CanCompound a
  second : q.isActive (q.del a).nextDeltaEpoch → (q.compound a).CanCompound a

/-- The conditions under which a pull finds the promoted pool in order. -/
structure FoldSafe (a : ι) (q : Pool ι κ) : Prop extends BucketsSafe a q where
  settle : ((q.foldBuckets a).del a).stake ≠ 0 → (q.foldBuckets a).CanSettle a

def PullSafe (a : ι) (p : Pool ι κ) : Prop := FoldSafe a (p.promote a)

/-! ## The operations -/

/-- Put `s` into the bucket of the current phase; an empty bucket takes a reference to the cell of
its epoch. -/
@[simps -fullyApplied]
def stage (a : ι) (s : Nat) (p : Pool ι κ) : Pool ι κ :=
  { p with
    stake := p.stake + s
    del := update p.del a ((p.del a).staged p.inDelay s p.activation)
    cell := if (p.del a).stagedEpoch p.inDelay = 0 then
        update p.cell p.activation ((p.cell p.activation).acquire p.acc)
      else p.cell }

/-- What leaves the active stake when `amount` is undelegated: all of it if only dust would
remain. -/
def leaving (a : ι) (amount : Nat) (p : Pool ι κ) : Nat :=
  if (p.del a).stake - amount < Limits.dustThreshold then (p.del a).stake else amount

/-- Turn active stake into a withdrawal request. -/
@[simps -fullyApplied]
def lower (a : ι) (i : κ) (amount : Nat) (p : Pool ι κ) : Pool ι κ :=
  { p with
    stake := p.stake - p.leaving a amount
    del := update p.del a ((p.del a).lowered (p.leaving a amount))
    request := update p.request (a, i)
      { amount := p.leaving a amount
        acc := (p.del a).accumulatedRewardPerToken
        epoch := p.activation }
    cell := update p.cell p.activation ((p.cell p.activation).acquire p.acc) }

/-! The three parts of `lower`, in the order of the source. -/

def takeOut (a : ι) (out : Nat) (p : Pool ι κ) : Pool ι κ :=
  { p with
    stake := p.stake - out
    del := update p.del a { p.del a with stake := (p.del a).stake - out } }

def openRequest (a : ι) (i : κ) (out : Nat) (p : Pool ι κ) : Pool ι κ :=
  { p with
    request := update p.request (a, i)
      { amount := out, acc := (p.del a).accumulatedRewardPerToken, epoch := p.activation }
    cell := update p.cell p.activation ((p.cell p.activation).acquire p.acc) }

def forgetAcc (a : ι) (p : Pool ι κ) : Pool ι κ :=
  { p with
    del := update p.del a
      { p.del a with
        accumulatedRewardPerToken := if (p.del a).stake = 0 then 0
          else (p.del a).accumulatedRewardPerToken } }

theorem lower_eq (a : ι) (i : κ) (amount : Nat) (p : Pool ι κ) : p.lower a i amount =
    ((p.takeOut a (p.leaving a amount)).openRequest a i (p.leaving a amount)).forgetAcc a := by
  simp only [lower, takeOut, openRequest, forgetAcc, lowered, update_self, update_idem]
  rfl

theorem getNextEpochStake_lower (a : ι) (i : κ) (amount : Nat) (p : Pool ι κ) :
    ((p.lower a i amount).del a).getNextEpochStake =
      ((p.takeOut a (p.leaving a amount)).del a).getNextEpochStake := by
  simp [lower, takeOut, lowered, getNextEpochStake]

def requestReward (j : ι × κ) (p : Pool ι κ) : Nat :=
  earned (p.request j).amount (p.cell (p.request j).epoch).released (p.request j).acc

structure CanRedeem (j : ι × κ) (p : Pool ι κ) : Prop where
  acc_le : (p.request j).acc ≤ (p.cell (p.request j).epoch).released
  solvent : p.requestReward j ≤ p.unclaimed

/-- Close a withdrawal request and pay it. -/
@[simps -fullyApplied]
def redeem (a : ι) (i : κ) (p : Pool ι κ) : Pool ι κ :=
  { p with
    unclaimed := p.unclaimed - p.requestReward (a, i)
    request := update p.request (a, i) {}
    cell := update p.cell (p.request (a, i)).epoch (p.cell (p.request (a, i)).epoch).release
    settlements := update p.settlements a (p.settlements a + 1)
    payouts := update p.payouts a (p.payouts a + p.requestReward (a, i)) }

/-- Take the rewards out of the delegator's record, to pay or to compound them. -/
@[simps -fullyApplied]
def takeRewards (a : ι) (p : Pool ι κ) : Pool ι κ :=
  { p with
    del := update p.del a { p.del a with rewards := 0 }
    payouts := update p.payouts a (p.payouts a + (p.del a).rewards) }

/-- Give the commission to the auth address and the rest of a reward to the pool. -/
@[simps -fullyApplied]
def reward (auth : ι) (commission r : Nat) (p : Pool ι κ) : Pool ι κ :=
  { p with
    acc := p.acc + perToken r p.view
    unclaimed := p.unclaimed + r
    del := update p.del auth
      { p.del auth with rewards := (p.del auth).rewards + commission } }

/-- Enter the epoch `next`; the cells of that epoch and of the one after it are refreshed if the
validator is `listed` in the snapshot set. -/
@[simps -fullyApplied]
def changeEpoch (next : Nat) (listed : Bool) (p : Pool ι κ) : Pool ι κ :=
  { p with
    epoch := next
    inDelay := false
    cell := if listed then fun f =>
        if f = next ∨ f = (next + 1) % uint64Size then (p.cell f).refresh p.acc else p.cell f
      else p.cell }

/-- Freeze the views: `chosen` tells whether the validator is in the next set. -/
@[simps -fullyApplied]
def takeSnapshot (chosen : Bool) (p : Pool ι κ) : Pool ι κ :=
  { p with
    snapshot := p.consensus
    consensus := if chosen then p.stake else 0
    inDelay := true }

/-- What one call does to a pool. -/
inductive Op (ι κ : Type)
  | idle
  | pull (a : ι)
  | delegate (a : ι) (s : Nat)
  | undelegate (a : ι) (i : κ) (amount : Nat)
  | compound (a : ι)
  | withdraw (a : ι) (i : κ)
  | claim (a : ι)
  | reward (auth : ι) (commission r : Nat)
  | changeEpoch (next : Nat) (listed : Bool)
  | takeSnapshot (chosen : Bool)

/-- One call, with the checks it has passed. -/
inductive Step : Op ι κ → Pool ι κ → Pool ι κ → Prop
  | idle {p : Pool ι κ} : Step .idle p p
  | pull {p : Pool ι κ} {a : ι} (safe : p.PullSafe a) : Step (.pull a) p (p.pull a)
  | delegate {p : Pool ι κ} {a : ι} {s : Nat} (hs : Limits.dustThreshold ≤ s)
      (safe : p.PullSafe a) (hr : (p.pull a).stake + s < uint256Size) :
      Step (.delegate a s) p ((p.pull a).stage a s)
  | undelegate {p : Pool ι κ} {a : ι} {i : κ} {amount : Nat} (h0 : amount ≠ 0)
      (hw : (p.request (a, i)).hasValue = false) (safe : p.PullSafe a)
      (hx : amount ≤ ((p.pull a).del a).stake)
      (hl : (p.pull a).leaving a amount ≤ (p.pull a).stake) :
      Step (.undelegate a i amount) p ((p.pull a).lower a i amount)
  | compoundNothing {p : Pool ι κ} {a : ι} (safe : p.PullSafe a) (h0 : ((p.pull a).del a).rewards = 0) :
      Step (.compound a) p ((p.pull a).takeRewards a)
  | compound {p q : Pool ι κ} {a : ι} {r : Nat} (safe : p.PullSafe a)
      (hr : ((p.pull a).del a).rewards = r) (hq : (p.pull a).takeRewards a = q)
      (hs : Limits.dustThreshold ≤ r) (safe' : q.PullSafe a)
      (hb : (q.pull a).stake + r < uint256Size) :
      Step (.compound a) p ((q.pull a).stage a r)
  | withdraw {p : Pool ι κ} {a : ι} {i : κ} (hw : (p.request (a, i)).hasValue)
      (ready : p.isActive (((p.request (a, i)).epoch + Limits.withdrawalDelay) % uint64Size))
      (can : p.CanRedeem (a, i)) : Step (.withdraw a i) p (p.redeem a i)
  | claim {p : Pool ι κ} {a : ι} (safe : p.PullSafe a) : Step (.claim a) p ((p.pull a).takeRewards a)
  | reward {p : Pool ι κ} {auth : ι} {commission r : Nat} (hv : p.view ≠ 0) :
      Step (.reward auth commission r) p (p.reward auth commission r)
  | changeEpoch {p : Pool ι κ} {next : Nat} {listed : Bool} (he : p.epoch < next) (hn : next < uint64Size) :
      Step (.changeEpoch next listed) p (p.changeEpoch next listed)
  | takeSnapshot {p : Pool ι κ} {chosen : Bool} (hd : p.inDelay = false) :
      Step (.takeSnapshot chosen) p (p.takeSnapshot chosen)

/-! ## Reasoning about a pull -/

omit [DecidableEq κ]

/-- No bucket is active. -/
def Calm (a : ι) (p : Pool ι κ) : Prop :=
  p.isActive (p.del a).deltaEpoch = false ∧ p.isActive (p.del a).nextDeltaEpoch = false

omit [DecidableEq ι] in
@[simp]
theorem isActive_zero (p : Pool ι κ) : p.isActive 0 = false := rfl

section

variable (a : ι) (p : Pool ι κ) (f : Nat)

@[simp]
theorem isActive_promote : (p.promote a).isActive f = p.isActive f := by
  unfold isActive
  rfl

@[simp]
theorem isActive_compound : (p.compound a).isActive f = p.isActive f := by
  unfold isActive
  rfl

@[simp]
theorem isActive_settle : (p.settle a).isActive f = p.isActive f := by
  unfold isActive
  rfl

end

variable {p : Pool ι κ}

omit [DecidableEq ι] in
theorem isActive_iff {f : Nat} : p.isActive f = true ↔ f ≠ 0 ∧ f ≤ p.epoch := by simp [isActive]

omit [DecidableEq ι] in
theorem isActive_eq_false {f : Nat} : p.isActive f = false ↔ f = 0 ∨ p.epoch < f := by
  simp [isActive]
  omega

theorem calm_foldBuckets (a : ι) (q : Pool ι κ) : Calm a (q.foldBuckets a) := by
  unfold foldBuckets Calm
  split_ifs with hnext hdel
  · simp
  · simpa using hnext
  · exact ⟨by simpa using hdel, by simpa using hnext⟩

/-- A property that the parts of a pull preserve is preserved by the pull. The active stake is
settled only after every active bucket has been folded into it. -/
theorem pull_induct {P : Pool ι κ → Prop} {a : ι} (safe : p.PullSafe a) (promote : P (p.promote a))
    (compound : ∀ q, P q → q.isActive (q.del a).deltaEpoch → q.CanCompound a → P (q.compound a))
    (settle : ∀ q, P q → Calm a q → (q.del a).stake ≠ 0 → q.CanSettle a → P (q.settle a)) : P (p.pull a) := by
  have hfold : P ((p.promote a).foldBuckets a) := by
    unfold foldBuckets
    split_ifs with hnext hdel
    · have hdel := safe.order hnext
      refine compound _ (compound _ promote hdel (safe.first hdel)) ?_ (safe.second hnext)
      simpa using hnext
    · exact compound _ promote hdel (safe.first hdel)
    · exact promote
  unfold pull settleIfStaked
  split_ifs with hstk
  · exact hfold
  · exact settle _ hfold (calm_foldBuckets a _) hstk (safe.settle hstk)

section

variable (a : ι) (p : Pool ι κ)

/-- A pull opens and closes no request. -/
@[simp]
theorem request_pull : (p.pull a).request = p.request := by
  unfold pull settleIfStaked foldBuckets
  split_ifs <;> rfl

@[simp]
theorem epoch_pull : (p.pull a).epoch = p.epoch := by
  unfold pull settleIfStaked foldBuckets
  split_ifs <;> rfl

@[simp]
theorem inDelay_pull : (p.pull a).inDelay = p.inDelay := by
  unfold pull settleIfStaked foldBuckets
  split_ifs <;> rfl

@[simp]
theorem stakes_pull : (p.pull a).stake = p.stake ∧ (p.pull a).consensus = p.consensus ∧
    (p.pull a).snapshot = p.snapshot := by
  unfold pull settleIfStaked foldBuckets
  split_ifs <;> exact ⟨rfl, rfl, rfl⟩

@[simp]
theorem acc_pull : (p.pull a).acc = p.acc := by
  unfold pull settleIfStaked foldBuckets
  split_ifs <;> rfl

end

end Pool

end MonadExecution.Staking
