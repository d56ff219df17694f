import MonadExecution.Staking.Precompile

/-!
# The staking contract — system calls

The three calls that consensus makes: the reward of every block, the snapshot of the validator set
at the boundary block of an epoch, and the change of the epoch some blocks later. The loops of the
source over a `StorageArray` are folds over its list, in the order of the source: an array that is
popped until it is empty is folded from its end.
-/

namespace MonadExecution.Staking

open Program Function

variable (rev : MonadRevision)

/-! ## Epoch change -/

/-- Write the validator's accumulator into the cell of epoch `e`, if somebody refers to it. -/
def World.refreshAccumulator (e : Nat) (v : ValId) (w : World) : World :=
  let acc := w.accumulatedRewardPerToken e v
  if acc.hasValue then
    w.setAccumulator e v
      { acc with value := (w.valExecution v).accumulatedRewardPerToken }
  else w

def syscallOnEpochChange (input : Bytes) (value : Nat) : M Unit := do
  require (value = 0) (.staking .valueNonZero)
  let nextEpoch ← lift (decodeEpoch input)
  let nextNextEpoch := (nextEpoch + 1) % uint64Size
  let lastEpoch ← load (·.epoch)
  if nextEpoch ≤ lastEpoch then do
    update (World.diagnose (.invalidEpochChange lastEpoch nextEpoch))
    throw (.staking .invalidEpochChange)
  else do
    update (World.emitLog (.epochChanged lastEpoch nextEpoch))
    update fun w => w.valsetSnapshot.foldl
      (fun w v => (w.refreshAccumulator nextEpoch v).refreshAccumulator nextNextEpoch v) w
    update fun w => { w with inEpochDelayPeriod := false, epoch := nextEpoch }

/-! ## Reward -/

/-- The part of `syscall_reward` behind the lookups: mint the reward, give the commission to the
auth address and the rest to the pool. -/
def rewardValidator (v : ValId) (rawReward : Nat) : M Unit := do
  -- 2. validator must be active
  let consensusView ← load (·.thisEpochView v)
  let activeStake := consensusView.stake
  require (activeStake ≠ 0) (.staking .notInValidatorSet)
  mintTokens rawReward
  -- 3. subtract commission
  let commission ← lift (checkedMulDiv rawReward consensusView.commission mon)
  -- 4. Send commission to the auth address
  let auth ← load (fun w => (w.valExecution v).authAddress)
  let old ← load (fun w => (w.delegator v auth).rewards)
  let authReward ← lift (checkedAdd old commission)
  update (World.modifyDelegator v auth fun d => { d with rewards := authReward })
  let delReward ← lift (checkedSub rawReward commission)
  -- 5. update accumulator and unclaimed rewards for this validator pool
  applyReward v systemSender delReward activeStake

/-- Update rewards for the leader, only if in the active validator set. -/
def syscallReward (input : Bytes) (rawReward : Nat) : M Unit := do
  let blockAuthor ← lift (decodeAddress input)
  -- 1. get validator information
  let v ← load (·.valId blockAuthor)
  require (v ≠ 0) (.staking .notInValidatorSet)
  rewardValidator v rawReward
  -- 6. Store the proposer validator id for other contracts to query.
  onlyIf (MonadRevision.five.toNat ≤ rev.toNat) (update fun w => { w with proposerValId := v })

/-! ## Snapshot -/

namespace World

/-- 1. Throw out last epoch's snapshot view. -/
def throwOutSnapshotView (w : World) : World :=
  { w with
    valsetSnapshot := []
    snapshotView := w.valsetSnapshot.foldr (fun v view => update view v {}) w.snapshotView }

/-- 2. Copy the consensus view to the snapshot view. -/
def copyConsensusToSnapshot (w : World) : World :=
  { w with
    valsetSnapshot := w.valsetSnapshot ++ w.valsetConsensus
    snapshotView := w.valsetConsensus.foldl (fun view v => update view v (w.consensusView v)) w.snapshotView }

/-- 3. Throw out the consensus view. -/
def throwOutConsensusView (w : World) : World :=
  { w with
    valsetConsensus := []
    consensusView := w.valsetConsensus.foldr (fun v view => update view v {}) w.consensusView }

end World

/-- A validator id and its stake. -/
abbrev Candidate := ValId × Nat

/-- 4. The candidates in the execution set: only validators with OK status are selected. -/
def World.candidates (w : World) : List Candidate :=
  (w.valsetExecution.filter fun v => (w.valExecution v).flags == validatorFlagsOk).map
    fun v => (v, (w.valExecution v).stake)

/-- Indices of the entries of the execution set with another status, queued up for removal. -/
def World.removals (w : World) : List Nat :=
  (List.range w.valsetExecution.length).filter fun i =>
    (w.valExecution (w.valsetExecution.getD i 0)).flags != validatorFlagsOk

/-- By stake descending, then by id ascending. -/
def candidateBefore (a b : Candidate) : Bool :=
  if a.2 ≠ b.2 then decide (b.2 < a.2) else decide (a.1.toNat < b.1.toNat)

/-- The first candidates in that order, the `n` places that `partial_sort` fills. The order is
strict, so that two candidates are swapped only if the second belongs before the first. -/
def topCandidates (candidates : List Candidate) : List Candidate :=
  (candidates.insertionSort fun a b => candidateBefore b a = false).take Limits.activeValsetSize

namespace World

/-- 5. Construct the consensus set from the top validators. -/
def pushConsensus (w : World) (c : Candidate) : World :=
  { w with
    valsetConsensus := w.valsetConsensus ++ [c.1]
    consensusView := update w.consensusView c.1
      { stake := c.2, commission := (w.valExecution c.1).commission } }

/-- 6. Remove the entry at index `i` of the execution set: the last entry takes its place. If it
is the last entry itself, the slot behind the array that the source writes is not part of it. -/
def removeCandidate (i : Nat) (w : World) : World :=
  let w := w.removeFromValset (w.valsetExecution.getD i 0)
  { w with
    valsetExecution := w.valsetExecution.dropLast.set i (w.valsetExecution.getLastD 0) }

/-- The validator sets after the boundary block. Highest indices are removed first. -/
def takeSnapshot (w : World) : World :=
  let w := w.throwOutSnapshotView.copyConsensusToSnapshot.throwOutConsensusView
  let top := topCandidates w.candidates
  let removals := w.removals
  let w := top.foldl pushConsensus w
  let w := removals.foldr removeCandidate w
  { w with inEpochDelayPeriod := true }

end World

def syscallSnapshot (input : Bytes) (value : Nat) : M Unit := do
  require (value = 0) (.staking .valueNonZero)
  require (input = []) (.staking .invalidInput)
  let inEpochDelayPeriod ← load (·.inEpochDelayPeriod)
  if inEpochDelayPeriod then do
    let epoch ← load (·.epoch)
    update (World.diagnose (.snapshotTwice epoch))
    throw (.staking .snapshotInBoundary)
  else update World.takeSnapshot

/-! ## Reading a validator set

`read_valset` opens the contract on a finished block. Epoch sums are 64-bit. -/

/-- What consensus gets for one validator. -/
structure Validator where
  secpPubkey : Bytes
  blsPubkey : Bytes
  stake : Nat
  deriving DecidableEq, Repr

/-- The result of `read_valset`, or the failed assertion that stops the process. -/
inductive ReadValset
  | nullopt
  | valset (vs : List Validator)
  | assertionFailed
  deriving DecidableEq, Repr

def readValset (w : World) (requestedEpoch : Nat) : ReadValset :=
  let nextEpoch := (w.epoch + 1) % uint64Size
  -- can't read the next epoch before the boundary block
  if requestedEpoch = nextEpoch ∧ w.inEpochDelayPeriod = false then .nullopt
  -- old epoch which no longer exists
  else if requestedEpoch < w.epoch then .nullopt
  -- hasn't happened yet
  else if nextEpoch < requestedEpoch then .nullopt
  else
    let getNextEpoch : Bool := requestedEpoch = nextEpoch
    let contractValset := if getNextEpoch then w.valsetConsensus else w.thisEpochValset
    let getStake (v : ValId) : Nat := if getNextEpoch then (w.consensusView v).stake else (w.thisEpochView v).stake
    if Limits.activeValsetSize < contractValset.length then .assertionFailed
    else .valset (contractValset.map fun v =>
      { secpPubkey := (w.valExecution v).keys.secpPubkey
        blsPubkey := (w.valExecution v).keys.blsPubkey
        stake := getStake v })

end MonadExecution.Staking
