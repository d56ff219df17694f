import MonadExecution.Staking.Contract

/-!
# The staking contract — precompiled methods

The methods a transaction can call, in the order of the source. What a method returns is the
value it hands to the ABI encoder, before encoding.
-/

namespace MonadExecution.Staking

open Program

variable (rev : MonadRevision) (crypto : Crypto)

def functionNotPayable (value : Nat) : M Unit := require (value = 0) (.staking .valueNonZero)

/-! ## Delegating -/

/-- Put `stake` into the bucket that is filled in the current phase of the epoch, and take a
reference to the accumulator of its epoch if the bucket was empty. -/
def stageDelegation (v : ValId) (stake : Nat) (a : Address) : M Unit := do
  let activeEpoch ← load World.getActivationEpoch
  let inEpochDelayPeriod ← load (·.inEpochDelayPeriod)
  let del ← load (·.delegator v a)
  if inEpochDelayPeriod then do
    -- case 1: compound called in boundary. becomes active in epoch+2
    let delta ← lift (checkedAdd del.nextDeltaStake stake)
    update (World.modifyDelegator v a fun d => { d with nextDeltaStake := delta, nextDeltaEpoch := activeEpoch })
    onlyIf (del.nextDeltaEpoch = 0) (incrementAccumulatorRefcount v)
  else do
    -- case 2: compound called before boundary. becomes active in epoch+1
    let delta ← lift (checkedAdd del.deltaStake stake)
    update (World.modifyDelegator v a fun d => { d with deltaStake := delta, deltaEpoch := activeEpoch })
    onlyIf (del.deltaEpoch = 0) (incrementAccumulatorRefcount v)
  update (World.emitLog (.delegate v a stake activeEpoch))

def setFlag (flag : BitVec 64) (val : ValExecution) : ValExecution := { val with flags := val.flags ||| flag }

def clearFlag (flag : BitVec 64) (val : ValExecution) : ValExecution := { val with flags := val.flags &&& ~~~ flag }

/-- Emit the status event if the flags of `v` are no longer `oldflags`. -/
def emitIfStatusChanged (v : ValId) (oldflags : BitVec 64) : M Unit := do
  let flags ← load (fun w => (w.valExecution v).flags)
  onlyIf (flags ≠ oldflags) (update (World.emitLog (.validatorStatusChanged v flags)))

/-- Make the validator a candidate if no flag is left. -/
def enlistCandidate (v : ValId) : M Unit := do
  let flags ← load (fun w => (w.valExecution v).flags)
  onlyIf (flags = validatorFlagsOk) do
    let inserted ← addToValset v
    onlyIf inserted (update fun w => { w with valsetExecution := w.valsetExecution ++ [v] })

/-- Raise the stake of the pool and clear the flags the new stake allows to clear. -/
def raiseValidatorStake (v : ValId) (stake : Nat) (a : Address) : M Unit := do
  let val ← load (·.valExecution v)
  let newValStake ← lift (checkedAdd val.stake stake)
  update (World.modifyVal v fun val => { val with stake := newValStake })
  -- does total val stake exceed the minimum threshold?
  onlyIf (Limits.activeValidatorStake rev ≤ newValStake)
    (update (World.modifyVal v (clearFlag validatorFlagsStakeTooLow)))
  -- did the auth delegator reactivate?
  let del ← load (·.delegator v a)
  onlyIf (val.authAddress = a ∧ Limits.minAuthAddressStake ≤ del.getNextEpochStake)
    (update (World.modifyVal v (clearFlag validatorFlagWithdrawn)))
  emitIfStatusChanged v val.flags
  enlistCandidate v

def delegate (v : ValId) (stake : Nat) (a : Address) : M Unit := do
  let val ← load (·.valExecution v)
  require val.exist (.staking .unknownValidator)
  -- each individual delegation must reach the dust threshold
  require (Limits.dustThreshold ≤ stake) (.staking .delegationTooSmall)
  pullDelegatorUpToDate v a
  stageDelegation v stake a
  raiseValidatorStake rev v stake a
  linkedListInsert delegatorList v a
  linkedListInsert validatorList a v

/-- Checks of `addValidator` that come before the contract is touched. -/
def verifyAddValidator (i : AddValidatorInput) (value : Nat) : M Unit := do
  require (i.signedStake = value) (.staking .invalidInput)
  require (Limits.minAuthAddressStake ≤ value) (.staking .insufficientStake)
  require (crypto.secpPubkeyIsValid i.secpPubkey) (.staking .invalidSecpPubkey)
  require (crypto.secpSignatureIsValid i.secpSignature) (.staking .invalidSecpSignature)
  require (crypto.secpVerify i.secpPubkey i.secpSignature i.message) (.staking .secpSignatureVerificationFailed)
  require (crypto.blsPubkeyIsValid i.blsPubkey) (.staking .invalidBlsPubkey)
  require (crypto.blsSignatureIsValid i.blsSignature) (.staking .invalidBlsSignature)
  require (crypto.blsVerify i.blsPubkey i.blsSignature i.message) (.staking .blsSignatureVerificationFailed)
  require (i.commission ≤ Limits.maxCommission) (.staking .commissionTooHigh)

/-- Give the next id to a validator with fresh keys and store its metadata. -/
def registerValidator (i : AddValidatorInput) : M ValId := do
  let secpEthAddress := crypto.addressFromSecpkey i.secpPubkey
  let blsEthAddress := crypto.addressFromBlsKey i.blsPubkey
  let taken ← load (fun w => w.valId secpEthAddress != 0 || w.valIdBls blsEthAddress != 0)
  require (taken = false) (.staking .validatorExists)
  let v ← load (·.lastValId + 1)
  update fun w => { w with
    valId := Function.update w.valId secpEthAddress v
    valIdBls := Function.update w.valIdBls blsEthAddress v
    lastValId := v }
  -- add validator metadata
  update (World.modifyVal v fun val => { val with
    keys := { secpPubkey := i.secpPubkey, blsPubkey := i.blsPubkey }
    authAddress := i.authAddress
    flags := validatorFlagsStakeTooLow
    commission := i.commission })
  update (World.emitLog (.validatorCreated v i.authAddress i.commission))
  return v

def precompileAddValidator (input : Bytes) (value : Nat) : M ValId := do
  let i ← lift (decodeAddValidator input)
  verifyAddValidator crypto i value
  let v ← registerValidator crypto i
  delegate rev v value i.authAddress
  return v

def precompileDelegate (input : Bytes) (sender : Address) (value : Nat) : M Unit := do
  let v ← lift (decodeValId input)
  onlyIf (value ≠ 0) (delegate rev v value sender)

/-! ## Undelegating -/

/-- Take the amount out of the delegator's active stake and of the pool's stake; the result is the
amount with the dust that goes with it. -/
def lowerStake (v : ValId) (a : Address) (amount : Nat) : M Nat := do
  let valStake ← load (fun w => (w.valExecution v).stake)
  let delStake ← load (fun w => (w.delegator v a).stake)
  require (amount ≤ delStake) (.staking .insufficientStake)
  let valStake ← lift (checkedSub valStake amount)
  let delStake ← lift (checkedSub delStake amount)
  if delStake < Limits.dustThreshold then do
    -- if all that remains is dust, send the rest of the delegator's balance with this withdrawal
    let amount ← lift (checkedAdd amount delStake)
    let valStake ← lift (checkedSub valStake delStake)
    update (World.modifyVal v fun val => { val with stake := valStake })
    update (World.modifyDelegator v a fun d => { d with stake := 0 })
    return amount
  else do
    update (World.modifyVal v fun val => { val with stake := valStake })
    update (World.modifyDelegator v a fun d => { d with stake := delStake })
    return amount

/-- Set the flags that the lowered stakes call for. -/
def flagLoweredStake (v : ValId) (a : Address) : M Unit := do
  let val ← load (·.valExecution v)
  let del ← load (·.delegator v a)
  onlyIf (a = val.authAddress ∧ del.getNextEpochStake < Limits.minAuthAddressStake)
    (update (World.modifyVal v (setFlag validatorFlagWithdrawn)))
  onlyIf (val.stake < Limits.activeValidatorStake rev)
    (update (World.modifyVal v (setFlag validatorFlagsStakeTooLow)))
  emitIfStatusChanged v val.flags

/-- Store the withdrawal request. It can be thought of as an independent delegator whose stake is
the amount being withdrawn. -/
def openWithdrawalRequest (v : ValId) (a : Address) (i : WithdrawalId) (amount : Nat) : M Unit := do
  let withdrawalEpoch ← load World.getActivationEpoch
  update (World.emitLog (.undelegate v a i amount withdrawalEpoch))
  let acc ← load (fun w => (w.delegator v a).accumulatedRewardPerToken)
  update (World.setWithdrawalRequest v a i
    { amount := amount, acc := acc, epoch := withdrawalEpoch })
  incrementAccumulatorRefcount v

/-- Free what a delegator without active stake, or without any stake, no longer needs. -/
def releaseDelegator (v : ValId) (a : Address) : M Unit := do
  let del ← load (·.delegator v a)
  onlyIf (del.stake = 0) (update (World.modifyDelegator v a fun d => { d with accumulatedRewardPerToken := 0 }))
  onlyIf (del.getNextEpochStake = 0) do
    linkedListRemove delegatorList v a
    linkedListRemove validatorList a v

def undelegate (v : ValId) (amount : Nat) (i : WithdrawalId) (a : Address) : M Unit := do
  let val ← load (·.valExecution v)
  require val.exist (.staking .unknownValidator)
  let request ← load (·.withdrawalRequest v a i)
  require (request.hasValue = false) (.staking .withdrawalIdExists)
  pullDelegatorUpToDate v a
  let amount ← lowerStake v a amount
  flagLoweredStake rev v a
  openWithdrawalRequest v a i amount
  releaseDelegator v a

def precompileUndelegate (input : Bytes) (sender : Address) (value : Nat) : M Unit := do
  functionNotPayable value
  let (v, amount, i) ← lift (decodeUndelegate input)
  onlyIf (amount ≠ 0) (undelegate rev v amount i sender)

/-! ## Rewards and withdrawals -/

def compound (v : ValId) (a : Address) : M Unit := do
  pullDelegatorUpToDate v a
  let rewards ← load (fun w => (w.delegator v a).rewards)
  update (World.modifyDelegator v a fun d => { d with rewards := 0 })
  update (World.notePayout v a rewards)
  onlyIf (rewards ≠ 0) do
    let epoch ← load (·.epoch)
    update (World.emitLog (.claimRewards v a rewards epoch))
    delegate rev v rewards a

def precompileCompound (input : Bytes) (sender : Address) (value : Nat) : M Unit := do
  functionNotPayable value
  let v ← lift (decodeValId input)
  compound rev v sender

def withdraw (v : ValId) (i : WithdrawalId) (a : Address) : M Unit := do
  let request ← load (·.withdrawalRequest v a i)
  require request.hasValue (.staking .unknownWithdrawalId)
  update (World.setWithdrawalRequest v a i {})
  let ready ← load (·.isEpochActive ((request.epoch + Limits.withdrawalDelay) % uint64Size))
  require ready (.staking .withdrawalNotReady)
  let withdrawAcc ← decrementAccumulatorRefcount request.epoch v
  let rewards ← lift (calculateRewards request.amount withdrawAcc request.acc)
  update (World.noteSettlement v a)
  rewardInvariant v rewards
  let withdrawalAmount ← lift (checkedAdd request.amount rewards)
  let contractBalance ← load (·.balance stakingCa)
  require (withdrawalAmount ≤ contractBalance) (.exception .withdrawalInsolvent)
  sendTokens a withdrawalAmount
  update (World.notePayout v a rewards)
  let epoch ← load (·.epoch)
  update (World.emitLog (.withdraw v a i withdrawalAmount epoch))

def precompileWithdraw (input : Bytes) (sender : Address) (value : Nat) : M Unit := do
  functionNotPayable value
  let (v, i) ← lift (decodeWithdraw input)
  withdraw v i sender

def claimRewards (v : ValId) (a : Address) : M Unit := do
  pullDelegatorUpToDate v a
  let rewards ← load (fun w => (w.delegator v a).rewards)
  onlyIf (rewards ≠ 0) do
    sendTokens a rewards
    update (World.modifyDelegator v a fun d => { d with rewards := 0 })
    update (World.notePayout v a rewards)
    let epoch ← load (·.epoch)
    update (World.emitLog (.claimRewards v a rewards epoch))

def precompileClaimRewards (input : Bytes) (sender : Address) (value : Nat) : M Unit := do
  functionNotPayable value
  let v ← lift (decodeValId input)
  claimRewards v sender

def changeCommission (v : ValId) (newCommission : Nat) (a : Address) : M Unit := do
  let val ← load (·.valExecution v)
  require val.exist (.staking .unknownValidator)
  require (a = val.authAddress) (.staking .requiresAuthAddress)
  require (newCommission ≤ Limits.maxCommission) (.staking .commissionTooHigh)
  -- set in execution view. will go live next epoch.
  onlyIf (val.commission ≠ newCommission) do
    update (World.modifyVal v fun val => { val with commission := newCommission })
    update (World.emitLog (.commissionChanged v val.commission newCommission))

def precompileChangeCommission (input : Bytes) (sender : Address) (value : Nat) : M Unit := do
  functionNotPayable value
  let (v, newCommission) ← lift (decodeValIdAmount input)
  changeCommission v newCommission sender

def externalReward (v : ValId) (reward : Nat) (sender : Address) : M Unit := do
  -- 1. Only validators in the consensus set can invoke this method.
  let val ← load (·.valExecution v)
  require val.exist (.staking .unknownValidator)
  let activeStake ← load (fun w => (w.thisEpochView v).stake)
  require (activeStake ≠ 0) (.staking .notInValidatorSet)
  -- 2. Apply bounds checks
  require (Limits.minExternalReward ≤ reward) (.staking .externalRewardTooSmall)
  require (reward ≤ Limits.maxExternalReward) (.staking .externalRewardTooLarge)
  -- 3. Update validator accumulator.
  applyReward v sender reward activeStake

def precompileExternalReward (input : Bytes) (sender : Address) (value : Nat) : M Unit := do
  let v ← lift (decodeValId input)
  externalReward v value sender

/-! ## Getters -/

/-- Settles the delegator before it is read, so this getter writes. -/
def precompileGetDelegator (input : Bytes) (value : Nat) : M Delegator := do
  functionNotPayable value
  let (v, a) ← lift (decodeValIdAddress input)
  pullDelegatorUpToDate v a
  load (·.delegator v a)

def precompileGetValidator (input : Bytes) (value : Nat) : M (ValExecution × ConsensusView × ConsensusView) := do
  functionNotPayable value
  let v ← lift (decodeValId input)
  load fun w => (w.valExecution v, w.consensusView v, w.snapshotView v)

def precompileGetWithdrawalRequest (input : Bytes) (value : Nat) : M WithdrawalRequest := do
  functionNotPayable value
  let (v, a, i) ← lift (decodeWithdrawalRequest input)
  load (·.withdrawalRequest v a i)

/-- One page of a valset, from `startIndex` on. -/
def getValset (valset : List ValId) (startIndex limit : Nat) : Bool × Nat × List ValId :=
  let len := valset.length
  let last := min len (startIndex + limit)
  (last = len, max startIndex last % 2 ^ 32, (valset.take last).drop startIndex)

def precompileGetValset (valset : World → List ValId) (input : Bytes) (value : Nat) :
    M (Bool × Nat × List ValId) := do
  functionNotPayable value
  let startIndex ← lift (allConsumed (abiDecodeFixed 4 input))
  let set ← load valset
  require (set.length < 2 ^ 32) (.staking .internalError)
  return getValset set startIndex Limits.arrayPagination

def precompileGetConsensusValset := precompileGetValset World.valsetConsensus

def precompileGetSnapshotValset := precompileGetValset World.valsetSnapshot

def precompileGetExecutionValset := precompileGetValset World.valsetExecution

def precompileGetDelegations (input : Bytes) (value : Nat) : M (Bool × ValId × List ValId) := do
  functionNotPayable value
  let (a, start) ← lift (decodeAddressValId input)
  load fun w => linkedListTraverse validatorList w a start (Limits.linkedListPagination rev)

def precompileGetDelegators (input : Bytes) (value : Nat) : M (Bool × Address × List Address) := do
  functionNotPayable value
  let (v, start) ← lift (decodeValIdAddress input)
  load fun w => linkedListTraverse delegatorList w v start (Limits.linkedListPagination rev)

def precompileGetEpoch (value : Nat) : M (Nat × Bool) := do
  functionNotPayable value
  load fun w => (w.epoch, w.inEpochDelayPeriod)

def precompileGetProposerValId (value : Nat) : M ValId := do
  functionNotPayable value
  load (·.proposerValId)

def precompileFallback : M Unit := throw (.staking .methodNotSupported)

end MonadExecution.Staking
