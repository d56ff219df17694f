import Mathlib

/-!
# The staking contract — constants, records and storage

The staking precompile keeps all of its data in the storage of one account, `STAKING_CA`, through
the typed handles of `StakingContract::Variables`. Here every handle is one field of `World`: a
single-slot variable is a value, a mapping is a function of its key with the all-zero record as
default, and a `StorageArray` is the list of its elements. Two things that are not storage travel
in the same record because the same calls change them: the account balances and the emitted logs.

Machine integers are naturals; a `uint256` sum that the source leaves unchecked is reduced modulo
`2 ^ 256`, an epoch sum modulo `2 ^ 64`. Validator ids, addresses and withdrawal ids are bit
vectors of their own width, so that a sum over all of them is a finite sum.
-/

namespace MonadExecution.Staking

abbrev Address := BitVec 160

abbrev ValId := BitVec 64

abbrev WithdrawalId := BitVec 8

abbrev Bytes := List UInt8

/-! ## Constants -/

/-- The address of the staking contract. -/
def stakingCa : Address := 0x1000#160

/-- The sender of all system transactions. -/
def systemSender : Address := 0x6f49a8F621353f12378d0046E7d7e4b9B249DC9e#160

/-! The large constants are irreducible, so that a proof that unfolds a definition does not start to
count with them; `decide` by the kernel still evaluates them. -/

/-- One token, `1e18`. -/
@[irreducible] def mon : Nat := 1000000000000000000

/-- Accumulator precision, `1e36`. -/
@[irreducible] def unitBias : Nat := 1000000000000000000000000000000000000

@[irreducible] def uint256Size : Nat := 2 ^ 256

@[irreducible] def uint64Size : Nat := 2 ^ 64

theorem unitBias_pos : 0 < unitBias := by
  unfold unitBias
  norm_num

theorem mon_pos : 0 < mon := by
  unfold mon
  norm_num

/-- The revisions of the Monad protocol, oldest first. -/
inductive MonadRevision
  | zero | one | two | three | four | five | six | seven | eight | nine | next
  deriving DecidableEq, Repr

/-- The number the source's enumeration gives to a revision. -/
def MonadRevision.toNat : MonadRevision → Nat
  | .zero => 0 | .one => 1 | .two => 2 | .three => 3 | .four => 4 | .five => 5
  | .six => 6 | .seven => 7 | .eight => 8 | .nine => 9 | .next => 10

/-! The numbers of the source's `limits` namespace, which later releases may change. -/

namespace Limits

def dustThreshold : Nat := 1000000000

def maxCommission : Nat := mon

/-- Stake a validator pool needs to be a candidate. -/
def activeValidatorStake (rev : MonadRevision) : Nat :=
  if MonadRevision.five.toNat ≤ rev.toNat then 10000000 * mon else 25000000 * mon

def minAuthAddressStake : Nat := 100000 * mon

def minExternalReward : Nat := dustThreshold

def maxExternalReward : Nat := 10000000000000000000000000

def activeValsetSize : Nat := 200

def arrayPagination : Nat := 100

/-- Page size of the list getters: a list node takes two slots since revision eight. -/
def linkedListPagination (rev : MonadRevision) : Nat := if rev.toNat < MonadRevision.eight.toNat then 100 else 50

def withdrawalDelay : Nat := 1

end Limits

/-! ## Validator flags -/

def validatorFlagsOk : BitVec 64 := 0

def validatorFlagsStakeTooLow : BitVec 64 := 1

def validatorFlagWithdrawn : BitVec 64 := 2

/-! ## Errors -/

inductive StakingError
  | internalError | methodNotSupported | invalidInput | validatorExists | unknownValidator
  | unknownDelegator | withdrawalIdExists | unknownWithdrawalId | withdrawalNotReady
  | insufficientStake | invalidSecpPubkey | invalidBlsPubkey | invalidSecpSignature
  | invalidBlsSignature | secpSignatureVerificationFailed | blsSignatureVerificationFailed
  | notInValidatorSet | solvencyError | snapshotInBoundary | invalidEpochChange
  | requiresAuthAddress | commissionTooHigh | valueNonZero | delegationTooSmall
  | externalRewardTooSmall | externalRewardTooLarge
  deriving DecidableEq, Repr

inductive MathError
  | overflow | underflow | divisionByZero
  deriving DecidableEq, Repr

inductive AbiDecodeError
  | inputTooShort | lengthMismatch
  deriving DecidableEq, Repr

/-- The exceptions raised by `MONAD_ASSERT_THROW` below a staking call. -/
inductive MonadException
  | stakingCompoundLogicError | withdrawalInsolvent | balanceOverflow | balanceUnderflow
  | invalidListEntry
  deriving DecidableEq, Repr

/-- The text the exception carries. -/
def MonadException.message : MonadException → String
  | .stakingCompoundLogicError => "staking compound logic error"
  | .withdrawalInsolvent => "withdrawal insolvent"
  | .balanceOverflow => "balance overflow"
  | .balanceUnderflow => "balance underflow"
  | .invalidListEntry => "invalid list entry"

/-- Everything that makes a call fail: one of the three error enumerations, an exception, or too
little gas for the method. -/
inductive Error
  | staking (e : StakingError)
  | math (e : MathError)
  | abi (e : AbiDecodeError)
  | exception (e : MonadException)
  | outOfGas
  deriving DecidableEq, Repr

/-! ## Records -/

/-- A delegator's accounting data with one validator. -/
structure Delegator where
  /-- currently active stake in the consensus -/
  stake : Nat := 0
  /-- last read value of the validator's accumulator -/
  accumulatedRewardPerToken : Nat := 0
  rewards : Nat := 0
  /-- stake that will be active next epoch -/
  deltaStake : Nat := 0
  /-- stake that will be active in the epoch after next -/
  nextDeltaStake : Nat := 0
  deltaEpoch : Nat := 0
  nextDeltaEpoch : Nat := 0
  deriving DecidableEq, Repr

/-- The total stake that will come online, `get_next_epoch_stake`; an unchecked `uint256` sum. -/
def Delegator.getNextEpochStake (d : Delegator) : Nat := (d.stake + d.deltaStake + d.nextDeltaStake) % uint256Size

/-- The links of one delegator record, in the list of its delegator (`i`) and in the list of its
validator (`a`). They are slots of the delegator record in the source. -/
structure ListNode where
  inext : ValId := 0
  iprev : ValId := 0
  anext : Address := 0
  aprev : Address := 0
  deriving DecidableEq, Repr

structure KeysPacked where
  secpPubkey : Bytes := []
  blsPubkey : Bytes := []
  deriving DecidableEq, Repr

/-- Execution's view of a validator. -/
structure ValExecution where
  /-- total stake in the validator pool -/
  stake : Nat := 0
  accumulatedRewardPerToken : Nat := 0
  commission : Nat := 0
  keys : KeysPacked := {}
  authAddress : Address := 0
  flags : BitVec 64 := 0
  unclaimedRewards : Nat := 0
  deriving DecidableEq, Repr

def ValExecution.exist (val : ValExecution) : Bool := val.authAddress != 0

/-- The stake and commission of a validator at a snapshot. -/
structure ConsensusView where
  stake : Nat := 0
  commission : Nat := 0
  deriving DecidableEq, Repr

structure WithdrawalRequest where
  amount : Nat := 0
  acc : Nat := 0
  epoch : Nat := 0
  deriving DecidableEq, Repr

structure RefCountedAccumulator where
  value : Nat := 0
  refcount : Nat := 0
  deriving DecidableEq, Repr

/-! `load_checked` tells an all-zero record from a stored one. -/

def WithdrawalRequest.hasValue (r : WithdrawalRequest) : Bool := r.amount != 0 || r.acc != 0 || r.epoch != 0

def RefCountedAccumulator.hasValue (c : RefCountedAccumulator) : Bool := c.value != 0 || c.refcount != 0

/-! ## Logs -/

/-- The events of the contract, with their indexed and plain arguments. -/
inductive Event
  | validatorRewarded (valId : ValId) (source : Address) (amount : Nat) (epoch : Nat)
  | validatorCreated (valId : ValId) (authDelegator : Address) (commission : Nat)
  | validatorStatusChanged (valId : ValId) (flags : BitVec 64)
  | delegate (valId : ValId) (delegator : Address) (amount : Nat) (activeEpoch : Nat)
  | undelegate (valId : ValId) (delegator : Address) (withdrawalId : WithdrawalId) (amount : Nat)
      (activationEpoch : Nat)
  | withdraw (valId : ValId) (delegator : Address) (withdrawalId : WithdrawalId) (amount : Nat) (withdrawEpoch : Nat)
  | claimRewards (valId : ValId) (delegator : Address) (amount : Nat) (epoch : Nat)
  | commissionChanged (valId : ValId) (oldCommission newCommission : Nat)
  | epochChanged (oldEpoch newEpoch : Nat)
  deriving DecidableEq, Repr

/-- The lines the contract writes with `LOG_INFO` and `LOG_ERROR`. -/
inductive Diagnostic
  | refcountIsZero (epoch : Nat) (valId : ValId)
  | invalidEpochChange (lastEpoch nextEpoch : Nat)
  | snapshotTwice (epoch : Nat)
  deriving DecidableEq, Repr

/-! ## The state of a call -/

/-- Contract storage, balances and logs. `diagnostics` is the process log, which survives a
reverted call. `settlements` and `payouts` are history variables that no function reads: for one
delegator of one validator they count the evaluations of `calculate_rewards`, and add up the
rewards that were paid out or compounded. -/
structure World where
  epoch : Nat := 0
  inEpochDelayPeriod : Bool := false
  lastValId : ValId := 0
  proposerValId : ValId := 0
  valsetExecution : List ValId := []
  valsetConsensus : List ValId := []
  valsetSnapshot : List ValId := []
  valId : Address → ValId := fun _ => 0
  valIdBls : Address → ValId := fun _ => 0
  valBitsetBucket : BitVec 64 → BitVec 256 := fun _ => 0
  valExecution : ValId → ValExecution := fun _ => {}
  consensusView : ValId → ConsensusView := fun _ => {}
  snapshotView : ValId → ConsensusView := fun _ => {}
  delegator : ValId → Address → Delegator := fun _ _ => {}
  listNode : ValId → Address → ListNode := fun _ _ => {}
  withdrawalRequest : ValId → Address → WithdrawalId → WithdrawalRequest := fun _ _ _ => {}
  accumulatedRewardPerToken : Nat → ValId → RefCountedAccumulator := fun _ _ => {}
  balance : Address → Nat := fun _ => 0
  logs : List Event := []
  diagnostics : List Diagnostic := []
  settlements : ValId → Address → Nat := fun _ _ => 0
  payouts : ValId → Address → Nat := fun _ _ => 0

/-- Empty storage and zero balances. -/
def World.empty : World := {}

/-- The valset rewards and reads of this epoch go to. -/
def World.thisEpochValset (w : World) : List ValId :=
  if w.inEpochDelayPeriod then w.valsetSnapshot else w.valsetConsensus

/-- The view rewards of this epoch are computed from. -/
def World.thisEpochView (w : World) (v : ValId) : ConsensusView :=
  if w.inEpochDelayPeriod then w.snapshotView v else w.consensusView v

end MonadExecution.Staking
