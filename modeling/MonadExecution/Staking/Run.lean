import MonadExecution.Staking.Syscall

/-!
# The staking contract — calls and runs

A call reaches the contract as raw bytes: from a transaction through `precompile_dispatch`, or from
consensus through `execute_staking_syscall`. `exec` is one such call as a transaction on `World`. A
run is any sequence of calls from empty storage; it `Conforms` to the protocol if consensus makes its
system calls in the intended order, with every other call allowed at every moment.
-/

namespace MonadExecution.Staking

open Program

/-! ## Dispatch -/

inductive Method
  | addValidator | delegate | undelegate | compound | withdraw | claimRewards | changeCommission
  | externalReward | getEpoch | getProposerValId | getValidator | getDelegator
  | getWithdrawalRequest | getConsensusValset | getSnapshotValset | getExecutionValset
  | getDelegations | getDelegators | fallback
  deriving DecidableEq, Repr

/-- Selector, method and gas cost of every case of the dispatch. -/
def precompileSelectors : List (Nat × Method × Nat) :=
  [(0xf145204c, .addValidator, 505125), (0x84994fec, .delegate, 260850), (0x5cf41514, .undelegate, 147750),
   (0xb34fea67, .compound, 289325),
   (0xaed2ee73, .withdraw, 68675),
   (0xa76e2ca5, .claimRewards, 155375),
   (0x9bdcc3c8, .changeCommission, 39475),
   (0xe4b3303b, .externalReward, 66575),
   (0x757991a8, .getEpoch, 200),
   (0xfbacb0be, .getProposerValId, 100),
   (0x2b6d639a, .getValidator, 97200),
   (0x573c1ce0, .getDelegator, 184900),
   (0x56fa2045, .getWithdrawalRequest, 24300),
   (0xfb29b729, .getConsensusValset, 814000),
   (0xde66a368, .getSnapshotValset, 814000),
   (0x7cb074df, .getExecutionValset, 814000),
   (0x4fd66050, .getDelegations, 814000),
   (0xa0843a26, .getDelegators, 814000)]

/-- The method of a selector, with its gas cost. `getProposerValId` exists since revision five. -/
def precompileOfSelector (rev : MonadRevision) (signature : Nat) : Method × Nat :=
  match precompileSelectors.find? (fun entry => entry.1 == signature) with
  | some (_, .getProposerValId, cost) =>
    if MonadRevision.five.toNat ≤ rev.toNat then (.getProposerValId, cost) else (.fallback, 40000)
  | some (_, method, cost) => (method, cost)
  | none => (.fallback, 40000)

/-- Method, gas cost and remaining input of some call data. -/
def precompileDispatch (rev : MonadRevision) (input : Bytes) : (Method × Nat) × Bytes :=
  if input.length < 4 then ((.fallback, 40000), input)
  else (precompileOfSelector rev (loadBe (input.take 4)), input.drop 4)

/-- What a method hands to the ABI encoder. -/
inductive Output
  | success
  | valId (v : ValId)
  | validator (val : ValExecution) (consensus snapshot : ConsensusView)
  | delegator (d : Delegator)
  | withdrawalRequest (r : WithdrawalRequest)
  | valset (done : Bool) (nextIndex : Nat) (ids : List ValId)
  | delegations (done : Bool) (next : ValId) (ids : List ValId)
  | delegators (done : Bool) (next : Address) (addresses : List Address)
  | epoch (epoch : Nat) (inEpochDelayPeriod : Bool)
  deriving DecidableEq, Repr

section Exec

variable (rev : MonadRevision) (crypto : Crypto)

def runMethod (method : Method) (input : Bytes) (sender : Address) (value : Nat) : M Output :=
  match method with
  | .addValidator => .valId <$> precompileAddValidator rev crypto input value
  | .delegate => (fun _ => .success) <$> precompileDelegate rev input sender value
  | .undelegate => (fun _ => .success) <$> precompileUndelegate rev input sender value
  | .compound => (fun _ => .success) <$> precompileCompound rev input sender value
  | .withdraw => (fun _ => .success) <$> precompileWithdraw input sender value
  | .claimRewards => (fun _ => .success) <$> precompileClaimRewards input sender value
  | .changeCommission => (fun _ => .success) <$> precompileChangeCommission input sender value
  | .externalReward => (fun _ => .success) <$> precompileExternalReward input sender value
  | .getEpoch => (fun r => .epoch r.1 r.2) <$> precompileGetEpoch value
  | .getProposerValId => .valId <$> precompileGetProposerValId value
  | .getValidator => (fun r => .validator r.1 r.2.1 r.2.2) <$> precompileGetValidator input value
  | .getDelegator => .delegator <$> precompileGetDelegator input value
  | .getWithdrawalRequest => .withdrawalRequest <$> precompileGetWithdrawalRequest input value
  | .getConsensusValset => (fun r => .valset r.1 r.2.1 r.2.2) <$> precompileGetConsensusValset input value
  | .getSnapshotValset => (fun r => .valset r.1 r.2.1 r.2.2) <$> precompileGetSnapshotValset input value
  | .getExecutionValset => (fun r => .valset r.1 r.2.1 r.2.2) <$> precompileGetExecutionValset input value
  | .getDelegations => (fun r => .delegations r.1 r.2.1 r.2.2) <$> precompileGetDelegations rev input value
  | .getDelegators => (fun r => .delegators r.1 r.2.1 r.2.2) <$> precompileGetDelegators rev input value
  | .fallback => (fun _ => .success) <$> precompileFallback

inductive Syscall
  | reward | snapshot | onEpochChange
  deriving DecidableEq, Repr

def syscallSelectors : List (Nat × Syscall) :=
  [(0x791bdcf3, .reward), (0x157eeb21, .snapshot), (0x1d4e9f02, .onEpochChange)]

/-- The system call of a selector, and the remaining input. -/
def syscallDispatch (calldata : Bytes) : Option Syscall × Bytes :=
  ((syscallSelectors.find? (fun entry => entry.1 == loadBe (calldata.take 4))).map (·.2), calldata.drop 4)

def executeStakingSyscall (calldata : Bytes) (value : Nat) : M Unit :=
  if calldata.length < 4 then throw (.staking .invalidInput)
  else match syscallDispatch calldata with
    | (some .reward, input) => syscallReward rev input value
    | (some .snapshot, input) => syscallSnapshot input value
    | (some .onEpochChange, input) => syscallOnEpochChange input value
    | (none, _) => throw (.staking .methodNotSupported)

/-! ## One call -/

/-- A call of the contract by a transaction, or a system transaction. -/
inductive Call
  | precompile (input : Bytes) (sender : Address) (value gas : Nat)
  | system (calldata : Bytes) (value : Nat)
  deriving DecidableEq, Repr

/-- The value of a call is moved to the contract before its method runs; a system transaction
moves nothing. -/
def Call.run : Call → M Output
  | .precompile input sender value gas => do
    addToBalance stakingCa value
    let dispatch := precompileDispatch rev input
    require (dispatch.1.2 ≤ gas) .outOfGas
    runMethod rev crypto dispatch.1.1 dispatch.2 sender value
  | .system calldata value => (fun _ => .success) <$> executeStakingSyscall rev calldata value

/-- A failing call is rolled back, but what it wrote to the process log stays written. -/
def exec (c : Call) (w : World) : Except Error Output × World :=
  orRevert (fun w w' => { w with diagnostics := w'.diagnostics }) (c.run rev crypto) w

/-! ## Runs

A run is the list of its calls, the latest first. -/

/-- The state after some calls on empty storage. -/
def after : List Call → World
  | [] => World.empty
  | c :: calls => (exec rev crypto c (after calls)).2

/-- Where consensus is: before the first epoch, in an epoch before its snapshot, or in the delay
period behind it. -/
inductive Phase
  | genesis | beforeSnapshot | delay
  deriving DecidableEq, Repr

/-- The phase after `c`, if consensus may make it now. It enters some first epoch, and from then
on takes one snapshot in every epoch and then enters the next one. -/
def nextPhase (phase : Phase) (w : World) : Call → Option Phase
  | .precompile _ _ _ _ => some phase
  | .system calldata value =>
    if calldata.length < 4 then none
    else match syscallDispatch calldata, phase with
      | (some .reward, _), _ => some phase
      | (some .snapshot, input), .beforeSnapshot => if input = [] ∧ value = 0 then some .delay else none
      | (some .onEpochChange, input), .genesis =>
        match decodeEpoch input with
        | .ok nextEpoch => if nextEpoch ≠ 0 ∧ value = 0 then some .beforeSnapshot else none
        | .error _ => none
      | (some .onEpochChange, input), .delay =>
        match decodeEpoch input with
        | .ok nextEpoch => if nextEpoch = w.epoch + 1 ∧ value = 0 then some .beforeSnapshot else none
        | .error _ => none
      | _, _ => none

/-- The phase in which a run ends, if it keeps to the protocol. -/
def phaseAfter : List Call → Option Phase
  | [] => some .genesis
  | c :: calls => (phaseAfter calls).bind fun phase => nextPhase phase (after rev crypto calls) c

/-- A run that keeps to the protocol. -/
def Conforms (calls : List Call) : Prop := (phaseAfter rev crypto calls).isSome

instance (calls : List Call) : Decidable (Conforms rev crypto calls) :=
  inferInstanceAs (Decidable ((phaseAfter rev crypto calls).isSome = true))

end Exec

end MonadExecution.Staking
