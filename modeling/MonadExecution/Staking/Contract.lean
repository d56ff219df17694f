import MonadExecution.Lib.Program
import MonadExecution.Staking.Abi

/-!
# The staking contract — helpers

Every function of the contract is a `Program` over `World`: `Error` stands for both a returned
error code and a thrown exception, since either makes the caller revert the call. The order of
reads, writes and checks is the one of the source, and a function that the source writes in one
piece but that has separate concerns is cut into named pieces at the places its comments mark.

The signature schemes are outside the repository. They enter as the oracle `Crypto`.
-/

namespace MonadExecution.Staking

open Program Function

abbrev M := EStateM Error World

/-- The two signature schemes, on compressed keys and signatures. -/
structure Crypto where
  secpPubkeyIsValid : Bytes → Bool
  secpSignatureIsValid : Bytes → Bool
  /-- key, signature, message -/
  secpVerify : Bytes → Bytes → Bytes → Bool
  blsPubkeyIsValid : Bytes → Bool
  blsSignatureIsValid : Bytes → Bool
  /-- key, signature, message -/
  blsVerify : Bytes → Bytes → Bytes → Bool
  addressFromSecpkey : Bytes → Address
  addressFromBlsKey : Bytes → Address

/-! ## Checked arithmetic -/

def checkedAdd (x y : Nat) : Except Error Nat := if x + y < uint256Size then .ok (x + y) else .error (.math .overflow)

def checkedSub (x y : Nat) : Except Error Nat := if y ≤ x then .ok (x - y) else .error (.math .underflow)

def checkedMul (x y : Nat) : Except Error Nat := if x * y < uint256Size then .ok (x * y) else .error (.math .overflow)

def checkedDiv (x y : Nat) : Except Error Nat := if y = 0 then .error (.math .divisionByZero) else .ok (x / y)

def checkedMulDiv (x y z : Nat) : Except Error Nat := do
  let p ← checkedMul x y
  checkedDiv p z

def calculateRewards (stake currentAcc lastCheckedAcc : Nat) : Except Error Nat := do
  let delta ← checkedSub currentAcc lastCheckedAcc
  checkedMulDiv delta stake unitBias

/-! ## Access to storage and balances -/

namespace World

@[simps -fullyApplied]
def modifyDelegator (v : ValId) (a : Address) (f : Delegator → Delegator) (w : World) : World :=
  { w with
    delegator := update w.delegator v (update (w.delegator v) a (f (w.delegator v a))) }

@[simps -fullyApplied]
def modifyVal (v : ValId) (f : ValExecution → ValExecution) (w : World) : World :=
  { w with valExecution := update w.valExecution v (f (w.valExecution v)) }

@[simps -fullyApplied]
def setAccumulator (e : Nat) (v : ValId) (c : RefCountedAccumulator) (w : World) : World :=
  { w with
    accumulatedRewardPerToken := update w.accumulatedRewardPerToken e (update (w.accumulatedRewardPerToken e) v c) }

@[simps -fullyApplied]
def setWithdrawalRequest (v : ValId) (a : Address) (i : WithdrawalId) (r : WithdrawalRequest) (w : World) : World :=
  { w with
    withdrawalRequest := update w.withdrawalRequest v (update (w.withdrawalRequest v) a
        (update (w.withdrawalRequest v a) i r)) }

@[simps -fullyApplied]
def setListNode (v : ValId) (a : Address) (n : ListNode) (w : World) : World :=
  { w with listNode := update w.listNode v (update (w.listNode v) a n) }

@[simps -fullyApplied]
def setBalance (a : Address) (x : Nat) (w : World) : World := { w with balance := update w.balance a x }

@[simps -fullyApplied]
def emitLog (e : Event) (w : World) : World := { w with logs := w.logs ++ [e] }

@[simps -fullyApplied]
def diagnose (d : Diagnostic) (w : World) : World := { w with diagnostics := w.diagnostics ++ [d] }

/-- History: one more evaluation of `calculate_rewards`. -/
@[simps -fullyApplied]
def noteSettlement (v : ValId) (a : Address) (w : World) : World :=
  { w with
    settlements := update w.settlements v (update (w.settlements v) a (w.settlements v a + 1)) }

/-- History: `rewards` of the delegator were paid out or compounded. -/
@[simps -fullyApplied]
def notePayout (v : ValId) (a : Address) (rewards : Nat) (w : World) : World :=
  { w with
    payouts := update w.payouts v (update (w.payouts v) a (w.payouts v a + rewards)) }

end World

def addToBalance (a : Address) (delta : Nat) : M Unit := do
  let balance ← load (·.balance a)
  require (balance + delta < uint256Size) (.exception .balanceOverflow)
  update (World.setBalance a (balance + delta))

def subtractFromBalance (a : Address) (delta : Nat) : M Unit := do
  let balance ← load (·.balance a)
  require (delta ≤ balance) (.exception .balanceUnderflow)
  update (World.setBalance a (balance - delta))

/-! ## Helpers -/

/-- Mint tokens in the staking contract. Done in reward. -/
def mintTokens (amount : Nat) : M Unit := addToBalance stakingCa amount

/-- Send tokens from the staking contract to a delegator. Done in claim and withdraw. -/
def sendTokens (recipient : Address) (amount : Nat) : M Unit := do
  addToBalance recipient amount
  subtractFromBalance stakingCa amount

/-- The epoch in which a delegation or undelegation made now takes effect. -/
def World.getActivationEpoch (w : World) : Nat :=
  if w.inEpochDelayPeriod then (w.epoch + 2) % uint64Size else (w.epoch + 1) % uint64Size

def World.isEpochActive (w : World) (activeEpoch : Nat) : Bool := activeEpoch != 0 && activeEpoch ≤ w.epoch

def World.incrementAccumulatorRefcount (v : ValId) (w : World) : World :=
  w.setAccumulator w.getActivationEpoch v
    { value := (w.valExecution v).accumulatedRewardPerToken
      refcount := ((w.accumulatedRewardPerToken w.getActivationEpoch v).refcount + 1) % uint256Size }

def incrementAccumulatorRefcount (v : ValId) : M Unit := update (World.incrementAccumulatorRefcount v)

/-- Release one reference to an epoch's accumulator and return its value. -/
def decrementAccumulatorRefcount (epoch : Nat) (v : ValId) : M Nat := do
  let acc ← load (·.accumulatedRewardPerToken epoch v)
  if acc.refcount = 0 then do
    update (World.diagnose (.refcountIsZero epoch v))
    return 0
  else do
    let newRefcount := acc.refcount - 1
    update (World.setAccumulator epoch v (if newRefcount = 0 then {} else { acc with refcount := newRefcount }))
    return acc.value

/-! The set of candidates is kept twice, as an array and as a bitset with 256 ids a bucket. -/

def valBucket (v : ValId) : BitVec 64 := v >>> 8

def valMask (v : ValId) : BitVec 256 := 1#256 <<< (v &&& 0xFF#64).toNat

/-- Set the existence bit of `v`; tells whether it was clear before. -/
def addToValset (v : ValId) : M Bool := do
  let set ← load (·.valBitsetBucket (valBucket v))
  let inserted := (set &&& valMask v) == 0
  update fun w =>
    { w with
    valBitsetBucket := update w.valBitsetBucket (valBucket v) (set ||| valMask v) }
  return inserted

/-- Clear the existence bit of `v`. -/
def World.removeFromValset (v : ValId) (w : World) : World :=
  { w with
    valBitsetBucket := update w.valBitsetBucket (valBucket v) (w.valBitsetBucket (valBucket v) &&& ~~~ valMask v) }

def canPromoteDelta (del : Delegator) (epoch : Nat) : Bool :=
  del.deltaEpoch == 0 && del.nextDeltaEpoch ≤ (epoch + 1) % uint64Size

/-- Shift the second staged bucket into the first one. -/
def promoteDelta (del : Delegator) : Delegator :=
  { del with
    deltaStake := del.nextDeltaStake
    nextDeltaStake := 0
    deltaEpoch := del.nextDeltaEpoch
    nextDeltaEpoch := 0 }

/-- Fold the first staged bucket into the active stake; the result is what the active stake
earned until the bucket became active. -/
def applyCompound (v : ValId) (a : Address) : M Nat := do
  let deltaEpoch ← load (fun w => (w.delegator v a).deltaEpoch)
  let epochAcc ← decrementAccumulatorRefcount deltaEpoch v
  let del ← load (·.delegator v a)
  let rewards ← lift (calculateRewards del.stake epochAcc del.accumulatedRewardPerToken)
  update (World.noteSettlement v a)
  update (World.modifyDelegator v a fun d => { d with accumulatedRewardPerToken := epochAcc })
  let compoundedStake ← lift (checkedAdd del.stake del.deltaStake)
  update (World.modifyDelegator v a fun d => { d with stake := compoundedStake })
  update (World.modifyDelegator v a promoteDelta)
  return rewards

/-- Take `rewards` out of the pool's unclaimed rewards, or fail if there are not that many. -/
def rewardInvariant (v : ValId) (rewards : Nat) : M Unit := do
  let unclaimed ← load (fun w => (w.valExecution v).unclaimedRewards)
  require (rewards ≤ unclaimed) (.staking .solvencyError)
  let unclaimedRewards ← lift (checkedSub unclaimed rewards)
  update (World.modifyVal v fun val => { val with unclaimedRewards := unclaimedRewards })

/-- Move `rewards` from the pool to the delegator, the steps that follow every
`calculate_rewards` of a delegator. -/
def creditRewards (v : ValId) (a : Address) (rewards : Nat) : M Unit := do
  rewardInvariant v rewards
  let old ← load (fun w => (w.delegator v a).rewards)
  let newRewards ← lift (checkedAdd old rewards)
  update (World.modifyDelegator v a fun d => { d with rewards := newRewards })

/-- One `apply_compound` together with the crediting of its rewards. -/
def compoundAndCredit (v : ValId) (a : Address) : M Unit := do
  let rewards ← applyCompound v a
  creditRewards v a rewards

/-- The last part of `pull_delegator_up_to_date`: pay the active stake up to the validator's
current accumulator. -/
def settleActiveStake (v : ValId) (a : Address) : M Unit := do
  let del ← load (·.delegator v a)
  let val ← load (·.valExecution v)
  if del.stake = 0 then return ()
  else do
    let rewards ← lift (calculateRewards del.stake val.accumulatedRewardPerToken del.accumulatedRewardPerToken)
    update (World.noteSettlement v a)
    creditRewards v a rewards
    update (World.modifyDelegator v a fun d => { d with accumulatedRewardPerToken := val.accumulatedRewardPerToken })

/-- The middle part of `pull_delegator_up_to_date`: fold in the buckets that have become active. -/
def foldActiveBuckets (v : ValId) (a : Address) : M Unit := do
  let canCompound ← load (fun w => w.isEpochActive (w.delegator v a).deltaEpoch)
  let canCompoundBoundary ← load (fun w => w.isEpochActive (w.delegator v a).nextDeltaEpoch)
  onlyIf canCompoundBoundary do
    -- only set when user compounds before and after block boundary
    require canCompound (.exception .stakingCompoundLogicError)
    compoundAndCredit v a
  onlyIf canCompound (compoundAndCredit v a)

def pullDelegatorUpToDate (v : ValId) (a : Address) : M Unit := do
  -- move up next_delta_epoch
  let promote ← load (fun w => canPromoteDelta (w.delegator v a) w.epoch)
  onlyIf promote (update (World.modifyDelegator v a promoteDelta))
  foldActiveBuckets v a
  settleActiveStake v a

/-- Add a reward to the pool of `v`: raise its accumulator by the reward per staked token. -/
def applyReward (v : ValId) (source : Address) (newRewards activeStake : Nat) : M Unit := do
  -- 1. compute current acc value
  let rewardAcc ← lift (checkedMulDiv newRewards unitBias activeStake)
  -- 2. add to accumulator
  let val ← load (·.valExecution v)
  let acc ← lift (checkedAdd val.accumulatedRewardPerToken rewardAcc)
  update (World.modifyVal v fun val => { val with accumulatedRewardPerToken := acc })
  -- 3. compute new unclaimed rewards
  let unclaimedRewards ← lift (checkedAdd val.unclaimedRewards newRewards)
  -- 4. include in unclaimed rewards
  update (World.modifyVal v fun val => { val with unclaimedRewards := unclaimedRewards })
  let epoch ← load (·.epoch)
  update (World.emitLog (.validatorRewarded v source newRewards epoch))

/-! ## Delegation lists

One list node carries the links of two doubly linked lists: the validators of its delegator and
the delegators of its validator. A trait tells which links are meant and where the node of a list
with a given key is stored. -/

structure LinkedListTrait (Key Ptr : Type) where
  sentinel : Ptr
  empty : Ptr
  prev : ListNode → Ptr
  next : ListNode → Ptr
  setPrev : Ptr → ListNode → ListNode
  setNext : Ptr → ListNode → ListNode
  slot : Key → Ptr → ValId × Address

/-- All validators of a delegator. -/
def validatorList : LinkedListTrait Address ValId where
  sentinel := BitVec.allOnes 64
  empty := 0
  prev n := n.iprev
  next n := n.inext
  setPrev p n := { n with iprev := p }
  setNext p n := { n with inext := p }
  slot k p := (p, k)

/-- All delegators of a validator. -/
def delegatorList : LinkedListTrait ValId Address where
  sentinel := BitVec.allOnes 160
  empty := 0
  prev n := n.aprev
  next n := n.anext
  setPrev p n := { n with aprev := p }
  setNext p n := { n with anext := p }
  slot k p := (k, p)

section LinkedList

variable {Key Ptr : Type} [DecidableEq Ptr] (T : LinkedListTrait Key Ptr)

def LinkedListTrait.loadNode (k : Key) (p : Ptr) (w : World) : ListNode := w.listNode (T.slot k p).1 (T.slot k p).2

def LinkedListTrait.storeNode (k : Key) (p : Ptr) (n : ListNode) (w : World) : World :=
  w.setListNode (T.slot k p).1 (T.slot k p).2 n

def linkedListInsert (key : Key) (thisPtr : Ptr) : M Unit := do
  require (thisPtr ≠ T.empty ∧ thisPtr ≠ T.sentinel) (.staking .invalidInput)
  let thisNode ← load (T.loadNode key thisPtr)
  -- all nodes but the sentinel have a prev pointer
  if T.prev thisNode ≠ T.empty then return ()
  else do
    let sentinelNode ← load (T.loadNode key T.sentinel)
    let nextPtr := T.next sentinelNode
    onlyIf (nextPtr ≠ T.empty) do
      let next ← load (T.loadNode key nextPtr)
      update (T.storeNode key nextPtr (T.setPrev thisPtr next))
    update (T.storeNode key thisPtr (T.setNext nextPtr (T.setPrev T.sentinel thisNode)))
    update (T.storeNode key T.sentinel (T.setNext thisPtr sentinelNode))

def linkedListRemove (key : Key) (thisPtr : Ptr) : M Unit := do
  require (thisPtr ≠ T.empty ∧ thisPtr ≠ T.sentinel) (.exception .invalidListEntry)
  let thisNode ← load (T.loadNode key thisPtr)
  if T.prev thisNode = T.empty then return ()
  else do
    let prevPtr := T.prev thisNode
    let nextPtr := T.next thisNode
    let prevNode ← load (T.loadNode key prevPtr)
    update (T.storeNode key prevPtr (T.setNext nextPtr prevNode))
    onlyIf (nextPtr ≠ T.empty) do
      let nextNode ← load (T.loadNode key nextPtr)
      update (T.storeNode key nextPtr (T.setPrev prevPtr nextNode))
    -- remove from list
    update (T.storeNode key thisPtr (T.setNext T.empty (T.setPrev T.empty thisNode)))

/-- Follow the next pointers from `ptr`, at most `limit` nodes. -/
def linkedListWalk (w : World) (key : Key) (ptr : Ptr) : Nat → Ptr × List Ptr
  | 0 => (ptr, [])
  | limit + 1 =>
    if ptr = T.empty then (ptr, [])
    else
      let rest := linkedListWalk w key (T.next (T.loadNode key ptr w)) limit
      (rest.1, ptr :: rest.2)

/-- One page of a list: whether it is the last one, where the next one starts, and its entries. -/
def linkedListTraverse (w : World) (key : Key) (startPtr : Ptr) (limit : Nat) : Bool × Ptr × List Ptr :=
  let ptr := if startPtr = T.empty then T.next (T.loadNode key T.sentinel w) else startPtr
  -- bogus pointer, not in list
  if T.prev (T.loadNode key ptr w) = T.empty then (true, ptr, [])
  else
    let walk := linkedListWalk T w key ptr limit
    (walk.1 = T.empty, walk.1, walk.2)

end LinkedList

end MonadExecution.Staking
