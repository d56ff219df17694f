import MonadExecution.Lib.Tables
import Mathlib.Data.Finset.Insert
import Mathlib.Data.BitVec

/-!
# Accounts and what a transaction knows about them

`Account` is the record the database stores. `AccountState` adds what a running transaction keeps for
an address: the substate of the Yellow Paper (destructed, touched and accessed), the slots it has read
or written, and its transient storage. `OriginalAccountState` is the account as first read, with the
two constraints on its balance that are checked when the transaction is merged.

Every method of `State` that changes an account takes a reference with `current_account_state` and
changes the record behind it. These changes are the constructors of `Edit`, and what a method reads
from the most recent record without changing it is an `Observation`.
-/

namespace MonadExecution.Ethereum

abbrev Address := BitVec 160

abbrev Bytes32 := BitVec 256

abbrev Bytes := List UInt8

/-- The life of an account: the block and the transaction that created it. -/
structure Incarnation where
  block : BitVec 40
  tx : BitVec 24
  deriving DecidableEq, Repr

/-- The transaction number no transaction has. -/
def Incarnation.lastTx : BitVec 24 := 0xFFFFFF#24

/-- The hash of the empty code. -/
def nullHash : Bytes32 := 0xc5d2460186f7233c927e7db2dcc703c0e500b653ca82273b7bfad8045d85a470#256

def uint256Max : Nat := 2 ^ 256 - 1

structure Account where
  balance : Nat := 0
  codeHash : Bytes32 := nullHash
  nonce : Nat := 0
  incarnation : Incarnation := ⟨0, 0⟩
  deriving DecidableEq, Repr

def Account.isEmpty (x : Account) : Bool := x.codeHash == nullHash && x.nonce == 0 && x.balance == 0

def isDead : Option Account → Bool
  | none => true
  | some x => x.isEmpty

/-- The status of a storage write, which the interpreter prices. -/
inductive StorageStatus
  | assigned | added | deleted | modified | deletedAdded | modifiedDeleted | deletedRestored
  | addedDeleted | modifiedRestored
  deriving DecidableEq, Repr

inductive AccessStatus
  | cold | warm
  deriving DecidableEq, Repr

/-- The recoverable errors of the balance operations. -/
inductive MonadException
  | balanceOverflow | balanceUnderflow
  deriving DecidableEq, Repr

def MonadException.message : MonadException → String
  | .balanceOverflow => "balance overflow"
  | .balanceUnderflow => "balance underflow"

structure AccountState where
  destructed : Bool := false
  touched : Bool := false
  accessed : Bool := false
  accessedStorage : Finset Bytes32 := ∅
  account : Option Account
  storage : Table Bytes32 Bytes32 := ∅
  transientStorage : Table Bytes32 Bytes32 := ∅

structure OriginalAccountState extends AccountState where
  validateExactBalance : Bool := false
  minBalance : Nat := 0

namespace AccountState

def getCodeHash (x : AccountState) : Bytes32 := (x.account.map (·.codeHash)).getD nullHash

def getNonce (x : AccountState) : Nat := (x.account.map (·.nonce)).getD 0

def getBalance (x : AccountState) : Nat := (x.account.map (·.balance)).getD 0

def getTransientStorage (x : AccountState) (key : Bytes32) : Bytes32 := (x.transientStorage.lookup key).getD 0

/-- `zero_out_key`, the status. -/
def zeroOutStatus (original current : Bytes32) : StorageStatus :=
  if current = 0 then .assigned
  else if original = current then .deleted
  else if original = 0 then .addedDeleted
  else .modifiedDeleted

/-- `set_current_value`, the status. -/
def setValueStatus (value original current : Bytes32) : StorageStatus :=
  if current = 0 then
    if original = 0 then .added
    else if value = original then .deletedRestored
    else .deletedAdded
  else if original = current ∧ original ≠ value then .modified
  else if original = value ∧ original ≠ current then .modifiedRestored
  else .assigned

def setStorage (x : AccountState) (key value original : Bytes32) : StorageStatus × AccountState :=
  let current := (x.storage.lookup key).getD original
  let status := if value = 0 then zeroOutStatus original current
    else setValueStatus value original current
  (status, { x with storage := x.storage.insert key value })

end AccountState

/-- The account as it is read from the block state. -/
def OriginalAccountState.ofAccount (account : Option Account) : OriginalAccountState := { account := account }

/-! ## Changes of an account record -/

/-- A change of the record behind `current_account_state`. -/
inductive Edit
  /-- take the reference and change nothing -/
  | keep
  | setNonce (nonce : Nat)
  | addToBalance (delta : Nat)
  | subtractFromBalance (delta : Nat)
  | setStorage (key value original : Bytes32)
  | setTransientStorage (key value : Bytes32)
  | touch
  | access
  | accessStorage (key : Bytes32)
  | destruct
  | setCodeHash (hash : Bytes32)
  | createContract
  | createAccountNoRollback
  | setToStateIncarnation
  deriving DecidableEq

/-- Is the change a method of its own? The other two are parts of `set_storage` and `set_code`. -/
def Edit.isPublic : Edit → Bool
  | .setStorage .. => false
  | .setCodeHash _ => false
  | _ => true

/-- What a change returns. -/
abbrev Edit.Reply : Edit → Type
  | .addToBalance _ => Except MonadException Unit
  | .subtractFromBalance _ => Except MonadException Unit
  | .setStorage .. => StorageStatus
  | .access => AccessStatus
  | .accessStorage _ => AccessStatus
  | .destruct => Bool
  | _ => Unit

/-- The account of a record, created with the incarnation of the transaction if there is none. -/
def AccountState.orCreate (x : AccountState) (incarnation : Incarnation) : Account :=
  x.account.getD { incarnation := incarnation }

/-- The effect of a change, in a transaction with the given incarnation; `none` is a failed
assertion. An exception of a balance operation leaves the account it may have created. -/
def Edit.apply (incarnation : Incarnation) : (e : Edit) → AccountState → Option (e.Reply × AccountState)
  | .keep, x => some ((), x)
  | .setNonce nonce, x => some ((), { x with account := some { x.orCreate incarnation with nonce := nonce } })
  | .addToBalance delta, x =>
    let account := x.orCreate incarnation
    if account.balance + delta ≤ uint256Max then
      some (.ok (),
        { x with account := some { account with balance := account.balance + delta },
                 touched := true })
    else some (.error .balanceOverflow, { x with account := some account })
  | .subtractFromBalance delta, x =>
    let account := x.orCreate incarnation
    if delta ≤ account.balance then
      some (.ok (),
        { x with account := some { account with balance := account.balance - delta },
                 touched := true })
    else some (.error .balanceUnderflow, { x with account := some account })
  | .setStorage key value original, x => if x.account.isSome then some (x.setStorage key value original) else none
  | .setTransientStorage key value, x => some ((), { x with transientStorage := x.transientStorage.insert key value })
  | .touch, x => some ((), { x with touched := true })
  | .access, x => some (if x.accessed then .warm else .cold, { x with accessed := true })
  | .accessStorage key, x =>
    some (if key ∈ x.accessedStorage then .warm else .cold,
      { x with accessedStorage := insert key x.accessedStorage })
  | .destruct, x => some (!x.destructed, { x with destructed := true })
  | .setCodeHash hash, x =>
    some ((), { x with account := x.account.map fun account => { account with codeHash := hash } })
  | .createContract, x =>
    match x.account with
    | some account =>
      if account.nonce = 0 ∧ account.codeHash = nullHash then
        some ((), { x with account := some { account with incarnation := incarnation } })
      else none
    | none => some ((), { x with account := some { incarnation := incarnation } })
  | .createAccountNoRollback, x =>
    match x.account with
    | some _ => none
    | none => some ((), { x with account := some { incarnation := ⟨incarnation.block, Incarnation.lastTx⟩ } })
  | .setToStateIncarnation, x =>
    some ((), { x with account := some { x.orCreate incarnation with incarnation := incarnation } })

/-! ## Observations of an account record -/

/-- What a method reads from `recent_account_state`. -/
inductive Observation
  | accountExists
  | accountIsDead
  | getNonce
  | getCodeHash
  | isDestructed
  | isCurrentIncarnation
  | getTransientStorage (key : Bytes32)
  deriving DecidableEq

abbrev Observation.Reply : Observation → Type
  | .getNonce => Nat
  | .getCodeHash => Bytes32
  | .getTransientStorage _ => Bytes32
  | _ => Bool

def Observation.of (incarnation : Incarnation) : (o : Observation) → AccountState → o.Reply
  | .accountExists, x => x.account.isSome
  | .accountIsDead, x => isDead x.account
  | .getNonce, x => x.getNonce
  | .getCodeHash, x => x.getCodeHash
  | .isDestructed, x => x.destructed
  | .isCurrentIncarnation, x =>
    match x.account with
    | some account => decide (account.incarnation = incarnation)
    | none => false
  | .getTransientStorage key, x => x.getTransientStorage key

end MonadExecution.Ethereum
