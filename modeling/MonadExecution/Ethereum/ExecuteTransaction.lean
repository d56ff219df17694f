import Mathlib
import MonadExecution.Ethereum.TransactionGas
import MonadExecution.Ethereum.State

/-!
# The execution of one transaction

`validate_transaction`, `irrevocable_change`, and `execute_final` as methods of `State`. What happens
between the second and the third is the business of the interpreter, of which only this matters here:
value is moved by `transfer_balances` and `selfdestruct` alone, and call frames are opened and closed in
a nested way. `Activity` is the class of all such executions.
-/

namespace MonadExecution.Ethereum.Gas

/-- What a transaction needs to know of its block. -/
structure BlockHeader where
  beneficiary : Address
  baseFeePerGas : Option Nat := none
  excessBlobGas : Option Nat := none
  deriving DecidableEq, Repr

/-! ## Validation -/

/-- `TransactionError` and `MonadTransactionError`. -/
inductive ValidationError
  | ethereum (e : TransactionError)
  | insufficientBalanceForFee
  | systemTransactionSenderIsAuthority
  deriving DecidableEq, Repr

/-- The most that a transaction can cost, if it is a `uint256_t`. -/
def maxCost (tx : Transaction) : Option Nat := do
  let gasFee ← checkedMul tx.gasLimit tx.maxFeePerGas
  let baseCost ← checkedAdd tx.value gasFee
  if tx.type = .eip4844 then
    let blobCost ← checkedMul (getTotalBlobGas tx) tx.maxFeePerBlobGas
    checkedAdd baseCost blobCost
  else some baseCost

/-- A delegation indicator of EIP-7702. -/
def isDelegated (code : Bytes) : Bool := code.length == 23 && code.take 3 == [0xef, 0x01, 0x00]

def senderIsEoa (traits : Traits) (sender : Address) : Program Bool := do
  let hash ← getCodeHash sender
  if .prague ≤ traits.evmRev then
    let code ← Program.run1 (.readCode hash)
    pure (hash == nullHash || isDelegated code)
  else pure (hash == nullHash)

def validateEthereumTransaction (traits : Traits) (tx : Transaction) (sender : Address) :
    Program (Except TransactionError Unit) :=
  match maxCost tx with
  | none => pure (.error .insufficientBalance)
  | some v0 => do
    if ← accountExists sender then
      if ← senderIsEoa traits sender then
        let nonce ← getNonce sender
        if nonce ≠ tx.nonce then pure (.error .badNonce)
        else
          let balance ← Program.run1 (.getBalance sender)
          if balance < v0 then pure (.error .insufficientBalance) else pure (.ok ())
      else pure (.error .senderNotEoa)
    else if tx.nonce ≠ 0 then pure (.error .badNonce)
    else if v0 ≠ 0 then pure (.error .insufficientBalance)
    else pure (.ok ())

def systemSender : Address := 0x6f49a8F621353f12378d0046E7d7e4b9B249DC9e#160

/-- From revision four on, Monad lets a sender that cannot pay for the value pass, as long as the gas is
paid for. -/
def validateMonadTransaction (keccak : Bytes → Bytes32) (traits : Traits) (tx : Transaction)
    (sender : Address) (baseFeePerGas : Nat) (authorities : List (Option Address)) :
    Method (Except ValidationError Unit) := do
  let res ← (validateEthereumTransaction traits tx sender).run keccak
  match res with
  | .ok () | .error .insufficientBalance =>
    match gasPrice traits tx baseFeePerGas with
    | none => abort
    | some price =>
      let balance ← getBalance sender
      if balance < wrap256 (tx.gasLimit * price) then pure (.error .insufficientBalanceForFee)
      else if some systemSender ∈ authorities then
        pure (.error .systemTransactionSenderIsAuthority)
      else pure (.ok ())
  | .error e => pure (.error (.ethereum e))

def validateTransaction (keccak : Bytes → Bytes32) (traits : Traits) (tx : Transaction) (sender : Address)
    (baseFeePerGas : Nat) (authorities : List (Option Address)) : Method (Except ValidationError Unit) :=
  let ethereum : Method (Except ValidationError Unit) := do
    let res ← (validateEthereumTransaction traits tx sender).run keccak
    pure (res.mapError .ethereum)
  match traits with
  | .evm _ => ethereum
  | .monad rev =>
    if .four ≤ rev then validateMonadTransaction keccak traits tx sender baseFeePerGas authorities
    else ethereum

/-- The fee and the authorities, which Monad checks behind the Ethereum rules. -/
def validateFee (tx : Transaction) (sender : Address) (authorities : List (Option Address)) (price : Nat) :
    Method (Except ValidationError Unit) := do
  let balance ← getBalance sender
  if balance < wrap256 (tx.gasLimit * price) then pure (.error .insufficientBalanceForFee)
  else if some systemSender ∈ authorities then pure (.error .systemTransactionSenderIsAuthority)
  else pure (.ok ())

/-- The Ethereum rules alone, or the Ethereum rules and then the fee. -/
theorem validateTransaction_cases (keccak : Bytes → Bytes32) (traits : Traits) (tx : Transaction) (sender : Address)
    (base : Nat) (authorities : List (Option Address)) :
    (validateTransaction keccak traits tx sender base authorities = do
      let res ← (validateEthereumTransaction traits tx sender).run keccak
      pure (res.mapError .ethereum)) ∨
    traits.eip4844Active = false ∧ ∃ k, validateTransaction keccak traits tx sender base authorities =
        (validateEthereumTransaction traits tx sender).run keccak >>= k ∧
      ∀ res, k res = abort ∨ (∃ price, gasPrice traits tx base = some price ∧
        k res = validateFee tx sender authorities price) ∨ ∃ e, k res = pure (.error e) := by
  unfold validateTransaction
  cases traits with
  | evm rev => exact .inl rfl
  | monad rev =>
    dsimp only
    split_ifs
    · refine .inr ⟨rfl, _, rfl, fun res => ?_⟩
      cases gasPrice (.monad rev) tx base with
      | none =>
        cases res with
        | ok u => exact .inl rfl
        | error e =>
          cases e with
          | insufficientBalance => exact .inl rfl
          | _ => exact .inr (.inr ⟨_, rfl⟩)
      | some price =>
        cases res with
        | ok u => exact .inr (.inl ⟨price, rfl, rfl⟩)
        | error e =>
          cases e with
          | insufficientBalance => exact .inr (.inl ⟨price, rfl, rfl⟩)
          | _ => exact .inr (.inr ⟨_, rfl⟩)
    · exact .inl rfl

/-! ## The up-front charge -/

/-- The nonce of a creating transaction is counted up by the interpreter. -/
def increaseNonce (keccak : Bytes → Bytes32) (tx : Transaction) (sender : Address) : Method Unit :=
  if tx.recipient.isSome then do
    let nonce ← (getNonce sender).run keccak
    (setNonce sender ((nonce + 1) % 2 ^ 64)).run keccak
  else pure ()

def irrevocableChange (keccak : Bytes → Bytes32) (traits : Traits) (tx : Transaction) (sender : Address)
    (baseFeePerGas excessBlobGas : Nat) : Method (Except MonadException Unit) := do
  increaseNonce keccak tx sender
  match gasPrice traits tx baseFeePerGas with
  | none => abort
  | some price =>
    let upfrontCost := wrap256 (tx.gasLimit * price)
    (subtractFromBalance sender (wrap256 (upfrontCost + blobFee traits tx excessBlobGas))).run keccak

/-! ## The execution in between -/

/-- The calls that neither move value nor open or close a frame. -/
def movesNothing : Call → Bool
  | .edit _ (.addToBalance _) _ => false
  | .edit _ (.subtractFromBalance _) _ => false
  | .push => false
  | .popAccept => false
  | .popReject => false
  | _ => true

def transferBalances (sender recipient : Address) (value : Nat) : Program (Except MonadException Unit) := do
  match ← subtractFromBalance sender value with
  | .error e => pure (.error e)
  | .ok () => addToBalance recipient value

/-- Is the balance of a destructed account taken away? -/
def sweeps (cancun : Bool) (a beneficiary : Address) : Program Bool :=
  if !cancun then pure true
  else if a ≠ beneficiary then pure true
  else isCurrentIncarnation a

/-- Take the balance away, and give it to the beneficiary if that is another account. -/
def sweep (a beneficiary : Address) (balance : Nat) : Program (Except MonadException Unit) :=
  if a ≠ beneficiary then do
    match ← addToBalance beneficiary balance with
    | .error e => pure (.error e)
    | .ok () => subtractFromBalance a balance
  else subtractFromBalance a balance

theorem keep_public : Edit.keep.isPublic = true := rfl

theorem destruct_public : Edit.destruct.isPublic = true := rfl

/-- `selfdestruct`, which also tells how much it has destroyed: the balance of an account that names
itself as the beneficiary, if it is taken away. -/
def selfdestructCounted (cancun : Bool) (a beneficiary : Address) :
    Program (Except MonadException ((Bool × Nat) × Nat)) := do
  Program.run1 (.edit a .keep keep_public)
  let balance ← Program.run1 (.getBalance a)
  let moves ← sweeps cancun a beneficiary
  match ← (if moves then sweep a beneficiary balance else pure (.ok ())) with
  | .error e => pure (.error e)
  | .ok () => do
    let inserted ← Program.run1 (.edit a .destruct destruct_public)
    pure (.ok ((inserted, balance), if moves ∧ a = beneficiary then balance else 0))

/-- An execution that moves value with `transfer_balances` and `selfdestruct` only. A frame is accepted
or rejected as its outcome says, and everything may depend on all earlier replies. -/
inductive Activity (ρ : Type) : Type where
  | ret (x : ρ)
  | call (c : Call) (h : movesNothing c = true) (next : c.Reply → Activity ρ)
  | transfer (sender recipient : Address) (value : Nat) (next : Activity ρ)
  | selfdestruct (a beneficiary : Address) (next : Bool × Nat → Activity ρ)
  | frame (body : Activity ρ) (accepts : ρ → Bool) (next : ρ → Activity ρ)

namespace Activity

variable {ρ : Type}

/-- Count what has been destroyed before. -/
def alsoDestroyed (n : Nat) : Except MonadException (ρ × Nat) → Except MonadException (ρ × Nat) :=
  Except.map fun y => (y.1, n + y.2)

theorem alsoDestroyed_eq_ok {n : Nat} {x : Except MonadException (ρ × Nat)} {y : ρ × Nat}
    (h : alsoDestroyed n x = .ok y) : ∃ w, x = .ok w ∧ (w.1, n + w.2) = y := by
  cases x with
  | error e => cases h
  | ok w => exact ⟨w, rfl, Except.ok.inj h⟩

/-- What an execution does. An exception of a balance operation ends it; otherwise it also tells how
much it has destroyed. What a rejected frame has destroyed is back. -/
def program (cancun : Bool) : Activity ρ → Program (Except MonadException (ρ × Nat))
  | ret x => .ret (.ok (x, 0))
  | call c _ next => .call c fun r => (next r).program cancun
  | transfer sender recipient value next => do
    match ← transferBalances sender recipient value with
    | .error e => pure (.error e)
    | .ok () => next.program cancun
  | selfdestruct a beneficiary next => do
    match ← selfdestructCounted cancun a beneficiary with
    | .error e => pure (.error e)
    | .ok (r, destroyed) => do
      let y ← (next r).program cancun
      pure (alsoDestroyed destroyed y)
  | frame body accepts next => do
    Program.run1 .push
    match ← body.program cancun with
    | .error e => pure (.error e)
    | .ok (x, destroyed) =>
      if accepts x then do
        Program.run1 .popAccept
        let y ← (next x).program cancun
        pure (alsoDestroyed destroyed y)
      else do
        Program.run1 .popReject
        (next x).program cancun

end Activity

/-! ## The end -/

/-- What the interpreter returns. -/
structure EvmcResult where
  success : Bool
  gasLeft : Int
  gasRefund : Int
  deriving DecidableEq, Repr

structure Receipt where
  status : Nat
  gasUsed : Nat
  type : TransactionType
  logs : List Log
  deriving DecidableEq, Repr

/-- Subtraction of `uint64_t`. -/
def sub64 (x y : Nat) : Nat := (x + (2 ^ 64 - y)) % 2 ^ 64

/-- The refund and the top-up to the floor of EIP-7623; returns the gas used. -/
def refundGas (traits : Traits) (tx : Transaction) (sender : Address) (gasRefund gasCost : Nat) :
    Program (Except MonadException Nat) := do
  match ← addToBalance sender (wrap256 (gasCost * gasRefund)) with
  | .error e => pure (.error e)
  | .ok () =>
    let gasUsed := sub64 tx.gasLimit gasRefund
    if .prague ≤ traits.evmRev ∧ gasUsed < floorDataGas tx then
      let delta := floorDataGas tx - gasUsed
      match ← subtractFromBalance sender (wrap256 (gasCost * delta)) with
      | .error e => pure (.error e)
      | .ok () => pure (.ok (floorDataGas tx))
    else pure (.ok gasUsed)

/-- The deletions at the end, and the receipt. -/
def deleteAccounts (traits : Traits) (tx : Transaction) (result : EvmcResult) (gasUsed : Nat) : Method Receipt := do
  destructSuicides (decide (.cancun ≤ traits.evmRev))
  destructTouchedDead
  let logs ← logs
  pure {
    status := if result.success then 1 else 0
    gasUsed := gasUsed
    type := tx.type
    logs := logs }

/-- The balance changes of `execute_final`: the refund, the top-up and the award; returns the gas
used. -/
def payOut (keccak : Bytes → Bytes32) (traits : Traits) (tx : Transaction) (sender : Address)
    (header : BlockHeader) (result : EvmcResult) : Method (Except MonadException Nat) :=
  if 0 ≤ result.gasLeft ∧ 0 ≤ result.gasRefund ∧ result.gasLeft ≤ tx.gasLimit then
    let base := header.baseFeePerGas.getD 0
    let gasRefund := computeGasRefund traits tx result.gasLeft.toNat result.gasRefund.toNat
    match gasPrice traits tx base with
    | none => abort
    | some gasCost => do
      match ← (refundGas traits tx sender gasRefund gasCost).run keccak with
      | .error e => pure (.error e)
      | .ok gasUsed =>
        match calculateTxnAward traits tx base gasUsed with
        | none => abort
        | some reward => do
          match ← (addToBalance header.beneficiary reward).run keccak with
          | .error e => pure (.error e)
          | .ok () => pure (.ok gasUsed)
  else abort

def executeFinal (keccak : Bytes → Bytes32) (traits : Traits) (tx : Transaction) (sender : Address)
    (header : BlockHeader) (result : EvmcResult) : Method (Except MonadException Receipt) := do
  match ← payOut keccak traits tx sender header result with
  | .error e => pure (.error e)
  | .ok gasUsed => do
    let receipt ← deleteAccounts traits tx result gasUsed
    pure (.ok receipt)

end MonadExecution.Ethereum.Gas
