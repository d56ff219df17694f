import MonadExecution.Ethereum.Account
import Mathlib.Tactic.NormNum

/-!
# What a transaction pays

The revisions of the two chains, the transaction as it comes from the network, and the arithmetic of its
gas: `gas_price`, `g_star`, the floor of EIP-7623, the award of the beneficiary and the blob fee.
`static_validate_transaction` is a list of checks, each with its error. At the end stands what a
transaction that passes them guarantees: its products do not wrap, and what is charged, refunded, topped
up and awarded adds up.
-/

namespace MonadExecution.Ethereum.Gas

open Nat

/-! ## Revisions -/

/-- `monad_eth_revision`, from the earliest supported revision on. -/
inductive EthRevision
  | petersburg | istanbul | berlin | london | paris | shanghai | cancun | prague | osaka
  deriving DecidableEq, Repr

def EthRevision.rank : EthRevision → Nat
  | .petersburg => 6
  | .istanbul => 7
  | .berlin => 8
  | .london => 9
  | .paris => 10
  | .shanghai => 11
  | .cancun => 12
  | .prague => 13
  | .osaka => 14

instance : LE EthRevision := ⟨fun r r' => r.rank ≤ r'.rank⟩

instance (r r' : EthRevision) : Decidable (r ≤ r') := inferInstanceAs (Decidable (r.rank ≤ r'.rank))

/-- `monad_revision`. -/
inductive MonadRevision
  | zero | one | two | three | four | five | six | seven | eight | nine | next
  deriving DecidableEq, Repr

def MonadRevision.rank : MonadRevision → Nat
  | .zero => 0
  | .one => 1
  | .two => 2
  | .three => 3
  | .four => 4
  | .five => 5
  | .six => 6
  | .seven => 7
  | .eight => 8
  | .nine => 9
  | .next => 10

instance : LE MonadRevision := ⟨fun r r' => r.rank ≤ r'.rank⟩

instance (r r' : MonadRevision) : Decidable (r ≤ r') := inferInstanceAs (Decidable (r.rank ≤ r'.rank))

/-- `EvmTraits` and `MonadTraits`. -/
inductive Traits
  | evm (rev : EthRevision)
  | monad (rev : MonadRevision)
  deriving DecidableEq, Repr

namespace Traits

def evmRev : Traits → EthRevision
  | .evm rev => rev
  | .monad rev =>
    if .nine ≤ rev then .osaka
    else if .four ≤ rev then .prague
    else .cancun

def eip4844Active : Traits → Bool
  | .evm rev => decide (.cancun ≤ rev)
  | .monad _ => false

def eip7691Active : Traits → Bool
  | .evm rev => decide (.prague ≤ rev)
  | .monad _ => false

def maxCodeSize : Traits → Nat
  | .evm _ => 24 * 1024
  | .monad rev => if .two ≤ rev then 128 * 1024 else 24 * 1024

end Traits

/-! ## The transaction -/

inductive TransactionType
  | legacy | eip2930 | eip1559 | eip4844 | eip7702
  deriving DecidableEq, Repr

structure SignatureAndChain where
  r : Nat
  s : Nat
  chainId : Option Nat := none
  deriving DecidableEq, Repr

namespace SignatureAndChain

def secp256k1Order : Nat := 0xfffffffffffffffffffffffffffffffebaaedce6af48a03bbfd25e8cd0364141

def hasUpperS (sc : SignatureAndChain) : Bool := decide (secp256k1Order / 2 < sc.s)

def isValid (sc : SignatureAndChain) : Bool :=
  !(sc.r == 0 || sc.s == 0) && !(decide (secp256k1Order ≤ sc.r) || decide (secp256k1Order ≤ sc.s)) && !sc.hasUpperS

end SignatureAndChain

structure AccessEntry where
  a : Address
  keys : List Bytes32 := []
  deriving DecidableEq, Repr

structure AuthorizationEntry where
  sc : SignatureAndChain
  address : Address
  nonce : Nat
  deriving DecidableEq, Repr

structure Transaction where
  sc : SignatureAndChain
  nonce : Nat := 0
  maxFeePerGas : Nat := 0
  gasLimit : Nat := 0
  value : Nat := 0
  recipient : Option Address := none
  type : TransactionType := .legacy
  data : Bytes := []
  accessList : List AccessEntry := []
  maxPriorityFeePerGas : Nat := 0
  maxFeePerBlobGas : Nat := 0
  blobVersionedHashes : List Bytes32 := []
  authorizationList : List AuthorizationEntry := []
  /-- the limit is a `uint64_t` -/
  gasLimit_lt : gasLimit < 2 ^ 64 := by norm_num

/-- The number of values of a `uint256_t`. -/
def uint256Size : Nat := 2 ^ 256

theorem uint256Size_pos : 0 < uint256Size := Nat.two_pow_pos 256

/-- The arithmetic of `uint256_t`. -/
def wrap256 (n : Nat) : Nat := n % uint256Size

theorem wrap256_of_lt {n : Nat} (h : n < uint256Size) : wrap256 n = n := mod_eq_of_lt h

def checkedMul (x y : Nat) : Option Nat := if x * y < uint256Size then some (x * y) else none

def checkedAdd (x y : Nat) : Option Nat := if x + y < uint256Size then some (x + y) else none

theorem checkedMul_eq_some {x y z : Nat} : checkedMul x y = some z ↔ x * y < uint256Size ∧ x * y = z := by
  unfold checkedMul
  split_ifs with h <;> simp [h]

theorem checkedAdd_eq_some {x y z : Nat} : checkedAdd x y = some z ↔ x + y < uint256Size ∧ x + y = z := by
  unfold checkedAdd
  split_ifs with h <;> simp [h]

/-! ## Gas -/

def gTxnCreate (tx : Transaction) : Nat := if tx.recipient.isSome then 0 else 32000

def gAccessAndStorage (tx : Transaction) : Nat :=
  tx.accessList.foldl (fun g entry => g + entry.keys.length * 1900) (tx.accessList.length * 2400)

def gAuthorization (tx : Transaction) : Nat := 25000 * tx.authorizationList.length

def gExtraCostInit (tx : Transaction) : Nat := if tx.recipient.isSome then 0 else (tx.data.length + 31) / 32 * 2

/-- The zero and the other bytes of the data. -/
def tokensInCalldata (tx : Transaction) : Nat × Nat :=
  let zeros := tx.data.countP (· == 0)
  (zeros, tx.data.length - zeros)

def gData (traits : Traits) (tx : Transaction) : Nat :=
  let (zeros, nonzeros) := tokensInCalldata tx
  if .istanbul ≤ traits.evmRev then zeros * 4 + nonzeros * 16 else zeros * 4 + nonzeros * 68

def intrinsicGas (traits : Traits) (tx : Transaction) : Nat :=
  21000 + gData traits tx + gTxnCreate tx + (if .berlin ≤ traits.evmRev then gAccessAndStorage tx else 0) +
    (if .shanghai ≤ traits.evmRev then gExtraCostInit tx else 0) +
    (if .prague ≤ traits.evmRev then gAuthorization tx else 0)

/-- The floor of EIP-7623. -/
def floorDataGas (tx : Transaction) : Nat :=
  let (zeros, nonzeros) := tokensInCalldata tx
  21000 + (zeros * 10 + nonzeros * 40)

/-- No fee is a failed assertion. -/
def priorityFeePerGas (tx : Transaction) (baseFeePerGas : Nat) : Option Nat :=
  if baseFeePerGas ≤ tx.maxFeePerGas then
    let maxPriorityFeePerGas := tx.maxFeePerGas - baseFeePerGas
    match tx.type with
    | .eip1559 | .eip4844 | .eip7702 => some (min tx.maxPriorityFeePerGas maxPriorityFeePerGas)
    | .legacy | .eip2930 => some maxPriorityFeePerGas
  else none

def gasPrice (traits : Traits) (tx : Transaction) (baseFeePerGas : Nat) : Option Nat :=
  if .london ≤ traits.evmRev then
    (priorityFeePerGas tx baseFeePerGas).map fun fee => wrap256 (fee + baseFeePerGas)
  else some tx.maxFeePerGas

def gStar (traits : Traits) (tx : Transaction) (gasRemaining refund : Nat) : Nat :=
  let maxRefundQuotient := if .london ≤ traits.evmRev then 5 else 2
  let refundAllowance := (tx.gasLimit - gasRemaining) / maxRefundQuotient
  gasRemaining + min refundAllowance refund

/-- Monad charges the whole gas limit from its revision one on. -/
def computeGasRefund (traits : Traits) (tx : Transaction) (gasRemaining refund : Nat) : Nat :=
  match traits with
  | .evm _ => gStar traits tx gasRemaining refund
  | .monad rev => if .one ≤ rev then 0 else gStar traits tx gasRemaining refund

def calculateTxnAward (traits : Traits) (tx : Transaction) (baseFeePerGas gasUsed : Nat) : Option Nat :=
  if .london ≤ traits.evmRev then
    (priorityFeePerGas tx baseFeePerGas).map fun fee => wrap256 (gasUsed * fee)
  else (gasPrice traits tx baseFeePerGas).map fun price => wrap256 (gasUsed * price)

/-- The part of the price that nobody receives. -/
def burntFeePerGas (traits : Traits) (baseFeePerGas : Nat) : Nat :=
  if .london ≤ traits.evmRev then baseFeePerGas else 0

/-! ## Blobs -/

def getTotalBlobGas (tx : Transaction) : Nat := 131072 * tx.blobVersionedHashes.length

/-- The loop of `fake_exponential`; it ends when the accumulator is zero. -/
def fakeExponentialLoop (n d : Nat) : Nat → Nat → Nat → Nat → Nat
  | 0, _, output, _ => output
  | fuel + 1, i, output, acc =>
    if acc = 0 then output
    else fakeExponentialLoop n d fuel (i + 1) (wrap256 (output + acc)) (wrap256 (acc * n) / (d * i))

/-- A term is below `2 ^ 256 / (d * i)`, so that `2 ^ 256` rounds are enough
(`fakeExponentialLoop_stops`). -/
def fakeExponential (factor n d : Nat) : Nat := fakeExponentialLoop n d (uint256Size) 1 0 (wrap256 (factor * d)) / d

theorem fakeExponentialLoop_succ (n d fuel i output acc : Nat) : fakeExponentialLoop n d (fuel + 1) i output acc =
    if acc = 0 then output
    else fakeExponentialLoop n d fuel (i + 1) (wrap256 (output + acc)) (wrap256 (acc * n) / (d * i)) := rfl

/-- Once the loop has gone on long enough, more rounds do not change its result. -/
theorem fakeExponentialLoop_stops {n d : Nat} (hd : 0 < d) (fuel : Nat) :
    ∀ i output acc, acc * (d * (i - 1)) < uint256Size → uint256Size < i + fuel →
      fakeExponentialLoop n d (fuel + 1) i output acc = fakeExponentialLoop n d fuel i output acc := by
  induction fuel with
  | zero =>
    intro i output acc hacc hi
    -- the divisor is at least `2 ^ 256`, so the term is zero
    have hzero : acc = 0 := by
      by_contra hne
      have hpos : 1 ≤ acc * d := Nat.mul_pos (Nat.pos_of_ne_zero hne) hd
      have hle : 1 * (i - 1) ≤ acc * d * (i - 1) := Nat.mul_le_mul_right _ hpos
      rw [← Nat.mul_assoc] at hacc
      omega
    rw [fakeExponentialLoop_succ, if_pos hzero]
    rfl
  | succ fuel ih =>
    intro i output acc hacc hi
    rw [fakeExponentialLoop_succ n d (fuel + 1), fakeExponentialLoop_succ n d fuel i]
    split_ifs with hzero
    · rfl
    apply ih
    · rw [Nat.add_sub_cancel]
      calc wrap256 (acc * n) / (d * i) * (d * i) ≤ wrap256 (acc * n) := Nat.div_mul_le_self ..
        _ < uint256Size := Nat.mod_lt _ uint256Size_pos
    · omega

def blobBaseFeeUpdateFraction (traits : Traits) : Nat := if traits.eip7691Active then 5007716 else 3338477

def getBaseFeePerBlobGas (traits : Traits) (excessBlobGas : Nat) : Nat :=
  fakeExponential 1 excessBlobGas (blobBaseFeeUpdateFraction traits)

def calcBlobFee (traits : Traits) (tx : Transaction) (excessBlobGas : Nat) : Nat :=
  wrap256 (getBaseFeePerBlobGas traits excessBlobGas * getTotalBlobGas tx)

/-- What `irrevocable_change` charges for blobs. -/
def blobFee (traits : Traits) (tx : Transaction) (excessBlobGas : Nat) : Nat :=
  if .cancun ≤ traits.evmRev ∧ tx.type = .eip4844 then calcBlobFee traits tx excessBlobGas else 0

/-! ## Static validation -/

inductive TransactionError
  | insufficientBalance | intrinsicGasGreaterThanLimit | badNonce | senderNotEoa | typeNotSupported
  | maxFeeLessThanBase | priorityFeeGreaterThanMax | nonceExceedsMax | initCodeLimitExceeded
  | gasLimitReached | wrongChainId | missingSender | gasLimitOverflow | invalidSignature
  | invalidBlobHash | emptyAuthorizationList
  deriving DecidableEq, Repr

/-- The error of the first check that fails. -/
def firstError {ε : Type} : List (Bool × ε) → Except ε Unit
  | [] => .ok ()
  | (fails, e) :: rest => if fails then .error e else firstError rest

theorem firstError_eq_ok {ε : Type} {checks : List (Bool × ε)} :
    firstError checks = .ok () ↔ ∀ check ∈ checks, check.1 = false := by
  induction checks with
  | nil => simp [firstError]
  | cons check rest ih =>
    obtain ⟨fails, e⟩ := check
    cases fails <;> simp [firstError, ih]

/-- The transaction types of a revision. -/
def typeSupported (traits : Traits) (type : TransactionType) : Bool :=
  if .prague ≤ traits.evmRev then true
  else if .cancun ≤ traits.evmRev then type != .eip7702
  else if .london ≤ traits.evmRev then type == .legacy || type == .eip2930 || type == .eip1559
  else if .berlin ≤ traits.evmRev then type == .legacy || type == .eip2930
  else type == .legacy

/-- The version byte of a blob hash. -/
def hasKzgVersion (hash : Bytes32) : Bool := hash.toNat / 2 ^ 248 == 0x01

def staticValidateTransaction (traits : Traits) (tx : Transaction)
    (baseFeePerGas excessBlobGas : Option Nat) (chainId : Nat) : Except TransactionError Unit :=
  firstError [(tx.sc.chainId.any (· != chainId), .wrongChainId),
     (!traits.eip4844Active && tx.type == .eip4844, .typeNotSupported),
     (!typeSupported traits tx.type, .typeNotSupported),
     (decide (tx.maxFeePerGas < baseFeePerGas.getD 0), .maxFeeLessThanBase),
     (decide (tx.maxFeePerGas < tx.maxPriorityFeePerGas), .priorityFeeGreaterThanMax),
     (decide (.shanghai ≤ traits.evmRev) && tx.recipient.isNone &&
       decide (2 * traits.maxCodeSize < tx.data.length), .initCodeLimitExceeded),
     (decide (tx.gasLimit < intrinsicGas traits tx), .intrinsicGasGreaterThanLimit),
     (decide (.prague ≤ traits.evmRev) && decide (tx.gasLimit < floorDataGas tx), .intrinsicGasGreaterThanLimit),
     (decide (.prague ≤ traits.evmRev) && tx.type == .eip7702 && tx.authorizationList.isEmpty,
       .emptyAuthorizationList),
     (decide (2 ^ 64 - 1 ≤ tx.nonce), .nonceExceedsMax),
     ((checkedMul tx.gasLimit tx.maxFeePerGas).isNone, .gasLimitOverflow),
     (!tx.sc.isValid, .invalidSignature),
     (decide (.cancun ≤ traits.evmRev) && tx.type == .eip4844 && tx.blobVersionedHashes.isEmpty, .invalidBlobHash),
     (decide (.cancun ≤ traits.evmRev) && tx.type == .eip4844 &&
       tx.blobVersionedHashes.any (fun hash => !hasKzgVersion hash), .invalidBlobHash),
     (decide (.cancun ≤ traits.evmRev) && tx.type == .eip4844 &&
       decide (tx.maxFeePerBlobGas < getBaseFeePerBlobGas traits (excessBlobGas.getD 0)),
       .gasLimitOverflow)]

/-! ## What the validation guarantees -/

/-- What the arithmetic of gas needs of a transaction. -/
structure Payable (traits : Traits) (tx : Transaction) (baseFeePerGas excessBlobGas : Nat) : Prop where
  base_le : baseFeePerGas ≤ tx.maxFeePerGas
  intrinsic_le : intrinsicGas traits tx ≤ tx.gasLimit
  product_lt : tx.gasLimit * tx.maxFeePerGas < uint256Size
  floor_le : .prague ≤ traits.evmRev → floorDataGas tx ≤ tx.gasLimit
  blob_active : tx.type = .eip4844 → traits.eip4844Active = true
  blob_le : .cancun ≤ traits.evmRev → tx.type = .eip4844 →
    getBaseFeePerBlobGas traits excessBlobGas ≤ tx.maxFeePerBlobGas

theorem payable_of_valid {traits : Traits} {tx : Transaction} {base excess : Option Nat} {chainId : Nat}
    (h : staticValidateTransaction traits tx base excess chainId = .ok ()) :
    Payable traits tx (base.getD 0) (excess.getD 0) := by
  have hall := firstError_eq_ok.mp h
  simp only [List.forall_mem_cons, Bool.and_eq_false_iff, decide_eq_false_iff_not, Bool.not_eq_false'] at hall
  obtain ⟨-, hact, -, hbase, -, -, hgas, hfloor, -, -, hproduct, -, -, -, hblob, -⟩ := hall
  refine ⟨by omega, by omega, ?_, ?_, ?_, ?_⟩
  · by_contra hge
    simp [checkedMul, hge] at hproduct
  · intro hrev
    rcases hfloor with hnot | hle
    · exact absurd hrev hnot
    · omega
  · intro htype
    rcases hact with hact | hnot
    · exact hact
    · simp [htype] at hnot
  · intro hrev htype
    rcases hblob with (hnot | hnot) | hle
    · exact absurd hrev hnot
    · simp [htype] at hnot
    · omega

section

variable {traits : Traits} {tx : Transaction} {base excess : Nat}

theorem priorityFee_le (h : base ≤ tx.maxFeePerGas) :
    ∃ fee, priorityFeePerGas tx base = some fee ∧ fee + base ≤ tx.maxFeePerGas := by
  unfold priorityFeePerGas
  rw [if_pos h]
  cases tx.type with
  | legacy | eip2930 => exact ⟨_, rfl, by omega⟩
  | eip1559 | eip4844 | eip7702 => exact ⟨_, rfl, by omega⟩

theorem Payable.maxFee_lt (h : Payable traits tx base excess) : tx.maxFeePerGas < uint256Size := by
  have hpos : 1 ≤ tx.gasLimit := by
    have hle := h.intrinsic_le
    unfold intrinsicGas at hle
    omega
  calc tx.maxFeePerGas = 1 * tx.maxFeePerGas := (one_mul _).symm
    _ ≤ tx.gasLimit * tx.maxFeePerGas := mul_le_mul_right _ hpos
    _ < uint256Size := h.product_lt

/-- The price is at most what the sender offers, and consists of a burnt part and a part for the
beneficiary. -/
theorem Payable.price (h : Payable traits tx base excess) :
    ∃ price tip, gasPrice traits tx base = some price ∧ price ≤ tx.maxFeePerGas ∧
      price = burntFeePerGas traits base + tip ∧
      ∀ gasUsed, calculateTxnAward traits tx base gasUsed = some (wrap256 (gasUsed * tip)) := by
  obtain ⟨fee, hfee, hle⟩ := priorityFee_le h.base_le
  unfold gasPrice burntFeePerGas calculateTxnAward
  by_cases hrev : .london ≤ traits.evmRev
  · simp only [if_pos hrev, hfee, Option.map_some, wrap256_of_lt (lt_of_le_of_lt hle h.maxFee_lt)]
    exact ⟨_, fee, rfl, hle, add_comm .., fun _ => rfl⟩
  · simp only [if_neg hrev, gasPrice, Option.map_some]
    exact ⟨_, _, rfl, le_refl _, (zero_add _).symm, fun _ => rfl⟩

variable {gasRemaining refund : Nat}

theorem gStar_le (h : gasRemaining ≤ tx.gasLimit) : gStar traits tx gasRemaining refund ≤ tx.gasLimit := by
  unfold gStar
  have hdiv := div_le_self (tx.gasLimit - gasRemaining) (if .london ≤ traits.evmRev then 5 else 2)
  simp only
  omega

theorem computeGasRefund_le (h : gasRemaining ≤ tx.gasLimit) :
    computeGasRefund traits tx gasRemaining refund ≤ tx.gasLimit := by
  unfold computeGasRefund
  split
  · exact gStar_le h
  split_ifs
  · exact zero_le _
  · exact gStar_le h

/-- Blobs are paid only where they are supported, and at most at the offered fee. -/
theorem Payable.blobFee_le (h : Payable traits tx base excess) : (tx.type ≠ .eip4844 → blobFee traits tx excess = 0) ∧
    (traits.eip4844Active = false → blobFee traits tx excess = 0) ∧
    blobFee traits tx excess ≤ getTotalBlobGas tx * tx.maxFeePerBlobGas := by
  unfold blobFee
  refine ⟨fun hne => if_neg fun hc => hne hc.2, fun hoff => if_neg fun hc => ?_, ?_⟩
  · simp [h.blob_active hc.2] at hoff
  split_ifs with hc
  · calc calcBlobFee traits tx excess
        ≤ getBaseFeePerBlobGas traits excess * getTotalBlobGas tx := mod_le ..
      _ ≤ tx.maxFeePerBlobGas * getTotalBlobGas tx := mul_le_mul_right _ (h.blob_le hc.1 hc.2)
      _ = getTotalBlobGas tx * tx.maxFeePerBlobGas := mul_comm ..
  · exact zero_le _

end

end MonadExecution.Ethereum.Gas
