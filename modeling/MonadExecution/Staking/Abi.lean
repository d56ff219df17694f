import MonadExecution.Staking.Basic

/-!
# Decoding the call data

`abi_decode_fixed` reads one 32-byte word and keeps its low-order bytes, whatever the dirty bytes
above them are; `abi_decode_bytes_tail` reads a length word, compares it with the length that the
caller expects, and then that many bytes padded to whole words. Both consume what they read, and
both only fail when the input is too short or the length is another one.
-/

namespace MonadExecution.Staking

/-- The number a big-endian byte string stands for. -/
def loadBe (bs : Bytes) : Nat := bs.foldl (fun n b => n * 256 + b.toNat) 0

/-- Read one word of the head and keep its last `size` bytes. -/
def abiDecodeFixed (size : Nat) (enc : Bytes) : Except Error (Nat × Bytes) :=
  if enc.length < 32 then .error (.abi .inputTooShort)
  else .ok (loadBe ((enc.take 32).drop (32 - size)), enc.drop 32)

def abiDecodeU64 (enc : Bytes) : Except Error (Nat × Bytes) := abiDecodeFixed 8 enc

def abiDecodeU256 (enc : Bytes) : Except Error (Nat × Bytes) := abiDecodeFixed 32 enc

def abiDecodeValId (enc : Bytes) : Except Error (ValId × Bytes) := do
  let (n, enc) ← abiDecodeFixed 8 enc
  return (BitVec.ofNat 64 n, enc)

def abiDecodeAddress (enc : Bytes) : Except Error (Address × Bytes) := do
  let (n, enc) ← abiDecodeFixed 20 enc
  return (BitVec.ofNat 160 n, enc)

def abiDecodeWithdrawalId (enc : Bytes) : Except Error (WithdrawalId × Bytes) := do
  let (n, enc) ← abiDecodeFixed 1 enc
  return (BitVec.ofNat 8 n, enc)

/-- `n` rounded up to whole words. -/
def roundUp32 (n : Nat) : Nat := (n + 31) / 32 * 32

/-- Read `n` bytes of the tail behind their length word. -/
def abiDecodeBytesTail (n : Nat) (enc : Bytes) : Except Error (Bytes × Bytes) := do
  let (length, enc) ← abiDecodeU256 enc
  if length ≠ n then .error (.abi .lengthMismatch)
  else if enc.length < roundUp32 n then .error (.abi .inputTooShort)
  else .ok (enc.take n, enc.drop (roundUp32 n))

/-- `x` must have been decoded from the whole input. -/
def allConsumed {α : Type} (x : Except Error (α × Bytes)) : Except Error α :=
  match x with
  | .ok (a, []) => .ok a
  | .ok (_, _ :: _) => .error (.staking .invalidInput)
  | .error e => .error e

/-! ## The argument lists of the precompiles -/

def decodeValId (input : Bytes) : Except Error ValId := allConsumed (abiDecodeValId input)

def decodeAddress (input : Bytes) : Except Error Address := allConsumed (abiDecodeAddress input)

def decodeEpoch (input : Bytes) : Except Error Nat := allConsumed (abiDecodeU64 input)

def decodeValIdAmount (input : Bytes) : Except Error (ValId × Nat) := allConsumed do
  let (valId, input) ← abiDecodeValId input
  let (amount, input) ← abiDecodeU256 input
  return ((valId, amount), input)

def decodeValIdAddress (input : Bytes) : Except Error (ValId × Address) := allConsumed do
  let (valId, input) ← abiDecodeValId input
  let (address, input) ← abiDecodeAddress input
  return ((valId, address), input)

def decodeAddressValId (input : Bytes) : Except Error (Address × ValId) := allConsumed do
  let (address, input) ← abiDecodeAddress input
  let (valId, input) ← abiDecodeValId input
  return ((address, valId), input)

def decodeUndelegate (input : Bytes) : Except Error (ValId × Nat × WithdrawalId) := allConsumed do
  let (valId, input) ← abiDecodeValId input
  let (stake, input) ← abiDecodeU256 input
  let (withdrawalId, input) ← abiDecodeWithdrawalId input
  return ((valId, stake, withdrawalId), input)

def decodeWithdraw (input : Bytes) : Except Error (ValId × WithdrawalId) := allConsumed do
  let (valId, input) ← abiDecodeValId input
  let (withdrawalId, input) ← abiDecodeWithdrawalId input
  return ((valId, withdrawalId), input)

def decodeWithdrawalRequest (input : Bytes) : Except Error (ValId × Address × WithdrawalId) :=
  allConsumed do
  let (valId, input) ← abiDecodeValId input
  let (delegator, input) ← abiDecodeAddress input
  let (withdrawalId, input) ← abiDecodeWithdrawalId input
  return ((valId, delegator, withdrawalId), input)

/-- The arguments of `addValidator`: the signed message, and the two signatures over it. -/
structure AddValidatorInput where
  message : Bytes
  secpSignature : Bytes
  blsSignature : Bytes

def decodeAddValidator (input : Bytes) : Except Error AddValidatorInput := allConsumed do
  -- the three tail offsets of the head are skipped
  let (_, input) ← abiDecodeU256 input
  let (_, input) ← abiDecodeU256 input
  let (_, input) ← abiDecodeU256 input
  let (message, input) ← abiDecodeBytesTail 165 input
  let (secpSignature, input) ← abiDecodeBytesTail 64 input
  let (blsSignature, input) ← abiDecodeBytesTail 96 input
  return (⟨message, secpSignature, blsSignature⟩, input)

/-! The signed message is the concatenation of two public keys, the auth address, the stake and
the commission. -/

namespace AddValidatorInput

def secpPubkey (i : AddValidatorInput) : Bytes := i.message.take 33

def blsPubkey (i : AddValidatorInput) : Bytes := (i.message.drop 33).take 48

def authAddress (i : AddValidatorInput) : Address := BitVec.ofNat 160 (loadBe ((i.message.drop 81).take 20))

def signedStake (i : AddValidatorInput) : Nat := loadBe ((i.message.drop 101).take 32)

def commission (i : AddValidatorInput) : Nat := loadBe ((i.message.drop 133).take 32)

end AddValidatorInput

end MonadExecution.Staking
