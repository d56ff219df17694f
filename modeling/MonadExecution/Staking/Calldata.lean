import MonadExecution.Staking.Action

/-!
# Call data

The encoders of the ABI, and the calls that clients and consensus make with them.
-/

namespace MonadExecution.Staking

/-! ## Encoders -/

/-- The last `size` bytes of a number, big endian. -/
def storeBe : Nat → Nat → Bytes
  | 0, _ => []
  | size + 1, n => storeBe size (n / 256) ++ [UInt8.ofNat n]

def abiEncodeUint (n : Nat) : Bytes := storeBe 32 n

def abiEncodeBytes (input : Bytes) : Bytes :=
  abiEncodeUint input.length ++ input ++ List.replicate (roundUp32 input.length - input.length) 0

/-! ## Calls

A client provides the gas of the dearest method. In the runs of this development the signature
schemes accept everything, and an account's address is its key. -/

def Crypto.acceptAll : Crypto where
  secpPubkeyIsValid _ := true
  secpSignatureIsValid _ := true
  secpVerify _ _ _ := true
  blsPubkeyIsValid _ := true
  blsSignatureIsValid _ := true
  blsVerify _ _ _ := true
  addressFromSecpkey key := BitVec.ofNat 160 (loadBe key)
  addressFromBlsKey key := BitVec.ofNat 160 (loadBe key)

def enoughGas : Nat := 814000

def callMethod (selector : Nat) (arguments : Bytes) (sender : Address) (value : Nat) : Call :=
  .precompile (storeBe 4 selector ++ arguments) sender value enoughGas

def callSystem (selector : Nat) (arguments : Bytes) (value : Nat) : Call :=
  .system (storeBe 4 selector ++ arguments) value

namespace Call

def addValidator (secp bls : Bytes) (auth : Address) (commission : Nat)
    (secpSignature blsSignature : Bytes) (sender : Address) (stake : Nat) : Call :=
  let message := secp ++ bls ++ storeBe 20 auth.toNat ++ storeBe 32 stake ++ storeBe 32 commission
  callMethod 0xf145204c (abiEncodeUint 0x60 ++ abiEncodeUint 0x140 ++ abiEncodeUint 0x1a0 ++
    abiEncodeBytes message ++ abiEncodeBytes secpSignature ++ abiEncodeBytes blsSignature)
    sender stake

/-- A new validator whose keys are the number `key`, with blank signatures. -/
def register (key : Nat) (auth : Address) (commission : Nat) (sender : Address) (stake : Nat) : Call :=
  addValidator (storeBe 33 key) (storeBe 48 key) auth commission (List.replicate 64 0)
    (List.replicate 96 0) sender stake

def delegate (v : ValId) (sender : Address) (value : Nat) : Call :=
  callMethod 0x84994fec (abiEncodeUint v.toNat) sender value

def undelegate (v : ValId) (amount : Nat) (i : WithdrawalId) (sender : Address) : Call :=
  callMethod 0x5cf41514 (abiEncodeUint v.toNat ++ abiEncodeUint amount ++ abiEncodeUint i.toNat) sender 0

def withdraw (v : ValId) (i : WithdrawalId) (sender : Address) : Call :=
  callMethod 0xaed2ee73 (abiEncodeUint v.toNat ++ abiEncodeUint i.toNat) sender 0

def claimRewards (v : ValId) (sender : Address) : Call := callMethod 0xa76e2ca5 (abiEncodeUint v.toNat) sender 0

def getDelegator (v : ValId) (a : Address) (sender : Address) : Call :=
  callMethod 0x573c1ce0 (abiEncodeUint v.toNat ++ abiEncodeUint a.toNat) sender 0

def reward (author : Address) (value : Nat) : Call := callSystem 0x791bdcf3 (abiEncodeUint author.toNat) value

def snapshot : Call := callSystem 0x157eeb21 [] 0

def onEpochChange (next : Nat) : Call := callSystem 0x1d4e9f02 (abiEncodeUint next) 0

end Call

end MonadExecution.Staking
