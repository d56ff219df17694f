import MonadExecution.Ethereum.Account

/-!
# Decoding RLP

An item is a string or a list; its first byte says which, and how long it is or how many bytes its length
takes. The `parse` functions take one item off the front of the input and return what is inside it, with
the rest of the input.
-/

namespace MonadExecution.Ethereum.Rlp

inductive DecodeError
  | typeUnexpected | overflow | inputTooLong | inputTooShort | arrayLengthUnexpected | leadingZero
  | pathTooShort | pathTooLong
  deriving DecidableEq, Repr

inductive RlpType
  | string | list
  deriving DecidableEq, Repr

abbrev Result := Except DecodeError

/-- The number a big-endian byte string stands for. -/
def ofBigEndian (bs : Bytes) : Nat := bs.foldl (fun n b => n * 256 + b.toNat) 0

/-- The big-endian bytes of a number. -/
def toBigEndian (size n : Nat) : Bytes := (List.range size).map fun i => UInt8.ofNat (n / 256 ^ (size - 1 - i))

/-- A number of at most `size` bytes, without leading zeros. -/
def decodeRawNum (size : Nat) (enc : Bytes) : Result Nat :=
  if size < enc.length then .error .overflow
  else match enc with
    | [] => .ok 0
    | b :: _ => if b = 0 then .error .leadingZero else .ok (ofBigEndian enc)

def decodeLength (enc : Bytes) : Result Nat := decodeRawNum 8 enc

/-- `length` bytes behind a header of `i` bytes. -/
def extractPayload (enc : Bytes) (i length : Nat) : Result (Bytes × Bytes) :=
  if enc.length < i + length then .error .inputTooShort
  else .ok ((enc.drop i).take length, enc.drop (i + length))

/-- The payload of an item whose length takes `lengthOfLength` bytes. -/
def extractLong (enc : Bytes) (lengthOfLength : Nat) : Result (Bytes × Bytes) :=
  if enc.length ≤ 1 + lengthOfLength then .error .inputTooShort
  else do
    let length ← decodeLength ((enc.drop 1).take lengthOfLength)
    if length < 56 then .error .typeUnexpected
    else extractPayload enc (1 + lengthOfLength) length

/-- `detail::parse_string_metadata`, for an input that begins with `b`. -/
def stringPayload (b : UInt8) (enc : Bytes) : Result (Bytes × Bytes) :=
  if b < 0x80 then extractPayload enc 0 1
  else if b < 0xb8 then
    match b.toNat - 0x80, enc with
    | 1, [_] => .error .inputTooShort
    | 1, _ :: c :: _ => if c < 0x80 then .error .typeUnexpected else extractPayload enc 1 1
    | length, _ => extractPayload enc 1 length
  else extractLong enc (b.toNat - 0xb7)

/-- `detail::parse_list_metadata`, for an input that begins with `b`. -/
def listPayload (b : UInt8) (enc : Bytes) : Result (Bytes × Bytes) :=
  if b < 0xf8 then extractPayload enc 1 (b.toNat - 0xc0)
  else extractLong enc (b.toNat - 0xf7)

def parseMetadata (enc : Bytes) : Result (RlpType × Bytes × Bytes) :=
  match enc with
  | [] => .error .inputTooShort
  | b :: _ =>
    if b < 0xc0 then (stringPayload b enc).map fun p => (.string, p)
    else (listPayload b enc).map fun p => (.list, p)

def parseStringMetadata (enc : Bytes) : Result (Bytes × Bytes) :=
  match enc with
  | [] => .error .inputTooShort
  | b :: _ => if 0xc0 ≤ b then .error .typeUnexpected else stringPayload b enc

def parseListMetadata (enc : Bytes) : Result (Bytes × Bytes) :=
  match enc with
  | [] => .error .inputTooShort
  | b :: _ => if b < 0xc0 then .error .typeUnexpected else listPayload b enc

def decodeString (enc : Bytes) : Result (Bytes × Bytes) := parseStringMetadata enc

/-- `decode_unsigned` of an integer of `size` bytes. -/
def decodeUnsigned (size : Nat) (enc : Bytes) : Result (Nat × Bytes) := do
  let (payload, enc) ← parseStringMetadata enc
  let n ← decodeRawNum size payload
  return (n, enc)

def decodeBytes32 (enc : Bytes) : Result (Bytes32 × Bytes) := do
  let (payload, enc) ← parseStringMetadata enc
  if payload.length ≠ 32 then .error .arrayLengthUnexpected
  else return (BitVec.ofNat 256 (ofBigEndian payload), enc)

/-- A word without its leading zeros. -/
def decodeBytes32Compact (enc : Bytes) : Result (Bytes32 × Bytes) := do
  let (payload, enc) ← decodeString enc
  if 32 < payload.length then .error .inputTooLong
  else return (BitVec.ofNat 256 (ofBigEndian payload), enc)

/-- An account and the root of its storage. -/
def decodeAccount (enc : Bytes) : Result ((Account × Bytes32) × Bytes) := do
  let (payload, enc) ← parseListMetadata enc
  let (nonce, payload) ← decodeUnsigned 8 payload
  let (balance, payload) ← decodeUnsigned 32 payload
  let (storageRoot, payload) ← decodeBytes32 payload
  let (codeHash, payload) ← decodeBytes32 payload
  if payload ≠ [] then .error .inputTooLong
  else return (({ balance, codeHash, nonce }, storageRoot), enc)

/-! ## Parsing takes something off the input -/

variable {enc p rest : Bytes}

theorem extractPayload_rest {i length : Nat} (h : extractPayload enc i length = .ok (p, rest))
    (hpos : 0 < i + length) : rest.length < enc.length ∧ p.length ≤ enc.length := by
  unfold extractPayload at h
  split at h
  · cases h
  cases h
  rw [List.length_drop, List.length_take, List.length_drop]
  omega

theorem extractLong_rest {l : Nat} (h : extractLong enc l = .ok (p, rest)) :
    rest.length < enc.length ∧ p.length ≤ enc.length := by
  unfold extractLong at h
  split at h
  · cases h
  cases hl : decodeLength ((enc.drop 1).take l) with
  | error e => simp only [hl, bind, Except.bind, reduceCtorEq] at h
  | ok length =>
    simp only [hl, bind, Except.bind] at h
    split at h
    · cases h
    · exact extractPayload_rest h (by omega)

theorem stringPayload_rest {b : UInt8} (h : stringPayload b enc = .ok (p, rest)) :
    rest.length < enc.length ∧ p.length ≤ enc.length := by
  unfold stringPayload at h
  split at h
  · exact extractPayload_rest h (by omega)
  split at h
  · split at h
    · cases h
    · split at h
      · cases h
      · exact extractPayload_rest h (by omega)
    · exact extractPayload_rest h (by omega)
  · exact extractLong_rest h

theorem parseStringMetadata_rest (h : parseStringMetadata enc = .ok (p, rest)) : rest.length < enc.length := by
  unfold parseStringMetadata at h
  split at h
  · cases h
  split at h
  · cases h
  · exact (stringPayload_rest h).1

end MonadExecution.Ethereum.Rlp
