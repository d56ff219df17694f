import MonadExecution.Ethereum.Rlp
import MonadExecution.Lib.Concur

/-!
# The database behind a witness

`from_witness` builds a partial state trie from a root hash and a list of trie nodes. A node that the
witness does not have stays a stub with its hash, and reading through a stub aborts. A reference to a child
is a null pointer, a stub, a leaf, an extension or a branch; `ChildRef` has them all. The leaves of the
account trie hold the storage tries.

The hash is a parameter. `Failure.abort` stands for a failed assertion.
-/

namespace MonadExecution.Ethereum.PartialTrie

open Rlp

/-- The root of an empty trie. -/
def nullRoot : Bytes32 := 0x56e81f171bcc55a6ff8345e692c0f86e5b48e01b996cadc001622fb5e363b421#256

inductive Failure
  | decode (e : DecodeError)
  | abort
  deriving DecidableEq, Repr

abbrev Outcome := Except Failure

/-- `BOOST_OUTCOME_TRY` around the RLP functions. -/
def tried {α : Type} (x : Result α) : Outcome α := x.mapError .decode

abbrev Nibbles := List UInt8

def nibblesOf (bs : Bytes) : Nibbles := bs.flatMap fun b : UInt8 => [b >>> 4, b &&& 0x0f]

/-- The path of a leaf or an extension, and whether it is a leaf. -/
def compactDecode (enc : Bytes) : Result (Nibbles × Bool) :=
  match enc with
  | [] => .error .inputTooShort
  | b :: rest =>
    let terminating := b &&& 0x20 != 0
    let odd := b &&& 0x10 != 0
    let nibbleCount := rest.length * 2 + odd.toNat
    if b &&& 0xc0 ≠ 0 then .error .typeUnexpected
    else if odd = false ∧ b &&& 0x0f ≠ 0 then .error .typeUnexpected
    else if nibbleCount = 0 ∧ terminating = false then .error .pathTooShort
    else if 255 < nibbleCount then .error .pathTooLong
    else .ok ((if odd then [b &&& 0x0f] else []) ++ nibblesOf rest, terminating)

theorem nibblesOf_length (bs : Bytes) : (nibblesOf bs).length = bs.length * 2 := by
  unfold nibblesOf
  rw [List.length_flatMap]
  simp

/-- The path of an extension is not empty. -/
theorem compactDecode_extension {enc : Bytes} {path : Nibbles}
    (h : compactDecode enc = .ok (path, false)) : 0 < path.length := by
  cases enc with
  | nil => cases h
  | cons b rest =>
    unfold compactDecode at h
    dsimp only at h
    split_ifs at h with _ _ hsh _ hodd
    all_goals
      simp only [Except.ok.injEq, Prod.mk.injEq] at h
      obtain ⟨rfl, hterm⟩ := h
    · exact Nat.succ_pos _
    · rw [List.nil_append, nibblesOf_length]
      apply Nat.pos_of_ne_zero
      intro hzero
      exact hsh ⟨by simp [hzero, hodd], hterm⟩

/-- A reference to a node of a partial trie with values in `T`. -/
inductive ChildRef (T : Type)
  | null
  | stub (hash : Bytes32)
  | leaf (path : Nibbles) (value : T)
  | extension (path : Nibbles) (child : ChildRef T)
  | branch (children : Fin 16 → ChildRef T) (value : Option T)

/-- The nodes of a witness, under their hashes. -/
abbrev NodeIndex := Bytes32 → Option Bytes

section Decode

variable {T : Type} (nodes : NodeIndex) (decodeValue : Bytes → Outcome T)

/-- The node with a hash: the end of `decode_child_ref`. The decoding of a node is a parameter. -/
def decodeHashRef (decodeNode : Bytes → Outcome (ChildRef T)) (hash : Bytes32) : Outcome (ChildRef T) :=
  if hash = nullRoot then .ok .null
  else match nodes hash with
    | none => .ok (.stub hash)
    | some node => do
      let (payload, rest) ← tried (parseListMetadata node)
      if rest ≠ [] then .error (.decode .inputTooLong) else decodeNode payload

/-- `decode_child_ref`. -/
def decodeChildRef (decodeNode : Bytes → Outcome (ChildRef T)) (ty : RlpType) (enc : Bytes) : Outcome (ChildRef T) :=
  match ty with
  | .list =>
    -- an embedded node
    if 30 < enc.length then .error (.decode .inputTooLong) else decodeNode enc
  | .string =>
    if enc = [] then .ok .null
    else if enc.length < 32 then .error (.decode .inputTooShort)
    else if 32 < enc.length then .error (.decode .inputTooLong)
    else decodeHashRef nodes decodeNode (BitVec.ofNat 256 (ofBigEndian enc))

/-- The first `n` children of a branch, in order. -/
def decodeChildren (decodeChild : RlpType → Bytes → Outcome (ChildRef T)) :
    Nat → Bytes → Outcome (List (ChildRef T) × Bytes)
  | 0, enc => .ok ([], enc)
  | n + 1, enc => do
    let (ty, payload, enc) ← tried (parseMetadata enc)
    let child ← decodeChild ty payload
    let (children, enc) ← decodeChildren decodeChild n enc
    return (child :: children, enc)

/-- A leaf or an extension, from its two items. -/
def decodeShortNode (decodeChild : Nat → RlpType → Bytes → Outcome (ChildRef T)) (pathSize : Nat)
    (key value : RlpType × Bytes) : Outcome (ChildRef T) :=
  if key.1 ≠ .string then .error (.decode .typeUnexpected)
  else do
    let (path, isLeaf) ← tried (compactDecode key.2)
    -- the assertion of `Nibbles`, whose length is a byte
    if 255 < pathSize + path.length then .error .abort
    else if 64 < pathSize + path.length then .error (.decode .pathTooLong)
    else if isLeaf then
      if value.1 ≠ .string then .error (.decode .typeUnexpected)
      else do
        let v ← decodeValue value.2
        return .leaf path v
    else do
      let child ← decodeChild (pathSize + path.length) value.1 value.2
      return .extension path child

/-- The value of a branch, which may have none. -/
def decodeBranchValue (v : Bytes) : Outcome (Option T) :=
  if v = [] then .ok none
  else do
    let value ← decodeValue v
    return some value

/-- A branch, from the sixteen children and the value. -/
def decodeBranch (decodeChild : Nat → RlpType → Bytes → Outcome (ChildRef T)) (pathSize : Nat)
    (enc : Bytes) : Outcome (ChildRef T) :=
  if 64 < pathSize + 1 then .error (.decode .pathTooLong)
  else do
    let (children, enc) ← decodeChildren (decodeChild (pathSize + 1)) 16 enc
    let (v, enc) ← tried (decodeString enc)
    let value ← decodeBranchValue decodeValue v
    if enc ≠ [] then .error (.decode .inputTooLong)
    else return .branch (fun i => children.getD i .null) value

/-- `decode_partial_node`, at a path of `pathSize` nibbles. Every level adds a nibble to the path, and
paths have at most 64 nibbles, so that the levels do not run out. -/
def decodePartialNode : (levels pathSize : Nat) → Bytes → Outcome (ChildRef T)
  | 0, _, _ => .error (.decode .pathTooLong)
  | levels + 1, pathSize, enc =>
    let decodeChild := fun size => decodeChildRef nodes (decodePartialNode levels size)
    if enc = [] then .error (.decode .inputTooShort)
    else do
      let (keyType, key, rest) ← tried (parseMetadata enc)
      let (valueType, value, rest) ← tried (parseMetadata rest)
      if rest = [] then decodeShortNode decodeValue decodeChild pathSize (keyType, key) (valueType, value)
      else decodeBranch decodeValue decodeChild pathSize enc

variable {decodeChild decodeChild' : Nat → RlpType → Bytes → Outcome (ChildRef T)} {pathSize : Nat}

section

variable (h : ∀ size, pathSize < size → size ≤ 64 → decodeChild size = decodeChild' size)

include h

/-- Short nodes only decode children at longer paths, of at most 64 nibbles. -/
theorem decodeShortNode_congr (key value : RlpType × Bytes) :
    decodeShortNode decodeValue decodeChild pathSize key value =
      decodeShortNode decodeValue decodeChild' pathSize key value := by
  unfold decodeShortNode
  split
  · rfl
  cases hpath : compactDecode key.2 with
  | error e => rfl
  | ok p =>
    obtain ⟨path, isLeaf⟩ := p
    simp only [tried, Except.mapError, bind, Except.bind]
    split_ifs with habort hlong hleaf
    · rfl
    · rfl
    · rfl
    · rfl
    · rw [Bool.not_eq_true] at hleaf
      have hpos := compactDecode_extension (hleaf ▸ hpath)
      rw [h (pathSize + path.length) (by omega) (by omega)]

theorem decodeBranch_congr (enc : Bytes) : decodeBranch decodeValue decodeChild pathSize enc =
    decodeBranch decodeValue decodeChild' pathSize enc := by
  unfold decodeBranch
  split
  · rfl
  · rw [h (pathSize + 1) (by omega) (by omega)]

end

/-- Levels beyond those that a path of 64 nibbles has room for change nothing. -/
theorem decodePartialNode_levels {levels : Nat} (hsize : pathSize ≤ 64) (hlevels : 65 ≤ levels + pathSize)
    (enc : Bytes) :
    decodePartialNode nodes decodeValue (levels + 1) pathSize enc =
      decodePartialNode nodes decodeValue levels pathSize enc := by
  induction levels generalizing pathSize enc with
  | zero => omega
  | succ levels ih =>
    have hchild : ∀ size, pathSize < size → size ≤ 64 →
        decodeChildRef nodes (decodePartialNode nodes decodeValue (levels + 1) size) =
          decodeChildRef nodes (decodePartialNode nodes decodeValue levels size) := by
      intro size hlt hle
      rw [funext (ih hle (by omega))]
    rw [decodePartialNode.eq_2, decodePartialNode.eq_2]
    dsimp only
    split
    · rfl
    congr 1
    funext key
    congr 1
    funext value
    split
    · exact decodeShortNode_congr decodeValue hchild _ _
    · exact decodeBranch_congr decodeValue hchild enc

/-- The trie with a root hash, which is 32 bytes long and begins at the empty path. -/
def decodeTrie (root : Bytes32) : Outcome (ChildRef T) :=
  decodeHashRef nodes (decodePartialNode nodes decodeValue 65 0) root

/-- Decoding goes no deeper than paths are long, also where nodes refer to each other in circles: with
more levels the result is the same. -/
theorem decodeTrie_depth (more : Nat) (root : Bytes32) :
    decodeHashRef nodes (decodePartialNode nodes decodeValue (65 + more) 0) root = decodeTrie nodes decodeValue root := by
  induction more with
  | zero => rfl
  | succ more ih =>
    rw [← ih]
    have hlevels := decodePartialNode_levels nodes decodeValue (Nat.zero_le 64) (Nat.le_add_right 65 more)
    exact congrArg (decodeHashRef nodes · root) (funext hlevels)

end Decode

/-! ## Values -/

/-- `StorageLeafValue::decode`. -/
def decodeStorageValue (enc : Bytes) : Outcome Bytes32 := do
  let (raw, rest) ← tried (decodeBytes32Compact enc)
  if rest ≠ [] then .error (.decode .inputTooLong) else return raw

structure AccountLeafValue where
  account : Account
  storage : ChildRef Bytes32

/-- `AccountLeafValue::decode`. -/
def decodeAccountValue (nodes : NodeIndex) (enc : Bytes) : Outcome AccountLeafValue := do
  let ((account, storageRoot), rest) ← tried (decodeAccount enc)
  if rest ≠ [] then .error (.decode .inputTooLong)
  else if storageRoot = nullRoot then return ⟨account, .null⟩
  else do
    let storage ← decodeTrie nodes decodeStorageValue storageRoot
    return ⟨account, storage⟩

/-! ## Reading -/

/-- The value of a key, if there is one; nothing if the lookup aborts. -/
def trieLookup {T : Type} : ChildRef T → Nibbles → Option (Option T)
  | .null, _ => some none
  | .stub _, _ => none
  | .leaf path value, remaining => some (if path = remaining then some value else none)
  | .extension path child, remaining =>
    if path.isPrefixOf remaining then trieLookup child (remaining.drop path.length) else some none
  | .branch _ value, [] => some value
  | .branch children _, nibble :: remaining => trieLookup (children (Fin.ofNat 16 nibble.toNat)) remaining

structure PartialTrieDb where
  root : ChildRef AccountLeafValue
  codes : Bytes32 → Option Bytes

section Witness

variable (keccak256 : Bytes → Bytes32)

/-- The nibbles of a hash. -/
def hashPath (bs : Bytes) : Nibbles := nibblesOf (toBigEndian 32 (keccak256 bs).toNat)

def PartialTrieDb.readAccount (db : PartialTrieDb) (addr : Address) : Option (Option Account) := do
  let result ← trieLookup db.root (hashPath keccak256 (toBigEndian 20 addr.toNat))
  return result.map (·.account)

def PartialTrieDb.readStorage (db : PartialTrieDb) (addr : Address) (slot : Bytes32) : Option Bytes32 := do
  let result ← trieLookup db.root (hashPath keccak256 (toBigEndian 20 addr.toNat))
  match result with
  | none => return 0
  | some acct =>
    let value ← trieLookup acct.storage (hashPath keccak256 (toBigEndian 32 slot.toNat))
    return value.getD 0

def PartialTrieDb.readCode (db : PartialTrieDb) (codeHash : Bytes32) : Bytes := (db.codes codeHash).getD []

/-- The strings of a list that is given by its payload. Every string takes at least a byte, so that the
fuel does not run out. -/
def parseStrings : (fuel : Nat) → Bytes → Result (List Bytes)
  | _, [] => .ok []
  | 0, _ :: _ => .error .inputTooShort
  | fuel + 1, b :: bs => do
    let (payload, rest) ← parseStringMetadata (b :: bs)
    let more ← parseStrings fuel rest
    return payload :: more

def witnessItems (enc : Bytes) : Result (List Bytes) := parseStrings enc.length enc

/-- The most bytes a code can have: `code_size_t` has 20 bits. -/
def codeSizeMax : Nat := 2 ^ 20 - 1

/-- The codes. The assertion is that of `Intercode`. -/
def parseCodes : (fuel : Nat) → Bytes → Outcome (List Bytes)
  | _, [] => .ok []
  | 0, _ :: _ => .error (.decode .inputTooShort)
  | fuel + 1, b :: bs => do
    let (payload, rest) ← tried (parseStringMetadata (b :: bs))
    if codeSizeMax < payload.length then .error .abort
    else do
      let more ← parseCodes fuel rest
      return payload :: more

/-- The items under their hashes; of two with one hash the first. -/
def indexByHash (items : List Bytes) : Bytes32 → Option Bytes := fun hash =>
  items.find? fun item => keccak256 item == hash

def fromWitness (preStateRoot : Bytes32) (encodedNodes encodedCodes : Bytes) : Outcome PartialTrieDb := do
  let nodes ← tried (witnessItems encodedNodes)
  let codes ← parseCodes encodedCodes.length encodedCodes
  let index := indexByHash keccak256 nodes
  let root ← decodeTrie index (decodeAccountValue index) preStateRoot
  return ⟨root, indexByHash keccak256 codes⟩

end Witness

end MonadExecution.Ethereum.PartialTrie
