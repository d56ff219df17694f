import MonadExecution.Staking.Abi

/-!
# The storage layout of the staking contract

All variables of the contract live in the storage of one account. The first byte of a storage key is
a namespace; a mapping packs its keys behind it and leaves the last bytes of the key for the slots of
its record. A handle of the contract, a `StorageVariable`, occupies as many slots as its type needs,
from the key of its record and its offset in the record on. Different handles never share a slot.
-/

namespace MonadExecution.Staking

open List BitVec Nat

/-- A storage key or a storage word, `bytes32_t`. -/
abbrev Bytes32 := BitVec 256

/-- The storage of the contract's account. -/
abbrev Storage := Bytes32 → Bytes32

/-! ## Cells -/

/-- The single-slot variables under namespace 0. -/
inductive Constant
  | epoch | inEpochDelayPeriod | lastValId | proposerValId
  deriving DecidableEq, Repr

inductive Valset
  | execution | consensus | snapshot
  deriving DecidableEq, Repr

/-- A variable, or a mapping with the key of one of its entries. -/
inductive Cell
  | constant (k : Constant)
  | valset (s : Valset)
  | consensusView (v : ValId)
  | snapshotView (v : ValId)
  | valId (secpEthAddress : Address)
  | valIdBls (blsEthAddress : Address)
  /-- the first 56 bits of the validator ids in the bucket -/
  | valBitsetBucket (bucket : BitVec 56)
  | valExecution (v : ValId)
  | accumulatedRewardPerToken (epoch : BitVec 64) (v : ValId)
  | delegator (v : ValId) (a : Address)
  | withdrawalRequest (v : ValId) (a : Address) (i : WithdrawalId)
  deriving DecidableEq, Repr

def Constant.key : Constant → Bytes32
  | .epoch => 1
  | .inEpochDelayPeriod => 2
  | .lastValId => 3
  | .proposerValId => 4

def Constant.ofIndex : Nat → Constant
  | 1 => .epoch
  | 2 => .inEpochDelayPeriod
  | 3 => .lastValId
  | _ => .proposerValId

def Valset.namespace : Valset → BitVec 8
  | .execution => 0x01
  | .consensus => 0x02
  | .snapshot => 0x03

namespace Cell

/-- The storage key of the first slot: the bytes of the key structs, in their order. -/
def key : Cell → Bytes32
  | .constant k => k.key
  | .valset s => s.namespace ++ 0#248
  | .consensusView v => 0x04#8 ++ v ++ 0#184
  | .snapshotView v => 0x05#8 ++ v ++ 0#184
  | .valId a => 0x06#8 ++ a ++ 0#88
  | .valIdBls a => 0x07#8 ++ a ++ 0#88
  | .valBitsetBucket bucket => 0x08#8 ++ (0#8 ++ bucket) ++ 0#184
  | .valExecution v => 0x09#8 ++ v ++ 0#184
  | .accumulatedRewardPerToken e v => 0x0A#8 ++ e ++ v ++ 0#120
  | .delegator v a => 0x0B#8 ++ v ++ a ++ 0#24
  | .withdrawalRequest v a i => 0x0C#8 ++ v ++ a ++ i ++ 0#16

/-- The slots of the record. An array has its length in the first slot, and the elements of all
64-bit indices behind it. -/
def slots : Cell → Nat
  | .constant _ | .valId _ | .valIdBls _ | .valBitsetBucket _ => 1
  | .valset _ => 1 + 2 ^ 64
  | .consensusView _ | .snapshotView _ | .accumulatedRewardPerToken _ _ => 2
  | .valExecution _ | .delegator _ _ => 8
  | .withdrawalRequest _ _ _ => 3

def slotKey (c : Cell) (i : Nat) : Bytes32 := c.key + BitVec.ofNat 256 i

/-- The number of the namespace. -/
def ns : Cell → Nat
  | .constant _ => 0
  | .valset s => s.namespace.toNat
  | .consensusView _ => 4
  | .snapshotView _ => 5
  | .valId _ => 6
  | .valIdBls _ => 7
  | .valBitsetBucket _ => 8
  | .valExecution _ => 9
  | .accumulatedRewardPerToken _ _ => 10
  | .delegator _ _ => 11
  | .withdrawalRequest _ _ _ => 12

end Cell

/-! ## Keys as numbers -/

theorem toNat_pack {m n : Nat} (x : BitVec m) (y : BitVec n) : (x ++ y).toNat = x.toNat * 2 ^ n + y.toNat := by
  rw [toNat_append, ← Nat.shiftLeft_add_eq_or_of_lt y.isLt, Nat.shiftLeft_eq]

/-- A number is determined by its quotient and its remainder. -/
theorem pack_inj {m x y x' y' : Nat} (hy : y < m) (hy' : y' < m) (h : x * m + y = x' * m + y') : x = x' ∧ y = y' := by
  have hx : x = x' := by
    have hdiv := congrArg (· / m) h
    simpa [mul_comm _ m, mul_add_div (zero_lt_of_lt hy), div_eq_of_lt hy,
      div_eq_of_lt hy'] using hdiv
  subst hx
  exact ⟨rfl, add_left_cancel h⟩

namespace Cell

/-- What stands behind the namespace: the keys of the mapping, as a number of the record. -/
def index : Cell → Nat
  | .constant k => k.key.toNat
  | .valset _ => 0
  | .consensusView v | .snapshotView v | .valExecution v => v.toNat
  | .valId a | .valIdBls a => a.toNat
  | .valBitsetBucket bucket => bucket.toNat
  | .accumulatedRewardPerToken e v => e.toNat * 2 ^ 64 + v.toNat
  | .delegator v a => v.toNat * 2 ^ 160 + a.toNat
  | .withdrawalRequest v a i => (v.toNat * 2 ^ 160 + a.toNat) * 2 ^ 8 + i.toNat

/-- The room for the slots of a record behind the keys, in each namespace. -/
def room : Nat → Nat
  | 0 => 1
  | 1 | 2 | 3 => 2 ^ 248
  | 6 | 7 => 2 ^ 88
  | 10 => 2 ^ 120
  | 11 => 2 ^ 24
  | 12 => 2 ^ 16
  | _ => 2 ^ 184

theorem toNat_key (c : Cell) : c.key.toNat = c.ns * 2 ^ 248 + c.index * room c.ns := by
  cases c with
  | constant k => simp [key, ns, index, room]
  | valset s => cases s <;> decide
  | _ =>
    simp only [key, ns, index, room, toNat_pack, toNat_ofNat]
    omega

theorem slots_le_room (c : Cell) : c.slots ≤ room c.ns := by
  cases c with
  | valset s => cases s <;> decide
  | _ => simp [slots, ns, room]

/-- The records of a namespace fill at most the namespace. -/
theorem index_lt (c : Cell) : (c.index + 1) * room c.ns ≤ 2 ^ 248 := by
  cases c with
  | constant k => cases k <;> decide
  | valset s => cases s <;> decide
  | _ =>
    simp only [index, ns, room]
    omega

theorem ns_lt (c : Cell) : c.ns < 2 ^ 8 := by
  cases c with
  | valset s => exact s.namespace.isLt
  | _ => simp [ns]

theorem toNat_slotKey {c : Cell} {i : Nat} (h : i < c.slots) :
    (c.slotKey i).toNat = c.ns * 2 ^ 248 + (c.index * room c.ns + i) ∧ c.index * room c.ns + i < 2 ^ 248 := by
  have hroom := c.slots_le_room
  have hidx := c.index_lt
  have hns := c.ns_lt
  rw [Nat.add_mul, Nat.one_mul] at hidx
  have hlt : c.index * room c.ns + i < 2 ^ 248 := by omega
  refine ⟨?_, hlt⟩
  rw [slotKey, toNat_add, toNat_ofNat, toNat_key, Nat.mod_eq_of_lt (by omega),
    Nat.mod_eq_of_lt (by omega), Nat.add_assoc]

/-- The cell with a number in a namespace. -/
def ofIndex (n : Nat) : Nat → Cell
  | 0 => .constant (Constant.ofIndex n)
  | 1 => .valset .execution
  | 2 => .valset .consensus
  | 3 => .valset .snapshot
  | 4 => .consensusView (BitVec.ofNat 64 n)
  | 5 => .snapshotView (BitVec.ofNat 64 n)
  | 6 => .valId (BitVec.ofNat 160 n)
  | 7 => .valIdBls (BitVec.ofNat 160 n)
  | 8 => .valBitsetBucket (BitVec.ofNat 56 n)
  | 9 => .valExecution (BitVec.ofNat 64 n)
  | 10 => .accumulatedRewardPerToken (BitVec.ofNat 64 (n / 2 ^ 64)) (BitVec.ofNat 64 n)
  | 11 => .delegator (BitVec.ofNat 64 (n / 2 ^ 160)) (BitVec.ofNat 160 n)
  | _ => .withdrawalRequest (BitVec.ofNat 64 (n / 2 ^ 168)) (BitVec.ofNat 160 (n / 2 ^ 8)) (BitVec.ofNat 8 n)

theorem ofNat_eq {w n : Nat} {x : BitVec w} (h : n % 2 ^ w = x.toNat) : BitVec.ofNat w n = x :=
  BitVec.eq_of_toNat_eq (by rw [BitVec.toNat_ofNat, h])

/-- A cell is determined by its namespace and its number in it. -/
theorem ofIndex_index (c : Cell) : ofIndex c.index c.ns = c := by
  cases c with
  | constant k => cases k <;> rfl
  | valset s => cases s <;> rfl
  | consensusView v | snapshotView v | valExecution v | valId a | valIdBls a | valBitsetBucket a =>
    simp [ofIndex, index, ns]
  | accumulatedRewardPerToken e v =>
    simp only [ofIndex, index, ns]
    rw [ofNat_eq (x := e) (by omega), ofNat_eq (x := v) (by omega)]
  | delegator v a =>
    simp only [ofIndex, index, ns]
    rw [ofNat_eq (x := v) (by omega), ofNat_eq (x := a) (by omega)]
  | withdrawalRequest v a i =>
    simp only [ofIndex, index, ns]
    rw [ofNat_eq (x := v) (by omega), ofNat_eq (x := a) (by omega), ofNat_eq (x := i) (by omega)]

/-- Different slots of different records have different keys. -/
theorem slotKey_inj {c c' : Cell} {i i' : Nat} (hi : i < c.slots) (hi' : i' < c'.slots)
    (h : c.slotKey i = c'.slotKey i') : c = c' ∧ i = i' := by
  obtain ⟨hkey, hlt⟩ := toNat_slotKey hi
  obtain ⟨hkey', hlt'⟩ := toNat_slotKey hi'
  have heq := congrArg BitVec.toNat h
  rw [hkey, hkey'] at heq
  obtain ⟨hns, hrest⟩ := pack_inj hlt hlt' heq
  rw [hns] at hrest
  obtain ⟨hidx, rfl⟩ := pack_inj (hns ▸ hi.trans_le c.slots_le_room) (hi'.trans_le c'.slots_le_room) hrest
  refine ⟨?_, rfl⟩
  rw [← ofIndex_index c, ← ofIndex_index c', hns, hidx]

end Cell

/-! ## Handles -/

/-- A handle for a value of `size` bytes, from slot `offset` on. -/
structure StorageVariable where
  offset : Bytes32
  size : Nat

/-- The slots that `size` bytes need. -/
def slotCount (size : Nat) : Nat := (size + 31) / 32

/-- Slot `i` of a value, whose tail is padded with zeros. -/
def toSlot (value : Bytes) (i : Nat) : Bytes32 :=
  let bytes := (value.drop (32 * i)).take 32
  BitVec.ofNat 256 (loadBe (bytes ++ List.replicate (32 - bytes.length) 0))

/-- The bytes of a word, the first one first. -/
def slotBytes (slot : Bytes32) : Bytes := (List.range 32).map fun i => UInt8.ofNat (slot.toNat / 256 ^ (31 - i))

def fromSlots (size : Nat) (slots : List Bytes32) : Bytes := (slots.flatMap slotBytes).take size

namespace StorageVariable

def slot (x : StorageVariable) (i : Nat) : Bytes32 := x.offset + BitVec.ofNat 256 i

def load (x : StorageVariable) (s : Storage) : Bytes :=
  fromSlots x.size ((List.range (slotCount x.size)).map fun i => s (x.slot i))

def store (x : StorageVariable) (value : Bytes) (s : Storage) : Storage :=
  (List.range (slotCount x.size)).foldl (fun s i => Function.update s (x.slot i) (toSlot value i)) s

/-- A store changes no slot but its own. -/
theorem store_of_ne {x : StorageVariable} {k : Bytes32} (value : Bytes) (s : Storage)
    (h : ∀ i, i < slotCount x.size → x.slot i ≠ k) : x.store value s k = s k := by
  unfold store
  have hmem : ∀ i ∈ range (slotCount x.size), x.slot i ≠ k := fun i hi => h i (mem_range.mp hi)
  generalize range (slotCount x.size) = is at hmem
  induction is generalizing s with
  | nil => rfl
  | cons i is ih =>
    rw [foldl_cons, ih _ fun j hj => hmem j (mem_cons_of_mem i hj)]
    exact Function.update_of_ne (hmem i mem_cons_self).symm _ _

end StorageVariable

/-! ## The variables of the contract -/

inductive ViewField
  | stake | commission
  deriving DecidableEq, Repr

inductive ValExecutionField
  | stake | rewardsPerToken | commission | keys | addressFlags | unclaimedRewards
  deriving DecidableEq, Repr

inductive DelegatorField
  | stake | rewardsPerToken | rewards | deltaStake | nextDeltaStake | epochs | listNode
  deriving DecidableEq, Repr

/-- Everything that `Variables` and the records it returns hand out a handle for. -/
inductive Variable
  | constant (k : Constant)
  | length (s : Valset)
  | element (s : Valset) (index : BitVec 64)
  | consensusView (v : ValId) (field : ViewField)
  | snapshotView (v : ValId) (field : ViewField)
  | valId (secpEthAddress : Address)
  | valIdBls (blsEthAddress : Address)
  | valBitsetBucket (bucket : BitVec 56)
  | valExecution (v : ValId) (field : ValExecutionField)
  | accumulatedRewardPerToken (epoch : BitVec 64) (v : ValId)
  | delegator (v : ValId) (a : Address) (field : DelegatorField)
  | withdrawalRequest (v : ValId) (a : Address) (i : WithdrawalId)
  deriving DecidableEq, Repr

/-! The sizes of the fields in bytes, and their offsets in slots: each field starts where the one
before it ends. -/

def ViewField.offset : ViewField → Nat
  | .stake => 0
  | .commission => slotCount 32

def ValExecutionField.size : ValExecutionField → Nat
  | .stake | .rewardsPerToken | .commission | .unclaimedRewards => 32
  | .keys => 33 + 48
  | .addressFlags => 20 + 8

def ValExecutionField.offset : ValExecutionField → Nat
  | .stake => 0
  | .rewardsPerToken => 0 + slotCount (size .stake)
  | .commission => 0 + slotCount (size .stake) + slotCount (size .rewardsPerToken)
  | .keys => 0 + slotCount (size .stake) + slotCount (size .rewardsPerToken) + slotCount (size .commission)
  | .addressFlags => 0 + slotCount (size .stake) + slotCount (size .rewardsPerToken) +
      slotCount (size .commission) + slotCount (size .keys)
  | .unclaimedRewards => 0 + slotCount (size .stake) + slotCount (size .rewardsPerToken) +
      slotCount (size .commission) + slotCount (size .keys) + slotCount (size .addressFlags)

def DelegatorField.size : DelegatorField → Nat
  | .stake | .rewardsPerToken | .rewards | .deltaStake | .nextDeltaStake => 32
  | .epochs => 8 + 8
  | .listNode => 8 + 8 + 20 + 20

def DelegatorField.offset : DelegatorField → Nat
  | .stake => 0
  | .rewardsPerToken => 0 + slotCount (size .stake)
  | .rewards => 0 + slotCount (size .stake) + slotCount (size .rewardsPerToken)
  | .deltaStake => 0 + slotCount (size .stake) + slotCount (size .rewardsPerToken) + slotCount (size .rewards)
  | .nextDeltaStake => 0 + slotCount (size .stake) + slotCount (size .rewardsPerToken) +
      slotCount (size .rewards) + slotCount (size .deltaStake)
  | .epochs => 0 + slotCount (size .stake) + slotCount (size .rewardsPerToken) +
      slotCount (size .rewards) + slotCount (size .deltaStake) + slotCount (size .nextDeltaStake)
  | .listNode => 0 + slotCount (size .stake) + slotCount (size .rewardsPerToken) +
      slotCount (size .rewards) + slotCount (size .deltaStake) + slotCount (size .nextDeltaStake) +
      slotCount (size .epochs)

/-! The field that a slot of a record belongs to. -/

def ViewField.ofSlot : Nat → ViewField
  | 0 => .stake
  | _ => .commission

def ValExecutionField.ofSlot : Nat → ValExecutionField
  | 0 => .stake
  | 1 => .rewardsPerToken
  | 2 => .commission
  | 3 | 4 | 5 => .keys
  | 6 => .addressFlags
  | _ => .unclaimedRewards

def DelegatorField.ofSlot : Nat → DelegatorField
  | 0 => .stake
  | 1 => .rewardsPerToken
  | 2 => .rewards
  | 3 => .deltaStake
  | 4 => .nextDeltaStake
  | 5 => .epochs
  | _ => .listNode

theorem ViewField.ofSlot_offset (field : ViewField) :
    ∀ i < slotCount 32, field.offset + i < 2 ∧ ofSlot (field.offset + i) = field := by cases field <;> decide

theorem ValExecutionField.ofSlot_offset (field : ValExecutionField) :
    ∀ i < slotCount field.size, field.offset + i < 8 ∧ ofSlot (field.offset + i) = field := by cases field <;> decide

theorem DelegatorField.ofSlot_offset (field : DelegatorField) :
    ∀ i < slotCount field.size, field.offset + i < 8 ∧ ofSlot (field.offset + i) = field := by cases field <;> decide

namespace Variable

/-- The record a variable is in. -/
def cell : Variable → Cell
  | .constant k => .constant k
  | .length s | .element s _ => .valset s
  | .consensusView v _ => .consensusView v
  | .snapshotView v _ => .snapshotView v
  | .valId a => .valId a
  | .valIdBls a => .valIdBls a
  | .valBitsetBucket bucket => .valBitsetBucket bucket
  | .valExecution v _ => .valExecution v
  | .accumulatedRewardPerToken e v => .accumulatedRewardPerToken e v
  | .delegator v a _ => .delegator v a
  | .withdrawalRequest v a i => .withdrawalRequest v a i

/-- The first slot of a variable in its record. -/
def first : Variable → Nat
  | .element _ index => 1 + index.toNat
  | .consensusView _ field | .snapshotView _ field => field.offset
  | .valExecution _ field => field.offset
  | .delegator _ _ field => field.offset
  | _ => 0

def size : Variable → Nat
  | .constant .inEpochDelayPeriod => 1
  | .constant _ | .length _ | .element _ _ | .valId _ | .valIdBls _ => 8
  | .consensusView _ _ | .snapshotView _ _ | .valBitsetBucket _ => 32
  | .valExecution _ field => field.size
  | .accumulatedRewardPerToken _ _ => 32 + 32
  | .delegator _ _ field => field.size
  | .withdrawalRequest _ _ _ => 32 + 32 + 8

/-- The handle that the contract makes for a variable. -/
def handle (x : Variable) : StorageVariable := ⟨x.cell.key + BitVec.ofNat 256 x.first, x.size⟩

theorem slot_handle (x : Variable) (i : Nat) : x.handle.slot i = x.cell.slotKey (x.first + i) := by
  unfold handle StorageVariable.slot Cell.slotKey
  rw [ofNat_add, add_assoc]

/-- The variable that owns a slot of a record. -/
def owner (n : Nat) : Cell → Variable
  | .constant k => .constant k
  | .valset s => if n = 0 then .length s else .element s (BitVec.ofNat 64 (n - 1))
  | .consensusView v => .consensusView v (.ofSlot n)
  | .snapshotView v => .snapshotView v (.ofSlot n)
  | .valId a => .valId a
  | .valIdBls a => .valIdBls a
  | .valBitsetBucket bucket => .valBitsetBucket bucket
  | .valExecution v => .valExecution v (.ofSlot n)
  | .accumulatedRewardPerToken e v => .accumulatedRewardPerToken e v
  | .delegator v a => .delegator v a (.ofSlot n)
  | .withdrawalRequest v a i => .withdrawalRequest v a i

/-- A variable stays in its record, and owns its slots. -/
theorem owner_slot (x : Variable) {i : Nat} (hi : i < slotCount x.size) :
    x.first + i < x.cell.slots ∧ owner (x.first + i) x.cell = x := by
  cases x with
  | constant k =>
    refine ⟨?_, rfl⟩
    cases k <;> simpa [size, slotCount, first, cell, Cell.slots] using hi
  | length s =>
    have hzero : i = 0 := by simpa [size, slotCount] using hi
    subst hzero
    exact ⟨by simp [first, cell, Cell.slots], rfl⟩
  | element s index =>
    have hzero : i = 0 := by simpa [size, slotCount] using hi
    subst hzero
    refine ⟨?_, ?_⟩
    · show 1 + index.toNat + 0 < 1 + 2 ^ 64
      omega
    · simp [first, cell, owner]
  | consensusView v field | snapshotView v field =>
    obtain ⟨hlt, hfld⟩ := field.ofSlot_offset i hi
    exact ⟨hlt, by simp only [first, cell, owner, hfld]⟩
  | valExecution v field | delegator v a field =>
    obtain ⟨hlt, hfld⟩ := field.ofSlot_offset i hi
    exact ⟨hlt, by simp only [first, cell, owner, hfld]⟩
  | valId a | valIdBls a | valBitsetBucket bucket | accumulatedRewardPerToken e v
  | withdrawalRequest v a i => exact ⟨by simpa [size, slotCount, first, cell, Cell.slots] using hi, rfl⟩

/-- Different variables share no slot. -/
theorem slot_ne {x y : Variable} (hne : x ≠ y) {i j : Nat} (hi : i < slotCount x.size)
    (hj : j < slotCount y.size) : x.handle.slot i ≠ y.handle.slot j := by
  intro h
  obtain ⟨hlt, hx⟩ := x.owner_slot hi
  obtain ⟨hlt', hy⟩ := y.owner_slot hj
  rw [slot_handle, slot_handle] at h
  obtain ⟨hcell, hslot⟩ := Cell.slotKey_inj hlt hlt' h
  apply hne
  rw [← hx, ← hy, hcell, hslot]

end Variable

/-- The slots of all records have different storage keys; so a store to a variable never changes what
is loaded from another one. -/
theorem storage_never_aliases : (∀ (c c' : Cell) (i i' : Nat), i < c.slots → i' < c'.slots → (c, i) ≠ (c', i') →
      c.slotKey i ≠ c'.slotKey i') ∧
    ∀ (x y : Variable) (value : Bytes) (s : Storage), x ≠ y →
      y.handle.load (x.handle.store value s) = y.handle.load s := by
  refine ⟨fun c c' i i' hi hi' hne h => ?_, fun x y value s hne => ?_⟩
  · obtain ⟨rfl, rfl⟩ := Cell.slotKey_inj hi hi' h
    exact hne rfl
  unfold StorageVariable.load
  refine congrArg (fromSlots y.handle.size) (map_congr_left fun j hj => ?_)
  refine StorageVariable.store_of_ne value s fun i hi => ?_
  exact Variable.slot_ne hne hi (mem_range.mp hj)

end MonadExecution.Staking
