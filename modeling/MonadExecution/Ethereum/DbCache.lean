import MonadExecution.Ethereum.Commit

/-!
# The read cache of the database

`DbCache` answers reads from the deltas of the proposals between the current block and the finalized one, and
below them from two LRU caches with what finalized blocks have written. It gives up, and the database is read, when
the chain of proposals is not complete or longer than five. The LRU caches are only filled when a block is
finalized, and emptied when its proposal is not there any more; they may drop an entry at any time.
-/

namespace MonadExecution.Ethereum

open Function

/-- `ProposalState` -/
structure ProposalState where
  state : Table Address StateDelta
  parent : Nat × Bytes32

/-- `DbCache` with its `Proposals`; the id zero stands for the finalized state. -/
structure DbCache where
  proposalMap : List ((Nat × Bytes32) × ProposalState) := []
  block : Nat := 0
  blockId : Bytes32 := 0
  finalizedBlock : Nat := 0
  finalizedBlockId : Bytes32 := 0
  accounts : Address → Option (Option Account) := fun _ => none
  storage : Address → Incarnation → Bytes32 → Option Bytes32 := fun _ _ _ => none

namespace DbCache

/-! ## Reading -/

def tryReadLoop {α : Type} (c : DbCache) (fn : Table Address StateDelta → Option α) :
    Nat → Nat × Bytes32 → Option α × Bool
  | 0, _ => (none, true)
  | depth + 1, at_ =>
    if at_.2 = c.finalizedBlockId then (none, false)
    else
      match c.proposalMap.lookup at_ with
      | none => (none, true)
      | some ps =>
        match fn ps.state with
        | some x => (some x, false)
        | none => tryReadLoop c fn depth ps.parent

/-- What is found in the proposals, and whether some of them are missing. -/
def tryRead {α : Type} (c : DbCache) (fn : Table Address StateDelta → Option α) : Option α × Bool :=
  if c.blockId = c.finalizedBlockId ∨ c.block = c.finalizedBlock ∧ c.blockId = 0 then (none, false)
  else if c.block ≤ c.finalizedBlock then (none, true)
  else c.tryReadLoop fn 5 (c.block, c.blockId)

def tryReadAccountFn (a : Address) (state : Table Address StateDelta) : Option (Option Account) :=
  (state.lookup a).map fun d => d.account.2

def tryReadStorageFn (a : Address) (incarnation : Incarnation) (key : Bytes32)
    (state : Table Address StateDelta) : Option Bytes32 :=
  match state.lookup a with
  | none => none
  | some d =>
    match d.account.2 with
    | none => some 0
    | some y => if y.incarnation ≠ incarnation then some 0 else (d.storage.lookup key).map Prod.snd

def tryReadAccount (c : DbCache) (a : Address) : Option (Option Account) :=
  match c.tryRead (tryReadAccountFn a) with
  | (some x, _) => some x
  | (none, false) => c.accounts a
  | (none, true) => none

def tryReadStorage (c : DbCache) (a : Address) (incarnation : Incarnation) (key : Bytes32) : Option Bytes32 :=
  match c.tryRead (tryReadStorageFn a incarnation key) with
  | (some x, _) => some x
  | (none, false) => c.storage a incarnation key
  | (none, true) => none

/-! ## Writing -/

def maxProposalMapSize : Nat := 100

/-- The order of the keys of the map. -/
def keyLt (x y : Nat × Bytes32) : Bool := x.1 < y.1 || (x.1 == y.1 && x.2 < y.2)

/-- The first key of the map. -/
def firstKey : List ((Nat × Bytes32) × ProposalState) → Option (Nat × Bytes32)
  | [] => none
  | e :: rest =>
    match firstKey rest with
    | none => some e.1
    | some k => some (if keyLt k e.1 then k else e.1)

def eraseKey (map : List ((Nat × Bytes32) × ProposalState)) (k : Nat × Bytes32) :
    List ((Nat × Bytes32) × ProposalState) :=
  map.filter fun e => decide (e.1 ≠ k)

/-- `truncate_proposal_map` -/
def truncate (map : List ((Nat × Bytes32) × ProposalState)) : List ((Nat × Bytes32) × ProposalState) :=
  match firstKey map with
  | none => map
  | some k => eraseKey map k

def commit (c : DbCache) (state : Table Address StateDelta) (number : Nat) (id : Bytes32) : DbCache :=
  { c with
    proposalMap := ((number, id), ⟨state, (c.block, c.blockId)⟩) ::
      (if maxProposalMapSize ≤ c.proposalMap.length then truncate c.proposalMap else c.proposalMap)
    block := number
    blockId := id }

/-- `insert_in_lru_caches` -/
def insertAccounts (c : DbCache) (state : Table Address StateDelta) (a : Address) : Option (Option Account) :=
  match state.lookup a with
  | some d => some d.account.2
  | none => c.accounts a

def insertStorage (c : DbCache) (state : Table Address StateDelta) (a : Address) (incarnation : Incarnation)
    (key : Bytes32) : Option Bytes32 :=
  match state.lookup a with
  | none => c.storage a incarnation key
  | some d =>
    match d.account.2 with
    | none => c.storage a incarnation key
    | some y =>
      if y.incarnation = incarnation then
        match d.storage.lookup key with
        | some slot => some slot.2
        | none => c.storage a incarnation key
      else c.storage a incarnation key

def onFinalize (c : DbCache) (number : Nat) (id : Bytes32) : DbCache :=
  match c.proposalMap.lookup (number, id) with
  | none =>
    { c with
      finalizedBlock := number
      finalizedBlockId := id
      accounts := fun _ => none
      storage := fun _ _ _ => none }
  | some ps =>
    { c with
      finalizedBlock := number
      finalizedBlockId := id
      proposalMap := c.proposalMap.filter fun e => decide (number < e.1.1)
      accounts := c.insertAccounts ps.state
      storage := c.insertStorage ps.state }

end DbCache

/-! ## The database -/

/-- `TrieDb`: the state of every block, under its number and id, and that of the finalized blocks under the id
zero. The last two fields record the parents of the blocks, and whether the last call other than an eviction
was `set_block_and_prefix` or `commit`. -/
structure TrieDb where
  roots : Nat → Bytes32 → Option Db
  blockNumber : Nat
  prefixId : Bytes32
  latestFinalized : Nat × Bytes32
  cache : DbCache := {}
  parents : Bytes32 → Nat × Bytes32 := fun _ => (0, 0)
  settled : Bool := false

namespace TrieDb

/-- The state at the current block. -/
def direct (t : TrieDb) : Option Db := t.roots t.blockNumber t.prefixId

def readAccount (t : TrieDb) (a : Address) : Option Account :=
  (t.cache.tryReadAccount a).getD (t.direct.bind fun db => db.readAccount a)

def readStorage (t : TrieDb) (a : Address) (incarnation : Incarnation) (key : Bytes32) : Bytes32 :=
  (t.cache.tryReadStorage a incarnation key).getD ((t.direct.map fun db => db.readStorage a key).getD 0)

def setBlockAndPrefix (t : TrieDb) (number : Nat) (id : Bytes32) : TrieDb :=
  { t with
    cache := { t.cache with block := number, blockId := id }
    blockNumber := number
    prefixId := id
    settled := true }

def setRoot (t : TrieDb) (number : Nat) (id : Bytes32) (db : Db) : Nat → Bytes32 → Option Db := fun n i =>
  if n = number ∧ i = id then some db else t.roots n i

def commit (t : TrieDb) (id : Bytes32) (state : Table Address StateDelta) (db : Db) : TrieDb :=
  { t with
    roots := t.setRoot (t.blockNumber + 1) id db
    parents := update t.parents id (t.cache.block, t.cache.blockId)
    blockNumber := t.blockNumber + 1
    prefixId := id
    cache := t.cache.commit state (t.blockNumber + 1) id
    settled := true }

def finalize (t : TrieDb) (number : Nat) (id : Bytes32) (db : Db) : TrieDb :=
  { t with
    roots := t.setRoot number 0 db
    latestFinalized := (number, id)
    blockNumber := number
    prefixId := 0
    cache := t.cache.onFinalize number id
    settled := false }

end TrieDb

/-- An account that a block creates or creates again is given the number of the block as incarnation. -/
def BlockState.Fresh (bs : BlockState) (number : Nat) : Prop :=
  ∀ a d y, bs.deltas.lookup a = some d → d.account.2 = some y →
    (bs.db.readAccount a).map (·.incarnation) = some y.incarnation ∨ y.incarnation.block.toNat = number

/-- A call that the database accepts, or an eviction. A block is committed on the block that the cache is at. -/
inductive TrieDb.Step : TrieDb → TrieDb → Prop
  | setBlockAndPrefix {t : TrieDb} {number : Nat} {id : Bytes32} (h : (t.roots number id).isSome) :
      Step t (t.setBlockAndPrefix number id)
  | commit {t : TrieDb} {id : Bytes32} {bs : BlockState} {db : Db} (hdirect : t.direct = some bs.db)
      (hnumber : t.cache.block = t.blockNumber) (hcache : t.roots t.cache.block t.cache.blockId = some bs.db)
      (hexact : Exact bs) (hfresh : bs.Fresh (t.blockNumber + 1)) (hid : id ≠ 0) (hnew : ∀ n, t.roots n id = none)
      (hcommit : bs.commit = some db) : Step t (t.commit id bs.deltas db)
  | finalize {t : TrieDb} {id : Bytes32} {db : Db} (hid : id ≠ 0)
      (hroot : t.roots (t.latestFinalized.1 + 1) id = some db)
      (hparent : t.parents id = (t.latestFinalized.1, 0) ∨ t.parents id = t.latestFinalized) :
      Step t (t.finalize (t.latestFinalized.1 + 1) id db)
  | evictAccount {t : TrieDb} (a : Address) :
      Step t { t with cache := { t.cache with accounts := update t.cache.accounts a none } }
  | evictStorage {t : TrieDb} (a : Address) (f : Incarnation → Bytes32 → Option Bytes32)
      (h : ∀ i key, f i key = none ∨ f i key = t.cache.storage a i key) :
      Step t { t with cache := { t.cache with storage := update t.cache.storage a f } }

/-- A database that has finalized a block before, and a new cache. -/
def TrieDb.opened (number : Nat) (db : Db) : TrieDb where
  roots := fun n id => if n = number ∧ id = 0 then some db else none
  blockNumber := number
  prefixId := 0
  latestFinalized := (number, 0)

end MonadExecution.Ethereum
