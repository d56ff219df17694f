import MonadExecution.Ethereum.State

/-!
# The block state

`BlockState` is what the transactions of one block share: for every address read or written so far the
account before the block and now, and for each of its slots likewise, over the database as the block
found it. A read that finds no entry takes the value from the database and leaves an entry, so that a
read changes the block state, although not what can be read from it. `canMerge` compares what a
transaction has read with the present contents, and `merge` adds what it has written.

`BlockState::merge` also collects the slots that were read in accounts it deletes. They are handed to
the block's statistics and read by nothing here, and are left out; so is the cache of compiled code in
front of the code table.
-/

namespace MonadExecution.Ethereum

/-- The database before the block: accounts with their storage, where a slot that is not stored reads
as zero, and codes by hash. -/
structure Db where
  state : Address → Option (Account × (Bytes32 → Bytes32))
  code : Bytes32 → Bytes

namespace Db

def readAccount (db : Db) (a : Address) : Option Account := (db.state a).map Prod.fst

def readStorage (db : Db) (a : Address) (key : Bytes32) : Bytes32 :=
  match db.state a with
  | some (_, storage) => storage key
  | none => 0

end Db

/-- An account before and after, and its slots before and after. An account that does not exist has no
slots. -/
structure StateDelta where
  account : Option Account × Option Account
  storage : Table Bytes32 (Bytes32 × Bytes32) := ∅
  cleared : account.2 = none → storage = ∅

/-- The first component of an account delta is the account of the database. -/
structure BlockState where
  db : Db
  deltas : Table Address StateDelta := ∅
  code : Table Bytes32 Bytes := ∅
  origins : ∀ a d, deltas.lookup a = some d → d.account.1 = db.readAccount a

/-- The block state at the start of a block. -/
def BlockState.start (db : Db) : BlockState where
  db := db
  origins := by simp

namespace BlockState

/-! ## Reading -/

def readAccount (bs : BlockState) (a : Address) : Option Account × BlockState :=
  match bs.deltas.lookup a with
  | some d => (d.account.2, bs)
  | none =>
    let result := bs.db.readAccount a
    let d : StateDelta := { account := (result, result), cleared := fun _ => rfl }
    (result, { bs with
      deltas := bs.deltas.insert a d
      origins := by
        intro b d' hd'
        rw [Table.lookup_insert_ite] at hd'
        split_ifs at hd' with hb
        · cases hd'
          rw [hb]
        · exact bs.origins b d' hd' })

/-- A slot is read in one life of its account: there is nothing to read in another one, and the
database is asked only if the account is still in the life it has there. The account must have been
read before. -/
def readStorage (bs : BlockState) (a : Address) (incarnation : Incarnation) (key : Bytes32) :
    Option (Bytes32 × BlockState) :=
  match hd : bs.deltas.lookup a with
  | none => none
  | some d =>
    if h : d.account.2.map (·.incarnation) = some incarnation then
      match d.storage.lookup key with
      | some slot => some (slot.2, bs)
      | none =>
        let result := if d.account.1.map (·.incarnation) = some incarnation then bs.db.readStorage a key else 0
        let d' : StateDelta :=
          { d with
            storage := d.storage.insert key (result, result)
            cleared := fun hnone => by simp [hnone] at h }
        some (result, { bs with
          deltas := bs.deltas.insert a d'
          origins := by
            intro b e he
            rw [Table.lookup_insert_ite] at he
            split_ifs at he with hb
            · cases he
              rw [hb]
              exact bs.origins a d hd
            · exact bs.origins b e he })
    else some (0, bs)

def readCode (bs : BlockState) (hash : Bytes32) : Option Bytes :=
  match bs.code.lookup hash with
  | some code => some code
  | none =>
    let result := bs.db.code hash
    if hash = nullHash ∨ result ≠ [] then some result else none

/-- The block state as the party that answers a transaction. -/
def answer : (q : Query) → BlockState → Option (q.Answer × BlockState)
  | .account a, bs => some (bs.readAccount a)
  | .storage a incarnation key, bs => bs.readStorage a incarnation key
  | .code hash, bs => some (bs.readCode hash, bs)

end BlockState

/-! ## Validation -/

/-- The read value of a slot is what the block state has now; a slot without entry counts as zero. -/
def StateDelta.agrees (d : StateDelta) (o : OriginalAccountState) : Bool :=
  o.storage.all fun key value =>
    match d.storage.lookup key with
    | some slot => decide (value = slot.2)
    | none => decide (value = 0)

/-- The recent balance moves by the difference between the balance that was read and the actual one;
`none` if it would become negative. -/
def shiftBalance (recent original actual : Nat) : Option Nat :=
  if original < actual then some ((recent + (actual - original)) % 2 ^ 256)
  else if original - actual ≤ recent then some (recent - (original - actual))
  else none

/-- An account that was read with another balance than it has now can be repaired if the transaction
allows it and never needed to know the balance beyond the bound it has recorded. `none` is a failed
assertion. -/
def State.tryFixAccountMismatch (st : State) (a : Address) (actual : Option Account) : Option (Bool × State) :=
  match st.original.lookup a with
  | none => none
  | some o =>
    match o.account, actual with
    | some original, some actual =>
      if original.isEmpty || actual.isEmpty then some (false, st)
      else if original.codeHash ≠ actual.codeHash then some (false, st)
      else if original.incarnation ≠ actual.incarnation then some (false, st)
      else if original.nonce ≠ actual.nonce then some (false, st)
      else if original.balance = actual.balance then none
      else if !st.relaxedValidation then some (false, st)
      else if o.validateExactBalance then some (false, st)
      else if actual.balance < o.minBalance then some (false, st)
      else
        let fixed : OriginalAccountState :=
          { o with
            account := some { original with balance := actual.balance }
            validateExactBalance := true }
        match st.current.lookup a with
        | none => some (true, st.setOriginal a fixed)
        | some s =>
          if s.size ≠ 1 then none
          else
            match s.recent.account with
            | none => some (false, st)
            | some recent =>
              (shiftBalance recent.balance original.balance actual.balance).map fun balance =>
                let x := { s.recent with account := some { recent with balance := balance } }
                (true, { st.setOriginal a fixed with
                  current := st.current.insert a (s.write s.version x) })
    | _, _ => some (false, st)

namespace BlockState

/-- The loop of `can_merge` over the originals. -/
def canMergeFrom (bs : BlockState) : List (Σ _ : Address, OriginalAccountState) → State → Option (Bool × State)
  | [], st => some (true, st)
  | ⟨a, o⟩ :: rest, st =>
    match bs.deltas.lookup a with
    | none => none
    | some d =>
      let fixed := if o.account = d.account.2 then some (true, st)
        else st.tryFixAccountMismatch a d.account.2
      match fixed with
      | none => none
      | some (false, st) => some (false, st)
      | some (true, st) => if d.agrees o then bs.canMergeFrom rest st else some (false, st)

/-- `can_merge`, which may repair the balances of the state; `none` is a failed assertion. -/
def canMerge (bs : BlockState) (st : State) : Option (Bool × State) := bs.canMergeFrom st.original.entries st

/-! ## Merging -/

/-- A written slot replaces the present value; a slot without entry was zero before. -/
def mergeStorage (storage : Table Bytes32 Bytes32) (deltas : Table Bytes32 (Bytes32 × Bytes32)) :
    Table Bytes32 (Bytes32 × Bytes32) :=
  Table.alterAll (fun key slot =>
    (storage.lookup key).map fun value => ((slot.map Prod.fst).getD 0, value)) storage.keys deltas

/-- The entry of an address after the record `x` has been merged: the slots of a deleted account are
forgotten. -/
def mergeDelta (x : AccountState) (d : StateDelta) : StateDelta where
  account := (d.account.1, x.account)
  storage := if x.account.isSome then mergeStorage x.storage d.storage else ∅
  cleared := fun hnone => by
    have haccount : x.account = none := hnone
    simp [haccount]

/-- The codes of a state that one of its accounts refers to. -/
def mergeCode (st : State) (code : Table Bytes32 Bytes) : Table Bytes32 Bytes :=
  Table.alterAll (fun hash old => old.or (st.code.lookup hash)) (st.code.keys.filter fun hash =>
      st.current.entries.any fun e => (e.2.recent.account.any fun x => decide (x.codeHash = hash)))
    code

/-- The entries after the records of a state have been merged. -/
def mergeDeltas (current : Table Address (VersionStack AccountState))
    (deltas : Table Address StateDelta) : Table Address StateDelta :=
  Table.alterAll (fun a d => d.map fun d =>
    match current.lookup a with
    | some s => mergeDelta s.recent d
    | none => d) current.keys deltas

theorem lookup_mergeDeltas (current : Table Address (VersionStack AccountState))
    (deltas : Table Address StateDelta) (a : Address) :
    (mergeDeltas current deltas).lookup a = (deltas.lookup a).map fun d =>
        match current.lookup a with
        | some s => mergeDelta s.recent d
        | none => d := by
  unfold mergeDeltas
  rw [Table.lookup_alterAll _ current.keys_nodup]
  split_ifs with hmem
  · rfl
  have hnone : current.lookup a = none := AList.lookup_eq_none.mpr hmem
  rw [hnone]
  exact Option.map_id'.symm ▸ rfl

/-- `merge`; `none` is a failed assertion. -/
def merge (bs : BlockState) (st : State) : Option BlockState :=
  if st.current.all fun a s =>
      s.below.isEmpty && s.version == 0 && (bs.deltas.lookup a).isSome then
    some
      { bs with
        code := mergeCode st bs.code
        deltas := mergeDeltas st.current bs.deltas
        origins := by
          intro a d' hd'
          rw [lookup_mergeDeltas] at hd'
          obtain ⟨d, hd, rfl⟩ := Option.map_eq_some_iff.mp hd'
          cases st.current.lookup a with
          | none => exact bs.origins a d hd
          | some s => exact bs.origins a d hd }
  else none

end BlockState

end MonadExecution.Ethereum
