import MonadExecution.Lib.Reading
import MonadExecution.Ethereum.Account
import MonadExecution.Ethereum.VersionStack

/-!
# The state of a running transaction

`State` is the private view a transaction works on. It records in `original` every account and slot it
has read from the block state, keeps the records it has changed in `current`, one version stack for
each address, and remembers in `dirty` which addresses each open call frame has touched, newest frame
first. The source keeps the number of open frames in `version_` and asserts that it is the length of
`dirty_`; here it is that length.

The methods are `Reading`s: the questions are what the state asks the block state, and giving up is a
failed assertion. A transaction is a `Program`, a deterministic tree of calls of these methods, so
that what it does next may depend on everything the calls have returned.
-/

namespace MonadExecution.Ethereum

/-! ## What a state asks the block state -/

inductive Query
  | account (address : Address)
  | storage (address : Address) (incarnation : Incarnation) (key : Bytes32)
  | code (hash : Bytes32)
  deriving DecidableEq

/-- The answers; no code means that `BlockState::read_code` fails its assertion. -/
abbrev Query.Answer : Query → Type
  | .account _ => Option Account
  | .storage .. => Bytes32
  | .code _ => Option Bytes

abbrev Ask := Reading Query Query.Answer

structure Log where
  address : Address
  topics : List Bytes32
  data : Bytes
  deriving DecidableEq, Repr

structure State where
  incarnation : Incarnation
  relaxedValidation : Bool := false
  original : Table Address OriginalAccountState := ∅
  current : Table Address (VersionStack AccountState) := ∅
  logs : VersionStack (List Log) := .start [] 0
  code : Table Bytes32 Bytes := ∅
  dirty : List (List Address) := []

/-- `version_`, the number of open frames. -/
def State.version (st : State) : Nat := st.dirty.length

/-- A method of `State`. -/
def Method (α : Type) := State → Ask (α × State)

instance : Monad Method where
  pure x := fun st => .done (x, st)
  bind m f := fun st => m st >>= fun y => f y.1 y.2

theorem Method.bind_run {α β : Type} (m : Method α) (f : α → Method β) (st : State) :
    (m >>= f) st = m st >>= fun y => f y.1 y.2 := rfl

/-- A failed `MONAD_ASSERT`. -/
def abort {α : Type} : Method α := fun _ => .fail

def getIncarnation : Method Incarnation := fun st => .done (st.incarnation, st)

def modifyState (f : State → State) : Method Unit := fun st => .done ((), f st)

/-- Ask the block state. -/
def query (q : Query) : Method q.Answer := fun st => .ask q fun a => .done (a, st)

/-! ## Access to the records of an account -/

def originalAccountState (a : Address) : Method OriginalAccountState := fun st =>
  match st.original.lookup a with
  | some o => .done (o, st)
  | none => .ask (.account a) fun account =>
      let o := OriginalAccountState.ofAccount account
      .done (o, { st with original := st.original.insert a o })

def recentAccountState (a : Address) : Method AccountState := fun st =>
  match st.current.lookup a with
  | some s => .done (s.recent, st)
  | none => originalAccountState a st >>= fun y => .done (y.1.toAccountState, y.2)

/-- Change the record of an original; the record is there. -/
def State.setOriginal (st : State) (a : Address) (o : OriginalAccountState) : State :=
  { st with original := st.original.insert a o }

/-- The record of `a` in the present frame becomes `x`, and the frame has touched `a`. -/
def State.setCurrent (st : State) (a : Address) (x : AccountState) : State :=
  { st with
    current := st.current.insert a <| match st.current.lookup a with
      | some s => s.write st.version x
      | none => .start x st.version
    dirty := match st.dirty with
      | [] => []
      | frame :: rest => frame.insert a :: rest }

/-- Take the reference `current_account_state(a)`, which for an address without a record is a copy of
its original, and change the record behind it. -/
def currentAccountState (a : Address) (e : Edit) : Method e.Reply := do
  let x ← recentAccountState a
  let incarnation ← getIncarnation
  match e.apply incarnation x with
  | some (r, x') => do
    modifyState (·.setCurrent a x')
    pure r
  | none => abort

/-- The value of a slot in the original of `a`, read from the block state under the given incarnation
the first time. -/
def originalStorage (a : Address) (incarnation : Incarnation) (key : Bytes32) : Method Bytes32 := do
  let o ← originalAccountState a
  match o.storage.lookup key with
  | some value => pure value
  | none => do
    let value ← query (.storage a incarnation key)
    modifyState (·.setOriginal a { o with storage := o.storage.insert key value })
    pure value

/-! ## The methods -/

def setOriginalNonce (a : Address) (nonce : Nat) : Method Unit := do
  let o ← originalAccountState a
  modifyState (·.setOriginal a { o with account := some { o.account.getD {} with nonce := nonce } })

/-- The methods that read one thing of the recent record. -/
def observe (a : Address) (o : Observation) : Method o.Reply := do
  let x ← recentAccountState a
  let incarnation ← getIncarnation
  pure (o.of incarnation x)

def setValidateExactBalance (a : Address) : Method Unit := do
  let o ← originalAccountState a
  modifyState (·.setOriginal a { o with validateExactBalance := true })

def getBalance (a : Address) : Method Nat := do
  let x ← recentAccountState a
  setValidateExactBalance a
  pure x.getBalance

def getOriginalBalance (a : Address) : Method Nat := do
  let o ← originalAccountState a
  setValidateExactBalance a
  pure o.getBalance

/-- `original_account_state(a).get_code_hash()`, which the tracker of reserve balances asks for. -/
def getOriginalCodeHash (a : Address) : Method Bytes32 := do
  let o ← originalAccountState a
  pure o.getCodeHash

def isTouched (a : Address) : Method Bool := fun st => .done ((st.current.lookup a).any (·.recent.touched), st)

/-- The account must have been loaded, and it must exist. A record that has not been written in this
transaction, or that is still in the life its original was in, shows the slots of the block state. -/
def getStorage (a : Address) (key : Bytes32) : Method Bytes32 := fun st =>
  match st.current.lookup a with
  | none =>
    match st.original.lookup a with
    | none => .fail
    | some o =>
      match o.account with
      | none => .fail
      | some account => originalStorage a account.incarnation key st
  | some s =>
    match s.recent.account with
    | none => .fail
    | some account =>
      match s.recent.storage.lookup key with
      | some value => .done (value, st)
      | none =>
        match st.original.lookup a with
        | none => .fail
        | some o =>
          match o.account with
          | none => .done (0, st)
          | some originalAccount =>
            if account.incarnation = originalAccount.incarnation then
              originalStorage a account.incarnation key st
            else .done (0, st)

def setStorage (a : Address) (key value : Bytes32) : Method StorageStatus := do
  currentAccountState a .keep
  let x ← recentAccountState a
  match x.account with
  | none => abort
  | some account => do
    let original ← originalStorage a account.incarnation key
    currentAccountState a (.setStorage key value original)

def readCode (hash : Bytes32) : Method Bytes := fun st =>
  match st.code.lookup hash with
  | some code => .done (code, st)
  | none => .ask (.code hash) fun
      | some code => .done (code, st)
      | none => .fail

/-- Nothing but the reference is taken if there is no account. -/
def setCode (keccak : Bytes → Bytes32) (a : Address) (code : Bytes) : Method Unit := do
  currentAccountState a .keep
  let x ← recentAccountState a
  if x.account.isSome then
    modifyState fun st => { st with code := st.code.insert (keccak code) code }
    currentAccountState a (.setCodeHash (keccak code))
  else pure ()

def recordBalanceConstraintForDebit (a : Address) (debit : Nat) : Method Bool := do
  let x ← recentAccountState a
  let o ← originalAccountState a
  if debit ≤ x.getBalance then
    let diff := x.getBalance - debit
    if diff < o.getBalance then
      -- `set_min_balance`; its two assertions hold because the original has more than `diff`
      modifyState (·.setOriginal a
        { o with minBalance := max o.minBalance (o.getBalance - diff) })
    pure true
  else do
    setValidateExactBalance a
    pure false

def logs : Method (List Log) := fun st => .done (st.logs.recent, st)

def storeLog (log : Log) : Method Unit := fun st =>
  .done ((), { st with logs := st.logs.write st.version (st.logs.recent ++ [log]) })

def push : Method Unit := fun st => .done ((), { st with dirty := [] :: st.dirty })

/-- The addresses the closed frame has touched count as touched by the frame below it. -/
def State.accept (st : State) (frame : List Address) (rest : List (List Address)) : State :=
  { st with
    current := Table.alterAll (fun _ s => s.map (·.popAccept st.version)) frame st.current
    logs := st.logs.popAccept st.version
    dirty := match rest with
      | [] => []
      | below :: rest => frame.union below :: rest }

def popAccept : Method Unit := fun st =>
  match st.dirty with
  | [] => .fail
  | frame :: rest =>
    if frame.all fun a => (st.current.lookup a).isSome then .done ((), st.accept frame rest)
    else .fail

/-- A stack that loses its only entry is dropped. -/
def State.reject (st : State) (frame : List Address) (rest : List (List Address))
    (logs : VersionStack (List Log)) : State :=
  { st with
    current := Table.alterAll (fun _ s => s.bind (·.popReject st.version)) frame st.current
    logs := logs
    dirty := rest }

def popReject : Method Unit := fun st =>
  match st.dirty with
  | [] => .fail
  | frame :: rest =>
    if frame.all fun a => (st.current.lookup a).isSome then
      match st.logs.popReject st.version with
      | some logs => .done ((), st.reject frame rest logs)
      | none => .fail
    else .fail

/-! ## Programs -/

/-- A call of a method. -/
inductive Call
  | observe (a : Address) (o : Observation)
  | isTouched (a : Address)
  | getBalance (a : Address)
  | getOriginalBalance (a : Address)
  | getOriginalCodeHash (a : Address)
  | recordBalanceConstraintForDebit (a : Address) (debit : Nat)
  | getStorage (a : Address) (key : Bytes32)
  | edit (a : Address) (e : Edit) (h : e.isPublic = true)
  | setStorage (a : Address) (key value : Bytes32)
  | setCode (a : Address) (code : Bytes)
  | readCode (hash : Bytes32)
  | logs
  | storeLog (log : Log)
  | push
  | popAccept
  | popReject

abbrev Call.Reply : Call → Type
  | .observe _ o => o.Reply
  | .isTouched _ => Bool
  | .getBalance _ => Nat
  | .getOriginalBalance _ => Nat
  | .getOriginalCodeHash _ => Bytes32
  | .recordBalanceConstraintForDebit .. => Bool
  | .getStorage .. => Bytes32
  | .edit _ e _ => e.Reply
  | .setStorage .. => StorageStatus
  | .setCode .. => Unit
  | .readCode _ => Bytes
  | .logs => List Log
  | .storeLog _ => Unit
  | .push => Unit
  | .popAccept => Unit
  | .popReject => Unit

/-- What a call does. -/
def Call.exec (keccak : Bytes → Bytes32) : (c : Call) → Method c.Reply
  | .observe a o => Ethereum.observe a o
  | .isTouched a => Ethereum.isTouched a
  | .getBalance a => Ethereum.getBalance a
  | .getOriginalBalance a => Ethereum.getOriginalBalance a
  | .getOriginalCodeHash a => Ethereum.getOriginalCodeHash a
  | .recordBalanceConstraintForDebit a debit => Ethereum.recordBalanceConstraintForDebit a debit
  | .getStorage a key => Ethereum.getStorage a key
  | .edit a e _ => currentAccountState a e
  | .setStorage a key value => Ethereum.setStorage a key value
  | .setCode a code => Ethereum.setCode keccak a code
  | .readCode hash => Ethereum.readCode hash
  | .logs => Ethereum.logs
  | .storeLog log => Ethereum.storeLog log
  | .push => Ethereum.push
  | .popAccept => Ethereum.popAccept
  | .popReject => Ethereum.popReject

/-- A deterministic program over the methods of `State`. -/
inductive Program (α : Type) : Type where
  | ret (x : α)
  | call (c : Call) (next : c.Reply → Program α)

namespace Program

variable {α β : Type}

protected def bind : Program α → (α → Program β) → Program β
  | ret x, f => f x
  | call c next, f => call c fun r => (next r).bind f

instance : Monad Program where
  pure := ret
  bind := Program.bind

/-- One call as a program. -/
def run1 (c : Call) : Program c.Reply := call c ret

/-- What a program does. -/
def run (keccak : Bytes → Bytes32) : Program α → Method α
  | ret x => pure x
  | call c next => fun st => c.exec keccak st >>= fun y => (next y.1).run keccak y.2

end Program

theorem run_bind {α β : Type} (keccak : Bytes → Bytes32) (p : Program α) (f : α → Program β) :
    (p >>= f).run keccak = p.run keccak >>= fun x => (f x).run keccak := by
  induction p with
  | ret x => rfl
  | call c next ih =>
    funext st
    show (c.exec keccak st >>= fun y => ((next y.1).bind f).run keccak y.2) = _
    have hnext : ∀ y : c.Reply × State, ((next y.1).bind f).run keccak y.2 =
        (next y.1).run keccak y.2 >>= fun z => (f z.1).run keccak z.2 :=
      fun y => congrFun (ih y.1) y.2
    simp only [hnext]
    show _ = (c.exec keccak st >>= fun y => (next y.1).run keccak y.2) >>= fun z => (f z.1).run keccak z.2
    induction c.exec keccak st with
    | done y => rfl
    | fail => rfl
    | ask q k ihk => exact congrArg (Reading.ask q) (funext ihk)

/-! ## The methods as programs -/

def accountExists (a : Address) : Program Bool := .run1 (.observe a .accountExists)

def accountIsDead (a : Address) : Program Bool := .run1 (.observe a .accountIsDead)

def getNonce (a : Address) : Program Nat := .run1 (.observe a .getNonce)

def getCodeHash (a : Address) : Program Bytes32 := .run1 (.observe a .getCodeHash)

def isDestructed (a : Address) : Program Bool := .run1 (.observe a .isDestructed)

def isCurrentIncarnation (a : Address) : Program Bool := .run1 (.observe a .isCurrentIncarnation)

def getTransientStorage (a : Address) (key : Bytes32) : Program Bytes32 :=
  .run1 (.observe a (.getTransientStorage key))

def setNonce (a : Address) (nonce : Nat) : Program Unit := .run1 (.edit a (.setNonce nonce) rfl)

def addToBalance (a : Address) (delta : Nat) : Program (Except MonadException Unit) :=
  .run1 (.edit a (.addToBalance delta) rfl)

def subtractFromBalance (a : Address) (delta : Nat) : Program (Except MonadException Unit) :=
  .run1 (.edit a (.subtractFromBalance delta) rfl)

def setTransientStorage (a : Address) (key value : Bytes32) : Program Unit :=
  .run1 (.edit a (.setTransientStorage key value) rfl)

def touch (a : Address) : Program Unit := .run1 (.edit a .touch rfl)

def accessAccount (a : Address) : Program AccessStatus := .run1 (.edit a .access rfl)

def accessStorage (a : Address) (key : Bytes32) : Program AccessStatus := .run1 (.edit a (.accessStorage key) rfl)

def createContract (a : Address) : Program Unit := .run1 (.edit a .createContract rfl)

def createAccountNoRollback (a : Address) : Program Unit := .run1 (.edit a .createAccountNoRollback rfl)

def setToStateIncarnation (a : Address) : Program Unit := .run1 (.edit a .setToStateIncarnation rfl)

/-- The code of an account; the code of the null hash if there is none. -/
def getCode (a : Address) : Program Bytes := do
  if ← accountExists a then
    let hash ← getCodeHash a
    .run1 (.readCode hash)
  else .run1 (.readCode nullHash)

def getCodeSize (a : Address) : Program Nat := do
  if ← accountExists a then
    let hash ← getCodeHash a
    let code ← Program.run1 (.readCode hash)
    pure code.length
  else pure 0

def copyCode (a : Address) (offset size : Nat) : Program Bytes := do
  if ← accountExists a then
    let hash ← getCodeHash a
    let code ← Program.run1 (.readCode hash)
    pure ((code.drop offset).take size)
  else pure []

/-- Move the whole balance to the beneficiary and mark the account. From Cancun on (`cancun`), an
account that names itself keeps its balance unless it was created by this transaction. An exception
of the two balance operations ends the call. -/
def selfdestruct (cancun : Bool) (a beneficiary : Address) : Program (Except MonadException (Bool × Nat)) := do
  Program.run1 (.edit a .keep rfl)
  let balance ← Program.run1 (.getBalance a)
  let moves ←
    if !cancun then pure true
    else if a ≠ beneficiary then pure true
    else isCurrentIncarnation a
  let moved ←
    if moves then do
      let credited ←
        if a ≠ beneficiary then addToBalance beneficiary balance else pure (.ok ())
      match credited with
      | .error e => pure (.error e)
      | .ok () => subtractFromBalance a balance
    else pure (.ok ())
  match moved with
  | .error e => pure (.error e)
  | .ok () =>
    let inserted ← Program.run1 (.edit a .destruct rfl)
    pure (.ok (inserted, balance))

/-! ## The end of a transaction -/

/-- Has every frame been closed, so that each record is the only one of its stack? -/
def State.isFlat (st : State) : Bool :=
  st.dirty.isEmpty && st.current.all fun _ s => s.below.isEmpty && s.version == 0

/-- Change every record of a flat state. -/
def State.mapCurrent (st : State) (f : AccountState → AccountState) : State :=
  { st with
    current := Table.alterAll (fun _ s => s.map fun s => s.write 0 (f s.recent)) st.current.keys st.current }

/-- `destruct_suicides`: the account of a destructed record is deleted, from Cancun on only if this
transaction created it. -/
def destructSuicides (cancun : Bool) : Method Unit := fun st =>
  if st.isFlat then
    .done ((), st.mapCurrent fun x =>
      if x.destructed && (!cancun || x.account.any fun y => decide (y.incarnation = st.incarnation))
      then { x with account := none } else x)
  else .fail

def destructTouchedDead : Method Unit := fun st =>
  if st.isFlat then
    .done ((), st.mapCurrent fun x => if x.touched && isDead x.account then { x with account := none } else x)
  else .fail

end MonadExecution.Ethereum
