import MonadExecution.Staking.Refine

/-!
# The contract refines the pools and the registry — methods

Next to the pools, a state holds the registry of the validators: their keys, flags and commissions,
the three validator sets, the two frozen views and the epoch. `Acted` says what a method did to the
pool of one validator, to the registry and to the balances; the logs and the delegation lists are
left out of it. Every method is specified in these terms, for any state it may be called in.
-/

namespace MonadExecution.Staking

open Program Function World

structure Registry where
  epoch : Nat
  inDelay : Bool
  lastValId : ValId
  valsetExecution : List ValId
  valsetConsensus : List ValId
  valsetSnapshot : List ValId
  valBitsetBucket : BitVec 64 → BitVec 256
  consensusView : ValId → ConsensusView
  snapshotView : ValId → ConsensusView
  keys : ValId → KeysPacked
  authAddress : ValId → Address
  commission : ValId → Nat
  flags : ValId → BitVec 64

def World.registry (w : World) : Registry where
  epoch := w.epoch
  inDelay := w.inEpochDelayPeriod
  lastValId := w.lastValId
  valsetExecution := w.valsetExecution
  valsetConsensus := w.valsetConsensus
  valsetSnapshot := w.valsetSnapshot
  valBitsetBucket := w.valBitsetBucket
  consensusView := w.consensusView
  snapshotView := w.snapshotView
  keys := fun v => (w.valExecution v).keys
  authAddress := fun v => (w.valExecution v).authAddress
  commission := fun v => (w.valExecution v).commission
  flags := fun v => (w.valExecution v).flags

namespace Registry

/-- The bit of `v` in the bitset. -/
def hasBit (v : ValId) (r : Registry) : Bool := (r.valBitsetBucket (valBucket v) &&& valMask v) != 0

/-- Put `v` on the list of candidates and set its bit, unless that was done before. -/
def enlist (v : ValId) (r : Registry) : Registry :=
  { r with
    valsetExecution := if r.hasBit v then r.valsetExecution else r.valsetExecution ++ [v]
    valBitsetBucket := update r.valBitsetBucket (valBucket v) (r.valBitsetBucket (valBucket v) ||| valMask v) }

def setFlags (v : ValId) (flags : BitVec 64) (r : Registry) : Registry := { r with flags := update r.flags v flags }

@[simp]
theorem setFlags_self (v : ValId) (r : Registry) : r.setFlags v (r.flags v) = r := by simp [setFlags]

@[simp]
theorem setFlags_setFlags (v : ValId) (x y : BitVec 64) (r : Registry) :
    (r.setFlags v x).setFlags v y = r.setFlags v y := by simp [setFlags]

@[simp]
theorem flags_setFlags (v : ValId) (x : BitVec 64) (r : Registry) : (r.setFlags v x).flags v = x := by simp [setFlags]

/-- The flags after more stake: `reached` tells whether the pool has enough, `restored` whether the
auth address has. -/
def raisedFlags (flags : BitVec 64) (reached restored : Bool) : BitVec 64 :=
  let flags := if reached then flags &&& ~~~ validatorFlagsStakeTooLow else flags
  if restored then flags &&& ~~~ validatorFlagWithdrawn else flags

/-- The flags after less stake: `withdrawn` tells whether the auth address has too little now,
`tooLow` whether the pool has. -/
def loweredFlags (flags : BitVec 64) (withdrawn tooLow : Bool) : BitVec 64 :=
  let flags := if withdrawn then flags ||| validatorFlagWithdrawn else flags
  if tooLow then flags ||| validatorFlagsStakeTooLow else flags

def raise (v : ValId) (reached restored : Bool) (r : Registry) : Registry :=
  let r' := r.setFlags v (raisedFlags (r.flags v) reached restored)
  if r'.flags v = validatorFlagsOk then r'.enlist v else r'

def lower (v : ValId) (withdrawn tooLow : Bool) (r : Registry) : Registry :=
  r.setFlags v (loweredFlags (r.flags v) withdrawn tooLow)

/-- A new validator. -/
def register (v : ValId) (keys : KeysPacked) (auth : Address) (commission : Nat) (r : Registry) : Registry :=
  { r with
    lastValId := v
    keys := update r.keys v keys
    authAddress := update r.authAddress v auth
    commission := update r.commission v commission
    flags := update r.flags v validatorFlagsStakeTooLow }

def setCommission (v : ValId) (commission : Nat) (r : Registry) : Registry :=
  { r with commission := update r.commission v commission }

end Registry

/-- A method acted for validator `v`. -/
structure Acted (v : ValId) (w : World) (p : Pool Address WithdrawalId) (r : Registry)
    (balance : Address → Nat) (counted : Prop) (w' : World) : Prop where
  pool : w'.pool v = p
  others : ∀ u, u ≠ v → w'.pool u = w.pool u
  registry : w'.registry = r
  balance : w'.balance = balance
  quiet : counted → w'.diagnostics = w.diagnostics

section Frames

variable (w : World) (v u : ValId) (a : Address)

theorem registry_modifyVal (f : ValExecution → ValExecution) : (w.modifyVal v f).registry =
    { w.registry with
      keys := update w.registry.keys v (f (w.valExecution v)).keys
      authAddress := update w.registry.authAddress v (f (w.valExecution v)).authAddress
      commission := update w.registry.commission v (f (w.valExecution v)).commission
      flags := update w.registry.flags v (f (w.valExecution v)).flags } := by
  have h {α : Type} (g : ValExecution → α) : (fun u => g (update w.valExecution v (f (w.valExecution v)) u)) =
        update (fun u => g (w.valExecution u)) v (g (f (w.valExecution v))) :=
    Function.comp_update g w.valExecution v _
  simp only [registry, modifyVal, Registry.mk.injEq, true_and]
  exact ⟨h (·.keys), h (·.authAddress), h (·.commission), h (·.flags)⟩

theorem registry_of_blank {f : ValExecution → ValExecution} (h : ∀ val, (f val).blank = val.blank) :
    (w.modifyVal v f).registry = w.registry := by
  have hb := h (w.valExecution v)
  simp only [ValExecution.blank, ValExecution.mk.injEq, true_and, and_true] at hb
  obtain ⟨hcomm, hkeys, hauth, hflags⟩ := hb
  rw [registry_modifyVal, hcomm, hkeys, hauth, hflags]
  simp [registry]

theorem registry_outside : (w.outside v).registry = w.registry :=
  registry_of_blank w v (f := ValExecution.blank) fun _ => rfl

/-! Balances, logs and list nodes are in no pool, and only `modifyVal` is seen in the registry. -/

@[simp]
theorem pool_modifyVal_flags (f : BitVec 64 → BitVec 64) :
    (w.modifyVal v fun val => { val with flags := f val.flags }).pool u = w.pool u := by
  by_cases hu : u = v
  · subst hu
    simp [pool_modifyVal]
    rfl
  · simp [pool, update_of_ne hu]

section

variable {u v : ValId} (hu : u ≠ v)

include hu

theorem pool_modifyVal_of_ne (f : ValExecution → ValExecution) : (w.modifyVal v f).pool u = w.pool u := by
  simp [pool, update_of_ne hu]

theorem pool_modifyDelegator_of_ne (f : Delegator → Delegator) : (w.modifyDelegator v a f).pool u = w.pool u := by
  simp [pool, update_of_ne hu]

theorem pool_setAccumulator_of_ne (e : Nat) (c : RefCountedAccumulator) :
    (w.setAccumulator e v c).pool u = w.pool u := by
  rw [← pool_outside _ v hu, outside_setAccumulator, pool_outside _ v hu]

theorem pool_setWithdrawalRequest_of_ne (i : WithdrawalId) (r : WithdrawalRequest) :
    (w.setWithdrawalRequest v a i r).pool u = w.pool u := by simp [pool, update_of_ne hu]

end

@[simp]
theorem registry_modifyDelegator (f : Delegator → Delegator) : (w.modifyDelegator v a f).registry = w.registry := rfl

@[simp]
theorem registry_setAccumulator (e : Nat) (c : RefCountedAccumulator) :
    (w.setAccumulator e v c).registry = w.registry := rfl

@[simp]
theorem registry_setWithdrawalRequest (i : WithdrawalId) (r : WithdrawalRequest) :
    (w.setWithdrawalRequest v a i r).registry = w.registry := rfl

@[simp]
theorem registry_emitLog (e : Event) : (w.emitLog e).registry = w.registry := rfl

@[simp]
theorem registry_setStake (x : Nat) : (w.modifyVal v fun val => { val with stake := x }).registry = w.registry :=
  registry_of_blank w v fun _ => rfl

theorem registry_modifyVal_flags (f : BitVec 64 → BitVec 64) :
    (w.modifyVal v fun val => { val with flags := f val.flags }).registry =
      w.registry.setFlags v (f (w.registry.flags v)) := by
  rw [registry_modifyVal]
  simp [registry, Registry.setFlags]

theorem registry_modifyVal_commission (x : Nat) : (w.modifyVal v fun val => { val with commission := x }).registry =
    w.registry.setCommission v x := by
  rw [registry_modifyVal]
  simp [registry, Registry.setCommission]

variable {w v} {w' : World} {p : Pool Address WithdrawalId} {counted : Prop} {p1 p2 : Pool Address WithdrawalId}
  {r₁ r2 : Registry} {b1 b2 : Address → Nat} {counted' : Prop} {w1 w2 : World}

/-- Two parts of a call one after the other. -/
theorem Acted.trans (h1 : Acted v w p1 r₁ b1 counted w1) (h2 : Acted v w1 p2 r2 b2 counted' w2)
    (hc : counted → counted') : Acted v w p2 r2 b2 counted w2 where
  pool := h2.pool
  others u hu := (h2.others u hu).trans (h1.others u hu)
  registry := h2.registry
  balance := h2.balance
  quiet h := (h2.quiet (hc h)).trans (h1.quiet h)

theorem Acted.seq (h1 : Acted v w p1 r₁ b1 counted w1) (h2 : Acted v w1 p2 r2 b2 True w2) : Acted v w p2 r2 b2 counted w2 :=
  h1.trans h2 fun _ => trivial

theorem Acted.weaken (h : Acted v w p1 r₁ b1 counted w1) (hc : counted' → counted) : Acted v w p1 r₁ b1 counted' w1 :=
  ⟨h.pool, h.others, h.registry, h.balance, fun h' => h.quiet (hc h')⟩

theorem Acted.refl (w : World) (v : ValId) : Acted v w (w.pool v) w.registry w.balance True w :=
  ⟨rfl, fun _ _ => rfl, rfl, rfl, fun _ => rfl⟩

/-- A part of a method that can only overflow or be given bad entries fails in the same way behind other parts. -/
theorem Acted.fault {safe : Prop} {e : Error} (h : Acted v w p1 r₁ b1 counted w1) (fault : Fault True True True w1 e w2) :
    Fault safe True counted w e w2 :=
  ⟨fun _ => fault.sound trivial, fault.covered, fun hc => (fault.quiet trivial).trans (h.quiet hc)⟩

/-- List nodes are not observed. -/
theorem Acted.storeNode {Key Ptr : Type} (h : Acted v w p1 r₁ b1 counted w1) (T : LinkedListTrait Key Ptr) (key : Key)
    (ptr : Ptr) (n : ListNode) : Acted v w p1 r₁ b1 counted (T.storeNode key ptr n w1) :=
  ⟨h.pool, h.others, h.registry, h.balance, h.quiet⟩

/-- Logs are not observed. -/
theorem Acted.emitLog (h : Acted v w p1 r₁ b1 counted w1) (e : Event) : Acted v w p1 r₁ b1 counted (w1.emitLog e) :=
  ⟨h.pool, h.others, h.registry, h.balance, h.quiet⟩

theorem Touched.acted (t : Touched v w p counted w') : Acted v w p w.registry w.balance counted w' where
  pool := t.pool
  others u hu := by rw [← pool_outside w' v hu, t.outside, pool_outside w v hu]
  registry := by rw [← registry_outside w' v, t.outside, registry_outside w v]
  balance := by
    have h : (w'.outside v).balance = (w.outside v).balance := by rw [t.outside]
    exact h
  quiet := t.quiet

theorem acted_notePayout (w : World) (v : ValId) (r : Nat) : Acted v w
    { w.pool v with
      payouts := update (w.pool v).payouts a ((w.pool v).payouts a + r) }
    w.registry w.balance True (w.notePayout v a r) :=
  Touched.acted ⟨by simp, by simp, fun _ => rfl⟩

end Frames

end MonadExecution.Staking
