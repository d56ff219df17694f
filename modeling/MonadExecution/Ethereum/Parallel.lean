import MonadExecution.Ethereum.Speculation

/-!
# Executing a block in parallel

`ExecuteTransaction` runs every transaction of a block at once. The first attempt of a transaction reads
from the shared block state while earlier transactions are still being merged; when the previous transaction
is through, the attempt is merged if `can_merge` finds that everything it has read is still the case, and
otherwise the transaction runs again. `Machine` is the block state with the transactions at work, and a
schedule is the list of those that make the next step. The main theorem compares every schedule with
`executeAll`, which executes and merges the transactions one after the other.
-/

namespace MonadExecution.Ethereum

open Option Reading BlockState

/-- What all transactions of a block have in common. -/
structure Environment where
  keccak : Bytes → Bytes32
  cancun : Bool
  number : BitVec 40

/-- The incarnation of the transaction at position `j`. -/
def Environment.incarnation (env : Environment) (j : Nat) : Incarnation := ⟨env.number, BitVec.ofNat 24 (j + 1)⟩

/-- A transaction: `body` is `execute_impl2`, which may end with an error, and `final` is the part of
`execute_final` before the accounts are deleted. The receipt is computed there; it contains the logs,
which the deletion leaves alone. -/
structure Transaction (ε ρ τ : Type) where
  sender : Address
  nonce : Nat
  body : Program (Except ε ρ)
  final : ρ → Program τ

variable {ε ρ τ : Type}

/-- The state in which the transaction at position `j` begins. -/
def Environment.fresh (env : Environment) (j : Nat) : State := { incarnation := env.incarnation j }

namespace Transaction

/-- The first attempt assumes the nonce of the transaction. -/
def attempt (env : Environment) (tx : Transaction ε ρ τ) : Method (Except ε ρ) := do
  setOriginalNonce tx.sender tx.nonce
  tx.body.run env.keccak

/-- The deletions at the end of `execute_final`. -/
def cleanup (env : Environment) : Method Unit := do
  destructSuicides env.cancun
  destructTouchedDead

def finish (env : Environment) (tx : Transaction ε ρ τ) (r : ρ) : Method τ := do
  let x ← (tx.final r).run env.keccak
  cleanup env
  pure x

end Transaction

/-! ## One after the other -/

/-- Execute and merge the transaction at position `j`. A transaction that ends with an error is not
merged. -/
def executeOne (env : Environment) (j : Nat) (tx : Transaction ε ρ τ) (bs : BlockState) :
    Option (Except ε τ × BlockState) :=
  ((tx.body.run env.keccak (env.fresh j)).serve BlockState.answer bs).bind fun y =>
    match y.1.1 with
    | .error e => some (.error e, y.2)
    | .ok r =>
      ((tx.finish env r y.1.2).serve BlockState.answer y.2).bind fun z =>
        (z.2.merge z.1.2).map fun bs => (.ok z.1.1, bs)

/-- Execute and merge transactions, the first of which is at position `j`. -/
def executeAll (env : Environment) :
    Nat → List (Transaction ε ρ τ) → BlockState → Option (List (Except ε τ) × BlockState)
  | _, [], bs => some ([], bs)
  | j, tx :: rest, bs =>
    (executeOne env j tx bs).bind fun y => (executeAll env (j + 1) rest y.2).map fun z => (y.1 :: z.1, z.2)

/-! ## All at once -/

/-- What a transaction is doing: its first attempt, its second one, or its final part. -/
inductive Phase (ε ρ τ : Type)
  | first (t : Ask (Except ε ρ × State))
  | retry (t : Ask (Except ε ρ × State))
  | finish (t : Ask (τ × State))
  | ended

/-- The block state, what each transaction is doing, and the results of those that are through. -/
structure Machine (ε ρ τ : Type) where
  bs : BlockState
  phases : Nat → Phase ε ρ τ
  results : List (Except ε τ) := []

namespace Machine

def start (env : Environment) (txs : List (Transaction ε ρ τ)) (db : Db) : Machine ε ρ τ where
  bs := .start db
  phases j := match txs[j]? with
    | some tx => .first (tx.attempt env (env.fresh j))
    | none => .ended

def setPhase (m : Machine ε ρ τ) (j : Nat) (phase : Phase ε ρ τ) : Machine ε ρ τ :=
  { m with phases := Function.update m.phases j phase }

/-- One question to the block state. -/
def read (m : Machine ε ρ τ) (j : Nat) (q : Query) (next : q.Answer → Phase ε ρ τ) : Option (Machine ε ρ τ) :=
  (m.bs.answer q).map fun y => { m.setPhase j (next y.1) with bs := y.2 }

/-- The transaction is through. -/
def conclude (m : Machine ε ρ τ) (j : Nat) (result : Except ε τ) : Machine ε ρ τ :=
  { m.setPhase j .ended with results := m.results ++ [result] }

/-- After an attempt that can be merged: an error is the result, otherwise the final part is due. -/
def proceed (env : Environment) (tx : Transaction ε ρ τ) (m : Machine ε ρ τ) (j : Nat)
    (r : Except ε ρ) (st : State) : Machine ε ρ τ :=
  match r with
  | .error e => m.conclude j (.error e)
  | .ok r => m.setPhase j (.finish (tx.finish env r st))

/-- The next step of the transaction at position `j`; none if it has to wait for the previous one, is
through, or fails an assertion. -/
def step (env : Environment) (txs : List (Transaction ε ρ τ)) (m : Machine ε ρ τ) (j : Nat) :
    Option (Machine ε ρ τ) :=
  match txs[j]? with
  | none => none
  | some tx =>
    match m.phases j with
    | .first (.ask q next) => m.read j q fun y => .first (next y)
    | .first .fail => none
    | .first (.done (r, st)) =>
      if m.results.length = j then
        match m.bs.canMerge st with
        | some (true, st) => some (m.proceed env tx j r st)
        | some (false, _) => some (m.setPhase j (.retry (tx.body.run env.keccak (env.fresh j))))
        | none => none
      else none
    | .retry (.ask q next) => m.read j q fun y => .retry (next y)
    | .retry .fail => none
    | .retry (.done (r, st)) =>
      match m.bs.canMerge st with
      | some (true, st) => some (m.proceed env tx j r st)
      | _ => none
    | .finish (.ask q next) => m.read j q fun y => .finish (next y)
    | .finish .fail => none
    | .finish (.done (x, st)) => (m.bs.merge st).map fun bs => { m with bs := bs }.conclude j (.ok x)
    | .ended => none

/-- The steps of a schedule. -/
def run (env : Environment) (txs : List (Transaction ε ρ τ)) : Machine ε ρ τ → List Nat → Option (Machine ε ρ τ)
  | m, [] => some m
  | m, j :: schedule => (m.step env txs j).bind fun m' => m'.run env txs schedule

end Machine

/-! ## What a transaction must not do -/

/-- On contents `v`, an existing account is given a new life only where it has no storage, and no code is
stored under the hash of another one. -/
def View.rule (v : View) : Rule where
  bare := v.Bare
  code hash code := ∀ old, v.code hash = some old → old = code

/-- A transaction that keeps to the rule when it is executed on contents `v`. -/
structure Transaction.Orderly (env : Environment) (j : Nat) (tx : Transaction ε ρ τ) (v : View) :
    Prop where
  body : tx.body.Keeps env.keccak v.answer (Call.Allowed env.keccak v.rule) (env.fresh j)
  final : ∀ r st, (tx.body.run env.keccak (env.fresh j)).answer v.answer = some (.ok r, st) →
    (tx.final r).Keeps env.keccak v.answer (Call.Allowed env.keccak v.rule) st

/-- Every transaction keeps to the rule when they are executed one after the other. -/
def Orderly (env : Environment) : Nat → List (Transaction ε ρ τ) → BlockState → Prop
  | _, [], _ => True
  | j, tx :: rest, bs => tx.Orderly env j bs.view ∧
      ∀ result bs', executeOne env j tx bs = some (result, bs') → Orderly env (j + 1) rest bs'

/-- No account of the database is in a life of this block. -/
def Db.Before (db : Db) (number : BitVec 40) : Prop := ∀ a y, db.readAccount a = some y → y.incarnation.block ≠ number

/-! ## The deletions -/

/-- Nothing but accounts has been deleted. -/
structure Trimmed (st st' : State) : Prop where
  original : st'.original = st.original
  code : st'.code = st.code
  incarnation : st'.incarnation = st.incarnation
  current : ∀ a s', st'.current.lookup a = some s' → ∃ s, st.current.lookup a = some s ∧
    s'.recent.storage = s.recent.storage ∧
    (s'.recent.account = s.recent.account ∨ s'.recent.account = none)

theorem Trimmed.trans {st st' st'' : State} (h : Trimmed st st') (h' : Trimmed st' st'') : Trimmed st st'' := by
  refine ⟨h'.original.trans h.original, h'.code.trans h.code, h'.incarnation.trans h.incarnation, ?_⟩
  intro a s'' hs''
  obtain ⟨s', hs', hsto', heq'⟩ := h'.current a s'' hs''
  obtain ⟨s, hs, hsto, heq⟩ := h.current a s' hs'
  refine ⟨s, hs, hsto'.trans hsto, ?_⟩
  rcases heq' with heq' | hnone
  · rw [heq']
    exact heq
  · exact .inr hnone

variable {f : AccountState → AccountState}

section

variable (st : State) (hf : ∀ x, (f x).storage = x.storage ∧ ((f x).account = x.account ∨ (f x).account = none))

include hf

theorem trimmed_mapCurrent : Trimmed st (st.mapCurrent f) := by
  refine ⟨rfl, rfl, rfl, ?_⟩
  refine Table.forall_alterAll (P := fun a (s' : VersionStack AccountState) =>
    ∃ s, st.current.lookup a = some s ∧ s'.recent.storage = s.recent.storage ∧
      (s'.recent.account = s.recent.account ∨ s'.recent.account = none))
    (fun a s hs => ⟨s, hs, rfl, .inl rfl⟩) ?_
  intro a x y hx hy
  obtain ⟨s, hs, rfl⟩ := map_eq_some_iff.mp hy
  obtain ⟨s0, hs0, hsto, heq⟩ := hx s hs
  obtain ⟨hsame, hacc⟩ := hf s.recent
  rw [VersionStack.recent_write]
  refine ⟨s0, hs0, hsame.trans hsto, ?_⟩
  rcases hacc with h | h
  · rw [h]
    exact heq
  · exact .inr h

/-- A deletion of accounts that satisfy a condition. -/
theorem mapCurrent_cases : (if st.isFlat then .done ((), st.mapCurrent f) else .fail : Ask (Unit × State)) = .fail ∨
    ∃ st', (if st.isFlat then .done ((), st.mapCurrent f) else .fail : Ask (Unit × State)) =
      .done ((), st') ∧ Trimmed st st' := by
  by_cases hflat : st.isFlat = true
  · exact .inr ⟨_, if_pos hflat, trimmed_mapCurrent st hf⟩
  · exact .inl (if_neg hflat)

end

theorem destructSuicides_cases (cancun : Bool) (st : State) : destructSuicides cancun st = .fail ∨
    ∃ st', destructSuicides cancun st = .done ((), st') ∧ Trimmed st st' := by
  apply mapCurrent_cases
  intro x
  split_ifs
  · exact ⟨rfl, .inr rfl⟩
  · exact ⟨rfl, .inl rfl⟩

theorem destructTouchedDead_cases (st : State) : destructTouchedDead st = .fail ∨
    ∃ st', destructTouchedDead st = .done ((), st') ∧ Trimmed st st' := by
  apply mapCurrent_cases
  intro x
  split_ifs
  · exact ⟨rfl, .inr rfl⟩
  · exact ⟨rfl, .inl rfl⟩

/-- The deletions ask nothing. -/
theorem cleanup_cases (env : Environment) (st : State) : Transaction.cleanup env st = .fail ∨
    ∃ st', Transaction.cleanup env st = .done ((), st') ∧ Trimmed st st' := by
  have hrun : Transaction.cleanup env st =
      (destructSuicides env.cancun st >>= fun y => destructTouchedDead y.2) := rfl
  rw [hrun]
  rcases destructSuicides_cases env.cancun st with h1 | ⟨st1, h1, htrim1⟩
  · rw [h1]
    exact .inl rfl
  rw [h1, done_bind]
  rcases destructTouchedDead_cases st1 with h2 | ⟨st₂, h2, htrim2⟩
  · exact .inl h2
  · exact .inr ⟨st₂, h2, htrim1.trans htrim2⟩

/-- The final part on a table: the program, then the deletions. -/
theorem finish_answer {env : Environment} {tx : Transaction ε ρ τ} {r : ρ} {st st' : State} {x : τ}
    {v : (q : Query) → q.Answer} (h : (tx.finish env r st).answer v = some (x, st')) :
    ∃ st1, ((tx.final r).run env.keccak st).answer v = some (x, st1) ∧ Trimmed st1 st' := by
  change ((tx.final r).run env.keccak st >>= fun y => Transaction.cleanup env y.2 >>= fun z =>
    .done (y.1, z.2)).answer v = _ at h
  rw [answer_bind] at h
  obtain ⟨⟨x1, st1⟩, hx1, h⟩ := bind_eq_some_iff.mp h
  rcases cleanup_cases env st1 with hc | ⟨st₂, hc, htrim⟩
  · simp [hc] at h
  simp only [hc, done_bind, answer_done, Option.some.injEq, Prod.mk.injEq] at h
  obtain ⟨rfl, rfl⟩ := h
  exact ⟨st1, hx1, htrim⟩

theorem follows_destructSuicides (cancun : Bool) {v : View} :
    Follows v v (Preloaded v) (destructSuicides cancun) := by
  have h := follows_mapCurrent (v := v) fun i x =>
    if x.destructed && (!cancun || x.account.any fun y => decide (y.incarnation = i))
    then { x with account := none } else x
  exact h

theorem follows_destructTouchedDead {v : View} : Follows v v (Preloaded v) destructTouchedDead := by
  have h := follows_mapCurrent (v := v) fun _ x =>
    if x.touched && isDead x.account then { x with account := none } else x
  exact h

theorem follows_cleanup (env : Environment) {v : View} : Follows v v (Preloaded v) (Transaction.cleanup env) :=
  (follows_destructSuicides env.cancun).bind fun _ => follows_destructTouchedDead

theorem follows_finish (env : Environment) (tx : Transaction ε ρ τ) (r : ρ) {v : View} :
    Follows v v (Preloaded v) (tx.finish env r) :=
  (follows_run env.keccak (tx.final r)).bind fun x => (follows_cleanup env).bind fun _ => .pure x

/-! ## One transaction on given contents -/

section One

variable {env : Environment} {j : Nat} {tx : Transaction ε ρ τ} {bs bs' : BlockState}
  {result : Except ε τ}

/-- What a computation served by a block state returns is what it returns on its view. -/
theorem answer_of_serve {α : Type} {t : Ask α} {x : α} (h : t.serve answer bs = some (x, bs')) :
    t.answer bs.view.answer = some x ∧ bs.Grown bs' := by
  obtain ⟨tr, hss, hv, hgr, -⟩ := (served_of_serve h).steps
  exact ⟨answer_of_steps hss hv, hgr⟩

variable {st st' : State}

/-- An honest state has the lives that fit the block state, if those of the block are new. -/
theorem fitsLives_of_honest {number : BitVec 40} {tr : List Event} (hdb : bs.db.Before number)
    (hinc : st.incarnation.block = number) (hhon : Honest bs.view tr st) (htrim : Trimmed st st') :
    bs.FitsLives st' := by
  intro a s' y hs' hy
  obtain ⟨s, hs, -, heq | hnone⟩ := htrim.current a s' hs'
  · rcases (hhon.lives.recent hs).life y (heq.symm.trans hy) with hl | ⟨hbare, hnew⟩
    · exact .inl hl
    refine .inr ⟨hbare, fun horig => ?_⟩
    obtain ⟨y₀, hy0, hi⟩ := map_eq_some_iff.mp horig
    refine hdb a y₀ hy0 ?_
    rw [hi, ← hinc]
    rcases hnew with h | h <;> rw [h]
  · rw [hnone] at hy
    cases hy

section

variable (hdb : bs.db.Before env.number) (hord : tx.Orderly env j bs.view)

include hdb hord

/-- The state at the end of an orderly transaction fits the block state. -/
theorem fitting_of_orderly {r : ρ} {x : τ}
    (hbody : (tx.body.run env.keccak (env.fresh j)).answer bs.view.answer = some (.ok r, st))
    (hfin : (tx.finish env r st).answer bs.view.answer = some (x, st')) : bs.Fitting st' := by
  obtain ⟨st1, hfnl, htrim⟩ := finish_answer hfin
  obtain ⟨tr, hss, hv⟩ := exists_steps_of_answer hbody
  obtain ⟨tr', hss', hv'⟩ := exists_steps_of_answer hfnl
  have hbodyc := (run_ends env.keccak tx.body hord.body).of_steps hss hv
  have hfinalc := (run_ends env.keccak (tx.final r) (hord.final r st hbody)).of_steps hss' hv'
  have hall := hbodyc.trans hfinalc
  have hagr : ∀ e ∈ tr ++ tr', e.2 = bs.view.answer e.1 := by
    intro e he
    rcases List.mem_append.mp he with he | he
    · exact hv e he
    · exact hv' e he
  have hhon : Honest bs.view ([] ++ (tr ++ tr')) st1 :=
    Honest.changes (fun _ h => h) (Honest.fresh bs.view (env.incarnation j) false) hall hagr
  have hinc : st1.incarnation = env.incarnation j := hall.incarnation_eq
  constructor
  · exact fitsLives_of_honest hdb (congrArg (·.block) hinc) hhon htrim
  · intro hash old new hold hnew
    rw [htrim.code] at hnew
    exact hall.code_all (P := fun hash code => ∀ old, bs.view.code hash = some old → old = code)
      (fun _ _ h => by cases h) (fun _ _ h => h) hash new hnew old hold

/-- One transaction, executed and merged on its own. -/
theorem executeOne_spec (h : executeOne env j tx bs = some (result, bs')) : bs'.db = bs.db ∧ ∃ r st,
    (tx.body.run env.keccak (env.fresh j)).answer bs.view.answer = some (r, st) ∧
    ((∃ e, r = .error e ∧ result = .error e ∧ bs'.view = bs.view) ∨
      ∃ r' x st', r = .ok r' ∧ (tx.finish env r' st).answer bs.view.answer = some (x, st') ∧
        result = .ok x ∧ bs.Fitting st' ∧ bs'.view = bs.view.merge st' ∧
        ∀ a s, st'.current.lookup a = some s → s.below = [] ∧ s.version = 0) := by
  obtain ⟨⟨⟨r, st⟩, bs₁⟩, hserve, h⟩ := bind_eq_some_iff.mp h
  obtain ⟨hbody, hgr⟩ := answer_of_serve hserve
  cases r with
  | error e =>
    cases h
    exact ⟨hgr.db_eq, .error e, st, hbody, .inl ⟨e, rfl, rfl, hgr.view_eq⟩⟩
  | ok r =>
    obtain ⟨⟨⟨x, st'⟩, bs2⟩, hserve', h⟩ := bind_eq_some_iff.mp h
    obtain ⟨hfin, hgr'⟩ := answer_of_serve hserve'
    rw [hgr.view_eq] at hfin
    obtain ⟨bs3, hmerge, heq⟩ := map_eq_some_iff.mp h
    cases heq
    have hview : bs2.view = bs.view := hgr'.view_eq.trans hgr.view_eq
    have hdb2 : bs2.db = bs.db := hgr'.db_eq.trans hgr.db_eq
    have hfit : bs.Fitting st' := fitting_of_orderly hdb hord hbody hfin
    have hfit2 : bs2.Fitting st' := hfit.congr hview hdb2 rfl rfl
    obtain ⟨-, -, hdb3, -⟩ := deltas_merge hmerge
    refine ⟨hdb3.trans hdb2, .ok r, st, hbody, .inr ⟨r, x, st', rfl, hfin, rfl, hfit, ?_, ?_⟩⟩
    · rw [view_merge hfit2 hmerge, hview]
    · exact flat_of_merge hmerge

end

end One

end MonadExecution.Ethereum
