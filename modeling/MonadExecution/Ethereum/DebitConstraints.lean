import MonadExecution.Ethereum.Tokens
import MonadExecution.Staking.Basic

/-!
# The constraint that a debit leaves

With relaxed validation a transaction may be merged although the balance of an account is not the one it
was executed with, as long as the balance is at least the recorded minimum. A debit is safe to merge if the
minimum covers it: `Covered`. Every debit of the executor and of the staking precompile records such a
constraint, except that a claim of staking rewards records none.
-/

namespace MonadExecution.Ethereum.Gas

open Option Nat

open Staking (stakingCa)

/-! ## Constraints only get stronger -/

/-- The account must have its exact original balance, or enough for the balance to have fallen to what it
is now. -/
def Covered (v : View) (st : State) (a : Address) : Prop :=
  ∃ o, st.original.lookup a = some o ∧ (o.validateExactBalance = true ∨ o.getBalance - holdings v st a ≤ o.minBalance)

/-- The account must have its exact original balance. -/
def Demanded (st : State) (a : Address) : Prop := ∃ o, st.original.lookup a = some o ∧ o.validateExactBalance = true

/-- The constraint allows the balance of the account to fall to `rest`. -/
def Allowed (st : State) (a : Address) (rest : Nat) : Prop :=
  ∃ o, st.original.lookup a = some o ∧ o.getBalance - rest ≤ o.minBalance

/-- The constraint of `a` is still there, or a stronger one. -/
def Firm (a : Address) (st st' : State) : Prop :=
  ∀ o, st.original.lookup a = some o → ∃ o', st'.original.lookup a = some o' ∧
    o'.getBalance = o.getBalance ∧ (o.validateExactBalance = true → o'.validateExactBalance = true) ∧
    o.minBalance ≤ o'.minBalance

section Firm

variable {a : Address} {st st' st'' : State}

theorem Firm.of_original (h : st'.original = st.original) : Firm a st st' := by
  intro o ho
  exact ⟨o, by rw [h]; exact ho, rfl, id, le_refl _⟩

theorem Firm.trans (h : Firm a st st') (h' : Firm a st' st'') : Firm a st st'' := by
  intro o ho
  obtain ⟨o', ho', hbal, hexact, hmin⟩ := h o ho
  obtain ⟨o'', ho'', hbal', hex', hmin'⟩ := h' o' ho'
  exact ⟨o'', ho'', hbal'.trans hbal, fun he => hex' (hexact he), hmin.trans hmin'⟩

theorem Demanded.firm (h : Demanded st a) (hf : Firm a st st') : Demanded st' a := by
  obtain ⟨o, ho, hexact⟩ := h
  obtain ⟨o', ho', -, hex', -⟩ := hf o ho
  exact ⟨o', ho', hex' hexact⟩

variable {rest : Nat} {v : View} {rule : Rule}

theorem Allowed.firm (h : Allowed st a rest) (hf : Firm a st st') : Allowed st' a rest := by
  obtain ⟨o, ho, hle⟩ := h
  obtain ⟨o', ho', hbal, -, hmin⟩ := hf o ho
  refine ⟨o', ho', ?_⟩
  rw [hbal]
  exact hle.trans hmin

theorem Demanded.covered (h : Demanded st a) : Covered v st a := by
  obtain ⟨o, ho, hexact⟩ := h
  exact ⟨o, ho, .inl hexact⟩

theorem Allowed.covered (h : Allowed st a rest) (hrest : rest ≤ holdings v st a) : Covered v st a := by
  obtain ⟨o, ho, hle⟩ := h
  exact ⟨o, ho, .inr (by omega)⟩

/-- An original that is replaced by one with a stronger constraint. -/
theorem Firm.setOriginal {b : Address} {o o' : OriginalAccountState} (h : st.original.lookup b = some o)
    (hbal : o'.getBalance = o.getBalance) (hexact : o.validateExactBalance = true → o'.validateExactBalance = true)
    (hmin : o.minBalance ≤ o'.minBalance) : Firm a st (st.setOriginal b o') := by
  intro p hp
  rw [lookup_setOriginal]
  split_ifs with hb
  · subst hb
    cases h.symm.trans hp
    exact ⟨o', rfl, hbal, hexact, hmin⟩
  · exact ⟨p, hp, rfl, id, le_refl _⟩

variable {tr : List Event}

/-- No step of a run weakens a constraint. -/
theorem firm_change (h : Change rule st tr st') : Firm a st st' := by
  cases h with
  | load account hnone =>
    intro o ho
    rw [lookup_setOriginal]
    split_ifs with hb
    · subst hb
      cases hnone.symm.trans ho
    · exact ⟨o, ho, rfl, id, le_refl _⟩
  | constrain ho hstate hexact hmin => exact .setOriginal ho (congrArg AccountState.getBalance hstate) hexact hmin
  | slot value ho hkey hx hacc => exact .setOriginal ho rfl id (le_refl _)
  | _ => exact .of_original rfl

theorem firm_changes (h : Changes rule st tr st') : Firm a st st' := by
  induction h with
  | refl => exact .of_original rfl
  | step _ hc ih => exact ih.trans (firm_change hc)

end Firm

section Runs

variable {v : View} {st : State} {keccak : Bytes → Bytes32} {a : Address} {α : Type}

theorem ensures_firm_of_leads {rule : Rule} {m : Method α} {P : α → State → Prop} (h : Leads rule st (m st) P) :
    Ensures v st m fun _ st' => ∀ a, Firm a st st' := by
  intro x st' hx a
  obtain ⟨tr, hss, -⟩ := Reading.exists_steps_of_answer hx
  exact firm_changes (Reading.Ends.of_steps h hss fun _ _ => trivial).1

theorem firm_run (p : Program α) : Ensures v st (p.run keccak) fun _ st' => ∀ a, Firm a st st' :=
  ensures_firm_of_leads (run_leads keccak p st)

theorem firm_exec (c : Call) : Ensures v st (c.exec keccak) fun _ st' => ∀ a, Firm a st st' := by
  rw [← run_run1]
  exact firm_run _

/-- Every call leaves the balances of the originals alone. -/
theorem trueBalances_exec (hb : TrueBalances v st) (c : Call) :
    Ensures v st (c.exec keccak) fun _ st' => TrueBalances v st' := by
  by_cases hc : movesNothing c = true
  · exact (quiet_exec keccak hb hc).mono fun _ _ hq => hq.balances
  cases c with
  | edit a e hpub => exact (ensures_currentAccountState hb e).mono fun _ _ h => h.1
  | push =>
    intro x st' hx
    cases hx
    exact hb
  | popAccept =>
    intro x st' hx
    change (popAccept st).answer v.answer = some (x, st') at hx
    unfold popAccept at hx
    split at hx
    · cases hx
    split at hx
    · cases hx
      exact hb.congr rfl
    · cases hx
  | popReject =>
    intro x st' hx
    change (popReject st).answer v.answer = some (x, st') at hx
    unfold popReject at hx
    split at hx
    · cases hx
    split at hx
    · split at hx
      · cases hx
        exact hb.congr rfl
      · cases hx
    · cases hx
  | _ => exact absurd rfl hc

theorem trueBalances_run (p : Program α) (hb : TrueBalances v st) :
    Ensures v st (p.run keccak) fun _ st' => TrueBalances v st' := by
  induction p generalizing st with
  | ret x => exact .pure hb
  | call c next ih =>
    exact (trueBalances_exec hb c).bind (f := fun r => (next r).run keccak) fun r st' hb' => ih r hb'

/-! ## What records a constraint -/

theorem lookup_originalAccountState : Ensures v st (originalAccountState a) fun o st' =>
    st'.original.lookup a = some o := by
  intro o st' ho
  unfold originalAccountState at ho
  cases hl : st.original.lookup a with
  | some o0 =>
    simp only [hl] at ho
    cases ho
    exact hl
  | none =>
    simp only [hl] at ho
    cases ho
    exact Table.lookup_insert_ite .. |>.trans (if_pos rfl)

theorem demands_setValidateExactBalance : Ensures v st (setValidateExactBalance a) fun _ st' => Demanded st' a := by
  refine (lookup_originalAccountState (a := a)).bind fun o st1 ho => .modifyState ?_
  exact ⟨_, lookup_setOriginal .. |>.trans (if_pos rfl), rfl⟩

theorem demands_getBalance : Ensures v st (getBalance a) fun _ st' => Demanded st' a := by
  intro x st' hx
  unfold getBalance at hx
  rw [Method.bind_run, Reading.answer_bind] at hx
  obtain ⟨⟨y, st1⟩, -, hx⟩ := bind_eq_some_iff.mp hx
  exact demands_setValidateExactBalance.bind (R := fun _ st' => Demanded st' a) (fun _ _ h => .pure h) _ _ hx

/-- A debit that is found to be covered is recorded. -/
theorem ensures_recordBalanceConstraintForDebit (hb : TrueBalances v st) (debit : Nat) :
    Ensures v st (recordBalanceConstraintForDebit a debit) fun r st' => r = true →
      debit ≤ holdings v st a ∧ Allowed st' a (holdings v st a - debit) := by
  refine (ensures_recentAccountState hb).bind ?_
  rintro x st1 ⟨hq, hx⟩
  refine (lookup_originalAccountState (a := a)).bind fun o st₂ ho => ?_
  by_cases hd : debit ≤ x.getBalance
  · rw [if_pos hd]
    rw [hx] at hd ⊢
    by_cases hlt : holdings v st a - debit < o.getBalance
    · simp only [if_pos hlt]
      refine (Ensures.modifyState (R := fun _ st' => Allowed st' a (holdings v st a - debit)) ?_).bind
        fun _ _ h => .pure fun _ => ⟨hd, h⟩
      exact ⟨_, lookup_setOriginal .. |>.trans (if_pos rfl), le_max_right ..⟩
    · simp only [if_neg hlt]
      refine .pure fun _ => ⟨hd, o, ho, ?_⟩
      omega
  · rw [if_neg hd]
    refine (demands_setValidateExactBalance (a := a)).bind fun _ _ _ => .pure fun h => ?_
    cases h

end Runs

/-! ## The debits -/

inductive CallKind
  | call | delegatecall | callcode | create | create2
  deriving DecidableEq, Repr

/-- What the value transfer of a message depends on. -/
structure Message where
  kind : CallKind
  isStatic : Bool := false
  depth : Nat := 0
  sender : Address
  recipient : Address
  value : Nat
  deriving DecidableEq, Repr

def senderHasBalance (msg : Message) : Program Bool := .run1 (.recordBalanceConstraintForDebit msg.sender msg.value)

/-- The end of `pre_call`: an account that is called statically is touched. -/
def touchStatic (msg : Message) : Program (Except MonadException Bool) :=
  if msg.kind = .call ∧ msg.isStatic = true then do
    touch msg.recipient
    pure (.ok true)
  else pure (.ok true)

/-- Open the frame of a call and move its value; `false` is a sender with too little balance. -/
def preCall (msg : Message) : Program (Except MonadException Bool) := do
  Program.run1 .push
  if msg.kind = .delegatecall then touchStatic msg
  else do
    let has ← senderHasBalance msg
    if has then
      if msg.isStatic then touchStatic msg
      else do
        match ← transferBalances msg.sender msg.recipient msg.value with
        | .error e => pure (.error e)
        | .ok () => touchStatic msg
    else do
      Program.run1 .popReject
      pure (.ok false)

/-- How far the creation of a contract gets before its code is run. -/
inductive CreateStart
  | insufficientBalance | nonceOverflow | collision
  | started (contract : Address)
  deriving DecidableEq, Repr

/-- From Monad revision five on, a creating transaction whose sender cannot pay uses up a nonce. -/
def countFailedCreate (keccak : Bytes → Bytes32) (traits : Traits) (msg : Message) : Method Unit :=
  match traits with
  | .evm _ => pure ()
  | .monad rev =>
    if .five ≤ rev ∧ msg.depth = 0 then do
      let nonce ← (getNonce msg.sender).run keccak
      if nonce = 2 ^ 64 - 1 then abort else (setNonce msg.sender (nonce + 1)).run keccak
    else pure ()

/-- The beginning of `execute_create_message`; the address of the contract depends on the nonce. -/
def startCreate (keccak : Bytes → Bytes32) (traits : Traits) (contractAddress : Nat → Address)
    (msg : Message) : Method (Except MonadException CreateStart) := do
  let has ← (senderHasBalance msg).run keccak
  if has then do
    let nonce ← (getNonce msg.sender).run keccak
    if nonce = 2 ^ 64 - 1 then pure (.ok .nonceOverflow)
    else do
      (setNonce msg.sender (nonce + 1)).run keccak
      let _ ← (accessAccount (contractAddress nonce)).run keccak
      let contractNonce ← (getNonce (contractAddress nonce)).run keccak
      let hash ← (getCodeHash (contractAddress nonce)).run keccak
      if contractNonce ≠ 0 ∨ hash ≠ nullHash then pure (.ok .collision)
      else do
        (Program.run1 .push).run keccak
        (createContract (contractAddress nonce)).run keccak
        (setNonce (contractAddress nonce) 1).run keccak
        match ← (transferBalances msg.sender (contractAddress nonce) msg.value).run keccak with
        | .error e => pure (.error e)
        | .ok () => pure (.ok (.started (contractAddress nonce)))
  else do
    countFailedCreate keccak traits msg
    pure (.ok .insufficientBalance)

/-- What `init_reserve_balance_context` reads of the state. -/
def initReserveBalanceContext (traits : Traits) (sender : Address) : Program Unit :=
  match traits with
  | .evm _ => pure ()
  | .monad rev =>
    if .four ≤ rev then do
      let hash ← getCodeHash sender
      if hash = nullHash then pure ()
      else do
        let _ ← Program.run1 (.readCode hash)
        pure ()
    else pure ()

/-- Validation and the up-front charge; `false` is an invalid transaction, which demands the exact balance
as a precaution. -/
def validateAndCharge (keccak : Bytes → Bytes32) (traits : Traits) (tx : Transaction) (sender : Address)
    (baseFeePerGas excessBlobGas : Nat) (authorities : List (Option Address)) :
    Method (Except MonadException Bool) := do
  match ← validateTransaction keccak traits tx sender baseFeePerGas authorities with
  | .error _ => do
    setValidateExactBalance sender
    pure (.ok false)
  | .ok () => do
    (initReserveBalanceContext traits sender).run keccak
    match ← irrevocableChange keccak traits tx sender baseFeePerGas excessBlobGas with
    | .error e => pure (.error e)
    | .ok () => pure (.ok true)

/-- `send_tokens` of the staking contract. -/
def sendTokens (recipient : Address) (amount : Nat) : Program (Except MonadException Unit) := do
  match ← addToBalance recipient amount with
  | .error e => pure (.error e)
  | .ok () => subtractFromBalance stakingCa amount

/-- The payment of a withdrawal; `false` is an insolvent contract. -/
def payWithdrawal (recipient : Address) (amount : Nat) : Program (Except MonadException Bool) := do
  let contractBalance ← Program.run1 (.getBalance stakingCa)
  if amount ≤ contractBalance then do
    match ← sendTokens recipient amount with
    | .error e => pure (.error e)
    | .ok () => pure (.ok true)
  else pure (.ok false)

/-- The payment of a claim. -/
def payRewards (recipient : Address) (rewards : Nat) : Program (Except MonadException Unit) :=
  if rewards ≠ 0 then sendTokens recipient rewards else pure (.ok ())

section Debits

variable {v : View} {st : State} {keccak : Bytes → Bytes32} {a : Address} {recipient sender : Address} {value : Nat}
  {traits : Traits} {tx : Transaction}

/-- A transfer takes no more from the sender than its value. -/
theorem le_holdings_transferBalances (hb : TrueBalances v st) :
    Ensures v st ((transferBalances a recipient value).run keccak) fun r st' => r = .ok () →
      holdings v st a - value ≤ holdings v st' a := by
  refine ensures_run_bind (ensures_subtractFromBalance hb value) ?_
  rintro r st1 ⟨hb1, hr⟩
  cases r with
  | error e => exact .pure fun h => by cases h
  | ok u =>
    obtain ⟨-, hh1⟩ := hr rfl
    refine (ensures_addToBalance hb1 value).mono ?_
    rintro r' st₂ ⟨-, hh2⟩ hok
    rw [hh2 hok, hh1]
    by_cases ha : a = recipient
    · subst ha
      simp
    · simp [Function.update_of_ne ha]

/-- A transfer of what has been allowed is covered. -/
theorem Allowed.transferBalances (hb : TrueBalances v st) (h : Allowed st a (holdings v st a - value)) :
    Ensures v st ((transferBalances a recipient value).run keccak) fun r st' => r = .ok () → Covered v st' a :=
  ((le_holdings_transferBalances hb).and (firm_run _)).mono fun _ _ hr hok => (h.firm (hr.2 a)).covered (hr.1 hok)

theorem quiet_run1 {c : Call} (hb : TrueBalances v st) (hc : movesNothing c = true) :
    Ensures v st ((Program.run1 c).run keccak) fun _ st' => Quiet v st st' ∧ ∀ a, Firm a st st' :=
  ensures_run1 ((quiet_exec keccak hb hc).and (firm_exec c))

theorem quiet_push (hb : TrueBalances v st) :
    Ensures v st ((Program.run1 .push).run keccak) fun _ st' => Quiet v st st' ∧ ∀ a, Firm a st st' := by
  refine ensures_run1 ?_
  intro x st' hx
  cases hx
  exact ⟨⟨hb, holdings_congr rfl⟩, fun _ => .of_original rfl⟩

/-- A call with value. -/
theorem covered_preCall (hb : TrueBalances v st) {msg : Message} (hkind : msg.kind ≠ .delegatecall)
    (hstatic : msg.isStatic = false) :
    Ensures v st ((preCall msg).run keccak) fun r st' => r = .ok true → Covered v st' msg.sender := by
  refine ensures_run_bind (quiet_push hb) ?_
  rintro - st1 ⟨hq1, -⟩
  rw [if_neg hkind]
  refine ensures_run_bind (ensures_run1 ((ensures_recordBalanceConstraintForDebit hq1.balances
    msg.value).and (quiet_exec keccak hq1.balances (c := .recordBalanceConstraintForDebit msg.sender
    msg.value) rfl))) ?_
  rintro has st₂ ⟨hrec, hq2⟩
  cases has with
  | false =>
    refine ensures_run_bind .any fun _ _ _ => .pure fun h => ?_
    cases h
  | true =>
    obtain ⟨-, hall⟩ := hrec rfl
    rw [← hq2.holdings_eq] at hall
    simp only [hstatic, if_true, Bool.false_eq_true, if_false]
    refine ensures_run_bind (hall.transferBalances hq2.balances) fun r st3 hr => ?_
    cases r with
    | error e => exact .pure fun h => by cases h
    | ok u =>
      simp only [touchStatic, hstatic, Bool.false_eq_true, and_false, if_false]
      exact .pure fun _ => hr rfl

variable {st' : State} {α : Type}

/-- What has been allowed is still allowed after steps that move nothing. -/
theorem Allowed.quiet (h : Allowed st a (holdings v st a - value)) (hq : Quiet v st st' ∧ ∀ a, Firm a st st') :
    Allowed st' a (holdings v st' a - value) := by
  rw [hq.1.holdings_eq]
  exact h.firm (hq.2 a)

/-- The creation of a contract with value. -/
theorem covered_startCreate (hb : TrueBalances v st) (traits : Traits) (contractAddress : Nat → Address)
    (msg : Message) :
    Ensures v st (startCreate keccak traits contractAddress msg) fun r st' =>
      ∀ b, r = .ok (.started b) → Covered v st' msg.sender := by
  refine (ensures_run1 ((ensures_recordBalanceConstraintForDebit hb msg.value).and (quiet_exec keccak hb
    (c := .recordBalanceConstraintForDebit msg.sender msg.value) rfl))).bind ?_
  rintro has st1 ⟨hrec, hq1⟩
  cases has with
  | false =>
    refine .bind .any fun _ _ _ => .pure fun _ h => ?_
    cases h
  | true =>
    have h1 := (hrec rfl).2
    rw [← hq1.holdings_eq] at h1
    simp only [if_true]
    refine (quiet_run1 hq1.balances rfl).bind fun nonce st₂ hq2 => ?_
    have h2 := h1.quiet hq2
    split_ifs
    · exact .pure fun _ h => by cases h
    refine (quiet_run1 hq2.1.balances rfl).bind fun _ st3 hq3 => ?_
    refine (quiet_run1 hq3.1.balances rfl).bind fun _ st4 hq4 => ?_
    refine (quiet_run1 hq4.1.balances rfl).bind fun contractNonce st5 hq5 => ?_
    refine (quiet_run1 hq5.1.balances rfl).bind fun hash st6 hq6 => ?_
    have h6 := (((h2.quiet hq3).quiet hq4).quiet hq5).quiet hq6
    split_ifs
    · exact .pure fun _ h => by cases h
    refine (quiet_push hq6.1.balances).bind fun _ st7 hq7 => ?_
    refine (quiet_run1 hq7.1.balances rfl).bind fun _ st8 hq8 => ?_
    refine (quiet_run1 hq8.1.balances rfl).bind fun _ st9 hq9 => ?_
    have h9 := ((h6.quiet hq7).quiet hq8).quiet hq9
    refine (h9.transferBalances hq9.1.balances).bind fun r st' hr => ?_
    cases r with
    | error e => exact .pure fun _ h => by cases h
    | ok u => exact .pure fun _ _ => hr rfl

/-- Once the exact balance is demanded, every debit is covered. -/
theorem Demanded.run (h : Demanded st a) (p : Program α) : Ensures v st (p.run keccak) fun _ st' => Covered v st' a :=
  (firm_run p).mono fun _ _ hf => (h.firm (hf a)).covered

/-- `SELFDESTRUCT` reads the balance it moves. -/
theorem covered_selfdestruct (cancun : Bool) (beneficiary : Address) :
    Ensures v st ((selfdestruct cancun a beneficiary).run keccak) fun _ st' => Covered v st' a := by
  refine ensures_run_bind .any fun _ _ _ => ?_
  refine ensures_run_bind (ensures_run1 (demands_getBalance (a := a))) fun _ st₂ h => ?_
  exact h.run _

/-- A withdrawal reads the balance of the contract. -/
theorem covered_payWithdrawal (recipient : Address) (amount : Nat) :
    Ensures v st ((payWithdrawal recipient amount).run keccak) fun _ st' => Covered v st' stakingCa := by
  refine ensures_run_bind (ensures_run1 (demands_getBalance (a := stakingCa))) fun _ st₂ h => ?_
  exact h.run _

/-! ## The up-front charge -/

theorem Firm.bind {β : Type} {m : Method α} {f : α → Method β} (hm : Ensures v st m fun _ st' => Firm a st st')
    (hf : ∀ x st', Ensures v st' (f x) fun _ st'' => Firm a st' st'') :
    Ensures v st (m >>= f) fun _ st'' => Firm a st st'' :=
  Ensures.bind hm fun x st' h => (hf x st').mono fun _ _ h' => h.trans h'

theorem firm_irrevocableChange (traits : Traits) (tx : Transaction) (sender : Address) (base excess : Nat) :
    Ensures v st (irrevocableChange keccak traits tx sender base excess) fun _ st' => Firm a st st' := by
  refine Firm.bind ?_ fun _ st1 => ?_
  · unfold increaseNonce
    split_ifs
    · exact Firm.bind ((firm_run _).mono fun _ _ h => h a) fun _ _ => (firm_run _).mono fun _ _ h => h a
    · exact .pure (.of_original rfl)
  · cases gasPrice traits tx base with
    | none => exact .abort
    | some price => exact (firm_run _).mono fun _ _ h => h a

/-- The constraint that the charge of a valid transaction needs: the exact balance, or nothing for a sender
without an account, who pays nothing. -/
def Chargeable (st : State) (sender : Address) : Prop := Demanded st sender ∨ Allowed st sender 0

theorem Chargeable.firm (h : Chargeable st sender) (hf : Firm sender st st') : Chargeable st' sender :=
  h.imp (·.firm hf) (·.firm hf)

theorem Chargeable.covered (h : Chargeable st sender) : Covered v st sender :=
  h.elim (·.covered) (·.covered (zero_le _))

theorem accountExists_start (hbeg : st.current.lookup sender = none) :
    Ensures v st ((accountExists sender).run keccak) fun found st' => found = false → Allowed st' sender 0 := by
  refine ensures_run1 (.bind (Q := fun x st' => ∃ o, st'.original.lookup sender = some o ∧
    o.toAccountState = x) ?_ ?_)
  · intro x st' hx
    unfold recentAccountState at hx
    simp only [hbeg, Reading.answer_bind] at hx
    obtain ⟨⟨o, st1⟩, ho, hx⟩ := bind_eq_some_iff.mp hx
    cases hx
    exact ⟨o, lookup_originalAccountState o _ ho, rfl⟩
  · rintro x st1 ⟨o, ho, rfl⟩ found st₂ hfd hnone
    cases hfd
    refine ⟨o, ho, ?_⟩
    have haccount : o.account = none := by
      have hisSome : o.account.isSome = false := hnone
      simpa using hisSome
    simp [AccountState.getBalance, haccount]

theorem chargeable_validateEthereumTransaction (hbeg : st.current.lookup sender = none) :
    Ensures v st ((validateEthereumTransaction traits tx sender).run keccak) fun r st' =>
      r = .ok () → Chargeable st' sender := by
  unfold validateEthereumTransaction
  cases maxCost tx with
  | none => exact .pure fun h => by cases h
  | some v0 =>
    refine ensures_run_bind (accountExists_start hbeg) fun found st1 hfd => ?_
    cases found with
    | false =>
      simp only [Bool.false_eq_true, if_false]
      split_ifs
      · exact .pure fun h => by cases h
      · exact .pure fun h => by cases h
      · exact .pure fun _ => .inr (hfd rfl)
    | true =>
      refine ensures_run_bind .any fun isEoa st₂ _ => ?_
      cases isEoa with
      | false => exact .pure fun h => by cases h
      | true =>
        refine ensures_run_bind .any fun nonce st3 _ => ?_
        split_ifs
        · exact .pure fun h => by cases h
        refine ensures_run_bind (ensures_run1 (demands_getBalance (a := sender))) fun _ st4 h => ?_
        split_ifs
        · exact .pure fun h => by cases h
        · exact .pure fun _ => .inl h

theorem chargeable_validateTransaction (hbeg : st.current.lookup sender = none) (base : Nat)
    (authorities : List (Option Address)) :
    Ensures v st (validateTransaction keccak traits tx sender base authorities) fun r st' =>
      r = .ok () → Chargeable st' sender := by
  rcases validateTransaction_cases keccak traits tx sender base authorities with he | ⟨-, k, he, hk⟩ <;> rw [he]
  · refine (chargeable_validateEthereumTransaction hbeg).bind fun res st1 h => .pure fun hres => ?_
    cases res with
    | error e => cases hres
    | ok u => exact h rfl
  refine .bind .any fun res st1 _ => ?_
  rcases hk res with hres | ⟨price, -, hres⟩ | ⟨e, hres⟩ <;> rw [hres]
  · exact .abort
  · refine (demands_getBalance (a := sender)).bind fun _ st₂ h => ?_
    split_ifs
    · exact .pure fun h => by cases h
    · exact .pure fun h => by cases h
    · exact .pure fun _ => .inl h
  · exact .pure fun h => by cases h

/-- The charge of a valid transaction. -/
theorem covered_validateAndCharge (hbeg : st.current.lookup sender = none) (base excess : Nat)
    (authorities : List (Option Address)) :
    Ensures v st (validateAndCharge keccak traits tx sender base excess authorities) fun r st' =>
      r = .ok true → Covered v st' sender := by
  refine (chargeable_validateTransaction hbeg base authorities).bind fun valid st1 h1 => ?_
  cases valid with
  | error e =>
    refine .bind .any fun _ _ _ => .pure fun h => ?_
    cases h
  | ok u =>
    refine (firm_run _).bind fun _ st₂ hf2 => ?_
    refine (firm_irrevocableChange (a := sender) traits tx sender base excess).bind fun r st3 hf3 => ?_
    cases r with
    | error e => exact .pure fun h => by cases h
    | ok u => exact .pure fun _ => (((h1 rfl).firm (hf2 sender)).firm hf3).covered

end Debits

/-- **Debits leave a merge constraint**, at any point of a transaction: value transfers of calls and of
creations, the up-front charge, `SELFDESTRUCT` and withdrawals of stake; a claim of rewards where the exact
balance of the contract has been demanded before. -/
theorem debits_leave_constraint (keccak : Bytes → Bytes32) (v : View) {st₀ st : State} (hbegin : Begins v st₀)
    {α : Type} (earlier : Program α) {x : α} (hrun : (earlier.run keccak st₀).answer v.answer = some (x, st)) :
    (∀ msg : Message, msg.kind ≠ .delegatecall → msg.isStatic = false →
      Ensures v st ((preCall msg).run keccak) fun r st' => r = .ok true → Covered v st' msg.sender) ∧
    (∀ traits contractAddress msg, Ensures v st (startCreate keccak traits contractAddress msg)
      fun r st' => ∀ b, r = .ok (.started b) → Covered v st' msg.sender) ∧
    (∀ traits tx sender base excess authorities,
      Ensures v st₀ (validateAndCharge keccak traits tx sender base excess authorities)
        fun r st' => r = .ok true → Covered v st' sender) ∧
    (∀ cancun a beneficiary, Ensures v st ((selfdestruct cancun a beneficiary).run keccak)
      fun _ st' => Covered v st' a) ∧
    (∀ recipient amount, Ensures v st ((payWithdrawal recipient amount).run keccak)
      fun _ st' => Covered v st' stakingCa) ∧
    ∀ recipient rewards, Demanded st stakingCa → Ensures v st ((payRewards recipient rewards).run keccak)
      fun _ st' => Covered v st' stakingCa := by
  have hb : TrueBalances v st := trueBalances_run earlier hbegin.balances _ _ hrun
  refine ⟨fun msg hkind hstatic => covered_preCall hb hkind hstatic, covered_startCreate hb,
    fun traits tx sender base excess authorities => covered_validateAndCharge ?_ base excess authorities,
    fun cancun a beneficiary => covered_selfdestruct cancun beneficiary, covered_payWithdrawal,
    fun recipient rewards h => h.run _⟩
  rw [hbegin.current]
  rfl

/-- Contents in which the staking contract and address 8 have a balance. -/
def stakingContents : View where
  account a := if a = stakingCa then some { balance := 10 } else if a = 8 then some { balance := 5 }
    else none
  slot _ _ := 0
  code _ := none
  absent _ _ _ := rfl

/-- Address 8 calls the contract and pays it something. -/
def sampleCall (value : Nat) : Message := { kind := .call, sender := 8, recipient := stakingCa, value }

theorem debits_leave_constraint_sample : ∃ st',
    ((preCall (sampleCall 3)).run (fun _ => 0) { incarnation := ⟨1, 1⟩ }).answer stakingContents.answer =
      some (.ok true, st') ∧ Covered stakingContents st' 8 := by
  have hdone : (((preCall (sampleCall 3)).run (fun _ => 0) { incarnation := ⟨1, 1⟩ }).answer
      stakingContents.answer).map (·.1) = some (.ok true) := by decide +kernel
  obtain ⟨⟨r, st'⟩, hst', rfl⟩ := map_eq_some_iff.mp hdone
  exact ⟨st', hst', (debits_leave_constraint (fun _ => 0) stakingContents (begins_fresh _ _ _)
    (pure () : Program Unit) rfl).1 (sampleCall 3) (by decide) rfl _ _ hst' rfl⟩

/-- A claim: the call of the contract, without value, and the payment of three tokens. -/
def claimCall : Program (Except MonadException Unit) := do
  match ← preCall (sampleCall 0) with
  | .error e => pure (.error e)
  | .ok _ => payRewards 8 3

/-- **A claim of rewards leaves no constraint on the contract.** -/
theorem claim_leaves_no_constraint : ∃ st',
    (claimCall.run (fun _ => 0) { incarnation := ⟨1, 1⟩ }).answer stakingContents.answer =
      some (.ok (), st') ∧ ¬ Covered stakingContents st' stakingCa := by
  have hdone : ((claimCall.run (fun _ => 0) { incarnation := ⟨1, 1⟩ }).answer stakingContents.answer).map
      (fun y => (y.1, (y.2.original.lookup stakingCa).map fun o =>
        (o.validateExactBalance, o.getBalance, o.minBalance), holdings stakingContents y.2 stakingCa)) =
      some (.ok (), some (false, 10, 0), 7) := by decide +kernel
  obtain ⟨⟨r, st'⟩, hst', hfacts⟩ := map_eq_some_iff.mp hdone
  simp only [Prod.mk.injEq, map_eq_some_iff] at hfacts
  obtain ⟨rfl, ⟨o, ho, hexact, hbalance, hmin⟩, hhs⟩ := hfacts
  refine ⟨st', hst', ?_⟩
  rintro ⟨o', ho', hcov⟩
  cases ho.symm.trans ho'
  rw [hexact, hbalance, hmin, hhs] at hcov
  simp at hcov

end MonadExecution.Ethereum.Gas
