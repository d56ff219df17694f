import MonadExecution.Lib.Ledger
import MonadExecution.Ethereum.ExecuteTransaction
import MonadExecution.Ethereum.Merge

/-!
# What the accounts hold

The ledger of a running transaction: `holdings v st` is the balance of every address once the state `st`
is merged into the contents `v`. Most calls leave it alone (`quiet_exec`), and a balance operation changes
one entry (`answer_addToBalance`, `answer_subtractFromBalance`). Both need that the originals the state
has recorded have the balances of `v`.
-/

namespace MonadExecution.Ethereum.Gas

open Function Option Reading Edit

scoped instance : Fintype Address :=
  Fintype.ofEquiv (Fin (2 ^ 160)) ⟨BitVec.ofFin, BitVec.toFin, fun _ => rfl, fun _ => rfl⟩

/-- The balance of an address. -/
def balance (v : View) (a : Address) : Nat := ((v.account a).map (·.balance)).getD 0

/-- The balance of an address as the state has it. -/
def holdings (v : View) (st : State) : Address → Nat := balance (v.merge st)

/-- The originals have the balances of the view. -/
def TrueBalances (v : View) (st : State) : Prop := ∀ a o, st.original.lookup a = some o → o.getBalance = balance v a

/-- A step that has not changed any balance. -/
structure Quiet (v : View) (st st' : State) : Prop where
  balances : TrueBalances v st'
  holdings_eq : holdings v st' = holdings v st

section

variable {v : View} {st st' st'' : State} {a : Address}

theorem Quiet.refl (h : TrueBalances v st) : Quiet v st st := ⟨h, rfl⟩

theorem Quiet.trans (h : Quiet v st st') (h' : Quiet v st' st'') : Quiet v st st'' :=
  ⟨h'.balances, h'.holdings_eq.trans h.holdings_eq⟩

theorem holdings_of_some {s : VersionStack AccountState} (h : st.current.lookup a = some s) :
    holdings v st a = s.recent.getBalance := by
  unfold holdings balance View.merge AccountState.getBalance
  simp only [h]

theorem holdings_of_none (h : st.current.lookup a = none) : holdings v st a = balance v a := by
  unfold holdings balance View.merge
  simp only [h]

theorem holdings_congr (h : st'.current = st.current) : holdings v st' = holdings v st := by
  funext b
  cases hs : st.current.lookup b with
  | some s => rw [holdings_of_some hs, holdings_of_some (h ▸ hs)]
  | none => rw [holdings_of_none hs, holdings_of_none (h ▸ hs)]

theorem holdings_setCurrent (st : State) (a : Address) (x : AccountState) :
    holdings v (st.setCurrent a x) = update (holdings v st) a x.getBalance := by
  funext b
  have hlook : (st.setCurrent a x).current.lookup b = if b = a then some _
      else st.current.lookup b := Table.lookup_insert_ite ..
  rcases eq_or_ne b a with rfl | hne
  · rw [if_pos rfl] at hlook
    rw [holdings_of_some hlook, update_self]
    cases st.current.lookup b <;> simp [VersionStack.start]
  · rw [if_neg hne] at hlook
    rw [update_of_ne hne]
    cases hs : st.current.lookup b with
    | some s => rw [holdings_of_some (hlook.trans hs), holdings_of_some hs]
    | none => rw [holdings_of_none (hlook.trans hs), holdings_of_none hs]

/-- Recording something of an account whose balance is right. -/
theorem Quiet.setOriginal (h : TrueBalances v st) {o : OriginalAccountState}
    (ho : o.getBalance = balance v a) : Quiet v st (st.setOriginal a o) := by
  refine ⟨?_, holdings_congr rfl⟩
  intro b o' ho'
  rw [lookup_setOriginal] at ho'
  split_ifs at ho' with hb
  · cases ho'
    rw [hb]
    exact ho
  · exact h b o' ho'

end

theorem TrueBalances.congr {v : View} {st st' : State} (h : TrueBalances v st)
    (hori : st'.original = st.original) : TrueBalances v st' := by
  unfold TrueBalances
  rw [hori]
  exact h

/-! ## Methods on the contents of a block state -/

/-- With the answers of `v`, the method ends in `Q` if it ends. -/
def Ensures {α : Type} (v : View) (st : State) (m : Method α) (Q : α → State → Prop) : Prop :=
  ∀ x st', (m st).answer v.answer = some (x, st') → Q x st'

namespace Ensures

variable {α β : Type} {v : View} {st : State} {m : Method α} {Q : α → State → Prop}

theorem any : Ensures v st m fun _ _ => True := fun _ _ _ => trivial

theorem pure {x : α} (h : Q x st) : Ensures v st (Pure.pure x : Method α) Q := by
  intro y st' hy
  cases hy
  exact h

theorem abort : Ensures v st (Ethereum.abort : Method α) Q := by
  intro y st' hy
  cases hy

theorem bind {f : α → Method β} {R : β → State → Prop} (hm : Ensures v st m Q)
    (hf : ∀ x st', Q x st' → Ensures v st' (f x) R) : Ensures v st (m >>= f) R := by
  intro y st'' hy
  rw [Method.bind_run, answer_bind] at hy
  obtain ⟨⟨x, st'⟩, hx, hy⟩ := bind_eq_some_iff.mp hy
  exact hf x st' (hm x st' hx) y st'' hy

variable {R : α → State → Prop}

theorem mono (h : Ensures v st m Q) (hR : ∀ x st', Q x st' → R x st') :
    Ensures v st m R := fun x st' hx => hR x st' (h x st' hx)

theorem and (h : Ensures v st m Q) (h' : Ensures v st m R) :
    Ensures v st m fun x st' => Q x st' ∧ R x st' := fun x st' hx => ⟨h x st' hx, h' x st' hx⟩

theorem modifyState {f : State → State} {R : Unit → State → Prop} (h : R () (f st)) :
    Ensures v st (Ethereum.modifyState f) R := by
  intro y st' hy
  cases hy
  exact h

theorem query {q : Query} {R : q.Answer → State → Prop} (h : R (v.answer q) st) :
    Ensures v st (Ethereum.query q) R := by
  intro y st' hy
  cases hy
  exact h

end Ensures

/-- With the answers of `v`, the method ends, and it does so in `Q`. -/
def Returns {α : Type} (v : View) (st : State) (m : Method α) (Q : α → State → Prop) : Prop :=
  ∃ x st', (m st).answer v.answer = some (x, st') ∧ Q x st'

namespace Returns

variable {α β : Type} {v : View} {st : State} {m : Method α} {Q : α → State → Prop}

theorem pure {x : α} (h : Q x st) : Returns v st (Pure.pure x : Method α) Q := ⟨x, st, rfl, h⟩

theorem bind {f : α → Method β} {R : β → State → Prop} (hm : Returns v st m Q)
    (hf : ∀ x st', Q x st' → Returns v st' (f x) R) : Returns v st (m >>= f) R := by
  obtain ⟨x, st1, hx, hQ⟩ := hm
  obtain ⟨y, st₂, hy, hR⟩ := hf x st1 hQ
  refine ⟨y, st₂, ?_, hR⟩
  rw [Method.bind_run, answer_bind, hx]
  exact hy

variable {R : α → State → Prop}

theorem and (h : Returns v st m Q) (h' : Ensures v st m R) : Returns v st m fun x st' => Q x st' ∧ R x st' := by
  obtain ⟨x, st', hx, hQ⟩ := h
  exact ⟨x, st', hx, hQ, h' x st' hx⟩

theorem mono (h : Returns v st m Q) (hR : ∀ x st', Q x st' → R x st') : Returns v st m R := by
  obtain ⟨x, st', hx, hQ⟩ := h
  exact ⟨x, st', hx, hR x st' hQ⟩

end Returns

section Methods

variable {v : View} {st : State} {a : Address}

theorem ensures_originalAccountState (h : TrueBalances v st) : Ensures v st (originalAccountState a) fun o st' =>
    Quiet v st st' ∧ st'.current = st.current ∧ o.getBalance = balance v a := by
  intro o st' ho
  unfold originalAccountState at ho
  cases hl : st.original.lookup a with
  | some o0 =>
    simp only [hl] at ho
    cases ho
    exact ⟨.refl h, rfl, h a o hl⟩
  | none =>
    simp only [hl] at ho
    cases ho
    exact ⟨.setOriginal h rfl, rfl, rfl⟩

theorem ensures_recentAccountState (h : TrueBalances v st) : Ensures v st (recentAccountState a) fun x st' =>
    Quiet v st st' ∧ x.getBalance = holdings v st a := by
  intro x st' hx
  unfold recentAccountState at hx
  cases hl : st.current.lookup a with
  | some s =>
    simp only [hl] at hx
    cases hx
    exact ⟨.refl h, (holdings_of_some hl).symm⟩
  | none =>
    simp only [hl, answer_bind] at hx
    obtain ⟨⟨o, st1⟩, ho, hx⟩ := bind_eq_some_iff.mp hx
    cases hx
    obtain ⟨hq, -, hbal⟩ := ensures_originalAccountState h o _ ho
    exact ⟨hq, hbal.trans (holdings_of_none hl).symm⟩

/-- An edit changes one entry of the ledger. -/
theorem ensures_currentAccountState (h : TrueBalances v st) (e : Edit) :
    Ensures v st (currentAccountState a e) fun r st' => TrueBalances v st' ∧
      ∃ (i : Incarnation) (x x' : AccountState), x.getBalance = holdings v st a ∧ e.apply i x = some (r, x') ∧
        holdings v st' = update (holdings v st) a x'.getBalance := by
  refine (ensures_recentAccountState h).bind ?_
  rintro x st1 ⟨hq, hx⟩ r st₂ hr
  rw [Method.bind_run, answer_bind] at hr
  obtain ⟨⟨i, st3⟩, hi, hr⟩ := bind_eq_some_iff.mp hr
  cases hi
  cases he : e.apply st1.incarnation x with
  | none =>
    simp only [he] at hr
    cases hr
  | some y =>
    simp only [he] at hr
    cases hr
    refine ⟨hq.balances, _, x, y.2, hx, he, ?_⟩
    rw [holdings_setCurrent, hq.holdings_eq]

/-- Reading an account always succeeds. -/
theorem recentAccountState_returns (v : View) (st : State) (a : Address) :
    Returns v st (recentAccountState a) fun _ _ => True := by
  unfold Returns recentAccountState originalAccountState
  cases st.current.lookup a with
  | some s => exact ⟨_, _, rfl, trivial⟩
  | none => cases st.original.lookup a <;> exact ⟨_, _, rfl, trivial⟩

variable {e : Edit}

/-- An edit without an assertion succeeds. -/
theorem currentAccountState_returns (v : View) (st : State) (a : Address) (he : ∀ i x, (e.apply i x).isSome) :
    Returns v st (currentAccountState a e) fun _ _ => True := by
  obtain ⟨x, st1, hx, -⟩ := recentAccountState_returns v st a
  obtain ⟨⟨r, x'⟩, hr⟩ := isSome_iff_exists.mp (he st1.incarnation x)
  refine ⟨r, st1.setCurrent a x', ?_, trivial⟩
  unfold currentAccountState
  rw [Method.bind_run, answer_bind, hx, bind_some, Method.bind_run, answer_bind]
  show Option.bind (some (st1.incarnation, st1)) _ = _
  simp only [bind_some, hr]
  rfl

theorem balance_orCreate (x : AccountState) (i : Incarnation) : (x.orCreate i).balance = x.getBalance := by
  unfold AccountState.orCreate AccountState.getBalance
  cases x.account <;> rfl

/-- A credit succeeds exactly if it fits. -/
theorem answer_addToBalance (h : TrueBalances v st) (delta : Nat) :
    Returns v st (currentAccountState a (.addToBalance delta)) fun r st' =>
      TrueBalances v st' ∧ (r = .ok () ↔ holdings v st a + delta ≤ uint256Max) ∧
      (r = .ok () → holdings v st' = update (holdings v st) a (holdings v st a + delta)) := by
  obtain ⟨r, st', hr, -⟩ := currentAccountState_returns v st a (e := .addToBalance delta) fun i x => by
    simp only [apply]
    split_ifs <;> rfl
  obtain ⟨hb, i, x, x', hx, he, hh⟩ := ensures_currentAccountState h _ r st' hr
  refine ⟨r, st', hr, hb, ?_⟩
  simp only [apply, balance_orCreate, hx] at he
  split_ifs at he with hfits
  · cases he
    exact ⟨by simp [hfits], fun _ => hh⟩
  · cases he
    exact ⟨by simp [hfits], fun h => by cases h⟩

/-- A debit succeeds exactly if it is covered. -/
theorem answer_subtractFromBalance (h : TrueBalances v st) (delta : Nat) :
    Returns v st (currentAccountState a (.subtractFromBalance delta)) fun r st' =>
      TrueBalances v st' ∧ (r = .ok () ↔ delta ≤ holdings v st a) ∧
      (r = .ok () → holdings v st' = update (holdings v st) a (holdings v st a - delta)) := by
  obtain ⟨r, st', hr, -⟩ := currentAccountState_returns v st a (e := .subtractFromBalance delta) fun i x => by
      simp only [apply]
      split_ifs <;> rfl
  obtain ⟨hb, i, x, x', hx, he, hh⟩ := ensures_currentAccountState h _ r st' hr
  refine ⟨r, st', hr, hb, ?_⟩
  simp only [apply, balance_orCreate, hx] at he
  split_ifs at he with hcov
  · cases he
    exact ⟨by simp [hcov], fun _ => hh⟩
  · cases he
    exact ⟨by simp [hcov], fun h => by cases h⟩

/-! ## Calls that move nothing -/

/-- An edit that is not a balance operation keeps the balance. -/
theorem Edit.getBalance_apply {i : Incarnation} {x x' : AccountState} {r : e.Reply}
    (hadd : ∀ delta, e ≠ .addToBalance delta) (hsub : ∀ delta, e ≠ .subtractFromBalance delta)
    (h : e.apply i x = some (r, x')) : x'.getBalance = x.getBalance := by
  unfold AccountState.getBalance
  cases e with
  | keep | setTransientStorage | touch | access | accessStorage | destruct =>
    cases h
    rfl
  | setNonce nonce | setToStateIncarnation =>
    cases h
    cases hx : x.account <;> simp [AccountState.orCreate, hx]
  | addToBalance delta => exact absurd rfl (hadd delta)
  | subtractFromBalance delta => exact absurd rfl (hsub delta)
  | setStorage key value original =>
    simp only [apply] at h
    split_ifs at h
    cases h
    rfl
  | setCodeHash hash =>
    cases h
    cases hx : x.account <;> simp
  | createContract =>
    simp only [apply] at h
    split at h
    · rename_i account hx
      split_ifs at h
      cases h
      simp [hx]
    · rename_i hx
      cases h
      simp [hx]
  | createAccountNoRollback =>
    simp only [apply] at h
    split at h
    · cases h
    rename_i hx
    cases h
    simp [hx]

section

variable (h : TrueBalances v st)

include h

theorem quiet_edit (hadd : ∀ delta, e ≠ .addToBalance delta) (hsub : ∀ delta, e ≠ .subtractFromBalance delta) :
    Ensures v st (currentAccountState a e) fun _ st' => Quiet v st st' := by
  refine (ensures_currentAccountState h e).mono ?_
  rintro r st' ⟨hb, i, x, x', hx, he, hh⟩
  refine ⟨hb, ?_⟩
  rw [hh, Edit.getBalance_apply hadd hsub he, hx, update_eq_self]

theorem quiet_setValidateExactBalance : Ensures v st (setValidateExactBalance a) fun _ st' => Quiet v st st' := by
  refine (ensures_originalAccountState h).bind ?_
  rintro o st1 ⟨hq, -, ho⟩
  exact .modifyState (hq.trans (.setOriginal hq.balances ho))

theorem ensures_getBalance : Ensures v st (getBalance a) fun r st' => Quiet v st st' ∧ r = holdings v st a := by
  refine (ensures_recentAccountState h).bind ?_
  rintro x st1 ⟨hq, hx⟩
  refine (quiet_setValidateExactBalance hq.balances).bind fun _ st₂ hq2 => ?_
  exact .pure ⟨hq.trans hq2, hx⟩

theorem quiet_originalStorage (i : Incarnation) (key : Bytes32) :
    Ensures v st (originalStorage a i key) fun _ st' => Quiet v st st' := by
  refine (ensures_originalAccountState h).bind ?_
  rintro o st1 ⟨hq, -, ho⟩
  cases hkey : o.storage.lookup key with
  | some value =>
    simp only
    exact .pure hq
  | none =>
    refine (Ensures.query (R := fun _ st' => st' = st1) rfl).bind ?_
    rintro value _ rfl
    refine (Ensures.modifyState (R := fun _ st' => Quiet v st st') ?_).bind fun _ _ hq' => .pure hq'
    exact hq.trans (.setOriginal hq.balances ho)

theorem quiet_getStorage (key : Bytes32) : Ensures v st (getStorage a key) fun _ st' => Quiet v st st' := by
  intro value st' hval
  have hdone : ∀ {x : Bytes32}, Reading.answer v.answer
      (.done (x, st) : Ask (Bytes32 × State)) = some (value, st') → Quiet v st st' := by
    intro x hx
    cases hx
    exact .refl h
  unfold getStorage at hval
  split at hval
  · split at hval
    · cases hval
    split at hval
    · cases hval
    · exact quiet_originalStorage h _ _ _ _ hval
  split at hval
  · cases hval
  split at hval
  · exact hdone hval
  split at hval
  · cases hval
  split at hval
  · exact hdone hval
  split_ifs at hval
  · exact quiet_originalStorage h _ _ _ _ hval
  · exact hdone hval

theorem quiet_recordBalanceConstraintForDebit (debit : Nat) :
    Ensures v st (recordBalanceConstraintForDebit a debit) fun _ st' => Quiet v st st' := by
  refine (ensures_recentAccountState h).bind ?_
  rintro x st1 ⟨hq, -⟩
  refine (ensures_originalAccountState hq.balances).bind ?_
  rintro o st₂ ⟨hq2, -, ho⟩
  have hqt := hq.trans hq2
  by_cases hd : debit ≤ x.getBalance
  · rw [if_pos hd]
    by_cases hlt : x.getBalance - debit < o.getBalance
    · simp only [if_pos hlt]
      refine (Ensures.modifyState (R := fun _ st' => Quiet v st st') ?_).bind fun _ _ hq' => .pure hq'
      exact hqt.trans (.setOriginal hqt.balances ho)
    · simp only [if_neg hlt]
      exact .pure hqt
  · rw [if_neg hd]
    exact (quiet_setValidateExactBalance hqt.balances).bind fun _ _ hq' => .pure (hqt.trans hq')

theorem quiet_setStorage (key value : Bytes32) :
    Ensures v st (setStorage a key value) fun _ st' => Quiet v st st' := by
  refine (quiet_edit h (by simp) (by simp)).bind fun _ st1 hq1 => ?_
  refine (ensures_recentAccountState hq1.balances).bind ?_
  rintro x st₂ ⟨hq2, -⟩
  cases x.account with
  | none => exact .abort
  | some account =>
    refine (quiet_originalStorage hq2.balances _ key).bind fun original st3 hq3 => ?_
    exact (quiet_edit hq3.balances (by simp) (by simp)).mono fun _ _ hq4 => ((hq1.trans hq2).trans hq3).trans hq4

end

theorem quiet_setCode (keccak : Bytes → Bytes32) (h : TrueBalances v st) (code : Bytes) :
    Ensures v st (setCode keccak a code) fun _ st' => Quiet v st st' := by
  refine (quiet_edit h (by simp) (by simp)).bind fun _ st1 hq1 => ?_
  refine (ensures_recentAccountState hq1.balances).bind ?_
  rintro x st₂ ⟨hq2, -⟩
  cases x.account.isSome with
  | false => exact .pure (hq1.trans hq2)
  | true =>
    refine (Ensures.modifyState (R := fun _ st' => Quiet v st st') ?_).bind fun _ st3 hq3 => ?_
    · exact ⟨hq2.balances, (hq1.trans hq2).holdings_eq⟩
    · exact (quiet_edit hq3.balances (by simp) (by simp)).mono fun _ _ hq4 => hq3.trans hq4

/-- **A call that moves nothing leaves the ledger alone.** -/
theorem quiet_exec (keccak : Bytes → Bytes32) (h : TrueBalances v st) {c : Call} (hc : movesNothing c = true) :
    Ensures v st (c.exec keccak) fun _ st' => Quiet v st st' := by
  cases c with
  | observe a o =>
    refine (ensures_recentAccountState h).bind ?_
    rintro x st1 ⟨hq, -⟩ y st₂ hy
    cases hy
    exact hq
  | isTouched | logs =>
    intro y st₂ hy
    cases hy
    exact .refl h
  | getBalance a => exact (ensures_getBalance h).mono fun _ _ hq => hq.1
  | getOriginalBalance a =>
    refine (ensures_originalAccountState h).bind ?_
    rintro o st1 ⟨hq, -⟩
    exact (quiet_setValidateExactBalance hq.balances).bind fun _ _ hq' => .pure (hq.trans hq')
  | getOriginalCodeHash a => exact (ensures_originalAccountState h).bind fun o st1 hq => .pure hq.1
  | recordBalanceConstraintForDebit a debit => exact quiet_recordBalanceConstraintForDebit h debit
  | getStorage a key => exact quiet_getStorage h key
  | edit a e hpub =>
    refine quiet_edit h ?_ ?_
    · rintro delta rfl
      cases hc
    · rintro delta rfl
      cases hc
  | setStorage a key value => exact quiet_setStorage h key value
  | setCode a code => exact quiet_setCode keccak h code
  | readCode hash =>
    intro y st₂ hy
    change (readCode hash st).answer v.answer = some (y, st₂) at hy
    unfold readCode at hy
    split at hy
    · cases hy
      exact .refl h
    rw [answer_ask] at hy
    split at hy
    · cases hy
      exact .refl h
    · cases hy
  | storeLog log =>
    intro y st₂ hy
    cases hy
    exact ⟨h, holdings_congr rfl⟩
  | push | popAccept | popReject => cases hc

end Methods

end MonadExecution.Ethereum.Gas
