import MonadExecution.Ethereum.State

/-!
# What a run does to a state

Whatever a program does, it does by a few kinds of steps: an account or a slot is read and recorded, a
constraint on a balance is raised, a record is edited, a code or a log is stored, a frame is opened or
closed. `Change` lists them, each with the question it asks, and `exec_ends` says that every call is a
sequence of them. An invariant of all runs is then proved by one case for each kind of step, and the
methods are not looked at again.
-/

namespace MonadExecution.Ethereum

open State

/-- A question with its answer. -/
abbrev Event := Σ q : Query, q.Answer

/-- The present record of an address, as far as the state knows it. -/
def State.recent (st : State) (a : Address) : Option AccountState :=
  match st.current.lookup a with
  | some s => some s.recent
  | none => (st.original.lookup a).map OriginalAccountState.toAccountState

/-- The slot has been read. -/
def State.Knows (st : State) (a : Address) (key : Bytes32) : Prop :=
  ∃ o value, st.original.lookup a = some o ∧ o.storage.lookup key = some value

/-- The edits that give an existing account a new life. -/
def Edit.reincarnates : Edit → Bool
  | .createContract => true
  | .setToStateIncarnation => true
  | _ => false

/-- What a run may do: the addresses at which an existing account may be given a new life, and the codes
that may be stored under a hash. -/
structure Rule where
  bare : Address → Prop
  code : Bytes32 → Bytes → Prop

/-- No restriction. -/
def Rule.any : Rule := ⟨fun _ => True, fun _ _ => True⟩

/-- One step of a run that keeps to a rule, with the question it asks. -/
inductive Change (rule : Rule) : State → List Event → State → Prop
  | load {st : State} {a : Address} (account : Option Account) (h : st.original.lookup a = none) :
      Change rule st [⟨.account a, account⟩] (st.setOriginal a (.ofAccount account))
  | constrain {st : State} {a : Address} {o o' : OriginalAccountState}
      (h : st.original.lookup a = some o) (hstate : o'.toAccountState = o.toAccountState)
      (hexact : o.validateExactBalance = true → o'.validateExactBalance = true)
      (hmin : o.minBalance ≤ o'.minBalance) :
      Change rule st [] (st.setOriginal a o')
  | slot {st : State} {a : Address} {o : OriginalAccountState} {x : AccountState} {account : Account}
      {key : Bytes32} (value : Bytes32) (h : st.original.lookup a = some o)
      (hkey : o.storage.lookup key = none) (hx : st.recent a = some x)
      (hacc : x.account = some account) :
      Change rule st [⟨.storage a account.incarnation key, value⟩]
        (st.setOriginal a { o with storage := o.storage.insert key value })
  | edit {st : State} {a : Address} {e : Edit} {x x' : AccountState} {r : e.Reply}
      (hx : st.recent a = some x) (h : e.apply st.incarnation x = some (r, x'))
      (hbare : e.reincarnates = true → rule.bare a)
      (hslot : ∀ key value original, e = .setStorage key value original → st.Knows a key) :
      Change rule st [] (st.setCurrent a x')
  | storeCode {st : State} {hash : Bytes32} {code : Bytes} (h : rule.code hash code) :
      Change rule st [] { st with code := st.code.insert hash code }
  | readCode {st : State} (hash : Bytes32) (code : Bytes) : Change rule st [⟨.code hash, some code⟩] st
  | logs {st : State} (logs : VersionStack (List Log)) : Change rule st [] { st with logs := logs }
  | push {st : State} : Change rule st [] { st with dirty := [] :: st.dirty }
  | accept {st : State} {frame : List Address} {rest : List (List Address)}
      (h : st.dirty = frame :: rest) : Change rule st [] (st.accept frame rest)
  | reject {st : State} {frame : List Address} {rest : List (List Address)}
      {logs : VersionStack (List Log)} (h : st.dirty = frame :: rest) :
      Change rule st [] (st.reject frame rest logs)

/-- Any number of steps, with all the questions they ask. -/
inductive Changes (rule : Rule) (st : State) : List Event → State → Prop
  | refl : Changes rule st [] st
  | step {tr tr' : List Event} {st' st'' : State} (h : Changes rule st tr st')
      (hc : Change rule st' tr' st'') : Changes rule st (tr ++ tr') st''

namespace Changes

variable {rule : Rule} {st st' st'' : State} {tr tr' : List Event}

theorem one (h : Change rule st tr st') : Changes rule st tr st' := Changes.refl.step h

theorem trans (h : Changes rule st tr st') (h' : Changes rule st' tr' st'') : Changes rule st (tr ++ tr') st'' := by
  induction h' with
  | refl =>
    rw [List.append_nil]
    exact h
  | step _ hc ih =>
    rw [← List.append_assoc]
    exact ih.step hc

/-- A property that every step keeps holds after any number of steps. -/
theorem invariant {I : List Event → State → Prop} (h : Changes rule st tr st') (h0 : I [] st)
    (hstep : ∀ tr s tr' s', I tr s → Change rule s tr' s' → I (tr ++ tr') s') : I tr st' := by
  induction h with
  | refl => exact h0
  | step _ hc ih => exact hstep _ _ _ _ ih hc

end Changes

/-- A slot is asked for in the life that the present record of the account is in. -/
def Fits (st : State) : Query → Prop
  | .storage a incarnation _ => ∃ x account, st.recent a = some x ∧ x.account = some account ∧
      account.incarnation = incarnation
  | _ => True

/-- `Leads rule st t P`: whatever is answered, the computation `t`, started in `st`, proceeds by the
steps above, and `P` holds when it returns. -/
def Leads {α : Type} (rule : Rule) (st : State) (t : Ask (α × State)) (P : α → State → Prop) : Prop :=
  t.Ends (fun _ _ => True) (fun tr q => ∃ st', Changes rule st tr st' ∧ Fits st' q)
    fun tr y => Changes rule st tr y.2 ∧ P y.1 y.2

namespace Leads

variable {α β : Type} {rule : Rule} {st : State} {P : α → State → Prop} {t : Ask (α × State)} {x : α}

theorem done (h : P x st) : Leads rule st (.done (x, st)) P := ⟨.refl, h⟩

theorem fail : Leads rule st .fail P := trivial

/-- One step without a question. -/
theorem done_step {st' : State} (hc : Change rule st [] st') (h : P x st') :
    Leads rule st (.done (x, st')) P := ⟨.one hc, h⟩

/-- One computation after another. -/
theorem bind {f : α × State → Ask (β × State)} {R : β → State → Prop} (h : Leads rule st t P)
    (hf : ∀ x st', P x st' → Leads rule st' (f (x, st')) R) : Leads rule st (t >>= f) R := by
  refine Reading.Ends.bind (Reading.Ends.mono h (fun _ _ h => h) (fun _ _ h => h) ?_)
  rintro tr ⟨x, st'⟩ ⟨hch, hP⟩
  refine .mono (hf x st' hP) (fun _ _ h => h) ?_ ?_
  · rintro tr' q ⟨st'', hch', hfit⟩
    exact ⟨st'', hch.trans hch', hfit⟩
  · rintro tr' y ⟨hch', hR⟩
    exact ⟨hch.trans hch', hR⟩

theorem seq {f : α × State → Ask (β × State)} {R : β → State → Prop} (h : Leads rule st t fun _ _ => True)
    (hf : ∀ x st', Leads rule st' (f (x, st')) R) : Leads rule st (t >>= f) R := h.bind fun x st' _ => hf x st'

end Leads

/-! ## What an edit does to a record -/

variable {i : Incarnation} {x x' : AccountState} {e : Edit} {r : e.Reply}

/-- The account of a record after an edit: the same, one in the same life or freshly created, or one
that was given the life of the transaction. -/
theorem Edit.account_apply (h : e.apply i x = some (r, x')) : x'.account = x.account ∨
    (∃ y, x'.account = some y ∧ y.incarnation = (x.orCreate i).incarnation) ∨
    (x.account = none ∧ ∃ y, x'.account = some y ∧ y.incarnation = ⟨i.block, Incarnation.lastTx⟩) ∨
    (e.reincarnates = true ∧ ∃ y, x'.account = some y ∧ y.incarnation = i) := by
  cases e with
  | keep | setTransientStorage | touch | access | accessStorage | destruct =>
    cases h
    exact .inl rfl
  | setNonce nonce =>
    cases h
    exact .inr (.inl ⟨_, rfl, rfl⟩)
  | addToBalance delta | subtractFromBalance delta =>
    simp only [apply] at h
    split_ifs at h <;> cases h <;> exact .inr (.inl ⟨_, rfl, rfl⟩)
  | setStorage key value original =>
    simp only [apply] at h
    split_ifs at h
    cases h
    exact .inl rfl
  | setCodeHash hash =>
    cases h
    cases hx : x.account with
    | none => exact .inl (by simp)
    | some y => exact .inr (.inl ⟨_, rfl, by simp [AccountState.orCreate, hx]⟩)
  | createContract =>
    simp only [apply] at h
    split at h
    · split_ifs at h
      cases h
      exact .inr (.inr (.inr ⟨rfl, _, rfl, rfl⟩))
    · cases h
      exact .inr (.inr (.inr ⟨rfl, _, rfl, rfl⟩))
  | createAccountNoRollback =>
    simp only [apply] at h
    split at h
    · cases h
    rename_i hnone
    cases h
    exact .inr (.inr (.inl ⟨hnone, _, rfl, rfl⟩))
  | setToStateIncarnation =>
    cases h
    exact .inr (.inr (.inr ⟨rfl, _, rfl, rfl⟩))

/-- The slots of a record after an edit. -/
theorem Edit.storage_apply (h : e.apply i x = some (r, x')) : x'.storage = x.storage ∨
    ∃ key value original, e = .setStorage key value original ∧ x'.storage = x.storage.insert key value := by
  cases e with
  | keep | setTransientStorage | touch | access | accessStorage | destruct | setNonce nonce
  | setCodeHash hash | setToStateIncarnation =>
    cases h
    exact .inl rfl
  | addToBalance delta | subtractFromBalance delta =>
    simp only [apply] at h
    split_ifs at h <;> cases h <;> exact .inl rfl
  | setStorage key value original =>
    simp only [apply] at h
    split_ifs at h
    cases h
    exact .inr ⟨key, value, original, rfl, rfl⟩
  | createContract =>
    simp only [apply] at h
    split at h
    · split_ifs at h
      cases h
      exact .inl rfl
    · cases h
      exact .inl rfl
  | createAccountNoRollback =>
    simp only [apply] at h
    split at h <;> cases h
    exact .inl rfl

/-! ## Properties of all records -/

/-- `st.All P`: every record of every version satisfies `P`. -/
def State.All (st : State) (P : Address → AccountState → Prop) : Prop :=
  ∀ a s, st.current.lookup a = some s → s.Forall (P a)

namespace State.All

variable {st : State} {P : Address → AccountState → Prop}

theorem mono {P' : Address → AccountState → Prop} (h : st.All P) (hP : ∀ a x, P a x → P' a x) : st.All P' := by
  intro a s hs
  exact ⟨hP a _ (h a s hs).1, fun y hy => hP a _ ((h a s hs).2 y hy)⟩

variable {a : Address}

section

variable (h : st.All P)

include h

theorem recent {s : VersionStack AccountState} (hs : st.current.lookup a = some s) : P a s.recent := (h a s hs).1

theorem setCurrent (hx : P a x) : (st.setCurrent a x).All P := by
  intro b s hs
  have hlook : (st.setCurrent a x).current.lookup b = if b = a then some (match st.current.lookup a with
        | some s => s.write st.version x
        | none => .start x st.version) else st.current.lookup b := Table.lookup_insert_ite ..
  rw [hlook] at hs
  split_ifs at hs with hab
  · subst hab
    cases hs
    cases hl : st.current.lookup b with
    | none => exact .start hx _
    | some s => exact (h b s hl).write hx _
  · exact h b s hs

theorem accept (frame : List Address) (rest : List (List Address)) : (st.accept frame rest).All P := by
  refine Table.forall_alterAll (P := fun a (s : VersionStack AccountState) => s.Forall (P a)) h ?_
  intro a x y hx hy
  obtain ⟨s, rfl, rfl⟩ := Option.map_eq_some_iff.mp hy
  exact (hx s rfl).popAccept _

theorem reject (frame : List Address) (rest : List (List Address)) (logs : VersionStack (List Log)) :
    (st.reject frame rest logs).All P := by
  refine Table.forall_alterAll (P := fun a (s : VersionStack AccountState) => s.Forall (P a)) h ?_
  intro a x y hx hy
  obtain ⟨s, rfl, hs⟩ := Option.bind_eq_some_iff.mp hy
  exact (hx s rfl).popReject hs

/-- What holds of the known records and is kept by the edits of a step is kept by the step. -/
theorem change {rule : Rule} {tr : List Event} {st' : State} (hc : Change rule st tr st')
    (horig : ∀ a o, st.original.lookup a = some o → P a o.toAccountState)
    (hedit : ∀ a (e : Edit) x r x', P a x → e.apply st.incarnation x = some (r, x') →
      (e.reincarnates = true → rule.bare a) →
      (∀ key value original, e = .setStorage key value original → st.Knows a key) → P a x') :
    st'.All P := by
  cases hc with
  | load | constrain | slot | storeCode | readCode | logs | push => exact h
  | @edit a e x x' r hx he hbare hslot =>
    refine h.setCurrent (hedit a e x r x' ?_ he hbare hslot)
    unfold State.recent at hx
    cases hs : st.current.lookup a with
    | some s =>
      rw [hs] at hx
      cases hx
      exact h.recent hs
    | none =>
      rw [hs] at hx
      obtain ⟨o, ho, rfl⟩ := Option.map_eq_some_iff.mp hx
      exact horig a o ho
  | accept => exact h.accept _ _
  | reject => exact h.reject _ _ _

end

end State.All

/-! ## The building blocks -/

section Blocks

variable {rule : Rule} {st : State} {a : Address}

@[simp] theorem current_setOriginal (st : State) (a : Address) (o : OriginalAccountState) :
    (st.setOriginal a o).current = st.current := rfl

theorem lookup_setOriginal (st : State) (a b : Address) (o : OriginalAccountState) :
    (st.setOriginal a o).original.lookup b = if b = a then some o else st.original.lookup b :=
  Table.lookup_insert_ite ..

/-- The original of an address, read if it is not there yet. -/
theorem leads_originalAccountState {P : OriginalAccountState → State → Prop}
    (hold : ∀ o, st.original.lookup a = some o → P o st)
    (hnew : ∀ account, st.original.lookup a = none → P (.ofAccount account) (st.setOriginal a (.ofAccount account))) :
    Leads rule st (originalAccountState a st) P := by
  unfold originalAccountState
  cases h : st.original.lookup a with
  | some o => exact .done (hold o h)
  | none => exact ⟨⟨st, .refl, trivial⟩, fun account _ => ⟨.one (.load account h), hnew account h⟩⟩

variable {P : AccountState → State → Prop}

/-- The present record of an address. -/
theorem leads_recentAccountState (hold : ∀ x, st.recent a = some x → P x st)
    (hnew : ∀ account, st.recent a = none → st.original.lookup a = none →
      P (OriginalAccountState.ofAccount account).toAccountState (st.setOriginal a (.ofAccount account))) :
    Leads rule st (recentAccountState a st) P := by
  unfold recentAccountState
  cases h : st.current.lookup a with
  | some s =>
    refine .done (hold _ ?_)
    unfold recent
    rw [h]
  | none =>
    have hrec : st.recent a = (st.original.lookup a).map (·.toAccountState) := by
      unfold recent
      rw [h]
    refine .bind (P := fun o st' => P o.toAccountState st')
      (leads_originalAccountState ?_ ?_) fun o st' ho => .done ho
    · intro o ho
      exact hold _ (by rw [hrec, ho]; rfl)
    · intro account ho
      exact hnew account (by rw [hrec, ho]; rfl) ho

/-- Afterwards the record is known. -/
theorem leads_recent (h : ∀ x st', st'.recent a = some x → (∀ key, st.Knows a key → st'.Knows a key) → P x st') :
    Leads rule st (recentAccountState a st) P := by
  refine leads_recentAccountState ?_ ?_
  · intro x hx
    exact h x st hx fun _ hk => hk
  intro account hnone ho
  refine h _ _ ?_ ?_
  · unfold recent at hnone ⊢
    rw [current_setOriginal]
    cases hs : st.current.lookup a with
    | some s => simp [hs] at hnone
    | none => simp [lookup_setOriginal]
  · rintro key ⟨o, value, ho', -⟩
    rw [ho] at ho'
    cases ho'

theorem leads_currentAccountState {e : Edit} {P : e.Reply → State → Prop}
    (hbare : e.reincarnates = true → rule.bare a)
    (hslot : ∀ key value original, e = .setStorage key value original → st.Knows a key) (h : ∀ r st', P r st') :
    Leads rule st (currentAccountState a e st) P := by
  refine .bind (P := fun x st' => st'.recent a = some x ∧
    ∀ key, st.Knows a key → st'.Knows a key) (leads_recent fun x st' hx hk => ⟨hx, hk⟩) ?_
  rintro x st' ⟨hx, hk⟩
  refine .bind (P := fun i s => i = st'.incarnation ∧ st' = s) (.done ⟨rfl, rfl⟩) ?_
  rintro _ _ ⟨rfl, rfl⟩
  dsimp only
  cases he : e.apply st'.incarnation x with
  | none => exact .fail
  | some y =>
    refine .done_step (.edit hx he hbare ?_) (h y.1 _)
    exact fun key value original heq => hk key (hslot key value original heq)

/-- A slot of the original, read under the incarnation of the present record if it is not there yet. -/
theorem leads_originalStorage {account : Account} {key : Bytes32} {P : Bytes32 → State → Prop}
    (hx : st.recent a = some x) (hacc : x.account = some account) (h : ∀ value st', st'.Knows a key → P value st') :
    Leads rule st (originalStorage a account.incarnation key st) P := by
  refine .bind (P := fun o st' => st'.original.lookup a = some o ∧ st'.recent a = some x)
    (leads_originalAccountState (fun o ho => ⟨ho, hx⟩) ?_) ?_
  · intro account' hnone
    refine ⟨by simp [lookup_setOriginal], ?_⟩
    unfold recent at hx ⊢
    rw [current_setOriginal]
    cases hs : st.current.lookup a with
    | some s => simpa [hs] using hx
    | none => simp [hs, hnone] at hx
  · rintro o st' ⟨ho, hx'⟩
    dsimp only
    cases hkey : o.storage.lookup key with
    | some value => exact .done (h value st' ⟨o, value, ho, hkey⟩)
    | none =>
      refine ⟨⟨st', .refl, x, account, hx', hacc, rfl⟩, fun value _ => ?_⟩
      have hknows : (st'.setOriginal a { o with storage := o.storage.insert key value }).Knows a key :=
        ⟨_, value, (lookup_setOriginal ..).trans (if_pos rfl), AList.lookup_insert _⟩
      exact ⟨.one (.slot value ho hkey hx' hacc), h value _ hknows⟩

theorem leads_setValidateExactBalance {P : Unit → State → Prop}
    (h : ∀ st', st'.incarnation = st.incarnation → st'.current = st.current → P () st') :
    Leads rule st (setValidateExactBalance a st) P := by
  refine .bind (P := fun o st' => st'.original.lookup a = some o ∧
    st'.incarnation = st.incarnation ∧ st'.current = st.current)
    (leads_originalAccountState ?_ ?_) ?_
  · intro o ho
    exact ⟨ho, rfl, rfl⟩
  · intro account _
    exact ⟨by simp [lookup_setOriginal], rfl, rfl⟩
  · rintro o st' ⟨ho, hi, hc⟩
    exact .done_step (.constrain ho rfl (fun _ => rfl) (Nat.le_refl _)) (h _ hi hc)

end Blocks

/-! ## Calls and programs -/

/-- A call that keeps to the rule. -/
def Call.Allowed (keccak : Bytes → Bytes32) (rule : Rule) : Call → Prop
  | .edit a e _ => e.reincarnates = true → rule.bare a
  | .setCode _ code => rule.code (keccak code) code
  | _ => True

variable {rule : Rule} {st : State} {a : Address} {α : Type}

theorem leads_getStorage {key : Bytes32} : Leads rule st (getStorage a key st) fun _ _ => True := by
  unfold getStorage
  cases hs : st.current.lookup a with
  | none =>
    cases ho : st.original.lookup a with
    | none => exact .fail
    | some o =>
      have hx : st.recent a = some o.toAccountState := by
        unfold recent
        rw [hs, ho]
        rfl
      cases hacc : o.account with
      | none => simpa [hacc] using Leads.fail
      | some account => simpa [hacc] using leads_originalStorage hx hacc fun _ _ _ => trivial
  | some s =>
    have hx : st.recent a = some s.recent := by
      unfold recent
      rw [hs]
    cases hacc : s.recent.account with
    | none => simpa [hacc] using Leads.fail
    | some account =>
      cases hkey : s.recent.storage.lookup key with
      | some value => simpa [hacc, hkey] using Leads.done trivial
      | none =>
        cases ho : st.original.lookup a with
        | none => simpa [hacc, hkey] using Leads.fail
        | some o =>
          cases horig : o.account with
          | none => simpa [hacc, hkey, horig] using Leads.done trivial
          | some original =>
            by_cases heq : account.incarnation = original.incarnation
            · have hslot : Leads rule st (originalStorage a account.incarnation key st)
                  fun _ _ => True := leads_originalStorage hx hacc fun _ _ _ => trivial
              simpa [hacc, hkey, horig, heq] using hslot
            · simpa [hacc, hkey, horig, heq] using Leads.done trivial

theorem leads_recordBalanceConstraintForDebit {debit : Nat} :
    Leads rule st (recordBalanceConstraintForDebit a debit st) fun _ _ => True := by
  refine .seq (leads_recent fun _ _ _ _ => trivial) fun x st' => ?_
  refine .bind (P := fun o st'' => st''.original.lookup a = some o)
    (leads_originalAccountState (fun o ho => ho) fun _ _ => by simp [lookup_setOriginal])
    fun o st'' ho => ?_
  show Leads rule st'' ((if debit ≤ x.getBalance then _ else _ : Method Bool) st'') _
  by_cases hd : debit ≤ x.getBalance
  · rw [if_pos hd]
    by_cases hlt : x.getBalance - debit < o.getBalance
    · simp only [if_pos hlt]
      exact .done_step (.constrain ho rfl (fun h => h) (Nat.le_max_left ..)) trivial
    · simp only [if_neg hlt]
      exact .done trivial
  · rw [if_neg hd]
    exact .seq (leads_setValidateExactBalance fun _ _ _ => trivial)
      fun _ _ => .done trivial

/-- **Every call proceeds by steps**, whatever it is answered. -/
theorem exec_leads (keccak : Bytes → Bytes32) (c : Call) (hc : c.Allowed keccak rule) (st : State) :
    Leads rule st (c.exec keccak st) fun _ _ => True := by
  cases c with
  | observe a o => exact .seq (leads_recent fun _ _ _ _ => trivial) fun _ _ => .done trivial
  | isTouched a => exact .done trivial
  | getBalance a =>
    refine .seq (leads_recent fun _ _ _ _ => trivial) fun _ _ => ?_
    exact .seq (leads_setValidateExactBalance fun _ _ _ => trivial)
      fun _ _ => .done trivial
  | getOriginalBalance a =>
    refine .seq
      (leads_originalAccountState (fun _ _ => trivial) fun _ _ => trivial) fun _ _ => ?_
    exact .seq (leads_setValidateExactBalance fun _ _ _ => trivial)
      fun _ _ => .done trivial
  | getOriginalCodeHash a =>
    exact .seq (leads_originalAccountState (fun _ _ => trivial) fun _ _ => trivial) fun _ _ => .done trivial
  | recordBalanceConstraintForDebit a debit => exact leads_recordBalanceConstraintForDebit
  | getStorage a key => exact leads_getStorage
  | edit a e hpub =>
    refine leads_currentAccountState hc ?_ fun _ _ => trivial
    rintro key value original rfl
    cases hpub
  | setStorage a key value =>
    refine .seq
      (leads_currentAccountState (by simp [Edit.reincarnates]) (by simp) fun _ _ => trivial)
      fun _ st1 => ?_
    refine .bind (P := fun x st' => st'.recent a = some x) (leads_recent fun _ _ hx _ => hx) fun x st₂ hx => ?_
    dsimp only
    cases hacc : x.account with
    | none => exact .fail
    | some account =>
      refine .bind (P := fun _ st' => st'.Knows a key)
        (leads_originalStorage hx hacc fun _ _ hk => hk) fun original st3 hk => ?_
      refine leads_currentAccountState (by simp [Edit.reincarnates]) ?_ fun _ _ => trivial
      rintro key' value' original' heq
      cases heq
      exact hk
  | setCode a code =>
    refine .seq
      (leads_currentAccountState (by simp [Edit.reincarnates]) (by simp) fun _ _ => trivial)
      fun _ st1 => ?_
    refine .seq (leads_recent fun _ _ _ _ => trivial) fun x st₂ => ?_
    show Leads rule st₂ ((if x.account.isSome then _ else _ : Method Unit) st₂) _
    cases x.account.isSome with
    | false => exact .done trivial
    | true =>
      refine .seq (t := .done ((), { st₂ with
        code := st₂.code.insert (keccak code) code })) ?_ fun _ _ => ?_
      · exact .done_step (.storeCode hc) trivial
      · exact leads_currentAccountState (by simp [Edit.reincarnates]) (by simp) fun _ _ => trivial
  | readCode hash =>
    show Leads rule st (readCode hash st) _
    unfold readCode
    cases st.code.lookup hash with
    | some code => exact .done trivial
    | none =>
      refine ⟨⟨st, .refl, trivial⟩, fun answer _ => ?_⟩
      cases answer with
      | none => trivial
      | some code => exact ⟨.one (.readCode hash code), trivial⟩
  | logs => exact .done trivial
  | storeLog log => exact .done_step (.logs _) trivial
  | push => exact .done_step .push trivial
  | popAccept =>
    show Leads rule st (popAccept st) _
    unfold popAccept
    split
    · exact .fail
    rename_i frame rest hd
    split
    · exact .done_step (.accept hd) trivial
    · exact .fail
  | popReject =>
    show Leads rule st (popReject st) _
    unfold popReject
    split
    · exact .fail
    rename_i frame rest hd
    split
    · split
      · exact .done_step (.reject hd) trivial
      · exact .fail
    · exact .fail

/-- Every run proceeds by steps. -/
theorem run_leads (keccak : Bytes → Bytes32) (p : Program α) (st : State) :
    Leads Rule.any st (p.run keccak st) fun _ _ => True := by
  induction p generalizing st with
  | ret x => exact .done trivial
  | call c next ih =>
    have hc : c.Allowed keccak Rule.any := by cases c <;> simp [Call.Allowed, Rule.any]
    exact .bind (exec_leads keccak c hc st) fun r st' _ => ih r st'

/-! ## Runs that keep to a rule, on a table of answers -/

/-- `p.Keeps keccak v ok st`: on the table `v`, every call that the program makes satisfies `ok`. -/
def Program.Keeps {α : Type} (keccak : Bytes → Bytes32) (v : (q : Query) → q.Answer)
    (ok : Call → Prop) : Program α → State → Prop
  | .ret _, _ => True
  | .call c next, st => ok c ∧ ∀ y, (c.exec keccak st).answer v = some y → (next y.1).Keeps keccak v ok y.2

/-- A run on a table proceeds by steps that keep to the rule. -/
theorem run_ends (keccak : Bytes → Bytes32) {v : (q : Query) → q.Answer} (p : Program α)
    (h : p.Keeps keccak v (Call.Allowed keccak rule) st) :
    (p.run keccak st).Ends (fun q a => a = v q) (fun tr q => ∃ st', Changes rule st tr st' ∧ Fits st' q)
      fun tr y => Changes rule st tr y.2 := by
  induction p generalizing st with
  | ret x => exact .refl
  | call c next ih =>
    have hexec := Reading.Ends.and_answer (v := v) <|
      Reading.Ends.mono (exec_leads keccak c h.1 st) (fun _ _ _ => trivial) (fun _ _ h => h) fun _ _ h => h.1
    refine .bind (hexec.mono (fun _ _ h => h) (fun _ _ h => h) ?_)
    rintro tr y ⟨hch, hy⟩
    refine (ih y.1 (h.2 y hy)).mono (fun _ _ h => h) ?_ ?_
    · rintro tr' q ⟨st', hch', hfit⟩
      exact ⟨st', hch.trans hch', hfit⟩
    · intro tr' z hch'
      exact hch.trans hch'

end MonadExecution.Ethereum
