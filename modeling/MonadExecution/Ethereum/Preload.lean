import MonadExecution.Ethereum.Recording
import MonadExecution.Ethereum.View

/-!
# Originals that were loaded in advance

The first attempt of a transaction starts from a state in which the sender's account is loaded already.
`Preloaded` relates a state to one that has loaded more accounts of the same view, and `run_preloaded` shows
that a program which succeeds on the first does the same on the second. The converse does not hold:
`get_storage` asserts that the account has been loaded.
-/

namespace MonadExecution.Ethereum

open Reading

/-! ## One run follows another -/

/-- Whatever the method does in a state, with the answers of `v`, it also does in a related state, with
the answers of `w`. -/
def Follows {α : Type} (v w : View) (R : State → State → Prop) (m : Method α) : Prop :=
  ∀ st st₂ x st', R st st₂ → (m st).answer v.answer = some (x, st') →
    ∃ st₂', (m st₂).answer w.answer = some (x, st₂') ∧ R st' st₂'

namespace Follows

variable {α β : Type} {v w : View} {R : State → State → Prop}

theorem pure (x : α) : Follows v w R (Pure.pure x : Method α) := by
  rintro st st₂ y st' h hy
  cases hy
  exact ⟨st₂, rfl, h⟩

theorem bind {m : Method α} {f : α → Method β} (hm : Follows v w R m)
    (hf : ∀ x, Follows v w R (f x)) : Follows v w R (m >>= f) := by
  intro st st₂ y st'' h hy
  rw [Method.bind_run, answer_bind] at hy
  obtain ⟨⟨x, st'⟩, hx, hy⟩ := Option.bind_eq_some_iff.mp hy
  obtain ⟨st₂', hx2, h'⟩ := hm st st₂ x st' h hx
  obtain ⟨st2'', hy2, h''⟩ := hf x st' st₂' y st'' h' hy
  refine ⟨st2'', ?_, h''⟩
  rw [Method.bind_run, answer_bind, hx2]
  exact hy2

theorem abort : Follows v w R (Ethereum.abort : Method α) := by
  intro st st₂ x st' h hx
  cases hx

theorem modifyState {f : State → State} (hf : ∀ st st₂, R st st₂ → R (f st) (f st₂)) :
    Follows v w R (Ethereum.modifyState f) := by
  rintro st st₂ x st' h hx
  cases hx
  exact ⟨f st₂, rfl, hf st st₂ h⟩

end Follows

/-! ## More accounts loaded -/

/-- The second state is the first one, except that more accounts of the view have been loaded. -/
structure Preloaded (v : View) (st st₂ : State) : Prop where
  incarnation : st₂.incarnation = st.incarnation
  current : st₂.current = st.current
  logs : st₂.logs = st.logs
  code : st₂.code = st.code
  dirty : st₂.dirty = st.dirty
  original : ∀ a, st₂.original.lookup a = st.original.lookup a ∨
    (st.original.lookup a = none ∧ st₂.original.lookup a = some (.ofAccount (v.account a)))

namespace Preloaded

variable {v : View} {st st₂ : State}

theorem refl (v : View) (st : State) : Preloaded v st st := ⟨rfl, rfl, rfl, rfl, rfl, fun _ => .inl rfl⟩

section

variable (h : Preloaded v st st₂)

include h

theorem lookup_of_some {a : Address} {o : OriginalAccountState} (ho : st.original.lookup a = some o) :
    st₂.original.lookup a = some o := by
  rcases h.original a with heq | ⟨hnone, -⟩
  · rw [heq, ho]
  rw [hnone] at ho
  cases ho

theorem version : st₂.version = st.version := congrArg List.length h.dirty

theorem setOriginal (a : Address) (o : OriginalAccountState) :
    Preloaded v (st.setOriginal a o) (st₂.setOriginal a o) := by
  refine ⟨h.incarnation, h.current, h.logs, h.code, h.dirty, fun b => ?_⟩
  rw [lookup_setOriginal, lookup_setOriginal]
  split_ifs
  · exact .inl rfl
  · exact h.original b

theorem setCurrent (a : Address) (x : AccountState) : Preloaded v (st.setCurrent a x) (st₂.setCurrent a x) := by
  refine ⟨h.incarnation, ?_, h.logs, h.code, ?_, h.original⟩
  · unfold State.setCurrent
    rw [h.current, h.version]
  · unfold State.setCurrent
    rw [h.dirty]

end

end Preloaded

/-! ## The methods -/

section Methods

variable {v : View}

theorem follows_getIncarnation : Follows v v (Preloaded v) getIncarnation := by
  rintro st st₂ x st' h hx
  cases hx
  exact ⟨st₂, congrArg (fun i => some (i, st₂)) h.incarnation, h⟩

theorem follows_query (q : Query) : Follows v v (Preloaded v) (query q) := by
  rintro st st₂ x st' h hx
  cases hx
  exact ⟨st₂, rfl, h⟩

section

variable (a : Address)

theorem follows_setOriginal (o : OriginalAccountState) :
    Follows v v (Preloaded v) (modifyState (·.setOriginal a o)) :=
  .modifyState fun _ _ h => h.setOriginal a o

theorem follows_originalAccountState : Follows v v (Preloaded v) (originalAccountState a) := by
  intro st st₂ o st' h ho
  unfold originalAccountState at ho ⊢
  cases hl : st.original.lookup a with
  | some o0 =>
    rw [hl] at ho
    cases ho
    rw [h.lookup_of_some hl]
    exact ⟨st₂, rfl, h⟩
  | none =>
    rw [hl] at ho
    cases ho
    rcases h.original a with heq | ⟨-, hextra⟩
    · rw [heq, hl]
      exact ⟨_, rfl, h.setOriginal a _⟩
    -- the account has been loaded on one side only, and is now loaded on both
    rw [hextra]
    refine ⟨st₂, rfl, h.incarnation, h.current, h.logs, h.code, h.dirty, fun b => ?_⟩
    show _ = (st.setOriginal a _).original.lookup b ∨ (st.setOriginal a _).original.lookup b = none ∧ _
    rw [lookup_setOriginal]
    split_ifs with hab
    · left
      rw [hab, hextra]
      rfl
    · exact h.original b

theorem follows_recentAccountState : Follows v v (Preloaded v) (recentAccountState a) := by
  intro st st₂ x st' h hx
  unfold recentAccountState at hx ⊢
  rw [h.current]
  cases hs : st.current.lookup a with
  | some s =>
    rw [hs] at hx
    cases hx
    exact ⟨st₂, rfl, h⟩
  | none =>
    rw [hs] at hx
    simp only at hx ⊢
    rw [answer_bind] at hx
    obtain ⟨⟨o, st1⟩, ho, hx⟩ := Option.bind_eq_some_iff.mp hx
    cases hx
    obtain ⟨st₂', ho2, h'⟩ := follows_originalAccountState a st st₂ o st1 h ho
    refine ⟨st₂', ?_, h'⟩
    rw [answer_bind, ho2]
    rfl

theorem follows_currentAccountState (e : Edit) : Follows v v (Preloaded v) (currentAccountState a e) := by
  refine (follows_recentAccountState a).bind fun x => follows_getIncarnation.bind fun i => ?_
  cases e.apply i x with
  | none => exact .abort
  | some y => exact (Follows.modifyState fun _ _ h => h.setCurrent a y.2).bind fun _ => .pure y.1

theorem follows_originalStorage (i : Incarnation) (key : Bytes32) :
    Follows v v (Preloaded v) (originalStorage a i key) := by
  refine (follows_originalAccountState a).bind fun o => ?_
  cases o.storage.lookup key with
  | some value => exact .pure value
  | none => exact (follows_query _).bind fun value => (follows_setOriginal a _).bind fun _ => .pure value

theorem follows_setValidateExactBalance : Follows v v (Preloaded v) (setValidateExactBalance a) :=
  (follows_originalAccountState a).bind fun _ => follows_setOriginal a _

theorem follows_getStorage (key : Bytes32) : Follows v v (Preloaded v) (getStorage a key) := by
  intro st st₂ value st' h hv
  unfold getStorage at hv ⊢
  rw [h.current]
  cases hs : st.current.lookup a with
  | none =>
    rw [hs] at hv
    cases ho : st.original.lookup a with
    | none => simp [ho] at hv
    | some o =>
      rw [h.lookup_of_some ho]
      simp only [ho] at hv ⊢
      cases hacc : o.account with
      | none => simp [hacc] at hv
      | some account =>
        simp only [hacc] at hv ⊢
        exact follows_originalStorage a account.incarnation key st st₂ value st' h hv
  | some s =>
    rw [hs] at hv
    simp only at hv ⊢
    cases hacc : s.recent.account with
    | none => simp [hacc] at hv
    | some account =>
      simp only [hacc] at hv ⊢
      cases hkey : s.recent.storage.lookup key with
      | some value0 =>
        simp only [hkey] at hv ⊢
        cases hv
        exact ⟨st₂, rfl, h⟩
      | none =>
        simp only [hkey] at hv ⊢
        cases ho : st.original.lookup a with
        | none => simp [ho] at hv
        | some o =>
          rw [h.lookup_of_some ho]
          simp only [ho] at hv ⊢
          cases horig : o.account with
          | none =>
            simp only [horig] at hv ⊢
            cases hv
            exact ⟨st₂, rfl, h⟩
          | some original =>
            simp only [horig] at hv ⊢
            by_cases heq : account.incarnation = original.incarnation
            · rw [if_pos heq] at hv ⊢
              exact follows_originalStorage a account.incarnation key st st₂ value st' h hv
            · rw [if_neg heq] at hv ⊢
              cases hv
              exact ⟨st₂, rfl, h⟩

theorem follows_setStorage (key value : Bytes32) : Follows v v (Preloaded v) (setStorage a key value) := by
  refine (follows_currentAccountState a .keep).bind fun _ => (follows_recentAccountState a).bind fun x => ?_
  cases x.account with
  | none => exact .abort
  | some account =>
    exact (follows_originalStorage a account.incarnation key).bind fun _ => follows_currentAccountState a _

end

theorem follows_readCode (hash : Bytes32) : Follows v v (Preloaded v) (readCode hash) := by
  intro st st₂ code st' h hc
  unfold readCode at hc ⊢
  rw [h.code]
  cases hl : st.code.lookup hash with
  | some code0 =>
    rw [hl] at hc
    cases hc
    exact ⟨st₂, rfl, h⟩
  | none =>
    simp only [hl, answer_ask] at hc ⊢
    cases hv : v.answer (.code hash) with
    | none => simp [hv] at hc
    | some code0 =>
      simp only [hv] at hc ⊢
      cases hc
      exact ⟨st₂, rfl, h⟩

theorem follows_setCode (keccak : Bytes → Bytes32) (a : Address) (code : Bytes) :
    Follows v v (Preloaded v) (setCode keccak a code) := by
  refine (follows_currentAccountState a .keep).bind fun _ => (follows_recentAccountState a).bind fun x => ?_
  cases x.account.isSome with
  | false => exact .pure ()
  | true =>
    refine (Follows.modifyState fun st st₂ h => ?_).bind fun _ => follows_currentAccountState a _
    refine ⟨h.incarnation, h.current, h.logs, ?_, h.dirty, h.original⟩
    show st₂.code.insert _ _ = st.code.insert _ _
    rw [h.code]

theorem follows_recordBalanceConstraintForDebit (a : Address) (debit : Nat) :
    Follows v v (Preloaded v) (recordBalanceConstraintForDebit a debit) := by
  refine (follows_recentAccountState a).bind fun x => (follows_originalAccountState a).bind fun o => ?_
  by_cases hd : debit ≤ x.getBalance
  · rw [if_pos hd]
    by_cases ho : x.getBalance - debit < o.getBalance
    · simpa [ho] using (follows_setOriginal a _).bind fun _ => .pure true
    · simpa [ho] using Follows.pure true
  · rw [if_neg hd]
    exact (follows_setValidateExactBalance a).bind fun _ => .pure false

theorem follows_isTouched (a : Address) : Follows v v (Preloaded v) (isTouched a) := by
  rintro st st₂ x st' h hx
  cases hx
  refine ⟨st₂, ?_, h⟩
  unfold isTouched
  rw [h.current]
  rfl

theorem follows_logs : Follows v v (Preloaded v) logs := by
  rintro st st₂ x st' h hx
  cases hx
  exact ⟨st₂, congrArg (fun l => some (VersionStack.recent l, st₂)) h.logs, h⟩

theorem follows_storeLog (log : Log) : Follows v v (Preloaded v) (storeLog log) := by
  rintro st st₂ x st' h hx
  cases hx
  refine ⟨_, rfl, h.incarnation, h.current, ?_, h.code, h.dirty, h.original⟩
  show st₂.logs.write st₂.version _ = st.logs.write st.version _
  rw [h.logs, h.version]

theorem follows_push : Follows v v (Preloaded v) push := by
  rintro st st₂ x st' h hx
  cases hx
  exact ⟨_, rfl, h.incarnation, h.current, h.logs, h.code, congrArg (List.cons []) h.dirty, h.original⟩

theorem follows_popAccept : Follows v v (Preloaded v) popAccept := by
  intro st st₂ x st' h hx
  unfold popAccept at hx ⊢
  rw [h.dirty, h.current]
  cases hd : st.dirty with
  | nil => simp [hd] at hx
  | cons frame rest =>
    simp only [hd] at hx ⊢
    split_ifs at hx ⊢
    · cases hx
      refine ⟨_, rfl, h.incarnation, ?_, ?_, h.code, rfl, h.original⟩
      · show Table.alterAll _ frame st₂.current = Table.alterAll _ frame st.current
        rw [h.current, h.version]
      · show st₂.logs.popAccept st₂.version = st.logs.popAccept st.version
        rw [h.logs, h.version]
    · cases hx

theorem follows_popReject : Follows v v (Preloaded v) popReject := by
  intro st st₂ x st' h hx
  unfold popReject at hx ⊢
  rw [h.dirty, h.current, h.logs, h.version]
  cases hd : st.dirty with
  | nil => simp [hd] at hx
  | cons frame rest =>
    simp only [hd] at hx ⊢
    split_ifs at hx ⊢
    · cases hl : st.logs.popReject st.version with
      | none => simp [hl] at hx
      | some logs =>
        simp only [hl] at hx ⊢
        cases hx
        refine ⟨_, rfl, h.incarnation, ?_, rfl, h.code, rfl, h.original⟩
        show Table.alterAll _ frame st₂.current = Table.alterAll _ frame st.current
        rw [h.current, h.version]
    · cases hx

/-- The two ends of a transaction change every record of a flat state. -/
theorem follows_mapCurrent (f : Incarnation → AccountState → AccountState) : Follows v v (Preloaded v) fun st =>
    if st.isFlat then .done ((), st.mapCurrent (f st.incarnation)) else .fail := by
  intro st st₂ x st' h hx
  have hflat : st₂.isFlat = st.isFlat := by
    unfold State.isFlat
    rw [h.dirty, h.current]
  by_cases hf : st.isFlat = true
  · simp only [hflat, hf, if_true] at hx ⊢
    cases hx
    refine ⟨_, rfl, h.incarnation, ?_, h.logs, h.code, h.dirty, h.original⟩
    unfold State.mapCurrent
    rw [h.current, h.incarnation]
  · simp [hf] at hx

end Methods

/-! ## Calls and programs -/

section Programs

variable {v : View}

theorem follows_exec (keccak : Bytes → Bytes32) (c : Call) : Follows v v (Preloaded v) (c.exec keccak) := by
  cases c with
  | observe a o => exact (follows_recentAccountState a).bind fun _ => follows_getIncarnation.bind fun _ => .pure _
  | isTouched a => exact follows_isTouched a
  | getBalance a =>
    exact (follows_recentAccountState a).bind fun _ => (follows_setValidateExactBalance a).bind fun _ => .pure _
  | getOriginalBalance a =>
    exact (follows_originalAccountState a).bind fun _ => (follows_setValidateExactBalance a).bind fun _ => .pure _
  | getOriginalCodeHash a => exact (follows_originalAccountState a).bind fun _ => .pure _
  | recordBalanceConstraintForDebit a debit => exact follows_recordBalanceConstraintForDebit a debit
  | getStorage a key => exact follows_getStorage a key
  | edit a e _ => exact follows_currentAccountState a e
  | setStorage a key value => exact follows_setStorage a key value
  | setCode a code => exact follows_setCode keccak a code
  | readCode hash => exact follows_readCode hash
  | logs => exact follows_logs
  | storeLog log => exact follows_storeLog log
  | push => exact follows_push
  | popAccept => exact follows_popAccept
  | popReject => exact follows_popReject

variable {α : Type}

theorem follows_run (keccak : Bytes → Bytes32) (p : Program α) : Follows v v (Preloaded v) (p.run keccak) := by
  induction p with
  | ret x => exact .pure x
  | call c next ih => exact (follows_exec keccak c).bind ih

/-- The calls that a program makes are the same too. -/
theorem keeps_of_preloaded (keccak : Bytes → Bytes32) {ok : Call → Prop} (p : Program α) {st st₂ st' : State} {x : α}
    (h : Preloaded v st st₂) (hrun : (p.run keccak st).answer v.answer = some (x, st'))
    (hkeeps : p.Keeps keccak v.answer ok st) : p.Keeps keccak v.answer ok st₂ := by
  induction p generalizing st st₂ with
  | ret x => trivial
  | call c next ih =>
    obtain ⟨hc, hnext⟩ := hkeeps
    refine ⟨hc, fun y2 hy2 => ?_⟩
    change (c.exec keccak st >>= _).answer v.answer = _ at hrun
    rw [answer_bind] at hrun
    obtain ⟨⟨r, st1⟩, hy, hrest⟩ := Option.bind_eq_some_iff.mp hrun
    obtain ⟨st₂', hr2, h'⟩ := follows_exec keccak c st st₂ r st1 h hy
    rw [hr2] at hy2
    cases hy2
    exact ih r h' hrest (hnext (r, st1) hy)

end Programs

end MonadExecution.Ethereum
