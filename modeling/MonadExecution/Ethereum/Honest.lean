import MonadExecution.Ethereum.Recording
import MonadExecution.Ethereum.View

/-!
# Runs on contents that do not change

A state that has been filled from one view, in a run that gives a new life to existing accounts only
where there is no storage, knows nothing but the view: its originals are accounts of the view, its slots
are slots of the view although they may have been asked for in another life, and an account of one of its
records has either the life of the view or one that this transaction has given it. `Honest` collects
this, together with the questions that brought the knowledge in.
-/

namespace MonadExecution.Ethereum

open List Table Option

/-- An account that a transaction with incarnation `i` may have at an address: deleted accounts apart
(those come at the very end), it is in the life it has in the view, or in a new one at an address
without storage. -/
structure Life (v : View) (i : Incarnation) (a : Address) (account : Option Account) : Prop where
  absent : account = none → v.account a = none
  life : ∀ y, account = some y → v.life a = some y.incarnation ∨
    (v.Bare a ∧ (y.incarnation = i ∨ y.incarnation = ⟨i.block, Incarnation.lastTx⟩))

namespace Life

variable {v : View} {i : Incarnation} {a : Address}

theorem view (v : View) (i : Incarnation) (a : Address) : Life v i a (v.account a) where
  absent h := h
  life y h := .inl (by rw [View.life, h]; rfl)

theorem of_some {account : Option Account} {y : Account} (hy : account = some y) (h : v.life a = some y.incarnation ∨
    (v.Bare a ∧ (y.incarnation = i ∨ y.incarnation = ⟨i.block, Incarnation.lastTx⟩))) : Life v i a account := by
  subst hy
  exact ⟨(by cases ·), fun z hz => Option.some.inj hz ▸ h⟩

theorem edit {e : Edit} {x x' : AccountState} {r : e.Reply} (h : Life v i a x.account)
    (he : e.apply i x = some (r, x')) (hbare : e.reincarnates = true → v.Bare a) : Life v i a x'.account := by
  rcases Edit.account_apply he with heq | ⟨y, hy, hinc⟩ | ⟨hnone, y, hy, hinc⟩ | ⟨hre, y, hy, hinc⟩
  · rw [heq]
    exact h
  · refine of_some hy ?_
    rw [hinc]
    -- created by the edit, or the account that was there
    unfold AccountState.orCreate
    cases hx : x.account with
    | none => exact .inr ⟨View.bare_of_none (h.absent hx), .inl rfl⟩
    | some w => exact h.life w hx
  · exact of_some hy (.inr ⟨View.bare_of_none (h.absent hnone), .inr hinc⟩)
  · exact of_some hy (.inr ⟨hbare hre, .inl hinc⟩)

end Life

/-- A state that knows only the view `v`, through the questions of `tr`. -/
structure Honest (v : View) (tr : List Event) (st : State) : Prop where
  loaded : ∀ a s, st.current.lookup a = some s → ∃ o, st.original.lookup a = some o
  account : ∀ a o, st.original.lookup a = some o → o.account = v.account a ∧ ⟨.account a, o.account⟩ ∈ tr
  slot : ∀ a o key value, st.original.lookup a = some o → o.storage.lookup key = some value →
    value = v.slot a key ∧ ∃ i, ⟨.storage a i key, value⟩ ∈ tr
  lives : st.All fun a x => Life v st.incarnation a x.account
  known : st.All fun a x => ∀ key value, x.storage.lookup key = some value → st.Knows a key

namespace Honest

variable {v : View} {tr : List Event} {st : State}

theorem fresh (v : View) (i : Incarnation) (relaxed : Bool) :
    Honest v [] { incarnation := i, relaxedValidation := relaxed } where
  loaded := by simp
  account := by simp
  slot := by simp
  lives := by simp [State.All]
  known := by simp [State.All]

variable {a : Address} {key : Bytes32}

/-- The life of the present record. -/
theorem life_recent (h : Honest v tr st) {x : AccountState} (hx : st.recent a = some x) :
    Life v st.incarnation a x.account := by
  unfold State.recent at hx
  cases hs : st.current.lookup a with
  | some s =>
    rw [hs] at hx
    cases hx
    exact h.lives.recent hs
  | none =>
    rw [hs] at hx
    obtain ⟨o, ho, rfl⟩ := map_eq_some_iff.mp hx
    rw [(h.account a o ho).1]
    exact Life.view v _ a

/-- What an honest state asks for is answered with the slot itself, in whatever life it asks. -/
theorem answer_of_fits (h : Honest v tr st) {i : Incarnation} (hfit : Fits st (.storage a i key)) :
    v.answer (.storage a i key) = v.slot a key := by
  obtain ⟨x, account, hx, hacc, rfl⟩ := hfit
  show (if v.life a = some account.incarnation then v.slot a key else 0) = v.slot a key
  split_ifs with hlife
  · rfl
  rcases (h.life_recent hx).life account hacc with hl | ⟨hbare, -⟩
  · exact absurd hl hlife
  · exact (hbare key).symm

theorem knows_mono {st' : State} (hst : ∀ a o, st.original.lookup a = some o → ∃ o', st'.original.lookup a = some o' ∧
      ∀ key value, o.storage.lookup key = some value → o'.storage.lookup key = some value)
    (h : st.Knows a key) : st'.Knows a key := by
  obtain ⟨o, value, ho, hk⟩ := h
  obtain ⟨o', ho', hkeep⟩ := hst a o ho
  exact ⟨o', value, ho', hkeep key value hk⟩

end Honest

variable {rule : Rule} {st st' : State} {tr : List Event} {a : Address} {s' : VersionStack AccountState} {e : Event}

section

variable (h : Change rule st tr st')

include h

/-- No step forgets an original or a slot. -/
theorem Change.original_mono {o : OriginalAccountState} (ho : st.original.lookup a = some o) :
    ∃ o', st'.original.lookup a = some o' ∧ o'.account = o.account ∧
      ∀ key value, o.storage.lookup key = some value → o'.storage.lookup key = some value := by
  have hset : ∀ {b : Address} {o1 : OriginalAccountState}, (b = a → o1.account = o.account ∧
      ∀ key value, o.storage.lookup key = some value → o1.storage.lookup key = some value) →
      ∃ o', (st.setOriginal b o1).original.lookup a = some o' ∧ o'.account = o.account ∧
        ∀ key value, o.storage.lookup key = some value → o'.storage.lookup key = some value := by
    intro b o1 h1
    rcases eq_or_ne a b with rfl | hne
    · exact ⟨o1, (lookup_setOriginal ..).trans (if_pos rfl), h1 rfl⟩
    · exact ⟨o, ((lookup_setOriginal ..).trans (if_neg hne)).trans ho, rfl, fun _ _ h => h⟩
  cases h with
  | @load b account hnone =>
    refine hset ?_
    rintro rfl
    rw [hnone] at ho
    cases ho
  | @constrain b o0 o1 hold hstate hexact hmin =>
    refine hset ?_
    rintro rfl
    obtain rfl : o0 = o := Option.some.inj (hold.symm.trans ho)
    rw [hstate]
    exact ⟨rfl, fun _ _ h => h⟩
  | @slot b o0 x account key value hold hkey hx hacc =>
    refine hset ?_
    rintro rfl
    obtain rfl : o0 = o := Option.some.inj (hold.symm.trans ho)
    refine ⟨rfl, fun key' value' hv => ?_⟩
    rw [lookup_insert_ite, if_neg, hv]
    rintro rfl
    rw [hkey] at hv
    cases hv
  | edit | storeCode | readCode | logs | push | accept | reject => exact ⟨o, ho, rfl, fun _ _ h => h⟩

theorem Change.incarnation_eq : st'.incarnation = st.incarnation := by cases h <;> rfl

/-- The records after a step are those of addresses that had one, or that were known. -/
theorem Change.current_sub (hs' : st'.current.lookup a = some s') :
    (∃ s, st.current.lookup a = some s) ∨ ∃ x, st.recent a = some x := by
  cases h with
  | load | constrain | slot | storeCode | readCode | logs | push => exact .inl ⟨s', hs'⟩
  | @edit b e x x' r hx he hbare hslot =>
    change (st.current.insert b _).lookup a = some s' at hs'
    rw [lookup_insert_ite] at hs'
    split_ifs at hs' with hab
    · subst hab
      exact .inr ⟨x, hx⟩
    · exact .inl ⟨s', hs'⟩
  | accept | reject =>
    left
    revert s'
    refine fun {s'} hs' => forall_alterAll (P := fun a _ => ∃ s, st.current.lookup a = some s)
      (fun a s hs => ⟨s, hs⟩) ?_ a s' hs'
    intro b x y hx hy
    cases x with
    | none => cases hy
    | some s => exact hx s rfl

end

/-- A known record has its original, if all records have. -/
theorem original_of_recent (h : ∀ a s, st.current.lookup a = some s → ∃ o, st.original.lookup a = some o)
    {x : AccountState} (hx : st.recent a = some x) : ∃ o, st.original.lookup a = some o := by
  unfold State.recent at hx
  cases hs : st.current.lookup a with
  | some s => exact h a s hs
  | none =>
    rw [hs] at hx
    obtain ⟨o, ho, -⟩ := map_eq_some_iff.mp hx
    exact ⟨o, ho⟩

section

variable (h : Change rule st tr st')

include h

/-- No step makes a record without an original. -/
theorem Change.loaded (hst : ∀ a s, st.current.lookup a = some s → ∃ o, st.original.lookup a = some o)
    (hs' : st'.current.lookup a = some s') : ∃ o', st'.original.lookup a = some o' := by
  have hold : ∃ o, st.original.lookup a = some o := by
    rcases h.current_sub hs' with ⟨s, hs⟩ | ⟨x, hx⟩
    · exact hst a s hs
    · exact original_of_recent hst hx
  obtain ⟨o, ho⟩ := hold
  obtain ⟨o', ho', -⟩ := h.original_mono ho
  exact ⟨o', ho'⟩

/-- The question a step asks fits the state. -/
theorem Change.fits (he : e ∈ tr) : Fits st e.1 := by
  cases h with
  | load => simp only [mem_singleton] at he; subst he; trivial
  | constrain | edit | storeCode | logs | push | accept | reject => cases he
  | slot value ho hkey hx hacc =>
    simp only [mem_singleton] at he
    subst he
    exact ⟨_, _, hx, hacc, rfl⟩
  | readCode => simp only [mem_singleton] at he; subst he; trivial

/-- The originals after a step: as before up to a constraint, or what the step has just asked. -/
theorem Change.original_cases {o' : OriginalAccountState} (ho' : st'.original.lookup a = some o') :
    (∃ o, st.original.lookup a = some o ∧ o'.account = o.account ∧
      ∀ key value, o'.storage.lookup key = some value → o.storage.lookup key = some value ∨
        ∃ i, ⟨.storage a i key, value⟩ ∈ tr) ∨
    (⟨.account a, o'.account⟩ ∈ tr ∧ o'.storage = ∅) := by
  have hset : ∀ {b : Address} {o1 : OriginalAccountState}, (st.setOriginal b o1).original.lookup a = some o' →
      (b = a ∧ o1 = o') ∨ st.original.lookup a = some o' := by
    intro b o1 h1
    rw [lookup_setOriginal] at h1
    split_ifs at h1 with hab
    · exact .inl ⟨hab.symm, Option.some.inj h1⟩
    · exact .inr h1
  have hsame : st.original.lookup a = some o' → (∃ o, st.original.lookup a = some o ∧
      o'.account = o.account ∧ ∀ key value, o'.storage.lookup key = some value →
        o.storage.lookup key = some value ∨ ∃ i, ⟨.storage a i key, value⟩ ∈ tr) :=
    fun ho => ⟨o', ho, rfl, fun _ _ h => .inl h⟩
  cases h with
  | @load b account hnone =>
    rcases hset ho' with ⟨rfl, rfl⟩ | ho
    · exact .inr ⟨mem_singleton.mpr rfl, rfl⟩
    · exact .inl (hsame ho)
  | @constrain b o0 o1 hold hstate hexact hmin =>
    rcases hset ho' with ⟨rfl, rfl⟩ | ho
    · exact .inl ⟨o0, hold, by rw [hstate], fun key value hv => .inl (by rw [← hstate]; exact hv)⟩
    · exact .inl (hsame ho)
  | @slot b o0 x account key value hold hkey hx hacc =>
    rcases hset ho' with ⟨rfl, rfl⟩ | ho
    · refine .inl ⟨o0, hold, rfl, fun key' value' hv => ?_⟩
      rw [lookup_insert_ite] at hv
      split_ifs at hv with hk
      · subst hk
        cases hv
        exact .inr ⟨account.incarnation, mem_singleton.mpr rfl⟩
      · exact .inl hv
    · exact .inl (hsame ho)
  | edit | storeCode | readCode | logs | push | accept | reject => exact .inl (hsame ho')

end

/-- What a state has on record of an event: the account or the slot as it was answered. A run does not
go on without the code it has asked for. -/
def State.Recorded (st : State) : Event → Prop
  | ⟨.account a, account⟩ => ∃ o, st.original.lookup a = some o ∧ o.account = account
  | ⟨.storage a _ key, value⟩ => ∃ o, st.original.lookup a = some o ∧ o.storage.lookup key = some value
  | ⟨.code _, code⟩ => code ≠ none

/-- No record is lost. -/
theorem State.Recorded.change (h : st.Recorded e) (hc : Change rule st tr st') : st'.Recorded e := by
  obtain ⟨q, y⟩ := e
  cases q with
  | account a =>
    obtain ⟨o, ho, hacc⟩ := h
    obtain ⟨o', ho', heq, -⟩ := hc.original_mono ho
    exact ⟨o', ho', heq.trans hacc⟩
  | storage a i key =>
    obtain ⟨o, ho, hval⟩ := h
    obtain ⟨o', ho', -, hkeep⟩ := hc.original_mono ho
    exact ⟨o', ho', hkeep key y hval⟩
  | code hash => exact h

theorem Change.recorded (h : Change rule st tr st') (he : e ∈ tr) : st'.Recorded e := by
  cases h with
  | load account hnone =>
    obtain rfl := mem_singleton.mp he
    exact ⟨_, (lookup_setOriginal ..).trans (if_pos rfl), rfl⟩
  | slot value ho hkey hx hacc =>
    obtain rfl := mem_singleton.mp he
    exact ⟨_, (lookup_setOriginal ..).trans (if_pos rfl), AList.lookup_insert _⟩
  | readCode hash code =>
    obtain rfl := mem_singleton.mp he
    exact some_ne_none code
  | constrain | edit | storeCode | logs | push | accept | reject => cases he

namespace Changes

variable {rule : Rule} {st st' : State} {tr : List Event}

section

variable (h : Changes rule st tr st')

include h

theorem recorded : ∀ e ∈ tr, st'.Recorded e := by
  induction h with
  | refl => simp
  | step _ hc ih =>
    intro e he
    rcases mem_append.mp he with he | he
    · exact (ih e he).change hc
    · exact hc.recorded he

/-- An original keeps its account. -/
theorem account_eq {o : OriginalAccountState} (ho : st.original.lookup a = some o) :
    ∃ o', st'.original.lookup a = some o' ∧ o'.account = o.account := by
  induction h with
  | refl => exact ⟨o, ho, rfl⟩
  | step _ hc ih =>
    obtain ⟨o1, ho1, heq1⟩ := ih
    obtain ⟨o2, ho2, heq2, -⟩ := hc.original_mono ho1
    exact ⟨o2, ho2, heq2.trans heq1⟩

/-- An original was there, or its account has been asked for. -/
theorem original_from {o' : OriginalAccountState} (ho' : st'.original.lookup a = some o') :
    (∃ o, st.original.lookup a = some o) ∨ ∃ account, ⟨.account a, account⟩ ∈ tr := by
  induction h generalizing o' with
  | refl => exact .inl ⟨o', ho'⟩
  | step _ hc ih =>
    rcases hc.original_cases ho' with ⟨o, ho, -⟩ | ⟨hmem, -⟩
    · rcases ih ho with hold | ⟨account, hmem⟩
      · exact .inl hold
      · exact .inr ⟨account, mem_append_left _ hmem⟩
    · exact .inr ⟨_, mem_append_right _ hmem⟩

/-- What holds of the codes at first, and of the codes that the rule lets a run store, holds of all. -/
theorem code_all {P : Bytes32 → Bytes → Prop} (hst : ∀ hash code, st.code.lookup hash = some code → P hash code)
    (hrule : ∀ hash code, rule.code hash code → P hash code) :
    ∀ hash code, st'.code.lookup hash = some code → P hash code := by
  induction h with
  | refl => exact hst
  | step _ hc ih =>
    cases hc with
    | @storeCode hash0 code0 h0 =>
      intro hash code hcode
      rw [lookup_insert_ite] at hcode
      split_ifs at hcode with heq
      · subst heq
        cases hcode
        exact hrule _ _ h0
      · exact ih hash code hcode
    | load | constrain | slot | edit | readCode | logs | push | accept | reject => exact ih

theorem relaxed_eq : st'.relaxedValidation = st.relaxedValidation := by
  induction h with
  | refl => rfl
  | step _ hc ih =>
    rw [← ih]
    cases hc <;> rfl

theorem incarnation_eq : st'.incarnation = st.incarnation := by
  induction h with
  | refl => rfl
  | step _ hc ih => rw [hc.incarnation_eq, ih]

end

end Changes

namespace Honest

variable {v : View} {tr tr' : List Event} {st st' : State}

/-- **A step that is answered from the view keeps the state honest.** -/
theorem change (hrule : ∀ a, rule.bare a → v.Bare a) (h : Honest v tr st) (hc : Change rule st tr' st')
    (hv : ∀ e ∈ tr', e.2 = v.answer e.1) : Honest v (tr ++ tr') st' := by
  have hmono : ∀ {a key}, st.Knows a key → st'.Knows a key := by
    intro a key hk
    refine knows_mono (fun a o ho => ?_) hk
    obtain ⟨o', ho', -, hkeep⟩ := hc.original_mono ho
    exact ⟨o', ho', hkeep⟩
  constructor
  case loaded =>
    intro a s' hs'
    exact hc.loaded h.loaded hs'
  case account =>
    intro a o' ho'
    rcases hc.original_cases ho' with ⟨o, ho, hacc, -⟩ | ⟨hmem, -⟩
    · rw [hacc]
      exact ⟨(h.account a o ho).1, mem_append_left _ (h.account a o ho).2⟩
    · exact ⟨hv _ hmem, mem_append_right _ hmem⟩
  case slot =>
    intro a o' key value ho' hval
    have hnew : ∀ i, ⟨.storage a i key, value⟩ ∈ tr' →
        value = v.slot a key ∧ ∃ i, (⟨.storage a i key, value⟩ : Event) ∈ tr ++ tr' := by
      intro i hmem
      have hans : value = v.answer (.storage a i key) := hv _ hmem
      exact ⟨hans.trans (h.answer_of_fits (hc.fits hmem)), i, mem_append_right _ hmem⟩
    rcases hc.original_cases ho' with ⟨o, ho, -, hsto⟩ | ⟨-, hemp⟩
    · rcases hsto key value hval with hold | ⟨i, hmem⟩
      · obtain ⟨heq, i, hmem⟩ := h.slot a o key value ho hold
        exact ⟨heq, i, mem_append_left _ hmem⟩
      · exact hnew i hmem
    · rw [hemp] at hval
      simp at hval
  case lives =>
    rw [hc.incarnation_eq]
    refine h.lives.change hc ?_ ?_
    · intro a o ho
      rw [(h.account a o ho).1]
      exact Life.view v _ a
    · intro a e x r x' hx he hbare _
      exact hx.edit he fun hre => hrule a (hbare hre)
  case known =>
    have hold : st.All fun a x => ∀ key value, x.storage.lookup key = some value → st'.Knows a key :=
      h.known.mono fun a x hx key value hkey => hmono (hx key value hkey)
    refine hold.change hc ?_ ?_
    · intro a o ho key value hkey
      exact hmono ⟨o, value, ho, hkey⟩
    intro a e x r x' hx he _ hslot key value hkey
    rcases Edit.storage_apply he with hsame | ⟨key', value', original, heq, hins⟩
    · exact hx key value (hsame ▸ hkey)
    rw [hins, lookup_insert_ite] at hkey
    split_ifs at hkey with hk
    · subst hk
      exact hmono (hslot key value' original heq)
    · exact hx key value hkey

theorem changes (hrule : ∀ a, rule.bare a → v.Bare a) {st0 : State} (h : Honest v tr st0)
    (hc : Changes rule st0 tr' st) (hv : ∀ e ∈ tr', e.2 = v.answer e.1) : Honest v (tr ++ tr') st := by
  induction hc with
  | refl =>
    rw [append_nil]
    exact h
  | step _ hc ih =>
    rw [← append_assoc]
    exact change hrule (ih fun e he => hv e (mem_append_left _ he)) hc fun e he => hv e (mem_append_right _ he)

end Honest

end MonadExecution.Ethereum
