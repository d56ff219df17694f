import MonadExecution.Ethereum.Merge
import MonadExecution.Ethereum.Preload
import MonadExecution.Ethereum.Retry

/-!
# The first attempt of a transaction

The first attempt asks its questions at arbitrary moments, while earlier transactions are merged. Its
answers may then come from different contents. `Remembered` says what every such question has left in
the block state, through all the merges since. `agrees_of_passes` is the heart of optimistic execution:
if every recorded original passes the comparison with the present block state, then every answer was,
after all, that of the present contents.
-/

namespace MonadExecution.Ethereum

open BlockState

/-- The entries that a question has left in a block state, some time ago: an address that was asked for
has one, and so has a slot, as long as the account is in the life that it had in the database and in which
it was asked for. -/
def Kept (bs : BlockState) : Query → Prop
  | .account a => ∃ d, bs.deltas.lookup a = some d
  | .storage a i key => (bs.db.readAccount a).map (·.incarnation) = some i → bs.view.life a = some i →
      ∃ d slot, bs.deltas.lookup a = some d ∧ d.storage.lookup key = some slot
  | .code _ => True

theorem kept_answer {q : Query} {bs bs' : BlockState} {x : q.Answer}
    (h : bs.answer q = some (x, bs')) : Kept bs' q := by
  have hnoted := noted_answer h
  cases q with
  | account a => exact hnoted
  | storage a i key => exact fun _ hlife => hnoted hlife
  | code hash => trivial

namespace Kept

variable {bs bs' : BlockState} {q : Query}

theorem grown (h : Kept bs q) (hg : bs.Grown bs') : Kept bs' q := by
  cases q with
  | account a => exact Noted.grown (q := .account a) h hg
  | storage a i key =>
    intro hdb
    rw [hg.db_eq] at hdb
    exact Noted.grown (q := .storage a i key) (h hdb) hg
  | code hash => trivial

/-- An account that has left the life of the database does not return to it, so that the entries of that
life are never forgotten while it lasts. -/
theorem merge {st : State} (h : Kept bs q) (hfit : bs.FitsLives st) (hm : bs.merge st = some bs') : Kept bs' q := by
  obtain ⟨-, -, hdb, -⟩ := deltas_merge hm
  cases q with
  | account a =>
    obtain ⟨d, hd⟩ := h
    cases hs : st.current.lookup a with
    | none => exact ⟨d, (lookup_merge_none hm hs).trans hd⟩
    | some s =>
      obtain ⟨d', -, hd'⟩ := lookup_merge hm hs
      exact ⟨_, hd'⟩
  | storage a i key =>
    intro horig hlife
    rw [hdb] at horig
    unfold View.life at hlife
    rw [view_account_merge hm] at hlife
    cases hs : st.current.lookup a with
    | none =>
      rw [hs] at hlife
      obtain ⟨d, slot, hd, hslot⟩ := h horig hlife
      exact ⟨d, slot, (lookup_merge_none hm hs).trans hd, hslot⟩
    | some s =>
      rw [hs] at hlife
      obtain ⟨d, hd, hd'⟩ := lookup_merge hm hs
      obtain ⟨account, hy, rfl⟩ := Option.map_eq_some_iff.mp hlife
      have hold : bs.view.life a = some account.incarnation := by
        rcases hfit a s account hs hy with hl | ⟨-, hne⟩
        · exact hl
        · exact absurd horig hne
      obtain ⟨d0, slot, hd0, hslot⟩ := h horig hold
      obtain rfl : d0 = d := Option.some.inj (hd0.symm.trans hd)
      have hsto : (BlockState.mergeDelta s.recent d0).storage =
          BlockState.mergeStorage s.recent.storage d0.storage := if_pos (by simp [hy])
      have hkey : ∃ slot', (BlockState.mergeDelta s.recent d0).storage.lookup key = some slot' := by
        rw [hsto, lookup_mergeStorage]
        cases s.recent.storage.lookup key with
        | some value => exact ⟨_, rfl⟩
        | none => exact ⟨slot, hslot⟩
      obtain ⟨slot', hslot'⟩ := hkey
      exact ⟨_, slot', hd', hslot'⟩
  | code hash => trivial

end Kept

/-- What is left in a block state of a question and its answer: the entries, and a code that was found. -/
def Remembered (bs : BlockState) : Event → Prop
  | ⟨.code hash, code⟩ => ∀ c, code = some c → bs.view.code hash = some c
  | ⟨q, _⟩ => Kept bs q

theorem remembered_answer {q : Query} {bs bs' : BlockState} {x : q.Answer}
    (h : bs.answer q = some (x, bs')) : Remembered bs' ⟨q, x⟩ := by
  cases q with
  | account a => exact kept_answer h
  | storage a i key => exact kept_answer h
  | code hash =>
    intro c hc
    obtain ⟨hx, hgr⟩ := answer_spec h
    rw [hgr.view_eq, ← hc]
    exact hx.symm

namespace Remembered

variable {bs bs' : BlockState} {e : Event}

theorem grown (h : Remembered bs e) (hg : bs.Grown bs') : Remembered bs' e := by
  obtain ⟨q, y⟩ := e
  cases q with
  | account a => exact Kept.grown (q := .account a) h hg
  | storage a i key => exact Kept.grown (q := .storage a i key) h hg
  | code hash =>
    intro c hc
    rw [hg.view_eq]
    exact h c hc

theorem merge {st : State} (h : Remembered bs e) (hfit : bs.Fitting st)
    (hm : bs.merge st = some bs') : Remembered bs' e := by
  obtain ⟨q, y⟩ := e
  cases q with
  | account a => exact Kept.merge (q := .account a) h hfit.life hm
  | storage a i key => exact Kept.merge (q := .storage a i key) h hfit.life hm
  | code hash =>
    intro c hc
    have hold := h c hc
    rw [view_merge hfit hm]
    show (if st.usesCode hash then (st.code.lookup hash).or (bs.view.code hash)
      else bs.view.code hash) = some c
    split_ifs
    · cases hnew : st.code.lookup hash with
      | none => exact hold
      | some new =>
        rw [← hfit.code hash c new hold hnew]
        rfl
    · exact hold

end Remembered

/-! ## The comparison, without repairs -/

variable {st st' : State} {bs : BlockState}

section

variable (hstr : st.relaxedValidation = false)

include hstr

/-- Without relaxed validation no mismatch is repaired. -/
theorem tryFixAccountMismatch_strict {a : Address} {actual : Option Account} {b : Bool}
    (h : st.tryFixAccountMismatch a actual = some (b, st')) : b = false := by
  unfold State.tryFixAccountMismatch at h
  split at h
  · cases h
  split at h
  · rw [hstr] at h
    simp only [Bool.not_false, if_true] at h
    split_ifs at h <;> cases h <;> rfl
  · cases h
    rfl

theorem passes_of_canMergeFrom {l : List (Σ _ : Address, OriginalAccountState)}
    (h : bs.canMergeFrom l st = some (true, st')) : st' = st ∧ ∀ e ∈ l, Passes bs e.1 e.2 := by
  induction l with
  | nil =>
    cases h
    exact ⟨rfl, by simp⟩
  | cons e l ih =>
    obtain ⟨a, o⟩ := e
    unfold BlockState.canMergeFrom at h
    cases hd : bs.deltas.lookup a with
    | none => simp [hd] at h
    | some d =>
      simp only [hd] at h
      by_cases hacc : o.account = d.account.2
      · simp only [if_pos hacc] at h
        by_cases hagrees : d.agrees o = true
        · rw [if_pos hagrees] at h
          obtain ⟨hst, hrest⟩ := ih h
          refine ⟨hst, ?_⟩
          intro e he
          rcases List.mem_cons.mp he with rfl | he
          · exact ⟨d, hd, hacc, hagrees⟩
          · exact hrest e he
        · simp [hagrees] at h
      · simp only [if_neg hacc] at h
        cases hfix : st.tryFixAccountMismatch a d.account.2 with
        | none => simp [hfix] at h
        | some y =>
          obtain ⟨b, st1⟩ := y
          obtain rfl := tryFixAccountMismatch_strict hstr hfix
          simp [hfix] at h

theorem passes_of_canMerge (h : bs.canMerge st = some (true, st')) :
    st' = st ∧ ∀ a o, st.original.lookup a = some o → Passes bs a o := by
  obtain ⟨hst, hall⟩ := passes_of_canMergeFrom hstr h
  exact ⟨hst, fun a o ho => hall ⟨a, o⟩ (AList.mem_lookup_iff.mp ho)⟩

end

/-! ## All answers were those of the present contents -/

/-- A state in which nothing has happened but that one account is loaded. -/
def loadedState (i : Incarnation) (a : Address) (account : Option Account) : State :=
  ({ incarnation := i } : State).setOriginal a (.ofAccount account)

theorem lookup_loadedState (i : Incarnation) (a b : Address) (account : Option Account) :
    (loadedState i a account).original.lookup b = if b = a then some (.ofAccount account) else none := by
  unfold loadedState
  rw [lookup_setOriginal]
  rfl

theorem Honest.loaded_state (v : View) (i : Incarnation) (a : Address) :
    Honest v [⟨.account a, v.account a⟩] (loadedState i a (v.account a)) where
  loaded b s hs := by cases hs
  account b o ho := by
    rw [lookup_loadedState] at ho
    split_ifs at ho with hab
    subst hab
    cases ho
    exact ⟨rfl, List.mem_singleton.mpr rfl⟩
  slot b o key value ho hval := by
    rw [lookup_loadedState] at ho
    split_ifs at ho
    cases ho
    cases hval
  lives b s hs := by cases hs
  known b s hs := by cases hs

theorem preloaded_fresh (v : View) (i : Incarnation) (a : Address) :
    Preloaded v { incarnation := i } (loadedState i a (v.account a)) := by
  refine ⟨rfl, rfl, rfl, rfl, rfl, fun b => ?_⟩
  rw [lookup_loadedState]
  split_ifs with hab
  · subst hab
    exact .inr ⟨rfl, rfl⟩
  · exact .inl rfl

section

variable {α : Type} {bs : BlockState} {st : State} {i : Incarnation}

/-- A recorded slot that passes is the slot of the view. -/
theorem slot_of_passes {a : Address} {o : OriginalAccountState} {key value : Bytes32} (hpass : Passes bs a o)
    (hval : o.storage.lookup key = some value) (hrem : Remembered bs ⟨.storage a i key, value⟩)
    (hslot : bs.view.answer (.storage a i key) = bs.view.slot a key) : value = bs.view.answer (.storage a i key) := by
  obtain ⟨d, hd, -, hagrees⟩ := hpass
  unfold StateDelta.agrees at hagrees
  rw [Table.all_iff] at hagrees
  have hcompare := hagrees key value hval
  cases hs : d.storage.lookup key with
  | some slot =>
    rw [hs] at hcompare
    rw [hslot, view_slot_of_lookup hd hs]
    exact of_decide_eq_true hcompare
  | none =>
    rw [hs] at hcompare
    rw [show value = 0 from of_decide_eq_true hcompare]
    -- without an entry, the slot could only be one of the database, asked for in its life
    by_cases hlife : bs.view.life a = some i
    · rw [hslot, view_slot hd]
      have hlife' : d.account.2.map (·.incarnation) = some i := by rw [← hlife, View.life, view_account hd]
      unfold StateDelta.slot
      by_cases hnone : d.account.2 = none
      · exact (if_pos hnone).symm
      rw [if_neg hnone, hs, hlife']
      refine (if_neg fun horig => ?_).symm
      rw [bs.origins a d hd] at horig
      obtain ⟨d', slot, hd', hs'⟩ := hrem horig hlife
      obtain rfl : d = d' := Option.some.inj (hd.symm.trans hd')
      rw [hs] at hs'
      cases hs'
    · exact (if_neg hlife).symm

/-- **A first attempt that passes has read the present contents.** -/
theorem agrees_of_passes (keccak : Bytes → Bytes32) {rule : Rule} (hrule : ∀ a, rule.bare a → bs.view.Bare a)
    {sender : Address} {p : Program α} {tr : List Event} {x : α}
    (hkeeps : p.Keeps keccak bs.view.answer (Call.Allowed keccak rule) (loadedState i sender (bs.view.account sender)))
    (hss : (p.run keccak (loadedState i sender (bs.view.account sender))).Steps tr (.done (x, st)))
    (hpass : ∀ a o, st.original.lookup a = some o → Passes bs a o) (hrem : ∀ e ∈ tr, Remembered bs e) :
    ∀ e ∈ tr, e.2 = bs.view.answer e.1 := by
  have hrecorded : ∀ e ∈ tr, st.Recorded e := ((run_leads keccak p _).of_steps hss fun _ _ => trivial).1.recorded
  refine Reading.agrees_of_steps hss ?_
  rintro tr1 ⟨q, y⟩ tr2 next rfl hagr hq
  have hmem : (⟨q, y⟩ : Event) ∈ tr1 ++ ⟨q, y⟩ :: tr2 := List.mem_append_right _ List.mem_cons_self
  cases q with
  | account a =>
    obtain ⟨o, ho, hacc⟩ := hrecorded _ hmem
    obtain ⟨d, hd, heq, -⟩ := hpass a o ho
    exact hacc.symm.trans (heq.trans (view_account hd).symm)
  | storage a j key =>
    obtain ⟨st1, hch, hfits⟩ := (run_ends keccak p hkeeps).of_steps_ask hq hagr
    have hhon := (Honest.loaded_state bs.view i sender).changes hrule hch hagr
    obtain ⟨o, ho, hval⟩ := hrecorded _ hmem
    exact slot_of_passes (hpass a o ho) hval (hrem _ hmem) (hhon.answer_of_fits hfits)
  | code hash =>
    obtain ⟨c, rfl⟩ := Option.ne_none_iff_exists'.mp (hrecorded _ hmem)
    exact (hrem _ hmem c rfl).symm

end

end MonadExecution.Ethereum
