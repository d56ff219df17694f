import MonadExecution.Ethereum.Honest

/-!
# A transaction that is run again

When the first attempt of a transaction cannot be merged, the transaction runs a second time while all
earlier transactions have been merged, and `can_merge` is then only asserted. The attempts of later
transactions still read in the meantime, so the block state may gain entries between two questions.
`Served` describes such a run. Every recorded original of it passes the comparison, whatever the program
did, as long as it gives a new life to existing accounts only where there is no storage.
-/

namespace MonadExecution.Ethereum

open BlockState

/-- A computation that is answered by the block state, while others may read. -/
inductive Served {α : Type} : BlockState → Ask α → BlockState → α → Prop
  | done (bs : BlockState) (x : α) : Served bs (.done x) bs x
  | other {q : Query} {y : q.Answer} {bs bs₁ bs' : BlockState} {t : Ask α} {x : α}
      (h : bs.answer q = some (y, bs₁)) (ht : Served bs₁ t bs' x) : Served bs t bs' x
  | ask {q : Query} {next : q.Answer → Ask α} {y : q.Answer} {bs bs₁ bs' : BlockState} {x : α}
      (h : bs.answer q = some (y, bs₁)) (ht : Served bs₁ (next y) bs' x) :
      Served bs (.ask q next) bs' x

variable {bs bs' : BlockState} {α : Type} {t : Ask α} {q : Query} {st : State}

theorem served_of_serve {x : α} (h : t.serve BlockState.answer bs = some (x, bs')) : Served bs t bs' x := by
  induction t generalizing bs with
  | done y =>
    cases h
    exact .done _ _
  | fail => cases h
  | ask q next ih =>
    obtain ⟨⟨y, bs₁⟩, hq, hnext⟩ := Option.bind_eq_some_iff.mp h
    exact .ask hq (ih y hnext)

/-! ## What has been read has an entry -/

/-- The entries a question leaves behind. -/
def Noted (bs : BlockState) : Query → Prop
  | .account a => ∃ d, bs.deltas.lookup a = some d
  | .storage a i key => bs.view.life a = some i →
      ∃ d slot, bs.deltas.lookup a = some d ∧ d.storage.lookup key = some slot
  | .code _ => True

theorem noted_answer {x : q.Answer} (h : bs.answer q = some (x, bs')) : Noted bs' q := by
  cases q with
  | account a =>
    obtain ⟨-, -, d, hd⟩ := bs.readAccount_spec a
    have hread : bs.readAccount a = (x, bs') := Option.some.inj h
    rw [hread] at hd
    exact ⟨d, hd⟩
  | storage a i key =>
    intro hlife
    have hgr := (answer_spec h).2
    rw [hgr.view_eq] at hlife
    obtain ⟨d, hd⟩ := exists_lookup_of_readStorage h
    obtain ⟨bs'', hs, -, hent⟩ := readStorage_spec hd i key
    cases hs.symm.trans h
    exact hent hlife
  | code hash => trivial

theorem Noted.grown (h : Noted bs q) (hg : bs.Grown bs') : Noted bs' q := by
  cases q with
  | account a =>
    obtain ⟨d, hd⟩ := h
    obtain ⟨d', hd', -⟩ := hg.entry a d hd
    exact ⟨d', hd'⟩
  | storage a i key =>
    intro hlife
    rw [hg.view_eq] at hlife
    obtain ⟨d, slot, hd, hs⟩ := h hlife
    obtain ⟨d', hd', -, hkeep⟩ := hg.entry a d hd
    exact ⟨d', slot, hd', hkeep key slot hs⟩
  | code hash => trivial

/-- A served computation has been given the answers of the view, which has not changed, and all it has
read has an entry. -/
theorem Served.steps {x : α} (h : Served bs t bs' x) :
    ∃ tr, t.Steps tr (.done x) ∧ (∀ e ∈ tr, e.2 = bs.view.answer e.1) ∧ bs.Grown bs' ∧ ∀ e ∈ tr, Noted bs' e.1 := by
  induction h with
  | done bs x => exact ⟨[], .refl _, by simp, .refl bs, by simp⟩
  | other h _ ih =>
    obtain ⟨tr, hs, hv, hg, hn⟩ := ih
    have hq := (answer_spec h).2
    refine ⟨tr, hs, ?_, hq.trans hg, hn⟩
    rw [← hq.view_eq]
    exact hv
  | @ask q next y bs bs₁ bs' x h _ ih =>
    obtain ⟨tr, hs, hv, hg, hn⟩ := ih
    obtain ⟨hy, hq⟩ := answer_spec h
    refine ⟨⟨q, y⟩ :: tr, .ask hs, ?_, hq.trans hg, ?_⟩
    · intro e he
      rcases List.mem_cons.mp he with rfl | he
      · exact hy
      rw [← hq.view_eq]
      exact hv e he
    · intro e he
      rcases List.mem_cons.mp he with rfl | he
      · exact (noted_answer h).grown hg
      · exact hn e he

/-! ## The comparison -/

/-- An original that agrees with its entry. -/
def Passes (bs : BlockState) (a : Address) (o : OriginalAccountState) : Prop :=
  ∃ d, bs.deltas.lookup a = some d ∧ o.account = d.account.2 ∧ d.agrees o = true

theorem canMergeFrom_of_passes {l : List (Σ _ : Address, OriginalAccountState)} (h : ∀ e ∈ l, Passes bs e.1 e.2)
    (st : State) : bs.canMergeFrom l st = some (true, st) := by
  induction l with
  | nil => rfl
  | cons e l ih =>
    obtain ⟨a, o⟩ := e
    obtain ⟨d, hd, hacc, hagrees⟩ := h ⟨a, o⟩ List.mem_cons_self
    simp only [BlockState.canMergeFrom, hd, if_pos hacc, hagrees, if_true]
    exact ih fun e he => h e (List.mem_cons_of_mem _ he)

theorem canMerge_of_passes (h : ∀ a o, st.original.lookup a = some o → Passes bs a o) :
    bs.canMerge st = some (true, st) :=
  canMergeFrom_of_passes (fun e he => h e.1 e.2 (AList.mem_lookup_iff.mpr he)) st

/-- The originals of an honest state pass, if everything it has asked for has an entry. -/
theorem Honest.passes {tr : List Event} (h : Honest bs.view tr st) (hn : ∀ e ∈ tr, Noted bs e.1)
    (hv : ∀ e ∈ tr, e.2 = bs.view.answer e.1) {a : Address} {o : OriginalAccountState}
    (ho : st.original.lookup a = some o) : Passes bs a o := by
  obtain ⟨hacc, hmem⟩ := h.account a o ho
  obtain ⟨d, hd⟩ := hn _ hmem
  refine ⟨d, hd, hacc.trans (view_account hd), ?_⟩
  unfold StateDelta.agrees
  rw [Table.all_iff]
  intro key value hval
  obtain ⟨hslot, i, hev⟩ := h.slot a o key value ho hval
  cases hs : d.storage.lookup key with
  | some slot =>
    rw [view_slot_of_lookup hd hs] at hslot
    exact decide_eq_true hslot
  | none =>
    -- a slot of the present life would have an entry, and in another life there is nothing to read
    have hans : value = bs.view.answer (.storage a i key) := hv _ hev
    have hlife : bs.view.life a ≠ some i := by
      intro hlife
      obtain ⟨d', slot, hd', hs'⟩ := hn _ hev hlife
      obtain rfl : d = d' := Option.some.inj (hd.symm.trans hd')
      rw [hs] at hs'
      cases hs'
    refine decide_eq_true (hans.trans ?_)
    exact if_neg hlife

variable {α : Type}

/-- **A transaction that is run again can be merged.** Let a program run on a fresh state while nothing is
merged, and let it give a new life to existing accounts only at addresses without storage. Then
`can_merge` holds and repairs nothing, also if the touched dead accounts are deleted first. -/
theorem rerun_canMerge (keccak : Bytes → Bytes32) (bs bs' : BlockState) (i : Incarnation) (relaxed : Bool)
    (p : Program α) (x : α) (st : State)
    (hkeeps : p.Keeps keccak bs.view.answer (Call.Allowed keccak ⟨bs.view.Bare, fun _ _ => True⟩)
      { incarnation := i, relaxedValidation := relaxed })
    (hrun : Served bs (p.run keccak { incarnation := i, relaxedValidation := relaxed }) bs' (x, st)) :
    bs'.canMerge st = some (true, st) ∧
    ∀ st', destructTouchedDead st = .done ((), st') → bs'.canMerge st' = some (true, st') := by
  obtain ⟨tr, hss, hv, hgr, hnoted⟩ := hrun.steps
  have hch := (run_ends keccak p hkeeps).of_steps hss hv
  have hhon : Honest bs.view tr st := Honest.changes (fun _ h => h) (Honest.fresh bs.view i relaxed) hch hv
  rw [← hgr.view_eq] at hhon hv
  constructor
  · exact canMerge_of_passes fun a o ho => hhon.passes hnoted hv ho
  · intro st' hst'
    unfold destructTouchedDead at hst'
    split_ifs at hst'
    cases hst'
    exact canMerge_of_passes fun a o ho => hhon.passes hnoted hv ho

/-! ## A run, and one without the rule -/

/-- An account with one slot, in a life of an earlier block. -/
def slotDb : Db where
  state a := if a = 1#160 then
    some ({ nonce := 1, incarnation := ⟨1, 1⟩ }, fun key => if key = 7#256 then 5#256 else 0) else none
  code _ := []

/-- Create a contract at a new address, write a slot there, and change a slot of the old account. -/
def createAndWrite : Program StorageStatus := do
  createContract 2#160
  let _ ← Program.run1 (.setStorage 2#160 7#256 1#256)
  let _ ← getNonce 1#160
  Program.run1 (.setStorage 1#160 7#256 0#256)

/-- The state and the block state after that program. -/
def createAndWriteRun : Option ((StorageStatus × State) × BlockState) :=
  (createAndWrite.run (fun _ => 0) { incarnation := ⟨2, 1⟩ }).serve BlockState.answer (.start slotDb)

theorem createAndWrite_keeps : createAndWrite.Keeps (fun _ => 0) (BlockState.start slotDb).view.answer
    (Call.Allowed (fun _ => 0) ⟨(BlockState.start slotDb).view.Bare, fun _ _ => True⟩)
    { incarnation := ⟨2, 1⟩ } := by
  refine ⟨fun _ => View.bare_of_none rfl, fun _ _ => ⟨trivial, fun _ _ => ⟨trivial, fun _ _ =>
    ⟨trivial, fun _ _ => trivial⟩⟩⟩⟩

theorem rerun_canMerge_created : ∃ y, createAndWriteRun = some y ∧
    y.1.1 = .deleted ∧ y.2.canMerge y.1.2 = some (true, y.1.2) := by
  have hsome : createAndWriteRun.isSome = true := by decide +kernel
  obtain ⟨y, hy⟩ := Option.isSome_iff_exists.mp hsome
  refine ⟨y, hy, ?_, ?_⟩
  · have hstatus : createAndWriteRun.map (fun y => y.1.1) = some .deleted := by decide +kernel
    rw [hy] at hstatus
    exact Option.some.inj hstatus
  · exact (rerun_canMerge (fun _ => 0) (.start slotDb) y.2 ⟨2, 1⟩ false createAndWrite y.1.1 y.1.2
      createAndWrite_keeps (served_of_serve hy)).1

/-- Give the old account a new life and write the slot: no contract is created, but the slot is recorded
as zero, because it is read in the new life. -/
def overrideAndWrite : Program StorageStatus := do
  setToStateIncarnation 1#160
  Program.run1 (.setStorage 1#160 7#256 1#256)

/-- The block state after another transaction has read the slot. -/
def slotRead : Option BlockState :=
  ((BlockState.start slotDb).readAccount 1#160).2.readStorage 1#160 ⟨1, 1⟩ 7#256 |>.map Prod.snd

theorem rerun_not_canMerge : (slotRead.bind fun bs =>
    ((overrideAndWrite.run (fun _ => 0) { incarnation := ⟨2, 1⟩ }).serve BlockState.answer bs).bind
      fun y => (y.2.canMerge y.1.2).map Prod.fst) = some false := by decide +kernel

end MonadExecution.Ethereum
