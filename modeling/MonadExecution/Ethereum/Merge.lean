import MonadExecution.Ethereum.Honest

/-!
# Merging, seen through the view

`View.merge` says what merging a state does to the contents: the records of the state replace accounts,
their slots replace slots, and an account that is in another life than before has no slots but those.
A block state also remembers slots that were read in an earlier life, and what its database had; if
accounts are given a new life only where there is no storage, and no new life is one of the database,
this cannot be seen (`view_merge`).
-/

namespace MonadExecution.Ethereum

open StateDelta

/-- Does an account of the state refer to the code? -/
def State.usesCode (st : State) (hash : Bytes32) : Bool :=
  st.current.entries.any fun e => e.2.recent.account.any fun x => decide (x.codeHash = hash)

/-- The contents after a state has been merged. -/
def View.merge (v : View) (st : State) : View where
  account a := match st.current.lookup a with
    | some s => s.recent.account
    | none => v.account a
  slot a key := match st.current.lookup a with
    | none => v.slot a key
    | some s =>
      match s.recent.account with
      | none => 0
      | some y =>
        match s.recent.storage.lookup key with
        | some value => value
        | none => if v.life a = some y.incarnation then v.slot a key else 0
  code hash := if st.usesCode hash then (st.code.lookup hash).or (v.code hash) else v.code hash
  absent := by
    intro a h key
    cases hs : st.current.lookup a with
    | none =>
      simp only [hs] at h ⊢
      exact v.absent a h key
    | some s =>
      simp only [hs] at h ⊢
      rw [h]

namespace BlockState

/-- A new life is given only where there is no storage, and is none of the database. -/
def FitsLives (bs : BlockState) (st : State) : Prop :=
  ∀ a s y, st.current.lookup a = some s → s.recent.account = some y → bs.view.life a = some y.incarnation ∨
      (bs.view.Bare a ∧ (bs.db.readAccount a).map (·.incarnation) ≠ some y.incarnation)

/-- What makes a state fit a block state: the lives of its accounts do, and a code that both have is the
same. -/
structure Fitting (bs : BlockState) (st : State) : Prop where
  life : bs.FitsLives st
  code : ∀ hash old new, bs.view.code hash = some old → st.code.lookup hash = some new → old = new

theorem Fitting.congr {bs bs' : BlockState} {st st' : State} (h : bs.Fitting st) (hview : bs'.view = bs.view)
    (hdb : bs'.db = bs.db) (hcur : st'.current = st.current) (hcode : st'.code = st.code) : bs'.Fitting st' := by
  constructor
  · unfold FitsLives
    rw [hview, hdb, hcur]
    exact h.life
  · rw [hview, hcode]
    exact h.code

theorem lookup_mergeStorage (storage : Table Bytes32 Bytes32)
    (deltas : Table Bytes32 (Bytes32 × Bytes32)) (key : Bytes32) :
    (mergeStorage storage deltas).lookup key = match storage.lookup key with
      | some value => some (((deltas.lookup key).map Prod.fst).getD 0, value)
      | none => deltas.lookup key := by
  unfold mergeStorage
  rw [Table.lookup_alterAll _ storage.keys_nodup]
  split_ifs with hmem
  · obtain ⟨value, hval⟩ := Table.mem_keys_iff.mp hmem
    rw [hval]
    rfl
  · rw [AList.lookup_eq_none.mpr hmem]

theorem lookup_mergeCode (st : State) (code : Table Bytes32 Bytes) (hash : Bytes32) :
    (mergeCode st code).lookup hash =
      if st.usesCode hash then (code.lookup hash).or (st.code.lookup hash) else code.lookup hash := by
  unfold mergeCode
  rw [Table.lookup_alterAll _ (st.code.keys_nodup.filter _)]
  simp only [List.mem_filter]
  by_cases huse : st.usesCode hash = true
  · rw [if_pos huse]
    split_ifs with hmem
    · rfl
    have hnot : hash ∉ st.code.keys := fun hk => hmem ⟨hk, huse⟩
    rw [AList.lookup_eq_none.mpr hnot, Option.or_none]
  · rw [if_neg huse, if_neg]
    exact fun hmem => huse hmem.2

section

variable {bs bs' : BlockState} {st : State}

theorem deltas_merge (hm : bs.merge st = some bs') :
    bs'.deltas = mergeDeltas st.current bs.deltas ∧ bs'.code = mergeCode st bs.code ∧
      bs'.db = bs.db ∧ ∀ a s, st.current.lookup a = some s → ∃ d, bs.deltas.lookup a = some d := by
  unfold merge at hm
  split_ifs at hm with hall
  cases hm
  refine ⟨rfl, rfl, rfl, ?_⟩
  intro a s hs
  rw [Table.all_iff] at hall
  have h := hall a s hs
  simp only [Bool.and_eq_true] at h
  exact Option.isSome_iff_exists.mp h.2

/-- A state that could be merged has no open frame. -/
theorem flat_of_merge (hm : bs.merge st = some bs') (a : Address) (s : VersionStack AccountState)
    (hs : st.current.lookup a = some s) : s.below = [] ∧ s.version = 0 := by
  unfold merge at hm
  split_ifs at hm with hall
  rw [Table.all_iff] at hall
  have h := hall a s hs
  simp only [Bool.and_eq_true, List.isEmpty_iff, beq_iff_eq] at h
  exact h.1

variable {a : Address}

/-- The entry of an address that the state has a record of. -/
theorem lookup_merge {s : VersionStack AccountState} (hm : bs.merge st = some bs') (hs : st.current.lookup a = some s) :
    ∃ d, bs.deltas.lookup a = some d ∧ bs'.deltas.lookup a = some (mergeDelta s.recent d) := by
  obtain ⟨hdeltas, -, -, hload⟩ := deltas_merge hm
  obtain ⟨d, hd⟩ := hload a s hs
  refine ⟨d, hd, ?_⟩
  rw [hdeltas, lookup_mergeDeltas, hd, hs]
  rfl

theorem lookup_merge_none (hm : bs.merge st = some bs') (hs : st.current.lookup a = none) :
    bs'.deltas.lookup a = bs.deltas.lookup a := by
  obtain ⟨hdeltas, -, -, -⟩ := deltas_merge hm
  rw [hdeltas, lookup_mergeDeltas, hs]
  exact Option.map_id' ▸ rfl

/-- The slots of a record that is merged in an entry. -/
theorem slot_mergeDelta {d : StateDelta} {x : AccountState} {y : Account} (hd : bs.deltas.lookup a = some d)
    (hx : x.account = some y)
    (hlife : bs.view.life a = some y.incarnation ∨
      (bs.view.Bare a ∧ (bs.db.readAccount a).map (·.incarnation) ≠ some y.incarnation))
    (key : Bytes32) :
    (mergeDelta x d).slot bs.db a key = match x.storage.lookup key with
      | some value => value
      | none => if bs.view.life a = some y.incarnation then bs.view.slot a key else 0 := by
  have hview : bs.view.life a = d.account.2.map (·.incarnation) := by
    unfold View.life
    rw [view_account hd]
  unfold slot
  have hacc : (mergeDelta x d).account = (d.account.1, some y) := congrArg (Prod.mk _) hx
  have hsto : (mergeDelta x d).storage.lookup key = match x.storage.lookup key with
      | some value => some (((d.storage.lookup key).map Prod.fst).getD 0, value)
      | none => d.storage.lookup key := by
    show (if x.account.isSome then mergeStorage x.storage d.storage else ∅).lookup key = _
    rw [hx]
    exact lookup_mergeStorage ..
  rw [hacc, hsto, if_neg (by simp)]
  cases x.storage.lookup key with
  | some value => rfl
  | none =>
    cases hs : d.storage.lookup key with
    | some slot =>
      -- an entry of the present life is the slot, one of an earlier life is zero
      show slot.2 = if _ then _ else _
      rw [view_slot_of_lookup hd hs]
      split_ifs with hsame
      · rfl
      obtain ⟨hbare, -⟩ := hlife.resolve_left hsame
      rw [← view_slot_of_lookup hd hs]
      exact hbare key
    | none =>
      show (if d.account.1.map (·.incarnation) = some y.incarnation then bs.db.readStorage a key
        else 0) = _
      split_ifs with horig hsame hsame
      · rw [hview] at hsame
        rw [view_slot hd, slot, if_neg (by intro hn; simp [hn] at hsame), hs, hsame, if_pos horig]
      · obtain ⟨-, hfresh⟩ := hlife.resolve_left hsame
        exact absurd (bs.origins a d hd ▸ horig) hfresh
      · rw [hview] at hsame
        rw [view_slot hd, slot, if_neg (by intro hn; simp [hn] at hsame), hs, hsame, if_neg horig]
      · rfl

theorem view_account_merge (hm : bs.merge st = some bs') (a : Address) : bs'.view.account a =
    match st.current.lookup a with
    | some s => s.recent.account
    | none => bs.view.account a := by
  obtain ⟨-, -, hdb, -⟩ := deltas_merge hm
  cases hs : st.current.lookup a with
  | some s =>
    obtain ⟨d, -, hd'⟩ := lookup_merge hm hs
    rw [view_account hd']
    rfl
  | none =>
    unfold view
    simp only [lookup_merge_none hm hs, hdb]

/-- **Merging a fitting state** does to the contents what `View.merge` says. -/
theorem view_merge (h : Fitting bs st) (hm : bs.merge st = some bs') : bs'.view = bs.view.merge st := by
  obtain ⟨-, hcode, hdb, -⟩ := deltas_merge hm
  apply View.ext
  · funext a
    exact view_account_merge hm a
  · funext a key
    show _ = match st.current.lookup a with
      | none => bs.view.slot a key
      | some s =>
        match s.recent.account with
        | none => 0
        | some y =>
          match s.recent.storage.lookup key with
          | some value => value
          | none => if bs.view.life a = some y.incarnation then bs.view.slot a key else 0
    cases hs : st.current.lookup a with
    | some s =>
      obtain ⟨d, hd, hd'⟩ := lookup_merge hm hs
      rw [view_slot hd', hdb]
      cases hx : s.recent.account with
      | none =>
        simp only [hx]
        exact if_pos hx
      | some y =>
        simp only [hx]
        exact slot_mergeDelta hd hx (h.life a s y hs hx) key
    | none =>
      unfold view
      simp only [lookup_merge_none hm hs, hdb]
  · funext hash
    show bs'.readCode hash = if st.usesCode hash then (st.code.lookup hash).or (bs.readCode hash)
      else bs.readCode hash
    unfold readCode
    rw [hcode, lookup_mergeCode, hdb]
    by_cases huse : st.usesCode hash = true
    · rw [if_pos huse, if_pos huse]
      cases hold : bs.code.lookup hash with
      | none => cases st.code.lookup hash <;> rfl
      | some old =>
        cases hnew : st.code.lookup hash with
        | none => rfl
        | some new =>
          have hread : bs.view.code hash = some old := by
            show bs.readCode hash = some old
            unfold readCode
            rw [hold]
          rw [h.code hash old new hread hnew]
          rfl
    · rw [if_neg huse, if_neg huse]

end

end BlockState

end MonadExecution.Ethereum
