import MonadExecution.Lib.Pointwise
import MonadExecution.Ethereum.Serial

/-!
# Committing a block

At the end of a block `CommitBuilder::add_state_deltas` turns the entries of the block state into updates of
the database: one for each account that has changed or has changed slots, with the updates of its slots
nested in it. An update without a value deletes, and one that is marked as an incarnation drops the old
storage first. The keys of the database are hashes of addresses and slots; the model names them by the
addresses and slots themselves.

One entry summarises all the lives an account has had in the block. What makes it enough is that the first
component of a slot is the value of the database, if the account is still in the life it had there, and zero
otherwise (`Exact`).
-/

namespace MonadExecution.Ethereum

open List Option BlockState StateDelta Db

/-! ## Updates -/

structure StorageUpdate where
  key : Bytes32
  value : Option Bytes32

structure AccountUpdate where
  key : Address
  value : Option Account
  incarnation : Bool
  next : List StorageUpdate

/-- The updates of the slots that have changed; a slot that has become zero is deleted. -/
def StateDelta.storageUpdates (d : StateDelta) : List StorageUpdate :=
  if d.account.2.isSome then
    d.storage.entries.filterMap fun e =>
      if e.2.1 ≠ e.2.2 then
        some { key := e.1, value := if e.2.2 = (0 : Bytes32) then none else some e.2.2 }
      else none
  else []

/-- The update of an account, if it or one of its slots has changed. -/
def StateDelta.update (a : Address) (d : StateDelta) : Option AccountUpdate :=
  if d.storageUpdates ≠ [] ∨ d.account.1 ≠ d.account.2 then
    some
      { key := a
        value := d.account.2
        incarnation := d.account.2.any fun account =>
          d.account.1.any fun original => decide (original.incarnation ≠ account.incarnation)
        next := d.storageUpdates }
  else none

def addStateDeltas (deltas : Table Address StateDelta) : List AccountUpdate :=
  deltas.entries.filterMap fun e => e.2.update e.1

/-! ## Applying them -/

/-- A slot that is not stored is zero, and zero is not stored; a deletion of a slot that is not stored is
refused. -/
def StorageUpdate.apply (u : StorageUpdate) (old : Bytes32) : Option Bytes32 :=
  match u.value with
  | some value => some value
  | none => if old = 0 then none else some 0

/-- `update_value_and_subtrie_`: a deletion erases the account with its storage, and is refused if there is
no account; an incarnation starts with an empty storage; an update without value keeps the account. -/
def AccountUpdate.apply (u : AccountUpdate) (old : Option (Account × (Bytes32 → Bytes32))) :
    Option (Option (Account × (Bytes32 → Bytes32))) :=
  if u.value = none ∧ u.next.isEmpty then old.map fun _ => none
  else
    match u.value.or (old.map Prod.fst) with
    | none => none
    | some account =>
      let storage := if u.incarnation then fun _ => 0 else (old.map Prod.snd).getD fun _ => 0
      (Pointwise.apply StorageUpdate.key StorageUpdate.apply u.next storage).map fun storage' =>
        some (account, storage')

/-- The database after the updates; none if one of them is refused. -/
def Db.upsert (db : Db) (updates : List AccountUpdate) : Option Db :=
  (Pointwise.apply AccountUpdate.key AccountUpdate.apply updates db.state).map fun state => { db with state := state }

def BlockState.commit (bs : BlockState) : Option Db := bs.db.upsert (addStateDeltas bs.deltas)

/-! ## Merges into a block state -/

/-- There is nothing to lose if the account is given a new life: it has no storage, and had none in the
database if it is still in the life that it had there. -/
def BlockState.Clean (bs : BlockState) (a : Address) : Prop :=
  bs.view.Bare a ∧ ((bs.db.readAccount a).map (·.incarnation) = bs.view.life a → ∀ key, bs.db.readStorage a key = 0)

/-- What can happen to a block state in block `number`: somebody reads, or a state is merged. The events are
all the questions that have been answered. A state that is merged has been filled by a program that was
given such answers, at whatever moments, which are still right, as `can_merge` makes sure; in the end
accounts may have been deleted. -/
inductive History (keccak : Bytes → Bytes32) (number : BitVec 40) (db : Db) :
    List Event → BlockState → Prop
  | start : History keccak number db [] (.start db)
  | read {es : List Event} {bs bs' : BlockState} {q : Query} {y : q.Answer}
      (h : History keccak number db es bs) (hq : bs.answer q = some (y, bs')) :
      History keccak number db (⟨q, y⟩ :: es) bs'
  | merge {α : Type} {es tr : List Event} {bs bs' : BlockState} {p : Program α} {tx : BitVec 24} {x : α}
      {st st' : State} (h : History keccak number db es bs)
      (hrun : (p.run keccak { incarnation := ⟨number, tx⟩ }).Steps tr (.done (x, st)))
      (hread : ∀ e ∈ tr, e ∈ es) (hright : ∀ e ∈ tr, e.2 = bs.view.answer e.1)
      (hkeeps : p.Keeps keccak bs.view.answer (Call.Allowed keccak ⟨bs.Clean, fun _ _ => True⟩)
        { incarnation := ⟨number, tx⟩ })
      (hend : Trimmed st st') (hmerge : bs.merge st' = some bs') : History keccak number db es bs'

/-! ## The first components -/

/-- The value of a slot before the present life of its account, or in it. -/
def Db.origin (db : Db) (a : Address) (y : Account) (key : Bytes32) : Bytes32 :=
  if (db.readAccount a).map (·.incarnation) = some y.incarnation then db.readStorage a key else 0

/-- Every slot of an entry has its origin as first component. -/
def Exact (bs : BlockState) : Prop :=
  ∀ a d y key slot, bs.deltas.lookup a = some d → d.account.2 = some y →
    d.storage.lookup key = some slot → slot.1 = bs.db.origin a y key

namespace Exact

variable {bs bs' : BlockState}

theorem start (db : Db) : Exact (.start db) := by
  intro a d y key slot hd
  cases hd

/-- Reading keeps it: a new entry of a slot starts from its origin. -/
theorem answer {q : Query} {x : q.Answer} (h : Exact bs) (hq : bs.answer q = some (x, bs')) : Exact bs' := by
  cases q with
  | account a =>
    change some (bs.readAccount a) = some (x, bs') at hq
    unfold BlockState.readAccount at hq
    cases hd : bs.deltas.lookup a with
    | some d =>
      simp only [hd] at hq
      cases hq
      exact h
    | none =>
      simp only [hd] at hq
      cases hq
      intro b d y key slot hd' hy hslot
      rw [Table.lookup_insert_ite] at hd'
      split_ifs at hd'
      · cases hd'
        cases hslot
      · exact h b d y key slot hd' hy hslot
  | storage a i key =>
    change bs.readStorage a i key = some (x, bs') at hq
    unfold BlockState.readStorage at hq
    split at hq
    · cases hq
    rename_i d hd
    split at hq
    · rename_i hlife
      split at hq
      · cases hq
        exact h
      cases hq
      intro b d' y key' slot hd' hy hslot
      rw [Table.lookup_insert_ite] at hd'
      by_cases hb : b = a
      · subst hb
        rw [if_pos rfl] at hd'
        cases hd'
        rw [Table.lookup_insert_ite] at hslot
        by_cases hkey : key' = key
        · subst hkey
          rw [if_pos rfl] at hslot
          cases hslot
          rw [hy] at hlife
          show (if d.account.1.map _ = some i then bs.db.readStorage b key' else 0) = bs.db.origin b y key'
          rw [bs.origins b d hd, ← hlife]
          rfl
        · rw [if_neg hkey] at hslot
          exact h b d y key' slot hd hy hslot
      · rw [if_neg hb] at hd'
        exact h b d' y key' slot hd' hy hslot
    · cases hq
      exact h
  | code hash =>
    cases hq
    exact h

/-- Without an entry for it, a slot of an account that has one reads as its origin. -/
theorem view_slot_of_none {a : Address} {d : StateDelta} {y : Account} {key : Bytes32}
    (hd : bs.deltas.lookup a = some d) (hy : d.account.2 = some y)
    (hkey : d.storage.lookup key = none) : bs.view.slot a key = bs.db.origin a y key := by
  rw [view_slot hd, slot, if_neg (by simp [hy]), hkey, hy, bs.origins a d hd]
  rfl

/-- Merging a state that has read what the block state has: a slot that it has written has an entry, or
was zero. -/
theorem merge {tr : List Event} {st st' : State} (h : Exact bs) (hfit : bs.FitsLives st')
    (hcln : ∀ a s y, st.current.lookup a = some s → s.recent.account = some y →
      bs.view.life a = some y.incarnation ∨ bs.Clean a)
    (hhon : Honest bs.view tr st) (hkept : ∀ e ∈ tr, Kept bs e.1) (hright : ∀ e ∈ tr, e.2 = bs.view.answer e.1)
    (hend : Trimmed st st') (hmerge : bs.merge st' = some bs') : Exact bs' := by
  obtain ⟨-, -, hdb, -⟩ := deltas_merge hmerge
  intro a d' y key slot hd' hy hslot
  rw [hdb]
  cases hs' : st'.current.lookup a with
  | none =>
    rw [lookup_merge_none hmerge hs'] at hd'
    exact h a d' y key slot hd' hy hslot
  | some s' =>
    obtain ⟨d, hd, hd1⟩ := lookup_merge hmerge hs'
    obtain rfl : BlockState.mergeDelta s'.recent d = d' := Option.some.inj (hd1.symm.trans hd')
    obtain ⟨s, hs, hsto, hacc⟩ := hend.current a s' hs'
    change s'.recent.account = some y at hy
    have hacc : s.recent.account = some y := by
      rcases hacc with hacc | hnone
      · exact hacc.symm.trans hy
      rw [hnone] at hy
      cases hy
    change (if s'.recent.account.isSome then _ else ∅ : Table _ _).lookup key = some slot at hslot
    rw [hy, hsto] at hslot
    change (BlockState.mergeStorage _ _).lookup key = some slot at hslot
    rw [lookup_mergeStorage] at hslot
    -- the first component is that of the entry, or zero
    have hfst : slot.1 = ((d.storage.lookup key).map Prod.fst).getD 0 ∧
        (d.storage.lookup key = none → ∃ value, s.recent.storage.lookup key = some value) := by
      cases hval : s.recent.storage.lookup key with
      | some value =>
        rw [hval] at hslot
        cases hslot
        exact ⟨rfl, fun _ => ⟨value, rfl⟩⟩
      | none =>
        rw [hval] at hslot
        refine ⟨?_, fun hnone => ?_⟩
        · simp only at hslot
          rw [hslot]
          rfl
        · rw [hnone] at hslot
          cases hslot
    obtain ⟨hfst, hkn⟩ := hfst
    rw [hfst]
    by_cases hlife : bs.view.life a = some y.incarnation
    · -- the account is in the life it was in
      obtain ⟨y₀, hy0, hinc⟩ := map_eq_some_iff.mp hlife
      rw [view_account hd] at hy0
      have horigin : bs.db.origin a y key = bs.db.origin a y₀ key := by
        unfold origin
        rw [hinc]
      rw [horigin]
      cases hold : d.storage.lookup key with
      | some old => exact h a d y₀ key old hd hy0 hold
      | none =>
        obtain ⟨value, hval⟩ := hkn hold
        obtain ⟨o, value0, ho, hval0⟩ := (hhon.known.recent hs) key value hval
        obtain ⟨hslot0, i, hev⟩ := hhon.slot a o key value0 ho hval0
        by_cases horig : (bs.db.readAccount a).map (·.incarnation) = some y₀.incarnation
        · rw [← view_slot_of_none hd hy0 hold, ← hslot0]
          have hans : value0 = bs.view.answer (.storage a i key) := hright _ hev
          rw [hans]
          -- it was asked for in another life, where there is nothing
          refine (if_neg fun hi => ?_).symm
          have hi' : some i = some y₀.incarnation := hi.symm.trans (hlife.trans (congrArg some hinc.symm))
          obtain ⟨d2, slot2, hd2, hslot2⟩ := hkept _ hev (hi' ▸ horig) hi
          obtain rfl : d = d2 := Option.some.inj (hd.symm.trans hd2)
          rw [hold] at hslot2
          cases hslot2
        · exact (if_neg horig).symm
    · -- a new life: whatever has an entry started from zero
      obtain ⟨-, hfresh⟩ := (hfit a s' y hs' hy).resolve_left hlife
      have hcln' : bs.Clean a := (hcln a s y hs hacc).resolve_left hlife
      rw [origin, if_neg hfresh]
      cases hold : d.storage.lookup key with
      | none => rfl
      | some old =>
        cases hy0 : d.account.2 with
        | none =>
          rw [d.cleared hy0] at hold
          cases hold
        | some y₀ =>
          show old.1 = 0
          rw [h a d y₀ key old hd hy0 hold, origin]
          split_ifs with horig
          · refine hcln'.2 ?_ key
            rw [horig, View.life, view_account hd, hy0]
            rfl
          · rfl

end Exact

/-! ## Every history is exact -/

/-- The account is in the life it has in the block state, or in a new one that loses nothing. -/
structure Cleanly (bs : BlockState) (a : Address) (account : Option Account) : Prop where
  absent : account = none → bs.view.account a = none
  life : ∀ y, account = some y → bs.view.life a = some y.incarnation ∨ bs.Clean a

variable {bs : BlockState} {a : Address} {i : Incarnation} {d : StateDelta} {y : Account}

theorem clean_of_none (h : bs.view.account a = none) : bs.Clean a := by
  refine ⟨View.bare_of_none h, fun horig key => ?_⟩
  rw [View.life, h] at horig
  exact readStorage_of_none (map_eq_none_iff.mp horig) key

theorem cleanly_view (bs : BlockState) (a : Address) : Cleanly bs a (bs.view.account a) where
  absent h := h
  life y h := .inl (by rw [View.life, h]; rfl)

theorem Cleanly.edit {e : Edit} {x x' : AccountState} {r : e.Reply} (h : Cleanly bs a x.account)
    (he : e.apply i x = some (r, x')) (hcln : e.reincarnates = true → bs.Clean a) : Cleanly bs a x'.account := by
  have hnew : ∀ y, x'.account = some y → bs.Clean a → Cleanly bs a x'.account := by
    intro y hy hc
    exact ⟨fun hn => by simp [hy] at hn, fun _ _ => .inr hc⟩
  rcases Edit.account_apply he with heq | ⟨y, hy, hinc⟩ | ⟨hnone, y, hy, -⟩ | ⟨hre, y, hy, -⟩
  · rw [heq]
    exact h
  · cases hx : x.account with
    | none => exact hnew y hy (clean_of_none (h.absent hx))
    | some y₀ =>
      refine ⟨fun hn => by simp [hy] at hn, fun z hz => ?_⟩
      obtain rfl : y = z := Option.some.inj (hy.symm.trans hz)
      rw [hinc, AccountState.orCreate, hx]
      exact h.life y₀ hx
  · exact hnew y hy (clean_of_none (h.absent hnone))
  · exact hnew y hy (hcln hre)

/-- A run that keeps to the rule, with answers that are right, is honest and clean. -/
theorem cleanly_of_changes {code : Bytes32 → Bytes → Prop} {tr : List Event} {st : State}
    (h : Changes ⟨bs.Clean, code⟩ { incarnation := i } tr st) (hright : ∀ e ∈ tr, e.2 = bs.view.answer e.1) :
    Honest bs.view tr st ∧ st.All fun a x => Cleanly bs a x.account := by
  induction h with
  | refl => exact ⟨Honest.fresh bs.view i false, by simp [State.All]⟩
  | step _ hc ih =>
    obtain ⟨hhon, hall⟩ := ih fun e he => hright e (mem_append_left _ he)
    refine ⟨hhon.change (fun a (ha : bs.Clean a) => ha.1) hc fun e he => hright e (mem_append_right _ he), ?_⟩
    refine hall.change hc ?_ ?_
    · intro a o ho
      rw [(hhon.account a o ho).1]
      exact cleanly_view bs a
    · intro a e x r x' hx he hbare _
      exact hx.edit he hbare

/-- **The first components are right at every moment**, and every question has left its entries. -/
theorem History.exact {keccak : Bytes → Bytes32} {number : BitVec 40} {db : Db} {es : List Event}
    (hdb : db.Before number) (h : History keccak number db es bs) :
    bs.db = db ∧ Exact bs ∧ ∀ e ∈ es, Kept bs e.1 := by
  induction h with
  | start => exact ⟨rfl, .start db, by simp⟩
  | @read es bs bs' q y _ hq ih =>
    obtain ⟨hbs, hexact, hkept⟩ := ih
    have hg := (answer_spec hq).2
    refine ⟨hg.db_eq.trans hbs, hexact.answer hq, ?_⟩
    intro e he
    rcases mem_cons.mp he with rfl | he
    · exact kept_answer hq
    · exact (hkept e he).grown hg
  | @merge α es tr bs bs' p tx x st st' _ hrun hread hright hkeeps hend hmerge ih =>
    obtain ⟨hbs, hexact, hkept⟩ := ih
    have hch := (run_ends keccak p hkeeps).of_steps hrun hright
    obtain ⟨hhon, hcln⟩ := cleanly_of_changes hch hright
    have hinc : st.incarnation.block = number := congrArg (·.block) hch.incarnation_eq
    have hfit := fitsLives_of_honest (hbs ▸ hdb) hinc hhon hend
    obtain ⟨-, -, hdb', -⟩ := deltas_merge hmerge
    refine ⟨hdb'.trans hbs, ?_, fun e he => (hkept e he).merge hfit hmerge⟩
    refine hexact.merge hfit ?_ hhon (fun e he => hkept e (hread e he)) hright hend hmerge
    intro a s y hs hy
    exact (hcln.recent hs).life y hy

/-! ## The updates do what the entries say -/

theorem nodup_storageUpdates (d : StateDelta) : (d.storageUpdates.map StorageUpdate.key).Nodup := by
  unfold storageUpdates
  split_ifs
  · refine Pointwise.nodup_filterMap _ Sigma.fst ?_ d.storage.nodupKeys
    intro e u hu
    split_ifs at hu <;> cases hu <;> rfl
  · exact nodup_nil

theorem mem_storageUpdates (hy : d.account.2 = some y) {u : StorageUpdate} :
    u ∈ d.storageUpdates ↔ ∃ key slot, d.storage.lookup key = some slot ∧
      slot.1 ≠ slot.2 ∧ u = { key := key, value := if slot.2 = 0 then none else some slot.2 } := by
  unfold storageUpdates
  rw [hy]
  simp only [isSome_some, if_true, mem_filterMap]
  constructor
  · rintro ⟨⟨key, slot⟩, hmem, hu⟩
    by_cases hne : slot.1 ≠ slot.2
    · rw [if_pos hne] at hu
      exact ⟨key, slot, AList.mem_lookup_iff.mpr hmem, hne, (Option.some.inj hu).symm⟩
    · rw [if_neg hne] at hu
      cases hu
  · rintro ⟨key, slot, hlook, hne, rfl⟩
    exact ⟨⟨key, slot⟩, AList.mem_lookup_iff.mp hlook, if_pos hne⟩

/-- The updates of the slots of one account, applied where the slots have their first components. -/
theorem apply_storageUpdates (hy : d.account.2 = some y) (base : Bytes32 → Bytes32)
    (hbase : ∀ key slot, d.storage.lookup key = some slot → slot.1 = base key) :
    ∃ storage, Pointwise.apply StorageUpdate.key StorageUpdate.apply d.storageUpdates base =
      some storage ∧ ∀ key, storage key = match d.storage.lookup key with
        | some slot => slot.2
        | none => base key := by
  obtain ⟨storage, happ, hin, hout⟩ := Pointwise.apply_spec StorageUpdate.key StorageUpdate.apply
    (s := base) (nodup_storageUpdates d) (by
      intro u hu
      obtain ⟨key, slot, hlook, hne, rfl⟩ := (mem_storageUpdates hy).mp hu
      by_cases hzero : slot.2 = 0
      · -- a slot that is deleted was not zero
        refine ⟨0, ?_⟩
        simp only [StorageUpdate.apply, if_pos hzero, ← hbase key slot hlook]
        rw [if_neg (hzero ▸ hne)]
      · exact ⟨slot.2, by simp only [StorageUpdate.apply, if_neg hzero]⟩)
  refine ⟨storage, happ, fun key => ?_⟩
  have hqt : (∀ slot, d.storage.lookup key = some slot → slot.1 = slot.2) → storage key = base key := by
    intro hsame
    refine hout key fun hmem => ?_
    obtain ⟨u, hu, rfl⟩ := mem_map.mp hmem
    obtain ⟨key, slot, hlook, hne, rfl⟩ := (mem_storageUpdates hy).mp hu
    exact hne (hsame slot hlook)
  cases hlook : d.storage.lookup key with
  | none => exact hqt fun slot hs => by simp [hlook] at hs
  | some slot =>
    by_cases hsame : slot.1 = slot.2
    · rw [hqt fun slot' hs => by rw [← Option.some.inj (hlook.symm.trans hs)]; exact hsame]
      exact (hbase key slot hlook).symm.trans hsame
    have hu := hin _ ((mem_storageUpdates hy).mpr ⟨key, slot, hlook, hsame, rfl⟩)
    simp only [StorageUpdate.apply, ← hbase key slot hlook] at hu
    by_cases hzero : slot.2 = 0
    · rw [if_pos hzero] at hu
      rw [if_neg (hzero ▸ hsame)] at hu
      exact (Option.some.inj hu).symm.trans hzero.symm
    · rw [if_neg hzero] at hu
      exact (Option.some.inj hu).symm

/-- The slots of an account as the database has it. -/
def storedSlot (stored : Option (Account × (Bytes32 → Bytes32))) (key : Bytes32) : Bytes32 :=
  match stored with
  | some y => y.2 key
  | none => 0

theorem readStorage_eq (db : Db) (a : Address) (key : Bytes32) :
    db.readStorage a key = storedSlot (db.state a) key := by
  unfold Db.readStorage storedSlot
  cases db.state a <;> rfl

/-- An account of the database reads as an entry. -/
def ReadsAs (bs : BlockState) (a : Address) (d : StateDelta)
    (stored : Option (Account × (Bytes32 → Bytes32))) : Prop :=
  stored.map Prod.fst = d.account.2 ∧ ∀ key, storedSlot stored key = d.slot bs.db a key

theorem slot_of_some {db : Db} {key : Bytes32} (hy : d.account.2 = some y) (horig : d.account.1 = db.readAccount a) :
    d.slot db a key = match d.storage.lookup key with
      | some slot => slot.2
      | none => db.origin a y key := by
  unfold slot
  rw [if_neg (by simp [hy]), hy, horig]
  rfl

section Update

variable {bs : BlockState} {a : Address} {d : StateDelta}

/-- Nothing to update: the database has what the entry has. -/
theorem readsAs_of_none (hexact : Exact bs) (hd : bs.deltas.lookup a = some d)
    (hu : d.update a = none) : ReadsAs bs a d (bs.db.state a) := by
  unfold update at hu
  split_ifs at hu with hchanged
  rw [not_or, not_ne_iff, not_ne_iff] at hchanged
  obtain ⟨hqt, hsame⟩ := hchanged
  have horig := bs.origins a d hd
  refine ⟨horig.symm.trans hsame, fun key => ?_⟩
  rw [← readStorage_eq]
  cases hy : d.account.2 with
  | none =>
    rw [slot, if_pos hy]
    exact readStorage_of_none (horig.symm.trans (hsame.trans hy)) key
  | some y =>
    have hstored : bs.db.readAccount a = some y := horig.symm.trans (hsame.trans hy)
    have horigin : ∀ key, bs.db.origin a y key = bs.db.readStorage a key := by
      intro key
      unfold origin
      rw [hstored]
      exact if_pos rfl
    rw [slot_of_some hy horig, horigin]
    cases hlook : d.storage.lookup key with
    | none => rfl
    | some slot =>
      rw [← horigin, ← hexact a d y key slot hd hy hlook]
      by_contra hne
      have hmem := (mem_storageUpdates hy).mpr ⟨key, slot, hlook, hne, rfl⟩
      rw [hqt] at hmem
      cases hmem

/-- The update of an entry is accepted, and afterwards the database has what the entry has. -/
theorem readsAs_of_some (hexact : Exact bs) (hd : bs.deltas.lookup a = some d) {u : AccountUpdate}
    (hu : d.update a = some u) :
    u.key = a ∧ ∃ stored, u.apply (bs.db.state a) = some stored ∧ ReadsAs bs a d stored := by
  unfold update at hu
  split_ifs at hu with hchanged
  cases hu
  refine ⟨rfl, ?_⟩
  have horig : d.account.1 = (bs.db.state a).map Prod.fst := bs.origins a d hd
  unfold AccountUpdate.apply
  cases hy : d.account.2 with
  | none =>
    -- a deletion, of an account that the database has
    have hnext : d.storageUpdates = [] := by
      unfold storageUpdates
      rw [hy]
      rfl
    rw [hnext, hy] at hchanged
    obtain ⟨old, hold⟩ := ne_none_iff_exists'.mp (hchanged.resolve_left fun h => h rfl)
    rw [horig] at hold
    obtain ⟨stored, hstored, -⟩ := map_eq_some_iff.mp hold
    refine ⟨none, ?_, hy.symm, fun key => ?_⟩
    · simp [hnext, hstored]
    rw [slot, if_pos hy]
    rfl
  | some y =>
    -- the storage to start from holds the first components
    have hbeg : ∀ key, (if (some y).any (fun account => d.account.1.any fun original =>
          decide (original.incarnation ≠ account.incarnation)) then fun _ => 0
        else ((bs.db.state a).map Prod.snd).getD fun _ => 0 : Bytes32 → Bytes32) key =
        bs.db.origin a y key := by
      intro key
      unfold Db.origin Db.readAccount Db.readStorage
      rw [horig]
      cases bs.db.state a with
      | none => simp
      | some stored =>
        by_cases hinc : stored.1.incarnation = y.incarnation
        · simp [hinc]
        · simp [hinc]
    obtain ⟨storage, happ, hsls⟩ := apply_storageUpdates hy
      (if (some y).any (fun account => d.account.1.any fun original =>
          decide (original.incarnation ≠ account.incarnation)) then fun _ => 0
        else ((bs.db.state a).map Prod.snd).getD fun _ => 0)
      (fun key slot hlook => (hexact a d y key slot hd hy hlook).trans (hbeg key).symm)
    refine ⟨some (y, storage), ?_, hy.symm, fun key => ?_⟩
    · show (Pointwise.apply StorageUpdate.key StorageUpdate.apply d.storageUpdates _).map _ = _
      rw [happ]
      rfl
    rw [slot_of_some hy (bs.origins a d hd)]
    show storage key = _
    rw [hsls key]
    cases d.storage.lookup key with
    | some slot => rfl
    | none => exact hbeg key

end Update

/-! ## The theorem -/

theorem nodup_addStateDeltas (deltas : Table Address StateDelta) :
    ((addStateDeltas deltas).map AccountUpdate.key).Nodup := by
  refine Pointwise.nodup_filterMap _ Sigma.fst ?_ deltas.nodupKeys
  intro e u hu
  unfold update at hu
  split_ifs at hu
  cases hu
  rfl

variable {bs : BlockState}

/-- An exact block state can be committed, and the database then reads as the block state does. -/
theorem commit_of_exact (hexact : Exact bs) :
    ∃ db', bs.commit = some db' ∧ ∀ a, db'.readAccount a = bs.view.account a ∧
      ∀ key, db'.readStorage a key = bs.view.slot a key := by
  have hmem : ∀ u ∈ addStateDeltas bs.deltas, ∃ d, bs.deltas.lookup u.key = some d ∧ d.update u.key = some u := by
    intro u hu
    obtain ⟨⟨a, d⟩, he, hmade⟩ := mem_filterMap.mp hu
    have hd : bs.deltas.lookup a = some d := AList.mem_lookup_iff.mpr he
    obtain ⟨hkey, -⟩ := readsAs_of_some hexact hd hmade
    rw [hkey]
    exact ⟨d, hd, hmade⟩
  obtain ⟨state, happ, hin, hout⟩ := Pointwise.apply_spec AccountUpdate.key AccountUpdate.apply
    (s := bs.db.state) (nodup_addStateDeltas bs.deltas) (by
      intro u hu
      obtain ⟨d, hd, hmade⟩ := hmem u hu
      obtain ⟨-, stored, hstored, -⟩ := readsAs_of_some hexact hd hmade
      exact ⟨stored, hstored⟩)
  refine ⟨{ bs.db with state := state }, ?_, fun a => ?_⟩
  · unfold BlockState.commit upsert
    rw [happ]
    rfl
  cases hd : bs.deltas.lookup a with
  | none =>
    have hsame : state a = bs.db.state a := by
      refine hout a fun hk => ?_
      obtain ⟨u, hu, rfl⟩ := mem_map.mp hk
      obtain ⟨d, hd', -⟩ := hmem u hu
      rw [hd] at hd'
      cases hd'
    refine ⟨?_, fun key => ?_⟩
    · rw [view_account_db hd]
      exact congrArg (Option.map Prod.fst) hsame
    · rw [view_slot_db hd, readStorage_eq, readStorage_eq]
      exact congrArg (storedSlot · key) hsame
  | some d =>
    have hrds : ReadsAs bs a d (state a) := by
      cases hu : d.update a with
      | none =>
        have hsame : state a = bs.db.state a := by
          refine hout a fun hk => ?_
          obtain ⟨u, hmem', rfl⟩ := mem_map.mp hk
          obtain ⟨d', hd', hmade⟩ := hmem u hmem'
          obtain rfl : d = d' := Option.some.inj (hd.symm.trans hd')
          rw [hu] at hmade
          cases hmade
        rw [hsame]
        exact readsAs_of_none hexact hd hu
      | some u =>
        obtain ⟨rfl, stored, hstored, hrds⟩ := readsAs_of_some hexact hd hu
        have hlst : u ∈ addStateDeltas bs.deltas := mem_filterMap.mpr ⟨⟨u.key, d⟩, AList.mem_lookup_iff.mp hd, hu⟩
        have heq : stored = state u.key := Option.some.inj (hstored.symm.trans (hin u hlst))
        rw [← heq]
        exact hrds
    refine ⟨?_, fun key => ?_⟩
    · rw [view_account hd]
      exact hrds.1
    · rw [view_slot hd, readStorage_eq]
      exact hrds.2 key

/-- **The commit agrees with the block state.** After any history of reads and merges in a block, in which
existing accounts are given a new life only where nothing is lost, the updates of the commit are all
accepted by the database (so every deletion names something that is there), and every account and every slot
then reads as it does through the block state. -/
theorem commit_reads_as_blockState (keccak : Bytes → Bytes32) (number : BitVec 40) (db : Db)
    (es : List Event) (bs : BlockState) (hdb : db.Before number) (h : History keccak number db es bs) :
    ∃ db', bs.commit = some db' ∧ ∀ a, db'.readAccount a = (bs.readAccount a).1 ∧
      ∀ key, (∀ y, (bs.readAccount a).1 = some y →
          ((bs.readAccount a).2.readStorage a y.incarnation key).map Prod.fst = some (db'.readStorage a key)) ∧
        ((bs.readAccount a).1 = none → db'.readStorage a key = 0) := by
  obtain ⟨-, hexact, -⟩ := h.exact hdb
  obtain ⟨db', hcommit, hrds⟩ := commit_of_exact hexact
  refine ⟨db', hcommit, fun a => ?_⟩
  obtain ⟨hacc, hg, d, hd⟩ := bs.readAccount_spec a
  obtain ⟨haccount, hslot⟩ := hrds a
  refine ⟨haccount.trans hacc.symm, fun key => ⟨fun y hy => ?_, fun hnone => ?_⟩⟩
  · obtain ⟨bs', hread, -⟩ := readStorage_spec hd y.incarnation key
    have hlife : (bs.readAccount a).2.view.life a = some y.incarnation := by
      rw [hg.view_eq, View.life, ← hacc, hy]
      rfl
    have hans : (bs.readAccount a).2.view.answer (.storage a y.incarnation key) = db'.readStorage a key := by
      rw [hslot key, ← hg.view_eq]
      exact if_pos hlife
    rw [hread, hans]
    rfl
  · rw [hslot key]
    exact bs.view.absent a (hacc.symm.trans hnone) key

/-! ## A block, and one in which something is lost -/

/-- A computation that is served, as a history. -/
theorem History.serve {α : Type} {keccak : Bytes → Bytes32} {number : BitVec 40} {db : Db} {es : List Event}
    {t : Ask α} {x : α} {bs' : BlockState} (h : History keccak number db es bs)
    (hs : t.serve BlockState.answer bs = some (x, bs')) :
    ∃ tr es', t.Steps tr (.done x) ∧ (∀ e ∈ tr, e ∈ es') ∧ (∀ e ∈ es, e ∈ es') ∧
      (∀ e ∈ tr, e.2 = bs.view.answer e.1) ∧ bs.Grown bs' ∧ History keccak number db es' bs' := by
  induction t generalizing bs es with
  | done y =>
    cases hs
    exact ⟨[], es, .refl _, by simp, fun _ he => he, by simp, .refl _, h⟩
  | fail => cases hs
  | ask q next ih =>
    obtain ⟨⟨y, bs₁⟩, hq, hs⟩ := bind_eq_some_iff.mp hs
    obtain ⟨hy, hg⟩ := answer_spec hq
    obtain ⟨tr, es', hss, hin, hsub, hright, hg', h'⟩ := ih y (h.read hq) hs
    refine ⟨⟨q, y⟩ :: tr, es', .ask hss, ?_, fun e he => hsub e (mem_cons_of_mem _ he), ?_, hg.trans hg', h'⟩
    · intro e he
      rcases mem_cons.mp he with rfl | he
      · exact hsub _ mem_cons_self
      · exact hin e he
    · intro e he
      rcases mem_cons.mp he with rfl | he
      · exact hy
      rw [← hg.view_eq]
      exact hright e he

/-- The block state after `createAndWrite` has been merged. -/
def createAndWriteMerged : Option BlockState := createAndWriteRun.bind fun y => y.2.merge y.1.2

theorem history_createAndWrite (h : createAndWriteMerged = some bs) : ∃ es, History (fun _ => 0) 2 slotDb es bs := by
  obtain ⟨⟨⟨x, st⟩, bs₁⟩, hrun, hmerge⟩ := bind_eq_some_iff.mp h
  have hbeg : History (fun _ => 0) 2 slotDb [] (.start slotDb) := .start
  obtain ⟨tr, es, hss, hin, -, hright, hg, hhistory⟩ := hbeg.serve hrun
  rw [← hg.view_eq] at hright
  refine ⟨es, .merge hhistory hss hin hright ?_ ⟨rfl, rfl, rfl, ?_⟩ hmerge⟩
  · refine ⟨fun _ => clean_of_none ?_, fun _ _ => ⟨trivial, fun _ _ => ⟨trivial, fun _ _ =>
      ⟨trivial, fun _ _ => trivial⟩⟩⟩⟩
    rw [hg.view_eq]
    rfl
  · exact fun a s hs => ⟨s, hs, rfl, .inl rfl⟩

/-- A new contract and a slot of an old account that is cleared. -/
theorem commit_reads_as_blockState_created : ∃ bs db', createAndWriteMerged = some bs ∧
    bs.commit = some db' ∧ db'.readAccount 2#160 = (bs.readAccount 2#160).1 ∧
    (bs.readAccount 2#160).1.isSome = true := by
  have hsome : (createAndWriteMerged.map fun bs => (bs.readAccount 2#160).1.isSome) = some true := by decide +kernel
  obtain ⟨bs, hbs, hexists⟩ := map_eq_some_iff.mp hsome
  obtain ⟨es, hhistory⟩ := history_createAndWrite hbs
  have hdb : slotDb.Before 2 := by
    intro a y hy
    obtain ⟨z, hz, rfl⟩ := map_eq_some_iff.mp hy
    change (if a = 1#160 then _ else none) = some z at hz
    split_ifs at hz
    cases hz
    decide
  obtain ⟨db', hcommit, hrds⟩ := commit_reads_as_blockState (fun _ => 0) 2 slotDb es bs hdb hhistory
  exact ⟨bs, db', hbs, hcommit, (hrds 2#160).1, hexists⟩

/-- Account 1, with a slot but without code or nonce, is given a new life after a program has run and been
merged. -/
def recreatedAfter (p : Program Unit) : Option BlockState :=
  ((p.run (fun _ => 0) { incarnation := ⟨2, 1⟩ }).serve BlockState.answer
    (.start (twoSenders { incarnation := ⟨1, 1⟩ }))).bind fun y =>
    (y.2.merge y.1.2).bind fun bs =>
      (((createContract 1#160).run (fun _ => 0) { incarnation := ⟨2, 2⟩ }).serve BlockState.answer
        bs).bind fun z => z.2.merge z.1.2

def readSlotOnly : Program Unit := do
  let _ ← getNonce 1#160
  let _ ← Program.run1 (.getStorage 1#160 7#256)
  pure ()

def clearSlotOnly : Program Unit := do
  let _ ← Program.run1 (.setStorage 1#160 7#256 0#256)
  pure ()

/-- If the slot has been read before, the block state still shows it and the database does not; if it has
been cleared before, the commit deletes a slot that is not there. -/
theorem commit_not_reads_as_blockState : ((recreatedAfter readSlotOnly).bind fun bs => bs.commit.map fun db' =>
      (db'.readStorage 1#160 7#256, (bs.readStorage 1#160 ⟨2, 2⟩ 7#256).map Prod.fst)) = some (0, some 5) ∧
    ((recreatedAfter clearSlotOnly).map fun bs => bs.commit.isSome) = some false := by constructor <;> decide +kernel

end MonadExecution.Ethereum
