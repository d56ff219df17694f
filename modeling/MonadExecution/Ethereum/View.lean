import MonadExecution.Ethereum.BlockState

/-!
# What can be read from a block state

A `View` is the contents of a block state without its history: the account of every address, its slots,
and the codes. Reading changes a block state, because it leaves entries behind, but not its view
(`view_answer`); two block states with the same view answer every question alike.
-/

namespace MonadExecution.Ethereum

open StateDelta Option

/-- The contents of a block state; there are no slots without an account. -/
@[ext] structure View where
  account : Address → Option Account
  slot : Address → Bytes32 → Bytes32
  code : Bytes32 → Option Bytes
  absent : ∀ a, account a = none → ∀ key, slot a key = 0

namespace View

/-- The life the account of an address is in. -/
def life (v : View) (a : Address) : Option Incarnation := (v.account a).map (·.incarnation)

/-- A slot is seen in the present life of its account only. -/
def answer (v : View) : (q : Query) → q.Answer
  | .account a => v.account a
  | .storage a incarnation key => if v.life a = some incarnation then v.slot a key else 0
  | .code hash => v.code hash

/-- The address has no storage. -/
def Bare (v : View) (a : Address) : Prop := ∀ key, v.slot a key = 0

theorem bare_of_none {v : View} {a : Address} (h : v.account a = none) : v.Bare a := v.absent a h

end View

/-! ## The view of a block state -/

theorem Db.readStorage_of_none {db : Db} {a : Address} (h : db.readAccount a = none)
    (key : Bytes32) : db.readStorage a key = 0 := by
  unfold Db.readAccount at h
  unfold Db.readStorage
  rw [map_eq_none_iff.mp h]

/-- The present value of a slot. -/
def StateDelta.slot (d : StateDelta) (db : Db) (a : Address) (key : Bytes32) : Bytes32 :=
  if d.account.2 = none then 0
  else
    match d.storage.lookup key with
    | some slot => slot.2
    | none =>
      if d.account.1.map (·.incarnation) = d.account.2.map (·.incarnation) then db.readStorage a key
      else 0

namespace BlockState

def view (bs : BlockState) : View where
  account a := match bs.deltas.lookup a with
    | some d => d.account.2
    | none => bs.db.readAccount a
  slot a key := match bs.deltas.lookup a with
    | some d => d.slot bs.db a key
    | none => bs.db.readStorage a key
  code := bs.readCode
  absent := by
    intro a h key
    cases hd : bs.deltas.lookup a with
    | none =>
      simp only [hd] at h ⊢
      exact Db.readStorage_of_none h key
    | some d =>
      simp only [hd] at h ⊢
      rw [StateDelta.slot, if_pos h]

section

variable {bs : BlockState} {a : Address} {d : StateDelta}

theorem view_account (h : bs.deltas.lookup a = some d) : bs.view.account a = d.account.2 := by
  unfold view
  simp only [h]

theorem view_slot (h : bs.deltas.lookup a = some d) (key : Bytes32) : bs.view.slot a key = d.slot bs.db a key := by
  unfold view
  simp only [h]

/-- An address without an entry reads as in the database. -/
theorem view_account_db (h : bs.deltas.lookup a = none) : bs.view.account a = bs.db.readAccount a := by
  unfold view
  simp only [h]

theorem view_slot_db (h : bs.deltas.lookup a = none) (key : Bytes32) :
    bs.view.slot a key = bs.db.readStorage a key := by
  unfold view
  simp only [h]

/-- A slot with an entry reads as the entry says. -/
theorem view_slot_of_lookup {key : Bytes32} {slot : Bytes32 × Bytes32} (h : bs.deltas.lookup a = some d)
    (hs : d.storage.lookup key = some slot) : bs.view.slot a key = slot.2 := by
  have hsome : d.account.2 ≠ none := by
    intro hnone
    rw [d.cleared hnone] at hs
    simp at hs
  rw [view_slot h, StateDelta.slot, if_neg hsome, hs]

end

/-! ## Reading leaves the view alone -/

/-- `Grown bs bs'`: nothing but reading has happened. The contents are the same, and no entry is lost. -/
structure Grown (bs bs' : BlockState) : Prop where
  db_eq : bs'.db = bs.db
  view_eq : bs'.view = bs.view
  entry : ∀ a d, bs.deltas.lookup a = some d → ∃ d', bs'.deltas.lookup a = some d' ∧
    d'.account = d.account ∧ ∀ key slot, d.storage.lookup key = some slot → d'.storage.lookup key = some slot

theorem Grown.refl (bs : BlockState) : Grown bs bs := ⟨rfl, rfl, fun _ d h => ⟨d, h, rfl, fun _ _ h => h⟩⟩

variable {bs bs' : BlockState}

theorem Grown.trans {bs'' : BlockState} (h : Grown bs bs') (h' : Grown bs' bs'') : Grown bs bs'' := by
  refine ⟨h'.db_eq.trans h.db_eq, h'.view_eq.trans h.view_eq, ?_⟩
  intro a d hd
  obtain ⟨d', hd', hacc, hslot⟩ := h.entry a d hd
  obtain ⟨d'', hd'', hacc', hslot'⟩ := h'.entry a d' hd'
  exact ⟨d'', hd'', hacc'.trans hacc, fun key slot hs => hslot' key slot (hslot key slot hs)⟩

/-- A new or changed entry of one address that reads as before. -/
theorem grown_insert {a : Address} {d' : StateDelta} (hdb : bs'.db = bs.db) (hcode : bs'.code = bs.code)
    (hdeltas : bs'.deltas = bs.deltas.insert a d') (hacc : d'.account.2 = bs.view.account a)
    (hslot : ∀ key, d'.slot bs.db a key = bs.view.slot a key)
    (hold : ∀ d, bs.deltas.lookup a = some d → d'.account = d.account ∧
      ∀ key slot, d.storage.lookup key = some slot → d'.storage.lookup key = some slot) :
    Grown bs bs' := by
  have hlook : ∀ b, bs'.deltas.lookup b = if b = a then some d' else bs.deltas.lookup b := by
    intro b
    rw [hdeltas, Table.lookup_insert_ite]
  refine ⟨hdb, ?_, ?_⟩
  · have haccount : bs'.view.account = bs.view.account := by
      funext b
      rcases eq_or_ne b a with rfl | hne
      · rw [view_account ((hlook b).trans (if_pos rfl)), hacc]
      unfold view
      simp only [hlook, if_neg hne, hdb]
    have hsls : bs'.view.slot = bs.view.slot := by
      funext b key
      rcases eq_or_ne b a with rfl | hne
      · rw [view_slot ((hlook b).trans (if_pos rfl)), hdb, hslot]
      unfold view
      simp only [hlook, if_neg hne, hdb]
    have hcodes : bs'.view.code = bs.view.code := by
      funext hash
      show bs'.readCode hash = bs.readCode hash
      unfold readCode
      rw [hcode, hdb]
    exact View.ext haccount hsls hcodes
  · intro b d hd
    rcases eq_or_ne b a with rfl | hne
    · exact ⟨d', (hlook b).trans (if_pos rfl), hold d hd⟩
    · exact ⟨d, ((hlook b).trans (if_neg hne)).trans hd, rfl, fun _ _ h => h⟩

theorem readAccount_spec (bs : BlockState) (a : Address) :
    (bs.readAccount a).1 = bs.view.account a ∧ Grown bs (bs.readAccount a).2 ∧
      ∃ d, (bs.readAccount a).2.deltas.lookup a = some d := by
  unfold readAccount
  cases hd : bs.deltas.lookup a with
  | some d => exact ⟨(view_account hd).symm, .refl bs, d, hd⟩
  | none =>
    refine ⟨(view_account_db hd).symm, ?_, ?_⟩
    · refine grown_insert rfl rfl rfl (view_account_db hd).symm ?_ ?_
      · intro key
        rw [view_slot_db hd]
        unfold slot
        by_cases hnone : bs.db.readAccount a = none
        · rw [if_pos hnone, Db.readStorage_of_none hnone key]
        rw [if_neg hnone, if_pos rfl]
        rfl
      · intro d hd'
        rw [hd] at hd'
        cases hd'
    · exact ⟨_, AList.lookup_insert _⟩

/-- A slot of an account that has been read: the value is that of the view, and a slot of the present
life has an entry afterwards. -/
theorem readStorage_spec {a : Address} {d : StateDelta} (hd : bs.deltas.lookup a = some d)
    (incarnation : Incarnation) (key : Bytes32) :
    ∃ bs', bs.readStorage a incarnation key = some (bs.view.answer (.storage a incarnation key), bs') ∧ Grown bs bs' ∧
      (bs.view.life a = some incarnation → ∃ d' slot, bs'.deltas.lookup a = some d' ∧
        d'.storage.lookup key = some slot) := by
  have hlife : bs.view.life a = d.account.2.map (·.incarnation) := by
    unfold View.life
    rw [view_account hd]
  unfold readStorage
  split
  · rename_i hnone
    rw [hd] at hnone
    cases hnone
  rename_i d0 hd0
  have hdd : d0 = d := some.inj (hd0.symm.trans hd)
  subst hdd
  show ∃ bs', _ = some ((if bs.view.life a = some incarnation then bs.view.slot a key else 0), bs') ∧ _
  rw [hlife]
  by_cases hinc : d0.account.2.map (·.incarnation) = some incarnation
  · simp only [dif_pos hinc, if_pos hinc]
    have hsome : d0.account.2 ≠ none := by
      intro hnone
      simp [hnone] at hinc
    cases hs : d0.storage.lookup key with
    | some slot => exact ⟨bs, by rw [view_slot_of_lookup hd hs], .refl bs, fun _ => ⟨d0, slot, hd, hs⟩⟩
    | none =>
      have hval : (if d0.account.1.map (·.incarnation) = some incarnation then
          bs.db.readStorage a key else 0) = bs.view.slot a key := by
        rw [view_slot hd, slot, if_neg hsome, hs, hinc]
      refine ⟨_, congrArg some (Prod.ext hval rfl), ?_, fun _ => ⟨_, _, AList.lookup_insert _, AList.lookup_insert _⟩⟩
      refine grown_insert rfl rfl rfl (view_account hd).symm ?_ ?_
      · intro key'
        rw [view_slot hd]
        unfold slot
        rw [if_neg hsome, if_neg hsome]
        simp only [Table.lookup_insert_ite]
        by_cases hkey : key' = key
        · subst hkey
          simp only [if_pos, hs, hinc]
        · simp only [if_neg hkey]
      · intro d' hd'
        have hdd' : d' = d0 := some.inj (hd'.symm.trans hd)
        subst hdd'
        refine ⟨rfl, fun key' slot hslot => ?_⟩
        show (d'.storage.insert key _).lookup key' = some slot
        rw [Table.lookup_insert_ite, if_neg, hslot]
        rintro rfl
        rw [hs] at hslot
        cases hslot
  · simp only [dif_neg hinc, if_neg hinc]
    exact ⟨bs, rfl, .refl bs, fun h => absurd h hinc⟩

/-- Storage is only answered for an account that has an entry. -/
theorem exists_lookup_of_readStorage {a : Address} {i : Incarnation} {key : Bytes32} {y : Bytes32 × BlockState}
    (h : bs.readStorage a i key = some y) : ∃ d, bs.deltas.lookup a = some d := by
  unfold readStorage at h
  split at h
  · cases h
  · exact ⟨_, ‹_›⟩

/-- **Reading is transparent**: the answer is that of the view, and the view stays. -/
theorem answer_spec {q : Query} {x : q.Answer} (h : bs.answer q = some (x, bs')) :
    x = bs.view.answer q ∧ Grown bs bs' := by
  cases q with
  | account a =>
    obtain ⟨hx, hg, -⟩ := bs.readAccount_spec a
    have hread : bs.readAccount a = (x, bs') := some.inj h
    rw [hread] at hx hg
    exact ⟨hx, hg⟩
  | storage a incarnation key =>
    obtain ⟨d, hd⟩ := exists_lookup_of_readStorage h
    obtain ⟨bs'', hs, hg, -⟩ := readStorage_spec hd incarnation key
    cases hs.symm.trans h
    exact ⟨rfl, hg⟩
  | code hash =>
    cases h
    exact ⟨rfl, .refl bs⟩

end BlockState

end MonadExecution.Ethereum
