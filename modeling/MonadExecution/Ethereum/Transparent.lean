import MonadExecution.Ethereum.DbCache

/-!
# The read cache is transparent

A proposal on the way down from the current block answers a read with what its own block reads, or leaves it to
its parent. Where the way ends at the finalized block, the LRU caches have what that block reads: an account, or
a slot in the incarnation that the account has there.
-/

namespace MonadExecution.Ethereum

open Function BlockState Option DbCache TrieDb

variable {bs : BlockState} {db : Db} {a : Address} {d : StateDelta} {key : Bytes32}

/-! ## What a block changes -/

theorem commit_reads (hexact : Exact bs) (hcommit : bs.commit = some db) (a : Address) :
    db.readAccount a = bs.view.account a ∧ ∀ key, db.readStorage a key = bs.view.slot a key := by
  obtain ⟨db', hcom', hrds⟩ := commit_of_exact hexact
  rw [hcommit] at hcom'
  cases hcom'
  exact hrds a

/-- The account has the incarnation. -/
def Db.InLife (db : Db) (a : Address) (i : Incarnation) : Prop := (db.readAccount a).map (·.incarnation) = some i

variable {i : Incarnation} {y : Account}

theorem inLife_iff (h : db.readAccount a = some y) : db.InLife a i ↔ y.incarnation = i := by
  unfold Db.InLife
  rw [h, map_some, Option.some.injEq]

/-- The slot of an account in one of its lives. -/
def Db.slotIn (db : Db) (a : Address) (i : Incarnation) (key : Bytes32) : Bytes32 :=
  if (db.readAccount a).map (·.incarnation) = some i then db.readStorage a key else 0

theorem slotIn_of_account (h : db.readAccount a = some y) :
    db.slotIn a i key = if y.incarnation = i then db.readStorage a key else 0 := by
  unfold Db.slotIn
  rw [h]
  simp only [map_some, Option.some.injEq]

theorem tryReadStorageFn_of_lookup {state : Table Address StateDelta} (i : Incarnation) (key : Bytes32)
    (hd : state.lookup a = some d) (hy : d.account.2 = some y) :
    tryReadStorageFn a i key state =
      if y.incarnation ≠ i then some 0 else (d.storage.lookup key).map Prod.snd := by
  unfold tryReadStorageFn
  rw [hd]
  dsimp only
  rw [hy]

section

variable (hexact : Exact bs) (hcommit : bs.commit = some db)

include hexact hcommit

theorem account_of_deltas (a : Address) :
    (∀ x, tryReadAccountFn a bs.deltas = some x → x = db.readAccount a) ∧
      (tryReadAccountFn a bs.deltas = none → db.readAccount a = bs.db.readAccount a) := by
  obtain ⟨hacc, -⟩ := commit_reads hexact hcommit a
  unfold tryReadAccountFn
  cases hd : bs.deltas.lookup a with
  | none =>
    rw [view_account_db hd] at hacc
    exact ⟨fun x hx => (by cases hx), fun _ => hacc⟩
  | some d =>
    rw [view_account hd] at hacc
    refine ⟨fun x hx => ?_, fun hx => by cases hx⟩
    cases hx
    exact hacc.symm

theorem storage_of_deltas (a : Address) (i : Incarnation) (key : Bytes32) :
    (∀ x, tryReadStorageFn a i key bs.deltas = some x → x = db.slotIn a i key) ∧
      (tryReadStorageFn a i key bs.deltas = none → db.slotIn a i key = bs.db.slotIn a i key) := by
  obtain ⟨hacc, hslot⟩ := commit_reads hexact hcommit a
  unfold tryReadStorageFn
  cases hd : bs.deltas.lookup a with
  | none =>
    rw [view_account_db hd] at hacc
    refine ⟨fun x hx => (by cases hx), fun _ => ?_⟩
    unfold Db.slotIn
    rw [hacc, hslot key, view_slot_db hd]
  | some d =>
    rw [view_account hd] at hacc
    dsimp only
    cases hy : d.account.2 with
    | none =>
      refine ⟨fun x hx => ?_, fun hx => by cases hx⟩
      cases hx
      unfold Db.slotIn
      rw [hacc, hy]
      rfl
    | some y =>
      dsimp only
      rw [hy] at hacc
      rw [slotIn_of_account hacc]
      by_cases hi : y.incarnation = i
      · rw [if_neg (not_not.mpr hi), if_pos hi, hslot key, view_slot hd, slot_of_some hy (bs.origins a d hd)]
        cases hs : d.storage.lookup key with
        | none =>
          refine ⟨fun x hx => (by cases hx), fun _ => ?_⟩
          rw [← hi]
          rfl
        | some slot =>
          refine ⟨fun x hx => ?_, fun hx => by cases hx⟩
          cases hx
          rfl
      · rw [if_pos hi, if_neg hi]
        refine ⟨fun x hx => ?_, fun hx => by cases hx⟩
        cases hx
        rfl

/-- An account that is in a life was in it before the block, or the life started in the block. -/
theorem inLife_before {number : Nat} (hfresh : bs.Fresh number) (h : db.InLife a i) :
    bs.db.InLife a i ∨ i.block.toNat = number := by
  obtain ⟨hacc, -⟩ := commit_reads hexact hcommit a
  unfold Db.InLife at h ⊢
  cases hd : bs.deltas.lookup a with
  | none =>
    rw [hacc, view_account_db hd] at h
    exact .inl h
  | some d =>
    rw [hacc, view_account hd] at h
    obtain ⟨y, hy, rfl⟩ := map_eq_some_iff.mp h
    exact hfresh a d y hd hy

end

/-! ## The invariant -/

/-- What the LRU caches have is right for a finalized block. -/
structure LruOk (c : DbCache) (db : Db) : Prop where
  accounts : ∀ a x, c.accounts a = some x → x = db.readAccount a
  storage : ∀ a i key x, c.storage a i key = some x →
    i.block.toNat ≤ c.finalizedBlock ∧ (db.InLife a i → x = db.readStorage a key)

/-- A proposal of the map is a block that was committed on its parent. -/
structure ProposalOk (t : TrieDb) (at_ : Nat × Bytes32) (ps : ProposalState) (bs : BlockState) (db : Db) :
    Prop where
  id_ne : at_.2 ≠ 0
  root : t.roots at_.1 at_.2 = some db
  parent : t.roots ps.parent.1 ps.parent.2 = some bs.db
  number : at_.1 = ps.parent.1 + 1
  state : ps.state = bs.deltas
  exact : Exact bs
  fresh : bs.Fresh at_.1
  commit : bs.commit = some db
  parents : t.parents at_.2 = ps.parent

structure CacheOk (t : TrieDb) : Prop where
  bound : ∀ n id db, t.roots n id = some db → ∀ a i, db.InLife a i → i.block.toNat ≤ n
  numbers : ∀ n n' id db db', id ≠ 0 → t.roots n id = some db → t.roots n' id = some db' → n = n'
  finals : ∀ n db, t.roots n 0 = some db → n ≤ t.latestFinalized.1
  proposals : ∀ e ∈ t.cache.proposalMap, ∃ bs db, ProposalOk t e.1 e.2 bs db
  empty : t.cache.finalizedBlockId = 0 → t.cache.accounts = (fun _ => none) ∧ t.cache.storage = fun _ _ _ => none
  lru : t.cache.finalizedBlockId ≠ 0 → t.latestFinalized = (t.cache.finalizedBlock, t.cache.finalizedBlockId) ∧
      ∃ db, t.roots t.cache.finalizedBlock t.cache.finalizedBlockId = some db ∧
        t.roots t.cache.finalizedBlock 0 = some db ∧ LruOk t.cache db
  settled : t.settled = true → t.cache.block = t.blockNumber ∧ t.cache.blockId = t.prefixId ∧ ∃ db, t.direct = some db

theorem mem_of_lookup {map : List ((Nat × Bytes32) × ProposalState)} {at_ : Nat × Bytes32} {ps : ProposalState}
    (h : map.lookup at_ = some ps) : (at_, ps) ∈ map := by
  obtain ⟨before, after, hmap, -⟩ := List.lookup_eq_some_iff.mp h
  simp [hmap]

variable {c : DbCache}

theorem LruOk.evicted {c' : DbCache} (h : LruOk c db) (hfin : c'.finalizedBlock = c.finalizedBlock)
    (haccounts : ∀ a, c'.accounts a = none ∨ c'.accounts a = c.accounts a)
    (hsto : ∀ a i key, c'.storage a i key = none ∨ c'.storage a i key = c.storage a i key) : LruOk c' db := by
  constructor
  · intro a x hx
    rcases haccounts a with hnone | hsame
    · rw [hnone] at hx
      cases hx
    · exact h.accounts a x (hsame ▸ hx)
  · intro a i key x hx
    rw [hfin]
    rcases hsto a i key with hnone | hsame
    · rw [hnone] at hx
      cases hx
    · exact h.storage a i key x (hsame ▸ hx)

theorem onFinalize_place (c : DbCache) (number : Nat) (id : Bytes32) :
    (c.onFinalize number id).finalizedBlock = number ∧ (c.onFinalize number id).finalizedBlockId = id ∧
      (c.onFinalize number id).block = c.block := by
  unfold onFinalize
  split
  · exact ⟨rfl, rfl, rfl⟩
  · exact ⟨rfl, rfl, rfl⟩

/-- A reader that is not ahead of the finalized block finds nothing in the proposals. -/
theorem tryRead_behind {α : Type} (fn : Table Address StateDelta → Option α) (hle : c.block ≤ c.finalizedBlock) :
    (c.tryRead fn).1 = none := by
  unfold tryRead
  split
  · rfl
  · rfl

/-- It reads the LRU caches or the database, at the finalized block. -/
theorem reads_finalized {t : TrieDb} (hle : t.cache.block ≤ t.cache.finalizedBlock) (hdirect : t.direct = some db)
    (hlru : LruOk t.cache db) (a : Address) :
    t.readAccount a = db.readAccount a ∧
      ∀ y, db.readAccount a = some y → ∀ key, t.readStorage a y.incarnation key = db.readStorage a key := by
  constructor
  · have hbh := tryRead_behind (tryReadAccountFn a) hle
    unfold TrieDb.readAccount tryReadAccount
    rw [hdirect]
    split
    case h_1 hx => cases hx ▸ hbh
    case h_2 =>
      cases hc : t.cache.accounts a with
      | none => rfl
      | some x => exact hlru.accounts a x hc
    case h_3 => rfl
  · intro y hy key
    have hbh := tryRead_behind (tryReadStorageFn a y.incarnation key) hle
    unfold TrieDb.readStorage tryReadStorage
    rw [hdirect]
    split
    case h_1 hx => cases hx ▸ hbh
    case h_2 =>
      cases hc : t.cache.storage a y.incarnation key with
      | none => rfl
      | some x => exact (hlru.storage a _ key x hc).2 ((inLife_iff hy).mpr rfl)
    case h_3 => rfl

namespace CacheOk

variable {t : TrieDb} (h : CacheOk t)

include h

/-! ## Reading -/

section Read

variable {α : Type} {fn : Table Address StateDelta → Option α} (value : Db → α) (Q : Nat → Db → Prop)
  (hfn : ∀ bs db n, Exact bs → bs.commit = some db → bs.Fresh (n + 1) → (∀ x, fn bs.deltas = some x → x = value db) ∧
      (fn bs.deltas = none → value db = value bs.db ∧ (Q (n + 1) db → Q n bs.db)))

include hfn

/-- What the walk down the proposals finds is what the block reads; if it ends at the finalized block, then that
block reads the same. -/
theorem tryReadLoop_spec {depth : Nat} {at_ : Nat × Bytes32} (hroot : t.roots at_.1 at_.2 = some db) (hQ : Q at_.1 db) :
    (∀ x b, t.cache.tryReadLoop fn depth at_ = (some x, b) → x = value db) ∧
      (t.cache.tryReadLoop fn depth at_ = (none, false) → t.cache.finalizedBlockId ≠ 0 →
        ∃ db', t.roots t.cache.finalizedBlock t.cache.finalizedBlockId = some db' ∧ value db = value db' ∧
          Q t.cache.finalizedBlock db') := by
  induction depth generalizing at_ db with
  | zero => exact ⟨fun x b hx => (by cases hx), fun hx => by cases hx⟩
  | succ depth ih =>
    unfold tryReadLoop
    by_cases hfin : at_.2 = t.cache.finalizedBlockId
    · rw [if_pos hfin]
      refine ⟨fun x b hx => (by cases hx), fun _ hne => ?_⟩
      obtain ⟨-, db', hroot', -⟩ := h.lru hne
      rw [hfin] at hroot
      have hnumber := h.numbers _ _ _ _ _ hne hroot hroot'
      rw [hnumber] at hroot hQ
      exact ⟨db, hroot, rfl, hQ⟩
    rw [if_neg hfin]
    cases hps : t.cache.proposalMap.lookup at_ with
    | none => exact ⟨fun x b hx => (by cases hx), fun hx => by cases hx⟩
    | some ps =>
      obtain ⟨bs, db1, hok⟩ := h.proposals _ (mem_of_lookup hps)
      have hdb : db1 = db := Option.some.inj (hok.root.symm.trans hroot)
      subst hdb
      have hnumber : at_.1 = ps.parent.1 + 1 := hok.number
      obtain ⟨hsome, hnone⟩ := hfn bs db1 ps.parent.1 hok.exact hok.commit (hnumber ▸ hok.fresh)
      dsimp only
      rw [show ps.state = bs.deltas from hok.state]
      cases hx : fn bs.deltas with
      | some x =>
        refine ⟨fun x' b hx' => ?_, fun hx' => by cases hx'⟩
        cases hx'
        exact hsome x hx
      | none =>
        obtain ⟨hval, hdown⟩ := hnone hx
        rw [hval]
        exact ih hok.parent (hdown (hnumber ▸ hQ))

theorem tryRead_spec (hroot : t.roots t.cache.block t.cache.blockId = some db) (hQ : Q t.cache.block db) :
    (∀ x b, t.cache.tryRead fn = (some x, b) → x = value db) ∧
      (t.cache.tryRead fn = (none, false) → t.cache.finalizedBlockId ≠ 0 →
        ∃ db', t.roots t.cache.finalizedBlock t.cache.finalizedBlockId = some db' ∧ value db = value db' ∧
          Q t.cache.finalizedBlock db') := by
  unfold tryRead
  split
  case isTrue hhere =>
    refine ⟨fun x b hx => (by cases hx), fun _ hne => ?_⟩
    obtain ⟨-, db', hroot', hfnl, -⟩ := h.lru hne
    rcases hhere with hid | ⟨hblk, hid⟩
    · rw [hid] at hroot
      have hnumber := h.numbers _ _ _ _ _ hne hroot hroot'
      rw [hnumber] at hroot hQ
      exact ⟨db, hroot, rfl, hQ⟩
    · rw [hblk, hid, hfnl] at hroot
      cases hroot
      exact ⟨db, hroot', rfl, hblk ▸ hQ⟩
  case isFalse =>
    split
    case isTrue => exact ⟨fun x b hx => (by cases hx), fun hx => by cases hx⟩
    case isFalse => exact h.tryReadLoop_spec value Q hfn hroot hQ

end Read

theorem readAccount_eq (hset : t.settled = true) (a : Address) :
    ∃ db, t.direct = some db ∧ t.readAccount a = db.readAccount a := by
  obtain ⟨hblk, hid, db, hdirect⟩ := h.settled hset
  refine ⟨db, hdirect, ?_⟩
  have hroot : t.roots t.cache.block t.cache.blockId = some db := by
    rw [hblk, hid]
    exact hdirect
  have hfn : ∀ bs db n, Exact bs → bs.commit = some db → bs.Fresh (n + 1) →
      (∀ x, tryReadAccountFn a bs.deltas = some x → x = db.readAccount a) ∧
        (tryReadAccountFn a bs.deltas = none → db.readAccount a = bs.db.readAccount a ∧ (True → True)) := by
    intro bs db n hexact hcommit _
    obtain ⟨hsome, hnone⟩ := account_of_deltas hexact hcommit a
    exact ⟨hsome, fun hx => ⟨hnone hx, id⟩⟩
  obtain ⟨hsome, hnone⟩ := h.tryRead_spec (fun db => db.readAccount a) (fun _ _ => True) hfn hroot trivial
  have hdb : (t.direct.bind fun db => db.readAccount a) = db.readAccount a := by
    rw [hdirect]
    rfl
  unfold TrieDb.readAccount tryReadAccount
  rw [hdb]
  split
  case h_1 x b hx => exact hsome x b hx
  case h_2 hx =>
    cases hc : t.cache.accounts a with
    | none => rfl
    | some x =>
      have hne : t.cache.finalizedBlockId ≠ 0 := by
        intro hzero
        rw [(h.empty hzero).1] at hc
        cases hc
      obtain ⟨db', hroot', hval, -⟩ := hnone hx hne
      obtain ⟨-, db1, hroot1, -, hlru⟩ := h.lru hne
      rw [hroot'] at hroot1
      cases hroot1
      exact (hlru.accounts a x hc).trans hval.symm
  case h_3 => rfl

theorem readStorage_eq_direct (hset : t.settled = true) (hdirect : t.direct = some db)
    (hy : db.readAccount a = some y) (key : Bytes32) :
    t.readStorage a y.incarnation key = db.readStorage a key := by
  obtain ⟨hblk, hid, -⟩ := h.settled hset
  have hroot : t.roots t.cache.block t.cache.blockId = some db := by
    rw [hblk, hid]
    exact hdirect
  have hlife : db.InLife a y.incarnation := (inLife_iff hy).mpr rfl
  have hslot : db.slotIn a y.incarnation key = db.readStorage a key := if_pos hlife
  -- going down, the account stays in its life until the block that started it
  have hfn : ∀ bs db n, Exact bs → bs.commit = some db → bs.Fresh (n + 1) →
      (∀ x, tryReadStorageFn a y.incarnation key bs.deltas = some x → x = db.slotIn a y.incarnation key) ∧
        (tryReadStorageFn a y.incarnation key bs.deltas = none →
          db.slotIn a y.incarnation key = bs.db.slotIn a y.incarnation key ∧
            (db.InLife a y.incarnation ∨ n + 1 < y.incarnation.block.toNat →
              bs.db.InLife a y.incarnation ∨ n < y.incarnation.block.toNat)) := by
    intro bs db n hexact hcommit hfresh
    obtain ⟨hsome, hnone⟩ := storage_of_deltas hexact hcommit a y.incarnation key
    refine ⟨hsome, fun hx => ⟨hnone hx, fun hQ => ?_⟩⟩
    rcases hQ with hin | hlt
    · rcases inLife_before hexact hcommit hfresh hin with hin | hnumber
      · exact .inl hin
      · exact .inr (by omega)
    · exact .inr (by omega)
  obtain ⟨hsome, hnone⟩ := h.tryRead_spec (fun db => db.slotIn a y.incarnation key)
    (fun n db => db.InLife a y.incarnation ∨ n < y.incarnation.block.toNat) hfn hroot (.inl hlife)
  have hdb : (t.direct.map fun db => db.readStorage a key).getD 0 = db.readStorage a key := by
    rw [hdirect]
    rfl
  unfold TrieDb.readStorage tryReadStorage
  rw [hdb]
  split
  case h_1 x b hx => exact (hsome x b hx).trans hslot
  case h_2 hx =>
    cases hc : t.cache.storage a y.incarnation key with
    | none => rfl
    | some x =>
      have hne : t.cache.finalizedBlockId ≠ 0 := by
        intro hzero
        rw [(h.empty hzero).2] at hc
        cases hc
      obtain ⟨db', hroot', hval, hQ⟩ := hnone hx hne
      obtain ⟨-, db1, hroot1, -, hlru⟩ := h.lru hne
      rw [hroot'] at hroot1
      cases hroot1
      obtain ⟨hle, hright⟩ := hlru.storage a _ key x hc
      have hin : db'.InLife a y.incarnation := hQ.resolve_right (by omega)
      have hslot' : db'.slotIn a y.incarnation key = db'.readStorage a key := if_pos hin
      exact (hright hin).trans (hslot'.symm.trans (hval.symm.trans hslot))
  case h_3 => rfl

/-! ## The calls -/

theorem setBlockAndPrefix {number : Nat} {id : Bytes32} (hroot : (t.roots number id).isSome) :
    CacheOk (t.setBlockAndPrefix number id) where
  bound := h.bound
  numbers := h.numbers
  finals := h.finals
  proposals e he := by
    obtain ⟨bs, db, hok⟩ := h.proposals e he
    exact ⟨bs, db, { hok with }⟩
  empty := h.empty
  lru hne := by
    obtain ⟨hlat, db, hroot, hfnl, hlru⟩ := h.lru hne
    exact ⟨hlat, db, hroot, hfnl, { hlru with }⟩
  settled _ := ⟨rfl, rfl, isSome_iff_exists.mp hroot⟩

end CacheOk

variable {t : TrieDb} {number : Nat} {id : Bytes32}

/-- More roots do not disturb a proposal. -/
theorem ProposalOk.mono {t' : TrieDb} {at_ : Nat × Bytes32} {ps : ProposalState} (hok : ProposalOk t at_ ps bs db)
    (hrts : ∀ n id db, t.roots n id = some db → t'.roots n id = some db)
    (hparents : t'.parents at_.2 = t.parents at_.2) : ProposalOk t' at_ ps bs db :=
  { hok with
    root := hrts _ _ _ hok.root
    parent := hrts _ _ _ hok.parent
    parents := hparents.trans hok.parents }

/-- What is dropped from the map is only dropped. -/
theorem mem_of_mem_truncate {map : List ((Nat × Bytes32) × ProposalState)}
    {e : (Nat × Bytes32) × ProposalState} (h : e ∈ truncate map) : e ∈ map := by
  unfold truncate at h
  split at h
  · exact h
  · exact (List.mem_filter.mp h).1

/-- The LRU caches after a block whose proposal is there. -/
theorem lruOk_insert (c0 : DbCache) {c : DbCache} (hexact : Exact bs) (hcommit : bs.commit = some db)
    (hfresh : bs.Fresh number) (hbd : ∀ a i, db.InLife a i → i.block.toNat ≤ number)
    (hold : (∀ a x, c0.accounts a = some x → x = bs.db.readAccount a) ∧ ∀ a i key x, c0.storage a i key = some x →
      i.block.toNat < number ∧ (bs.db.InLife a i → x = bs.db.readStorage a key))
    (hnumber : c.finalizedBlock = number) (haccounts : c.accounts = c0.insertAccounts bs.deltas)
    (hsto : c.storage = c0.insertStorage bs.deltas) : LruOk c db := by
  constructor
  case accounts =>
    intro a x hx
    obtain ⟨hsome, hnone⟩ := account_of_deltas hexact hcommit a
    rw [haccounts] at hx
    unfold insertAccounts at hx
    unfold tryReadAccountFn at hsome hnone
    cases hd : bs.deltas.lookup a with
    | some d =>
      rw [hd] at hx hsome
      cases hx
      exact hsome _ rfl
    | none =>
      rw [hd] at hx hnone
      rw [hnone rfl]
      exact hold.1 a x hx
  case storage =>
    intro a i key x hx
    rw [hnumber]
    -- an old entry is right if the account is still in the same life
    have hkept : c0.storage a i key = some x → tryReadStorageFn a i key bs.deltas = none ∨ ¬ db.InLife a i →
        i.block.toNat ≤ number ∧ (db.InLife a i → x = db.readStorage a key) := by
      intro hx hleft
      obtain ⟨hlt, hright⟩ := hold.2 a i key x hx
      refine ⟨Nat.le_of_lt hlt, fun hlife => ?_⟩
      have hbef := (inLife_before hexact hcommit hfresh hlife).resolve_right (by omega)
      have hsame := (storage_of_deltas hexact hcommit a i key).2 (hleft.resolve_right (not_not.mpr hlife))
      have hslot : db.slotIn a i key = db.readStorage a key := if_pos hlife
      have hslot' : bs.db.slotIn a i key = bs.db.readStorage a key := if_pos hbef
      rw [← hslot, hsame, hslot']
      exact hright hbef
    obtain ⟨hacc, -⟩ := commit_reads hexact hcommit a
    rw [hsto] at hx
    unfold insertStorage at hx
    cases hd : bs.deltas.lookup a with
    | none =>
      rw [hd] at hx
      refine hkept hx (.inl ?_)
      unfold tryReadStorageFn
      rw [hd]
    | some d =>
      rw [view_account hd] at hacc
      rw [hd] at hx
      dsimp only at hx
      cases hy : d.account.2 with
      | none =>
        rw [hy] at hx hacc
        refine hkept hx (.inr fun hlife => ?_)
        unfold Db.InLife at hlife
        rw [hacc] at hlife
        cases hlife
      | some y =>
        rw [hy] at hx hacc
        dsimp only at hx
        by_cases hi : y.incarnation = i
        · have hlife : db.InLife a i := (inLife_iff hacc).mpr hi
          rw [if_pos hi] at hx
          cases hs : d.storage.lookup key with
          | some slot =>
            rw [hs] at hx
            cases hx
            refine ⟨hbd a i hlife, fun _ => ?_⟩
            have hfn : tryReadStorageFn a i key bs.deltas = some slot.2 := by
              rw [tryReadStorageFn_of_lookup i key hd hy, if_neg (not_not.mpr hi), hs]
              rfl
            exact ((storage_of_deltas hexact hcommit a i key).1 slot.2 hfn).trans (if_pos hlife)
          | none =>
            rw [hs] at hx
            refine hkept hx (.inl ?_)
            rw [tryReadStorageFn_of_lookup i key hd hy, if_neg (not_not.mpr hi), hs]
            rfl
        · rw [if_neg hi] at hx
          exact hkept hx (.inr fun hlife => hi ((inLife_iff hacc).mp hlife))

variable {n : Nat} {i : Bytes32} {db' : Db}

theorem setRoot_eq_some (h : t.setRoot number id db n i = some db') :
    n = number ∧ i = id ∧ db' = db ∨ t.roots n i = some db' := by
  unfold setRoot at h
  split at h
  case isTrue heq =>
    cases h
    exact .inl ⟨heq.1, heq.2, rfl⟩
  case isFalse => exact .inr h

theorem setRoot_of_none (db : Db) (hnone : t.roots number id = none) (h : t.roots n i = some db') :
    t.setRoot number id db n i = some db' := by
  unfold setRoot
  rw [if_neg]
  · exact h
  · rintro ⟨rfl, rfl⟩
    rw [hnone] at h
    cases h

namespace CacheOk

variable {t : TrieDb} (h : CacheOk t)

include h

variable {id : Bytes32}

theorem commit (hnumber : t.cache.block = t.blockNumber) (hcache : t.roots t.cache.block t.cache.blockId = some bs.db)
    (hexact : Exact bs) (hfresh : bs.Fresh (t.blockNumber + 1)) (hid : id ≠ 0) (hnew : ∀ n, t.roots n id = none)
    (hcommit : bs.commit = some db) : CacheOk (t.commit id bs.deltas db) := by
  have hmono : ∀ n i db', t.roots n i = some db' → (t.commit id bs.deltas db).roots n i = some db' :=
    fun n i db' hroot => setRoot_of_none db (hnew _) hroot
  have hself : (t.commit id bs.deltas db).roots (t.blockNumber + 1) id = some db := if_pos ⟨rfl, rfl⟩
  have hold : ∀ e ∈ t.cache.proposalMap, ∃ bs' db', ProposalOk (t.commit id bs.deltas db) e.1 e.2 bs' db' := by
    intro e he
    obtain ⟨bs', db', hok⟩ := h.proposals e he
    refine ⟨bs', db', hok.mono hmono (update_of_ne ?_ _ _)⟩
    intro heq
    have hroot := hok.root
    rw [heq, hnew] at hroot
    cases hroot
  constructor
  case bound =>
    intro n i db' hroot a life hlife
    rcases setRoot_eq_some hroot with ⟨rfl, rfl, rfl⟩ | hroot
    · rcases inLife_before hexact hcommit hfresh hlife with hlife | hlife
      · have := h.bound _ _ _ hcache a life hlife
        omega
      · omega
    · exact h.bound n i db' hroot a life hlife
  case numbers =>
    intro n n' i db1 db2 hne h1 h2
    rcases setRoot_eq_some h1 with ⟨rfl, rfl, -⟩ | hold1
    · rcases setRoot_eq_some h2 with ⟨rfl, -, -⟩ | hold2
      · rfl
      rw [hnew] at hold2
      cases hold2
    · rcases setRoot_eq_some h2 with ⟨-, rfl, -⟩ | hold2
      · rw [hnew] at hold1
        cases hold1
      · exact h.numbers n n' i db1 db2 hne hold1 hold2
  case finals =>
    intro n db' hroot
    rcases setRoot_eq_some hroot with ⟨-, hzero, -⟩ | hroot
    · exact absurd hzero.symm hid
    · exact h.finals n db' hroot
  case proposals =>
    intro e he
    rcases List.mem_cons.mp he with rfl | he
    · exact ⟨bs, db, {
        id_ne := hid
        root := hself
        parent := hmono _ _ _ hcache
        number := by rw [hnumber]
        state := rfl
        exact := hexact
        fresh := hfresh
        commit := hcommit
        parents := update_self _ _ _ }⟩
    · split at he
      · exact hold e (mem_of_mem_truncate he)
      · exact hold e he
  case empty => exact h.empty
  case lru =>
    intro hne
    obtain ⟨hlat, db', hroot, hfnl, hlru⟩ := h.lru hne
    exact ⟨hlat, db', hmono _ _ _ hroot, hmono _ _ _ hfnl, { hlru with }⟩
  case settled => exact fun _ => ⟨rfl, rfl, db, hself⟩

theorem finalize (hid : id ≠ 0) (hroot : t.roots (t.latestFinalized.1 + 1) id = some db)
    (hparent : t.parents id = (t.latestFinalized.1, 0) ∨ t.parents id = t.latestFinalized) :
    CacheOk (t.finalize (t.latestFinalized.1 + 1) id db) := by
  have hnone : t.roots (t.latestFinalized.1 + 1) 0 = none := by
    cases hr : t.roots (t.latestFinalized.1 + 1) 0 with
    | none => rfl
    | some db' =>
      have := h.finals _ db' hr
      omega
  have hmono : ∀ n i db', t.roots n i = some db' →
      (t.finalize (t.latestFinalized.1 + 1) id db).roots n i = some db' :=
    fun n i db' hr => setRoot_of_none db hnone hr
  have hself : (t.finalize (t.latestFinalized.1 + 1) id db).roots (t.latestFinalized.1 + 1) 0 = some db :=
    if_pos ⟨rfl, rfl⟩
  constructor
  case bound =>
    intro n i db' hr a life hlife
    rcases setRoot_eq_some hr with ⟨rfl, rfl, rfl⟩ | hr
    · exact h.bound _ _ _ hroot a life hlife
    · exact h.bound n i db' hr a life hlife
  case numbers =>
    intro n n' i db1 db2 hne h1 h2
    rcases setRoot_eq_some h1 with ⟨-, hzero, -⟩ | hold1
    · exact absurd hzero hne
    rcases setRoot_eq_some h2 with ⟨-, hzero, -⟩ | hold2
    · exact absurd hzero hne
    · exact h.numbers n n' i db1 db2 hne hold1 hold2
  case finals =>
    intro n db' hr
    rcases setRoot_eq_some hr with ⟨rfl, -, -⟩ | hr
    · exact Nat.le_refl _
    · exact Nat.le_succ_of_le (h.finals n db' hr)
  case proposals =>
    intro e he
    have hmem : e ∈ t.cache.proposalMap := by
      unfold TrieDb.finalize onFinalize at he
      split at he
      · exact he
      · exact (List.mem_filter.mp he).1
    obtain ⟨bs, db', hok⟩ := h.proposals e hmem
    exact ⟨bs, db', hok.mono hmono rfl⟩
  case empty =>
    intro hzero
    unfold TrieDb.finalize onFinalize at hzero
    split at hzero
    · exact absurd hzero hid
    · exact absurd hzero hid
  case lru =>
    intro _
    have hlru : LruOk (t.cache.onFinalize (t.latestFinalized.1 + 1) id) db := by
      unfold onFinalize
      split
      case h_1 => exact ⟨fun a x hx => (by cases hx), fun a i key x hx => by cases hx⟩
      case h_2 ps hps =>
        obtain ⟨bs, db', hok⟩ := h.proposals _ (mem_of_lookup hps)
        have hdb : db' = db := Option.some.inj (hok.root.symm.trans hroot)
        subst hdb
        rw [show ps.state = bs.deltas from hok.state]
        refine lruOk_insert t.cache hok.exact hok.commit hok.fresh (h.bound _ _ _ hroot) ?_ rfl rfl rfl
        by_cases hzero : t.cache.finalizedBlockId = 0
        · obtain ⟨haccounts, hsto⟩ := h.empty hzero
          rw [haccounts, hsto]
          exact ⟨fun a x hx => (by cases hx), fun a i key x hx => by cases hx⟩
        -- the parent is the block that was finalized before
        obtain ⟨hlat, db0, hroot0, hfnl0, hold⟩ := h.lru hzero
        have hbs : bs.db = db0 := by
          have hup := hok.parent
          rw [← hok.parents] at hup
          rcases hparent with hp | hp
          · rw [hp, hlat, hfnl0] at hup
            exact (Option.some.inj hup).symm
          · rw [hp, hlat, hroot0] at hup
            exact (Option.some.inj hup).symm
        rw [hbs]
        refine ⟨hold.accounts, fun a i key x hx => ?_⟩
        obtain ⟨hle, hright⟩ := hold.storage a i key x hx
        rw [hlat]
        exact ⟨Nat.lt_succ_of_le hle, hright⟩
    obtain ⟨hblk, hblockId, -⟩ := onFinalize_place t.cache (t.latestFinalized.1 + 1) id
    refine ⟨Prod.ext hblk.symm hblockId.symm, db, ?_, ?_, hlru⟩
    · show (t.finalize (t.latestFinalized.1 + 1) id db).roots
        (t.cache.onFinalize (t.latestFinalized.1 + 1) id).finalizedBlock
        (t.cache.onFinalize (t.latestFinalized.1 + 1) id).finalizedBlockId = some db
      rw [hblk, hblockId]
      exact hmono _ _ _ hroot
    · show (t.finalize (t.latestFinalized.1 + 1) id db).roots
        (t.cache.onFinalize (t.latestFinalized.1 + 1) id).finalizedBlock 0 = some db
      rw [hblk]
      exact hself
  case settled => exact fun hfalse => by cases hfalse

/-- A cache that has only lost entries. -/
theorem evicted {c : DbCache} (hmap : c.proposalMap = t.cache.proposalMap) (hblk : c.block = t.cache.block)
    (hid : c.blockId = t.cache.blockId) (hfin : c.finalizedBlock = t.cache.finalizedBlock)
    (hfinId : c.finalizedBlockId = t.cache.finalizedBlockId)
    (haccounts : ∀ a, c.accounts a = none ∨ c.accounts a = t.cache.accounts a)
    (hsto : ∀ a i key, c.storage a i key = none ∨ c.storage a i key = t.cache.storage a i key) :
    CacheOk { t with cache := c } := by
  constructor
  case bound => exact h.bound
  case numbers => exact h.numbers
  case finals => exact h.finals
  case proposals =>
    intro e he
    obtain ⟨bs, db, hok⟩ := h.proposals e (hmap ▸ he)
    exact ⟨bs, db, { hok with }⟩
  case empty =>
    intro hzero
    obtain ⟨ha, hs⟩ := h.empty (hfinId.symm.trans hzero)
    refine ⟨funext fun a => ?_, funext fun a => funext fun i => funext fun key => ?_⟩
    · rcases haccounts a with hnone | hsame
      · exact hnone
      · exact hsame.trans (congrFun ha a)
    · rcases hsto a i key with hnone | hsame
      · exact hnone
      · exact hsame.trans (congrFun (congrFun (congrFun hs a) i) key)
  case lru =>
    intro hne
    obtain ⟨hlat, db, hroot, hfnl, hlru⟩ := h.lru (hfinId ▸ hne)
    rw [hfin, hfinId]
    exact ⟨hlat, db, hroot, hfnl, hlru.evicted hfin haccounts hsto⟩
  case settled =>
    intro hset
    rw [hblk, hid]
    exact h.settled hset

theorem step {t' : TrieDb} (hstep : t.Step t') : CacheOk t' := by
  cases hstep with
  | setBlockAndPrefix hroot => exact h.setBlockAndPrefix hroot
  | commit hdirect hnumber hcache hexact hfresh hid hnew hcommit =>
    exact h.commit hnumber hcache hexact hfresh hid hnew hcommit
  | finalize hid hroot hparent => exact h.finalize hid hroot hparent
  | evictAccount a =>
    refine h.evicted rfl rfl rfl rfl rfl (fun b => ?_) fun _ _ _ => .inr rfl
    by_cases hb : b = a
    · exact .inl (by rw [hb]; exact update_self _ _ _)
    · exact .inr (update_of_ne hb _ _)
  | evictStorage a f hf =>
    refine h.evicted rfl rfl rfl rfl rfl (fun _ => .inr rfl) fun b i key => ?_
    by_cases hb : b = a
    · subst hb
      dsimp only
      rw [update_self]
      exact hf i key
    · exact .inr (congrFun (congrFun (update_of_ne hb _ _) i) key)

end CacheOk

variable {number : Nat}

section

variable (hdb : ∀ a i, db.InLife a i → i.block.toNat ≤ number)

include hdb

theorem opened_ok : CacheOk (opened number db) := by
  have hrts : ∀ n id db', (opened number db).roots n id = some db' → n = number ∧ id = 0 ∧ db' = db := by
    intro n id db' hr
    unfold opened at hr
    dsimp only at hr
    split at hr
    case isTrue heq =>
      cases hr
      exact ⟨heq.1, heq.2, rfl⟩
    case isFalse => cases hr
  constructor
  case bound =>
    intro n id db' hr a i hlife
    obtain ⟨rfl, -, rfl⟩ := hrts n id db' hr
    exact hdb a i hlife
  case numbers => exact fun n n' id db1 db2 _ h1 h2 => (hrts n id db1 h1).1.trans (hrts n' id db2 h2).1.symm
  case finals => exact fun n db' hr => Nat.le_of_eq (hrts n 0 db' hr).1
  case proposals => exact fun e he => by cases he
  case empty => exact fun _ => ⟨rfl, rfl⟩
  case lru => exact fun hne => absurd rfl hne
  case settled => exact fun hfalse => by cases hfalse

theorem run_ok (hrun : Relation.ReflTransGen TrieDb.Step (opened number db) t) : CacheOk t := by
  induction hrun with
  | refl => exact opened_ok hdb
  | tail _ hstep ih => exact ih.step hstep

end

/-- After `set_block_and_prefix` or `commit`, the cache reads what the database has at the current block: every
account, and every slot in the incarnation that its account has there. -/
theorem cache_transparent {number : Nat} {db : Db} (hdb : ∀ a i, db.InLife a i → i.block.toNat ≤ number) {t : TrieDb}
    (hrun : Relation.ReflTransGen TrieDb.Step (TrieDb.opened number db) t) (hsettled : t.settled = true) :
    ∃ db', t.direct = some db' ∧ ∀ a, t.readAccount a = db'.readAccount a ∧
      ∀ y, db'.readAccount a = some y → ∀ key, t.readStorage a y.incarnation key = db'.readStorage a key := by
  have h := run_ok hdb hrun
  obtain ⟨-, -, db', hdirect⟩ := h.settled hsettled
  refine ⟨db', hdirect, fun a => ⟨?_, fun y hy key => h.readStorage_eq_direct hsettled hdirect hy key⟩⟩
  obtain ⟨db1, hdrc1, hread⟩ := h.readAccount_eq hsettled a
  rw [hdirect] at hdrc1
  cases hdrc1
  exact hread

/-- The database with what is left of the LRU caches. -/
def TrieDb.evict (t : TrieDb) (accounts : Address → Option (Option Account))
    (storage : Address → Incarnation → Bytes32 → Option Bytes32) : TrieDb :=
  { t with cache := { t.cache with accounts := accounts, storage := storage } }

/-- Directly after `finalize`, and after any evictions, a reader that was not ahead of the finalized block reads that
block: every account, and every slot in the incarnation that its account has there. -/
theorem finalize_moves_reader (hdb : ∀ a i, db.InLife a i → i.block.toNat ≤ number)
    (hrun : Relation.ReflTransGen TrieDb.Step (TrieDb.opened number db) t) {final : Db} (hid : id ≠ 0)
    (hroot : t.roots (t.latestFinalized.1 + 1) id = some final)
    (hparent : t.parents id = (t.latestFinalized.1, 0) ∨ t.parents id = t.latestFinalized)
    (hreader : t.cache.block ≤ t.latestFinalized.1 + 1) {t' : TrieDb}
    (ht' : t' = t.finalize (t.latestFinalized.1 + 1) id final) {accounts : Address → Option (Option Account)}
    {storage : Address → Incarnation → Bytes32 → Option Bytes32}
    (haccounts : ∀ a, accounts a = none ∨ accounts a = t'.cache.accounts a)
    (hstorage : ∀ a i key, storage a i key = none ∨ storage a i key = t'.cache.storage a i key) (a : Address) :
    (t'.evict accounts storage).readAccount a = final.readAccount a ∧ ∀ y, final.readAccount a = some y →
        ∀ key, (t'.evict accounts storage).readStorage a y.incarnation key = final.readStorage a key := by
  have hrts : t'.direct = some final := by
    rw [ht']
    exact if_pos ⟨rfl, rfl⟩
  have h : CacheOk t' := ht' ▸ (run_ok hdb hrun).finalize hid hroot hparent
  obtain ⟨hblk, hblockId, hsame⟩ : t'.cache.finalizedBlock = t'.blockNumber ∧ t'.cache.finalizedBlockId = id ∧
      t'.cache.block = t.cache.block := by
    rw [ht']
    exact onFinalize_place t.cache (t.latestFinalized.1 + 1) id
  have hzero : t'.prefixId = 0 := by rw [ht']; rfl
  have hnumber : t'.blockNumber = t.latestFinalized.1 + 1 := by rw [ht']; rfl
  obtain ⟨-, db', -, hfnl, hlru⟩ := h.lru (hblockId.trans_ne hid)
  unfold TrieDb.direct at hrts
  rw [hblk, ← hzero, hrts] at hfnl
  cases hfnl
  refine reads_finalized (t := t'.evict accounts storage) ?_ hrts (hlru.evicted rfl haccounts hstorage) a
  show t'.cache.block ≤ t'.cache.finalizedBlock
  omega

/-! ## An account that is created again -/

/-- A database in which every account is there, with empty slots. -/
def crowded : Db where
  state _ := some ({}, fun _ => 0)
  code _ := []

/-- A block that gives an account a new life and sets a slot in it. -/
def recreates : StateDelta where
  account := (some {}, some { incarnation := ⟨1, 0⟩ })
  storage := (∅ : Table Bytes32 (Bytes32 × Bytes32)).insert 0 (0, 9)
  cleared h := by cases h

theorem lookup_single {x : Address} {d' : StateDelta}
    (h : ((∅ : Table Address StateDelta).insert 0 d').lookup x = some d) : d = d' := by
  rw [Table.lookup_insert_ite] at h
  split at h
  · exact (Option.some.inj h).symm
  · cases h

def recreating : BlockState where
  db := crowded
  deltas := (∅ : Table Address StateDelta).insert 0 recreates
  origins x d h := by
    rw [lookup_single h]
    rfl

theorem crowded_bound : ∀ a i, crowded.InLife a i → i.block.toNat ≤ 0 := by
  intro a i h
  cases h
  decide

theorem recreating_exact : Exact recreating := by
  intro a d y key slot hd hy hslot
  rw [lookup_single hd] at hy hslot
  cases hy
  unfold recreates at hslot
  rw [Table.lookup_insert_ite] at hslot
  split at hslot
  · cases hslot
    rfl
  · cases hslot

/-- The block is committed on the finalized one. -/
theorem run_recreating : ∃ db, recreating.commit = some db ∧ db.readStorage 0 0 = 9 ∧
    Relation.ReflTransGen TrieDb.Step (opened 0 crowded)
      ((opened 0 crowded).commit 1 recreating.deltas db) := by
  obtain ⟨db, hcommit, hrds⟩ := commit_of_exact recreating_exact
  refine ⟨db, hcommit, (hrds 0).2 0, .single (.commit rfl rfl rfl recreating_exact ?_ (by decide) ?_ hcommit)⟩
  · intro a d y hd hy
    rw [lookup_single hd] at hy
    cases hy
    exact .inr rfl
  · exact fun n => if_neg fun h => absurd h.2 (by decide)

theorem cache_transparent_recreating : ∃ t db',
    Relation.ReflTransGen TrieDb.Step (TrieDb.opened 0 crowded) t ∧ t.settled = true ∧
      t.direct = some db' ∧ ∀ a, t.readAccount a = db'.readAccount a ∧
        ∀ y, db'.readAccount a = some y → ∀ key, t.readStorage a y.incarnation key = db'.readStorage a key := by
  obtain ⟨db, -, -, hrun⟩ := run_recreating
  obtain ⟨db', hread⟩ := cache_transparent crowded_bound hrun rfl
  exact ⟨_, db', hrun, rfl, hread⟩

/-- A slot that is read with the incarnation that the account had before is zero in the cache, and has its new
value in the database. -/
theorem cache_reads_old_life : ∃ t db',
    Relation.ReflTransGen TrieDb.Step (TrieDb.opened 0 crowded) t ∧ t.settled = true ∧ t.direct = some db' ∧
      t.readStorage 0 ⟨0, 0⟩ 0 = 0 ∧ db'.readStorage 0 0 = 9 := by
  obtain ⟨db, -, hslot, hrun⟩ := run_recreating
  have hdirect : (TrieDb.opened 0 crowded).setRoot 1 1 db 1 1 = some db := if_pos ⟨rfl, rfl⟩
  exact ⟨_, db, hrun, rfl, hdirect, rfl, hslot⟩

/-! ## A reader that is ahead -/

/-- The block that gives an account a new life is finalized, and the LRU caches are emptied. -/
theorem finalize_moves_reader_recreating : ∃ (t : TrieDb) (final : Db), t.cache.block = 1 ∧ t.roots 1 1 = some final ∧
    ((t.finalize 1 1 final).evict (fun _ => none) fun _ _ _ => none).readAccount 0 = final.readAccount 0 := by
  obtain ⟨db, -, -, hrun⟩ := run_recreating
  let t := (TrieDb.opened 0 crowded).commit 1 recreating.deltas db
  have hroot : t.roots (t.latestFinalized.1 + 1) 1 = some db := rfl
  have hmoves := finalize_moves_reader crowded_bound hrun (by decide) hroot (.inl rfl) (Nat.le_refl 1) rfl
    (fun _ => .inl rfl) (fun _ _ _ => .inl rfl) 0
  exact ⟨t, db, rfl, hroot, hmoves.1⟩

/-- A block that gives an account a balance. -/
def pays : StateDelta where
  account := (some {}, some { balance := 1 })
  storage := ∅
  cleared h := by cases h

def paying : BlockState where
  db := crowded
  deltas := (∅ : Table Address StateDelta).insert 0 pays
  origins x d h := by
    rw [lookup_single h]
    rfl

/-- A block without changes is committed, and one that pays on it. -/
theorem run_paying : ∃ db, Relation.ReflTransGen TrieDb.Step (opened 0 crowded)
    (((opened 0 crowded).commit 1 (BlockState.start crowded).deltas crowded).commit 2 paying.deltas db) := by
  have hexact : Exact paying := by
    intro a d y key slot hd _ hslot
    rw [lookup_single hd] at hslot
    cases hslot
  obtain ⟨db, hcommit, -⟩ := commit_of_exact hexact
  refine ⟨db, .tail (.single (.commit rfl rfl rfl ?_ ?_ (by decide) ?_ rfl))
    (.commit rfl rfl rfl hexact ?_ (by decide) ?_ hcommit)⟩
  · intro a d y key slot hd
    cases hd
  · intro a d y hd
    cases hd
  · exact fun n => if_neg fun h => absurd h.2 (by decide)
  · intro a d y hd hy
    rw [lookup_single hd] at hy
    cases hy
    exact .inl rfl
  · exact fun n => (if_neg fun h => absurd h.2 (by decide)).trans (if_neg fun h => absurd h.2 (by decide))

/-- The first block is finalized, and the account reads as in the second. -/
theorem finalize_leaves_reader : ∃ t, Relation.ReflTransGen TrieDb.Step (TrieDb.opened 0 crowded) t ∧
    t.roots (t.latestFinalized.1 + 1) 1 = some crowded ∧ t.parents 1 = (t.latestFinalized.1, 0) ∧
      crowded.readAccount 0 = some {} ∧
      (t.finalize (t.latestFinalized.1 + 1) 1 crowded).readAccount 0 = some { balance := 1 } := by
  obtain ⟨db, hrun⟩ := run_paying
  exact ⟨_, hrun, rfl, rfl, rfl, rfl⟩

end MonadExecution.Ethereum
