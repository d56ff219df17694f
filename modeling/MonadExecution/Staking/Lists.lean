import MonadExecution.Lib.LinkedList
import MonadExecution.Staking.Bookkeeping
import MonadExecution.Staking.Holdings

/-!
# The delegation lists

The node of a delegator record is an entry of two lists: of the delegators of its validator, and of
the validators of its delegator. The lists are exact after any calls.
-/

namespace MonadExecution.Staking

open Program Function Pool List World

/-! ## The links of one list -/

section Traits

variable {Key Ptr : Type}

/-- The links of the list of `key`. -/
def LinkedListTrait.links (T : LinkedListTrait Key Ptr) (w : World) (key : Key) : Links Ptr where
  prev p := T.prev (T.loadNode key p w)
  next p := T.next (T.loadNode key p w)

section

variable (T : LinkedListTrait Key Ptr) (k : Key) (p : Ptr) (w : World)

theorem prev_loadNode : T.prev (T.loadNode k p w) = (T.links w k).prev p := rfl

theorem next_loadNode : T.next (T.loadNode k p w) = (T.links w k).next p := rfl

end

/-- Each of the four fields of a node is written by one setter, and every entry of every list has a
node of its own. -/
structure LinkedListTrait.Lawful (T : LinkedListTrait Key Ptr) : Prop where
  prev_setPrev : ∀ p n, T.prev (T.setPrev p n) = p
  next_setPrev : ∀ p n, T.next (T.setPrev p n) = T.next n
  prev_setNext : ∀ p n, T.prev (T.setNext p n) = T.prev n
  next_setNext : ∀ p n, T.next (T.setNext p n) = p
  slot_inj : ∀ k p k' p', T.slot k p = T.slot k' p' → k = k' ∧ p = p'
  sentinel_ne_empty : T.sentinel ≠ T.empty

theorem lawful_validatorList : validatorList.Lawful where
  prev_setPrev _ _ := rfl
  next_setPrev _ _ := rfl
  prev_setNext _ _ := rfl
  next_setNext _ _ := rfl
  slot_inj k p k' p' h := by
    cases h
    exact ⟨rfl, rfl⟩
  sentinel_ne_empty := by decide

theorem lawful_delegatorList : delegatorList.Lawful where
  prev_setPrev _ _ := rfl
  next_setPrev _ _ := rfl
  prev_setNext _ _ := rfl
  next_setNext _ _ := rfl
  slot_inj k p k' p' h := by
    cases h
    exact ⟨rfl, rfl⟩
  sentinel_ne_empty := by decide

/-- The setters of `T` leave what `T'` reads alone. -/
structure LinkedListTrait.Separate {Key' Ptr' : Type} (T : LinkedListTrait Key Ptr)
    (T' : LinkedListTrait Key' Ptr') : Prop where
  prev_setPrev : ∀ p n, T'.prev (T.setPrev p n) = T'.prev n
  next_setPrev : ∀ p n, T'.next (T.setPrev p n) = T'.next n
  prev_setNext : ∀ p n, T'.prev (T.setNext p n) = T'.prev n
  next_setNext : ∀ p n, T'.next (T.setNext p n) = T'.next n

theorem separate_delegatorList : delegatorList.Separate validatorList :=
  ⟨fun _ _ => rfl, fun _ _ => rfl, fun _ _ => rfl, fun _ _ => rfl⟩

theorem separate_validatorList : validatorList.Separate delegatorList :=
  ⟨fun _ _ => rfl, fun _ _ => rfl, fun _ _ => rfl, fun _ _ => rfl⟩

variable [DecidableEq Key] [DecidableEq Ptr] {T : LinkedListTrait Key Ptr} (hT : T.Lawful)

include hT

theorem loadNode_storeNode (k k' : Key) (p p' : Ptr) (n : ListNode) (w : World) :
    T.loadNode k' p' (T.storeNode k p n w) = if k' = k ∧ p' = p then n else T.loadNode k' p' w := by
  unfold LinkedListTrait.loadNode LinkedListTrait.storeNode
  rw [setListNode_listNode]
  split_ifs with h
  · obtain ⟨rfl, rfl⟩ := h
    rw [update_self, update_self]
  rcases eq_or_ne (T.slot k' p').1 (T.slot k p).1 with h1 | h1
  · have h2 : (T.slot k' p').2 ≠ (T.slot k p).2 := fun h2 => h (hT.slot_inj _ _ _ _ (Prod.ext h1 h2))
    rw [h1, update_self, update_of_ne h2]
  · rw [update_of_ne h1]

/-- The links of the written list change at one pointer, and those of the others do not. -/
theorem links_storeNode (k : Key) (p : Ptr) (n : ListNode) (w : World) : T.links (T.storeNode k p n w) k =
    { prev := update (T.links w k).prev p (T.prev n)
      next := update (T.links w k).next p (T.next n) } := by
  unfold LinkedListTrait.links
  congr 1 <;> funext p' <;> rw [loadNode_storeNode hT, update_apply] <;>
    split_ifs with h <;> simp_all

theorem links_storeNode_of_ne {k k' : Key} (hk : k' ≠ k) (p : Ptr) (n : ListNode) (w : World) :
    T.links (T.storeNode k p n w) k' = T.links w k' := by
  unfold LinkedListTrait.links
  congr 1 <;> funext p' <;> rw [loadNode_storeNode hT, if_neg (fun h => hk h.1)]

/-! ## Insertion and removal -/

omit hT [DecidableEq Key] [DecidableEq Ptr] in
/-- The lists of a trait are `xs`. -/
def LinkedListTrait.Holds (T : LinkedListTrait Key Ptr) (w : World) (xs : Key → List Ptr) : Prop :=
  ∀ k, (T.links w k).IsList T.sentinel T.empty (xs k)

variable {w w' : World} {xs : Key → List Ptr}

omit hT [DecidableEq Key] [DecidableEq Ptr] in
/-- The links that `T` reads are the same in all nodes. -/
def LinkedListTrait.SameFields (T : LinkedListTrait Key Ptr) (w w' : World) : Prop :=
  ∀ v a, T.prev (w'.listNode v a) = T.prev (w.listNode v a) ∧ T.next (w'.listNode v a) = T.next (w.listNode v a)

omit hT [DecidableEq Key] [DecidableEq Ptr] in
theorem LinkedListTrait.SameFields.links (h : T.SameFields w w') (k : Key) : T.links w' k = T.links w k := by
  unfold LinkedListTrait.links LinkedListTrait.loadNode
  congr 1
  · exact funext fun p => (h _ _).1
  · exact funext fun p => (h _ _).2

omit hT [DecidableEq Key] [DecidableEq Ptr] in
/-- Storing a node that has been read, up to the links of `T`, keeps the links of the other lists. -/
theorem sameFields_storeNode {Key' Ptr' : Type} {T' : LinkedListTrait Key' Ptr'} (h : T'.SameFields w w') (k : Key)
    (p : Ptr) {n : ListNode} (hn : T'.prev n = T'.prev (T.loadNode k p w) ∧ T'.next n = T'.next (T.loadNode k p w)) :
    T'.SameFields w (T.storeNode k p n w') := by
  intro v a
  unfold LinkedListTrait.storeNode
  rw [World.setListNode_listNode]
  rcases eq_or_ne v (T.slot k p).1 with rfl | hv
  · rcases eq_or_ne a (T.slot k p).2 with rfl | ha
    · rw [update_self, update_self]
      exact hn
    · rw [update_self, update_of_ne ha]
      exact h _ _
  · rw [update_of_ne hv]
    exact h _ _

variable {Key' Ptr' : Type} {T' : LinkedListTrait Key' Ptr'} {k : Key} {l : Links Ptr}

omit hT [DecidableEq Key] [DecidableEq Ptr] in
/-- Nodes of the list of `k` have been written, which gives it the links `l` and keeps the links of all others. -/
structure LinkedListTrait.Edited (T : LinkedListTrait Key Ptr) (T' : LinkedListTrait Key' Ptr') (k : Key)
    (w w' : World) (l : Links Ptr) : Prop where
  links : T.links w' k = l
  others : ∀ k', k' ≠ k → T.links w' k' = T.links w k'
  same : T'.SameFields w w'

omit hT [DecidableEq Key] [DecidableEq Ptr] in
theorem edited_self : T.Edited T' k w w (T.links w k) := ⟨rfl, fun _ _ => rfl, fun _ _ => ⟨rfl, rfl⟩⟩

theorem LinkedListTrait.Edited.store (h : T.Edited T' k w w' l) {p : Ptr} {n : ListNode}
    (hn : T'.prev n = T'.prev (T.loadNode k p w) ∧ T'.next n = T'.next (T.loadNode k p w)) :
    T.Edited T' k w (T.storeNode k p n w') ⟨update l.prev p (T.prev n), update l.next p (T.next n)⟩ where
  links := by rw [links_storeNode hT, h.links]
  others k' hk := (links_storeNode_of_ne hT hk p n w').trans (h.others k' hk)
  same := sameFields_storeNode h.same k p hn

omit [DecidableEq Ptr] in
omit hT in
theorem holds_edited {ys : List Ptr} (h : T.Edited T' k w w' l) (hw : T.Holds w xs)
    (hl : l.IsList T.sentinel T.empty ys) : T.Holds w' (update xs k ys) ∧ T'.SameFields w w' := by
  refine ⟨fun k' => ?_, h.same⟩
  rcases eq_or_ne k' k with rfl | hk
  · rwa [update_self, h.links]
  rw [update_of_ne hk, h.others k' hk]
  exact hw k'

variable (hsep : T.Separate T')

include hsep

omit hT [DecidableEq Key] [DecidableEq Ptr] in
theorem LinkedListTrait.Separate.setBoth (p q : Ptr) (n : ListNode) :
    T'.prev (T.setNext p (T.setPrev q n)) = T'.prev n ∧ T'.next (T.setNext p (T.setPrev q n)) = T'.next n :=
  ⟨(hsep.prev_setNext _ _).trans (hsep.prev_setPrev _ _), (hsep.next_setNext _ _).trans (hsep.next_setPrev _ _)⟩

/-- An insertion puts the pointer in front, unless it is in the list. -/
theorem linkedListInsert_lists (h : T.Holds w xs) (k : Key) (p : Ptr) : wp (linkedListInsert T k p)
    (fun _ w' => (p ≠ T.empty ∧ p ≠ T.sentinel) ∧ T.Holds w' (update xs k (if p ∈ xs k then xs k else p :: xs k)) ∧
      T'.SameFields w w')
    (fun _ _ => True) w := by
  have hse := hT.sentinel_ne_empty
  have hlist := h k
  have hhead := hlist.next_sentinel
  have hnext : (T.links w k).next T.sentinel ≠ T.sentinel := by
    rw [hhead]
    intro heq
    match hxs : xs k with
    | [] =>
      rw [hxs] at heq
      exact hse heq.symm
    | x :: rest =>
      rw [hxs] at heq
      apply hlist.sentinel_notMem
      rw [hxs, ← heq]
      exact mem_cons_self
  unfold linkedListInsert
  simp only [wp_bind, wp_require, wp_load, wp_ite, wp_pure, wp_onlyIf, wp_update, prev_loadNode, next_loadNode]
  refine ⟨fun hp => ⟨fun hin => ⟨hp, ?_⟩, fun hout => ?_⟩, fun _ => trivial⟩
  · rw [if_pos ((hlist.mem_iff p).mpr hin)]
    exact holds_edited edited_self h hlist
  have hmem : p ∉ xs k := fun hm => hout ((hlist.mem_iff p).mp hm)
  have hlinks := hlist.pushFront hmem hp.2 hp.1 hse
  rw [if_neg hmem]
  refine ⟨fun hne => ⟨hp, holds_edited (.store hT (.store hT (.store hT edited_self ?_) ?_) ?_) h ?_⟩,
    fun he => ⟨hp, holds_edited (.store hT (.store hT edited_self ?_) ?_) h ?_⟩⟩
  · exact ⟨hsep.prev_setPrev _ _, hsep.next_setPrev _ _⟩
  · exact hsep.setBoth _ _ _
  · exact ⟨hsep.prev_setNext _ _, hsep.next_setNext _ _⟩
  · convert hlinks using 1
    simp only [hT.prev_setPrev, hT.next_setPrev, hT.prev_setNext, hT.next_setNext,
      prev_loadNode, next_loadNode, update_eq_self]
    refine congrArg₂ Links.mk ?_ rfl
    -- the `prev` link of the sentinel is written back as it was
    rw [if_neg hne]
    refine update_eq_self_iff.mpr ?_
    rw [update_of_ne hp.2.symm, update_of_ne hnext.symm]
  · exact hsep.setBoth _ _ _
  · exact ⟨hsep.prev_setNext _ _, hsep.next_setNext _ _⟩
  · convert hlinks using 1
    simp only [hT.prev_setPrev, hT.prev_setNext, hT.next_setNext, prev_loadNode]
    refine congrArg₂ Links.mk ?_ rfl
    rw [if_pos (of_not_not he)]
    refine update_eq_self_iff.mpr ?_
    rw [update_of_ne hp.2.symm]

/-- A removal takes the pointer out of its list. -/
theorem linkedListRemove_lists (h : T.Holds w xs) (k : Key) (p : Ptr) : wp (linkedListRemove T k p)
    (fun _ w' => T.Holds w' (update xs k ((xs k).erase p)) ∧ T'.SameFields w w')
    (fun _ _ => True) w := by
  have hlist := h k
  unfold linkedListRemove
  simp only [wp_bind, wp_require, wp_load, wp_ite, wp_pure, wp_onlyIf, wp_update, prev_loadNode, next_loadNode]
  refine ⟨fun hp => ⟨fun hout => ?_, fun hin => ?_⟩, fun _ => trivial⟩
  · have hmem : p ∉ xs k := fun hm => (hlist.mem_iff p).mp hm hout
    rw [erase_of_not_mem hmem]
    exact holds_edited edited_self h hlist
  have hlinks := hlist.unlink ((hlist.mem_iff p).mpr hin)
  -- the entry before `p` skips it
  have hskip : T.Edited T' k w (T.storeNode k ((T.links w k).prev p) (T.setNext ((T.links w k).next p)
      (T.loadNode k ((T.links w k).prev p) w)) w) _ :=
    .store hT edited_self ⟨hsep.prev_setNext _ _, hsep.next_setNext _ _⟩
  simp only [hT.prev_setNext, hT.next_setNext, prev_loadNode, update_eq_self] at hskip
  revert hskip
  intro hskip
  refine ⟨fun hne => holds_edited (.store hT (.store hT hskip ?_) (hsep.setBoth _ _ _)) h ?_,
    fun he => holds_edited (.store hT hskip (hsep.setBoth _ _ _)) h ?_⟩
  · exact ⟨(hsep.prev_setPrev _ _).trans (hskip.same _ _).1, (hsep.next_setPrev _ _).trans (hskip.same _ _).2⟩
  · convert hlinks using 1
    simp only [hT.prev_setPrev, hT.next_setPrev, hT.prev_setNext, hT.next_setNext,
      next_loadNode, update_eq_self, hskip.links]
    unfold Links.unlink
    rw [if_neg hne]
  · convert hlinks using 1
    simp only [hT.prev_setPrev, hT.prev_setNext, hT.next_setNext]
    unfold Links.unlink
    rw [if_pos (of_not_not he)]

end Traits

/-! ## Both lists of a delegation -/

/-- The delegators of every validator, and the validators of every delegator. -/
structure DelegationLists where
  delegators : ValId → List Address
  validators : Address → List ValId

namespace DelegationLists

def empty : DelegationLists := ⟨fun _ => [], fun _ => []⟩

section

local instance lawfulValId : LawfulBEq ValId := inferInstance

local instance lawfulAddress : LawfulBEq Address := inferInstance

def add (v : ValId) (a : Address) (L : DelegationLists) : DelegationLists where
  delegators := update L.delegators v (if a ∈ L.delegators v then L.delegators v else a :: L.delegators v)
  validators := update L.validators a (if v ∈ L.validators a then L.validators a else v :: L.validators a)

end

def drop (v : ValId) (a : Address) (L : DelegationLists) : DelegationLists where
  delegators := update L.delegators v ((L.delegators v).erase a)
  validators := update L.validators a ((L.validators a).erase v)

/-- A delegation is in both lists or in none. -/
def Symmetric (L : DelegationLists) : Prop := ∀ v a, a ∈ L.delegators v ↔ v ∈ L.validators a

section Membership

variable {Key Ptr : Type} [DecidableEq Key] [DecidableEq Ptr] (xs : Key → List Ptr) (k k' : Key) (p q : Ptr)

theorem mem_update_front : q ∈ update xs k (if p ∈ xs k then xs k else p :: xs k) k' ↔
    q ∈ xs k' ∨ k' = k ∧ q = p := by
  rcases eq_or_ne k' k with rfl | hk
  · rw [update_self]
    split_ifs with hp
    · constructor
      · exact .inl
      · rintro (hq | ⟨-, rfl⟩)
        · exact hq
        · exact hp
    · simp [or_comm]
  · simp [hk]

theorem mem_update_erase (hnd : (xs k).Nodup) :
    q ∈ update xs k ((xs k).erase p) k' ↔ q ∈ xs k' ∧ ¬ (k' = k ∧ q = p) := by
  rcases eq_or_ne k' k with rfl | hk
  · rw [update_self, hnd.mem_erase_iff]
    simp [and_comm]
  · simp [hk]

end Membership

variable {L : DelegationLists} (v u : ValId) (a b : Address)

theorem mem_delegators_add : b ∈ (L.add v a).delegators u ↔ b ∈ L.delegators u ∨ u = v ∧ b = a :=
  mem_update_front L.delegators v u a b

theorem mem_delegators_drop (hnd : (L.delegators v).Nodup) :
    b ∈ (L.drop v a).delegators u ↔ b ∈ L.delegators u ∧ ¬ (u = v ∧ b = a) :=
  mem_update_erase L.delegators v u a b hnd

theorem Symmetric.add (h : L.Symmetric) : (L.add v a).Symmetric := by
  intro u b
  rw [mem_delegators_add, h u b]
  exact (or_congr_right and_comm).trans (mem_update_front L.validators a b v u).symm

theorem Symmetric.drop (h : L.Symmetric) (hd : (L.delegators v).Nodup)
    (hv : (L.validators a).Nodup) : (L.drop v a).Symmetric := by
  intro u b
  rw [mem_delegators_drop v u a b hd, h u b]
  exact (and_congr_right fun _ => not_congr and_comm).trans (mem_update_erase L.validators a b v u hv).symm

end DelegationLists

/-- The nodes hold the lists `L`. -/
structure World.HasLists (w : World) (L : DelegationLists) : Prop where
  delegators : delegatorList.Holds w L.delegators
  validators : validatorList.Holds w L.validators

/-- A key that can be inserted into a delegator list. -/
def Address.Listable (a : Address) : Prop := a ≠ 0 ∧ a ≠ BitVec.allOnes 160

section Both

variable {w w' : World} {L : DelegationLists}

theorem World.HasLists.of_listNode (h : w.HasLists L) (hw : w'.listNode = w.listNode) : w'.HasLists L := by
  have hd (v : ValId) : delegatorList.links w' v = delegatorList.links w v := by
    unfold LinkedListTrait.links LinkedListTrait.loadNode
    rw [hw]
  have hv (a : Address) : validatorList.links w' a = validatorList.links w a := by
    unfold LinkedListTrait.links LinkedListTrait.loadNode
    rw [hw]
  exact ⟨fun v => hd v ▸ h.delegators v, fun a => hv a ▸ h.validators a⟩

theorem Holds.of_sameFields {Key Ptr : Type} {T : LinkedListTrait Key Ptr} {xs : Key → List Ptr}
    (h : T.Holds w xs) (hw : T.SameFields w w') : T.Holds w' xs := by
  intro k
  rw [hw.links]
  exact h k

/-- What `delegate` does to the lists. -/
theorem insertBoth_spec (h : w.HasLists L) (v : ValId) (a : Address) :
    wp (do linkedListInsert delegatorList v a; linkedListInsert validatorList a v)
      (fun _ w' => Address.Listable a ∧ w'.HasLists (L.add v a)) (fun _ _ => True) w := by
  rw [wp_bind]
  refine wp_mono (linkedListInsert_lists lawful_delegatorList separate_delegatorList h.delegators
    v a) ?_ fun _ _ _ => trivial
  rintro - w1 ⟨ha, hdels, hsame⟩
  refine wp_mono (linkedListInsert_lists lawful_validatorList separate_validatorList
    (Holds.of_sameFields h.validators hsame) a v) ?_ fun _ _ _ => trivial
  rintro - w2 ⟨-, hvalidators, hsame2⟩
  exact ⟨ha, Holds.of_sameFields hdels hsame2, hvalidators⟩

/-- What `precompile_undelegate` does to the lists. -/
theorem removeBoth_spec (h : w.HasLists L) (v : ValId) (a : Address) :
    wp (do linkedListRemove delegatorList v a; linkedListRemove validatorList a v)
      (fun _ w' => w'.HasLists (L.drop v a)) (fun _ _ => True) w := by
  rw [wp_bind]
  refine wp_mono (linkedListRemove_lists lawful_delegatorList separate_delegatorList h.delegators
    v a) ?_ fun _ _ _ => trivial
  rintro - w1 ⟨hdels, hsame⟩
  refine wp_mono (linkedListRemove_lists lawful_validatorList separate_validatorList
    (Holds.of_sameFields h.validators hsame) a v) ?_ fun _ _ _ => trivial
  rintro - w2 ⟨hvalidators, hsame2⟩
  exact ⟨Holds.of_sameFields hdels hsame2, hvalidators⟩

end Both

/-! ## Functions that leave the nodes alone -/

section Frames

variable (rev : MonadRevision) (crypto : Crypto) (v : ValId) (a : Address)

theorem keeps_decrementAccumulatorRefcount (e : Nat) : Keeps listNode (decrementAccumulatorRefcount e v) :=
  .bind .load <| .ite (.bind (.update rfl) .pure)
    (.bind (.update rfl) .pure)

theorem keeps_rewardInvariant (r : Nat) : Keeps listNode (rewardInvariant v r) :=
  .bind .load <| .bind .require <| .bind .lift <| .update rfl

theorem keeps_pullDelegatorUpToDate : Keeps listNode (pullDelegatorUpToDate v a) := by
  intro w
  refine wp_mono (pullDelegatorUpToDate_spec w v a) ?_ fun _ _ _ => trivial
  rintro - w' ⟨-, t⟩
  have h := congrArg listNode t.outside
  exact h

theorem keeps_stageDelegation (s : Nat) : Keeps listNode (stageDelegation v s a) :=
  .bind .load <| .bind .load <| .bind .load <| .ite (.bind .lift <| .bind (.update rfl) <|
      .bind (.onlyIf (.update rfl)) (.update rfl))
    (.bind .lift <| .bind (.update rfl) <| .bind (.onlyIf (.update rfl)) (.update rfl))

theorem keeps_emitIfStatusChanged (flags : BitVec 64) : Keeps listNode (emitIfStatusChanged v flags) :=
  .bind .load <| .onlyIf (.update rfl)

theorem keeps_enlistCandidate : Keeps listNode (enlistCandidate v) :=
  .bind .load <| .onlyIf (.bind (.bind .load <| .bind (.update rfl) .pure) <| .onlyIf (.update rfl))

theorem keeps_raiseValidatorStake (s : Nat) : Keeps listNode (raiseValidatorStake rev v s a) :=
  .bind .load <| .bind .lift <| .bind (.update rfl) <| .bind (.onlyIf (.update rfl)) <| .bind .load <|
    .bind (.onlyIf (.update rfl)) <| .bind (keeps_emitIfStatusChanged v _) <| keeps_enlistCandidate v

theorem keeps_verifyAddValidator (i : AddValidatorInput) (value : Nat) :
    Keeps id (verifyAddValidator crypto i value) :=
  .bind .require <| .bind .require <| .bind .require <| .bind .require <| .bind .require <| .bind .require <|
    .bind .require <| .bind .require .require

theorem keeps_lowerStake (amount : Nat) : Keeps listNode (lowerStake v a amount) :=
  .bind .load <| .bind .load <| .bind .require <| .bind .lift <| .bind .lift <| .ite
      (.bind .lift <| .bind .lift <| .bind (.update rfl) <| .bind (.update rfl) .pure)
      (.bind (.update rfl) <| .bind (.update rfl) .pure)

theorem keeps_flagLoweredStake : Keeps listNode (flagLoweredStake rev v a) :=
  .bind .load <| .bind .load <| .bind (.onlyIf (.update rfl)) <|
    .bind (.onlyIf (.update rfl)) <| keeps_emitIfStatusChanged v _

theorem keeps_openWithdrawalRequest (i : WithdrawalId) (amount : Nat) :
    Keeps listNode (openWithdrawalRequest v a i amount) :=
  .bind .load <| .bind (.update rfl) <| .bind .load <| .bind (.update rfl) (.update rfl)

theorem keeps_addToBalance (x : Nat) : Keeps listNode (addToBalance a x) :=
  .bind .load <| .bind .require (.update rfl)

theorem keeps_sendTokens (x : Nat) : Keeps listNode (sendTokens a x) :=
  .bind (keeps_addToBalance a x) <| .bind .load <| .bind .require <| .update rfl

theorem keeps_withdraw (i : WithdrawalId) : Keeps listNode (withdraw v i a) :=
  .bind .load <| .bind .require <| .bind (.update rfl) <| .bind .load <| .bind .require <|
    .bind (keeps_decrementAccumulatorRefcount v _) <| .bind .lift <|
    .bind (.update rfl) <| .bind (keeps_rewardInvariant v _) <| .bind .lift <| .bind .load <| .bind .require <|
    .bind (keeps_sendTokens a _) <| .bind (.update rfl) <| .bind .load (.update rfl)

theorem keeps_claimRewards : Keeps listNode (claimRewards v a) :=
  .bind (keeps_pullDelegatorUpToDate v a) <| .bind .load <|
    .onlyIf (.bind (keeps_sendTokens a _) <| .bind (.update rfl) <| .bind (.update rfl) <| .bind .load (.update rfl))

theorem keeps_changeCommission (commission : Nat) : Keeps listNode (changeCommission v commission a) :=
  .bind .load <| .bind .require <| .bind .require <| .bind .require <| .onlyIf (.bind (.update rfl) <| .update rfl)

theorem keeps_applyReward (r active : Nat) : Keeps listNode (applyReward v a r active) :=
  .bind .lift <| .bind .load <| .bind .lift <| .bind (.update rfl) <| .bind .lift <|
    .bind (.update rfl) <| .bind .load (.update rfl)

theorem keeps_externalReward (r : Nat) : Keeps listNode (externalReward v r a) :=
  .bind .load <| .bind .require <| .bind .load <| .bind .require <| .bind .require <| .bind .require <|
    keeps_applyReward v a r _

theorem keeps_rewardValidator (r : Nat) : Keeps listNode (rewardValidator v r) :=
  .bind .load <| .bind .require <| .bind (keeps_addToBalance _ _) <|
    .bind .lift <| .bind .load <| .bind .load <| .bind .lift <| .bind (.update rfl) <| .bind .lift <|
    keeps_applyReward v _ _ _

end Frames

/-! ## What a call does to the lists -/

/-- The lists after an action from `w` to `w'`. -/
def Action.lists (w w' : World) (L : DelegationLists) : Action → DelegationLists
  | .addValidator i _ => L.add (w.lastValId + 1) i.authAddress
  | .delegate v a _ => L.add v a
  | .undelegate v a _ _ => if (w'.delegator v a).getNextEpochStake = 0 then L.drop v a else L
  | .compound v a => if (((w.pool v).pull a).del a).rewards = 0 then L else L.add v a
  | _ => L

/-- Keeping the nodes is enough for all other actions. -/
def Action.movesNode : Action → Bool
  | .addValidator _ _ | .delegate _ _ _ | .undelegate _ _ _ _ | .compound _ _ => true
  | _ => false

section Methods

variable (rev : MonadRevision) (crypto : Crypto) {w w₀ : World} {L : DelegationLists} {α β : Type}

/-- A program on the state `w₀`, in which the value of the action has been received, leads to the
lists of the action. -/
def Lists (w : World) (L : DelegationLists) (act : Action) (m : M α) (w₀ : World) : Prop :=
  wp m (fun _ w' => w'.HasLists (act.lists w w' L)) (fun _ _ => True) w₀

variable {act : Action} {m : M α}

theorem lists_of_keeps (h : w.HasLists L) (hw : w₀.listNode = w.listNode) (hm : Keeps listNode m)
    (hact : act.movesNode = false) : Lists w L act m w₀ := by
  refine wp_mono (hm w₀) (fun _ w' hw' => ?_) fun _ _ _ => trivial
  have hlists : act.lists w w' L = L := by
    cases act with
    | addValidator | delegate | undelegate | compound => cases hact
    | _ => rfl
  rw [hlists]
  exact h.of_listNode (hw'.trans hw)

theorem lists_decoded {x : Except Error α} {f : α → Action} {m : α → M β} (h : ∀ y, Lists w L (f y) (m y) w₀) :
    Lists w L (decoded x f) (do let y ← lift x; m y) w₀ := by
  unfold Lists
  match x with
  | .ok y => exact h y
  | .error e => trivial

theorem lists_notPayable {value : Nat} (h : Lists w L act m w₀) :
    Lists w L act (do functionNotPayable value; m) w₀ := by
  unfold Lists functionNotPayable
  rw [wp_bind, wp_require]
  exact ⟨fun _ => h, fun _ => trivial⟩

theorem lists_map {f : α → β} (h : Lists w L act m w₀) : Lists w L act (f <$> m) w₀ := by
  unfold Lists
  rw [wp_map]
  exact h

variable (v : ValId) (a : Address)

/-- A part of a call that leaves the nodes alone. -/
theorem wp_keeps {f : α → M β} {Q : β → World → Prop} (hm : Keeps listNode m) (h : w.HasLists L)
    (hf : ∀ y w', w'.HasLists L → wp (f y) Q (fun _ _ => True) w') : wp (m >>= f) Q (fun _ _ => True) w := by
  rw [wp_bind]
  exact wp_mono (hm w) (fun y w' hw' => hf y w' (h.of_listNode hw')) fun _ _ _ => trivial

theorem delegate_lists (h : w.HasLists L) (s : Nat) :
    wp (delegate rev v s a) (fun _ w' => w'.HasLists (L.add v a)) (fun _ _ => True) w := by
  refine wp_keeps .load h fun _ w1 h1 => ?_
  refine wp_keeps .require h1 fun _ w2 h2 => ?_
  refine wp_keeps .require h2 fun _ w3 h3 => ?_
  refine wp_keeps (keeps_pullDelegatorUpToDate v a) h3 fun _ w4 h4 => ?_
  refine wp_keeps (keeps_stageDelegation v a s) h4 fun _ w5 h5 => ?_
  refine wp_keeps (keeps_raiseValidatorStake rev v a s) h5 fun _ w6 h6 => ?_
  exact wp_mono (insertBoth_spec h6 v a) (fun _ _ h => h.2) fun _ _ _ => trivial

theorem keeps_linkedListRemove {Key Ptr : Type} [DecidableEq Ptr] (T : LinkedListTrait Key Ptr)
    (k : Key) (p : Ptr) : Keeps delegator (linkedListRemove T k p) :=
  .bind .require <| .bind .load <| .ite .pure
    (.bind .load <| .bind (.update rfl) <| .bind (.onlyIf (.bind .load (.update rfl))) <| .update rfl)

/-- The delegator record that decides about the removal is the final one. -/
theorem releaseDelegator_lists (h : w.HasLists L) : wp (releaseDelegator v a) (fun _ w' => w'.HasLists
      (if (w'.delegator v a).getNextEpochStake = 0 then L.drop v a else L))
    (fun _ _ => True) w := by
  unfold releaseDelegator
  rw [wp_bind, wp_load, wp_bind, wp_onlyIf_update]
  -- forgetting the accumulator changes no stake
  generalize hw1 : (if (w.delegator v a).stake = 0 then w.modifyDelegator v a
    fun d => { d with accumulatedRewardPerToken := 0 } else w) = w1
  have hstk : (w1.delegator v a).getNextEpochStake = (w.delegator v a).getNextEpochStake := by
    rw [← hw1]
    split_ifs
    · simp [Delegator.getNextEpochStake]
    · rfl
  have h1 : w1.HasLists L := by
    refine h.of_listNode ?_
    rw [← hw1]
    split_ifs <;> rfl
  rw [wp_onlyIf, ← hstk]
  constructor
  · intro h0
    have hkeeps : Keeps delegator (do linkedListRemove delegatorList v a; linkedListRemove validatorList a v) :=
      .bind (keeps_linkedListRemove _ _ _) <| keeps_linkedListRemove _ _ _
    refine wp_mono (wp_and (removeBoth_spec h1 v a) (hkeeps w1)) ?_ fun _ _ _ => trivial
    rintro - w' ⟨hdrop, hdgr⟩
    rwa [hdgr, if_pos h0]
  · intro h0
    rwa [if_neg h0]

theorem undelegate_lists (h : w.HasLists L) (amount : Nat) (i : WithdrawalId) : wp (undelegate rev v amount i a)
    (fun _ w' => w'.HasLists (if (w'.delegator v a).getNextEpochStake = 0 then L.drop v a else L))
    (fun _ _ => True) w := by
  refine wp_keeps .load h fun _ w1 h1 => ?_
  refine wp_keeps .require h1 fun _ w2 h2 => ?_
  refine wp_keeps .load h2 fun _ w3 h3 => ?_
  refine wp_keeps .require h3 fun _ w4 h4 => ?_
  refine wp_keeps (keeps_pullDelegatorUpToDate v a) h4 fun _ w5 h5 => ?_
  refine wp_keeps (keeps_lowerStake v a amount) h5 fun out w6 h6 => ?_
  refine wp_keeps (keeps_flagLoweredStake rev v a) h6 fun _ w7 h7 => ?_
  refine wp_keeps (keeps_openWithdrawalRequest v a i out) h7 fun _ w8 h8 => ?_
  exact releaseDelegator_lists v a h8

/-- Compounding delegates unless there is nothing to compound. -/
theorem compound_lists (h : w.HasLists L) : wp (compound rev v a) (fun _ w' => w'.HasLists
      (if (((w.pool v).pull a).del a).rewards = 0 then L else L.add v a))
    (fun _ _ => True) w := by
  unfold compound
  rw [wp_bind]
  refine wp_mono (wp_and (keeps_pullDelegatorUpToDate v a w) (pullDelegatorUpToDate_spec w v a))
    ?_ fun _ _ _ => trivial
  rintro - w1 ⟨hnodes, -, t⟩
  have h1 := h.of_listNode hnodes
  have hrew : (((w.pool v).pull a).del a).rewards = (w1.delegator v a).rewards := by
    rw [← t.pool]
    rfl
  rw [hrew, wp_bind, wp_load]
  refine wp_keeps (.update rfl) h1 fun _ w2 h2 => ?_
  refine wp_keeps (.update rfl) h2 fun _ w3 h3 => ?_
  rw [wp_onlyIf]
  constructor
  · intro hne
    rw [if_neg hne]
    refine wp_keeps .load h3 fun _ w4 h4 => ?_
    refine wp_keeps (.update rfl) h4 fun _ w5 h5 => ?_
    exact delegate_lists rev v a h5 _
  · intro h0
    rw [if_pos (of_not_not h0)]
    exact h3

/-! ## Calls -/

variable (h : w.HasLists L) (input : Bytes) (sender : Address) (value : Nat)

include h

theorem lists_runMethod (method : Method) :
    Lists w L (method.action input sender value) (runMethod rev crypto method input sender value)
      (w.receive value) := by
  have h₀ : (w.receive value).HasLists L := h.of_listNode rfl
  -- the getters read only
  have hidle {α : Type} {m : M α} (hm : Keeps listNode m) (f : α → Output) :
      Lists w L .idle (f <$> m) (w.receive value) :=
    lists_map (lists_of_keeps h rfl hm rfl)
  cases method with
  | addValidator =>
    refine lists_map (lists_decoded fun i => ?_)
    unfold Lists
    rw [wp_bind]
    refine wp_mono (keeps_verifyAddValidator crypto i value (w.receive value)) ?_ fun _ _ _ => trivial
    intro _ w1 hw1
    obtain rfl : w1 = w.receive value := hw1
    unfold registerValidator
    simp only [wp_bind, wp_load, wp_require, wp_update, wp_pure]
    refine ⟨fun _ => ?_, fun _ => trivial⟩
    refine delegate_lists rev (w.lastValId + 1) i.authAddress ?_ value
    exact h.of_listNode rfl
  | delegate =>
    refine lists_map (lists_decoded fun v => ?_)
    unfold Lists
    rw [wp_onlyIf]
    refine ⟨fun h0 => ?_, fun h0 => ?_⟩
    · rw [if_neg h0]
      exact delegate_lists rev v sender h₀ value
    · rw [if_pos (of_not_not h0)]
      exact h₀
  | undelegate =>
    refine lists_map (lists_notPayable (lists_decoded ?_))
    rintro ⟨v, amount, i⟩
    unfold Lists
    rw [wp_onlyIf]
    refine ⟨fun h0 => ?_, fun h0 => ?_⟩
    · rw [if_neg h0]
      exact undelegate_lists rev v sender h₀ amount i
    · rw [if_pos (of_not_not h0)]
      exact h₀
  | compound =>
    refine lists_map (lists_notPayable (lists_decoded fun v => ?_))
    exact compound_lists rev v sender h₀
  | withdraw =>
    refine lists_map (lists_notPayable (lists_decoded ?_))
    rintro ⟨v, i⟩
    exact lists_of_keeps h rfl (keeps_withdraw v sender i) rfl
  | claimRewards =>
    refine lists_map (lists_notPayable (lists_decoded fun v => ?_))
    exact lists_of_keeps h rfl (keeps_claimRewards v sender) rfl
  | changeCommission =>
    refine lists_map (lists_notPayable (lists_decoded ?_))
    rintro ⟨v, commission⟩
    exact lists_of_keeps h rfl (keeps_changeCommission v sender commission) rfl
  | externalReward =>
    refine lists_map (lists_decoded fun v => ?_)
    exact lists_of_keeps h rfl (keeps_externalReward v sender value) rfl
  | getDelegator =>
    refine lists_map (lists_notPayable (lists_decoded ?_))
    rintro ⟨v, a⟩
    exact lists_of_keeps h rfl (.bind (keeps_pullDelegatorUpToDate v a) .load) rfl
  | getEpoch | getProposerValId => exact hidle (.bind .require .load) _
  | getValidator | getWithdrawalRequest | getDelegations | getDelegators =>
    exact hidle (.bind .require <| .bind .lift .load) _
  | getConsensusValset | getSnapshotValset | getExecutionValset =>
    exact hidle (.bind .require <| .bind .lift <| .bind .load <| .bind .require .pure) _
  | fallback => exact hidle .throw _

theorem lists_executeStakingSyscall (calldata : Bytes) :
    Lists w L (Call.action rev (.system calldata value)) (executeStakingSyscall rev calldata value)
      w := by
  unfold executeStakingSyscall
  simp only [Call.action]
  split_ifs
  · trivial
  generalize syscallDispatch calldata = dispatch
  obtain ⟨syscall, input⟩ := dispatch
  cases syscall with
  | none => trivial
  | some syscall =>
    cases syscall with
    | reward =>
      refine lists_decoded fun author => lists_of_keeps h rfl ?_ rfl
      exact .bind .load <| .bind .require <| .bind (keeps_rewardValidator _ _) <| .onlyIf (.update rfl)
    | snapshot =>
      refine lists_of_keeps h rfl ?_ rfl
      refine .bind .require <| .bind .require <| .bind .load <|
        .ite (.bind .load <| .bind (.update rfl) .throw) (.update (funext fun w => ?_))
      obtain ⟨execution, bits, hspec, -, -⟩ := takeSnapshot_spec w
      rw [comp_apply, hspec]
    | onEpochChange =>
      refine lists_notPayable (lists_decoded fun next => lists_of_keeps h rfl ?_ rfl)
      refine .bind .load <| .ite (.bind (.update rfl) .throw)
        (.bind (.update rfl) <| .bind (.update (funext fun w => ?_)) <| .update rfl)
      obtain ⟨cells, hfrm⟩ := refreshAll_frame w next ((next + 1) % uint64Size) w.valsetSnapshot
      unfold refreshAll at hfrm
      rw [comp_apply, hfrm]

theorem lists_run (c : Call) : Lists w L (c.action rev) (c.run rev crypto) w := by
  cases c with
  | precompile input sender value gas =>
    unfold Call.run addToBalance
    simp only [Lists, wp_bind, wp_load, wp_require, wp_update]
    refine ⟨fun _ => ⟨fun _ => ?_, fun _ => trivial⟩, fun _ => trivial⟩
    exact lists_runMethod rev crypto h _ sender value _
  | system calldata value => exact lists_map (lists_executeStakingSyscall rev h value calldata)

/-- A successful call does to the lists what its action does. -/
theorem exec_lists {c : Call} {out : Output} (hok : (exec rev crypto c w).1 = .ok out) :
    (exec rev crypto c w).2.HasLists ((c.action rev).lists w (exec rev crypto c w).2 L) := by
  have hlists := lists_run rev crypto h c
  unfold exec orRevert at hok ⊢
  unfold Lists wp at hlists
  match hrun : c.run rev crypto w with
  | .ok out' w' =>
    rw [hrun] at hlists
    exact hlists
  | .error e w' =>
    rw [hrun] at hok
    cases hok

end Methods

/-! ## The lists after any calls -/

section Runs

variable {w w' : World} {L : DelegationLists}

theorem World.HasLists.nodup_delegators (h : w.HasLists L) (v : ValId) : (L.delegators v).Nodup :=
  (h.delegators v).nodup_list

theorem World.HasLists.nodup_validators (h : w.HasLists L) (a : Address) : (L.validators a).Nodup :=
  (h.validators a).nodup_list

theorem symmetric_lists (h : w.HasLists L) (hs : L.Symmetric) (act : Action) : (act.lists w w' L).Symmetric := by
  cases act with
  | addValidator | delegate => exact hs.add _ _
  | undelegate v a i amount =>
    simp only [Action.lists]
    split_ifs
    · exact hs.drop v a (h.nodup_delegators v) (h.nodup_validators a)
    · exact hs
  | compound v a =>
    simp only [Action.lists]
    split_ifs
    · exact hs
    · exact hs.add v a
  | _ => exact hs

theorem hasLists_empty : empty.HasLists .empty := by
  have hemp {Key Ptr : Type} (T : LinkedListTrait Key Ptr) (hprev : T.prev {} = T.empty)
      (hnext : T.next {} = T.empty) : T.Holds empty fun _ => [] :=
    fun k => ⟨nodup_singleton _, ⟨T.sentinel, .nil, hnext⟩,
      fun x => ⟨fun hx => absurd hx not_mem_nil, fun hx => absurd hprev hx⟩, hprev⟩
  exact ⟨hemp delegatorList rfl rfl, hemp validatorList rfl rfl⟩

variable (rev : MonadRevision) (crypto : Crypto)

/-- The lists that the calls of a run lead to. -/
def listsAfter : List Call → DelegationLists
  | [] => .empty
  | c :: calls =>
    match (exec rev crypto c (after rev crypto calls)).1 with
    | .ok _ => (c.action rev).lists (after rev crypto calls) (after rev crypto (c :: calls)) (listsAfter calls)
    | .error _ => listsAfter calls

/-- After any calls the nodes hold these lists, and a delegation is in both or in none. -/
theorem hasLists_after (calls : List Call) : (after rev crypto calls).HasLists (listsAfter rev crypto calls) ∧
    (listsAfter rev crypto calls).Symmetric := by
  induction calls with
  | nil => exact ⟨hasLists_empty, fun v a => by simp [listsAfter, DelegationLists.empty]⟩
  | cons c calls ih =>
    obtain ⟨h, hs⟩ := ih
    unfold listsAfter
    match hc : (exec rev crypto c (after rev crypto calls)).1 with
    | .ok out => exact ⟨exec_lists rev crypto h hc, symmetric_lists h hs _⟩
    | .error e =>
      refine ⟨h.of_listNode ?_, hs⟩
      rw [after, (exec_error rev crypto _ hc).2.2]

/-! ## Who is in the lists -/

variable {a : Address} {v : ValId}

theorem dust_le_of_delegate {p p' : Pool Address WithdrawalId} {s : Nat} (h : Pool.Step (.delegate a s) p p') :
    Limits.dustThreshold ≤ s := by
  cases h with
  | delegate hs safe hr => exact hs

/-- The delegators of a list are those who hold something. -/
def Exact (L : DelegationLists) (held : ValId → Address → Nat) : Prop := ∀ v a, a ∈ L.delegators v ↔ held v a ≠ 0

/-- Somebody who delegates or compounds is listed. -/
theorem Exact.add (h : Exact L w.held) (hoth : ∀ u b, ¬ (u = v ∧ b = a) → w'.held u b = w.held u b)
    (hself : w'.held v a ≠ 0) : Exact (L.add v a) w'.held := by
  intro u b
  rw [DelegationLists.mem_delegators_add]
  by_cases hub : u = v ∧ b = a
  · obtain ⟨rfl, rfl⟩ := hub
    simp [hself]
  · rw [or_iff_left hub, hoth u b hub]
    exact h u b

/-- Somebody who has taken everything out is not. -/
theorem Exact.drop (h : Exact L w.held) (hnd : (L.delegators v).Nodup)
    (hoth : ∀ u b, ¬ (u = v ∧ b = a) → w'.held u b = w.held u b) (hself : w'.held v a = 0) :
    Exact (L.drop v a) w'.held := by
  intro u b
  rw [DelegationLists.mem_delegators_drop v u a b hnd]
  by_cases hub : u = v ∧ b = a
  · obtain ⟨rfl, rfl⟩ := hub
    simp [hself]
  · rw [and_iff_left hub, hoth u b hub]
    exact h u b

/-- An action for the pool of `v` that moves stake of `a` only. -/
theorem held_elsewhere {op : Pool.Op Address WithdrawalId}
    (step : ∀ u, Pool.Step (opAt u v op) (w.pool u) (w'.pool u))
    (hself : ∀ b, b ≠ a → ((w'.pool v).del b).held = ((w.pool v).del b).held) (u : ValId) (b : Address)
    (hub : ¬ (u = v ∧ b = a)) : w'.held u b = w.held u b := by
  rcases eq_or_ne u v with rfl | hu
  · exact hself b fun hb => hub ⟨rfl, hb⟩
  · rw [held_other step hu]

theorem Exact.delegate (h : Exact L w.held) {s : Nat} (ledger : (w.pool v).Ledger)
    (step : ∀ u, Pool.Step (opAt u v (.delegate a s)) (w.pool u) (w'.pool u)) : Exact (L.add v a) w'.held := by
  have hdust := dustThreshold_pos
  have hs := dust_le_of_delegate (step_self step)
  have hstep (b : Address) : w'.held v b = w.held v b + if b = a then s else 0 :=
    held_step (step_self step) ledger.empty b
  refine h.add (held_elsewhere step fun b hb => ?_) ?_
  · have hb' := hstep b
    rwa [if_neg hb, Nat.add_zero] at hb'
  · rw [hstep, if_pos rfl]
    omega

/-- Every call keeps the lists exact, as long as the ledgers are in order. -/
theorem Exact.effect {act : Action} (h : Exact L w.held) (hlists : w.HasLists L)
    (roster : Roster rev w.registry w.stakes) (ledger : ∀ u, (w.pool u).Ledger) (ledger' : ∀ u, (w'.pool u).Ledger)
    (he : Effect rev w act w') : Exact (act.lists w w' L) w'.held := by
  cases he with
  | snapshot hd =>
    have hheld : w.takeSnapshot.held = w.held := by
      funext u b
      rw [held, roster.pool_takeSnapshot]
      rfl
    rw [hheld]
    exact h
  | performed step registry balance commission =>
    cases act with
    | idle | changeCommission | changeEpoch | takeSnapshot =>
      have hheld : w'.held = w.held := funext fun u => funext fun b => held_step (step u) (ledger u).empty b
      rw [hheld]
      exact h
    | pull v | withdraw v | claim v | externalReward v =>
      rw [held_same step (held_step (step_self step) (ledger v).empty)]
      exact h
    | blockReward =>
      rw [held_same step (held_step (step_self step) (ledger _).empty)]
      exact h
    | addValidator i s => exact h.delegate (ledger _) step
    | delegate v a s => exact h.delegate (ledger v) step
    | undelegate v a i amount =>
      have hstep := held_step (step_self step) (ledger v).empty
      have hoth := held_elsewhere step fun b hb => (hstep b).2 hb
      have hnext : (w'.delegator v a).getNextEpochStake = w'.held v a := (ledger' v).getNextEpochStake a
      simp only [Action.lists, hnext]
      split_ifs with h0
      · exact h.drop (hlists.nodup_delegators v) hoth h0
      intro u b
      by_cases hub : u = v ∧ b = a
      · obtain ⟨rfl, rfl⟩ := hub
        have hle : w'.held u b ≤ w.held u b := (hstep b).1
        rw [h u b]
        omega
      · rw [hoth u b hub]
        exact h u b
    | compound v a =>
      have hstep := held_step (step_self step) (ledger v).empty
      have hoth := held_elsewhere step fun b hb => (hstep b).2 hb
      have hself := held_compound (step_self step) (ledger v).empty
      simp only [Action.lists]
      split_ifs at hself ⊢
      · intro u b
        by_cases hub : u = v ∧ b = a
        · obtain ⟨rfl, rfl⟩ := hub
          have hsame : w'.held u b = w.held u b := hself
          rw [hsame]
          exact h u b
        · rw [hoth u b hub]
          exact h u b
      · exact h.add hoth hself

theorem exact_lists_after {calls : List Call} (h : (after rev crypto calls).EpochsExist) :
    Exact (listsAfter rev crypto calls) (after rev crypto calls).held := by
  induction calls with
  | nil =>
    intro v a
    exact ⟨fun hmem => absurd hmem not_mem_nil, fun h0 => absurd rfl h0⟩
  | cons c calls ih =>
    have htail := epochsExist_tail rev crypto h
    have hledger := ledger_after rev crypto h
    unfold listsAfter
    match hc : (exec rev crypto c (after rev crypto calls)).1 with
    | .ok out =>
      exact (ih htail).effect rev (hasLists_after rev crypto calls).1 (roster_after rev crypto calls)
        (ledger_after rev crypto htail) hledger (exec_ok rev crypto _ hc)
    | .error e =>
      have hheld : (after rev crypto (c :: calls)).held = (after rev crypto calls).held := by
        funext v a
        unfold held
        rw [after, pool_error rev crypto hc]
      rw [hheld]
      exact ih htail

end Runs

/-! ## Reading the lists page by page -/

section Pages

variable {Key Ptr : Type} [DecidableEq Ptr] (T : LinkedListTrait Key Ptr) (w : World) (key : Key)

/-- The pages that a caller of `linked_list_traverse` collects who starts at `start` and goes on
where the last page ended, until the list is done; `fuel` pages at most. -/
def linkedListPages (limit : Nat) : Nat → Ptr → Option (List Ptr)
  | 0, _ => none
  | fuel + 1, start =>
    let (done, next, entries) := linkedListTraverse T w key start limit
    if done then some entries else (linkedListPages limit fuel next).map (entries ++ ·)

theorem linkedListWalk_eq (ptr : Ptr) (limit : Nat) :
    linkedListWalk T w key ptr limit = (T.links w key).walk T.empty ptr limit := by
  induction limit generalizing ptr with
  | zero => rfl
  | succ limit ih =>
    unfold linkedListWalk Links.walk
    rw [ih]
    rfl

theorem linkedListTraverse_eq (start : Ptr) (limit : Nat) : linkedListTraverse T w key start limit =
    (T.links w key).page T.sentinel T.empty start limit := by
  unfold linkedListTraverse Links.page
  simp only [linkedListWalk_eq, prev_loadNode, next_loadNode]

theorem linkedListPages_eq (limit fuel : Nat) (start : Ptr) : linkedListPages T w key limit fuel start =
    (T.links w key).pages T.sentinel T.empty limit fuel start := by
  induction fuel generalizing start with
  | zero => rfl
  | succ fuel ih =>
    unfold linkedListPages Links.pages
    simp only [linkedListTraverse_eq, ih]

end Pages

/-- The delegation lists of a state: `L` are the entries of the two kinds of lists, which their links
hold in both directions and without repetition, and which every reader gets page by page. -/
structure World.ListsExact (w : World) (L : DelegationLists) : Prop where
  delegators : ∀ v, (delegatorList.links w v).IsList delegatorList.sentinel delegatorList.empty (L.delegators v)
  validators : ∀ a, (validatorList.links w a).IsList validatorList.sentinel validatorList.empty (L.validators a)
  both : ∀ v a, a ∈ L.delegators v ↔ v ∈ L.validators a
  delegator_pages : ∀ v limit, 1 ≤ limit → ∃ enough, ∀ fuel, enough ≤ fuel →
    linkedListPages delegatorList w v limit fuel delegatorList.empty = some (L.delegators v)
  validator_pages : ∀ a limit, 1 ≤ limit → ∃ enough, ∀ fuel, enough ≤ fuel →
    linkedListPages validatorList w a limit fuel validatorList.empty = some (L.validators a)

/-- After any calls the delegation lists are in order and readable, and as long as the epochs exist,
they list those who hold something. -/
theorem lists_exact_after (rev : MonadRevision) (crypto : Crypto) (calls : List Call) :
    ∃ L : DelegationLists, (after rev crypto calls).ListsExact L ∧
      ((after rev crypto calls).epoch + 2 < 2 ^ 64 → ∀ v a, let d := (after rev crypto calls).delegator v a
        a ∈ L.delegators v ↔ d.stake + d.deltaStake + d.nextDeltaStake ≠ 0) := by
  obtain ⟨h, hs⟩ := hasLists_after rev crypto calls
  have hpages {Key Ptr : Type} [DecidableEq Ptr] {T : LinkedListTrait Key Ptr}
      {xs : Key → List Ptr} (hT : T.Holds (after rev crypto calls) xs) (k : Key) (limit : Nat)
      (hl : 1 ≤ limit) : ∃ enough, ∀ fuel, enough ≤ fuel →
        linkedListPages T (after rev crypto calls) k limit fuel T.empty = some (xs k) := by
    refine ⟨(xs k).length + 1, fun fuel hfuel => ?_⟩
    rw [linkedListPages_eq]
    exact (hT k).pages_eq (by omega) hfuel
  refine ⟨listsAfter rev crypto calls, ⟨h.delegators, h.validators, hs, hpages h.delegators,
    hpages h.validators⟩, fun hep v a => ?_⟩
  have hexi : (after rev crypto calls).EpochsExist := by
    unfold World.EpochsExist uint64Size
    exact hep
  exact exact_lists_after rev crypto hexi v a

/-- Two delegators of one validator. -/
theorem lists_exact_after_two :
    let calls := [Call.delegate 1 9 mon, .register 7 8 0 9 (100000 * mon), .onEpochChange 1]
    let w := after .five .acceptAll calls
    w.epoch + 2 < 2 ^ 64 ∧ linkedListTraverse delegatorList w 1 0 1 = (false, 8, [9]) ∧
      ∃ L : DelegationLists, w.ListsExact L ∧ 8 ∈ L.delegators 1 ∧ 9 ∈ L.delegators 1 := by
  intro calls w
  have hep : w.epoch + 2 < 2 ^ 64 := by decide +kernel
  obtain ⟨L, hlists, hexact⟩ := lists_exact_after .five .acceptAll calls
  refine ⟨hep, by decide +kernel, L, hlists, ?_, ?_⟩
  · exact (hexact hep 1 8).mpr (by decide +kernel)
  · exact (hexact hep 1 9).mpr (by decide +kernel)

/-- In the last epoch the stake of a new validator waits for epoch 0. Reading the delegator drops
it, and the delegator stays in the list. -/
theorem not_lists_exact_lastEpoch :
    let w := after .five .acceptAll [.getDelegator 1 8 9, .register 7 8 0 9 (100000 * mon),
      .onEpochChange (2 ^ 64 - 1)]
    linkedListTraverse delegatorList w 1 0 100 = (true, 0, [8]) ∧
      (w.delegator 1 8).stake + (w.delegator 1 8).deltaStake + (w.delegator 1 8).nextDeltaStake =
        0 := by decide +kernel

end MonadExecution.Staking
