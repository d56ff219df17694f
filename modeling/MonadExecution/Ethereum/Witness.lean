import MonadExecution.Ethereum.PartialTrie
import Mathlib.Data.List.Forall2

/-!
# A witness cannot lie

Two witnesses for one root may expand different parts of the state. Where both expand a node they expand
it from the same bytes, because nodes are found by their hashes, and decoding is a function of the bytes;
so two tries agree up to stubs, and a lookup that meets no stub in either gives one answer.
-/

namespace MonadExecution.Ethereum.PartialTrie

open Rlp Option

variable {T : Type} {R : T → T → Prop}

/-- Tries that are the same where neither has a stub. -/
inductive Agree (R : T → T → Prop) : ChildRef T → ChildRef T → Prop
  | stubLeft (hash : Bytes32) (c : ChildRef T) : Agree R (.stub hash) c
  | stubRight (c : ChildRef T) (hash : Bytes32) : Agree R c (.stub hash)
  | null : Agree R .null .null
  | leaf (path : Nibbles) {v w : T} (h : R v w) : Agree R (.leaf path v) (.leaf path w)
  | extension (path : Nibbles) {c d : ChildRef T} (h : Agree R c d) : Agree R (.extension path c) (.extension path d)
  | branch {cs ds : Fin 16 → ChildRef T} {v w : Option T} (h : ∀ i, Agree R (cs i) (ds i))
      (hv : Option.Rel R v w) : Agree R (.branch cs v) (.branch ds w)

/-- Lookups that do not abort give related values. -/
theorem Agree.trieLookup {c d : ChildRef T} (h : Agree R c d) :
    ∀ {key : Nibbles} {v w : Option T}, PartialTrie.trieLookup c key = some v →
      PartialTrie.trieLookup d key = some w → Option.Rel R v w := by
  induction h with
  | stubLeft => intro key v w hv; cases hv
  | stubRight => intro key v w _ hw; cases hw
  | null =>
    intro key v w hv hw
    cases hv
    cases hw
    exact .none
  | leaf path h =>
    intro key v w hv hw
    simp only [PartialTrie.trieLookup, Option.some.injEq] at hv hw
    subst hv hw
    split
    · exact .some h
    · exact .none
  | extension path h ih =>
    intro key v w hv hw
    simp only [PartialTrie.trieLookup] at hv hw
    split at hv
    · rw [if_pos ‹_›] at hw
      exact ih hv hw
    rw [if_neg ‹_›] at hw
    cases hv
    cases hw
    exact .none
  | branch h hrel ih =>
    intro key v w hv hw
    cases key with
    | nil =>
      cases hv
      cases hw
      exact hrel
    | cons nibble key => exact ih _ hv hw

/-! ## Decoding -/

/-- Two indices that have no two nodes under one hash. -/
def Consistent (nodes nodes' : NodeIndex) : Prop :=
  ∀ hash node node', nodes hash = some node → nodes' hash = some node' → node = node'

section Decode

variable {nodes nodes' : NodeIndex} (hn : Consistent nodes nodes')
include hn

variable {decodeNode decodeNode' : Bytes → Outcome (ChildRef T)}

theorem decodeHashRef_agree (h : ∀ enc, Concur (Agree R) (decodeNode enc) (decodeNode' enc)) (hash : Bytes32) :
    Concur (Agree R) (decodeHashRef nodes decodeNode hash) (decodeHashRef nodes' decodeNode' hash) := by
  unfold decodeHashRef
  refine .ite (fun _ => .ok .null) fun _ => ?_
  cases hleft : nodes hash with
  | none =>
    rintro a b ⟨⟩ _
    exact .stubLeft hash b
  | some node =>
    cases hright : nodes' hash with
    | none =>
      rintro a b _ ⟨⟩
      exact .stubRight a hash
    | some node' =>
      obtain rfl := hn hash node node' hleft hright
      exact .bind_same fun p => .ite (fun _ => .error) fun _ => h p.1

theorem decodeChildRef_agree (h : ∀ enc, Concur (Agree R) (decodeNode enc) (decodeNode' enc)) (ty : RlpType)
    (enc : Bytes) :
    Concur (Agree R) (decodeChildRef nodes decodeNode ty enc) (decodeChildRef nodes' decodeNode' ty enc) := by
  cases ty with
  | list => exact .ite (fun _ => .error) fun _ => h enc
  | string =>
    exact .ite (fun _ => .ok .null) fun _ => .ite (fun _ => .error) fun _ =>
      Concur.ite (fun _ => .error) fun _ => decodeHashRef_agree hn h _

end Decode

section Values

variable {decodeValue decodeValue' : Bytes → Outcome T} (hv : ∀ enc, Concur R (decodeValue enc) (decodeValue' enc))

theorem agree_getD {cs ds : List (ChildRef T)} (h : List.Forall₂ (Agree R) cs ds) (i : Nat) :
    Agree R (cs.getD i .null) (ds.getD i .null) := by
  induction h generalizing i with
  | nil => exact .null
  | cons hcd _ ih =>
    cases i with
    | zero => exact hcd
    | succ i => exact ih i

theorem decodeChildren_agree {decodeChild decodeChild' : RlpType → Bytes → Outcome (ChildRef T)}
    (h : ∀ ty enc, Concur (Agree R) (decodeChild ty enc) (decodeChild' ty enc)) (n : Nat) (enc : Bytes) :
    Concur (fun x y => List.Forall₂ (Agree R) x.1 y.1 ∧ x.2 = y.2) (decodeChildren decodeChild n enc)
      (decodeChildren decodeChild' n enc) := by
  induction n generalizing enc with
  | zero => exact .ok ⟨.nil, rfl⟩
  | succ n ih =>
    refine .bind_same fun item => (h item.1 item.2.1).bind fun c d hcd => ?_
    refine (ih item.2.2).bind fun x y hxy => .ok ⟨.cons hcd hxy.1, hxy.2⟩

include hv

theorem decodeBranchValue_agree (v : Bytes) :
    Concur (Option.Rel R) (decodeBranchValue decodeValue v) (decodeBranchValue decodeValue' v) :=
  Concur.ite (fun _ => .ok .none) fun _ => (hv v).bind fun _ _ h => .ok (.some h)

variable {decodeChild decodeChild' : Nat → RlpType → Bytes → Outcome (ChildRef T)}

theorem decodeShortNode_agree
    (h : ∀ size ty enc, Concur (Agree R) (decodeChild size ty enc) (decodeChild' size ty enc)) (pathSize : Nat)
    (key value : RlpType × Bytes) :
    Concur (Agree R) (decodeShortNode decodeValue decodeChild pathSize key value)
      (decodeShortNode decodeValue' decodeChild' pathSize key value) := by
  refine .ite (fun _ => .error) fun _ => .bind_same fun p => ?_
  refine .ite (fun _ => .error) fun _ => .ite (fun _ => .error) fun _ => Concur.ite (fun _ => ?_) fun _ => ?_
  · exact .ite (fun _ => .error) fun _ => (hv value.2).bind fun _ _ hvw => .ok (.leaf _ hvw)
  · exact (h _ _ _).bind fun _ _ hcd => .ok (.extension _ hcd)

theorem decodeBranch_agree (h : ∀ size ty enc, Concur (Agree R) (decodeChild size ty enc) (decodeChild' size ty enc))
    (pathSize : Nat) (enc : Bytes) :
    Concur (Agree R) (decodeBranch decodeValue decodeChild pathSize enc)
      (decodeBranch decodeValue' decodeChild' pathSize enc) := by
  refine .ite (fun _ => .error) fun _ => ?_
  refine (decodeChildren_agree (h _) 16 enc).bind ?_
  rintro ⟨cs, rest⟩ ⟨ds, rest'⟩ ⟨hchildren, hrest⟩
  obtain rfl : rest = rest' := hrest
  refine .bind_same fun p => (decodeBranchValue_agree hv p.1).bind fun v w hvw => ?_
  exact .ite (fun _ => .error) fun _ => .ok (.branch (fun i => agree_getD hchildren i) hvw)

variable {nodes nodes' : NodeIndex} (hn : Consistent nodes nodes')
include hn

theorem decodePartialNode_agree (levels pathSize : Nat) (enc : Bytes) :
    Concur (Agree R) (decodePartialNode nodes decodeValue levels pathSize enc)
      (decodePartialNode nodes' decodeValue' levels pathSize enc) := by
  induction levels generalizing pathSize enc with
  | zero => exact .error
  | succ levels ih =>
    have hchild := fun size => decodeChildRef_agree hn (ih size)
    refine .ite (fun _ => .error) fun _ => .bind_same fun key => .bind_same fun value => ?_
    exact .ite (fun _ => decodeShortNode_agree hv hchild pathSize _ _)
      fun _ => decodeBranch_agree hv hchild pathSize enc

theorem decodeTrie_agree (root : Bytes32) :
    Concur (Agree R) (decodeTrie nodes decodeValue root) (decodeTrie nodes' decodeValue' root) :=
  decodeHashRef_agree hn (decodePartialNode_agree hv hn 65 0) root

end Values

/-- Account leaves with one account and storage tries that agree. -/
def AccountLeafValue.Agrees (x y : AccountLeafValue) : Prop := x.account = y.account ∧ Agree Eq x.storage y.storage

theorem decodeAccountValue_agree {nodes nodes' : NodeIndex} (hn : Consistent nodes nodes') (enc : Bytes) :
    Concur AccountLeafValue.Agrees (decodeAccountValue nodes enc) (decodeAccountValue nodes' enc) := by
  refine .bind_same fun p => .ite (fun _ => .error) fun _ => Concur.ite (fun _ => .ok ⟨rfl, .null⟩) fun _ => ?_
  exact (decodeTrie_agree (fun enc => .same (decodeStorageValue enc)) hn _).bind fun c d hcd => .ok ⟨rfl, hcd⟩

/-! ## Witnesses -/

section Witness

variable {keccak256 : Bytes → Bytes32}

theorem indexByHash_consistent {items items' : List Bytes}
    (h : ∀ p ∈ items, ∀ q ∈ items', keccak256 p = keccak256 q → p = q) :
    Consistent (indexByHash keccak256 items) (indexByHash keccak256 items') := by
  intro hash p q hp hq
  unfold indexByHash at hp hq
  have hp' : keccak256 p = hash := by simpa using List.find?_some hp
  have hq' : keccak256 q = hash := by simpa using List.find?_some hq
  exact h p (List.mem_of_find?_eq_some hp) q (List.mem_of_find?_eq_some hq) (hp'.trans hq'.symm)

/-- The nodes a witness gives. -/
def witnessNodes (encodedNodes : Bytes) : List Bytes := (witnessItems encodedNodes).toOption.getD []

/-- A database that was built has the trie of its witness's nodes. -/
theorem fromWitness_root {root : Bytes32} {encodedNodes encodedCodes : Bytes} {db : PartialTrieDb}
    (h : fromWitness keccak256 root encodedNodes encodedCodes = .ok db) :
    decodeTrie (indexByHash keccak256 (witnessNodes encodedNodes))
      (decodeAccountValue (indexByHash keccak256 (witnessNodes encodedNodes))) root = .ok db.root := by
  unfold fromWitness at h
  unfold witnessNodes
  cases hnodes : witnessItems encodedNodes with
  | error e => simp [hnodes, tried, bind, Except.bind, Except.mapError] at h
  | ok nodes =>
    cases hcodes : parseCodes encodedCodes.length encodedCodes with
    | error e => simp [hnodes, hcodes, tried, bind, Except.bind, Except.mapError] at h
    | ok codes =>
      simp only [hnodes, hcodes, tried, bind, Except.bind, Except.mapError] at h
      split at h
      · cases h
      rename_i hroot
      cases h
      exact hroot

/-- The hash never takes two different nodes of the two witnesses to one value. Then, if both build a
database for the root, every account and every slot that aborts in neither reads the same in both. -/
theorem witnesses_read_alike {root : Bytes32} {nodes nodes' codes codes' : Bytes} {db db' : PartialTrieDb}
    (hinj : ∀ p ∈ witnessNodes nodes, ∀ q ∈ witnessNodes nodes', keccak256 p = keccak256 q → p = q)
    (h : fromWitness keccak256 root nodes codes = .ok db) (h' : fromWitness keccak256 root nodes' codes' = .ok db') :
    (∀ addr x y, db.readAccount keccak256 addr = some x → db'.readAccount keccak256 addr = some y → x = y) ∧
    ∀ addr slot x y, db.readStorage keccak256 addr slot = some x →
      db'.readStorage keccak256 addr slot = some y → x = y := by
  have hn := indexByHash_consistent hinj
  have hagr : Agree AccountLeafValue.Agrees db.root db'.root :=
    decodeTrie_agree (decodeAccountValue_agree hn) hn root _ _ (fromWitness_root h) (fromWitness_root h')
  constructor
  · intro addr x y hx hy
    obtain ⟨v, hv, hvx⟩ := bind_eq_some_iff.mp hx
    obtain ⟨w, hw, hwy⟩ := bind_eq_some_iff.mp hy
    cases hvx
    cases hwy
    cases hagr.trieLookup hv hw with
    | none => rfl
    | some hvw => exact congrArg some hvw.1
  · intro addr slot x y hx hy
    obtain ⟨v, hv, hvx⟩ := bind_eq_some_iff.mp hx
    obtain ⟨w, hw, hwy⟩ := bind_eq_some_iff.mp hy
    cases hagr.trieLookup hv hw with
    | none =>
      cases hvx
      cases hwy
      rfl
    | some hvw =>
      obtain ⟨s, hs, hsx⟩ := bind_eq_some_iff.mp hvx
      obtain ⟨t, ht, hty⟩ := bind_eq_some_iff.mp hwy
      cases hsx
      cases hty
      cases hvw.2.trieLookup hs ht with
      | none => rfl
      | some hst => exact hst

theorem ok_of_toOption {α : Type} {x : Outcome α} {a : α} (h : x.toOption = some a) : x = .ok a := by
  cases x with
  | error e => cases h
  | ok b =>
    cases h
    rfl

/-- The first 32 bytes, in place of a hash. -/
def sampleHash (bs : Bytes) : Bytes32 := BitVec.ofNat 256 (ofBigEndian ((bs ++ List.replicate 32 0).take 32))

/-- A leaf with the account of address 1, which has a balance of 5. -/
def sampleNode : Bytes :=
  [0xf8, 0x6a, 0xa1, 0x20] ++ toBigEndian 20 1 ++ List.replicate 12 0 ++
    [0xb8, 0x46, 0xf8, 0x44, 0x80, 0x05, 0xa0] ++ toBigEndian 32 nullRoot.toNat ++
    [0xa0] ++ toBigEndian 32 nullHash.toNat

/-- A witness with that leaf, and one that has a useless node as well. -/
theorem witnesses_read_alike_leaf : ∃ db db' : PartialTrieDb,
    fromWitness sampleHash (sampleHash sampleNode) ([0xb8, 0x6c] ++ sampleNode) [] = .ok db ∧
    fromWitness sampleHash (sampleHash sampleNode) ([0x05, 0xb8, 0x6c] ++ sampleNode) [] = .ok db' ∧
    db.readAccount sampleHash 1 = some (some { balance := 5 }) ∧
    ∀ addr x y, db.readAccount sampleHash addr = some x → db'.readAccount sampleHash addr = some y → x = y := by
  have hleft : (fromWitness sampleHash (sampleHash sampleNode) ([0xb8, 0x6c] ++ sampleNode) []).toOption.map
      (PartialTrieDb.readAccount sampleHash · 1) = some (some (some { balance := 5 })) := by decide +kernel
  have hright : (fromWitness sampleHash (sampleHash sampleNode) ([0x05, 0xb8, 0x6c] ++ sampleNode)
      []).toOption.isSome := by decide +kernel
  obtain ⟨db, hdb, hread⟩ := map_eq_some_iff.mp hleft
  obtain ⟨db', hdb'⟩ := isSome_iff_exists.mp hright
  have h := ok_of_toOption hdb
  have h' := ok_of_toOption hdb'
  exact ⟨db, db', h, h', hread, (witnesses_read_alike (by decide +kernel) h h').1⟩

end Witness

end MonadExecution.Ethereum.PartialTrie
