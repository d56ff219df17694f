import MonadExecution.Ethereum.RlpTree
import MonadExecution.Mpt.CompactEncode
import MonadExecution.Mpt.CopyTrie

/-!
# The root of a trie with keys of different lengths

`create_new_trie_` builds a trie from a list of updates, and `VarLenMerkleCompute` and
`RootVarLenMerkleCompute` compute its hashes on the way up. One node of this trie carries a path, children
and a value; the Yellow Paper has leaves, extensions and branches instead. The root is the one of the Yellow
Paper as long as no node has a path, children and a value: the path of such a node gets the flag of a leaf.

A key is kept as what is left of it behind the prefix index, and as a `NibblesView` it has at most 255
nibbles. The order of updates is not looked at. The
buffers are large enough, so that `encode_string` and `encode_list` write what `encode_string2` and
`encode_list2` return.
-/

namespace MonadExecution.Mpt.VarLen

open List Nat

open Ethereum (Bytes)
open Ethereum.Rlp (Item encodeString2 encodeList2)

local instance neZeroSixteen : NeZero 16 := ⟨by decide⟩

/-- `keccak256`, of which only the size of the hashes is known. -/
abbrev Keccak := Bytes → {h : Bytes // h.length = 32}

/-- A value of the map, whose size fits into a node. -/
structure Value where
  bytes : Bytes
  ne_nil : bytes ≠ []
  short : bytes.length < 2 ^ 32
  deriving DecidableEq

abbrev Update := List Nibble × Value

/-- A list of updates with different keys. -/
abbrev Distinct (updates : List Update) : Prop := updates.Pairwise fun u v => u.1 ≠ v.1

/-! ## Requests -/

/-- The updates of one branch after `split_into_sublists`. -/
def sublist (updates : List Update) (branch : Nibble) : List Update :=
  updates.filterMap fun u =>
    match u.1 with
    | [] => none
    | b :: key => if b = branch then some (key, u.2) else none

/-- The update whose key ends at the prefix index. -/
def optLeaf (updates : List Update) : Option Value := (updates.find? fun u => u.1.isEmpty).map Prod.snd

/-- The bits of the mask. -/
def branches (updates : List Update) : List Nibble := (List.finRange 16).filter fun b => !(sublist updates b).isEmpty

/-! ## The Yellow Paper -/

/-- Two nibbles to a byte. -/
def pack : List Nibble → Bytes
  | a :: b :: nibbles => UInt8.ofNat (16 * a.val + b.val) :: pack nibbles
  | _ => []

/-- `HP`, the hex-prefix encoding. -/
def hexPrefix (x : List Nibble) (t : Bool) : Bytes :=
  let f := if t then 2 else 0
  if x.length % 2 = 0 then UInt8.ofNat (16 * f) :: pack x
  else UInt8.ofNat (16 * (f + 1) + (x.headD 0).val) :: pack x.tail

/-- A branch with a path is the branch behind an extension. -/
inductive EthTrie
  | empty
  | leaf (path : List Nibble) (value : Bytes)
  | branch (path : List Nibble) (next : Nibble → EthTrie) (value : Bytes)

def lcp : List Nibble → List Nibble → List Nibble
  | a :: x, b :: y => if a = b then a :: lcp x y else []
  | _, _ => []

/-- The longest prefix that all keys have. -/
def commonPrefix : List (List Nibble) → List Nibble
  | [] => []
  | [x] => x
  | x :: y :: xs => lcp x (commonPrefix (y :: xs))

/-- The pairs, with their keys behind the common prefix. -/
def behind (J : List Update) : List Update := J.map fun u => (u.1.drop (commonPrefix (J.map Prod.fst)).length, u.2)

/-- The value of the key that has ended, or the empty one. -/
def valueOf (J : List Update) : Bytes := (optLeaf J).elim [] Value.bytes

/-- The structural composition `c` of a set of pairs. -/
inductive Composes : List Update → EthTrie → Prop
  | empty : Composes [] .empty
  | leaf (key : List Nibble) (value : Value) : Composes [(key, value)] (.leaf key value.bytes)
  | branch {J : List Update} {next : Nibble → EthTrie} (hJ : 2 ≤ J.length)
      (hnext : ∀ b, Composes (sublist (behind J) b) (next b)) :
      Composes J (.branch (commonPrefix (J.map Prod.fst)) next (valueOf (behind J)))

section Items

variable (keccak : Keccak)

/-- The node composition `n`: an item of fewer than 32 bytes stands for itself, another one is hashed. -/
def cap (i : Item) : Item := if i.encode.length < 32 then i else .string (keccak i.encode).1

def branchItem (next : Nibble → Item) (value : Bytes) : Item :=
  .list ((List.finRange 16).map (fun b => cap keccak (next b)) ++ [.string value])

def EthTrie.item : EthTrie → Item
  | .empty => .string []
  | .leaf path value => .list [.string (hexPrefix path true), .string value]
  | .branch path next value =>
    let branch := branchItem keccak (fun b => (next b).item) value
    if path = [] then branch else .list [.string (hexPrefix path false), cap keccak branch]

end Items

/-! ## The code -/

/-- `NibblesView::data_size` of a path that begins at the nibble `start`. -/
def dataSize (start : Nat) (path : List Nibble) : Nat := if path = [] then 0 else (start % 2 + path.length + 1) / 2

def compactEncode (nibbles : List Nibble) (terminating : Bool) : Bytes :=
  let res : UInt8 := if terminating then 0x20 else 0x00
  if nibbles.length % 2 = 1 then
    (res ||| (0x10 ||| UInt8.ofNat (nibbles.headD 0).val)) :: pack nibbles.tail
  else res :: pack nibbles

def encodeTwoPieces (start : Nat) (path : List Nibble) (second : Bytes) (hasValue : Bool) : Option Bytes :=
  if 32 < dataSize start path ∨ (path = [] ∧ hasValue = false) then none
  else
    let needEncodeSecond := hasValue || decide (32 ≤ second.length)
    some (encodeList2 (encodeString2 (compactEncode path hasValue) ++
      if needEncodeSecond then encodeString2 second else second))

def encodeChild : Option Bytes → Bytes
  | none => [0x80]
  | some data => if data.length < 32 then data else encodeString2 data

/-- The list of `encode_branch` and of `do_compute_node_data_len`. -/
def encodeBranch (childData : List (Option Bytes)) (value : Option Bytes) : Bytes :=
  encodeList2 (childData.flatMap encodeChild ++ match value with
    | some v => if v.isEmpty then [0x80] else encodeString2 v
    | none => [0x80])

structure Node where
  pathNibbleIndexStart : Nat
  path : List Nibble
  childData : List (Option Bytes)
  value : Option Bytes
  data : Bytes

def Node.hasChildren (node : Node) : Bool := node.childData.any Option.isSome

section Compute

variable (keccak : Keccak)

def toNodeReference (rlp : Bytes) : Bytes := if 32 ≤ rlp.length then (keccak rlp).1 else rlp

/-- `VarLenMerkleCompute::compute` -/
def compute (node : Node) : Option Bytes :=
  if !node.hasChildren then do
    let value ← node.value
    let rlp ← encodeTwoPieces node.pathNibbleIndexStart node.path value true
    return toNodeReference keccak rlp
  else if node.path ≠ [] then
    if node.data = [] then none
    else do
      let rlp ← encodeTwoPieces node.pathNibbleIndexStart node.path node.data node.value.isSome
      return toNodeReference keccak rlp
  else some (toNodeReference keccak (encodeBranch node.childData node.value))

/-- The entry of a branch in the list of children: nothing without updates, otherwise what `finalize`
computes for the node. -/
def createChild (create : List Update → Option Node) (updates : List Update) : Option (Option Bytes) :=
  if updates.isEmpty then some none
  else do
    let node ← create updates
    let data ← compute keccak node
    return some data

/-- `create_new_trie_`, after its loop has passed the nibbles of `path`. A node is made where there are two
branches or a leaf, so that it is never merged with its only child. -/
def createNewTrie : (fuel start : Nat) → (path : List Nibble) → List Update → Option Node
  | 0, _, _, _ => none
  | _ + 1, _, _, [] => none
  | _ + 1, start, path, [u] => some ⟨start, path ++ u.1, List.replicate 16 none, some u.2.bytes, []⟩
  | fuel + 1, start, path, u :: u' :: us =>
    match optLeaf (u :: u' :: us), branches (u :: u' :: us) with
    | _, [] => none
    | none, [branch] => createNewTrie fuel start (path ++ [branch]) (sublist (u :: u' :: us) branch)
    | leaf, _ => do
      let childData ← (List.finRange 16).mapM fun b =>
        createChild keccak (createNewTrie fuel (start + path.length + 1) []) (sublist (u :: u' :: us) b)
      let value := leaf.map Value.bytes
      let data := if path = [] then [] else toNodeReference keccak (encodeBranch childData value)
      return ⟨start, path, childData, value, data⟩

def keccakInplaceToRootHash (state : Bytes) : Bytes := if state.length < 32 then (keccak state).1 else state

/-- The reference of the branch, or the value of the leaf. -/
def secondPiece (node : Node) : Option Bytes :=
  if !node.hasChildren then node.value
  else if node.data ≠ [] then some node.data
  else if node.path ≠ [] then none
  else some (toNodeReference keccak (encodeBranch node.childData node.value))

/-- The data of the node over the trie of `updates`, whose own value is empty
(`RootVarLenMerkleCompute::compute_node_data_len`). The view of a longer key fails its assertion. -/
def rootData (updates : List Update) : Option Bytes :=
  if updates.any fun u => decide (255 < u.1.length) then none else
  let create := createNewTrie keccak ((updates.map fun u => u.1.length).sum + 1) 1 []
  match optLeaf updates, branches updates with
  | some _, _ => none
  | none, [] => some []
  | none, [branch] => do
    let node ← create (sublist updates branch)
    let _ ← compute keccak node
    let second ← secondPiece keccak node
    let rlp ← encodeTwoPieces 0 (branch :: node.path) second node.value.isSome
    return keccakInplaceToRootHash keccak (toNodeReference keccak rlp)
  | none, _ => do
    let childData ← (List.finRange 16).mapM fun b => createChild keccak create (sublist updates b)
    return keccakInplaceToRootHash keccak (toNodeReference keccak (encodeBranch childData (some [])))

end Compute

/-- No node has a path, children and a value, and the bytes of every path are at most 32. The trie begins
at the nibble `start` of its keys. -/
def EthTrie.Plain : EthTrie → (start : Nat) → Prop
  | .empty, _ => True
  | .leaf path _, start => dataSize start path ≤ 32
  | .branch path next value, start =>
    (path ≠ [] → dataSize start path ≤ 32 ∧ value = []) ∧ ∀ b, (next b).Plain (start + path.length + 1)

/-- The trie with more nibbles in front. -/
def EthTrie.prepend (nibbles : List Nibble) : EthTrie → EthTrie
  | .empty => .empty
  | .leaf path value => .leaf (nibbles ++ path) value
  | .branch path next value => .branch (nibbles ++ path) next value

/-! ## Lists of updates -/

section Lists

variable {J : List Update} {b : Nibble}

theorem mem_sublist {u : Update} : u ∈ sublist J b ↔ (b :: u.1, u.2) ∈ J := by
  unfold sublist
  rw [mem_filterMap]
  constructor
  · rintro ⟨⟨key, value⟩, hmem, h⟩
    cases key with
    | nil => cases h
    | cons c key =>
      simp only at h
      split at h
      · rename_i hc
        cases h
        rwa [hc] at hmem
      · cases h
  · intro h
    exact ⟨_, h, by simp⟩

theorem sublist_eq_nil : sublist J b = [] ↔ ∀ u ∈ J, u.1.head? ≠ some b := by
  rw [eq_nil_iff_forall_not_mem]
  constructor
  · intro h u hu hhead
    obtain ⟨key, hkey⟩ := head?_eq_some_iff.mp hhead
    exact h (key, u.2) (mem_sublist.mpr (by rwa [← hkey]))
  · intro h u hu
    exact h _ (mem_sublist.mp hu) rfl

theorem mem_branches : b ∈ branches J ↔ ∃ u ∈ J, u.1.head? = some b := by
  have hnil := not_congr (sublist_eq_nil (J := J) (b := b))
  push Not at hnil
  simp [branches, hnil]

theorem optLeaf_eq_none : optLeaf J = none ↔ ∀ u ∈ J, u.1 ≠ [] := by simp [optLeaf]

theorem distinct_sublist (h : Distinct J) : Distinct (sublist J b) := by
  refine h.filterMap _ fun u v huv u' hu v' hv heq => ?_
  obtain ⟨ku, xu⟩ := u
  obtain ⟨kv, xv⟩ := v
  cases ku with
  | nil => cases hu
  | cons c ku =>
    cases kv with
    | nil => cases hv
    | cons d kv =>
      simp only at hu hv
      split at hu
      · split at hv
        · rename_i hc hd
          cases hu
          cases hv
          exact huv (by rw [hc, hd, show ku = kv from heq])
        · cases hv
      · cases hu

/-- All keys go on with the same nibble. -/
theorem eq_map_cons (hleaf : optLeaf J = none) (hb : branches J = [b]) :
    J = (sublist J b).map fun u => (b :: u.1, u.2) := by
  have hall : ∀ u ∈ J, ∃ key, u.1 = b :: key := by
    intro u hu
    cases hkey : u.1 with
    | nil => exact absurd hkey (optLeaf_eq_none.mp hleaf u hu)
    | cons c key =>
      have hc : c ∈ branches J := mem_branches.mpr ⟨u, hu, by rw [hkey]; rfl⟩
      rw [hb, mem_singleton] at hc
      exact ⟨key, by rw [hc]⟩
  clear hleaf hb
  induction J with
  | nil => rfl
  | cons u J ih =>
    obtain ⟨key, hkey⟩ := hall u (by simp)
    have hJ := ih fun v hv => hall v (by simp [hv])
    obtain ⟨k, x⟩ := u
    cases hkey
    have hsub : sublist ((b :: key, x) :: J) b = (key, x) :: sublist J b := by simp [sublist]
    rw [hsub, map_cons, ← hJ]

theorem two_le_length {c : Nibble} {bs : List Nibble} (h : branches J = b :: c :: bs) : 2 ≤ J.length := by
  have hnd : (branches J).Nodup := (nodup_finRange 16).filter _
  have hmem : ∀ d ∈ branches J, ∃ u ∈ J, u.1.head? = some d := fun d hd => mem_branches.mp hd
  rw [h] at hnd hmem
  obtain ⟨u, hu, hub⟩ := hmem b (by simp)
  obtain ⟨v, hv, hvc⟩ := hmem c (by simp)
  by_contra hlt
  obtain ⟨x, hx⟩ : ∃ x, J = [x] := length_eq_one_iff.mp (by have := length_pos_of_mem hu; omega)
  rw [hx, mem_singleton] at hu hv
  rw [hu, ← hv, hvc, Option.some.injEq] at hub
  rw [hub] at hnd
  simp at hnd

end Lists

/-! ## The common prefix -/

variable {p : List Nibble} {keys : List (List Nibble)} {J : List Update}

variable {b : Nibble}

theorem lcp_eq_cons {x y : List Nibble} (h : lcp x y = b :: p) : x.head? = some b ∧ y.head? = some b := by
  cases x with
  | nil => cases h
  | cons a x =>
    cases y with
    | nil => cases h
    | cons c y =>
      simp only [lcp] at h
      split at h
      · rename_i hac
        cases h
        exact ⟨rfl, by rw [hac]; rfl⟩
      · cases h

theorem head_of_commonPrefix (h : commonPrefix keys = b :: p) : ∀ x ∈ keys, x.head? = some b := by
  induction keys generalizing p with
  | nil => cases h
  | cons x keys ih =>
    cases keys with
    | nil =>
      intro y hy
      rw [mem_singleton.mp hy, show x = b :: p from h]
      rfl
    | cons y keys =>
      obtain ⟨hx, hy⟩ := lcp_eq_cons h
      obtain ⟨q, hq⟩ := head?_eq_some_iff.mp hy
      intro z hz
      rcases mem_cons.mp hz with rfl | hz
      · exact hx
      · exact ih hq z hz

theorem commonPrefix_cons (hkeys : keys ≠ []) (b : Nibble) :
    commonPrefix (keys.map (b :: ·)) = b :: commonPrefix keys := by
  induction keys with
  | nil => exact absurd rfl hkeys
  | cons x keys ih =>
    cases keys with
    | nil => rfl
    | cons y keys =>
      have hrest := ih (by simp)
      simp only [map_cons] at hrest ⊢
      simp only [commonPrefix, hrest, lcp, if_true]

theorem filter_eq_singleton : ∀ b : Nibble, (finRange 16).filter (fun c => decide (c = b)) = [b] := by decide

/-- There is no common prefix at two branches or a leaf. -/
theorem commonPrefix_eq_nil (hJ : J ≠ []) (h : ¬ (optLeaf J = none ∧ ∃ b, branches J = [b])) :
    commonPrefix (J.map Prod.fst) = [] := by
  cases hp : commonPrefix (J.map Prod.fst) with
  | nil => rfl
  | cons b p =>
    have hhead : ∀ u ∈ J, u.1.head? = some b := fun u hu => head_of_commonPrefix hp u.1 (mem_map_of_mem hu)
    refine absurd ⟨optLeaf_eq_none.mpr fun u hu hnil => ?_, b, ?_⟩ h
    · have hu := hhead u hu
      rw [hnil] at hu
      cases hu
    obtain ⟨u, hu⟩ := exists_mem_of_ne_nil J hJ
    have hbits : ∀ c, (!(sublist J c).isEmpty) = decide (c = b) := by
      intro c
      have hc := sublist_eq_nil (J := J) (b := c)
      by_cases hcb : c = b
      · have hne : sublist J c ≠ [] := fun hnil => hc.mp hnil u hu (by rw [hcb]; exact hhead u hu)
        simp [hcb ▸ hne, hcb]
      · have hnil : sublist J c = [] := hc.mpr fun v hv hvc =>
          hcb (Option.some.inj (hvc.symm.trans (hhead v hv)))
        simp [hnil, hcb]
    unfold branches
    rw [filter_congr fun c _ => hbits c]
    exact filter_eq_singleton b

theorem behind_of_nil (h : commonPrefix (J.map Prod.fst) = []) : behind J = J := by simp [behind, h]

theorem composes_cons {t : EthTrie} (h : Composes J t) (b : Nibble) :
    Composes (J.map fun u => (b :: u.1, u.2)) (t.prepend [b]) := by
  cases h with
  | empty => exact .empty
  | leaf key value => exact .leaf (b :: key) value
  | branch hJ hnext =>
    have hkeys : (J.map Prod.fst) ≠ [] := by
      intro hnil
      rw [map_eq_nil_iff.mp hnil] at hJ
      cases hJ
    have hmap : (J.map fun u => (b :: u.1, u.2)).map Prod.fst = (J.map Prod.fst).map (b :: ·) := by
      simp [map_map, Function.comp_def]
    have hcommon : commonPrefix ((J.map fun u => (b :: u.1, u.2)).map Prod.fst) =
        b :: commonPrefix (J.map Prod.fst) := by rw [hmap, commonPrefix_cons hkeys]
    have hbh : behind (J.map fun u => (b :: u.1, u.2)) = behind J := by
      unfold behind
      rw [hcommon, map_map]
      simp [Function.comp_def]
    have hlen : 2 ≤ (J.map fun u => ((b :: u.1, u.2) : Update)).length := by rwa [length_map]
    have hbr := Composes.branch hlen (hbh ▸ hnext)
    rwa [hcommon, hbh] at hbr

/-! ## Encodings -/

theorem compactEncode_eq (x : List Nibble) (t : Bool) : compactEncode x t = hexPrefix x t := by
  have hfst : ∀ (n : Nibble) (t : Bool), ((if t then 0x20 else 0x00 : UInt8) ||| (0x10 ||| UInt8.ofNat n.val)) =
      UInt8.ofNat (16 * ((if t then 2 else 0) + 1) + n.val) := by decide
  unfold compactEncode hexPrefix
  rcases mod_two_eq_zero_or_one x.length with h | h
  · cases t <;> simp [h]
  · simp only [h, if_true, hfst, one_ne_zero, if_false]

/-- Bytes are read back as the nibbles that they were made of. -/
theorem nibblesOf_pack : ∀ x : List Nibble, x.length % 2 = 0 →
    Ethereum.PartialTrie.nibblesOf (pack x) = x.map fun n => UInt8.ofNat n.val
  | [], _ => rfl
  | [_], h => absurd h (by simp)
  | a :: c :: x, h => by
    have hbyte : ∀ a c : Nibble, UInt8.ofNat (16 * a.val + c.val) >>> 4 = UInt8.ofNat a.val ∧
        UInt8.ofNat (16 * a.val + c.val) &&& 0xF = UInt8.ofNat c.val := by decide +kernel
    have heven : x.length % 2 = 0 := by
      rw [length_cons, length_cons] at h
      omega
    have hrest := nibblesOf_pack x heven
    obtain ⟨hhigh, hlow⟩ := hbyte a c
    show UInt8.ofNat (16 * a.val + c.val) >>> 4 :: (UInt8.ofNat (16 * a.val + c.val) &&& 0xF) ::
      Ethereum.PartialTrie.nibblesOf (pack x) = _
    rw [hhigh, hlow, hrest]
    rfl

open CompactEncode (Buffer NibblesView firstByte nibblesOf_injective) in
/-- What is written into the buffer for a view of the nibbles. -/
theorem compactEncode_view (res : Buffer) (path : NibblesView) {x : List Nibble} {t : Bool}
    (hx : path.nibbles = x.map fun n => UInt8.ofNat n.val) (h : x ≠ [] ∨ t = true) :
    path.compactEncode res t = some (compactEncode x t) := by
  have hlen : path.nibbleSize = x.length := by rw [← path.length_nibbles, hx, length_map]
  have hne : path.nibbleSize ≠ 0 ∨ t = true := by rwa [hlen, Ne, length_eq_zero_iff]
  obtain ⟨rest, henc, hrest⟩ := path.compactEncode_spec res hne
  rw [henc]
  rw [hx, hlen, ← map_drop] at hrest
  unfold compactEncode
  rcases mod_two_eq_zero_or_one x.length with hpar | hpar
  · rw [hpar, drop_zero, ← nibblesOf_pack x hpar] at hrest
    simp [hlen, hpar, firstByte, nibblesOf_injective hrest]
  · cases x with
    | nil => cases hpar
    | cons a x =>
      have heven : x.length % 2 = 0 := by
        rw [length_cons] at hpar
        omega
      have hsplit := path.nibbles_eq
      rw [hx, hlen, hpar] at hsplit
      have hhead : UInt8.ofNat a.val = path.get 0 := (cons.inj hsplit).1
      rw [hpar, drop_succ_cons, drop_zero, ← nibblesOf_pack x heven] at hrest
      rw [hlen, hpar, nibblesOf_injective hrest, ← hhead]
      simp [firstByte]

theorem encode_pair (a c : Item) : (Item.list [a, c]).encode = encodeList2 (a.encode ++ c.encode) := by
  simp [Item.encode, Item.encodeAll]

section Encodings

variable {keccak : Keccak}

theorem encode_cap (i : Item) : (cap keccak i).encode = encodeChild (some (toNodeReference keccak i.encode)) := by
  unfold cap toNodeReference
  by_cases h : i.encode.length < 32
  · rw [if_pos h, if_neg (by omega)]
    simp only [encodeChild, if_pos h]
  · have hlen := (keccak i.encode).2
    rw [if_neg h, if_pos (by omega)]
    simp only [encodeChild, hlen, lt_irrefl, if_false, Item.encode]

theorem toNodeReference_ne_nil (i : Item) : toNodeReference keccak i.encode ≠ [] := by
  unfold toNodeReference
  split
  · intro hnil
    have hlen := (keccak i.encode).2
    rw [hnil] at hlen
    cases hlen
  · exact i.encode_ne_nil

theorem keccakInplace_toNodeReference (rlp : Bytes) :
    keccakInplaceToRootHash keccak (toNodeReference keccak rlp) = (keccak rlp).1 := by
  unfold keccakInplaceToRootHash toNodeReference
  by_cases h : 32 ≤ rlp.length
  · rw [if_pos h, if_neg (by rw [(keccak rlp).2]; omega)]
  · rw [if_neg h, if_pos (by omega)]

variable {path : List Nibble}

variable {start : Nat}

variable (keccak) in
theorem encodeTwoPieces_leaf (h : dataSize start path ≤ 32) (value : Bytes) :
    encodeTwoPieces start path value true = some ((EthTrie.leaf path value).item keccak).encode := by
  unfold encodeTwoPieces EthTrie.item
  rw [if_neg (by simp; omega), encode_pair, compactEncode_eq]
  rfl

variable (keccak) in
theorem encodeTwoPieces_extension (h : dataSize start path ≤ 32) (hpath : path ≠ []) (branch : Item) :
    encodeTwoPieces start path (toNodeReference keccak branch.encode) false =
      some (Item.list [.string (hexPrefix path false), cap keccak branch]).encode := by
  unfold encodeTwoPieces
  rw [if_neg (by simp [hpath]; omega), encode_pair, compactEncode_eq, encode_cap]
  by_cases hlen : (toNodeReference keccak branch.encode).length < 32
  · simp [encodeChild, hlen, Item.encode, Nat.not_le.mpr hlen]
  · simp [encodeChild, hlen, Item.encode, Nat.not_lt.mp hlen]

theorem encodeBranch_eq {childData : List (Option Bytes)} (next : Nibble → Item) {value : Bytes}
    (h : childData.flatMap encodeChild = (finRange 16).flatMap fun b => (cap keccak (next b)).encode)
    {v : Option Bytes} (hv : v.getD [] = value) :
    encodeBranch childData v = (branchItem keccak next value).encode := by
  have hemp : encodeString2 [] = [0x80] := by decide
  unfold encodeBranch branchItem
  rw [Item.encode, Item.encodeAll_eq, flatMap_append, flatMap_map, h]
  congr 2
  cases v with
  | none =>
    cases hv
    simp [Item.encode, hemp]
  | some v =>
    cases hv
    cases v with
    | nil => simp [Item.encode, hemp]
    | cons a v => simp [Item.encode]

end Encodings

/-! ## Nodes -/

/-- The node that is made for a trie. -/
inductive Built (keccak : Keccak) (start : Nat) : Node → EthTrie → Prop
  | leaf (path : List Nibble) (value : Bytes) :
    Built keccak start ⟨start, path, List.replicate 16 none, some value, []⟩ (.leaf path value)
  | branch {path : List Nibble} {childData : List (Option Bytes)} {next : Nibble → EthTrie} {v : Option Bytes}
      {value data : Bytes} (hany : childData.any Option.isSome = true)
      (hchild : childData.flatMap encodeChild =
        (List.finRange 16).flatMap fun b => (cap keccak ((next b).item keccak)).encode)
      (hv : v.getD [] = value) (hnone : value = [] → v = none)
      (hdata : data = if path = [] then [] else
        toNodeReference keccak (branchItem keccak (fun b => (next b).item keccak) value).encode) :
    Built keccak start ⟨start, path, childData, v, data⟩ (.branch path next value)

section Nodes

variable {keccak : Keccak}

variable {t : EthTrie}

theorem Built.compute_eq {start : Nat} {node : Node} (h : Built keccak start node t) (hpl : t.Plain start) :
    compute keccak node = some (toNodeReference keccak (t.item keccak).encode) := by
  cases h with
  | leaf path value =>
    have hrlp := encodeTwoPieces_leaf keccak hpl value
    simp [compute, Node.hasChildren, hrlp]
  | @branch path childData next v value data hany hchild hv hnone hdata =>
    have hbr := encodeBranch_eq (fun b => (next b).item keccak) hchild hv
    by_cases hpath : path = []
    · simp [compute, Node.hasChildren, hany, hpath, EthTrie.item, hbr]
    obtain ⟨hsize, hval⟩ := hpl.1 hpath
    have hrlp := encodeTwoPieces_extension keccak hsize hpath
      (branchItem keccak (fun b => (next b).item keccak) value)
    simp [compute, Node.hasChildren, hany, hpath, EthTrie.item, hdata, toNodeReference_ne_nil, hnone hval, hrlp]

/-- The list of children, when each of them is made. -/
theorem mapM_children {f : Nibble → Option (Option Bytes)} {d : Nibble → Option Bytes}
    (h : ∀ b, f b = some (d b)) : (finRange 16).mapM f = some ((finRange 16).map d) := by
  rw [show f = fun b => pure (d b) from funext h, mapM_pure]
  rfl

theorem prepend_nil (t : EthTrie) : t.prepend [] = t := by cases t <;> rfl

theorem prepend_prepend (t : EthTrie) (path : List Nibble) (b : Nibble) :
    (t.prepend [b]).prepend path = t.prepend (path ++ [b]) := by cases t <;> simp [EthTrie.prepend]

/-- The node of the trie that the Yellow Paper composes is made. -/
def Makes (keccak : Keccak) (fuel : Nat) (J : List Update) (t : EthTrie) : Prop :=
  Composes J t ∧ ∀ start path, (t.prepend path).Plain start →
    ∃ node, createNewTrie keccak fuel start path J = some node ∧ Built keccak start node (t.prepend path)

/-- A branch without updates has no child. -/
def Child (keccak : Keccak) (fuel : Nat) (J : List Update) (t : EthTrie) : Prop :=
  J = [] ∧ t = .empty ∨ J ≠ [] ∧ Makes keccak fuel J t

variable {fuel start : Nat} {J : List Update} {next : Nibble → EthTrie}

/-- A child and its place in the encoding of the branch. -/
theorem createChild_eq (h : Child keccak fuel J t) (hpl : t.Plain start) :
    ∃ d, createChild keccak (createNewTrie keccak fuel start []) J = some d ∧ d.isSome = !J.isEmpty ∧
      encodeChild d = (cap keccak (t.item keccak)).encode := by
  rcases h with ⟨rfl, rfl⟩ | ⟨hJ, -, hmakes⟩
  · refine ⟨none, rfl, rfl, ?_⟩
    have hemp : (Item.string []).encode = [0x80] := by decide
    simp [encode_cap, EthTrie.item, hemp, encodeChild, toNodeReference]
  · obtain ⟨node, hnode, hbuilt⟩ := hmakes start [] (by rwa [prepend_nil])
    rw [prepend_nil] at hbuilt
    refine ⟨_, ?_, ?_, (encode_cap _).symm⟩
    · simp [createChild, hJ, hnode, hbuilt.compute_eq hpl]
    · simp [hJ]

/-- The children of a node at two branches or a leaf. -/
theorem children_eq (hnext : ∀ b, Child keccak fuel (sublist J b) (next b)) (hpl : ∀ b, (next b).Plain start) :
    ∃ childData, ((finRange 16).mapM fun b =>
        createChild keccak (createNewTrie keccak fuel start []) (sublist J b)) = some childData ∧
      childData.any Option.isSome = !(branches J).isEmpty ∧
      childData.flatMap encodeChild = (finRange 16).flatMap fun b => (cap keccak ((next b).item keccak)).encode := by
  choose d hd hsome henc using fun b => createChild_eq (hnext b) (hpl b)
  refine ⟨_, mapM_children hd, ?_, ?_⟩
  · rw [any_map, Bool.eq_iff_iff]
    simp [branches, hsome]
  · rw [flatMap_map]
    simp only [henc]

theorem composes_branch (hJ : 2 ≤ J.length) (hcommon : commonPrefix (J.map Prod.fst) = [])
    (hnext : ∀ b, Composes (sublist J b) (next b)) : Composes J (.branch [] next (valueOf J)) := by
  have hbr := Composes.branch hJ ((behind_of_nil hcommon).symm ▸ hnext)
  rwa [hcommon, behind_of_nil hcommon] at hbr

theorem Composes.unique (h : Composes J t) : ∀ t', Composes J t' → t = t' := by
  induction h with
  | empty =>
    intro t' h'
    cases h' with
    | empty => rfl
    | branch hJ => exact absurd hJ (by decide)
  | leaf key value =>
    intro t' h'
    cases h' with
    | leaf => rfl
    | branch hJ => exact absurd hJ (by simp)
  | branch hJ _ ih =>
    intro t' h'
    cases h' with
    | empty => exact absurd hJ (by decide)
    | leaf => exact absurd hJ (by simp)
    | branch _ hnext => rw [funext fun b => ih b _ (hnext b)]

section Creating

variable {path : List Nibble} {u u' : Update} {us : List Update}

theorem createNewTrie_loop {b : Nibble} (hleaf : optLeaf (u :: u' :: us) = none) (hb : branches (u :: u' :: us) = [b]) :
    createNewTrie keccak (fuel + 1) start path (u :: u' :: us) =
      createNewTrie keccak fuel start (path ++ [b]) (sublist (u :: u' :: us) b) := by
  simp only [createNewTrie, hleaf, hb]

theorem createNewTrie_node (hstop : ¬ (optLeaf (u :: u' :: us) = none ∧ ∃ b, branches (u :: u' :: us) = [b]))
    (hne : branches (u :: u' :: us) ≠ []) {childData : List (Option Bytes)}
    (hchild : ((finRange 16).mapM fun b =>
      createChild keccak (createNewTrie keccak fuel (start + path.length + 1) []) (sublist (u :: u' :: us) b)) =
        some childData) :
    createNewTrie keccak (fuel + 1) start path (u :: u' :: us) =
      some ⟨start, path, childData, (optLeaf (u :: u' :: us)).map Value.bytes, if path = [] then [] else
        toNodeReference keccak (encodeBranch childData ((optLeaf (u :: u' :: us)).map Value.bytes))⟩ := by
  cases hb : branches (u :: u' :: us) with
  | nil => exact absurd hb hne
  | cons b bs =>
    cases hleaf : optLeaf (u :: u' :: us) with
    | some v => simp [createNewTrie, hleaf, hb, hchild]
    | none =>
      cases bs with
      | nil => exact absurd ⟨hleaf, b, hb⟩ hstop
      | cons c bs => simp [createNewTrie, hleaf, hb, hchild]

end Creating

theorem value_getD (J : List Update) : ((optLeaf J).map Value.bytes).getD [] = valueOf J := by
  unfold valueOf
  cases optLeaf J <;> rfl

theorem value_eq_none (h : valueOf J = []) : (optLeaf J).map Value.bytes = none := by
  unfold valueOf at h
  cases hleaf : optLeaf J with
  | none => rfl
  | some v =>
    rw [hleaf] at h
    exact absurd h v.ne_nil

/-- The tries of the branches, if there is one wherever there are updates. -/
theorem exists_next (hsub : ∀ b, sublist J b ≠ [] → ∃ t, Makes keccak fuel (sublist J b) t) :
    ∃ next : Nibble → EthTrie, ∀ b, Child keccak fuel (sublist J b) (next b) := by
  have hchoice : ∀ b, ∃ t, Child keccak fuel (sublist J b) t := by
    intro b
    by_cases hb : sublist J b = []
    · exact ⟨.empty, .inl ⟨hb, rfl⟩⟩
    obtain ⟨t, ht⟩ := hsub b hb
    exact ⟨t, .inr ⟨hb, ht⟩⟩
  choose next hnext using hchoice
  exact ⟨next, hnext⟩

theorem Child.composes (h : Child keccak fuel J t) : Composes J t := by
  rcases h with ⟨rfl, rfl⟩ | ⟨-, ht⟩
  · exact .empty
  · exact ht.1

/-- Two different keys do not both end here. -/
theorem branches_ne_nil {u u' : Update} (h : u.1 ≠ u'.1) (us : List Update) : branches (u :: u' :: us) ≠ [] := by
  intro hnil
  have hall : ∀ v ∈ u :: u' :: us, v.1 = [] := by
    intro v hv
    cases hkey : v.1 with
    | nil => rfl
    | cons b key =>
      have hb : b ∈ branches (u :: u' :: us) := mem_branches.mpr ⟨v, hv, by rw [hkey]; rfl⟩
      rw [hnil] at hb
      cases hb
  exact h (by rw [hall u (by simp), hall u' (by simp)])

theorem makes (fuel : Nat) (J : List Update) (hJ : J ≠ []) (hdst : Distinct J)
    (hfuel : ∀ u ∈ J, u.1.length < fuel) : ∃ t, Makes keccak fuel J t := by
  -- every nibble of the keys takes one unit of fuel, in the loop as well as at a branch
  induction fuel generalizing J with
  | zero =>
    obtain ⟨u, hu⟩ := exists_mem_of_ne_nil J hJ
    exact absurd (hfuel u hu) (not_lt_zero _)
  | succ fuel ih =>
    have hsub : ∀ b, sublist J b ≠ [] → ∃ t, Makes keccak fuel (sublist J b) t := fun b hb =>
      ih _ hb (distinct_sublist hdst) fun u hu => lt_of_succ_lt_succ (hfuel _ (mem_sublist.mp hu))
    cases J with
    | nil => exact absurd rfl hJ
    | cons u J =>
      cases J with
      | nil => exact ⟨.leaf u.1 u.2.bytes, .leaf u.1 u.2, fun start path _ => ⟨_, rfl, .leaf _ _⟩⟩
      | cons u' us =>
        by_cases hone : optLeaf (u :: u' :: us) = none ∧ ∃ b, branches (u :: u' :: us) = [b]
        · obtain ⟨hleaf, b, hb⟩ := hone
          have hmap := eq_map_cons hleaf hb
          have hne : sublist (u :: u' :: us) b ≠ [] := by
            intro hnil
            rw [hnil] at hmap
            cases hmap
          obtain ⟨t, hcmp, hmakes⟩ := hsub b hne
          refine ⟨t.prepend [b], ?_, fun start path hpl => ?_⟩
          · have hcons := composes_cons hcmp b
            rwa [← hmap] at hcons
          · rw [prepend_prepend] at hpl ⊢
            rw [createNewTrie_loop hleaf hb]
            exact hmakes start (path ++ [b]) hpl
        · obtain ⟨next, hnext⟩ := exists_next hsub
          have hne := branches_ne_nil ((pairwise_cons.mp hdst).1 u' (by simp)) us
          refine ⟨.branch [] next (valueOf (u :: u' :: us)), composes_branch (by simp)
            (commonPrefix_eq_nil hJ hone) fun b => (hnext b).composes, fun start path hpl => ?_⟩
          rw [EthTrie.prepend, append_nil] at hpl ⊢
          obtain ⟨childData, hchild, hany, henc⟩ := children_eq hnext hpl.2
          refine ⟨_, createNewTrie_node hone hne hchild,
            .branch (by simp [hany, hne]) henc (value_getD _) value_eq_none ?_⟩
          rw [encodeBranch_eq (fun b => (next b).item keccak) henc (value_getD _)]

end Nodes

/-! ## The root -/

section Root

variable {keccak : Keccak}

theorem dataSize_cons (path : List Nibble) (b : Nibble) : dataSize 1 path ≤ dataSize 0 (b :: path) := by
  unfold dataSize
  rw [if_neg (cons_ne_nil b path), length_cons]
  split <;> omega

variable {t : EthTrie} {b : Nibble}

theorem plain_of_prepend (h : (t.prepend [b]).Plain 0) : t.Plain 1 := by
  cases t with
  | empty => trivial
  | leaf path value => exact le_trans (dataSize_cons path b) h
  | branch path next value =>
    obtain ⟨hpath, hnext⟩ := h
    obtain ⟨hsize, hval⟩ := hpath (by simp)
    refine ⟨fun _ => ⟨le_trans (dataSize_cons path b) hsize, hval⟩, fun c => ?_⟩
    have hc := hnext c
    rwa [zero_add, length_append, length_singleton] at hc

/-- The only child of the root is encoded with the nibble of its branch. -/
theorem Built.root_eq {node : Node} (h : Built keccak 1 node t) (hpl : (t.prepend [b]).Plain 0) :
    ∃ second, secondPiece keccak node = some second ∧ encodeTwoPieces 0 (b :: node.path) second node.value.isSome =
        some ((t.prepend [b]).item keccak).encode := by
  cases h with
  | leaf path value => exact ⟨value, by simp [secondPiece, Node.hasChildren], encodeTwoPieces_leaf keccak hpl value⟩
  | @branch path childData next v value data hany hchild hv hnone hdata =>
    obtain ⟨hsize, hval⟩ := hpl.1 (by simp)
    have hbr := encodeBranch_eq (fun b => (next b).item keccak) hchild hv
    refine ⟨toNodeReference keccak (branchItem keccak (fun b => (next b).item keccak) value).encode, ?_, ?_⟩
    · by_cases hpath : path = []
      · simp [secondPiece, Node.hasChildren, hany, hpath, hdata, hbr]
      · simp [secondPiece, Node.hasChildren, hany, hpath, hdata, toNodeReference_ne_nil]
    · rw [hnone hval]
      have hrlp := encodeTwoPieces_extension keccak hsize (cons_ne_nil b path)
        (branchItem keccak (fun b => (next b).item keccak) value)
      simpa [EthTrie.prepend, EthTrie.item] using hrlp

variable (keccak) in
theorem rootData_eq (hJ : J ≠ []) (hkeys : ∀ u ∈ J, u.1 ≠ [] ∧ u.1.length ≤ 255) (hdst : Distinct J) :
    ∃ t, Composes J t ∧ (t.Plain 0 → rootData keccak J = some (keccak (t.item keccak).encode).1) := by
  have hviews : (J.any fun u => decide (255 < u.1.length)) = false := by
    rw [any_eq_false]
    exact fun u hu => by simpa using (hkeys u hu).2
  replace hkeys := fun u hu => (hkeys u hu).1
  have hleaf : optLeaf J = none := optLeaf_eq_none.mpr hkeys
  have hsub : ∀ b, sublist J b ≠ [] → ∃ t, Makes keccak ((J.map fun u => u.1.length).sum + 1) (sublist J b) t := by
    intro b hb
    refine makes _ _ hb (distinct_sublist hdst) fun u hu => ?_
    have hle := single_le_sum (fun x _ => Nat.zero_le x) _
      (mem_map_of_mem (f := fun u : Update => u.1.length) (mem_sublist.mp hu))
    simp only [length_cons] at hle
    omega
  cases hb : branches J with
  | nil =>
    obtain ⟨u, hu⟩ := exists_mem_of_ne_nil J hJ
    obtain ⟨b, key, hkey⟩ := exists_cons_of_ne_nil (hkeys u hu)
    have hmem : b ∈ branches J := mem_branches.mpr ⟨u, hu, by rw [hkey]; rfl⟩
    rw [hb] at hmem
    cases hmem
  | cons b bs =>
    cases bs with
    | nil =>
      have hmap := eq_map_cons hleaf hb
      have hne : sublist J b ≠ [] := by
        intro hnil
        rw [hnil] at hmap
        exact hJ hmap
      obtain ⟨t, hcmp, hmakes⟩ := hsub b hne
      have hcons := composes_cons hcmp b
      rw [← hmap] at hcons
      refine ⟨t.prepend [b], hcons, fun hpl => ?_⟩
      obtain ⟨node, hnode, hbuilt⟩ := hmakes 1 [] (by rw [prepend_nil]; exact plain_of_prepend hpl)
      rw [prepend_nil] at hbuilt
      obtain ⟨second, hsnd, hrlp⟩ := hbuilt.root_eq hpl
      simp [rootData, hviews, hleaf, hb, hnode, hbuilt.compute_eq (plain_of_prepend hpl), hsnd, hrlp,
        keccakInplace_toNodeReference]
    | cons c bs =>
      obtain ⟨next, hnext⟩ := exists_next hsub
      have hstop : ¬ (optLeaf J = none ∧ ∃ b, branches J = [b]) := by simp [hb]
      have hlen : 2 ≤ J.length := two_le_length hb
      have hval : valueOf J = [] := by simp [valueOf, hleaf]
      refine ⟨.branch [] next (valueOf J), composes_branch hlen (commonPrefix_eq_nil hJ hstop)
        fun b => (hnext b).composes, fun hpl => ?_⟩
      obtain ⟨childData, hchild, -, henc⟩ := children_eq hnext hpl.2
      have hbr := encodeBranch_eq (fun b => (next b).item keccak) henc (v := some []) hval.symm
      simp only [length_nil, Nat.zero_add] at hchild
      simp [rootData, hviews, hleaf, hb, hchild, hbr, keccakInplace_toNodeReference, EthTrie.item]

/-- **The root of the Yellow Paper.** For a map with keys of one to 255 nibbles there is one trie that the
Yellow Paper composes, and unless one of its nodes has a path, children and a value, or a path of more than
32 bytes, its root is what the code computes. -/
theorem root_eq_yellow_paper (keccak : Keccak) (J : List Update) (hJ : J ≠ [])
    (hkeys : ∀ u ∈ J, u.1 ≠ [] ∧ u.1.length ≤ 255) (hdistinct : Distinct J) :
    (∃ t, Composes J t) ∧
    ∀ t, Composes J t → t.Plain 0 → rootData keccak J = some (keccak (t.item keccak).encode).1 := by
  obtain ⟨t, hcmp, hroot⟩ := rootData_eq keccak hJ hkeys hdistinct
  refine ⟨⟨t, hcmp⟩, fun t' ht' => ?_⟩
  rw [← hcmp.unique t' ht']
  exact hroot

end Root

/-- A hash that can be computed by hand. -/
def firstBytes : Keccak := fun x => ⟨(x ++ List.replicate 32 0).take 32, by simp⟩

def five : Value := ⟨[5], by decide, by decide⟩

def six : Value := ⟨[6], by decide, by decide⟩

/-- Three keys, one of which ends at a branch without a path. -/
def threeKeys : List Update := [([1, 2], five), ([1, 2, 3, 4], six), ([1, 3], six)]

def branchAtEnd : EthTrie :=
  .branch [1] (fun b => if b = 2 then .branch [] (fun c => if c = 3 then .leaf [4] [6] else .empty) [5]
    else if b = 3 then .leaf [] [6] else .empty) []

theorem composes_branchAtEnd : Composes threeKeys branchAtEnd := by
  have hnext : ∀ b, sublist (behind threeKeys) b =
      if b = 2 then [([], five), ([3, 4], six)] else if b = 3 then [([], six)] else [] := by decide
  have hinner : ∀ c, sublist (behind [([], five), ([3, 4], six)]) c = if c = 3 then [([4], six)] else [] := by decide
  refine .branch (by decide) fun b => ?_
  rw [hnext]
  split_ifs
  · refine .branch (by decide) fun c => ?_
    rw [hinner]
    split_ifs
    · exact .leaf [4] six
    · exact .empty
  · exact .leaf [] six
  · exact .empty

theorem root_eq_yellow_paper_three : rootData firstBytes threeKeys =
    some (firstBytes (branchAtEnd.item firstBytes).encode).1 := by
  refine (root_eq_yellow_paper firstBytes threeKeys (by decide) (by decide) (by decide)).2 branchAtEnd
    composes_branchAtEnd ⟨fun _ => ⟨by decide, rfl⟩, fun b => ?_⟩
  beta_reduce
  split_ifs
  · refine ⟨fun hpath => absurd rfl hpath, fun c => ?_⟩
    beta_reduce
    split_ifs
    · exact Nat.le_of_lt_succ (by decide)
    · trivial
  · exact Nat.zero_le _
  · trivial

def keyAndLonger : List Update := [([1, 2], five), ([1, 2, 3, 4], six)]

/-- An extension, a branch with a value and a leaf. -/
def extendedBranch : EthTrie := .branch [1, 2] (fun b => if b = 3 then .leaf [4] [6] else .empty) [5]

/-- **A value behind a path.** The path of the extension gets the flag of a leaf. -/
theorem root_of_extended_branch : Composes keyAndLonger extendedBranch ∧
    rootData firstBytes keyAndLonger ≠ some (firstBytes (extendedBranch.item firstBytes).encode).1 := by
  have hnext : ∀ b, sublist (behind keyAndLonger) b = if b = 3 then [([4], six)] else [] := by decide
  refine ⟨.branch (by decide) fun b => ?_, by decide +kernel⟩
  rw [hnext]
  split_ifs
  · exact .leaf [4] six
  · exact .empty

end MonadExecution.Mpt.VarLen
