import Mathlib

/-!
# Copying a subtrie

`copy_trie_to_dest` makes a node under a prefix of one trie that has the value and the children of a node
of another one. It walks down the path of the prefix, and there are four ends: there is no trie yet, the
path of a node differs, a branch is missing, or the prefix is there already. From that end the nodes up to
the root are written again. This file has the functions, and what a key reads afterwards; the bounds that a
node keeps for its children are in `CopyBounds`.

The nodes are written to the fast list, or to the slow list when `can_write_to_fast` is off; the alternation
between the two is for unit tests and left out. A prefix has at most 255 nibbles, so the assertions on its
length are left out.
-/

namespace MonadExecution.Mpt

open Function List

abbrev Nibble := Fin 16

/-! ## Nodes -/

structure VirtualOffset where
  inFastList : Bool
  raw : Nat
  deriving DecidableEq

/-- `compact_virtual_chunk_offset_t`: the upper 32 of 48 bits. -/
def VirtualOffset.compact (o : VirtualOffset) : Nat := o.raw / 2 ^ 16

/-- `INVALID_COMPACT_VIRTUAL_OFFSET` -/
def invalidCompact : Nat := 2 ^ 32 - 1

structure CompactOffsetPair where
  fast : Nat
  slow : Nat
  deriving DecidableEq

namespace CompactOffsetPair

/-- The offset on one of the two lists. -/
def onList (m : CompactOffsetPair) (inFastList : Bool) : Nat := if inFastList then m.fast else m.slow

def load32 (a b c d : UInt8) : Nat := a.toNat + 2 ^ 8 * b.toNat + 2 ^ 16 * c.toNat + 2 ^ 24 * d.toNat

def deserialize : List UInt8 → Option CompactOffsetPair
  | [a, b, c, d, e, f, g, h] => some ⟨load32 a b c d, load32 e f g h⟩
  | _ => none

end CompactOffsetPair

/-- What a node keeps for a child: where it was written, and bounds of the offsets of its subtrie. -/
structure ChildInfo where
  fnext : VirtualOffset
  minOffsets : CompactOffsetPair
  deriving DecidableEq

/-- The writer that is used: its list, and the virtual offset of the `k`-th node that it writes. -/
structure NodeWriter where
  inFastList : Bool
  place : Nat → Nat

inductive Trie where
  | empty
  | node (path : List Nibble) (value : Option (List UInt8)) (next : Nibble → Trie) (info : Nibble → ChildInfo)

/-- How the path of a node and a prefix compare. -/
inductive Walk where
  | ended
  | inside
  | below (nibble : Nibble) (rest : List Nibble)
  | mismatch (common : List Nibble) (nibble : Nibble) (rest : List Nibble) (nodeNibble : Nibble)
    (nodeRest : List Nibble)

/-- Both go on by one nibble. -/
def Walk.step (nibble : Nibble) : Walk → Walk
  | mismatch common n rest p nodeRest => mismatch (nibble :: common) n rest p nodeRest
  | w => w

def walk : List Nibble → List Nibble → Walk
  | [], [] => .ended
  | [], n :: rest => .below n rest
  | _ :: _, [] => .inside
  | p :: path, n :: rest => if n = p then (walk path rest).step p else .mismatch [] n rest p path

namespace Trie

def isEmpty : Trie → Bool
  | empty => true
  | node .. => false

def path : Trie → List Nibble
  | empty => []
  | node path .. => path

def value : Trie → Option (List UInt8)
  | empty => none
  | node _ value .. => value

def next : Trie → Nibble → Trie
  | empty, _ => empty
  | node _ _ next _, n => next n

/-- `find_blocking`, as far as it succeeds. -/
def find : Trie → List Nibble → Option Trie
  | empty, _ => none
  | node path value next info, key =>
    match walk path key with
    | .ended => some (node path value next info)
    | .below n rest => (next n).find rest
    | _ => none

/-- What a key reads. -/
def lookup (t : Trie) (key : List Nibble) : Option (List UInt8) := (t.find key).bind value

/-! ## The functions -/

/-- The least of the bounds that a node keeps for its children. -/
def minOver (pick : CompactOffsetPair → Nat) (own : Nat) : Trie → Nat
  | empty => own
  | node _ _ next info =>
    (List.finRange 16).foldl (fun m n => if (next n).isEmpty then m else min m (pick (info n).minOffsets)) own

/-- `calc_min_offsets`; the node's own offset is not always given. -/
def calcMinOffsets (t : Trie) (own : Option VirtualOffset) : CompactOffsetPair :=
  let fast := (own.filter (·.inFastList)).elim invalidCompact VirtualOffset.compact
  let slow := (own.filter (!·.inFastList)).elim invalidCompact VirtualOffset.compact
  ⟨t.minOver CompactOffsetPair.fast fast, t.minOver CompactOffsetPair.slow slow⟩

/-- `make_node` from another node: its children and a value under a new path. -/
def withPath (path : List Nibble) : Trie → Trie
  | empty => empty
  | node _ value next info => node path value next info

section Copy

variable (writer : NodeWriter)

/-- `async_write_node_set_spare` -/
def written (k : Nat) : VirtualOffset := ⟨writer.inFastList, writer.place k⟩

def createNodeAddNewBranch (path : List Nibble) (next : Nibble → Trie) (info : Nibble → ChildInfo)
    (branch : Nibble) (child : Trie) (value : Option (List UInt8)) (k : Nat) : Trie :=
  node path value (update next branch child)
    (update info branch ⟨written writer k, child.calcMinOffsets (some (written writer k))⟩)

def createNodeWithTwoChildren (path : List Nibble) (branch₀ : Nibble) (child₀ : Trie) (branch₁ : Nibble)
    (child₁ : Trie) (value : Option (List UInt8)) (k : Nat) : Trie :=
  node path value (fun n => if n = branch₀ then child₀ else if n = branch₁ then child₁ else empty) fun n =>
      if n = branch₀ then ⟨written writer k, child₀.calcMinOffsets none⟩
      else ⟨written writer (k + 1), child₁.calcMinOffsets none⟩

/-- A child of a node is replaced by one that has been written. -/
def setChild (path : List Nibble) (value : Option (List UInt8)) (next : Nibble → Trie)
    (info : Nibble → ChildInfo) (branch : Nibble) (child : Trie) (k : Nat) : Trie :=
  node path value (update next branch child) (update info branch ⟨written writer k, child.calcMinOffsets none⟩)

/-- The walk down and the writes on the way back; also how many nodes have been written, and whether the
result is the new node itself. -/
def copyInto (src : Trie) (rootValue : Option (List UInt8)) :
    Trie → List Nibble → Bool → Nat → Option (Trie × Nat × Bool)
  | empty, _, _, _ => none
  | node path value next info, dest, isRoot, k =>
    match walk path dest with
    | .inside => none
    | .ended => some (src.withPath path, k, true)
    | .mismatch common n rest p nodeRest =>
      some (createNodeWithTwoChildren writer common n (src.withPath rest) p (node nodeRest value next info)
        (if isRoot then rootValue else none) k, k + 2, true)
    | .below n rest =>
      if (next n).isEmpty then
        some (createNodeAddNewBranch writer path next info n (src.withPath rest)
          (if isRoot then rootValue else value) k, k + 1, true)
      else
        match copyInto src rootValue (next n) rest false k with
        | none => none
        | some (child, k, isNew) =>
          -- the parent of the new node is on the stack twice, so the new node is written twice
          let k := if isNew then k + 1 else k
          some (setChild writer path value next info n child k, k + 1, false)

def copyTrieImpl (srcRoot : Trie) (srcPrefix : List Nibble) (destRoot : Option Trie)
    (destPrefix : List Nibble) (k : Nat) : Option Trie :=
  match srcRoot.find srcPrefix, destRoot, destPrefix with
  | none, _, _ => none
  | some _, none, [] => none
  | some src, none, branch :: rest =>
    let child := src.withPath rest
    some (node [] srcRoot.value (update (fun _ => empty) branch child)
      fun _ => ⟨written writer k, child.calcMinOffsets (some (written writer k))⟩)
  | some src, some dest, destPrefix => (copyInto writer src srcRoot.value dest destPrefix true k).map (·.1)

/-- The compaction offsets of a root. -/
def offsets (root : Trie) : Option CompactOffsetPair := root.value.bind CompactOffsetPair.deserialize

def copyTrieToDest (srcRoot : Trie) (srcPrefix : List Nibble) (destRoot : Option Trie)
    (destPrefix : List Nibble) (k : Nat) : Option Trie :=
  match (destRoot.getD srcRoot).offsets, copyTrieImpl writer srcRoot srcPrefix destRoot destPrefix k with
  | some expected, some root => if root.offsets = some expected then some root else none
  | _, _ => none

end Copy

end Trie

/-! ## Paths and prefixes -/

/-- What the end of a walk says about the two lists. -/
def Walk.Describes (path dest : List Nibble) : Walk → Prop
  | ended => dest = path
  | inside => ∃ p rest, path = dest ++ p :: rest
  | below n rest => dest = path ++ n :: rest
  | mismatch common n rest p nodeRest => n ≠ p ∧ dest = common ++ n :: rest ∧ path = common ++ p :: nodeRest

theorem Walk.Describes.step {path dest : List Nibble} {w : Walk} (h : w.Describes path dest) (n : Nibble) :
    (w.step n).Describes (n :: path) (n :: dest) := by
  cases w with
  | ended | below => exact congrArg (n :: ·) h
  | inside =>
    obtain ⟨p, rest, h⟩ := h
    exact ⟨p, rest, congrArg (n :: ·) h⟩
  | mismatch common m rest p nodeRest => exact ⟨h.1, congrArg (n :: ·) h.2.1, congrArg (n :: ·) h.2.2⟩

theorem walk_describes (path dest : List Nibble) : (walk path dest).Describes path dest := by
  induction path generalizing dest with
  | nil => cases dest <;> rfl
  | cons p path ih =>
    cases dest with
    | nil => exact ⟨p, path, rfl⟩
    | cons n rest =>
      unfold walk
      by_cases h : n = p
      · rw [if_pos h, h]
        exact (ih rest).step p
      · rw [if_neg h]
        exact ⟨h, rfl, rfl⟩

theorem walk_append (path key : List Nibble) : walk path (path ++ key) = walk [] key := by
  induction path with
  | nil => rfl
  | cons p path ih =>
    change (if p = p then (walk path (path ++ key)).step p else _) = _
    rw [if_pos rfl, ih]
    cases key <;> rfl

namespace Trie

variable {path key : List Nibble} {value : Option (List UInt8)} {next : Nibble → Trie}
  {info : Nibble → ChildInfo}

/-! ## What keys read -/

@[simp] theorem lookup_empty (key : List Nibble) : empty.lookup key = none := rfl

@[simp] theorem lookup_path : (node path value next info).lookup path = value := by
  unfold lookup find
  have h := walk_append path []
  rw [append_nil] at h
  rw [h]
  rfl

@[simp] theorem lookup_below (n : Nibble) (rest : List Nibble) :
    (node path value next info).lookup (path ++ n :: rest) = (next n).lookup rest := by
  unfold lookup
  rw [find, walk_append]
  rfl

theorem lookup_of_not_under (h : ¬path <+: key) : (node path value next info).lookup key = none := by
  have hwalk := walk_describes path key
  unfold lookup find
  cases hw : walk path key with
  | ended =>
    rw [hw] at hwalk
    exact absurd (hwalk ▸ prefix_rfl) h
  | below n rest =>
    rw [hw] at hwalk
    exact absurd (hwalk ▸ prefix_append path _) h
  | inside | mismatch => rfl

/-- The values under a node, wherever it hangs. -/
def under (t : Trie) (key : List Nibble) : Option (List UInt8) := (t.withPath []).lookup key

theorem lookup_node_append : (node path value next info).lookup (path ++ key) =
    (node path value next info).under key := by
  cases key with
  | nil =>
    rw [append_nil, lookup_path]
    exact lookup_path.symm
  | cons n rest =>
    rw [lookup_below]
    exact (lookup_below n rest).symm

theorem lookup_withPath (t : Trie) (path key : List Nibble) :
    (t.withPath path).lookup (path ++ key) = t.under key := by
  cases t with
  | empty => rfl
  | node p value next info => exact lookup_node_append

theorem lookup_withPath_of_not_under (t : Trie) (h : ¬path <+: key) : (t.withPath path).lookup key = none := by
  cases t with
  | empty => rfl
  | node p value next info => exact lookup_of_not_under h

variable {t s : Trie}

theorem find_nonempty (h : t.find key = some s) : s.isEmpty = false := by
  induction t generalizing key with
  | empty => cases h
  | node path value next info ih =>
    unfold find at h
    split at h
    · cases h
      rfl
    · exact ih _ h
    · cases h

/-- Below a node that was found, a key reads what the node has under the rest. -/
theorem lookup_find {dest : List Nibble} (h : t.find dest = some s) (key : List Nibble) :
    t.lookup (dest ++ key) = s.under key := by
  induction t generalizing dest with
  | empty => cases h
  | node path value next info ih =>
    have hwalk := walk_describes path dest
    unfold find at h
    cases hw : walk path dest with
    | ended =>
      rw [hw] at h hwalk
      cases h
      cases hwalk
      exact lookup_node_append
    | below n rest =>
      rw [hw] at h hwalk
      cases hwalk
      rw [append_assoc, cons_append, lookup_below]
      exact ih n h
    | inside | mismatch =>
      rw [hw] at h
      cases h

/-! ## What keys read after a copy -/

/-- A trie reads like another one, but under a prefix it has what is under a node. -/
def CopyOf (src : Trie) (dest : List Nibble) (before after : List Nibble → Option (List UInt8)) : Prop :=
  (∀ key, after (dest ++ key) = src.under key) ∧ ∀ key, ¬dest <+: key → after key = before key

section

variable {writer : NodeWriter} {src : Trie} {dest : List Nibble} {k : Nat}

/-- A key leaves a path, ends it, or goes on below it. -/
theorem path_cases (path key : List Nibble) : ¬path <+: key ∨ key = path ∨ ∃ n rest, key = path ++ n :: rest := by
  by_cases h : path <+: key
  · obtain ⟨rest, rfl⟩ := h
    cases rest with
    | nil => exact .inr (.inl (append_nil path))
    | cons n rest => exact .inr (.inr ⟨n, rest, rfl⟩)
  · exact .inl h

theorem lookup_shift (front path key : List Nibble) (value : Option (List UInt8)) (next : Nibble → Trie)
    (info : Nibble → ChildInfo) :
    (node (front ++ path) value next info).lookup (front ++ key) = (node path value next info).lookup key := by
  rcases path_cases path key with hnot | rfl | ⟨n, rest, rfl⟩
  · rw [lookup_of_not_under hnot, lookup_of_not_under]
    exact fun hpre => hnot ((prefix_append_right_inj front).mp hpre)
  · rw [lookup_path, lookup_path]
  · rw [← append_assoc, lookup_below, lookup_below]

section Update

variable {n : Nibble} {rest : List Nibble} {child : Trie} {info' : Nibble → ChildInfo}
  {value' : Option (List UInt8)} (h : CopyOf src rest (next n).lookup child.lookup)

include h

/-- Copying below a branch of a node is copying below the node: what is under the prefix -/
theorem lookup_update_under (key : List Nibble) :
    (node path value' (update next n child) info').lookup (path ++ n :: rest ++ key) = src.under key := by
  rw [append_assoc, cons_append, lookup_below, update_self]
  exact h.1 key

/-- and what is not; the node's own value is a case of its own. -/
theorem lookup_update_outside (hkey : ¬path ++ n :: rest <+: key) (hval : key = path → value' = value) :
    (node path value' (update next n child) info').lookup key = (node path value next info).lookup key := by
  rcases path_cases path key with hnot | rfl | ⟨m, tail, rfl⟩
  · rw [lookup_of_not_under hnot, lookup_of_not_under hnot]
  · rw [lookup_path, lookup_path, hval rfl]
  rw [lookup_below, lookup_below]
  by_cases hm : m = n
  · cases hm
    rw [update_self]
    refine h.2 tail fun hpre => hkey ?_
    exact (prefix_append_right_inj path).mpr (cons_prefix_cons.mpr ⟨rfl, hpre⟩)
  · rw [update_of_ne hm]

end Update

theorem copyOf_withPath (src : Trie) (dest : List Nibble) :
    CopyOf src dest (fun _ => none) (src.withPath dest).lookup :=
  ⟨fun key => lookup_withPath src dest key, fun _ hkey => lookup_withPath_of_not_under src hkey⟩

/-- A node whose path differs from the prefix becomes a child of a node with two children. -/
theorem copyOf_split {common : List Nibble} {n p : Nibble} {rest nodeRest : List Nibble} (hne : n ≠ p) :
    CopyOf src (common ++ n :: rest) (node (common ++ p :: nodeRest) value next info).lookup
      (createNodeWithTwoChildren writer common n (src.withPath rest) p (node nodeRest value next info) none
        k).lookup := by
  constructor
  · intro key
    unfold createNodeWithTwoChildren
    rw [append_assoc, cons_append, lookup_below, if_pos rfl]
    exact lookup_withPath src rest key
  · intro key hkey
    unfold createNodeWithTwoChildren
    rcases path_cases common key with hnot | rfl | ⟨m, tail, rfl⟩
    · rw [lookup_of_not_under hnot, lookup_of_not_under]
      exact fun hpre => hnot ((prefix_append common _).trans hpre)
    · rw [lookup_path, lookup_of_not_under]
      intro hpre
      have hlen := hpre.length_le
      rw [length_append, length_cons] at hlen
      omega
    rw [lookup_below]
    by_cases hm : m = n
    · cases hm
      rw [if_pos rfl, lookup_withPath_of_not_under, lookup_of_not_under]
      · intro hpre
        have hcons := (prefix_append_right_inj common).mp hpre
        exact hne (cons_prefix_cons.mp hcons).1.symm
      · intro hpre
        exact hkey ((prefix_append_right_inj common).mpr (cons_prefix_cons.mpr ⟨rfl, hpre⟩))
    · rw [if_neg hm]
      by_cases hp : m = p
      · cases hp
        have hshift := lookup_shift (common ++ [p]) nodeRest tail value next info
        rw [append_assoc, append_assoc] at hshift
        rw [if_pos rfl]
        exact hshift.symm
      · rw [if_neg hp, lookup_empty, lookup_of_not_under]
        intro hpre
        have hcons := (prefix_append_right_inj common).mp hpre
        exact hp (cons_prefix_cons.mp hcons).1.symm

variable {t t' : Trie} {k' : Nat}

theorem lookup_of_isEmpty (h : t.isEmpty = true) : t.lookup = fun _ => none := by
  cases t with
  | empty => rfl
  | node path value next info => cases h

variable {rootValue : Option (List UInt8)} {isNew : Bool}

/-- Copying changes nothing but what is under the prefix, at a node that is not the root. -/
theorem copyOf_copyInto (h : copyInto writer src rootValue t dest false k = some (t', k', isNew)) :
    CopyOf src dest t.lookup t'.lookup := by
  induction t generalizing dest k t' k' isNew with
  | empty => cases h
  | node path value next info ih =>
    have hwalk := walk_describes path dest
    unfold copyInto at h
    cases hw : walk path dest with
    | inside =>
      rw [hw] at h
      cases h
    | ended =>
      rw [hw] at h hwalk
      cases h
      cases hwalk
      refine ⟨fun key => lookup_withPath src path key, fun key hkey => ?_⟩
      rw [lookup_withPath_of_not_under src hkey, lookup_of_not_under hkey]
    | mismatch common n rest p nodeRest =>
      rw [hw] at h hwalk
      obtain ⟨hne, rfl, rfl⟩ := hwalk
      cases h
      exact copyOf_split hne
    | below n rest =>
      rw [hw] at h hwalk
      cases hwalk
      dsimp only at h
      split at h
      · rename_i hemp
        cases h
        have hchild : CopyOf src rest (next n).lookup (src.withPath rest).lookup := by
          rw [lookup_of_isEmpty hemp]
          exact copyOf_withPath src rest
        exact ⟨lookup_update_under hchild, fun key hkey => lookup_update_outside hchild hkey fun _ => rfl⟩
      · split at h
        · cases h
        rename_i child k1 isNew1 hcopy
        cases h
        have hchild := ih n hcopy
        exact ⟨lookup_update_under hchild, fun key hkey => lookup_update_outside hchild hkey fun _ => rfl⟩

/-- At the root, whose path is empty, the value of the root may change as well. -/
theorem copyOf_copyInto_root
    (h : copyInto writer src rootValue (node [] value next info) dest true k = some (t', k', isNew)) :
    (∀ key, t'.lookup (dest ++ key) = src.under key) ∧
      ∀ key, ¬dest <+: key → key ≠ [] → t'.lookup key = (node [] value next info).lookup key := by
  unfold copyInto at h
  cases dest with
  | nil =>
    cases h
    exact ⟨fun key => lookup_withPath src [] key, fun key hkey => absurd nil_prefix hkey⟩
  | cons n rest =>
    change (if (next n).isEmpty then _ else _) = _ at h
    split at h
    · rename_i hemp
      cases h
      have hchild : CopyOf src rest (next n).lookup (src.withPath rest).lookup := by
        rw [lookup_of_isEmpty hemp]
        exact copyOf_withPath src rest
      exact ⟨lookup_update_under hchild, fun key hkey hne =>
        lookup_update_outside hchild hkey fun heq => absurd heq hne⟩
    · split at h
      · cases h
      rename_i child k1 isNew1 hcopy
      cases h
      have hchild := copyOf_copyInto hcopy
      exact ⟨lookup_update_under hchild, fun key hkey _ => lookup_update_outside hchild hkey fun _ => rfl⟩

end

end Trie

end MonadExecution.Mpt
