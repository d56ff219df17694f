import MonadExecution.Mpt.CopyTrie

/-!
# The bounds that a copied trie keeps

For each child a node keeps lower bounds of the offsets of the child and its subtrie; compaction skips what
it may skip by them. `calc_min_offsets` takes the least of the bounds in the child, and the offset of the
child itself only when it is given. Where it is not given, the bound is right exactly when some node under
the child has a bound on the list where the child has just been written.
-/

namespace MonadExecution.Mpt.Trie

open Function List Nat

variable {path : List Nibble} {value : Option (List UInt8)} {next : Nibble → Trie}
  {info : Nibble → ChildInfo}

/-! ## Bounds -/

/-- A pair of bounds holds for an offset. -/
def Covers (m : CompactOffsetPair) (o : VirtualOffset) : Prop := m.onList o.inFastList ≤ o.compact

/-- All nodes below a node were written at such offsets. -/
def AllOffsets (P : VirtualOffset → Prop) : Trie → Prop
  | empty => True
  | node _ _ next info => ∀ n, (next n).isEmpty = false → P (info n).fnext ∧ (next n).AllOffsets P

/-- The bounds that a trie keeps hold for the children and for their subtries. -/
def Bounded : Trie → Prop
  | empty => True
  | node _ _ next info => ∀ n, (next n).isEmpty = false →
    Covers (info n).minOffsets (info n).fnext ∧ (next n).AllOffsets (Covers (info n).minOffsets) ∧ (next n).Bounded

section

variable (inFastList : Bool)

/-- A bound of a child on the list is at most `c`. -/
def Reaches (c : Nat) : Trie → Prop
  | empty => False
  | node _ _ next info => ∃ n, (next n).isEmpty = false ∧ (info n).minOffsets.onList inFastList ≤ c

/-- Some child has a bound on the list. -/
def HasBound : Trie → Prop
  | empty => False
  | node _ _ next info => ∃ n, (next n).isEmpty = false ∧ (info n).minOffsets.onList inFastList ≠ invalidCompact

/-- The bounds on the list are not ahead of `c`. -/
def NotAhead (c : Nat) : Trie → Prop
  | empty => True
  | node _ _ next info => ∀ n, (next n).isEmpty = false →
    ((info n).minOffsets.onList inFastList = invalidCompact ∨ (info n).minOffsets.onList inFastList ≤ c) ∧
      (next n).NotAhead c

end

variable {t : Trie} {fast : Bool}

theorem NotAhead.mono {c c' : Nat} (hc : c ≤ c') (h : t.NotAhead fast c) : t.NotAhead fast c' := by
  induction t with
  | empty => trivial
  | node path value next info ih =>
    intro n hn
    obtain ⟨hbound, hnext⟩ := h n hn
    exact ⟨hbound.imp_right fun hle => hle.trans hc, ih n hnext⟩

theorem Covers.of_le {m m' : CompactOffsetPair} (hf : m'.fast ≤ m.fast) (hs : m'.slow ≤ m.slow)
    {o : VirtualOffset} (h : Covers m o) : Covers m' o := by
  unfold Covers CompactOffsetPair.onList at *
  split
  · rename_i hfast
    rw [if_pos hfast] at h
    exact hf.trans h
  · rename_i hslow
    rw [if_neg hslow] at h
    exact hs.trans h

theorem AllOffsets.imp {P Q : VirtualOffset → Prop} (hPQ : ∀ o, P o → Q o) (h : t.AllOffsets P) : t.AllOffsets Q := by
  induction t with
  | empty => trivial
  | node path value next info ih =>
    intro n hn
    exact ⟨hPQ _ (h n hn).1, ih n (h n hn).2⟩

/-! ## The least bound -/

theorem foldl_min_le_iff (l : List Nibble) (skip : Nibble → Bool) (f : Nibble → Nat) (own x : Nat) :
    l.foldl (fun m n => if skip n then m else min m (f n)) own ≤ x ↔ own ≤ x ∨ ∃ n ∈ l, skip n = false ∧ f n ≤ x := by
  induction l generalizing own with
  | nil => simp
  | cons n l ih =>
    rw [foldl_cons, ih]
    cases hn : skip n with
    | true => simp [hn]
    | false => simp [hn, or_assoc]

theorem minOver_le_iff (pick : CompactOffsetPair → Nat) (own x : Nat) :
    minOver pick own (node path value next info) ≤ x ↔
      own ≤ x ∨ ∃ n, (next n).isEmpty = false ∧ pick (info n).minOffsets ≤ x := by
  refine (foldl_min_le_iff _ (fun n => (next n).isEmpty) (fun n => pick (info n).minOffsets) own x).trans ?_
  simp [mem_finRange]

theorem minOver_le (path : List Nibble) (value : Option (List UInt8)) (pick : CompactOffsetPair → Nat)
    (own : Nat) {n : Nibble} (hn : (next n).isEmpty = false) :
    minOver pick own (node path value next info) ≤ pick (info n).minOffsets :=
  (minOver_le_iff pick own _).mpr (.inr ⟨n, hn, le_refl _⟩)

/-- The least bound of a trie holds for all nodes below it. -/
theorem allOffsets_calcMinOffsets (h : t.Bounded) (own : Option VirtualOffset) :
    t.AllOffsets (Covers (t.calcMinOffsets own)) := by
  cases t with
  | empty => trivial
  | node path value next info =>
    intro n hn
    obtain ⟨hown, hsub, -⟩ := h n hn
    have hfast : ((node path value next info).calcMinOffsets own).fast ≤ (info n).minOffsets.fast :=
      minOver_le path value _ _ hn
    have hslow : ((node path value next info).calcMinOffsets own).slow ≤ (info n).minOffsets.slow :=
      minOver_le path value _ _ hn
    exact ⟨hown.of_le hfast hslow, hsub.imp fun _ => Covers.of_le hfast hslow⟩

section Copy

variable {writer : NodeWriter}

/-- The compact offset of the `k`-th node that is written. -/
def compactAt (writer : NodeWriter) (k : Nat) : Nat := (written writer k).compact

/-- The offsets of the nodes that are written do not go back, and are valid. -/
structure Forward (writer : NodeWriter) : Prop where
  mono : Monotone writer.place
  valid : ∀ k, compactAt writer k < invalidCompact

variable {k c : Nat} {t child src : Trie} {value' rootValue : Option (List UInt8)} {n : Nibble} {dest : List Nibble}
  {isRoot isNew : Bool} {j k' : Nat} {t' : Trie}

theorem Forward.compactAt_le (hp : Forward writer) (h : j ≤ k) :
    compactAt writer j ≤ compactAt writer k := Nat.div_le_div_right (hp.mono h)

/-- With its own offset, the bound of a node holds for it. -/
theorem covers_own (t : Trie) (k : Nat) : Covers (t.calcMinOffsets (some (written writer k))) (written writer k) := by
  have hown : ∀ pick own, minOver pick own t ≤ own := by
    intro pick own
    cases t with
    | empty => exact le_refl _
    | node path value next info => exact (minOver_le_iff _ _ _).mpr (.inl (le_refl _))
  obtain ⟨inFastList, place⟩ := writer
  cases inFastList with
  | true | false => exact hown _ _

/-- Without its own offset, it does when a bound in the node is as old. -/
theorem covers_none_iff (hp : Forward writer) (t : Trie) (k : Nat) :
    Covers (t.calcMinOffsets none) (written writer k) ↔ t.Reaches writer.inFastList (compactAt writer k) := by
  have hvalid : ¬invalidCompact ≤ compactAt writer k := not_le.mpr (hp.valid k)
  obtain ⟨inFastList, place⟩ := writer
  cases t with
  | empty =>
    cases inFastList with
    | true | false => exact iff_of_false hvalid not_false
  | node path value next info =>
    cases inFastList with
    | true | false => exact (@minOver_le_iff path value next info _ _ _).trans (or_iff_right hvalid)

theorem reaches_iff (hp : Forward writer) (h : t.NotAhead fast (compactAt writer k)) :
    t.Reaches fast (compactAt writer k) ↔ t.HasBound fast := by
  cases t with
  | empty => exact Iff.rfl
  | node path value next info =>
    refine exists_congr fun n => and_congr_right fun hn => ?_
    constructor
    · intro hle heq
      exact not_le.mpr (hp.valid k) (heq ▸ hle)
    · exact fun hne => (h n hn).1.resolve_left hne

/-! ## One entry changes -/

/-- Changing one child leaves the bounds of the others. -/
theorem bounded_update {own : Option VirtualOffset} {o : VirtualOffset} (hchild : child.isEmpty = false)
    (h : (node path value next info).Bounded) :
    (node path value' (update next n child) (update info n ⟨o, child.calcMinOffsets own⟩)).Bounded ↔
      Covers (child.calcMinOffsets own) o ∧ child.Bounded := by
  constructor
  · intro hall
    have hn := hall n
    rw [update_self, update_self] at hn
    exact ⟨(hn hchild).1, (hn hchild).2.2⟩
  · rintro ⟨hown, hsub⟩ m hm
    by_cases hmn : m = n
    · rw [hmn, update_self, update_self]
      exact ⟨hown, allOffsets_calcMinOffsets hsub own, hsub⟩
    · rw [update_of_ne hmn] at hm
      rw [update_of_ne hmn, update_of_ne hmn]
      exact h m hm

theorem reaches_update {i : ChildInfo} (hchild : child.isEmpty = false) (hc : i.minOffsets.onList fast ≤ c) :
    (node path value' (update next n child) (update info n i)).Reaches fast c := by
  refine ⟨n, ?_, ?_⟩
  · rw [update_self]
    exact hchild
  · rw [update_self]
    exact hc

theorem withPath_bounded (h : t.Bounded) (path : List Nibble) : (t.withPath path).Bounded := by
  cases t with
  | empty | node => exact h

theorem withPath_reaches (path : List Nibble) : (t.withPath path).Reaches fast c ↔ t.Reaches fast c := by
  cases t with
  | empty | node => exact Iff.rfl

theorem withPath_isEmpty (t : Trie) (path : List Nibble) : (t.withPath path).isEmpty = t.isEmpty := by cases t <;> rfl

/-! ## Where the walk ends -/

/-- The bounds are kept: the new node, where it replaces one or splits one, and the node that is split, have
a bound on the list that is written to. -/
def EndFits (inFastList : Bool) (src : Trie) : Trie → List Nibble → Prop
  | empty, _ => False
  | node path value next info, dest =>
    match walk path dest with
    | .inside => False
    | .ended => src.HasBound inFastList
    | .mismatch .. => src.HasBound inFastList ∧ (node path value next info).HasBound inFastList
    | .below n rest => (next n).isEmpty = true ∨ EndFits inFastList src (next n) rest

theorem copyInto_nonempty (hsrc : src.isEmpty = false)
    (h : copyInto writer src rootValue t dest isRoot k = some (t', k', isNew)) : t'.isEmpty = false := by
  cases t with
  | empty => cases h
  | node path value next info =>
    unfold copyInto at h
    split at h
    · cases h
    · cases h
      rw [withPath_isEmpty, hsrc]
    · cases h
      rfl
    · split at h
      · cases h
        rfl
      split at h
      · cases h
      cases h
      rfl

theorem bounded_split (hp : Forward writer) {common : List Nibble} {p : Nibble} (hne : n ≠ p) {a b : Trie}
    (ha : a.isEmpty = false) (hb : b.isEmpty = false) (hab : a.Bounded) (hbb : b.Bounded) :
    (createNodeWithTwoChildren writer common n a p b value' k).Bounded ↔
      a.Reaches writer.inFastList (compactAt writer k) ∧ b.Reaches writer.inFastList (compactAt writer (k + 1)) := by
  rw [← covers_none_iff hp, ← covers_none_iff hp]
  constructor
  · intro h
    have hn := h n
    have hpp := h p
    beta_reduce at hn hpp
    rw [if_pos rfl, if_pos rfl] at hn
    rw [if_neg hne.symm, if_neg hne.symm, if_pos rfl] at hpp
    exact ⟨(hn ha).1, (hpp hb).1⟩
  · rintro ⟨hca, hcb⟩ m hm
    beta_reduce at hm ⊢
    by_cases hmn : m = n
    · rw [if_pos hmn, if_pos hmn]
      exact ⟨hca, allOffsets_calcMinOffsets hab none, hab⟩
    rw [if_neg hmn, if_neg hmn]
    rw [if_neg hmn] at hm
    by_cases hmp : m = p
    · rw [if_pos hmp]
      exact ⟨hcb, allOffsets_calcMinOffsets hbb none, hbb⟩
    · rw [if_neg hmp] at hm
      cases hm

/-- At a node that is not the root: the copy keeps all bounds, and the bound of the copy without its own offset
holds, exactly when the end of the walk fits. -/
theorem bounded_copyInto (hp : Forward writer) (hne : src.isEmpty = false) (hsrc : src.Bounded)
    (hahead : src.NotAhead writer.inFastList (compactAt writer k)) (ht : t.Bounded) (htahead : t.NotAhead writer.inFastList (compactAt writer k))
    (h : copyInto writer src rootValue t dest false k = some (t', k', isNew)) (hj : k' ≤ j) :
    k ≤ k' ∧ (t'.Bounded ∧ t'.Reaches writer.inFastList (compactAt writer j) ↔ EndFits writer.inFastList src t dest) := by
  induction t generalizing dest k t' k' isNew j with
  | empty => cases h
  | node path value next info ih =>
    have hwalk := walk_describes path dest
    unfold copyInto at h
    unfold EndFits
    cases hw : walk path dest with
    | inside =>
      rw [hw] at h
      cases h
    | ended =>
      rw [hw] at h
      cases h
      refine ⟨le_refl _, ?_⟩
      rw [withPath_reaches, reaches_iff hp (hahead.mono (hp.compactAt_le hj))]
      exact and_iff_right (withPath_bounded hsrc path)
    | mismatch common n rest p nodeRest =>
      rw [hw] at h hwalk
      obtain ⟨hnp, rfl, rfl⟩ := hwalk
      cases h
      refine ⟨le_add_right k 2, ?_⟩
      have ha : (src.withPath rest).isEmpty = false := by rw [withPath_isEmpty, hne]
      have hnode : (node nodeRest value next info).NotAhead writer.inFastList (compactAt writer (k + 1)) :=
        NotAhead.mono (hp.compactAt_le (le_succ k)) htahead
      have hb : (node nodeRest value next info).Bounded := ht
      rw [bounded_split hp hnp ha rfl (withPath_bounded hsrc rest) hb, withPath_reaches,
        reaches_iff hp hahead, reaches_iff hp hnode]
      refine and_iff_left_of_imp ?_
      rintro ⟨hfast, -⟩
      have hreach : (src.withPath rest).Reaches writer.inFastList (compactAt writer k) := by
        rw [withPath_reaches, reaches_iff hp hahead]
        exact hfast
      refine ⟨n, ?_, ?_⟩
      · beta_reduce
        rw [if_pos rfl]
        exact ha
      · beta_reduce
        rw [if_pos rfl]
        have hcov := (covers_none_iff hp (src.withPath rest) k).mpr hreach
        exact le_trans hcov (hp.compactAt_le ((le_add_right k 2).trans hj))
    | below n rest =>
      rw [hw] at h
      dsimp only at h ⊢
      split at h
      · rename_i hemp
        cases h
        refine ⟨le_succ k, iff_of_true ?_ (.inl hemp)⟩
        have ha : (src.withPath rest).isEmpty = false := by rw [withPath_isEmpty, hne]
        have hcov : Covers ((src.withPath rest).calcMinOffsets (some (written writer k))) (written writer k) :=
          covers_own (src.withPath rest) k
        refine ⟨(bounded_update ha ht).mpr ⟨hcov, withPath_bounded hsrc rest⟩, ?_⟩
        exact reaches_update ha (le_trans hcov (hp.compactAt_le ((le_succ k).trans hj)))
      rename_i hfull
      have hfull : (next n).isEmpty = false := Bool.eq_false_iff.mpr hfull
      split at h
      · cases h
      rename_i child k1 isNew1 hcopy
      cases h
      have hchild := copyInto_nonempty hne hcopy
      -- the child is written last at the index after its own writes
      have hlast : k1 ≤ if isNew1 = true then k1 + 1 else k1 := by split <;> omega
      obtain ⟨hk, hiff⟩ := ih n hahead (ht n hfull).2.2 (htahead n hfull).2 hcopy hlast
      refine ⟨by omega, ?_⟩
      rw [or_iff_right (Bool.eq_false_iff.mp hfull), ← hiff]
      constructor
      · rintro ⟨hbdd, -⟩
        obtain ⟨hcov, hsub⟩ := (bounded_update hchild ht).mp hbdd
        exact ⟨hsub, (covers_none_iff hp child _).mp hcov⟩
      · rintro ⟨hsub, hreach⟩
        have hcov := (covers_none_iff hp child _).mpr hreach
        refine ⟨(bounded_update hchild ht).mpr ⟨hcov, hsub⟩, ?_⟩
        exact reaches_update hchild (le_trans hcov (hp.compactAt_le ((le_succ _).trans hj)))

/-! ## The walk does not end inside a path -/

/-- Every node has a value, or a child. -/
def Proper : Trie → Prop
  | empty => True
  | node _ value next _ => (value ≠ none ∨ ∃ n, (next n).isEmpty = false) ∧ ∀ n, (next n).Proper

theorem exists_key (h : t.Proper) (hne : t.isEmpty = false) : ∃ key, t.lookup key ≠ none := by
  induction t with
  | empty => cases hne
  | node path value next info ih =>
    obtain ⟨hval | ⟨n, hn⟩, hsub⟩ := h
    · refine ⟨path, ?_⟩
      rw [lookup_path]
      exact hval
    · obtain ⟨key, hkey⟩ := ih n (hsub n) hn
      refine ⟨path ++ n :: key, ?_⟩
      rw [lookup_below]
      exact hkey

/-- The prefix is a key, or no key is under it. -/
def KeyOrApart (t : Trie) (dest : List Nibble) : Prop :=
  t.lookup dest ≠ none ∨ ∀ key, t.lookup key ≠ none → ¬dest <+: key

theorem copyInto_isSome (hne : t.isEmpty = false) (ht : t.Proper) (hkey : t.KeyOrApart dest) :
    ∃ r, copyInto writer src rootValue t dest isRoot k = some r := by
  induction t generalizing dest isRoot k with
  | empty => cases hne
  | node path value next info ih =>
    have hwalk := walk_describes path dest
    unfold copyInto
    cases hw : walk path dest with
    | inside =>
      rw [hw] at hwalk
      obtain ⟨p, rest, rfl⟩ := hwalk
      exfalso
      have hlong : ¬dest ++ p :: rest <+: dest := by
        intro hpre
        have hlen := hpre.length_le
        rw [length_append, length_cons] at hlen
        omega
      rcases hkey with hkey | hapart
      · exact hkey (lookup_of_not_under hlong)
      obtain ⟨key, hkey⟩ := exists_key ht hne
      by_cases hpre : dest ++ p :: rest <+: key
      · exact hapart key hkey ((prefix_append dest _).trans hpre)
      · exact hkey (lookup_of_not_under hpre)
    | ended | mismatch => exact ⟨_, rfl⟩
    | below n rest =>
      rw [hw] at hwalk
      cases hwalk
      dsimp only
      split
      · exact ⟨_, rfl⟩
      rename_i hfull
      have hsub : (next n).KeyOrApart rest := by
        rcases hkey with hkey | hapart
        · rw [lookup_below] at hkey
          exact .inl hkey
        refine .inr fun key hkey hpre => hapart (path ++ n :: key) ?_ ?_
        · rw [lookup_below]
          exact hkey
        · exact (prefix_append_right_inj path).mpr (cons_prefix_cons.mpr ⟨rfl, hpre⟩)
      obtain ⟨r, hr⟩ := ih n (Bool.eq_false_iff.mpr hfull) (ht.2 n) hsub
      rw [hr]
      exact ⟨_, rfl⟩

/-! ## What copying is for -/

/-- A root of a database: it has an empty path, and its value is a pair of offsets. -/
structure IsRoot (writer : NodeWriter) (k : Nat) (t : Trie) : Prop where
  path : t.path = []
  offsets : t.offsets ≠ none
  proper : t.Proper
  bounded : t.Bounded
  notAhead : t.NotAhead writer.inFastList (compactAt writer k)

/-- Copying works: it completes, under the prefix are the value and the subtrie of the source, the other keys
read as before, the root keeps its offsets, and all bounds hold. -/
def CopyWorks (writer : NodeWriter) (srcRoot : Trie) (srcPrefix : List Nibble) (destRoot : Option Trie)
    (destPrefix : List Nibble) (k : Nat) : Prop :=
  ∃ root, copyTrieToDest writer srcRoot srcPrefix destRoot destPrefix k = some root ∧
    (∀ key, root.lookup (destPrefix ++ key) = srcRoot.lookup (srcPrefix ++ key)) ∧
    (∀ key, ¬destPrefix <+: key → key ≠ [] → root.lookup key = (destRoot.getD empty).lookup key) ∧
    root.offsets = (destRoot.getD srcRoot).offsets ∧ root.Bounded

/-- The condition: a new branch at the root comes with the offsets of the source's root, and below the root the
end of the walk fits. -/
def CopyFits (inFastList : Bool) (srcRoot src : Trie) : Option Trie → List Nibble → Prop
  | none, destPrefix => destPrefix ≠ []
  | some dest, [] => src.offsets = dest.offsets
  | some dest, n :: rest =>
    if (dest.next n).isEmpty then srcRoot.offsets = dest.offsets else EndFits inFastList src (dest.next n) rest

/-- What goes over from nodes to their children goes over to every node that is found. -/
theorem find_inherits {P : Trie → Prop}
    (hP : ∀ path value next info n, P (node path value next info) → (next n).isEmpty = false → P (next n))
    {s : Trie} {key : List Nibble} (h : t.find key = some s) (ht : P t) : P s := by
  induction t generalizing key with
  | empty => cases h
  | node path value next info ih =>
    unfold find at h
    split at h
    · cases h
      exact ht
    · rename_i n rest _
      cases hn : next n with
      | empty =>
        rw [hn] at h
        cases h
      | node p v nx i =>
        have hne : (next n).isEmpty = false := by rw [hn]; rfl
        exact ih n h (hP path value next info n ht hne)
    · cases h

section Works

variable {srcRoot src : Trie} {srcPrefix destPrefix : List Nibble} {k : Nat} {root : Trie}

theorem copyTrieToDest_eq {destRoot : Option Trie} {expected : CompactOffsetPair}
    (himpl : copyTrieImpl writer srcRoot srcPrefix destRoot destPrefix k = some root)
    (hexp : (destRoot.getD srcRoot).offsets = some expected) :
    copyTrieToDest writer srcRoot srcPrefix destRoot destPrefix k =
      if root.offsets = some expected then some root else none := by
  unfold copyTrieToDest
  rw [hexp, himpl]

/-- When there is a trie already, what is left to see is its root's offsets and the bounds. -/
theorem copyWorks_iff_of_impl {dest : Trie} (hdest : dest.offsets ≠ none)
    (himpl : copyTrieImpl writer srcRoot srcPrefix (some dest) destPrefix k = some root)
    (hunder : ∀ key, root.lookup (destPrefix ++ key) = srcRoot.lookup (srcPrefix ++ key))
    (houtside : ∀ key, ¬destPrefix <+: key → key ≠ [] → root.lookup key = dest.lookup key) :
    CopyWorks writer srcRoot srcPrefix (some dest) destPrefix k ↔ root.offsets = dest.offsets ∧ root.Bounded := by
  obtain ⟨expected, hexp⟩ := Option.ne_none_iff_exists'.mp hdest
  constructor
  · rintro ⟨root', hcopy, -, -, hoffsets, hbdd⟩
    rw [copyTrieToDest_eq himpl hexp] at hcopy
    split at hcopy
    · cases hcopy
      exact ⟨hoffsets, hbdd⟩
    · cases hcopy
  · rintro ⟨hoffsets, hbdd⟩
    refine ⟨root, ?_, hunder, houtside, hoffsets, hbdd⟩
    rw [copyTrieToDest_eq himpl hexp, if_pos (hoffsets.trans hexp)]

/-- Without a trie to copy to, a new root is made, and only an empty prefix fails. -/
theorem copyWorks_none_iff (hroot : srcRoot.offsets ≠ none) (hfind : srcRoot.find srcPrefix = some src)
    (hsrc : src.Bounded) : CopyWorks writer srcRoot srcPrefix none destPrefix k ↔ destPrefix ≠ [] := by
  cases destPrefix with
  | nil =>
    refine iff_of_false ?_ fun h => h rfl
    rintro ⟨root, hcopy, -⟩
    unfold copyTrieToDest copyTrieImpl at hcopy
    rw [hfind] at hcopy
    split at hcopy
    · rename_i himpl
      cases himpl
    · cases hcopy
  | cons branch rest =>
    refine iff_of_true ?_ (cons_ne_nil _ _)
    have hchild : CopyOf src rest ((fun _ : Nibble => empty) branch).lookup (src.withPath rest).lookup :=
      copyOf_withPath src rest
    obtain ⟨expected, hexp⟩ := Option.ne_none_iff_exists'.mp hroot
    refine ⟨node [] srcRoot.value (update (fun _ => empty) branch (src.withPath rest))
      fun _ => ⟨written writer k, (src.withPath rest).calcMinOffsets (some (written writer k))⟩,
      ?_, ?_, ?_, rfl, ?_⟩
    · have himpl : copyTrieImpl writer srcRoot srcPrefix none (branch :: rest) k =
          some (node [] srcRoot.value (update (fun _ => empty) branch (src.withPath rest))
            fun _ => ⟨written writer k, (src.withPath rest).calcMinOffsets (some (written writer k))⟩) := by
        unfold copyTrieImpl
        rw [hfind]
      rw [copyTrieToDest_eq himpl hexp]
      exact if_pos hexp
    · intro key
      rw [lookup_find hfind]
      have hroot : ([] : List Nibble) ++ branch :: rest = branch :: rest := rfl
      exact lookup_update_under hchild key
    · intro key hkey hne
      cases key with
      | nil => exact absurd rfl hne
      | cons m tail =>
        have hspl : m :: tail = [] ++ m :: tail := rfl
        rw [hspl, lookup_below]
        by_cases hm : m = branch
        · rw [hm, update_self]
          refine lookup_withPath_of_not_under src fun hpre => hkey ?_
          exact cons_prefix_cons.mpr ⟨hm.symm, hpre⟩
        · rw [update_of_ne hm]
          rfl
    · intro m hm
      by_cases hmb : m = branch
      · rw [hmb, update_self]
        exact ⟨covers_own _ k, allOffsets_calcMinOffsets (withPath_bounded hsrc rest) _, withPath_bounded hsrc rest⟩
      · rw [update_of_ne hmb] at hm
        cases hm

theorem offsets_withPath (t : Trie) (path : List Nibble) : (t.withPath path).offsets = t.offsets := by cases t <;> rfl

theorem copyWorks_some_iff (hp : Forward writer) (hdest : IsRoot writer k (node [] value next info))
    (hkey : (node [] value next info).KeyOrApart destPrefix) (hfind : srcRoot.find srcPrefix = some src)
    (hsrc : src.Bounded) (hahead : src.NotAhead writer.inFastList (compactAt writer k)) :
    CopyWorks writer srcRoot srcPrefix (some (node [] value next info)) destPrefix k ↔
      CopyFits writer.inFastList srcRoot src (some (node [] value next info)) destPrefix := by
  have hne := find_nonempty hfind
  have hsome : ∃ r, copyInto writer src srcRoot.value (node [] value next info) destPrefix true k = some r :=
    copyInto_isSome rfl hdest.proper hkey
  obtain ⟨⟨root, k', isNew⟩, hcopy⟩ := hsome
  obtain ⟨hunder, houtside⟩ := copyOf_copyInto_root hcopy
  have himpl : copyTrieImpl writer srcRoot srcPrefix (some (node [] value next info)) destPrefix k = some root := by
    unfold copyTrieImpl
    rw [hfind]
    dsimp only
    rw [hcopy]
    rfl
  rw [copyWorks_iff_of_impl hdest.offsets himpl (fun key => (hunder key).trans (lookup_find hfind key).symm) houtside]
  cases destPrefix with
  | nil =>
    cases hcopy
    rw [offsets_withPath]
    exact and_iff_left (withPath_bounded hsrc [])
  | cons n rest =>
    change (if (next n).isEmpty then _ else _) = _ at hcopy
    change _ ↔ if (next n).isEmpty then _ else _
    split at hcopy
    · rename_i hemp
      rw [if_pos hemp]
      cases hcopy
      have ha : (src.withPath rest).isEmpty = false := by rw [withPath_isEmpty, hne]
      exact and_iff_left ((bounded_update ha hdest.bounded).mpr ⟨covers_own _ k, withPath_bounded hsrc rest⟩)
    rename_i hfull
    rw [if_neg hfull]
    have hfull : (next n).isEmpty = false := Bool.eq_false_iff.mpr hfull
    split at hcopy
    · cases hcopy
    rename_i child k1 isNew1 hbel
    cases hcopy
    have hchild := copyInto_nonempty hne hbel
    have hlast : k1 ≤ if isNew1 = true then k1 + 1 else k1 := by split <;> omega
    obtain ⟨-, hiff⟩ := bounded_copyInto hp hne hsrc hahead (hdest.bounded n hfull).2.2
      (hdest.notAhead n hfull).2 hbel hlast
    change _ ↔ EndFits writer.inFastList src (next n) rest
    rw [← hiff, ← covers_none_iff hp]
    refine (and_iff_right rfl).trans ((bounded_update hchild hdest.bounded).trans ?_)
    exact and_comm

end Works

/-- Copying a subtrie works exactly when it fits: into no trie under any prefix that is not empty; at a new branch of the
root, when both roots have the same offsets; and below the root at a new branch, or when the copied node, and
the node that is split if one is, have a bound on the list that is written to. -/
theorem copy_works_iff (hp : Forward writer) {srcRoot src : Trie} {srcPrefix destPrefix : List Nibble}
    {destRoot : Option Trie} {k : Nat} (hsrc : IsRoot writer k srcRoot) (hfind : srcRoot.find srcPrefix = some src)
    (hdest : ∀ dest, destRoot = some dest → IsRoot writer k dest ∧ (dest.lookup destPrefix ≠ none ∨ ∀ key, key ≠ [] →
      dest.lookup key ≠ none → ¬destPrefix <+: key ∧ ¬key <+: destPrefix)) :
    CopyWorks writer srcRoot srcPrefix destRoot destPrefix k ↔ CopyFits writer.inFastList srcRoot src destRoot destPrefix := by
  have hbdd : src.Bounded := find_inherits (fun _ _ _ _ n h hn => (h n hn).2.2) hfind hsrc.bounded
  have hahead : src.NotAhead writer.inFastList (compactAt writer k) :=
    find_inherits (fun _ _ _ _ n h hn => (h n hn).2) hfind hsrc.notAhead
  cases destRoot with
  | none => exact copyWorks_none_iff hsrc.offsets hfind hbdd
  | some dest =>
    obtain ⟨hroot, hkey⟩ := hdest dest rfl
    cases dest with
    | empty => exact absurd rfl hroot.offsets
    | node path value next info =>
      cases hroot.path
      refine copyWorks_some_iff hp hroot ?_ hfind hbdd hahead
      rcases hkey with hkey | hapart
      · exact .inl hkey
      cases destPrefix with
      | nil =>
        refine .inl fun hnone => hroot.offsets ?_
        rw [lookup_path] at hnone
        rw [hnone]
        rfl
      | cons n rest =>
        refine .inr fun key hkey hpre => ?_
        cases key with
        | nil => exact absurd (prefix_nil.mp hpre) (cons_ne_nil n rest)
        | cons m tail => exact (hapart _ (cons_ne_nil m tail) hkey).1 hpre

end Copy

/-! ## Small tries -/

section Small

/-- Nodes of one unit of the compact offsets. -/
def sampleWriter : NodeWriter := ⟨true, fun k => min k 1000 * 2 ^ 16⟩

theorem sampleWriter_forward : Forward sampleWriter where
  mono := fun j k h => by
    refine Nat.mul_le_mul_right _ ?_
    omega
  valid := fun k => by
    change min k 1000 * 2 ^ 16 / 2 ^ 16 < invalidCompact
    rw [Nat.mul_div_cancel _ (by decide)]
    exact Nat.lt_of_le_of_lt (Nat.min_le_right k 1000) (by decide)

def leaf (path : List Nibble) (value : List UInt8) : Trie :=
  node path (some value) (fun _ => empty) fun _ => ⟨⟨true, 0⟩, ⟨invalidCompact, invalidCompact⟩⟩

/-- A root with one leaf, the first node that was written. -/
def single (offsets : List UInt8) (branch : Nibble) (path : List Nibble) (value : List UInt8) : Trie :=
  node [] (some offsets) (update (fun _ => empty) branch (leaf path value)) fun _ =>
    ⟨written sampleWriter 0, (leaf path value).calcMinOffsets (some (written sampleWriter 0))⟩

variable {offsets : List UInt8} {branch : Nibble} {path : List Nibble} {value : List UInt8}

theorem leaf_bounded : (leaf path value).Bounded := fun n hn => by cases hn

theorem eq_branch_of_nonempty {n : Nibble} (hn : (update (fun _ => empty) branch t n).isEmpty = false) :
    n = branch := by
  by_contra hne
  rw [update_of_ne hne] at hn
  cases hn

theorem single_isRoot (hoffsets : CompactOffsetPair.deserialize offsets ≠ none) (k : Nat) :
    IsRoot sampleWriter k (single offsets branch path value) where
  path := rfl
  offsets := hoffsets
  proper := by
    refine ⟨.inl (Option.some_ne_none _), fun n => ?_⟩
    by_cases hn : n = branch
    · rw [hn, update_self]
      exact ⟨.inl (Option.some_ne_none _), fun _ => trivial⟩
    · rw [update_of_ne hn]
      trivial
  bounded := by
    intro n hn
    cases eq_branch_of_nonempty hn
    rw [update_self]
    exact ⟨covers_own _ 0, allOffsets_calcMinOffsets leaf_bounded _, leaf_bounded⟩
  notAhead := by
    intro n hn
    cases eq_branch_of_nonempty hn
    refine ⟨.inr ((covers_own (leaf path value) 0).trans (sampleWriter_forward.compactAt_le (zero_le k))), ?_⟩
    rw [update_self]
    exact fun m hm => by cases hm

/-- The root and its leaf are the only keys. -/
theorem key_of_single {key : List Nibble} (hne : key ≠ [])
    (h : (single offsets branch path value).lookup key ≠ none) : key = branch :: path := by
  cases key with
  | nil => exact absurd rfl hne
  | cons n rest =>
    have hbel : (single offsets branch path value).lookup (n :: rest) =
        (update (fun _ => empty) branch (leaf path value) n).lookup rest := lookup_below n rest
    rw [hbel] at h
    by_cases hn : n = branch
    · rw [hn, update_self] at h
      rcases path_cases path rest with hnot | rfl | ⟨m, tail, rfl⟩
      · exact absurd (lookup_of_not_under hnot) h
      · rw [hn]
      · exact absurd (lookup_below m tail) h
    · rw [update_of_ne hn] at h
      exact absurd rfl h

local instance neZeroNibbles : NeZero 16 := ⟨by decide⟩

/-- A source with one key, and a trie to copy to, with given offsets. -/
def sampleSrc : Trie := single [1, 0, 0, 0, 1, 0, 0, 0] 0 [] [7]

def sampleDest (offset : UInt8) : Trie := single [offset, 0, 0, 0, 1, 0, 0, 0] 1 [2] [8]

theorem sampleSrc_isRoot : IsRoot sampleWriter 1 sampleSrc := single_isRoot (by decide) 1

theorem sampleDest_isRoot (offset : UInt8) : IsRoot sampleWriter 1 (sampleDest offset) := by
  refine single_isRoot ?_ 1
  intro hnone
  cases hnone

theorem sampleSrc_find : sampleSrc.find [0] = some (leaf [] [7]) := rfl

theorem sampleDest_apart {offset : UInt8} {dest : List Nibble} (h : ¬dest <+: [1, 2] ∧ ¬[1, 2] <+: dest) :
    ∀ key, key ≠ [] → (sampleDest offset).lookup key ≠ none → ¬dest <+: key ∧ ¬key <+: dest := by
  intro key hne hkey
  rw [key_of_single hne hkey]
  exact h

theorem copy_works_iff_new_branch : CopyWorks sampleWriter sampleSrc [0] (some (sampleDest 1)) [2] 1 := by
  refine (copy_works_iff sampleWriter_forward sampleSrc_isRoot sampleSrc_find ?_).mpr ?_
  · intro dest hdest
    cases hdest
    exact ⟨sampleDest_isRoot 1, .inr (sampleDest_apart (by decide))⟩
  · have hemp : ((sampleDest 1).next 2).isEmpty = true := rfl
    unfold CopyFits
    dsimp only
    rfl

/-- Between roots with different offsets the last assertion fails, and a leaf that is copied beside another one
is kept without a bound. -/
theorem copy_fails : (IsRoot sampleWriter 1 sampleSrc ∧ ∀ offset, IsRoot sampleWriter 1 (sampleDest offset)) ∧
    copyTrieToDest sampleWriter sampleSrc [0] (some (sampleDest 2)) [2] 1 = none ∧
    ¬CopyWorks sampleWriter sampleSrc [0] (some (sampleDest 1)) [1, 3] 1 := by
  refine ⟨⟨sampleSrc_isRoot, sampleDest_isRoot⟩, rfl, fun hworks => ?_⟩
  have hapart : (sampleDest 1).KeyOrApart [1, 3] := by
    refine .inr fun key hkey => ?_
    cases key with
    | nil => decide
    | cons n rest => exact (sampleDest_apart (by decide) _ (cons_ne_nil n rest) hkey).1
  have hfits := (copyWorks_some_iff sampleWriter_forward (sampleDest_isRoot 1) hapart sampleSrc_find
    leaf_bounded fun n hn => by cases hn).mp hworks
  obtain ⟨⟨n, hn, -⟩, -⟩ : (leaf [] [7]).HasBound true ∧ _ := hfits
  cases hn

end Small

end MonadExecution.Mpt.Trie
