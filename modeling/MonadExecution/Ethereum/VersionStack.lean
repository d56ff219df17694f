import Mathlib.Data.List.Pairwise
import Mathlib.Tactic.SplitIfs

/-!
# Version stacks

`VersionStack<T>` keeps the values an object had at the start of the call frames that changed it,
each with the number of its frame, newest on top. A frame that does not touch the object adds
nothing. The stack of the source is never empty except in the moment before its owner drops it, so
here the top entry is a field of its own and `popReject` returns no stack instead of an empty one;
that versions grow towards the top is carried by the structure.

What a stack stands for is said by `valueAt`: the value the object has in frame `n`, which is the
topmost entry of a version not above `n`. Each operation is described by its effect on `valueAt`.
-/

namespace MonadExecution.Ethereum

open List Prod

/-- The values of one object, by version. -/
structure VersionStack (T : Type) where
  version : Nat
  recent : T
  below : List (Nat × T)
  ordered : ((version, recent) :: below).Pairwise fun x y => y.1 < x.1

namespace VersionStack

variable {T : Type}

/-- `VersionStack(value, version)`. -/
def start (value : T) (version : Nat) : VersionStack T where
  version := version
  recent := value
  below := []
  ordered := pairwise_singleton ..

def size (s : VersionStack T) : Nat := s.below.length + 1

theorem below_lt (s : VersionStack T) {x : Nat × T} (hx : x ∈ s.below) : x.1 < s.version :=
  (pairwise_cons.mp s.ordered).1 x hx

theorem below_ordered (s : VersionStack T) : s.below.Pairwise fun x y => y.1 < x.1 := (pairwise_cons.mp s.ordered).2

/-- Store `x` through the reference that `current(version)` returns: in a new entry if the top one
belongs to an older version, over the top one otherwise. -/
def write (s : VersionStack T) (version : Nat) (x : T) : VersionStack T :=
  if h : s.version < version then
    { version := version
      recent := x
      below := (s.version, s.recent) :: s.below
      ordered := by
        refine pairwise_cons.mpr ⟨?_, s.ordered⟩
        intro y hy
        rcases mem_cons.mp hy with rfl | hy
        · exact h
        · exact Nat.lt_trans (s.below_lt hy) h }
  else
    { s with
      recent := x
      ordered := pairwise_cons.mpr ⟨fun _ hy => s.below_lt hy, s.below_ordered⟩ }

/-- `pop_accept(version)`: an entry of the version becomes the entry of the version below it. -/
def popAccept (s : VersionStack T) (version : Nat) : VersionStack T :=
  if hv : s.version = version then
    match hb : s.below with
    | [] =>
      { version := version - 1
        recent := s.recent
        below := []
        ordered := pairwise_singleton .. }
    | (v, y) :: rest =>
      if h : v + 1 = version then
        { version := v
          recent := s.recent
          below := rest
          ordered := by
            have ho := s.below_ordered
            rw [hb] at ho
            exact pairwise_cons.mpr ⟨(pairwise_cons.mp ho).1, (pairwise_cons.mp ho).2⟩ }
      else
        { version := version - 1
          recent := s.recent
          below := (v, y) :: rest
          ordered := by
            have ho := s.below_ordered
            have hlt : v < s.version := s.below_lt (x := (v, y)) (by rw [hb]; exact mem_cons_self)
            rw [hb] at ho
            refine pairwise_cons.mpr ⟨?_, ho⟩
            intro z hz
            rcases mem_cons.mp hz with rfl | hz
            · show v < version - 1
              omega
            · have hzv : z.1 < v := (pairwise_cons.mp ho).1 z hz
              show z.1 < version - 1
              omega }
  else s

/-- `pop_reject(version)`: an entry of the version is dropped; no stack is left if it was the only
entry. -/
def popReject (s : VersionStack T) (version : Nat) : Option (VersionStack T) :=
  if s.version = version then
    match hb : s.below with
    | [] => none
    | (v, y) :: rest =>
      some
        { version := v
          recent := y
          below := rest
          ordered := by
            have ho := s.below_ordered
            rw [hb] at ho
            exact ho }
  else some s

/-! ## What a stack stands for -/

/-- The topmost entry of a version not above `n`. -/
def lastAt (n : Nat) : List (Nat × T) → Option T
  | [] => none
  | (v, x) :: rest => if v ≤ n then some x else lastAt n rest

/-- The value of the object in frame `n`. -/
def valueAt (s : VersionStack T) (n : Nat) : Option T := lastAt n ((s.version, s.recent) :: s.below)

theorem valueAt_eq (s : VersionStack T) (n : Nat) :
    s.valueAt n = if s.version ≤ n then some s.recent else lastAt n s.below := rfl

variable {n v : Nat} {s s' : VersionStack T} {P : T → Prop}

theorem valueAt_of_le (s : VersionStack T) (h : s.version ≤ n) : s.valueAt n = some s.recent := if_pos h

theorem valueAt_of_lt (s : VersionStack T) (h : n < s.version) :
    s.valueAt n = lastAt n s.below := if_neg (Nat.not_le.mpr h)

@[simp] theorem valueAt_start (x : T) (v n : Nat) : (start x v).valueAt n = if v ≤ n then some x else none := rfl

section

variable (s : VersionStack T)

/-- A value written in frame `v` is seen from that frame on. -/
theorem valueAt_write (hv : s.version ≤ v) (x : T) (n : Nat) :
    (s.write v x).valueAt n = if v ≤ n then some x else s.valueAt n := by
  unfold write
  by_cases h : s.version < v
  · rw [dif_pos h]
    rfl
  rw [dif_neg h]
  have heq : s.version = v := by omega
  subst heq
  rw [valueAt_eq, valueAt_eq]
  split_ifs <;> rfl

@[simp] theorem recent_write (v : Nat) (x : T) : (s.write v x).recent = x := by
  unfold write
  split <;> rfl

theorem version_write (hv : s.version ≤ v) (x : T) : (s.write v x).version = v := by
  unfold write
  by_cases h : s.version < v
  · rw [dif_pos h]
  rw [dif_neg h]
  show s.version = v
  omega

/-- Accepting frame `v` gives the frame below it the values of `v`. -/
theorem valueAt_popAccept (hv : s.version ≤ v) (hpos : 0 < v) (hn : n < v) :
    (s.popAccept v).valueAt n = if n + 1 = v then s.valueAt v else s.valueAt n := by
  rw [s.valueAt_of_le hv]
  unfold popAccept
  by_cases hver : s.version = v
  · rw [dif_pos hver, s.valueAt_of_lt (by omega)]
    split
    · rename_i hb
      rw [valueAt_eq, hb]
      show (if v - 1 ≤ n then some s.recent else lastAt n []) = _
      congr 1
      simp only [eq_iff_iff]
      omega
    rename_i w y rest hb
    have hlast : lastAt n s.below = if w ≤ n then some y else lastAt n rest := by
      rw [hb]
      rfl
    by_cases hw1 : w + 1 = v
    · rw [dif_pos hw1]
      show (if w ≤ n then some s.recent else lastAt n rest) = _
      by_cases hn1 : n + 1 = v
      · rw [if_pos hn1, if_pos (by omega)]
      · rw [if_neg hn1, hlast, if_neg (by omega), if_neg (by omega)]
    · rw [dif_neg hw1]
      show (if v - 1 ≤ n then some s.recent else lastAt n ((w, y) :: rest)) = _
      by_cases hn1 : n + 1 = v
      · rw [if_pos hn1, if_pos (by omega)]
      rw [if_neg hn1, hlast, if_neg (by omega)]
      rfl
  · rw [dif_neg hver]
    split_ifs with hn1
    · exact s.valueAt_of_le (by omega)
    · rfl

theorem version_popAccept (hv : s.version ≤ v) (hpos : 0 < v) : (s.popAccept v).version < v := by
  unfold popAccept
  by_cases hver : s.version = v
  · rw [dif_pos hver]
    split
    · show v - 1 < v
      omega
    rename_i w y rest hb
    split_ifs with h
    · show w < v
      omega
    · show v - 1 < v
      omega
  · rw [dif_neg hver]
    omega

/-- Rejecting frame `v` leaves what was seen in the frames below it. -/
theorem valueAt_popReject (hn : n < v) : ((s.popReject v).bind fun s' => s'.valueAt n) = s.valueAt n := by
  unfold popReject
  by_cases hver : s.version = v
  · rw [if_pos hver, s.valueAt_of_lt (by omega)]
    split <;> rename_i hb
    · rw [hb]
      rfl
    · exact (congrArg (lastAt n) hb).symm
  · rw [if_neg hver]
    rfl

end

theorem version_popReject (hv : s.version ≤ v) (h : s.popReject v = some s') : s'.version < v := by
  unfold popReject at h
  by_cases hver : s.version = v
  · rw [if_pos hver] at h
    split at h
    · cases h
    rename_i w y rest hb
    cases h
    have := s.below_lt (x := (w, y)) (by rw [hb]; exact mem_cons_self)
    show w < v
    omega
  · rw [if_neg hver] at h
    cases h
    omega

/-! ## The versions of a stack -/

/-- The versions a stack has entries for, newest first. -/
def versions (s : VersionStack T) : List Nat := s.version :: s.below.map Prod.fst

theorem le_version_of_mem (s : VersionStack T) (hn : n ∈ s.versions) : n ≤ s.version := by
  rcases mem_cons.mp hn with rfl | hn
  · exact Nat.le_refl _
  obtain ⟨x, hx, rfl⟩ := mem_map.mp hn
  exact Nat.le_of_lt (s.below_lt hx)

@[simp] theorem mem_versions_start {x : T} : n ∈ (start x v).versions ↔ n = v := by simp [start, versions]

theorem mem_versions_write (s : VersionStack T) (hv : s.version ≤ v) (x : T) :
    n ∈ (s.write v x).versions ↔ n = v ∨ n ∈ s.versions := by
  unfold write
  by_cases h : s.version < v
  · rw [dif_pos h]
    simp [versions]
  · rw [dif_neg h]
    have heq : s.version = v := by omega
    simp [versions, heq]

theorem mem_versions_popAccept (s : VersionStack T) (hv : s.version ≤ v) (hpos : 0 < v) :
    n ∈ (s.popAccept v).versions ↔ (n ≠ v ∧ n ∈ s.versions) ∨ (n + 1 = v ∧ v ∈ s.versions) := by
  unfold popAccept
  by_cases hver : s.version = v
  · rw [dif_pos hver]
    have hmem : v ∈ s.versions := hver ▸ mem_cons_self
    have hlt : ∀ x ∈ s.below, x.1 < v := fun x hx => hver ▸ s.below_lt hx
    have hspl : n ∈ s.versions ↔ n = v ∨ n ∈ s.below.map fst := by
      rw [versions, hver]
      exact mem_cons
    have hbel : n ∈ s.below.map fst → n ≠ v := by
      intro hn
      obtain ⟨x, hx, rfl⟩ := mem_map.mp hn
      exact Nat.ne_of_lt (hlt x hx)
    have hgoal : (n ≠ v ∧ n ∈ s.versions) ∨ (n + 1 = v ∧ v ∈ s.versions) ↔ n ∈ s.below.map fst ∨ n + 1 = v := by
      rw [hspl]
      constructor
      · rintro (⟨hne, rfl | hn⟩ | ⟨hn, -⟩)
        · exact absurd rfl hne
        · exact .inl hn
        · exact .inr hn
      · rintro (hn | hn)
        · exact .inl ⟨hbel hn, .inr hn⟩
        · exact .inr ⟨hn, hmem⟩
    rw [hgoal]
    split
    · rename_i hb
      show n ∈ [v - 1] ↔ _
      rw [hb, mem_singleton]
      simp only [map_nil, not_mem_nil, false_or]
      omega
    rename_i w y rest hb
    have hmap : s.below.map fst = w :: rest.map fst := by
      rw [hb]
      rfl
    rw [hmap, mem_cons]
    split_ifs with hw
    · show n ∈ w :: rest.map fst ↔ _
      rw [mem_cons, show n + 1 = v ↔ n = w by omega, or_right_comm, or_self]
    · show n ∈ (v - 1) :: w :: rest.map fst ↔ _
      rw [mem_cons, mem_cons, show n + 1 = v ↔ n = v - 1 by omega, or_comm]
  · rw [dif_neg hver]
    have hnot : v ∉ s.versions := by
      intro hmem
      have := s.le_version_of_mem hmem
      omega
    constructor
    · intro hn
      exact .inl ⟨fun h => hnot (h ▸ hn), hn⟩
    · rintro (⟨-, hn⟩ | ⟨-, hn⟩)
      · exact hn
      · exact absurd hn hnot

theorem mem_versions_popReject (hv : s.version ≤ v) (h : s.popReject v = some s') :
    n ∈ s'.versions ↔ n ≠ v ∧ n ∈ s.versions := by
  unfold popReject at h
  by_cases hver : s.version = v
  · rw [if_pos hver] at h
    split at h
    · cases h
    rename_i w y rest hb
    cases h
    have hmap : s.versions = v :: w :: rest.map fst := by
      rw [versions, hb, hver]
      rfl
    rw [hmap]
    show n ∈ w :: rest.map fst ↔ _
    have hlt : n ∈ w :: rest.map fst → n ≠ v := by
      intro hn
      have hn' : n ∈ s.below.map fst := by
        rw [hb]
        exact hn
      obtain ⟨x, hx, rfl⟩ := mem_map.mp hn'
      exact hver ▸ Nat.ne_of_lt (s.below_lt hx)
    constructor
    · intro hn
      exact ⟨hlt hn, mem_cons_of_mem _ hn⟩
    · rintro ⟨hne, hn⟩
      exact (mem_cons.mp hn).resolve_left hne
  · rw [if_neg hver] at h
    cases h
    have hnot : v ∉ s.versions := by
      intro hmem
      have := s.le_version_of_mem hmem
      omega
    exact ⟨fun hn => ⟨fun h => hnot (h ▸ hn), hn⟩, fun hn => hn.2⟩

theorem eq_of_popReject_none (h : s.popReject v = none) (hn : n ∈ s.versions) : n = v := by
  unfold popReject at h
  by_cases hver : s.version = v
  · rw [if_pos hver] at h
    split at h
    · rename_i hb
      rw [versions, hb, hver] at hn
      simpa using hn
    · cases h
  · rw [if_neg hver] at h
    cases h

/-! ## Properties of all stored values -/

/-- Every value of the stack satisfies `P`. -/
def Forall (P : T → Prop) (s : VersionStack T) : Prop := P s.recent ∧ ∀ x ∈ s.below, P x.2

theorem Forall.start {x : T} (h : P x) (v : Nat) : (start x v).Forall P := ⟨h, by simp [VersionStack.start]⟩

theorem Forall.write (hs : s.Forall P) {x : T} (hx : P x) (v : Nat) : (s.write v x).Forall P := by
  unfold VersionStack.write
  split
  · refine ⟨hx, ?_⟩
    intro y hy
    rcases mem_cons.mp hy with rfl | hy
    · exact hs.1
    · exact hs.2 y hy
  · exact ⟨hx, hs.2⟩

theorem Forall.popAccept (hs : s.Forall P) (v : Nat) : (s.popAccept v).Forall P := by
  unfold VersionStack.popAccept
  split
  · split
    · exact ⟨hs.1, by simp⟩
    rename_i hb
    have hall := hs.2
    rw [hb] at hall
    split
    · exact ⟨hs.1, fun y hy => hall y (mem_cons_of_mem _ hy)⟩
    · exact ⟨hs.1, hall⟩
  · exact hs

theorem Forall.popReject (hs : s.Forall P) (h : s.popReject v = some s') : s'.Forall P := by
  unfold VersionStack.popReject at h
  split at h
  · split at h
    · cases h
    rename_i hb
    have hall := hs.2
    rw [hb] at hall
    cases h
    exact ⟨hall _ mem_cons_self, fun y hy => hall y (mem_cons_of_mem _ hy)⟩
  · cases h
    exact hs

end VersionStack

end MonadExecution.Ethereum
