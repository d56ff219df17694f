import MonadExecution.Lib.Stores
import Mathlib.Data.Nat.Bitwise
import Mathlib.Tactic.Ring

/-!
# The ring of root offsets

The offsets of the roots of the last versions are kept in a ring, addressed by the low bits of the
version. `next_version_` is one past the largest version (zero when there is none), and
`version_lower_bound_` is a bound below which nothing is valid. The functions of
`root_offsets_delegator` are `Stores` programs; what a completed call does to the roots that can be
looked up is said by one lemma for each.
-/

namespace MonadExecution.Mpt

/-- `chunk_offset_t`: where a node lies in the storage pool. -/
structure ChunkOffset where
  id : BitVec 20
  offset : BitVec 28
  spare : BitVec 15
  deriving DecidableEq, Repr

/-- `INVALID_OFFSET`, all bits one. -/
def invalidOffset : ChunkOffset where
  id := BitVec.allOnes 20
  offset := BitVec.allOnes 28
  spare := BitVec.allOnes 15

/-- Comparison with `INVALID_OFFSET`, which does not look at the spare bits. -/
def ChunkOffset.isInvalid (o : ChunkOffset) : Bool := o.offset == invalidOffset.offset && o.id == invalidOffset.id

@[simp] theorem isInvalid_invalidOffset : invalidOffset.isInvalid = true := rfl

/-- The number of values of `uint64_t`. -/
def uint64Count : Nat := 2 ^ 64

/-- `INVALID_BLOCK_NUM`, the largest `uint64_t`. -/
def invalidBlockNum : Nat := uint64Count - 1

/-- What a `root_offsets_delegator` is bound to: the two words of the header and the live entries. -/
@[ext] structure Ring where
  versionLowerBound : Nat
  nextVersion : Nat
  slots : List ChunkOffset
  deriving DecidableEq

namespace Ring

def capacity (r : Ring) : Nat := r.slots.length

/-- The slot of a version; the capacity is a power of two. -/
def position (r : Ring) (i : Nat) : Nat := i &&& (r.capacity - 1)

/-- `operator[]` -/
def get (r : Ring) (i : Nat) : ChunkOffset := r.slots.getD (r.position i) invalidOffset

/-- `max_version`, one less than `next_version_` as a `uint64_t`: `INVALID_BLOCK_NUM` for an empty
ring. -/
def maxVersion (r : Ring) : Nat := if r.nextVersion = 0 then invalidBlockNum else r.nextVersion - 1

def setSlot (r : Ring) (i : Nat) (o : ChunkOffset) : Ring := { r with slots := r.slots.set (r.position i) o }

/-! ## The programs -/

open Stores List Option

def storeLowerBound (v : Nat) : Stores Ring Unit := store fun r => { r with versionLowerBound := v }

def storeNextVersion (v : Nat) : Stores Ring Unit := store fun r => { r with nextVersion := v }

def storeSlot (i : Nat) (o : ChunkOffset) : Stores Ring Unit := store fun r => r.setSlot i o

/-- The scan of `update_version_lower_bound_`: over `n` slots from `idx`, up to a valid one. -/
def scan (r : Ring) : Nat → Nat → Nat
  | 0, idx => idx
  | n + 1, idx => if (r.get idx).isInvalid then r.scan n (idx + 1) else idx

/-- The bound that `update_version_lower_bound_` arrives at. -/
def lowerBoundFrom (r : Ring) (lowerBound : Nat) : Nat :=
  let idx := if lowerBound < r.versionLowerBound then lowerBound else r.versionLowerBound
  if r.maxVersion = invalidBlockNum then r.versionLowerBound
  else r.scan (r.maxVersion - idx) idx

def updateVersionLowerBound (lowerBound : Nat) : Stores Ring Unit := do
  let r ← load id
  let idx := r.lowerBoundFrom lowerBound
  onlyIf (idx ≠ r.versionLowerBound) (storeLowerBound idx)

def push (o : ChunkOffset) : Stores Ring Unit := do
  let r ← load id
  require (r.capacity ≠ 0)
  -- the next version would wrap around to zero
  require (r.nextVersion ≠ invalidBlockNum)
  storeSlot r.nextVersion o
  storeNextVersion (r.nextVersion + 1)
  onlyIf (!o.isInvalid) (updateVersionLowerBound invalidBlockNum)

def assign (i : Nat) (o : ChunkOffset) : Stores Ring Unit := do
  let r ← load id
  require (r.capacity ≠ 0)
  storeSlot i o
  updateVersionLowerBound (if o.isInvalid then invalidBlockNum else i)

/-- `memset` of the live entries to `0xff`. -/
def fillInvalid : Stores Ring Unit := do
  let r ← load id
  each (List.range r.capacity) fun p => store fun r => { r with slots := r.slots.set p invalidOffset }

def resetAll (version : Nat) : Stores Ring Unit := do
  let r ← load id
  require (r.capacity ≠ 0)
  storeLowerBound 0
  storeNextVersion 0
  fillInvalid
  storeLowerBound version
  storeNextVersion version

/-- The loop's bound `max_version()` is not changed by the assignments inside it. -/
def rewindToVersion (version : Nat) : Stores Ring Unit := do
  let r ← load id
  require (version < r.maxVersion)
  require (r.maxVersion - version ≤ r.capacity)
  each (List.range' (version + 1) (r.maxVersion - version)) fun i => assign i invalidOffset
  let r ← load id
  onlyIf (version < r.versionLowerBound) (storeLowerBound version)
  storeNextVersion (version + 1)
  updateVersionLowerBound invalidBlockNum

/-- The pushes of invalid offsets in `fast_forward_next_version`, `n` of them. -/
def pushInvalid : Nat → Stores Ring Unit
  | 0 => pure ()
  | n + 1 => do
    push invalidOffset
    pushInvalid n

/-- `fast_forward_next_version` on one copy. -/
def fastForward (newVersion : Nat) : Stores Ring Unit := do
  let r ← load id
  let curr := r.maxVersion
  require (curr = invalidBlockNum ∨ curr < newVersion)
  if curr = invalidBlockNum ∨ r.capacity ≤ newVersion - curr then
    resetAll newVersion
  else
    pushInvalid (newVersion - (curr + 1))

/-! ## Completed calls -/

/-- What `update_version_lower_bound_` leaves. -/
def raised (r : Ring) (lowerBound : Nat) : Ring := { r with versionLowerBound := r.lowerBoundFrom lowerBound }

/-- What `push` leaves. -/
def pushed (r : Ring) (o : ChunkOffset) : Ring :=
  let r' := { r.setSlot r.nextVersion o with nextVersion := r.nextVersion + 1 }
  if o.isInvalid then r' else r'.raised invalidBlockNum

/-- What `assign` leaves. -/
def assigned (r : Ring) (i : Nat) (o : ChunkOffset) : Ring :=
  (r.setSlot i o).raised (if o.isInvalid then invalidBlockNum else i)

/-- What `reset_all` leaves. -/
def cleared (r : Ring) (version : Nat) : Ring where
  versionLowerBound := version
  nextVersion := version
  slots := List.replicate r.capacity invalidOffset

section

variable (r : Ring)

@[simp] theorem capacity_setSlot (i : Nat) (o : ChunkOffset) : (r.setSlot i o).capacity = r.capacity := length_set

@[simp] theorem capacity_raised (l : Nat) : (r.raised l).capacity = r.capacity := by
  unfold raised capacity
  rfl

@[simp] theorem capacity_pushed (o : ChunkOffset) : (r.pushed o).capacity = r.capacity := by
  unfold pushed
  split_ifs
  · exact length_set
  rw [capacity_raised]
  exact length_set

@[simp] theorem capacity_assigned (i : Nat) (o : ChunkOffset) : (r.assigned i o).capacity = r.capacity := by
  unfold assigned
  rw [capacity_raised, capacity_setSlot]

@[simp] theorem capacity_cleared (v : Nat) : (r.cleared v).capacity = r.capacity := length_replicate

@[simp] theorem nextVersion_pushed (o : ChunkOffset) : (r.pushed o).nextVersion = r.nextVersion + 1 := by
  unfold pushed
  split_ifs <;> rfl

@[simp] theorem nextVersion_assigned (i : Nat) (o : ChunkOffset) : (r.assigned i o).nextVersion = r.nextVersion := by
  unfold assigned raised setSlot
  rfl

@[simp] theorem maxVersion_assigned (i : Nat) (o : ChunkOffset) : (r.assigned i o).maxVersion = r.maxVersion := by
  unfold maxVersion
  rw [nextVersion_assigned]

end

theorem scan_spec (r : Ring) (n idx : Nat) : idx ≤ r.scan n idx ∧ r.scan n idx ≤ idx + n ∧
    (∀ v, idx ≤ v → v < r.scan n idx → (r.get v).isInvalid) ∧
    (r.scan n idx < idx + n → (r.get (r.scan n idx)).isInvalid = false) := by
  induction n generalizing idx with
  | zero => exact ⟨le_rfl, le_rfl, fun v hv hv' => absurd hv' (not_lt.mpr hv), fun h => absurd h (lt_irrefl _)⟩
  | succ n ih =>
    unfold scan
    split_ifs with hinv
    · obtain ⟨hle, hle', hbel, hat⟩ := ih (idx + 1)
      refine ⟨by omega, by omega, fun v hv hv' => ?_, fun h => hat (by omega)⟩
      rcases eq_or_lt_of_le hv with rfl | hlt
      · exact hinv
      · exact hbel v hlt hv'
    · refine ⟨le_rfl, by omega, fun v hv hv' => absurd hv' (not_lt.mpr hv), fun _ => ?_⟩
      exact Bool.eq_false_iff.mpr hinv

theorem maxVersion_lt {r : Ring} (hnext : r.nextVersion ≤ invalidBlockNum) (hmax : r.maxVersion ≠ invalidBlockNum) :
    r.maxVersion < invalidBlockNum := by
  unfold maxVersion at hmax ⊢
  split_ifs at hmax ⊢ with hzero
  · exact absurd rfl hmax
  · omega

theorem isInvalid_setSlot {r : Ring} {i w : Nat} {o : ChunkOffset} (ho : o.isInvalid) :
    ((r.setSlot i o).get w).isInvalid ↔ r.position w = r.position i ∨ (r.get w).isInvalid := by
  have hpos : (r.setSlot i o).position w = r.position w := by
    unfold position
    rw [capacity_setSlot]
  unfold get
  rw [hpos]
  unfold setSlot
  rw [getD_eq_getElem?_getD, getD_eq_getElem?_getD, getElem?_set]
  by_cases heq : r.position i = r.position w
  · rw [if_pos heq]
    split_ifs
    · exact iff_of_true ho (.inl heq.symm)
    · exact iff_of_true isInvalid_invalidOffset (.inl heq.symm)
  · rw [if_neg heq]
    exact ⟨.inr, fun h => h.resolve_left (Ne.symm heq)⟩

section

variable {r : Ring} (hnext : r.nextVersion ≤ invalidBlockNum) (hmax : r.maxVersion ≠ invalidBlockNum)

include hnext hmax

/-- The scan after an erasure, for a bound that the ring has not passed. -/
theorem lowerBound_assigned_eq {i : Nat} {o : ChunkOffset} (ho : o.isInvalid) (hlow : r.versionLowerBound ≤ r.maxVersion) :
    (r.assigned i o).versionLowerBound =
      (r.setSlot i o).scan (r.maxVersion - r.versionLowerBound) r.versionLowerBound := by
  have hlt := maxVersion_lt hnext hmax
  show (r.setSlot i o).lowerBoundFrom (if o.isInvalid then invalidBlockNum else i) = _
  rw [if_pos ho]
  unfold lowerBoundFrom
  dsimp only
  rw [if_neg (show ¬ (r.setSlot i o).maxVersion = invalidBlockNum from hmax),
    if_neg (show ¬ invalidBlockNum < (r.setSlot i o).versionLowerBound from not_lt.mpr (hlow.trans hlt.le))]
  rfl

/-- The bound that has passed the largest version stays above it. -/
theorem lt_lowerBound_assigned {i : Nat} {o : ChunkOffset} (ho : o.isInvalid) (hlow : r.maxVersion < r.versionLowerBound) :
    r.maxVersion < (r.assigned i o).versionLowerBound := by
  have hlt := maxVersion_lt hnext hmax
  show _ < (r.setSlot i o).lowerBoundFrom (if o.isInvalid then invalidBlockNum else i)
  rw [if_pos ho]
  unfold lowerBoundFrom
  dsimp only
  rw [if_neg (show ¬ (r.setSlot i o).maxVersion = invalidBlockNum from hmax)]
  refine lt_of_lt_of_le ?_ (scan_spec _ _ _).1
  split_ifs
  · exact hlt
  · exact hlow

theorem lowerBound_assigned_le {i : Nat} :
    (r.assigned i invalidOffset).versionLowerBound ≤ r.maxVersion ↔ r.versionLowerBound ≤ r.maxVersion := by
  by_cases hlow : r.versionLowerBound ≤ r.maxVersion
  · refine iff_of_true ?_ hlow
    rw [lowerBound_assigned_eq hnext hmax rfl hlow]
    have hle := (scan_spec (r.setSlot i invalidOffset) (r.maxVersion - r.versionLowerBound) r.versionLowerBound).2.1
    omega
  · exact iff_of_false (not_le.mpr (lt_lowerBound_assigned hnext hmax rfl (not_le.mp hlow))) hlow

/-- When the largest version is erased, the bound arrives at it if nothing else is valid. -/
theorem lowerBound_assigned {i : Nat} {o : ChunkOffset} (ho : o.isInvalid) (hi : i = r.maxVersion) :
    (r.assigned i o).versionLowerBound = i ↔ r.versionLowerBound ≤ i ∧
      ∀ w, r.versionLowerBound ≤ w → w < i → r.position w ≠ r.position i → (r.get w).isInvalid := by
  by_cases hlow : r.versionLowerBound ≤ r.maxVersion
  · rw [lowerBound_assigned_eq hnext hmax ho hlow]
    obtain ⟨hge, hle, hbelow, hat⟩ :=
      scan_spec (r.setSlot i o) (r.maxVersion - r.versionLowerBound) r.versionLowerBound
    constructor
    · intro heq
      refine ⟨hi ▸ hlow, fun w hw hlt hne => ?_⟩
      exact ((isInvalid_setSlot ho).mp (hbelow w hw (hlt.trans_eq heq.symm))).resolve_left hne
    · rintro ⟨-, hrest⟩
      by_contra hne
      have hfirst := hat (by omega)
      have hinvalid := (isInvalid_setSlot (r := r) (i := i) ho).mpr ((em _).imp_right
        (hrest _ hge (by omega)))
      exact Bool.noConfusion (hfirst.symm.trans hinvalid)
  · refine iff_of_false ?_ fun h => hlow (hi ▸ h.1)
    rw [hi]
    exact (lt_lowerBound_assigned hnext hmax ho (not_le.mp hlow)).ne'

end

theorem exec_updateVersionLowerBound (l : Nat) (r : Ring) :
    exec (updateVersionLowerBound l) r = some ((), r.raised l) := by
  unfold updateVersionLowerBound raised storeLowerBound
  simp only [exec_bind, exec_load, bind_some, id_eq, exec_onlyIf, exec_store]
  by_cases h : r.lowerBoundFrom l ≠ r.versionLowerBound
  · rw [if_pos h]
  · rw [if_neg h, not_not.mp h]

theorem exec_push (o : ChunkOffset) (r : Ring) : exec (push o) r =
    if r.capacity ≠ 0 ∧ r.nextVersion ≠ invalidBlockNum then some ((), r.pushed o)
    else none := by
  unfold push
  by_cases hcap : r.capacity ≠ 0
  · by_cases hnext : r.nextVersion ≠ invalidBlockNum
    · rw [if_pos ⟨hcap, hnext⟩]
      simp only [exec_bind, exec_load, bind_some, exec_require, id_eq, if_pos hcap,
        if_pos hnext, storeSlot, storeNextVersion, exec_store, exec_onlyIf,
        exec_updateVersionLowerBound]
      unfold pushed
      by_cases ho : o.isInvalid
      · simp [ho]
      · simp [ho]
    · rw [if_neg fun h => hnext h.2]
      simp only [exec_bind, exec_load, bind_some, exec_require, id_eq, if_pos hcap, if_neg hnext, bind_none]
  · rw [if_neg fun h => hcap h.1]
    simp only [exec_bind, exec_load, bind_some, exec_require, id_eq, if_neg hcap, bind_none]

theorem exec_assign (i : Nat) (o : ChunkOffset) (r : Ring) :
    exec (assign i o) r = if r.capacity ≠ 0 then some ((), r.assigned i o) else none := by
  unfold assign
  by_cases hcap : r.capacity ≠ 0
  · rw [if_pos hcap]
    simp only [exec_bind, exec_load, bind_some, exec_require, id_eq, if_pos hcap, storeSlot,
      exec_store, exec_updateVersionLowerBound]
    rfl
  · rw [if_neg hcap]
    simp only [exec_bind, exec_load, bind_some, exec_require, id_eq, if_neg hcap, bind_none]

/-- The entries below `n` are overwritten, the others are left. -/
theorem exec_fillBelow (n : Nat) (r : Ring) : exec (each (range n) fun p =>
      store fun r : Ring => { r with slots := r.slots.set p invalidOffset }) r =
    some ((), { r with slots := r.slots.mapIdx fun p o => if p < n then invalidOffset else o }) := by
  induction n with
  | zero =>
    refine congrArg some (congrArg (Prod.mk ()) (congrArg (Ring.mk _ _) ?_))
    exact ext_getElem? fun p => by simp
  | succ n ih =>
    rw [range_succ, exec_each_append, ih, bind_some, exec_each_cons, exec_store]
    refine congrArg some (congrArg (Prod.mk ()) (congrArg (Ring.mk _ _) ?_))
    refine ext_getElem? fun p => ?_
    rw [getElem?_set, getElem?_mapIdx, getElem?_mapIdx, length_mapIdx]
    by_cases hp : n = p
    · subst hp
      by_cases hlen : n < r.slots.length
      · simp [hlen]
      · simp [hlen]
    · have hiff : p < n ↔ p < n + 1 := by omega
      simp [hp, hiff]

theorem exec_fillInvalid (r : Ring) : exec fillInvalid r =
    some ((), { r with slots := replicate r.capacity invalidOffset }) := by
  show exec (each (range r.capacity) _) r = _
  rw [exec_fillBelow]
  refine congrArg some (congrArg (Prod.mk ()) (congrArg (Ring.mk _ _) ?_))
  refine ext_getElem? fun p => ?_
  rw [getElem?_mapIdx, getElem?_replicate]
  by_cases hp : p < r.capacity
  · rw [if_pos hp, getElem?_eq_getElem hp, map_some, if_pos hp]
  · rw [if_neg hp, getElem?_eq_none (Nat.le_of_not_lt hp), map_none]

theorem exec_resetAll (v : Nat) (r : Ring) :
    exec (resetAll v) r = if r.capacity ≠ 0 then some ((), r.cleared v) else none := by
  unfold resetAll
  by_cases hcap : r.capacity ≠ 0
  · rw [if_pos hcap]
    simp only [exec_bind, exec_load, bind_some, exec_require, id_eq, if_pos hcap,
      storeLowerBound, storeNextVersion, exec_store, exec_fillInvalid]
    rfl
  · rw [if_neg hcap]
    simp only [exec_bind, exec_load, bind_some, exec_require, id_eq, if_neg hcap, bind_none]

end Ring

end MonadExecution.Mpt
