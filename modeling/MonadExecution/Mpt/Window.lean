import MonadExecution.Mpt.Ring
import Mathlib.Logic.Function.Basic

/-!
# A ring as a window of a map from versions to roots

`Ring.Holds r m` says that the ring `r` holds the map `m`: the versions of `m` lie between the lower
bound and the next version, no two of them share a slot, and all other slots in that range of the
capacity are invalid. This is kept by every step of every call, also while the slot of the maximum is
invalid. `Ring.Settled` adds what holds between calls: both ends of the window are versions.
-/

namespace MonadExecution.Mpt

/-- The valid versions and their roots. -/
abbrev Roots := Nat → Option ChunkOffset

namespace Ring

/-! ## Slots -/

def Sized (r : Ring) : Prop := ∃ k, r.capacity = 2 ^ k

variable {r : Ring}

section

variable (h : r.Sized)

include h

theorem Sized.pos : 0 < r.capacity := by
  obtain ⟨k, hk⟩ := h
  rw [hk]
  exact Nat.two_pow_pos k

theorem Sized.position (i : Nat) : r.position i = i % r.capacity := by
  obtain ⟨k, hk⟩ := h
  unfold Ring.position
  rw [hk, Nat.and_two_pow_sub_one_eq_mod]

theorem Sized.position_lt (i : Nat) : r.position i < r.slots.length := by
  rw [h.position]
  exact Nat.mod_lt i h.pos

theorem Sized.get_setSlot (i j : Nat) (o : ChunkOffset) :
    (r.setSlot i o).get j = if i % r.capacity = j % r.capacity then o else r.get j := by
  have hpos : (r.setSlot i o).position j = r.position j := by
    unfold Ring.position
    rw [capacity_setSlot]
  have hi := h.position_lt i
  unfold Ring.get
  rw [hpos, ← h.position i, ← h.position j]
  unfold setSlot
  rw [List.getD_eq_getElem?_getD, List.getD_eq_getElem?_getD, List.getElem?_set]
  by_cases hij : r.position i = r.position j
  · rw [if_pos hij, if_pos hij, if_pos (hij ▸ hi)]
    rfl
  · rw [if_neg hij, if_neg hij]

theorem Sized.get_add (v : Nat) : r.get (v + r.capacity) = r.get v := by
  unfold Ring.get
  rw [h.position, h.position, Nat.add_mod_right]

end

/-- Inside a window of the capacity, two versions have different slots. -/
theorem eq_of_mod_eq {n a v w : Nat} (h : v % n = w % n) (hv : a ≤ v) (hv' : v < a + n)
    (hw : a ≤ w) (hw' : w < a + n) : v = w := by
  have hv0 := Nat.div_add_mod v n
  have hw0 := Nat.div_add_mod w n
  rcases Nat.lt_trichotomy (v / n) (w / n) with hlt | heq | hlt
  · have hmul : n * (v / n + 1) ≤ n * (w / n) := Nat.mul_le_mul_left n hlt
    rw [Nat.mul_add] at hmul
    omega
  · rw [heq] at hv0
    omega
  · have hmul : n * (w / n + 1) ≤ n * (v / n) := Nat.mul_le_mul_left n hlt
    rw [Nat.mul_add] at hmul
    omega

/-! ## The lower bound -/

theorem maxVersion_of_pos (h : r.nextVersion ≠ 0) : r.maxVersion = r.nextVersion - 1 := if_neg h

theorem maxVersion_eq_invalid_iff (h : r.nextVersion ≤ invalidBlockNum) :
    r.maxVersion = invalidBlockNum ↔ r.nextVersion = 0 := by
  unfold maxVersion
  split_ifs with hzero
  · exact ⟨fun _ => hzero, fun _ => rfl⟩
  constructor
  · intro heq
    omega
  · intro hz
    exact absurd hz hzero

theorem lowerBoundFrom_of_le {l : Nat} (hl : r.versionLowerBound ≤ l) :
    r.lowerBoundFrom l = if r.maxVersion = invalidBlockNum then r.versionLowerBound
      else r.scan (r.maxVersion - r.versionLowerBound) r.versionLowerBound := by
  simp only [lowerBoundFrom, if_neg (not_lt.mpr hl)]

/-! ## The map a ring holds -/

/-- The ring holds exactly the map `m`. -/
structure Holds (r : Ring) (m : Roots) : Prop where
  sized : r.Sized
  bound : r.nextVersion ≤ invalidBlockNum
  room : r.nextVersion ≤ r.versionLowerBound + r.capacity
  entries : ∀ v, r.versionLowerBound ≤ v → v < r.versionLowerBound + r.capacity → r.get v = (m v).getD invalidOffset
  within : ∀ v o, m v = some o → r.versionLowerBound ≤ v ∧ v < r.nextVersion ∧ o.isInvalid = false

namespace Holds

variable {r : Ring} {m : Roots} {v l i : Nat} {o : Option ChunkOffset}

theorem none_of_ge (h : r.Holds m) (hv : r.nextVersion ≤ v) : m v = none := by
  cases hm : m v with
  | none => rfl
  | some o => exact absurd (h.within v o hm).2.1 (not_lt.mpr hv)

theorem none_of_lt (h : r.Holds m) (hv : v < r.versionLowerBound) : m v = none := by
  cases hm : m v with
  | none => rfl
  | some o => exact absurd (h.within v o hm).1 (not_le.mpr hv)

section

variable (h : r.Holds m) (hv : r.versionLowerBound ≤ v) (hv' : v < r.versionLowerBound + r.capacity)

include h hv hv'

/-- An invalid slot of the window is no version. -/
theorem none_of_isInvalid (hinv : (r.get v).isInvalid) : m v = none := by
  cases hm : m v with
  | none => rfl
  | some o =>
    rw [h.entries v hv hv', hm, Option.getD_some, (h.within v o hm).2.2] at hinv
    cases hinv

/-- A valid slot of the window is a version. -/
theorem isSome_of_not (hvalid : (r.get v).isInvalid = false) : (m v).isSome := by
  cases hm : m v with
  | some o => rfl
  | none =>
    rw [h.entries v hv hv', hm, Option.getD_none, isInvalid_invalidOffset] at hvalid
    cases hvalid

end

/-- Where `update_version_lower_bound_` comes to when it does not go down. -/
theorem lowerBoundFrom_spec (h : r.Holds m) (hl : r.versionLowerBound ≤ l) :
    r.versionLowerBound ≤ r.lowerBoundFrom l ∧
      (r.versionLowerBound < r.lowerBoundFrom l → r.lowerBoundFrom l < r.nextVersion) ∧
      (∀ v, r.versionLowerBound ≤ v → v < r.lowerBoundFrom l → m v = none) ∧
      (r.nextVersion ≠ 0 → (r.lowerBoundFrom l + 1 < r.nextVersion → (m (r.lowerBoundFrom l)).isSome)) := by
  rw [lowerBoundFrom_of_le hl]
  split_ifs with hmax
  · refine ⟨le_rfl, fun hlt => absurd hlt (lt_irrefl _), fun v hv hv' => absurd hv' (not_lt.mpr hv), fun hnext => ?_⟩
    exact absurd ((maxVersion_eq_invalid_iff h.bound).mp hmax) hnext
  have hnext : r.nextVersion ≠ 0 := fun hz => hmax ((maxVersion_eq_invalid_iff h.bound).mpr hz)
  rw [maxVersion_of_pos hnext]
  have hroom := h.room
  obtain ⟨hle, hle', hbel, hat⟩ := r.scan_spec (r.nextVersion - 1 - r.versionLowerBound) r.versionLowerBound
  refine ⟨hle, fun hlt => by omega, fun v hv hv' => ?_, fun _ hlt => ?_⟩
  · exact h.none_of_isInvalid hv (by omega) (hbel v hv hv')
  · exact h.isSome_of_not hle (by omega) (hat (by omega))

/-- Raising the lower bound over invalid slots changes nothing. -/
theorem raised (h : r.Holds m) (hl : r.versionLowerBound ≤ l) : (r.raised l).Holds m := by
  obtain ⟨hle, hlt, hnone, -⟩ := h.lowerBoundFrom_spec hl
  have hroom := h.room
  refine ⟨h.sized, h.bound, ?_, fun v hv hv' => ?_, fun v o hm => ?_⟩
  · show r.nextVersion ≤ r.lowerBoundFrom l + r.capacity
    omega
  · have hv1 : r.lowerBoundFrom l ≤ v := hv
    have hv2 : v < r.lowerBoundFrom l + r.capacity := hv'
    show r.get v = _
    by_cases hwin : v < r.versionLowerBound + r.capacity
    · exact h.entries v (le_trans hle hv1) hwin
    -- the slot of a version that was passed over
    have hback : r.get v = r.get (v - r.capacity) := by
      rw [← h.sized.get_add (v - r.capacity), Nat.sub_add_cancel (by omega)]
    rw [hback, h.entries (v - r.capacity) (by omega) (by omega),
      hnone (v - r.capacity) (by omega) (by omega), h.none_of_ge (by omega)]
  · obtain ⟨hv, hv', hvalid⟩ := h.within v o hm
    refine ⟨?_, hv', hvalid⟩
    show r.lowerBoundFrom l ≤ v
    by_contra hlow
    rw [hnone v hv (by omega)] at hm
    cases hm

section

variable (h : r.Holds m) (hi : r.versionLowerBound ≤ i) (hi' : i < r.nextVersion)

include h hi hi'

/-- A slot of the window is overwritten. -/
theorem setSlot (ho : ∀ x, o = some x → x.isInvalid = false) :
    (r.setSlot i (o.getD invalidOffset)).Holds (Function.update m i o) := by
  have hroom := h.room
  have hcap := capacity_setSlot r i (o.getD invalidOffset)
  refine ⟨?_, h.bound, ?_, fun v hv hv' => ?_, fun v x hm => ?_⟩
  · obtain ⟨k, hk⟩ := h.sized
    exact ⟨k, hcap.trans hk⟩
  · rw [hcap]
    exact hroom
  · have hv1 : r.versionLowerBound ≤ v := hv
    have hv2 : v < r.versionLowerBound + r.capacity := hcap ▸ hv'
    rw [h.sized.get_setSlot]
    by_cases hiv : i = v
    · subst hiv
      rw [if_pos rfl, Function.update_self]
    have hne : i % r.capacity ≠ v % r.capacity := fun heq => hiv (eq_of_mod_eq heq hi (by omega) hv1 hv2)
    rw [if_neg hne, Function.update_of_ne (Ne.symm hiv)]
    exact h.entries v hv1 hv2
  · by_cases hiv : v = i
    · subst hiv
      rw [Function.update_self] at hm
      exact ⟨hi, hi', ho x hm⟩
    · rw [Function.update_of_ne hiv] at hm
      exact h.within v x hm

/-- `assign` of an invalid offset takes a version away. -/
theorem erase : (r.assigned i invalidOffset).Holds (Function.update m i none) := by
  have hset := h.setSlot (o := none) hi hi' fun x hx => by cases hx
  refine hset.raised ?_
  have hbd := h.bound
  show r.versionLowerBound ≤ invalidBlockNum
  omega

/-- `assign` of a root to a version of the window. -/
theorem assign {o : ChunkOffset} (ho : o.isInvalid = false) :
    (r.assigned i o).Holds (Function.update m i (some o)) := by
  have hset := h.setSlot (o := some o) hi hi' fun x hx => by
    cases hx
    exact ho
  have hasg : r.assigned i o = (r.setSlot i o).raised i := by
    unfold assigned
    rw [ho]
    rfl
  rw [hasg]
  exact hset.raised hi

end

section

variable (h : r.Holds m) (hroom : r.nextVersion < r.versionLowerBound + r.capacity)
  (hbd : r.nextVersion < invalidBlockNum) (hlo : r.versionLowerBound ≤ r.nextVersion)

include h hroom hbd hlo

/-- A slot is added at the upper end. -/
theorem extend (ho : ∀ x, o = some x → x.isInvalid = false) :
    Holds { r.setSlot r.nextVersion (o.getD invalidOffset) with nextVersion := r.nextVersion + 1 }
      (Function.update m r.nextVersion o) := by
  have hlonger : Holds { r with nextVersion := r.nextVersion + 1 } m :=
    ⟨h.sized, hbd, hroom, h.entries, fun v x hm =>
      ⟨(h.within v x hm).1, Nat.lt_succ_of_lt (h.within v x hm).2.1, (h.within v x hm).2.2⟩⟩
  exact hlonger.setSlot hlo (Nat.lt_succ_self _) ho

/-- `push` of an invalid offset. -/
theorem skip : (r.pushed invalidOffset).Holds m := by
  have hext := h.extend (o := none) hroom hbd hlo fun x hx => by cases hx
  have hsame : Function.update m r.nextVersion none = m := Function.update_eq_self_iff.mpr (h.none_of_ge le_rfl).symm
  rw [hsame] at hext
  exact hext

end

variable {o : ChunkOffset}

theorem pushed_of_valid (ho : o.isInvalid = false) :
    r.pushed o = Ring.raised { r.setSlot r.nextVersion o with nextVersion := r.nextVersion + 1 } invalidBlockNum := by
  unfold pushed
  rw [ho]
  rfl

/-- `push` of a root. -/
theorem push (h : r.Holds m) (ho : o.isInvalid = false) (hroom : r.nextVersion < r.versionLowerBound + r.capacity)
    (hbd : r.nextVersion < invalidBlockNum) (hlo : r.versionLowerBound ≤ r.nextVersion) :
    (r.pushed o).Holds (Function.update m r.nextVersion (some o)) := by
  have hext := h.extend (o := some o) hroom hbd hlo fun x hx => by
    cases hx
    exact ho
  rw [pushed_of_valid ho]
  refine hext.raised ?_
  show r.versionLowerBound ≤ invalidBlockNum
  omega

/-- `assign` of a root to a version below the window that still has a slot of its own. -/
theorem assign_below (h : r.Holds m) (hi : i < r.versionLowerBound) (hlo : r.versionLowerBound ≤ r.nextVersion)
    (hroom : r.nextVersion ≤ i + r.capacity) (ho : o.isInvalid = false) :
    (r.assigned i o).Holds (Function.update m i (some o)) ∧ (r.assigned i o).versionLowerBound = i := by
  have hbd := h.bound
  have hi' : i < r.nextVersion := lt_of_lt_of_le hi hlo
  have hnone : ∀ v, i ≤ v → v < r.versionLowerBound → r.get v = invalidOffset := by
    intro v hv hv'
    rw [← h.sized.get_add, h.entries (v + r.capacity) (by omega) (by omega), h.none_of_ge (by omega)]
    rfl
  -- the window with its lower end moved down
  have hlonger : Holds { r with versionLowerBound := i } m := by
    refine ⟨h.sized, h.bound, hroom, fun v hv hv' => ?_, fun v x hm => ?_⟩
    · have hv1 : i ≤ v := hv
      have hv2 : v < i + r.capacity := hv'
      by_cases hlow : v < r.versionLowerBound
      · rw [h.none_of_lt hlow]
        exact hnone v hv1 hlow
      · exact h.entries v (by omega) (by omega)
    · obtain ⟨hv, hv', hvalid⟩ := h.within v x hm
      exact ⟨le_trans (le_of_lt hi) hv, hv', hvalid⟩
  have hset := hlonger.setSlot (i := i) (o := some o) le_rfl hi' fun x hx => by
    cases hx
    exact ho
  have hget : ((r.setSlot i o).get i).isInvalid = false := by
    rw [h.sized.get_setSlot, if_pos rfl]
    exact ho
  have hlow : (r.setSlot i o).lowerBoundFrom i = i := by
    have hcond : i < (r.setSlot i o).versionLowerBound := hi
    have hmax : (r.setSlot i o).maxVersion ≠ invalidBlockNum := by
      intro hmax
      have hzero := (maxVersion_eq_invalid_iff (r := r.setSlot i o) hbd).mp hmax
      exact absurd hi' (by
        rw [show r.nextVersion = 0 from hzero]
        exact Nat.not_lt_zero i)
    simp only [lowerBoundFrom, if_pos hcond, if_neg hmax]
    cases (r.setSlot i o).maxVersion - i with
    | zero => rfl
    | succ n =>
      unfold scan
      rw [if_neg (Bool.eq_false_iff.mp hget)]
  have hasg : r.assigned i o = { r.setSlot i o with versionLowerBound := i } := by
    unfold assigned Ring.raised
    rw [ho]
    show ({ r.setSlot i o with versionLowerBound := (r.setSlot i o).lowerBoundFrom i } : Ring) = _
    rw [hlow]
  rw [hasg]
  exact ⟨hset, rfl⟩

/-- `reset_all` -/
theorem cleared (h : r.Sized) (hv : v ≤ invalidBlockNum) : (r.cleared v).Holds fun _ => none := by
  have hsized : (r.cleared v).Sized := by
    obtain ⟨k, hk⟩ := h
    exact ⟨k, (capacity_cleared r v).trans hk⟩
  refine ⟨hsized, hv, Nat.le_add_right v _, fun w _ _ => ?_, fun w o hm => by cases hm⟩
  show (List.replicate r.capacity invalidOffset).getD _ _ = _
  rw [List.getD_eq_getElem?_getD, List.getElem?_replicate]
  split_ifs <;> rfl

/-- If there is a version at all, the raised lower bound is the least one. -/
theorem raised_least (h : r.Holds m) (hl : r.versionLowerBound ≤ l) (hv : (m v).isSome) :
    (m (r.raised l).versionLowerBound).isSome := by
  obtain ⟨hle, hlt, hnone, hat⟩ := h.lowerBoundFrom_spec hl
  obtain ⟨o, ho⟩ := Option.isSome_iff_exists.mp hv
  obtain ⟨hlow, hhigh, -⟩ := h.within v o ho
  have hle' : r.lowerBoundFrom l ≤ v := by
    by_contra hgt
    rw [hnone v hlow (by omega)] at ho
    cases ho
  show (m (r.lowerBoundFrom l)).isSome
  by_cases hlast : r.lowerBoundFrom l + 1 < r.nextVersion
  · exact hat (by omega) hlast
  have heq : r.lowerBoundFrom l = v := by omega
  rw [heq]
  exact hv

/-- Without a version, the raised lower bound is the maximum. -/
theorem raised_last (h : r.Holds fun _ => none) (hl : r.versionLowerBound ≤ l)
    (hlo : r.versionLowerBound < r.nextVersion) : (r.raised l).versionLowerBound + 1 = r.nextVersion := by
  obtain ⟨hle, hlt, -, hat⟩ := h.lowerBoundFrom_spec hl
  show r.lowerBoundFrom l + 1 = r.nextVersion
  have hnot : ¬ r.lowerBoundFrom l + 1 < r.nextVersion := by
    intro hmore
    have hsome := hat (by omega) hmore
    cases hsome
  rcases eq_or_lt_of_le hle with heq | hgt
  · omega
  omega

/-- A lower bound that is a version stays. -/
theorem lowerBoundFrom_eq (h : r.Holds m) (hl : r.versionLowerBound ≤ l) (hlow : (m r.versionLowerBound).isSome) :
    r.lowerBoundFrom l = r.versionLowerBound := by
  obtain ⟨hle, -, hnone, -⟩ := h.lowerBoundFrom_spec hl
  rcases eq_or_lt_of_le hle with heq | hlt
  · exact heq.symm
  rw [hnone _ le_rfl hlt] at hlow
  cases hlow

theorem lt_of_isSome (h : r.Holds m) (hv : (m v).isSome) : r.versionLowerBound ≤ v ∧ v < r.nextVersion := by
  obtain ⟨o, ho⟩ := Option.isSome_iff_exists.mp hv
  exact ⟨(h.within v o ho).1, (h.within v o ho).2.1⟩

end Holds

/-! ## Between calls -/

/-- Both ends of the window are versions. -/
structure Settled (r : Ring) (m : Roots) : Prop extends r.Holds m where
  low : (m r.versionLowerBound).isSome
  high : (m (r.nextVersion - 1)).isSome

namespace Settled

variable {r r' : Ring} {m : Roots}

theorem low_lt (h : r.Settled m) : r.versionLowerBound < r.nextVersion := (h.lt_of_isSome h.low).2

theorem maxVersion (h : r.Settled m) : r.maxVersion = r.nextVersion - 1 := by
  have := h.low_lt
  exact maxVersion_of_pos (by omega)

theorem maxVersion_ne (h : r.Settled m) : r.maxVersion ≠ invalidBlockNum := by
  have hlow := h.low_lt
  rw [Ne, maxVersion_eq_invalid_iff h.bound]
  omega

/-- The map and the capacity determine the ring. -/
theorem unique (h : r.Settled m) (h' : r'.Settled m) (hcap : r.capacity = r'.capacity) : r = r' := by
  have hlow : r.versionLowerBound = r'.versionLowerBound :=
    le_antisymm (h.lt_of_isSome h'.low).1 (h'.lt_of_isSome h.low).1
  have hnext : r.nextVersion = r'.nextVersion := by
    have h1 := (h.lt_of_isSome h'.high).2
    have h2 := (h'.lt_of_isSome h.high).2
    omega
  have hpos := h.sized.pos
  -- every slot is the slot of a version of the window
  have hget : ∀ p, r.get p = r'.get p := by
    intro p
    have hwin : ∃ v, r.versionLowerBound ≤ v ∧ v < r.versionLowerBound + r.capacity ∧
        v % r.capacity = p % r.capacity := by
      refine ⟨r.versionLowerBound + (p % r.capacity + (r.capacity - r.versionLowerBound % r.capacity)) % r.capacity,
        Nat.le_add_right _ _, Nat.add_lt_add_left (Nat.mod_lt _ hpos) _, ?_⟩
      rw [Nat.add_mod_mod]
      have hsum : r.versionLowerBound + (p % r.capacity + (r.capacity - r.versionLowerBound % r.capacity)) =
          p % r.capacity + r.capacity * (r.versionLowerBound / r.capacity + 1) := by
        have hdiv := Nat.div_add_mod r.versionLowerBound r.capacity
        have hlt := Nat.mod_lt r.versionLowerBound hpos
        rw [Nat.mul_add, mul_one]
        omega
      rw [hsum, Nat.add_mul_mod_self_left, Nat.mod_mod]
    obtain ⟨v, hv, hv', hmod⟩ := hwin
    have hp : r.get p = r.get v := by
      unfold Ring.get
      rw [h.sized.position, h.sized.position, hmod]
    have hp' : r'.get p = r'.get v := by
      unfold Ring.get
      rw [h'.sized.position, h'.sized.position, ← hcap, hmod]
    rw [hp, hp', h.entries v hv hv', h'.entries v (hlow ▸ hv) (by rw [← hlow, ← hcap]; exact hv')]
  refine Ring.ext hlow hnext (List.ext_getElem hcap fun p hp hp' => ?_)
  have hslot := hget p
  unfold Ring.get at hslot
  rw [h.sized.position, h'.sized.position, ← hcap, Nat.mod_eq_of_lt (show p < r.capacity from hp)] at hslot
  rw [List.getD_eq_getElem _ _ hp, List.getD_eq_getElem _ _ hp'] at hslot
  exact hslot

end Settled

variable {r : Ring} {m : Roots} {o : ChunkOffset} {v : Nat}

/-- After `push` of a root the window is settled. -/
theorem Holds.push_settled (h : r.Holds m) (ho : o.isInvalid = false)
    (hroom : r.nextVersion < r.versionLowerBound + r.capacity) (hbd : r.nextVersion < invalidBlockNum)
    (hlo : r.versionLowerBound ≤ r.nextVersion) :
    (r.pushed o).Settled (Function.update m r.nextVersion (some o)) := by
  have hsome : (Function.update m r.nextVersion (some o) r.nextVersion).isSome := by
    rw [Function.update_self]
    rfl
  refine ⟨h.push ho hroom hbd hlo, ?_, ?_⟩
  · have hext := h.extend (o := some o) hroom hbd hlo fun x hx => by
      cases hx
      exact ho
    rw [pushed_of_valid ho]
    exact hext.raised_least (show r.versionLowerBound ≤ invalidBlockNum by omega) hsome
  · rw [nextVersion_pushed, Nat.add_sub_cancel]
    exact hsome

variable {i : Nat}

/-- A root is assigned to a version of a settled window, or below it. -/
theorem Settled.assign (h : r.Settled m) (ho : o.isInvalid = false) (hi : i < r.nextVersion)
    (hroom : r.nextVersion ≤ i + r.capacity) :
    (r.assigned i o).Settled (Function.update m i (some o)) ∧
      (r.assigned i o).versionLowerBound = min i r.versionLowerBound := by
  have hkeep : ∀ v, (m v).isSome → (Function.update m i (some o) v).isSome := by
    intro v hv
    by_cases hvi : v = i
    · rw [hvi, Function.update_self]
      rfl
    · rwa [Function.update_of_ne hvi]
  have hlow := h.low_lt
  by_cases hbel : i < r.versionLowerBound
  · obtain ⟨hhs, heq⟩ := h.assign_below hbel (le_of_lt hlow) hroom ho
    refine ⟨⟨hhs, ?_, ?_⟩, ?_⟩
    · rw [heq, Function.update_self]
      rfl
    · exact hkeep _ h.high
    · rw [heq, min_eq_left (le_of_lt hbel)]
  have hle : r.versionLowerBound ≤ i := Nat.le_of_not_lt hbel
  have hset := h.setSlot (o := some o) hle hi fun x hx => by
    cases hx
    exact ho
  have heq : (r.assigned i o).versionLowerBound = r.versionLowerBound := by
    unfold assigned
    rw [ho]
    exact hset.lowerBoundFrom_eq (l := i) hle (hkeep _ h.low)
  refine ⟨⟨h.toHolds.assign hle hi ho, ?_, ?_⟩, ?_⟩
  · rw [heq]
    exact hkeep _ h.low
  · exact hkeep _ h.high
  · rw [heq, min_eq_right hle]

/-- The lower bound is the least version, or the maximum if there is no version. -/
structure Exact (r : Ring) (m : Roots) : Prop extends r.Holds m where
  lower : r.versionLowerBound < r.nextVersion
  least : (m r.versionLowerBound).isSome ∨ ((∀ v, m v = none) ∧ r.versionLowerBound + 1 = r.nextVersion)

theorem Settled.exact (h : r.Settled m) : r.Exact m := ⟨h.toHolds, h.low_lt, Or.inl h.low⟩

/-- An exact window without versions ends right above its lower bound. -/
theorem Exact.low_of_empty (h : r.Exact m) (hm : ∀ v, m v = none) : r.versionLowerBound + 1 = r.nextVersion := by
  rcases h.least with hleast | ⟨-, hlast⟩
  · rw [hm] at hleast
    cases hleast
  · exact hlast

/-- Erasing a version of an exact window; at the lower end, the lower bound moves up. -/
theorem Exact.erase (h : r.Exact m) (hi : r.versionLowerBound ≤ i) (hi' : i < r.nextVersion) :
    (r.assigned i invalidOffset).Exact (Function.update m i none) ∧
      r.versionLowerBound ≤ (r.assigned i invalidOffset).versionLowerBound ∧
      (i = r.versionLowerBound → i + 1 < r.nextVersion → i < (r.assigned i invalidOffset).versionLowerBound) := by
  have hbd := h.bound
  have hlow := h.lower
  have hset := h.setSlot (o := none) hi hi' fun x hx => by cases hx
  have hinv : (r.setSlot i invalidOffset).versionLowerBound ≤ invalidBlockNum := by
    show r.versionLowerBound ≤ invalidBlockNum
    omega
  obtain ⟨hle, hlt, -, -⟩ := hset.lowerBoundFrom_spec hinv
  have hle' : r.versionLowerBound ≤ (r.assigned i invalidOffset).versionLowerBound := hle
  have hlt' : r.versionLowerBound < (r.assigned i invalidOffset).versionLowerBound →
      (r.assigned i invalidOffset).versionLowerBound < r.nextVersion := hlt
  have hlo : (r.assigned i invalidOffset).versionLowerBound < (r.assigned i invalidOffset).nextVersion := by
    rw [nextVersion_assigned]
    omega
  by_cases hsome : ∃ v, (Function.update m i none v).isSome
  · obtain ⟨v, hv⟩ := hsome
    have hleast : (Function.update m i none (r.assigned i invalidOffset).versionLowerBound).isSome :=
      hset.raised_least hinv hv
    refine ⟨⟨h.toHolds.erase hi hi', hlo, Or.inl hleast⟩, hle', fun heq _ => ?_⟩
    have hne : (r.assigned i invalidOffset).versionLowerBound ≠ i := by
      intro hbad
      rw [hbad, Function.update_self] at hleast
      cases hleast
    omega
  · have hnone : ∀ v, Function.update m i none v = none := by
      intro v
      by_contra hv
      exact hsome ⟨v, Option.isSome_iff_ne_none.mpr hv⟩
    have hemp : Function.update m i none = fun _ => none := funext hnone
    have hset' : (r.setSlot i invalidOffset).Holds fun _ => none := hemp ▸ hset
    have hlast : (r.assigned i invalidOffset).versionLowerBound + 1 = r.nextVersion := hset'.raised_last hinv hlow
    refine ⟨⟨h.toHolds.erase hi hi', hlo, Or.inr ⟨hnone, hlast⟩⟩, hle', fun heq hmore => ?_⟩
    omega

/-! ## Longer calls -/

open Stores Option Nat

/-- Invalid offsets are pushed as long as there is room. -/
theorem Holds.exec_pushInvalid (h : r.Holds m) (n : Nat)
    (hroom : r.nextVersion + n ≤ r.versionLowerBound + r.capacity) (hbd : r.nextVersion + n ≤ invalidBlockNum)
    (hlo : r.versionLowerBound ≤ r.nextVersion) :
    ∃ r', exec (pushInvalid n) r = some ((), r') ∧ r'.Holds m ∧
      r'.nextVersion = r.nextVersion + n ∧ r'.versionLowerBound = r.versionLowerBound ∧
      r'.capacity = r.capacity := by
  induction n generalizing r with
  | zero => exact ⟨r, rfl, h, rfl, rfl, rfl⟩
  | succ n ih =>
    have hpush : exec (Ring.push invalidOffset) r = some ((), r.pushed invalidOffset) := by
      rw [exec_push, if_pos ⟨pos_iff_ne_zero.mp h.sized.pos, by omega⟩]
    have hnext : (r.pushed invalidOffset).nextVersion = r.nextVersion + 1 := nextVersion_pushed _ _
    have hlow : (r.pushed invalidOffset).versionLowerBound = r.versionLowerBound := rfl
    have hcap : (r.pushed invalidOffset).capacity = r.capacity := capacity_pushed _ _
    obtain ⟨r', hexec, hhs, hnext', hlow', hcap'⟩ :=
      ih (h.skip (by omega) (by omega) hlo) (by omega) (by omega) (by omega)
    refine ⟨r', ?_, hhs, by omega, hlow'.trans hlow, hcap'.trans hcap⟩
    rw [pushInvalid, exec_bind, hpush]
    exact hexec

/-- `fast_forward_next_version` of an empty ring, or far ahead. -/
theorem exec_fastForward_reset (hcap : r.capacity ≠ 0)
    (h : r.maxVersion = invalidBlockNum ∨ (r.maxVersion < v ∧ r.capacity ≤ v - r.maxVersion)) :
    exec (fastForward v) r = some ((), r.cleared v) := by
  have hassert : r.maxVersion = invalidBlockNum ∨ r.maxVersion < v := by
    rcases h with h | h
    · exact .inl h
    · exact .inr h.1
  have hreset : r.maxVersion = invalidBlockNum ∨ r.capacity ≤ v - r.maxVersion := by
    rcases h with h | h
    · exact .inl h
    · exact .inr h.2
  unfold fastForward
  rw [exec_bind, exec_load, bind_some, id_eq, exec_bind, exec_require, if_pos hassert,
    bind_some, if_pos hreset, exec_resetAll, if_pos hcap]

/-- `fast_forward_next_version` that keeps the window. -/
theorem Holds.exec_fastForward (h : r.Holds m) (hnext : r.nextVersion ≠ 0) (hv : r.nextVersion ≤ v)
    (hbd : v ≤ invalidBlockNum) (hlo : r.versionLowerBound ≤ r.nextVersion)
    (hnear : v < r.nextVersion - 1 + r.capacity) (hroom : v ≤ r.versionLowerBound + r.capacity) :
    ∃ r', exec (fastForward v) r = some ((), r') ∧ r'.Holds m ∧ r'.nextVersion = v ∧
      r'.versionLowerBound = r.versionLowerBound ∧ r'.capacity = r.capacity := by
  have hmax := maxVersion_of_pos hnext
  have hvalid : r.maxVersion ≠ invalidBlockNum := by
    rw [Ne, maxVersion_eq_invalid_iff h.bound]
    exact hnext
  have hfew : v - (r.maxVersion + 1) = v - r.nextVersion := by omega
  have hassert : r.maxVersion = invalidBlockNum ∨ r.maxVersion < v := Or.inr (by omega)
  have hnot : ¬ (r.maxVersion = invalidBlockNum ∨ r.capacity ≤ v - r.maxVersion) := by
    rintro (h | h)
    · exact hvalid h
    · omega
  obtain ⟨r', hexec, hhs, hnext', hrest⟩ := h.exec_pushInvalid (v - r.nextVersion) (by omega) (by omega) hlo
  refine ⟨r', ?_, hhs, by omega, hrest⟩
  unfold fastForward
  rw [exec_bind, exec_load, bind_some, id_eq, exec_bind, exec_require, if_pos hassert,
    bind_some, if_neg hnot, hfew]
  exact hexec

/-- The versions from `v + 1` on, `n` of them, are erased; the lower bound is a version below. -/
theorem Holds.exec_eraseAbove (h : r.Holds m) (hlow : (m r.versionLowerBound).isSome) (hv : r.versionLowerBound ≤ v)
    (n : Nat) (hn : v + 1 + n ≤ r.nextVersion) :
    ∃ r', exec (each (List.range' (v + 1) n) fun i => Ring.assign i invalidOffset) r = some ((), r') ∧
      r'.Holds (fun w => if v < w ∧ w ≤ v + n then none else m w) ∧
      r'.nextVersion = r.nextVersion ∧ r'.versionLowerBound = r.versionLowerBound ∧
      r'.capacity = r.capacity := by
  induction n with
  | zero =>
    refine ⟨r, rfl, ?_, rfl, rfl, rfl⟩
    have hsame : (fun w => if v < w ∧ w ≤ v + 0 then none else m w) = m := by
      funext w
      exact if_neg (by omega)
    rw [hsame]
    exact h
  | succ n ih =>
    obtain ⟨r', hexec, hhs, hnext, hlo, hcap⟩ := ih (by omega)
    have hbd := h.bound
    have hi : r'.versionLowerBound ≤ v + 1 + n := by omega
    have hi' : v + 1 + n < r'.nextVersion := by omega
    have herase := hhs.erase hi hi'
    have hlow' : ((Function.update (fun w => if v < w ∧ w ≤ v + n then none else m w) (v + 1 + n)
        none) r'.versionLowerBound).isSome := by
      rw [Function.update_of_ne (by omega), hlo, if_neg (by omega)]
      exact hlow
    have hset := hhs.setSlot (o := none) hi hi' fun x hx => by cases hx
    have hstay : (r'.assigned (v + 1 + n) invalidOffset).versionLowerBound = r'.versionLowerBound :=
      hset.lowerBoundFrom_eq (l := invalidBlockNum) (show r'.versionLowerBound ≤ invalidBlockNum by omega) hlow'
    have hmap : Function.update (fun w => if v < w ∧ w ≤ v + n then none else m w) (v + 1 + n) none =
        fun w => if v < w ∧ w ≤ v + (n + 1) then none else m w := by
      funext w
      by_cases hw : w = v + 1 + n
      · rw [hw, Function.update_self, if_pos (by omega)]
      rw [Function.update_of_ne hw]
      by_cases hin : v < w ∧ w ≤ v + n
      · rw [if_pos hin, if_pos (by omega)]
      · rw [if_neg hin, if_neg (by omega)]
    refine ⟨r'.assigned (v + 1 + n) invalidOffset, ?_, hmap ▸ herase, ?_, ?_, ?_⟩
    · rw [List.range'_1_concat, exec_each_append, hexec, bind_some, exec_each_cons, exec_assign,
        if_pos (pos_iff_ne_zero.mp hhs.sized.pos)]
      rfl
    · rw [nextVersion_assigned, hnext]
    · rw [hstay, hlo]
    · rw [capacity_assigned, hcap]

/-- `rewind_to_version` to a version below the maximum. -/
theorem Settled.exec_rewind (h : r.Settled m) (hv : (m v).isSome) (hmax : v < r.nextVersion - 1) :
    ∃ r', exec (rewindToVersion v) r = some ((), r') ∧
      r'.Settled (fun w => if v < w then none else m w) ∧ r'.nextVersion = v + 1 ∧
      r'.versionLowerBound = r.versionLowerBound ∧ r'.capacity = r.capacity := by
  have hroom := h.room
  have hbd := h.bound
  obtain ⟨hlow, hhigh⟩ := h.lt_of_isSome hv
  obtain ⟨r', hexec, hhs, hnext, hlo, hcap⟩ := h.exec_eraseAbove h.low hlow (r.nextVersion - 1 - v) (by omega)
  have hmap : (fun w => if v < w ∧ w ≤ v + (r.nextVersion - 1 - v) then none else m w) =
      fun w => if v < w then none else m w := by
    funext w
    by_cases hw : v < w
    · rw [if_pos hw]
      by_cases hw' : w ≤ v + (r.nextVersion - 1 - v)
      · rw [if_pos ⟨hw, hw'⟩]
      · rw [if_neg fun hboth => hw' hboth.2, h.none_of_ge (by omega)]
    · rw [if_neg hw, if_neg fun hboth => hw hboth.1]
  rw [hmap] at hhs
  -- nothing is left above the version, so that the window can end there
  have hsh : Holds { r' with nextVersion := v + 1 } (fun w => if v < w then none else m w) := by
    refine ⟨hhs.sized, by show v + 1 ≤ invalidBlockNum; omega, ?_, hhs.entries, fun w o hm => ?_⟩
    · show v + 1 ≤ r'.versionLowerBound + r'.capacity
      omega
    obtain ⟨hw, -, hvalid⟩ := hhs.within w o hm
    refine ⟨hw, ?_, hvalid⟩
    by_contra hge
    have hgt : v < w := by
      have hge' : ¬ w < v + 1 := hge
      omega
    rw [if_pos hgt] at hm
    cases hm
  have hlowSome : ((fun w => if v < w then none else m w) r'.versionLowerBound).isSome := by
    rw [hlo]
    show (if v < r.versionLowerBound then none else m r.versionLowerBound).isSome
    rw [if_neg (by omega)]
    exact h.low
  have hstay : Ring.raised { r' with nextVersion := v + 1 } invalidBlockNum =
      { r' with nextVersion := v + 1 } := by
    have hlow' := hsh.lowerBoundFrom_eq (l := invalidBlockNum)
      (show r'.versionLowerBound ≤ invalidBlockNum by omega) hlowSome
    unfold Ring.raised
    rw [hlow']
  refine ⟨{ r' with nextVersion := v + 1 }, ?_, ⟨hsh, hlowSome, ?_⟩, rfl, hlo, hcap⟩
  · have hassert : v < r.maxVersion := by
      rw [h.maxVersion]
      exact hmax
    have has' : r.maxVersion - v ≤ r.capacity := by
      rw [h.maxVersion]
      omega
    have hnot : ¬ v < r'.versionLowerBound := by omega
    unfold rewindToVersion
    rw [exec_bind, exec_load, bind_some, id_eq, exec_bind, exec_require, if_pos hassert,
      bind_some, exec_bind, exec_require, if_pos has', bind_some, exec_bind,
      h.maxVersion, hexec, bind_some, exec_bind, exec_load, bind_some, id_eq, exec_bind,
      exec_onlyIf, if_neg hnot, bind_some, exec_bind, storeNextVersion, exec_store,
      bind_some, exec_updateVersionLowerBound, hstay]
  · rw [Nat.add_sub_cancel, if_neg (lt_irrefl v)]
    exact hv

end Ring

end MonadExecution.Mpt
