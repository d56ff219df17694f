import MonadExecution.Mpt.History

/-!
# The rings are an exact window of the version map

`Represents` relates the two copies to the map the history is meant to be. One lemma for each call
says that the call goes through and leads to the map it is meant to lead to, or that it is one of the
two calls that abort. The theorem about runs follows by induction.
-/

namespace MonadExecution.Mpt

open Stores MetadataCopy Function Option Mpt.Ring HistoryCall VersionMap

namespace DbMetadataContext

variable {pool : StoragePool} {chunks : StoredChunks} {capacity : Nat} {c : DbMetadataContext} {s : VersionMap}

/-- The rings of both copies hold the roots of the map, within the history length. -/
structure Represents (pool : StoragePool) (capacity : Nat) (c : DbMetadataContext) (s : VersionMap) :
    Prop where
  length : c.versionHistoryLength = s.length
  pos : 0 < s.length
  le : s.length ≤ capacity
  state : (s.max = none ∧ ∃ r, Views pool c r r ∧ r.capacity = capacity ∧ r.nextVersion = 0 ∧ r.Holds s.roots) ∨
    ∃ top r, s.max = some top ∧ Views pool c r r ∧ r.capacity = capacity ∧ r.Settled s.roots ∧
      r.nextVersion = top + 1 ∧ r.nextVersion ≤ r.versionLowerBound + s.length

variable {r : Ring} {m : Roots} {top version src dest : Nat} {o : ChunkOffset}

theorem roots_empty (h : r.Holds m) (hzero : r.nextVersion = 0) : m = fun _ => none :=
  funext fun v => h.none_of_ge (by omega)

/-- The rings of a map that is not empty. -/
theorem Represents.at_top (h : Represents pool capacity c s) (hmax : s.max = some top) :
    ∃ r, Views pool c r r ∧ r.capacity = capacity ∧ r.Settled s.roots ∧ r.nextVersion = top + 1 ∧
      r.nextVersion ≤ r.versionLowerBound + s.length ∧ c.dbHistoryMaxVersion .primary = top ∧ (s.roots top).isSome := by
  rcases h.state with ⟨hnone, -⟩ | ⟨top', r, htop, hvs, hcap, hset, hnext, hroom⟩
  · rw [hmax] at hnone
    cases hnone
  obtain rfl : top = top' := Option.some.inj (hmax.symm.trans htop)
  refine ⟨r, hvs, hcap, hset, hnext, hroom, ?_, ?_⟩
  · rw [hvs.maxVersion, hset.maxVersion, hnext, Nat.add_sub_cancel]
  have hhigh := hset.high
  rwa [hnext, Nat.add_sub_cancel] at hhigh

/-- A step that may be left out leads to `c'` in any case. -/
theorem completes_onlyIf_bind {p : Prop} [Decidable p] {m : Stores DbMetadataContext Unit}
    {k : Unit → Stores DbMetadataContext Unit} {Q : Unit → DbMetadataContext → Prop} {c' : DbMetadataContext}
    (hpos : p → exec m c = some ((), c')) (hneg : ¬ p → c = c') (hk : Completes (k ()) c' Q) :
    Completes (onlyIf p m >>= k) c Q := by
  have hstep : Completes (onlyIf p m) c fun _ d => d = c' := completes_onlyIf (fun hp => ⟨(), c', hpos hp, rfl⟩) hneg
  refine hstep.bind fun _ d hd => ?_
  rw [hd]
  exact hk

/-! ## Writing a root -/

/-- The first root. -/
theorem write_first (h : Represents pool capacity c s) (hmax : s.max = none) (ho : o.isInvalid = false)
    (hver : version < invalidBlockNum) :
    Completes (writeNewRootNode pool chunks o version) c fun _ c' =>
      Represents pool capacity c' ((write o version).apply s) := by
  rcases h.state with ⟨-, r, hvs, hcap, hzero, hhs⟩ | ⟨top, r, htop, -⟩
  · have hemp := roots_empty hhs hzero
    rw [hemp] at hhs
    have hinv := (maxVersion_eq_invalid_iff hhs.bound).mpr hzero
    refine completes_load ?_
    show Completes (if c.dbHistoryMaxVersion .primary = invalidBlockNum then _ else _) c _
    rw [if_pos (hvs.maxVersion.trans hinv)]
    obtain ⟨_, c', hexec, ⟨r', hvs', hset, hnext, hcap'⟩, hlength⟩ :=
      hvs.refill rfl hzero hhs hhs (.inl hzero) (by omega) hver ho
    obtain ⟨_, c1, hff, happend⟩ := exec_bind_some.mp hexec
    refine completes_exec hff (completes_exec happend (completes_load ?_))
    have hlow : r'.versionLowerBound = version := by
      have hlow := hset.low
      by_contra hne
      rw [update_of_ne hne] at hlow
      cases hlow
    have hassert : c'.dbHistoryRangeLowerBound .primary = version := by
      rw [hvs'.lowerBound, if_neg hset.maxVersion_ne, hlow]
    refine ⟨(), c', by rw [exec_require]; exact if_pos hassert, ?_⟩
    have happ : (write o version).apply s =
        { s with roots := update s.roots version (some o), max := some version } := by
      unfold apply
      rw [hmax]
    rw [happ, hemp]
    refine ⟨hlength.trans h.length, h.pos, h.le, .inr ⟨version, r', rfl, hvs', hcap'.trans hcap, hset, hnext, ?_⟩⟩
    have := h.pos
    show r'.nextVersion ≤ r'.versionLowerBound + s.length
    omega
  · rw [hmax] at htop
    cases htop

/-- A root for a version of the window. -/
theorem write_again (h : Represents pool capacity c s) (hmax : s.max = some top) (ho : o.isInvalid = false)
    (hle : version ≤ top) (hwin : top < version + s.length) :
    Completes (writeNewRootNode pool chunks o version) c fun _ c' =>
      Represents pool capacity c' ((write o version).apply s) := by
  obtain ⟨r, hvs, hcap, hset, hnext, hroom, htopmax, hhigh⟩ := h.at_top hmax
  have hlength := h.length
  have hcaple := h.le
  have hbd := hset.bound
  have hne : c.dbHistoryMaxVersion .primary ≠ invalidBlockNum := by
    rw [hvs.maxVersion]
    exact hset.maxVersion_ne
  refine completes_load ?_
  show Completes (if c.dbHistoryMaxVersion .primary = invalidBlockNum then _
    else if version ≤ c.dbHistoryMaxVersion .primary then _ else _) c _
  rw [if_neg hne, if_pos (htopmax ▸ hle)]
  have hassert : (if c.versionHistoryLength ≤ c.dbHistoryMaxVersion .primary then
      c.dbHistoryMaxVersion .primary - c.versionHistoryLength + 1 else 0) ≤ version := by
    split_ifs <;> omega
  refine completes_require hassert ?_
  obtain ⟨c', hexec, hvs', hlen'⟩ := hvs.updateRootOffset hset.sized hset.sized (i := version) (by omega) o
  have hkept : ¬ RingErased (r.assigned version o) version o := by
    intro hbad
    have hinv : o.isInvalid = true := hbad.1
    rw [ho] at hinv
    cases hinv
  rw [if_neg hkept] at hvs'
  obtain ⟨hset', hlow⟩ := hset.assign ho (i := version) (by omega) (by omega)
  have has' : c'.dbHistoryRangeLowerBound .primary = min version (c.dbHistoryRangeLowerBound .primary) := by
    rw [hvs'.lowerBound, hvs.lowerBound, if_neg hset.maxVersion_ne, if_neg hset'.maxVersion_ne, hlow]
  refine completes_exec hexec (completes_load ⟨(), c', by rw [exec_require]; exact if_pos has', ?_⟩)
  have happ : (write o version).apply s =
      { s with roots := update s.roots version (some o) } := by
    unfold apply
    rw [hmax]
    exact if_pos hle
  rw [happ]
  refine ⟨hlen'.trans hlength, h.pos, h.le, .inr ⟨top, _, hmax, hvs', ?_, hset', ?_, ?_⟩⟩
  · rw [capacity_assigned, hcap]
  · rw [nextVersion_assigned, hnext]
  · rw [nextVersion_assigned, hlow]
    show r.nextVersion ≤ min version r.versionLowerBound + s.length
    omega

/-- A version is appended to a window that has room for it. -/
theorem append_represents (hvs : Views pool c r r) (hcap : r.capacity = capacity) (hexact : r.Exact m)
    (hnext : r.nextVersion = version) (hver : version < invalidBlockNum) (ho : o.isInvalid = false)
    (hlength : c.versionHistoryLength = s.length) (hpos : 0 < s.length) (hle : s.length ≤ capacity)
    (hroom : version < r.versionLowerBound + s.length) :
    Completes (appendRootOffset pool o) c fun _ c' => Represents pool capacity c'
      { s with roots := update m version (some o), max := some version } := by
  have hlo := hexact.lower
  have hset := hexact.push_settled ho (by omega) (by omega) (by omega)
  rw [hnext] at hset
  refine (hvs.append hexact.sized hexact.sized (by omega) (by omega) o).mono fun _ c' hc' => ?_
  obtain ⟨hvs', hlen'⟩ := hc'
  refine ⟨hlen'.trans hlength, hpos, hle, .inr ⟨version, _, rfl, hvs', ?_, hset, ?_, ?_⟩⟩
  · rw [capacity_pushed, hcap]
  · rw [nextVersion_pushed, hnext]
  -- the lower bound is a version: the new one, or one of the old window
  rw [nextVersion_pushed, hnext]
  show version + 1 ≤ (r.pushed o).versionLowerBound + s.length
  have hlow := hset.low
  by_cases heq : (r.pushed o).versionLowerBound = version
  · omega
  rw [update_of_ne heq] at hlow
  have := (hexact.lt_of_isSome hlow).1
  omega

theorem cut_eq_self {length : Nat} (h : ∀ v, (m v).isSome → top < v + length) : cut m length top = m := by
  unfold cut
  split_ifs with hle
  · funext w
    unfold drop
    split_ifs with hw
    · cases hm : m w with
      | none => rfl
      | some o =>
        have := h w (by rw [hm]; rfl)
        omega
    · rfl
  · rfl

section

variable (h : Represents pool capacity c s) (hmax : s.max = some top)

include h hmax

/-- A root for the next version. -/
theorem write_next (hcovers : ∀ v o, s.roots v = some o → chunks.Covers o) (ho : o.isInvalid = false)
    (hver : top + 1 < invalidBlockNum) (hlong : s.length ≠ 1) :
    Completes (writeNewRootNode pool chunks o (top + 1)) c fun _ c' =>
      Represents pool capacity c' ((write o (top + 1)).apply s) := by
  obtain ⟨r, hvs, hcap, hset, hnext, hroom, htopmax, hhigh⟩ := h.at_top hmax
  have hlength := h.length
  have hpos := h.pos
  have hlow := hset.low_lt
  have hlb : c.dbHistoryMinValidVersion .primary = r.versionLowerBound := by
    refine hvs.lowerBound.trans (if_neg hset.maxVersion_ne)
  have hne : c.dbHistoryMaxVersion .primary ≠ invalidBlockNum := by omega
  have happ : (write o (top + 1)).apply s =
      { s with
        roots := update (cut s.roots s.length (top + 1)) (top + 1) (some o)
        max := some (top + 1) } := by
    unfold apply
    rw [hmax]
    exact if_neg (by omega)
  rw [happ]
  refine completes_load ?_
  show Completes (if c.dbHistoryMaxVersion .primary = invalidBlockNum then _
    else if top + 1 ≤ c.dbHistoryMaxVersion .primary then _ else _) c _
  rw [if_neg hne, if_neg (by omega)]
  refine completes_require (by rw [id_eq, htopmax]) ?_
  have hsub : sub64 (top + 1) (c.dbHistoryMinValidVersion .primary) = top + 1 - r.versionLowerBound := by
    unfold sub64
    rw [hlb, if_pos (by omega)]
  by_cases hfull : c.versionHistoryLength ≤ sub64 (top + 1) (c.dbHistoryMinValidVersion .primary)
  · -- the oldest version has to go first
    obtain ⟨_, c1, hexec, hlen1, r', hvs', hex', hlow', hnext', hcap', -, hgt⟩ :=
      hvs.erase_part hset.exact hcovers hhigh (e := top + 1 - c.versionHistoryLength) (by omega)
    have hlt' := hex'.lower
    have hlb' : c1.dbHistoryMinValidVersion .primary = r'.versionLowerBound := by
      refine hvs'.lowerBound.trans (if_neg ?_)
      rw [maxVersion_of_pos (by omega)]
      omega
    have hassert : sub64 (top + 1) (c1.dbHistoryMinValidVersion .primary) < c.versionHistoryLength := by
      unfold sub64
      rw [hlb', if_pos (by omega)]
      omega
    have hcut : drop s.roots (top + 1 - c.versionHistoryLength) =
        cut s.roots s.length (top + 1) := by
      unfold cut
      rw [if_pos (by omega), hlength]
    rw [hcut] at hex'
    refine completes_onlyIf_bind (fun _ => (?_ : exec _ c = some ((), c1))) (fun hnot => absurd hfull hnot) ?_
    · rw [id_eq, exec_bind, hexec, bind_some, exec_bind, exec_load, bind_some, exec_require]
      exact if_pos hassert
    exact append_represents hvs' (hcap'.trans hcap) hex' (hnext'.trans hnext) hver ho
      (hlen1.trans hlength) hpos h.le (by omega)
  · have hcut : cut s.roots s.length (top + 1) = s.roots := by
      refine cut_eq_self fun v hv => ?_
      have := (hset.lt_of_isSome hv).1
      omega
    refine completes_onlyIf_bind (fun hbad => absurd hbad hfull) (fun _ => rfl) ?_
    rw [hcut]
    exact append_represents hvs hcap hset.exact hnext hver ho hlength hpos h.le (by omega)

/-- Under a history length of one, the version that is there is erased first, and the assertion about
what is left fails. -/
theorem write_aborts (hver : top + 1 < invalidBlockNum) (hone : s.length = 1) :
    exec (writeNewRootNode pool chunks o (top + 1)) c = none := by
  obtain ⟨r, hvs, hcap, hset, hnext, hroom, htopmax, hhigh⟩ := h.at_top hmax
  have hlength := h.length
  have hlow := hset.low_lt
  have hlb : c.dbHistoryMinValidVersion .primary = r.versionLowerBound :=
    hvs.lowerBound.trans (if_neg hset.maxVersion_ne)
  have hne : c.dbHistoryMaxVersion .primary ≠ invalidBlockNum := by omega
  have habove : ¬ top + 1 ≤ c.dbHistoryMaxVersion .primary := by omega
  have hnextmax : top + 1 = c.dbHistoryMaxVersion .primary + 1 := by rw [htopmax]
  have hfull : c.versionHistoryLength ≤ sub64 (top + 1) (c.dbHistoryMinValidVersion .primary) := by
    unfold sub64
    rw [hlb, if_pos (by omega), hlength, hone]
    omega
  obtain ⟨_, c1, hexec, -, r₀, r₁, hvs1, hzero, hhs, -⟩ :=
    hvs.erase_all hset.exact (e := top + 1 - c.versionHistoryLength) (by omega)
  have hlb' : c1.dbHistoryMinValidVersion .primary = invalidBlockNum :=
    hvs1.lowerBound.trans (if_pos ((maxVersion_eq_invalid_iff hhs.bound).mpr hzero))
  have hassert : ¬ sub64 (top + 1) (c1.dbHistoryMinValidVersion .primary) < c.versionHistoryLength := by
    unfold sub64
    rw [hlb', if_neg (by omega), hlength, hone]
    unfold invalidBlockNum uint64Count
    omega
  unfold writeNewRootNode
  rw [exec_bind, exec_load, bind_some, id_eq, if_neg hne, if_neg habove, exec_bind,
    exec_require, if_pos hnextmax, bind_some, exec_bind, exec_onlyIf, if_pos hfull,
    exec_bind, hexec, bind_some, exec_bind, exec_load, bind_some, exec_require, id_eq,
    if_neg hassert]
  rfl

end

/-! ## Moving a version -/

/-- The last part of `move_trie_version_forward`. -/
def moveEnd (src dest : Nat) : Stores DbMetadataContext Unit := do
  let c ← load id
  require (dest = c.dbHistoryMaxVersion .primary)
  require (c.versionIsValidOndisk dest)
  onlyIf (c.autoExpireVersion = (src : Int)) (setAutoExpireVersionMetadata .primary (dest : Int))

/-- What is left of the call once the outdated versions have been erased. -/
def moveRest (pool : StoragePool) (o : ChunkOffset) (src dest : Nat) : Stores DbMetadataContext Unit := do
  fastForwardNextVersion pool dest
  appendRootOffset pool o
  moveEnd src dest

theorem move_end (hvs : Views pool c r r) (hset : r.Settled m) (hnext : r.nextVersion = dest + 1) :
    Completes (moveEnd src dest) c fun _ c' =>
      Views pool c' r r ∧ c'.versionHistoryLength = c.versionHistoryLength := by
  have hmax : dest = c.dbHistoryMaxVersion .primary := by
    rw [hvs.maxVersion, hset.maxVersion, hnext, Nat.add_sub_cancel]
  have hvalid : c.versionIsValidOndisk dest := by
    rw [hvs.isValid hset.toHolds]
    have hhigh := hset.high
    rwa [hnext, Nat.add_sub_cancel] at hhigh
  refine completes_load (completes_require hmax (completes_require hvalid ?_))
  refine completes_onlyIf (fun _ => completes_load ?_) fun _ => ⟨hvs, rfl⟩
  have hprim : c.ringIdx .primary = .a := hvs.idx
  rw [id_eq, hprim]
  obtain ⟨c', hexec, hvs', hlength⟩ := hvs.setMain_both
    (f := fun m => { m with rootOffsetsAutoExpire := (dest : Int) }) fun _ => rfl
  exact ⟨(), c', hexec, hvs', hlength⟩

/-- A root is put at `dest`, beyond a window that stays. -/
theorem advance (hvs : Views pool c r r) (hexact : r.Exact m) (hnext : r.nextVersion ≤ dest)
    (hbd : dest < invalidBlockNum) (hnear : dest < r.nextVersion - 1 + r.capacity)
    (hroom : dest < r.versionLowerBound + r.capacity) (ho : o.isInvalid = false) :
    Completes (do
      fastForwardNextVersion pool dest
      appendRootOffset pool o) c fun _ c' =>
      (∃ r', Views pool c' r' r' ∧ r'.Settled (update m dest (some o)) ∧
        r'.nextVersion = dest + 1 ∧ r'.capacity = r.capacity) ∧
      c'.versionHistoryLength = c.versionHistoryLength := by
  have hlow := hexact.lower
  obtain ⟨r', hexec, hhs, hnext', hlo, hcap⟩ := hexact.exec_fastForward (v := dest) (by omega)
    hnext (by omega) (by omega) hnear (by omega)
  have hset := hhs.push_settled ho (by omega) (by omega) (by omega)
  rw [hnext'] at hset
  refine Completes.bind (hvs.fastForward hexact.sized hexact.sized hexec hexec hcap hcap) fun _ c1 hc1 => ?_
  obtain ⟨hvs1, hlen1⟩ := hc1
  refine (hvs1.append hhs.sized hhs.sized (by omega) (by omega) o).mono fun _ c' hc' => ?_
  obtain ⟨hvs', hlen'⟩ := hc'
  refine ⟨⟨_, hvs', hset, ?_, ?_⟩, hlen'.trans hlen1⟩
  · rw [nextVersion_pushed, hnext']
  · rw [capacity_pushed, hcap]

theorem move_finish (hroot : s.roots src = some o) (hmap : m = cut (update s.roots src none) s.length dest)
    (hlength : c.versionHistoryLength = s.length) (hpos : 0 < s.length) (hle : s.length ≤ capacity) {size : Nat}
    (hsize : size = capacity) (h : Completes (do
      fastForwardNextVersion pool dest
      appendRootOffset pool o) c fun _ c' =>
      (∃ r, Views pool c' r r ∧ r.Settled (update m dest (some o)) ∧ r.nextVersion = dest + 1 ∧ r.capacity = size) ∧
      c'.versionHistoryLength = c.versionHistoryLength) :
    Completes (moveRest pool o src dest) c fun _ c' => Represents pool capacity c' ((move src dest).apply s) := by
  obtain ⟨_, c2, hexec, ⟨r, hvs, hset, hnext, hcap⟩, hlen2⟩ := h
  obtain ⟨_, c1, hff, happend⟩ := exec_bind_some.mp hexec
  refine completes_exec hff (completes_exec happend ?_)
  refine (move_end hvs hset hnext).mono fun _ c' hc' => ?_
  obtain ⟨hvs', hlen'⟩ := hc'
  have hrts : ((move src dest).apply s).roots = update m dest (some o) := by
    rw [hmap, ← hroot]
    rfl
  refine ⟨(hlen'.trans hlen2).trans hlength, hpos, hle,
    .inr ⟨dest, r, rfl, hvs', hcap.trans hsize, hrts ▸ hset, hnext, ?_⟩⟩
  -- the lower bound is the new version, or one that has survived the cut
  show r.nextVersion ≤ r.versionLowerBound + s.length
  have hlow := hset.low
  by_cases heq : r.versionLowerBound = dest
  · omega
  rw [update_of_ne heq, hmap] at hlow
  unfold cut at hlow
  split_ifs at hlow with hcut
  · unfold drop at hlow
    split_ifs at hlow with hdropped
    · cases hlow
    · omega
  · omega

/-- The state of a call after the version has been taken from its old place. -/
theorem move_erased (hvs : Views pool c r r) (hset : r.Settled s.roots) (hsrc : (s.roots src).isSome) :
    ∃ c', exec (updateRootOffset pool src invalidOffset) c = some ((), c') ∧
      c'.versionHistoryLength = c.versionHistoryLength ∧
      ((∃ r', Views pool c' r' r' ∧ r'.Exact (update s.roots src none) ∧
          r'.nextVersion = r.nextVersion ∧ r'.capacity = r.capacity ∧
          ∃ v, v ≠ src ∧ (s.roots v).isSome) ∨
        (∃ r₀ r₁, Views pool c' r₀ r₁ ∧ r₀.nextVersion = 0 ∧ (r₀.Holds fun _ => none) ∧
          r₀.capacity = r.capacity ∧ (r₁.Exact fun _ => none) ∧ r₁.nextVersion = r.nextVersion ∧
          r₁.capacity = r.capacity ∧ update s.roots src none = fun _ => none)) := by
  have hbd := hset.bound
  obtain ⟨hle, hlt⟩ := hset.lt_of_isSome hsrc
  obtain ⟨hexact, -, -⟩ := hset.exact.erase hle hlt
  obtain ⟨c', hexec, hvs', hlength⟩ := hvs.updateRootOffset hset.sized hset.sized (i := src) (by omega) invalidOffset
  refine ⟨c', hexec, hlength, ?_⟩
  have hmax : (r.assigned src invalidOffset).maxVersion = r.nextVersion - 1 := by
    rw [maxVersion_assigned, hset.maxVersion]
  have hvalid : (r.assigned src invalidOffset).maxVersion ≠ invalidBlockNum := by omega
  by_cases hoth : ∃ v, v ≠ src ∧ (s.roots v).isSome
  · -- some version is left, so that the lower bound is one of them
    obtain ⟨v, hne, hv⟩ := hoth
    have hkept : ¬ RingErased (r.assigned src invalidOffset) src invalidOffset := by
      intro hbad
      have hlowest : src = (r.assigned src invalidOffset).versionLowerBound := by
        have := hbad.2.2
        rwa [if_neg hvalid] at this
      rcases hexact.least with hleast | ⟨hnone, -⟩
      · rw [← hlowest, update_self] at hleast
        cases hleast
      have hgone := hnone v
      rw [update_of_ne hne] at hgone
      rw [hgone] at hv
      cases hv
    rw [if_neg hkept] at hvs'
    exact .inl ⟨_, hvs', hexact, nextVersion_assigned _ _ _, capacity_assigned _ _ _, v, hne, hv⟩
  · have hnone : update s.roots src none = fun _ => none := by
      funext v
      by_cases hv : v = src
      · rw [hv, update_self]
      rw [update_of_ne hv]
      by_contra hsome
      exact hoth ⟨v, hv, isSome_iff_ne_none.mpr hsome⟩
    have hsingle : src = r.nextVersion - 1 := by
      by_contra hne
      exact hoth ⟨_, fun heq => hne heq.symm, hset.high⟩
    have hera : RingErased (r.assigned src invalidOffset) src invalidOffset := by
      refine ⟨rfl, by omega, ?_⟩
      rw [if_neg hvalid]
      have hlast := hexact.low_of_empty (congrFun hnone)
      rw [nextVersion_assigned] at hlast
      omega
    rw [if_pos hera] at hvs'
    refine .inr ⟨_, _, hvs', rfl, Ring.Holds.cleared hexact.sized (by omega), ?_, ?_, ?_, ?_, hnone⟩
    · rw [capacity_cleared, capacity_assigned]
    · rw [← hnone]
      exact hexact
    · exact nextVersion_assigned _ _ _
    · exact capacity_assigned _ _ _

theorem eq_some_of_update {v : Nat} (h : update m src none v = some o) : m v = some o := by
  by_cases hv : v = src
  · rw [hv, update_self] at h
    cases h
  · rwa [update_of_ne hv] at h

/-- The call up to where the outdated versions are erased. -/
theorem move_begin (hvs : Views pool c r r) (hset : r.Settled s.roots) (hroot : s.roots src = some o)
    (hdest : r.nextVersion ≤ dest) (hbd : dest < invalidBlockNum) {c1 : DbMetadataContext}
    (hexec : exec (updateRootOffset pool src invalidOffset) c = some ((), c1)) :
    exec (moveTrieVersionForward pool chunks src dest) c = exec (do
      onlyIf (c.versionHistoryLength ≤ dest) (eraseVersionsUpToAndIncluding pool chunks (dest - c.versionHistoryLength))
      moveRest pool o src dest) c1 := by
  have hsrc : (s.roots src).isSome := by
    rw [hroot]
    rfl
  have hlt := (hset.lt_of_isSome hsrc).2
  have hvalid : c.versionIsValidOndisk src := by
    rw [hvs.isValid hset.toHolds]
    exact hsrc
  have hassert : src < dest ∧ dest ≠ invalidBlockNum ∧ c.dbHistoryMaxVersion .primary ≤ dest := by
    rw [hvs.maxVersion, hset.maxVersion]
    omega
  have hoff : c.getRootOffsetAtVersion src .primary = o := by
    rw [hvs.getRoot hset.toHolds, hroot]
    rfl
  unfold moveTrieVersionForward
  rw [exec_bind, exec_load, bind_some, id_eq, exec_bind, exec_require, if_pos hvalid,
    bind_some, exec_bind, exec_require, if_pos hassert, bind_some, hoff, exec_bind,
    hexec, bind_some]
  rfl

section

variable (h : Represents pool capacity c s) (hallowed : (HistoryCall.move src dest).Allowed capacity s)

include h hallowed

theorem move_goes (hcovers : ∀ v o, s.roots v = some o → chunks.Covers o) (hnot : ¬ (move src dest).Aborts s) :
    Completes (moveTrieVersionForward pool chunks src dest) c fun _ c' =>
      Represents pool capacity c' ((move src dest).apply s) := by
  obtain ⟨hsrc, hbd, hdest⟩ := hallowed
  obtain ⟨o, hroot⟩ := isSome_iff_exists.mp hsrc
  have hpos := h.pos
  have hcaple := h.le
  have hlength := h.length
  rcases h.state with ⟨-, r, -, -, hzero, hhs⟩ | ⟨top, r, htop, hvs, hcap, hset, hnext, hroom⟩
  · have hemp := roots_empty hhs hzero
    rw [hemp] at hroot
    cases hroot
  have hlt := hdest top htop
  have ho : o.isInvalid = false := (hset.within src o hroot).2.2
  obtain ⟨c1, hexec, hlen1, hcs⟩ := move_erased hvs hset hsrc
  obtain ⟨_, c', hexec', hrep⟩ : Completes (do
      onlyIf (c.versionHistoryLength ≤ dest) (eraseVersionsUpToAndIncluding pool chunks (dest - c.versionHistoryLength))
      moveRest pool o src dest) c1 fun _ c' => Represents pool capacity c' ((move src dest).apply s) := by
    rcases hcs with ⟨r', hvs', hexact, hnext', hcap', hoth⟩ |
      ⟨r₀, r₁, hvs', hzero, hhs0, hcap0, hex1, hnext1, hcap1, hnone⟩
    · by_cases hlong : c.versionHistoryLength ≤ dest
      · by_cases hall : top ≤ dest - c.versionHistoryLength
        · -- everything is erased
          obtain ⟨_, c2, herase, hlen2, r₀, r₁, hvs2, hzero, hhs0, hcap0, hex1, hnext1,
            hcap1⟩ := hvs'.erase_all hexact (e := dest - c.versionHistoryLength) (by omega)
          have hlow1 := hex1.low_of_empty fun _ => rfl
          have hcut : (fun _ => none : Roots) = cut (update s.roots src none) s.length dest := by
            funext v
            unfold cut
            rw [if_pos (by omega)]
            unfold drop
            split_ifs with hv
            · rfl
            · exact (hexact.none_of_ge (by omega)).symm
          refine completes_onlyIf_bind (fun _ => herase) (fun hbad => absurd hlong hbad) ?_
          exact move_finish hroot hcut (hlen2.trans (hlen1.trans hlength)) hpos hcaple (by omega)
            (hvs2.refill (by omega) hzero hhs0 hex1.toHolds (.inr hlow1) (by omega) hbd ho)
        · -- some version is left above the bound, or the call is one that aborts
          have hleft : ∃ v, dest - c.versionHistoryLength < v ∧ (update s.roots src none v).isSome := by
            by_contra hgone
            have hsrctop : src = top := by
              by_contra hne
              refine hgone ⟨top, by omega, ?_⟩
              rw [update_of_ne (Ne.symm hne)]
              have hhigh := hset.high
              rwa [hnext, Nat.add_sub_cancel] at hhigh
            refine hnot ⟨hsrctop ▸ htop, by omega, by omega, hoth, fun v hne hv => ?_⟩
            by_contra hgt
            refine hgone ⟨v, by omega, ?_⟩
            rwa [update_of_ne hne]
          obtain ⟨v, hgt, hv⟩ := hleft
          obtain ⟨_, c2, herase, hlen2, r'', hvs2, hex2, -, hnext2, hcap2, -, hlow2⟩ := hvs'.erase_part hexact (fun w o hw => hcovers w o (eq_some_of_update hw)) hv hgt
          have hcut : drop (update s.roots src none) (dest - c.versionHistoryLength) =
              cut (update s.roots src none) s.length dest := by
            unfold cut
            rw [if_pos (by omega), hlength]
          refine completes_onlyIf_bind (fun _ => herase) (fun hbad => absurd hlong hbad) ?_
          exact move_finish hroot hcut (hlen2.trans (hlen1.trans hlength)) hpos hcaple (by omega)
            (advance hvs2 hex2 (by omega) hbd (by omega) (by omega) ho)
      · -- the history is long enough for all versions
        have hcut : update s.roots src none = cut (update s.roots src none) s.length dest := by
          unfold cut
          rw [if_neg (by omega)]
        refine completes_onlyIf_bind (fun hbad => absurd hbad hlong) (fun _ => rfl) ?_
        exact move_finish hroot hcut (hlen1.trans hlength) hpos hcaple (by omega)
          (advance hvs' hexact (by omega) hbd (by omega) (by omega) ho)
    · -- the only version is moved
      have hlow1 := hex1.low_of_empty fun _ => rfl
      have hcut : (fun _ => none : Roots) = cut (update s.roots src none) s.length dest := by
        rw [hnone]
        exact (cut_eq_self fun v hv => by cases hv).symm
      refine completes_onlyIf_bind (fun _ => hvs'.erase_none hzero hhs0 _) (fun _ => rfl) ?_
      exact move_finish hroot hcut (hlen1.trans hlength) hpos hcaple (by omega)
        (hvs'.refill (by omega) hzero hhs0 hex1.toHolds (.inr hlow1) (by omega) hbd ho)
  exact ⟨(), c', (move_begin hvs hset hroot (by omega) hbd hexec).trans hexec', hrep⟩

theorem move_aborts (hab : (move src dest).Aborts s) :
    exec (moveTrieVersionForward pool chunks src dest) c = none := by
  obtain ⟨hsrc, hbd, hdest⟩ := hallowed
  obtain ⟨hmax, hlong, hsh, ⟨w, hw, hwsome⟩, hoth⟩ := hab
  obtain ⟨o, hroot⟩ := isSome_iff_exists.mp hsrc
  have hlength := h.length
  obtain ⟨r, hvs, hcap, hset, hnext, -⟩ := h.at_top hmax
  have hlt := hdest src hmax
  obtain ⟨c1, hexec, hlen1, hcs⟩ := move_erased hvs hset hsrc
  rw [move_begin hvs hset hroot (by omega) hbd hexec, exec_bind, exec_onlyIf, if_pos (by omega)]
  rcases hcs with ⟨r', hvs', hexact, hnext', -, -⟩ | ⟨r₀, r₁, -, -, -, -, -, -, -, hnone⟩
  · rw [hvs'.erase_aborts hexact (by omega) fun v hv => ?_]
    · rfl
    · by_cases hvsrc : v = src
      · rw [hvsrc, update_self]
      rw [update_of_ne hvsrc]
      by_contra hsome
      have := hoth v hvsrc (isSome_iff_ne_none.mpr hsome)
      omega
  · have hgone := congrFun hnone w
    rw [update_of_ne hw] at hgone
    rw [hgone] at hwsome
    cases hwsome

end

/-! ## The other calls -/

theorem erase_goes (h : Represents pool capacity c s) (hcovers : ∀ v o, s.roots v = some o → chunks.Covers o)
    (hallowed : (erase version).Allowed capacity s) :
    Completes (eraseVersionsUpToAndIncluding pool chunks version) c fun _ c' =>
      Represents pool capacity c' ((erase version).apply s) := by
  obtain ⟨top, hmax, hlt⟩ := hallowed
  obtain ⟨r, hvs, hcap, hset, hnext, hroom, htopmax, hhigh⟩ := h.at_top hmax
  refine (hvs.erase_part hset.exact hcovers hhigh hlt).mono fun _ c' hc' => ?_
  obtain ⟨hlength, r', hvs', hexact, hlow, hnext', hcap', hle, -⟩ := hc'
  refine ⟨hlength.trans h.length, h.pos, h.le, .inr ⟨top, r', hmax, hvs', hcap'.trans hcap,
    ⟨hexact.toHolds, hlow, ?_⟩, hnext'.trans hnext, ?_⟩⟩
  · rw [hnext', hnext, Nat.add_sub_cancel]
    show (drop s.roots version top).isSome
    unfold drop
    rw [if_neg (by omega)]
    exact hhigh
  · show r'.nextVersion ≤ r'.versionLowerBound + s.length
    omega

/-- The last verified, voted and proposed versions are forgotten. -/
theorem Views.forget {r₀ r₁ : Ring} (hvs : Views pool c r₀ r₁) :
    ∃ c1 c2 c', exec (setLatestVerifiedVersion invalidBlockNum) c = some ((), c1) ∧
      exec (setLatestVoted invalidBlockNum 0) c1 = some ((), c2) ∧
      exec (setLatestProposed invalidBlockNum 0) c2 = some ((), c') ∧ Views pool c' r₀ r₁ ∧
      c'.versionHistoryLength = c.versionHistoryLength := by
  obtain ⟨c1, hexec1, hvs1, hlen1⟩ := hvs.setMain_both
    (f := fun m => { m with latestVerifiedVersion := invalidBlockNum }) fun _ => rfl
  obtain ⟨c2, hexec2, hvs2, hlen2⟩ := hvs1.both_quiet (quiet_holdDirty (quiet_bind
    (quiet_setMain (f := fun m => { m with latestVotedVersion := invalidBlockNum }) fun _ => rfl)
    (quiet_setMain (f := fun m => { m with latestVotedBlockId := 0 }) fun _ => rfl)))
  obtain ⟨c', hexec', hvs', hlen'⟩ := hvs2.both_quiet (quiet_holdDirty (quiet_bind
    (quiet_setMain (f := fun m => { m with latestProposedVersion := invalidBlockNum }) fun _ => rfl)
    (quiet_setMain (f := fun m => { m with latestProposedBlockId := 0 }) fun _ => rfl)))
  exact ⟨c1, c2, c', hexec1, hexec2, hexec', hvs', (hlen'.trans hlen2).trans hlen1⟩

theorem rewind_goes (h : Represents pool capacity c s) (hallowed : (rewind version).Allowed capacity s) :
    Completes (rewindToVersion pool version) c fun _ c' =>
      Represents pool capacity c' ((rewind version).apply s) := by
  have hsome : (s.roots version).isSome := hallowed
  rcases h.state with ⟨-, r, -, -, hzero, hhs⟩ | ⟨top, r, htop, hvs, hcap, hset, hnext, hroom⟩
  · rw [roots_empty hhs hzero] at hsome
    cases hsome
  obtain ⟨hlow, hlt⟩ := hset.lt_of_isSome hsome
  have hmax : c.dbHistoryMaxVersion .primary = top := by
    rw [hvs.maxVersion, hset.maxVersion, hnext, Nat.add_sub_cancel]
  have hvalid : c.versionIsValidOndisk version := by
    rw [hvs.isValid hset.toHolds]
    exact hsome
  refine completes_load (completes_require hvalid (completes_onlyIf (fun hne => ?_) fun heq => ?_))
  · rw [id_eq, hmax] at hne
    obtain ⟨r', hexec, hset', hnext', hlo, hcap'⟩ := hset.exec_rewind hsome (by omega)
    have hprim : c.ringIdx .primary = .a := hvs.idx
    rw [id_eq, hprim]
    obtain ⟨c1, hexec1, hvs1, hlen1⟩ := hvs.both_onRing hset.sized hset.sized hexec hexec hcap' hcap'
    refine completes_exec hexec1 ?_
    refine Completes.bind (P := fun _ d => Views pool d r' r' ∧
      d.versionHistoryLength = c.versionHistoryLength) ?_ fun _ c2 hc2 => ?_
    · refine completes_onlyIf (fun _ => ?_) fun _ => ⟨hvs1, hlen1⟩
      obtain ⟨d, hd, hviewsd, hlengthd⟩ := hvs1.setMain_both
        (f := fun m => { m with latestFinalizedVersion := version }) fun _ => rfl
      exact ⟨(), d, hd, hviewsd, hlengthd.trans hlen1⟩
    obtain ⟨hvs2, hlen2⟩ := hc2
    obtain ⟨c3, c4, c5, hexec3, hexec4, hexec5, hvs5, hlen5⟩ := hvs2.forget
    refine completes_exec hexec3 (completes_exec hexec4 ⟨(), c5, hexec5, ?_⟩)
    refine ⟨(hlen5.trans hlen2).trans h.length, h.pos, h.le,
      .inr ⟨version, r', rfl, hvs5, hcap'.trans hcap, hset', hnext', ?_⟩⟩
    show r'.nextVersion ≤ r'.versionLowerBound + s.length
    omega
  · -- the version is the maximum already
    have heq' : version = top := by
      rw [id_eq, hmax] at heq
      exact not_not.mp heq
    have hsame : (rewind version).apply s = s := by
      obtain ⟨roots, max, length⟩ := s
      have hmax' : max = some top := htop
      have hrts : (fun w => if version < w then none else roots w) = roots := by
        funext w
        split_ifs with hw
        · exact (hset.none_of_ge (by omega)).symm
        · rfl
      show VersionMap.mk (fun w => if version < w then none else roots w) (some version) length = _
      rw [hrts, hmax', heq']
    rw [hsame]
    exact h

theorem clear_goes (h : Represents pool capacity c s) : Completes (clearOndiskDb pool) c fun _ c' =>
    Represents pool capacity c' (clear.apply s) := by
  obtain ⟨r, hvs, hcap, hsized⟩ : ∃ r, Views pool c r r ∧ r.capacity = capacity ∧ r.Sized := by
    rcases h.state with ⟨-, r, hvs, hcap, -, hhs⟩ | ⟨-, r, -, hvs, hcap, hset, -, -⟩
    · exact ⟨r, hvs, hcap, hhs.sized⟩
    · exact ⟨r, hvs, hcap, hset.sized⟩
  have hreset : exec (Ring.resetAll 0) r = some ((), r.cleared 0) := by
    rw [exec_resetAll, if_pos (Nat.pos_iff_ne_zero.mp hsized.pos)]
  refine completes_load ?_
  have hprim : c.ringIdx .primary = .a := hvs.idx
  rw [id_eq, hprim]
  obtain ⟨c1, hexec1, hvs1, hlen1⟩ := hvs.both_onRing hsized hsized hreset hreset
    (capacity_cleared r 0) (capacity_cleared r 0)
  obtain ⟨c2, hexec2, hvs2, hlen2⟩ := hvs1.setMain_both
    (f := fun m => { m with latestFinalizedVersion := invalidBlockNum }) fun _ => rfl
  obtain ⟨c3, c4, c5, hexec3, hexec4, hexec5, hvs5, hlen5⟩ := hvs2.forget
  obtain ⟨c6, hexec6, hvs6, hlen6⟩ := hvs5.setMain_both
    (f := fun m => { m with rootOffsetsAutoExpire := 0 }) fun _ => rfl
  obtain ⟨c7, hexec7, hvs7, hlen7⟩ := hvs6.setMain_both
    (f := fun m => { m with secondaryAutoExpire := 0 }) fun _ => rfl
  have hfst : exec (setAutoExpireVersionMetadata .primary 0) c5 = some ((), c6) := by
    unfold setAutoExpireVersionMetadata
    have hidx : c5.ringIdx .primary = .a := hvs5.idx
    rw [exec_bind, exec_load, bind_some, id_eq, hidx]
    exact hexec6
  have hsnd : exec (setAutoExpireVersionMetadata .secondary 0) c6 = some ((), c7) := by
    unfold setAutoExpireVersionMetadata
    have hidx : c6.ringIdx .secondary = .b := by
      show c6.copy0.main.primaryRingIdx.other = _
      rw [hvs6.idx]
      rfl
    rw [exec_bind, exec_load, bind_some, id_eq, hidx]
    exact hexec7
  refine completes_exec hexec1 (completes_exec hexec2 (completes_exec hexec3 (completes_exec hexec4
    (completes_exec hexec5 (completes_exec hfst ⟨(), c7, hsnd, ?_⟩)))))
  refine ⟨((((hlen7.trans hlen6).trans hlen5).trans hlen2).trans hlen1).trans h.length, h.pos, h.le,
    .inl ⟨rfl, r.cleared 0, hvs7, ?_, rfl,
    Ring.Holds.cleared hsized (Nat.zero_le _)⟩⟩
  rw [capacity_cleared, hcap]

variable {len : Nat}

theorem Views.updateHistoryLengthMetadata (hvs : Views pool c r r) (hlen : 0 < len ∧ len ≤ r.capacity) :
    ∃ c', exec (updateHistoryLengthMetadata len) c = some ((), c') ∧ Views pool c' r r ∧
      c'.versionHistoryLength = len := by
  have hcopy : ∀ x : MetadataCopy, Laid pool .a x → x.ring .a = r → ∃ x', exec (holdDirty do
        let copy ← load id
        require (0 < len ∧ len ≤ (copy.ring .a).capacity)
        setMain fun m => { m with historyLength := len }) x = some ((), x') ∧ Laid pool .a x' ∧
        x'.ring .a = r ∧ x'.main.primaryRingIdx = x.main.primaryRingIdx ∧
        x'.main.historyLength = len := by
    intro x hlaid hring
    let x' : MetadataCopy := { x with main := { x.main with isDirty := false, historyLength := len } }
    obtain ⟨hlaid', hring'⟩ : Laid pool .a x' ∧ x'.ring .a = x.ring .a := Laid.of_same hlaid rfl rfl rfl
    refine ⟨x', ?_, hlaid', hring'.trans hring, rfl, rfl⟩
    unfold holdDirty setDirty
    have hdirty : (x.withDirty true).ring .a = r := (ring_setDirty x true .a).trans hring
    rw [exec_bind, exec_store, bind_some, exec_bind, exec_bind, exec_load, bind_some,
      id_eq, exec_bind, exec_require, hdirty, if_pos hlen]
    rfl
  obtain ⟨x, hx, hlaid0, hring0, hidx, hlength⟩ := hcopy c.copy0 hvs.laid₀ hvs.ring₀
  obtain ⟨y, hy, hlaid1, hring1, -, -⟩ := hcopy c.copy1 hvs.laid₁ hvs.ring₁
  refine ⟨{ copy0 := x, copy1 := y }, ?_, ⟨hidx.trans hvs.idx, hlaid0, hlaid1, hring0, hring1⟩, hlength⟩
  have hprim : c.ringIdx .primary = .a := hvs.idx
  unfold DbMetadataContext.updateHistoryLengthMetadata
  rw [exec_bind, exec_load, bind_some, id_eq, hprim, exec_both, hx, bind_some, hy]
  rfl

theorem changeLength_goes (h : Represents pool capacity c s) (hcovers : ∀ v o, s.roots v = some o → chunks.Covers o)
    (hallowed : (changeLength len).Allowed capacity s) :
    Completes (changeHistoryLength pool chunks len) c fun _ c' =>
      Represents pool capacity c' ((changeLength len).apply s) := by
  obtain ⟨hpos, hle⟩ := hallowed
  have hlength := h.length
  refine completes_load ?_
  rw [id_eq]
  rcases h.state with ⟨hnone, r, hvs, hcap, hzero, hhs⟩ |
    ⟨top, r, htop, hvs, hcap, hset, hnext, hroom⟩
  · -- nothing is stored
    have hemp := roots_empty hhs hzero
    have hrts : ((changeLength len).apply s).roots = s.roots := by simp only [apply, hnone]
    refine completes_onlyIf_bind (fun _ => hvs.erase_none hzero (hemp ▸ hhs) _) (fun _ => rfl) ?_
    obtain ⟨c', hexec, hvs', hlen'⟩ := hvs.updateHistoryLengthMetadata ⟨hpos, by omega⟩
    refine ⟨(), c', hexec, hlen', hpos, hle, .inl ⟨hnone, r, hvs', hcap, hzero, ?_⟩⟩
    rw [hrts]
    exact hhs
  have hmax : c.dbHistoryMaxVersion .primary = top := by
    rw [hvs.maxVersion, hset.maxVersion, hnext, Nat.add_sub_cancel]
  have hhigh := hset.high
  rw [hnext, Nat.add_sub_cancel] at hhigh
  have hrts : ((changeLength len).apply s).roots =
      if len < s.length then cut s.roots len top else s.roots := by simp only [apply, htop]
  rw [hmax]
  refine Completes.bind (P := fun _ d => ∃ r', Views pool d r' r' ∧ r'.capacity = capacity ∧
    r'.Settled ((changeLength len).apply s).roots ∧ r'.nextVersion = top + 1 ∧
    r'.nextVersion ≤ r'.versionLowerBound + len) ?_ fun _ d hd => ?_
  · refine completes_onlyIf (fun hless => ?_) fun hmore => ?_
    · refine (hvs.erase_part hset.exact hcovers hhigh (e := top - len) (by omega)).mono fun _ d hd => ?_
      obtain ⟨-, r', hvs', hexact, hlow, hnext', hcap', -, hgt⟩ := hd
      have hcut : ((changeLength len).apply s).roots = drop s.roots (top - len) := by
        rw [hrts, if_pos (by omega)]
        unfold cut
        rw [if_pos hless.2]
      rw [hcut]
      refine ⟨r', hvs', hcap'.trans hcap, ⟨hexact.toHolds, hlow, ?_⟩, hnext'.trans hnext, by omega⟩
      rw [hnext', hnext, Nat.add_sub_cancel]
      unfold drop
      rw [if_neg (by omega)]
      exact hhigh
    · have hsame : ((changeLength len).apply s).roots = s.roots := by
        rw [hrts]
        unfold cut
        split_ifs with hless hfits
        · exact absurd ⟨by omega, hfits⟩ hmore
        · rfl
        · rfl
      rw [hsame]
      exact ⟨r, hvs, hcap, hset, hnext, by omega⟩
  · obtain ⟨r', hvs', hcap', hset', hnext', hroom'⟩ := hd
    obtain ⟨c', hexec, hvs'', hlen'⟩ := hvs'.updateHistoryLengthMetadata ⟨hpos, by omega⟩
    exact ⟨(), c', hexec, hlen', hpos, hle, .inr ⟨top, r', htop, hvs'', hcap', hset', hnext', hroom'⟩⟩

end DbMetadataContext

end MonadExecution.Mpt
