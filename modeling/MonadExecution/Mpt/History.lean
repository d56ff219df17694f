import MonadExecution.Mpt.Copies
import MonadExecution.Mpt.Layout

/-!
# The history of versions

The functions of `UpdateAux` and `write_new_root_node` that write, move and erase versions, on the rings
of root offsets. Nodes are written and chunks are taken between the calls, so a call is given the chunks
that it finds (`StoredChunks`); the second halves of `rewind_to_version` and `clear_ondisk_db`, which cut
the lists of chunks back, are the subject of `Mpt.VersionRuns`. The history is meant to be a map from
versions to roots that is cut off at the history length (`VersionMap`). On the rings the calls do
implement that map, apart from two cases in which they abort: a version is appended although the history
length is one, or the maximum is moved forward and every other version falls out of the history with it
while the old maximum does not.
-/

namespace MonadExecution.Mpt

open Stores MetadataCopy Function Option Mpt.Ring DbMetadataContext Nat

/-! ## The functions -/

/-- `INVALID_COMPACT_VIRTUAL_OFFSET`. -/
def invalidCompactOffset : Nat := 2 ^ 32 - 1

/-- `compact_virtual_chunk_offset_t::get_count`. -/
def getCount (v : Nat) : Nat := v / 2 ^ 12

/-- The lists of chunks that a call finds, from their first chunk to their last, the insertion counts of
the chunks, and the compaction offsets in the values of the roots. -/
structure StoredChunks where
  fast : List Nat
  slow : List Nat
  insertionCount : Nat → Nat
  minOffsets : ChunkOffset → Nat × Nat

namespace StoredChunks

variable (chunks : StoredChunks)

/-- `free_chunks_from_ci_till_count`: the chunks below a count go, and the loop must find one that stays. -/
def freeTillCount (count : Nat) : List Nat → Option (List Nat)
  | [] => none
  | id :: ids => if chunks.insertionCount id < count then freeTillCount count ids else some (id :: ids)

/-- The count is not above that of the last chunk of a list. -/
def Reached (ids : List Nat) (count : Nat) : Prop := ∃ id ∈ ids.getLast?, count ≤ chunks.insertionCount id

instance (ids : List Nat) (count : Nat) : Decidable (chunks.Reached ids count) :=
  inferInstanceAs (Decidable (∃ id ∈ ids.getLast?, _))

def freeCompactedChunks (countFast countSlow : Nat) : Option StoredChunks :=
  if chunks.Reached chunks.fast countFast ∧ chunks.Reached chunks.slow countSlow then do
    let fast ← chunks.freeTillCount countFast chunks.fast
    let slow ← chunks.freeTillCount countSlow chunks.slow
    some { chunks with fast := fast, slow := slow }
  else none

/-- The end of `release_unreferenced_chunks`, once the root at `o` has been read. -/
def releaseBefore (o : ChunkOffset) : Option StoredChunks :=
  if (chunks.minOffsets o).1 ≠ invalidCompactOffset ∧ (chunks.minOffsets o).2 ≠ invalidCompactOffset then
    chunks.freeCompactedChunks (getCount (chunks.minOffsets o).1) (getCount (chunks.minOffsets o).2)
  else none

/-- The compaction offsets of a root are valid and not beyond the lists. -/
structure Covers (o : ChunkOffset) : Prop where
  fast : (chunks.minOffsets o).1 ≠ invalidCompactOffset
  slow : (chunks.minOffsets o).2 ≠ invalidCompactOffset
  fast_reached : chunks.Reached chunks.fast (getCount (chunks.minOffsets o).1)
  slow_reached : chunks.Reached chunks.slow (getCount (chunks.minOffsets o).2)

variable {chunks}

/-- The last chunk stops the loop. -/
theorem Reached.freeTillCount {ids : List Nat} {count : Nat} (h : chunks.Reached ids count) :
    (chunks.freeTillCount count ids).isSome := by
  obtain ⟨last, hlast, hle⟩ := h
  induction ids with
  | nil => cases hlast
  | cons id ids ih =>
    unfold StoredChunks.freeTillCount
    split_ifs with hlt
    · cases ids with
      | nil =>
        cases hlast
        exact absurd hlt (Nat.not_lt.mpr hle)
      | cons next ids => exact ih hlast
    · rfl

theorem Covers.releaseBefore {o : ChunkOffset} (h : chunks.Covers o) : (chunks.releaseBefore o).isSome := by
  obtain ⟨fast, hfast⟩ := isSome_iff_exists.mp h.fast_reached.freeTillCount
  obtain ⟨slow, hslow⟩ := isSome_iff_exists.mp h.slow_reached.freeTillCount
  unfold StoredChunks.releaseBefore freeCompactedChunks
  rw [if_pos ⟨h.fast, h.slow⟩, if_pos ⟨h.fast_reached, h.slow_reached⟩, hfast, hslow]
  rfl

theorem covers_of_none {m : Nat → Option ChunkOffset} (hm : ∀ v, m v = none) (v : Nat) (o : ChunkOffset)
    (hv : m v = some o) : chunks.Covers o :=
  absurd (hv.symm.trans (hm v)) (Option.some_ne_none o)

end StoredChunks

namespace DbMetadataContext

/-- Subtraction of two `uint64_t`. -/
def sub64 (a b : Nat) : Nat := if b ≤ a then a - b else a + uint64Count - b

def versionIsValidOndisk (c : DbMetadataContext) (version : Nat) : Bool :=
  !(c.getRootOffsetAtVersion version .primary).isInvalid

/-- `release_unreferenced_chunks`: `read_node_blocking` returns no node for a version that is not
valid, and the node is dereferenced. -/
def releaseUnreferencedChunks (chunks : StoredChunks) : Stores DbMetadataContext Unit := do
  let c ← load id
  let minValid := c.dbHistoryMinValidVersion .primary
  onlyIf (minValid ≠ invalidBlockNum) do
    require (c.versionIsValidOndisk minValid)
    require (chunks.releaseBefore (c.getRootOffsetAtVersion minValid .primary)).isSome

variable (pool : StoragePool) (chunks : StoredChunks)

def eraseVersionsUpToAndIncluding (version : Nat) : Stores DbMetadataContext Unit := do
  clearRootOffsetsUpToAndIncluding pool version
  releaseUnreferencedChunks chunks

/-- `write_new_root_node`, from where the root has been written at `o`. -/
def writeNewRootNode (o : ChunkOffset) (version : Nat) : Stores DbMetadataContext Unit := do
  let c ← load id
  let maxVersion := c.dbHistoryMaxVersion .primary
  let historyLength := c.versionHistoryLength
  if maxVersion = invalidBlockNum then do
    fastForwardNextVersion pool version
    appendRootOffset pool o
    let c ← load id
    require (c.dbHistoryRangeLowerBound .primary = version)
  else if version ≤ maxVersion then do
    require ((if historyLength ≤ maxVersion then maxVersion - historyLength + 1 else 0) ≤ version)
    let prevLowerBound := c.dbHistoryRangeLowerBound .primary
    updateRootOffset pool version o
    let c ← load id
    require (c.dbHistoryRangeLowerBound .primary = min version prevLowerBound)
  else do
    require (version = maxVersion + 1)
    onlyIf (historyLength ≤ sub64 version (c.dbHistoryMinValidVersion .primary)) do
      eraseVersionsUpToAndIncluding pool chunks (version - historyLength)
      let c ← load id
      require (sub64 version (c.dbHistoryMinValidVersion .primary) < historyLength)
    appendRootOffset pool o

/-- `get_auto_expire_version_metadata(timeline_id::primary)` -/
def autoExpireVersion (c : DbMetadataContext) : Int :=
  match c.ringIdx .primary with
  | .a => c.copy0.main.rootOffsetsAutoExpire
  | .b => c.copy0.main.secondaryAutoExpire

def moveTrieVersionForward (src dest : Nat) : Stores DbMetadataContext Unit := do
  let c ← load id
  require (c.versionIsValidOndisk src)
  require (src < dest ∧ dest ≠ invalidBlockNum ∧ c.dbHistoryMaxVersion .primary ≤ dest)
  let offset := c.getRootOffsetAtVersion src .primary
  updateRootOffset pool src invalidOffset
  onlyIf (c.versionHistoryLength ≤ dest) (eraseVersionsUpToAndIncluding pool chunks (dest - c.versionHistoryLength))
  fastForwardNextVersion pool dest
  appendRootOffset pool offset
  let c ← load id
  require (dest = c.dbHistoryMaxVersion .primary)
  require (c.versionIsValidOndisk dest)
  onlyIf (c.autoExpireVersion = src) (setAutoExpireVersionMetadata .primary dest)

/-- `rewind_to_version`, up to where the lists of chunks are cut back. -/
def rewindToVersion (version : Nat) : Stores DbMetadataContext Unit := do
  let c ← load id
  require (c.versionIsValidOndisk version)
  onlyIf (version ≠ c.dbHistoryMaxVersion .primary) do
    both (holdDirty (onRing pool (c.ringIdx .primary) (Ring.rewindToVersion version)))
    onlyIf (c.copy0.main.latestFinalizedVersion ≠ invalidBlockNum ∧
      version < c.copy0.main.latestFinalizedVersion) (setLatestFinalizedVersion version)
    setLatestVerifiedVersion invalidBlockNum
    setLatestVoted invalidBlockNum 0
    setLatestProposed invalidBlockNum 0

/-- `clear_ondisk_db`, up to where the lists of chunks are cut back. -/
def clearOndiskDb : Stores DbMetadataContext Unit := do
  let c ← load id
  both (holdDirty (onRing pool (c.ringIdx .primary) (Ring.resetAll 0)))
  setLatestFinalizedVersion invalidBlockNum
  setLatestVerifiedVersion invalidBlockNum
  setLatestVoted invalidBlockNum 0
  setLatestProposed invalidBlockNum 0
  setAutoExpireVersionMetadata .primary 0
  setAutoExpireVersionMetadata .secondary 0

/-- The change of the history length when a pool is opened. -/
def changeHistoryLength (len : Nat) : Stores DbMetadataContext Unit := do
  let c ← load id
  onlyIf (len < c.versionHistoryLength ∧ len ≤ c.dbHistoryMaxVersion .primary)
    (eraseVersionsUpToAndIncluding pool chunks (c.dbHistoryMaxVersion .primary - len))
  updateHistoryLengthMetadata len

end DbMetadataContext

/-! ## The map that the history is meant to be -/

/-- The roots of the versions, the largest version, and the history length. -/
structure VersionMap where
  roots : Roots
  max : Option Nat
  length : Nat

namespace VersionMap

/-- The versions up to and including `v` are erased. -/
def drop (m : Roots) (v : Nat) : Roots := fun w => if w ≤ v then none else m w

/-- The versions that do not fit under a maximum of `top` are erased. -/
def cut (m : Roots) (length top : Nat) : Roots := if length ≤ top then drop m (top - length) else m

end VersionMap

/-- The calls that change the history. -/
inductive HistoryCall where
  | write (o : ChunkOffset) (version : Nat)
  | move (src dest : Nat)
  | erase (version : Nat)
  | rewind (version : Nat)
  | clear
  | changeLength (len : Nat)

namespace HistoryCall

/-- What a call is meant to do. -/
def apply (s : VersionMap) : HistoryCall → VersionMap
  | write o version =>
    match s.max with
    | none => { s with roots := update s.roots version (some o), max := some version }
    | some top =>
      if version ≤ top then { s with roots := update s.roots version (some o) }
      else
        { s with
          roots := update (VersionMap.cut s.roots s.length version) version (some o)
          max := some version }
  | move src dest =>
    { s with
      roots := update (VersionMap.cut (update s.roots src none) s.length dest) dest (s.roots src)
      max := some dest }
  | erase version => { s with roots := VersionMap.drop s.roots version }
  | rewind version => { s with roots := fun w => if version < w then none else s.roots w, max := some version }
  | clear => { s with roots := fun _ => none, max := none }
  | changeLength len =>
    { s with
      roots := match s.max with
        | none => s.roots
        | some top => if len < s.length then VersionMap.cut s.roots len top else s.roots
      length := len }

/-- The arguments a call is made for. A root is written to the next version or to one of the window. -/
def Allowed (capacity : Nat) (s : VersionMap) : HistoryCall → Prop
  | write o version =>
    o.isInvalid = false ∧ version < invalidBlockNum ∧
      ∀ top, s.max = some top → version ≤ top + 1 ∧ top < version + s.length
  | move src dest => (s.roots src).isSome ∧ dest < invalidBlockNum ∧ ∀ top, s.max = some top → top < dest
  | erase version => ∃ top, s.max = some top ∧ version < top
  | rewind version => (s.roots version).isSome
  | clear => True
  | changeLength len => 0 < len ∧ len ≤ capacity

/-- The calls that abort: a version is appended under a history length of one, or the maximum is
moved, some version is left, and all that are left fall out of the history, but not the old maximum. -/
def Aborts (s : VersionMap) : HistoryCall → Prop
  | write _ version => s.length = 1 ∧ ∃ top, s.max = some top ∧ version = top + 1
  | move src dest =>
    s.max = some src ∧ s.length ≤ dest ∧ dest - s.length < src ∧ (∃ v, v ≠ src ∧ (s.roots v).isSome) ∧
      ∀ v, v ≠ src → (s.roots v).isSome → v ≤ dest - s.length
  | _ => False

end HistoryCall

/-! ## Both copies as a pair of rings -/

namespace DbMetadataContext

variable {pool : StoragePool} {c : DbMetadataContext} {r₀ r₁ : Ring}

/-- The primary rings of the two copies. -/
structure Views (pool : StoragePool) (c : DbMetadataContext) (r₀ r₁ : Ring) : Prop where
  idx : c.copy0.main.primaryRingIdx = .a
  laid₀ : Laid pool .a c.copy0
  laid₁ : Laid pool .a c.copy1
  ring₀ : c.copy0.ring .a = r₀
  ring₁ : c.copy1.ring .a = r₁

/-- A program on a copy that leaves the primary ring and the history length alone. -/
def Quiet (m : Stores MetadataCopy Unit) : Prop :=
  ∀ x : MetadataCopy, ∃ x', exec m x = some ((), x') ∧ x'.span = x.span ∧ x'.cnv = x.cnv ∧
    x'.main.rootOffsets = x.main.rootOffsets ∧ x'.main.primaryRingIdx = x.main.primaryRingIdx ∧
    x'.main.historyLength = x.main.historyLength

/-- The fields of the main metadata that a view looks at. -/
def viewed (m : DbMetadata) := (m.rootOffsets, m.primaryRingIdx, m.historyLength)

theorem quiet_setMain {f : DbMetadata → DbMetadata} (hf : ∀ m, viewed (f m) = viewed m) : Quiet (setMain f) := by
  intro x
  obtain ⟨hring, hrest⟩ := Prod.mk.inj (hf x.main)
  obtain ⟨hidx, hlen⟩ := Prod.mk.inj hrest
  exact ⟨{ x with main := f x.main }, rfl, rfl, rfl, hring, hidx, hlen⟩

variable {m : Stores MetadataCopy Unit}

theorem quiet_bind {n : Stores MetadataCopy Unit} (hm : Quiet m) (hn : Quiet n) : Quiet (m >>= fun _ => n) := by
  intro x
  obtain ⟨y, hy, hspan, hcnv, hring, hidx, hlen⟩ := hm x
  obtain ⟨z, hz, hspan', hcnv', hring', hidx', hlen'⟩ := hn y
  refine ⟨z, ?_, hspan'.trans hspan, hcnv'.trans hcnv, hring'.trans hring, hidx'.trans hidx, hlen'.trans hlen⟩
  rw [exec_bind, hy]
  exact hz

theorem quiet_holdDirty (hm : Quiet m) : Quiet (holdDirty m) := by
  have hdirty : ∀ dirty, Quiet (setDirty dirty) := fun dirty x => ⟨x.withDirty dirty, rfl, rfl, rfl, rfl, rfl, rfl⟩
  exact quiet_bind (hdirty true) (quiet_bind hm (hdirty false))

theorem Laid.of_same {x x' : MetadataCopy} (h : Laid pool .a x) (hspan : x'.span = x.span) (hcnv : x'.cnv = x.cnv)
    (hring : x'.main.rootOffsets = x.main.rootOffsets) : Laid pool .a x' ∧ x'.ring .a = x.ring .a := by
  obtain ⟨main, span, cnv⟩ := x
  obtain ⟨main', span', cnv'⟩ := x'
  obtain rfl : span' = span := hspan
  obtain rfl : cnv' = cnv := hcnv
  have hring' : main'.ring .a = main.ring .a := hring
  refine ⟨⟨?_, ?_, h.sized⟩, ?_⟩
  · have hmapped := h.mapped
    unfold Mapped at hmapped ⊢
    rw [hring']
    exact hmapped
  · have hdst := h.distinct
    rw [hring']
    exact hdst
  · unfold MetadataCopy.ring
    rw [hring']

namespace Views

theorem both_quiet (h : Views pool c r₀ r₁) {m : Stores MetadataCopy Unit} (hm : Quiet m) :
    ∃ c', exec (both m) c = some ((), c') ∧ Views pool c' r₀ r₁ ∧
      c'.versionHistoryLength = c.versionHistoryLength := by
  obtain ⟨x, hx, hspan, hcnv, hring, hidx, hlen⟩ := hm c.copy0
  obtain ⟨y, hy, hspan', hcnv', hring', -, -⟩ := hm c.copy1
  obtain ⟨hlaid, hsame⟩ := Laid.of_same h.laid₀ hspan hcnv hring
  obtain ⟨hlaid', hsame'⟩ := Laid.of_same h.laid₁ hspan' hcnv' hring'
  refine ⟨{ copy0 := x, copy1 := y }, ?_, ⟨hidx.trans h.idx, hlaid, hlaid', hsame.trans h.ring₀,
    hsame'.trans h.ring₁⟩, hlen⟩
  rw [exec_both, hx, hy]
  rfl

theorem setMain_both (h : Views pool c r₀ r₁) {f : DbMetadata → DbMetadata} (hf : ∀ m, viewed (f m) = viewed m) :
    ∃ c', exec (setBoth f) c = some ((), c') ∧ Views pool c' r₀ r₁ ∧
      c'.versionHistoryLength = c.versionHistoryLength :=
  h.both_quiet (quiet_holdDirty (quiet_setMain hf))

variable {p : Stores Ring Unit}

/-- A copy after a program on its ring, between raising and lowering the dirty flag. -/
theorem holdDirty_onRing {x : MetadataCopy} {r r' : Ring} (hlaid : Laid pool .a x) (hring : x.ring .a = r)
    (hsized : r.Sized) (hp : exec p r = some ((), r')) (hcap : r'.capacity = r.capacity) :
    ∃ x', exec (holdDirty (onRing pool .a p)) x = some ((), x') ∧ Laid pool .a x' ∧
      x'.ring .a = r' ∧ x'.main.primaryRingIdx = x.main.primaryRingIdx ∧
      x'.main.historyLength = x.main.historyLength := by
  have hlaid' := hlaid.withDirty true
  have hring' : (x.withDirty true).ring .a = r := (ring_setDirty x true .a).trans hring
  have hcap' : r'.capacity = ((x.withDirty true).ring .a).capacity := by
    rw [hring']
    exact hcap
  refine ⟨((x.withDirty true).setRing pool .a r').withDirty false, ?_,
    (hlaid'.setRing hcap').withDirty false, ?_, rfl, rfl⟩
  · unfold holdDirty setDirty
    rw [exec_bind, exec_store, bind_some, exec_bind, hlaid'.exec_onRing (hring' ▸ hsized), hring', hp]
    rfl
  · rw [ring_setDirty, hlaid'.ring_setRing hcap']

theorem both_onRing (h : Views pool c r₀ r₁) (hs0 : r₀.Sized) (hs1 : r₁.Sized) {r0' r1' : Ring}
    (h0 : exec p r₀ = some ((), r0')) (h1 : exec p r₁ = some ((), r1')) (hcap0 : r0'.capacity = r₀.capacity)
    (hcap1 : r1'.capacity = r₁.capacity) :
    ∃ c', exec (both (holdDirty (onRing pool .a p))) c = some ((), c') ∧ Views pool c' r0' r1' ∧
      c'.versionHistoryLength = c.versionHistoryLength := by
  obtain ⟨x, hx, hlaid, hring, hidx, hlen⟩ := holdDirty_onRing h.laid₀ h.ring₀ hs0 h0 hcap0
  obtain ⟨y, hy, hlaid', hring', -, -⟩ := holdDirty_onRing h.laid₁ h.ring₁ hs1 h1 hcap1
  refine ⟨{ copy0 := x, copy1 := y }, ?_, ⟨hidx.trans h.idx, hlaid, hlaid', hring, hring'⟩, hlen⟩
  rw [exec_both, hx, hy]
  rfl

end Views

variable {i : Nat} {o : ChunkOffset} {get : DbMetadataContext → MetadataCopy}
  {set : DbMetadataContext → MetadataCopy → DbMetadataContext} {idx : RingIdx} {a : MetadataCopy}

theorem erased_iff (hidx : c.copy0.main.primaryRingIdx = .a) (i : Nat) (o : ChunkOffset) :
    Erased c i o ↔ RingErased (c.copy0.ring .a) i o := by rw [erased_iff_ring, hidx]

/-- `update_root_offset` on one copy, with or without the reset. -/
theorem exec_updateRootOffsetOn_some {b : MetadataCopy}
    (ha : exec (onRing pool idx (Ring.assign i o)) ((get c).withDirty true) = some ((), a))
    (hb : (if Erased (set c a) i o then exec (onRing pool idx (Ring.resetAll 0)) a else some ((), a)) = some ((), b))
    (hget : ∀ c x, get (set c x) = x) (hset : ∀ c x y, set (set c x) y = set c y) :
    exec (updateRootOffsetOn pool (focus get set) idx i o) c = some ((), set c (b.withDirty false)) := by
  unfold updateRootOffsetOn setDirty
  rw [exec_bind, exec_focus, exec_store, map_some, bind_some, exec_bind, exec_focus,
    hget, ha, map_some, bind_some, hset, exec_bind, exec_load, bind_some, exec_bind, exec_onlyIf, id_eq]
  split_ifs at hb ⊢
  · rw [exec_focus, hget, hb, map_some, bind_some, hset, exec_focus, hget, exec_store, map_some, hset]
  cases hb
  rw [bind_some, exec_focus, hget, exec_store, map_some, hset]

namespace Views

variable {chunks : StoredChunks} {r : Ring} {m : Roots} {e v : Nat}

/-- A program on the primary ring of one copy. -/
theorem onRing {x : MetadataCopy} {r' : Ring} (hlaid : Laid pool .a x) (hring : x.ring .a = r) (hsized : r.Sized)
    {p : Stores Ring Unit} (hp : exec p r = some ((), r')) (hcap : r'.capacity = r.capacity) :
    ∃ x', exec (MetadataCopy.onRing pool .a p) x = some ((), x') ∧ Laid pool .a x' ∧
      x'.ring .a = r' ∧ x'.main.primaryRingIdx = x.main.primaryRingIdx ∧
      x'.main.historyLength = x.main.historyLength := by
  have hcap' : r'.capacity = (x.ring .a).capacity := by rw [hring, hcap]
  refine ⟨x.setRing pool .a r', ?_, hlaid.setRing hcap', hlaid.ring_setRing hcap', rfl, rfl⟩
  rw [hlaid.exec_onRing (hring ▸ hsized), hring, hp]
  rfl

section

variable (h : Views pool c r₀ r₁)

include h

/-- `update_root_offset`: if the only version is erased, the first ring is reset and the second is
not. -/
theorem updateRootOffset (hs0 : r₀.Sized) (hs1 : r₁.Sized) {i : Nat} (hi : i ≠ invalidBlockNum) (o : ChunkOffset) :
    ∃ c', exec (DbMetadataContext.updateRootOffset pool i o) c = some ((), c') ∧
      Views pool c' (if RingErased (r₀.assigned i o) i o then (r₀.assigned i o).cleared 0
        else r₀.assigned i o) (r₁.assigned i o) ∧
      c'.versionHistoryLength = c.versionHistoryLength := by
  have hassign : ∀ {r : Ring}, r.Sized → exec (Ring.assign i o) r = some ((), r.assigned i o) := by
    intro r hr
    rw [exec_assign, if_pos (pos_iff_ne_zero.mp hr.pos)]
  obtain ⟨a0, ha0, hlaid0, hring0, hidx0, hlen0⟩ := onRing (h.laid₀.withDirty true)
    ((ring_setDirty _ true .a).trans h.ring₀) hs0 (hassign hs0) (capacity_assigned r₀ i o)
  obtain ⟨a1, ha1, hlaid1, hring1, -, -⟩ := onRing (h.laid₁.withDirty true)
    ((ring_setDirty _ true .a).trans h.ring₁) hs1 (hassign hs1) (capacity_assigned r₁ i o)
  have hprim : c.ringIdx .primary = .a := h.idx
  have hidx : a0.main.primaryRingIdx = .a := hidx0.trans h.idx
  have hring1' : (a1.withDirty false).ring .a = r₁.assigned i o := (ring_setDirty a1 false .a).trans hring1
  have hsized : (r₀.assigned i o).Sized := by
    obtain ⟨k, hk⟩ := hs0
    exact ⟨k, (capacity_assigned r₀ i o).trans hk⟩
  have hreset : exec (Ring.resetAll 0) (r₀.assigned i o) = some ((), (r₀.assigned i o).cleared 0) := by
    rw [exec_resetAll, if_pos (pos_iff_ne_zero.mp hsized.pos)]
  obtain ⟨b, hb, hlaidb, hringb, hidxb, hlengthb⟩ : ∃ b,
      (if Erased { c with copy0 := a0 } i o then exec (MetadataCopy.onRing pool .a (Ring.resetAll 0)) a0
        else some ((), a0)) = some ((), b) ∧ Laid pool .a b ∧
      b.ring .a = (if RingErased (r₀.assigned i o) i o then (r₀.assigned i o).cleared 0 else r₀.assigned i o) ∧
      b.main.primaryRingIdx = a0.main.primaryRingIdx ∧ b.main.historyLength = a0.main.historyLength := by
    simp only [erased_iff (c := { c with copy0 := a0 }) hidx, hring0]
    split_ifs
    · exact onRing hlaid0 hring0 hsized hreset (capacity_cleared _ 0)
    · exact ⟨a0, rfl, hlaid0, hring0, rfl, rfl⟩
  have hringb' := (ring_setDirty b false .a).trans hringb
  have hfst : exec (updateRootOffsetOn pool onCopy0 .a i o) c = some ((), { c with copy0 := b.withDirty false }) :=
    exec_updateRootOffsetOn_some ha0 hb (fun _ _ => rfl) fun _ _ _ => rfl
  -- the second copy is judged by the first, which is empty after a reset
  have hkept : ¬ Erased { copy0 := b.withDirty false, copy1 := a1 } i o := by
    rw [erased_iff (hidxb.trans hidx), hringb']
    split_ifs with hcond
    · exact fun hagain => hi hagain.2.1
    · exact hcond
  have hsnd : exec (updateRootOffsetOn pool onCopy1 .a i o) { c with copy0 := b.withDirty false } =
      some ((), { copy0 := b.withDirty false, copy1 := a1.withDirty false }) :=
    exec_updateRootOffsetOn_some ha1 (if_neg hkept) (fun _ _ => rfl) fun _ _ _ => rfl
  refine ⟨{ copy0 := b.withDirty false, copy1 := a1.withDirty false }, ?_, ⟨hidxb.trans hidx,
    hlaidb.withDirty false, hlaid1.withDirty false, hringb', hring1'⟩, hlengthb.trans hlen0⟩
  unfold DbMetadataContext.updateRootOffset
  rw [exec_bind, exec_load, bind_some, id_eq, hprim, exec_bind, hfst, bind_some, hsnd]

/-! ### What can be read -/

theorem rootOffsets : c.rootOffsets .primary = r₀ := by
  unfold DbMetadataContext.rootOffsets ringIdx
  rw [h.idx, h.ring₀]

theorem maxVersion : c.dbHistoryMaxVersion .primary = r₀.maxVersion := by
  show (c.rootOffsets .primary).maxVersion = _
  rw [h.rootOffsets]

theorem lowerBound : c.dbHistoryRangeLowerBound .primary =
    if r₀.maxVersion = invalidBlockNum then invalidBlockNum else r₀.versionLowerBound := by
  show (if (c.rootOffsets .primary).maxVersion = invalidBlockNum then invalidBlockNum
    else (c.rootOffsets .primary).versionLowerBound) = _
  rw [h.rootOffsets]

/-- `get_root_offset_at_version` reads the map. -/
theorem getRoot (hm : r₀.Holds m) (v : Nat) : c.getRootOffsetAtVersion v .primary = (m v).getD invalidOffset := by
  have hroom := hm.room
  have hbd := hm.bound
  show (if c.dbHistoryRangeLowerBound .primary = invalidBlockNum ∨
    v < c.dbHistoryRangeLowerBound .primary ∨ (c.rootOffsets .primary).maxVersion < v then invalidOffset
    else (c.rootOffsets .primary).get v) = _
  rw [h.lowerBound, h.rootOffsets]
  by_cases hemp : r₀.nextVersion = 0
  · have hmax := (maxVersion_eq_invalid_iff hbd).mpr hemp
    rw [if_pos (.inl (if_pos hmax)), hm.none_of_ge (by omega)]
    rfl
  have hmax : r₀.maxVersion ≠ invalidBlockNum := fun hbad => hemp ((maxVersion_eq_invalid_iff hbd).mp hbad)
  rw [if_neg hmax, maxVersion_of_pos hemp]
  split_ifs with hout
  · have hnone : m v = none := by
      rcases hout with hout | hout | hout
      · rcases lt_or_ge v r₀.versionLowerBound with hlt | hge
        · exact hm.none_of_lt hlt
        · exact hm.none_of_ge (by omega)
      · exact hm.none_of_lt hout
      · exact hm.none_of_ge (by omega)
    rw [hnone]
    rfl
  · exact hm.entries v (by omega) (by omega)

theorem isValid (hm : r₀.Holds m) (v : Nat) : c.versionIsValidOndisk v = (m v).isSome := by
  unfold versionIsValidOndisk
  rw [h.getRoot hm]
  cases hv : m v with
  | none => rfl
  | some o =>
    rw [getD_some, (hm.within v o hv).2.2]
    rfl

end

/-! ### Erasing -/

/-- What `clear_root_offsets_up_to_and_including` leaves. -/
structure Erased (pool : StoragePool) (r : Ring) (m : Roots) (e : Nat) (c' : DbMetadataContext) : Prop where
  part : e + 1 < r.nextVersion → ∃ r', Views pool c' r' r' ∧ r'.Exact (VersionMap.drop m e) ∧
    r'.nextVersion = r.nextVersion ∧ r'.capacity = r.capacity ∧
    r.versionLowerBound ≤ r'.versionLowerBound
  all : r.nextVersion ≤ e + 1 → ∃ r₀ r₁, Views pool c' r₀ r₁ ∧ r₀.nextVersion = 0 ∧
    (r₀.Holds fun _ => none) ∧ r₀.capacity = r.capacity ∧ (r₁.Exact fun _ => none) ∧
    r₁.nextVersion = r.nextVersion ∧ r₁.capacity = r.capacity

theorem eq_some_of_drop {w : Nat} {o : ChunkOffset} (h : VersionMap.drop m e w = some o) : m w = some o := by
  unfold VersionMap.drop at h
  split_ifs at h
  exact h

theorem drop_update {i : Nat} (h : i ≤ e) : VersionMap.drop (update m i none) e = VersionMap.drop m e := by
  funext w
  unfold VersionMap.drop
  by_cases hw : w ≤ e
  · rw [if_pos hw, if_pos hw]
  · rw [if_neg hw, if_neg hw, update_of_ne (by omega)]

theorem clearRootOffsets (h : Views pool c r r) (hm : r.Exact m) {n : Nat} (hn : 1 ≤ n)
    (hfuel : r.versionLowerBound ≤ e → e + 2 ≤ n + r.versionLowerBound) :
    ∃ c', exec (clearRootOffsets pool e n) c = some ((), c') ∧
      Erased pool r m e c' ∧ c'.versionHistoryLength = c.versionHistoryLength := by
  induction n generalizing c r m with
  | zero => exact absurd hn (by omega)
  | succ n ih =>
    have hbd := hm.bound
    have hlow := hm.lower
    have hvalid : r.maxVersion ≠ invalidBlockNum := by
      rw [Ne, maxVersion_eq_invalid_iff hbd]
      omega
    have hlb : c.dbHistoryRangeLowerBound .primary = r.versionLowerBound := by rw [h.lowerBound, if_neg hvalid]
    rw [clearRootOffsets, exec_bind, exec_load, bind_some, id_eq, exec_onlyIf, hlb]
    by_cases hrd : r.versionLowerBound ≤ e
    · -- one more round: the version at the lower bound is erased
      rw [if_pos ⟨by omega, hrd⟩, exec_bind]
      obtain ⟨hexact, hle, hlt⟩ := hm.erase le_rfl hlow
      obtain ⟨c1, hexec, hvs, hlen⟩ :=
        h.updateRootOffset hm.sized hm.sized (i := r.versionLowerBound) (by omega) invalidOffset
      rw [hexec, bind_some]
      have hmax : (r.assigned r.versionLowerBound invalidOffset).maxVersion = r.nextVersion - 1 := by
        rw [maxVersion_assigned, maxVersion_of_pos (by omega)]
      by_cases hlast : r.versionLowerBound + 1 = r.nextVersion
      · -- it was the last one, and the loop ends with the next round
        have hera : RingErased (r.assigned r.versionLowerBound invalidOffset) r.versionLowerBound
            invalidOffset := by
          refine ⟨rfl, by omega, ?_⟩
          rw [if_neg (by omega)]
          have hlo := hexact.lower
          rw [nextVersion_assigned] at hlo
          omega
        rw [if_pos hera] at hvs
        have hnone : update m r.versionLowerBound none = fun _ => none := by
          funext v
          by_cases hv : v = r.versionLowerBound
          · rw [hv, update_self]
          rw [update_of_ne hv]
          rcases lt_or_ge v r.versionLowerBound with hlt | hge
          · exact hm.none_of_lt hlt
          · exact hm.none_of_ge (by omega)
        have hzero : ((r.assigned r.versionLowerBound invalidOffset).cleared 0).maxVersion =
            invalidBlockNum := rfl
        have hstop : ¬ (c1.dbHistoryRangeLowerBound .primary ≠ invalidBlockNum ∧
            c1.dbHistoryRangeLowerBound .primary ≤ e) := by
          rw [hvs.lowerBound, if_pos hzero]
          exact fun hbad => hbad.1 rfl
        obtain ⟨n, rfl⟩ : ∃ k, n = k + 1 := ⟨n - 1, by have := hfuel hrd; omega⟩
        refine ⟨c1, ?_, ⟨fun hpart => by omega, fun _ => ?_⟩, hlen⟩
        · rw [clearRootOffsets, exec_bind, exec_load, bind_some, id_eq, exec_onlyIf, if_neg hstop]
        refine ⟨_, _, hvs, rfl, Ring.Holds.cleared hexact.sized (by omega), ?_, ?_, ?_, ?_⟩
        · rw [capacity_cleared, capacity_assigned]
        · rw [← hnone]
          exact hexact
        · exact nextVersion_assigned _ _ _
        · exact capacity_assigned _ _ _
      · have hkept : ¬ RingErased (r.assigned r.versionLowerBound invalidOffset) r.versionLowerBound
            invalidOffset := by
          intro hbad
          have := hbad.2.1
          omega
        rw [if_neg hkept] at hvs
        obtain ⟨c', hexec', hrest, hlen'⟩ := ih hvs hexact
          (by have := hfuel hrd; omega) (fun hmore => by have := hfuel hrd; omega)
        refine ⟨c', hexec', ⟨fun hpart => ?_, fun hall => ?_⟩, hlen'.trans hlen⟩
        · obtain ⟨r', hvs', hex', hnext', hcap', hle'⟩ := hrest.part (by rw [nextVersion_assigned]; exact hpart)
          rw [drop_update hrd] at hex'
          rw [capacity_assigned] at hcap'
          exact ⟨r', hvs', hex', hnext', hcap', le_trans hle hle'⟩
        · obtain ⟨r₀, r₁, hvs', hzero, hhs, hcap0, hex', hnext', hcap1⟩ :=
            hrest.all (by rw [nextVersion_assigned]; exact hall)
          rw [capacity_assigned] at hcap0 hcap1
          exact ⟨r₀, r₁, hvs', hzero, hhs, hcap0, hex', hnext', hcap1⟩
    · rw [if_neg fun hbad => hrd hbad.2]
      refine ⟨c, rfl, ⟨fun _ => ⟨r, h, ?_, rfl, rfl, le_rfl⟩, fun hall => by omega⟩, rfl⟩
      have hsame : VersionMap.drop m e = m := by
        funext w
        unfold VersionMap.drop
        split_ifs with hw
        · exact (hm.none_of_lt (by omega)).symm
        · rfl
      rw [hsame]
      exact hm

/-- `release_unreferenced_chunks` needs a root at the lower bound. -/
theorem exec_release (h : Views pool c r₀ r₁) (hm : r₀.Holds m) (hcovers : ∀ v o, m v = some o → chunks.Covers o) :
    exec (releaseUnreferencedChunks chunks) c =
    if r₀.maxVersion = invalidBlockNum ∨ r₀.versionLowerBound = invalidBlockNum ∨
      (m r₀.versionLowerBound).isSome then some ((), c) else none := by
  have hmin : c.dbHistoryMinValidVersion .primary = _ := h.lowerBound
  unfold releaseUnreferencedChunks
  rw [exec_bind, exec_load, bind_some, id_eq, exec_onlyIf, exec_bind, exec_require, hmin]
  by_cases hmax : r₀.maxVersion = invalidBlockNum
  · rw [if_pos hmax, if_neg (not_not.mpr rfl), if_pos (.inl hmax)]
  rw [if_neg hmax]
  by_cases hlow : r₀.versionLowerBound = invalidBlockNum
  · rw [if_neg (not_not.mpr hlow), if_pos (.inr (.inl hlow))]
  rw [if_pos hlow, h.isValid hm]
  by_cases hsome : (m r₀.versionLowerBound).isSome
  · obtain ⟨o, ho⟩ := isSome_iff_exists.mp hsome
    rw [if_pos hsome, bind_some, exec_require, h.getRoot hm, ho, getD_some,
      if_pos (hcovers _ o ho).releaseBefore, if_pos (.inr (.inr rfl))]
  rw [if_neg hsome, bind_none, if_neg]
  rintro (hbad | hbad | hbad)
  · exact hmax hbad
  · exact hlow hbad
  · exact hsome hbad

/-- Erasing below a version that is left. -/
theorem erase_part (h : Views pool c r r) (hm : r.Exact m) (hcovers : ∀ v o, m v = some o → chunks.Covers o)
    (hv : (m v).isSome) (hev : e < v) :
    Completes (eraseVersionsUpToAndIncluding pool chunks e) c fun _ c' =>
      c'.versionHistoryLength = c.versionHistoryLength ∧
      ∃ r', Views pool c' r' r' ∧ r'.Exact (VersionMap.drop m e) ∧
        (VersionMap.drop m e r'.versionLowerBound).isSome ∧ r'.nextVersion = r.nextVersion ∧
        r'.capacity = r.capacity ∧ r.versionLowerBound ≤ r'.versionLowerBound ∧
        e < r'.versionLowerBound := by
  have hvlt := (hm.lt_of_isSome hv).2
  obtain ⟨c', hexec, hera, hlen⟩ := h.clearRootOffsets hm (e := e) (n := e + 2) (by omega) (fun _ => by omega)
  obtain ⟨r', hvs, hexact, hnext, hcap, hle⟩ := hera.part (by omega)
  have hdrop : (VersionMap.drop m e v).isSome := by
    unfold VersionMap.drop
    rw [if_neg (by omega)]
    exact hv
  have hlow : (VersionMap.drop m e r'.versionLowerBound).isSome := by
    rcases hexact.least with hleast | ⟨hnone, -⟩
    · exact hleast
    rw [hnone v] at hdrop
    cases hdrop
  have hgt : e < r'.versionLowerBound := by
    by_contra hle
    unfold VersionMap.drop at hlow
    rw [if_pos (by omega)] at hlow
    cases hlow
  refine completes_exec hexec ?_
  refine ⟨(), c', ?_, hlen, r', hvs, hexact, hlow, hnext, hcap, hle, hgt⟩
  rw [hvs.exec_release hexact.toHolds fun w o hw => hcovers w o (eq_some_of_drop hw), if_pos (.inr (.inr hlow))]

/-- Erasing all versions. -/
theorem erase_all (h : Views pool c r r) (hm : r.Exact m) (he : r.nextVersion ≤ e + 1) :
    Completes (eraseVersionsUpToAndIncluding pool chunks e) c fun _ c' =>
      c'.versionHistoryLength = c.versionHistoryLength ∧
      ∃ r₀ r₁, Views pool c' r₀ r₁ ∧ r₀.nextVersion = 0 ∧ (r₀.Holds fun _ => none) ∧
        r₀.capacity = r.capacity ∧ (r₁.Exact fun _ => none) ∧ r₁.nextVersion = r.nextVersion ∧
        r₁.capacity = r.capacity := by
  obtain ⟨c', hexec, hera, hlen⟩ := h.clearRootOffsets hm (e := e) (n := e + 2) (by omega) (fun _ => by omega)
  obtain ⟨r₀, r₁, hvs, hzero, hhs, hrest⟩ := hera.all he
  refine completes_exec hexec ?_
  refine ⟨(), c', ?_, hlen, r₀, r₁, hvs, hzero, hhs, hrest⟩
  rw [hvs.exec_release hhs (StoredChunks.covers_of_none fun _ => rfl),
    if_pos (.inl ((maxVersion_eq_invalid_iff hhs.bound).mpr hzero))]

/-- Erasing an empty ring. -/
theorem erase_none (h : Views pool c r₀ r₁) (hzero : r₀.nextVersion = 0)
    (hm : r₀.Holds fun _ => none) (e : Nat) : exec (eraseVersionsUpToAndIncluding pool chunks e) c = some ((), c) := by
  have hmax := (maxVersion_eq_invalid_iff hm.bound).mpr hzero
  have hlow : c.dbHistoryRangeLowerBound .primary = invalidBlockNum := by rw [h.lowerBound, if_pos hmax]
  unfold eraseVersionsUpToAndIncluding clearRootOffsetsUpToAndIncluding
  rw [exec_bind, DbMetadataContext.clearRootOffsets, exec_bind, exec_load, bind_some, id_eq,
    exec_onlyIf, if_neg fun hbad => hbad.1 hlow, bind_some, h.exec_release hm (StoredChunks.covers_of_none fun _ => rfl),
    if_pos (.inl hmax)]

/-- Erasing all versions of a ring whose maximum is invalid, up to a bound below that maximum. -/
theorem erase_aborts (h : Views pool c r r) (hm : r.Exact m) (he : e + 1 < r.nextVersion)
    (hnone : ∀ v, e < v → m v = none) : exec (eraseVersionsUpToAndIncluding pool chunks e) c = none := by
  obtain ⟨c', hexec, hera, -⟩ := h.clearRootOffsets hm (e := e) (n := e + 2) (by omega) (fun _ => by omega)
  obtain ⟨r', hvs, hexact, hnext, -, -⟩ := hera.part he
  have hemp : ∀ v, VersionMap.drop m e v = none := by
    intro v
    unfold VersionMap.drop
    split_ifs with hv
    · rfl
    · exact hnone v (by omega)
  have hbd := hexact.bound
  have hlast := hexact.low_of_empty hemp
  have hexec' : exec (clearRootOffsetsUpToAndIncluding pool e) c = some ((), c') := hexec
  unfold eraseVersionsUpToAndIncluding
  rw [exec_bind, hexec', bind_some, hvs.exec_release hexact.toHolds (StoredChunks.covers_of_none hemp),
    if_neg]
  rintro (hbad | hbad | hbad)
  · have := (maxVersion_eq_invalid_iff hbd).mp hbad
    omega
  · omega
  · rw [hemp] at hbad
    cases hbad

/-! ### Going forward -/

theorem fastForward (h : Views pool c r₀ r₁) (hs0 : r₀.Sized) (hs1 : r₁.Sized) {r0' r1' : Ring}
    (h0 : exec (Ring.fastForward v) r₀ = some ((), r0')) (h1 : exec (Ring.fastForward v) r₁ = some ((), r1'))
    (hcap0 : r0'.capacity = r₀.capacity) (hcap1 : r1'.capacity = r₁.capacity) :
    Completes (fastForwardNextVersion pool v) c fun _ c' =>
      Views pool c' r0' r1' ∧ c'.versionHistoryLength = c.versionHistoryLength := by
  refine completes_load ?_
  have hprim : c.ringIdx .primary = .a := h.idx
  rw [id_eq, hprim]
  obtain ⟨c', hexec, hvs, hlen⟩ := h.both_onRing hs0 hs1 h0 h1 hcap0 hcap1
  exact ⟨(), c', hexec, hvs, hlen⟩

theorem append (h : Views pool c r₀ r₁) (hs0 : r₀.Sized) (hs1 : r₁.Sized) (hb0 : r₀.nextVersion < invalidBlockNum)
    (hb1 : r₁.nextVersion < invalidBlockNum) (o : ChunkOffset) :
    Completes (appendRootOffset pool o) c fun _ c' =>
      Views pool c' (r₀.pushed o) (r₁.pushed o) ∧ c'.versionHistoryLength = c.versionHistoryLength := by
  refine completes_load ?_
  have hprim : c.ringIdx .primary = .a := h.idx
  rw [id_eq, hprim]
  have hpush : ∀ {r : Ring}, r.Sized → r.nextVersion < invalidBlockNum →
      exec (Ring.push o) r = some ((), r.pushed o) := by
    intro r hs hb
    rw [exec_push, if_pos ⟨pos_iff_ne_zero.mp hs.pos, by omega⟩]
  obtain ⟨c', hexec, hvs, hlen⟩ := h.both_onRing hs0 hs1 (hpush hs0 hb0) (hpush hs1 hb1)
    (capacity_pushed r₀ o) (capacity_pushed r₁ o)
  exact ⟨(), c', hexec, hvs, hlen⟩

/-- A root is put into an empty history. The rings of the copies may have been emptied in
different ways. -/
theorem refill (h : Views pool c r₀ r₁) (hcap : r₀.capacity = r₁.capacity) (hzero : r₀.nextVersion = 0)
    (hm0 : r₀.Holds fun _ => none) (hm1 : r₁.Holds fun _ => none)
    (hlow : r₁.nextVersion = 0 ∨ r₁.versionLowerBound + 1 = r₁.nextVersion) (hv : r₁.nextVersion ≤ v)
    (hbd : v < invalidBlockNum) {o : ChunkOffset} (ho : o.isInvalid = false) :
    Completes (do
      fastForwardNextVersion pool v
      appendRootOffset pool o) c fun _ c' =>
      (∃ r, Views pool c' r r ∧ r.Settled (update (fun _ => none) v (some o)) ∧
        r.nextVersion = v + 1 ∧ r.capacity = r₀.capacity) ∧
      c'.versionHistoryLength = c.versionHistoryLength := by
  have hmax := (maxVersion_eq_invalid_iff hm0.bound).mpr hzero
  have hff0 : exec (Ring.fastForward v) r₀ = some ((), r₀.cleared v) :=
    exec_fastForward_reset (pos_iff_ne_zero.mp hm0.sized.pos) (.inl hmax)
  -- the second ring is reset as well, or filled with invalid offsets
  have hff1 : ∃ r1', exec (Ring.fastForward v) r₁ = some ((), r1') ∧ (r1'.Holds fun _ => none) ∧
      r1'.nextVersion = v ∧ r1'.versionLowerBound ≤ v ∧ v < r1'.versionLowerBound + r1'.capacity ∧
      r1'.capacity = r₁.capacity := by
    have hpos := hm1.sized.pos
    by_cases hreset : r₁.nextVersion = 0 ∨ r₁.capacity ≤ v - r₁.maxVersion
    · have hcond : r₁.maxVersion = invalidBlockNum ∨ (r₁.maxVersion < v ∧ r₁.capacity ≤ v - r₁.maxVersion) := by
        rcases hreset with hz | hfar
        · exact .inl ((maxVersion_eq_invalid_iff hm1.bound).mpr hz)
        · exact .inr ⟨by omega, hfar⟩
      refine ⟨r₁.cleared v, exec_fastForward_reset (by omega) hcond,
        Ring.Holds.cleared hm1.sized (by omega), rfl, le_rfl, ?_, capacity_cleared r₁ v⟩
      rw [capacity_cleared]
      show v < v + r₁.capacity
      omega
    · have hne : r₁.nextVersion ≠ 0 := fun hz => hreset (.inl hz)
      have hnear : ¬ r₁.capacity ≤ v - r₁.maxVersion := fun hfar => hreset (.inr hfar)
      rw [maxVersion_of_pos hne] at hnear
      obtain ⟨r', hexec, hhs, hnext, hlo, hcap'⟩ := hm1.exec_fastForward hne hv (by omega)
        (by omega) (by omega) (by omega)
      exact ⟨r', hexec, hhs, hnext, by omega, by omega, hcap'⟩
  obtain ⟨r1', hexec1, hhs1, hnext1, hlow1, hroom1, hcap1⟩ := hff1
  have hhs0 := Ring.Holds.cleared hm0.sized (v := v) (by omega)
  have hset0 : ((r₀.cleared v).pushed o).Settled (update (fun _ => none) v (some o)) :=
    hhs0.push_settled ho (by
      rw [capacity_cleared]
      show v < v + r₀.capacity
      omega) hbd le_rfl
  have hset1 : (r1'.pushed o).Settled (update (fun _ => none) v (some o)) := by
    have hset := hhs1.push_settled ho (by omega) (by omega) (by omega)
    rw [hnext1] at hset
    exact hset
  refine Completes.bind (h.fastForward hm0.sized hm1.sized hff0 hexec1 (capacity_cleared r₀ v)
    hcap1) fun _ c1 hc1 => ?_
  obtain ⟨hvs, hlen⟩ := hc1
  refine (hvs.append hhs0.sized hhs1.sized hbd (by omega) o).mono fun _ c' hc' => ?_
  obtain ⟨hvs', hlen'⟩ := hc'
  have hcapeq : ((r₀.cleared v).pushed o).capacity = (r1'.pushed o).capacity := by
    rw [capacity_pushed, capacity_pushed, capacity_cleared, hcap1, hcap]
  rw [← hset0.unique hset1 hcapeq] at hvs'
  refine ⟨⟨_, hvs', hset0, ?_, ?_⟩, hlen'.trans hlen⟩
  · rw [nextVersion_pushed]
    rfl
  · rw [capacity_pushed, capacity_cleared]

end Views

end DbMetadataContext

end MonadExecution.Mpt
