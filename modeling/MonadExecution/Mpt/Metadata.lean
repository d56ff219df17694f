import MonadExecution.Mpt.Ring
import Mathlib.Logic.Function.Basic

/-!
# The two copies of the metadata

`DbMetadataContext` keeps the header of the database twice, and with each header its own copy of the
root-offset rings, which lie in further chunks of the storage pool. A call writes to the first copy
and then to the second, each time between raising and lowering the copy's dirty flag. All calls are
`Stores` programs on the pair of copies; the ring of a header is made of the chunks the header lists,
as far as they are mapped.
-/

namespace MonadExecution.Mpt

open Stores Function

/-! ## Data -/

/-- The constants of a storage pool: the entries of a ring in one chunk (`map_bytes_per_chunk_() /
sizeof(chunk_offset_t)`), the chunks set aside for rings, the sequential chunks and their capacities. -/
structure StoragePool where
  entriesPerChunk : Nat
  ringTotal : Nat
  chunkCount : Nat
  chunkCapacity : Nat → Nat

/-- Which of the two physical rings: `root_offsets` or `secondary_timeline`. -/
inductive RingIdx where
  | a
  | b
  deriving DecidableEq, Repr

/-- `idx ^ 1u` -/
def RingIdx.other : RingIdx → RingIdx
  | a => b
  | b => a

def RingIdx.byte : RingIdx → Nat
  | a => 0
  | b => 1

inductive TimelineId where
  | primary
  | secondary
  deriving DecidableEq, Repr

/-- `root_offsets_ring_t`; `none` in the list of chunks is `NULL_CHUNK`. -/
structure RingHeader where
  versionLowerBound : Nat
  nextVersion : Nat
  cnvChunksLen : Nat
  cnvChunks : Nat → Option Nat

/-- `chunk_info_t`; `none` is `INVALID_CHUNK_ID`. -/
structure ChunkInfo where
  prevChunkId : Option Nat
  nextChunkId : Option Nat
  inFastList : Bool
  inSlowList : Bool
  insertionCount : Nat

/-- `id_pair`; `none` is `NULL_CHUNK`. -/
structure IdPair where
  first : Option Nat
  last : Option Nat

inductive ChunkList where
  | free
  | fast
  | slow
  deriving DecidableEq, Repr

inductive PendingOpKind where
  | none
  | activate
  | deactivate
  | promote
  deriving DecidableEq, Repr

structure DbMetadata where
  isDirty : Bool
  chunkInfoCount : Nat
  capacityInFreeList : Nat
  rootOffsets : RingHeader
  rootOffsetsAutoExpire : Int
  startOfWipOffsetFast : ChunkOffset
  startOfWipOffsetSlow : ChunkOffset
  historyLength : Nat
  latestFinalizedVersion : Nat
  latestVerifiedVersion : Nat
  latestVotedVersion : Nat
  latestProposedVersion : Nat
  latestVotedBlockId : Nat
  latestProposedBlockId : Nat
  secondaryTimeline : RingHeader
  secondaryAutoExpire : Int
  primaryRingIdx : RingIdx
  secondaryTimelineActive : Bool
  pendingOpKind : PendingOpKind
  pendingOpParam : Nat
  freeList : IdPair
  fastList : IdPair
  slowList : IdPair
  chunkInfo : Nat → ChunkInfo

namespace DbMetadata

def ring (m : DbMetadata) : RingIdx → RingHeader
  | .a => m.rootOffsets
  | .b => m.secondaryTimeline

def setRing (m : DbMetadata) (idx : RingIdx) (h : RingHeader) : DbMetadata :=
  match idx with
  | .a => { m with rootOffsets := h }
  | .b => { m with secondaryTimeline := h }

def list (m : DbMetadata) : ChunkList → IdPair
  | .free => m.freeList
  | .fast => m.fastList
  | .slow => m.slowList

def setList (m : DbMetadata) (l : ChunkList) (p : IdPair) : DbMetadata :=
  match l with
  | .free => { m with freeList := p }
  | .fast => { m with fastList := p }
  | .slow => { m with slowList := p }

def setInfo (m : DbMetadata) (i : Nat) (info : ChunkInfo) : DbMetadata :=
  { m with chunkInfo := update m.chunkInfo i info }

/-- The list a chunk is on, by its flags. -/
def listOf (m : DbMetadata) (i : Nat) : ChunkList :=
  if (m.chunkInfo i).inFastList then .fast else if (m.chunkInfo i).inSlowList then .slow else .free

end DbMetadata

/-- `metadata_copy`: a header, the chunks that are mapped into the two rings' address ranges, and
this copy's half of the contents of the chunks. -/
structure MetadataCopy where
  main : DbMetadata
  span : RingIdx → Nat → Option Nat
  cnv : Nat → List ChunkOffset

structure DbMetadataContext where
  copy0 : MetadataCopy
  copy1 : MetadataCopy

/-! ## Rings of a copy -/

namespace MetadataCopy

/-- All live entries of a ring are mapped. -/
def Mapped (c : MetadataCopy) (idx : RingIdx) : Prop := ∀ k < (c.main.ring idx).cnvChunksLen, (c.span idx k).isSome

instance (c : MetadataCopy) (idx : RingIdx) : Decidable (c.Mapped idx) := inferInstanceAs (Decidable (∀ k < _, _))

/-- The ring a delegator is bound to: the header's words, and the mapped chunks one after the other. -/
def ring (c : MetadataCopy) (idx : RingIdx) : Ring where
  versionLowerBound := (c.main.ring idx).versionLowerBound
  nextVersion := (c.main.ring idx).nextVersion
  slots := (List.range (c.main.ring idx).cnvChunksLen).flatMap fun k => (c.span idx k).elim [] c.cnv

/-- Write a ring back to where it lies. -/
def setRing (pool : StoragePool) (idx : RingIdx) (c : MetadataCopy) (r : Ring) : MetadataCopy where
  main := c.main.setRing idx { c.main.ring idx with
    versionLowerBound := r.versionLowerBound
    nextVersion := r.nextVersion }
  span := c.span
  cnv := fun id =>
    match (List.range (c.main.ring idx).cnvChunksLen).find? fun k => c.span idx k = some id with
    | some k => (r.slots.drop (k * pool.entriesPerChunk)).take pool.entriesPerChunk
    | none => c.cnv id

/-- Run a program on the header. -/
def onMain {α : Type} (m : Stores DbMetadata α) : Stores MetadataCopy α :=
  focus main (fun c main => { c with main := main }) m

def setMain (f : DbMetadata → DbMetadata) : Stores MetadataCopy Unit := onMain (store f)

/-- A copy with its dirty flag set or cleared. -/
def withDirty (c : MetadataCopy) (dirty : Bool) : MetadataCopy := { c with main := { c.main with isDirty := dirty } }

def setDirty (dirty : Bool) : Stores MetadataCopy Unit := store fun c => c.withDirty dirty

/-- `hold_dirty` around a program. -/
def holdDirty (m : Stores MetadataCopy Unit) : Stores MetadataCopy Unit := do
  setDirty true
  m
  setDirty false

/-- Run a program through the delegator of a ring. An unmapped entry would fault, and the capacity
has to be a power of two. -/
def onRing {α : Type} (pool : StoragePool) (idx : RingIdx) (m : Stores Ring α) : Stores MetadataCopy α := do
  let c ← load id
  require (c.Mapped idx)
  require ((c.ring idx).capacity = 0 ∨ (c.ring idx).capacity = 2 ^ Nat.log2 (c.ring idx).capacity)
  focus (ring · idx) (setRing pool idx) m

/-! ## Chunk lists -/

/-- `virtual_chunk_offset_t::MAX_COUNT` -/
def maxCount : Nat := 2 ^ 20 - 1

/-- `append_` -/
def appendChunk (l : ChunkList) (i : Nat) : Stores MetadataCopy Unit := do
  let c ← load id
  require (i < c.main.chunkInfoCount)
  holdDirty do
    let info : ChunkInfo :=
      { prevChunkId := none
        nextChunkId := none
        inFastList := l = .fast
        inSlowList := l = .slow
        insertionCount := 0 }
    let list := c.main.list l
    match list.last with
    | none =>
      require (list.first = none)
      setMain fun m => m.setList l { m.list l with last := some i }
      setMain fun m => m.setList l { m.list l with first := some i }
      setMain fun m => m.setInfo i info
    | some tail =>
      let count := (c.main.chunkInfo tail).insertionCount + 1
      require (count < maxCount)
      require ((c.main.chunkInfo tail).nextChunkId = none)
      setMain fun m => m.setInfo tail { m.chunkInfo tail with nextChunkId := some i }
      setMain fun m => m.setList l { m.list l with last := some i }
      setMain fun m => m.setInfo i { info with prevChunkId := some tail, insertionCount := count }

/-- `remove_`; a chunk in the middle of a list is refused. -/
def removeChunk (i : Nat) : Stores MetadataCopy Unit := do
  let c ← load id
  require (i < c.main.chunkInfoCount)
  holdDirty do
    let info := c.main.chunkInfo i
    let l := c.main.listOf i
    match info.prevChunkId, info.nextChunkId with
    | none, none =>
      require ((c.main.list l).first = some i)
      require ((c.main.list l).last = some i)
      setMain fun m => m.setList l { m.list l with last := none }
      setMain fun m => m.setList l { m.list l with first := none }
    | none, some next =>
      require ((c.main.list l).first = some i)
      setMain fun m => m.setInfo next { m.chunkInfo next with prevChunkId := none }
      setMain fun m => m.setList l { m.list l with first := some next }
    | some prev, none =>
      require ((c.main.list l).last = some i)
      setMain fun m => m.setInfo prev { m.chunkInfo prev with nextChunkId := none }
      setMain fun m => m.setList l { m.list l with last := some prev }
    | some _, some _ => require False

/-- `free_capacity_add_` -/
def freeCapacityAdd (bytes : Nat) : Stores MetadataCopy Unit :=
  holdDirty (setMain fun m => { m with capacityInFreeList := (m.capacityInFreeList + bytes) % uint64Count })

/-- `free_capacity_sub_` -/
def freeCapacitySub (bytes : Nat) : Stores MetadataCopy Unit :=
  holdDirty (setMain fun m =>
    { m with capacityInFreeList := (m.capacityInFreeList + uint64Count - bytes % uint64Count) % uint64Count })

/-! ## Raw entries

`activate_secondary_header` and `deactivate_secondary_header` write to the address ranges of the
rings directly, at positions that may be past the present capacity. -/

def loadEntry (pool : StoragePool) (idx : RingIdx) (pos : Nat) : Stores MetadataCopy ChunkOffset := do
  let c ← load id
  let chunk := c.span idx (pos / pool.entriesPerChunk)
  require (chunk.isSome)
  pure ((chunk.elim [] c.cnv).getD (pos % pool.entriesPerChunk) invalidOffset)

def storeEntry (pool : StoragePool) (idx : RingIdx) (pos : Nat) (o : ChunkOffset) : Stores MetadataCopy Unit := do
  let c ← load id
  match c.span idx (pos / pool.entriesPerChunk) with
  | none => require False
  | some id =>
    store fun c => { c with
      cnv := update c.cnv id ((c.cnv id).set (pos % pool.entriesPerChunk) o) }

/-- `install_chunk_mapping_` of a chunk that must not be `NULL_CHUNK`. -/
def installChunkMapping (idx : RingIdx) (slot : Nat) (chunk : Option Nat) : Stores MetadataCopy Unit := do
  require (chunk.isSome)
  store fun c => { c with
    span := update c.span idx (update (c.span idx) slot chunk) }

def setHeader (idx : RingIdx) (f : RingHeader → RingHeader) : Stores MetadataCopy Unit :=
  setMain fun m => m.setRing idx (f (m.ring idx))

/-- Move a chunk id from `from_` at `j` to `to_` at `k`, unless `to_` has one there. -/
def transferChunk (from_ : RingIdx) (j : Nat) (to_ : RingIdx) (k : Nat) : Stores MetadataCopy Unit := do
  let c ← load id
  onlyIf ((c.main.ring to_).cnvChunks k = none) do
    let moved := (c.main.ring from_).cnvChunks j
    require (moved.isSome)
    setHeader to_ fun h => { h with cnvChunks := update h.cnvChunks k moved }
    setHeader from_ fun h => { h with cnvChunks := update h.cnvChunks j none }

/-- The version `v` is copied to its place under the new capacity. -/
def copyEntry (pool : StoragePool) (idx : RingIdx) (oldCap newCap v : Nat) : Stores MetadataCopy Unit :=
  onlyIf (v &&& (oldCap - 1) ≠ v &&& (newCap - 1)) do
    let o ← loadEntry pool idx (v &&& (oldCap - 1))
    storeEntry pool idx (v &&& (newCap - 1)) o

/-- `do_activate_secondary_body_` on one copy, numbered as in the source. -/
def activateBody (pool : StoragePool) (primary : RingIdx) (newChunks : Nat) : Stores MetadataCopy Unit :=
  holdDirty do
    let c ← load id
    let secondary := primary.other
    let newCap := newChunks * pool.entriesPerChunk
    let cur := (c.main.ring primary).cnvChunksLen
    require (cur = newChunks ∨ cur = newChunks * 2)
    let oldChunks := if cur = newChunks then newChunks * 2 else cur
    let oldCap := oldChunks * pool.entriesPerChunk
    -- 1. versions that do not fit any more
    let nv := (c.main.ring primary).nextVersion
    let curLb := (c.main.ring primary).versionLowerBound
    let newLb := max curLb (if newCap ≤ nv then nv - newCap else 0)
    onlyIf (curLb < newLb) (setHeader primary fun h => { h with versionLowerBound := newLb })
    onlyIf (cur = oldChunks) do
      -- 2. the tail of the primary ring, wherever its chunks are listed
      each (List.range' newChunks (oldChunks - newChunks)) fun k => do
        let c ← load id
        installChunkMapping primary k (((c.main.ring primary).cnvChunks k).or
          ((c.main.ring secondary).cnvChunks (k - newChunks)))
      -- 3. entries that are kept
      each (List.range' newLb (nv - newLb)) (copyEntry pool primary oldCap newCap)
    -- 4. the chunks of the secondary ring
    each (List.range newChunks) fun k => do
      let c ← load id
      installChunkMapping secondary k (((c.main.ring secondary).cnvChunks k).or
        ((c.main.ring primary).cnvChunks (newChunks + k)))
    -- 5. their ids
    each (List.range newChunks) fun k => transferChunk primary (newChunks + k) secondary k
    -- 6. an empty secondary ring
    each (List.range newCap) fun pos => storeEntry pool secondary pos invalidOffset
    setHeader secondary fun h => { h with versionLowerBound := 0 }
    setHeader secondary fun h => { h with nextVersion := 0 }
    -- 7. and 8. the commit
    setHeader primary fun h => { h with cnvChunksLen := newChunks }
    setHeader secondary fun h => { h with cnvChunksLen := newChunks }
    setMain fun m => { m with secondaryTimelineActive := true }

/-- `do_deactivate_secondary_body_` on one copy, numbered as in the source. -/
def deactivateBody (pool : StoragePool) (primary : RingIdx) (newChunks : Nat) : Stores MetadataCopy Unit :=
  holdDirty do
    let c ← load id
    let secondary := primary.other
    let newCap := newChunks * pool.entriesPerChunk
    let cur := (c.main.ring primary).cnvChunksLen
    require (cur = newChunks ∨ cur * 2 = newChunks)
    let oldChunks := if cur = newChunks then newChunks else cur
    let returning := newChunks - oldChunks
    let oldCap := oldChunks * pool.entriesPerChunk
    -- 1. the returning chunks
    each (List.range returning) fun k => do
      let c ← load id
      installChunkMapping primary (oldChunks + k) (((c.main.ring primary).cnvChunks (oldChunks + k)).or
        ((c.main.ring secondary).cnvChunks k))
    -- 2. their ids
    each (List.range returning) fun k => transferChunk secondary k primary (oldChunks + k)
    -- 3. the new tail, and the entries that move into it
    onlyIf (cur = oldChunks ∧ 0 < returning) do
      each (List.range' oldCap (returning * pool.entriesPerChunk)) fun pos =>
        storeEntry pool primary pos invalidOffset
      let nv := (c.main.ring primary).nextVersion
      let lb := (c.main.ring primary).versionLowerBound
      onlyIf (nv ≠ lb) (each (List.range' lb (nv - lb)) (copyEntry pool primary oldCap newCap))
    -- 4. and 5. the commit
    setHeader primary fun h => { h with cnvChunksLen := newChunks }
    setHeader secondary fun h => { h with cnvChunksLen := 0 }
    setMain fun m => { m with secondaryTimelineActive := false }

end MetadataCopy

/-! ## Calls -/

namespace DbMetadataContext

open MetadataCopy

def onCopy0 {α : Type} (m : Stores MetadataCopy α) : Stores DbMetadataContext α :=
  focus copy0 (fun c copy => { c with copy0 := copy }) m

def onCopy1 {α : Type} (m : Stores MetadataCopy α) : Stores DbMetadataContext α :=
  focus copy1 (fun c copy => { c with copy1 := copy }) m

/-- The same program on the first copy and then on the second. -/
def both (m : Stores MetadataCopy Unit) : Stores DbMetadataContext Unit := do
  onCopy0 m
  onCopy1 m

/-- The ring of a timeline; the role is always read from the first copy. -/
def ringIdx (c : DbMetadataContext) : TimelineId → RingIdx
  | .primary => c.copy0.main.primaryRingIdx
  | .secondary => c.copy0.main.primaryRingIdx.other

/-- `root_offsets(tid)` of the first copy. -/
def rootOffsets (c : DbMetadataContext) (tid : TimelineId) : Ring := c.copy0.ring (c.ringIdx tid)

def timelineActive (c : DbMetadataContext) : TimelineId → Bool
  | .primary => true
  | .secondary => c.copy0.main.secondaryTimelineActive

def dbHistoryMaxVersion (c : DbMetadataContext) (tid : TimelineId) : Nat :=
  if c.timelineActive tid then (c.rootOffsets tid).maxVersion else invalidBlockNum

def dbHistoryRangeLowerBound (c : DbMetadataContext) (tid : TimelineId) : Nat :=
  if c.timelineActive tid then
    if (c.rootOffsets tid).maxVersion = invalidBlockNum then invalidBlockNum
    else (c.rootOffsets tid).versionLowerBound
  else invalidBlockNum

def dbHistoryMinValidVersion (c : DbMetadataContext) (tid : TimelineId) : Nat := c.dbHistoryRangeLowerBound tid

def getRootOffsetAtVersion (c : DbMetadataContext) (version : Nat) (tid : TimelineId) : ChunkOffset :=
  if c.timelineActive tid then
    let lowerBound := c.dbHistoryRangeLowerBound tid
    if lowerBound = invalidBlockNum ∨ version < lowerBound ∨ (c.rootOffsets tid).maxVersion < version then
      invalidOffset
    else (c.rootOffsets tid).get version
  else invalidOffset

def versionHistoryLength (c : DbMetadataContext) : Nat := c.copy0.main.historyLength

variable (pool : StoragePool)

/-- A setter: one store under the dirty flag of each copy. -/
def setBoth (f : DbMetadata → DbMetadata) : Stores DbMetadataContext Unit := both (holdDirty (setMain f))

def setLatestFinalizedVersion (v : Nat) : Stores DbMetadataContext Unit :=
  setBoth fun m => { m with latestFinalizedVersion := v }

def setLatestVerifiedVersion (v : Nat) : Stores DbMetadataContext Unit :=
  setBoth fun m => { m with latestVerifiedVersion := v }

def setLatestVoted (v blockId : Nat) : Stores DbMetadataContext Unit :=
  both (holdDirty do
    setMain fun m => { m with latestVotedVersion := v }
    setMain fun m => { m with latestVotedBlockId := blockId })

def setLatestProposed (v blockId : Nat) : Stores DbMetadataContext Unit :=
  both (holdDirty do
    setMain fun m => { m with latestProposedVersion := v }
    setMain fun m => { m with latestProposedBlockId := blockId })

def setAutoExpireVersionMetadata (tid : TimelineId) (v : Int) : Stores DbMetadataContext Unit := do
  let c ← load id
  match c.ringIdx tid with
  | .a => setBoth fun m => { m with rootOffsetsAutoExpire := v }
  | .b => setBoth fun m => { m with secondaryAutoExpire := v }

def updateHistoryLengthMetadata (historyLen : Nat) : Stores DbMetadataContext Unit := do
  let c ← load id
  both (holdDirty do
    let copy ← load id
    require (0 < historyLen ∧ historyLen ≤ (copy.ring (c.ringIdx .primary)).capacity)
    setMain fun m => { m with historyLength := historyLen })

def advanceDbOffsetsTo (fast slow : ChunkOffset) : Stores DbMetadataContext Unit := do
  let c ← load id
  require (fast.id.toNat < c.copy0.main.chunkInfoCount ∧ (c.copy0.main.chunkInfo fast.id.toNat).inFastList)
  require (slow.id.toNat < c.copy0.main.chunkInfoCount ∧ (c.copy0.main.chunkInfo slow.id.toNat).inSlowList)
  both (holdDirty do
    setMain fun m => { m with startOfWipOffsetFast := fast }
    setMain fun m => { m with startOfWipOffsetSlow := slow })

def append (l : ChunkList) (i : Nat) : Stores DbMetadataContext Unit := do
  both (appendChunk l i)
  onlyIf (l = .free) (both (freeCapacityAdd (pool.chunkCapacity i)))

def remove (i : Nat) : Stores DbMetadataContext Unit := do
  let c ← load id
  both (removeChunk i)
  onlyIf (c.copy0.main.listOf i = .free) (both (freeCapacitySub (pool.chunkCapacity i)))

def appendRootOffset (o : ChunkOffset) : Stores DbMetadataContext Unit := do
  let c ← load id
  both (holdDirty (onRing pool (c.ringIdx .primary) (Ring.push o)))

/-- The condition under which `update_root_offset` resets a ring: it erases the only version there
is, as far as the first copy says. -/
def Erased (c : DbMetadataContext) (i : Nat) (o : ChunkOffset) : Prop :=
  o.isInvalid ∧ i = c.dbHistoryMaxVersion .primary ∧ i = c.dbHistoryMinValidVersion .primary

instance (c : DbMetadataContext) (i : Nat) (o : ChunkOffset) : Decidable (c.Erased i o) :=
  inferInstanceAs (Decidable (_ ∧ _ ∧ _))

/-- The assignment of `update_root_offset` to one copy. The condition inside is read from the first
copy also when the second copy is written, and the first copy has been changed by then. -/
def updateRootOffsetOn (onCopy : Stores MetadataCopy Unit → Stores DbMetadataContext Unit)
    (idx : RingIdx) (i : Nat) (o : ChunkOffset) : Stores DbMetadataContext Unit := do
  onCopy (setDirty true)
  onCopy (onRing pool idx (Ring.assign i o))
  let c ← load id
  onlyIf (c.Erased i o) (onCopy (onRing pool idx (Ring.resetAll 0)))
  onCopy (setDirty false)

def updateRootOffset (i : Nat) (o : ChunkOffset) : Stores DbMetadataContext Unit := do
  let c ← load id
  updateRootOffsetOn pool onCopy0 (c.ringIdx .primary) i o
  updateRootOffsetOn pool onCopy1 (c.ringIdx .primary) i o

def fastForwardNextVersion (newVersion : Nat) : Stores DbMetadataContext Unit := do
  let c ← load id
  both (holdDirty (onRing pool (c.ringIdx .primary) (Ring.fastForward newVersion)))

/-- The loop of `clear_root_offsets_up_to_and_including`, at most `n` rounds of it. -/
def clearRootOffsets (version : Nat) : Nat → Stores DbMetadataContext Unit
  | 0 => require False
  | n + 1 => do
    let c ← load id
    let v := c.dbHistoryRangeLowerBound .primary
    onlyIf (v ≠ invalidBlockNum ∧ v ≤ version) do
      updateRootOffset pool v invalidOffset
      clearRootOffsets version n

/-- The lower bound grows in every round, so that `version + 2` rounds are enough if the loop ends. -/
def clearRootOffsetsUpToAndIncluding (version : Nat) : Stores DbMetadataContext Unit :=
  clearRootOffsets pool version (version + 2)

/-! ## The secondary timeline -/

def setPendingShrinkGrow (kind : PendingOpKind) (param : Nat) : Stores DbMetadataContext Unit :=
  both (holdDirty do
    setMain fun m => { m with pendingOpKind := kind }
    setMain fun m => { m with pendingOpParam := param })

def clearPendingShrinkGrow : Stores DbMetadataContext Unit := setPendingShrinkGrow .none 0

/-- `MIN_HISTORY_LENGTH` -/
def minHistoryLength : Nat := 300

def doActivateSecondaryBody (newChunks : Nat) : Stores DbMetadataContext Unit := do
  let c ← load id
  both (activateBody pool (c.ringIdx .primary) newChunks)
  let c ← load id
  onlyIf (newChunks * pool.entriesPerChunk < c.versionHistoryLength)
    (updateHistoryLengthMetadata (max (newChunks * pool.entriesPerChunk) minHistoryLength))

def doDeactivateSecondaryBody (newChunks : Nat) : Stores DbMetadataContext Unit := do
  let c ← load id
  both (deactivateBody pool (c.ringIdx .primary) newChunks)

def doPromoteSecondaryToPrimaryBody (target : RingIdx) : Stores DbMetadataContext Unit :=
  setBoth fun m => { m with primaryRingIdx := target }

/-- Nothing is pending on either copy. -/
def NonePending (c : DbMetadataContext) : Prop :=
  c.copy0.main.pendingOpKind = .none ∧ c.copy1.main.pendingOpKind = .none

instance (c : DbMetadataContext) : Decidable c.NonePending := inferInstanceAs (Decidable (_ ∧ _))

def IsPowerOfTwo (n : Nat) : Prop := n &&& (n - 1) = 0

instance (n : Nat) : Decidable (IsPowerOfTwo n) := inferInstanceAs (Decidable (_ = _))

def activateSecondaryHeader : Stores DbMetadataContext Unit := do
  let c ← load id
  require (¬ c.timelineActive .secondary)
  require c.NonePending
  let oldChunks := (c.copy0.main.ring (c.ringIdx .primary)).cnvChunksLen
  require (2 ≤ oldChunks ∧ IsPowerOfTwo oldChunks)
  let newChunks := oldChunks / 2
  setPendingShrinkGrow .activate newChunks
  doActivateSecondaryBody pool newChunks
  clearPendingShrinkGrow

def deactivateSecondaryHeader : Stores DbMetadataContext Unit := do
  let c ← load id
  require (c.timelineActive .secondary)
  require c.NonePending
  let oldChunks := (c.copy0.main.ring (c.ringIdx .primary)).cnvChunksLen
  let returning := (c.copy0.main.ring (c.ringIdx .secondary)).cnvChunksLen
  require (0 < returning ∧ 0 < oldChunks)
  let newChunks := oldChunks + returning
  require (IsPowerOfTwo newChunks)
  setPendingShrinkGrow .deactivate newChunks
  doDeactivateSecondaryBody pool newChunks
  clearPendingShrinkGrow

def promoteSecondaryToPrimaryHeader : Stores DbMetadataContext Unit := do
  let c ← load id
  require (c.timelineActive .secondary)
  require c.NonePending
  let target := (c.ringIdx .primary).other
  setPendingShrinkGrow .promote target.byte
  doPromoteSecondaryToPrimaryBody target
  clearPendingShrinkGrow

/-! ## Opening a pool -/

/-- `db_copy` from a header that must not be dirty. The contents of the rings are not copied. -/
def dbCopy (src : DbMetadata) : Stores MetadataCopy Unit := do
  require (src.isDirty = false)
  setDirty true
  setHeader .a fun h => { h with nextVersion := 0 }
  setHeader .b fun h => { h with nextVersion := 0 }
  setMain fun m => { src with
    isDirty := true
    rootOffsets := { src.rootOffsets with nextVersion := 0 }
    secondaryTimeline := { src.secondaryTimeline with nextVersion := 0 }
    chunkInfo := m.chunkInfo }
  setMain fun m => { m with chunkInfo := src.chunkInfo }
  setHeader .a fun h => { h with nextVersion := src.rootOffsets.nextVersion }
  setHeader .b fun h => { h with nextVersion := src.secondaryTimeline.nextVersion }
  setDirty false

/-- `map_ring_a_storage` and `map_ring_b_storage`: both copies are mapped by the lists of the first. -/
def mapRings : Stores DbMetadataContext Unit :=
  store fun c =>
    let span : RingIdx → Nat → Option Nat := fun idx k =>
      if k < (c.copy0.main.ring idx).cnvChunksLen then (c.copy0.main.ring idx).cnvChunks k else none
    { copy0 := { c.copy0 with span := span }, copy1 := { c.copy1 with span := span } }

/-! ## A new pool -/

/-- The header of a new pool before its chunks are put on the lists. -/
def newHeader : DbMetadata where
  isDirty := false
  chunkInfoCount := pool.chunkCount
  capacityInFreeList := 0
  rootOffsets :=
    { versionLowerBound := 0
      nextVersion := 0
      cnvChunksLen := pool.ringTotal
      cnvChunks := fun k => if k < pool.ringTotal then some (k + 1) else none }
  rootOffsetsAutoExpire := 0
  startOfWipOffsetFast := { id := 0, offset := 0, spare := 0 }
  startOfWipOffsetSlow := { id := 0, offset := 0, spare := 0 }
  historyLength := pool.ringTotal * pool.entriesPerChunk
  latestFinalizedVersion := 0
  latestVerifiedVersion := 0
  latestVotedVersion := 0
  latestProposedVersion := 0
  latestVotedBlockId := 0
  latestProposedBlockId := 0
  secondaryTimeline :=
    { versionLowerBound := 0
      nextVersion := 0
      cnvChunksLen := 0
      cnvChunks := fun _ => none }
  secondaryAutoExpire := 0
  primaryRingIdx := .a
  secondaryTimelineActive := false
  pendingOpKind := .none
  pendingOpParam := 0
  freeList := { first := none, last := none }
  fastList := { first := none, last := none }
  slowList := { first := none, last := none }
  chunkInfo := fun _ =>
    { prevChunkId := none
      nextChunkId := none
      inFastList := false
      inSlowList := false
      insertionCount := 0 }

def newCopy : MetadataCopy where
  main := newHeader pool
  span := fun _ _ => none
  cnv := fun _ => List.replicate pool.entriesPerChunk invalidOffset

/-- The chunk offset at the start of a chunk. -/
def startOf (id : Nat) : ChunkOffset := { id := BitVec.ofNat 20 id, offset := 0, spare := BitVec.allOnes 15 }

/-- `init_new_pool`: the chunks are taken in reverse order, the first for the fast list, the second
for the slow list, the others for the free list. -/
def initNewPool (historyLen : Option Nat) : Stores DbMetadataContext Unit := do
  require (2 ≤ pool.chunkCount ∧ pool.chunkCount < 2 ^ 20)
  let fast := pool.chunkCount - 1
  let slow := pool.chunkCount - 2
  append pool .fast fast
  append pool .slow slow
  each (List.range (pool.chunkCount - 2)).reverse (append pool .free)
  advanceDbOffsetsTo (startOf fast) (startOf slow)
  setLatestFinalizedVersion invalidBlockNum
  setLatestVerifiedVersion invalidBlockNum
  setLatestVoted invalidBlockNum 0
  setLatestProposed invalidBlockNum 0
  setAutoExpireVersionMetadata .primary 0
  setAutoExpireVersionMetadata .secondary 0
  mapRings
  match historyLen with
  | some len => updateHistoryLengthMetadata len
  | none => pure ()

end DbMetadataContext

end MonadExecution.Mpt
