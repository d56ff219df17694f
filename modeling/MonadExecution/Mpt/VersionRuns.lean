import MonadExecution.Mpt.Rewind
import MonadExecution.Mpt.Versions

/-!
# Runs of the version history

A fresh pool represents the empty map, one call of the history leads from what the rings represent to
what the call is meant to make of it, and so a whole run does, as long as none of its calls is one of
those that abort. The calls are complete here: `rewind_to_version` and `clear_ondisk_db` cut the rings
back and then the lists of chunks. Nodes are written between the calls, so each call of a run comes with
the storage that it finds.
-/

namespace MonadExecution.Mpt

open Stores MetadataCopy List Option VersionMap HistoryCall

namespace DbMetadataContext

variable {pool : StoragePool} {capacity : Nat} {c : DbMetadataContext} {s : VersionMap}

/-! ## A fresh pool -/

/-- The rings, their roles and the pending operation of a header. -/
def restPart (m : DbMetadata) : RingHeader × RingHeader × RingIdx × PendingOpKind :=
  (m.rootOffsets, m.secondaryTimeline, m.primaryRingIdx, m.pendingOpKind)

/-- What the chunk lists and the setters of a new pool leave alone in a header. -/
def headerPart (m : DbMetadata) := (restPart m, m.historyLength)

/-- What they leave alone in a copy. -/
def copyPart (x : MetadataCopy) := (headerPart x.main, x.span, x.cnv)

def copyParts (c : DbMetadataContext) := (copyPart c.copy0, copyPart c.copy1)

variable {f : DbMetadata → DbMetadata} {m : Stores MetadataCopy Unit}

theorem fixes_setMain (h : headerPart ∘ f = headerPart) : Fixes copyPart (setMain f) :=
  .focus (.store h) fun _ _ hm => Prod.ext hm rfl

theorem fixes_holdDirty (hm : Fixes copyPart m) : Fixes copyPart (holdDirty m) :=
  .bind (.store rfl) <| .bind hm (.store rfl)

theorem fixes_both (hm : Fixes copyPart m) : Fixes copyParts (both m) :=
  .bind (Fixes.focus hm fun _ _ hx => Prod.ext hx rfl) <| Fixes.focus hm fun _ _ hx => Prod.ext rfl hx

theorem fixes_setBoth (hf : ∀ m, headerPart (f m) = headerPart m) : Fixes copyParts (setBoth f) :=
  fixes_both (fixes_holdDirty (fixes_setMain (funext hf)))

theorem headerPart_setList (l : ChunkList) (p : IdPair) (m : DbMetadata) :
    headerPart (m.setList l p) = headerPart m := by cases l <;> rfl

theorem fixes_setList {l : ChunkList} {p : DbMetadata → IdPair} : Fixes copyPart (setMain fun m => m.setList l (p m)) :=
  fixes_setMain (funext fun m => headerPart_setList l _ m)

theorem fixes_appendChunk (l : ChunkList) (i : Nat) : Fixes copyPart (appendChunk l i) := by
  refine .bind .load @fun c => .bind .require <| fixes_holdDirty ?_
  dsimp only [id_eq]
  cases (c.main.list l).last with
  | none =>
    refine .bind .require ?_
    refine .bind fixes_setList ?_
    refine .bind fixes_setList ?_
    exact fixes_setMain rfl
  | some tail =>
    refine .bind .require <| .bind .require ?_
    refine .bind (fixes_setMain rfl) ?_
    refine .bind fixes_setList ?_
    exact fixes_setMain rfl

theorem fixes_setLatestVoted (v blockId : Nat) : Fixes copyParts (setLatestVoted v blockId) :=
  fixes_both (fixes_holdDirty (.bind (fixes_setMain rfl) (fixes_setMain rfl)))

theorem fixes_setLatestProposed (v blockId : Nat) : Fixes copyParts (setLatestProposed v blockId) :=
  fixes_both (fixes_holdDirty (.bind (fixes_setMain rfl) (fixes_setMain rfl)))

theorem fixes_advanceDbOffsetsTo (fast slow : ChunkOffset) : Fixes copyParts (advanceDbOffsetsTo fast slow) :=
  .bind .load <| .bind .require <| .bind .require <| fixes_both (fixes_holdDirty
      (.bind (fixes_setMain rfl) (fixes_setMain rfl)))

theorem fixes_append (l : ChunkList) (i : Nat) : Fixes copyParts (append pool l i) :=
  .bind (fixes_both (fixes_appendChunk l i)) <| .onlyIf
    (fixes_both (fixes_holdDirty (fixes_setMain rfl)))

theorem fixes_setAutoExpire (tid : TimelineId) (v : Int) : Fixes copyParts (setAutoExpireVersionMetadata tid v) := by
  refine .bind .load @fun c => ?_
  cases c.ringIdx tid with
  | a | b => exact fixes_setBoth fun _ => rfl

/-- A new pool before the history length is set: nothing is stored in the rings, and their chunks are
mapped. -/
theorem initNewPool_mapped {historyLen : Option Nat} {c0 : DbMetadataContext}
    (h : exec (initNewPool pool historyLen) c0 = some ((), c)) :
    ∃ c', headerPart c'.copy0.main = headerPart c0.copy0.main ∧ c'.copy0.cnv = c0.copy0.cnv ∧
      headerPart c'.copy1.main = headerPart c0.copy1.main ∧ c'.copy1.cnv = c0.copy1.cnv ∧
      c'.copy0.span = mapping c'.copy0.main ∧ c'.copy1.span = mapping c'.copy0.main ∧
      (c' = c ∨ ∃ len, exec (updateHistoryLengthMetadata len) c' = some ((), c)) := by
  have hfinalized : Fixes copyParts (setLatestFinalizedVersion invalidBlockNum) := fixes_setBoth fun _ => rfl
  have hverified : Fixes copyParts (setLatestVerifiedVersion invalidBlockNum) := fixes_setBoth fun _ => rfl
  obtain ⟨_, c1, hkeep, h⟩ := Fixes.require.rest rfl h
  obtain ⟨_, c2, hkeep, h⟩ := (fixes_append _ _).rest hkeep h
  obtain ⟨_, c3, hkeep, h⟩ := (fixes_append _ _).rest hkeep h
  obtain ⟨_, c4, hkeep, h⟩ := (Fixes.each (fun i => fixes_append _ i) _).rest hkeep h
  obtain ⟨_, c5, hkeep, h⟩ := (fixes_advanceDbOffsetsTo _ _).rest hkeep h
  obtain ⟨_, c6, hkeep, h⟩ := hfinalized.rest hkeep h
  obtain ⟨_, c7, hkeep, h⟩ := hverified.rest hkeep h
  obtain ⟨_, c8, hkeep, h⟩ := (fixes_setLatestVoted _ _).rest hkeep h
  obtain ⟨_, c9, hkeep, h⟩ := (fixes_setLatestProposed _ _).rest hkeep h
  obtain ⟨_, c10, hkeep, h⟩ := (fixes_setAutoExpire _ _).rest hkeep h
  obtain ⟨_, c11, hkeep, h⟩ := (fixes_setAutoExpire _ _).rest hkeep h
  obtain ⟨_, c12, hmapped, h⟩ := exec_bind_some.mp h
  refine ⟨c12, ?_⟩
  obtain rfl : _ = c12 := (Prod.mk.inj (Option.some.inj hmapped)).2
  obtain ⟨hkeep0, hkeep1⟩ := Prod.mk.inj hkeep
  obtain ⟨hhdr0, hrest0⟩ := Prod.mk.inj hkeep0
  obtain ⟨hhdr1, hrest1⟩ := Prod.mk.inj hkeep1
  refine ⟨hhdr0, (Prod.mk.inj hrest0).2, hhdr1, (Prod.mk.inj hrest1).2, rfl, rfl, ?_⟩
  cases historyLen with
  | none =>
    cases h
    exact .inl rfl
  | some len => exact .inr ⟨len, h⟩

/-- The ring of a new pool. -/
def newRing (pool : StoragePool) : Ring where
  versionLowerBound := 0
  nextVersion := 0
  slots := List.replicate (pool.ringTotal * pool.entriesPerChunk) invalidOffset

theorem newRing_laid {x : MetadataCopy} (hhdr : headerPart x.main = headerPart (newHeader pool))
    (hcnv : x.cnv = (newCopy pool).cnv) (hspan : ∀ k < pool.ringTotal, x.span .a k = some (k + 1)) :
    Laid pool .a x ∧ x.ring .a = newRing pool := by
  have hring : x.main.ring .a = (newHeader pool).rootOffsets := (Prod.mk.inj (Prod.mk.inj hhdr).1).1
  have hlen : (x.main.ring .a).cnvChunksLen = pool.ringTotal := by
    rw [hring]
    rfl
  have hcnv' : x.cnv = fun _ => List.replicate pool.entriesPerChunk invalidOffset := hcnv
  have hlaid : Laid pool .a x := by
    refine ⟨fun k hk => ?_, fun k hk k' hk' hsame => ?_, fun id => ?_⟩
    · rw [hspan k (hlen ▸ hk)]
      rfl
    · rw [hspan k (hlen ▸ hk), hspan k' (hlen ▸ hk')] at hsame
      exact Nat.succ.inj (Option.some.inj hsame)
    · rw [hcnv', length_replicate]
  refine ⟨hlaid, Ring.ext ?_ ?_ ?_⟩
  · show (x.main.ring .a).versionLowerBound = 0
    rw [hring]
    rfl
  · show (x.main.ring .a).nextVersion = 0
    rw [hring]
    rfl
  · refine eq_replicate_iff.mpr ⟨?_, fun o ho => ?_⟩
    · rw [← hlen]
      exact hlaid.capacity
    · obtain ⟨k, hk, ho⟩ := mem_flatMap.mp ho
      rw [hspan k (hlen ▸ mem_range.mp hk), hcnv'] at ho
      exact eq_of_mem_replicate ho

theorem newRing_holds {k : Nat} (hpool : pool.ringTotal * pool.entriesPerChunk = 2 ^ k) :
    (newRing pool).Holds fun _ => none := by
  have hcap : (newRing pool).capacity = pool.ringTotal * pool.entriesPerChunk := length_replicate
  refine ⟨⟨k, hcap.trans hpool⟩, Nat.zero_le _, Nat.zero_le _, fun v _ _ => ?_, fun v o ho => ?_⟩
  · show (List.replicate _ invalidOffset).getD _ invalidOffset = invalidOffset
    rw [getD_eq_getElem?_getD, List.getElem?_replicate]
    split_ifs <;> rfl
  · cases ho

/-- A history length that is accepted lies within the capacity. -/
theorem historyLength_of_exec {len : Nat} {c' : DbMetadataContext}
    (h : exec (updateHistoryLengthMetadata len) c = some ((), c')) :
    0 < len ∧ len ≤ (c.copy0.ring (c.ringIdx .primary)).capacity := by
  obtain ⟨_, c1, h1, h⟩ := exec_bind_some.mp h
  rw [exec_load] at h1
  cases h1
  obtain ⟨_, c2, h2, -⟩ := exec_bind_some.mp h
  obtain ⟨x, hx, -⟩ := exec_focus_some.mp h2
  obtain ⟨_, x1, hx1, hx⟩ := exec_bind_some.mp hx
  obtain ⟨_, x2, hx2, -⟩ := exec_bind_some.mp hx
  obtain ⟨_, x3, hx3, hx2⟩ := exec_bind_some.mp hx2
  obtain ⟨_, x4, hx4, -⟩ := exec_bind_some.mp hx2
  unfold setDirty at hx1
  rw [exec_store] at hx1
  cases hx1
  rw [exec_load] at hx3
  cases hx3
  rw [exec_require] at hx4
  split_ifs at hx4 with hlen
  rw [id_eq, ring_setDirty] at hlen
  exact hlen

end DbMetadataContext

/-- The map of a pool without versions. -/
def VersionMap.empty (length : Nat) : VersionMap where
  roots := fun _ => none
  max := none
  length := length

namespace DbMetadataContext

section

variable {k : Nat} (hpool : pool.ringTotal * pool.entriesPerChunk = 2 ^ k) (hfresh : Fresh pool c)

include hpool hfresh

theorem fresh_views : Views pool c (newRing pool) (newRing pool) ∧ 0 < c.versionHistoryLength ∧
    c.versionHistoryLength ≤ pool.ringTotal * pool.entriesPerChunk := by
  obtain ⟨historyLen, hexec⟩ := hfresh
  obtain ⟨c', hhdr0, hcnv0, hhdr1, hcnv1, hspan0, hspan1, hlast⟩ := initNewPool_mapped hexec
  obtain ⟨hrest, hlength⟩ := Prod.mk.inj hhdr0
  obtain ⟨hring, hrest⟩ := Prod.mk.inj hrest
  have hidx := (Prod.mk.inj (Prod.mk.inj hrest).2).1
  have hchunks : ∀ k < pool.ringTotal, mapping c'.copy0.main .a k = some (k + 1) := by
    intro k hk
    have hlt : k < (c'.copy0.main.ring .a).cnvChunksLen := by
      show k < c'.copy0.main.rootOffsets.cnvChunksLen
      rw [hring]
      exact hk
    show (if k < (c'.copy0.main.ring .a).cnvChunksLen then c'.copy0.main.rootOffsets.cnvChunks k
      else none) = _
    rw [if_pos hlt, hring]
    exact if_pos hk
  obtain ⟨hlaid0, hring0⟩ := newRing_laid hhdr0 hcnv0 fun k hk => hspan0 ▸ hchunks k hk
  obtain ⟨hlaid1, hring1⟩ := newRing_laid hhdr1 hcnv1 fun k hk => hspan1 ▸ hchunks k hk
  have hvs : Views pool c' (newRing pool) (newRing pool) := ⟨hidx, hlaid0, hlaid1, hring0, hring1⟩
  have hcap : (newRing pool).capacity = pool.ringTotal * pool.entriesPerChunk := length_replicate
  rcases hlast with rfl | ⟨len, hexec⟩
  · have hlen' : c'.versionHistoryLength = pool.ringTotal * pool.entriesPerChunk := hlength
    refine ⟨hvs, ?_, hlen'.le⟩
    rw [hlen', hpool]
    exact Nat.two_pow_pos k
  obtain ⟨hpos, hle⟩ := historyLength_of_exec hexec
  have hprim : c'.ringIdx .primary = .a := hidx
  rw [hprim, hring0, hcap] at hle
  obtain ⟨c'', hexec', hvs', hlen'⟩ := hvs.updateHistoryLengthMetadata ⟨hpos, hle.trans hcap.ge⟩
  rw [hexec] at hexec'
  cases hexec'
  rw [hlen']
  exact ⟨hvs', hpos, hle⟩

theorem represents_fresh : Represents pool (pool.ringTotal * pool.entriesPerChunk) c
    (empty c.versionHistoryLength) := by
  obtain ⟨hvs, hpos, hle⟩ := fresh_views hpool hfresh
  exact ⟨rfl, hpos, hle, Or.inl ⟨rfl, newRing pool, hvs, length_replicate, rfl, newRing_holds hpool⟩⟩

end

/-! ## What a reader sees -/

/-- A reader sees the map: the root of every version, the largest and the least version, and no
version outside of the window. -/
structure Shows (c : DbMetadataContext) (s : VersionMap) : Prop where
  root : ∀ v, c.getRootOffsetAtVersion v .primary = (s.roots v).getD invalidOffset
  max : c.dbHistoryMaxVersion .primary = s.max.getD invalidBlockNum
  least : s.max ≠ none → (s.roots (c.dbHistoryMinValidVersion .primary)).isSome ∧
    ∀ v, (s.roots v).isSome → c.dbHistoryMinValidVersion .primary ≤ v
  window : ∀ v, (s.roots v).isSome → ∃ top, s.max = some top ∧ v ≤ top ∧ top < v + s.length

theorem Represents.shows (h : Represents pool capacity c s) : Shows c s := by
  rcases h.state with ⟨hnone, r, hvs, -, hzero, hhs⟩ | ⟨top, r, htop, hvs, -, hset, hnext, hroom⟩
  · refine ⟨fun v => hvs.getRoot hhs v, ?_, fun hsome => absurd hnone hsome, fun v hv => ?_⟩
    · rw [hvs.maxVersion, hnone]
      exact (Ring.maxVersion_eq_invalid_iff hhs.bound).mpr hzero
    · rw [roots_empty hhs hzero] at hv
      cases hv
  have hmin : c.dbHistoryMinValidVersion .primary = r.versionLowerBound := by
    show c.dbHistoryRangeLowerBound .primary = _
    rw [hvs.lowerBound, if_neg hset.maxVersion_ne]
  refine ⟨fun v => hvs.getRoot hset.toHolds v, ?_, fun _ => ⟨?_, fun v hv => ?_⟩, fun v hv => ?_⟩
  · rw [hvs.maxVersion, hset.maxVersion, hnext, htop]
    rfl
  · rw [hmin]
    exact hset.low
  · rw [hmin]
    exact (hset.lt_of_isSome hv).1
  · obtain ⟨hlow, hhigh⟩ := hset.lt_of_isSome hv
    exact ⟨top, htop, by omega, by omega⟩

/-! ## The storage -/

/-- The map of the versions that the primary ring holds. -/
def versionMap (c : DbMetadataContext) : VersionMap where
  roots v := if c.versionIsValidOndisk v then some (c.getRootOffsetAtVersion v .primary) else none
  max := if c.dbHistoryMaxVersion .primary = invalidBlockNum then none else some (c.dbHistoryMaxVersion .primary)
  length := c.versionHistoryLength

end DbMetadataContext

/-- The storage that a call finds: the disk, whose history is read from the rings, the insertion counts of
the chunks, and the compaction offsets in the values of the roots. -/
structure Storage where
  disk : Disk
  insertionCount : Nat → Nat
  minOffsets : ChunkOffset → Nat × Nat

namespace Storage

variable (storage : Storage) (pool : StoragePool)

def chunks : StoredChunks := ⟨storage.disk.fast, storage.disk.slow, storage.insertionCount, storage.minOffsets⟩

def diskOf (s : VersionMap) : Disk := { storage.disk with history := s }

theorem endsInside_diskOf {storage : Storage} {s : VersionMap} {o : ChunkOffset} :
    (storage.diskOf s).EndsInside o ↔ storage.disk.EndsInside o :=
  ⟨fun h => ⟨h.max, h.written, h.file⟩, fun h => ⟨h.max, h.written, h.file⟩⟩

/-- The end of `rewind_to_version`: the next fast node goes behind the root at `o`, if that is on the fast list. -/
def cutBehind (c : DbMetadataContext) (o : ChunkOffset) : Option Disk :=
  let d := storage.diskOf c.versionMap
  if o.id.toNat ∈ d.fast then do
    let e ← Disk.rootEnd o
    { d with startOfWipFast := d.afterRoot o e }.rewindToMatchOffsets
  else d.rewindToMatchOffsets

/-- The end of `clear_ondisk_db`: the next nodes go to the begin of both lists. -/
def cutAll (c : DbMetadataContext) : Option Disk := do
  let fast ← storage.disk.fast.head?
  let slow ← storage.disk.slow.head?
  { storage.diskOf c.versionMap with startOfWipFast := ⟨fast, 0⟩, startOfWipSlow := ⟨slow, 0⟩ }.rewindToMatchOffsets

def rewindToVersion (version : Nat) : Stores DbMetadataContext Unit := do
  let c ← load id
  DbMetadataContext.rewindToVersion pool version
  onlyIf (version ≠ c.dbHistoryMaxVersion .primary) do
    let c ← load id
    require (storage.cutBehind c (c.getRootOffsetAtVersion version .primary)).isSome

def clearOndiskDb : Stores DbMetadataContext Unit := do
  DbMetadataContext.clearOndiskDb pool
  let c ← load id
  require (storage.cutAll c).isSome

/-- The storage of a database with the versions of `s`. -/
structure Sound (s : VersionMap) : Prop where
  disk : (storage.diskOf s).WellFormed
  covers : ∀ v o, s.roots v = some o → storage.chunks.Covers o

end Storage

namespace HistoryCall

def run (pool : StoragePool) (storage : Storage) : HistoryCall → Stores DbMetadataContext Unit
  | write o version => DbMetadataContext.writeNewRootNode pool storage.chunks o version
  | move src dest => DbMetadataContext.moveTrieVersionForward pool storage.chunks src dest
  | erase version => DbMetadataContext.eraseVersionsUpToAndIncluding pool storage.chunks version
  | rewind version => storage.rewindToVersion pool version
  | clear => storage.clearOndiskDb pool
  | changeLength len => DbMetadataContext.changeHistoryLength pool storage.chunks len

/-- The calls that abort: those that do on the rings, and rewinding to an earlier version whose root is on the
fast list and does not end inside its chunk. -/
def AbortsOn (storage : Storage) (s : VersionMap) : HistoryCall → Prop
  | rewind version => s.max ≠ some version ∧
      ∃ o, s.roots version = some o ∧ o.id.toNat ∈ storage.disk.fast ∧ ¬ storage.disk.EndsInside o
  | call => call.Aborts s

end HistoryCall

namespace DbMetadataContext

theorem Represents.versionMap_eq (h : Represents pool capacity c s) : c.versionMap = s := by
  have hshows := h.shows
  obtain ⟨roots, max, length⟩ := s
  have hvalid : ∀ v o, roots v = some o → o.isInvalid = false := by
    intro v o hv
    rcases h.state with ⟨-, r, -, -, -, hhs⟩ | ⟨-, r, -, -, -, hset, -⟩
    · exact (hhs.within v o hv).2.2
    · exact (hset.within v o hv).2.2
  have hroots : c.versionMap.roots = roots := by
    funext v
    show (if c.versionIsValidOndisk v then some (c.getRootOffsetAtVersion v .primary) else none) = roots v
    have hget : c.getRootOffsetAtVersion v .primary = (roots v).getD invalidOffset := hshows.root v
    unfold versionIsValidOndisk
    rw [hget]
    cases hv : roots v with
    | none => rfl
    | some o =>
      rw [getD_some, hvalid v o hv]
      rfl
  have hmax : c.versionMap.max = max := by
    show (if c.dbHistoryMaxVersion .primary = invalidBlockNum then none
      else some (c.dbHistoryMaxVersion .primary)) = max
    rw [hshows.max]
    rcases h.state with ⟨hnone, -⟩ | ⟨top, r, htop, -, -, hset, hnext, -⟩
    · obtain rfl : max = none := hnone
      exact if_pos rfl
    · obtain rfl : max = some top := htop
      have hbound := hset.bound
      exact if_neg (by rw [getD_some]; omega)
  exact VersionMap.mk.injEq .. ▸ ⟨hroots, hmax, h.length⟩

/-! ## One call -/

variable {storage : Storage} {version : Nat}

section

variable (h : Represents pool capacity c s) (hsound : storage.Sound s)

include hsound

/-- The second half of rewinding, once the rings are rewound. -/
theorem cutBehind_isSome (h : Represents pool capacity c ((rewind version).apply s)) (hmax : s.max ≠ some version)
    {o : ChunkOffset} (hroot : s.roots version = some o) :
    (storage.cutBehind c (c.getRootOffsetAtVersion version .primary)).isSome ↔
      o.id.toNat ∈ storage.disk.fast → storage.disk.EndsInside o := by
  have hsame : ((rewind version).apply s).roots version = some o := by
    show (if version < version then none else s.roots version) = some o
    rw [if_neg (Nat.lt_irrefl version), hroot]
  have hcut : storage.cutBehind c o = (storage.diskOf s).rewindToVersion version := by
    have hroot : (storage.diskOf s).history.roots version = some o := hroot
    unfold Storage.cutBehind Disk.rewindToVersion
    rw [h.versionMap_eq, hroot]
    exact (if_neg hmax).symm
  rw [h.shows.root, hsame, getD_some, hcut, hsound.disk.rewindToVersion_isSome hroot hmax,
    Storage.endsInside_diskOf]
  rfl

/-- The lists can be cut back to their first chunks. -/
theorem cutAll_isSome (h : Represents pool capacity c (clear.apply s)) : (storage.cutAll c).isSome := by
  have hlisted := hsound.disk.listed
  have hpos : 0 < storage.disk.capacity := Nat.zero_lt_of_lt hsound.disk.wipFast_lt
  obtain ⟨fast, hfast⟩ := isSome_iff_exists.mp (isSome_head?.mpr (ne_nil_of_mem hlisted.fast))
  obtain ⟨slow, hslow⟩ := isSome_iff_exists.mp (isSome_head?.mpr (ne_nil_of_mem hlisted.slow))
  have hfast : storage.disk.fast.head? = some fast := hfast
  have hslow : storage.disk.slow.head? = some slow := hslow
  let d : Disk := { storage.diskOf c.versionMap with startOfWipFast := ⟨fast, 0⟩, startOfWipSlow := ⟨slow, 0⟩ }
  have hl : d.Listed := ⟨mem_of_head? hfast, mem_of_head? hslow, hlisted.nodup⟩
  have hb : d.LastRootBehind := by
    have hnone : d.history.max = none := by
      show c.versionMap.max = none
      rw [h.versionMap_eq]
      rfl
    unfold Disk.LastRootBehind
    rw [hnone]
    trivial
  have hcut : d.rewindToMatchOffsets = some d.rewound :=
    hl.rewindToMatchOffsets_eq hb ⟨Nat.zero_le _, Nat.zero_le _⟩ fun _ => ⟨hpos, hpos⟩
  unfold Storage.cutAll
  rw [hfast, hslow]
  show d.rewindToMatchOffsets.isSome
  rw [hcut]
  rfl

include h

theorem rewindToVersion_goes (hroot : (s.roots version).isSome) (hnot : ¬ (rewind version).AbortsOn storage s) :
    Completes (storage.rewindToVersion pool version) c fun _ c' =>
      Represents pool capacity c' ((rewind version).apply s) := by
  obtain ⟨o, ho⟩ := isSome_iff_exists.mp hroot
  have hmax := h.shows.max
  refine completes_load (Completes.bind (rewind_goes h hroot) fun _ c' hc' => completes_onlyIf (fun hne => ?_) fun _ => hc')
  have hother : s.max ≠ some version := fun htop => hne (by rw [id_eq, hmax, htop, getD_some])
  refine completes_load ⟨(), c', ?_, hc'⟩
  rw [id_eq, exec_require, if_pos ((cutBehind_isSome hsound hc' hother ho).mpr fun hfast => ?_)]
  by_contra hout
  exact hnot ⟨hother, o, ho, hfast, hout⟩

theorem rewindToVersion_aborts (hroot : (s.roots version).isSome) (hab : (rewind version).AbortsOn storage s) :
    exec (storage.rewindToVersion pool version) c = none := by
  obtain ⟨hother, o, ho, hfast, hout⟩ := hab
  obtain ⟨_, c', hexec, hc'⟩ := rewind_goes h hroot
  have hne : version ≠ c.dbHistoryMaxVersion .primary := by
    obtain ⟨top, htop, -⟩ := hsound.disk.max version o ho
    have htop : s.max = some top := htop
    rw [h.shows.max, htop, getD_some]
    exact fun heq => hother (heq ▸ htop)
  unfold Storage.rewindToVersion
  rw [exec_bind, exec_load, bind_some, id_eq, exec_bind, hexec, bind_some, exec_onlyIf, if_pos hne, exec_bind,
    exec_load, bind_some, id_eq, exec_require,
    if_neg fun hcut => hout ((cutBehind_isSome hsound hc' hother ho).mp hcut hfast)]

theorem clearOndiskDb_goes : Completes (storage.clearOndiskDb pool) c fun _ c' =>
    Represents pool capacity c' (clear.apply s) := by
  refine (clear_goes h).bind fun _ c' hc' => completes_load ⟨(), c', ?_, hc'⟩
  rw [id_eq, exec_require, if_pos (cutAll_isSome hsound hc')]

end

section

variable {call : HistoryCall} (h : Represents pool capacity c s) (hsound : storage.Sound s)
  (hallowed : call.Allowed capacity s)

include h hsound hallowed

theorem call_goes (hnot : ¬ call.AbortsOn storage s) :
    Completes (call.run pool storage) c fun _ c' => Represents pool capacity c' (call.apply s) := by
  cases call with
  | write o version =>
    obtain ⟨ho, hver, hwin⟩ := hallowed
    cases hmax : s.max with
    | none => exact write_first h hmax ho hver
    | some top =>
      obtain ⟨hnext, hlow⟩ := hwin top hmax
      rcases Nat.lt_or_ge top version with hlt | hle
      · obtain rfl : version = top + 1 := by omega
        exact write_next h hmax hsound.covers ho hver fun hone => hnot ⟨hone, top, hmax, rfl⟩
      · exact write_again h hmax ho hle hlow
  | move src dest => exact move_goes h hallowed hsound.covers hnot
  | erase version => exact erase_goes h hsound.covers hallowed
  | rewind version => exact rewindToVersion_goes h hsound hallowed hnot
  | clear => exact clearOndiskDb_goes h hsound
  | changeLength len => exact changeLength_goes h hsound.covers hallowed

theorem call_aborts (hab : call.AbortsOn storage s) : exec (call.run pool storage) c = none := by
  cases call with
  | write o version =>
    obtain ⟨hone, top, hmax, rfl⟩ := hab
    exact write_aborts h hmax hallowed.2.1 hone
  | move src dest => exact move_aborts h hallowed hab
  | rewind version => exact rewindToVersion_aborts h hsound hallowed hab
  | erase | clear | changeLength => cases hab

end

end DbMetadataContext

/-! ## Runs -/

/-- A call and the storage that it finds. -/
structure HistoryStep where
  storage : Storage
  call : HistoryCall

namespace HistoryStep

def run (pool : StoragePool) (step : HistoryStep) : Stores DbMetadataContext Unit := step.call.run pool step.storage

def apply (s : VersionMap) (step : HistoryStep) : VersionMap := step.call.apply s

/-- Every call of a run has the arguments it is made for, and finds the storage of a database with the versions
that there are. -/
def AllowedRun (capacity : Nat) : VersionMap → List HistoryStep → Prop
  | _, [] => True
  | s, step :: steps =>
    (step.call.Allowed capacity s ∧ step.storage.Sound s) ∧ AllowedRun capacity (step.apply s) steps

/-- Some call of a run aborts. -/
def AbortsRun : VersionMap → List HistoryStep → Prop
  | _, [] => False
  | s, step :: steps => step.call.AbortsOn step.storage s ∨ AbortsRun (step.apply s) steps

end HistoryStep

namespace DbMetadataContext

variable {steps : List HistoryStep}

section

variable (h : Represents pool capacity c s) (hallowed : HistoryStep.AllowedRun capacity s steps)

include h hallowed

theorem run_goes (hnot : ¬ HistoryStep.AbortsRun s steps) :
    Completes (each steps (HistoryStep.run pool)) c fun _ c' =>
      Represents pool capacity c' (steps.foldl HistoryStep.apply s) := by
  induction steps generalizing c s with
  | nil => exact ⟨(), c, rfl, h⟩
  | cons step steps ih =>
    obtain ⟨⟨hcall, hsound⟩, hrest⟩ := hallowed
    refine Completes.bind (call_goes h hsound hcall fun hab => hnot (Or.inl hab)) fun _ c' hc' => ?_
    exact ih hc' hrest fun hab => hnot (Or.inr hab)

theorem run_aborts (hab : HistoryStep.AbortsRun s steps) : exec (each steps (HistoryStep.run pool)) c = none := by
  induction steps generalizing c s with
  | nil => cases hab
  | cons step steps ih =>
    obtain ⟨⟨hcall, hsound⟩, hrest⟩ := hallowed
    rw [exec_each_cons]
    by_cases hnow : step.call.AbortsOn step.storage s
    · rw [HistoryStep.run, call_aborts h hsound hcall hnow]
      rfl
    · obtain ⟨_, c', hexec, hc'⟩ := call_goes h hsound hcall hnow
      rw [HistoryStep.run, hexec]
      exact ih hc' hrest (hab.resolve_left hnow)

end

/-- **The rings are an exact window of the version map**: a run from a fresh pool completes and shows
the map that its calls are meant to make, exactly when it has no call that aborts. -/
theorem window_exact_iff {k : Nat} (hpool : pool.ringTotal * pool.entriesPerChunk = 2 ^ k) (hfresh : Fresh pool c)
    {steps : List HistoryStep}
    (hallowed : HistoryStep.AllowedRun (pool.ringTotal * pool.entriesPerChunk)
      (VersionMap.empty c.versionHistoryLength) steps) :
    (∃ c', exec (each steps (HistoryStep.run pool)) c = some ((), c') ∧
      Shows c' (steps.foldl HistoryStep.apply (VersionMap.empty c.versionHistoryLength))) ↔
      ¬ HistoryStep.AbortsRun (VersionMap.empty c.versionHistoryLength) steps := by
  have hrep := represents_fresh hpool hfresh
  constructor
  · rintro ⟨c', hexec, -⟩ hab
    rw [run_aborts hrep hallowed hab] at hexec
    cases hexec
  · intro hnot
    obtain ⟨_, c', hexec, hc'⟩ := run_goes hrep hallowed hnot
    exact ⟨c', hexec, hc'.shows⟩

/-! ## A small pool -/

/-- Roots of one page each: two fill a chunk, and the third is on the next one. -/
def smallRoots : List ChunkOffset := [Disk.rootAt 2 0, Disk.rootAt 2 512, Disk.rootAt 0 0]

/-- The storage of the small pool when the three roots have been written. -/
def smallStorage : Storage where
  disk :=
    { capacity := 1024
      onFile := true
      history := empty 0
      fast := [2, 0]
      slow := [1]
      free := []
      startOfWipFast := ⟨0, 512⟩
      startOfWipSlow := ⟨1, 0⟩
      chunkSize := fun id => if id = 2 then 1024 else if id = 0 then 512 else 0
      nodes := fun o => [⟨o.id.toNat, o.offset.toNat, 100⟩] }
  insertionCount := fun id => if id = 0 then 1 else 0
  minOffsets := fun _ => (0, 0)

/-- The versions have the small roots. -/
def Small (s : VersionMap) : Prop :=
  ∀ v o, s.roots v = some o → o ∈ smallRoots ∧ ∃ top, s.max = some top ∧ v ≤ top

theorem Small.sound (h : Small s) : smallStorage.Sound s where
  disk :=
    { capacity_page := ⟨2, rfl⟩
      capacity_le := (by decide : 1024 ≤ 2 ^ 28)
      nodup := (by decide : ([2, 0] ++ [1] ++ [] : List Nat).Nodup)
      fast_last := rfl
      slow_last := rfl
      wipFast_lt := (by decide : 512 < 1024)
      wipSlow_lt := (by decide : 0 < 1024)
      written := (by decide : smallStorage.disk.WritersFit)
      size_le := by
        intro id
        show (if id = 2 then 1024 else if id = 0 then 512 else 0) ≤ 1024
        split_ifs <;> omega
      max := fun v o hv => (h v o hv).2
      root := by
        have hroots : ∀ o ∈ smallRoots,
            o.offset.toNat + 100 ≤ roundDownToPage o.offset.toNat + o.bytesToRead := by decide
        exact fun v o hv => ⟨100, by decide, mem_singleton_self _, hroots o (h v o hv).1⟩
      holds := by
        have hroots : ∀ o ∈ smallRoots, Disk.Before [2, 0] ⟨0, 512⟩ ⟨o.id.toNat, o.offset.toNat, 100⟩ := by decide
        intro v o x hv hx
        cases mem_singleton.mp hx
        exact .inl (hroots o (h v o hv).1) }
  covers := fun v o _ =>
    { fast := (by decide : 0 ≠ invalidCompactOffset)
      slow := (by decide : 0 ≠ invalidCompactOffset)
      fast_reached := ⟨0, rfl, (by decide : getCount 0 ≤ 1)⟩
      slow_reached := ⟨1, rfl, (by decide : getCount 0 ≤ 0)⟩ }

theorem Small.empty (length : Nat) : Small (VersionMap.empty length) := fun _ _ hv => nomatch hv

theorem Small.update {m : Roots} {top version length : Nat} {o : ChunkOffset} (h : Small s)
    (hm : ∀ v o, m v = some o → s.roots v = some o) (ho : o ∈ smallRoots) (hver : version ≤ top)
    (htop : ∀ old, s.max = some old → old ≤ top) : Small ⟨Function.update m version (some o), some top, length⟩ := by
  intro v o' hv
  have hv : Function.update m version (some o) v = some o' := hv
  by_cases heq : v = version
  · rw [heq, Function.update_self] at hv
    cases hv
    exact ⟨ho, top, rfl, heq ▸ hver⟩
  · rw [Function.update_of_ne heq] at hv
    obtain ⟨hin, old, hold, hle⟩ := h v o' (hm v o' hv)
    exact ⟨hin, top, rfl, hle.trans (htop old hold)⟩

theorem Small.write (h : Small s) {o : ChunkOffset} (ho : o ∈ smallRoots) (version : Nat) :
    Small ((HistoryCall.write o version).apply s) := by
  cases hmax : s.max with
  | none =>
    simp only [HistoryCall.apply, hmax]
    exact h.update (fun _ _ hv => hv) ho (Nat.le_refl version) fun old hold => by cases hmax.symm.trans hold
  | some top =>
    have htop : ∀ old, s.max = some old → old = top := fun old hold => Option.some.inj (hold.symm.trans hmax)
    simp only [HistoryCall.apply, hmax]
    split_ifs with hle
    · exact h.update (fun _ _ hv => hv) ho hle fun old hold => (htop old hold).le
    · refine h.update (fun v o hv => ?_) ho (Nat.le_refl version) fun old hold => htop old hold ▸ Nat.le_of_not_le hle
      unfold cut at hv
      split_ifs at hv
      · exact Views.eq_some_of_drop hv
      · exact hv

/-- Calls that find the small storage. -/
def onSmall (calls : List HistoryCall) : List HistoryStep := calls.map (HistoryStep.mk smallStorage)

/-- A root is written to the next version. -/
theorem allowedRun_write {o : ChunkOffset} {steps : List HistoryStep} (h : Small s)
    (hroot : o ∈ smallRoots ∧ o.isInvalid = false ∧ version < invalidBlockNum)
    (hnext : ∀ top, s.max = some top → version ≤ top + 1 ∧ top < version + s.length)
    (hrest : Small ((HistoryCall.write o version).apply s) →
      HistoryStep.AllowedRun capacity ((HistoryCall.write o version).apply s) steps) :
    HistoryStep.AllowedRun capacity s (⟨smallStorage, .write o version⟩ :: steps) :=
  ⟨⟨⟨hroot.2.1, hroot.2.2, hnext⟩, h.sound⟩, hrest (h.write hroot.1 version)⟩

/-- Two versions are written. -/
def appended : List HistoryCall := [.write (Disk.rootAt 2 0) 1, .write (Disk.rootAt 2 512) 2]

theorem allowedRun_appended {length : Nat} {steps : List HistoryStep}
    (hrest : Small ((onSmall appended).foldl HistoryStep.apply (VersionMap.empty length)) →
      HistoryStep.AllowedRun capacity ((onSmall appended).foldl HistoryStep.apply (VersionMap.empty length)) steps) :
    HistoryStep.AllowedRun capacity (VersionMap.empty length)
      (⟨smallStorage, .write (Disk.rootAt 2 0) 1⟩ :: ⟨smallStorage, .write (Disk.rootAt 2 512) 2⟩ :: steps) := by
  refine allowedRun_write (Small.empty length) (by decide) (fun top htop => by cases htop) fun h1 => ?_
  refine allowedRun_write h1 (by decide) (fun top htop => ?_) hrest
  cases htop
  exact ⟨Nat.le_refl 2, Nat.lt_add_right _ (by decide)⟩

/-- Three versions are written, and the history is rewound. -/
def rewoundTo (version : Nat) : List HistoryCall :=
  [.write (Disk.rootAt 2 0) 1, .write (Disk.rootAt 2 512) 2, .write (Disk.rootAt 0 0) 3, .rewind version]

theorem allowedRun_rewoundTo {version : Nat} (hversion : version = 1 ∨ version = 2) :
    HistoryStep.AllowedRun 4 (VersionMap.empty 3) (onSmall (rewoundTo version)) := by
  refine allowedRun_appended fun h2 => ?_
  refine allowedRun_write h2 (by decide) (fun top htop => ?_) fun h3 => ⟨⟨?_, h3.sound⟩, trivial⟩
  · cases htop
    decide
  · rcases hversion with rfl | rfl <;> rfl

theorem window_exact_iff_rewound : ∃ c c', Fresh smallPool c ∧
    exec (each (onSmall (rewoundTo 1)) (HistoryStep.run smallPool)) c = some ((), c') ∧
    c'.getRootOffsetAtVersion 1 .primary = Disk.rootAt 2 0 ∧
    c'.getRootOffsetAtVersion 2 .primary = invalidOffset ∧ c'.dbHistoryMaxVersion .primary = 1 := by
  have hrun : (exec (initNewPool smallPool (some 3)) newPool).map (fun r => r.2.versionHistoryLength) =
      some 3 := by decide +kernel
  obtain ⟨⟨_, c⟩, hc, hlength⟩ := map_eq_some_iff.mp hrun
  have hlen' : c.versionHistoryLength = 3 := hlength
  have hpool : smallPool.ringTotal * smallPool.entriesPerChunk = 2 ^ 2 := rfl
  have hallowed : HistoryStep.AllowedRun (smallPool.ringTotal * smallPool.entriesPerChunk)
      (VersionMap.empty c.versionHistoryLength) (onSmall (rewoundTo 1)) := by
    rw [hlen']
    exact allowedRun_rewoundTo (.inl rfl)
  have hnot : ¬ HistoryStep.AbortsRun (VersionMap.empty c.versionHistoryLength) (onSmall (rewoundTo 1)) := by
    rw [hlen']
    rintro (⟨hone, -⟩ | ⟨hone, -⟩ | ⟨hone, -⟩ | ⟨-, o, ho, -, hout⟩ | hfalse)
    · cases hone
    · cases hone
    · cases hone
    · cases ho
      exact hout ⟨by decide, by decide, by decide⟩
    · exact hfalse
  obtain ⟨c', hexec, hshows⟩ := (window_exact_iff hpool ⟨some 3, hc⟩ hallowed).mpr hnot
  rw [hlen'] at hshows
  exact ⟨c, c', ⟨some 3, hc⟩, hexec, hshows.root 1, hshows.root 2, hshows.max⟩

/-- The calls of a run that dereferences a missing root: the old maximum is moved, and the other
version falls out of the history. -/
def movedOut : List HistoryCall := [.write (Disk.rootAt 2 0) 1, .write (Disk.rootAt 2 512) 2, .move 2 3]

theorem aborts_of_run (n : Nat) (calls : List HistoryCall)
    (hrun : (exec (initNewPool smallPool (some n)) newPool).map (fun r => (r.2.versionHistoryLength,
      (exec (each (onSmall calls) (HistoryStep.run smallPool)) r.2).isNone)) = some (n, true)) :
    ∃ c, Fresh smallPool c ∧ c.versionHistoryLength = n ∧
      exec (each (onSmall calls) (HistoryStep.run smallPool)) c = none := by
  obtain ⟨⟨_, c⟩, hc, hresult⟩ := map_eq_some_iff.mp hrun
  obtain ⟨hlength, hnone⟩ := Prod.mk.inj hresult
  exact ⟨c, ⟨some n, hc⟩, hlength, isNone_iff_eq_none.mp hnone⟩

/-- A move with a history of two versions, an append with a history of one, and a rewind to a root that is the
last page of its chunk, that abort. -/
theorem history_aborts : (∃ c, (Fresh smallPool c ∧ c.versionHistoryLength = 2 ∧
      exec (each (onSmall movedOut) (HistoryStep.run smallPool)) c = none) ∧
      HistoryStep.AllowedRun 4 (VersionMap.empty 2) (onSmall movedOut)) ∧
    (∃ c, (Fresh smallPool c ∧ c.versionHistoryLength = 1 ∧
      exec (each (onSmall appended) (HistoryStep.run smallPool)) c = none) ∧
      HistoryStep.AllowedRun 4 (VersionMap.empty 1) (onSmall appended)) ∧
    ∃ c, (Fresh smallPool c ∧ c.versionHistoryLength = 3 ∧
      exec (each (onSmall (rewoundTo 2)) (HistoryStep.run smallPool)) c = none) ∧
      HistoryStep.AllowedRun 4 (VersionMap.empty 3) (onSmall (rewoundTo 2)) := by
  refine ⟨?_, ?_, ?_⟩
  · obtain ⟨c, hc⟩ := aborts_of_run 2 movedOut (by decide +kernel)
    refine ⟨c, hc, ?_⟩
    refine allowedRun_appended fun h2 => ⟨⟨⟨rfl, by decide, fun top htop => ?_⟩, h2.sound⟩, trivial⟩
    cases htop
    decide
  · obtain ⟨c, hc⟩ := aborts_of_run 1 appended (by decide +kernel)
    exact ⟨c, hc, allowedRun_appended fun _ => trivial⟩
  · obtain ⟨c, hc⟩ := aborts_of_run 3 (rewoundTo 2) (by decide +kernel)
    exact ⟨c, hc, allowedRun_rewoundTo (.inr rfl)⟩

end DbMetadataContext

end MonadExecution.Mpt
