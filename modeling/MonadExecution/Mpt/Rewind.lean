import Mathlib
import MonadExecution.Mpt.History

/-!
# Rewinding the storage

`rewind_to_version` invalidates the later versions, computes from the root of the version where the next
node is to be written, and gives the chunks behind that place back. A database is seen here as the map of
its versions, its lists of chunks in order, and the two places where nodes are written next.

The call works when the root ends before its chunk does and no other version that stays has nodes behind
it. At the end of a chunk the carry to the next chunk is never made, and the call fails.
-/

namespace MonadExecution.Mpt

open Function List Option Nat

/-- A place in a chunk. -/
structure Place where
  id : Nat
  offset : Nat
  deriving DecidableEq

/-- The bytes of a node. -/
structure Extent where
  id : Nat
  offset : Nat
  size : Nat
  deriving DecidableEq

structure Disk where
  /-- the bytes of a chunk -/
  capacity : Nat
  /-- the device is a file, not a block device -/
  onFile : Bool
  history : VersionMap
  fast : List Nat
  slow : List Nat
  free : List Nat
  startOfWipFast : Place
  startOfWipSlow : Place
  /-- the bytes of a chunk that have been written -/
  chunkSize : Nat → Nat
  /-- the nodes under a root -/
  nodes : ChunkOffset → List Extent

/-! ## The functions -/

/-- `chunk_offset_t::max_offset`. -/
def maxOffset : Nat := 2 ^ 28 - 1

def diskPageSize : Nat := 512

def roundDownToPage (n : Nat) : Nat := n / diskPageSize * diskPageSize

namespace ChunkOffset

/-- `node_disk_pages_spare_15::to_pages`: ten bits of a count, and five of a shift. -/
def toPages (o : ChunkOffset) : Nat := o.spare.toNat % 2 ^ 10 * 2 ^ (o.spare.toNat / 2 ^ 10) % 2 ^ 32

def bytesToRead (o : ChunkOffset) : Nat := o.toPages * diskPageSize % 2 ^ 32

/-- `add_to_offset`, which asserts that the offset still fits. -/
def addToOffset (o : ChunkOffset) (bytes : Nat) : Option Nat :=
  if o.offset.toNat + bytes ≤ maxOffset then some (o.offset.toNat + bytes) else none

end ChunkOffset

/-- The chunk after another one of a list. -/
def nextChunk (chunks : List Nat) (id : Nat) : Nat := chunks.getD (chunks.idxOf id + 1) id

/-- A place comes before another one, in the order of a list of chunks. -/
def virtualLt (chunks : List Nat) (p q : Place) : Prop :=
  chunks.idxOf p.id < chunks.idxOf q.id ∨ p.id = q.id ∧ p.offset < q.offset

instance (chunks : List Nat) (p q : Place) : Decidable (virtualLt chunks p q) :=
  inferInstanceAs (Decidable (_ ∨ _ ∧ _))

/-- The chunks of a list up to one, after the last chunk has been given back until it is that one. -/
def keptUpTo (chunks : List Nat) (id : Nat) : List Nat := chunks.take (chunks.idxOf id + 1)

def freedAfter (chunks : List Nat) (id : Nat) : List Nat := (chunks.drop (chunks.idxOf id + 1)).reverse

namespace Disk

/-- Where the root of a version ends, as the call computes it. -/
def rootEnd (o : ChunkOffset) : Option Nat := (o.addToOffset o.bytesToRead).map roundDownToPage

/-- The root that `rewind_to_match_offsets` compares with the places of the next writes: it must be on a
list, and lie before that list's place. -/
def LastRootBehind (d : Disk) : Prop :=
  match d.history.max.bind d.history.roots with
  | none => True
  | some o =>
    if o.id.toNat ∈ d.fast then virtualLt d.fast ⟨o.id.toNat, o.offset.toNat⟩ d.startOfWipFast
    else o.id.toNat ∈ d.slow ∧ virtualLt d.slow ⟨o.id.toNat, o.offset.toNat⟩ d.startOfWipSlow

instance (d : Disk) : Decidable d.LastRootBehind := by
  unfold LastRootBehind
  split
  · infer_instance
  · infer_instance

/-- The bytes of a chunk behind a place are given up. -/
def trimmed (d : Disk) (p : Place) : Disk :=
  { d with chunkSize := update d.chunkSize p.id (min (d.chunkSize p.id) p.offset) }

/-- `try_trim_contents`: on a file a hole is punched behind the bytes that stay, and a hole of no bytes is an
error. -/
def tryTrimContents (d : Disk) (p : Place) : Option Disk :=
  if d.onFile ∧ d.capacity - min (d.chunkSize p.id) p.offset = 0 then none else some (d.trimmed p)

/-- The chunks of both lists behind the places of the next writes are given back. -/
def freeTails (d : Disk) : Disk :=
  { d with
    fast := keptUpTo d.fast d.startOfWipFast.id
    slow := keptUpTo d.slow d.startOfWipSlow.id
    free := d.free ++ freedAfter d.fast d.startOfWipFast.id ++ freedAfter d.slow d.startOfWipSlow.id
    chunkSize := fun id =>
      if id ∈ freedAfter d.fast d.startOfWipFast.id ∨ id ∈ freedAfter d.slow d.startOfWipSlow.id then 0
      else d.chunkSize id }

/-- The assertion of `reset_node_writers`. -/
def WritersFit (d : Disk) : Prop :=
  d.startOfWipFast.offset ≤ d.chunkSize d.startOfWipFast.id ∧
    d.startOfWipSlow.offset ≤ d.chunkSize d.startOfWipSlow.id

instance (d : Disk) : Decidable d.WritersFit := inferInstanceAs (Decidable (_ ∧ _))

def rewindToMatchOffsets (d : Disk) : Option Disk :=
  if d.startOfWipFast.id ∈ d.fast ∧ d.startOfWipSlow.id ∈ d.slow ∧ d.LastRootBehind then do
    let d ← d.freeTails.tryTrimContents d.startOfWipFast
    let d ← d.tryTrimContents d.startOfWipSlow
    if d.WritersFit then some d else none
  else none

/-- The place behind the root; the carry is for an offset at the end of the largest chunk. -/
def afterRoot (d : Disk) (o : ChunkOffset) (rootEnd : Nat) : Place :=
  if maxOffset ≤ rootEnd then ⟨nextChunk d.fast o.id.toNat, 0⟩ else ⟨o.id.toNat, rootEnd⟩

/-- The later versions are invalid, and the next fast node is written at a place. -/
def placed (d : Disk) (version : Nat) (p : Place) : Disk :=
  { d with
    history := HistoryCall.apply d.history (.rewind version)
    startOfWipFast := p }

def rewindToVersion (d : Disk) (version : Nat) : Option Disk :=
  match d.history.roots version with
  | none => none
  | some o =>
    if d.history.max = some version then some d
    else if o.id.toNat ∈ d.fast then do
      let e ← rootEnd o
      (d.placed version (d.afterRoot o e)).rewindToMatchOffsets
    else (d.placed version d.startOfWipFast).rewindToMatchOffsets

/-! ## What a database is -/

/-- A node lies on a list before a place. -/
def Before (chunks : List Nat) (p : Place) (x : Extent) : Prop :=
  x.id ∈ chunks ∧ (chunks.idxOf x.id < chunks.idxOf p.id ∨ x.id = p.id ∧ x.offset + x.size ≤ p.offset)

instance (chunks : List Nat) (p : Place) (x : Extent) : Decidable (Before chunks p x) :=
  inferInstanceAs (Decidable (_ ∧ (_ ∨ _ ∧ _)))

/-- A node is where nothing will be written. -/
def Holds (d : Disk) (x : Extent) : Prop := Before d.fast d.startOfWipFast x ∨ Before d.slow d.startOfWipSlow x

/-- A node that may be written next: behind one of the two places, or on a chunk of the free list. -/
def MayWrite (d : Disk) (y : Extent) : Prop :=
  y.id = d.startOfWipFast.id ∧ d.startOfWipFast.offset ≤ y.offset ∨
    y.id = d.startOfWipSlow.id ∧ d.startOfWipSlow.offset ≤ y.offset ∨ y.id ∈ d.free

def Overlap (x y : Extent) : Prop := x.id = y.id ∧ x.offset < y.offset + y.size ∧ y.offset < x.offset + x.size

/-- A database on a disk. -/
structure WellFormed (d : Disk) : Prop where
  capacity_page : diskPageSize ∣ d.capacity
  capacity_le : d.capacity ≤ 2 ^ 28
  nodup : (d.fast ++ d.slow ++ d.free).Nodup
  fast_last : d.fast.getLast? = some d.startOfWipFast.id
  slow_last : d.slow.getLast? = some d.startOfWipSlow.id
  wipFast_lt : d.startOfWipFast.offset < d.capacity
  wipSlow_lt : d.startOfWipSlow.offset < d.capacity
  written : d.WritersFit
  size_le : ∀ id, d.chunkSize id ≤ d.capacity
  max : ∀ v o, d.history.roots v = some o → ∃ top, d.history.max = some top ∧ v ≤ top
  root : ∀ v o, d.history.roots v = some o → ∃ size, 0 < size ∧ ⟨o.id.toNat, o.offset.toNat, size⟩ ∈ d.nodes o ∧
    o.offset.toNat + size ≤ roundDownToPage o.offset.toNat + o.bytesToRead
  holds : ∀ v o x, d.history.roots v = some o → x ∈ d.nodes o → d.Holds x

/-! ## What rewinding is for -/

/-- Rewinding works: it completes, the versions that stay are the earlier ones with their roots, and their
nodes stay where nothing is written next. -/
def Rewinds (d : Disk) (version : Nat) : Prop :=
  ∃ d', d.rewindToVersion version = some d' ∧
    (∀ w, d'.history.roots w = if version < w then none else d.history.roots w) ∧
    ∀ w o x, d'.history.roots w = some o → x ∈ d.nodes o → d'.Holds x ∧ ∀ y, d'.MayWrite y → ¬Overlap x y

/-- The root ends inside its chunk, and no version that stays has nodes behind it. -/
def RootIsLast (d : Disk) (version : Nat) (o : ChunkOffset) : Prop :=
  ∃ e, rootEnd o = some e ∧ e ≤ d.chunkSize o.id.toNat ∧ (d.onFile → e < d.capacity) ∧
    ∀ w o' x, w ≤ version → d.history.roots w = some o' → x ∈ d.nodes o' → x.id ∈ d.fast →
      Before d.fast ⟨o.id.toNat, e⟩ x

/-- The root ends inside its chunk: in front of the largest offset, in the bytes that have been written, and on
a file before the end of the chunk. -/
structure EndsInside (d : Disk) (o : ChunkOffset) : Prop where
  max : o.offset.toNat + o.bytesToRead ≤ maxOffset
  written : roundDownToPage (o.offset.toNat + o.bytesToRead) ≤ d.chunkSize o.id.toNat
  file : d.onFile → roundDownToPage (o.offset.toNat + o.bytesToRead) < d.capacity

/-! ## Lists of chunks -/

variable {chunks : List Nat} {id x : Nat} {p : Place}

theorem mem_keptUpTo (hx : x ∈ chunks) : x ∈ keptUpTo chunks id ↔ chunks.idxOf x ≤ chunks.idxOf id := by
  unfold keptUpTo
  rw [mem_take_iff_idxOf_lt hx, Nat.lt_succ_iff]

theorem mem_of_mem_keptUpTo (hx : x ∈ keptUpTo chunks id) : x ∈ chunks := mem_of_mem_take hx

theorem mem_of_mem_freedAfter (hx : x ∈ freedAfter chunks id) : x ∈ chunks := mem_of_mem_drop (mem_reverse.mp hx)

theorem idxOf_keptUpTo (hx : x ∈ keptUpTo chunks id) : (keptUpTo chunks id).idxOf x = chunks.idxOf x := by
  have happ : keptUpTo chunks id ++ chunks.drop (chunks.idxOf id + 1) = chunks := take_append_drop _ _
  conv_rhs => rw [← happ]
  exact (idxOf_append_of_mem hx).symm

theorem self_mem_keptUpTo (h : id ∈ chunks) : id ∈ keptUpTo chunks id := (mem_keptUpTo h).mpr (le_refl _)

theorem keptUpTo_disjoint (hn : chunks.Nodup) (hk : x ∈ keptUpTo chunks id) : x ∉ freedAfter chunks id := by
  intro hf
  have happ : keptUpTo chunks id ++ chunks.drop (chunks.idxOf id + 1) = chunks := take_append_drop _ _
  rw [← happ, nodup_append] at hn
  exact hn.2.2 x hk x (mem_reverse.mp hf) rfl

/-- Cutting a list back to the chunk of a place keeps what lies before the place, and nothing else does. -/
theorem before_keptUpTo (hp : p.id ∈ chunks) (x : Extent) :
    Before (keptUpTo chunks p.id) p x ↔ Before chunks p x := by
  have hself := idxOf_keptUpTo (self_mem_keptUpTo hp)
  constructor
  · rintro ⟨hx, h⟩
    rw [hself, idxOf_keptUpTo hx] at h
    exact ⟨mem_of_mem_keptUpTo hx, h⟩
  · rintro ⟨hx, h⟩
    have hle : chunks.idxOf x.id ≤ chunks.idxOf p.id := by
      rcases h with h | ⟨h, -⟩
      · exact le_of_lt h
      · rw [h]
    have hk := (mem_keptUpTo hx).mpr hle
    refine ⟨hk, ?_⟩
    rw [hself, idxOf_keptUpTo hk]
    exact h

theorem before_mem_kept {x : Extent} (hb : Before chunks p x) : x.id ∈ keptUpTo chunks p.id := by
  obtain ⟨hx, hb⟩ := hb
  refine (mem_keptUpTo hx).mpr ?_
  rcases hb with hlt | ⟨he, -⟩
  · exact le_of_lt hlt
  · rw [he]

theorem not_overlap_of_before {x y : Extent} (hb : Before chunks p x) (hid : y.id = p.id)
    (hoff : p.offset ≤ y.offset) : ¬Overlap x y := by
  rintro ⟨he, hl, hr⟩
  rcases hb.2 with hlt | ⟨-, hle⟩
  · rw [he, hid] at hlt
    exact lt_irrefl _ hlt
  · omega

/-! ## What the cut leaves -/

/-- The database after the lists have been cut back. -/
def rewound (d : Disk) : Disk := (d.freeTails.trimmed d.startOfWipFast).trimmed d.startOfWipSlow

/-- The places of the next writes are on their lists, and no chunk is on two lists. -/
structure Listed (d : Disk) : Prop where
  fast : d.startOfWipFast.id ∈ d.fast
  slow : d.startOfWipSlow.id ∈ d.slow
  nodup : (d.fast ++ d.slow ++ d.free).Nodup

namespace Listed

variable {d : Disk} (h : d.Listed)

include h

theorem fast_nodup : d.fast.Nodup := (List.nodup_append.mp (List.nodup_append.mp h.nodup).1).1

theorem slow_nodup : d.slow.Nodup := (List.nodup_append.mp (List.nodup_append.mp h.nodup).1).2.1

variable {x : Nat}

theorem notMem_slow (hx : x ∈ d.fast) : x ∉ d.slow := fun hs =>
  (nodup_append.mp (nodup_append.mp h.nodup).1).2.2 x hx x hs rfl

theorem fast_notMem_free (hx : x ∈ d.fast) : x ∉ d.free := fun hf =>
  (nodup_append.mp h.nodup).2.2 x (mem_append_left _ hx) x hf rfl

theorem slow_notMem_free (hx : x ∈ d.slow) : x ∉ d.free := fun hf =>
  (nodup_append.mp h.nodup).2.2 x (mem_append_right _ hx) x hf rfl

theorem wip_ne : d.startOfWipSlow.id ≠ d.startOfWipFast.id := fun he => h.notMem_slow h.fast (he ▸ h.slow)

theorem chunkSize_freeTails_fast : d.freeTails.chunkSize d.startOfWipFast.id = d.chunkSize d.startOfWipFast.id := by
  refine if_neg ?_
  rintro (hf | hf)
  · exact keptUpTo_disjoint h.fast_nodup (self_mem_keptUpTo h.fast) hf
  · exact h.notMem_slow h.fast (mem_of_mem_freedAfter hf)

theorem chunkSize_freeTails_slow : d.freeTails.chunkSize d.startOfWipSlow.id = d.chunkSize d.startOfWipSlow.id := by
  refine if_neg ?_
  rintro (hf | hf)
  · exact h.notMem_slow (mem_of_mem_freedAfter hf) h.slow
  · exact keptUpTo_disjoint h.slow_nodup (self_mem_keptUpTo h.slow) hf

theorem chunkSize_trimmed_slow : (d.freeTails.trimmed d.startOfWipFast).chunkSize d.startOfWipSlow.id =
    d.chunkSize d.startOfWipSlow.id :=
  (update_of_ne h.wip_ne _ _).trans h.chunkSize_freeTails_slow

theorem chunkSize_rewound_fast : d.rewound.chunkSize d.startOfWipFast.id =
    min (d.chunkSize d.startOfWipFast.id) d.startOfWipFast.offset := by
  have hne := h.wip_ne.symm
  have hstep : d.rewound.chunkSize d.startOfWipFast.id =
      (d.freeTails.trimmed d.startOfWipFast).chunkSize d.startOfWipFast.id :=
    update_of_ne hne _ _
  rw [hstep, ← h.chunkSize_freeTails_fast]
  exact update_self _ _ _

theorem chunkSize_rewound_slow : d.rewound.chunkSize d.startOfWipSlow.id =
    min (d.chunkSize d.startOfWipSlow.id) d.startOfWipSlow.offset := by
  rw [← h.chunkSize_trimmed_slow]
  exact update_self _ _ _

theorem writersFit_rewound : d.rewound.WritersFit ↔ d.WritersFit := by
  have hfast := h.chunkSize_rewound_fast
  have hslow := h.chunkSize_rewound_slow
  change d.startOfWipFast.offset ≤ d.rewound.chunkSize d.startOfWipFast.id ∧
    d.startOfWipSlow.offset ≤ d.rewound.chunkSize d.startOfWipSlow.id ↔ _
  rw [hfast, hslow, le_min_iff, le_min_iff]
  constructor
  · rintro ⟨⟨hf, -⟩, hs, -⟩
    exact ⟨hf, hs⟩
  · rintro ⟨hf, hs⟩
    exact ⟨⟨hf, le_refl _⟩, hs, le_refl _⟩

theorem tryTrimContents_fast : d.freeTails.tryTrimContents d.startOfWipFast =
    if d.onFile ∧ d.capacity - min (d.chunkSize d.startOfWipFast.id) d.startOfWipFast.offset = 0 then none
    else some (d.freeTails.trimmed d.startOfWipFast) := by
  unfold tryTrimContents
  rw [h.chunkSize_freeTails_fast]
  rfl

theorem tryTrimContents_slow : (d.freeTails.trimmed d.startOfWipFast).tryTrimContents d.startOfWipSlow =
    if d.onFile ∧ d.capacity - min (d.chunkSize d.startOfWipSlow.id) d.startOfWipSlow.offset = 0 then none
    else some d.rewound := by
  unfold tryTrimContents
  rw [h.chunkSize_trimmed_slow]
  rfl

/-- The cut is made when the last root is behind the places, they lie in the bytes that have been written, and
on a file none of them is the end of its chunk. -/
theorem rewindToMatchOffsets_eq (hb : d.LastRootBehind) (hw : d.WritersFit)
    (he : d.onFile → d.startOfWipFast.offset < d.capacity ∧ d.startOfWipSlow.offset < d.capacity) :
    d.rewindToMatchOffsets = some d.rewound := by
  have hfast := h.tryTrimContents_fast
  have hslow := h.tryTrimContents_slow
  rw [min_eq_right hw.1, if_neg fun hx => sub_ne_zero_of_lt (he hx.1).1 hx.2] at hfast
  rw [min_eq_right hw.2, if_neg fun hx => sub_ne_zero_of_lt (he hx.1).2 hx.2] at hslow
  unfold rewindToMatchOffsets
  rw [if_pos ⟨h.fast, h.slow, hb⟩, hfast]
  change ((d.freeTails.trimmed d.startOfWipFast).tryTrimContents d.startOfWipSlow).bind _ = _
  rw [hslow]
  exact if_pos (h.writersFit_rewound.mpr hw)

/-- Nothing else than that is a cut. -/
theorem of_rewindToMatchOffsets {d' : Disk} (hr : d.rewindToMatchOffsets = some d') :
    d' = d.rewound ∧ d.WritersFit ∧ (d.onFile → d.startOfWipFast.offset < d.capacity) := by
  unfold rewindToMatchOffsets at hr
  split at hr
  · obtain ⟨d1, h1, hr⟩ := bind_eq_some_iff.mp hr
    rw [h.tryTrimContents_fast] at h1
    split at h1
    · cases h1
    rename_i htrim
    cases h1
    obtain ⟨d2, h2, hr⟩ := bind_eq_some_iff.mp hr
    have h2 : (d.freeTails.trimmed d.startOfWipFast).tryTrimContents d.startOfWipSlow = some d2 := h2
    rw [h.tryTrimContents_slow] at h2
    split at h2
    · cases h2
    cases h2
    split at hr
    · rename_i hw
      cases hr
      have hw := h.writersFit_rewound.mp hw
      refine ⟨rfl, hw, fun hfile => ?_⟩
      rw [Nat.min_eq_right hw.1] at htrim
      by_contra hlt
      exact htrim ⟨hfile, Nat.sub_eq_zero_of_le (Nat.not_lt.mp hlt)⟩
    · cases hr
  · cases hr

/-! ## Where nothing is written -/

theorem holds_rewound (x : Extent) : d.rewound.Holds x ↔ d.Holds x :=
  or_congr (before_keptUpTo h.fast x) (before_keptUpTo h.slow x)

/-- What lies before the places is not touched by the next write. -/
theorem not_overlap {x y : Extent} (hx : d.Holds x) (hy : d.rewound.MayWrite y) : ¬Overlap x y := by
  have hne : ∀ {z : Nat}, x.id ≠ z → y.id = z → ¬Overlap x y := fun hz hyz ho => hz (ho.1.trans hyz)
  have hfree : y.id ∈ d.rewound.free → y.id ∈ d.free ∨ y.id ∈ freedAfter d.fast d.startOfWipFast.id ∨
      y.id ∈ freedAfter d.slow d.startOfWipSlow.id := by
    intro hf
    rcases mem_append.mp hf with hf | hf
    · rcases mem_append.mp hf with hf | hf
      · exact .inl hf
      · exact .inr (.inl hf)
    · exact .inr (.inr hf)
  rcases hx with hx | hx
  · rcases hy with ⟨hid, hoff⟩ | ⟨hid, -⟩ | hf
    · exact not_overlap_of_before hx hid hoff
    · exact hne (fun he => h.notMem_slow hx.1 (he ▸ h.slow)) hid
    intro ho
    rcases hfree hf with hf | hf | hf
    · exact h.fast_notMem_free hx.1 (ho.1 ▸ hf)
    · exact keptUpTo_disjoint h.fast_nodup (before_mem_kept hx) (ho.1 ▸ hf)
    · exact h.notMem_slow hx.1 (ho.1 ▸ mem_of_mem_freedAfter hf)
  · rcases hy with ⟨hid, -⟩ | ⟨hid, hoff⟩ | hf
    · exact hne (fun he : x.id = d.startOfWipFast.id => h.notMem_slow h.fast (he ▸ hx.1)) hid
    · exact not_overlap_of_before hx hid hoff
    intro ho
    rcases hfree hf with hf | hf | hf
    · exact h.slow_notMem_free hx.1 (ho.1 ▸ hf)
    · exact h.notMem_slow (mem_of_mem_freedAfter hf) (ho.1.symm ▸ hx.1)
    · exact keptUpTo_disjoint h.slow_nodup (before_mem_kept hx) (ho.1 ▸ hf)

end Listed

/-! ## The end of a root -/

variable {o : ChunkOffset} {e : Nat}

theorem rootEnd_eq_some (h : rootEnd o = some e) :
    o.offset.toNat + o.bytesToRead ≤ maxOffset ∧ e = roundDownToPage (o.offset.toNat + o.bytesToRead) := by
  obtain ⟨n, hn, rfl⟩ := map_eq_some_iff.mp h
  unfold ChunkOffset.addToOffset at hn
  split at hn
  · rename_i hle
    cases hn
    exact ⟨hle, rfl⟩
  · cases hn

theorem rootEnd_of_le (h : o.offset.toNat + o.bytesToRead ≤ maxOffset) :
    rootEnd o = some (roundDownToPage (o.offset.toNat + o.bytesToRead)) := by
  unfold rootEnd ChunkOffset.addToOffset
  rw [if_pos h, map_some]

/-- A place that is rounded down to a page never is the largest offset: the carry is never made. -/
theorem afterRoot_eq (h : rootEnd o = some e) (d : Disk) : d.afterRoot o e = ⟨o.id.toNat, e⟩ := by
  obtain ⟨hle, rfl⟩ := rootEnd_eq_some h
  refine if_neg ?_
  unfold roundDownToPage maxOffset diskPageSize at *
  omega

theorem offset_lt_rootEnd {size : Nat} (h : rootEnd o = some e) (hpos : 0 < size)
    (hcover : o.offset.toNat + size ≤ roundDownToPage o.offset.toNat + o.bytesToRead) : o.offset.toNat < e := by
  obtain ⟨-, rfl⟩ := rootEnd_eq_some h
  have hpages : o.bytesToRead % 512 = 0 := by
    unfold ChunkOffset.bytesToRead diskPageSize
    omega
  unfold roundDownToPage diskPageSize at *
  omega

/-! ## When rewinding works -/

namespace WellFormed

variable {d : Disk} (h : d.WellFormed) {version : Nat} {o : ChunkOffset} (hv : d.history.roots version = some o)

include h

theorem listed : d.Listed := ⟨mem_of_getLast? h.fast_last, mem_of_getLast? h.slow_last, h.nodup⟩

variable {p : Place}

theorem listed_placed (hp : p.id ∈ d.fast) : (d.placed version p).Listed := ⟨hp, h.listed.slow, h.nodup⟩

omit h in
theorem lastRootBehind_placed (hv : d.history.roots version = some o) : (d.placed version p).LastRootBehind ↔
    if o.id.toNat ∈ d.fast then virtualLt d.fast ⟨o.id.toNat, o.offset.toNat⟩ p
    else o.id.toNat ∈ d.slow ∧ virtualLt d.slow ⟨o.id.toNat, o.offset.toNat⟩ d.startOfWipSlow := by
  have hroot : (d.placed version p).history.max.bind (d.placed version p).history.roots = some o := by
    change (if version < version then none else d.history.roots version) = some o
    rw [if_neg (Nat.lt_irrefl version), hv]
  unfold LastRootBehind
  rw [hroot]
  rfl

omit h in
/-- A cut that keeps the nodes of the versions that stay is what rewinding is for. -/
theorem rewinds_of_placed (hl : (d.placed version p).Listed)
    (hr : d.rewindToVersion version = some (d.placed version p).rewound)
    (hx : ∀ w o x, w ≤ version → d.history.roots w = some o → x ∈ d.nodes o → (d.placed version p).Holds x) :
    d.Rewinds version := by
  refine ⟨_, hr, fun w => rfl, ?_⟩
  intro w o x hw hmem
  have hw : (if version < w then none else d.history.roots w) = some o := hw
  split at hw
  · cases hw
  rename_i hle
  have hhs := hx w o x (Nat.not_lt.mp hle) hw hmem
  exact ⟨(hl.holds_rewound x).mpr hhs, fun y hy => hl.not_overlap hhs hy⟩

include hv

theorem rewinds_max (hmax : d.history.max = some version) : d.Rewinds version := by
  have hr : d.rewindToVersion version = some d := by
    unfold rewindToVersion
    rw [hv]
    exact if_pos hmax
  refine ⟨d, hr, ?_, ?_⟩
  · intro w
    split
    · rename_i hlt
      cases hw : d.history.roots w with
      | none => rfl
      | some o' =>
        obtain ⟨top, htop, hle⟩ := h.max w o' hw
        have heq : version = top := Option.some.inj (hmax.symm.trans htop)
        omega
    · rfl
  · intro w o' x hw hx
    have hhs := h.holds w o' x hw hx
    refine ⟨hhs, fun y hy => h.listed.not_overlap hhs ?_⟩
    rcases hy with hy | hy | hy
    · exact .inl hy
    · exact .inr (.inl hy)
    · exact .inr (.inr (mem_append_left _ (mem_append_left _ hy)))

/-- A root that was written to the slow list leaves the places of the next writes where they are. -/
theorem rewinds_slow (hmax : d.history.max ≠ some version) (hslow : o.id.toNat ∉ d.fast) : d.Rewinds version := by
  have hl : (d.placed version d.startOfWipFast).Listed := h.listed_placed h.listed.fast
  obtain ⟨size, hpos, hmem, -⟩ := h.root version o hv
  have hb : (d.placed version d.startOfWipFast).LastRootBehind := by
    rw [lastRootBehind_placed hv, if_neg hslow]
    rcases h.holds version o _ hv hmem with hb | ⟨hin, hb⟩
    · exact absurd hb.1 hslow
    refine ⟨hin, hb.imp_right ?_⟩
    rintro ⟨hid, hle⟩
    exact ⟨hid, Nat.lt_of_lt_of_le (Nat.lt_add_of_pos_right hpos) hle⟩
  have hr : d.rewindToVersion version = some (d.placed version d.startOfWipFast).rewound := by
    unfold rewindToVersion
    rw [hv]
    simp only [if_neg hmax, if_neg hslow]
    exact hl.rewindToMatchOffsets_eq hb h.written fun _ => ⟨h.wipFast_lt, h.wipSlow_lt⟩
  exact rewinds_of_placed hl hr fun w o' x _ hw hx => h.holds w o' x hw hx

omit h in
theorem rewindToVersion_fast (hmax : d.history.max ≠ some version) (hfast : o.id.toNat ∈ d.fast) :
    d.rewindToVersion version =
      (rootEnd o).bind fun e => (d.placed version ⟨o.id.toNat, e⟩).rewindToMatchOffsets := by
  unfold rewindToVersion
  rw [hv]
  simp only [if_neg hmax, if_pos hfast]
  cases he : rootEnd o with
  | none => rfl
  | some e =>
    change (d.placed version (d.afterRoot o e)).rewindToMatchOffsets = _
    rw [afterRoot_eq he]
    rfl

section

variable (hmax : d.history.max ≠ some version) (hfast : o.id.toNat ∈ d.fast)

include hmax hfast

theorem rewindToVersion_eq (he : rootEnd o = some e) (hsize : e ≤ d.chunkSize o.id.toNat)
    (hend : d.onFile → e < d.capacity) :
    d.rewindToVersion version = some (d.placed version ⟨o.id.toNat, e⟩).rewound := by
  have hl : (d.placed version ⟨o.id.toNat, e⟩).Listed := h.listed_placed hfast
  obtain ⟨size, hpos, -, hcover⟩ := h.root version o hv
  have hb : (d.placed version ⟨o.id.toNat, e⟩).LastRootBehind := by
    rw [lastRootBehind_placed hv, if_pos hfast]
    exact .inr ⟨rfl, offset_lt_rootEnd he hpos hcover⟩
  rw [rewindToVersion_fast hv hmax hfast, he]
  exact hl.rewindToMatchOffsets_eq hb ⟨hsize, h.written.2⟩ fun hfile => ⟨hend hfile, h.wipSlow_lt⟩

theorem of_rewindToVersion {d' : Disk} (hr : d.rewindToVersion version = some d') :
    ∃ e, rootEnd o = some e ∧ e ≤ d.chunkSize o.id.toNat ∧ (d.onFile → e < d.capacity) ∧
      d' = (d.placed version ⟨o.id.toNat, e⟩).rewound := by
  rw [rewindToVersion_fast hv hmax hfast] at hr
  obtain ⟨e, he, hr⟩ := bind_eq_some_iff.mp hr
  have hl : (d.placed version ⟨o.id.toNat, e⟩).Listed := h.listed_placed hfast
  obtain ⟨hd', hfit, hend⟩ := hl.of_rewindToMatchOffsets hr
  exact ⟨e, he, hfit.1, hend, hd'⟩

theorem rewinds_fast (hlast : d.RootIsLast version o) : d.Rewinds version := by
  obtain ⟨e, he, hsize, hend, hbef⟩ := hlast
  refine rewinds_of_placed (h.listed_placed hfast) (h.rewindToVersion_eq hv hmax hfast he hsize hend) ?_
  intro w o' x hle hw hx
  rcases h.holds w o' x hw hx with hin | hin
  · exact .inl (hbef w o' x hle hw hx hin.1)
  · exact .inr hin

theorem rootIsLast_of_rewinds (hr : d.Rewinds version) : d.RootIsLast version o := by
  obtain ⟨d', hr, hrts, hhs⟩ := hr
  obtain ⟨e, he, hsize, hend, rfl⟩ := h.of_rewindToVersion hv hmax hfast hr
  have hl : (d.placed version ⟨o.id.toNat, e⟩).Listed := h.listed_placed hfast
  refine ⟨e, he, hsize, hend, ?_⟩
  intro w o' x hle hw hx hin
  have hw' := hrts w
  rw [if_neg (not_lt.mpr hle), hw] at hw'
  -- what the cut keeps on the fast list is not kept by the slow one
  rcases (hl.holds_rewound x).mp (hhs w o' x hw' hx).1 with hb | hb
  · exact hb
  · exact absurd hb.1 (h.listed.notMem_slow hin)

end

/-- Rewinding completes exactly when the root was written to the slow list or ends inside its chunk. -/
theorem rewindToVersion_isSome (hmax : d.history.max ≠ some version) :
    (d.rewindToVersion version).isSome ↔ o.id.toNat ∈ d.fast → d.EndsInside o := by
  constructor
  · intro hsome hfast
    obtain ⟨d', hr⟩ := isSome_iff_exists.mp hsome
    obtain ⟨e, he, hsize, hend, -⟩ := h.of_rewindToVersion hv hmax hfast hr
    obtain ⟨hle, rfl⟩ := rootEnd_eq_some he
    exact ⟨hle, hsize, hend⟩
  · intro hinside
    by_cases hfast : o.id.toNat ∈ d.fast
    · obtain ⟨hle, hsize, hend⟩ := hinside hfast
      rw [h.rewindToVersion_eq hv hmax hfast (rootEnd_of_le hle) hsize hend]
      rfl
    · obtain ⟨d', hr, -⟩ := h.rewinds_slow hv hmax hfast
      rw [hr]
      rfl

end WellFormed

/-- Rewinding to a valid version works exactly when it is the last one, or its root was written to the slow
list, or the root ends inside its chunk and no version that stays has nodes behind it. -/
theorem rewinds_iff {d : Disk} (h : d.WellFormed) {version : Nat} {o : ChunkOffset}
    (hv : d.history.roots version = some o) :
    d.Rewinds version ↔ d.history.max = some version ∨ o.id.toNat ∉ d.fast ∨ d.RootIsLast version o := by
  constructor
  · intro hr
    by_cases hmax : d.history.max = some version
    · exact .inl hmax
    by_cases hfast : o.id.toNat ∈ d.fast
    · exact .inr (.inr (h.rootIsLast_of_rewinds hv hmax hfast hr))
    · exact .inr (.inl hfast)
  · intro hcond
    by_cases hmax : d.history.max = some version
    · exact h.rewinds_max hv hmax
    by_cases hfast : o.id.toNat ∈ d.fast
    · rcases hcond with heq | hnot | hlast
      · exact absurd heq hmax
      · exact absurd hfast hnot
      · exact h.rewinds_fast hv hmax hfast hlast
    · exact h.rewinds_slow hv hmax hfast

/-! ## Small databases -/

/-- A database on a file whose versions each are one node of a hundred bytes, on the first two chunks. -/
def sample (capacity : Nat) (roots : List ChunkOffset) (wip : Place) (chunkSize : Nat → Nat) : Disk where
  capacity := capacity
  onFile := true
  history := ⟨fun v => roots[v]?, some (roots.length - 1), 8⟩
  fast := [0, 1]
  slow := [2]
  free := [3]
  startOfWipFast := wip
  startOfWipSlow := ⟨2, 0⟩
  chunkSize := chunkSize
  nodes := fun o => [⟨o.id.toNat, o.offset.toNat, 100⟩]

/-- A root of one page. -/
def rootAt (id : BitVec 20) (offset : BitVec 28) : ChunkOffset := ⟨id, offset, 1⟩

theorem sample_wellFormed {capacity : Nat} {roots : List ChunkOffset} {wip : Place} {chunkSize : Nat → Nat}
    (hc : diskPageSize ∣ capacity ∧ capacity ≤ 2 ^ 28) (hwip : wip.id = 1 ∧ wip.offset < capacity)
    (hsize : wip.offset ≤ chunkSize 1 ∧ ∀ id, chunkSize id ≤ capacity)
    (hroot : ∀ o ∈ roots, o.offset.toNat + 100 ≤ roundDownToPage o.offset.toNat + o.bytesToRead ∧
      Before [0, 1] wip ⟨o.id.toNat, o.offset.toNat, 100⟩) :
    (sample capacity roots wip chunkSize).WellFormed where
  capacity_page := hc.1
  capacity_le := hc.2
  nodup := by
    change ([0, 1] ++ [2] ++ [3] : List Nat).Nodup
    decide
  fast_last := by
    change some 1 = some wip.id
    rw [hwip.1]
  slow_last := rfl
  wipFast_lt := hwip.2
  wipSlow_lt := lt_of_le_of_lt (zero_le _) hwip.2
  written := by
    refine ⟨?_, zero_le _⟩
    change wip.offset ≤ chunkSize wip.id
    rw [hwip.1]
    exact hsize.1
  size_le := hsize.2
  max := by
    intro v o hv
    obtain ⟨hlt, -⟩ := List.getElem?_eq_some_iff.mp hv
    exact ⟨roots.length - 1, rfl, by omega⟩
  root := by
    intro v o hv
    exact ⟨100, by decide, mem_singleton_self _, (hroot o (mem_of_getElem? hv)).1⟩
  holds := by
    intro v o x hv hx
    cases mem_singleton.mp hx
    exact .inl (hroot o (mem_of_getElem? hv)).2

/-- Two versions in their order. -/
def inOrder : Disk := sample 4096 [rootAt 0 0, rootAt 1 0] ⟨1, 512⟩ fun id => if id = 1 then 512 else 4096

theorem inOrder_wellFormed : inOrder.WellFormed := by
  refine sample_wellFormed (by decide) (by decide) ⟨by decide, fun id => ?_⟩ (by decide)
  split <;> decide

theorem rewinds_iff_inOrder : inOrder.WellFormed ∧ inOrder.Rewinds 0 := by
  have hroot : inOrder.history.roots 0 = some (rootAt 0 0) := rfl
  refine ⟨inOrder_wellFormed, (rewinds_iff inOrder_wellFormed hroot).mpr (.inr (.inr ?_))⟩
  refine ⟨512, by decide, by decide, fun _ => by decide, ?_⟩
  intro w o' x hw ho hx _
  cases Nat.le_zero.mp hw
  cases ho
  cases mem_singleton.mp hx
  decide

/-- The first root is the last page of its chunk, which is as large as chunks are. -/
def endOfChunk : Disk :=
  sample (2 ^ 28) [rootAt 0 (2 ^ 28 - 512), rootAt 1 0] ⟨1, 512⟩ fun id => if id = 1 then 512 else 2 ^ 28

/-- Version `0` was written again after version `1`. -/
def writtenAgain : Disk :=
  sample 4096 [rootAt 1 0, rootAt 0 0, rootAt 1 512] ⟨1, 1024⟩ fun id => if id = 1 then 1024 else 4096

theorem endOfChunk_wellFormed : endOfChunk.WellFormed := by
  refine sample_wellFormed (by decide +kernel) (by decide) ⟨by decide, fun id => ?_⟩ (by decide +kernel)
  split <;> decide

theorem writtenAgain_wellFormed : writtenAgain.WellFormed := by
  refine sample_wellFormed (by decide) (by decide) ⟨by decide, fun id => ?_⟩ (by decide)
  split <;> decide

/-- Rewinding to a root at the end of a chunk aborts, and rewinding to a version before which another one was
written again gives that one's nodes away. -/
theorem rewind_fails :
    (endOfChunk.WellFormed ∧ (endOfChunk.history.roots 0).isSome ∧ endOfChunk.rewindToVersion 0 = none) ∧
      writtenAgain.WellFormed ∧ (writtenAgain.history.roots 1).isSome ∧ ¬writtenAgain.Rewinds 1 := by
  refine ⟨⟨endOfChunk_wellFormed, rfl, by decide⟩, writtenAgain_wellFormed, rfl, ?_⟩
  intro hr
  obtain ⟨e, he, -, -, hlast⟩ :=
    writtenAgain_wellFormed.rootIsLast_of_rewinds (o := rootAt 0 0) rfl (by decide) (by decide) hr
  have hend : rootEnd (rootAt 0 0) = some 512 := by decide
  cases Option.some.inj (hend.symm.trans he)
  have hbef := hlast 0 (rootAt 1 0) ⟨1, 0, 100⟩ (by decide) rfl (mem_singleton_self _) (by decide)
  revert hbef
  decide

end Disk

end MonadExecution.Mpt
