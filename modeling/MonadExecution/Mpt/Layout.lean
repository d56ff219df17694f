import MonadExecution.Mpt.Metadata
import MonadExecution.Mpt.Window

/-!
# Where the rings lie

A ring is spread over the chunks that its header lists. As long as these are mapped and distinct,
writing a ring back and reading it again gives the same ring, so that a program on the ring of a copy
can be reasoned about as a program on the ring alone.
-/

namespace MonadExecution.Mpt

open Stores List Option Nat

namespace MetadataCopy

variable {pool : StoragePool} {idx : RingIdx} {c : MetadataCopy} {r : Ring}

/-- The chunks that a header maps. -/
def mapping (m : DbMetadata) : RingIdx → Nat → Option Nat := fun idx k =>
  if k < (m.ring idx).cnvChunksLen then (m.ring idx).cnvChunks k else none

/-- The chunks of a ring are mapped, all different, and of the right size. -/
structure Laid (pool : StoragePool) (idx : RingIdx) (c : MetadataCopy) : Prop where
  mapped : c.Mapped idx
  distinct : ∀ k < (c.main.ring idx).cnvChunksLen, ∀ k' < (c.main.ring idx).cnvChunksLen,
    c.span idx k = c.span idx k' → k = k'
  sized : ∀ id, (c.cnv id).length = pool.entriesPerChunk

theorem length_flatMap {e : Nat} (f : Nat → List ChunkOffset) (n : Nat)
    (h : ∀ k < n, (f k).length = e) : ((range n).flatMap f).length = n * e := by
  induction n with
  | zero => simp
  | succ n ih =>
    rw [range_succ, flatMap_append, length_append,
      ih fun k hk => h k (lt_succ_of_lt hk), flatMap_singleton, h n (lt_succ_self n),
      succ_mul]

/-- Cutting a list into pieces of one length and putting them together again. -/
theorem flatMap_take_drop (l : List ChunkOffset) (e n : Nat) :
    (range n).flatMap (fun k => (l.drop (k * e)).take e) = l.take (n * e) := by
  induction n with
  | zero => simp
  | succ n ih => rw [range_succ, flatMap_append, ih, flatMap_singleton, succ_mul, take_add]

theorem Laid.capacity (h : Laid pool idx c) :
    (c.ring idx).capacity = (c.main.ring idx).cnvChunksLen * pool.entriesPerChunk := by
  refine length_flatMap _ _ fun k hk => ?_
  obtain ⟨id, hid⟩ := isSome_iff_exists.mp (h.mapped k hk)
  rw [hid]
  exact h.sized id

theorem main_setRing (pool : StoragePool) (idx : RingIdx) (c : MetadataCopy) (r : Ring) :
    (c.setRing pool idx r).main.ring idx = { c.main.ring idx with
      versionLowerBound := r.versionLowerBound
      nextVersion := r.nextVersion } := by
  cases idx with
  | a => rfl
  | b => rfl

section

variable (h : Laid pool idx c)

include h

/-- A chunk of the ring after the ring has been written back. -/
theorem Laid.cnv_setRing {k id : Nat} (hk : k < (c.main.ring idx).cnvChunksLen) (hid : c.span idx k = some id) :
    (c.setRing pool idx r).cnv id = (r.slots.drop (k * pool.entriesPerChunk)).take pool.entriesPerChunk := by
  have hfind : (range (c.main.ring idx).cnvChunksLen).find? (fun k => c.span idx k = some id) = some k := by
    cases hfind : (range (c.main.ring idx).cnvChunksLen).find? fun k => decide (c.span idx k = some id) with
    | none =>
      have hnot := find?_eq_none.mp hfind k (mem_range.mpr hk)
      exact absurd (decide_eq_true hid) hnot
    | some k' =>
      have hk' := mem_range.mp (mem_of_find?_eq_some hfind)
      have hid' := find?_some hfind
      rw [decide_eq_true_eq] at hid'
      rw [h.distinct k hk k' hk' (hid.trans hid'.symm)]
  simp only [MetadataCopy.setRing, hfind]

theorem Laid.ring_setRing (hcap : r.capacity = (c.ring idx).capacity) : (c.setRing pool idx r).ring idx = r := by
  have hlen : (c.setRing pool idx r).main.ring idx = _ := main_setRing pool idx c r
  have hsls : ((c.setRing pool idx r).ring idx).slots = r.slots := by
    show (range ((c.setRing pool idx r).main.ring idx).cnvChunksLen).flatMap _ = _
    rw [hlen]
    have hpieces : ∀ k ∈ range (c.main.ring idx).cnvChunksLen,
        ((c.setRing pool idx r).span idx k).elim [] (c.setRing pool idx r).cnv =
          (r.slots.drop (k * pool.entriesPerChunk)).take pool.entriesPerChunk := by
      intro k hk
      obtain ⟨id, hid⟩ := isSome_iff_exists.mp (h.mapped k (mem_range.mp hk))
      have hspan : (c.setRing pool idx r).span idx k = some id := hid
      rw [hspan]
      exact h.cnv_setRing (mem_range.mp hk) hid
    rw [flatMap_def, map_congr_left hpieces, ← flatMap_def, flatMap_take_drop]
    refine take_of_length_le ?_
    rw [← h.capacity, ← hcap]
    exact le_rfl
  have hlo : ((c.setRing pool idx r).ring idx).versionLowerBound = r.versionLowerBound := by
    show ((c.setRing pool idx r).main.ring idx).versionLowerBound = _
    rw [hlen]
  have hnext : ((c.setRing pool idx r).ring idx).nextVersion = r.nextVersion := by
    show ((c.setRing pool idx r).main.ring idx).nextVersion = _
    rw [hlen]
  exact Ring.ext hlo hnext hsls

theorem Laid.setRing (hcap : r.capacity = (c.ring idx).capacity) : Laid pool idx (c.setRing pool idx r) := by
  have hlen : ((c.setRing pool idx r).main.ring idx).cnvChunksLen =
      (c.main.ring idx).cnvChunksLen := by rw [main_setRing]
  refine ⟨fun k hk => h.mapped k (hlen ▸ hk),
    fun k hk k' hk' => h.distinct k (hlen ▸ hk) k' (hlen ▸ hk'), fun id => ?_⟩
  by_cases hid : ∃ k < (c.main.ring idx).cnvChunksLen, c.span idx k = some id
  · obtain ⟨k, hk, hid⟩ := hid
    rw [h.cnv_setRing hk hid, length_take, length_drop]
    have hlength : r.slots.length = (c.main.ring idx).cnvChunksLen * pool.entriesPerChunk := hcap.trans h.capacity
    have hmul : (k + 1) * pool.entriesPerChunk ≤
        (c.main.ring idx).cnvChunksLen * pool.entriesPerChunk := mul_le_mul_right _ hk
    rw [succ_mul] at hmul
    omega
  · have hnone : (range (c.main.ring idx).cnvChunksLen).find? (fun k => c.span idx k = some id) = none := by
      refine find?_eq_none.mpr fun k hk hspan => hid ⟨k, mem_range.mp hk, ?_⟩
      exact of_decide_eq_true hspan
    simp only [MetadataCopy.setRing, hnone]
    exact h.sized id

theorem Laid.withDirty (dirty : Bool) : Laid pool idx (c.withDirty dirty) := by
  cases idx with
  | a => exact ⟨h.mapped, h.distinct, h.sized⟩
  | b => exact ⟨h.mapped, h.distinct, h.sized⟩

/-- A program on the ring of a copy does to the copy what it does to the ring. -/
theorem Laid.exec_onRing {α : Type} (hpow : (c.ring idx).Sized) (m : Stores Ring α) : exec (onRing pool idx m) c =
    (exec m (c.ring idx)).map fun s => (s.1, c.setRing pool idx s.2) := by
  obtain ⟨k, hk⟩ := hpow
  have hlog : (c.ring idx).capacity = 0 ∨ (c.ring idx).capacity = 2 ^ log2 (c.ring idx).capacity := by
    refine .inr ?_
    rw [hk, log2_two_pow]
  unfold onRing
  rw [exec_bind, exec_load, bind_some, exec_bind, exec_require, id_eq, if_pos h.mapped,
    bind_some, exec_bind, exec_require, if_pos hlog, bind_some, exec_focus]

end

end MetadataCopy

end MonadExecution.Mpt
