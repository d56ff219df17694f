import MonadExecution.Mpt.Metadata

/-!
# Do the two copies stay equal?

A call that runs one program on the first copy and then on the second keeps equal copies equal. All
calls are of this form except `update_root_offset`, whose condition for resetting the ring is read
from the first copy both times: when it erases the only version, the first copy is reset, then looks
empty, and the second copy is not reset any more. That is the only way in which the copies part.
-/

namespace MonadExecution.Mpt

open Stores MetadataCopy List Option

/-! ## Calls -/

/-- The calls of `DbMetadataContext` that change the metadata. -/
inductive Call where
  | appendRootOffset (o : ChunkOffset)
  | updateRootOffset (i : Nat) (o : ChunkOffset)
  | fastForwardNextVersion (v : Nat)
  | clearRootOffsetsUpToAndIncluding (v : Nat)
  | append (l : ChunkList) (i : Nat)
  | remove (i : Nat)
  | advanceDbOffsetsTo (fast slow : ChunkOffset)
  | setLatestFinalizedVersion (v : Nat)
  | setLatestVerifiedVersion (v : Nat)
  | setLatestVoted (v blockId : Nat)
  | setLatestProposed (v blockId : Nat)
  | setAutoExpireVersionMetadata (tid : TimelineId) (v : Int)
  | updateHistoryLengthMetadata (len : Nat)
  | activateSecondaryHeader
  | deactivateSecondaryHeader
  | promoteSecondaryToPrimaryHeader

def Call.run (pool : StoragePool) : Call → Stores DbMetadataContext Unit
  | appendRootOffset o => DbMetadataContext.appendRootOffset pool o
  | updateRootOffset i o => DbMetadataContext.updateRootOffset pool i o
  | fastForwardNextVersion v => DbMetadataContext.fastForwardNextVersion pool v
  | clearRootOffsetsUpToAndIncluding v => DbMetadataContext.clearRootOffsetsUpToAndIncluding pool v
  | append l i => DbMetadataContext.append pool l i
  | remove i => DbMetadataContext.remove pool i
  | advanceDbOffsetsTo fast slow => DbMetadataContext.advanceDbOffsetsTo fast slow
  | setLatestFinalizedVersion v => DbMetadataContext.setLatestFinalizedVersion v
  | setLatestVerifiedVersion v => DbMetadataContext.setLatestVerifiedVersion v
  | setLatestVoted v blockId => DbMetadataContext.setLatestVoted v blockId
  | setLatestProposed v blockId => DbMetadataContext.setLatestProposed v blockId
  | setAutoExpireVersionMetadata tid v => DbMetadataContext.setAutoExpireVersionMetadata tid v
  | updateHistoryLengthMetadata len => DbMetadataContext.updateHistoryLengthMetadata len
  | activateSecondaryHeader => DbMetadataContext.activateSecondaryHeader pool
  | deactivateSecondaryHeader => DbMetadataContext.deactivateSecondaryHeader pool
  | promoteSecondaryToPrimaryHeader => DbMetadataContext.promoteSecondaryToPrimaryHeader

namespace DbMetadataContext

/-- A pool as `init_new_pool` leaves it. -/
def Fresh (pool : StoragePool) (c : DbMetadataContext) : Prop :=
  ∃ historyLen, exec (initNewPool pool historyLen)
    { copy0 := newCopy pool, copy1 := newCopy pool } = some ((), c)

/-- A run of completed calls from a fresh pool, with the state before and after each call. -/
inductive Run (pool : StoragePool) :
    List (DbMetadataContext × Call × DbMetadataContext) → DbMetadataContext → Prop
  | fresh {c : DbMetadataContext} (h : Fresh pool c) : Run pool [] c
  | call {steps : List (DbMetadataContext × Call × DbMetadataContext)} {c c' : DbMetadataContext}
      (h : Run pool steps c) (call : Call) (hcall : exec (call.run pool) c = some ((), c')) :
      Run pool (steps ++ [(c, call, c')]) c'

/-- The copies hold the same, and restoring one from the other changes nothing. -/
structure Agree (c : DbMetadataContext) : Prop where
  header : c.copy0.main = c.copy1.main
  entries : ∀ idx v, (c.copy0.ring idx).versionLowerBound ≤ v → v < (c.copy0.ring idx).nextVersion →
    (c.copy0.ring idx).get v = (c.copy1.ring idx).get v
  restore0 : exec (onCopy0 (dbCopy c.copy1.main)) c = some ((), c)
  restore1 : exec (onCopy1 (dbCopy c.copy0.main)) c = some ((), c)

end DbMetadataContext

/-- The only version of the ring that can be looked up: the largest one, and below it only its own slot may
be valid. -/
structure Ring.Last (r : Ring) (i : Nat) : Prop where
  some : r.maxVersion ≠ invalidBlockNum
  largest : i = r.maxVersion
  low : r.versionLowerBound ≤ i
  rest : ∀ w, r.versionLowerBound ≤ w → w < i → r.position w ≠ r.position i → (r.get w).isInvalid

namespace DbMetadataContext

/-- The call takes the last version from the primary ring: it erases this version, or all up to the largest
one. -/
def Empties (c : DbMetadataContext) : Call → Prop
  | .updateRootOffset i o => o.isInvalid ∧ (c.rootOffsets .primary).Last i
  | .clearRootOffsetsUpToAndIncluding v => c.dbHistoryMaxVersion .primary ≠ invalidBlockNum ∧
    c.dbHistoryRangeLowerBound .primary ≤ c.dbHistoryMaxVersion .primary ∧ c.dbHistoryMaxVersion .primary ≤ v
  | _ => False

/-- The word `next_version_` of the primary ring has 64 bits. -/
def Fits (c : DbMetadataContext) : Prop := (c.rootOffsets .primary).nextVersion ≤ invalidBlockNum

/-! ## Equal and clean copies -/

/-- The copies are equal to the last bit, and not dirty. -/
structure Twin (c : DbMetadataContext) : Prop where
  same : c.copy0 = c.copy1
  clean : c.copy0.main.isDirty = false

/-- A completed run of the program leaves equal and clean copies equal and clean. -/
def Keeps {α : Type} (m : Stores DbMetadataContext α) : Prop := ∀ c a c', Twin c → exec m c = some (a, c') → Twin c'

/-- A completed run of the program on one copy leaves it clean. -/
def Cleans (m : Stores MetadataCopy Unit) : Prop := ∀ c c', exec m c = some ((), c') → c'.main.isDirty = false

section Rules

variable {α β ι : Type}

theorem Keeps.pure {a : α} : Keeps (pure a) := by
  intro c a' c' hc h
  cases h
  exact hc

theorem Keeps.load {f : DbMetadataContext → α} : Keeps (load f) := by
  intro c a c' hc h
  cases h
  exact hc

theorem Keeps.require {p : Prop} [Decidable p] : Keeps (require p) := by
  intro c a c' hc h
  rw [exec_require] at h
  split_ifs at h
  cases h
  exact hc

theorem Keeps.bind {m : Stores DbMetadataContext α} {k : α → Stores DbMetadataContext β}
    (hm : Keeps m) (hk : ∀ {a}, Keeps (k a)) : Keeps (m >>= k) := by
  intro c b c' hc h
  rw [exec_bind, bind_eq_some_iff] at h
  obtain ⟨⟨a, d⟩, hd, h⟩ := h
  exact hk d b c' (hm c a d hc hd) h

theorem Keeps.onlyIf {p : Prop} [Decidable p] {m : Stores DbMetadataContext Unit} (hm : Keeps m) :
    Keeps (onlyIf p m) := by
  unfold Stores.onlyIf
  split_ifs
  · exact hm
  · exact .pure

theorem Keeps.each {m : ι → Stores DbMetadataContext Unit} (hm : ∀ i, Keeps (m i)) (is : List ι) :
    Keeps (each is m) := by
  induction is with
  | nil => exact .pure
  | cons i is ih => exact .bind (hm i) ih

theorem exec_both (m : Stores MetadataCopy Unit) (c : DbMetadataContext) :
    exec (both m) c = (exec m c.copy0).bind fun r =>
      (exec m c.copy1).map fun r' => ((), { copy0 := r.2, copy1 := r'.2 }) := by
  unfold both onCopy0 onCopy1
  rw [exec_bind, exec_focus]
  cases exec m c.copy0 with
  | none => rfl
  | some r =>
    show exec (focus copy1 _ m) { c with copy0 := r.2 } = _
    rw [exec_focus]
    cases exec m c.copy1 with
    | none => rfl
    | some r' => rfl

/-- The same program on both copies: the heart of the matter. -/
theorem Keeps.both {m : Stores MetadataCopy Unit} (hm : Cleans m) : Keeps (both m) := by
  intro c a c' hc h
  rw [exec_both, ← hc.same] at h
  cases hr : exec m c.copy0 with
  | none =>
    rw [hr] at h
    cases h
  | some r =>
    rw [hr] at h
    cases h
    exact ⟨rfl, hm c.copy0 r.2 hr⟩

theorem Cleans.holdDirty {m : Stores MetadataCopy Unit} : Cleans (holdDirty m) := by
  intro c c' h
  unfold MetadataCopy.holdDirty at h
  rw [exec_bind, bind_eq_some_iff] at h
  obtain ⟨r, -, h⟩ := h
  rw [exec_bind, bind_eq_some_iff] at h
  obtain ⟨r', -, h⟩ := h
  cases h
  rfl

theorem Cleans.bind {m : Stores MetadataCopy α} {k : α → Stores MetadataCopy Unit}
    (hk : ∀ {a}, Cleans (k a)) : Cleans (m >>= k) := by
  intro c c' h
  rw [exec_bind, bind_eq_some_iff] at h
  obtain ⟨r, -, h⟩ := h
  exact hk r.2 c' h

theorem Keeps.setBoth {f : DbMetadata → DbMetadata} : Keeps (setBoth f) := .both .holdDirty

end Rules

/-! ## The calls, one by one -/

variable (pool : StoragePool)

theorem keeps_appendRootOffset (o : ChunkOffset) : Keeps (appendRootOffset pool o) := .bind .load <| .both .holdDirty

theorem keeps_fastForwardNextVersion (v : Nat) : Keeps (fastForwardNextVersion pool v) :=
  .bind .load <| .both .holdDirty

theorem keeps_append (l : ChunkList) (i : Nat) : Keeps (append pool l i) := by
  have hchk : Cleans (appendChunk l i) := .bind (.bind .holdDirty)
  exact .bind (.both hchk) <| .onlyIf (.both .holdDirty)

theorem keeps_remove (i : Nat) : Keeps (remove pool i) := by
  have hchk : Cleans (removeChunk i) := .bind (.bind .holdDirty)
  exact .bind .load <| .bind (.both hchk) <| .onlyIf (.both .holdDirty)

theorem keeps_advanceDbOffsetsTo (fast slow : ChunkOffset) : Keeps (advanceDbOffsetsTo fast slow) :=
  .bind .load <| .bind .require <| .bind .require <| .both .holdDirty

theorem keeps_setAutoExpireVersionMetadata (tid : TimelineId) (v : Int) :
    Keeps (setAutoExpireVersionMetadata tid v) := by
  refine .bind .load @fun c => ?_
  cases c.ringIdx tid with
  | a => exact .setBoth
  | b => exact .setBoth

theorem keeps_updateHistoryLengthMetadata (len : Nat) : Keeps (updateHistoryLengthMetadata len) :=
  .bind .load <| .both .holdDirty

theorem keeps_setPendingShrinkGrow (kind : PendingOpKind) (param : Nat) : Keeps (setPendingShrinkGrow kind param) :=
  .both .holdDirty

theorem keeps_activateSecondaryHeader : Keeps (activateSecondaryHeader pool) := by
  refine .bind .load <| .bind .require <| .bind .require <| .bind .require ?_
  refine .bind (keeps_setPendingShrinkGrow _ _) <| .bind ?_ <| keeps_setPendingShrinkGrow _ _
  exact .bind .load <| .bind (.both .holdDirty) <| .bind .load <| .onlyIf (keeps_updateHistoryLengthMetadata _)

theorem keeps_deactivateSecondaryHeader : Keeps (deactivateSecondaryHeader pool) := by
  refine .bind .load <| .bind .require <| .bind .require <| .bind .require <| .bind .require ?_
  refine .bind (keeps_setPendingShrinkGrow _ _) <| .bind ?_ <| keeps_setPendingShrinkGrow _ _
  exact .bind .load <| .both .holdDirty

theorem keeps_promoteSecondaryToPrimaryHeader : Keeps promoteSecondaryToPrimaryHeader := by
  refine .bind .load <| .bind .require <| .bind .require ?_
  exact .bind (keeps_setPendingShrinkGrow _ _) <| .bind .setBoth <| keeps_setPendingShrinkGrow _ _

theorem keeps_mapRings : Keeps mapRings := by
  intro c a c' hc h
  unfold mapRings at h
  rw [exec_store] at h
  cases h
  exact ⟨by rw [hc.same], hc.clean⟩

theorem keeps_initNewPool (historyLen : Option Nat) : Keeps (initNewPool pool historyLen) := by
  refine .bind .require ?_
  refine .bind (keeps_append pool _ _) <| .bind (keeps_append pool _ _) ?_
  refine .bind (.each (fun i => keeps_append pool _ i) _) ?_
  refine .bind (keeps_advanceDbOffsetsTo _ _) ?_
  refine .bind .setBoth <| .bind .setBoth ?_
  refine .bind (.both .holdDirty) <| .bind (.both .holdDirty) ?_
  refine .bind (keeps_setAutoExpireVersionMetadata _ _) <| .bind (keeps_setAutoExpireVersionMetadata _ _) ?_
  refine .bind keeps_mapRings ?_
  cases historyLen with
  | none => exact .pure
  | some len => exact keeps_updateHistoryLengthMetadata len

/-! ## The one call that reads the first copy again -/

section Update

variable {pool}

theorem ring_setDirty (copy : MetadataCopy) (dirty : Bool) (idx : RingIdx) :
    (copy.withDirty dirty).ring idx = copy.ring idx := by
  cases idx with
  | a => rfl
  | b => rfl

theorem ring_words_setRing (pool : StoragePool) (copy : MetadataCopy) (idx : RingIdx) (r : Ring) :
    ((copy.setRing pool idx r).ring idx).nextVersion = r.nextVersion ∧
      ((copy.setRing pool idx r).ring idx).versionLowerBound = r.versionLowerBound ∧
      (copy.setRing pool idx r).main.primaryRingIdx = copy.main.primaryRingIdx ∧
      (copy.setRing pool idx r).main.isDirty = copy.main.isDirty := by
  cases idx with
  | a | b => exact ⟨rfl, rfl, rfl, rfl⟩

variable {x : MetadataCopy} {idx : RingIdx} {i : Nat} {o : ChunkOffset} {c c' : DbMetadataContext}

theorem maxVersion_of_main {y : MetadataCopy} (h : x.main = y.main) (idx : RingIdx) :
    (x.ring idx).maxVersion = (y.ring idx).maxVersion := by
  unfold Ring.maxVersion MetadataCopy.ring
  rw [h]

/-- A completed program on a ring. -/
theorem exec_onRing {m : Stores Ring Unit} {copy copy' : MetadataCopy}
    (h : exec (onRing pool idx m) copy = some ((), copy')) :
    ∃ r, exec m (copy.ring idx) = some ((), r) ∧ copy' = copy.setRing pool idx r := by
  unfold onRing at h
  simp only [exec_bind, exec_load, bind_some, exec_require, id_eq] at h
  split_ifs at h
  · simp only [bind_some, exec_focus, map_eq_some_iff] at h
    obtain ⟨⟨u, r⟩, hr, hcopy⟩ := h
    cases hcopy
    exact ⟨r, hr, rfl⟩
  all_goals cases h

/-- `update_root_offset` on one of the copies. -/
theorem exec_updateRootOffsetOn {get : DbMetadataContext → MetadataCopy}
    {set : DbMetadataContext → MetadataCopy → DbMetadataContext}
    (h : exec (updateRootOffsetOn pool (focus get set) idx i o) c = some ((), c'))
    (hget : ∀ c x, get (set c x) = x) (hset : ∀ c x y, set (set c x) y = set c y) :
    ∃ a, exec (onRing pool idx (Ring.assign i o)) ((get c).withDirty true) = some ((), a) ∧
      ((¬ Erased (set c a) i o ∧ c' = set c (a.withDirty false)) ∨
        (Erased (set c a) i o ∧ ∃ b, exec (onRing pool idx (Ring.resetAll 0)) a = some ((), b) ∧
          c' = set c (b.withDirty false))) := by
  obtain ⟨_, c1, h1, hrest1⟩ := exec_bind_some.mp h
  obtain ⟨x, hx, rfl⟩ := exec_focus_some.mp h1
  cases hx
  obtain ⟨_, c2, h2, hrest2⟩ := exec_bind_some.mp hrest1
  obtain ⟨a, ha, rfl⟩ := exec_focus_some.mp h2
  rw [hget] at ha
  rw [hset, exec_bind, exec_load, bind_some] at hrest2
  obtain ⟨_, c3, h3, hrest3⟩ := exec_bind_some.mp hrest2
  obtain ⟨y, hy, rfl⟩ := exec_focus_some.mp hrest3
  cases hy
  refine ⟨a, ha, ?_⟩
  rw [exec_onlyIf, id_eq] at h3
  by_cases hera : Erased (set c a) i o
  · rw [if_pos hera] at h3
    obtain ⟨b, hb, rfl⟩ := exec_focus_some.mp h3
    rw [hget] at hb
    refine .inr ⟨hera, b, hb, ?_⟩
    rw [hset, hset, hget]
    rfl
  · rw [if_neg hera] at h3
    cases h3
    refine .inl ⟨hera, ?_⟩
    rw [hset, hget]
    rfl

theorem dbHistoryMaxVersion_primary (c : DbMetadataContext) :
    c.dbHistoryMaxVersion .primary = (c.copy0.ring c.copy0.main.primaryRingIdx).maxVersion := rfl

/-- The condition of `update_root_offset` on the ring of the first copy. -/
def RingErased (r : Ring) (i : Nat) (o : ChunkOffset) : Prop :=
  o.isInvalid ∧ i = r.maxVersion ∧ i = if r.maxVersion = invalidBlockNum then invalidBlockNum else r.versionLowerBound

instance (r : Ring) (i : Nat) (o : ChunkOffset) : Decidable (RingErased r i o) :=
  inferInstanceAs (Decidable (_ ∧ _ ∧ _))

theorem erased_iff_ring : c.Erased i o ↔ RingErased (c.copy0.ring c.copy0.main.primaryRingIdx) i o := Iff.rfl

/-- The condition depends on the words of the first copy's primary ring only. -/
theorem erased_congr {d : DbMetadataContext}
    (hring : c.copy0.ring c.copy0.main.primaryRingIdx = d.copy0.ring d.copy0.main.primaryRingIdx) :
    Erased c i o ↔ Erased d i o := by
  unfold Erased dbHistoryMinValidVersion dbHistoryRangeLowerBound dbHistoryMaxVersion rootOffsets ringIdx
  rw [hring]
  rfl

/-- An empty ring is erased again by `INVALID_BLOCK_NUM` only. -/
theorem erased_of_empty (h : c.dbHistoryMaxVersion .primary = invalidBlockNum) :
    Erased c i o ↔ o.isInvalid ∧ i = invalidBlockNum := by
  have hlo : c.dbHistoryMinValidVersion .primary = invalidBlockNum := if_pos h
  unfold Erased
  rw [h, hlo, and_self_iff]

/-- After a call that took versions away, the copies are not the same any more. -/
structure Parted (c c' : DbMetadataContext) : Prop where
  before : c.dbHistoryMaxVersion .primary ≠ invalidBlockNum
  after : c'.dbHistoryMaxVersion .primary = invalidBlockNum
  differ : c'.copy0.main ≠ c'.copy1.main

/-- The copies are still twins and the ring has not been emptied, or they have parted. -/
def Outcome (c c' : DbMetadataContext) : Prop :=
  (Twin c' ∧ (c'.dbHistoryMaxVersion .primary = invalidBlockNum →
    c.dbHistoryMaxVersion .primary = invalidBlockNum)) ∨ Parted c c'

theorem exec_onRing_assigned {a : MetadataCopy} (h : exec (onRing pool idx (Ring.assign i o)) x = some ((), a)) :
    a.main.primaryRingIdx = x.main.primaryRingIdx ∧
      (a.ring idx).nextVersion = ((x.ring idx).assigned i o).nextVersion ∧
      (a.ring idx).versionLowerBound = ((x.ring idx).assigned i o).versionLowerBound := by
  obtain ⟨r, hr, rfl⟩ := exec_onRing h
  rw [Ring.exec_assign] at hr
  split_ifs at hr
  cases hr
  obtain ⟨hnext, hlow, hidx, -⟩ := ring_words_setRing pool x idx ((x.ring idx).assigned i o)
  exact ⟨hidx, hnext, hlow⟩

theorem exec_onRing_assign {a : MetadataCopy} (h : exec (onRing pool idx (Ring.assign i o)) x = some ((), a)) :
    a.main.primaryRingIdx = x.main.primaryRingIdx ∧ (a.ring idx).maxVersion = (x.ring idx).maxVersion := by
  obtain ⟨hidx, hnext, -⟩ := exec_onRing_assigned h
  refine ⟨hidx, ?_⟩
  unfold Ring.maxVersion
  rw [hnext, Ring.nextVersion_assigned]

theorem exec_onRing_resetAll {b : MetadataCopy} (h : exec (onRing pool idx (Ring.resetAll 0)) x = some ((), b)) :
    b.main.primaryRingIdx = x.main.primaryRingIdx ∧ (b.ring idx).maxVersion = invalidBlockNum := by
  obtain ⟨r, hr, rfl⟩ := exec_onRing h
  rw [Ring.exec_resetAll] at hr
  split_ifs at hr
  cases hr
  obtain ⟨hnext, -, hidx, -⟩ := ring_words_setRing pool x idx ((x.ring idx).cleared 0)
  refine ⟨hidx, ?_⟩
  unfold Ring.maxVersion
  rw [hnext]
  rfl

theorem updateRootOffset_outcome (hc : Twin c) (h : exec (updateRootOffset pool i o) c = some ((), c')) :
    Outcome c c' := by
  obtain ⟨x, y⟩ := c
  obtain rfl : x = y := hc.same
  unfold updateRootOffset at h
  rw [exec_bind, exec_load, bind_some] at h
  obtain ⟨_, c1, h0, h1⟩ := exec_bind_some.mp h
  obtain ⟨a, ha, h0⟩ := exec_updateRootOffsetOn h0 (fun _ _ => rfl) fun _ _ _ => rfl
  obtain ⟨a', ha', h1⟩ := exec_updateRootOffsetOn h1 (fun _ _ => rfl) fun _ _ _ => rfl
  -- the assignment does the same to both copies
  have hsnd : c1.copy1 = x := by
    rcases h0 with ⟨-, rfl⟩ | ⟨-, b, -, rfl⟩ <;> rfl
  rw [hsnd] at ha'
  obtain rfl : a = a' := by
    rw [ha] at ha'
    cases ha'
    rfl
  obtain ⟨hidx, hmax⟩ := exec_onRing_assign ha
  have hmax' : (a.ring a.main.primaryRingIdx).maxVersion = (x.ring x.main.primaryRingIdx).maxVersion := by
    rw [hidx]
    exact hmax.trans (congrArg Ring.maxVersion (ring_setDirty x true _))
  rcases h0 with ⟨hkept, rfl⟩ | ⟨hera, b, hb, rfl⟩
  · -- no reset of the first copy, and none of the second
    rcases h1 with ⟨-, rfl⟩ | ⟨hera, -⟩
    · refine .inl ⟨⟨rfl, rfl⟩, fun hemp => ?_⟩
      rw [dbHistoryMaxVersion_primary] at hemp ⊢
      rw [← hmax']
      exact (congrArg Ring.maxVersion (ring_setDirty a false _)).symm.trans hemp
    · exact absurd ((erased_congr (ring_setDirty a false _)).mp hera) hkept
  -- the first copy has been reset and looks empty now
  obtain ⟨hbidx, hbmax⟩ := exec_onRing_resetAll hb
  have hemp : ∀ y, dbHistoryMaxVersion { copy0 := b.withDirty false, copy1 := y } .primary =
      invalidBlockNum := by
    intro y
    refine (congrArg Ring.maxVersion (ring_setDirty b false _)).trans ?_
    show (b.ring b.main.primaryRingIdx).maxVersion = _
    rw [hbidx, hidx]
    exact hbmax
  have hi : i = (x.ring x.main.primaryRingIdx).maxVersion := hera.2.1.trans hmax'
  rcases h1 with ⟨hkept, rfl⟩ | ⟨hagain, b', hb', rfl⟩
  · have hbef : (x.ring x.main.primaryRingIdx).maxVersion ≠ invalidBlockNum := by
      intro hnone
      refine hkept ((erased_of_empty (hemp _)).mpr ⟨hera.1, hi.trans hnone⟩)
    refine .inr ⟨hbef, hemp _, fun hsame => hbef ?_⟩
    calc (x.ring x.main.primaryRingIdx).maxVersion
        = (a.ring x.main.primaryRingIdx).maxVersion :=
          (hmax.trans (congrArg Ring.maxVersion (ring_setDirty x true _))).symm
      _ = ((a.withDirty false).ring x.main.primaryRingIdx).maxVersion :=
          congrArg Ring.maxVersion (ring_setDirty a false _).symm
      _ = ((b.withDirty false).ring x.main.primaryRingIdx).maxVersion := (maxVersion_of_main hsame _).symm
      _ = (b.ring x.main.primaryRingIdx).maxVersion := congrArg Ring.maxVersion (ring_setDirty b false _)
      _ = invalidBlockNum := hbmax
  · obtain rfl : b = b' := by
      rw [hb] at hb'
      cases hb'
      rfl
    refine .inl ⟨⟨rfl, rfl⟩, fun _ => ?_⟩
    exact hi.symm.trans ((erased_of_empty (hemp _)).mp hagain).2

/-- The condition after the assignment, in terms of the ring before it. -/
theorem erased_assigned {r : Ring} (hnext : r.nextVersion ≤ invalidBlockNum) (hmax : r.maxVersion ≠ invalidBlockNum) :
    RingErased (r.assigned i o) i o ↔ o.isInvalid ∧ r.Last i := by
  unfold RingErased
  rw [Ring.maxVersion_assigned, if_neg hmax]
  constructor
  · rintro ⟨ho, hi, hlow⟩
    obtain ⟨hle, hrest⟩ := (Ring.lowerBound_assigned hnext hmax ho hi).mp hlow.symm
    exact ⟨ho, hmax, hi, hle, hrest⟩
  · rintro ⟨ho, hlast⟩
    exact ⟨ho, hlast.largest,
      ((Ring.lowerBound_assigned hnext hmax ho hlast.largest).mpr ⟨hlast.low, hlast.rest⟩).symm⟩

/-- What `update_root_offset` does to the words of the first copy's ring. -/
theorem updateRootOffset_words (hnext : c.Fits) (hmax : c.dbHistoryMaxVersion .primary ≠ invalidBlockNum)
    (h : exec (updateRootOffset pool i o) c = some ((), c')) :
    (Empties c (.updateRootOffset i o) ∧ c'.dbHistoryMaxVersion .primary = invalidBlockNum) ∨
    (¬ Empties c (.updateRootOffset i o) ∧
      (c'.rootOffsets .primary).nextVersion = (c.rootOffsets .primary).nextVersion ∧
      (c'.rootOffsets .primary).versionLowerBound = ((c.rootOffsets .primary).assigned i o).versionLowerBound) := by
  obtain ⟨x, y⟩ := c
  unfold updateRootOffset at h
  rw [exec_bind, exec_load, bind_some] at h
  obtain ⟨_, c1, h0, h1⟩ := exec_bind_some.mp h
  obtain ⟨a, ha, h0⟩ := exec_updateRootOffsetOn h0 (fun _ _ => rfl) fun _ _ _ => rfl
  obtain ⟨a', -, h1⟩ := exec_updateRootOffsetOn h1 (fun _ _ => rfl) fun _ _ _ => rfl
  -- the second copy is written without the first
  have hfst : c'.copy0 = c1.copy0 := by
    rcases h1 with ⟨-, rfl⟩ | ⟨-, b, -, rfl⟩ <;> rfl
  obtain ⟨hidx, hwords⟩ := exec_onRing_assigned ha
  have hwords : (a.ring x.main.primaryRingIdx).nextVersion = ((x.ring x.main.primaryRingIdx).assigned i o).nextVersion ∧
      (a.ring x.main.primaryRingIdx).versionLowerBound =
        ((x.ring x.main.primaryRingIdx).assigned i o).versionLowerBound := by
    rw [← ring_setDirty x true]
    exact hwords
  have hera : Erased { copy0 := a, copy1 := y } i o ↔
      RingErased ((x.ring x.main.primaryRingIdx).assigned i o) i o := by
    rw [erased_iff_ring]
    show RingErased (a.ring a.main.primaryRingIdx) i o ↔ _
    rw [show a.main.primaryRingIdx = x.main.primaryRingIdx from hidx]
    unfold RingErased Ring.maxVersion
    rw [hwords.1, hwords.2]
  have hiff := hera.trans (erased_assigned (r := x.ring x.main.primaryRingIdx) hnext hmax)
  rcases h0 with ⟨hkept, rfl⟩ | ⟨herased, b, hb, rfl⟩
  · refine .inr ⟨fun hempties => hkept (hiff.mpr hempties), ?_⟩
    have hring : c'.rootOffsets .primary = a.ring x.main.primaryRingIdx := by
      show c'.copy0.ring c'.copy0.main.primaryRingIdx = _
      rw [hfst]
      show (a.withDirty false).ring a.main.primaryRingIdx = _
      rw [ring_setDirty a false, show a.main.primaryRingIdx = x.main.primaryRingIdx from hidx]
    rw [hring]
    exact ⟨hwords.1.trans (Ring.nextVersion_assigned ..), hwords.2⟩
  · refine .inl ⟨hiff.mp herased, ?_⟩
    obtain ⟨hbidx, hbmax⟩ := exec_onRing_resetAll hb
    show (c'.copy0.ring c'.copy0.main.primaryRingIdx).maxVersion = _
    rw [hfst]
    show ((b.withDirty false).ring b.main.primaryRingIdx).maxVersion = _
    rw [ring_setDirty b false, hbidx, show a.main.primaryRingIdx = x.main.primaryRingIdx from hidx]
    exact hbmax

/-- The same for the loop: it empties the ring if it gets as far as the largest version. -/
theorem clearRootOffsets_words {v n : Nat} (hnext : c.Fits)
    (h : exec (clearRootOffsets pool v n) c = some ((), c')) :
    (c.dbHistoryMaxVersion .primary ≠ invalidBlockNum ∧ c'.dbHistoryMaxVersion .primary = invalidBlockNum) ↔
      Empties c (.clearRootOffsetsUpToAndIncluding v) := by
  induction n generalizing c with
  | zero =>
    cases h
  | succ n ih =>
    rw [clearRootOffsets, exec_bind, exec_load, bind_some, exec_onlyIf, id_eq] at h
    by_cases hmax : c.dbHistoryMaxVersion .primary = invalidBlockNum
    · exact ⟨fun he => absurd hmax he.1, fun he => absurd hmax he.1⟩
    have hlow : c.dbHistoryRangeLowerBound .primary = (c.rootOffsets .primary).versionLowerBound := if_neg hmax
    have hlt : c.dbHistoryMaxVersion .primary < invalidBlockNum := Ring.maxVersion_lt hnext hmax
    split_ifs at h with hrd
    · obtain ⟨_, c1, hupd, hrest⟩ := exec_bind_some.mp h
      rcases updateRootOffset_words hnext hmax hupd with ⟨⟨-, hlast⟩, hgone⟩ | ⟨hnot, hnext1, hlow1⟩
      · -- the largest version has been erased, and the loop ends
        have hlargest : c.dbHistoryRangeLowerBound .primary = c.dbHistoryMaxVersion .primary := hlast.largest
        have hall : Empties c (.clearRootOffsetsUpToAndIncluding v) := ⟨hmax, hlargest.le, hlargest ▸ hrd.2⟩
        refine iff_of_true ⟨hmax, ?_⟩ hall
        cases n with
        | zero =>
          cases hrest
        | succ n =>
          have hstop : ¬ (c1.dbHistoryRangeLowerBound .primary ≠ invalidBlockNum ∧
              c1.dbHistoryRangeLowerBound .primary ≤ v) := fun hmore => hmore.1 (if_pos hgone)
          rw [clearRootOffsets, exec_bind, exec_load, bind_some, exec_onlyIf, id_eq, if_neg hstop] at hrest
          cases hrest
          exact hgone
      · have hmax1 : c1.dbHistoryMaxVersion .primary = c.dbHistoryMaxVersion .primary := by
          show (c1.rootOffsets .primary).maxVersion = (c.rootOffsets .primary).maxVersion
          unfold Ring.maxVersion
          rw [hnext1]
        have hfits1 : c1.Fits := hnext1.le.trans hnext
        have hlow1' : c1.dbHistoryRangeLowerBound .primary = _ := (if_neg (hmax1.trans_ne hmax)).trans hlow1
        rw [← hmax1] at hmax ⊢
        rw [ih hfits1 hrest]
        unfold Empties
        dsimp only
        rw [hmax1, hlow1', hlow]
        exact and_congr_right fun hsome => and_congr_left' (Ring.lowerBound_assigned_le hnext hsome)
    · cases h
      refine iff_of_false (fun he => he.1 he.2) fun he => hrd ⟨?_, he.2.1.trans he.2.2⟩
      exact (he.2.1.trans_lt hlt).ne

/-- The loop stops as soon as the copies have parted. -/
theorem clearRootOffsets_outcome {v n : Nat} (hc : Twin c) (h : exec (clearRootOffsets pool v n) c = some ((), c')) :
    Outcome c c' := by
  induction n generalizing c with
  | zero =>
    cases h
  | succ n ih =>
    rw [clearRootOffsets, exec_bind, exec_load, bind_some, exec_onlyIf, id_eq] at h
    split_ifs at h with hrd
    · have hbef : c.dbHistoryMaxVersion .primary ≠ invalidBlockNum := fun hemp => hrd.1 (if_pos hemp)
      obtain ⟨_, c1, hupd, hrest⟩ := exec_bind_some.mp h
      rcases updateRootOffset_outcome hc hupd with ⟨htwin, hkept⟩ | hprt
      · rcases ih htwin hrest with ⟨htwin', hkept'⟩ | hprt
        · exact .inl ⟨htwin', fun hemp => hkept (hkept' hemp)⟩
        · exact .inr ⟨hbef, hprt.after, hprt.differ⟩
      cases n with
      | zero =>
        cases hrest
      | succ n =>
        have hstop : ¬ (c1.dbHistoryRangeLowerBound .primary ≠ invalidBlockNum ∧
            c1.dbHistoryRangeLowerBound .primary ≤ v) := fun hmore => hmore.1 (if_pos hprt.after)
        rw [clearRootOffsets, exec_bind, exec_load, bind_some, exec_onlyIf, id_eq, if_neg hstop] at hrest
        cases hrest
        exact .inr hprt
    · cases h
      exact .inl ⟨hc, id⟩

end Update

/-! ## All calls -/

variable {c c' : DbMetadataContext} {steps : List (DbMetadataContext × Call × DbMetadataContext)}

theorem Outcome.empties {P : Prop} (h : Outcome c c') (hiff : (c.dbHistoryMaxVersion .primary ≠ invalidBlockNum ∧
    c'.dbHistoryMaxVersion .primary = invalidBlockNum) ↔ P) : (Twin c' ∧ ¬ P) ∨ (P ∧ c'.copy0.main ≠ c'.copy1.main) := by
  rcases h with ⟨htwin, hkept⟩ | hprt
  · exact .inl ⟨htwin, fun hempties => (hiff.mpr hempties).1 (hkept (hiff.mpr hempties).2)⟩
  · exact .inr ⟨hiff.mp ⟨hprt.before, hprt.after⟩, hprt.differ⟩

theorem updateRootOffset_empties {i : Nat} {o : ChunkOffset} (hnext : c.Fits)
    (h : exec (updateRootOffset pool i o) c = some ((), c')) :
    (c.dbHistoryMaxVersion .primary ≠ invalidBlockNum ∧ c'.dbHistoryMaxVersion .primary = invalidBlockNum) ↔
      Empties c (.updateRootOffset i o) := by
  by_cases hmax : c.dbHistoryMaxVersion .primary = invalidBlockNum
  · exact ⟨fun he => absurd hmax he.1, fun he => absurd hmax he.2.some⟩
  rcases updateRootOffset_words hnext hmax h with ⟨hempties, hgone⟩ | ⟨hnot, hnext1, -⟩
  · exact iff_of_true ⟨hmax, hgone⟩ hempties
  refine iff_of_false (fun he => hmax ?_) hnot
  rw [← he.2]
  show (c.rootOffsets .primary).maxVersion = (c'.rootOffsets .primary).maxVersion
  unfold Ring.maxVersion
  rw [hnext1]

/-- From equal copies, a call leads to equal copies or it empties the ring. -/
theorem call_outcome {call : Call} (hc : Twin c) (hnext : c.Fits) (h : exec (call.run pool) c = some ((), c')) :
    (Twin c' ∧ ¬ Empties c call) ∨ (Empties c call ∧ c'.copy0.main ≠ c'.copy1.main) := by
  cases call with
  | updateRootOffset i o => exact (updateRootOffset_outcome hc h).empties (updateRootOffset_empties pool hnext h)
  | clearRootOffsetsUpToAndIncluding v =>
    exact (clearRootOffsets_outcome hc h).empties (clearRootOffsets_words hnext h)
  | appendRootOffset o => exact .inl ⟨keeps_appendRootOffset pool o c _ c' hc h, id⟩
  | fastForwardNextVersion v => exact .inl ⟨keeps_fastForwardNextVersion pool v c _ c' hc h, id⟩
  | append l i => exact .inl ⟨keeps_append pool l i c _ c' hc h, id⟩
  | remove i => exact .inl ⟨keeps_remove pool i c _ c' hc h, id⟩
  | advanceDbOffsetsTo fast slow => exact .inl ⟨keeps_advanceDbOffsetsTo fast slow c _ c' hc h, id⟩
  | setLatestFinalizedVersion | setLatestVerifiedVersion => exact .inl ⟨Keeps.setBoth c _ c' hc h, id⟩
  | setLatestVoted | setLatestProposed => exact .inl ⟨Keeps.both .holdDirty c _ c' hc h, id⟩
  | setAutoExpireVersionMetadata tid v => exact .inl ⟨keeps_setAutoExpireVersionMetadata tid v c _ c' hc h, id⟩
  | updateHistoryLengthMetadata len => exact .inl ⟨keeps_updateHistoryLengthMetadata len c _ c' hc h, id⟩
  | activateSecondaryHeader => exact .inl ⟨keeps_activateSecondaryHeader pool c _ c' hc h, id⟩
  | deactivateSecondaryHeader => exact .inl ⟨keeps_deactivateSecondaryHeader pool c _ c' hc h, id⟩
  | promoteSecondaryToPrimaryHeader => exact .inl ⟨keeps_promoteSecondaryToPrimaryHeader c _ c' hc h, id⟩

variable {pool}

theorem exec_dbCopy {src : DbMetadata} (hcln : src.isDirty = false) (copy : MetadataCopy) :
    exec (dbCopy src) copy = some ((), { copy with main := src }) := by
  obtain ⟨dirty⟩ := src
  obtain rfl : dirty = false := hcln
  rfl

theorem Twin.agree (h : Twin c) : Agree c := by
  obtain ⟨x, y⟩ := c
  obtain rfl : x = y := h.same
  refine ⟨rfl, fun _ _ _ _ => rfl, ?_, ?_⟩
  · exact exec_focus_some.mpr ⟨x, exec_dbCopy h.clean x, rfl⟩
  · exact exec_focus_some.mpr ⟨x, exec_dbCopy h.clean x, rfl⟩

theorem Fresh.twin (h : Fresh pool c) : Twin c := by
  obtain ⟨historyLen, h⟩ := h
  exact keeps_initNewPool pool historyLen _ () c ⟨rfl, rfl⟩ h

/-- As long as the ring is not emptied, the copies are twins after every call. -/
theorem Run.twin (h : Run pool steps c) (hfits : ∀ s ∈ steps, s.1.Fits) (hss : ∀ s ∈ steps, ¬ Empties s.1 s.2.1) :
    Twin c ∧ ∀ s ∈ steps, Twin s.2.2 := by
  induction h with
  | fresh hfresh => exact ⟨hfresh.twin, fun s hs => by cases hs⟩
  | call _ call hcall ih =>
    obtain ⟨htwin, hbef⟩ := ih (fun s hs => hfits s (mem_append_left _ hs)) fun s hs => hss s (mem_append_left _ hs)
    have hlast := hss _ (mem_append_right _ (mem_singleton_self _))
    rcases call_outcome pool htwin (hfits _ (mem_append_right _ (mem_singleton_self _))) hcall with ⟨htwin', -⟩ | ⟨hempties, -⟩
    · refine ⟨htwin', fun s hs => ?_⟩
      rcases mem_append.mp hs with hs | hs
      · exact hbef s hs
      rw [mem_singleton.mp hs]
      exact htwin'
    · exact absurd hempties hlast

/-- The first call that empties the ring leaves copies that differ. -/
theorem Run.not_empties (h : Run pool steps c) (hfits : ∀ s ∈ steps, s.1.Fits)
    (hss : ∀ s ∈ steps, s.2.2.copy0.main = s.2.2.copy1.main) : ∀ s ∈ steps, ¬ Empties s.1 s.2.1 := by
  induction h with
  | fresh _ => exact fun s hs => by cases hs
  | call hrun call hcall ih =>
    have hfits' := fun s hs => hfits s (mem_append_left _ hs)
    have hbef := ih hfits' fun s hs => hss s (mem_append_left _ hs)
    have hlast := hss _ (mem_append_right _ (mem_singleton_self _))
    intro s hs
    rcases mem_append.mp hs with hs | hs
    · exact hbef s hs
    rw [mem_singleton.mp hs]
    rcases call_outcome pool (hrun.twin hfits' hbef).1 (hfits _ (mem_append_right _ (mem_singleton_self _))) hcall with ⟨-, hnot⟩ | ⟨-, hdiffer⟩
    · exact hnot
    · exact absurd hlast hdiffer

/-- **Equal copies.** After every call of a run the copies agree, if and only if no call of the run
takes the last version from the primary ring. -/
theorem copies_agree_iff {steps : List (DbMetadataContext × Call × DbMetadataContext)} {c : DbMetadataContext}
    (h : Run pool steps c) (hfits : ∀ s ∈ steps, s.1.Fits) :
    (∀ s ∈ steps, Agree s.2.2) ↔ ∀ s ∈ steps, ¬ Empties s.1 s.2.1 := by
  constructor
  · intro hagr
    exact h.not_empties hfits fun s hs => (hagr s hs).header
  · intro hss s hs
    exact ((h.twin hfits hss).2 s hs).agree

/-- Three chunks, and a ring of two chunks with two entries each. -/
def smallPool : StoragePool where
  entriesPerChunk := 2
  ringTotal := 2
  chunkCount := 3
  chunkCapacity := fun _ => 1024

def newPool : DbMetadataContext where
  copy0 := newCopy smallPool
  copy1 := newCopy smallPool

/-- Two versions are appended and the older one is erased. -/
theorem copies_agree_iff_erased : ∃ steps c, Run smallPool steps c ∧
    steps.map (fun s => s.2.1) = [.appendRootOffset (startOf 2), .appendRootOffset (startOf 1),
      .updateRootOffset 0 invalidOffset] ∧ ∀ s ∈ steps, Agree s.2.2 := by
  have hrun : ((exec (initNewPool smallPool none) newPool).bind fun r₀ =>
      (exec (appendRootOffset smallPool (startOf 2)) r₀.2).bind fun r₁ =>
      (exec (appendRootOffset smallPool (startOf 1)) r₁.2).bind fun r₂ =>
      (exec (updateRootOffset smallPool 0 invalidOffset) r₂.2).map fun r₃ =>
        (r₃.2, (r₀.2.rootOffsets .primary).nextVersion, (r₁.2.rootOffsets .primary).nextVersion,
          (r₂.2.rootOffsets .primary).nextVersion)).map Prod.snd = some (0, 1, 2) := by decide +kernel
  obtain ⟨⟨c, hwds⟩, hrun, hnext⟩ := map_eq_some_iff.mp hrun
  obtain ⟨⟨_, c₀⟩, h0, hrun⟩ := bind_eq_some_iff.mp hrun
  obtain ⟨⟨_, c₁⟩, h1, hrun⟩ := bind_eq_some_iff.mp hrun
  obtain ⟨⟨_, c₂⟩, h2, hrun⟩ := bind_eq_some_iff.mp hrun
  obtain ⟨⟨_, c₃⟩, h3, hwds'⟩ := map_eq_some_iff.mp hrun
  obtain ⟨hnext0, hwds⟩ := Prod.mk.inj ((congrArg Prod.snd hwds').trans hnext)
  obtain ⟨hnext1, hnext2⟩ := Prod.mk.inj hwds
  have hss := (((Run.fresh ⟨none, h0⟩).call (.appendRootOffset (startOf 2)) h1).call
    (.appendRootOffset (startOf 1)) h2).call (.updateRootOffset 0 invalidOffset) h3
  refine ⟨_, _, hss, rfl, (copies_agree_iff hss ?_).mpr ?_⟩
  · intro s hs
    simp only [nil_append, mem_append, mem_singleton] at hs
    rcases hs with (rfl | rfl) | rfl
    · exact hnext0.trans_le (by decide)
    · exact hnext1.trans_le (by decide)
    · exact hnext2.trans_le (by decide)
  · intro s hs
    simp only [nil_append, mem_append, mem_singleton] at hs
    rcases hs with (rfl | rfl) | rfl
    · exact id
    · exact id
    -- the largest version is 1
    · rintro ⟨-, hlast⟩
      have hmax : 0 = (c₂.rootOffsets .primary).maxVersion := hlast.largest
      unfold Ring.maxVersion at hmax
      rw [show (c₂.rootOffsets .primary).nextVersion = 2 from hnext2] at hmax
      exact absurd hmax (by decide)

/-- The only version is appended and erased again: the first copy is empty, the second is not. -/
theorem copies_part : ∃ steps c, Run smallPool steps c ∧ steps.map (fun s => s.2.1) =
      [.appendRootOffset (startOf 2), .updateRootOffset 0 invalidOffset] ∧
    c.copy0.main.rootOffsets.nextVersion = 0 ∧ c.copy1.main.rootOffsets.nextVersion = 1 := by
  have hrun : (exec (do
      initNewPool smallPool none
      appendRootOffset smallPool (startOf 2)
      updateRootOffset smallPool 0 invalidOffset) newPool).map (fun r =>
        (r.2.copy0.main.rootOffsets.nextVersion, r.2.copy1.main.rootOffsets.nextVersion)) =
      some (0, 1) := by decide +kernel
  obtain ⟨⟨_, c⟩, hc, hwds⟩ := map_eq_some_iff.mp hrun
  obtain ⟨_, c0, hfresh, hc⟩ := exec_bind_some.mp hc
  obtain ⟨_, c1, h1, h2⟩ := exec_bind_some.mp hc
  have hss := ((Run.fresh ⟨none, hfresh⟩).call (.appendRootOffset (startOf 2)) h1).call
    (.updateRootOffset 0 invalidOffset) h2
  exact ⟨_, _, hss, rfl, congrArg Prod.fst hwds, congrArg Prod.snd hwds⟩

end DbMetadataContext

end MonadExecution.Mpt
