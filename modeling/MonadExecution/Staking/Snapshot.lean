import MonadExecution.Lib.Arrays
import MonadExecution.Staking.Registry

/-!
# The snapshot

A snapshot is a sequence of loops over storage arrays, one of which compacts the array it runs over.
This module says what they leave: the rotated sets and views, and the candidates without the flagged
ones, in the array as in the bitset.
-/

namespace MonadExecution.Staking

open Program Function List World

/-! ## The bitset -/

theorem and_twoPow_ne_zero {n k : Nat} (x : BitVec n) (hk : k < n) :
    x &&& BitVec.twoPow n k ≠ 0#n ↔ x.getLsbD k = true := by
  have hne : BitVec.twoPow n k ≠ 0#n := by
    intro h0
    have hbit := congrArg (fun b => b.getLsbD k) h0
    simp [hk] at hbit
  rw [BitVec.and_twoPow]
  split_ifs with h <;> simp [h, hne]

/-- The place of an id in its bucket. -/
def valBit (v : ValId) : Nat := (v &&& 0xFF#64).toNat

theorem valBit_eq (v : ValId) : valBit v = v.toNat % 256 := by
  rw [valBit, BitVec.toNat_and]
  exact Nat.and_two_pow_sub_one_eq_mod v.toNat 8

theorem valBit_lt (v : ValId) : valBit v < 256 := by
  rw [valBit_eq]
  exact Nat.mod_lt _ (by decide)

theorem valMask_eq (v : ValId) : valMask v = BitVec.twoPow 256 (valBit v) := rfl

/-- Bucket and place determine the id. -/
theorem eq_of_valBucket {u v : ValId} (hbkt : valBucket u = valBucket v) (hbit : valBit u = valBit v) : u = v := by
  have hdiv : u.toNat / 256 = v.toNat / 256 := by
    have h := congrArg BitVec.toNat hbkt
    simpa [valBucket, BitVec.toNat_ushiftRight, Nat.shiftRight_eq_div_pow] using h
  rw [valBit_eq, valBit_eq] at hbit
  apply BitVec.eq_of_toNat_eq
  omega

namespace Registry

theorem hasBit_iff (v : ValId) (r : Registry) :
    r.hasBit v = (r.valBitsetBucket (valBucket v)).getLsbD (valBit v) := by
  have h := and_twoPow_ne_zero (r.valBitsetBucket (valBucket v)) (valBit_lt v)
  rw [Bool.eq_iff_iff, ← h, ← valMask_eq]
  simp [hasBit]

variable {r r' : Registry}

/-- The bits after one bucket has been overwritten. -/
theorem hasBit_update (v : ValId) {b : BitVec 256} (h : r'.valBitsetBucket = update r.valBitsetBucket (valBucket v) b)
    (u : ValId) : r'.hasBit u = if valBucket u = valBucket v then b.getLsbD (valBit u) else r.hasBit u := by
  rw [hasBit_iff, hasBit_iff, h]
  split_ifs with hb
  · rw [hb, update_self]
  · rw [update_of_ne hb]

/-- Setting the bit of `v`. -/
theorem hasBit_set (v : ValId)
    (h : r'.valBitsetBucket = update r.valBitsetBucket (valBucket v) (r.valBitsetBucket (valBucket v) ||| valMask v))
    (u : ValId) : r'.hasBit u = (r.hasBit u || decide (u = v)) := by
  rw [hasBit_update v h, valMask_eq, BitVec.getLsbD_or, BitVec.getLsbD_twoPow]
  by_cases hb : valBucket u = valBucket v
  · rw [if_pos hb, hasBit_iff, hb]
    by_cases hu : u = v
    · simp [hu, valBit_lt]
    have hbit : valBit v ≠ valBit u := fun h => hu (eq_of_valBucket hb h.symm)
    simp [hu, hbit]
  · have hu : u ≠ v := fun h => hb (by rw [h])
    simp [hb, hu]

/-- Clearing the bit of `v`. -/
theorem hasBit_clear (v : ValId) (h : r'.valBitsetBucket = update r.valBitsetBucket (valBucket v)
      (r.valBitsetBucket (valBucket v) &&& ~~~ valMask v))
    (u : ValId) : r'.hasBit u = (r.hasBit u && decide (u ≠ v)) := by
  rw [hasBit_update v h, valMask_eq, BitVec.getLsbD_and, BitVec.getLsbD_not, BitVec.getLsbD_twoPow]
  by_cases hb : valBucket u = valBucket v
  · rw [if_pos hb, hasBit_iff, hb]
    by_cases hu : u = v
    · simp [hu, valBit_lt]
    have hbit : valBit v ≠ valBit u := fun h => hu (eq_of_valBucket hb h.symm)
    simp [hu, hbit, valBit_lt]
  · have hu : u ≠ v := fun h => hb (by rw [h])
    simp [hb, hu]

end Registry

/-! ## The loops -/

section Snapshot

variable (w : World)

theorem foldl_pushConsensus (top : List Candidate) (h : ∀ c ∈ top, c.2 = (w.valExecution c.1).stake) :
    top.foldl pushConsensus w =
      { w with
        valsetConsensus := w.valsetConsensus ++ top.map (·.1)
        consensusView := fun u =>
          if u ∈ top.map (·.1) then
            { stake := (w.valExecution u).stake, commission := (w.valExecution u).commission }
          else w.consensusView u } := by
  induction top generalizing w with
  | nil => simp
  | cons c top ih =>
    rw [foldl_cons, ih (w.pushConsensus c) fun c' hc' => h c' (mem_cons_of_mem c hc')]
    have hc : c.2 = (w.valExecution c.1).stake := h c mem_cons_self
    have hview (u : ValId) : (if u ∈ top.map (·.1) then
            { stake := (w.valExecution u).stake, commission := (w.valExecution u).commission }
          else update w.consensusView c.1
            { stake := c.2, commission := (w.valExecution c.1).commission } u) =
        if u ∈ (c :: top).map (·.1) then
            { stake := (w.valExecution u).stake, commission := (w.valExecution u).commission }
          else w.consensusView u := by
      rw [map_cons]
      by_cases htop : u ∈ top.map (·.1)
      · rw [if_pos htop, if_pos (mem_cons_of_mem _ htop)]
      rw [if_neg htop]
      by_cases hu : u = c.1
      · rw [hu, update_self, if_pos mem_cons_self, hc]
      · rw [update_of_ne hu, if_neg fun h => (mem_cons.mp h).elim hu htop]
    simp only [pushConsensus, append_assoc, map_cons, cons_append, nil_append]
    congr 1
    funext u
    exact hview u

/-- The loop that removes the candidates with a flag, from index `k` on. -/
theorem foldr_removeCandidate (bad : ValId → Bool) (m k : Nat) (hm : k + m = w.valsetExecution.length) : ∃ back bits,
    ((List.range' k m).filter fun i => bad (w.valsetExecution.getD i 0)).foldr removeCandidate w =
      { w with
        valsetExecution := w.valsetExecution.take k ++ back
        valBitsetBucket := bits } ∧
    back.Perm ((w.valsetExecution.drop k).filter fun v => !bad v) ∧
    ∀ u, Registry.hasBit u { w.registry with valBitsetBucket := bits } =
      (w.registry.hasBit u && !decide (u ∈ (w.valsetExecution.drop k).filter bad)) := by
  -- the highest index is removed first, so the induction starts at the end of the array
  induction m generalizing k with
  | zero =>
    have hk : w.valsetExecution.length ≤ k := by omega
    refine ⟨[], w.valBitsetBucket, ?_, ?_, fun u => ?_⟩
    · simp [take_of_length_le hk]
    · simp [drop_of_length_le hk]
    · simp only [drop_of_length_le hk, filter_nil, not_mem_nil, decide_false, Bool.not_false, Bool.and_true]
      rfl
  | succ m ih =>
    have hk : k < w.valsetExecution.length := by omega
    obtain ⟨back, bits, hfold, hperm, hbits⟩ := ih (k + 1) (by omega)
    have hget : w.valsetExecution.getD k 0 = w.valsetExecution[k] := by simp [getD_eq_getElem?_getD, hk]
    have hdrop : w.valsetExecution.drop k =
        w.valsetExecution[k] :: w.valsetExecution.drop (k + 1) := drop_eq_getElem_cons hk
    have htake : w.valsetExecution.take (k + 1) = w.valsetExecution.take k ++ [w.valsetExecution[k]] := by
      rw [take_succ_eq_append_getElem hk]
    have hlen : (w.valsetExecution.take k).length = k := by
      rw [length_take]
      omega
    rw [List.range'_succ, filter_cons, hget, hdrop]
    by_cases hbad : bad w.valsetExecution[k]
    · rw [if_pos hbad, foldr_cons, hfold, htake]
      obtain ⟨back', hswap, hperm'⟩ :=
        swapRemove_append (0 : ValId) (w.valsetExecution.take k) w.valsetExecution[k] back
      rw [hlen] at hswap
      have hhead : (w.valsetExecution.take k ++ [w.valsetExecution[k]] ++ back).getD k 0 = w.valsetExecution[k] := by
        rw [append_assoc, getD_append_right _ _ _ _ (by omega), hlen, Nat.sub_self]
        rfl
      refine ⟨back', update bits (valBucket w.valsetExecution[k])
        (bits (valBucket w.valsetExecution[k]) &&& ~~~ valMask w.valsetExecution[k]), ?_, ?_,
        fun u => ?_⟩
      · simp only [removeCandidate, hhead, removeFromValset]
        rw [← hswap, append_assoc]
        rfl
      · rw [filter_cons, if_neg (by simp [hbad])]
        exact hperm'.trans hperm
      · rw [Registry.hasBit_clear (r := { w.registry with valBitsetBucket := bits })
          w.valsetExecution[k] rfl, hbits, filter_cons, if_pos hbad]
        by_cases hu : u = w.valsetExecution[k] <;> simp [hu]
    · refine ⟨w.valsetExecution[k] :: back, bits, ?_, ?_, fun u => ?_⟩
      · rw [if_neg hbad, hfold, htake, append_assoc]
        rfl
      · rw [filter_cons, if_pos (by simp [hbad])]
        exact hperm.cons _
      · rw [hbits, filter_cons, if_neg hbad]

/-! ## The candidates -/

variable {cs : List Candidate} {c : Candidate}

theorem mem_topCandidates (h : c ∈ topCandidates cs) : c ∈ cs :=
  (perm_insertionSort _ cs).mem_iff.mp (mem_of_mem_take h)

theorem length_topCandidates (cs : List Candidate) : (topCandidates cs).length ≤ Limits.activeValsetSize := by
  rw [topCandidates, length_take]
  exact Nat.min_le_left _ _

theorem nodup_topCandidates (h : (cs.map (·.1)).Nodup) : ((topCandidates cs).map (·.1)).Nodup := by
  have hsorted : ((cs.insertionSort fun a b => candidateBefore b a = false).map (·.1)).Nodup :=
    ((perm_insertionSort _ cs).map _).nodup_iff.mpr h
  exact hsorted.sublist ((take_sublist _ _).map _)

theorem map_fst_candidates : w.candidates.map (·.1) =
    w.valsetExecution.filter fun v => (w.valExecution v).flags == validatorFlagsOk := by
  simp [candidates, Function.comp_def]

theorem stake_of_mem_candidates (h : c ∈ w.candidates) : c.2 = (w.valExecution c.1).stake := by
  obtain ⟨v, -, rfl⟩ := mem_map.mp h
  rfl

/-- The validators that a snapshot taken now would choose. -/
def World.chosen (w : World) : List ValId := (topCandidates w.candidates).map (·.1)

theorem mem_execution_of_mem_chosen {v : ValId} (h : v ∈ w.chosen) :
    v ∈ w.valsetExecution ∧ (w.valExecution v).flags = validatorFlagsOk := by
  obtain ⟨c, hc, rfl⟩ := mem_map.mp h
  have hmem : c.1 ∈ w.candidates.map (·.1) := mem_map_of_mem (mem_topCandidates hc)
  rw [map_fst_candidates, mem_filter, beq_iff_eq] at hmem
  exact hmem

/-! ## What a snapshot leaves -/

theorem takeSnapshot_spec : ∃ execution bits, w.takeSnapshot =
      { w with
        inEpochDelayPeriod := true
        valsetExecution := execution
        valBitsetBucket := bits
        valsetConsensus := w.chosen
        consensusView := fun u =>
          if u ∈ w.chosen then
            { stake := (w.valExecution u).stake, commission := (w.valExecution u).commission }
          else if u ∈ w.valsetConsensus then {} else w.consensusView u
        valsetSnapshot := w.valsetConsensus
        snapshotView := fun u =>
          if u ∈ w.valsetConsensus then w.consensusView u
          else if u ∈ w.valsetSnapshot then {} else w.snapshotView u } ∧
    execution.Perm (w.valsetExecution.filter fun v => (w.valExecution v).flags == validatorFlagsOk) ∧
    ∀ u, Registry.hasBit u { w.registry with valBitsetBucket := bits } =
      (w.registry.hasBit u && !decide (u ∈ w.valsetExecution.filter fun v =>
        (w.valExecution v).flags != validatorFlagsOk)) := by
  unfold takeSnapshot
  extract_lets w1 top removals w2 w3
  have hpush : w2 = _ := foldl_pushConsensus w1 top fun c hc => stake_of_mem_candidates w1 (mem_topCandidates hc)
  obtain ⟨back, bits, hrem, hperm, hbits⟩ := foldr_removeCandidate w2
    (fun v => (w.valExecution v).flags != validatorFlagsOk) w2.valsetExecution.length 0 (by simp)
  have hexn : w2.valsetExecution = w.valsetExecution := by rw [hpush]; rfl
  have hremovals : removals = (List.range' 0 w2.valsetExecution.length).filter fun i =>
      (w.valExecution (w2.valsetExecution.getD i 0)).flags != validatorFlagsOk := by
    rw [hexn, ← range_eq_range']
    rfl
  have hconsensusView : w1.consensusView = fun u =>
      if u ∈ w.valsetConsensus then {} else w.consensusView u := by
    funext u
    exact foldr_update ({} : ConsensusView) w.valsetConsensus w.consensusView u
  have hsnapshotView : w1.snapshotView = fun u =>
      if u ∈ w.valsetConsensus then w.consensusView u
      else if u ∈ w.valsetSnapshot then {} else w.snapshotView u := by
    funext u
    rw [← foldr_update {} w.valsetSnapshot w.snapshotView u]
    exact foldl_update w.consensusView w.valsetConsensus _ u
  refine ⟨back, bits, ?_, ?_, fun u => ?_⟩
  · have hw3 : w3 = { w2 with valsetExecution := back, valBitsetBucket := bits } := by
      rw [← hremovals] at hrem
      exact hrem
    rw [hw3, hpush, hconsensusView]
    have hlast : w1.valsetConsensus ++ top.map (·.1) = w.chosen := rfl
    have hsnap : w1.valsetSnapshot = w.valsetConsensus := rfl
    rw [hlast, hsnapshotView, hsnap]
    rfl
  · rw [drop_zero, hexn] at hperm
    simpa [bne, Bool.not_not] using hperm
  · have h := hbits u
    rw [drop_zero, hexn] at h
    rw [← show w2.registry.hasBit u = w.registry.hasBit u by rw [hpush]; rfl]
    exact h

end Snapshot

end MonadExecution.Staking
