import MonadExecution.Staking.Calldata
import MonadExecution.Staking.Roster

/-!
# What a snapshot selects

The consensus set of the next epoch is the beginning of the candidates in their order: more stake first,
and among equal stakes the older validator. The sets that were in use move on by one place, and
validators that lost their place among the candidates lose their bit with it.
-/

namespace MonadExecution.Staking

open Program List World

/-! ## The order of the candidates -/

/-- `u` stands before `v` in the order of the snapshot. -/
def World.Ahead (w : World) (u v : ValId) : Prop :=
  (w.valExecution v).stake < (w.valExecution u).stake ∨
    (w.valExecution u).stake = (w.valExecution v).stake ∧ u.toNat < v.toNat

/-- The candidates without a flag, as they stand in the execution set. -/
def World.okValidators (w : World) : List ValId :=
  w.valsetExecution.filter fun v => (w.valExecution v).flags == validatorFlagsOk

theorem candidateBefore_iff (a b : Candidate) :
    candidateBefore a b = true ↔ b.2 < a.2 ∨ a.2 = b.2 ∧ a.1.toNat < b.1.toNat := by
  unfold candidateBefore
  split_ifs with h
  · simp [h]
  have heq : a.2 = b.2 := not_not.mp h
  simp [heq]

/-- The relation of the sort: `a` may stay in front of `b`. -/
theorem not_candidateBefore_iff (a b : Candidate) :
    candidateBefore b a = false ↔ b.2 < a.2 ∨ a.2 = b.2 ∧ a.1.toNat ≤ b.1.toNat := by
  rw [← Bool.not_eq_true, candidateBefore_iff]
  omega

instance : Std.Total fun a b : Candidate => candidateBefore b a = false where
  total a b := by
    rw [not_candidateBefore_iff, not_candidateBefore_iff]
    omega

instance : IsTrans Candidate fun a b => candidateBefore b a = false where
  trans a b c := by
    rw [not_candidateBefore_iff, not_candidateBefore_iff, not_candidateBefore_iff]
    omega

section Selection

variable (w : World)

/-- The candidates in the order of the snapshot. -/
def World.ranking : List ValId := (w.candidates.insertionSort fun a b => candidateBefore b a = false).map (·.1)

theorem ranking_perm : w.ranking.Perm w.okValidators := by
  rw [okValidators, ← map_fst_candidates]
  exact (perm_insertionSort _ _).map _

theorem ranking_pairwise (h : w.valsetExecution.Nodup) : w.ranking.Pairwise w.Ahead := by
  have hnd : w.ranking.Nodup := (ranking_perm w).nodup_iff.mpr (h.filter _)
  have hstk {c : Candidate} (hc : c ∈ w.candidates.insertionSort fun a b =>
      candidateBefore b a = false) : c.2 = (w.valExecution c.1).stake :=
    stake_of_mem_candidates w ((perm_insertionSort _ _).mem_iff.mp hc)
  have hsorted := pairwise_insertionSort (fun a b : Candidate => candidateBefore b a = false) w.candidates
  -- the ids differ, so that candidates with the same stake stand in the strict order of their ids
  rw [ranking, List.Nodup, pairwise_map] at hnd
  rw [ranking, pairwise_map]
  refine (hsorted.and hnd).imp_of_mem fun {a b} ha hb hab => ?_
  have hne : a.1.toNat ≠ b.1.toNat := fun heq => hab.2 (BitVec.eq_of_toNat_eq heq)
  have hle := (not_candidateBefore_iff a b).mp hab.1
  rw [hstk ha, hstk hb] at hle
  unfold World.Ahead
  omega

theorem chosen_eq : w.chosen = w.ranking.take (min Limits.activeValsetSize w.okValidators.length) := by
  rw [← (ranking_perm w).length_eq, chosen, topCandidates, map_take, ← ranking, take_eq_take_iff]
  omega

end Selection

/-! ## The system call -/

theorem syscallSnapshot_ok_iff {input : Bytes} {value : Nat} {w w' : World} :
    syscallSnapshot input value w = .ok () w' ↔
      value = 0 ∧ input = [] ∧ w.inEpochDelayPeriod = false ∧ w' = w.takeSnapshot := by
  unfold syscallSnapshot
  by_cases hval : value = 0 <;> by_cases hinput : input = [] <;>
    cases hd : w.inEpochDelayPeriod <;>
    simp [bind_run, require, load, update, hval, hinput, hd, pure_run, throw, throwThe,
      MonadExceptOf.throw, EStateM.throw, eq_comm]

/-- **A snapshot selects the top validators.** -/
theorem snapshot_selects_top (rev : MonadRevision) (crypto : Crypto) (calls : List Call) {input : Bytes}
    {value : Nat} {w' : World} (h : syscallSnapshot input value (after rev crypto calls) = .ok () w') :
    let w := after rev crypto calls
    (∃ ranking : List ValId, ranking.Perm w.okValidators ∧ ranking.Pairwise w.Ahead ∧
        w'.valsetConsensus = ranking.take (min 200 w.okValidators.length)) ∧
      (∀ u ∈ w'.valsetConsensus, w'.consensusView u =
        { stake := (w.valExecution u).stake, commission := (w.valExecution u).commission }) ∧
      (∀ u ∉ w'.valsetConsensus, (w'.consensusView u).stake = 0) ∧
      w'.valsetSnapshot = w.valsetConsensus ∧
      (∀ u ∈ w.valsetConsensus, w'.snapshotView u = w.consensusView u) ∧
      (∀ u ∉ w.valsetConsensus, (u ∈ w.valsetSnapshot → w'.snapshotView u = {}) ∧ (w'.snapshotView u).stake = 0) ∧
      w'.valsetExecution.Nodup ∧
      (∀ u, u ∈ w'.valsetExecution ↔ (w.valExecution u).exist = true ∧ (w.valExecution u).flags = validatorFlagsOk) ∧
      ∀ u, w'.registry.hasBit u = true ↔ w.registry.hasBit u = true ∧
        ¬ (u ∈ w.valsetExecution ∧ u ∉ w'.valsetExecution) := by
  intro w
  obtain ⟨-, -, -, rfl⟩ := syscallSnapshot_ok_iff.mp h
  have hros : Roster rev w.registry w.stakes := roster_after rev crypto calls
  obtain ⟨execution, bits, hspec, hperm, hbits⟩ := takeSnapshot_spec w
  have hexn (u : ValId) : u ∈ execution ↔ u ∈ w.valsetExecution ∧ (w.valExecution u).flags = validatorFlagsOk := by
    rw [hperm.mem_iff, mem_filter, beq_iff_eq]
  rw [show (after rev crypto calls).takeSnapshot = _ from hspec]
  refine ⟨⟨w.ranking, ranking_perm w, ranking_pairwise w hros.nodup, chosen_eq w⟩, fun u hu => if_pos hu,
    fun u hu => ?_, rfl, fun u hu => if_pos hu, fun u hu => ⟨fun hold => ?_, ?_⟩, ?_, fun u => ?_,
    fun u => ?_⟩
  · dsimp only at hu ⊢
    rw [if_neg hu]
    by_cases hold : u ∈ w.valsetConsensus
    · rw [if_pos hold]
    rw [if_neg hold]
    exact not_not.mp (mt (hros.consensus.mem_iff u).mpr hold)
  · dsimp only
    rw [if_neg hu, if_pos hold]
  · dsimp only
    rw [if_neg hu]
    by_cases hold : u ∈ w.valsetSnapshot
    · rw [if_pos hold]
    rw [if_neg hold]
    exact not_not.mp (mt (hros.snapshot.mem_iff u).mpr hold)
  · exact hperm.nodup_iff.mpr (hros.nodup.filter _)
  · rw [hexn, exist_iff]
    exact ⟨fun hu => ⟨hros.exist u hu.1, hu.2⟩, fun hu => ⟨hros.listed u hu.1 hu.2, hu.2⟩⟩
  · refine (Bool.eq_iff_iff.mp (hbits u)).trans ?_
    rw [Bool.and_eq_true, Bool.not_eq_true', decide_eq_false_iff_not, mem_filter, bne_iff_ne, hexn]
    tauto

/-- Two validators, of which the second has more stake. -/
theorem snapshot_selects_top_two :
    let w := after .five .acceptAll [Call.register 3 4 0 5 (20000000 * mon),
      .register 7 8 0 9 (10000000 * mon), .onEpochChange 1]
    w.takeSnapshot.valsetConsensus = [2, 1] ∧
      ∃ ranking : List ValId, ranking.Perm w.okValidators ∧ ranking.Pairwise w.Ahead ∧
        w.takeSnapshot.valsetConsensus = ranking.take (min 200 w.okValidators.length) := by
  intro w
  have hd : w.inEpochDelayPeriod = false := by decide +kernel
  have hok : syscallSnapshot [] 0 w = .ok () w.takeSnapshot := syscallSnapshot_ok_iff.mpr ⟨rfl, rfl, hd, rfl⟩
  exact ⟨by decide +kernel, (snapshot_selects_top .five .acceptAll _ hok).1⟩

end MonadExecution.Staking
