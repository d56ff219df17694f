import MonadExecution.Vm.Blocks

/-!
# The hoisted checks do what the checks per instruction do

At the entry of a block both schemes have the same gas. Inside a block the compiled counter is lower by the
static gas of the rest of the block: a run with a reserve. Since the counter only goes down, it is never
negative in a run that ends with gas left. For the stack, the bounds that the emitter tests are enough for
the instructions of the block, also where a test is left out because a bound has not moved.
-/

namespace MonadExecution.Vm

open Lib Int Option Metered Emitter

variable {Op σ : Type} {sem : Semantics Op σ} {ir : List (Block Op)}

/-! ## The stack in a block -/

/-- The instructions have their arguments, and room for their results. -/
def Fits : List (Instruction Op) → Int → Prop
  | [], _ => True
  | i :: rest, size =>
    0 ≤ size - i.stackArgs ∧ size - i.stackArgs + i.stackIncrease ≤ stackLimit ∧
      Fits rest (size - i.stackArgs + i.stackIncrease)

def sizeAfter : List (Instruction Op) → Int → Int
  | [], size => size
  | i :: rest, size => sizeAfter rest (size - i.stackArgs + i.stackIncrease)

def Block.Fits (b : Block Op) (size : Int) : Prop :=
  Vm.Fits b.instrs size ∧ 0 ≤ sizeAfter b.instrs size - terminatorInputs b.terminator

theorem sizeAfter_le {l : List (Instruction Op)} {size : Int} (h : Fits l size) (hsize : size ≤ stackLimit) :
    sizeAfter l size ≤ stackLimit := by
  induction l generalizing size with
  | nil => exact hsize
  | cons i rest ih => exact ih h.2.2 h.2.1

section

variable (l : List (Instruction Op)) (d : Deltas)

/-- Bounds hold after some instructions when they held before and the instructions fit. -/
theorem instrDeltas_iff (base : Int) : 0 ≤ base + (instrDeltas l d).min ∧ base + (instrDeltas l d).max ≤ stackLimit ↔
    (0 ≤ base + d.min ∧ base + d.max ≤ stackLimit) ∧ Fits l (base + d.delta) := by
  induction l generalizing d with
  | nil => exact (and_iff_left trivial).symm
  | cons i rest ih =>
    have hsize : base + (d.delta - i.stackArgs + i.stackIncrease) =
        base + d.delta - i.stackArgs + i.stackIncrease := by ring
    unfold instrDeltas Fits
    rw [ih]
    dsimp only
    rw [hsize]
    constructor
    · rintro ⟨⟨hmin, hmax⟩, hrest⟩
      refine ⟨?_, ?_, ?_, hrest⟩ <;> omega
    · rintro ⟨⟨hmin, hmax⟩, hargs, hroom, hrest⟩
      refine ⟨?_, hrest⟩
      omega

theorem instrDeltas_delta (base : Int) : base + (instrDeltas l d).delta = sizeAfter l (base + d.delta) := by
  induction l generalizing d with
  | nil => rfl
  | cons i rest ih =>
    unfold instrDeltas sizeAfter
    rw [ih]
    congr 1
    ring

theorem instrDeltas_bounds : (instrDeltas l d).min ≤ d.min ∧ d.max ≤ (instrDeltas l d).max := by
  induction l generalizing d with
  | nil => exact ⟨le_refl _, le_refl _⟩
  | cons i rest ih =>
    obtain ⟨hmin, hmax⟩ := ih ⟨Min.min (d.delta - i.stackArgs) d.min,
      d.delta - i.stackArgs + i.stackIncrease, Max.max (d.delta - i.stackArgs + i.stackIncrease) d.max⟩
    exact ⟨hmin.trans (min_le_right _ _), (le_max_right _ _).trans hmax⟩

end

theorem stackDeltas_iff (b : Block Op) {size : Int} (h0 : 0 ≤ size) (h1 : size ≤ stackLimit) :
    0 ≤ size + b.stackDeltas.min ∧ size + b.stackDeltas.max ≤ stackLimit ↔ b.Fits size := by
  have hiff := instrDeltas_iff b.instrs ⟨0, 0, 0⟩ size
  have hdel := instrDeltas_delta b.instrs ⟨0, 0, 0⟩ size
  rw [add_zero] at hiff hdel
  unfold Block.Fits Block.stackDeltas
  dsimp only
  constructor
  · rintro ⟨hmin, hmax⟩
    have hfits := hiff.mp ⟨by omega, hmax⟩
    exact ⟨hfits.2, by omega⟩
  · rintro ⟨hfits, hend⟩
    obtain ⟨hmin, hmax⟩ := hiff.mpr ⟨⟨h0, h1⟩, hfits⟩
    exact ⟨by omega, hmax⟩

theorem stackDeltas_delta (b : Block Op) (size : Int) :
    size + b.stackDeltas.delta = sizeAfter b.instrs size - terminatorInputs b.terminator := by
  have hdel := instrDeltas_delta b.instrs ⟨0, 0, 0⟩ size
  rw [add_zero] at hdel
  rw [← hdel]
  unfold Block.stackDeltas
  ring

theorem stackDeltas_bounds (b : Block Op) : b.stackDeltas.min ≤ 0 ∧ 0 ≤ b.stackDeltas.max := by
  obtain ⟨hmin, hmax⟩ := instrDeltas_bounds b.instrs ⟨0, 0, 0⟩
  exact ⟨(min_le_right _ _).trans hmin, hmax⟩

/-! ## The entry of a block -/

/-- What the compiled code knows on the entry of a block: the size where the stack was last written out, and
the bounds that were tested since. -/
structure Entry (e : Emitter) (base size : Int) : Prop where
  size_eq : size = base + e.tested.delta
  lower : 0 ≤ base + e.tested.min
  upper : base + e.tested.max ≤ stackLimit
  base_nonneg : 0 ≤ base
  base_le : base ≤ stackLimit
  size_nonneg : 0 ≤ size
  size_le : size ≤ stackLimit

theorem enter_eq (e : Emitter) (b : Block Op) :
    (e.enter b).min = Min.min (e.tested.delta + b.stackDeltas.min) e.tested.min ∧
      (e.enter b).delta = e.tested.delta + b.stackDeltas.delta ∧
      (e.enter b).max = Max.max (e.tested.delta + b.stackDeltas.max) e.tested.max := by
  obtain ⟨hmin, hmax⟩ := stackDeltas_bounds b
  unfold enter tested
  cases e.keepStack with
  | true => exact ⟨rfl, rfl, rfl⟩
  | false => refine ⟨?_, ?_, ?_⟩ <;> simp only [Bool.false_eq_true, if_false] <;> omega

namespace Entry

variable {e : Emitter} {b : Block Op} {base size : Int} (h : Entry e base size)

include h

theorem bounds_iff : 0 ≤ base + (e.enter b).min ∧ base + (e.enter b).max ≤ stackLimit ↔ b.Fits size := by
  obtain ⟨hmin, -, hmax⟩ := enter_eq e b
  rw [hmin, hmax, ← stackDeltas_iff b h.size_nonneg h.size_le]
  have hsize := h.size_eq
  have hlo := h.lower
  have hupper := h.upper
  constructor
  · rintro ⟨hl, hu⟩
    omega
  · rintro ⟨hl, hu⟩
    omega

/-- The code goes on behind the tests of an entry exactly when the block fits and the gas passes. -/
theorem compiledEntry_eq_some {gas gas' : Int} : compiledEntry e b base gas = some gas' ↔
    b.Fits size ∧ blockGas b ≤ maxDecrement ∧ ((e.gasDecrement b).2 = true → 0 ≤ gas - blockGas b) ∧
      gas' = gas - blockGas b := by
  have hbounds := h.bounds_iff (b := b)
  have hlo := h.lower
  have hupper := h.upper
  have hbase := h.base_nonneg
  have hbase' := h.base_le
  have hlimit : stackLimit = 1024 := rfl
  unfold compiledEntry Deltas.canEnter
  rw [← hbounds]
  simp only [decide_eq_false_iff_not]
  constructor
  · intro hs
    split at hs
    · cases hs
    split at hs
    · cases hs
    split at hs
    · cases hs
    split at hs
    · cases hs
    rename_i hdec
    split at hs
    · cases hs
    rename_i hgas
    cases hs
    refine ⟨⟨by omega, by omega⟩, not_lt.mp hdec, fun htest => ?_, rfl⟩
    by_contra hneg
    exact hgas ⟨htest, not_le.mp hneg⟩
  · rintro ⟨⟨hl, hu⟩, hdec, hgas, rfl⟩
    rw [if_neg (by omega), if_neg (by omega), if_neg (by omega), if_neg (not_lt.mpr hdec), if_neg]
    rintro ⟨htest, hneg⟩
    exact not_le.mpr hneg (hgas htest)

end Entry

/-! ## The instructions of a block -/

variable {gasCost args increase t i : Nat} {size gas' size' : Int} {l : List (Instruction Op)} {s s' : σ}
  {b : Block Op}

theorem checkRequirements_eq_some {gas : Int} (hsize : size ≤ stackLimit) :
    checkRequirements gasCost args increase size gas = some gas' ↔
      (0 < gasCost → 0 ≤ gas - gasCost) ∧ 0 ≤ size - args ∧ size - args + increase ≤ stackLimit ∧
        gas' = gas - gasCost := by
  unfold checkRequirements
  constructor
  · intro h
    split at h
    · cases h
    split at h
    · cases h
    split at h
    · cases h
    cases h
    refine ⟨?_, ?_, ?_, rfl⟩ <;> omega
  · rintro ⟨hgas, hargs, hroom, rfl⟩
    rw [if_neg (by omega), if_neg (by omega), if_neg (by omega)]

theorem instrsGas_cons (i : Instruction Op) (rest : List (Instruction Op)) :
    (instrsGas (i :: rest) : Int) = i.staticGasCost + instrsGas rest := natCast_add _ _

theorem checkRequirements_gas {gas : Int} (h : checkRequirements gasCost args increase size gas = some gas')
    (hgas : 0 ≤ gas) : 0 ≤ gas' ∧ gas' = gas - gasCost := by
  unfold checkRequirements at h
  split at h
  · cases h
  split at h
  · cases h
  split at h
  · cases h
  cases h
  exact ⟨by omega, rfl⟩

theorem interpretInstrs_nonneg {gas : Int} (hgas : 0 ≤ gas)
    (h : interpretInstrs sem l s size gas = some (s', size', gas')) : 0 ≤ gas' := by
  induction l generalizing s size gas with
  | nil =>
    cases h
    exact hgas
  | cons i rest ih =>
    unfold interpretInstrs at h
    split at h
    · cases h
    rename_i gas₁ hcheck
    split at h
    · cases h
    rename_i s1 gas2 hrun
    exact ih (run_nonneg (checkRequirements_gas hcheck hgas).1 hrun) h

/-- The compiled instructions follow the interpreted ones, with the static gas of the rest taken before. -/
theorem compiledInstrs_of_interpretInstrs {gas : Int} (hsize : size ≤ stackLimit)
    (h : interpretInstrs sem l s size gas = some (s', size', gas')) (hend : 0 ≤ gas' - t) :
    compiledInstrs sem t l s (gas - (instrsGas l + t)) = some (s', gas' - t) ∧ Fits l size ∧
      size' = sizeAfter l size ∧ gas' ≤ gas - instrsGas l := by
  induction l generalizing s size gas with
  | nil =>
    cases h
    have hzero : (instrsGas ([] : List (Instruction Op)) : Int) = 0 := rfl
    rw [hzero, zero_add]
    exact ⟨rfl, trivial, rfl, by omega⟩
  | cons i rest ih =>
    unfold interpretInstrs at h
    split at h
    · cases h
    rename_i gas₁ hcheck
    split at h
    · cases h
    rename_i s1 gas2 hrun
    obtain ⟨-, hargs, hroom, rfl⟩ := (checkRequirements_eq_some hsize).mp hcheck
    obtain ⟨hcomp, hfits, hafter, hle⟩ := ih hroom h
    have hcov : 0 ≤ gas2 - ((instrsGas rest : Int) + t) := by omega
    have hmono := run_le hrun
    have hrun' := (run_reserve (by omega) hcov).mp hrun
    have hgas : gas - i.staticGasCost - ((instrsGas rest : Int) + t) = gas - (instrsGas (i :: rest) + t) := by
      rw [instrsGas_cons]
      ring
    rw [hgas] at hrun'
    refine ⟨?_, ⟨hargs, hroom, hfits⟩, hafter, ?_⟩
    · unfold compiledInstrs
      rw [hrun']
      exact hcomp
    · omega

/-- And the interpreted ones follow the compiled ones, when gas is left and the block fits. -/
theorem interpretInstrs_of_compiledInstrs {gas : Int} (hsize : size ≤ stackLimit) (hfits : Fits l size)
    (h : compiledInstrs sem t l s gas = some (s', gas')) (hend : 0 ≤ gas') :
    interpretInstrs sem l s size (gas + (instrsGas l + t)) = some (s', sizeAfter l size, gas' + t) ∧ gas' ≤ gas := by
  induction l generalizing s size gas with
  | nil =>
    cases h
    have hzero : (instrsGas ([] : List (Instruction Op)) : Int) = 0 := rfl
    rw [hzero, zero_add]
    exact ⟨rfl, le_refl _⟩
  | cons i rest ih =>
    obtain ⟨hargs, hroom, hfits⟩ := hfits
    unfold compiledInstrs at h
    split at h
    · cases h
    rename_i s1 gas₁ hrun
    obtain ⟨hint, hle⟩ := ih hroom hfits h
    have hmono := run_le hrun
    have hrun' := run_of_reserve (by omega) (by omega) hrun
    have hgas : gas + ((instrsGas (i :: rest) : Int) + t) - i.staticGasCost = gas + (instrsGas rest + t) := by
      rw [instrsGas_cons]
      ring
    have hcheck : checkRequirements i.staticGasCost i.stackArgs i.stackIncrease size
        (gas + (instrsGas (i :: rest) + t)) = some (gas + (instrsGas rest + t)) :=
      (checkRequirements_eq_some hsize).mpr ⟨fun _ => by omega, hargs, hroom, hgas.symm⟩
    refine ⟨?_, hle.trans hmono⟩
    unfold interpretInstrs
    rw [hcheck]
    dsimp only
    rw [hrun']
    exact hint

/-! ## From block to block -/

variable {manySpills : Nat → Bool}

theorem Entry.fresh {e : Emitter} (he : e.keepStack = false) (h0 : 0 ≤ size) (h1 : size ≤ stackLimit) :
    Entry e size size := by
  have htested : e.tested = ⟨0, 0, 0⟩ := by
    unfold tested
    rw [he]
    rfl
  refine ⟨?_, ?_, ?_, h0, h1, h0, h1⟩
  · rw [htested, add_zero]
  · rw [htested, add_zero]
    exact h0
  · rw [htested, add_zero]
    exact h1

/-- The stack is never kept for a jump destination. -/
theorem keepStack_of_isJumpDest (hb : ir[i]? = some b) (hj : b.isJumpDest = true) :
    (emitterAt ir manySpills i).keepStack = false := by
  cases i with
  | zero => rfl
  | succ i =>
    unfold emitterAt next
    split
    · rename_i hnone
      have hlen := (List.getElem?_eq_some_iff.mp hb).1
      have hlen' := List.getElem?_eq_none_iff.mp hnone
      omega
    · split
      · rw [hb]
        simp [keepsStack, hj]
      · rfl

theorem emitterAt_deltas (hb : ir[i]? = some b) :
    (emitterAt ir manySpills (i + 1)).deltas = (emitterAt ir manySpills i).enter b := by
  change ((emitterAt ir manySpills i).next ir[i]? ir[i + 1]? (manySpills i)).deltas = _
  rw [hb]
  unfold next
  dsimp only
  split
  · rfl
  · rfl

section Step

variable {i : Nat} {b : Block Op} {base size : Int}

theorem Entry.written (h : Entry (emitterAt ir manySpills i) base size) :
    base + ((emitterAt ir manySpills i).enter b).delta = sizeAfter b.instrs size - terminatorInputs b.terminator := by
  rw [(enter_eq _ b).2.1, ← stackDeltas_delta, h.size_eq]
  ring

/-- Behind a block that fits, the compiled code knows what it has to know on the entry of the next one. -/
theorem Entry.next (h : Entry (emitterAt ir manySpills i) base size) (hb : ir[i]? = some b) (hfits : b.Fits size)
    {dest : Nat} {fell : Bool} {gas : Int}
    (hdest : fell = true ∧ dest = i + 1 ∨ fell = false ∧ ∃ b', ir[dest]? = some b' ∧ b'.isJumpDest = true) :
    Entry (emitterAt ir manySpills dest) (writtenSize ir manySpills i b base (.enter dest fell s gas))
      (sizeAfter b.instrs size - terminatorInputs b.terminator) := by
  have hwr := h.written (b := b)
  have hle := sizeAfter_le hfits.1 h.size_le
  have hsize : sizeAfter b.instrs size - terminatorInputs b.terminator ≤ stackLimit := by omega
  unfold writtenSize
  dsimp only
  rcases hdest with ⟨rfl, rfl⟩ | ⟨rfl, b', hb', hj⟩
  · cases hkeep : (emitterAt ir manySpills (i + 1)).keepStack with
    | true =>
      obtain ⟨hlo, hupper⟩ := (h.bounds_iff (b := b)).mpr hfits
      have htested : (emitterAt ir manySpills (i + 1)).tested = (emitterAt ir manySpills i).enter b := by
        unfold tested
        rw [hkeep, emitterAt_deltas hb]
        rfl
      refine ⟨?_, ?_, ?_, h.base_nonneg, h.base_le, hfits.2, hsize⟩
      · rw [htested]
        exact hwr.symm
      · rw [htested]
        exact hlo
      · rw [htested]
        exact hupper
    | false =>
      rw [if_neg (by decide), hwr]
      exact Entry.fresh hkeep hfits.2 hsize
  · rw [Bool.false_and, if_neg Bool.false_ne_true, hwr]
    exact Entry.fresh (keepStack_of_isJumpDest hb' hj) hfits.2 hsize

end Step

/-- The gas behind a block. -/
def After.gas : After σ → Int
  | .enter _ _ _ gas => gas
  | .ended _ _ gas => gas

variable {i : Nat} {t : Terminator} {exit : Exit σ} {gas' : Int} {s : σ}

theorem copyResultData_ended {gas : Int} {status : Status} {after : After σ}
    (h : copyResultData sem status s gas = some after) : ∃ g, after = .ended status s g ∧ g ≤ gas ∧ 0 ≤ g := by
  unfold copyResultData at h
  split at h
  · cases h
  split at h
  · cases h
  split at h
  · cases h
  cases h
  exact ⟨_, rfl, by omega, by omega⟩

theorem leave_gas {gas : Int} {after : After σ} (h : leave sem ir i t exit gas = some after) :
    after.gas ≤ gas ∧ (0 ≤ gas → 0 ≤ after.gas) := by
  unfold leave at h
  split at h
  · split at h
    · cases h
      exact ⟨le_refl _, id⟩
    · cases h
  · split at h
    · cases h
      exact ⟨le_refl _, id⟩
    · cases h
  · obtain ⟨_, rfl, hle, hpos⟩ := copyResultData_ended h
    exact ⟨hle, fun _ => hpos⟩

/-- A contract only ends with gas that is not negative. -/
theorem leave_ended {gas : Int} {status : Status} (h : leave sem ir i t exit gas = some (.ended status s gas')) :
    0 ≤ gas' := by
  unfold leave at h
  split at h
  · split at h <;> cases h
  · split at h <;> cases h
  obtain ⟨_, hend, -, hpos⟩ := copyResultData_ended h
  cases hend
  exact hpos

theorem leave_enter {gas : Int} {dest : Nat} {fell : Bool}
    (h : leave sem ir i t exit gas = some (.enter dest fell s gas')) :
    fell = true ∧ dest = i + 1 ∨ fell = false ∧ ∃ b', ir[dest]? = some b' ∧ b'.isJumpDest = true := by
  unfold leave at h
  split at h
  · split at h
    · cases h
      exact .inl ⟨rfl, rfl⟩
    · cases h
  · split at h
    · rename_i hj
      cases h
      cases hb : ir[dest]? with
      | none =>
        rw [hb] at hj
        cases hj
      | some b' =>
        rw [hb] at hj
        exact .inr ⟨rfl, b', rfl, hj⟩
    · cases h
  · obtain ⟨_, hend, -⟩ := copyResultData_ended h
    cases hend

/-! ## Blocks -/

section Blocks

variable {i : Nat} {s : σ} {base size size' gas : Int} {after : After σ}

/-- Behind a block the sizes and bounds are known again. -/
def KnownAfter (ir : List (Block Op)) (manySpills : Nat → Bool) (base' size' : Int) : After σ → Prop
  | .enter dest _ _ _ => Entry (emitterAt ir manySpills dest) base' size'
  | .ended .. => True

variable {b : Block Op} {gas' base' : Int}

theorem Entry.knownAfter (h : Entry (emitterAt ir manySpills i) base size) (hb : ir[i]? = some b)
    (hfits : b.Fits size) (hlv : leave sem ir i b.terminator exit gas = some after) :
    KnownAfter ir manySpills (writtenSize ir manySpills i b base after)
      (sizeAfter b.instrs size - terminatorInputs b.terminator) after := by
  cases after with
  | enter dest fell s' gas' => exact h.next hb hfits (leave_enter hlv)
  | ended status s' gas' => trivial

theorem blockGas_eq (b : Block Op) :
    (blockGas b : Int) = (if b.isJumpDest then 1 else 0 : Nat) + (instrsGas b.instrs +
      terminatorStaticGas b.terminator) := by
  unfold blockGas blockBaseGas
  split <;> push_cast <;> ring

/-- A block that the interpreter runs is run by the compiled code. -/
theorem compiledBlock_of_interpretBlock (h : Entry (emitterAt ir manySpills i) base size) (hgas : 0 ≤ gas)
    (hsml : gas ≤ maxDecrement ∨ ∀ b ∈ ir, blockGas b ≤ maxDecrement)
    (hi : interpretBlock sem ir i s size gas = some (after, size')) :
    ∃ base', compiledBlock sem ir manySpills i s base gas = some (after, base') ∧
      KnownAfter ir manySpills base' size' after ∧ 0 ≤ after.gas ∧ after.gas ≤ gas := by
  unfold interpretBlock at hi
  unfold compiledBlock
  cases hb : ir[i]? with
  | none =>
    rw [hb] at hi
    cases hi
  | some b =>
    rw [hb] at hi
    dsimp only at hi ⊢
    split at hi
    · cases hi
    rename_i gas₁ hdest
    split at hi
    · cases hi
    rename_i s2 size2 gas2 hins
    unfold interpretTerminator at hi
    split at hi
    · cases hi
    rename_i gas3 hterm
    split at hi
    · cases hi
    rename_i exit gas4 hexit
    obtain ⟨after', hlv, hmap⟩ := map_eq_some_iff.mp hi
    cases hmap
    obtain ⟨hgas1, rfl⟩ := checkRequirements_gas hdest hgas
    have hgas2 := interpretInstrs_nonneg hgas1 hins
    obtain ⟨hgas3, rfl⟩ := checkRequirements_gas hterm hgas2
    obtain ⟨hcomp, hfits, rfl, hle⟩ := compiledInstrs_of_interpretInstrs h.size_le hins hgas3
    obtain ⟨-, hinputs, -, -⟩ := (checkRequirements_eq_some (sizeAfter_le hfits h.size_le)).mp hterm
    have hblk := blockGas_eq b
    rw [sub_sub, ← hblk] at hcomp
    have hdec : blockGas b ≤ maxDecrement := by
      rcases hsml with hsml | hsml
      · omega
      · exact hsml b (List.mem_of_getElem? hb)
    have hent : compiledEntry (emitterAt ir manySpills i) b base gas = some (gas - blockGas b) :=
      h.compiledEntry_eq_some.mpr ⟨⟨hfits, hinputs⟩, hdec, fun _ => by omega, rfl⟩
    have hmono := run_le hexit
    obtain ⟨hafter, hnonneg⟩ := leave_gas hlv
    rw [hent]
    dsimp only
    rw [hcomp]
    dsimp only
    rw [hexit]
    dsimp only
    rw [hlv]
    refine ⟨_, rfl, h.knownAfter hb ⟨hfits, hinputs⟩ hlv, hnonneg (run_nonneg hgas3 hexit), ?_⟩
    omega

theorem compiledEntry_le {e : Emitter} (h : compiledEntry e b base gas = some gas') : gas' ≤ gas := by
  unfold compiledEntry at h
  dsimp only at h
  split_ifs at h
  cases h
  omega

theorem compiledInstrs_le {t : Nat} (h : compiledInstrs sem t l s gas = some (s', gas')) : gas' ≤ gas := by
  induction l generalizing s gas with
  | nil =>
    cases h
    exact le_refl _
  | cons i rest ih =>
    unfold compiledInstrs at h
    split at h
    · cases h
    rename_i hrun
    exact (ih h).trans (run_le hrun)

theorem compiledBlock_gas_le (h : compiledBlock sem ir manySpills i s base gas = some (after, base')) :
    after.gas ≤ gas := by
  unfold compiledBlock at h
  split at h
  · cases h
  split at h
  · cases h
  rename_i hent
  split at h
  · cases h
  rename_i hins
  split at h
  · cases h
  rename_i hexit
  obtain ⟨after', hlv, hmap⟩ := map_eq_some_iff.mp h
  cases hmap
  calc after.gas ≤ _ := (leave_gas hlv).1
    _ ≤ _ := run_le hexit
    _ ≤ _ := compiledInstrs_le hins
    _ ≤ gas := compiledEntry_le hent

theorem compiledBlock_decrement (hb : ir[i]? = some b)
    (h : compiledBlock sem ir manySpills i s base gas = some (after, base')) : blockGas b ≤ maxDecrement := by
  unfold compiledBlock at h
  rw [hb] at h
  dsimp only at h
  split at h
  · cases h
  rename_i hent
  unfold compiledEntry at hent
  dsimp only at hent
  split_ifs at hent with _ _ _ hdec
  exact not_lt.mp hdec

theorem compiledBlock_ended {status : Status} {t : σ}
    (h : compiledBlock sem ir manySpills i s base gas = some (.ended status t gas', base')) : 0 ≤ gas' := by
  unfold compiledBlock at h
  split at h
  · cases h
  split at h
  · cases h
  split at h
  · cases h
  split at h
  · cases h
  obtain ⟨after', hlv, hmap⟩ := map_eq_some_iff.mp h
  cases hmap
  exact leave_ended hlv

/-- A block that the compiled code runs with gas left at the end is run by the interpreter. -/
theorem interpretBlock_of_compiledBlock (h : Entry (emitterAt ir manySpills i) base size)
    (hc : compiledBlock sem ir manySpills i s base gas = some (after, base')) (hend : 0 ≤ after.gas) :
    ∃ size', interpretBlock sem ir i s size gas = some (after, size') ∧
      KnownAfter ir manySpills base' size' after := by
  unfold compiledBlock at hc
  unfold interpretBlock
  cases hb : ir[i]? with
  | none =>
    rw [hb] at hc
    cases hc
  | some b =>
    rw [hb] at hc
    dsimp only at hc ⊢
    split at hc
    · cases hc
    rename_i gas₁ hent
    split at hc
    · cases hc
    rename_i s2 gas2 hins
    split at hc
    · cases hc
    rename_i exit gas3 hexit
    obtain ⟨after', hlv, hmap⟩ := map_eq_some_iff.mp hc
    cases hmap
    obtain ⟨hfits, -, -, rfl⟩ := h.compiledEntry_eq_some.mp hent
    have hafter := (leave_gas hlv).1
    have hmono := run_le hexit
    have hgas2 : 0 ≤ gas2 := by omega
    obtain ⟨hint, hle⟩ := interpretInstrs_of_compiledInstrs h.size_le hfits.1 hins hgas2
    have hblk := blockGas_eq b
    have hsum : gas - (blockGas b : Int) + (instrsGas b.instrs + terminatorStaticGas b.terminator) =
        gas - (if b.isJumpDest then 1 else 0 : Nat) := by
      rw [hblk]
      ring
    rw [hsum] at hint
    have hdest : checkRequirements (if b.isJumpDest then 1 else 0) 0 0 size gas =
        some (gas - (if b.isJumpDest then 1 else 0 : Nat)) := by
      have hsize := h.size_nonneg
      have hsize' := h.size_le
      refine (checkRequirements_eq_some h.size_le).mpr ⟨fun _ => ?_, ?_, ?_, rfl⟩ <;> omega
    have hterm : checkRequirements (terminatorStaticGas b.terminator) (terminatorInputs b.terminator) 0
        (sizeAfter b.instrs size) (gas2 + terminatorStaticGas b.terminator) = some gas2 := by
      have hsize := sizeAfter_le hfits.1 h.size_le
      refine (checkRequirements_eq_some hsize).mpr ⟨fun _ => ?_, hfits.2, ?_, ?_⟩ <;> omega
    unfold interpretTerminator
    rw [hdest]
    dsimp only
    rw [hint]
    dsimp only
    rw [hterm]
    dsimp only
    rw [hexit]
    dsimp only
    rw [hlv]
    exact ⟨_, rfl, h.knownAfter hb hfits hlv⟩

end Blocks

/-! ## Runs -/

section Runs

variable {i : Nat} {s t : σ} {base size gas gas' : Int} {status : Status}

theorem Compiled.gas_bounds (h : Compiled sem ir manySpills i s base gas status t gas') : 0 ≤ gas' ∧ gas' ≤ gas := by
  induction h with
  | ended hblk => exact ⟨compiledBlock_ended hblk, compiledBlock_gas_le hblk⟩
  | enter hblk _ ih => exact ⟨ih.1, ih.2.trans (compiledBlock_gas_le hblk)⟩

theorem Interprets.compiled (h : Interprets sem ir i s size gas status t gas') :
    ∀ base, Entry (emitterAt ir manySpills i) base size → 0 ≤ gas →
      (gas ≤ maxDecrement ∨ ∀ b ∈ ir, blockGas b ≤ maxDecrement) →
      Compiled sem ir manySpills i s base gas status t gas' := by
  induction h with
  | ended hblk =>
    intro base hent hgas hsml
    obtain ⟨base', hcomp, -, -, -⟩ := compiledBlock_of_interpretBlock hent hgas hsml hblk
    exact .ended hcomp
  | enter hblk _ ih =>
    intro base hent hgas hsml
    obtain ⟨base', hcomp, hkn, hgas1, hle⟩ := compiledBlock_of_interpretBlock hent hgas hsml hblk
    exact .enter hcomp (ih base' hkn hgas1 (hsml.imp_left fun hs => hle.trans hs))

theorem Compiled.interprets (h : Compiled sem ir manySpills i s base gas status t gas') :
    ∀ size, Entry (emitterAt ir manySpills i) base size → Interprets sem ir i s size gas status t gas' := by
  induction h with
  | ended hblk =>
    intro size hent
    have hend := (Compiled.ended hblk).gas_bounds.1
    obtain ⟨size', hint, -⟩ := interpretBlock_of_compiledBlock hent hblk hend
    exact .ended hint
  | enter hblk hrest ih =>
    intro size hent
    obtain ⟨hnonneg, hle⟩ := hrest.gas_bounds
    obtain ⟨size', hint, hkn⟩ := interpretBlock_of_compiledBlock hent hblk (hnonneg.trans hle)
    exact .enter hint (ih size' hkn)

end Runs

/-- A contract ends with success or a revert under the compiled checks exactly when it does under the checks of the
interpreter, in the same state and with the same gas, as long as no block takes more gas at once than is
subtracted at once, or there is no more gas than that. -/
theorem hoisted_checks_iff (sem : Semantics Op σ) (ir : List (Block Op)) (manySpills : Nat → Bool) (s t : σ)
    (gas gas' : Int) (status : Status) (hgas : 0 ≤ gas)
    (hsmall : gas ≤ maxDecrement ∨ ∀ b ∈ ir, blockGas b ≤ maxDecrement) :
    Compiled sem ir manySpills 0 s 0 gas status t gas' ↔ Interprets sem ir 0 s 0 gas status t gas' := by
  have hent : Entry (emitterAt ir manySpills 0) 0 0 := Entry.fresh rfl (le_refl 0) (by decide)
  exact ⟨fun h => h.interprets 0 hent, fun h => h.compiled 0 hent hgas hsmall⟩

/-- `CALL` reads the gas, hands it over, gets some of it back and keeps what it has read; the other instructions do
nothing, and a jump goes to the second block. -/
def callSemantics : Semantics Bool Int where
  instr isCall s := if isCall then .read fun gas => .handOver 2600 100 (by decide) fun _ => .returned 700 gas else .done s
  terminator
    | .jump, s => .done (.goto 1 s)
    | _, s => .done (.halt .success s)
  resultCost _ := some 3

/-- A call, and a jump to a block that stops. -/
def callContract : List (Block Bool) :=
  let push : Instruction Bool := ⟨false, 2, 0, 1⟩
  [⟨[push, push, push, push, push, push, push, ⟨true, 100, 7, 1⟩, push], .jump, false⟩, ⟨[push], .stop, true⟩]

theorem hoisted_checks_iff_call :
    Compiled callSemantics callContract (fun _ => false) 0 0 0 10000 .success 9886 6670 := by
  have hcall : interpretBlock callSemantics callContract 0 0 0 10000 = some (.enter 1 false 9886 6676, 1) := rfl
  have hstop : interpretBlock callSemantics callContract 1 9886 1 6676 = some (.ended .success 9886 6670, 2) := rfl
  exact (hoisted_checks_iff callSemantics callContract (fun _ => false) 0 9886 10000 6670 .success
    (by decide) (.inl (by decide))).mpr (.enter hcall (.ended hstop))

/-! ## A block that takes more gas than is subtracted at once -/

section Large

/-- Instructions that do nothing but cost gas, in a contract that then stops. -/
def plainSemantics : Semantics Unit Unit where
  instr := fun _ s => .done s
  terminator := fun _ s => .done (.halt .success s)
  resultCost := fun _ => some 0

def push0 : Instruction Unit := ⟨(), 2, 0, 1⟩

def create : Instruction Unit := ⟨(), 32000, 3, 1⟩

/-- `CREATE` over and over, with the last result as one of its arguments. -/
def creates : Nat → List (Instruction Unit)
  | 0 => []
  | n + 1 => push0 :: push0 :: create :: creates n

def createBlock (n : Nat) : Block Unit := ⟨push0 :: creates n, .stop, false⟩

theorem instrsGas_creates (n : Nat) : instrsGas (creates n) = 32004 * n := by
  induction n with
  | zero => rfl
  | succ n ih =>
    change 2 + (2 + (32000 + instrsGas (creates n))) = _
    rw [ih]
    ring

theorem fits_creates (n : Nat) : Fits (creates n) 1 := by
  induction n with
  | zero => trivial
  | succ n ih => exact ⟨by decide, by decide, by decide, by decide, by decide, by decide, ih⟩

theorem compiledInstrs_plain (l : List (Instruction Unit)) (t : Nat) (gas : Int) :
    compiledInstrs plainSemantics t l () gas = some ((), gas) := by
  induction l with
  | nil => rfl
  | cons i rest ih => exact ih

theorem sizeAfter_creates (n : Nat) : sizeAfter (creates n) 1 = 1 := by
  induction n with
  | zero => rfl
  | succ n ih => exact ih

theorem blockGas_createBlock (n : Nat) : blockGas (createBlock n) = 2 + 32004 * n := by
  change 2 + instrsGas (creates n) + 0 = _
  rw [instrsGas_creates]
  rfl

theorem interpretBlock_createBlock (n : Nat) {gas : Int} (h : (2 + 32004 * n : Nat) ≤ gas) :
    interpretBlock plainSemantics [createBlock n] 0 () 0 gas =
      some (.ended .success () (gas - (2 + 32004 * n : Nat)), 1) := by
  have hfits : Fits (push0 :: creates n) 0 := ⟨by decide, by decide, fits_creates n⟩
  have hgas : (instrsGas (push0 :: creates n) : Int) = (2 + 32004 * n : Nat) := by
    change ((2 + instrsGas (creates n) : Nat) : Int) = _
    rw [instrsGas_creates]
  have hleft : 0 ≤ gas - (2 + 32004 * n : Nat) := by omega
  obtain ⟨hint, -⟩ := interpretInstrs_of_compiledInstrs (t := 0) (by decide) hfits
    (compiledInstrs_plain (push0 :: creates n) 0 (gas - (2 + 32004 * n : Nat))) hleft
  rw [hgas, Nat.cast_zero, add_zero, sub_add_cancel, add_zero] at hint
  have hsize : sizeAfter (push0 :: creates n) 0 = 1 := sizeAfter_creates n
  rw [hsize] at hint
  have hfree : ∀ size gas : Int, 0 ≤ size → size ≤ stackLimit → checkRequirements 0 0 0 size gas = some gas := by
    intro size gas h0 h1
    refine (checkRequirements_eq_some h1).mpr ⟨fun hpos => absurd hpos (lt_irrefl 0), ?_, ?_, ?_⟩ <;> omega
  have hdest : checkRequirements (if (createBlock n).isJumpDest then 1 else 0) 0 0 0 gas = some gas :=
    hfree 0 gas (by decide) (by decide)
  have hins : interpretInstrs plainSemantics (createBlock n).instrs () 0 gas =
      some ((), 1, gas - (2 + 32004 * n : Nat)) := hint
  have hterm : checkRequirements (terminatorStaticGas (createBlock n).terminator)
      (terminatorInputs (createBlock n).terminator) 0 1 (gas - (2 + 32004 * n : Nat)) =
        some (gas - (2 + 32004 * n : Nat)) := hfree 1 _ (by decide) (by decide)
  have hresult : copyResultData plainSemantics .success () (gas - (2 + 32004 * n : Nat)) =
      some (.ended .success () (gas - (2 + 32004 * n : Nat))) := by
    unfold copyResultData plainSemantics
    dsimp only
    rw [if_neg (not_lt.mpr hleft), Nat.cast_zero, sub_zero, if_neg (not_lt.mpr hleft)]
  unfold interpretBlock
  have hb : [createBlock n][0]? = some (createBlock n) := rfl
  rw [hb]
  dsimp only
  rw [hdest]
  dsimp only
  rw [hins]
  dsimp only
  unfold interpretTerminator
  rw [hterm]
  change (copyResultData plainSemantics .success () (gas - (2 + 32004 * n : Nat))).map _ = _
  rw [hresult]
  rfl

/-- A contract of a few ten thousand times `CREATE` runs in the interpreter, when there is gas for it, but the compiled
code fails. -/
theorem hoisted_checks_large :
    Interprets plainSemantics [createBlock 70000] 0 () 0 (2 ^ 32) .success () (2 ^ 32 - 2240280002) ∧
      ∀ manySpills status t gas',
        ¬Compiled plainSemantics [createBlock 70000] manySpills 0 () 0 (2 ^ 32) status t gas' := by
  have hint : interpretBlock plainSemantics [createBlock 70000] 0 () 0 (2 ^ 32) =
      some (.ended .success () (2 ^ 32 - (2 + 32004 * 70000 : Nat)), 1) :=
    interpretBlock_createBlock 70000 (by decide)
  have hlarge : maxDecrement < blockGas (createBlock 70000) := by
    rw [blockGas_createBlock]
    decide
  constructor
  · exact .ended hint
  · intro manySpills status t gas' hrun
    cases hrun with
    | ended hblk | enter hblk _ => exact not_le.mpr hlarge (compiledBlock_decrement rfl hblk)

end Large

end MonadExecution.Vm
