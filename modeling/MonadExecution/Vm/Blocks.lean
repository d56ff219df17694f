import MonadExecution.Lib.Metered
import Mathlib.Data.List.Basic

/-!
# Checks of gas and stack, per instruction and per block

The interpreter tests the gas and the stack before every instruction. The compiler takes the static gas of a
block on its entry, and tests there what the whole block does to the stack. It tests the gas only at jump
destinations and when enough static work has come together; elsewhere the counter may be negative until some
instruction deducts, or until the contract ends. Both schemes run over the blocks of the IR here. What an
instruction does besides is given by a `Semantics`: it sees the gas only with the static gas of the rest of
the block added, deducts, and goes on or fails.
-/

namespace MonadExecution.Vm

open Lib

inductive Terminator where
  | fallThrough
  | jumpI
  | jump
  | ret
  | stop
  | revert
  | selfDestruct
  | invalidInstruction
  deriving DecidableEq

def isFallthroughTerminator : Terminator → Bool
  | .fallThrough | .jumpI => true
  | _ => false

def terminatorStaticGas : Terminator → Nat
  | .jumpI => 10
  | .jump => 8
  | .selfDestruct => 5000
  | _ => 0

def terminatorInputs : Terminator → Nat
  | .jumpI | .ret | .revert => 2
  | .jump | .selfDestruct => 1
  | _ => 0

structure Instruction (Op : Type) where
  op : Op
  staticGasCost : Nat
  stackArgs : Nat
  stackIncrease : Nat

structure Block (Op : Type) where
  instrs : List (Instruction Op)
  terminator : Terminator
  /-- the offset of the block is in `jump_dests` -/
  isJumpDest : Bool

inductive Status where
  | success
  | revert

/-- How a terminator leaves its block. -/
inductive Exit (σ : Type) where
  | fall (s : σ)
  | goto (dest : Nat) (s : σ)
  | halt (status : Status) (s : σ)

/-- What instructions and terminators do. -/
structure Semantics (Op σ : Type) where
  instr : Op → σ → Metered σ
  terminator : Terminator → σ → Metered (Exit σ)
  /-- the memory that the result needs, if it may be returned at all -/
  resultCost : σ → Option Nat

section Schemes

variable {Op σ : Type} (sem : Semantics Op σ) (ir : List (Block Op))

def stackLimit : Int := 1024

/-- What a block leads to: another block, which is fallen into or jumped to, or the end. -/
inductive After (σ : Type) where
  | enter (dest : Nat) (fell : Bool) (s : σ) (gas : Int)
  | ended (status : Status) (s : σ) (gas : Int)

/-- `copy_result_data` -/
def copyResultData (status : Status) (s : σ) (gas : Int) : Option (After σ) :=
  if gas < 0 then none
  else
    match sem.resultCost s with
    | none => none
    | some cost => if gas - cost < 0 then none else some (.ended status s (gas - cost))

/-- A jump has to go to a jump destination, and only some terminators fall through to the next block. -/
def leave (i : Nat) (t : Terminator) : Exit σ → Int → Option (After σ)
  | .fall s, gas => if isFallthroughTerminator t then some (.enter (i + 1) true s gas) else none
  | .goto dest s, gas => if (ir[dest]?.map Block.isJumpDest).getD false then some (.enter dest false s gas) else none
  | .halt status s, gas => copyResultData sem status s gas

/-! ## The interpreter -/

/-- `check_requirements` -/
def checkRequirements (gasCost args increase : Nat) (size gas : Int) : Option Int :=
  if 0 < gasCost ∧ gas - gasCost < 0 then none
  else if size < args then none
  else if args < increase ∧ stackLimit - (increase - args) < size then none
  else some (gas - gasCost)

def interpretInstrs : List (Instruction Op) → σ → Int → Int → Option (σ × Int × Int)
  | [], s, size, gas => some (s, size, gas)
  | i :: rest, s, size, gas =>
    match checkRequirements i.staticGasCost i.stackArgs i.stackIncrease size gas with
    | none => none
    | some gas =>
      match (sem.instr i.op s).run 0 gas with
      | none => none
      | some (s, gas) => interpretInstrs rest s (size - i.stackArgs + i.stackIncrease) gas

def interpretTerminator (i : Nat) (t : Terminator) (s : σ) (size gas : Int) : Option (After σ × Int) :=
  match checkRequirements (terminatorStaticGas t) (terminatorInputs t) 0 size gas with
  | none => none
  | some gas =>
    match (sem.terminator t s).run 0 gas with
    | none => none
    | some (exit, gas) => (leave sem ir i t exit gas).map (·, size - terminatorInputs t)

/-- A block and the size of the stack after it; a jump destination is an instruction of its own. -/
def interpretBlock (i : Nat) (s : σ) (size gas : Int) : Option (After σ × Int) :=
  match ir[i]? with
  | none => none
  | some b =>
    match checkRequirements (if b.isJumpDest then 1 else 0) 0 0 size gas with
    | none => none
    | some gas =>
      match interpretInstrs sem b.instrs s size gas with
      | none => none
      | some (s, size, gas) => interpretTerminator sem ir i b.terminator s size gas

/-- The contract ends, from the entry of a block. -/
inductive Interprets : Nat → σ → Int → Int → Status → σ → Int → Prop
  | ended {i s size gas status t gas' size'} :
    interpretBlock sem ir i s size gas = some (.ended status t gas', size') → Interprets i s size gas status t gas'
  | enter {i s size gas dest fell s' gas₁ size' status t gas'} :
    interpretBlock sem ir i s size gas = some (.enter dest fell s' gas₁, size') →
      Interprets dest s' size' gas₁ status t gas' → Interprets i s size gas status t gas'

/-! ## The compiler -/

/-- The bounds of the stack at the end of a block, from the block where the stack was last written out. -/
structure Deltas where
  min : Int
  delta : Int
  max : Int

/-- The loop of `stack_deltas`. -/
def instrDeltas : List (Instruction Op) → Deltas → Deltas
  | [], d => d
  | i :: rest, d =>
    instrDeltas rest ⟨Min.min (d.delta - i.stackArgs) d.min, d.delta - i.stackArgs + i.stackIncrease,
        Max.max (d.delta - i.stackArgs + i.stackIncrease) d.max⟩

def Block.stackDeltas (b : Block Op) : Deltas :=
  let d := instrDeltas b.instrs ⟨0, 0, 0⟩
  ⟨Min.min (d.delta - terminatorInputs b.terminator) d.min, d.delta - terminatorInputs b.terminator, d.max⟩

def instrsGas : List (Instruction Op) → Nat
  | [] => 0
  | i :: rest => i.staticGasCost + instrsGas rest

def blockBaseGas (b : Block Op) : Nat := instrsGas b.instrs + terminatorStaticGas b.terminator

/-- What the emitter knows between two blocks. -/
structure Emitter where
  keepStack : Bool
  deltas : Deltas
  accumulatedStaticWork : Nat

def staticWorkGasCheckThreshold : Nat := 1000

/-- `begin_new_block` or `continue_block` of the virtual stack. -/
def Emitter.enter (e : Emitter) (b : Block Op) : Deltas :=
  let d := b.stackDeltas
  if e.keepStack then
    ⟨Min.min (e.deltas.delta + d.min) e.deltas.min, e.deltas.delta + d.delta,
      Max.max (e.deltas.delta + d.max) e.deltas.max⟩
  else d

/-- The bounds before the block, as far as they have been tested. -/
def Emitter.tested (e : Emitter) : Deltas := if e.keepStack then e.deltas else ⟨0, 0, 0⟩

/-- No block is entered whose bounds no stack fits. -/
def Deltas.canEnter (d : Deltas) : Bool := decide (-1024 ≤ d.min ∧ d.max ≤ 1024)

/-- The work after a block, and whether the gas is tested on its entry. -/
def Emitter.gasDecrement (e : Emitter) (b : Block Op) : Nat × Bool :=
  if b.isJumpDest then (0, true)
  else if blockBaseGas b = 0 then (e.accumulatedStaticWork, false)
  else if staticWorkGasCheckThreshold ≤ e.accumulatedStaticWork + blockBaseGas b then (0, true)
  else (e.accumulatedStaticWork + blockBaseGas b, false)

/-- `jumpi`: the stack is kept for the next block, unless that is a jump destination, or has little to do
compared with what would be spilled again. -/
def keepsStack (b : Block Op) (next : Option (Block Op)) (manySpills : Bool) : Bool :=
  match next with
  | none => false
  | some ft => decide (b.terminator = .jumpI) && !(ft.isJumpDest || (decide (ft.terminator = .jumpI) && manySpills))

def Emitter.next (e : Emitter) (b next : Option (Block Op)) (manySpills : Bool) : Emitter :=
  match b with
  | none => e
  | some b =>
    if (e.enter b).canEnter then
      ⟨keepsStack b next manySpills, e.enter b, (e.gasDecrement b).1⟩
    else ⟨false, e.enter b, e.accumulatedStaticWork⟩

/-- The emitter before a block. How many stack elements would be spilled depends on the registers; any answer
may be given. -/
def emitterAt (ir : List (Block Op)) (manySpills : Nat → Bool) : Nat → Emitter
  | 0 => ⟨false, ⟨0, 0, 0⟩, 0⟩
  | i + 1 => (emitterAt ir manySpills i).next ir[i]? ir[i + 1]? (manySpills i)

def blockGas (b : Block Op) : Nat := if b.isJumpDest then blockBaseGas b + 1 else blockBaseGas b

/-- The largest amount that is subtracted at once; the code for more is a jump to the error. -/
def maxDecrement : Nat := 2 ^ 31 - 1

/-- The tests that `block_prologue` emits, and those of the gas. -/
def compiledEntry (e : Emitter) (b : Block Op) (base gas : Int) : Option Int :=
  let d := e.enter b
  if d.canEnter = false then none
  else if d.min < e.tested.min ∧ base < -d.min then none
  else if e.tested.max < d.max ∧ 1024 - d.max < base then none
  else if maxDecrement < blockGas b then none
  else if (e.gasDecrement b).2 = true ∧ gas - blockGas b < 0 then none
  else some (gas - blockGas b)

/-- `emit_instrs`: each instruction knows the static gas of what follows. -/
def compiledInstrs (terminatorGas : Nat) : List (Instruction Op) → σ → Int → Option (σ × Int)
  | [], s, gas => some (s, gas)
  | i :: rest, s, gas =>
    match (sem.instr i.op s).run (instrsGas rest + terminatorGas) gas with
    | none => none
    | some (s, gas) => compiledInstrs terminatorGas rest s gas

/-- The size of the stack as it is written out behind a block, unless the next block keeps the stack. -/
def writtenSize (manySpills : Nat → Bool) (i : Nat) (b : Block Op) (base : Int) : After σ → Int
  | .enter _ fell _ _ =>
    if fell && (emitterAt ir manySpills (i + 1)).keepStack then base
    else base + ((emitterAt ir manySpills i).enter b).delta
  | .ended .. => base

def compiledBlock (manySpills : Nat → Bool) (i : Nat) (s : σ) (base gas : Int) : Option (After σ × Int) :=
  match ir[i]? with
  | none => none
  | some b =>
    match compiledEntry (emitterAt ir manySpills i) b base gas with
    | none => none
    | some gas =>
      match compiledInstrs sem (terminatorStaticGas b.terminator) b.instrs s gas with
      | none => none
      | some (s, gas) =>
        match (sem.terminator b.terminator s).run 0 gas with
        | none => none
        | some (exit, gas) =>
          (leave sem ir i b.terminator exit gas).map fun after => (after, writtenSize ir manySpills i b base after)

inductive Compiled (manySpills : Nat → Bool) : Nat → σ → Int → Int → Status → σ → Int → Prop
  | ended {i s base gas status t gas' base'} :
    compiledBlock sem ir manySpills i s base gas = some (.ended status t gas', base') →
      Compiled manySpills i s base gas status t gas'
  | enter {i s base gas dest fell s' gas₁ base' status t gas'} :
    compiledBlock sem ir manySpills i s base gas = some (.enter dest fell s' gas₁, base') →
      Compiled manySpills dest s' base' gas₁ status t gas' →
      Compiled manySpills i s base gas status t gas'

end Schemes

end MonadExecution.Vm
