import Mathlib.Logic.Function.Basic
import Mathlib.Data.List.Basic

/-!
# The memory of the call frames

The call frames of a transaction share one buffer: the memory of a frame is a window that begins where the
window of its caller ends. A frame that needs more room moves everything to a larger buffer, and its
caller takes the larger buffer over when the frame returns. The buffer a frame began with is kept until
then, because its call data may lie there.

`Heap` has the buffers that are allocated. A pointer into a buffer is the buffer's handle and an offset;
`Memory.data` is an offset into the buffer of `dataHandle`. What gas is charged, and when a frame gives up,
is left open: a frame may return at any moment.
-/

namespace MonadExecution.Vm

open Function

abbrev Handle := Nat

structure Buffer where
  capacity : Nat
  bytes : Nat → UInt8

namespace Buffer

def store (b : Buffer) (i : Nat) (v : UInt8) : Buffer := { b with bytes := update b.bytes i v }

/-- `non_temporal_bzero`. -/
def bzero (b : Buffer) (offset size : Nat) : Buffer :=
  { b with bytes := fun i => if offset ≤ i ∧ i < offset + size then 0 else b.bytes i }

end Buffer

abbrev Heap := Handle → Option Buffer

structure Memory where
  size : Nat
  capacity : Nat
  data : Nat
  dataHandle : Handle
  parentCapacity : Nat
  parentHandle : Handle

namespace Memory

/-- The memory of a frame as its message has it. -/
def init (handle : Handle) (data capacity : Nat) : Memory :=
  { size := 0
    capacity := capacity
    data := data
    dataHandle := handle
    parentCapacity := capacity
    parentHandle := handle }

/-- Free the buffer of a frame, unless it is the one the frame began with. -/
def release (mem : Memory) (heap : Heap) : Heap :=
  if mem.dataHandle ≠ mem.parentHandle then update heap mem.dataHandle none else heap

/-- The capacity of the next buffer, for a window of a new size. -/
def newTotalCapacity (mem : Memory) (newSize : Nat) : Nat := 2 * (mem.data + newSize)

/-- The next buffer: everything up to the old size, and zeros. -/
def grownBuffer (mem : Memory) (old : Buffer) (oldSize newSize : Nat) : Buffer :=
  { capacity := mem.newTotalCapacity newSize
    bytes := fun i => if i < mem.data + oldSize then old.bytes i else 0 }

/-- The window after `increase_capacity`. -/
def grown (mem : Memory) (newHandle : Handle) (newSize : Nat) : Memory :=
  { mem with
    size := newSize
    capacity := mem.newTotalCapacity newSize - mem.data
    dataHandle := newHandle }

/-- The window of a frame after its callee has returned with another buffer. -/
def adopt (mem callee : Memory) : Memory :=
  { mem with
    data := callee.data - mem.size
    capacity := callee.capacity + mem.size
    dataHandle := callee.dataHandle }

end Memory

/-- Where the call data of a frame is. -/
inductive Input
  | outside (bytes : Nat → UInt8) (size : Nat)
  | pointer (handle : Handle) (offset size : Nat)

def Input.size : Input → Nat
  | .outside _ size => size
  | .pointer _ _ size => size

def Input.load (heap : Heap) : Input → Nat → Option UInt8
  | .outside bytes _, j => some (bytes j)
  | .pointer handle offset _, j => (heap handle).map fun b => b.bytes (offset + j)

/-- A frame. The last three components are there to speak about it: what it has written, the bytes that
were passed to it, and the size and the contents of its memory at its last call. -/
structure Frame where
  memory : Memory
  input : Input
  written : Nat → UInt8 := fun _ => 0
  passed : Nat → UInt8
  saved : Nat × (Nat → UInt8) := (0, fun _ => 0)

def Frame.load (heap : Heap) (f : Frame) (i : Nat) : Option UInt8 :=
  (heap f.memory.dataHandle).map fun b => b.bytes (f.memory.data + i)

structure Machine where
  heap : Heap
  stack : List Frame

/-- A size in bytes rounded up to words. -/
def wordSize (n : Nat) : Nat := (n + 31) / 32 * 32

/-- The callee of a frame with a buffer `b`, with call data from the frame's memory. -/
def Frame.callee (f : Frame) (b : Buffer) (offset size : Nat) : Frame :=
  { memory := .init f.memory.dataHandle (f.memory.data + f.memory.size) (f.memory.capacity - f.memory.size)
    input := .pointer f.memory.dataHandle (f.memory.data + offset) size
    passed := fun j => b.bytes (f.memory.data + offset + j) }

/-- A frame at the moment of a call. -/
def Frame.calling (f : Frame) (b : Buffer) : Frame :=
  { f with saved := (f.memory.size, fun i => b.bytes (f.memory.data + i)) }

/-- `Context::return_to` with a caller. -/
inductive Return : Machine → Machine → Prop
  | same {heap : Heap} {f p : Frame} {rest : List Frame} {b : Buffer}
      (hb : heap f.memory.dataHandle = some b) (h : f.memory.dataHandle = f.memory.parentHandle) :
      Return ⟨heap, f :: p :: rest⟩ ⟨update heap f.memory.dataHandle (some (b.bzero f.memory.data f.memory.size)),
          p :: rest⟩
  | other {heap : Heap} {f p : Frame} {rest : List Frame} {b : Buffer}
      (hb : heap f.memory.dataHandle = some b) (h : f.memory.dataHandle ≠ f.memory.parentHandle) :
      Return ⟨heap, f :: p :: rest⟩ ⟨p.memory.release
          (update heap f.memory.dataHandle (some (b.bzero f.memory.data f.memory.size))),
          { p with memory := p.memory.adopt f.memory } :: rest⟩

/-- A step of the running frame. -/
inductive Step : Machine → Machine → Prop
  | expand {heap : Heap} {f : Frame} {rest : List Frame} {n : Nat} (hn : f.memory.size < n)
      (h : wordSize n ≤ f.memory.capacity) :
      Step ⟨heap, f :: rest⟩ ⟨heap, { f with memory := { f.memory with size := wordSize n } } :: rest⟩
  -- the allocator returns any block that is not in use, with anything in it
  | grow {heap : Heap} {f : Frame} {rest : List Frame} {n : Nat} {old : Buffer} {newHandle : Handle}
      (hn : f.memory.size < n) (h : f.memory.capacity < wordSize n)
      (hold : heap f.memory.dataHandle = some old) (hnew : heap newHandle = none) :
      Step ⟨heap, f :: rest⟩ ⟨f.memory.release (update heap newHandle
            (some (f.memory.grownBuffer old f.memory.size (wordSize n)))),
          { f with memory := f.memory.grown newHandle (wordSize n) } :: rest⟩
  | write {heap : Heap} {f : Frame} {rest : List Frame} {i : Nat} {v : UInt8} {b : Buffer}
      (hi : i < f.memory.size) (hb : heap f.memory.dataHandle = some b) :
      Step ⟨heap, f :: rest⟩ ⟨update heap f.memory.dataHandle (some (b.store (f.memory.data + i) v)),
          { f with written := update f.written i v } :: rest⟩
  | call {heap : Heap} {f : Frame} {rest : List Frame} {offset size : Nat} {b : Buffer}
      (hi : offset + size ≤ f.memory.size) (hb : heap f.memory.dataHandle = some b) :
      Step ⟨heap, f :: rest⟩ ⟨heap, f.callee b offset size :: f.calling b :: rest⟩
  | ret {m m' : Machine} (h : Return m m') : Step m m'
  -- the outermost frame returns: `Memory::clear`
  | clear {heap : Heap} {f : Frame} {b : Buffer} (hb : heap f.memory.dataHandle = some b)
      (h : f.memory.parentHandle = f.memory.dataHandle) :
      Step ⟨heap, [f]⟩ ⟨update heap f.memory.dataHandle (some (b.bzero 0 f.memory.size)), []⟩
  | clearOther {heap : Heap} {f : Frame} {b : Buffer} (hb : heap f.memory.parentHandle = some b)
      (h : f.memory.parentHandle ≠ f.memory.dataHandle) :
      Step ⟨heap, [f]⟩ ⟨update (update heap f.memory.parentHandle
            (some (b.bzero 0 f.memory.parentCapacity))) f.memory.dataHandle none, []⟩

/-- A transaction starts with a buffer of zeros from the pool and its own data. -/
def Machine.start (heap : Heap) (pool : Handle) (capacity : Nat) (data : Nat → UInt8) (size : Nat) : Machine :=
  { heap := update heap pool (some ⟨capacity, fun _ => 0⟩)
    stack := [{ memory := .init pool 0 capacity, input := .outside data size, passed := data }] }

/-- What the frames of a transaction can reach. -/
inductive Reach (pool : Handle) (capacity : Nat) : Machine → Prop
  | start (heap : Heap) (data : Nat → UInt8) (size : Nat) :
      Reach pool capacity (Machine.start heap pool capacity data size)
  | step {m m' : Machine} (h : Reach pool capacity m) (hs : Step m m') : Reach pool capacity m'

end MonadExecution.Vm
