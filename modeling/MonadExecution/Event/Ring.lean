import Mathlib.Logic.Function.Basic
import Mathlib.Data.Nat.Bitwise
import Mathlib.Tactic.Ring

/-!
# The event ring

Threads record events in shared memory, and readers follow them without taking a lock. An event has a
descriptor, in an array that is used in a circle, and a payload, in a buffer that is used in a circle.
`Shared` is the memory; `RecorderStep` and `IteratorStep` list what a recording thread and an iterator do
to it, one load or store at a time, and `Step` lets any of them go next.

The sequence numbers and payload offsets are `uint64_t`s that nobody exhausts, so they are natural numbers
here; the two subtractions that decide about the sliding window are those of `uint64_t`, because there the
second operand can be the larger one. The payload buffer is mapped twice in a row, which makes an offset
wrap around at its size.
-/

namespace MonadExecution.Event

open Function

/-! ## Shared memory -/

/-- The fields of `monad_event_descriptor` other than the sequence number. -/
inductive Field
  | eventType | payloadSize | recordEpochNanos | payloadBufOffset | contentExt (i : Fin 4)
  deriving DecidableEq, Repr

def Field.all : List Field :=
  [.eventType, .payloadSize, .recordEpochNanos, .payloadBufOffset, .contentExt 0, .contentExt 1,
    .contentExt 2, .contentExt 3]

theorem Field.mem_all (f : Field) : f ∈ Field.all := by
  cases f with
  | contentExt i =>
    unfold Field.all
    match i with
    | 0 | 1 | 2 | 3 => simp
  | _ => simp [Field.all]

abbrev Fields := Field → Nat

/-- The sizes of a ring, and the aligned payload size from which on events are refused. -/
structure Config where
  descriptorsShift : Nat
  payloadBufShift : Nat
  allocLimit : Nat

namespace Config

def capacity (cfg : Config) : Nat := 2 ^ cfg.descriptorsShift

def payloadBufSize (cfg : Config) : Nat := 2 ^ cfg.payloadBufShift

/-- The place of an event in the descriptor array, from the number of events before it. -/
def index (cfg : Config) (lastSeqno : Nat) : Nat := lastSeqno &&& (cfg.capacity - 1)

/-- The place of a payload byte in the buffer. -/
def position (cfg : Config) (offset : Nat) : Nat := offset &&& (cfg.payloadBufSize - 1)

theorem index_eq (cfg : Config) (n : Nat) : cfg.index n = n % cfg.capacity :=
  Nat.and_two_pow_sub_one_eq_mod n cfg.descriptorsShift

theorem position_eq (cfg : Config) (n : Nat) : cfg.position n = n % cfg.payloadBufSize :=
  Nat.and_two_pow_sub_one_eq_mod n cfg.payloadBufShift

end Config

/-- `MONAD_EVENT_WINDOW_INCR`. -/
def windowIncr : Nat := 2 ^ 24

/-- `monad_round_size_to_align`. -/
def roundSizeToAlign (size align : Nat) : Nat := (size + align - 1) / align * align

/-- The subtraction of `uint64_t`. -/
def sub64 (x y : Nat) : Nat := if y ≤ x then x - y else x + 2 ^ 64 - y

def Config.slidingWindowWidth (cfg : Config) : Nat := cfg.payloadBufSize - windowIncr

/-- The control registers, the descriptors and the payload buffer. -/
structure Shared where
  lastSeqno : Nat := 0
  nextPayloadByte : Nat := 0
  bufferWindowStart : Nat := 0
  seqno : Nat → Nat := fun _ => 0
  field : Nat → Fields := fun _ _ => 0
  byte : Nat → UInt8 := fun _ => 0

/-! ## Recording -/

/-- What a thread records. -/
structure Entry where
  eventType : Nat
  recordEpochNanos : Nat
  contentExt : Fin 4 → Nat
  payload : List UInt8

namespace Entry

/-- The payload with its alignment. -/
def allocSize (e : Entry) : Nat := roundSizeToAlign e.payload.length 16

/-- The descriptor of the event whose payload begins at an offset. -/
def fields (e : Entry) (payloadBegin : Nat) : Fields
  | .eventType => e.eventType
  | .payloadSize => e.payload.length
  | .recordEpochNanos => e.recordEpochNanos
  | .payloadBufOffset => payloadBegin
  | .contentExt i => e.contentExt i

end Entry

/-- A store that fills in an event. -/
inductive Store
  | field (f : Field)
  | byte (j : Nat)
  deriving DecidableEq

/-- All stores of an event, between the moving of the window and the commit. -/
def Entry.stores (e : Entry) : List Store := Field.all.map .field ++ (List.range e.payload.length).map .byte

/-- How far a recording has come. -/
inductive Stage
  /-- it has a sequence number -/
  | numbered
  /-- it has space for the payload -/
  | placed
  /-- the sequence number of its descriptor is zero -/
  | cleared
  /-- it has found the window in the way, and is about to move it -/
  | sliding (windowStart : Nat)
  /-- it has these stores before it -/
  | filling (todo : List Store)

/-- An event that is being recorded: `last` is the number of events before it. -/
structure Recording where
  entry : Entry
  last : Nat
  payloadBegin : Nat
  stage : Stage

def Recording.payloadEnd (r : Recording) : Nat := r.payloadBegin + r.entry.allocSize

/-- Where the window goes for a payload. -/
def Config.slidTo (cfg : Config) (payloadEnd : Nat) : Nat :=
  sub64 (roundSizeToAlign payloadEnd windowIncr) cfg.slidingWindowWidth

/-- One step of `monad_event_recorder_reserve`, of the filling in, or of
`monad_event_recorder_commit`. -/
inductive RecorderStep (cfg : Config) :
    Shared → Option Recording → Shared → Option Recording → Prop
  | number {sh : Shared} {e : Entry} (hsize : e.allocSize ≤ 2 ^ 32 - 1) (hlimit : e.allocSize < cfg.allocLimit) :
      RecorderStep cfg sh none { sh with lastSeqno := sh.lastSeqno + 1 } (some ⟨e, sh.lastSeqno, 0, .numbered⟩)
  | place {sh : Shared} {e : Entry} {last b : Nat} : RecorderStep cfg sh (some ⟨e, last, b, .numbered⟩)
        { sh with nextPayloadByte := sh.nextPayloadByte + e.allocSize }
        (some ⟨e, last, sh.nextPayloadByte, .placed⟩)
  | clear {sh : Shared} {e : Entry} {last b : Nat} : RecorderStep cfg sh (some ⟨e, last, b, .placed⟩)
        { sh with seqno := update sh.seqno (cfg.index last) 0 }
        (some ⟨e, last, b, .cleared⟩)
  | fits {sh : Shared} {e : Entry} {last b : Nat}
      (h : sub64 (b + e.allocSize) sh.bufferWindowStart ≤ cfg.slidingWindowWidth) :
      RecorderStep cfg sh (some ⟨e, last, b, .cleared⟩) sh (some ⟨e, last, b, .filling e.stores⟩)
  | exceeds {sh : Shared} {e : Entry} {last b : Nat}
      (h : cfg.slidingWindowWidth < sub64 (b + e.allocSize) sh.bufferWindowStart) :
      RecorderStep cfg sh (some ⟨e, last, b, .cleared⟩) sh (some ⟨e, last, b, .sliding sh.bufferWindowStart⟩)
  -- a compare-and-swap: nothing happens if another thread has moved the window in the meantime
  | slide {sh : Shared} {e : Entry} {last b windowStart : Nat} :
      RecorderStep cfg sh (some ⟨e, last, b, .sliding windowStart⟩)
        { sh with
          bufferWindowStart := if sh.bufferWindowStart = windowStart then cfg.slidTo (b + e.allocSize)
            else sh.bufferWindowStart }
        (some ⟨e, last, b, .filling e.stores⟩)
  | storeField {sh : Shared} {e : Entry} {last b : Nat} {todo : List Store} {f : Field} (h : .field f ∈ todo) :
      RecorderStep cfg sh (some ⟨e, last, b, .filling todo⟩)
        { sh with
          field := update sh.field (cfg.index last) (update (sh.field (cfg.index last)) f (e.fields b f)) }
        (some ⟨e, last, b, .filling (todo.erase (.field f))⟩)
  | storeByte {sh : Shared} {e : Entry} {last b : Nat} {todo : List Store} {j : Nat} (h : .byte j ∈ todo) :
      RecorderStep cfg sh (some ⟨e, last, b, .filling todo⟩)
        { sh with byte := update sh.byte (cfg.position (b + j)) (e.payload.getD j 0) }
        (some ⟨e, last, b, .filling (todo.erase (.byte j))⟩)
  | commit {sh : Shared} {e : Entry} {last b : Nat} : RecorderStep cfg sh (some ⟨e, last, b, .filling []⟩)
        { sh with seqno := update sh.seqno (cfg.index last) (last + 1) } none

/-! ## Reading -/

/-- What a call of the iterator has returned last. -/
inductive Outcome
  | success | notReady | gap
  /-- the payload had expired: `monad_event_ring_payload_memcpy` returned null -/
  | expired
  /-- the copied bytes of an event -/
  | payload (seqno : Nat) (size : Nat) (bytes : Nat → UInt8)

/-- What an iterator is doing. -/
inductive Phase
  | idle
  /-- `try_copy`, after the first look at the sequence number: the fields still to be copied -/
  | copying (todo : List Field) (copy : Fields)
  /-- `sync_wait`: spinning on a sequence number, and the last look at it -/
  | syncing (seqno spin : Nat)
  | confirming (seqno : Nat)
  /-- `payload_memcpy`, after the first check: the bytes still to be copied -/
  | fetching (seqno : Nat) (event : Fields) (size : Nat) (todo : List Nat) (bytes : Nat → UInt8)

/-- An iterator, with the descriptors it has returned since the last reset, newest first, and all that
it has ever returned. -/
structure Iterator where
  readLastSeqno : Nat := 0
  phase : Phase := .idle
  outcome : Option Outcome := none
  taken : List (Nat × Fields) := []
  events : List (Nat × Fields) := []

def maxSyncSpin : Nat := 100

/-- The iterator after `monad_event_iterator_reset` has found a sequence number. -/
def Iterator.resetTo (it : Iterator) (lastAvailable : Nat) : Iterator :=
  { it with readLastSeqno := lastAvailable - 1, phase := .idle, outcome := none, taken := [] }

/-- The iterator after a successful `try_next`. -/
def Iterator.take (it : Iterator) (copy : Fields) : Iterator :=
  { readLastSeqno := it.readLastSeqno + 1
    phase := .idle
    outcome := some .success
    taken := (it.readLastSeqno + 1, copy) :: it.taken
    events := (it.readLastSeqno + 1, copy) :: it.events }

/-- One step of `monad_event_iterator_try_next`, `monad_event_iterator_reset` or
`monad_event_ring_payload_memcpy`. -/
inductive IteratorStep (cfg : Config) (sh : Shared) : Iterator → Iterator → Prop
  | found {it : Iterator} (hi : it.phase = .idle) (h : sh.seqno (cfg.index it.readLastSeqno) = it.readLastSeqno + 1) :
      IteratorStep cfg sh it { it with phase := .copying Field.all fun _ => 0, outcome := none }
  | notReady {it : Iterator} (hi : it.phase = .idle) (h : sh.seqno (cfg.index it.readLastSeqno) < it.readLastSeqno ∨
        sh.seqno (cfg.index it.readLastSeqno) = it.readLastSeqno ∧ sh.seqno (cfg.index it.readLastSeqno) = 0) :
      IteratorStep cfg sh it { it with outcome := some .notReady }
  | gap {it : Iterator} (hi : it.phase = .idle) (hne : sh.seqno (cfg.index it.readLastSeqno) ≠ it.readLastSeqno + 1)
      (hge : ¬sh.seqno (cfg.index it.readLastSeqno) < it.readLastSeqno)
      (h : ¬(sh.seqno (cfg.index it.readLastSeqno) = it.readLastSeqno ∧ sh.seqno (cfg.index it.readLastSeqno) = 0)) :
      IteratorStep cfg sh it { it with outcome := some .gap }
  | copy {it : Iterator} {todo : List Field} {copy : Fields} {f : Field}
      (hi : it.phase = .copying todo copy) (h : f ∈ todo) :
      IteratorStep cfg sh it { it with
        phase := .copying (todo.erase f) (update copy f (sh.field (cfg.index it.readLastSeqno) f)) }
  | same {it : Iterator} {copy : Fields} (hi : it.phase = .copying [] copy)
      (h : sh.seqno (cfg.index it.readLastSeqno) = it.readLastSeqno + 1) :
      IteratorStep cfg sh it (it.take copy)
  | changed {it : Iterator} {copy : Fields} (hi : it.phase = .copying [] copy)
      (h : sh.seqno (cfg.index it.readLastSeqno) ≠ it.readLastSeqno + 1) :
      IteratorStep cfg sh it { it with phase := .idle, outcome := some .gap }
  | reset {it : Iterator} (hi : it.phase = .idle) (h : 0 < sh.lastSeqno) :
      IteratorStep cfg sh it { it with phase := .syncing sh.lastSeqno 0 }
  | resetEmpty {it : Iterator} (hi : it.phase = .idle) (h : sh.lastSeqno = 0) : IteratorStep cfg sh it (it.resetTo 0)
  | spin {it : Iterator} {seqno spin : Nat} (hi : it.phase = .syncing seqno spin)
      (hne : sh.seqno (cfg.index (seqno - 1)) ≠ seqno) (h : spin < maxSyncSpin) :
      IteratorStep cfg sh it { it with phase := .syncing seqno (spin + 1) }
  | spun {it : Iterator} {seqno spin : Nat} (hi : it.phase = .syncing seqno spin)
      (h : sh.seqno (cfg.index (seqno - 1)) = seqno ∨ maxSyncSpin ≤ spin) :
      IteratorStep cfg sh it { it with phase := .confirming seqno }
  | confirmed {it : Iterator} {seqno : Nat} (hi : it.phase = .confirming seqno)
      (h : sh.seqno (cfg.index (seqno - 1)) = seqno) :
      IteratorStep cfg sh it (it.resetTo seqno)
  | scanBack {it : Iterator} {seqno : Nat} (hi : it.phase = .confirming seqno)
      (hne : sh.seqno (cfg.index (seqno - 1)) ≠ seqno) (h : 0 < seqno - 1) :
      IteratorStep cfg sh it { it with phase := .syncing (seqno - 1) 0 }
  | scannedAll {it : Iterator} {seqno : Nat} (hi : it.phase = .confirming seqno)
      (hne : sh.seqno (cfg.index (seqno - 1)) ≠ seqno) (h : seqno - 1 = 0) :
      IteratorStep cfg sh it (it.resetTo 0)
  | unexpired {it : Iterator} {seqno : Nat} {event : Fields} {size : Nat} (hi : it.phase = .idle)
      (hmem : (seqno, event) ∈ it.events) (hsize : size ≤ event .payloadSize)
      (h : sh.bufferWindowStart ≤ event .payloadBufOffset) :
      IteratorStep cfg sh it { it with
        phase := .fetching seqno event size (List.range size) fun _ => 0, outcome := none }
  | expired {it : Iterator} {seqno : Nat} {event : Fields} (hi : it.phase = .idle)
      (hmem : (seqno, event) ∈ it.events) (h : event .payloadBufOffset < sh.bufferWindowStart) :
      IteratorStep cfg sh it { it with outcome := some .expired }
  | fetch {it : Iterator} {seqno : Nat} {event : Fields} {size : Nat} {todo : List Nat}
      {bytes : Nat → UInt8} {j : Nat} (hi : it.phase = .fetching seqno event size todo bytes)
      (h : j ∈ todo) :
      IteratorStep cfg sh it { it with
        phase := .fetching seqno event size (todo.erase j)
          (update bytes j (sh.byte (cfg.position (event .payloadBufOffset + j)))) }
  | fetched {it : Iterator} {seqno : Nat} {event : Fields} {size : Nat} {bytes : Nat → UInt8}
      (hi : it.phase = .fetching seqno event size [] bytes)
      (h : sh.bufferWindowStart ≤ event .payloadBufOffset) :
      IteratorStep cfg sh it { it with phase := .idle, outcome := some (.payload seqno size bytes) }
  | expiredLate {it : Iterator} {seqno : Nat} {event : Fields} {size : Nat} {bytes : Nat → UInt8}
      (hi : it.phase = .fetching seqno event size [] bytes)
      (h : event .payloadBufOffset < sh.bufferWindowStart) :
      IteratorStep cfg sh it { it with phase := .idle, outcome := some .expired }

/-! ## All together -/

/-- The memory, the recording threads and the iterators. `recorded` remembers what was recorded under a
sequence number, and where its payload begins; nobody reads it. -/
structure Machine where
  shared : Shared := {}
  recorders : Nat → Option Recording := fun _ => none
  iterators : Nat → Iterator := fun _ => {}
  recorded : Nat → Option (Entry × Nat) := fun _ => none

/-- An event is noted when it has got its space. -/
def note (recorded : Nat → Option (Entry × Nat)) : Option Recording → Nat → Option (Entry × Nat)
  | some ⟨e, last, b, .placed⟩ => update recorded (last + 1) (some (e, b))
  | _ => recorded

/-- The machine after a step of recording thread `i`. -/
abbrev Machine.recorderTo (m : Machine) (i : Nat) (sh : Shared) (r : Option Recording) : Machine :=
  { m with
    shared := sh
    recorders := update m.recorders i r
    recorded := note m.recorded r }

/-- The machine after a step of iterator `i`. -/
abbrev Machine.iteratorTo (m : Machine) (i : Nat) (it : Iterator) : Machine :=
  { m with iterators := update m.iterators i it }

/-- One step of one of `n` recording threads, or of an iterator. -/
inductive Step (cfg : Config) (n : Nat) : Machine → Machine → Prop
  | recorder {m : Machine} {i : Nat} {sh : Shared} {r : Option Recording} (hi : i < n)
      (h : RecorderStep cfg m.shared (m.recorders i) sh r) : Step cfg n m (m.recorderTo i sh r)
  | iterator {m : Machine} {i : Nat} {it : Iterator}
      (h : IteratorStep cfg m.shared (m.iterators i) it) : Step cfg n m (m.iteratorTo i it)

/-- No thread is still recording event `k` when event `k + capacity` has got its number. -/
def Machine.Punctual (cfg : Config) (m : Machine) : Prop :=
  ∀ i r, m.recorders i = some r → m.shared.lastSeqno < r.last + 1 + cfg.capacity

/-- What can be reached from an empty ring. -/
inductive Reach (cfg : Config) (n : Nat) : Machine → Prop
  | start : Reach cfg n {}
  | step {m m' : Machine} (h : Reach cfg n m) (hs : Step cfg n m m') : Reach cfg n m'

/-- What can be reached while every thread is punctual. -/
inductive PunctualReach (cfg : Config) (n : Nat) : Machine → Prop
  | start : PunctualReach cfg n {}
  | step {m m' : Machine} (h : PunctualReach cfg n m) (hs : Step cfg n m m') (hp : m'.Punctual cfg) :
      PunctualReach cfg n m'

end MonadExecution.Event
