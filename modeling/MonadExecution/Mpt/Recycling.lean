import Mathlib.Logic.Function.Basic
import Mathlib.Logic.Relation
import Mathlib.Data.List.Basic

/-!
# Recycled chunks and lock-free readers

The writer frees a chunk in three steps: `remove_` takes it off its list, `destroy_contents` trims it, `append_`
puts it on the free list. Without debug checks `remove_` leaves the info word of the chunk alone, so only
`append_` changes what `physical_to_virtual` says. A reader translates the offset of a node before it reads the
pages, checks the version, reads them one by one, and takes the buffer when the translation is still the same.
Any number of readers run next to one writer, each store, load and page at a time.
-/

namespace MonadExecution.Recycling

open Function

/-- The lists of chunks in use. -/
inductive ChunkList where
  | fast
  | slow
deriving DecidableEq

/-- What the info word of a chunk in use says. -/
structure Life where
  list : ChunkList
  insertionCount : Nat
deriving DecidableEq

/-- Where a node is: its chunk, its first page and how many it takes, and where it starts in the first one. -/
structure Offset where
  chunk : Nat
  page : Nat
  pages : Nat
  start : Nat
deriving DecidableEq

/-- What the writer has done to a chunk. -/
inductive Phase where
  | listed
  | removed
  | destroyed
  | free
deriving DecidableEq

variable {B Node Key Result ι : Type}

/-- How a buffer becomes a node, unless an assertion fails (the size of the node is zero, or does not fit), and how
a lookup goes on from a node: it ends, or takes a child with the rest of the key. -/
structure Format (B Node Key Result : Type) where
  deserialize : Nat → List (Option B) → Option Node
  descend : Node → Key → Result ⊕ (Offset × Key)

/-- The nodes of a version, with the pages they were written to. -/
structure Trie (B : Type) where
  root : Offset
  reach : Offset → Prop
  buffer : Offset → List (Option B)

namespace Trie

/-- The nodes of the trie can be deserialized, and their children are nodes of the trie. -/
def Closed (m : Format B Node Key Result) (t : Trie B) : Prop :=
  ∀ o, t.reach o → ∃ n, m.deserialize o.start (t.buffer o) = some n ∧
    ∀ k o' k', m.descend n k = .inr (o', k') → t.reach o'

/-- What the trie holds under a key, from one of its nodes on. -/
inductive Finds (m : Format B Node Key Result) (t : Trie B) : Offset → Key → Result → Prop
  | done {o n k r} (hn : m.deserialize o.start (t.buffer o) = some n) (h : m.descend n k = .inl r) : Finds m t o k r
  | child {o n k o' k' r} (hn : m.deserialize o.start (t.buffer o) = some n) (h : m.descend n k = .inr (o', k'))
      (hr : Finds m t o' k' r) : Finds m t o k r

end Trie

/-- The pages of a node. -/
def read (page : Nat → Option B) (o : Offset) : List (Option B) := (List.range o.pages).map fun i => page (o.page + i)

/-! ## The writer -/

/-- The pool. A page that was not written since its chunk was trimmed is `none`, and so is the info word of a
chunk on the free list. The last two fields only record what was written under a virtual offset, and which tries
were published for a version. -/
structure Disk (B : Type) where
  info : Nat → Option Life
  phase : Nat → Phase
  page : Nat → Nat → Option B
  /-- the insertion count of the chunk that is appended next: zero, or one more than that of the tail -/
  nextCount : ChunkList → Nat
  /-- the entries of the root ring -/
  ring : Nat → Option Offset
  written : Life → Nat → Option B
  tries : Nat → List (Trie B)

def Disk.setPhase (d : Disk B) (c : Nat) (phase : Phase) : Disk B := { d with phase := update d.phase c phase }

/-- A step of the writer. -/
inductive WriterStep (m : Format B Node Key Result) : Disk B → Disk B → Prop
  /-- Nodes are appended to the chunks in use. -/
  | write {d c p l} (b : B) (hphase : d.phase c = .listed) (hinfo : d.info c = some l) (hp : d.page c p = none) :
      WriterStep m d
        { d with
          page := update d.page c (update (d.page c) p (some b))
          written := update d.written l (update (d.written l) p (some b)) }
  /-- The root of a version is stored once all of its nodes are written. A version is written for the first time,
  or again while it is valid. -/
  | publish {d v} {t : Trie B} (hagain : d.tries v = [] ∨ d.ring v ≠ none) (hroot : t.reach t.root)
      (hclosed : t.Closed m)
      (hstored : ∀ o, t.reach o →
        d.phase o.chunk = .listed ∧ read (d.page o.chunk) o = t.buffer o ∧ none ∉ t.buffer o) :
      WriterStep m d
        { d with
          ring := update d.ring v (some t.root)
          tries := update d.tries v (t :: d.tries v) }
  | expire {d} (v : Nat) : WriterStep m d { d with ring := update d.ring v none }
  /-- `remove_` of a chunk that is not the tail and that no valid version needs, with its root or with one it had
  before: writing a valid version again does not advance its compaction offsets. The info word stays as it is. -/
  | remove {d c} (hphase : d.phase c = .listed)
      (htail : ∀ l, d.info c = some l → l.insertionCount + 1 < d.nextCount l.list)
      (hunused : ∀ v t, d.ring v ≠ none → t ∈ d.tries v → ∀ o, t.reach o → o.chunk ≠ c) :
      WriterStep m d (d.setPhase c .removed)
  | destroyContents {d c} (hphase : d.phase c = .removed) :
      WriterStep m d { d.setPhase c .destroyed with page := update d.page c fun _ => none }
  /-- `append_` to the free list. -/
  | appendFree {d c} (hphase : d.phase c = .destroyed) :
      WriterStep m d { d.setPhase c .free with info := update d.info c none }
  /-- `append_` of a free chunk to the fast or the slow list. -/
  | append {d c} (list : ChunkList) (hphase : d.phase c = .free) : WriterStep m d
        { d.setPhase c .listed with
          info := update d.info c (some ⟨list, d.nextCount list⟩)
          nextCount := update d.nextCount list (d.nextCount list + 1) }

/-! ## The readers -/

/-- A lookup: the version, the root it had, the key, and what is left of the key. -/
structure Job (Key : Type) where
  version : Nat
  root : Offset
  wanted : Key
  rest : Key

/-- Where a lookup is. While it reads, it has the pages so far, and whether one of them came from a chunk that
was trimmed but not yet on the free list. -/
inductive Lookup (B Node Key : Type) where
  | idle
  | target (j : Job Key) (o : Offset)
  | translated (j : Job Key) (o : Offset) (l : Option Life)
  | reading (j : Job Key) (o : Offset) (l : Option Life) (got : List (Option B)) (window : Bool)
  | cursor (j : Job Key) (n : Node)

/-- A buffer that a receiver deserialized. -/
structure Accepted (B : Type) where
  life : Option Life
  offset : Offset
  buffer : List (Option B)
  window : Bool

/-- A lookup that reported success. -/
structure Success (Key Result : Type) where
  version : Nat
  root : Offset
  key : Key
  result : Result

structure State (B Node Key Result ι : Type) where
  disk : Disk B
  lookups : ι → Lookup B Node Key
  /-- the node cache, by virtual offset -/
  cache : Option Life × Offset → Option Node
  accepted : List (Accepted B)
  found : List (Success Key Result)
  /-- an assertion has failed in a receiver -/
  aborted : Bool

section

variable [DecidableEq ι]

def State.setLookup (s : State B Node Key Result ι) (i : ι) (l : Lookup B Node Key) : State B Node Key Result ι :=
  { s with lookups := update s.lookups i l }

/-- The chunk was trimmed and its info word is still the old one. -/
def Disk.inWindow (d : Disk B) (c : Nat) (l : Option Life) : Bool :=
  decide (d.info c = l) && decide (d.phase c = .destroyed)

/-- A step of the writer or of a reader. -/
inductive Step (m : Format B Node Key Result) : State B Node Key Result ι → State B Node Key Result ι → Prop
  | writer {s d} (h : WriterStep m s.disk d) : Step m s { s with disk := d }
  /-- The cache may drop a node. -/
  | evict {s} (at_ : Option Life × Offset) : Step m s { s with cache := update s.cache at_ none }
  /-- The root offset is loaded from the ring. -/
  | start {s i v root} (k : Key) (hi : s.lookups i = .idle) (hring : s.disk.ring v = some root) :
      Step m s (s.setLookup i (.target ⟨v, root, k, k⟩ root))
  /-- `physical_to_virtual` -/
  | translate {s i j o} (hi : s.lookups i = .target j o) :
      Step m s (s.setLookup i (.translated j o (s.disk.info o.chunk)))
  /-- The version is valid after the translation, and the node is in the cache. -/
  | hit {s i j o l n} (hi : s.lookups i = .translated j o l) (hvalid : s.disk.ring j.version ≠ none)
      (hcache : s.cache (l, o) = some n) : Step m s (s.setLookup i (.cursor j n))
  | miss {s i j o l} (hi : s.lookups i = .translated j o l) (hvalid : s.disk.ring j.version ≠ none)
      (hcache : s.cache (l, o) = none) : Step m s (s.setLookup i (.reading j o l [] false))
  | load {s i j o l got window} (hi : s.lookups i = .reading j o l got window) (hlen : got.length < o.pages) :
      Step m s (s.setLookup i (.reading j o l (got ++ [s.disk.page o.chunk (o.page + got.length)])
        (window || s.disk.inWindow o.chunk l)))
  /-- The translation is the same after the read. -/
  | accept {s i j o l got window n} (hi : s.lookups i = .reading j o l got window) (hlen : got.length = o.pages)
      (hsame : s.disk.info o.chunk = l) (hn : m.deserialize o.start got = some n) :
      Step m s
        { s.setLookup i (.cursor j n) with
          cache := update s.cache (l, o) (some n)
          accepted := ⟨l, o, got, window⟩ :: s.accepted }
  | abort {s i j o l got window} (hi : s.lookups i = .reading j o l got window) (hlen : got.length = o.pages)
      (hsame : s.disk.info o.chunk = l) (hn : m.deserialize o.start got = none) :
      Step m s
        { s.setLookup i .idle with
          accepted := ⟨l, o, got, window⟩ :: s.accepted
          aborted := true }
  | descend {s i j n o k} (hi : s.lookups i = .cursor j n) (hd : m.descend n j.rest = .inr (o, k)) :
      Step m s (s.setLookup i (.target { j with rest := k } o))
  | succeed {s i j n r} (hi : s.lookups i = .cursor j n) (hd : m.descend n j.rest = .inl r) : Step m s
        { s.setLookup i .idle with found := ⟨j.version, j.root, j.wanted, r⟩ :: s.found }
  /-- The version is gone, the translation has changed, or the reader is not on the right thread. -/
  | giveUp {s} (i : ι) : Step m s (s.setLookup i .idle)

end

/-- A fresh pool. -/
def initial : State B Node Key Result ι where
  disk :=
    { info := fun _ => none
      phase := fun _ => .free
      page := fun _ _ => none
      nextCount := fun _ => 0
      ring := fun _ => none
      written := fun _ _ => none
      tries := fun _ => [] }
  lookups := fun _ => .idle
  cache := fun _ => none
  accepted := []
  found := []
  aborted := false

/-- The buffer holds what the writer wrote for the node at its virtual offset. -/
def Accepted.Right (d : Disk B) (a : Accepted B) : Prop :=
  ∃ l, a.life = some l ∧ a.buffer = read (d.written l) a.offset

/-- The result is what the trie of the version, with the root that was loaded, holds under the key. -/
def Success.Right (m : Format B Node Key Result) (d : Disk B) (e : Success Key Result) : Prop :=
  ∃ t ∈ d.tries e.version, t.root = e.root ∧ t.Finds m t.root e.key e.result

end MonadExecution.Recycling
