import Mathlib.Data.List.Basic
import Mathlib.Logic.Function.Iterate

/-!
# The run loop

Each round of `runloop_monad` looks at the finalized head and, when that has nothing new, at the proposed
head. It walks from a head down to the last finalized block, executes the blocks on the way that the database
does not have yet, oldest first, and finalizes those of the finalized head. Four things live longer than a
round: what the database has executed and finalized, the cache of senders, the proposals of the block hash
chain, and its buffer of finalized hashes. Every block executes successfully here; an assertion that fails is
`none`. What was executed with which inputs, and what was finalized, is written to a log, newest first. A head
that is not there yet is the block with the number zero, which has no header.
-/

namespace MonadExecution.RunLoop

variable {Id S H : Type}

/-- The blocks of the ledger. -/
structure Ledger (Id S H : Type) where
  seqno : Id → Nat
  parent : Id → Id
  /-- senders and authorities of the block -/
  senders : Id → S
  /-- the hash that executing the block leads to -/
  hash : Id → H
  /-- `delayed_execution_results`: numbers and hashes -/
  results : Id → List (Nat × H)

/-! ## Block hashes -/

/-- `BlockHashBufferFinalized`: a ring of 256 hashes. -/
structure HashBuffer (H : Type) where
  n : Nat
  b : Nat → H

namespace HashBuffer

def get (buf : HashBuffer H) (n : Nat) : Option H :=
  if n < buf.n ∧ buf.n ≤ n + 256 then some (buf.b (n % 256)) else none

def set (buf : HashBuffer H) (n : Nat) (h : H) : Option (HashBuffer H) :=
  if buf.n = 0 ∨ n = buf.n then some ⟨n + 1, Function.update buf.b (n % 256) h⟩ else none

end HashBuffer

/-- `BlockHashBufferProposal` -/
structure ProposalBuffer (H : Type) where
  n : Nat
  deltas : List H

def ProposalBuffer.get (p : ProposalBuffer H) (buf : HashBuffer H) (n : Nat) : Option H :=
  if n < p.n ∧ p.n ≤ n + 256 then
    if p.n - n - 1 < p.deltas.length then p.deltas[p.n - n - 1]? else buf.get n
  else none

structure Proposal (Id H : Type) where
  number : Nat
  id : Id
  parentId : Id
  buf : ProposalBuffer H

/-- `std::vector::resize` -/
def resize [Inhabited H] (l : List H) (k : Nat) : List H := l.take k ++ List.replicate (k - l.length) default

section

variable [DecidableEq Id]

def findProposal (proposals : List (Proposal Id H)) (id : Id) : Option (Proposal Id H) :=
  proposals.find? fun p => decide (p.id = id)

/-- `find_chain`, read at a number. -/
def chainGet (proposals : List (Proposal Id H)) (buf : HashBuffer H) (id : Id) (n : Nat) : Option H :=
  match findProposal proposals id with
  | none => buf.get n
  | some p => p.buf.get buf n

def propose [Inhabited H] (proposals : List (Proposal Id H)) (buf : HashBuffer H) (hash : H) (number : Nat)
    (id parentId : Id) : Option (List (Proposal Id H)) :=
  match findProposal proposals parentId with
  | some p =>
    if 0 < p.buf.n + 1 ∧ buf.n < p.buf.n + 1 then
      some (proposals ++ [⟨number, id, parentId, ⟨p.buf.n + 1, resize (hash :: p.buf.deltas) (p.buf.n + 1 - buf.n)⟩⟩])
    else none
  | none => some (proposals ++ [⟨number, id, parentId, ⟨buf.n + 1, [hash]⟩⟩])

def finalizeChain (proposals : List (Proposal Id H)) (buf : HashBuffer H) (id : Id) :
    Option (List (Proposal Id H) × HashBuffer H) :=
  match findProposal proposals id with
  | none => none
  | some winner =>
    if winner.buf.n - 1 = buf.n then
      match winner.buf.get buf buf.n with
      | none => none
      | some h => (buf.set buf.n h).map fun buf => (proposals.filter fun p => decide (winner.number < p.number), buf)
    else none

end

/-! ## The state -/

structure BlockCacheEntry (Id S : Type) where
  blockNumber : Nat
  parentId : Id
  senders : S

/-- An execution: the block whose state it starts from (none for the finalized state), the block hashes it
sees, and the senders of the two blocks before. -/
structure Execution (Id S H : Type) where
  id : Id
  number : Nat
  onState : Option Id
  hashes : Nat → Option H
  grandparentSenders : S
  parentSenders : S

inductive Event (Id S H : Type) where
  | executed (e : Execution Id S H)
  | finalized (number : Nat) (id : Id)

structure State (Id S H : Type) where
  /-- the proposals in the database -/
  executed : List Id
  /-- `get_latest_finalized_version` -/
  latestFinalized : Nat
  blockCache : List (Id × BlockCacheEntry Id S)
  proposals : List (Proposal Id H)
  buf : HashBuffer H
  log : List (Event Id S H)

section Loop

variable [DecidableEq Id] [DecidableEq H] [Inhabited H] (g : Ledger Id S H) (noSenders : S)
  (startBlockNum endBlockNum : Nat)

/-- `for_each_header`: the blocks that the function is called for, from the head down. -/
def headersFrom (startExclusive endInclusive : Nat) : Nat → Id → List Id
  | 0, _ => []
  | fuel + 1, id =>
    (if startExclusive < g.seqno id ∧ g.seqno id ≤ endInclusive then [id] else []) ++
      if g.seqno id ≤ startExclusive + 1 then [] else headersFrom startExclusive endInclusive fuel (g.parent id)

def headers (startExclusive endInclusive : Nat) (head : Id) : List Id :=
  headersFrom g startExclusive endInclusive (g.seqno head + 1) head

def entry (id : Id) : BlockCacheEntry Id S := ⟨g.seqno id, g.parent id, g.senders id⟩

/-- `validate_delayed_execution_results` -/
def validateDelayedExecutionResults (get : Nat → Option H) : Option Nat → List (Nat × H) → Bool
  | _, [] => true
  | expected, (n, h) :: rest =>
    decide (expected.getD n = n) && decide (get n = some h) && validateDelayedExecutionResults get (some (n + 1)) rest

/-- The senders of the grandparent and the parent, from the cache. -/
def sendersBefore (cache : List (Id × BlockCacheEntry Id S)) (id : Id) : Option (S × S) :=
  if 1 < g.seqno id then
    match cache.lookup (g.parent id) with
    | none => none
    | some p =>
      if 2 < g.seqno id then (cache.lookup p.parentId).map fun gp => (gp.senders, p.senders)
      else some (noSenders, p.senders)
  else some (noSenders, noSenders)

/-- `handle_to_execute` and `propose_block`. -/
def executeBlock (st : State Id S H) (id : Id) : Option (State Id S H) :=
  let get := chainGet st.proposals st.buf (g.parent id)
  if (get (g.seqno id - 1)).isSome ∧ validateDelayedExecutionResults get none (g.results id) = true ∧
      st.blockCache.lookup id = none then
    let cache := (id, entry g id) :: st.blockCache
    match sendersBefore g noSenders cache id,
      propose st.proposals st.buf (g.hash id) (g.seqno id) id (g.parent id) with
    | some (gp, p), some proposals =>
      some
        { st with
          executed := id :: st.executed
          blockCache := cache
          proposals := proposals
          log := .executed
            ⟨id, g.seqno id - 1, if g.seqno id = startBlockNum then none else some (g.parent id), get, gp, p⟩
            :: st.log }
    | _, _ => none
  else none

def executeAll (st : State Id S H) : List Id → Option (State Id S H)
  | [] => some st
  | id :: rest =>
    match executeBlock g noSenders startBlockNum st id with
    | none => none
    | some st => executeAll st rest

def finalizeBlock (st : State Id S H) (id : Id) : Option (State Id S H) :=
  match finalizeChain st.proposals st.buf id with
  | none => none
  | some (proposals, buf) =>
    some
      { st with
        latestFinalized := g.seqno id
        proposals := proposals
        buf := buf
        log := .finalized (g.seqno id) id :: st.log }

def finalizeAll (st : State Id S H) : List Id → Option (State Id S H)
  | [] => some st
  | id :: rest =>
    match finalizeBlock g st id with
    | none => none
    | some st => finalizeAll st rest

/-- The erasure from the cache after some blocks have been finalized. -/
def eraseOld (st : State Id S H) (lastFinalized : Nat) : State Id S H :=
  { st with
    blockCache := st.blockCache.filter fun e =>
      !(decide (1 < lastFinalized) && decide (e.2.blockNumber < lastFinalized - 1)) }

/-- The blocks to execute from the finalized head. -/
def pickFinalized (executed : List Id) (visited : List Id) : List Id :=
  visited.foldl (fun acc id => if id ∈ executed then acc else id :: acc) []

/-- The blocks to execute from the proposed head, with the check for the canonical chain. -/
def pickProposed (executed : List Id) (lastFinalized : Nat) (finalizedHead : Id) (visited : List Id) : List Id :=
  visited.foldl (fun acc id =>
      if g.seqno id = lastFinalized + 1 ∧ finalizedHead ≠ g.parent id then []
      else if id ∈ executed then acc else id :: acc) []

/-- A round, with what it reads from the two heads. -/
def round (st : State Id S H) (finalizedHead proposedHead : Id) : Option (State Id S H) :=
  let visited := headers g st.latestFinalized endBlockNum finalizedHead
  if visited = [] then
    executeAll g noSenders startBlockNum st (pickProposed g st.executed st.latestFinalized finalizedHead
        (headers g st.latestFinalized endBlockNum proposedHead))
  else
    match executeAll g noSenders startBlockNum st (pickFinalized st.executed visited) with
    | none => none
    | some st => (finalizeAll g st visited.reverse).map fun st => eraseOld st st.latestFinalized

def run (st : State Id S H) : List (Id × Id) → Option (State Id S H)
  | [] => some st
  | (finalizedHead, proposedHead) :: rest =>
    if st.latestFinalized < endBlockNum then
      match round g noSenders startBlockNum endBlockNum st finalizedHead proposedHead with
      | none => none
      | some st => run st rest
    else some st

/-- The state before the loop: the database has finalized a block, and the cache has that block and its
parent. -/
def start (latestFinalized : Nat) (buf : HashBuffer H) (finalizedHead : Id) : State Id S H where
  executed := []
  latestFinalized := latestFinalized
  blockCache := (headers g (if 2 < latestFinalized then latestFinalized - 2 else 0) latestFinalized
    finalizedHead).map fun id => (id, entry g id)
  proposals := []
  buf := buf
  log := []

end Loop

end MonadExecution.RunLoop
