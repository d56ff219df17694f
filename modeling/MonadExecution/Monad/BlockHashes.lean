import MonadExecution.Monad.ExecutedOnce

/-!
# Block hashes along a fork

`BlockHashChain` keeps for every proposal the hashes of its own blocks since the block that was last finalized when
it was proposed, and below them reads the ring of finalized hashes, which moves on with every finalized block. A
proposal that descends from the last finalized block sees its own ancestors all the same.
-/

namespace MonadExecution.RunLoop

open Function List

variable {Id H : Type}

/-- A tree of blocks over the block that is finalized at the start. The number that the children of a block have is
`n()` of its buffer. -/
structure BlockTree (Id H : Type) where
  root : Id
  parent : Id → Id
  hash : Id → H
  next : Id → Nat
  next_eq : ∀ id, id ≠ root → next id = next (parent id) + 1

/-- `BlockHashChain` with its buffer, and the last finalized block. -/
structure HashChain (Id H : Type) where
  proposals : List (Proposal Id H)
  buf : HashBuffer H
  finalized : Id

inductive ChainCall (Id : Type) where
  | propose (id : Id)
  | finalize (id : Id)

/-- The parent of a proposal is the last finalized block or a live proposal; a child of the last finalized block is
finalized. -/
def ChainCall.Legal (t : BlockTree Id H) (c : HashChain Id H) : ChainCall Id → Prop
  | .propose id =>
    id ≠ t.root ∧ (∀ p ∈ c.proposals, p.id ≠ id) ∧ (t.parent id = c.finalized ∨ ∃ p ∈ c.proposals, p.id = t.parent id)
  | .finalize id => t.parent id = c.finalized ∧ ∃ p ∈ c.proposals, p.id = id

/-- A live proposal that descends from the last finalized block. -/
inductive HashChain.Descends (c : HashChain Id H) : Proposal Id H → Prop
  | child {p : Proposal Id H} (hp : p ∈ c.proposals) (h : p.parentId = c.finalized) : Descends c p
  | step {p q : Proposal Id H} (hp : p ∈ c.proposals) (hq : c.Descends q) (h : p.parentId = q.id) : Descends c p

/-- The hash of the ancestor with number `n`: what the ring has at the start, or the hash it was proposed with. -/
def BlockTree.hashAt (t : BlockTree Id H) (b : Nat → H) (id : Id) (n : Nat) : H :=
  if n < t.next t.root then b (n % 256) else t.hash (t.parent^[t.next id - 1 - n] id)

def HashChain.start (t : BlockTree Id H) (b : Nat → H) : HashChain Id H := ⟨[], ⟨t.next t.root, b⟩, t.root⟩

section Calls

variable [DecidableEq Id] [Inhabited H]

def ChainCall.run (t : BlockTree Id H) (c : HashChain Id H) : ChainCall Id → Option (HashChain Id H)
  | .propose id =>
    (RunLoop.propose c.proposals c.buf (t.hash id) (t.next (t.parent id)) id (t.parent id)).map fun proposals =>
      { c with proposals := proposals }
  | .finalize id => (finalizeChain c.proposals c.buf id).map fun r => ⟨r.1, r.2, id⟩

/-- The states that legal calls lead to. -/
inductive HashChain.Reached (t : BlockTree Id H) (b : Nat → H) : HashChain Id H → Prop
  | start : Reached t b (.start t b)
  | call {c c' : HashChain Id H} {call : ChainCall Id} (h : Reached t b c) (hlegal : call.Legal t c)
      (hrun : call.run t c = some c') : Reached t b c'

end Calls

/-! ## The invariant -/

/-- A proposal has its own hashes, at least down to the last finalized block. -/
structure HashesOk (t : BlockTree Id H) (n : Nat) (p : Proposal Id H) : Prop where
  proposed : p.id ≠ t.root
  parent : p.parentId = t.parent p.id
  next : p.buf.n = t.next p.id
  number : p.number + 1 = t.next p.id
  above : n < t.next p.id
  enough : t.next p.id ≤ n + p.buf.deltas.length
  own : t.next t.root + p.buf.deltas.length ≤ t.next p.id
  deltas : ∀ i < p.buf.deltas.length, p.buf.deltas[i]? = some (t.hash (t.parent^[i] p.id))

/-- The ring has the hashes of the last finalized block, and every live proposal those since. -/
structure ChainOk (t : BlockTree Id H) (b : Nat → H) (c : HashChain Id H) : Prop where
  next : c.buf.n = t.next c.finalized
  moved : t.next t.root ≤ c.buf.n
  ring : ∀ n, n < c.buf.n → c.buf.n ≤ n + 256 → c.buf.b (n % 256) = t.hashAt b c.finalized n
  proposals : ∀ p ∈ c.proposals, HashesOk t c.buf.n p

variable {t : BlockTree Id H} {b : Nat → H} {c : HashChain Id H} {n : Nat}

theorem HashesOk.mono {n' : Nat} {p : Proposal Id H} (h : HashesOk t n p) (hle : n ≤ n') (habove : n' < t.next p.id) :
    HashesOk t n' p :=
  { h with above := habove, enough := h.enough.trans (Nat.add_le_add_right hle _) }

/-- The ancestors of a block are those of its parent. -/
theorem hashAt_parent {id : Id} (hid : id ≠ t.root) (hn : n < t.next (t.parent id)) :
    t.hashAt b id n = t.hashAt b (t.parent id) n := by
  unfold BlockTree.hashAt
  rw [t.next_eq id hid, show t.next (t.parent id) + 1 - 1 - n = t.next (t.parent id) - 1 - n + 1 by omega,
    iterate_succ_apply]

namespace ChainOk

variable (h : ChainOk t b c)

include h

variable {p : Proposal Id H} {n : Nat} {id : Id}

theorem hashAt_of_descends (hp : c.Descends p) (hn : n < c.buf.n) : t.hashAt b p.id n = t.hashAt b c.finalized n := by
  induction hp with
  | child hp hparent =>
    have hok := h.proposals _ hp
    rw [hok.parent] at hparent
    rw [hashAt_parent hok.proposed (by rw [hparent, ← h.next]; exact hn), hparent]
  | step hp hq hparent ih =>
    have hok := h.proposals _ hp
    rw [hok.parent] at hparent
    have hq' := (h.proposals _ (by cases hq <;> assumption)).above
    rw [hashAt_parent hok.proposed (by rw [hparent]; omega), hparent, ih]

variable [DecidableEq Id]

theorem chainGet_of_descends (hp : c.Descends p) (hn : n < p.buf.n) (hlast : p.buf.n ≤ n + 256) :
    chainGet c.proposals c.buf p.id n = some (t.hashAt b p.id n) := by
  have hmem : p ∈ c.proposals := by cases hp <;> assumption
  obtain ⟨q, hq, hid, hfind⟩ := findProposal_some ⟨p, hmem, rfl⟩
  have hok := h.proposals q hq
  have hnext : p.buf.n = q.buf.n := by rw [(h.proposals p hmem).next, hok.next, hid]
  have hqn := hok.next
  have hen := hok.enough
  have hown := hok.own
  rw [hnext] at hn hlast
  unfold chainGet
  rw [hfind]
  dsimp only
  unfold ProposalBuffer.get
  rw [if_pos ⟨hn, hlast⟩]
  split
  case isTrue hidx =>
    -- the proposal has the hash itself, at the distance of the ancestor
    rw [hok.deltas _ hidx, ← hid]
    unfold BlockTree.hashAt
    rw [if_neg (by omega), hqn, Nat.sub_right_comm]
  case isFalse hidx =>
    -- the ring has what is older than the differences
    have hold : n < c.buf.n := by omega
    have habove := hok.above
    unfold HashBuffer.get
    rw [if_pos ⟨hold, by omega⟩, h.ring n hold (by omega), h.hashAt_of_descends hp hold]

/-! ## The calls -/

variable [Inhabited H]

theorem propose (hroot : id ≠ t.root) (hparent : t.parent id = c.finalized ∨ ∃ p ∈ c.proposals, p.id = t.parent id) :
    ∃ c', (ChainCall.propose id).run t c = some c' ∧ ChainOk t b c' := by
  have hnext := t.next_eq id hroot
  have hmoved := h.moved
  -- it is enough that the new proposal is right
  suffices hnew : ∃ p, HashesOk t c.buf.n p ∧
      RunLoop.propose c.proposals c.buf (t.hash id) (t.next (t.parent id)) id (t.parent id) =
        some (c.proposals ++ [p]) by
    obtain ⟨p, hp, hpropose⟩ := hnew
    refine ⟨{ c with proposals := c.proposals ++ [p] }, ?_, h.next, h.moved, h.ring, fun q hq => ?_⟩
    · unfold ChainCall.run
      dsimp only
      rw [hpropose]
      rfl
    · rcases mem_append.mp hq with hq | hq
      · exact h.proposals q hq
      rw [mem_singleton.mp hq]
      exact hp
  unfold RunLoop.propose
  by_cases hlive : ∃ p ∈ c.proposals, p.id = t.parent id
  · -- the differences of the parent with the new hash in front, down to the last finalized block
    obtain ⟨q, hq, hid, hfind⟩ := findProposal_some hlive
    have hok := h.proposals q hq
    have hqn := hok.next
    have habove := hok.above
    have hen := hok.enough
    rw [hid] at hqn habove hen
    have hlen : q.buf.n + 1 - c.buf.n ≤ (t.hash id :: q.buf.deltas).length := by
      rw [length_cons]
      omega
    rw [hfind]
    dsimp only
    rw [if_pos ⟨Nat.succ_pos _, by omega⟩, resize_of_le hlen]
    refine ⟨_, ⟨hroot, rfl, ?_, hnext.symm, by rw [hnext]; omega, ?_, ?_, fun i hi => ?_⟩, rfl⟩
    · dsimp only
      rw [hnext, hqn]
    · dsimp only
      rw [length_take_of_le hlen, hnext]
      omega
    · dsimp only
      rw [length_take_of_le hlen, hnext]
      omega
    · dsimp only at hi ⊢
      rw [length_take_of_le hlen] at hi
      rw [List.getElem?_take_of_lt hi]
      cases i with
      | zero => rfl
      | succ i =>
        rw [length_cons] at hlen
        rw [List.getElem?_cons_succ, hok.deltas i (by omega), hid, iterate_succ_apply]
  · -- on the last finalized block the new hash is the only difference
    have hfnl := hparent.resolve_right hlive
    rw [findProposal_none fun p hp hid => hlive ⟨p, hp, hid⟩]
    have hn := h.next
    rw [← hfnl] at hn
    refine ⟨_, ⟨hroot, rfl, ?_, hnext.symm, by rw [hnext]; omega, ?_, ?_, fun i hi => ?_⟩, rfl⟩
    · dsimp only
      rw [hnext, hn]
    · dsimp only
      rw [hnext, length_singleton]
      omega
    · dsimp only
      rw [hnext, length_singleton]
      omega
    · obtain rfl : i = 0 := by simpa using hi
      rfl

theorem finalize (hparent : t.parent id = c.finalized) (hlive : ∃ p ∈ c.proposals, p.id = id) :
    ∃ c', (ChainCall.finalize id).run t c = some c' ∧ ChainOk t b c' := by
  obtain ⟨p, hp, hid, hfind⟩ := findProposal_some hlive
  subst hid
  have hok := h.proposals p hp
  have hnext := t.next_eq p.id hok.proposed
  have hn := h.next
  have hmoved := h.moved
  have hpn := hok.next
  have hnumber := hok.number
  have hen := hok.enough
  rw [hparent, ← hn] at hnext
  have hget : p.buf.get c.buf c.buf.n = some (t.hash p.id) := by
    unfold ProposalBuffer.get
    rw [if_pos (by omega), show p.buf.n - c.buf.n - 1 = 0 by omega, if_pos (by omega), hok.deltas 0 (by omega)]
    rfl
  refine ⟨⟨c.proposals.filter fun q => decide (p.number < q.number),
    ⟨c.buf.n + 1, update c.buf.b (c.buf.n % 256) (t.hash p.id)⟩, p.id⟩, ?_, hnext.symm, ?_, ?_, ?_⟩
  · unfold ChainCall.run finalizeChain HashBuffer.set
    dsimp only
    rw [hfind]
    dsimp only
    rw [if_pos (by omega), hget]
    dsimp only
    rw [if_pos (.inr rfl)]
    rfl
  · exact Nat.le_succ_of_le hmoved
  · -- the slot that is overwritten is the one that goes out of reach
    intro n hlt hlast
    dsimp only at hlt hlast ⊢
    by_cases heq : n = c.buf.n
    · subst heq
      rw [update_self]
      unfold BlockTree.hashAt
      rw [if_neg (by omega), show t.next p.id - 1 - c.buf.n = 0 by omega]
      rfl
    · rw [update_of_ne (by omega), h.ring n (by omega) (by omega), ← hparent,
        hashAt_parent hok.proposed (by rw [hparent, ← hn]; omega)]
  · -- what stays is later than the finalized block, and its differences reach down to it
    intro q hq
    obtain ⟨hq, hlater⟩ := mem_filter.mp hq
    have hq' := h.proposals q hq
    have hlater := of_decide_eq_true hlater
    have hqnumber := hq'.number
    refine hq'.mono (Nat.le_succ _) ?_
    dsimp only
    omega

theorem call {call : ChainCall Id} (hlegal : call.Legal t c) : ∃ c', call.run t c = some c' ∧ ChainOk t b c' := by
  cases call with
  | propose id => exact h.propose hlegal.1 hlegal.2.2
  | finalize id => exact h.finalize hlegal.1 hlegal.2

end ChainOk

theorem start_ok : ChainOk t b (.start t b) where
  next := rfl
  moved := Nat.le_refl _
  ring n hn _ := (if_pos hn).symm
  proposals p hp := by cases hp

variable [DecidableEq Id] [Inhabited H]

theorem reached_ok (hrch : c.Reached t b) : ChainOk t b c := by
  induction hrch with
  | start => exact start_ok
  | call _ hlegal hrun ih =>
    obtain ⟨c', hc', hok⟩ := ih.call hlegal
    rw [hrun] at hc'
    cases hc'
    exact hok

/-- After any legal calls, the next one does not fail, and a proposal that descends from the last finalized block
reads the hashes of its own ancestors. -/
theorem find_chain_follows_fork (hreached : c.Reached t b) :
    (∀ call : ChainCall Id, call.Legal t c → (call.run t c).isSome) ∧
      ∀ p, c.Descends p → ∀ n, n < p.buf.n → p.buf.n ≤ n + 256 →
        chainGet c.proposals c.buf p.id n = some (t.hashAt b p.id n) := by
  have h := reached_ok hreached
  refine ⟨fun call hlegal => ?_, fun p hp n hn hlast => h.chainGet_of_descends hp hn hlast⟩
  obtain ⟨c', hc', -⟩ := h.call hlegal
  rw [hc']
  rfl

/-- Two blocks on the finalized one, which has the number zero, and a block on the first of them, which is finalized. -/
theorem find_chain_follows_fork_one : ∃ (t : BlockTree Nat Nat) (c : HashChain Nat Nat) (p : Proposal Nat Nat),
    c.Reached t (fun _ => 7) ∧ c.finalized = 1 ∧ c.Descends p ∧ chainGet c.proposals c.buf p.id 2 = some 13 ∧
      chainGet c.proposals c.buf p.id 1 = some 11 ∧ chainGet c.proposals c.buf p.id 0 = some 7 := by
  let t : BlockTree Nat Nat :=
    { root := 0
      parent := fun id => if id = 3 then 1 else 0
      hash := fun id => 10 + id
      next := fun id => if id = 0 then 1 else if id = 3 then 3 else 2
      next_eq := fun id h => by by_cases h3 : id = 3 <;> simp [h, h3] }
  let p (id : Nat) : Proposal Nat Nat := ⟨1, id, 0, ⟨2, [10 + id]⟩⟩
  let q : Proposal Nat Nat := ⟨2, 3, 1, ⟨3, [13, 11]⟩⟩
  let start : HashChain Nat Nat := .start t fun _ => 7
  have hlegal : (ChainCall.propose 1).Legal t start := ⟨by decide, fun _ hp => (by cases hp), .inl rfl⟩
  have h1 : HashChain.Reached t (fun _ => 7) { start with proposals := [p 1] } := .call .start hlegal rfl
  have hlegal : (ChainCall.propose 2).Legal t { start with proposals := [p 1] } := ⟨by decide, by simp [p], .inl rfl⟩
  have h2 : HashChain.Reached t (fun _ => 7) { start with proposals := [p 1, p 2] } := .call h1 hlegal rfl
  have hlegal : (ChainCall.propose 3).Legal t { start with proposals := [p 1, p 2] } :=
    ⟨by decide, by simp [p], .inr ⟨p 1, mem_cons_self, rfl⟩⟩
  have h3 : HashChain.Reached t (fun _ => 7) { start with proposals := [p 1, p 2, q] } := .call h2 hlegal rfl
  have hlegal : (ChainCall.finalize 1).Legal t { start with proposals := [p 1, p 2, q] } :=
    ⟨rfl, p 1, mem_cons_self, rfl⟩
  have h4 : HashChain.Reached t (fun _ => 7) _ := .call h3 hlegal rfl
  have hq : ∀ c : HashChain Nat Nat, c.proposals = [q] → c.finalized = 1 → c.Descends q :=
    fun c hp hfin => .child (hp ▸ mem_singleton_self q) hfin.symm
  obtain ⟨-, h⟩ := find_chain_follows_fork h4
  exact ⟨t, _, q, h4, rfl, hq _ rfl rfl, h q (hq _ rfl rfl) 2 (by decide) (by decide),
    h q (hq _ rfl rfl) 1 (by decide) (by decide), h q (hq _ rfl rfl) 0 (by decide) (by decide)⟩

end MonadExecution.RunLoop
