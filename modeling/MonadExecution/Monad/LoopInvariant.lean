import MonadExecution.Monad.RunLoop
import Mathlib.Order.Basic

/-!
# The invariant of the run loop

The invariant follows one block, the last finalized one. Above it, the proposals of the hash chain are the
executed blocks, each with the hashes of its own ancestors; at it and above the block before it, the cache has
every executed block. A block is executed only on a path that comes down to the last finalized block, so its
parent is there in all four places.
-/

namespace MonadExecution.RunLoop

open List

variable {Id S H : Type}

/-! ## Ancestors -/

/-- Every block comes after its parent. -/
def Ledger.Tree (g : Ledger Id S H) : Prop := ∀ b, 0 < g.seqno b → g.seqno b = g.seqno (g.parent b) + 1

/-- The ancestor with a number. -/
def Ledger.ancestor (g : Ledger Id S H) (b : Id) (m : Nat) : Id := g.parent^[g.seqno b - m] b

variable {g : Ledger Id S H} {b c l head first : Id} {m start stop fuel : Nat} {path : List Id}
  {observations : List (Id × Id)}

theorem ancestor_of_le (h : g.seqno b ≤ m) : g.ancestor b m = b := by
  unfold Ledger.ancestor
  rw [Nat.sub_eq_zero_of_le h]
  rfl

theorem ancestor_self (b : Id) : g.ancestor b (g.seqno b) = b := ancestor_of_le (Nat.le_refl _)

theorem ancestor_parent (ht : g.Tree) (h : m < g.seqno b) : g.ancestor b m = g.ancestor (g.parent b) m := by
  have hseq := ht b (Nat.zero_lt_of_lt h)
  have hsub : g.seqno b - m = (g.seqno (g.parent b) - m) + 1 := by omega
  unfold Ledger.ancestor
  rw [hsub, Function.iterate_succ_apply]

theorem seqno_ancestor (ht : g.Tree) (h : m ≤ g.seqno b) : g.seqno (g.ancestor b m) = m := by
  induction hn : g.seqno b - m generalizing b with
  | zero =>
    rw [ancestor_of_le (by omega)]
    omega
  | succ n ih =>
    have hlt : m < g.seqno b := by omega
    have hseq := ht b (Nat.zero_lt_of_lt hlt)
    rw [ancestor_parent ht hlt]
    exact ih (by omega) (by omega)

theorem ancestor_ancestor (ht : g.Tree) {k : Nat} (hk : k ≤ g.seqno b) (hm : m ≤ k) :
    g.ancestor (g.ancestor b k) m = g.ancestor b m := by
  induction hn : g.seqno b - k generalizing b with
  | zero => rw [ancestor_of_le (by omega : g.seqno b ≤ k)]
  | succ n ih =>
    have hlt : k < g.seqno b := by omega
    have hseq := ht b (Nat.zero_lt_of_lt hlt)
    rw [ancestor_parent ht hlt, ancestor_parent ht (Nat.lt_of_le_of_lt hm hlt)]
    exact ih (by omega) (by omega)

/-- A block is another one, or an ancestor of it. -/
def Ledger.Above (g : Ledger Id S H) (l b : Id) : Prop := g.seqno l ≤ g.seqno b ∧ g.ancestor b (g.seqno l) = l

theorem above_refl (b : Id) : g.Above b b := ⟨Nat.le_refl _, ancestor_self b⟩

theorem Ledger.Above.trans (ht : g.Tree) {a : Id} (hab : g.Above a b) (hbc : g.Above b c) : g.Above a c := by
  refine ⟨Nat.le_trans hab.1 hbc.1, ?_⟩
  rw [← ancestor_ancestor ht hbc.1 hab.1, hbc.2]
  exact hab.2

theorem Ledger.Above.parent (ht : g.Tree) (h : g.Above l b) (hlt : g.seqno l < g.seqno b) :
    g.Above l (g.parent b) := by
  have hseq := ht b (Nat.zero_lt_of_lt hlt)
  refine ⟨by omega, ?_⟩
  rw [← ancestor_parent ht hlt]
  exact h.2

theorem Ledger.Above.of_parent (ht : g.Tree) (h : g.Above l (g.parent b)) (hpos : 0 < g.seqno b) : g.Above l b := by
  have hseq := ht b hpos
  have hle := h.1
  refine ⟨by omega, ?_⟩
  rw [ancestor_parent ht (by omega)]
  exact h.2

/-! ## Paths -/

/-- Blocks one after the other, the first after a given block. -/
def Ledger.Path (g : Ledger Id S H) : Id → List Id → Prop
  | _, [] => True
  | l, c :: rest => g.parent c = l ∧ g.seqno c = g.seqno l + 1 ∧ g.Path c rest

theorem path_lt (h : g.Path l path) (hc : c ∈ path) : g.seqno l < g.seqno c := by
  induction path generalizing l with
  | nil => cases hc
  | cons d rest ih =>
    obtain ⟨-, hseq, hrest⟩ := h
    rcases mem_cons.mp hc with rfl | hc
    · omega
    have := ih hrest hc
    omega

theorem path_append (h : g.Path l path) (hp : g.parent c = path.getLastD l)
    (hs : g.seqno c = g.seqno (path.getLastD l) + 1) : g.Path l (path ++ [c]) := by
  induction path generalizing l with
  | nil => exact ⟨hp, hs, trivial⟩
  | cons d rest ih =>
    rw [getLastD_cons] at hp hs
    exact ⟨h.1, h.2.1, ih h.2.2 hp hs⟩

/-- The walk of `for_each_header`, turned around, is a path up to the head or to the last number wanted. -/
theorem headersFrom_path (ht : g.Tree) (hs : start < g.seqno head) (hstop : start < stop)
    (hfuel : g.seqno head < start + 1 + fuel) :
    g.Path (g.ancestor head start) (headersFrom g start stop fuel head).reverse ∧
      (headersFrom g start stop fuel head).reverse.getLastD (g.ancestor head start) =
        g.ancestor head (min stop (g.seqno head)) := by
  induction fuel generalizing head with
  | zero => omega
  | succ fuel ih =>
    have hseq := ht head (Nat.zero_lt_of_lt hs)
    unfold headersFrom
    by_cases hbottom : g.seqno head ≤ start + 1
    · have hanc : g.ancestor head start = g.parent head := by rw [ancestor_parent ht hs, ancestor_of_le (by omega)]
      rw [if_pos hbottom, if_pos ⟨hs, by omega⟩, append_nil, hanc]
      refine ⟨⟨rfl, hseq, trivial⟩, ?_⟩
      rw [ancestor_of_le (by omega)]
      rfl
    have hanc := ancestor_parent ht hs
    have hup : start < g.seqno (g.parent head) := by omega
    obtain ⟨hpath, hlast⟩ := ih hup (by omega)
    rw [if_neg hbottom, reverse_append, hanc]
    by_cases hin : g.seqno head ≤ stop
    · rw [if_pos ⟨hs, hin⟩]
      have hparent : g.ancestor (g.parent head) (min stop (g.seqno (g.parent head))) = g.parent head := by
        rw [Nat.min_eq_right (by omega), ancestor_self]
      rw [hparent] at hlast
      refine ⟨path_append hpath hlast.symm (by rw [hlast]; exact hseq), ?_⟩
      rw [Nat.min_eq_right hin, ancestor_self]
      simp
    · rw [if_neg fun h => hin h.2]
      refine ⟨by simpa using hpath, ?_⟩
      rw [Nat.min_eq_left (by omega), ancestor_parent ht (by omega : stop < g.seqno head)]
      rw [Nat.min_eq_left (by omega)] at hlast
      simpa using hlast

theorem headers_eq_nil (hs : g.seqno head ≤ start) : headers g start stop head = [] := by
  unfold headers headersFrom
  rw [if_neg (by omega), if_pos (by omega)]
  rfl

/-- The blocks above one block up to another, in the order of their numbers. -/
def Ledger.chain (g : Ledger Id S H) (first last : Id) : List Id :=
  (List.range (g.seqno last - g.seqno first)).map fun i => g.ancestor last (g.seqno first + 1 + i)

theorem chain_self (b : Id) : g.chain b b = [] := by
  unfold Ledger.chain
  rw [Nat.sub_self]
  rfl

theorem chain_child (ht : g.Tree) (hle : g.seqno first ≤ g.seqno (g.parent b))
    (hseq : g.seqno b = g.seqno (g.parent b) + 1) : g.chain first b = g.chain first (g.parent b) ++ [b] := by
  have hlen : g.seqno b - g.seqno first = (g.seqno (g.parent b) - g.seqno first) + 1 := by omega
  have htop : g.seqno first + 1 + (g.seqno (g.parent b) - g.seqno first) = g.seqno b := by omega
  unfold Ledger.chain
  rw [hlen, range_succ, map_append, map_singleton, htop, ancestor_self]
  congr 1
  refine map_congr_left fun i hi => ancestor_parent ht ?_
  have := mem_range.mp hi
  omega

theorem headers_path (ht : g.Tree) (hs : start < g.seqno head) (hstop : start < stop) :
    g.Path (g.ancestor head start) (headers g start stop head).reverse ∧
      (headers g start stop head).reverse.getLastD (g.ancestor head start) =
        g.ancestor head (min stop (g.seqno head)) :=
  headersFrom_path ht hs hstop (by omega)

theorem headersFrom_mem (hc : c ∈ headersFrom g start stop fuel head) : start < g.seqno c ∧ g.seqno c ≤ stop := by
  induction fuel generalizing head with
  | zero => cases hc
  | succ fuel ih =>
    unfold headersFrom at hc
    rcases mem_append.mp hc with hc | hc
    · split at hc
      case isTrue hin =>
        rw [mem_singleton.mp hc]
        exact hin
      case isFalse => cases hc
    · split at hc
      case isTrue => cases hc
      case isFalse => exact ih hc

section

variable (ht : g.Tree) (hab : g.Above c head) (hs : start < g.seqno c) (hstop : g.seqno c ≤ stop)

include ht hab hs hstop

/-- The walk meets every ancestor of the head with a number in the range. -/
theorem mem_headersFrom (hfuel : g.seqno head < start + 1 + fuel) : c ∈ headersFrom g start stop fuel head := by
  induction fuel generalizing head with
  | zero =>
    have := hab.1
    omega
  | succ fuel ih =>
    unfold headersFrom
    rcases Nat.lt_or_ge (g.seqno c) (g.seqno head) with hlt | hge
    · have hseq := ht head (Nat.zero_lt_of_lt hlt)
      rw [if_neg (by omega : ¬ g.seqno head ≤ start + 1)]
      exact mem_append_right _ (ih (hab.parent ht hlt) (by omega))
    · have heq : head = c := by
        have hself := hab.2
        rwa [ancestor_of_le hge] at hself
      rw [heq, if_pos ⟨hs, hstop⟩]
      exact mem_append_left _ mem_cons_self

theorem mem_headers : c ∈ headers g start stop head := mem_headersFrom ht hab hs hstop (by omega)

end

/-! ## Heads -/

/-- The finalized head only moves forward along one chain. -/
def Ledger.Forward (g : Ledger Id S H) : Id → List (Id × Id) → Prop
  | _, [] => True
  | l, (finalizedHead, _) :: rest => g.Above l finalizedHead ∧ g.Forward finalizedHead rest

/-- The finalized head that was seen last. -/
def lastHead : Id → List (Id × Id) → Id
  | l, [] => l
  | _, (finalizedHead, _) :: rest => lastHead finalizedHead rest

/-- The block to finalize up to. -/
def Ledger.target (g : Ledger Id S H) (first : Id) (endBlockNum : Nat) (head : Id) : Id :=
  g.ancestor head (max (g.seqno first) (min endBlockNum (g.seqno head)))

theorem above_lastHead (ht : g.Tree) (h : g.Forward l observations) : g.Above l (lastHead l observations) := by
  induction observations generalizing l with
  | nil => exact above_refl l
  | cons o rest ih => exact h.1.trans ht (ih h.2)

theorem Ledger.Forward.of_above (ht : g.Tree) {l' : Id} (h : g.Forward l' observations) (hab : g.Above l l') :
    g.Forward l observations := by
  cases observations with
  | nil => trivial
  | cons o rest => exact ⟨hab.trans ht h.1, h.2⟩

theorem target_self (first : Id) (endBlockNum : Nat) : g.target first endBlockNum first = first := by
  refine ancestor_of_le ?_
  omega

/-- A finalized head further up does not matter once the last number wanted is reached. -/
theorem target_eq (ht : g.Tree) {endBlockNum : Nat} {head' : Id} (hfst : g.Above first head)
    (hab : g.Above head head') (hend : endBlockNum ≤ g.seqno (g.target first endBlockNum head)) :
    g.target first endBlockNum head' = g.target first endBlockNum head := by
  have hle := hfst.1
  have hle' := hab.1
  unfold Ledger.target at hend ⊢
  rw [seqno_ancestor ht (by omega)] at hend
  have hmax : max (g.seqno first) (min endBlockNum (g.seqno head')) =
      max (g.seqno first) (min endBlockNum (g.seqno head)) := by omega
  rw [hmax, ← ancestor_ancestor ht hab.1 (by omega), hab.2]

/-! ## The log -/

/-- The blocks that were executed. -/
def executedIn : List (Event Id S H) → List Id
  | [] => []
  | .executed e :: log => e.id :: executedIn log
  | .finalized .. :: log => executedIn log

/-- The block that was finalized last. -/
def lastFinalizedIn (first : Id) : List (Event Id S H) → Id
  | [] => first
  | .executed _ :: log => lastFinalizedIn first log
  | .finalized _ id :: _ => id

/-- The blocks that were finalized, newest first. -/
def finalizedIn : List (Event Id S H) → List Id
  | [] => []
  | .executed _ :: log => finalizedIn log
  | .finalized _ id :: log => id :: finalizedIn log

/-- The senders that a block is executed with: those of its own parent and grandparent, where they have a
number above zero. -/
def Ledger.SendersOk (g : Ledger Id S H) (noSenders : S) (e : Execution Id S H) : Prop :=
  e.parentSenders = (if 1 < g.seqno e.id then g.senders (g.parent e.id) else noSenders) ∧
    e.grandparentSenders = if 2 < g.seqno e.id then g.senders (g.parent (g.parent e.id)) else noSenders

/-- A block is executed once, after its parent or on the last finalized block, on the state of its parent, with
the hashes of its own ancestors and the senders of its own parent and grandparent. A block is finalized after it
was executed, directly on the block that was finalized before. -/
def LogOk (g : Ledger Id S H) (noSenders : S) (first : Id) : List (Event Id S H) → Prop
  | [] => True
  | .executed e :: log =>
    LogOk g noSenders first log ∧ e.id ∉ executedIn log ∧
      (g.parent e.id ∈ executedIn log ∨ g.parent e.id = lastFinalizedIn first log) ∧
      e.number = g.seqno (g.parent e.id) ∧
      (e.onState = none ∧ g.parent e.id = first ∨ e.onState = some (g.parent e.id) ∧ g.parent e.id ∈ executedIn log) ∧
      (∀ m, m < g.seqno e.id → g.seqno e.id ≤ m + 256 → e.hashes m = some (g.hash (g.ancestor e.id m))) ∧
      g.SendersOk noSenders e
  | .finalized number id :: log =>
    LogOk g noSenders first log ∧ id ∈ executedIn log ∧ g.parent id = lastFinalizedIn first log ∧ number = g.seqno id

/-- The delayed results of a block are consecutive, and those of its own ancestors. -/
def Ledger.ResultsOk (g : Ledger Id S H) (b : Id) : Option Nat → List (Nat × H) → Prop
  | _, [] => True
  | expected, (n, hash) :: rest =>
    expected.getD n = n ∧ n < g.seqno b ∧ g.seqno b ≤ n + 256 ∧ hash = g.hash (g.ancestor b n) ∧
      g.ResultsOk b (some (n + 1)) rest

theorem LogOk.nodup {noSenders : S} {log : List (Event Id S H)} (h : LogOk g noSenders first log) :
    (executedIn log).Nodup := by
  induction log with
  | nil => exact nodup_nil
  | cons e log ih =>
    cases e with
    | executed e => exact nodup_cons.mpr ⟨h.2.1, ih h.1⟩
    | finalized number id => exact ih h.1

/-! ## The invariant -/

section Invariant

variable [DecidableEq Id] {noSenders : S}

/-- A proposal of the hash chain has the hashes of its own ancestors, down to the finalized ones. -/
structure ProposalOk (g : Ledger Id S H) (bufN : Nat) (p : Proposal Id H) : Prop where
  number : p.number = g.seqno p.id
  n : p.buf.n = g.seqno p.id + 1
  enough : g.seqno p.id + 1 ≤ bufN + p.buf.deltas.length
  deltas : ∀ j h, p.buf.deltas[j]? = some h → j ≤ g.seqno p.id ∧ h = g.hash (g.ancestor p.id (g.seqno p.id - j))

/-- The buffer of finalized hashes has the last 256 blocks up to one. -/
structure Ledger.BufferOk (g : Ledger Id S H) (last : Id) (buf : HashBuffer H) : Prop where
  n : buf.n = g.seqno last + 1
  hashes : ∀ m, m ≤ g.seqno last → g.seqno last + 1 ≤ m + 256 → buf.b (m % 256) = g.hash (g.ancestor last m)

/-- A block that the cache had from the start. -/
def Ledger.Initial (g : Ledger Id S H) (first b : Id) : Prop := 0 < g.seqno b ∧ g.Above b first

structure Inv (g : Ledger Id S H) (noSenders : S) (first last : Id) (st : State Id S H) : Prop where
  num : st.latestFinalized = g.seqno last
  logOk : LogOk g noSenders first st.log
  logExecuted : executedIn st.log = st.executed
  logFinalized : lastFinalizedIn first st.log = last
  finalized : finalizedIn st.log = (g.chain first last).reverse
  last_executed : last = first ∨ last ∈ st.executed
  first_lt : ∀ b ∈ st.executed, g.seqno first < g.seqno b
  parent_executed : ∀ b ∈ st.executed, g.parent b ∈ st.executed ∨ g.parent b = first
  cached : ∀ b, b ∈ st.executed ∨ g.Initial first b → g.seqno last ≤ g.seqno b + 1 →
    st.blockCache.lookup b = some (entry g b)
  cache_only : ∀ b e, (b, e) ∈ st.blockCache → e = entry g b ∧ (b ∈ st.executed ∨ g.seqno b ≤ g.seqno first)
  proposed : ∀ b ∈ st.executed, g.seqno last < g.seqno b → ∃ p ∈ st.proposals, p.id = b
  proposals : ∀ p ∈ st.proposals, ProposalOk g st.buf.n p ∧ g.seqno last < g.seqno p.id
  bufOk : g.BufferOk last st.buf

variable {proposals : List (Proposal Id H)}

theorem findProposal_some (h : ∃ p ∈ proposals, p.id = b) :
    ∃ p ∈ proposals, p.id = b ∧ findProposal proposals b = some p := by
  cases hf : findProposal proposals b with
  | none =>
    obtain ⟨p, hp, hid⟩ := h
    have hno := find?_eq_none.mp hf p hp
    exact absurd (decide_eq_true hid) hno
  | some p =>
    have hid := find?_some hf
    exact ⟨p, mem_of_find?_eq_some hf, of_decide_eq_true hid, rfl⟩

theorem findProposal_none (h : ∀ p ∈ proposals, p.id ≠ b) : findProposal proposals b = none := by
  refine find?_eq_none.mpr fun p hp => ?_
  rw [decide_eq_true_eq]
  exact h p hp

namespace Inv

variable {first last : Id} {st : State Id S H} (h : Inv g noSenders first last st)

include h

theorem buf_get (hm : m ≤ g.seqno last) (hw : g.seqno last + 1 ≤ m + 256) :
    st.buf.get m = some (g.hash (g.ancestor last m)) := by
  unfold HashBuffer.get
  rw [h.bufOk.n, if_pos ⟨by omega, hw⟩, h.bufOk.hashes m hm hw]

variable {b : Id}

section

variable (ht : g.Tree) (hab : g.Above last b) (hlt : g.seqno last < g.seqno b)
  (hparent : g.parent b = last ∨ g.parent b ∈ st.executed)

include ht hab hlt hparent

/-- The parent of a block on a path from the last finalized one is that block, or a proposal. -/
theorem parent_proposed : g.parent b = last ∧ findProposal st.proposals (g.parent b) = none ∨
    ∃ p ∈ st.proposals, p.id = g.parent b ∧ findProposal st.proposals (g.parent b) = some p := by
  have hup := hab.parent ht hlt
  by_cases heq : g.parent b = last
  · refine .inl ⟨heq, findProposal_none fun p hp hid => ?_⟩
    have hp' := (h.proposals p hp).2
    rw [hid, heq] at hp'
    exact Nat.lt_irrefl _ hp'
  · have hbel : g.seqno last < g.seqno (g.parent b) := by
      refine Nat.lt_of_le_of_ne hup.1 fun hsame => heq ?_
      have hself := hup.2
      rw [hsame, ancestor_self] at hself
      exact hself
    exact .inr (findProposal_some (h.proposed _ (hparent.resolve_left heq) hbel))

/-- A block on a path from the last finalized one sees the hashes of its own ancestors. -/
theorem chainGet_eq (hm : m < g.seqno b) (hw : g.seqno b ≤ m + 256) :
    chainGet st.proposals st.buf (g.parent b) m = some (g.hash (g.ancestor b m)) := by
  have hseq := ht b (Nat.zero_lt_of_lt hlt)
  have hup := hab.parent ht hlt
  have hanc := ancestor_parent ht hm
  unfold chainGet
  rcases h.parent_proposed ht hab hlt hparent with ⟨heq, hfind⟩ | ⟨p, hp, hid, hfind⟩
  · rw [heq] at hseq
    rw [hfind]
    dsimp only
    rw [h.buf_get (by omega) (by omega), hanc, heq]
  have hok := (h.proposals p hp).1
  have hn := hok.n
  have hen := hok.enough
  rw [hid] at hn hen
  rw [hfind]
  dsimp only
  unfold ProposalBuffer.get
  rw [if_pos ⟨by omega, by omega⟩, hanc]
  by_cases hidx : p.buf.n - m - 1 < p.buf.deltas.length
  · rw [if_pos hidx, getElem?_eq_getElem hidx]
    obtain ⟨-, hdel⟩ := hok.deltas _ _ (getElem?_eq_getElem hidx)
    have hat : g.seqno (g.parent b) - (p.buf.n - m - 1) = m := by omega
    rw [hid, hat] at hdel
    rw [hdel]
  · -- the delta is too short, so the number is of a finalized block
    have hbuf := h.bufOk.n
    rw [if_neg hidx, h.buf_get (by omega) (by omega), ← hup.2, ancestor_ancestor ht hup.1 (by omega)]

end

theorem first_le : g.seqno first ≤ g.seqno last := by
  rcases h.last_executed with rfl | hmem
  · exact Nat.le_refl _
  · exact Nat.le_of_lt (h.first_lt last hmem)

/-- The parent of a block on a path from the last finalized one was executed, or is the first block. -/
theorem parent_known (hparent : g.parent b = last ∨ g.parent b ∈ st.executed) :
    g.parent b ∈ st.executed ∨ g.parent b = first := by
  rcases hparent with heq | hmem
  · rcases h.last_executed with hfst | hmem
    · exact .inr (heq.trans hfst)
    · exact .inl (heq ▸ hmem)
  · exact .inl hmem

/-- What was executed, or is the first block, is in the cache unless it is too old. -/
theorem lookup_known (hb : b ∈ st.executed ∨ b = first) (hpos : 0 < g.seqno b) (hle : g.seqno last ≤ g.seqno b + 1) :
    st.blockCache.lookup b = some (entry g b) := by
  refine h.cached b ?_ hle
  rcases hb with hmem | rfl
  · exact .inl hmem
  · exact .inr ⟨hpos, above_refl b⟩

/-- And so is its parent. -/
theorem lookup_known_parent (ht : g.Tree) (hb : b ∈ st.executed ∨ b = first) (hpos : 1 < g.seqno b)
    (hle : g.seqno last ≤ g.seqno b) : st.blockCache.lookup (g.parent b) = some (entry g (g.parent b)) := by
  have hseq := ht b (by omega)
  refine h.cached _ ?_ (by omega)
  rcases hb with hmem | rfl
  · rcases h.parent_executed b hmem with hup | hup
    · exact .inl hup
    rw [hup]
    rw [hup] at hseq
    exact .inr ⟨by omega, above_refl first⟩
  · refine .inr ⟨by omega, (by omega), ?_⟩
    rw [ancestor_parent ht (by omega), ancestor_self]

theorem lookup_new (hnew : b ∉ st.executed) (hlt : g.seqno first < g.seqno b) : st.blockCache.lookup b = none := by
  cases hl : st.blockCache.lookup b with
  | none => rfl
  | some e =>
    obtain ⟨before, after, hcache, -⟩ := lookup_eq_some_iff.mp hl
    have hmem : (b, e) ∈ st.blockCache := by simp [hcache]
    rcases (h.cache_only b e hmem).2 with hex | hold
    · exact absurd hex hnew
    · omega

end Inv

end Invariant

end MonadExecution.RunLoop
