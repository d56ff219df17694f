import MonadExecution.Monad.LoopInvariant
import Mathlib.Data.Fin.VecNotation
import Mathlib.Data.Fintype.Basic
import Mathlib.Tactic.FinCases

/-!
# Every block is executed once

What a round does to the invariant of the run loop: executing a block of a path from the last finalized one,
finalizing the next block of it, erasing what is too old from the cache. From that, what the log of a whole run
says.
-/

namespace MonadExecution.RunLoop

open Function List Nat

variable {Id S H : Type} {g : Ledger Id S H} {noSenders : S} {first last : Id} {st : State Id S H}

/-! ## Executing a block -/

theorem validate_of_resultsOk [DecidableEq H] {b : Id} {get : Nat → Option H}
    (hget : ∀ m, m < g.seqno b → g.seqno b ≤ m + 256 → get m = some (g.hash (g.ancestor b m)))
    {expected : Option Nat} {results : List (Nat × H)} (h : g.ResultsOk b expected results) :
    validateDelayedExecutionResults get expected results = true := by
  induction results generalizing expected with
  | nil => rfl
  | cons r rest ih =>
    obtain ⟨n, hash⟩ := r
    obtain ⟨hexp, hlt, hw, rfl, hrest⟩ := h
    unfold validateDelayedExecutionResults
    rw [ih hrest, decide_eq_true hexp, decide_eq_true (hget n hlt hw)]
    rfl

theorem resize_of_le [Inhabited H] {l : List H} {k : Nat} (h : k ≤ l.length) : resize l k = l.take k := by
  unfold resize
  rw [Nat.sub_eq_zero_of_le h, replicate_zero, append_nil]

section Execute

variable [DecidableEq Id] {cache : List (Id × BlockCacheEntry Id S)} {a b : Id}

theorem lookup_cons_ne {e : BlockCacheEntry Id S} (h : a ≠ b) : lookup a ((b, e) :: cache) = cache.lookup a := by
  rw [lookup_cons, beq_eq_false_iff_ne.mpr h]

theorem lookup_filter {keep : Id × BlockCacheEntry Id S → Bool} (h : ∀ e, (a, e) ∈ cache → keep (a, e) = true) :
    (cache.filter keep).lookup a = cache.lookup a := by
  induction cache with
  | nil => rfl
  | cons c rest ih =>
    obtain ⟨b, e⟩ := c
    have ih := ih fun e he => h e (mem_cons_of_mem _ he)
    by_cases heq : a = b
    · subst heq
      rw [filter_cons_of_pos (h e mem_cons_self), lookup_cons_self, lookup_cons_self]
    rw [lookup_cons_ne heq, filter_cons]
    split
    · rw [lookup_cons_ne heq, ih]
    · exact ih

theorem lookup_map_entry {blocks : List Id} (h : b ∈ blocks) :
    (blocks.map fun id => (id, entry g id)).lookup b = some (entry g b) := by
  induction blocks with
  | nil => cases h
  | cons c rest ih =>
    rw [map_cons]
    by_cases heq : b = c
    · rw [heq]
      exact lookup_cons_self
    · rw [lookup_cons_ne heq]
      exact ih ((mem_cons.mp h).resolve_left heq)

namespace Inv

variable (h : Inv g noSenders first last st)

include h

variable {b : Id}

/-- The senders of the two blocks before are in the cache. -/
theorem sendersBefore_eq (ht : g.Tree) (hlt : g.seqno last < g.seqno b)
    (hparent : g.parent b = last ∨ g.parent b ∈ st.executed) :
    sendersBefore g noSenders ((b, entry g b) :: st.blockCache) b =
      some (if 2 < g.seqno b then g.senders (g.parent (g.parent b)) else noSenders,
        if 1 < g.seqno b then g.senders (g.parent b) else noSenders) := by
  have hseq := ht b (zero_lt_of_lt hlt)
  have hkn := h.parent_known hparent
  unfold sendersBefore
  by_cases hone : 1 < g.seqno b
  · have hne : g.parent b ≠ b := fun heq => by rw [heq] at hseq; omega
    rw [if_pos hone, if_pos hone, lookup_cons_ne hne, h.lookup_known hkn (by omega) (by omega)]
    dsimp only
    by_cases htwo : 2 < g.seqno b
    · have hseq' := ht (g.parent b) (by omega)
      have hne' : g.parent (g.parent b) ≠ b := fun heq => by rw [heq] at hseq'; omega
      rw [if_pos htwo, if_pos htwo]
      have hcached := h.lookup_known_parent ht hkn (by omega) (by omega)
      unfold entry at hcached ⊢
      rw [lookup_cons_ne hne', hcached]
      rfl
    · rw [if_neg htwo, if_neg htwo]
      rfl
  · rw [if_neg hone, if_neg hone, if_neg (by omega)]

section

variable (ht : g.Tree) (hab : g.Above last b) (hlt : g.seqno last < g.seqno b)
  (hparent : g.parent b = last ∨ g.parent b ∈ st.executed)

include ht hab hlt hparent

/-- Proposing a block adds it to the hash chain, with the hashes of its own ancestors. -/
theorem propose_eq [Inhabited H] : ∃ p : Proposal Id H, p.id = b ∧ ProposalOk g st.buf.n p ∧
    propose st.proposals st.buf (g.hash b) (g.seqno b) b (g.parent b) = some (st.proposals ++ [p]) := by
  have hseq := ht b (Nat.zero_lt_of_lt hlt)
  have hbuf := h.bufOk.n
  unfold propose
  rcases h.parent_proposed ht hab hlt hparent with ⟨heq, hfind⟩ | ⟨p, hp, hid, hfind⟩
  · rw [hfind]
    refine ⟨_, ?_, ?_, rfl⟩
    · rfl
    rw [heq] at hseq
    refine ⟨rfl, ?_, ?_, ?_⟩
    · dsimp only
      omega
    · simp only [length_cons, length_nil]
      omega
    · intro j hash hj
      cases j with
      | zero =>
        simp only [getElem?_cons_zero, Option.some.injEq] at hj
        rw [Nat.sub_zero, ancestor_self, hj]
        exact ⟨Nat.zero_le _, rfl⟩
      | succ j => simp at hj
  have hok := (h.proposals p hp).1
  have hn := hok.n
  have hen := hok.enough
  have hbel := (h.proposals p hp).2
  rw [hid] at hn hen hbel
  have hlen : p.buf.n + 1 - st.buf.n ≤ (g.hash b :: p.buf.deltas).length := by
    rw [length_cons]
    omega
  rw [hfind]
  dsimp only
  rw [if_pos ⟨Nat.succ_pos _, by omega⟩, resize_of_le hlen]
  refine ⟨_, ?_, ?_, rfl⟩
  · rfl
  refine ⟨rfl, ?_, ?_, ?_⟩
  · dsimp only
    omega
  · dsimp only
    rw [length_take]
    omega
  intro j hash hj
  dsimp only at hj ⊢
  rw [getElem?_take] at hj
  split at hj
  case isFalse => cases hj
  cases j with
  | zero =>
    simp only [getElem?_cons_zero, Option.some.injEq] at hj
    rw [Nat.sub_zero, ancestor_self, hj]
    exact ⟨Nat.zero_le _, rfl⟩
  | succ j =>
    obtain ⟨hle, hhash⟩ := hok.deltas j hash hj
    rw [hid] at hle hhash
    refine ⟨by omega, ?_⟩
    rw [hhash, ancestor_parent ht (by omega : g.seqno b - (j + 1) < g.seqno b)]
    congr 2
    omega

/-- What the log says of the execution of a block on a path from the last finalized one. -/
theorem logOk_execute (hnew : b ∉ st.executed) : LogOk g noSenders first (.executed
    ⟨b, g.seqno b - 1, if g.seqno b = g.seqno first + 1 then none else some (g.parent b),
      chainGet st.proposals st.buf (g.parent b),
      if 2 < g.seqno b then g.senders (g.parent (g.parent b)) else noSenders,
      if 1 < g.seqno b then g.senders (g.parent b) else noSenders⟩ :: st.log) := by
  have hseq := ht b (zero_lt_of_lt hlt)
  refine ⟨h.logOk, ?_, ?_, ?_, ?_, ?_, rfl, rfl⟩
  · rw [h.logExecuted]
    exact hnew
  · rw [h.logExecuted, h.logFinalized]
    exact hparent.symm
  · dsimp only
    omega
  · rw [h.logExecuted]
    by_cases hbeg : g.seqno b = g.seqno first + 1
    · rw [if_pos hbeg]
      refine .inl ⟨rfl, ?_⟩
      rcases h.parent_known hparent with hmem | heq
      · have := h.first_lt _ hmem
        omega
      · exact heq
    · rw [if_neg hbeg]
      refine .inr ⟨rfl, ?_⟩
      rcases h.parent_known hparent with hmem | heq
      · exact hmem
      rw [heq] at hseq
      exact absurd hseq hbeg
  · intro m hm hw
    exact h.chainGet_eq ht hab hlt hparent hm hw

end

/-- A block on a path from the last finalized one executes, and the invariant holds after it. -/
theorem execute [DecidableEq H] [Inhabited H] (ht : g.Tree) (hres : g.ResultsOk b none (g.results b))
    (hab : g.Above last b) (hlt : g.seqno last < g.seqno b) (hparent : g.parent b = last ∨ g.parent b ∈ st.executed)
    (hnew : b ∉ st.executed) :
    ∃ st', executeBlock g noSenders (g.seqno first + 1) st b = some st' ∧ Inv g noSenders first last st' ∧
      st'.executed = b :: st.executed := by
  have hget := fun m hm hw => h.chainGet_eq ht hab hlt hparent (m := m) hm hw
  have hfst := lt_of_le_of_lt h.first_le hlt
  obtain ⟨p, hid, hok, hpropose⟩ := h.propose_eq ht hab hlt hparent
  unfold executeBlock
  dsimp only
  rw [if_pos ⟨by rw [hget _ (by omega) (by omega)]; rfl, validate_of_resultsOk hget hres,
    h.lookup_new hnew hfst⟩, h.sendersBefore_eq ht hlt hparent, hpropose]
  refine ⟨_, rfl, ?_, rfl⟩
  constructor
  case num => exact h.num
  case logOk => exact h.logOk_execute ht hab hlt hparent hnew
  case logExecuted => exact congrArg _ h.logExecuted
  case logFinalized => exact h.logFinalized
  case finalized => exact h.finalized
  case last_executed => exact h.last_executed.imp_right (mem_cons_of_mem _)
  case first_lt =>
    intro c hc
    rcases mem_cons.mp hc with rfl | hc
    · exact hfst
    · exact h.first_lt c hc
  case parent_executed =>
    intro c hc
    rcases mem_cons.mp hc with rfl | hc
    · exact (h.parent_known hparent).imp_left (mem_cons_of_mem _)
    · exact (h.parent_executed c hc).imp_left (mem_cons_of_mem _)
  case cached =>
    intro c hc hle
    by_cases heq : c = b
    · rw [heq]
      exact lookup_cons_self
    · rw [lookup_cons_ne heq]
      refine h.cached c (hc.imp_left fun hmem => ?_) hle
      exact (mem_cons.mp hmem).resolve_left heq
  case cache_only =>
    intro c e hmem
    rcases mem_cons.mp hmem with heq | hmem
    · cases heq
      exact ⟨rfl, .inl mem_cons_self⟩
    · obtain ⟨he, hc⟩ := h.cache_only c e hmem
      exact ⟨he, hc.imp_left (mem_cons_of_mem _)⟩
  case proposed =>
    intro c hc hle
    rcases mem_cons.mp hc with rfl | hc
    · exact ⟨p, mem_append_right _ mem_cons_self, hid⟩
    obtain ⟨q, hq, hqid⟩ := h.proposed c hc hle
    exact ⟨q, mem_append_left _ hq, hqid⟩
  case proposals =>
    intro q hq
    rcases mem_append.mp hq with hq | hq
    · exact h.proposals q hq
    rw [mem_singleton.mp hq, hid]
    exact ⟨hok, hlt⟩
  case bufOk => exact h.bufOk

/-! ## Finalizing a block -/

/-- The next finalized block was executed, so its hash is in the chain. -/
theorem finalizeChain_eq (hmem : b ∈ st.executed) (hseq : g.seqno b = g.seqno last + 1) :
    finalizeChain st.proposals st.buf b = some (st.proposals.filter fun p => decide (g.seqno b < p.number),
        ⟨g.seqno b + 1, update st.buf.b (g.seqno b % 256) (g.hash b)⟩) := by
  obtain ⟨p, hp, hid, hfind⟩ := findProposal_some (h.proposed b hmem (by omega))
  have hok := (h.proposals p hp).1
  have hn := hok.n
  have hen := hok.enough
  have hnumber := hok.number
  have hbuf := h.bufOk.n
  rw [hid] at hn hen hnumber
  have hidx : p.buf.n - st.buf.n - 1 = 0 := by omega
  have hpos : 0 < p.buf.deltas.length := by omega
  have hget : p.buf.get st.buf st.buf.n = some (g.hash b) := by
    unfold ProposalBuffer.get
    rw [if_pos ⟨by omega, by omega⟩, hidx, if_pos hpos, getElem?_eq_getElem hpos]
    obtain ⟨-, hdel⟩ := hok.deltas 0 _ (getElem?_eq_getElem hpos)
    rw [hdel, hid, Nat.sub_zero, ancestor_self]
  unfold finalizeChain
  rw [hfind]
  dsimp only
  rw [if_pos (by omega), hget]
  dsimp only
  unfold HashBuffer.set
  rw [if_pos (.inr rfl), hnumber, hbuf, hseq]
  rfl

theorem finalize (ht : g.Tree) (hmem : b ∈ st.executed) (hparent : g.parent b = last)
    (hseq : g.seqno b = g.seqno last + 1) :
    ∃ st', finalizeBlock g st b = some st' ∧ Inv g noSenders first b st' ∧ st'.executed = st.executed := by
  unfold finalizeBlock
  rw [h.finalizeChain_eq hmem hseq]
  refine ⟨_, rfl, ?_, rfl⟩
  constructor
  case num => rfl
  case logOk => exact ⟨h.logOk, h.logExecuted ▸ hmem, hparent.trans h.logFinalized.symm, rfl⟩
  case logExecuted => exact h.logExecuted
  case logFinalized => rfl
  case finalized =>
    have hchain := chain_child ht (b := b) (hparent ▸ h.first_le) (hparent ▸ hseq)
    rw [hparent] at hchain
    rw [hchain, reverse_append]
    exact congrArg _ h.finalized
  case last_executed => exact .inr hmem
  case first_lt => exact h.first_lt
  case parent_executed => exact h.parent_executed
  case cached => exact fun c hc hle => h.cached c hc (by omega)
  case cache_only => exact h.cache_only
  case proposed =>
    intro c hc hlt
    obtain ⟨p, hp, hid⟩ := h.proposed c hc (by omega)
    refine ⟨p, mem_filter.mpr ⟨hp, decide_eq_true ?_⟩, hid⟩
    rw [(h.proposals p hp).1.number, hid]
    exact hlt
  case proposals =>
    intro p hp
    obtain ⟨hp, hlt⟩ := mem_filter.mp hp
    obtain ⟨hok, -⟩ := h.proposals p hp
    have hbuf := h.bufOk.n
    have hen := hok.enough
    rw [← hok.number]
    refine ⟨⟨hok.number, hok.n, ?_, hok.deltas⟩, of_decide_eq_true hlt⟩
    dsimp only
    omega
  case bufOk =>
    refine ⟨rfl, fun m hm hw => ?_⟩
    dsimp only
    by_cases heq : m = g.seqno b
    · rw [heq, update_self, ancestor_self]
    -- the slot that is overwritten is of a number 256 below
    rw [update_of_ne (by omega), h.bufOk.hashes m (by omega) (by omega),
      ancestor_parent ht (by omega : m < g.seqno b), hparent]

/-- What is erased from the cache is older than the parent of the last finalized block. -/
theorem erase : Inv g noSenders first last (eraseOld st st.latestFinalized) := by
  have hlk : ∀ c, g.seqno last ≤ g.seqno c + 1 →
      (eraseOld st st.latestFinalized).blockCache.lookup c = st.blockCache.lookup c := by
    intro c hc
    refine lookup_filter fun e hmem => ?_
    obtain ⟨rfl, -⟩ := h.cache_only c e hmem
    have hnum := h.num
    rw [Bool.not_eq_true', Bool.and_eq_false_imp]
    intro hone
    refine decide_eq_false ?_
    unfold entry
    dsimp only
    omega
  constructor
  case num => exact h.num
  case logOk => exact h.logOk
  case logExecuted => exact h.logExecuted
  case logFinalized => exact h.logFinalized
  case finalized => exact h.finalized
  case last_executed => exact h.last_executed
  case first_lt => exact h.first_lt
  case parent_executed => exact h.parent_executed
  case cached => exact fun c hc hle => (hlk c hle).trans (h.cached c hc hle)
  case cache_only => exact fun c e hmem => h.cache_only c e (mem_filter.mp hmem).1
  case proposed => exact h.proposed
  case proposals => exact h.proposals
  case bufOk => exact h.bufOk

end Inv

/-! ## Lists of blocks -/

variable {path executed : List Id} {finalizedHead : Id} {endBlockNum : Nat} {l : Id}

/-- The blocks of a path that are not executed yet are executed in its order. -/
theorem executeAll_path [DecidableEq H] [Inhabited H] (ht : g.Tree) (hres : ∀ b, g.ResultsOk b none (g.results b))
    {before : List Id} (h : Inv g noSenders first last st) (hpath : g.Path l path) (hab : g.Above last l)
    (hl : l = last ∨ l ∈ st.executed) (hbef : ∀ c ∈ path, c ∈ st.executed ↔ c ∈ before) :
    ∃ st', executeAll g noSenders (g.seqno first + 1) st (path.filter fun c => decide (c ∉ before)) = some st' ∧
      Inv g noSenders first last st' ∧ st.executed ⊆ st'.executed ∧ ∀ c ∈ path, c ∈ st'.executed := by
  induction path generalizing l st with
  | nil => exact ⟨st, rfl, h, fun _ => id, by simp⟩
  | cons c rest ih =>
    obtain ⟨hparent, hseq, hrest⟩ := hpath
    have habc : g.Above last c := by
      refine Ledger.Above.of_parent ht ?_ (by omega)
      rw [hparent]
      exact hab
    by_cases hc : c ∈ before
    · have hmem := (hbef c mem_cons_self).mpr hc
      obtain ⟨st', hrun, h', hsub, hall⟩ := ih h hrest habc (.inr hmem) fun d hd => hbef d (mem_cons_of_mem _ hd)
      rw [filter_cons_of_neg (by simpa using hc)]
      refine ⟨st', hrun, h', hsub, fun d hd => ?_⟩
      rcases mem_cons.mp hd with rfl | hd
      · exact hsub hmem
      · exact hall d hd
    have hnew := fun hmem => hc ((hbef c mem_cons_self).mp hmem)
    have hlt : g.seqno last < g.seqno c := by
      have := hab.1
      omega
    obtain ⟨st1, hstep, h1, hex⟩ := h.execute ht (hres c) habc hlt (by rwa [hparent]) hnew
    -- the blocks that follow are further up, so none of them is the one just executed
    have hbef' : ∀ d ∈ rest, d ∈ st1.executed ↔ d ∈ before := by
      intro d hd
      have hne : d ≠ c := by
        intro heq
        have := path_lt hrest hd
        rw [heq] at this
        exact lt_irrefl _ this
      rw [hex, mem_cons, or_iff_right hne]
      exact hbef d (mem_cons_of_mem _ hd)
    have hmem : c ∈ st1.executed := hex ▸ mem_cons_self
    obtain ⟨st', hrun, h', hsub, hall⟩ := ih h1 hrest habc (.inr hmem) hbef'
    rw [filter_cons_of_pos (by simpa using hc)]
    refine ⟨st', ?_, h', fun d hd => hsub (hex ▸ mem_cons_of_mem _ hd), fun d hd => ?_⟩
    · unfold executeAll
      rw [hstep]
      exact hrun
    · rcases mem_cons.mp hd with rfl | hd
      · exact hsub hmem
      · exact hall d hd

theorem finalizeAll_path (ht : g.Tree) (h : Inv g noSenders first last st) (hpath : g.Path last path)
    (hall : ∀ c ∈ path, c ∈ st.executed) :
    ∃ st', finalizeAll g st path = some st' ∧ Inv g noSenders first (path.getLastD last) st' := by
  induction path generalizing last st with
  | nil => exact ⟨st, rfl, h⟩
  | cons c rest ih =>
    obtain ⟨hparent, hseq, hrest⟩ := hpath
    obtain ⟨st1, hstep, h1, hex⟩ := h.finalize ht (hall c mem_cons_self) hparent hseq
    obtain ⟨st', hrun, h'⟩ := ih h1 hrest fun d hd => hex ▸ hall d (mem_cons_of_mem _ hd)
    refine ⟨st', ?_, ?_⟩
    · unfold finalizeAll
      rw [hstep]
      exact hrun
    · rw [getLastD_cons]
      exact h'

theorem pickFinalized_reverse (executed path : List Id) :
    pickFinalized executed path.reverse = path.filter fun c => decide (c ∉ executed) := by
  unfold pickFinalized
  rw [foldl_reverse]
  induction path with
  | nil => rfl
  | cons c rest ih =>
    rw [foldr_cons, ih, filter_cons]
    by_cases hc : c ∈ executed
    · simp [hc]
    · simp [hc]

/-- Above the first block after the last finalized one, the check for the canonical chain does nothing. -/
theorem pickProposed_above {lastFinalized : Nat} (h : ∀ c ∈ path, lastFinalized + 1 < g.seqno c) :
    pickProposed g executed lastFinalized finalizedHead path.reverse =
      path.filter fun c => decide (c ∉ executed) := by
  unfold pickProposed
  rw [foldl_reverse]
  induction path with
  | nil => rfl
  | cons c rest ih =>
    have hc := h c mem_cons_self
    rw [foldr_cons, ih fun d hd => h d (mem_cons_of_mem _ hd), if_neg fun hcond => by omega, filter_cons]
    by_cases hmem : c ∈ executed
    · simp [hmem]
    · simp [hmem]

/-- A path that does not start at the finalized head is dropped. -/
theorem pickProposed_reverse (h : g.Path l path) : pickProposed g executed (g.seqno l) finalizedHead path.reverse =
    if finalizedHead = l then path.filter fun c => decide (c ∉ executed) else [] := by
  cases path with
  | nil => simp [pickProposed]
  | cons c rest =>
    obtain ⟨hparent, hseq, hrest⟩ := h
    have habove : pickProposed g executed (g.seqno l) finalizedHead rest.reverse = _ :=
      pickProposed_above fun d hd => hseq ▸ path_lt hrest hd
    unfold pickProposed at habove ⊢
    rw [reverse_cons, foldl_append, habove, foldl_cons, foldl_nil]
    by_cases heq : finalizedHead = l
    · rw [if_pos heq, if_neg fun hcond => hcond.2 (heq.trans hparent.symm), filter_cons]
      by_cases hmem : c ∈ executed
      · simp [hmem]
      · simp [hmem]
    · rw [if_neg heq, if_pos ⟨hseq, fun hcond => heq (hcond.trans hparent)⟩]

/-! ## Rounds and runs -/

/-- The state before the loop. -/
theorem start_inv (ht : g.Tree) {buf : HashBuffer H} (hbuf : g.BufferOk first buf) (hab : g.Above first finalizedHead) :
    Inv g noSenders first first (start g (g.seqno first) buf finalizedHead) := by
  constructor
  case num => rfl
  case logOk => trivial
  case logExecuted => rfl
  case logFinalized => rfl
  case finalized =>
    rw [chain_self]
    rfl
  case last_executed => exact .inl rfl
  case first_lt => simp [start]
  case parent_executed => simp [start]
  case cached =>
    intro b hb hle
    obtain ⟨hpos, hup⟩ := hb.resolve_left (by simp [start])
    refine lookup_map_entry (mem_headers ht (hup.trans ht hab) ?_ hup.1)
    split
    · omega
    · exact hpos
  case cache_only =>
    intro b e hmem
    obtain ⟨c, hc, heq⟩ := mem_map.mp hmem
    cases heq
    exact ⟨rfl, .inr (headersFrom_mem hc).2⟩
  case proposed => simp [start]
  case proposals => simp [start]
  case bufOk => exact hbuf

variable [DecidableEq H] [Inhabited H]

section

variable (ht : g.Tree) (hres : ∀ b, g.ResultsOk b none (g.results b))

include ht hres

/-- A round finalizes the chain of the finalized head, as far as the last number wanted. -/
theorem round_inv (proposedHead : Id) (h : Inv g noSenders first last st) (hab : g.Above last finalizedHead)
    (hend : g.seqno last < endBlockNum) :
    ∃ st', round g noSenders (g.seqno first + 1) endBlockNum st finalizedHead proposedHead = some st' ∧
      Inv g noSenders first (g.ancestor finalizedHead (min endBlockNum (g.seqno finalizedHead))) st' := by
  unfold round
  rw [h.num]
  rcases lt_or_ge (g.seqno last) (g.seqno finalizedHead) with hlt | hge
  · obtain ⟨hpath, hlast⟩ := headers_path ht hlt hend
    rw [hab.2] at hpath hlast
    generalize headers g (g.seqno last) endBlockNum finalizedHead = visited at hpath hlast ⊢
    rw [if_neg]
    · obtain ⟨st1, hexec, h1, -, hall⟩ :=
        executeAll_path ht hres h hpath (above_refl last) (.inl rfl) fun _ _ => Iff.rfl
      obtain ⟨st₂, hfin, h2⟩ := finalizeAll_path ht h1 hpath hall
      have hpick := pickFinalized_reverse st.executed visited.reverse
      rw [reverse_reverse] at hpick
      rw [hpick, hexec]
      dsimp only
      rw [hfin]
      rw [hlast] at h2
      exact ⟨_, rfl, h2.erase⟩
    · rintro rfl
      have hsame := congrArg g.seqno hlast
      rw [seqno_ancestor ht (min_le_right _ _), reverse_nil, getLastD_nil] at hsame
      omega
  · have heq : finalizedHead = last := by
      have hself := hab.2
      rwa [ancestor_of_le hge] at hself
    subst heq
    rw [headers_eq_nil (le_refl _), if_pos rfl, min_eq_right (le_of_lt hend), ancestor_self]
    rcases lt_or_ge (g.seqno finalizedHead) (g.seqno proposedHead) with hlt | hge
    · obtain ⟨hpath, -⟩ := headers_path ht hlt hend
      generalize headers g (g.seqno finalizedHead) endBlockNum proposedHead = visited at hpath ⊢
      have hpick : pickProposed g st.executed _ finalizedHead visited.reverse.reverse = _ :=
        pickProposed_reverse hpath
      rw [seqno_ancestor ht (le_of_lt hlt), reverse_reverse] at hpick
      rw [hpick]
      split
      case isTrue hon =>
        rw [← hon] at hpath
        obtain ⟨st1, hexec, h1, -⟩ := executeAll_path ht hres h hpath (above_refl _) (.inl rfl) fun _ _ => Iff.rfl
        exact ⟨st1, hexec, h1⟩
      case isFalse => exact ⟨st, rfl, h⟩
    · rw [headers_eq_nil hge]
      exact ⟨st, rfl, h⟩

theorem run_inv {head : Id} {observations : List (Id × Id)}
    (h : Inv g noSenders first (g.target first endBlockNum head) st) (hfst : g.Above first head)
    (hforward : g.Forward head observations) :
    ∃ st', run g noSenders (g.seqno first + 1) endBlockNum st observations = some st' ∧
      Inv g noSenders first (g.target first endBlockNum (lastHead head observations)) st' := by
  induction observations generalizing head st with
  | nil => exact ⟨st, rfl, h⟩
  | cons o rest ih =>
    obtain ⟨finalizedHead, proposedHead⟩ := o
    obtain ⟨hab, hrest⟩ := hforward
    have hle := hfst.1
    unfold run
    rw [h.num]
    by_cases hend : g.seqno (g.target first endBlockNum head) < endBlockNum
    · have hlast : g.Above (g.target first endBlockNum head) finalizedHead := by
        refine Ledger.Above.trans ht ⟨?_, ?_⟩ hab
        · unfold Ledger.target
          rw [seqno_ancestor ht (by omega)]
          omega
        · unfold Ledger.target
          rw [seqno_ancestor ht (by omega)]
      obtain ⟨st1, hrd, h1⟩ := round_inv ht hres proposedHead h hlast hend
      have hmax : max (g.seqno first) (min endBlockNum (g.seqno finalizedHead)) =
          min endBlockNum (g.seqno finalizedHead) := by
        have := h.first_le
        have := hlast.1
        omega
      rw [← hmax] at h1
      rw [if_pos hend, hrd]
      exact ih h1 (hfst.trans ht hab) hrest
    · rw [if_neg hend]
      refine ⟨st, rfl, ?_⟩
      have hstay := target_eq ht hfst (hab.trans ht (above_lastHead ht hrest)) (Nat.le_of_not_lt hend)
      unfold lastHead
      rw [hstay]
      exact h

end

/-- Two blocks after the first one and a fork of one block: 0 is the first block, 1 follows it, 2 and 3 follow 1,
4 follows 3 with the delayed result of block 1. -/
def forked : Ledger (Fin 5) Nat Nat where
  seqno := ![0, 1, 2, 2, 3]
  parent := ![0, 0, 1, 1, 3]
  senders := ![10, 11, 12, 13, 14]
  hash := ![20, 21, 22, 23, 24]
  results := ![[], [], [], [], [(1, 21)]]

end Execute

end MonadExecution.RunLoop
