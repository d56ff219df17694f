import MonadExecution.Event.Runs

/-!
# Descriptors are never torn

While every thread is punctual, the slot of an event belongs to one recording at a time: it is zero from
the moment the recording has cleared it until the commit, and afterwards it holds what was recorded until
the next event of that slot clears it. An iterator that sees the sequence number it wants before and after
copying has therefore copied one event.
-/

namespace MonadExecution.Event

open Function List Config Nat

variable {cfg : Config} {n : Nat} {m m' : Machine}

/-! ## The invariant -/

/-- The stages in which the descriptor is in the hands of the recording. -/
def Stage.HoldsSlot : Stage → Prop
  | .numbered | .placed => False
  | _ => True

/-- Event `k` has been recorded, completely. -/
def Machine.Committed (m : Machine) (k : Nat) : Prop :=
  k ≤ m.shared.lastSeqno ∧ ∀ i r, m.recorders i = some r → r.last + 1 ≠ k

/-- These are the fields that were recorded for event `k`. -/
def Machine.Describes (m : Machine) (k : Nat) (f : Fields) : Prop :=
  ∃ e b, m.recorded k = some (e, b) ∧ f = e.fields b

/-- A recording is numbered, noted, and alone in its slot. -/
structure RecordingOk (cfg : Config) (m : Machine) (r : Recording) : Prop where
  numbered : r.last + 1 ≤ m.shared.lastSeqno
  noted : r.stage ≠ .numbered → m.recorded (r.last + 1) = some (r.entry, r.payloadBegin)
  holds : r.stage.HoldsSlot → m.shared.seqno (cfg.index r.last) = 0
  stored : ∀ todo, r.stage = .filling todo → ∀ f, .field f ∉ todo →
    m.shared.field (cfg.index r.last) f = r.entry.fields r.payloadBegin f

/-- A slot with a sequence number holds the event of that number. -/
structure SlotOk (cfg : Config) (m : Machine) (k : Nat) : Prop where
  committed : m.Committed (k + 1)
  describes : m.Describes (k + 1) (m.shared.field (cfg.index k))

/-- Event `k + 1` has left its slot. -/
def Machine.Overwritten (cfg : Config) (m : Machine) (k : Nat) : Prop :=
  m.shared.seqno (cfg.index k) ≠ k + 1 ∧ k + 1 + cfg.capacity ≤ m.shared.lastSeqno

/-- The descriptors of one iterator are the recorded ones, with consecutive numbers up to the last one
read. -/
def Consecutive : Nat → List (Nat × Fields) → Prop
  | _, [] => True
  | last, event :: rest => event.1 = last ∧ 0 < last ∧ Consecutive (last - 1) rest

/-- What an iterator has, and what it is about to have. -/
structure IteratorOk (cfg : Config) (m : Machine) (it : Iterator) : Prop where
  events : ∀ event ∈ it.events, m.Committed event.1 ∧ m.Describes event.1 event.2
  taken : ∀ event ∈ it.taken, event ∈ it.events
  consecutive : Consecutive it.readLastSeqno it.taken
  gap : it.outcome = some .gap → it.readLastSeqno + 1 + cfg.capacity ≤ m.shared.lastSeqno
  copying : ∀ todo copy, it.phase = .copying todo copy →
    (m.shared.seqno (cfg.index it.readLastSeqno) = it.readLastSeqno + 1 ∧
      ∀ f, f ∉ todo → copy f = m.shared.field (cfg.index it.readLastSeqno) f) ∨
    m.Overwritten cfg it.readLastSeqno

/-- The invariant of a ring whose threads are punctual. -/
structure RingOk (cfg : Config) (m : Machine) : Prop where
  recording : ∀ i r, m.recorders i = some r → RecordingOk cfg m r
  unique : ∀ i j r r', m.recorders i = some r → m.recorders j = some r' → r.last = r'.last → i = j
  slot : ∀ s k, m.shared.seqno s = k + 1 → cfg.index k = s ∧ SlotOk cfg m k
  iterator : ∀ i, IteratorOk cfg m (m.iterators i)

/-! ## Slots -/

/-- Two events with one slot are a whole round apart. -/
theorem Config.round_apart {x y : Nat} (h : cfg.index x = cfg.index y) (hlt : x < y) : x + cfg.capacity ≤ y := by
  rw [cfg.index_eq, cfg.index_eq] at h
  have hdvd : cfg.capacity ∣ y - x := dvd_of_mod_eq_zero (sub_mod_eq_zero_of_mod_eq h.symm)
  have := le_of_dvd (by omega) hdvd
  omega

variable {r : Recording} {i : Nat}

section

variable (h : RingOk cfg m) (hp : m.Punctual cfg) (hi : m.recorders i = some r)

include h hp hi

/-- Punctual recordings of different events have different slots. -/
theorem RingOk.separate {j : Nat} {r' : Recording} (hj : m.recorders j = some r') (hne : j ≠ i) :
    cfg.index r'.last ≠ cfg.index r.last := by
  intro hslot
  have hr := (h.recording i r hi).numbered
  have hr' := (h.recording j r' hj).numbered
  have hpr := hp i r hi
  have hpr' := hp j r' hj
  rcases lt_trichotomy r'.last r.last with hlt | heq | hgt
  · have := round_apart hslot hlt
    omega
  · exact hne (h.unique j i r' r hj hi heq)
  · have := round_apart hslot.symm hgt
    omega

/-- A punctual recording that finds another event in its slot comes a round after it. -/
theorem RingOk.round_after {k : Nat} (hk : m.shared.seqno (cfg.index r.last) = k + 1) :
    k + 1 + cfg.capacity ≤ m.shared.lastSeqno := by
  obtain ⟨hslot, hok⟩ := h.slot _ k hk
  have hr := (h.recording i r hi).numbered
  have hpr := hp i r hi
  have hne := hok.committed.2 i r hi
  have hle := hok.committed.1
  rcases lt_trichotomy k r.last with hlt | heq | hgt
  · have := round_apart hslot hlt
    omega
  · omega
  · have := round_apart hslot.symm hgt
    omega

end

/-! ## What a recording thread changes -/

section Recorder

variable {sh sh' : Shared} {r r' : Option Recording}

/-- What a thread may do to the slot of its event. -/
inductive SlotChange (sh sh' : Shared) (q : Recording) (r' : Option Recording) (s : Nat) : Prop
  | cleared (h : sh'.seqno s = 0)
  | stored (hq : q.stage.HoldsSlot) (h : sh'.seqno s = sh.seqno s)
  | committed (hq : q.stage = .filling []) (hr : r' = none) (h : sh'.seqno s = q.last + 1)
      (hf : sh'.field s = sh.field s)

/-- A thread leaves all other slots alone. -/
theorem RecorderStep.slot (hs : RecorderStep cfg sh r sh' r') (s : Nat) :
    (sh'.seqno s = sh.seqno s ∧ sh'.field s = sh.field s) ∨
      ∃ q, r = some q ∧ s = cfg.index q.last ∧ SlotChange sh sh' q r' s := by
  cases hs with
  | @clear e last b =>
    by_cases hslot : s = cfg.index last
    · exact .inr ⟨_, rfl, hslot, .cleared (by simp [hslot])⟩
    · exact .inl ⟨update_of_ne hslot _ _, rfl⟩
  | @storeField e last b todo f h =>
    by_cases hslot : s = cfg.index last
    · exact .inr ⟨_, rfl, hslot, .stored trivial rfl⟩
    · exact .inl ⟨rfl, update_of_ne hslot _ _⟩
  | @commit e last b =>
    by_cases hslot : s = cfg.index last
    · exact .inr ⟨_, rfl, hslot, .committed rfl rfl (by simp [hslot]) rfl⟩
    · exact .inl ⟨update_of_ne hslot _ _, rfl⟩
  | _ => exact .inl ⟨rfl, rfl⟩

end Recorder

variable {r : Option Recording} {k : Nat}

theorem note_of_ne {recorded : Nat → Option (Entry × Nat)} (h : ∀ q, r = some q → q.last + 1 ≠ k) :
    note recorded r k = recorded k := by
  unfold note
  split
  · exact update_of_ne (h _ rfl).symm _ _
  · rfl

/-- A thread does not come back to an event that is committed. -/
theorem RecorderStep.off {i : Nat} {sh : Shared} (hs : RecorderStep cfg m.shared (m.recorders i) sh r)
    (hk : m.Committed k) {q : Recording} (hq : r = some q) : q.last + 1 ≠ k := by
  rcases hs.numbers.2 q hq with ⟨q', hq', hlast⟩ | ⟨_, hlast⟩
  · rw [← hlast]
    exact hk.2 i q' hq'
  · have := hk.1
    omega

theorem Step.lastSeqno_le (hs : Step cfg n m m') : m.shared.lastSeqno ≤ m'.shared.lastSeqno := by
  cases hs with
  | recorder hi h => exact h.numbers.1
  | iterator h => exact le_rfl

theorem Step.committed (hs : Step cfg n m m') (hk : m.Committed k) : m'.Committed k := by
  refine ⟨hk.1.trans hs.lastSeqno_le, ?_⟩
  cases hs with
  | iterator h => exact hk.2
  | @recorder i sh r hi h =>
    intro j q hq
    by_cases hj : j = i
    · subst hj
      exact h.off hk (by simpa using hq)
    · exact hk.2 j q (by simpa [update_of_ne hj] using hq)

theorem Step.describes (hs : Step cfg n m m') (hk : m.Committed k) {f : Fields} (hf : m.Describes k f) :
    m'.Describes k f := by
  cases hs with
  | iterator h => exact hf
  | recorder hi h =>
    obtain ⟨e, b, he, hfe⟩ := hf
    exact ⟨e, b, (note_of_ne fun _ hq => h.off hk hq).trans he, hfe⟩

/-! ## One step of a thread -/

section RecorderStep

variable {i : Nat} {sh : Shared} {r : Option Recording} {q : Recording}

/-- The recording that takes the step is still in order after it. -/
theorem RecordingOk.recorder_self (h : RingOk cfg m) (hs : RecorderStep cfg m.shared (m.recorders i) sh r)
    (hq : r = some q) : RecordingOk cfg (m.recorderTo i sh r) q := by
  have hold : ∀ q', m.recorders i = some q' → RecordingOk cfg m q' := h.recording i
  generalize hr : m.recorders i = r₀ at hs hold
  cases hs with
  | number =>
    cases hq
    exact ⟨le_rfl, fun hne => absurd rfl hne, fun hh => hh.elim, by rintro _ ⟨⟩⟩
  | place =>
    cases hq
    have ok := hold _ rfl
    exact ⟨ok.numbered, fun _ => update_self _ _ _, fun hh => hh.elim, by rintro _ ⟨⟩⟩
  | clear =>
    cases hq
    have ok := hold _ rfl
    exact ⟨ok.numbered, fun _ => ok.noted (by simp), fun _ => update_self _ _ _, by rintro _ ⟨⟩⟩
  | fits | slide =>
    cases hq
    have ok := hold _ rfl
    refine ⟨ok.numbered, fun _ => ok.noted (by simp), fun _ => ok.holds trivial, ?_⟩
    rintro _ ⟨⟩ f hf
    exact absurd (by simp [Entry.stores, Field.mem_all]) hf
  | exceeds =>
    cases hq
    have ok := hold _ rfl
    exact ⟨ok.numbered, fun _ => ok.noted (by simp), fun _ => ok.holds trivial, by rintro _ ⟨⟩⟩
  | @storeField e last b todo f hf =>
    cases hq
    have ok := hold _ rfl
    refine ⟨ok.numbered, fun _ => ok.noted (by simp), fun _ => ok.holds trivial, ?_⟩
    rintro _ ⟨⟩ g hg
    by_cases hgf : g = f
    · simp [hgf]
    have hg' : .field g ∉ todo := fun hmem => hg ((mem_erase_of_ne (by simpa using hgf)).mpr hmem)
    simpa [update_of_ne hgf] using ok.stored todo rfl g hg'
  | @storeByte e last b todo j hj =>
    cases hq
    have ok := hold _ rfl
    refine ⟨ok.numbered, fun _ => ok.noted (by simp), fun _ => ok.holds trivial, ?_⟩
    rintro _ ⟨⟩ g hg
    have hg' : .field g ∉ todo := fun hmem => hg ((mem_erase_of_ne (by simp)).mpr hmem)
    exact ok.stored todo rfl g hg'
  | commit => cases hq

section

variable (h : RingOk cfg m) (hp : m.Punctual cfg) (hs : RecorderStep cfg m.shared (m.recorders i) sh r)

include h hp hs

/-- The other recordings do not notice. -/
theorem RecordingOk.recorder_other {j : Nat} (hne : j ≠ i) (hq : m.recorders j = some q) :
    RecordingOk cfg (m.recorderTo i sh r) q := by
  have ok := h.recording j q hq
  have hslot : sh.seqno (cfg.index q.last) = m.shared.seqno (cfg.index q.last) ∧
      sh.field (cfg.index q.last) = m.shared.field (cfg.index q.last) := by
    rcases hs.slot (cfg.index q.last) with hsame | ⟨q', hq', hidx, _⟩
    · exact hsame
    · exact absurd hidx (h.separate hp hq' hq hne)
  refine ⟨ok.numbered.trans hs.numbers.1, fun hst => ?_, fun hst => ?_, fun todo htodo f hf => ?_⟩
  · refine (note_of_ne fun q' hq' hlast => ?_).trans (ok.noted hst)
    rcases hs.numbers.2 q' hq' with ⟨q0, hq0, hlast0⟩ | ⟨_, hlast0⟩
    · exact hne (h.unique j i q q0 hq hq0 (by omega))
    have := ok.numbered
    omega
  · exact hslot.1.trans (ok.holds hst)
  · exact (congrFun hslot.2 f).trans (ok.stored todo htodo f hf)

/-- An iterator in the middle of a copy sees its event, or that the event is gone. -/
theorem IteratorOk.copying_recorder {todo : List Field} {copy : Fields}
    (hc : (m.shared.seqno (cfg.index k) = k + 1 ∧ ∀ f, f ∉ todo → copy f = m.shared.field (cfg.index k) f) ∨
      m.Overwritten cfg k) :
    (sh.seqno (cfg.index k) = k + 1 ∧ ∀ f, f ∉ todo → copy f = sh.field (cfg.index k) f) ∨
      sh.seqno (cfg.index k) ≠ k + 1 ∧ k + 1 + cfg.capacity ≤ sh.lastSeqno := by
  have hlast := hs.numbers.1
  rcases hs.slot (cfg.index k) with ⟨hseq, hfld⟩ | ⟨q, hq, hidx, hchange⟩
  · rw [hseq, hfld]
    exact hc.imp_right fun ho => ⟨ho.1, ho.2.trans hlast⟩
  have hpq := hp i q hq
  have ok := h.recording i q hq
  rcases hc with ⟨hseq, _⟩ | ⟨hseq, hrd⟩
  · -- the event is still there, so the only thing that can happen is that it is cleared
    have hrd := h.round_after hp hq (hidx ▸ hseq)
    rcases hchange with hzero | ⟨hst, _⟩ | ⟨hst, _, _, _⟩
    · exact .inr ⟨by omega, hrd.trans hlast⟩
    · have := ok.holds hst
      rw [← hidx] at this
      omega
    · have := ok.holds (hst ▸ trivial)
      rw [← hidx] at this
      omega
  · -- the event is gone, and nobody records it again
    refine .inr ⟨?_, hrd.trans hlast⟩
    rcases hchange with hzero | ⟨_, hsame⟩ | ⟨_, _, hnew, _⟩
    · omega
    · rwa [hsame]
    · omega

end

/-- A step of a thread keeps the invariant. -/
theorem RingOk.recorder (h : RingOk cfg m) (hp : m.Punctual cfg) (hi : i < n)
    (hs : RecorderStep cfg m.shared (m.recorders i) sh r) : RingOk cfg (m.recorderTo i sh r) := by
  have hstep : Step cfg n m _ := .recorder hi hs
  refine ⟨fun j q hq => ?_, fun j j' q q' hq hq' hlast => ?_, fun s k hk => ?_, fun j => ?_⟩
  · by_cases hj : j = i
    · subst hj
      exact .recorder_self h hs (by simpa using hq)
    · exact .recorder_other h hp hs hj (by simpa [update_of_ne hj] using hq)
  · -- a number that is new is larger than all others
    have key : ∀ {l : Nat} {p p' : Recording}, l ≠ i → m.recorders l = some p → r = some p' → p.last ≠ p'.last := by
      intro l p p' hl hp hp' heq
      rcases hs.numbers.2 p' hp' with ⟨p0, hp0, hlast0⟩ | ⟨_, hlast0⟩
      · exact hl (h.unique l i p p0 hp hp0 (by omega))
      have := (h.recording l p hp).numbered
      omega
    by_cases hj : j = i <;> by_cases hj' : j' = i
    · rw [hj, hj']
    · subst hj
      simp only [update_self, update_of_ne hj'] at hq hq'
      exact absurd hlast.symm (key hj' hq' hq)
    · subst hj'
      simp only [update_self, update_of_ne hj] at hq hq'
      exact absurd hlast (key hj hq hq')
    · simp only [update_of_ne hj, update_of_ne hj'] at hq hq'
      exact h.unique j j' q q' hq hq' hlast
  · rcases hs.slot s with ⟨hseq, hfld⟩ | ⟨q, hq, hidx, hchange⟩
    · obtain ⟨hidx, ok⟩ := h.slot s k (hseq ▸ hk)
      refine ⟨hidx, hstep.committed ok.committed, ?_⟩
      have := hstep.describes ok.committed ok.describes
      subst hidx
      simpa [hfld] using this
    have ok := h.recording i q hq
    rcases hchange with hzero | ⟨hst, hsame⟩ | ⟨hst, hr, hnew, hfld⟩
    · exact absurd (hzero.symm.trans hk) (by omega)
    · have := ok.holds hst
      rw [← hidx, ← hsame] at this
      exact absurd (this.symm.trans hk) (by omega)
    have hkq : q.last = k := by
      have := hnew.symm.trans hk
      omega
    subst hkq hr
    refine ⟨hidx.symm, ⟨ok.numbered.trans hs.numbers.1, fun j q' hq' hlast => ?_⟩, ?_⟩
    · have hji : j ≠ i := by
        rintro rfl
        simp at hq'
      simp only [update_of_ne hji] at hq'
      exact hji (h.unique j i q' q hq' hq (by omega))
    · refine ⟨q.entry, q.payloadBegin, ok.noted (by simp [hst]), ?_⟩
      rw [← hidx]
      refine hfld.trans (funext fun f => ?_)
      rw [hidx]
      exact ok.stored [] hst f (by simp)
  · have ok := h.iterator j
    exact {
      events := fun event hev => ⟨hstep.committed (ok.events event hev).1,
        hstep.describes (ok.events event hev).1 (ok.events event hev).2⟩
      taken := ok.taken
      consecutive := ok.consecutive
      gap := fun hg => (ok.gap hg).trans hs.numbers.1
      copying := fun todo copy hc => IteratorOk.copying_recorder h hp hs (ok.copying todo copy hc) }

end RecorderStep

/-! ## One step of an iterator -/

section IteratorStep

variable {it it' : Iterator}

/-- A sequence number in the slot that is neither awaited nor older belongs to a later round. -/
theorem RingOk.gap_round (hcap : 1 ≤ cfg.descriptorsShift) (h : RingOk cfg m)
    (hne : m.shared.seqno (cfg.index k) ≠ k + 1) (hge : ¬m.shared.seqno (cfg.index k) < k)
    (hz : ¬(m.shared.seqno (cfg.index k) = k ∧ m.shared.seqno (cfg.index k) = 0)) :
    k + 1 + cfg.capacity ≤ m.shared.lastSeqno := by
  obtain ⟨l, hl⟩ : ∃ l, m.shared.seqno (cfg.index k) = l + 1 := Nat.exists_eq_succ_of_ne_zero (by omega)
  obtain ⟨hslot, ok⟩ := h.slot _ l hl
  have hle := ok.committed.1
  rcases Nat.lt_or_ge k l with hlt | hge'
  · have := round_apart hslot.symm hlt
    omega
  -- the event just before the awaited one has another slot, because there are two
  have htwo : 2 ^ 1 ≤ cfg.capacity := Nat.pow_le_pow_right (by omega) hcap
  have := round_apart hslot (by omega)
  omega

/-- An iterator that has stopped copying keeps what it has. -/
theorem IteratorOk.idle (ok : IteratorOk cfg m it) (hr : it'.readLastSeqno = it.readLastSeqno)
    (ht : it'.taken = it.taken) (he : it'.events = it.events)
    (hg : it'.outcome = some .gap → it.readLastSeqno + 1 + cfg.capacity ≤ m.shared.lastSeqno)
    (hc : ∀ todo copy, it'.phase ≠ .copying todo copy) : IteratorOk cfg m it' where
  events := he ▸ ok.events
  taken := by
    rw [ht, he]
    exact ok.taken
  consecutive := by
    rw [ht, hr]
    exact ok.consecutive
  gap := by rwa [hr]
  copying todo copy hphase := absurd hphase (hc todo copy)

theorem IteratorOk.resetTo (ok : IteratorOk cfg m it) (k : Nat) : IteratorOk cfg m (it.resetTo k) where
  events := ok.events
  taken := by simp [Iterator.resetTo]
  consecutive := trivial
  gap := by rintro ⟨⟩
  copying := by rintro _ _ ⟨⟩

/-- An iterator that still sees its event after copying every field has the event. -/
theorem IteratorOk.take (h : RingOk cfg m) (ok : IteratorOk cfg m it) {copy : Fields}
    (hi : it.phase = .copying [] copy) (hseq : m.shared.seqno (cfg.index it.readLastSeqno) = it.readLastSeqno + 1) :
    IteratorOk cfg m (it.take copy) := by
  obtain ⟨_, hslot⟩ := h.slot _ _ hseq
  have hcopy : copy = m.shared.field (cfg.index it.readLastSeqno) := by
    rcases ok.copying [] copy hi with ⟨_, hall⟩ | ho
    · exact funext fun f => hall f (by simp)
    · exact absurd hseq ho.1
  refine ⟨?_, ?_, ⟨rfl, succ_pos _, ok.consecutive⟩, by rintro ⟨⟩, by rintro _ _ ⟨⟩⟩
  · intro event hev
    rcases mem_cons.mp hev with rfl | hold
    · exact ⟨hslot.committed, hcopy ▸ hslot.describes⟩
    · exact ok.events event hold
  · intro event hev
    rcases mem_cons.mp hev with rfl | hold
    · exact mem_cons_self
    · exact mem_cons_of_mem _ (ok.taken event hold)

theorem IteratorOk.step (hcap : 1 ≤ cfg.descriptorsShift) (h : RingOk cfg m)
    (ok : IteratorOk cfg m it) (hs : IteratorStep cfg m.shared it it') : IteratorOk cfg m it' := by
  cases hs with
  | found hi hseq =>
    refine ⟨ok.events, ok.taken, ok.consecutive, by rintro ⟨⟩, ?_⟩
    rintro _ _ ⟨⟩
    exact .inl ⟨hseq, fun f hf => absurd f.mem_all hf⟩
  | gap hi hne hge hz => exact ok.idle rfl rfl rfl (fun _ => h.gap_round hcap hne hge hz) (by simp [hi])
  | @copy todo copy f hi hf =>
    refine ⟨ok.events, ok.taken, ok.consecutive, ok.gap, ?_⟩
    rintro _ _ ⟨⟩
    refine (ok.copying todo copy hi).imp_left fun hc => ⟨hc.1, fun g hg => ?_⟩
    by_cases hgf : g = f
    · simp [hgf]
    rw [update_of_ne hgf]
    exact hc.2 g fun hmem => hg ((mem_erase_of_ne hgf).mpr hmem)
  | same hi hseq => exact .take h ok hi hseq
  | @changed copy hi hseq =>
    refine ok.idle rfl rfl rfl (fun _ => ?_) (by simp)
    rcases ok.copying [] copy hi with hc | ho
    · exact absurd hc.1 hseq
    · exact ho.2
  | resetEmpty | confirmed | scannedAll => exact ok.resetTo _
  | notReady hi | expired hi => exact ok.idle rfl rfl rfl (by simp) (by simp [hi])
  | unexpired => exact ok.idle rfl rfl rfl (by simp) (by simp)
  | fetched | expiredLate => exact ok.idle rfl rfl rfl (by simp) (by simp)
  | _ => exact ok.idle rfl rfl rfl ok.gap (by simp)

end IteratorStep

/-! ## Every run -/

theorem RingOk.step (hcap : 1 ≤ cfg.descriptorsShift) (h : RingOk cfg m) (hp : m.Punctual cfg)
    (hs : Step cfg n m m') : RingOk cfg m' := by
  cases hs with
  | recorder hi hr => exact h.recorder hp hi hr
  | @iterator i it hit =>
    -- nothing but the iterator changes, and no part of the invariant is about two iterators
    have ok : ∀ j, IteratorOk cfg m (update m.iterators i it j) := by
      intro j
      by_cases hj : j = i
      · subst hj
        simpa using IteratorOk.step hcap h (h.iterator j) hit
      · simpa [update_of_ne hj] using h.iterator j
    refine ⟨fun j r hr => ?_, h.unique, fun s k hk => ?_, fun j => ?_⟩
    · exact ⟨(h.recording j r hr).numbered, (h.recording j r hr).noted, (h.recording j r hr).holds,
        (h.recording j r hr).stored⟩
    · exact ⟨(h.slot s k hk).1, (h.slot s k hk).2.committed, (h.slot s k hk).2.describes⟩
    · exact ⟨(ok j).events, (ok j).taken, (ok j).consecutive, (ok j).gap, (ok j).copying⟩

theorem RingOk.start : RingOk cfg {} where
  recording i r hr := by cases hr
  unique i j r r' hr := by cases hr
  slot s k hk := by cases hk
  iterator i := ⟨by simp, by simp, trivial, by simp, by simp⟩

theorem PunctualReach.ringOk (hcap : 1 ≤ cfg.descriptorsShift) (h : PunctualReach cfg n m) : RingOk cfg m := by
  induction h with
  | start => exact .start
  | step h hs _ ih => exact ih.step hcap h.punctual hs

/-- With at least two descriptors and punctual threads, every descriptor an iterator has ever returned
is the recorded one, those since its last reset have consecutive numbers, the last of them the number
the iterator stands at, and a gap means that the awaited event's slot has been given away. -/
theorem iterator_descriptors_intact (hcap : 1 ≤ cfg.descriptorsShift) (h : PunctualReach cfg n m) (i : Nat) :
    (∀ event ∈ (m.iterators i).events, m.Describes event.1 event.2) ∧
      (∀ event ∈ (m.iterators i).taken, m.Describes event.1 event.2) ∧
      Consecutive (m.iterators i).readLastSeqno (m.iterators i).taken ∧
      ((m.iterators i).outcome = some .gap →
        (m.iterators i).readLastSeqno + 1 + cfg.capacity ≤ m.shared.lastSeqno) := by
  have ok := (h.ringOk hcap).iterator i
  have hdesc : ∀ event ∈ (m.iterators i).events, m.Describes event.1 event.2 :=
    fun event hev => (ok.events event hev).2
  exact ⟨hdesc, fun event hev => hdesc event (ok.taken event hev), ok.consecutive, ok.gap⟩

/-- The first iterator has taken all events, which are the numbers up to `k` in their order. -/
structure Machine.CaughtUp (m : Machine) (k : Nat) : Prop where
  silent : m.Silent
  lastSeqno : m.shared.lastSeqno = k
  idle : (m.iterators 0).phase = .idle
  readLastSeqno : (m.iterators 0).readLastSeqno = k
  taken : (m.iterators 0).taken.map Prod.fst = (List.range' 1 k).reverse
  bufferWindowStart : m.shared.bufferWindowStart = 0
  nextPayloadByte : m.shared.nextPayloadByte = 16 * k

def threeBytes : Entry := ⟨7, 0, fun _ => 0, [1, 2, 3]⟩

/-- A thread records one more event, and the iterator takes it. -/
theorem PunctualReach.recordAndTake {k i : Nat} (h : PunctualReach ⟨1, 27, 2 ^ 32⟩ 4 m) (hm : m.CaughtUp k) (hi : i < 4)
    (hk : k < 4) : ∃ m', PunctualReach ⟨1, 27, 2 ^ 32⟩ 4 m' ∧ m'.CaughtUp (k + 1) := by
  have hsize : threeBytes.allocSize = 16 := by decide
  have hfits : sub64 (m.shared.nextPayloadByte + threeBytes.allocSize) m.shared.bufferWindowStart ≤
      Config.slidingWindowWidth ⟨1, 27, 2 ^ 32⟩ := by
    rw [hm.bufferWindowStart, hm.nextPayloadByte, hsize, sub64, if_pos (Nat.zero_le _)]
    have hwidth : 64 ≤ Config.slidingWindowWidth ⟨1, 27, 2 ^ 32⟩ := by decide
    omega
  obtain ⟨m₁, h₁, after⟩ := h.record hi hm.silent (by rw [hsize]; decide) (by rw [hsize]; decide) hfits
  have hseq := after.seqno
  rw [hm.lastSeqno, ← hm.readLastSeqno] at hseq
  obtain ⟨copy, h₂⟩ := h₁.read (congrFun after.iterators 0) hm.idle hseq
  refine ⟨_, h₂, after.silent, after.lastSeqno.trans (by rw [hm.lastSeqno]), ?_, ?_, ?_,
    after.bufferWindowStart.trans hm.bufferWindowStart, ?_⟩
  · simp [Iterator.take]
  · simp [Iterator.take, hm.readLastSeqno]
  · simp [Iterator.take, hm.taken, hm.readLastSeqno, List.range'_1_concat, Nat.add_comm]
  · show m₁.shared.nextPayloadByte = _
    rw [after.nextPayloadByte, hm.nextPayloadByte, hsize, Nat.mul_succ]

/-- On a ring of two descriptors, an iterator takes the events of three threads, the third one from the slot of the
first, while a fourth is being recorded. -/
theorem iterator_descriptors_intact_wrapped : ∃ m : Machine,
    PunctualReach ⟨1, 27, 2 ^ 32⟩ 4 m ∧ m.shared.lastSeqno = 4 ∧ (m.iterators 0).taken.map Prod.fst = [3, 2, 1] ∧
      ∀ event ∈ (m.iterators 0).taken, m.Describes event.1 event.2 := by
  have hbeg : PunctualReach ⟨1, 27, 2 ^ 32⟩ 4 {} := .start
  obtain ⟨m₁, h₁, hm₁⟩ := hbeg.recordAndTake (i := 0) ⟨fun _ => rfl, rfl, rfl, rfl, rfl, rfl, rfl⟩ (by decide) (by decide)
  obtain ⟨m₂, h₂, hm₂⟩ := h₁.recordAndTake (i := 1) hm₁ (by decide) (by decide)
  obtain ⟨m₃, h₃, hm₃⟩ := h₂.recordAndTake (i := 2) hm₂ (by decide) (by decide)
  have h₄ := h₃.number (i := 3) (e := threeBytes) (by decide) hm₃.silent (by decide) (by decide)
  refine ⟨_, h₄, congrArg Nat.succ hm₃.lastSeqno, ?_, (iterator_descriptors_intact (by decide) h₄ 0).2.1⟩
  exact hm₃.taken

end MonadExecution.Event
