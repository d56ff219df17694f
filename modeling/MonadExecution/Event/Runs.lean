import MonadExecution.Event.Ring

/-!
# Runs of the event ring

A thread that nobody disturbs records an event from end to end, and an iterator that nobody disturbs
reads it. The lemmas take a run up to such a point further; everything the operation does not touch is
the same afterwards.
-/

namespace MonadExecution.Event

open Function

variable {cfg : Config} {n i : Nat} {m m' : Machine}

theorem PunctualReach.reach (h : PunctualReach cfg n m) : Reach cfg n m := by
  induction h with
  | start => exact .start
  | step _ hs _ ih => exact ih.step hs

theorem PunctualReach.punctual (h : PunctualReach cfg n m) : m.Punctual cfg := by
  cases h with
  | start =>
    intro i r hr
    cases hr
  | step _ _ hp => exact hp

theorem Config.capacity_pos (cfg : Config) : 0 < cfg.capacity := Nat.two_pow_pos _

section Recorder

variable {sh sh' : Shared} {r r' : Option Recording}

/-- The numbers only grow, and a thread goes on with the event it has or takes a new number. -/
theorem RecorderStep.numbers (hs : RecorderStep cfg sh r sh' r') : sh.lastSeqno ≤ sh'.lastSeqno ∧ ∀ q', r' = some q' →
    (∃ q, r = some q ∧ q.last = q'.last) ∨ r = none ∧ q'.last = sh.lastSeqno := by
  cases hs with
  | number => exact ⟨Nat.le_succ _, fun q' hq' => by cases hq'; exact .inr ⟨rfl, rfl⟩⟩
  | commit => exact ⟨le_rfl, fun q' hq' => by cases hq'⟩
  | _ => exact ⟨le_rfl, fun q' hq' => by cases hq'; exact .inl ⟨_, rfl, rfl⟩⟩

end Recorder

/-! ## Threads -/

variable {r : Option Recording} {e : Entry}

/-- A thread that takes no new number keeps everybody punctual. -/
theorem Machine.Punctual.recorderTo (hp : m.Punctual cfg) {sh : Shared}
    (hs : RecorderStep cfg m.shared (m.recorders i) sh r) (hlast : sh.lastSeqno = m.shared.lastSeqno) :
    (m.recorderTo i sh r).Punctual cfg := by
  intro j q hq
  change sh.lastSeqno < _
  rw [hlast]
  by_cases hj : j = i
  · subst hj
    rcases hs.numbers.2 q (by simpa using hq) with ⟨q', hq', hsame⟩ | ⟨_, hnew⟩
    · exact hsame ▸ hp j q' hq'
    have := cfg.capacity_pos
    omega
  · exact hp j q (by simpa [update_of_ne hj] using hq)

theorem PunctualReach.recorderTo (h : PunctualReach cfg n m) (hi : i < n) {sh : Shared} {r₀ : Option Recording}
    (hr : m.recorders i = r₀) (hs : RecorderStep cfg m.shared r₀ sh r) (hlast : sh.lastSeqno = m.shared.lastSeqno) :
    PunctualReach cfg n (m.recorderTo i sh r) := by
  subst hr
  exact h.step (.recorder hi hs) (h.punctual.recorderTo hs hlast)

/-- The memory with other descriptors and payload bytes. -/
abbrev Shared.withContents (sh : Shared) (field : Nat → Fields) (byte : Nat → UInt8) : Shared :=
  { sh with field := field, byte := byte }

/-- A thread can do all its stores. -/
theorem PunctualReach.fill {last b : Nat} (todo : List Store) (h : PunctualReach cfg n m) (hi : i < n)
    (hr : m.recorders i = some ⟨e, last, b, .filling todo⟩) :
    ∃ field byte, PunctualReach cfg n
      (m.recorderTo i (m.shared.withContents field byte) (some ⟨e, last, b, .filling []⟩)) := by
  induction todo generalizing m with
  | nil =>
    refine ⟨m.shared.field, m.shared.byte, ?_⟩
    have hm : m.recorderTo i (m.shared.withContents m.shared.field m.shared.byte)
        (some ⟨e, last, b, .filling []⟩) = m := by
      simp only [Machine.recorderTo, ← hr, update_eq_self]
      simp only [hr, note]
    rwa [hm]
  | cons store todo ih =>
    obtain ⟨field, byte, hs⟩ : ∃ field byte, RecorderStep cfg m.shared (some ⟨e, last, b, .filling (store :: todo)⟩)
        (m.shared.withContents field byte) (some ⟨e, last, b, .filling todo⟩) := by
      cases store with
      | field f => exact ⟨_, m.shared.byte, by simpa using RecorderStep.storeField (List.mem_cons_self ..)⟩
      | byte j => exact ⟨m.shared.field, _, by simpa using RecorderStep.storeByte (List.mem_cons_self ..)⟩
    obtain ⟨field', byte', h'⟩ := ih (h.recorderTo hi hr hs rfl) (update_self _ _ _)
    refine ⟨field', byte', ?_⟩
    simpa [Machine.recorderTo, note] using h'

/-- No thread is recording. -/
def Machine.Silent (m : Machine) : Prop := ∀ i, m.recorders i = none

/-- What one more event, recorded from end to end while the window stays, makes of a machine. -/
structure AfterRecord (cfg : Config) (m : Machine) (e : Entry) (m' : Machine) : Prop where
  silent : m'.Silent
  iterators : m'.iterators = m.iterators
  recorded : m'.recorded = update m.recorded (m.shared.lastSeqno + 1) (some (e, m.shared.nextPayloadByte))
  lastSeqno : m'.shared.lastSeqno = m.shared.lastSeqno + 1
  nextPayloadByte : m'.shared.nextPayloadByte = m.shared.nextPayloadByte + e.allocSize
  bufferWindowStart : m'.shared.bufferWindowStart = m.shared.bufferWindowStart
  seqno : m'.shared.seqno (cfg.index m.shared.lastSeqno) = m.shared.lastSeqno + 1

section

variable (h : PunctualReach cfg n m) (hi : i < n) (hm : m.Silent) (hsize : e.allocSize ≤ 2 ^ 32 - 1)
  (hlimit : e.allocSize < cfg.allocLimit)

include h hi hm hsize hlimit

/-- A thread takes the number of its next event while the others are silent. -/
theorem PunctualReach.number :
    PunctualReach cfg n (m.recorderTo i { m.shared with lastSeqno := m.shared.lastSeqno + 1 }
      (some ⟨e, m.shared.lastSeqno, 0, .numbered⟩)) := by
  refine h.step (.recorder hi (by rw [hm i]; exact .number hsize hlimit)) fun j q hq => ?_
  by_cases hj : j = i
  · subst hj
    simp only [update_self, Option.some.injEq] at hq
    have := cfg.capacity_pos
    subst hq
    exact Nat.lt_add_of_pos_right this
  · simp [update_of_ne hj, hm j] at hq

/-- A thread can record an event from end to end. -/
theorem PunctualReach.record
    (hfits : sub64 (m.shared.nextPayloadByte + e.allocSize) m.shared.bufferWindowStart ≤ cfg.slidingWindowWidth) :
    ∃ m', PunctualReach cfg n m' ∧ AfterRecord cfg m e m' := by
  have h1 := h.number hi hm hsize hlimit
  have h2 := h1.recorderTo hi (update_self _ _ _) .place rfl
  have h3 := h2.recorderTo hi (update_self _ _ _) .clear rfl
  have h4 := h3.recorderTo hi (update_self _ _ _) (.fits hfits) rfl
  obtain ⟨field, byte, h5⟩ := h4.fill _ hi (update_self _ _ _)
  have h6 := h5.recorderTo hi (update_self _ _ _) .commit rfl
  refine ⟨_, h6, ⟨fun j => ?_, rfl, rfl, rfl, rfl, rfl, update_self _ _ _⟩⟩
  by_cases hj : j = i
  · simp [hj]
  · simp [update_of_ne hj, hm j]

end

/-! ## Iterators -/

theorem Machine.iteratorTo_iteratorTo (m : Machine) (i : Nat) (it it' : Iterator) :
    (m.iteratorTo i it).iteratorTo i it' = m.iteratorTo i it' := by simp only [Machine.iteratorTo, update_idem]

section Iterator

variable {it it' : Iterator}

theorem PunctualReach.iteratorTo (h : PunctualReach cfg n m) (hit : m.iterators i = it)
    (hs : IteratorStep cfg m.shared it it') : PunctualReach cfg n (m.iteratorTo i it') := by
  subst hit
  exact h.step (.iterator hs) h.punctual

/-- An iterator can take two steps in a row. -/
theorem PunctualReach.iteratorTo_next (h : PunctualReach cfg n (m.iteratorTo i it))
    (hs : IteratorStep cfg m.shared it it') : PunctualReach cfg n (m.iteratorTo i it') := by
  have := h.iteratorTo (update_self _ _ _) hs
  rwa [m.iteratorTo_iteratorTo] at this

/-- An iterator can copy all fields. -/
theorem PunctualReach.copyAll {copy : Fields} (todo : List Field)
    (h : PunctualReach cfg n (m.iteratorTo i it)) (hp : it.phase = .copying todo copy) :
    ∃ copy', PunctualReach cfg n (m.iteratorTo i { it with phase := .copying [] copy' }) := by
  induction todo generalizing it copy with
  | nil => exact ⟨copy, hp ▸ h⟩
  | cons f todo ih =>
    have h1 := h.iteratorTo_next (.copy hp (List.mem_cons_self ..))
    rw [List.erase_cons_head] at h1
    obtain ⟨copy', h2⟩ := ih h1 rfl
    exact ⟨copy', h2⟩

/-- An iterator can read the event that waits for it. -/
theorem PunctualReach.read (h : PunctualReach cfg n m) (hit : m.iterators i = it) (hi : it.phase = .idle)
    (hseq : m.shared.seqno (cfg.index it.readLastSeqno) = it.readLastSeqno + 1) :
    ∃ copy, PunctualReach cfg n (m.iteratorTo i (it.take copy)) := by
  have h1 := h.iteratorTo hit (.found hi hseq)
  obtain ⟨copy, h2⟩ := h1.copyAll Field.all rfl
  exact ⟨copy, h2.iteratorTo_next (.same rfl hseq)⟩

end Iterator

end MonadExecution.Event
