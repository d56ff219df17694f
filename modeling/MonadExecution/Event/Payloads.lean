import MonadExecution.Event.Descriptors

/-!
# Payloads that have not expired

A reader trusts a payload as long as the window has not passed its beginning. One thread keeps the
promise behind this: before it writes into the buffer the window has moved far enough. Two threads do not.
A thread tries to move the window once; if another thread has moved it by less in between, it writes over
a payload that has not expired.
-/

namespace MonadExecution.Event

open Function List Config Nat Recording Entry

variable {cfg : Config} {n i : Nat} {m m' : Machine}

/-- What the last `payload_memcpy` of an iterator returned is what was recorded. -/
def Machine.PayloadsIntact (m : Machine) : Prop :=
  ∀ i k size bytes, (m.iterators i).outcome = some (.payload k size bytes) →
    ∃ e b, m.recorded k = some (e, b) ∧ size ≤ e.payload.length ∧ ∀ j, j < size → bytes j = e.payload.getD j 0

/-! ## Sizes -/

variable {align : Nat}

theorem le_roundSizeToAlign (size : Nat) (h : 0 < align) : size ≤ roundSizeToAlign size align := by
  have hdiv := div_add_mod (size + align - 1) align
  have hmod := mod_lt (size + align - 1) h
  unfold roundSizeToAlign
  rw [mul_comm]
  omega

theorem roundSizeToAlign_lt (size : Nat) (h : 0 < align) : roundSizeToAlign size align < size + align := by
  have hdiv := div_mul_le_self (size + align - 1) align
  unfold roundSizeToAlign
  omega

theorem roundSizeToAlign_mul (c : Nat) (h : 0 < align) : roundSizeToAlign (c * align) align = c * align := by
  unfold roundSizeToAlign
  rw [Nat.add_sub_assoc h, Nat.add_comm, Nat.add_mul_div_right _ _ h,
    Nat.div_eq_of_lt (Nat.sub_lt h Nat.one_pos), Nat.zero_add]

theorem Entry.length_le_allocSize (e : Entry) : e.payload.length ≤ e.allocSize := le_roundSizeToAlign _ (by decide)

theorem sub64_of_le {x y : Nat} (h : y ≤ x) : sub64 x y = x - y := if_pos h

theorem windowIncr_pos : 0 < windowIncr := Nat.two_pow_pos _

/-- A buffer that takes payloads of the recorder's limit. -/
structure Config.Roomy (cfg : Config) : Prop where
  buf : 8 * windowIncr ≤ cfg.payloadBufSize
  limit : cfg.allocLimit = cfg.payloadBufSize - 2 * windowIncr

theorem Config.roomy (hbuf : 27 ≤ cfg.payloadBufShift)
    (hlimit : cfg.allocLimit = cfg.payloadBufSize - 2 * windowIncr) : cfg.Roomy where
  buf := Nat.pow_le_pow_right (by decide : 0 < 2) hbuf
  limit := hlimit

/-- Offsets that are less than a buffer apart have different places. -/
theorem Config.position_ne {x y : Nat} (hlt : x < y) (hnear : y < x + cfg.payloadBufSize) :
    cfg.position y ≠ cfg.position x := by
  intro h
  rw [cfg.position_eq, cfg.position_eq] at h
  have hdvd : cfg.payloadBufSize ∣ y - x := dvd_of_mod_eq_zero (sub_mod_eq_zero_of_mod_eq h)
  have := le_of_dvd (by omega) hdvd
  omega

/-- The window moves forward, and then has room for the payload, but stays behind its end. -/
theorem Config.Roomy.slidTo (hc : cfg.Roomy) {payloadEnd start : Nat} (hle : start ≤ payloadEnd)
    (hfar : cfg.slidingWindowWidth < sub64 payloadEnd start) :
    start ≤ cfg.slidTo payloadEnd ∧ cfg.slidTo payloadEnd ≤ payloadEnd ∧
      payloadEnd ≤ cfg.slidTo payloadEnd + cfg.payloadBufSize := by
  have hle' := le_roundSizeToAlign payloadEnd windowIncr_pos
  have hlt := roundSizeToAlign_lt payloadEnd windowIncr_pos
  have hbuf := hc.buf
  rw [sub64_of_le hle] at hfar
  unfold Config.slidTo
  rw [sub64_of_le (by omega)]
  unfold Config.slidingWindowWidth at *
  omega

/-! ## One thread -/

/-- A recording of the only thread. -/
structure RecordingSolo (cfg : Config) (m : Machine) (q : Recording) : Prop where
  newest : q.last + 1 = m.shared.lastSeqno
  small : q.entry.allocSize < cfg.allocLimit
  placed : q.stage ≠ .numbered → q.payloadEnd = m.shared.nextPayloadByte
  sliding : ∀ w, q.stage = .sliding w → w = m.shared.bufferWindowStart ∧ cfg.slidingWindowWidth < sub64 q.payloadEnd w
  room : ∀ todo, q.stage = .filling todo → q.payloadEnd ≤ m.shared.bufferWindowStart + cfg.payloadBufSize
  todo : ∀ todo, q.stage = .filling todo → ∀ j, .byte j ∈ todo → j < q.entry.payload.length
  stored : ∀ todo, q.stage = .filling todo → ∀ j, j < q.entry.payload.length → .byte j ∉ todo →
    m.shared.byte (cfg.position (q.payloadBegin + j)) = q.entry.payload.getD j 0

/-- The bytes an iterator has, or is about to have. -/
structure IteratorSolo (m : Machine) (it : Iterator) : Prop where
  outcome : ∀ k size bytes, it.outcome = some (.payload k size bytes) → m.Committed k ∧
    ∃ e b, m.recorded k = some (e, b) ∧ size ≤ e.payload.length ∧ ∀ j, j < size → bytes j = e.payload.getD j 0
  fetching : ∀ k event size todo bytes, it.phase = .fetching k event size todo bytes →
    (k, event) ∈ it.events ∧ size ≤ event .payloadSize ∧
      (m.shared.bufferWindowStart ≤ event .payloadBufOffset → ∀ e b, m.recorded k = some (e, b) →
        ∀ j, j < size → j ∉ todo → bytes j = e.payload.getD j 0)

/-- The invariant of a ring with one recording thread. -/
structure Solo (cfg : Config) (m : Machine) : Prop where
  others : ∀ i, i ≠ 0 → m.recorders i = none
  recording : ∀ q, m.recorders 0 = some q → RecordingSolo cfg m q
  window : m.shared.bufferWindowStart ≤ m.shared.nextPayloadByte
  behind : ∀ k e b, m.Committed k → m.recorded k = some (e, b) → b + e.allocSize ≤ m.shared.nextPayloadByte ∧
      ∀ q, m.recorders 0 = some q → q.stage ≠ .numbered → b + e.allocSize ≤ q.payloadBegin
  intact : ∀ k e b, m.Committed k → m.recorded k = some (e, b) → m.shared.bufferWindowStart ≤ b →
    ∀ j, j < e.payload.length → m.shared.byte (cfg.position (b + j)) = e.payload.getD j 0
  iterator : ∀ i, IteratorSolo m (m.iterators i)

theorem Solo.start : Solo cfg {} where
  others _ _ := rfl
  recording q hq := by cases hq
  window := le_rfl
  behind k e b _ he := by cases he
  intact k e b _ he := by cases he
  iterator i := ⟨by rintro _ _ _ ⟨⟩, by rintro _ _ _ _ _ ⟨⟩⟩

/-- The only thread is punctual. -/
theorem Solo.punctual (h : Solo cfg m) : m.Punctual cfg := by
  intro i q hq
  by_cases hi : i = 0
  · subst hi
    have := (h.recording q hq).newest
    have := cfg.capacity_pos
    omega
  · rw [h.others i hi] at hq
    cases hq

section Recorder

variable {sh : Shared} {r : Option Recording}

/-- The window never moves back. -/
theorem Solo.window_le (hc : cfg.Roomy) (h : Solo cfg m) (hs : RecorderStep cfg m.shared (m.recorders 0) sh r) :
    m.shared.bufferWindowStart ≤ sh.bufferWindowStart := by
  have hrec := h.recording
  have hwin := h.window
  generalize m.recorders 0 = r₀ at hs hrec
  cases hs with
  | @slide e last b w =>
    have ok := hrec _ rfl
    obtain ⟨rfl, hfar⟩ := ok.sliding w rfl
    have hend := ok.placed (by simp)
    have := (hc.slidTo (hwin.trans_eq hend.symm) hfar).1
    simpa [payloadEnd] using this
  | _ => exact le_rfl

/-- The bytes of a payload that has not expired are left alone. -/
theorem Solo.byte_kept (h : Solo cfg m) (hs : RecorderStep cfg m.shared (m.recorders 0) sh r) {k b : Nat} {e : Entry}
    (hk : m.Committed k) (he : m.recorded k = some (e, b)) (hw : m.shared.bufferWindowStart ≤ b) {j : Nat}
    (hj : j < e.payload.length) : sh.byte (cfg.position (b + j)) = m.shared.byte (cfg.position (b + j)) := by
  have hrec := h.recording
  have hbh := (h.behind k e b hk he).2
  have hlen := e.length_le_allocSize
  generalize m.recorders 0 = r₀ at hs hrec hbh
  cases hs with
  | @storeByte e' last b' todo j' hj' =>
    have ok := hrec _ rfl
    have hroom := ok.room todo rfl
    have hbef := hbh _ rfl (by simp)
    have hj'' := ok.todo todo rfl j' hj'
    have hlen' := e'.length_le_allocSize
    simp only [payloadEnd] at hroom hbef hj''
    -- the store is beyond the payload, and not a whole buffer beyond it
    exact update_of_ne (position_ne (by omega) (by omega)).symm _ _
  | _ => rfl

/-- An event that is committed after a step was so before, or is the one the step commits. -/
theorem Machine.Committed.back {k : Nat} (hk : (m.recorderTo i sh r).Committed k)
    (hs : RecorderStep cfg m.shared (m.recorders i) sh r) :
    m.Committed k ∨ ∃ q, m.recorders i = some q ∧ q.stage = .filling [] ∧ r = none ∧ k = q.last + 1 := by
  obtain ⟨hle, hopen⟩ := hk
  have hoth : ∀ j q, j ≠ i → m.recorders j = some q → q.last + 1 ≠ k := fun j q hj hq =>
    hopen j q (by simpa [update_of_ne hj] using hq)
  have hself : ∀ q, r = some q → q.last + 1 ≠ k := fun q hq => hopen i q (by simpa using hq)
  have hold : k ≤ m.shared.lastSeqno → (∀ q, m.recorders i = some q → q.last + 1 ≠ k) →
      m.Committed k := fun hle' hi => ⟨hle', fun j q hq => by
    by_cases hj : j = i
    · exact hi q (hj ▸ hq)
    · exact hoth j q hj hq⟩
  generalize m.recorders i = r₀ at hs hold
  cases hs with
  | number =>
    refine .inl (hold ?_ (by rintro q ⟨⟩))
    have := hself _ rfl
    change k ≤ m.shared.lastSeqno + 1 at hle
    simp only [ne_eq] at this
    omega
  | @commit e last b =>
    by_cases hkl : k = last + 1
    · exact .inr ⟨_, rfl, rfl, rfl, hkl⟩
    · exact .inl (hold hle fun q hq => by cases hq; exact fun h => hkl h.symm)
  | _ =>
    refine .inl (hold hle fun q hq => ?_)
    cases hq
    have := hself _ rfl
    exact this

/-- The recording that takes the step is still in order after it. -/
theorem RecordingSolo.recorder (hc : cfg.Roomy) (h : Solo cfg m) (hs : RecorderStep cfg m.shared (m.recorders 0) sh r)
    {q : Recording} (hq : r = some q) : RecordingSolo cfg (m.recorderTo 0 sh r) q := by
  have hrec := h.recording
  have hwin := h.window
  generalize m.recorders 0 = r₀ at hs hrec
  cases hs with
  | number hsize hlimit =>
    cases hq
    exact ⟨rfl, hlimit, fun hne => absurd rfl hne, by rintro _ ⟨⟩, by rintro _ ⟨⟩, by rintro _ ⟨⟩, by rintro _ ⟨⟩⟩
  | place =>
    cases hq
    have ok := hrec _ rfl
    exact ⟨ok.newest, ok.small, fun _ => rfl, by rintro _ ⟨⟩, by rintro _ ⟨⟩, by rintro _ ⟨⟩, by rintro _ ⟨⟩⟩
  | clear =>
    cases hq
    have ok := hrec _ rfl
    exact ⟨ok.newest, ok.small, fun _ => ok.placed (by simp), by rintro _ ⟨⟩, by rintro _ ⟨⟩,
      by rintro _ ⟨⟩, by rintro _ ⟨⟩⟩
  | @fits e last b hfits =>
    cases hq
    have ok := hrec _ rfl
    have hend := ok.placed (by simp)
    refine ⟨ok.newest, ok.small, fun _ => ok.placed (by simp), by rintro _ ⟨⟩, ?_, ?_, ?_⟩
    · rintro _ ⟨⟩
      have hle : m.shared.bufferWindowStart ≤ b + e.allocSize := hwin.trans_eq hend.symm
      rw [sub64_of_le hle] at hfits
      simp only [payloadEnd, slidingWindowWidth] at hfits ⊢
      omega
    · rintro _ ⟨⟩ j hj
      simpa [stores] using hj
    · rintro _ ⟨⟩ j hj hmem
      exact absurd (by simpa [stores] using hj) hmem
  | exceeds hfar =>
    cases hq
    have ok := hrec _ rfl
    refine ⟨ok.newest, ok.small, fun _ => ok.placed (by simp), ?_, by rintro _ ⟨⟩, by rintro _ ⟨⟩, by rintro _ ⟨⟩⟩
    rintro _ ⟨⟩
    exact ⟨rfl, hfar⟩
  | @slide e last b w =>
    cases hq
    have ok := hrec _ rfl
    obtain ⟨rfl, hfar⟩ := ok.sliding w rfl
    have hend := ok.placed (by simp)
    refine ⟨ok.newest, ok.small, fun _ => ok.placed (by simp), by rintro _ ⟨⟩, ?_, ?_, ?_⟩
    · rintro _ ⟨⟩
      simpa [payloadEnd] using (hc.slidTo (hwin.trans_eq hend.symm) hfar).2.2
    · rintro _ ⟨⟩ j hj
      simpa [stores] using hj
    · rintro _ ⟨⟩ j hj hmem
      exact absurd (by simpa [stores] using hj) hmem
  | @storeField e last b todo f hf =>
    cases hq
    have ok := hrec _ rfl
    refine ⟨ok.newest, ok.small, fun _ => ok.placed (by simp), by rintro _ ⟨⟩, ?_, ?_, ?_⟩
    · rintro _ ⟨⟩
      exact ok.room todo rfl
    · rintro _ ⟨⟩ j hj
      exact ok.todo todo rfl j (mem_of_mem_erase hj)
    · rintro _ ⟨⟩ j hj hmem
      exact ok.stored todo rfl j hj fun h' => hmem ((mem_erase_of_ne (by simp)).mpr h')
  | @storeByte e last b todo j' hj' =>
    cases hq
    have ok := hrec _ rfl
    refine ⟨ok.newest, ok.small, fun _ => ok.placed (by simp), by rintro _ ⟨⟩, ?_, ?_, ?_⟩
    · rintro _ ⟨⟩
      exact ok.room todo rfl
    · rintro _ ⟨⟩ j hj
      exact ok.todo todo rfl j (mem_of_mem_erase hj)
    rintro _ ⟨⟩ j hj hmem
    by_cases hjj : j = j'
    · simp [hjj]
    -- a payload is shorter than the buffer, so its bytes have different places
    have hne : cfg.position (b + j) ≠ cfg.position (b + j') := by
      have hlen := e.length_le_allocSize
      have hsml := ok.small
      have hlimit := hc.limit
      have hlt' := ok.todo todo rfl j' hj'
      simp only at hj hlt' hsml
      rcases lt_or_gt_of_ne hjj with hlt | hgt
      · exact (position_ne (by omega) (by omega)).symm
      · exact position_ne (by omega) (by omega)
    have := ok.stored todo rfl j hj fun h' => hmem ((mem_erase_of_ne (by simpa using hjj)).mpr h')
    simpa [update_of_ne hne] using this
  | commit => cases hq

/-- Space is given out from the front to the back. -/
theorem RecorderStep.places (hs : RecorderStep cfg m.shared (m.recorders i) sh r) :
    m.shared.nextPayloadByte ≤ sh.nextPayloadByte ∧ ∀ q', r = some q' → q'.stage ≠ .numbered →
      (∃ q, m.recorders i = some q ∧ q.stage ≠ .numbered ∧ q.payloadBegin = q'.payloadBegin) ∨
        q'.payloadBegin = m.shared.nextPayloadByte := by
  generalize m.recorders i = r₀ at hs
  cases hs with
  | number => exact ⟨le_rfl, fun q' hq' hst => by cases hq'; exact absurd rfl hst⟩
  | place => exact ⟨le_add_right _ _, fun q' hq' _ => by cases hq'; exact .inr rfl⟩
  | commit => exact ⟨le_rfl, fun q' hq' => by cases hq'⟩
  | _ => exact ⟨le_rfl, fun q' hq' _ => by cases hq'; exact .inl ⟨_, rfl, by simp, rfl⟩⟩

/-- A step of the only thread keeps the invariant. -/
theorem Solo.recorder (hc : cfg.Roomy) (hr : RingOk cfg m) (h : Solo cfg m)
    (hs : RecorderStep cfg m.shared (m.recorders 0) sh r) : Solo cfg (m.recorderTo 0 sh r) := by
  have hstep : Step cfg 1 m (m.recorderTo 0 sh r) := .recorder one_pos hs
  have hwle := h.window_le hc hs
  have hsame : ∀ {k}, m.Committed k → note m.recorded r k = m.recorded k := fun hk =>
    note_of_ne fun _ hq => hs.off hk hq
  refine ⟨fun j hj => ?_, fun q hq => ?_, ?_, fun k e b hk he => ?_, fun k e b hk he hw j hj => ?_, fun j => ?_⟩
  · simpa [update_of_ne hj] using h.others j hj
  · exact RecordingSolo.recorder hc h hs (by simpa using hq)
  · have hwin := h.window
    have hrec := h.recording
    generalize m.recorders 0 = r₀ at hs hrec
    cases hs with
    | place => exact hwin.trans (le_add_right _ _)
    | @slide e last b w =>
      have ok := hrec _ rfl
      obtain ⟨rfl, hfar⟩ := ok.sliding w rfl
      have hend := ok.placed (by simp)
      have := (hc.slidTo (hwin.trans_eq hend.symm) hfar).2.1.trans_eq hend
      simpa [payloadEnd] using this
    | _ => exact hwin
  · rcases hk.back hs with hk' | ⟨q, hq, hst, hnone, rfl⟩
    · obtain ⟨hend, hbegin⟩ := h.behind k e b hk' ((hsame hk').symm.trans he)
      refine ⟨hend.trans hs.places.1, fun q hq hst => ?_⟩
      rcases hs.places.2 q (by simpa using hq) hst with ⟨q', hq', hst', hsame⟩ | hnew
      · exact hsame ▸ hbegin q' hq' hst'
      · exact hend.trans_eq hnew.symm
    · -- the event that is committed has the last space that was given out
      subst hnone
      have he' := (hr.recording 0 q hq).noted (by simp [hst])
      obtain ⟨rfl, rfl⟩ : q.entry = e ∧ q.payloadBegin = b := by simpa using he'.symm.trans he
      refine ⟨?_, fun q' hq' => by simp at hq'⟩
      exact ((h.recording q hq).placed (by simp [hst])).le.trans hs.places.1
  · rcases hk.back hs with hk' | ⟨q, hq, hst, hnone, rfl⟩
    · have he' := (hsame hk').symm.trans he
      exact (h.byte_kept hs hk' he' (hwle.trans hw) hj).trans (h.intact k e b hk' he' (hwle.trans hw) j hj)
    subst hnone
    have he' := (hr.recording 0 q hq).noted (by simp [hst])
    obtain ⟨rfl, rfl⟩ : q.entry = e ∧ q.payloadBegin = b := by simpa using he'.symm.trans he
    have hstored := (h.recording q hq).stored [] hst j hj (by simp)
    generalize m.recorders 0 = r₀ at hs
    cases hs
    exact hstored
  · have ok := h.iterator j
    refine ⟨fun k size bytes ho => ?_, fun k event size todo bytes hf => ?_⟩
    · obtain ⟨hk, e, b, he, hby⟩ := ok.outcome k size bytes ho
      exact ⟨hstep.committed hk, e, b, (hsame hk).trans he, hby⟩
    obtain ⟨hmem, hsize, hby⟩ := ok.fetching k event size todo bytes hf
    have hk := ((hr.iterator j).events _ hmem).1
    exact ⟨hmem, hsize, fun hw e b he => hby (hwle.trans hw) e b ((hsame hk).symm.trans he)⟩

end Recorder

variable {event : Fields} {e : Entry} {it it' : Iterator}

/-- A descriptor that describes an event has the event's offset and size. -/
theorem Machine.Describes.payload {k : Nat} (h : m.Describes k event) {b : Nat} (he : m.recorded k = some (e, b)) :
    event .payloadBufOffset = b ∧ event .payloadSize = e.payload.length := by
  obtain ⟨e', b', he', rfl⟩ := h
  obtain ⟨rfl, rfl⟩ : e' = e ∧ b' = b := by simpa using he'.symm.trans he
  exact ⟨rfl, rfl⟩

/-- A step of an iterator keeps the invariant of a ring with one recording thread. -/
theorem IteratorSolo.step (h : Solo cfg m) (hit : IteratorOk cfg m it) (ok : IteratorSolo m it)
    (hs : IteratorStep cfg m.shared it it') : IteratorSolo m it' := by
  -- a call that is not `payload_memcpy`, or a `payload_memcpy` that fails
  have other : ∀ it' : Iterator, (∀ k size bytes, it'.outcome = some (.payload k size bytes) →
      it.outcome = some (.payload k size bytes)) →
      (∀ k event size todo bytes, it'.phase ≠ .fetching k event size todo bytes) →
      IteratorSolo m it' := fun it' ho hf =>
    ⟨fun k size bytes h' => ok.outcome k size bytes (ho k size bytes h'),
      fun k event size todo bytes h' => absurd h' (hf k event size todo bytes)⟩
  cases hs with
  | @unexpired k event size hi hmem hsize hw =>
    refine ⟨by rintro _ _ _ ⟨⟩, ?_⟩
    rintro _ _ _ _ _ ⟨⟩
    exact ⟨hmem, hsize, fun _ _ _ _ j hj hnot => absurd (mem_range.mpr hj) hnot⟩
  | @fetch k event size todo bytes j hi hj =>
    obtain ⟨hmem, hsize, hby⟩ := ok.fetching k event size todo bytes hi
    refine ⟨ok.outcome, ?_⟩
    rintro _ _ _ _ _ ⟨⟩
    refine ⟨hmem, hsize, fun hw e b he l hl hnot => ?_⟩
    obtain ⟨hcommitted, hdescribes⟩ := hit.events _ hmem
    obtain ⟨hoff, hlength⟩ :
        event .payloadBufOffset = b ∧ event .payloadSize = e.payload.length := hdescribes.payload he
    by_cases hlj : l = j
    · subst hlj
      rw [update_self, hoff]
      exact h.intact k e b hcommitted he (hoff ▸ hw) l (hl.trans_le (hsize.trans_eq hlength))
    · rw [update_of_ne hlj]
      exact hby hw e b he l hl fun hmem' => hnot ((mem_erase_of_ne hlj).mpr hmem')
  | @fetched k event size bytes hi hw =>
    obtain ⟨hmem, hsize, hby⟩ := ok.fetching k event size [] bytes hi
    obtain ⟨hcommitted, hdescribes⟩ := hit.events _ hmem
    refine ⟨?_, by rintro _ _ _ _ _ ⟨⟩⟩
    rintro _ _ _ ⟨⟩
    obtain ⟨e, b, he, _⟩ := id hdescribes
    exact ⟨hcommitted, e, b, he, hsize.trans_eq (hdescribes.payload he).2, fun j hj => hby hw e b he j hj (by simp)⟩
  | notReady hi | gap hi | expired hi => exact other _ (by simp) (by simp [hi])
  | found | changed | expiredLate => exact other _ (by simp) (by simp)
  | same => exact other _ (by simp [Iterator.take]) (by simp [Iterator.take])
  | resetEmpty | confirmed | scannedAll => exact other _ (by simp [Iterator.resetTo]) (by simp [Iterator.resetTo])
  | copy | reset | spin | spun | scanBack => exact other _ (fun _ _ _ ho => ho) (by simp)

theorem Solo.step (hc : cfg.Roomy) (hr : RingOk cfg m) (h : Solo cfg m) (hs : Step cfg 1 m m') : Solo cfg m' := by
  cases hs with
  | @recorder i sh r hi hs =>
    obtain rfl : i = 0 := lt_one_iff.mp hi
    exact h.recorder hc hr hs
  | @iterator i it hs =>
    have ok : ∀ j, IteratorSolo m (update m.iterators i it j) := by
      intro j
      by_cases hj : j = i
      · subst hj
        simpa using IteratorSolo.step h (hr.iterator j) (h.iterator j) hs
      · simpa [update_of_ne hj] using h.iterator j
    refine ⟨h.others, fun q hq => ?_, h.window, h.behind, h.intact, fun j => ?_⟩
    · have okq := h.recording q hq
      exact ⟨okq.newest, okq.small, okq.placed, okq.sliding, okq.room, okq.todo, okq.stored⟩
    · exact ⟨(ok j).outcome, (ok j).fetching⟩

/-- One thread keeps both invariants. -/
theorem Reach.solo (hdesc : 1 ≤ cfg.descriptorsShift) (hc : cfg.Roomy) (h : Reach cfg 1 m) :
    RingOk cfg m ∧ Solo cfg m := by
  induction h with
  | start => exact ⟨RingOk.start, Solo.start⟩
  | step _ hs ih => exact ⟨ih.1.step hdesc ih.2.punctual hs, ih.2.step hc ih.1 hs⟩

theorem Step.mono {n' : Nat} (hn : n ≤ n') (hs : Step cfg n m m') : Step cfg n' m m' := by
  cases hs with
  | recorder hi h => exact .recorder (hi.trans_le hn) h
  | iterator h => exact .iterator h

theorem Reach.mono {n' : Nat} (hn : n ≤ n') (h : Reach cfg n m) : Reach cfg n' m := by
  induction h with
  | start => exact .start
  | step _ hs ih => exact ih.step (hs.mono hn)

theorem Reach.payloadsIntact (hdesc : 1 ≤ cfg.descriptorsShift) (hc : cfg.Roomy) (hn : n ≤ 1)
    (h : Reach cfg n m) : m.PayloadsIntact := by
  intro i k size bytes ho
  exact (((h.mono hn).solo hdesc hc).2.iterator i).outcome k size bytes ho |>.2

/-! ## Two threads -/

/-- An event with a payload of a multiple of the window's step, all of one byte. -/
def chunk (v : UInt8) (c : Nat) : Entry := ⟨0, 0, fun _ => 0, List.replicate (c * windowIncr) v⟩

theorem chunk_allocSize (v : UInt8) (c : Nat) : (chunk v c).allocSize = c * windowIncr := by
  have h : c * windowIncr = (c * 2 ^ 20) * 16 := by
    unfold windowIncr
    omega
  unfold allocSize chunk
  rw [length_replicate, h]
  exact roundSizeToAlign_mul _ (by decide)

theorem chunk_getD {v : UInt8} {c j : Nat} (h : j < c * windowIncr) : (chunk v c).payload.getD j 0 = v := by
  simp [chunk, List.getD, h]

/-- A buffer is a whole number of steps of the window. -/
theorem Config.exists_steps (hbuf : 27 ≤ cfg.payloadBufShift) : ∃ c, 8 ≤ c ∧ cfg.payloadBufSize = c * windowIncr := by
  refine ⟨2 ^ (cfg.payloadBufShift - 24), ?_, ?_⟩
  · exact Nat.pow_le_pow_right (by decide : 0 < 2) (by omega : 3 ≤ cfg.payloadBufShift - 24)
  unfold payloadBufSize windowIncr
  rw [← pow_add]
  congr 1
  omega

/-- A thread can record one step of zeros while the window has room for it. -/
theorem PunctualReach.recordChunk (hc : cfg.Roomy) (hn : 0 < n) (h : PunctualReach cfg n m) (hsil : m.Silent)
    (hw : m.shared.bufferWindowStart = 0) (hroom : m.shared.nextPayloadByte + windowIncr ≤ cfg.slidingWindowWidth) :
    ∃ m', PunctualReach cfg n m' ∧ AfterRecord cfg m (chunk 0 1) m' ∧ m'.shared.bufferWindowStart = 0 ∧
      m'.shared.nextPayloadByte = m.shared.nextPayloadByte + windowIncr := by
  have hsize : (chunk 0 1).allocSize = windowIncr := by simp [chunk_allocSize]
  have hbuf := hc.buf
  have hpos := windowIncr_pos
  obtain ⟨m', h', after⟩ := h.record hn hsil (e := chunk 0 1) (by rw [hsize]; decide)
    (by rw [hsize, hc.limit]; omega) (by rw [hsize, hw, sub64_of_le (zero_le _)]; omega)
  exact ⟨m', h', after, after.bufferWindowStart.trans hw, by rw [after.nextPayloadByte, hsize]⟩

/-- The first thread can fill the buffer up to the width of the window, which then has not moved. -/
theorem PunctualReach.fillUp (hc : cfg.Roomy) (hn : 0 < n) (c : Nat) (h : PunctualReach cfg n m) (hsil : m.Silent)
    (hw : m.shared.bufferWindowStart = 0) (hroom : m.shared.nextPayloadByte + c * windowIncr ≤ cfg.slidingWindowWidth) :
    ∃ m', PunctualReach cfg n m' ∧ m'.Silent ∧ m'.iterators = m.iterators ∧ m.shared.lastSeqno ≤ m'.shared.lastSeqno ∧
      (∀ k, k ≤ m.shared.lastSeqno → m'.recorded k = m.recorded k) ∧
      m'.shared.bufferWindowStart = 0 ∧
      m'.shared.nextPayloadByte = m.shared.nextPayloadByte + c * windowIncr := by
  induction c generalizing m with
  | zero => exact ⟨m, h, hsil, rfl, le_rfl, fun _ _ => rfl, hw, by simp⟩
  | succ c ih =>
    rw [succ_mul] at hroom
    obtain ⟨m1, h1, after, hw1, hnext1⟩ := h.recordChunk hc hn hsil hw (by omega)
    obtain ⟨m2, h2, hsil2, hit, hlast, hrec, hw2, hnext2⟩ := ih h1 after.silent hw1 (by omega)
    have hlast1 := after.lastSeqno
    refine ⟨m2, h2, hsil2, hit.trans after.iterators, by omega, fun k hk => ?_, hw2, ?_⟩
    · rw [hrec k (by omega), after.recorded]
      exact update_of_ne (by omega) _ _
    · rw [hnext2, hnext1, succ_mul]
      omega

/-- A reader can have the descriptor of an event of zeros that begins at the first step of the window,
while the buffer is full up to the width of the window. -/
theorem PunctualReach.readyToSlide (hdesc : 1 ≤ cfg.descriptorsShift) (hc : cfg.Roomy) (hn : 0 < n)
    {c : Nat} (hc8 : 8 ≤ c) (hss : cfg.payloadBufSize = c * windowIncr) :
    ∃ m event, PunctualReach cfg n m ∧ m.Silent ∧ (m.iterators 0).phase = .idle ∧
      (2, event) ∈ (m.iterators 0).events ∧ 2 ≤ m.shared.lastSeqno ∧
      m.recorded 2 = some (chunk 0 1, windowIncr) ∧ event .payloadBufOffset = windowIncr ∧
      event .payloadSize = windowIncr ∧ m.shared.bufferWindowStart = 0 ∧
      m.shared.nextPayloadByte = (c - 1) * windowIncr := by
  have hwidth : cfg.slidingWindowWidth = (c - 1) * windowIncr := by
    rw [slidingWindowWidth, hss, Nat.sub_mul, Nat.one_mul]
  have hroom : windowIncr + (windowIncr + (c - 3) * windowIncr) = (c - 1) * windowIncr := by
    obtain ⟨c, rfl⟩ := Nat.exists_eq_add_of_le' (by omega : 3 ≤ c)
    rw [Nat.add_sub_cancel, show c + 3 - 1 = c + 2 from rfl, Nat.add_mul]
    omega
  have hbeg : PunctualReach cfg n {} := .start
  obtain ⟨m1, h1, after1, hw1, hnext1⟩ := hbeg.recordChunk hc hn (fun _ => rfl) rfl
    (by simp only [Nat.zero_add]; omega)
  simp only [Nat.zero_add] at hnext1
  obtain ⟨m2, h2, after2, hw2, hnext2⟩ := h1.recordChunk hc hn after1.silent hw1 (by omega)
  have hlast1 : m1.shared.lastSeqno = 1 := after1.lastSeqno
  have hlast2 : m2.shared.lastSeqno = 2 := by rw [after2.lastSeqno, hlast1]
  have hseq : m2.shared.seqno (cfg.index 1) = 2 := by
    have := after2.seqno
    rwa [hlast1] at this
  have hrec : m2.recorded 2 = some (chunk 0 1, windowIncr) := by
    rw [after2.recorded, hlast1, hnext1]
    exact update_self _ _ _
  have hit : m2.iterators 0 = {} := congrFun (after2.iterators.trans after1.iterators) 0
  -- the iterator goes to the newest event, and reads it
  have h3 := h2.iteratorTo hit (.reset rfl (by rw [hlast2]; decide))
  rw [hlast2] at h3
  have h4 := h3.iteratorTo_next (.spun rfl (.inl hseq))
  have h5 := h4.iteratorTo_next (.confirmed rfl hseq)
  obtain ⟨event, it, hidle, hmem, h6⟩ : ∃ event it, Iterator.phase it = .idle ∧
      (2, event) ∈ it.events ∧ PunctualReach cfg n (m2.iteratorTo 0 it) := by
    obtain ⟨event, h6⟩ := h5.read (update_self _ _ _) rfl hseq
    rw [Machine.iteratorTo_iteratorTo] at h6
    exact ⟨event, _, rfl, mem_cons_self .., h6⟩
  have hself : (m2.iteratorTo 0 it).iterators 0 = it := by simp
  have hdescribes : event .payloadBufOffset = windowIncr ∧ event .payloadSize = (chunk 0 1).payload.length :=
    (((h6.ringOk hdesc).iterator 0).events (2, event) (hself ▸ hmem)).2.payload hrec
  have hnext3 : (m2.iteratorTo 0 it).shared.nextPayloadByte = windowIncr + windowIncr := hnext2.trans (by rw [hnext1])
  obtain ⟨m, h, hsil, hiters, hlast, hrec', hw, hnext⟩ := h6.fillUp hc hn (c - 3) after2.silent hw2
    (by rw [hwidth, hnext3]; omega)
  refine ⟨m, event, h, hsil, ?_, ?_, hlast2 ▸ hlast, ?_, hdescribes.1, ?_, hw, ?_⟩
  · rwa [hiters, hself]
  · rwa [hiters, hself]
  · exact (hrec' 2 hlast2.ge).trans hrec
  · rw [hdescribes.2]
    simp [chunk]
  · omega

section

variable (h : Reach cfg n m)

include h

theorem Reach.recorderTo (hi : i < n) {sh : Shared} {r₀ r : Option Recording} (hr : m.recorders i = r₀)
    (hs : RecorderStep cfg m.shared r₀ sh r) : Reach cfg n (m.recorderTo i sh r) := by
  subst hr
  exact h.step (.recorder hi hs)

theorem Reach.iteratorTo (hit : m.iterators i = it) (hs : IteratorStep cfg m.shared it it') :
    Reach cfg n (m.iteratorTo i it') := by
  subst hit
  exact h.step (.iterator hs)

/-- A thread can come to the moving of the window. -/
theorem Reach.reserve (hi : i < n) (hr : m.recorders i = none) (hsize : e.allocSize ≤ 2 ^ 32 - 1)
    (hlimit : e.allocSize < cfg.allocLimit)
    (hfar : cfg.slidingWindowWidth < sub64 (m.shared.nextPayloadByte + e.allocSize) m.shared.bufferWindowStart) :
    ∃ m', Reach cfg n m' ∧ m'.iterators = m.iterators ∧
      m'.recorders = update m.recorders i (some ⟨e, m.shared.lastSeqno,
        m.shared.nextPayloadByte, .sliding m.shared.bufferWindowStart⟩) ∧
      m'.recorded = update m.recorded (m.shared.lastSeqno + 1) (some (e, m.shared.nextPayloadByte)) ∧
      m'.shared.lastSeqno = m.shared.lastSeqno + 1 ∧
      m'.shared.bufferWindowStart = m.shared.bufferWindowStart ∧
      m'.shared.nextPayloadByte = m.shared.nextPayloadByte + e.allocSize := by
  have h1 := h.recorderTo hi hr (.number hsize hlimit)
  have h2 := h1.recorderTo hi (update_self _ _ _) .place
  have h3 := h2.recorderTo hi (update_self _ _ _) .clear
  have h4 := h3.recorderTo hi (update_self _ _ _) (.exceeds hfar)
  refine ⟨_, h4, rfl, ?_, rfl, rfl, rfl, rfl⟩
  simp only [update_idem]

/-- A thread tries to move the window, and goes on. -/
theorem Reach.slide (hi : i < n) {last b w : Nat} (hr : m.recorders i = some ⟨e, last, b, .sliding w⟩) :
    ∃ m', Reach cfg n m' ∧ m'.iterators = m.iterators ∧ m'.recorded = m.recorded ∧
      m'.recorders = update m.recorders i (some ⟨e, last, b, .filling e.stores⟩) ∧
      m'.shared.bufferWindowStart = if m.shared.bufferWindowStart = w then cfg.slidTo (b + e.allocSize)
        else m.shared.bufferWindowStart :=
  ⟨_, h.recorderTo hi hr .slide, rfl, rfl, rfl, rfl⟩

/-- A reader can take the first byte of an event whose payload has not expired. -/
theorem Reach.fetchFirst {k : Nat} (hidle : (m.iterators i).phase = .idle)
    (hmem : (k, event) ∈ (m.iterators i).events) (hsize : 1 ≤ event .payloadSize)
    (hw : m.shared.bufferWindowStart ≤ event .payloadBufOffset) :
    ∃ m' bytes, Reach cfg n m' ∧ m'.recorded = m.recorded ∧ (m'.iterators i).outcome = some (.payload k 1 bytes) ∧
      bytes 0 = m.shared.byte (cfg.position (event .payloadBufOffset)) := by
  have h1 := h.iteratorTo rfl (.unexpired hidle hmem hsize hw)
  have h2 := h1.iteratorTo (update_self _ _ _) (.fetch rfl (by simp : 0 ∈ List.range 1))
  have h3 := h2.iteratorTo (update_self _ _ _) (.fetched rfl hw)
  refine ⟨_, _, h3, rfl, by simp; rfl, by simp⟩

end

/-- Two threads can overwrite a payload that has not expired, and a reader then takes it. -/
theorem Reach.payloads_torn (hdesc : 1 ≤ cfg.descriptorsShift) (hbuf : 27 ≤ cfg.payloadBufShift)
    (hlimit : cfg.allocLimit = cfg.payloadBufSize - 2 * windowIncr) (hn : 2 ≤ n) :
    ∃ m, Reach cfg n m ∧ ¬m.PayloadsIntact := by
  have hc := roomy hbuf hlimit
  obtain ⟨c, hc8, hss⟩ := exists_steps hbuf
  have hwidth : cfg.slidingWindowWidth = (c - 1) * windowIncr := by
    rw [slidingWindowWidth, hss, Nat.sub_mul, Nat.one_mul]
  have hpos := windowIncr_pos
  have hroomy := hc.buf
  have hfull : (c - 1) * windowIncr + windowIncr = c * windowIncr := by
    rw [← Nat.succ_mul, Nat.succ_eq_add_one, Nat.sub_add_cancel (by omega)]
  have hone : (chunk 0 1).allocSize = windowIncr := by simp [chunk_allocSize]
  have htwo : (chunk 1 2).allocSize = 2 * windowIncr := chunk_allocSize 1 2
  obtain ⟨m, event, hp, hsil, hidle, hmem, hlast, hrec, hoff, hsize, hw, hnext⟩ :=
    PunctualReach.readyToSlide (n := n) hdesc hc (by omega) hc8 hss
  -- both threads come to the moving of the window, and have seen it at the beginning
  obtain ⟨m1, h1, hit1, hthr1, hrec1, hlast1, hw1, hnext1⟩ :=
    hp.reach.reserve (i := 1) (by omega) (hsil 1) (e := chunk 0 1) (by rw [hone]; decide)
      (by rw [hone, hlimit]; omega)
      (by rw [hone, hw, hnext, sub64_of_le (Nat.zero_le _), hwidth]; omega)
  rw [hone, hnext, hfull] at hnext1
  rw [hw] at hw1 hthr1
  obtain ⟨m2, h2, hit2, hthr2, hrec2, hlast2, hw2, hnext2⟩ :=
    h1.reserve (i := 0) (by omega) (by simp [hthr1, hsil 0]) (e := chunk 1 2)
      (by rw [htwo]; decide) (by rw [htwo, hlimit]; omega)
      (by rw [htwo, hw1, hnext1, sub64_of_le (Nat.zero_le _), hwidth]; omega)
  rw [hw1] at hw2 hthr2
  -- the second thread moves it by one step, and then the first thread does not move it
  have hslid : cfg.slidTo (c * windowIncr) = windowIncr := by
    rw [slidTo, roundSizeToAlign_mul c hpos, hwidth, sub64_of_le (by omega)]
    omega
  have hsnd : m2.recorders 1 = some ⟨chunk 0 1, m.shared.lastSeqno, (c - 1) * windowIncr,
      .sliding 0⟩ := by simp [hthr2, hthr1, hnext]
  obtain ⟨m3, h3, hit3, hrec3, hthr3, hw3⟩ := h2.slide (by omega) hsnd
  rw [if_pos hw2, hone, hfull, hslid] at hw3
  have hfst : m3.recorders 0 = some ⟨chunk 1 2, m1.shared.lastSeqno, c * windowIncr, .sliding 0⟩ := by
    simp [hthr3, hthr2, hnext1]
  obtain ⟨m4, h4, hit4, hrec4, hthr4, hw4⟩ := h3.slide (by omega) hfst
  rw [if_neg (by omega), hw3] at hw4
  -- a store of the first thread lands on the first byte of the event
  have hfilling : m4.recorders 0 = some ⟨chunk 1 2, m1.shared.lastSeqno, c * windowIncr,
      .filling (chunk 1 2).stores⟩ := by simp [hthr4]
  have hstore : .byte windowIncr ∈ (chunk 1 2).stores := by
    simp only [stores, chunk, length_replicate, mem_append, mem_map, mem_range]
    exact .inr ⟨windowIncr, by omega, rfl⟩
  have h5 := h4.recorderTo (by omega) hfilling (.storeByte hstore)
  have hplace : cfg.position (c * windowIncr + windowIncr) = cfg.position windowIncr := by
    rw [cfg.position_eq, cfg.position_eq, hss, Nat.add_mod_left]
  have hiters : m4.iterators = m.iterators := by rw [hit4, hit3, hit2, hit1]
  obtain ⟨m6, bytes, h6, hrec6, hout, hbyte⟩ := h5.fetchFirst (i := 0) (k := 2)
    (hiters ▸ hidle) (hiters ▸ hmem) (by omega) (by rw [hoff]; exact hw4.le)
  have hfirstByte : bytes 0 = 1 := by
    rw [hbyte, hoff, hplace]
    exact (update_self _ _ _).trans (chunk_getD (by omega))
  refine ⟨m6, h6, fun hintact => ?_⟩
  obtain ⟨e, b, he, _, hby⟩ := hintact 0 2 1 bytes hout
  have hrec' : m6.recorded 2 = some (chunk 0 1, windowIncr) := by
    rw [hrec6]
    change m4.recorded 2 = _
    rw [hrec4, hrec3, hrec2, hrec1, update_of_ne (by omega), update_of_ne (by omega), hrec]
  obtain ⟨rfl, _⟩ : chunk 0 1 = e ∧ windowIncr = b := by simpa using hrec'.symm.trans he
  have hzero := hby 0 Nat.one_pos
  rw [hfirstByte, chunk_getD (by omega)] at hzero
  exact absurd hzero (by decide)

/-- For every buffer of at least `2 ^ 27` bytes and the recorder's limit on payloads: what readers take is
intact on every run if and only if at most one thread records. -/
theorem payloads_intact_iff (hdesc : 1 ≤ cfg.descriptorsShift) (hbuf : 27 ≤ cfg.payloadBufShift)
    (hlimit : cfg.allocLimit = cfg.payloadBufSize - 2 * windowIncr) :
    (∀ m, Reach cfg n m → m.PayloadsIntact) ↔ n ≤ 1 := by
  constructor
  · intro h
    by_contra hn
    obtain ⟨m, hm, htorn⟩ := Reach.payloads_torn hdesc hbuf hlimit (by omega : 2 ≤ n)
    exact htorn (h m hm)
  · intro hn m hm
    exact hm.payloadsIntact hdesc (Config.roomy hbuf hlimit) hn

/-- One thread on the smallest buffer. -/
theorem payloads_intact_iff_one : (∀ m, Reach ⟨16, 27, 2 ^ 27 - 2 * windowIncr⟩ 1 m → m.PayloadsIntact) ↔ 1 ≤ 1 :=
  payloads_intact_iff (by decide) (by decide) rfl

/-- Two threads on the smallest buffer hand a reader a byte that was not recorded. -/
theorem two_threads_tear_payload : ∃ m, Reach ⟨16, 27, 2 ^ 27 - 2 * windowIncr⟩ 2 m ∧ ¬m.PayloadsIntact :=
  Reach.payloads_torn (by decide) (by decide) rfl le_rfl

end MonadExecution.Event
