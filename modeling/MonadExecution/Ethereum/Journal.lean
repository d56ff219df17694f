import MonadExecution.Ethereum.BlockState

/-!
# Nested calls: journal and snapshots

A call frame of the interpreter can be rolled back. `State` implements this with a version stack for
each record, created when a record is first touched, and a set of touched addresses for each frame. The
reference below does it in the obvious way: it keeps the records of the present moment only, copies all
of them when a frame is opened, and puts the copy back when the frame is rejected. `Refines` relates the
two, and every program gets the same replies from both.
-/

namespace MonadExecution.Ethereum

open List Table Nat VersionStack

/-! ## The reference -/

/-- A state without journal, and the records and logs as they were when each open frame started. -/
structure Snapshots where
  plain : State
  saved : List (Table Address (VersionStack AccountState) × VersionStack (List Log)) := []

namespace Snapshots

/-- The frame operations copy, forget and restore; everything else works on the plain state. -/
def exec (keccak : Bytes → Bytes32) : (c : Call) → Snapshots → Ask (c.Reply × Snapshots)
  | .push, ref => .done ((), { ref with saved := (ref.plain.current, ref.plain.logs) :: ref.saved })
  | .popAccept, ref =>
    match ref.saved with
    | [] => .fail
    | _ :: rest => .done ((), { ref with saved := rest })
  | .popReject, ref =>
    match ref.saved with
    | [] => .fail
    | (current, logs) :: rest =>
      .done ((), { plain := { ref.plain with current := current, logs := logs }, saved := rest })
  | c, ref => c.exec keccak ref.plain >>= fun y => .done (y.1, { ref with plain := y.2 })

theorem exec_popAccept (keccak : Bytes → Bytes32) (ref : Snapshots) : ref.exec keccak .popAccept =
    match ref.saved with
    | [] => .fail
    | _ :: rest => .done ((), { ref with saved := rest }) := rfl

theorem exec_popReject (keccak : Bytes → Bytes32) (ref : Snapshots) : ref.exec keccak .popReject =
    match ref.saved with
    | [] => .fail
    | (current, logs) :: rest =>
      .done ((), { plain := { ref.plain with current := current, logs := logs }, saved := rest }) :=
  rfl

/-- A program on the reference. -/
def run {α : Type} (keccak : Bytes → Bytes32) : Program α → Snapshots → Ask (α × Snapshots)
  | .ret x, ref => .done (x, ref)
  | .call c next, ref => ref.exec keccak c >>= fun y => run keccak (next y.1) y.2

end Snapshots

/-! ## Frames by number -/

/-- The entry of frame `n` in a list that has the newest frame first; frames count from one. -/
def frameOf {β : Type} : List β → Nat → Option β
  | [], _ => none
  | x :: rest, n => if n = rest.length + 1 then some x else frameOf rest n

variable {β : Type} {l : List β} {n : Nat}

theorem frameOf_newest (x : β) (l : List β) : frameOf (x :: l) (l.length + 1) = some x := if_pos rfl

theorem frameOf_older (x : β) (h : n ≤ l.length) : frameOf (x :: l) n = frameOf l n := if_neg (by omega)

theorem frameOf_none (h : l.length < n) : frameOf l n = none := by
  induction l with
  | nil => rfl
  | cons x l ih =>
    simp only [length_cons] at h
    rw [frameOf, if_neg (by omega), ih (by omega)]

theorem exists_frameOf (hpos : 0 < n) (h : n ≤ l.length) : ∃ x, frameOf l n = some x := by
  induction l with
  | nil => exact absurd (hpos.trans_le h) (lt_irrefl 0)
  | cons x l ih =>
    rcases lt_or_ge l.length n with hlt | hge
    · have hn : n = l.length + 1 := by
        simp only [length_cons] at h
        omega
      exact ⟨x, hn ▸ frameOf_newest x l⟩
    · rw [frameOf_older x hge]
      exact ih hge

/-- The records and logs of frame `n`: a saved copy, or the present ones. -/
def Snapshots.frame (ref : Snapshots) (n : Nat) :
    Table Address (VersionStack AccountState) × VersionStack (List Log) :=
  (frameOf ref.saved (n + 1)).getD (ref.plain.current, ref.plain.logs)

/-- A frame that has been left is a saved copy, whatever the present state is. -/
theorem Snapshots.frame_saved (ref : Snapshots) (p : State) (hn : n < ref.saved.length) :
    Snapshots.frame { ref with plain := p } n = ref.frame n := by
  obtain ⟨f, hf⟩ := exists_frameOf (succ_pos n) hn
  unfold Snapshots.frame
  rw [hf]
  rfl

theorem Snapshots.frame_present {ref : Snapshots} (hn : ref.saved.length ≤ n) :
    ref.frame n = (ref.plain.current, ref.plain.logs) := by
  unfold Snapshots.frame
  rw [frameOf_none (lt_succ_of_le hn)]
  rfl

/-- A stack that has never seen a frame. -/
def VersionStack.Flat {T : Type} (s : VersionStack T) : Prop := s.version = 0 ∧ s.below = []

theorem VersionStack.Flat.write {T : Type} {s : VersionStack T} (h : s.Flat) (x : T) : (s.write 0 x).Flat := by
  unfold VersionStack.write
  exact h

/-! ## The relation -/

/-- The journal `st` stands for the snapshots `ref`. -/
structure Refines (st : State) (ref : Snapshots) : Prop where
  incarnation_eq : st.incarnation = ref.plain.incarnation
  relaxed_eq : st.relaxedValidation = ref.plain.relaxedValidation
  original_eq : st.original = ref.plain.original
  code_eq : st.code = ref.plain.code
  -- the reference has no frames of its own
  plain_dirty : ref.plain.dirty = []
  plain_flat : ∀ a s, ref.plain.current.lookup a = some s → s.Flat
  plain_logs : ref.plain.logs.Flat
  saved_flat : ∀ f ∈ ref.saved, (∀ a s, f.1.lookup a = some s → s.Flat) ∧ f.2.Flat
  depth_eq : st.version = ref.saved.length
  -- no stack is ahead of the open frames, and a frame's set is exactly what has an entry for it
  bounded : ∀ a s, st.current.lookup a = some s → s.version ≤ st.version
  logs_bounded : st.logs.version ≤ st.version
  nodup : ∀ frame ∈ st.dirty, frame.Nodup
  marked : ∀ n a, 0 < n → n ≤ st.version →
    (a ∈ (frameOf st.dirty n).getD [] ↔ ∃ s, st.current.lookup a = some s ∧ n ∈ s.versions)
  -- every frame sees the same values
  value_eq : ∀ n a, n ≤ st.version → ((st.current.lookup a).bind fun s => s.valueAt n) =
      ((ref.frame n).1.lookup a).map VersionStack.recent
  logs_eq : ∀ n, n ≤ st.version → st.logs.valueAt n = some (ref.frame n).2.recent

/-- A state and its reference at the start of a transaction. -/
theorem refines_fresh (incarnation : Incarnation) (relaxed : Bool) :
    Refines { incarnation := incarnation, relaxedValidation := relaxed }
      { plain := { incarnation := incarnation, relaxedValidation := relaxed } } where
  incarnation_eq := rfl
  relaxed_eq := rfl
  original_eq := rfl
  code_eq := rfl
  plain_dirty := rfl
  plain_flat := by simp
  plain_logs := ⟨rfl, rfl⟩
  saved_flat := by simp
  depth_eq := rfl
  bounded := by simp
  logs_bounded := le_refl _
  nodup := by simp
  marked := by
    intro n a hpos hn
    exact absurd hpos (not_lt.mpr hn)
  value_eq := by
    intro n a _
    simp [Snapshots.frame, frameOf]
  logs_eq := by
    intro n _
    exact valueAt_start [] 0 n

namespace Refines

variable {st : State} {ref : Snapshots}

section

variable (h : Refines st ref)

include h

theorem frame_now : ref.frame st.version = (ref.plain.current, ref.plain.logs) :=
  Snapshots.frame_present (le_of_eq h.depth_eq.symm)

/-- Both have the same records now. -/
theorem recent_eq (a : Address) : (st.current.lookup a).map recent =
    (ref.plain.current.lookup a).map recent := by
  have hv := h.value_eq st.version a (le_refl _)
  rw [h.frame_now] at hv
  rw [← hv]
  cases hs : st.current.lookup a with
  | none => rfl
  | some s => exact (s.valueAt_of_le (h.bounded a s hs)).symm

theorem logs_recent : st.logs.recent = ref.plain.logs.recent := by
  have hv := h.logs_eq st.version (le_refl _)
  rw [h.frame_now, st.logs.valueAt_of_le h.logs_bounded] at hv
  exact Option.some.inj hv

theorem plain_version : ref.plain.version = 0 := by
  unfold State.version
  rw [h.plain_dirty]
  rfl

end

/-- A change of the originals, made on both sides. -/
theorem original (h : Refines st ref) (f : Table Address OriginalAccountState) :
    Refines { st with original := f } { ref with plain := { ref.plain with original := f } } :=
  { h with original_eq := rfl }

theorem setOriginal (h : Refines st ref) (a : Address) (o : OriginalAccountState) :
    Refines (st.setOriginal a o) { ref with plain := ref.plain.setOriginal a o } := by
  unfold State.setOriginal
  rw [← h.original_eq]
  exact h.original _

theorem insertCode (h : Refines st ref) (hash : Bytes32) (code : Bytes) :
    Refines { st with code := st.code.insert hash code }
      { ref with plain := { ref.plain with code := ref.plain.code.insert hash code } } :=
  { h with code_eq := by rw [h.code_eq] }

/-! ### Writing a record -/

theorem version_setCurrent (st : State) (a : Address) (x : AccountState) :
    (st.setCurrent a x).version = st.version := by
  unfold State.setCurrent State.version
  cases st.dirty <;> rfl

section

variable (h : Refines st ref) (a : Address) (x : AccountState)

include h

/-- The stack of an address after a write in the present frame. -/
theorem exists_stack : ∃ s, (st.setCurrent a x).current = st.current.insert a s ∧ s.version = st.version ∧
    (∀ n, s.valueAt n = if st.version ≤ n then some x else (st.current.lookup a).bind fun s => s.valueAt n) ∧
    ∀ n, n ∈ s.versions ↔ n = st.version ∨ ∃ s, st.current.lookup a = some s ∧ n ∈ s.versions := by
  cases hl : st.current.lookup a with
  | none =>
    refine ⟨.start x st.version, ?_, rfl, ?_, ?_⟩
    · simp [State.setCurrent, hl]
    · intro n
      simp
    · intro n
      simp
  | some s =>
    have hb := h.bounded a s hl
    refine ⟨s.write st.version x, ?_, s.version_write hb x, ?_, ?_⟩
    · simp [State.setCurrent, hl]
    · intro n
      simp [s.valueAt_write hb]
    · intro n
      simp [s.mem_versions_write hb]

/-- The reference just replaces the record. -/
theorem exists_plain :
    ∃ p, (ref.plain.setCurrent a x).current = ref.plain.current.insert a p ∧ p.recent = x ∧ p.Flat := by
  cases hl : ref.plain.current.lookup a with
  | none =>
    refine ⟨.start x 0, ?_, rfl, rfl, rfl⟩
    simp [State.setCurrent, hl, h.plain_version]
  | some s =>
    refine ⟨s.write 0 x, ?_, s.recent_write 0 x, (h.plain_flat a s hl).write x⟩
    simp [State.setCurrent, hl, h.plain_version]

theorem nodup_setCurrent : ∀ frame ∈ (st.setCurrent a x).dirty, frame.Nodup := by
  intro frame hfrm
  unfold State.setCurrent at hfrm
  cases hd : st.dirty with
  | nil => simp [hd] at hfrm
  | cons d rest =>
    simp only [hd] at hfrm
    rcases mem_cons.mp hfrm with rfl | hfrm
    · exact (h.nodup d (by rw [hd]; exact mem_cons_self)).insert
    · exact h.nodup frame (by rw [hd]; exact mem_cons_of_mem _ hfrm)

end

/-- The address is marked in the present frame, and nothing else changes. -/
theorem mem_frame_setCurrent {a b : Address} {x : AccountState} (hpos : 0 < n) (hn : n ≤ st.version) :
    b ∈ (frameOf (st.setCurrent a x).dirty n).getD [] ↔
      (b = a ∧ n = st.version) ∨ b ∈ (frameOf st.dirty n).getD [] := by
  unfold State.setCurrent
  unfold State.version at hn ⊢
  cases hd : st.dirty with
  | nil =>
    rw [hd] at hn
    exact absurd (hpos.trans_le hn) (lt_irrefl 0)
  | cons d rest =>
    rw [hd] at hn
    simp only [length_cons] at hn ⊢
    rcases lt_or_ge rest.length n with hlt | hge
    · have hnv : n = rest.length + 1 := by omega
      subst hnv
      rw [frameOf_newest, frameOf_newest]
      simp
    · rw [frameOf_older _ hge, frameOf_older _ hge]
      simp [show n ≠ rest.length + 1 by omega]

/-- A change of the present record on both sides. -/
theorem setCurrent (h : Refines st ref) (a : Address) (x : AccountState) :
    Refines (st.setCurrent a x) { ref with plain := ref.plain.setCurrent a x } := by
  have hver := version_setCurrent st a x
  have hdp := h.depth_eq
  obtain ⟨s, hs, hsv, hsn, hsm⟩ := h.exists_stack a x
  obtain ⟨p, hp, hpx, hpf⟩ := h.exists_plain a x
  constructor
  case incarnation_eq => exact h.incarnation_eq
  case relaxed_eq => exact h.relaxed_eq
  case original_eq => exact h.original_eq
  case code_eq => exact h.code_eq
  case plain_dirty =>
    unfold State.setCurrent
    rw [h.plain_dirty]
  case plain_flat =>
    intro b q hq
    rw [hp, lookup_insert_ite] at hq
    split at hq
    · cases hq
      exact hpf
    · exact h.plain_flat b q hq
  case plain_logs => exact h.plain_logs
  case saved_flat => exact h.saved_flat
  case depth_eq => exact hver.trans hdp
  case bounded =>
    intro b q hq
    rw [hs, lookup_insert_ite] at hq
    rw [hver]
    split at hq
    · cases hq
      exact le_of_eq hsv
    · exact h.bounded b q hq
  case logs_bounded => exact hver ▸ h.logs_bounded
  case nodup => exact h.nodup_setCurrent a x
  case marked =>
    intro n b hpos hn
    rw [hver] at hn
    rw [mem_frame_setCurrent hpos hn, h.marked n b hpos hn, hs, lookup_insert_ite]
    split_ifs with hab
    · subst hab
      simp [hsm]
    · simp [hab]
  case value_eq =>
    intro n b hn
    rw [hver] at hn
    have hold := h.value_eq n b hn
    rw [hs, lookup_insert_ite]
    rcases lt_or_ge n st.version with hlt | hge
    · rw [ref.frame_saved _ (hdp ▸ hlt), ← hold]
      split_ifs with hab
      · subst hab
        rw [Option.bind_some, hsn n, if_neg (by omega)]
      · rfl
    · rw [Snapshots.frame_present (hdp ▸ hge)] at hold ⊢
      rw [hp, lookup_insert_ite]
      split_ifs with hab
      · rw [Option.bind_some, hsn n, if_pos hge, Option.map_some, hpx]
      · exact hold
  case logs_eq =>
    intro n hn
    rw [hver] at hn
    have hold := h.logs_eq n hn
    rcases lt_or_ge n st.version with hlt | hge
    · rw [ref.frame_saved _ (hdp ▸ hlt)]
      exact hold
    · rw [Snapshots.frame_present (hdp ▸ hge)] at hold ⊢
      exact hold

/-! ### Writing the logs -/

theorem storeLog (h : Refines st ref) (log : Log) :
    Refines { st with logs := st.logs.write st.version (st.logs.recent ++ [log]) }
      { ref with plain := { ref.plain with
          logs := ref.plain.logs.write ref.plain.version (ref.plain.logs.recent ++ [log]) } } := by
  have hdp := h.depth_eq
  rw [h.plain_version]
  refine { h with plain_logs := h.plain_logs.write _, logs_bounded := ?_, value_eq := ?_, logs_eq := ?_ }
  · exact le_of_eq (st.logs.version_write h.logs_bounded _)
  · intro n b hn
    have hold := h.value_eq n b hn
    rcases lt_or_ge n st.version with hlt | hge
    · rw [ref.frame_saved _ (hdp ▸ hlt)]
      exact hold
    · rw [Snapshots.frame_present (hdp ▸ hge)] at hold ⊢
      exact hold
  · intro n hn
    have hold := h.logs_eq n hn
    rw [st.logs.valueAt_write h.logs_bounded]
    rcases lt_or_ge n st.version with hlt | hge
    · rw [ref.frame_saved _ (hdp ▸ hlt), if_neg (not_le.mpr hlt)]
      exact hold
    · rw [Snapshots.frame_present (hdp ▸ hge), if_pos hge, h.logs_recent]
      simp

/-- The logs of the first frame are never given up. -/
theorem exists_logs (h : Refines st ref) (hpos : 0 < st.version) :
    ∃ logs, st.logs.popReject st.version = some logs := by
  have hzero := h.logs_eq 0 (zero_le _)
  have hval := st.logs.valueAt_popReject hpos
  cases hr : st.logs.popReject st.version with
  | none =>
    rw [hr, hzero] at hval
    cases hval
  | some logs => exact ⟨logs, rfl⟩

/-! ### Opening and closing frames -/

/-- The saved copy of a new frame is the present. -/
theorem frame_push (ref : Snapshots) (n : Nat) :
    Snapshots.frame { ref with saved := (ref.plain.current, ref.plain.logs) :: ref.saved } n = ref.frame n := by
  rcases lt_or_ge n ref.saved.length with hlt | hge
  · unfold Snapshots.frame
    rw [frameOf_older _ (show n + 1 ≤ ref.saved.length by omega)]
  rw [Snapshots.frame_present hge]
  rcases lt_or_ge ref.saved.length n with hlt | hle
  · exact Snapshots.frame_present hlt
  have hn : n = ref.saved.length := by omega
  subst hn
  unfold Snapshots.frame
  rw [frameOf_newest]
  rfl

theorem push (h : Refines st ref) : Refines { st with dirty := [] :: st.dirty }
    { ref with saved := (ref.plain.current, ref.plain.logs) :: ref.saved } := by
  have hver : State.version { st with dirty := [] :: st.dirty } = st.version + 1 := rfl
  refine { h with
    saved_flat := ?saved_flat, depth_eq := ?depth_eq, bounded := ?bounded, logs_bounded := ?logs_bounded
    nodup := ?nodup, marked := ?marked, value_eq := ?value_eq, logs_eq := ?logs_eq }
  case saved_flat =>
    intro f hf
    rcases mem_cons.mp hf with rfl | hf
    · exact ⟨h.plain_flat, h.plain_logs⟩
    · exact h.saved_flat f hf
  case depth_eq =>
    rw [hver, h.depth_eq]
    rfl
  case bounded =>
    intro a s hs
    exact le_succ_of_le (h.bounded a s hs)
  case logs_bounded => exact le_succ_of_le h.logs_bounded
  case nodup =>
    intro frame hfrm
    rcases mem_cons.mp hfrm with rfl | hfrm
    · exact nodup_nil
    · exact h.nodup frame hfrm
  case marked =>
    intro n a hpos hn
    rw [hver] at hn
    rcases lt_or_ge st.version n with hlt | hge
    · -- nothing has an entry for the new frame yet
      have hnv : n = st.dirty.length + 1 := by
        unfold State.version at hlt hn
        omega
      rw [hnv, frameOf_newest]
      simp only [Option.getD_some, not_mem_nil, false_iff]
      rintro ⟨s, hs, hmem⟩
      have h1 := h.bounded a s hs
      have h2 := s.le_version_of_mem hmem
      omega
    · rw [show frameOf ([] :: st.dirty) n = frameOf st.dirty n from frameOf_older _ hge]
      exact h.marked n a hpos hge
  case value_eq =>
    intro n a hn
    rw [frame_push]
    rcases lt_or_ge st.version n with hlt | hge
    · -- the new frame sees what the old one saw
      rw [Snapshots.frame_present (by rw [← h.depth_eq]; exact le_of_lt hlt), ← h.recent_eq a]
      cases hs : st.current.lookup a with
      | none => rfl
      | some s => exact s.valueAt_of_le ((h.bounded a s hs).trans (le_of_lt hlt))
    · exact h.value_eq n a hge
  case logs_eq =>
    intro n hn
    rw [frame_push]
    rcases lt_or_ge st.version n with hlt | hge
    · rw [Snapshots.frame_present (by rw [← h.depth_eq]; exact le_of_lt hlt), ← h.logs_recent]
      exact st.logs.valueAt_of_le (h.logs_bounded.trans (le_of_lt hlt))
    · exact h.logs_eq n hge

variable {frame : List Address} {rest : List (List Address)}

theorem version_cons (hd : st.dirty = frame :: rest) : st.version = rest.length + 1 := by
  unfold State.version
  rw [hd]
  rfl

section

variable (h : Refines st ref) (hd : st.dirty = frame :: rest)

include h hd

/-- The addresses of the newest frame are those with an entry for it. -/
theorem mem_frame (a : Address) : a ∈ frame ↔ ∃ s, st.current.lookup a = some s ∧ st.version ∈ s.versions := by
  have hv := version_cons hd
  have hm := h.marked st.version a (by omega) (le_refl _)
  rw [hd, hv, frameOf_newest] at hm
  rw [hv]
  exact hm

theorem nodup_frame : frame.Nodup := h.nodup frame (hd ▸ mem_cons_self)

/-- The assertion of the two closing operations. -/
theorem frame_loaded : (frame.all fun a => (st.current.lookup a).isSome) = true := by
  rw [all_eq_true]
  intro a ha
  obtain ⟨s, hs, -⟩ := (h.mem_frame hd a).mp ha
  simp [hs]

theorem exists_saved : ∃ f more, ref.saved = f :: more ∧ more.length = rest.length := by
  have hlen := h.depth_eq
  rw [version_cons hd] at hlen
  cases hs : ref.saved with
  | nil => simp [hs] at hlen
  | cons f more =>
    rw [hs, length_cons] at hlen
    exact ⟨f, more, rfl, by omega⟩

end

theorem saved_nil (h : Refines st ref) (hd : st.dirty = []) : ref.saved = [] := by
  have hlen := h.depth_eq
  unfold State.version at hlen
  rw [hd] at hlen
  exact eq_nil_of_length_eq_zero hlen.symm

/-- What accepting the newest frame does to the stack of one address: the frame below sees what the
frame saw. -/
theorem lookup_accept (h : Refines st ref) (hd : st.dirty = frame :: rest) (a : Address) :
    (∀ s', (st.accept frame rest).current.lookup a = some s' →
      ∃ s, st.current.lookup a = some s ∧ s'.version < st.version ∧ (∀ n < st.version, s'.valueAt n =
          if n + 1 = st.version then s.valueAt st.version else s.valueAt n) ∧
        ∀ n, n < st.version → (n ∈ s'.versions ↔ n ∈ s.versions ∨ (n + 1 = st.version ∧ st.version ∈ s.versions))) ∧
    ((st.accept frame rest).current.lookup a = none → st.current.lookup a = none) := by
  have hpos : 0 < st.version := version_cons hd ▸ Nat.succ_pos _
  have hlook : (st.accept frame rest).current.lookup a =
      if a ∈ frame then (st.current.lookup a).map (·.popAccept st.version)
      else st.current.lookup a := lookup_alterAll _ (h.nodup_frame hd) _ _
  rw [hlook]
  constructor
  · intro s' hs'
    split_ifs at hs' with hmem
    · obtain ⟨s, hs, rfl⟩ := Option.map_eq_some_iff.mp hs'
      have hb := h.bounded a s hs
      refine ⟨s, hs, s.version_popAccept hb hpos, ?_, ?_⟩
      · intro n hn
        exact s.valueAt_popAccept hb hpos hn
      · intro n hn
        rw [s.mem_versions_popAccept hb hpos]
        simp [Nat.ne_of_lt hn]
    · have hb := h.bounded a s' hs'
      have hnot : st.version ∉ s'.versions := fun hv => hmem ((h.mem_frame hd a).mpr ⟨s', hs', hv⟩)
      have hne : s'.version ≠ st.version := fun he => hnot (he ▸ mem_cons_self)
      refine ⟨s', hs', by omega, ?_, ?_⟩
      · intro n hn
        split_ifs with hn1
        · rw [s'.valueAt_of_le (by omega), s'.valueAt_of_le hb]
        · rfl
      · intro n _
        simp [hnot]
  · intro hnone
    split_ifs at hnone with hmem
    · exact Option.map_eq_none_iff.mp hnone
    · exact hnone

/-- The marks after the newest frame has been accepted. -/
theorem mem_frame_accept (hd : st.dirty = frame :: rest) (hpos : 0 < n) (hn : n < st.version) (a : Address) :
    a ∈ (frameOf (st.accept frame rest).dirty n).getD [] ↔
      a ∈ (frameOf st.dirty n).getD [] ∨ (n + 1 = st.version ∧ a ∈ frame) := by
  have hv := version_cons hd
  rw [hd, frameOf_older _ (show n ≤ rest.length by omega), hv]
  cases rest with
  | nil =>
    simp only [length_nil] at hv
    omega
  | cons below rest =>
    simp only [length_cons] at hv ⊢
    show a ∈ (frameOf (frame.union below :: rest) n).getD [] ↔ _
    rcases lt_or_ge rest.length n with hlt | hge
    · have hnv : n = rest.length + 1 := by omega
      subst hnv
      rw [frameOf_newest, frameOf_newest]
      show a ∈ frame ∪ below ↔ _
      simp [or_comm]
    · rw [frameOf_older _ hge, frameOf_older _ hge]
      simp [show n ≠ rest.length + 1 by omega]

variable {f : Table Address (VersionStack AccountState) × VersionStack (List Log)}
  {more : List (Table Address (VersionStack AccountState) × VersionStack (List Log))}

section

variable (h : Refines st ref) (hd : st.dirty = frame :: rest)

include h hd

theorem accept (hsaved : ref.saved = f :: more) : Refines (st.accept frame rest) { ref with saved := more } := by
  have hv := version_cons hd
  have hdp := h.depth_eq
  rw [hsaved, length_cons] at hdp
  have hver : (st.accept frame rest).version = rest.length := by cases rest <;> rfl
  -- the frames below keep their copies, and the one below the closed frame is now the present
  have hfrm : ∀ n ≤ rest.length, Snapshots.frame { ref with saved := more } n =
      if n + 1 = st.version then ref.frame st.version else ref.frame n := by
    intro n hn
    split_ifs with hn1
    · rw [h.frame_now]
      exact Snapshots.frame_present (show more.length ≤ n by omega)
    · unfold Snapshots.frame
      rw [hsaved, frameOf_older _ (show n + 1 ≤ more.length by omega)]
  refine { h with
    saved_flat := ?saved_flat, depth_eq := ?depth_eq, bounded := ?bounded, logs_bounded := ?logs_bounded
    nodup := ?nodup, marked := ?marked, value_eq := ?value_eq, logs_eq := ?logs_eq }
  case saved_flat =>
    intro g hg
    exact h.saved_flat g (hsaved ▸ mem_cons_of_mem _ hg)
  case depth_eq =>
    show _ = more.length
    omega
  case bounded =>
    intro a s' hs'
    obtain ⟨s, -, hlt, -⟩ := (h.lookup_accept hd a).1 s' hs'
    omega
  case logs_bounded =>
    have := st.logs.version_popAccept h.logs_bounded (by omega)
    show (st.logs.popAccept st.version).version ≤ _
    omega
  case nodup =>
    intro g hg
    cases rest with
    | nil => exact absurd hg not_mem_nil
    | cons below rest =>
      have hg' : g ∈ frame.union below :: rest := hg
      rcases mem_cons.mp hg' with rfl | hg'
      · exact List.Nodup.union _ (h.nodup below (by simp [hd]))
      · exact h.nodup g (by simp [hd, hg'])
  case marked =>
    intro n a hpos hn
    have hlt : n < st.version := by omega
    rw [mem_frame_accept hd hpos hlt a, h.marked n a hpos (le_of_lt hlt), h.mem_frame hd a]
    constructor
    · intro hold
      cases hs' : (st.accept frame rest).current.lookup a with
      | none =>
        have hnone := (h.lookup_accept hd a).2 hs'
        simp [hnone] at hold
      | some s' =>
        obtain ⟨s, hs, -, -, hmem⟩ := (h.lookup_accept hd a).1 s' hs'
        refine ⟨s', rfl, (hmem n hlt).mpr ?_⟩
        simpa [hs] using hold
    · rintro ⟨s', hs', hn'⟩
      obtain ⟨s, hs, -, -, hmem⟩ := (h.lookup_accept hd a).1 s' hs'
      simpa [hs] using (hmem n hlt).mp hn'
  case value_eq =>
    intro n a hn
    rw [hver] at hn
    have hlt : n < st.version := by omega
    have hold := h.value_eq n a (le_of_lt hlt)
    have hnow := h.value_eq st.version a (le_refl _)
    rw [hfrm n hn]
    cases hs' : (st.accept frame rest).current.lookup a with
    | none =>
      have hnone := (h.lookup_accept hd a).2 hs'
      rw [hnone] at hold hnow
      split_ifs
      · exact hnow
      · exact hold
    | some s' =>
      obtain ⟨s, hs, -, hval, -⟩ := (h.lookup_accept hd a).1 s' hs'
      rw [hs] at hold hnow
      rw [Option.bind_some, hval n hlt]
      split_ifs
      · exact hnow
      · exact hold
  case logs_eq =>
    intro n hn
    rw [hver] at hn
    show (st.logs.popAccept st.version).valueAt n = _
    rw [st.logs.valueAt_popAccept h.logs_bounded (by omega) (by omega), hfrm n hn]
    split_ifs
    · exact h.logs_eq st.version (le_refl _)
    · exact h.logs_eq n (by omega)

/-- What rejecting the newest frame does to the stack of one address: the frames below see what they
saw before. -/
theorem lookup_reject (logs : VersionStack (List Log)) (a : Address) :
    (∀ n < st.version, (((st.reject frame rest logs).current.lookup a).bind fun s => s.valueAt n) =
      (st.current.lookup a).bind fun s => s.valueAt n) ∧
    (∀ n < st.version, (∃ s, (st.reject frame rest logs).current.lookup a = some s ∧
      n ∈ s.versions) ↔ ∃ s, st.current.lookup a = some s ∧ n ∈ s.versions) ∧
    ∀ s', (st.reject frame rest logs).current.lookup a = some s' → s'.version < st.version := by
  have hlook : (st.reject frame rest logs).current.lookup a =
      if a ∈ frame then (st.current.lookup a).bind (·.popReject st.version)
      else st.current.lookup a := lookup_alterAll _ (h.nodup_frame hd) _ _
  rw [hlook]
  cases hs : st.current.lookup a with
  | none => simp
  | some s =>
    have hb := h.bounded a s hs
    by_cases hmem : a ∈ frame
    · simp only [if_pos hmem, Option.bind_some]
      refine ⟨fun n hn => s.valueAt_popReject hn, ?_, fun s' hs' => s.version_popReject hb hs'⟩
      intro n hn
      cases hr : s.popReject st.version with
      | none =>
        simp only [reduceCtorEq, false_and, exists_false, Option.some.injEq, exists_eq_left', false_iff]
        intro hn'
        exact Nat.ne_of_lt hn (s.eq_of_popReject_none hr hn')
      | some s' => simp [s.mem_versions_popReject hb hr, Nat.ne_of_lt hn]
    · have hnot : st.version ∉ s.versions := fun hv => hmem ((h.mem_frame hd a).mpr ⟨s, hs, hv⟩)
      have hne : s.version ≠ st.version := fun he => hnot (he ▸ mem_cons_self)
      simp only [if_neg hmem]
      refine ⟨fun _ _ => trivial, fun _ _ => trivial, ?_⟩
      intro s' hs'
      cases hs'
      omega

theorem reject (hsaved : ref.saved = f :: more) {logs : VersionStack (List Log)}
    (hlogs : st.logs.popReject st.version = some logs) :
    Refines (st.reject frame rest logs)
      { plain := { ref.plain with current := f.1, logs := f.2 }, saved := more } := by
  have hv := version_cons hd
  have hdp := h.depth_eq
  rw [hsaved, length_cons] at hdp
  have hver : (st.reject frame rest logs).version = rest.length := rfl
  have hflat := h.saved_flat f (hsaved ▸ mem_cons_self)
  have hfrm : ∀ n ≤ rest.length, Snapshots.frame
      { plain := { ref.plain with current := f.1, logs := f.2 }, saved := more } n = ref.frame n := by
    intro n hn
    rcases lt_or_ge n rest.length with hlt | hge
    · obtain ⟨g, hg⟩ := exists_frameOf (succ_pos n) (show n + 1 ≤ more.length by omega)
      unfold Snapshots.frame
      rw [hsaved, frameOf_older _ (show n + 1 ≤ more.length by omega), hg]
      rfl
    · rw [Snapshots.frame_present (show more.length ≤ n by omega)]
      unfold Snapshots.frame
      have hn' : n + 1 = more.length + 1 := by omega
      rw [hsaved, hn', frameOf_newest]
      rfl
  constructor
  case incarnation_eq => exact h.incarnation_eq
  case relaxed_eq => exact h.relaxed_eq
  case original_eq => exact h.original_eq
  case code_eq => exact h.code_eq
  case plain_dirty => exact h.plain_dirty
  case plain_flat => exact hflat.1
  case plain_logs => exact hflat.2
  case saved_flat =>
    intro g hg
    exact h.saved_flat g (hsaved ▸ mem_cons_of_mem _ hg)
  case depth_eq =>
    show _ = more.length
    omega
  case bounded =>
    intro a s' hs'
    have := (h.lookup_reject hd logs a).2.2 s' hs'
    omega
  case logs_bounded =>
    have := st.logs.version_popReject h.logs_bounded hlogs
    show logs.version ≤ _
    omega
  case nodup =>
    intro g hg
    exact h.nodup g (hd ▸ mem_cons_of_mem _ hg)
  case marked =>
    intro n a hpos hn
    rw [hver] at hn
    rw [(h.lookup_reject hd logs a).2.1 n (by omega), ← h.marked n a hpos (by omega), hd, frameOf_older _ hn]
    rfl
  case value_eq =>
    intro n a hn
    rw [(h.lookup_reject hd logs a).1 n (by omega), hfrm n hn]
    exact h.value_eq n a (by omega)
  case logs_eq =>
    intro n hn
    have hval := st.logs.valueAt_popReject (show n < st.version by omega)
    rw [hlogs, Option.bind_some] at hval
    show logs.valueAt n = _
    rw [hval, hfrm n hn]
    exact h.logs_eq n (by omega)

end

end Refines

/-! ## Methods on both sides -/

/-- Does the call open or close a frame? -/
def Call.isFrame : Call → Bool
  | .push => true
  | .popAccept => true
  | .popReject => true
  | _ => false

/-- A method that does the same on a journal and on the plain state of its reference. -/
def Mirrors {α : Type} (m : Method α) : Prop :=
  ∀ st ref, Refines st ref →
    Reading.Same (fun y z => y.1 = z.1 ∧ Refines y.2 { ref with plain := z.2 }) (m st) (m ref.plain)

namespace Mirrors

variable {α β : Type}

theorem pure (x : α) : Mirrors (Pure.pure x : Method α) := fun _ _ h => .done ⟨rfl, h⟩

theorem bind {m : Method α} {f : α → Method β} (hm : Mirrors m) (hf : ∀ x, Mirrors (f x)) : Mirrors (m >>= f) := by
  intro st ref h
  refine (hm st ref h).bind ?_
  rintro ⟨x, st'⟩ ⟨y, p'⟩ ⟨rfl, h'⟩
  exact hf x st' { ref with plain := p' } h'

theorem abort : Mirrors (Ethereum.abort : Method α) := fun _ _ _ => .fail

theorem query (q : Query) : Mirrors (Ethereum.query q) := fun _ _ h => .ask fun _ => .done ⟨rfl, h⟩

theorem getIncarnation : Mirrors Ethereum.getIncarnation := fun _ _ h => .done ⟨h.incarnation_eq, h⟩

theorem modifyState {f : State → State}
    (hf : ∀ st ref, Refines st ref → Refines (f st) { ref with plain := f ref.plain }) :
    Mirrors (Ethereum.modifyState f) :=
  fun st ref h => .done ⟨rfl, hf st ref h⟩

section

variable (a : Address)

theorem setOriginal (o : OriginalAccountState) : Mirrors (Ethereum.modifyState (·.setOriginal a o)) :=
  modifyState fun _ _ h => h.setOriginal a o

theorem originalAccountState : Mirrors (Ethereum.originalAccountState a) := by
  intro st ref h
  unfold Ethereum.originalAccountState
  rw [← h.original_eq]
  cases st.original.lookup a with
  | some o => exact .done ⟨rfl, h⟩
  | none => exact .ask fun _ => .done ⟨rfl, h.original _⟩

theorem recentAccountState : Mirrors (Ethereum.recentAccountState a) := by
  intro st ref h
  have hrecent := h.recent_eq a
  unfold Ethereum.recentAccountState
  cases hs : st.current.lookup a with
  | some s =>
    rw [hs] at hrecent
    obtain ⟨p, hp, hrec⟩ := Option.map_eq_some_iff.mp hrecent.symm
    rw [hp]
    exact .done ⟨hrec.symm, h⟩
  | none =>
    rw [hs] at hrecent
    rw [Option.map_eq_none_iff.mp hrecent.symm]
    refine (originalAccountState a st ref h).bind ?_
    rintro ⟨o, st'⟩ ⟨o', p'⟩ ⟨rfl, h'⟩
    exact .done ⟨rfl, h'⟩

theorem currentAccountState (e : Edit) : Mirrors (Ethereum.currentAccountState a e) := by
  refine (recentAccountState a).bind fun x => getIncarnation.bind fun i => ?_
  cases e.apply i x with
  | none => exact abort
  | some y => exact (modifyState fun _ _ h => h.setCurrent a y.2).bind fun _ => pure y.1

theorem originalStorage (i : Incarnation) (key : Bytes32) : Mirrors (Ethereum.originalStorage a i key) := by
  refine (originalAccountState a).bind fun o => ?_
  cases o.storage.lookup key with
  | some value => exact pure value
  | none => exact (query _).bind fun value => (setOriginal a _).bind fun _ => pure value

theorem setValidateExactBalance : Mirrors (Ethereum.setValidateExactBalance a) :=
  (originalAccountState a).bind fun _ => setOriginal a _

theorem getStorage (key : Bytes32) : Mirrors (Ethereum.getStorage a key) := by
  intro st ref h
  have hrecent := h.recent_eq a
  unfold Ethereum.getStorage
  rw [← h.original_eq]
  cases hs : st.current.lookup a with
  | none =>
    rw [hs] at hrecent
    rw [Option.map_eq_none_iff.mp hrecent.symm]
    cases st.original.lookup a with
    | none => exact .fail
    | some o =>
      cases hacc : o.account with
      | none => simpa [hacc] using Reading.Same.fail
      | some account => simpa [hacc] using originalStorage a account.incarnation key st ref h
  | some s =>
    rw [hs] at hrecent
    obtain ⟨p, hp, hrec⟩ := Option.map_eq_some_iff.mp hrecent.symm
    simp only [hp, hrec]
    cases s.recent.account with
    | none => exact .fail
    | some account =>
      cases s.recent.storage.lookup key with
      | some value => exact .done ⟨rfl, h⟩
      | none =>
        cases st.original.lookup a with
        | none => exact .fail
        | some o =>
          cases hacc : o.account with
          | none => simpa [hacc] using Reading.Same.done ⟨rfl, h⟩
          | some originalAccount =>
            by_cases heq : account.incarnation = originalAccount.incarnation
            · simpa [hacc, heq] using originalStorage a originalAccount.incarnation key st ref h
            · simpa [hacc, heq] using Reading.Same.done ⟨rfl, h⟩

theorem setStorage (key value : Bytes32) : Mirrors (Ethereum.setStorage a key value) := by
  refine (currentAccountState a .keep).bind fun _ => (recentAccountState a).bind fun x => ?_
  cases x.account with
  | none => exact abort
  | some account => exact (originalStorage a account.incarnation key).bind fun _ => currentAccountState a _

end

theorem readCode (hash : Bytes32) : Mirrors (Ethereum.readCode hash) := by
  intro st ref h
  unfold Ethereum.readCode
  rw [← h.code_eq]
  cases st.code.lookup hash with
  | some code => exact .done ⟨rfl, h⟩
  | none =>
    refine .ask fun answer => ?_
    cases answer with
    | none => exact .fail
    | some code => exact .done ⟨rfl, h⟩

theorem setCode (keccak : Bytes → Bytes32) (a : Address) (code : Bytes) :
    Mirrors (Ethereum.setCode keccak a code) := by
  refine (currentAccountState a .keep).bind fun _ => (recentAccountState a).bind fun x => ?_
  cases x.account.isSome with
  | false => exact pure ()
  | true => exact (modifyState fun _ _ h => h.insertCode _ _).bind fun _ => currentAccountState a _

theorem recordBalanceConstraintForDebit (a : Address) (debit : Nat) :
    Mirrors (Ethereum.recordBalanceConstraintForDebit a debit) := by
  refine (recentAccountState a).bind fun x => (originalAccountState a).bind fun o => ?_
  by_cases hd : debit ≤ x.getBalance
  · rw [if_pos hd]
    by_cases ho : x.getBalance - debit < o.getBalance
    · simpa [ho] using (setOriginal a _).bind fun _ => pure true
    · simpa [ho] using pure true
  · rw [if_neg hd]
    exact (setValidateExactBalance a).bind fun _ => pure false

theorem isTouched (a : Address) : Mirrors (Ethereum.isTouched a) := by
  intro st ref h
  refine .done ⟨?_, h⟩
  have hrecent := h.recent_eq a
  cases hs : st.current.lookup a with
  | none =>
    rw [hs] at hrecent
    rw [Option.map_eq_none_iff.mp hrecent.symm]
  | some s =>
    rw [hs] at hrecent
    obtain ⟨p, hp, hrec⟩ := Option.map_eq_some_iff.mp hrecent.symm
    rw [hp]
    simp [hrec]

/-- Everything but the frame operations. -/
theorem exec (keccak : Bytes → Bytes32) {c : Call} (hc : c.isFrame = false) : Mirrors (c.exec keccak) := by
  cases c with
  | observe a o => exact (recentAccountState a).bind fun _ => getIncarnation.bind fun _ => pure _
  | isTouched a => exact isTouched a
  | getBalance a => exact (recentAccountState a).bind fun _ => (setValidateExactBalance a).bind fun _ => pure _
  | getOriginalBalance a =>
    exact (originalAccountState a).bind fun _ => (setValidateExactBalance a).bind fun _ => pure _
  | getOriginalCodeHash a => exact (originalAccountState a).bind fun _ => pure _
  | recordBalanceConstraintForDebit a debit => exact recordBalanceConstraintForDebit a debit
  | getStorage a key => exact getStorage a key
  | edit a e _ => exact currentAccountState a e
  | setStorage a key value => exact setStorage a key value
  | setCode a code => exact setCode keccak a code
  | readCode hash => exact readCode hash
  | logs => exact fun _ _ h => .done ⟨h.logs_recent, h⟩
  | storeLog log => exact fun _ _ h => .done ⟨rfl, h.storeLog log⟩
  | push | popAccept | popReject => cases hc

end Mirrors

/-! ## Programs on both sides -/

variable {α : Type}

/-- Outside the frame operations the reference runs the same method on its plain state. -/
theorem Snapshots.exec_plain (keccak : Bytes → Bytes32) {c : Call} (hc : c.isFrame = false) (ref : Snapshots) :
    ref.exec keccak c = c.exec keccak ref.plain >>= fun y => .done (y.1, { ref with plain := y.2 }) := by
  cases c with
  | push | popAccept | popReject => cases hc
  | _ => rfl

variable {st : State} {ref : Snapshots}

theorem exec_same (keccak : Bytes → Bytes32) (c : Call) (h : Refines st ref) :
    Reading.Same (fun y z => y.1 = z.1 ∧ Refines y.2 z.2) (c.exec keccak st) (ref.exec keccak c) := by
  have hpl : c.isFrame = false → Reading.Same (fun y z => y.1 = z.1 ∧ Refines y.2 z.2)
      (c.exec keccak st) (ref.exec keccak c) := by
    intro hc
    have hbind := (Mirrors.exec keccak hc st ref h).bind (S := fun y z => y.1 = z.1 ∧ Refines y.2 z.2)
      (f := fun y => .done y) (g := fun y => .done (y.1, { ref with plain := y.2 }))
      fun _ _ hyz => .done hyz
    have hright : (c.exec keccak st >>= fun y => .done y) = c.exec keccak st := by
      induction c.exec keccak st with
      | done y => rfl
      | fail => rfl
      | ask q next ih => exact congrArg (Reading.ask q) (funext ih)
    rwa [hright, ← Snapshots.exec_plain keccak hc] at hbind
  cases c with
  | push => exact .done ⟨rfl, h.push⟩
  | popAccept =>
    show Reading.Same _ (popAccept st) _
    unfold popAccept
    rw [Snapshots.exec_popAccept]
    cases hd : st.dirty with
    | nil =>
      rw [h.saved_nil hd]
      exact .fail
    | cons frame rest =>
      obtain ⟨f, more, hsaved, -⟩ := h.exists_saved hd
      rw [hsaved]
      simp only [h.frame_loaded hd, if_true]
      exact .done ⟨trivial, h.accept hd hsaved⟩
  | popReject =>
    show Reading.Same _ (popReject st) _
    unfold popReject
    rw [Snapshots.exec_popReject]
    cases hd : st.dirty with
    | nil =>
      rw [h.saved_nil hd]
      exact .fail
    | cons frame rest =>
      obtain ⟨f, more, hsaved, -⟩ := h.exists_saved hd
      have hpos : 0 < st.version := Refines.version_cons hd ▸ succ_pos _
      obtain ⟨logs, hlogs⟩ := h.exists_logs hpos
      rw [hsaved]
      simp only [h.frame_loaded hd, if_true, hlogs]
      exact .done ⟨trivial, h.reject hd hsaved hlogs⟩
  | _ => exact hpl rfl

theorem run_same (keccak : Bytes → Bytes32) (p : Program α) (h : Refines st ref) :
    Reading.Same (fun y z => y.1 = z.1 ∧ Refines y.2 z.2) (p.run keccak st) (Snapshots.run keccak p ref) := by
  induction p generalizing st ref with
  | ret x => exact .done ⟨rfl, h⟩
  | call c next ih =>
    refine (exec_same keccak c h).bind ?_
    rintro ⟨r, st'⟩ ⟨r', ref'⟩ ⟨rfl, h'⟩
    exact ih r h'

/-- Everything a caller can see of a state: the recorded originals with their slots, the present record
of every address (account, slots, transient storage, accesses, marks), the logs, the codes and the
number of open frames. -/
structure SameObservables (st : State) (ref : Snapshots) : Prop where
  originals : st.original = ref.plain.original
  records : ∀ a, (st.current.lookup a).map VersionStack.recent = (ref.plain.current.lookup a).map VersionStack.recent
  logs : st.logs.recent = ref.plain.logs.recent
  codes : st.code = ref.plain.code
  frames : st.version = ref.saved.length

theorem Refines.observables (h : Refines st ref) : SameObservables st ref where
  originals := h.original_eq
  records := h.recent_eq
  logs := h.logs_recent
  codes := h.code_eq
  frames := h.depth_eq

/-- On every block state, every program either stops at a failed assertion on both, or returns the same on
both, with the same observables and the same block state. -/
theorem serve_same (keccak : Bytes → Bytes32) (bs : BlockState) (incarnation : Incarnation) (relaxed : Bool)
    (p : Program α) : Option.Rel (fun y z => (y.1.1 = z.1.1 ∧ SameObservables y.1.2 z.1.2) ∧ y.2 = z.2)
      ((p.run keccak { incarnation := incarnation, relaxedValidation := relaxed }).serve BlockState.answer bs)
      ((Snapshots.run keccak p
        { plain := { incarnation := incarnation, relaxedValidation := relaxed } }).serve BlockState.answer bs) := by
  have hserve := (run_same keccak p (refines_fresh incarnation relaxed)).serve BlockState.answer bs
  revert hserve
  generalize (p.run keccak { incarnation := incarnation, relaxedValidation := relaxed }).serve
    BlockState.answer bs = x
  generalize (Snapshots.run keccak p
    { plain := { incarnation := incarnation, relaxedValidation := relaxed } }).serve BlockState.answer bs = y
  intro hserve
  cases hserve with
  | none => exact .none
  | some h => exact .some ⟨⟨h.1.1, h.1.2.observables⟩, h.2⟩

end MonadExecution.Ethereum
