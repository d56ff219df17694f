import MonadExecution.Ethereum.ExecuteTransaction
import MonadExecution.Ethereum.Journal
import MonadExecution.Staking.Basic

/-!
# Reserve balances

On Monad a state also tracks which accounts have gone below their reserve. `ReserveBalance` is told of
credits, debits, new codes and rejected frames, and then asks the state for balances and codes. What it asks
is recorded in the originals like everything else. A program with its tracker is again a program, so that the
journal behaves like snapshots with the tracker as well; but the originals are not left alone by `pop_reject`,
because an account whose balance the tracker has asked for must be merged with exactly this balance.

The addresses of a frame are a list here, and a hash set in the source.
-/

namespace MonadExecution.Ethereum

open Gas (isDelegated)
open Staking (stakingCa)

/-! ## The tracker -/

/-- No threshold is `std::nullopt`, or no entry. -/
structure ReserveBalance where
  trackingEnabled : Bool := false
  useRecentCodeHash : Bool := false
  allowInitSelfdestructExemption : Bool := false
  sender : Address := 0
  senderGasFees : Nat := 0
  senderCanDip : Bool := false
  getMaxReserve : Address → Nat := fun _ => 0
  violationThresholds : Address → Option Nat := fun _ => none
  failed : List Address := []

namespace ReserveBalance

variable (rb : ReserveBalance) (a : Address)

def setThreshold (threshold : Option Nat) : ReserveBalance :=
  { rb with violationThresholds := Function.update rb.violationThresholds a threshold }

/-- The account has failed, or it has not. -/
def setFailed (fails : Bool) : ReserveBalance :=
  { rb with failed := if fails then rb.failed.insert a else rb.failed.erase a }

def effectiveCodeHash : Program Bytes32 := do
  let original ← Program.run1 (.getOriginalCodeHash a)
  if rb.useRecentCodeHash then getCodeHash a else pure original

def subjectAccount : Program Bool :=
  if a = stakingCa then pure false
  else do
    let hash ← effectiveCodeHash rb a
    if hash = nullHash then pure true
    else do
      let code ← Program.run1 (.readCode hash)
      pure (isDelegated code)

def pretxReserve : Program Nat := do
  let balance ← Program.run1 (.getOriginalBalance a)
  pure (min (rb.getMaxReserve a) balance)

/-- The threshold of `update_violation_status`; nothing if the sender cannot pay for its gas. -/
def violationThreshold : Program (Option Nat) :=
  match rb.violationThresholds a with
  | some threshold => pure (some threshold)
  | none => do
    if ← subjectAccount rb a then
      let reserve ← pretxReserve rb a
      if a = rb.sender then
        pure (if rb.senderCanDip then some 0
          else if reserve < rb.senderGasFees then none else some (reserve - rb.senderGasFees))
      else pure (some reserve)
    else pure (some 0)

/-- An account that is destructed while it is created. -/
def isExempt : Program Bool :=
  if rb.allowInitSelfdestructExemption then do
    if ← isDestructed a then isCurrentIncarnation a else pure false
  else pure false

def updateViolationStatus : Program ReserveBalance :=
  if rb.trackingEnabled then do
    if ← isExempt rb a then pure ((rb.setThreshold a (some 0)).setFailed a false)
    else
      match ← violationThreshold rb a with
      | none => pure ((rb.setThreshold a none).setFailed a true)
      | some 0 => pure ((rb.setThreshold a (some 0)).setFailed a false)
      | some threshold => do
        let balance ← Program.run1 (.getBalance a)
        pure ((rb.setThreshold a (some threshold)).setFailed a (decide (balance < threshold)))
  else pure rb

def onCredit : Program ReserveBalance :=
  if rb.trackingEnabled && rb.failed.contains a then updateViolationStatus rb a else pure rb

def onDebit : Program ReserveBalance := updateViolationStatus rb a

def onPopReject : List Address → ReserveBalance → Program ReserveBalance
  | [], rb => pure rb
  | a :: accounts, rb =>
    if rb.trackingEnabled then do
      let rb ← updateViolationStatus (rb.setThreshold a none) a
      onPopReject accounts rb
    else pure rb

def onSetCode (code : Bytes) : Program ReserveBalance :=
  if rb.trackingEnabled && rb.useRecentCodeHash then
    if !code.isEmpty && !isDelegated code then pure ((rb.setThreshold a (some 0)).setFailed a false)
    else updateViolationStatus (rb.setThreshold a none) a
  else pure rb

/-- The hook of a change of an account. -/
def onEdit : (e : Edit) → e.Reply → Program ReserveBalance
  | .addToBalance _, .ok () => onCredit rb a
  | .subtractFromBalance _, .ok () => onDebit rb a
  | .destruct, _ => onDebit rb a
  | _, _ => pure rb

/-- The hook of a call, when `frame` are the addresses of the frame it is made in. -/
def onCall (frame : List Address) : (c : Call) → c.Reply → Program ReserveBalance
  | .edit a e _, reply => onEdit rb a e reply
  | .setCode a code, _ => do
    -- without an account `set_code` has returned before
    if ← accountExists a then onSetCode rb a code else pure rb
  | .popReject, _ => onPopReject frame rb
  | _, _ => pure rb

end ReserveBalance

/-! ## Programs with a tracker -/

/-- A tracker, and the addresses that its hook is given for the frames that will be rejected, in their order. -/
structure Tracker where
  reserve : ReserveBalance
  rejected : List (List Address)

/-- A program in which every call is followed by its hook. -/
def tracked {α : Type} : Program α → Tracker → Program (α × Tracker)
  | .ret x, t => .ret (x, t)
  | .call c next, t => .call c fun reply =>
    (t.reserve.onCall (t.rejected.headD []) c reply).bind fun reserve =>
      tracked (next reply) ⟨reserve, match c with
        | .popReject => t.rejected.tail
        | _ => t.rejected⟩

/-- `pop_reject` with its hook. -/
def popRejectTracked (keccak : Bytes → Bytes32) (rb : ReserveBalance) : Method ReserveBalance := fun st =>
  popReject st >>= fun y => (ReserveBalance.onPopReject (st.dirty.headD []) rb).run keccak y.2

/-! ## What the tracker does to the state -/

abbrev Answers := (q : Query) → q.Answer

variable {α β : Type} {v : Answers} {st st' st'' : State} {keccak : Bytes → Bytes32} {a : Address}

/-- The calls of the hooks. -/
def Call.isReading : Call → Bool
  | .observe .. | .getBalance _ | .getOriginalBalance _ | .getOriginalCodeHash _ | .readCode _ => true
  | _ => false

inductive Reads : Program α → Prop
  | ret (x : α) : Reads (.ret x)
  | call {c : Call} {next : c.Reply → Program α} (hc : c.isReading = true) (h : ∀ r, Reads (next r)) :
    Reads (.call c next)

theorem Reads.run1 {c : Call} (hc : c.isReading = true) : Reads (Program.run1 c) := .call hc fun r => .ret r

theorem Reads.bind {p : Program α} {f : α → Program β} (h : Reads p) (hf : ∀ x, Reads (f x)) : Reads (p.bind f) := by
  induction h with
  | ret x => exact hf x
  | call hc _ ih => exact .call hc ih

theorem Reads.ite {c : Prop} [Decidable c] {p q : Program α} (hp : Reads p) (hq : Reads q) :
    Reads (if c then p else q) := by
  split
  · exact hp
  · exact hq

namespace ReserveBalance

variable (rb : ReserveBalance)

theorem reads_subjectAccount : Reads (subjectAccount rb a) := by
  refine .ite (.ret _) (.bind (.bind (.run1 rfl) fun original => .ite (.run1 rfl) (.ret _)) fun hash => ?_)
  exact .ite (.ret _) (.bind (.run1 rfl) fun code => .ret _)

theorem reads_violationThreshold : Reads (violationThreshold rb a) := by
  unfold violationThreshold
  cases rb.violationThresholds a with
  | some threshold => exact .ret _
  | none =>
    refine .bind (reads_subjectAccount rb) fun subject => .ite ?_ (.ret _)
    exact .bind (.bind (.run1 rfl) fun _ => .ret _) fun reserve => .ite (.ret _) (.ret _)

theorem reads_updateViolationStatus : Reads (updateViolationStatus rb a) := by
  refine .ite (.bind (.ite (.bind (.run1 rfl) fun _ => .ite (.run1 rfl) (.ret _)) (.ret _)) fun exempt => ?_) (.ret _)
  refine .ite (.ret _) (.bind (reads_violationThreshold rb) fun threshold => ?_)
  match threshold with
  | none => exact .ret _
  | some 0 => exact .ret _
  | some (n + 1) => exact .bind (.run1 rfl) fun balance => .ret _

theorem reads_onPopReject (accounts : List Address) : Reads (onPopReject accounts rb) := by
  induction accounts generalizing rb with
  | nil => exact .ret _
  | cons a accounts ih => exact .ite (.bind (reads_updateViolationStatus _) fun rb => ih rb) (.ret _)

end ReserveBalance

/-- Originals have been added, and others must be merged with their exact balance. -/
structure Marked (st st' : State) : Prop where
  dirty : st'.dirty = st.dirty
  originals : ∀ b o, st.original.lookup b = some o →
    ∃ exact, st'.original.lookup b = some { o with validateExactBalance := exact }

theorem Marked.refl (st : State) : Marked st st := ⟨rfl, fun _ o h => ⟨o.validateExactBalance, h⟩⟩

theorem Marked.trans (h : Marked st st') (h' : Marked st' st'') : Marked st st'' where
  dirty := h'.dirty.trans h.dirty
  originals := by
    intro b o hb
    obtain ⟨_, hb⟩ := h.originals b o hb
    obtain ⟨exact, hb⟩ := h'.originals b _ hb
    exact ⟨exact, hb⟩

/-- What a method that completes does. -/
def Marks (m : Method α) : Prop := ∀ (v : Answers) (st : State) (x : α) (st' : State),
  (m st).answer v = some (x, st') → Marked st st'

theorem Marks.bind {m : Method α} {f : α → Method β} (hm : Marks m) (hf : ∀ x, Marks (f x)) : Marks (m >>= f) := by
  intro v st y st'' h
  rw [Method.bind_run, Reading.answer_bind] at h
  obtain ⟨⟨x, st'⟩, hx, h⟩ := Option.bind_eq_some_iff.mp h
  exact (hm v st x st' hx).trans (hf x v st' y st'' h)

theorem Marks.pure (x : α) : Marks (pure x : Method α) := by
  intro v st y st' h
  cases h
  exact .refl st

theorem marks_originalAccountState : Marks (originalAccountState a) := by
  intro v st x st' h
  unfold originalAccountState at h
  cases ha : st.original.lookup a with
  | some o =>
    rw [ha] at h
    cases h
    exact .refl st
  | none =>
    rw [ha] at h
    cases h
    refine ⟨rfl, fun b o hb => ⟨o.validateExactBalance, ?_⟩⟩
    have hne : b ≠ a := by
      rintro rfl
      rw [ha] at hb
      cases hb
    rwa [AList.lookup_insert_ne hne]

theorem marks_recentAccountState : Marks (recentAccountState a) := by
  intro v st x st' h
  unfold recentAccountState at h
  cases ha : st.current.lookup a with
  | some s =>
    rw [ha] at h
    cases h
    exact .refl st
  | none =>
    rw [ha] at h
    rw [Reading.answer_bind] at h
    obtain ⟨⟨o, st₁⟩, ho, h⟩ := Option.bind_eq_some_iff.mp h
    cases h
    exact marks_originalAccountState v st o st₁ ho

/-- The original that is returned is the recorded one. -/
theorem lookup_of_original {o : OriginalAccountState} (h : (originalAccountState a st).answer v = some (o, st')) :
    st'.original.lookup a = some o := by
  unfold originalAccountState at h
  cases ha : st.original.lookup a with
  | some o' =>
    rw [ha] at h
    cases h
    exact ha
  | none =>
    rw [ha] at h
    cases h
    exact AList.lookup_insert _

theorem marks_setValidateExactBalance : Marks (setValidateExactBalance a) := by
  intro v st x st' h
  unfold setValidateExactBalance at h
  rw [Method.bind_run, Reading.answer_bind] at h
  obtain ⟨⟨o, st₁⟩, ho, h⟩ := Option.bind_eq_some_iff.mp h
  cases h
  refine (marks_originalAccountState v st o st₁ ho).trans ⟨rfl, fun b o' hb => ?_⟩
  by_cases hba : b = a
  · rw [hba, lookup_of_original ho] at hb
    cases hb
    rw [hba]
    exact ⟨true, AList.lookup_insert _⟩
  · refine ⟨o'.validateExactBalance, ?_⟩
    show (st₁.original.insert a _).lookup b = _
    rwa [AList.lookup_insert_ne hba]

theorem marks_exec {c : Call} (hc : c.isReading = true) : Marks (c.exec keccak) := by
  cases c with
  | observe a o =>
    refine marks_recentAccountState.bind fun x => ?_
    intro v st y st' h
    cases h
    exact .refl st
  | getBalance a => exact marks_recentAccountState.bind fun x => marks_setValidateExactBalance.bind fun _ => .pure _
  | getOriginalBalance a =>
    exact marks_originalAccountState.bind fun o => marks_setValidateExactBalance.bind fun _ => .pure _
  | getOriginalCodeHash a => exact marks_originalAccountState.bind fun o => .pure _
  | readCode hash =>
    intro v st x st' h
    change (readCode hash st).answer v = _ at h
    unfold readCode at h
    cases hcode : st.code.lookup hash with
    | some code =>
      rw [hcode] at h
      cases h
      exact .refl st
    | none =>
      rw [hcode, Reading.answer_ask] at h
      cases hanswer : v (.code hash) with
      | none =>
        rw [hanswer] at h
        cases h
      | some code =>
        rw [hanswer] at h
        cases h
        exact .refl st
  | _ => cases hc

theorem Reads.marks {p : Program α} (h : Reads p) : Marks (p.run keccak) := by
  induction h with
  | ret x => exact .pure x
  | call hc _ ih => exact (marks_exec hc).bind ih

/-! ## The journal with a tracker -/

theorem popReject_original (h : (popReject st).answer v = some ((), st')) : st'.original = st.original := by
  unfold popReject at h
  split at h
  · cases h
  split at h
  · split at h
    · cases h
      rfl
    · cases h
  · cases h

section PopReject

variable {rb rb' : ReserveBalance} (h : (popRejectTracked keccak rb st).answer v = some (rb', st'))

include h

/-- The recorded originals are kept, up to the mark that the balance must be exact. -/
theorem marks_popRejectTracked : ∀ b o, st.original.lookup b = some o →
    ∃ exact, st'.original.lookup b = some { o with validateExactBalance := exact } := by
  unfold popRejectTracked at h
  rw [Reading.answer_bind] at h
  obtain ⟨⟨_, st₁⟩, hpop, h⟩ := Option.bind_eq_some_iff.mp h
  have hmarked := (ReserveBalance.reads_onPopReject rb _).marks v st₁ rb' st' h
  intro b o hb
  exact hmarked.originals b o (by rwa [popReject_original hpop])

theorem original_of_not_tracking (hoff : rb.trackingEnabled = false) : st'.original = st.original := by
  unfold popRejectTracked at h
  rw [Reading.answer_bind] at h
  obtain ⟨⟨_, st₁⟩, hpop, h⟩ := Option.bind_eq_some_iff.mp h
  have hhook : ReserveBalance.onPopReject (st.dirty.headD []) rb = .ret rb := by
    cases st.dirty.headD [] with
    | nil => rfl
    | cons a accounts =>
      unfold ReserveBalance.onPopReject
      rw [hoff]
      rfl
  rw [hhook] at h
  cases h
  exact popReject_original hpop

end PopReject

/-- **The journal behaves like snapshots.** On every block state, every program with any tracker, whatever addresses
its hook is given, either stops at a failed assertion on both, or returns the same on both, with the same
observables and the same block state; and closing a frame leaves the recorded originals as they are, apart from the marks of the tracker. -/
theorem journal_refines_snapshots (keccak : Bytes → Bytes32) (bs : BlockState) (incarnation : Incarnation)
    (relaxed : Bool) (p : Program α) (rb : ReserveBalance) (rejected : List (List Address)) :
    Option.Rel (fun y z => (y.1.1 = z.1.1 ∧ SameObservables y.1.2 z.1.2) ∧ y.2 = z.2)
      (((tracked p ⟨rb, rejected⟩).run keccak { incarnation := incarnation, relaxedValidation := relaxed }).serve
        BlockState.answer bs)
      ((Snapshots.run keccak (tracked p ⟨rb, rejected⟩)
        { plain := { incarnation := incarnation, relaxedValidation := relaxed } }).serve BlockState.answer bs) ∧
    ∀ (v : Answers) (st st' : State) (rb' : ReserveBalance),
      (popRejectTracked keccak rb st).answer v = some (rb', st') →
      (∀ b o, st.original.lookup b = some o →
        ∃ exact, st'.original.lookup b = some { o with validateExactBalance := exact }) ∧
      (rb.trackingEnabled = false → st'.original = st.original) :=
  ⟨serve_same keccak bs incarnation relaxed (tracked p ⟨rb, rejected⟩),
    fun _ _ _ _ h => ⟨marks_popRejectTracked h, original_of_not_tracking h⟩⟩

/-- Every account has a balance of 10, and no code. -/
def tenEach : Answers
  | .account _ => some { balance := 10 }
  | .storage .. => (0 : Bytes32)
  | .code _ => some ([] : Bytes)

def creditInFrame : Program (Except MonadException Unit) := do
  Program.run1 .push
  addToBalance 1 3

/-- An account is credited in a frame that is rejected; the tracker asks for its original balance then. -/
theorem popReject_marks_original : ∃ reply st st' rb',
    (creditInFrame.run (fun _ => 0) { incarnation := ⟨0, 0⟩ }).answer tenEach = some (reply, st) ∧
    (popRejectTracked (fun _ => 0) { trackingEnabled := true, getMaxReserve := fun _ => 5 } st).answer tenEach =
      some (rb', st') ∧
    (st.original.lookup 1).map (·.validateExactBalance) = some false ∧
    (st'.original.lookup 1).map (·.validateExactBalance) = some true := by
  have hrun : (((creditInFrame.run (fun _ => 0) { incarnation := ⟨0, 0⟩ }).answer tenEach).bind fun y =>
      ((popRejectTracked (fun _ => 0) { trackingEnabled := true, getMaxReserve := fun _ => 5 } y.2).answer tenEach).map
        fun z => ((y.2.original.lookup 1).map (·.validateExactBalance),
          (z.2.original.lookup 1).map (·.validateExactBalance))) = some (some false, some true) := by decide +kernel
  obtain ⟨⟨reply, st⟩, hcredit, hrun⟩ := Option.bind_eq_some_iff.mp hrun
  obtain ⟨⟨rb', st'⟩, hpop, hmarks⟩ := Option.map_eq_some_iff.mp hrun
  obtain ⟨hbefore, hafter⟩ := Prod.mk.inj hmarks
  exact ⟨reply, st, st', rb', hcredit, hpop, hbefore, hafter⟩

end MonadExecution.Ethereum
