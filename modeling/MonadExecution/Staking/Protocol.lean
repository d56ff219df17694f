import MonadExecution.Staking.Ledger
import MonadExecution.Staking.Roster

/-!
# Runs of one pool

Every call of a run is an operation on every pool, a failed call the idle one. An invariant of pools
that the operations preserve therefore holds of every pool after any calls. If the run keeps to the
protocol, the operations that consensus causes come in their order, and a pool may rely on that.
-/

namespace MonadExecution.Staking

open Program Registry

namespace Pool

variable {ι κ : Type}

/-- A pool that nothing has happened to. -/
def empty : Pool ι κ where
  epoch := 0
  inDelay := false
  consensus := 0
  snapshot := 0
  stake := 0
  acc := 0
  unclaimed := 0
  del := fun _ => {}
  request := fun _ => {}
  cell := fun _ => {}
  settlements := fun _ => 0
  payouts := fun _ => 0

/-- The operations that keep to the protocol. The first epoch may be any; until then no validator
set is frozen. From then on a snapshot is taken in every epoch, and the epochs are consecutive. The
cells are refreshed for the validators of the ending epoch, and only pools with stake are chosen. -/
def Lawful (p : Pool ι κ) : Op ι κ → Prop
  | .changeEpoch next listed =>
    p.epoch = 0 ∧ p.inDelay = false ∧ p.consensus = 0 ∧ p.snapshot = 0 ∨
      p.epoch ≠ 0 ∧ p.inDelay = true ∧ next = p.epoch + 1 ∧ (listed = true ↔ p.snapshot ≠ 0)
  | .takeSnapshot _ => p.epoch ≠ 0
  | _ => True

end Pool

section Runs

variable (rev : MonadRevision) (crypto : Crypto)

/-- The operation that a call is for the pool of `v`. -/
def calledOp (c : Call) (w : World) (v : ValId) : Pool.Op Address WithdrawalId :=
  match (exec rev crypto c w).1 with
  | .ok _ => (c.action rev).op w v
  | .error _ => .idle

variable {c : Call} {calls : List Call} {w : World}

theorem pool_error {e : Error} (h : (exec rev crypto c w).1 = .error e) (v : ValId) :
    (exec rev crypto c w).2.pool v = w.pool v := by
  rw [(exec_error rev crypto w h).2.2]
  rfl

theorem step_calledOp (c : Call) (calls : List Call) (v : ValId) :
    Pool.Step (calledOp rev crypto c (after rev crypto calls) v) ((after rev crypto calls).pool v)
      ((after rev crypto (c :: calls)).pool v) := by
  rw [after, calledOp]
  cases h : (exec rev crypto c (after rev crypto calls)).1 with
  | ok out => exact (exec_ok rev crypto _ h).step (roster_after rev crypto calls) v
  | error e =>
    rw [pool_error rev crypto h]
    exact .idle

/-- What holds of a fresh pool and is kept by every operation holds of every pool after any
calls. -/
theorem pool_after {P : Pool Address WithdrawalId → Prop} (h0 : P Pool.empty)
    (hstep : ∀ {op p p'}, Pool.Step op p p' → P p → P p') (calls : List Call) (v : ValId) :
    P ((after rev crypto calls).pool v) := by
  induction calls with
  | nil => exact h0
  | cons c calls ih => exact hstep (step_calledOp rev crypto c calls v) ih

theorem epoch_after_cons (c : Call) (calls : List Call) :
    (after rev crypto calls).epoch ≤ (after rev crypto (c :: calls)).epoch :=
  Pool.epoch_step (step_calledOp rev crypto c calls 0)

/-! Epochs are counted with 64 bits. An invariant that needs the epochs not to wrap around holds as
long as the next two epochs exist. -/

/-- The epochs that a call made now can refer to exist. -/
def World.EpochsExist (w : World) : Prop := w.epoch + 2 < uint64Size

theorem epochsExist_tail (h : (after rev crypto (c :: calls)).EpochsExist) :
    (after rev crypto calls).EpochsExist := by
  have := epoch_after_cons rev crypto c calls
  unfold World.EpochsExist at *
  omega

theorem World.EpochsExist.horizon (h : w.EpochsExist) (v : ValId) : (w.pool v).horizon < uint64Size :=
  (Pool.horizon_le _).trans_lt h

/-- As long as the epochs exist, the stake of every pool is what its delegators hold. -/
theorem ledger_after (h : (after rev crypto calls).EpochsExist) (v : ValId) :
    ((after rev crypto calls).pool v).Ledger := by
  induction calls with
  | nil =>
    refine ⟨fun a => ⟨fun _ => rfl, fun _ => rfl⟩, ?_, by show 0 < uint256Size; unfold uint256Size; norm_num⟩
    exact (Finset.sum_eq_zero fun a _ => rfl).symm
  | cons c calls ih =>
    exact (ih (epochsExist_tail rev crypto h)).step (step_calledOp rev crypto c calls v) (h.horizon v)

/-! ## The phases of the protocol -/

/-- What a phase of the protocol tells about the state. -/
def Phase.Holds (w : World) : Phase → Prop
  | .genesis => w.epoch = 0 ∧ w.inEpochDelayPeriod = false ∧ w.valsetConsensus = [] ∧ w.valsetSnapshot = []
  | .beforeSnapshot => w.epoch ≠ 0 ∧ w.inEpochDelayPeriod = false
  | .delay => w.epoch ≠ 0 ∧ w.inEpochDelayPeriod = true

theorem conforms_cons (h : Conforms rev crypto (c :: calls)) :
    ∃ phase phase', phaseAfter rev crypto calls = some phase ∧
      nextPhase phase (after rev crypto calls) c = some phase' ∧
      phaseAfter rev crypto (c :: calls) = some phase' := by
  unfold Conforms at h
  obtain ⟨phase', hph'⟩ := Option.isSome_iff_exists.mp h
  have hbind := hph'
  rw [phaseAfter, Option.bind_eq_some_iff] at hbind
  obtain ⟨phase, hphase, hnext⟩ := hbind
  exact ⟨phase, phase', hphase, hnext, hph'⟩

theorem conforms_tail (h : Conforms rev crypto (c :: calls)) : Conforms rev crypto calls := by
  obtain ⟨phase, _, hphase, -, -⟩ := conforms_cons rev crypto h
  rw [Conforms, hphase]
  rfl

end Runs

/-- Consensus causes these two actions. -/
def Action.byConsensus : Action → Bool
  | .changeEpoch _ | .takeSnapshot => true
  | _ => false

/-- What the other actions leave alone in the registry. -/
structure Registry.SameSets (r r' : Registry) : Prop where
  epoch : r'.epoch = r.epoch
  inDelay : r'.inDelay = r.inDelay
  valsetConsensus : r'.valsetConsensus = r.valsetConsensus
  valsetSnapshot : r'.valsetSnapshot = r.valsetSnapshot
  consensusView : r'.consensusView = r.consensusView
  snapshotView : r'.snapshotView = r.snapshotView

theorem Registry.SameSets.refl (r : Registry) : r.SameSets r := ⟨rfl, rfl, rfl, rfl, rfl, rfl⟩

theorem sameSets_raise (v : ValId) (x y : Bool) (r : Registry) : r.SameSets (r.raise v x y) := by
  unfold raise
  dsimp only
  split_ifs <;> exact ⟨rfl, rfl, rfl, rfl, rfl, rfl⟩

section Calls

variable {rev : MonadRevision} {w w' : World} {act : Action}

theorem Effect.sameSets (he : Effect rev w act w') (hact : act.byConsensus = false) :
    w.registry.SameSets w'.registry := by
  cases he with
  | snapshot hd => cases hact
  | performed step registry balance commission =>
    generalize w'.registry = r' at registry ⊢
    cases registry with
    | changeEpoch => cases hact
    | idle | pull | withdraw | claim | externalReward | blockReward => exact .refl _
    | changeCommission | undelegate => exact ⟨rfl, rfl, rfl, rfl, rfl, rfl⟩
    | addValidator hv hv' hs hc ha => exact { sameSets_raise _ _ _ _ with }
    | delegate ha hv => exact sameSets_raise _ _ _ _
    | compound hr =>
      rcases hr with ⟨-, rfl⟩ | ⟨-, -, rfl⟩
      · exact .refl _
      · exact sameSets_raise _ _ _ _

theorem lawful_opAt {p : Pool Address WithdrawalId} {u v : ValId} {op : Pool.Op Address WithdrawalId}
    (h : p.Lawful op) : p.Lawful (opAt u v op) := by
  unfold opAt
  split_ifs
  · exact h
  · trivial

theorem lawful_of_byConsensus (w : World) (u : ValId) (hact : act.byConsensus = false) :
    (w.pool u).Lawful (act.op w u) := by
  cases act with
  | changeEpoch next => cases hact
  | takeSnapshot => cases hact
  | idle | changeCommission => trivial
  | _ => exact lawful_opAt trivial

theorem byConsensus_decoded {α : Type} {x : Except Error α} {f : α → Action}
    (h : ∀ y, (f y).byConsensus = false) : (decoded x f).byConsensus = false := by
  match x with
  | .ok y => exact h y
  | .error _ => rfl

theorem byConsensus_precompile (rev : MonadRevision) (input : Bytes) (sender : Address) (value gas : Nat) :
    ((Call.precompile input sender value gas).action rev).byConsensus = false := by
  simp only [Call.action]
  generalize (precompileDispatch rev input).1.1 = method
  cases method with
  | delegate | undelegate =>
    refine byConsensus_decoded fun y => ?_
    split_ifs <;> rfl
  | addValidator | compound | withdraw | claimRewards | changeCommission | externalReward
  | getDelegator => exact byConsensus_decoded fun _ => rfl
  | _ => rfl

end Calls

section System

variable (rev : MonadRevision) (crypto : Crypto) {w : World} {calldata input : Bytes}

theorem action_system (value : Nat) {syscall : Option Syscall} (hlen : ¬ calldata.length < 4)
    (hdis : syscallDispatch calldata = (syscall, input)) :
    (Call.system calldata value).action rev = match syscall with
      | some .reward => decoded (decodeAddress input) fun author => .blockReward author value
      | some .snapshot => .takeSnapshot
      | some .onEpochChange => decoded (decodeEpoch input) .changeEpoch
      | none => .idle := by
  simp only [Call.action, if_neg hlen, hdis]
  cases syscall with
  | none => rfl
  | some syscall => cases syscall <;> rfl

/-- The snapshot of the protocol succeeds. -/
theorem exec_snapshot (hlen : ¬ calldata.length < 4) (hdis : syscallDispatch calldata = (some .snapshot, []))
    (hd : w.inEpochDelayPeriod = false) : (exec rev crypto (.system calldata 0) w).1 = .ok .success := by
  refine orRevert_eq_ok ?_
  simp [Call.run, executeStakingSyscall, hlen, hdis, syscallSnapshot, wp_ite, hd]

/-- The epoch change of the protocol succeeds. -/
theorem exec_onEpochChange {next : Nat} (hlen : ¬ calldata.length < 4)
    (hdis : syscallDispatch calldata = (some .onEpochChange, input)) (hnext : decodeEpoch input = .ok next)
    (he : w.epoch < next) : (exec rev crypto (.system calldata 0) w).1 = .ok .success := by
  refine orRevert_eq_ok ?_
  simpa [Call.run, executeStakingSyscall, hlen, hdis, syscallOnEpochChange, wp_ite, hnext] using he

end System

/-! ## Every call of a conforming run is lawful -/

section Conforming

variable {rev : MonadRevision} {crypto : Crypto} {w : World} {c : Call} {phase phase' : Phase}

/-- What a call of the protocol does in its phase. -/
inductive ProtocolStep (rev : MonadRevision) (crypto : Crypto) (w : World) (c : Call) :
    Phase → Phase → Prop
  | other {phase : Phase} (h : (c.action rev).byConsensus = false) : ProtocolStep rev crypto w c phase phase
  | snapshot (hact : c.action rev = .takeSnapshot) (hok : (exec rev crypto c w).1 = .ok .success) :
      ProtocolStep rev crypto w c .beforeSnapshot .delay
  | firstEpoch {next : Nat} (hact : c.action rev = .changeEpoch next) (hnext : next ≠ 0)
      (hok : (exec rev crypto c w).1 = .ok .success) :
      ProtocolStep rev crypto w c .genesis .beforeSnapshot
  | nextEpoch (hact : c.action rev = .changeEpoch (w.epoch + 1)) (hok : (exec rev crypto c w).1 = .ok .success) :
      ProtocolStep rev crypto w c .delay .beforeSnapshot

theorem protocolStep_of_nextPhase (hphase : phase.Holds w) (h : nextPhase phase w c = some phase') :
    ProtocolStep rev crypto w c phase phase' := by
  cases c with
  | precompile input sender value gas =>
    cases h
    exact .other (byConsensus_precompile rev input sender value gas)
  | system calldata value =>
    simp only [nextPhase] at h
    split_ifs at h with hlen
    split at h
    case h_1 input hdis =>
      cases h
      refine .other ?_
      rw [action_system rev value hlen hdis]
      exact byConsensus_decoded fun _ => rfl
    case h_2 input hdis =>
      split_ifs at h with hval
      cases h
      obtain ⟨rfl, rfl⟩ := hval
      exact .snapshot (action_system rev 0 hlen hdis) (exec_snapshot rev crypto hlen hdis hphase.2)
    case h_3 input hdis =>
      split at h
      case h_2 => cases h
      case h_1 next hnext =>
        split_ifs at h with hval
        cases h
        obtain ⟨hne, rfl⟩ := hval
        have hact := action_system rev 0 hlen hdis
        simp only [hnext, decoded] at hact
        refine .firstEpoch hact hne (exec_onEpochChange rev crypto hlen hdis hnext ?_)
        rw [hphase.1]
        exact Nat.pos_of_ne_zero hne
    case h_4 input hdis =>
      split at h
      case h_2 => cases h
      case h_1 next hnext =>
        split_ifs at h with hval
        cases h
        obtain ⟨rfl, rfl⟩ := hval
        have hact := action_system rev 0 hlen hdis
        simp only [hnext, decoded] at hact
        exact .nextEpoch hact (exec_onEpochChange rev crypto hlen hdis hnext (Nat.lt_succ_self _))
    case h_5 => cases h

/-! What the two actions of consensus do to the registry. -/

variable {w' : World}

theorem Effect.registry_takeSnapshot (he : Effect rev w .takeSnapshot w') :
    w.inEpochDelayPeriod = false ∧ w' = w.takeSnapshot := by
  cases he with
  | performed step registry balance commission => cases registry
  | snapshot hd => exact ⟨hd, rfl⟩

theorem Effect.registry_changeEpoch {next : Nat} (he : Effect rev w (.changeEpoch next) w') :
    w'.registry = { w.registry with epoch := next, inDelay := false } := by
  cases he with
  | performed step registry balance commission =>
    generalize w'.registry = r' at registry ⊢
    cases registry
    rfl

theorem Registry.SameSets.fields {w w' : World} (h : w.registry.SameSets w'.registry) : w'.epoch = w.epoch ∧
    w'.inEpochDelayPeriod = w.inEpochDelayPeriod ∧ w'.valsetConsensus = w.valsetConsensus ∧
      w'.valsetSnapshot = w.valsetSnapshot :=
  ⟨h.epoch, h.inDelay, h.valsetConsensus, h.valsetSnapshot⟩

variable (crypto w) in
theorem sameSets_exec (h : (c.action rev).byConsensus = false) :
    w.registry.SameSets (exec rev crypto c w).2.registry := by
  rcases exec_cases rev crypto w c with he | he
  · exact he.sameSets h
  rw [he]
  exact .refl _

section

variable (h : ProtocolStep rev crypto w c phase phase') (hphase : phase.Holds w)

include h hphase

/-- A step of the protocol leads to the phase it is meant to lead to. -/
theorem ProtocolStep.holds : phase'.Holds (exec rev crypto c w).2 := by
  cases h with
  | other hact =>
    obtain ⟨hep, hdly, hcons, hsnap⟩ := (sameSets_exec crypto w hact).fields
    unfold Phase.Holds
    rwa [hep, hdly, hcons, hsnap]
  | snapshot hact hok =>
    have he := exec_ok rev crypto w hok
    rw [hact] at he
    obtain ⟨execution, bits, hspec, -, -⟩ := takeSnapshot_spec w
    rw [he.registry_takeSnapshot.2, hspec]
    exact ⟨hphase.1, rfl⟩
  | firstEpoch hact hnext hok =>
    have he := exec_ok rev crypto w hok
    rw [hact] at he
    have hr := he.registry_changeEpoch
    exact ⟨ne_of_eq_of_ne (congrArg epoch hr) hnext, congrArg inDelay hr⟩
  | nextEpoch hact hok =>
    have he := exec_ok rev crypto w hok
    rw [hact] at he
    have hr := he.registry_changeEpoch
    exact ⟨ne_of_eq_of_ne (congrArg epoch hr) (Nat.succ_ne_zero _), congrArg inDelay hr⟩

/-- A step of the protocol is lawful for every pool. -/
theorem ProtocolStep.lawful (roster : Roster rev w.registry w.stakes) (v : ValId) :
    (w.pool v).Lawful (calledOp rev crypto c w v) := by
  unfold calledOp
  split
  case h_2 => trivial
  cases h with
  | other hact => exact lawful_of_byConsensus w v hact
  | snapshot hact hok =>
    rw [hact]
    exact hphase.1
  | firstEpoch hact hnext hok =>
    rw [hact]
    obtain ⟨hep, hdly, hcons, hsnap⟩ := hphase
    refine .inl ⟨hep, hdly, of_not_not fun h0 => ?_, of_not_not fun h0 => ?_⟩
    · have hmem : v ∈ w.valsetConsensus := (roster.consensus.mem_iff v).mpr h0
      rw [hcons] at hmem
      exact List.not_mem_nil hmem
    · have hmem : v ∈ w.valsetSnapshot := (roster.snapshot.mem_iff v).mpr h0
      rw [hsnap] at hmem
      exact List.not_mem_nil hmem
  | nextEpoch hact hok =>
    rw [hact]
    refine .inr ⟨hphase.1, hphase.2, rfl, ?_⟩
    rw [decide_eq_true_iff]
    exact roster.snapshot.mem_iff v

end

variable (rev crypto) in
/-- The phase of a conforming run tells where its state is. -/
theorem phase_after (calls : List Call) (h : phaseAfter rev crypto calls = some phase) :
    phase.Holds (after rev crypto calls) := by
  induction calls generalizing phase with
  | nil =>
    cases h
    exact ⟨rfl, rfl, rfl, rfl⟩
  | cons c calls ih =>
    rw [phaseAfter, Option.bind_eq_some_iff] at h
    obtain ⟨phase0, hph0, hnext⟩ := h
    exact (protocolStep_of_nextPhase (ih hph0) hnext).holds (ih hph0)

variable {calls : List Call}

/-- The last call of a conforming run. -/
theorem conforms_step (h : Conforms rev crypto (c :: calls)) : ∃ phase phase', phase.Holds (after rev crypto calls) ∧
    ProtocolStep rev crypto (after rev crypto calls) c phase phase' := by
  obtain ⟨phase, phase', hphase, hnext, -⟩ := conforms_cons rev crypto h
  have hhs := phase_after rev crypto calls hphase
  exact ⟨phase, phase', hhs, protocolStep_of_nextPhase hhs hnext⟩

theorem lawful_of_conforms (h : Conforms rev crypto (c :: calls)) (v : ValId) :
    ((after rev crypto calls).pool v).Lawful (calledOp rev crypto c (after rev crypto calls) v) := by
  obtain ⟨phase, phase', hhs, hstep⟩ := conforms_step h
  exact hstep.lawful hhs (roster_after rev crypto calls) v

end Conforming

end MonadExecution.Staking
