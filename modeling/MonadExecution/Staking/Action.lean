import MonadExecution.Staking.Methods
import MonadExecution.Staking.Snapshot

/-!
# Calls as actions

The call data of a call decode to an `Action`, which names one pool at most, or all of them. This
module says once what a call can do: a successful call has the `Effect` of its action on the pools,
on the registry and on the balances, and a failed one changes nothing but the process log. Every
invariant of the contract is derived from that, without looking at a method again.
-/

namespace MonadExecution.Staking

open Program World

/-- What a call asks for. -/
inductive Action
  | idle
  | pull (v : ValId) (a : Address)
  | addValidator (i : AddValidatorInput) (s : Nat)
  | delegate (v : ValId) (a : Address) (s : Nat)
  | undelegate (v : ValId) (a : Address) (i : WithdrawalId) (amount : Nat)
  | compound (v : ValId) (a : Address)
  | withdraw (v : ValId) (a : Address) (i : WithdrawalId)
  | claim (v : ValId) (a : Address)
  | changeCommission (v : ValId) (commission : Nat)
  | externalReward (v : ValId) (a : Address) (r : Nat)
  | blockReward (author : Address) (rawReward : Nat)
  | changeEpoch (next : Nat)
  | takeSnapshot

/-- A call whose arguments do not decode asks for nothing. -/
def decoded {α : Type} (x : Except Error α) (f : α → Action) : Action := match x with
  | .ok y => f y
  | .error _ => .idle

def Method.action (method : Method) (input : Bytes) (sender : Address) (value : Nat) : Action := match method with
  | .addValidator => decoded (decodeAddValidator input) fun i => .addValidator i value
  | .delegate => decoded (decodeValId input) fun v => if value = 0 then .idle else .delegate v sender value
  | .undelegate => decoded (decodeUndelegate input) fun x =>
      if x.2.1 = 0 then .idle else .undelegate x.1 sender x.2.2 x.2.1
  | .compound => decoded (decodeValId input) fun v => .compound v sender
  | .withdraw => decoded (decodeWithdraw input) fun x => .withdraw x.1 sender x.2
  | .claimRewards => decoded (decodeValId input) fun v => .claim v sender
  | .changeCommission => decoded (decodeValIdAmount input) fun x => .changeCommission x.1 x.2
  | .externalReward => decoded (decodeValId input) fun v => .externalReward v sender value
  | .getDelegator => decoded (decodeValIdAddress input) fun x => .pull x.1 x.2
  | _ => .idle

def Call.action (rev : MonadRevision) : Call → Action
  | .precompile input sender value _ =>
    let dispatch := precompileDispatch rev input
    dispatch.1.1.action dispatch.2 sender value
  | .system calldata value =>
    if calldata.length < 4 then .idle
    else match syscallDispatch calldata with
      | (some .reward, input) => decoded (decodeAddress input) fun author => .blockReward author value
      | (some .snapshot, _) => .takeSnapshot
      | (some .onEpochChange, input) => decoded (decodeEpoch input) .changeEpoch
      | (none, _) => .idle

/-! ## Effects -/

/-- The operation of the pool of `u`, if `v` is the validator of an action. -/
def opAt (u v : ValId) (op : Pool.Op Address WithdrawalId) : Pool.Op Address WithdrawalId :=
  if u = v then op else .idle

/-- The operation that an action is for the pool of `u`. -/
def Action.op (w : World) (u : ValId) : Action → Pool.Op Address WithdrawalId
  | .idle => .idle
  | .pull v a => opAt u v (.pull a)
  | .addValidator i s => opAt u (w.lastValId + 1) (.delegate i.authAddress s)
  | .delegate v a s => opAt u v (.delegate a s)
  | .undelegate v a i amount => opAt u v (.undelegate a i amount)
  | .compound v a => opAt u v (.compound a)
  | .withdraw v a i => opAt u v (.withdraw a i)
  | .claim v a => opAt u v (.claim a)
  | .changeCommission _ _ => .idle
  | .externalReward v a r => opAt u v (.reward a 0 r)
  | .blockReward author rawReward =>
    let v := w.valId author
    let commission := w.commissionOf v rawReward
    opAt u v (.reward (w.valExecution v).authAddress commission (rawReward - commission))
  | .changeEpoch next => .changeEpoch next (decide (u ∈ w.valsetSnapshot))
  | .takeSnapshot => .takeSnapshot (decide (u ∈ w.chosen))

/-- The balances when `amount` has been moved or minted to the contract. -/
def World.credited (amount : Nat) (w : World) : Address → Nat :=
  Function.update w.balance stakingCa (w.balance stakingCa + amount)

/-- The balances after an action. -/
def Action.balance (w : World) : Action → Address → Nat
  | .addValidator _ s | .delegate _ _ s => w.credited s
  | .externalReward _ _ r | .blockReward _ r => w.credited r
  | .withdraw v a i => paidOut a (((w.pool v).request (a, i)).amount + (w.pool v).requestReward (a, i)) w.balance
  | .claim v a => paidOut a (((w.pool v).pull a).del a).rewards w.balance
  | _ => w.balance

/-- What an action does to the registry, with the checks it has passed; `old` and `pool` are the
pools before and after it. A snapshot is not among these actions. -/
inductive Registry.Step (rev : MonadRevision) (r : Registry)
    (old pool : ValId → Pool Address WithdrawalId) : Action → Registry → Prop
  | idle : Step rev r old pool .idle r
  | pull {v : ValId} {a : Address} : Step rev r old pool (.pull v a) r
  | addValidator {i : AddValidatorInput} {s : Nat} {v : ValId} (hv : v = r.lastValId + 1)
      (hv' : v ≠ 0 ∧ v ≠ BitVec.allOnes 64) (hs : Limits.minAuthAddressStake ≤ s)
      (hc : i.commission ≤ Limits.maxCommission) (ha : i.authAddress ≠ 0) :
      Step rev r old pool (.addValidator i s)
        ((r.register v { secpPubkey := i.secpPubkey, blsPubkey := i.blsPubkey } i.authAddress
          i.commission).delegated rev v i.authAddress (pool v))
  | delegate {v : ValId} {a : Address} {s : Nat} (ha : r.authAddress v ≠ 0) (hv : v ≠ 0 ∧ v ≠ BitVec.allOnes 64) :
      Step rev r old pool (.delegate v a s) (r.delegated rev v a (pool v))
  | undelegate {v : ValId} {a : Address} {i : WithdrawalId} {amount : Nat} (ha : r.authAddress v ≠ 0) :
      Step rev r old pool (.undelegate v a i amount) (r.undelegated rev v a (pool v))
  | compound {v : ValId} {a : Address} {r' : Registry}
      (h : r.AfterCompound rev v a (old v) (pool v) r') : Step rev r old pool (.compound v a) r'
  | withdraw {v : ValId} {a : Address} {i : WithdrawalId} : Step rev r old pool (.withdraw v a i) r
  | claim {v : ValId} {a : Address} : Step rev r old pool (.claim v a) r
  | changeCommission {v : ValId} {commission : Nat} (ha : r.authAddress v ≠ 0)
      (hc : commission ≤ Limits.maxCommission) :
      Step rev r old pool (.changeCommission v commission) (r.setCommission v commission)
  | externalReward {v : ValId} {a : Address} {reward : Nat} : Step rev r old pool (.externalReward v a reward) r
  | blockReward {author : Address} {reward : Nat} : Step rev r old pool (.blockReward author reward) r
  | changeEpoch {next : Nat} : Step rev r old pool (.changeEpoch next) { r with epoch := next, inDelay := false }

/-- The commission of a block reward is a part of it. -/
def Action.CommissionFits (w : World) : Action → Prop
  | .blockReward author rawReward => w.commissionOf (w.valId author) rawReward ≤ rawReward
  | _ => True

/-- What a successful call has done. -/
inductive Effect (rev : MonadRevision) (w : World) : Action → World → Prop
  | performed {act : Action} {w' : World} (step : ∀ u, Pool.Step (act.op w u) (w.pool u) (w'.pool u))
      (registry : w.registry.Step rev w.pool w'.pool act w'.registry)
      (balance : w'.balance = act.balance w) (commission : act.CommissionFits w) :
      Effect rev w act w'
  | snapshot (hd : w.inEpochDelayPeriod = false) : Effect rev w .takeSnapshot w.takeSnapshot

/-! ## Failures

What has to hold of a state so that a failing action does not blame it, does not find the balance
of the contract too low, and does not complain about a reference count. -/

namespace Action

def Safe (w : World) : Action → Prop
  | .pull v a | .delegate v a _ | .claim v a => (w.pool v).PullSafe a
  | .addValidator i _ => (w.pool (w.lastValId + 1)).PullSafe i.authAddress
  | .undelegate v a _ _ => (w.pool v).PullSafe a ∧ (((w.pool v).pull a).del a).stake ≤ ((w.pool v).pull a).stake
  | .compound v a => (w.pool v).PullSafe a ∧ (((w.pool v).pull a).takeRewards a).PullSafe a
  | .withdraw v a i => (w.pool v).WithdrawSafe a i (w.balance stakingCa)
  | .blockReward author _ => (w.thisEpochView (w.valId author)).commission ≤ mon
  | _ => True

def Funded (w : World) : Action → Prop
  | .claim v a => (w.pool v).PullSafe a → (((w.pool v).pull a).del a).rewards ≤ w.balance stakingCa
  | _ => True

def Counted (w : World) : Action → Prop
  | .pull v a | .delegate v a _ | .undelegate v a _ _ | .claim v a => (w.pool v).Referenced a
  | .addValidator i _ => (w.pool (w.lastValId + 1)).Referenced i.authAddress
  | .compound v a => (w.pool v).Referenced a ∧ (((w.pool v).pull a).takeRewards a).Referenced a
  | .withdraw v a i => ((w.pool v).request (a, i)).hasValue →
      ((w.pool v).cell ((w.pool v).request (a, i)).epoch).refcount ≠ 0
  | _ => True

end Action

/-- The lines of the process log that complain about a reference count. -/
def World.complaints (w : World) : List Diagnostic := w.diagnostics.filter fun d => match d with
    | .refcountIsZero _ _ => true
    | _ => false

/-- What a successful run of an action has done. -/
structure Succeeded (rev : MonadRevision) (act : Action) (w w' : World) : Prop where
  effect : Effect rev w act w'
  quiet : act.Counted w → w'.complaints = w.complaints

/-- What a failed run of an action has not done. -/
structure Failed (act : Action) (w : World) (e : Error) (w' : World) : Prop where
  sound : act.Safe w → e.isUnsound = false
  covered : act.Funded w → e ≠ .exception .balanceUnderflow
  quiet : act.Counted w → w'.complaints = w.complaints

section Outcomes

variable {rev : MonadRevision} {w w₀ w' : World} {act : Action} {e : Error}

theorem complaints_of_diagnostics (h : w'.diagnostics = w.diagnostics) : w'.complaints = w.complaints := by
  rw [complaints, h, complaints]

theorem Failed.harmless (he : e.isUnsound = false) (hb : e ≠ .exception .balanceUnderflow)
    (hd : w'.diagnostics = w.diagnostics) : Failed act w e w' :=
  ⟨fun _ => he, fun _ => hb, fun _ => complaints_of_diagnostics hd⟩

theorem Fault.failed {safe funded counted : Prop} (fault : Fault safe funded counted w₀ e w')
    (hd : w₀.diagnostics = w.diagnostics) (hsafe : act.Safe w → safe)
    (hfunded : act.Funded w → funded) (hctd : act.Counted w → counted) : Failed act w e w' :=
  ⟨fun h => fault.sound (hsafe h), fun h => fault.covered (hfunded h),
    fun h => complaints_of_diagnostics ((fault.quiet (hctd h)).trans hd)⟩

variable {v : ValId} {op : Pool.Op Address WithdrawalId} {p' : Pool Address WithdrawalId}
  {r' : Registry} {b : Address → Nat} {counted : Prop}

/-- An action for one validator; `w₀` is the state in which its value has been received. -/
theorem Acted.succeeded (h : Acted v w₀ p' r' b counted w') (hw : ∀ u, w₀.pool u = w.pool u)
    (hd : w₀.diagnostics = w.diagnostics) (hop : ∀ u, act.op w u = opAt u v op) (hstep : Pool.Step op (w.pool v) p')
    (hr : w.registry.Step rev w.pool w'.pool act r') (hb : b = act.balance w) (hc : act.CommissionFits w)
    (hctd : act.Counted w → counted) : Succeeded rev act w w' := by
  refine ⟨.performed (fun u => ?_) (h.registry ▸ hr) (h.balance.trans hb) hc,
    fun hc => complaints_of_diagnostics ((h.quiet (hctd hc)).trans hd)⟩
  rw [hop, opAt]
  split_ifs with hu
  · rw [hu, h.pool]
    exact hstep
  · rw [h.others u hu, hw]
    exact .idle

theorem succeeded_idle (rev : MonadRevision) (w : World) : Succeeded rev .idle w w :=
  ⟨.performed (fun _ => .idle) .idle rfl trivial, fun _ => rfl⟩

end Outcomes

/-! ## Decoding -/

/-- An error of the decoder blames nobody. -/
def Plain {α : Type} (x : Except Error α) : Prop :=
  ∀ e, x = .error e → e.isUnsound = false ∧ e ≠ .exception .balanceUnderflow

section Plain

variable {α β : Type}

theorem plain_ok (y : α) : Plain (.ok y : Except Error α) := by
  intro e h
  cases h

theorem plain_error {e : Error} (h : e.isUnsound = false ∧ e ≠ .exception .balanceUnderflow) :
    Plain (.error e : Except Error α) := by
  intro e' h'
  cases h'
  exact h

theorem Plain.bind {x : Except Error α} {f : α → Except Error β} (hx : Plain x)
    (hf : ∀ y, Plain (f y)) : Plain (x >>= f) := by
  cases x with
  | ok y => exact hf y
  | error e =>
    intro e' h'
    cases h'
    exact hx e rfl

theorem plain_allConsumed {x : Except Error (α × Bytes)} (hx : Plain x) : Plain (allConsumed x) := by
  match x, hx with
  | .ok (y, []), _ => exact plain_ok y
  | .ok (_, _ :: _), _ => exact plain_error ⟨rfl, by decide⟩
  | .error e, hx => exact plain_error (hx e rfl)

theorem plain_abiDecodeFixed (n : Nat) (enc : Bytes) : Plain (abiDecodeFixed n enc) := by
  unfold abiDecodeFixed
  split_ifs
  · exact plain_error ⟨rfl, by decide⟩
  · exact plain_ok _

theorem plain_abiDecodeBytesTail (n : Nat) (enc : Bytes) : Plain (abiDecodeBytesTail n enc) := by
  refine (plain_abiDecodeFixed 32 enc).bind fun y => ?_
  dsimp only
  split_ifs
  · exact plain_error ⟨rfl, by decide⟩
  · exact plain_error ⟨rfl, by decide⟩
  · exact plain_ok _

theorem plain_abiDecodeValId (enc : Bytes) : Plain (abiDecodeValId enc) :=
  (plain_abiDecodeFixed 8 enc).bind fun _ => plain_ok _

theorem plain_abiDecodeAddress (enc : Bytes) : Plain (abiDecodeAddress enc) :=
  (plain_abiDecodeFixed 20 enc).bind fun _ => plain_ok _

theorem plain_abiDecodeWithdrawalId (enc : Bytes) : Plain (abiDecodeWithdrawalId enc) :=
  (plain_abiDecodeFixed 1 enc).bind fun _ => plain_ok _

section

variable (input : Bytes)

theorem plain_decodeValId : Plain (decodeValId input) := plain_allConsumed (plain_abiDecodeValId input)

theorem plain_decodeAddress : Plain (decodeAddress input) := plain_allConsumed (plain_abiDecodeAddress input)

theorem plain_decodeEpoch : Plain (decodeEpoch input) := plain_allConsumed (plain_abiDecodeFixed 8 input)

theorem plain_decodeValIdAmount : Plain (decodeValIdAmount input) :=
  plain_allConsumed ((plain_abiDecodeValId input).bind fun x =>
    (plain_abiDecodeFixed 32 x.2).bind fun _ => plain_ok _)

theorem plain_decodeValIdAddress : Plain (decodeValIdAddress input) :=
  plain_allConsumed ((plain_abiDecodeValId input).bind fun x => (plain_abiDecodeAddress x.2).bind fun _ => plain_ok _)

theorem plain_decodeAddressValId : Plain (decodeAddressValId input) :=
  plain_allConsumed ((plain_abiDecodeAddress input).bind fun x => (plain_abiDecodeValId x.2).bind fun _ => plain_ok _)

theorem plain_decodeUndelegate : Plain (decodeUndelegate input) :=
  plain_allConsumed ((plain_abiDecodeValId input).bind fun x =>
    (plain_abiDecodeFixed 32 x.2).bind fun y => (plain_abiDecodeWithdrawalId y.2).bind fun _ => plain_ok _)

theorem plain_decodeWithdraw : Plain (decodeWithdraw input) :=
  plain_allConsumed ((plain_abiDecodeValId input).bind fun x =>
    (plain_abiDecodeWithdrawalId x.2).bind fun _ => plain_ok _)

theorem plain_decodeWithdrawalRequest : Plain (decodeWithdrawalRequest input) :=
  plain_allConsumed ((plain_abiDecodeValId input).bind fun x =>
    (plain_abiDecodeAddress x.2).bind fun y => (plain_abiDecodeWithdrawalId y.2).bind fun _ => plain_ok _)

theorem plain_decodeAddValidator : Plain (decodeAddValidator input) :=
  plain_allConsumed ((plain_abiDecodeFixed 32 input).bind fun x =>
    (plain_abiDecodeFixed 32 x.2).bind fun y => (plain_abiDecodeFixed 32 y.2).bind fun z =>
      (plain_abiDecodeBytesTail 165 z.2).bind fun m =>
        (plain_abiDecodeBytesTail 64 m.2).bind fun s => (plain_abiDecodeBytesTail 96 s.2).bind fun _ => plain_ok _)

end

end Plain

theorem loadBe_lt (bs : Bytes) : loadBe bs < 256 ^ bs.length := by
  -- the accumulator of the fold counts the bytes that have been read
  have h : ∀ (bs : Bytes) (n : Nat), bs.foldl (fun n b => n * 256 + b.toNat) n < (n + 1) * 256 ^ bs.length := by
    intro bs
    induction bs with
    | nil => intro n; simp
    | cons b bs ih =>
      intro n
      have hb : b.toNat < 256 := b.toNat_lt
      calc bs.foldl (fun n b => n * 256 + b.toNat) (n * 256 + b.toNat)
          < (n * 256 + b.toNat + 1) * 256 ^ bs.length := ih _
        _ ≤ ((n + 1) * 256) * 256 ^ bs.length := Nat.mul_le_mul_right _ (by omega)
        _ = (n + 1) * 256 ^ (bs.length + 1) := by ring
  simpa [loadBe] using h bs 0

theorem decodeEpoch_lt {input : Bytes} {next : Nat} (h : decodeEpoch input = .ok next) : next < uint64Size := by
  unfold decodeEpoch abiDecodeU64 abiDecodeFixed at h
  split_ifs at h with hlen
  · cases h
  have hn : next = loadBe ((input.take 32).drop 24) := by
    revert h
    cases input.drop 32 with
    | nil => intro h; cases h; rfl
    | cons _ _ => intro h; cases h
  have hlength : ((input.take 32).drop 24).length = 8 := by
    rw [List.length_drop, List.length_take]
    omega
  have hlt := loadBe_lt ((input.take 32).drop 24)
  rw [hlength, ← hn] at hlt
  unfold uint64Size
  exact hlt

/-! ## Methods as actions -/

/-- The state in which the value of a call has been moved to the contract. -/
def World.receive (value : Nat) (w : World) : World := w.setBalance stakingCa (w.balance stakingCa + value)

theorem receive_zero (w : World) : w.receive 0 = w := by simp [receive, setBalance]

section Wp

variable {rev : MonadRevision} {w w₀ : World} {act : Action} {α β : Type}

/-- The goal of every method: `m` does what `act` asks for. -/
abbrev Performs (rev : MonadRevision) (w : World) (act : Action) (m : M α) (w₀ : World) : Prop :=
  wp m (fun _ w' => Succeeded rev act w w') (Failed act w) w₀

theorem performs_notPayable {m : M α} {value : Nat} (h : Performs rev w act m w) :
    Performs rev w act (do functionNotPayable value; m) (w.receive value) := by
  unfold Performs functionNotPayable
  rw [wp_bind, wp_require]
  refine ⟨fun h0 => ?_, fun _ => .harmless rfl (by decide) rfl⟩
  rw [h0, receive_zero]
  exact h

variable {x : Except Error α}

theorem performs_decoded (hx : Plain x) {f : α → Action} {m : α → M β} (hd : w₀.diagnostics = w.diagnostics)
    (h : ∀ y, x = .ok y → Performs rev w (f y) (m y) w₀) :
    Performs rev w (decoded x f) (do let y ← lift x; m y) w₀ := by
  unfold Performs
  match x, hx, h with
  | .ok y, _, h => exact h y rfl
  | .error e, hx, _ => exact .harmless (hx e rfl).1 (hx e rfl).2 hd

theorem performs_map {m : M α} {f : α → β} (h : Performs rev w act m w₀) : Performs rev w act (f <$> m) w₀ := by
  unfold Performs
  rw [wp_map]
  exact h

/-- A read after a decoder. -/
theorem performs_load (hx : Plain x) (f : α → World → β) :
    Performs rev w .idle (do let y ← lift x; load (f y)) w := by
  unfold Performs
  match x, hx with
  | .ok y, _ => exact succeeded_idle rev w
  | .error e, hx => exact .harmless (hx e rfl).1 (hx e rfl).2 rfl

end Wp

section Methods

variable (rev : MonadRevision) (crypto : Crypto) (w : World) (input : Bytes) (sender : Address) (value : Nat)

theorem performs_delegate : Performs rev w (Method.delegate.action input sender value)
    (precompileDelegate rev input sender value) (w.receive value) := by
  refine performs_decoded (plain_decodeValId input) rfl fun v _ => ?_
  rw [Performs, wp_onlyIf]
  split_ifs with h0
  · refine ⟨fun h => absurd h0 h, fun _ => ?_⟩
    rw [h0, receive_zero]
    exact succeeded_idle rev w
  refine ⟨fun _ => ?_, fun h => absurd h0 h⟩
  refine wp_mono (delegate_spec rev _ v sender value) ?_ fun _ _ fault => fault.failed rfl id (fun _ => trivial) id
  rintro - w' ⟨ha, hv, hstep, h⟩
  refine h.succeeded (fun _ => rfl) rfl (fun _ => rfl) hstep ?_ rfl trivial id
  rw [← h.pool]
  exact .delegate ha hv

theorem performs_addValidator : Performs rev w (Method.addValidator.action input sender value)
    (precompileAddValidator rev crypto input value) (w.receive value) := by
  unfold Performs
  cases hi : decodeAddValidator input with
  | ok i =>
    have hact : Method.addValidator.action input sender value = .addValidator i value := by
      simp only [Method.action, hi, decoded]
    rw [hact]
    refine wp_mono (precompileAddValidator_spec rev _ crypto hi value) ?_ fun _ _ fault =>
      fault.failed rfl id (fun _ => trivial) id
    rintro v w' ⟨rfl, hs, hc, ha, hv, hstep, h⟩
    refine h.succeeded (fun _ => rfl) rfl (fun _ => rfl) hstep ?_ rfl trivial id
    rw [← h.pool]
    exact .addValidator rfl hv hs hc ha
  | error e =>
    obtain ⟨hs, hb⟩ := plain_decodeAddValidator input e hi
    rw [precompileAddValidator, hi, wp_bind]
    exact .harmless hs hb rfl

theorem performs_undelegate : Performs rev w (Method.undelegate.action input sender value)
    (precompileUndelegate rev input sender value) (w.receive value) := by
  refine performs_notPayable (performs_decoded (plain_decodeUndelegate input) rfl ?_)
  rintro ⟨v, amount, i⟩ -
  rw [Performs, wp_onlyIf]
  split_ifs with h0
  · exact ⟨fun h => absurd h0 h, fun _ => succeeded_idle rev w⟩
  refine ⟨fun _ => ?_, fun h => absurd h0 h⟩
  refine wp_mono (undelegate_spec rev w v sender amount h0 i) ?_ fun _ _ fault =>
    fault.failed rfl id (fun _ => trivial) id
  rintro - w' ⟨ha, hstep, h⟩
  refine h.succeeded (fun _ => rfl) rfl (fun _ => rfl) hstep ?_ rfl trivial id
  rw [← h.pool]
  exact .undelegate ha

theorem performs_compound : Performs rev w (Method.compound.action input sender value)
    (precompileCompound rev input sender value) (w.receive value) := by
  refine performs_notPayable (performs_decoded (plain_decodeValId input) rfl fun v _ => ?_)
  refine wp_mono (compound_spec rev w v sender) ?_ fun _ _ fault => fault.failed rfl id (fun _ => trivial) id
  rintro - w' ⟨p', r', hstep, hr, h⟩
  refine h.succeeded (fun _ => rfl) rfl (fun _ => rfl) hstep ?_ rfl trivial id
  rw [← h.pool] at hr
  exact .compound hr

theorem performs_withdraw : Performs rev w (Method.withdraw.action input sender value)
    (precompileWithdraw input sender value) (w.receive value) := by
  refine performs_notPayable (performs_decoded (plain_decodeWithdraw input) rfl ?_)
  rintro ⟨v, i⟩ -
  refine wp_mono (withdraw_spec w v sender i) ?_ fun _ _ fault => fault.failed rfl id (fun _ => trivial) id
  rintro - w' ⟨hstep, h⟩
  refine h.succeeded (fun _ => rfl) rfl (fun _ => rfl) hstep .withdraw rfl trivial fun hc => hc ?_
  cases hstep with
  | withdraw hw _ _ => exact hw

theorem performs_claimRewards : Performs rev w (Method.claimRewards.action input sender value)
    (precompileClaimRewards input sender value) (w.receive value) := by
  refine performs_notPayable (performs_decoded (plain_decodeValId input) rfl fun v _ => ?_)
  refine wp_mono (claimRewards_spec w v sender) ?_ fun _ _ fault => fault.failed rfl id id id
  rintro - w' ⟨hstep, h⟩
  exact h.succeeded (fun _ => rfl) rfl (fun _ => rfl) hstep .claim rfl trivial id

theorem performs_changeCommission : Performs rev w (Method.changeCommission.action input sender value)
    (precompileChangeCommission input sender value) (w.receive value) := by
  refine performs_notPayable (performs_decoded (plain_decodeValIdAmount input) rfl ?_)
  rintro ⟨v, commission⟩ -
  refine wp_mono (changeCommission_spec w v sender commission) ?_ fun _ _ fault => fault.failed rfl id id id
  rintro - w' ⟨ha, hc, h⟩
  have hop : ∀ u, (Action.changeCommission v commission).op w u = opAt u v .idle := by simp [Action.op, opAt]
  exact h.succeeded (fun _ => rfl) rfl hop .idle (.changeCommission ha hc) rfl trivial id

theorem performs_externalReward : Performs rev w (Method.externalReward.action input sender value)
    (precompileExternalReward input sender value) (w.receive value) := by
  refine performs_decoded (plain_decodeValId input) rfl fun v _ => ?_
  refine wp_mono (externalReward_spec _ v sender value) ?_ fun _ _ fault => fault.failed rfl id id id
  rintro - w' ⟨hstep, h⟩
  exact h.succeeded (fun _ => rfl) rfl (fun _ => rfl) hstep .externalReward rfl trivial id

theorem performs_getDelegator : Performs rev w (Method.getDelegator.action input sender value)
    (precompileGetDelegator input value) (w.receive value) := by
  refine performs_notPayable (performs_decoded (plain_decodeValIdAddress input) rfl ?_)
  rintro ⟨v, a⟩ -
  rw [Performs, wp_bind]
  refine wp_mono (pullDelegatorUpToDate_spec w v a) ?_ fun _ _ fault => fault.failed rfl id (fun _ => trivial) id
  rintro - w' ⟨safe, t⟩
  exact t.acted.succeeded (fun _ => rfl) rfl (fun _ => rfl) (.pull safe) .pull rfl trivial id

theorem performs_valset (valset : World → List ValId) :
    Performs rev w .idle (precompileGetValset valset input value) (w.receive value) := by
  refine performs_notPayable ?_
  have hx : Plain (allConsumed (abiDecodeFixed 4 input)) := plain_allConsumed (plain_abiDecodeFixed 4 input)
  match allConsumed (abiDecodeFixed 4 input), hx with
  | .ok y, _ =>
    simp only [wp_lift_ok, wp_bind, wp_load, wp_require, wp_pure]
    exact ⟨fun _ => succeeded_idle rev w, fun _ => .harmless rfl (by decide) rfl⟩
  | .error e, hx => exact .harmless (hx e rfl).1 (hx e rfl).2 rfl

/-- Every method does what its call data ask for. -/
theorem performs_runMethod (method : Method) : Performs rev w (method.action input sender value)
    (runMethod rev crypto method input sender value) (w.receive value) := by
  cases method with
  | addValidator => exact performs_map (performs_addValidator rev crypto w input sender value)
  | delegate => exact performs_map (performs_delegate rev w input sender value)
  | undelegate => exact performs_map (performs_undelegate rev w input sender value)
  | compound => exact performs_map (performs_compound rev w input sender value)
  | withdraw => exact performs_map (performs_withdraw rev w input sender value)
  | claimRewards => exact performs_map (performs_claimRewards rev w input sender value)
  | changeCommission => exact performs_map (performs_changeCommission rev w input sender value)
  | externalReward => exact performs_map (performs_externalReward rev w input sender value)
  | getDelegator => exact performs_map (performs_getDelegator rev w input sender value)
  | getEpoch | getProposerValId => exact performs_map (performs_notPayable (succeeded_idle rev w))
  | getValidator => exact performs_map (performs_notPayable (performs_load (plain_decodeValId input) _))
  | getWithdrawalRequest =>
    exact performs_map (performs_notPayable (performs_load (plain_decodeWithdrawalRequest input) _))
  | getDelegations => exact performs_map (performs_notPayable (performs_load (plain_decodeAddressValId input) _))
  | getDelegators => exact performs_map (performs_notPayable (performs_load (plain_decodeValIdAddress input) _))
  | getConsensusValset | getSnapshotValset | getExecutionValset => exact performs_map (performs_valset rev w input value _)
  | fallback => exact performs_map (Failed.harmless rfl (by decide) rfl)

end Methods

/-! ## System calls as actions -/

section Syscalls

variable (rev : MonadRevision) (w : World) (calldata : Bytes) (value : Nat)

theorem performs_reward (input : Bytes) :
    Performs rev w (decoded (decodeAddress input) fun author => .blockReward author value)
      (syscallReward rev input value) w := by
  refine performs_decoded (plain_decodeAddress input) rfl fun author _ => ?_
  simp only [Performs, wp_bind, wp_load, wp_require]
  refine ⟨fun _ => ?_, fun _ => .harmless rfl (by decide) rfl⟩
  refine wp_mono (rewardValidator_spec w (w.valId author) value) ?_ fun _ _ fault => fault.failed rfl id id id
  rintro - w' ⟨hc, hstep, h⟩
  have h' : Succeeded rev (.blockReward author value) w w' :=
    h.succeeded (fun _ => rfl) rfl (fun _ => rfl) hstep .blockReward rfl hc id
  rw [wp_onlyIf_update]
  split_ifs
  · -- the proposer is in no pool
    exact (⟨h.pool, h.others, h.registry, h.balance, h.quiet⟩ :
      Acted (w.valId author) w _ _ _ True { w' with proposerValId := w.valId author }).succeeded
        (fun _ => rfl) rfl (fun _ => rfl) hstep .blockReward rfl hc id
  · exact h'

theorem refresh_refresh (c : RefCountedAccumulator) (acc : Nat) : (c.refresh acc).refresh acc = c.refresh acc := by
  unfold RefCountedAccumulator.refresh
  split_ifs <;> rfl

theorem refreshAccumulator_eq (e : Nat) (v : ValId) : w.refreshAccumulator e v = w.setAccumulator e v
    ((w.accumulatedRewardPerToken e v).refresh (w.valExecution v).accumulatedRewardPerToken) := by
  unfold refreshAccumulator RefCountedAccumulator.refresh
  by_cases h : (w.accumulatedRewardPerToken e v).hasValue
  · simp [h]
  · simp [h, setAccumulator]

/-- Refresh the two cells of every validator in a list. -/
def World.refreshAll (next nextNext : Nat) (vs : List ValId) (w : World) : World :=
  vs.foldl (fun w v => (w.refreshAccumulator next v).refreshAccumulator nextNext v) w

/-- Refreshing changes cells only. -/
theorem refreshAll_frame (next nextNext : Nat) (vs : List ValId) :
    ∃ cells, w.refreshAll next nextNext vs = { w with accumulatedRewardPerToken := cells } := by
  induction vs generalizing w with
  | nil => exact ⟨w.accumulatedRewardPerToken, rfl⟩
  | cons v vs ih =>
    obtain ⟨cells, h⟩ := ih ((w.refreshAccumulator next v).refreshAccumulator nextNext v)
    refine ⟨cells, ?_⟩
    unfold refreshAll at h ⊢
    rw [List.foldl_cons, h, refreshAccumulator_eq, refreshAccumulator_eq]
    rfl

theorem cell_refreshAll (next nextNext f : Nat) (vs : List ValId) (u : ValId) :
    (w.refreshAll next nextNext vs).accumulatedRewardPerToken f u = if u ∈ vs ∧ (f = next ∨ f = nextNext) then
        (w.accumulatedRewardPerToken f u).refresh (w.valExecution u).accumulatedRewardPerToken
      else w.accumulatedRewardPerToken f u := by
  induction vs generalizing w with
  | nil => simp [refreshAll]
  | cons v vs ih =>
    have hcons : w.refreshAll next nextNext (v :: vs) =
        ((w.refreshAccumulator next v).refreshAccumulator nextNext v).refreshAll next nextNext vs :=
      rfl
    rw [hcons, ih, refreshAccumulator_eq, refreshAccumulator_eq]
    by_cases huv : u = v <;> by_cases hf : f = next <;> by_cases hf' : f = nextNext <;>
      by_cases hu : u ∈ vs <;>
      simp_all [Function.update_apply, refresh_refresh]

theorem pool_refreshAll (next : Nat) (u : ValId) :
    ({ w.refreshAll next ((next + 1) % uint64Size) w.valsetSnapshot with
        inEpochDelayPeriod := false, epoch := next } : World).pool u =
      (w.pool u).changeEpoch next (decide (u ∈ w.valsetSnapshot)) := by
  obtain ⟨cells, h⟩ := refreshAll_frame w next ((next + 1) % uint64Size) w.valsetSnapshot
  have hcell (f : Nat) := cell_refreshAll w next ((next + 1) % uint64Size) f w.valsetSnapshot u
  rw [h] at hcell ⊢
  dsimp only at hcell
  unfold pool Pool.changeEpoch
  congr 1
  funext f
  show cells f u = _
  rw [hcell f]
  by_cases hu : u ∈ w.valsetSnapshot <;> simp [hu]

theorem performs_onEpochChange (input : Bytes) : Performs rev w (decoded (decodeEpoch input) .changeEpoch)
    (syscallOnEpochChange input value) w := by
  rw [syscallOnEpochChange, Performs, wp_bind, wp_require]
  refine ⟨fun _ => ?_, fun _ => .harmless rfl (by decide) rfl⟩
  refine performs_decoded (plain_decodeEpoch input) rfl fun next hnext => ?_
  simp only [Performs, wp_bind, wp_load, wp_ite, wp_update, wp_throw]
  refine ⟨fun _ => ⟨fun _ => rfl, fun _ => by decide, fun _ => ?_⟩, fun hlt => ?_⟩
  · -- the refused epoch is noted in the process log
    simp [complaints]
  rw [← refreshAll]
  obtain ⟨cells, h⟩ := refreshAll_frame (w.emitLog (.epochChanged w.epoch next)) next
    ((next + 1) % uint64Size) (w.emitLog (.epochChanged w.epoch next)).valsetSnapshot
  refine ⟨.performed (fun u => ?_) ?_ ?_ trivial, fun _ => ?_⟩
  · rw [pool_refreshAll]
    exact .changeEpoch (Nat.lt_of_not_le hlt) (decodeEpoch_lt hnext)
  · rw [h]
    exact .changeEpoch
  · rw [h]
    rfl
  · rw [h]
    rfl

theorem diagnostics_takeSnapshot : w.takeSnapshot.diagnostics = w.diagnostics := by
  obtain ⟨_, _, h, -, -⟩ := takeSnapshot_spec w
  rw [h]

theorem performs_snapshot (input : Bytes) : Performs rev w .takeSnapshot (syscallSnapshot input value) w := by
  rw [syscallSnapshot, Performs, wp_bind, wp_require]
  refine ⟨fun _ => ?_, fun _ => .harmless rfl (by decide) rfl⟩
  rw [wp_bind, wp_require]
  refine ⟨fun _ => ?_, fun _ => .harmless rfl (by decide) rfl⟩
  simp only [wp_bind, wp_load, wp_ite, wp_update, wp_throw]
  refine ⟨fun _ => ⟨fun _ => rfl, fun _ => by decide, fun _ => ?_⟩, fun hd => ⟨?_, fun _ => ?_⟩⟩
  · simp [complaints]
  · exact .snapshot (by simpa using hd)
  · exact complaints_of_diagnostics (diagnostics_takeSnapshot w)

theorem performs_executeStakingSyscall : Performs rev w (Call.action rev (.system calldata value))
    (executeStakingSyscall rev calldata value) w := by
  unfold executeStakingSyscall
  simp only [Call.action]
  split_ifs
  · exact Failed.harmless rfl (by decide) rfl
  generalize syscallDispatch calldata = dispatch
  obtain ⟨syscall, input⟩ := dispatch
  cases syscall with
  | none => exact Failed.harmless rfl (by decide) rfl
  | some syscall =>
    cases syscall with
    | reward => exact performs_reward rev w value input
    | snapshot => exact performs_snapshot rev w value input
    | onEpochChange => exact performs_onEpochChange rev w value input

end Syscalls

/-! ## Calls -/

section Calls

variable (rev : MonadRevision) (crypto : Crypto) (w : World)

/-- Every call does what its call data ask for. -/
theorem performs_run (c : Call) : Performs rev w (c.action rev) (c.run rev crypto) w := by
  cases c with
  | precompile input sender value gas =>
    unfold Call.run addToBalance
    simp only [Performs, wp_bind, wp_load, wp_require, wp_update]
    refine ⟨fun _ => ⟨fun _ => ?_, fun _ => ?_⟩, fun _ => .harmless rfl (by decide) rfl⟩
    · exact performs_runMethod rev crypto w _ sender value _
    · exact .harmless rfl (by decide) rfl
  | system calldata value => exact performs_map (performs_executeStakingSyscall rev w calldata value)

variable {c : Call}

/-- A successful call has the effect of its action. -/
theorem exec_ok {out : Output} (h : (exec rev crypto c w).1 = .ok out) :
    Effect rev w (c.action rev) (exec rev crypto c w).2 := by
  have hperf := performs_run rev crypto w c
  unfold exec orRevert at h ⊢
  unfold Performs wp at hperf
  match hrun : c.run rev crypto w with
  | .ok out' w' =>
    rw [hrun] at hperf
    exact hperf.effect
  | .error e w' =>
    rw [hrun] at h
    cases h

/-- A failed call leaves the state alone, up to the process log. -/
theorem exec_error {e : Error} (h : (exec rev crypto c w).1 = .error e) :
    ((c.action rev).Safe w → e.isUnsound = false) ∧ ((c.action rev).Funded w → e ≠ .exception .balanceUnderflow) ∧
      (exec rev crypto c w).2 = { w with diagnostics := (exec rev crypto c w).2.diagnostics } := by
  have hperf := performs_run rev crypto w c
  unfold exec orRevert at h ⊢
  unfold Performs wp at hperf
  match hrun : c.run rev crypto w with
  | .ok out' w' =>
    rw [hrun] at h
    cases h
  | .error e' w' =>
    rw [hrun] at h hperf
    cases h
    exact ⟨hperf.sound, hperf.covered, rfl⟩

/-- No call complains about a reference count that is counted. -/
theorem exec_quiet (h : (c.action rev).Counted w) : (exec rev crypto c w).2.complaints = w.complaints :=
  orRevert_of_wp (P := fun w' => w'.complaints = w.complaints)
    (wp_mono (performs_run rev crypto w c) (fun _ _ hs => hs.quiet h) fun _ _ hf => hf.quiet h)

/-- A call has the effect of its action, or leaves the pools, the registry and the balances
alone. -/
theorem exec_cases (c : Call) : Effect rev w (c.action rev) (exec rev crypto c w).2 ∨
    (exec rev crypto c w).2 = { w with diagnostics := (exec rev crypto c w).2.diagnostics } := by
  match h : (exec rev crypto c w).1 with
  | .ok out => exact .inl (exec_ok rev crypto w h)
  | .error e => exact .inr (exec_error rev crypto w h).2.2

end Calls

end MonadExecution.Staking
