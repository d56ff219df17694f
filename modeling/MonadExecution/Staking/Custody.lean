import MonadExecution.Staking.Accounting
import MonadExecution.Staking.Protocol

/-!
# Custody

What the contract keeps for an account stays with it: a withdrawal request is paid once and as it
was opened, and no call of somebody else takes anything away.
-/

namespace MonadExecution.Staking

open Function WithdrawalRequest

namespace Pool

variable {ι κ : Type} {p p' : Pool ι κ} {a b : ι}

/-- `a` has lost nothing. -/
structure Kept (a : ι) (p p' : Pool ι κ) : Prop where
  held : (p.del a).held ≤ (p'.del a).held
  rewards : (p.del a).rewards ≤ (p'.del a).rewards
  request : ∀ i, p'.request (a, i) = p.request (a, i)

theorem Kept.of_eq (hdel : p'.del a = p.del a) (hreq : ∀ i, p'.request (a, i) = p.request (a, i)) : Kept a p p' :=
  ⟨by rw [hdel], by rw [hdel], hreq⟩

theorem Kept.trans {q : Pool ι κ} (h : Kept a p q) (h' : Kept a q p') : Kept a p p' :=
  ⟨h.held.trans h'.held, h.rewards.trans h'.rewards, fun i => (h'.request i).trans (h.request i)⟩

/-- The account that an operation may take from. -/
def Op.spender : Op ι κ → Option ι
  | .undelegate a _ _ | .compound a | .withdraw a _ | .claim a => some a
  | _ => none

variable [DecidableEq ι] [DecidableEq κ] {op : Op ι κ}

omit [DecidableEq κ] in
theorem rewards_pull (safe : p.PullSafe b) : (p.del a).rewards ≤ ((p.pull b).del a).rewards := by
  rcases eq_or_ne a b with rfl | hab
  · refine pull_induct (P := fun q => (p.del a).rewards ≤ (q.del a).rewards) safe ?_ ?_ ?_
    · simp only [promote_del, update_self]
      split_ifs <;> exact le_rfl
    · intro q hq _ _
      simpa using Nat.le_add_right_of_le hq
    · intro q hq _ _ _
      simpa using Nat.le_add_right_of_le hq
  · rw [del_pull_of_ne hab]

theorem kept_step (h : Step op p p') (hempty : ∀ b, EmptyWithoutEpoch (p.del b)) (ha : op.spender ≠ some a) :
    Kept a p p' := by
  have hheld := held_step h hempty a
  have hne : ∀ b, op.spender = some b → a ≠ b := fun b hb hab => ha (hab ▸ hb)
  cases h with
  | idle | changeEpoch | takeSnapshot => exact .of_eq rfl fun _ => rfl
  | pull safe => exact ⟨hheld.ge, rewards_pull safe, by simp⟩
  | @delegate _ b s hs safe hr =>
    refine ⟨(Nat.le_add_right _ _).trans hheld.ge, (rewards_pull safe).trans ?_, by simp⟩
    rcases eq_or_ne a b with rfl | hab
    · simp only [stage_del, update_self, Delegator.staged]
      split_ifs <;> exact le_rfl
    · simp [hab]
  | @reward _ b commission r hv =>
    refine ⟨hheld.ge, ?_, fun _ => rfl⟩
    rcases eq_or_ne a b with rfl | hab
    · simp
    · simp [hab]
  | @compound _ _ b r safe hr hq hs safe' hb =>
    have hab := hne b rfl
    exact .of_eq (by simp [hab, del_pull_of_ne hab, ← hq]) (by simp [← hq])
  | @undelegate _ b | @compoundNothing _ b | @claim _ b | @withdraw _ b =>
    have hab := hne b rfl
    exact .of_eq (by simp [hab, del_pull_of_ne hab]) (by simp [hab])

/-! ## Requests -/

/-- The request that an operation with the result `p'` opens under `j`. -/
def Op.opens (j : ι × κ) (p' : Pool ι κ) : Op ι κ → List WithdrawalRequest
  | .undelegate a i _ => if (a, i) = j then [p'.request j] else []
  | _ => []

/-- The request under `j` that an operation on `p` pays. -/
def Op.pays (j : ι × κ) (p : Pool ι κ) : Op ι κ → List WithdrawalRequest
  | .withdraw a i => if (a, i) = j then [p.request j] else []
  | _ => []

def pending (j : ι × κ) (p : Pool ι κ) : List WithdrawalRequest :=
  if (p.request j).hasValue then [p.request j] else []

theorem opens_append_pending (h : Step op p p') (j : ι × κ) :
    op.opens j p' ++ p.pending j = p'.pending j ++ op.pays j p := by
  unfold Op.opens Op.pays pending
  cases h with
  | @undelegate _ a i amount h0 hw safe hx hl =>
    have hout : (p.pull a).leaving a amount ≠ 0 := by
      unfold leaving
      split_ifs <;> omega
    have hnew (acc f : Nat) : hasValue ⟨(p.pull a).leaving a amount, acc, f⟩ = true := by simp [hasValue, hout]
    rcases eq_or_ne j (a, i) with rfl | hj
    · simp [hw, hnew]
    · simp [hj, hj.symm]
  | @withdraw _ a i hw ready can =>
    have hnone : hasValue {} = false := rfl
    rcases eq_or_ne j (a, i) with rfl | hj
    · simp [hw, hnone]
    · simp [hj, hj.symm]
  | compound safe hr hq hs safe' hb => simp [← hq]
  | _ => simp

end Pool

/-! ## Runs -/

section Runs

variable (rev : MonadRevision) (crypto : Crypto) (v : ValId) (a : Address) (i : WithdrawalId)

/-- The requests of `a` with the id `i` that a run has opened at `v`, the latest first. -/
def opened : List Call → List WithdrawalRequest
  | [] => []
  | c :: calls => (calledOp rev crypto c (after rev crypto calls) v).opens (a, i)
      ((after rev crypto (c :: calls)).pool v) ++ opened calls

/-- Those that it has paid. -/
def paid : List Call → List WithdrawalRequest
  | [] => []
  | c :: calls => (calledOp rev crypto c (after rev crypto calls) v).pays (a, i)
      ((after rev crypto calls).pool v) ++ paid calls

/-- Every request but an open one has been paid, once, as it was opened and in that order. To pay a
request moves its amount and what it has earned to `a`. -/
theorem requests_paid_once (calls : List Call) :
    opened rev crypto v a i calls =
        ((after rev crypto calls).pool v).pending (a, i) ++ paid rev crypto v a i calls ∧
      ∀ c, calledOp rev crypto c (after rev crypto calls) v = .withdraw a i →
        (after rev crypto (c :: calls)).balance = (Action.withdraw v a i).balance (after rev crypto calls) := by
  refine ⟨?_, fun c hc => ?_⟩
  · induction calls with
    | nil => rfl
    | cons c calls ih =>
      have hstep := Pool.opens_append_pending (step_calledOp rev crypto c calls v) (a, i)
      rw [opened, paid, ih, ← List.append_assoc, hstep, List.append_assoc]
  · unfold calledOp at hc
    split at hc
    case h_2 => cases hc
    case h_1 out hok =>
      have he := exec_ok rev crypto _ hok
      generalize c.action rev = act at hc he
      obtain rfl : act = .withdraw v a i := by cases act <;> grind [Action.op, opAt]
      cases he with
      | performed step registry balance commission => exact balance

/-- Only the sender of a call spends. -/
theorem sender_of_spender {c : Call} {w : World} (h : ((c.action rev).op w v).spender = some a) : c.sender = a := by
  cases c with
  | precompile input sender value gas =>
    simp only [Call.action, Method.action, decoded] at h
    split at h <;> grind [Action.op, opAt, Pool.Op.spender, Call.sender]
  | system calldata value =>
    simp only [Call.action, decoded] at h
    split at h <;> grind [Action.op, opAt, Pool.Op.spender]

variable {calls later : List Call} {a}

/-- As long as only others make calls, nothing of `a` gets less, and its requests stay as they are. -/
theorem others_take_nothing (hothers : ∀ c ∈ later, c.sender ≠ a)
    (h : (after rev crypto (later ++ calls)).EpochsExist) :
    ((after rev crypto calls).pool v).Kept a ((after rev crypto (later ++ calls)).pool v) := by
  induction later with
  | nil => exact .of_eq rfl fun _ => rfl
  | cons c later ih =>
    have hbefore := epochsExist_tail rev crypto h
    refine (ih (fun c' hc' => hothers c' (.tail c hc')) hbefore).trans ?_
    refine Pool.kept_step (step_calledOp rev crypto c _ v) (ledger_after rev crypto hbefore v).empty fun hs => ?_
    unfold calledOp at hs
    split at hs
    · exact hothers c (.head later) (sender_of_spender rev v a hs)
    · cases hs

theorem others_take_nothing_delegate :
    let calls := [Call.register 1 7 0 7 Limits.minAuthAddressStake]
    ((after .four .acceptAll calls).pool 1).Kept 7 ((after .four .acceptAll ([.delegate 1 8 mon] ++ calls)).pool 1) :=
  others_take_nothing .four .acceptAll 1 (by decide) (by unfold World.EpochsExist; decide +kernel)

end Runs

end MonadExecution.Staking
