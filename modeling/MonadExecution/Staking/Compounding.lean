import MonadExecution.Staking.Accounting

/-!
# Compounding

A compound call is a claim whose payment goes straight back into a delegation. This module compares it
with the two calls: the tokens that a claim moves out of the contract are the ones that the delegation
moves in, and everything else is done by the same steps on the same storage.
-/

namespace MonadExecution.Staking

open Program World

/-! ## Running a call -/

variable {w w' : World}

theorem bind_ok_iff {α β : Type} {x : M α} {f : α → M β} {b : β} :
    (x >>= f) w = .ok b w' ↔ ∃ a w1, x w = .ok a w1 ∧ f a w1 = .ok b w' := by
  rw [bind_run]
  cases hx : x w with
  | ok a w1 => simp
  | error e w1 => simp

theorem require_ok_iff {c : Prop} [Decidable c] {e : Error} : (require c e : M Unit) w = .ok () w' ↔ c ∧ w' = w := by
  by_cases hc : c
  · simp [require, hc, pure_run, eq_comm]
  · simp [require, hc, throw, throwThe, MonadExceptOf.throw, EStateM.throw]

theorem lift_ok_iff {α : Type} {x : Except Error α} {a : α} : (lift x : M α) w = .ok a w' ↔ x = .ok a ∧ w' = w := by
  cases x <;> simp [lift, eq_comm]

/-- A method without value and with a validator for its only argument. -/
theorem notPayable_ok_iff {f : ValId → M Unit} {input : Bytes} {value : Nat} :
    (do functionNotPayable value; let v ← lift (decodeValId input); f v : M Unit) w = .ok () w' ↔
      value = 0 ∧ ∃ v, decodeValId input = .ok v ∧ f v w = .ok () w' := by
  rw [bind_ok_iff]
  constructor
  · rintro ⟨_, w1, hpay, h⟩
    obtain ⟨hval, rfl⟩ := require_ok_iff.mp hpay
    obtain ⟨v, w2, hlift, hf⟩ := bind_ok_iff.mp h
    obtain ⟨hv, rfl⟩ := lift_ok_iff.mp hlift
    exact ⟨hval, v, hv, hf⟩
  · rintro ⟨hval, v, hv, h⟩
    exact ⟨(), w, require_ok_iff.mpr ⟨hval, rfl⟩, bind_ok_iff.mpr ⟨v, w, lift_ok_iff.mpr ⟨hv, rfl⟩, h⟩⟩

/-! ## Moving tokens -/

/-- The value of a call moves from its sender to the account called. -/
def transferBalances (sender recipient : Address) (value : Nat) : M Unit := do
  subtractFromBalance sender value
  addToBalance recipient value

/-- A call of `delegate` with its value. -/
def callDelegate (rev : MonadRevision) (input : Bytes) (sender : Address) (value : Nat) : M Unit := do
  transferBalances sender stakingCa value
  precompileDelegate rev input sender value

/-- The same storage with other balances: outside the contract other transactions change them. -/
def World.withBalances (w : World) (b : Address → BitVec 256) : World := { w with balance := fun a => (b a).toNat }

section Tokens

variable {w : World} {a : Address} {r : Nat}

/-- A payment that the contract can make and the recipient can take. -/
theorem sendTokens_run (hfit : w.balance a + r < uint256Size) (hfund : r ≤ w.balance stakingCa) :
    sendTokens a r w = .ok () { w with balance := paidOut a r w.balance } := by
  have hsub : r ≤ Function.update w.balance a (w.balance a + r) stakingCa := by
    by_cases ha : stakingCa = a
    · simp [← ha]
    · rwa [Function.update_of_ne ha]
  simp [sendTokens, addToBalance, subtractFromBalance, bind_run, load, update, require, hfit, hsub,
    pure_run, setBalance, paidOut]

/-- Paid tokens can be sent back, and then all balances are as they were. -/
theorem transferBalances_paidOut (hfund : r ≤ w.balance stakingCa) (hbd : w.balance stakingCa < uint256Size) :
    transferBalances a stakingCa r { w with balance := paidOut a r w.balance } = .ok () w := by
  have hhas : r ≤ paidOut a r w.balance a := by
    unfold paidOut
    by_cases ha : a = stakingCa
    · simpa [ha] using hfund
    · simp [Function.update_of_ne ha]
  have hback : Function.update (paidOut a r w.balance) a (paidOut a r w.balance a - r) stakingCa + r =
      w.balance stakingCa := by
    unfold paidOut
    by_cases ha : a = stakingCa
    · simp [ha, Nat.sub_add_cancel hfund]
    · simp [Function.update_of_ne ha, Function.update_of_ne (Ne.symm ha), Nat.sub_add_cancel hfund]
  have hsame : Function.update (Function.update (paidOut a r w.balance) a
      (paidOut a r w.balance a - r)) stakingCa (w.balance stakingCa) = w.balance := by
    funext b
    by_cases hb : b = stakingCa
    · simp [hb]
    by_cases ha : b = a
    · subst ha
      simp [paidOut, Function.update_of_ne hb]
    · simp [paidOut, Function.update_of_ne hb, Function.update_of_ne ha]
  simp [transferBalances, subtractFromBalance, addToBalance, bind_run, load, update, require, hhas,
    pure_run, setBalance, hback, hbd, hsame]

end Tokens

/-! ## The two ways -/

section Compounding

variable (rev : MonadRevision) {w w' : World} {v : ValId} {a : Address}

/-- The rewards of a delegator as a settlement in `w` leaves them. -/
def World.settledRewards (w : World) (v : ValId) (a : Address) : Nat :=
  match pullDelegatorUpToDate v a w with
  | .ok _ w₀ => (w₀.delegator v a).rewards
  | .error _ _ => 0

theorem balance_pull {w₀ : World} (h : pullDelegatorUpToDate v a w = .ok () w₀) :
    w₀.balance = w.balance ∧ (w.pool v).PullSafe a ∧
      (w₀.delegator v a).rewards = (((w.pool v).pull a).del a).rewards := by
  have hspec := pullDelegatorUpToDate_spec w v a
  rw [wp, h] at hspec
  have houtside : (w₀.outside v).balance = (w.outside v).balance := congrArg balance hspec.2.outside
  refine ⟨houtside, hspec.1, ?_⟩
  rw [← hspec.2.pool]
  rfl

/-- The delegator's rewards are taken and the claim is logged. -/
def World.claimed (w : World) (v : ValId) (a : Address) (r : Nat) : World :=
  ((w.modifyDelegator v a fun d => { d with rewards := 0 }).notePayout v a r).emitLog (.claimRewards v a r w.epoch)

theorem compound_ok_cases (h : compound rev v a w = .ok () w') : ∃ w₀, pullDelegatorUpToDate v a w = .ok () w₀ ∧
    ((w₀.delegator v a).rewards = 0 ∧ w' = w₀ ∨
      (w₀.delegator v a).rewards ≠ 0 ∧ delegate rev v (w₀.delegator v a).rewards a
        (w₀.claimed v a (w₀.delegator v a).rewards) = .ok () w') := by
  unfold compound at h
  obtain ⟨_, w₀, hpull, h⟩ := bind_ok_iff.mp h
  refine ⟨w₀, hpull, ?_⟩
  simp only [bind_run, load, update, onlyIf, ite_not] at h
  by_cases h0 : (w₀.delegator v a).rewards = 0
  · left
    rw [h0, if_pos rfl] at h
    cases h
    refine ⟨h0, ?_⟩
    have hdel : { w₀.delegator v a with rewards := 0 } = w₀.delegator v a := by rw [← h0]
    unfold notePayout modifyDelegator
    dsimp only
    rw [hdel, Nat.add_zero, Function.update_eq_self, Function.update_eq_self, Function.update_eq_self,
      Function.update_eq_self]
  · right
    rw [if_neg h0] at h
    exact ⟨h0, h⟩

/-- Where the tokens can be paid, a claim leaves what a compound call delegates. -/
theorem claimRewards_run {w₀ : World} (hpull : pullDelegatorUpToDate v a w = .ok () w₀)
    (hfit : w₀.balance a + (w₀.delegator v a).rewards < uint256Size)
    (hfund : (w₀.delegator v a).rewards ≤ w₀.balance stakingCa) :
    claimRewards v a w = .ok () (if (w₀.delegator v a).rewards = 0 then w₀ else
      { w₀.claimed v a (w₀.delegator v a).rewards with
        balance := paidOut a (w₀.delegator v a).rewards w₀.balance }) := by
  unfold claimRewards
  rw [bind_run, hpull]
  simp only [bind_run, load, onlyIf, ite_not]
  by_cases h0 : (w₀.delegator v a).rewards = 0
  · rw [if_pos h0, if_pos h0]
    rfl
  · rw [if_neg h0, if_neg h0, bind_run, sendTokens_run hfit hfund]
    rfl

theorem claim_then_delegate (hb : w.liabilities ≤ w.balance stakingCa) (hbd : w.balance stakingCa < uint256Size)
    {input : Bytes} {value : Nat} (h : precompileCompound rev input a value w = .ok () w') :
    ∃ v, decodeValId input = .ok v ∧ (w.balance a + w.settledRewards v a < uint256Size →
      ∃ w1, precompileClaimRewards input a value w = .ok () w1 ∧
        callDelegate rev input a (w.settledRewards v a) w1 = .ok () w') := by
  obtain ⟨hval, v, hv, h⟩ := notPayable_ok_iff.mp h
  refine ⟨v, hv, fun hfit => ?_⟩
  obtain ⟨w₀, hpull, hcs⟩ := compound_ok_cases rev h
  obtain ⟨hbal, safe, hrew⟩ := balance_pull hpull
  have hset : w.settledRewards v a = (w₀.delegator v a).rewards := by
    unfold settledRewards
    rw [hpull]
  rw [hset, ← hbal] at hfit
  have hfund : (w₀.delegator v a).rewards ≤ w₀.balance stakingCa := by
    rw [hrew, hbal]
    exact funded_of_backed hb (.claim v a) safe
  refine ⟨_, notPayable_ok_iff.mpr ⟨hval, v, hv, claimRewards_run hpull hfit hfund⟩, ?_⟩
  have hcall (w1 w2 : World) (ht : transferBalances a stakingCa (w₀.delegator v a).rewards w1 = .ok () w2)
      (hd : onlyIf ((w₀.delegator v a).rewards ≠ 0) (delegate rev v (w₀.delegator v a).rewards a) w2 =
        .ok () w') : callDelegate rev input a (w.settledRewards v a) w1 = .ok () w' := by
    rw [hset, callDelegate, bind_ok_iff]
    refine ⟨(), w2, ht, ?_⟩
    rw [precompileDelegate, bind_ok_iff]
    exact ⟨v, w2, lift_ok_iff.mpr ⟨hv, rfl⟩, hd⟩
  have hbd0 : w₀.balance stakingCa < uint256Size := by rwa [hbal]
  rcases hcs with ⟨h0, rfl⟩ | ⟨h0, hdg⟩
  · rw [if_pos h0]
    refine hcall _ w' ?_ ?_
    · have ht := transferBalances_paidOut (a := a) hfund hbd0
      rw [h0, paidOut_zero] at ht
      rw [h0]
      exact ht
    · simp [onlyIf, h0, pure_run]
  · rw [if_neg h0]
    refine hcall _ (w₀.claimed v a (w₀.delegator v a).rewards) ?_ ?_
    · have ht := transferBalances_paidOut (w := w₀.claimed v a (w₀.delegator v a).rewards) (a := a) hfund hbd0
      exact ht
    · rw [onlyIf, if_pos h0]
      exact hdg

end Compounding

/-- **Compounding is claiming and delegating.** `r` is what the settlement of the delegator leaves of
rewards; the delegator must be able to hold them for a moment. -/
theorem compound_eq_claim_and_delegate (rev : MonadRevision) (crypto : Crypto) (calls : List Call)
    (b : Address → BitVec 256) (hb : (b stakingCa).toNat = (after rev crypto calls).balance stakingCa) {input : Bytes}
    {a : Address} {value : Nat} {w' : World}
    (h : precompileCompound rev input a value ((after rev crypto calls).withBalances b) = .ok () w') :
    let w := (after rev crypto calls).withBalances b
    ∃ v, decodeValId input = .ok v ∧ (w.balance a + w.settledRewards v a < 2 ^ 256 →
      ∃ w1, precompileClaimRewards input a value w = .ok () w1 ∧
        callDelegate rev input a (w.settledRewards v a) w1 = .ok () w') := by
  intro w
  have hbacked : w.liabilities ≤ w.balance stakingCa := by
    have hrun := backed_after rev crypto calls
    rw [← hb] at hrun
    exact hrun
  have hbd : w.balance stakingCa < uint256Size := by
    unfold uint256Size
    exact (b stakingCa).isLt
  obtain ⟨v, hv, hw⟩ := claim_then_delegate rev hbacked hbd h
  refine ⟨v, hv, fun hfit => hw ?_⟩
  unfold uint256Size
  exact hfit

/-- The error of a run, if it has failed. -/
def failure {α : Type} : EStateM.Result Error World α → Option Error
  | .ok _ _ => none
  | .error e _ => some e

/-- A validator with the highest commission proposes a block; the rewards are those of address 8. -/
def rewardedRun : List Call :=
  [.reward 7 mon, .onEpochChange 2, .snapshot, .register 7 8 mon 9 (10000000 * mon), .onEpochChange 1]

/-- The balances of the run, with `x` at address 8. -/
def rewardedBalances (x : BitVec 256) (a : Address) : BitVec 256 :=
  if a = stakingCa then BitVec.ofNat 256 (10000001 * mon) else if a = 8 then x else 0

def rewardedState (x : BitVec 256) : World := (after .five .acceptAll rewardedRun).withBalances (rewardedBalances x)

theorem exists_ok {m : M Unit} {w : World} (h : failure (m w) = none) : ∃ w', m w = .ok () w' := by
  cases hm : m w with
  | ok u w' => exact ⟨w', rfl⟩
  | error e w' => simp [hm, failure] at h

/-- What happens in the rewarded state when address 8 has no tokens, and when it has as many as possible. -/
theorem rewardedState_runs :
    ((rewardedState 0).settledRewards 1 8 = mon ∧ (rewardedState 0).balance 8 + mon < 2 ^ 256 ∧
      (rewardedBalances 0 stakingCa).toNat = (after .five .acceptAll rewardedRun).balance stakingCa ∧
      decodeValId (abiEncodeUint 1) = .ok 1 ∧
      failure (precompileCompound .five (abiEncodeUint 1) 8 0 (rewardedState 0)) = none) ∧
    failure (precompileCompound .five (abiEncodeUint 1) 8 0 (rewardedState (-1))) = none ∧
    failure (precompileClaimRewards (abiEncodeUint 1) 8 0 (rewardedState (-1))) =
      some (.exception .balanceOverflow) := by decide +kernel

theorem compound_eq_claim_and_delegate_sample : (rewardedState 0).settledRewards 1 8 = mon ∧ ∃ w' w₁,
    precompileCompound .five (abiEncodeUint 1) 8 0 (rewardedState 0) = .ok () w' ∧
    precompileClaimRewards (abiEncodeUint 1) 8 0 (rewardedState 0) = .ok () w₁ ∧
    callDelegate .five (abiEncodeUint 1) 8 mon w₁ = .ok () w' := by
  obtain ⟨hset, hfit, hbal, hone, hcompound⟩ := rewardedState_runs.1
  obtain ⟨w', hw'⟩ := exists_ok hcompound
  obtain ⟨v, hv, h⟩ := compound_eq_claim_and_delegate .five .acceptAll rewardedRun (rewardedBalances 0) hbal hw'
  rw [hone] at hv
  cases hv
  rw [show ((after .five .acceptAll rewardedRun).withBalances (rewardedBalances 0)).settledRewards 1 8 =
    mon from hset] at h
  obtain ⟨w₁, hw1, hdg⟩ := h hfit
  exact ⟨hset, w', w₁, hw', hw1, hdg⟩

/-- **A delegator who cannot hold the rewards can compound but not claim them.** -/
theorem compound_without_claim :
    failure (precompileCompound .five (abiEncodeUint 1) 8 0 (rewardedState (-1))) = none ∧
    failure (precompileClaimRewards (abiEncodeUint 1) 8 0 (rewardedState (-1))) =
      some (.exception .balanceOverflow) := rewardedState_runs.2

end MonadExecution.Staking
