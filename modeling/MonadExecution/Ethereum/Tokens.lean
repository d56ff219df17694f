import MonadExecution.Ethereum.Conservation

/-!
# The tokens of a transaction

What `validate_transaction` guarantees covers what `irrevocable_change` takes; what `execute_final` gives
back and takes again is covered by what was taken. The theorem of this file follows a transaction through
its three parts and adds up.
-/

namespace MonadExecution.Ethereum.Gas

open Ledger Function Option Nat

/-! ## Validation -/

section

variable {v : View} {st : State} {keccak : Bytes → Bytes32} {traits : Traits} {tx : Transaction} {sender : Address}
  {base excess : Nat} {saved : List Saved} {v0 : Nat} {α : Type}

theorem maxCost_ge (h : maxCost tx = some v0) : tx.gasLimit * tx.maxFeePerGas ≤ v0 ∧ (tx.type = .eip4844 →
    tx.gasLimit * tx.maxFeePerGas + getTotalBlobGas tx * tx.maxFeePerBlobGas ≤ v0) := by
  obtain ⟨gasFee, hgas, h⟩ := bind_eq_some_iff.mp h
  obtain ⟨baseCost, hbase, h⟩ := bind_eq_some_iff.mp h
  obtain ⟨-, rfl⟩ := checkedMul_eq_some.mp hgas
  obtain ⟨-, rfl⟩ := checkedAdd_eq_some.mp hbase
  split_ifs at h with htype
  · obtain ⟨blobCost, hblob, h⟩ := bind_eq_some_iff.mp h
    obtain ⟨-, rfl⟩ := checkedMul_eq_some.mp hblob
    obtain ⟨-, rfl⟩ := checkedAdd_eq_some.mp h
    constructor
    · omega
    · intro _
      omega
  · cases h
    exact ⟨Nat.le_add_left .., fun hc => absurd hc htype⟩

variable {price : Nat}

/-- The most that a transaction can cost covers the charge. -/
theorem Payable.charge_le (h : Payable traits tx base excess) (hpr : price ≤ tx.maxFeePerGas)
    (hv0 : maxCost tx = some v0) : tx.gasLimit * price + blobFee traits tx excess ≤ v0 := by
  obtain ⟨hgas, hblob⟩ := maxCost_ge hv0
  obtain ⟨hother, -, hfee⟩ := h.blobFee_le
  have hmul : tx.gasLimit * price ≤ tx.gasLimit * tx.maxFeePerGas := mul_le_mul_left _ hpr
  by_cases htype : tx.type = .eip4844
  · have hboth := hblob htype
    omega
  · rw [hother htype]
    omega

theorem quiet_senderIsEoa (hb : TrueBalances v st) :
    Ensures v st ((senderIsEoa traits sender).run keccak) fun _ st' => Quiet v st st' := by
  refine ensures_run_bind (ensures_run1 (quiet_exec keccak hb rfl)) fun hash st1 hq1 => ?_
  split_ifs
  · refine ensures_run_bind (ensures_run1 (quiet_exec keccak hq1.balances rfl)) fun code st₂ hq2 => ?_
    exact .pure (hq1.trans hq2)
  · exact .pure hq1

/-- A sender that passes can pay the most that the transaction can cost. -/
theorem ensures_validateEthereumTransaction (hb : TrueBalances v st) :
    Ensures v st ((validateEthereumTransaction traits tx sender).run keccak) fun r st' =>
      Quiet v st st' ∧
      (r = .ok () → ∃ v0, maxCost tx = some v0 ∧ v0 ≤ holdings v st sender) := by
  unfold validateEthereumTransaction
  cases hv0 : maxCost tx with
  | none => exact .pure ⟨.refl hb, nofun⟩
  | some v0 =>
    refine ensures_run_bind (ensures_run1 (quiet_exec keccak hb rfl)) fun found st1 hq1 => ?_
    cases found with
    | false =>
      simp only [Bool.false_eq_true, if_false]
      split_ifs with hnonce hzero
      · exact .pure ⟨hq1, nofun⟩
      · exact .pure ⟨hq1, nofun⟩
      · exact .pure ⟨hq1, fun _ => ⟨v0, rfl, by omega⟩⟩
    | true =>
      refine ensures_run_bind (quiet_senderIsEoa hq1.balances) fun isEoa st₂ hq2 => ?_
      cases isEoa with
      | false => exact .pure ⟨hq1.trans hq2, nofun⟩
      | true =>
        refine ensures_run_bind (ensures_run1 (quiet_exec keccak hq2.balances rfl)) fun nonce st3 hq3 => ?_
        have hqt := (hq1.trans hq2).trans hq3
        split_ifs
        · exact .pure ⟨hqt, nofun⟩
        refine ensures_run_bind (ensures_run1 (ensures_getBalance hq3.balances)) ?_
        rintro paid st4 ⟨hq4, hpaid⟩
        rw [hqt.holdings_eq] at hpaid
        split_ifs with hlow
        · exact .pure ⟨hqt.trans hq4, nofun⟩
        refine .pure ⟨hqt.trans hq4, fun _ => ⟨v0, rfl, ?_⟩⟩
        rw [← hpaid]
        exact not_lt.mp hlow

/-- **A sender that passes the validation can pay the charge.** -/
theorem ensures_validateTransaction (h : Payable traits tx base excess) (hb : TrueBalances v st)
    (hpr : gasPrice traits tx base = some price) (hle : price ≤ tx.maxFeePerGas)
    (authorities : List (Option Address)) :
    Ensures v st (validateTransaction keccak traits tx sender base authorities) fun r st' =>
      Quiet v st st' ∧
      (r = .ok () → tx.gasLimit * price + blobFee traits tx excess ≤ holdings v st sender) := by
  rcases validateTransaction_cases keccak traits tx sender base authorities with he | ⟨hact, k, he, hk⟩ <;> rw [he]
  · refine (ensures_validateEthereumTransaction hb).bind ?_
    rintro res st1 ⟨hq1, hok⟩
    refine .pure ⟨hq1, fun hres => ?_⟩
    cases res with
    | error e => cases hres
    | ok u =>
      obtain ⟨v0, hv0, hcov⟩ := hok rfl
      exact (h.charge_le hle hv0).trans hcov
  have hproduct : tx.gasLimit * price < uint256Size := lt_of_le_of_lt (mul_le_mul_left _ hle) h.product_lt
  refine (ensures_validateEthereumTransaction hb).bind ?_
  rintro res st1 ⟨hq1, -⟩
  rcases hk res with hres | ⟨price', hpr', hres⟩ | ⟨e, hres⟩ <;> rw [hres]
  · exact .abort
  · cases hpr'.symm.trans hpr
    refine (ensures_getBalance hq1.balances).bind ?_
    rintro paid st₂ ⟨hq2, hpaid⟩
    have hqt := hq1.trans hq2
    rw [hq1.holdings_eq] at hpaid
    split_ifs with hlow hsystem
    · exact .pure ⟨hqt, nofun⟩
    · exact .pure ⟨hqt, nofun⟩
    rw [wrap256_of_lt hproduct] at hlow
    refine .pure ⟨hqt, fun _ => ?_⟩
    rw [h.blobFee_le.2.1 hact]
    omega
  · exact .pure ⟨hq1, nofun⟩

theorem mirrors_validateEthereumTransaction :
    Mirrors ((validateEthereumTransaction traits tx sender).run keccak) := by
  unfold validateEthereumTransaction
  cases maxCost tx with
  | none => exact .pure _
  | some v0 =>
    refine mirrors_run_bind (mirrors_run1 rfl) fun found => ?_
    cases found with
    | false =>
      simp only [Bool.false_eq_true, if_false]
      split_ifs <;> exact .pure _
    | true =>
      refine mirrors_run_bind (mirrors_run_bind (mirrors_run1 rfl) fun hash => ?_) fun isEoa => ?_
      · split_ifs
        · exact mirrors_run_bind (mirrors_run1 rfl) fun _ => .pure _
        · exact .pure _
      cases isEoa with
      | false => exact .pure _
      | true =>
        refine mirrors_run_bind (mirrors_run1 rfl) fun nonce => ?_
        split_ifs
        · exact .pure _
        refine mirrors_run_bind (mirrors_run1 rfl) fun paid => ?_
        split_ifs <;> exact .pure _

theorem mirrors_validateTransaction (authorities : List (Option Address)) :
    Mirrors (validateTransaction keccak traits tx sender base authorities) := by
  rcases validateTransaction_cases keccak traits tx sender base authorities with he | ⟨-, k, he, hk⟩ <;> rw [he]
  · exact mirrors_validateEthereumTransaction.bind fun _ => .pure _
  refine mirrors_validateEthereumTransaction.bind fun res => ?_
  rcases hk res with hres | ⟨price, -, hres⟩ | ⟨e, hres⟩ <;> rw [hres]
  · exact .abort
  · have hbal : Mirrors (getBalance sender) := .exec keccak (c := .getBalance sender) rfl
    refine hbal.bind fun paid => ?_
    split_ifs <;> exact .pure _
  · exact .pure _

/-! ## The charge -/

/-- A frame-free method that ends. -/
theorem Returns.framed {m : Method α} {Q : α → State → Prop} (h : Returns v st m Q) (hm : Mirrors m)
    (hf : Framed st saved) :
    Returns v st m fun x st' => Q x st' ∧ Framed st' saved := h.and (hf.mirrors hm)

theorem returns_run1 {c : Call} {Q : c.Reply → State → Prop} (h : Returns v st (c.exec keccak) Q) :
    Returns v st ((Program.run1 c).run keccak) Q := by
  rw [run_run1]
  exact h

theorem returns_run_bind {β : Type} {p : Program α} {f : α → Program β} {P : α → State → Prop}
    {Q : β → State → Prop} (hp : Returns v st (p.run keccak) P)
    (hf : ∀ x st', P x st' → Returns v st' ((f x).run keccak) Q) : Returns v st ((p >>= f).run keccak) Q := by
  rw [run_bind]
  exact hp.bind hf

section

variable (hf : Framed st saved) (hb : TrueBalances v st)

include hf hb

variable {a : Address} {delta : Nat}

/-- A debit that is covered. -/
theorem returns_subtractFromBalance (hle : delta ≤ holdings v st a) :
    Returns v st ((subtractFromBalance a delta).run keccak) fun r st' => r = .ok () ∧
      Framed st' saved ∧ TrueBalances v st' ∧
      holdings v st' = update (holdings v st) a (holdings v st a - delta) := by
  refine returns_run1 (((answer_subtractFromBalance hb delta).framed
    (.exec keccak (c := .edit a (.subtractFromBalance delta) rfl) rfl) hf).mono ?_)
  rintro r st' ⟨⟨hb', hiff, hh⟩, hf'⟩
  exact ⟨hiff.mpr hle, hf', hb', hh (hiff.mpr hle)⟩

/-- A credit that fits. -/
theorem returns_addToBalance (hle : holdings v st a + delta ≤ uint256Max) :
    Returns v st ((addToBalance a delta).run keccak) fun r st' => r = .ok () ∧ Framed st' saved ∧ TrueBalances v st' ∧
      holdings v st' = update (holdings v st) a (holdings v st a + delta) := by
  refine returns_run1 (((answer_addToBalance hb delta).framed
    (.exec keccak (c := .edit a (.addToBalance delta) rfl) rfl) hf).mono ?_)
  rintro r st' ⟨⟨hb', hiff, hh⟩, hf'⟩
  exact ⟨hiff.mpr hle, hf', hb', hh (hiff.mpr hle)⟩

theorem returns_increaseNonce :
    Returns v st (increaseNonce keccak tx sender) fun _ st' => Quiet v st st' ∧ Framed st' saved := by
  unfold increaseNonce
  split_ifs
  · have hget : Returns v st ((getNonce sender).run keccak) fun _ _ => True :=
      returns_run1 ((recentAccountState_returns v st sender).bind fun x st' _ => ⟨_, _, rfl, trivial⟩)
    have hqt : Ensures v st ((getNonce sender).run keccak) fun _ st' => Quiet v st st' :=
      ensures_run1 (quiet_exec keccak hb rfl)
    refine ((hget.and hqt).framed (mirrors_run1 rfl) hf).bind ?_
    rintro nonce st1 ⟨⟨-, hq1⟩, hf1⟩
    have hset : Returns v st1 ((setNonce sender ((nonce + 1) % 2 ^ 64)).run keccak) fun _ _ => True :=
      returns_run1 (currentAccountState_returns v st1 sender (e := .setNonce ((nonce + 1) % 2 ^ 64)) fun _ _ => rfl)
    have hqt1 : Ensures v st1 ((setNonce sender ((nonce + 1) % 2 ^ 64)).run keccak)
        fun _ st' => Quiet v st1 st' := ensures_run1 (quiet_exec keccak hq1.balances rfl)
    refine ((hset.and hqt1).framed (mirrors_run1 rfl) hf1).mono ?_
    rintro - st₂ ⟨⟨-, hq2⟩, hf2⟩
    exact ⟨hq1.trans hq2, hf2⟩
  · exact .pure ⟨.refl hb, hf⟩

/-- Nothing but the balance of the sender changes. -/
theorem returns_irrevocableChange (hpr : gasPrice traits tx base = some price)
    (hcov : tx.gasLimit * price + blobFee traits tx excess ≤ holdings v st sender)
    (hmax : holdings v st sender < uint256Size) :
    Returns v st (irrevocableChange keccak traits tx sender base excess) fun r st' => r = .ok () ∧
      Framed st' saved ∧ TrueBalances v st' ∧
      total (holdings v st') + tx.gasLimit * price + blobFee traits tx excess = total (holdings v st) := by
  refine (returns_increaseNonce hf hb).bind ?_
  rintro - st1 ⟨hq1, hf1⟩
  -- the amounts do not wrap
  have hwrap : wrap256 (wrap256 (tx.gasLimit * price) + blobFee traits tx excess) =
      tx.gasLimit * price + blobFee traits tx excess := by
    rw [wrap256_of_lt (n := tx.gasLimit * price) (by omega), wrap256_of_lt (by omega)]
  simp only [hpr, hwrap]
  rw [← hq1.holdings_eq] at hcov ⊢
  refine (returns_subtractFromBalance hf1 hq1.balances hcov).mono ?_
  rintro r st₂ ⟨hok, hf2, hb2, hh2⟩
  refine ⟨hok, hf2, hb2, ?_⟩
  rw [hh2, add_assoc, total_debit hcov]

end

/-! ## The end -/

/-- Every frame has been closed. -/
theorem isFlat_of_framed (hf : Framed st []) : st.isFlat = true := by
  obtain ⟨ref, href, hsv⟩ := hf
  have hver : st.version = 0 := by rw [href.depth_eq, hsv]; rfl
  unfold State.isFlat
  rw [Bool.and_eq_true, List.isEmpty_iff, Table.all_iff]
  refine ⟨List.length_eq_zero_iff.mp hver, fun a s hs => ?_⟩
  have hzero : s.version = 0 := le_zero.mp (hver ▸ href.bounded a s hs)
  have hbel : s.below = [] := by
    refine List.eq_nil_iff_forall_not_mem.mpr fun x hx => ?_
    exact not_lt_zero _ (hzero ▸ s.below_lt hx)
  simp [hzero, hbel]

theorem lookup_mapCurrent (st : State) (f : AccountState → AccountState) (a : Address) :
    (st.mapCurrent f).current.lookup a = (st.current.lookup a).map fun s => s.write 0 (f s.recent) := by
  show (Table.alterAll _ st.current.keys st.current).lookup a = _
  rw [Table.lookup_alterAll _ st.current.keys_nodup]
  split_ifs with hmem
  · rfl
  rw [AList.lookup_eq_none.mpr hmem]
  rfl

theorem isFlat_mapCurrent (h : st.isFlat = true) (f : AccountState → AccountState) :
    (st.mapCurrent f).isFlat = true := by
  unfold State.isFlat at h ⊢
  rw [Bool.and_eq_true, Table.all_iff] at h ⊢
  refine ⟨h.1, fun a s hs => ?_⟩
  rw [lookup_mapCurrent] at hs
  obtain ⟨s0, hs0, rfl⟩ := map_eq_some_iff.mp hs
  have hflat := h.2 a s0 hs0
  unfold VersionStack.write
  exact hflat

/-- What the deletion of an account loses. -/
theorem holdings_mapCurrent (f : AccountState → AccountState) (a : Address) : holdings v (st.mapCurrent f) a =
    match st.current.lookup a with
    | some s => (f s.recent).getBalance
    | none => balance v a := by
  have hlook := lookup_mapCurrent st f a
  cases hs : st.current.lookup a with
  | some s =>
    rw [hs] at hlook
    rw [holdings_of_some hlook, VersionStack.recent_write]
  | none =>
    rw [hs] at hlook
    rw [holdings_of_none hlook]

/-- Is the account of a record deleted at the end of the transaction, because it was destructed? -/
def isDeleted (cancun : Bool) (incarnation : Incarnation) (x : AccountState) : Bool :=
  x.destructed && (!cancun || x.account.any fun y => decide (y.incarnation = incarnation))

/-- What the accounts hold that are deleted at the end. -/
def deletedHoldings (v : View) (cancun : Bool) (st : State) : Nat :=
  total fun a =>
    if (st.current.lookup a).any fun s => isDeleted cancun st.incarnation s.recent then
      holdings v st a else 0

theorem returns_destructSuicides (hflat : st.isFlat = true) (hb : TrueBalances v st) (cancun : Bool) :
    Returns v st (destructSuicides cancun) fun _ st' => st'.isFlat = true ∧ TrueBalances v st' ∧
      total (holdings v st') + deletedHoldings v cancun st = total (holdings v st) := by
  refine ⟨(), st.mapCurrent _, congrArg (Reading.answer v.answer) (if_pos hflat), isFlat_mapCurrent hflat _, hb, ?_⟩
  unfold deletedHoldings
  rw [← total_add]
  congr 1
  funext a
  rw [holdings_mapCurrent]
  cases hs : st.current.lookup a with
  | none => simp [holdings_of_none hs]
  | some s =>
    rw [holdings_of_some hs]
    by_cases hdel : isDeleted cancun st.incarnation s.recent = true
    · have hcond := hdel
      unfold isDeleted at hcond
      simp [hdel, hcond, AccountState.getBalance]
    · have hcond := hdel
      unfold isDeleted at hcond
      simp [hdel, hcond]

/-- A dead account holds nothing. -/
theorem returns_destructTouchedDead (hflat : st.isFlat = true) (hb : TrueBalances v st) :
    Returns v st destructTouchedDead fun _ st' => TrueBalances v st' ∧ holdings v st' = holdings v st := by
  refine ⟨(), st.mapCurrent _, congrArg (Reading.answer v.answer) (if_pos hflat), hb, ?_⟩
  funext a
  rw [holdings_mapCurrent]
  cases hs : st.current.lookup a with
  | none => rw [holdings_of_none hs]
  | some s =>
    rw [holdings_of_some hs]
    dsimp only
    split_ifs with hdead
    · rw [Bool.and_eq_true] at hdead
      unfold AccountState.getBalance
      cases hacc : s.recent.account with
      | none => rfl
      | some x =>
        have hemp := hdead.2
        rw [hacc] at hemp
        simp only [isDead, Account.isEmpty, Bool.and_eq_true, beq_iff_eq] at hemp
        simp [hemp.2]
    · rfl

theorem sub64_of_le {x y : Nat} (hx : x < 2 ^ 64) (h : y ≤ x) : sub64 x y = x - y := by
  unfold sub64
  rw [show x + (2 ^ 64 - y) = x - y + 2 ^ 64 by omega, add_mod_right, mod_eq_of_lt (by omega)]

/-- The refund fits because it was paid before, and it covers the top-up. -/
theorem returns_refundGas (h : Payable traits tx base excess) (hf : Framed st saved) (hb : TrueBalances v st)
    {refund : Nat} (hrefund : refund ≤ tx.gasLimit)
    (hfits : total (holdings v st) + tx.gasLimit * price < uint256Size) :
    Returns v st ((refundGas traits tx sender refund price).run keccak) fun r st' =>
      ∃ gasUsed, r = .ok gasUsed ∧ gasUsed ≤ tx.gasLimit ∧ Framed st' saved ∧ TrueBalances v st' ∧
        total (holdings v st') + gasUsed * price = total (holdings v st) + tx.gasLimit * price := by
  have hproduct : price * refund ≤ tx.gasLimit * price := by
    rw [mul_comm]
    exact Nat.mul_le_mul_right _ hrefund
  have hmax : uint256Max + 1 = uint256Size := by norm_num [uint256Max, uint256Size]
  have hheld := le_total (holdings v st) sender
  have hwrap : wrap256 (price * refund) = price * refund := wrap256_of_lt (by omega)
  have hused : sub64 tx.gasLimit refund = tx.gasLimit - refund := sub64_of_le tx.gasLimit_lt hrefund
  -- what is paid for the gas that is not refunded
  have hpaid : (tx.gasLimit - refund) * price + price * refund = tx.gasLimit * price := by
    rw [mul_comm price, ← Nat.add_mul, Nat.sub_add_cancel hrefund]
  unfold refundGas
  rw [hwrap, hused]
  refine returns_run_bind (returns_addToBalance hf hb (by omega)) ?_
  rintro r st1 ⟨rfl, hf1, hb1, hh1⟩
  have htotal1 : total (holdings v st1) = total (holdings v st) + price * refund := by rw [hh1, total_credit]
  dsimp only
  split_ifs with hfloor
  · have hdelta : price * (floorDataGas tx - (tx.gasLimit - refund)) ≤ price * refund := by
      have hfl := h.floor_le hfloor.1
      exact Nat.mul_le_mul_left _ (by omega)
    have hcov : price * (floorDataGas tx - (tx.gasLimit - refund)) ≤ holdings v st1 sender := by
      rw [hh1, update_self]
      omega
    rw [wrap256_of_lt (by omega)]
    refine returns_run_bind (returns_subtractFromBalance hf1 hb1 hcov) ?_
    rintro r st₂ ⟨rfl, hf2, hb2, hh2⟩
    refine .pure ⟨_, rfl, h.floor_le hfloor.1, hf2, hb2, ?_⟩
    have hdebit := total_debit hcov
    have hspl : floorDataGas tx * price = (tx.gasLimit - refund) * price +
        price * (floorDataGas tx - (tx.gasLimit - refund)) := by
      rw [mul_comm price, ← Nat.add_mul, Nat.add_sub_cancel' hfloor.2.le]
    rw [hh2]
    omega
  · refine .pure ⟨_, rfl, Nat.sub_le .., hf1, hb1, ?_⟩
    omega

variable {header : BlockHeader} {result : EvmcResult}

/-- All that was charged for gas is given back or paid out, except for the base fee. -/
theorem returns_payOut (h : Payable traits tx (header.baseFeePerGas.getD 0) excess) (hf : Framed st saved)
    (hb : TrueBalances v st) (hpr : gasPrice traits tx (header.baseFeePerGas.getD 0) = some price)
    (hleft : 0 ≤ result.gasLeft) (hrefund : 0 ≤ result.gasRefund) (hlimit : result.gasLeft ≤ tx.gasLimit)
    (hfits : total (holdings v st) + tx.gasLimit * price < uint256Size) :
    Returns v st (payOut keccak traits tx sender header result) fun r st' =>
      ∃ gasUsed, r = .ok gasUsed ∧ Framed st' saved ∧ TrueBalances v st' ∧
        total (holdings v st') + gasUsed * burntFeePerGas traits (header.baseFeePerGas.getD 0) =
          total (holdings v st) + tx.gasLimit * price := by
  obtain ⟨price', tip, hpr', hle, hparts, haward⟩ := h.price
  cases hpr.symm.trans hpr'
  have hmax : uint256Max + 1 = uint256Size := by norm_num [uint256Max, uint256Size]
  have hle' : computeGasRefund traits tx result.gasLeft.toNat result.gasRefund.toNat ≤ tx.gasLimit :=
    computeGasRefund_le (by omega)
  unfold payOut
  rw [if_pos ⟨hleft, hrefund, hlimit⟩]
  simp only [hpr]
  refine (returns_refundGas h hf hb hle' hfits).bind ?_
  rintro r st1 ⟨gasUsed, rfl, hused, hf1, hb1, hh1⟩
  have hspl : gasUsed * price = gasUsed * burntFeePerGas traits (header.baseFeePerGas.getD 0) + gasUsed * tip := by
    rw [hparts, mul_add]
  have hheld := le_total (holdings v st1) header.beneficiary
  simp only [haward, wrap256_of_lt (n := gasUsed * tip) (by omega)]
  have hroom : holdings v st1 header.beneficiary + gasUsed * tip ≤ uint256Max := by omega
  refine (returns_addToBalance hf1 hb1 hroom).bind ?_
  rintro r st₂ ⟨rfl, hf2, hb2, hh2⟩
  refine .pure ⟨gasUsed, rfl, hf2, hb2, ?_⟩
  rw [hh2, total_credit]
  omega

theorem returns_deleteAccounts (hf : Framed st []) (hb : TrueBalances v st) (gasUsed : Nat) :
    Returns v st (deleteAccounts traits tx result gasUsed) fun receipt st' =>
      receipt.gasUsed = gasUsed ∧ total (holdings v st') +
        deletedHoldings v (decide (.cancun ≤ traits.evmRev)) st = total (holdings v st) := by
  refine (returns_destructSuicides (isFlat_of_framed hf) hb _).bind ?_
  rintro - st1 ⟨hflat, hb1, hh1⟩
  refine (returns_destructTouchedDead hflat hb1).bind ?_
  rintro - st₂ ⟨-, hh2⟩
  refine ⟨_, st₂, rfl, rfl, ?_⟩
  rw [hh2]
  exact hh1

end

/-! ## The whole transaction -/

/-- A state in which an attempt of a transaction begins: nothing has been changed, and the accounts that
were loaded in advance have their balances. -/
structure Begins (v : View) (st : State) : Prop where
  current : st.current = ∅
  logs : st.logs = .start [] 0
  dirty : st.dirty = []
  balances : TrueBalances v st

theorem begins_fresh (v : View) (incarnation : Incarnation) (relaxed : Bool) :
    Begins v { incarnation := incarnation, relaxedValidation := relaxed } :=
  ⟨rfl, rfl, rfl, by simp [TrueBalances]⟩

variable {v : View} {st : State}

theorem Begins.framed (h : Begins v st) : Framed st [] := by
  obtain ⟨incarnation, relaxed, original, current, logs, code, dirty⟩ := st
  obtain ⟨rfl, rfl, rfl, -⟩ := h
  refine ⟨{ plain := { incarnation, relaxedValidation := relaxed, original, code } }, ?_, rfl⟩
  have hfresh := refines_fresh incarnation relaxed
  exact { hfresh with original_eq := rfl, code_eq := rfl }

theorem Begins.holdings_eq (h : Begins v st) : holdings v st = balance v := by
  funext a
  exact holdings_of_none (by rw [h.current]; rfl)

/-- **Tokens are conserved by a transaction**, as long as all of them fit in a `uint256_t`: neither the
charge nor the end of a valid transaction overflows or underflows, and what is missing afterwards is the
base fee of the gas used, the blob fee, and what `selfdestruct` has destroyed. -/
theorem tokens_conserved (keccak : Bytes → Bytes32) (traits : Traits) (tx : Transaction) (sender : Address)
    (header : BlockHeader) (chainId : Nat) (authorities : List (Option Address)) (v : View) (st₀ st₁ : State)
    (htotal : total (balance v) < uint256Size) (hbegin : Begins v st₀)
    (hstatic : staticValidateTransaction traits tx header.baseFeePerGas header.excessBlobGas chainId = .ok ())
    (hvalid : (validateTransaction keccak traits tx sender (header.baseFeePerGas.getD 0) authorities st₀).answer v.answer = some (.ok (), st₁)) :
    ∃ st₂, (irrevocableChange keccak traits tx sender (header.baseFeePerGas.getD 0)
        (header.excessBlobGas.getD 0) st₁).answer v.answer = some (.ok (), st₂) ∧
      ∀ (ρ : Type) (p : Activity ρ) (result : EvmcResult) (x : ρ) (destroyed : Nat) (st₃ : State),
        ((p.program (decide (.cancun ≤ traits.evmRev))).run keccak st₂).answer v.answer =
          some (.ok (x, destroyed), st₃) →
        0 ≤ result.gasLeft → 0 ≤ result.gasRefund → result.gasLeft ≤ tx.gasLimit →
        ∃ gasUsed st₄ receipt st₅, (payOut keccak traits tx sender header result st₃).answer v.answer =
            some (.ok gasUsed, st₄) ∧
          (executeFinal keccak traits tx sender header result st₃).answer v.answer = some (.ok receipt, st₅) ∧
          receipt.gasUsed = gasUsed ∧
          total (balance (v.merge st₅)) + gasUsed * burntFeePerGas traits (header.baseFeePerGas.getD 0) +
            blobFee traits tx (header.excessBlobGas.getD 0) + destroyed +
            deletedHoldings v (decide (.cancun ≤ traits.evmRev)) st₄ = total (balance v) := by
  have hpay := payable_of_valid hstatic
  obtain ⟨price, tip, hpr, hle, -, -⟩ := hpay.price
  obtain ⟨hq1, hcovers⟩ := ensures_validateTransaction hpay hbegin.balances hpr hle authorities _ _ hvalid
  have hf1 : Framed st₁ [] := hbegin.framed.mirrors (mirrors_validateTransaction authorities) _ _ hvalid
  have hbeg : holdings v st₁ = balance v := hq1.holdings_eq.trans hbegin.holdings_eq
  have hcov := hcovers rfl
  rw [hbegin.holdings_eq, ← hbeg] at hcov
  have hheld := le_total (holdings v st₁) sender
  rw [← hbeg] at htotal ⊢
  obtain ⟨r, st₂, hst2, rfl, hf2, hb2, hh2⟩ := returns_irrevocableChange hf1 hq1.balances hpr hcov (by omega)
  refine ⟨st₂, hst2, fun ρ p result x destroyed st₃ hrun hleft hrefund hlimit => ?_⟩
  obtain ⟨hf3, hb3, hh3⟩ := conserves_program _ p hf2 hb2 _ _ hrun (x, destroyed) rfl
  have hpaid : Returns v st₃ (payOut keccak traits tx sender header result) _ :=
    returns_payOut hpay hf3 hb3 hpr hleft hrefund hlimit (by omega)
  obtain ⟨r, st₄, hst4, gasUsed, rfl, hf4, hb4, hh4⟩ := hpaid
  have hdeleted : Returns v st₄ (deleteAccounts traits tx result gasUsed) _ := returns_deleteAccounts hf4 hb4 gasUsed
  obtain ⟨receipt, st₅, hst5, hused, hh5⟩ := hdeleted
  refine ⟨gasUsed, st₄, receipt, st₅, hst4, ?_, hused, ?_⟩
  · unfold executeFinal
    rw [Method.bind_run, Reading.answer_bind, hst4]
    show Reading.answer v.answer ((deleteAccounts traits tx result gasUsed >>= fun receipt =>
      pure (.ok receipt) : Method (Except MonadException Receipt)) st₄) = _
    rw [Method.bind_run, Reading.answer_bind, hst5]
    rfl
  · change total (holdings v st₅) + _ + _ + _ + _ = _
    omega

/-- Contents in which one account has a balance, or two. -/
def rich (first second : Nat) : View where
  account a := if a = 1 then some { balance := first } else if a = 2 then some { balance := second }
    else none
  slot _ _ := 0
  code _ := none
  absent _ _ _ := rfl

/-- A plain call that pays one for a unit of gas. -/
def plainCall : Transaction where
  sc := { r := 1, s := 1 }
  maxFeePerGas := 1
  gasLimit := 21000
  recipient := some 3

theorem total_rich (n : Nat) : total (balance (rich n 0)) = n := by
  have hone : balance (rich n 0) = update (fun _ => 0) 1 n := by
    funext a
    rcases eq_or_ne a 1 with rfl | hne
    · simp [balance, rich]
    rw [update_of_ne hne]
    unfold balance rich
    dsimp only
    rw [if_neg hne]
    split_ifs <;> rfl
  rw [hone, total_single]

/-- A transfer, a transfer in a frame that is rejected, and a `selfdestruct` to the account itself. -/
def shuffle : Activity Unit :=
  .transfer 1 3 500 <| .frame (.transfer 3 4 200 (.ret ())) (fun _ => false) fun _ =>
    .selfdestruct 3 3 fun _ => .ret ()

theorem tokens_conserved_call : ∃ st₁ st₂ st₃ st₅ : State,
    (validateTransaction (fun _ => 0) (.evm .petersburg) plainCall 1 0 []
      { incarnation := ⟨1, 1⟩ }).answer (rich 30000 0).answer = some (.ok (), st₁) ∧
    (irrevocableChange (fun _ => 0) (.evm .petersburg) plainCall 1 0 0 st₁).answer
      (rich 30000 0).answer = some (.ok (), st₂) ∧
    ((shuffle.program false).run (fun _ => 0) st₂).answer (rich 30000 0).answer = some (.ok ((), 500), st₃) ∧
    (∃ receipt, (executeFinal (fun _ => 0) (.evm .petersburg) plainCall 1 { beneficiary := 2 }
      ⟨true, 1000, 0⟩ st₃).answer (rich 30000 0).answer = some (.ok receipt, st₅)) ∧
    total (balance ((rich 30000 0).merge st₅)) ≤ 29500 := by
  have htotal : total (balance (rich 30000 0)) < uint256Size := by
    rw [total_rich]
    norm_num [uint256Size]
  have hrun : (((validateTransaction (fun _ => 0) (.evm .petersburg) plainCall 1 0 []
      { incarnation := ⟨1, 1⟩ }).answer (rich 30000 0).answer).bind fun y =>
        ((irrevocableChange (fun _ => 0) (.evm .petersburg) plainCall 1 0 0 y.2).answer (rich 30000 0).answer).bind
          fun z => (((shuffle.program false).run (fun _ => 0) z.2).answer (rich 30000 0).answer).map
            fun w => (y.1, w.1)) = some (.ok (), .ok ((), 500)) := by decide +kernel
  obtain ⟨⟨valid, st₁⟩, hvalid, hrun⟩ := bind_eq_some_iff.mp hrun
  obtain ⟨⟨charged, st₂⟩, hcharged, hrun⟩ := bind_eq_some_iff.mp hrun
  obtain ⟨⟨replies, st₃⟩, hshuffle, hreplies⟩ := map_eq_some_iff.mp hrun
  obtain ⟨rfl, rfl⟩ := Prod.mk.inj hreplies
  obtain ⟨st₂', hcharged', hrest⟩ := tokens_conserved (fun _ => 0) (.evm .petersburg) plainCall 1
    { beneficiary := 2 } 0 [] (rich 30000 0) { incarnation := ⟨1, 1⟩ } st₁ htotal
    (begins_fresh _ _ _) (by decide +kernel) hvalid
  obtain ⟨rfl, rfl⟩ := Prod.mk.inj (Option.some.inj (hcharged.symm.trans hcharged'))
  obtain ⟨gasUsed, st4, receipt, st₅, -, hfnl, -, hsum⟩ := hrest Unit shuffle ⟨true, 1000, 0⟩ () 500
    st₃ hshuffle (by decide) (by decide) (by decide)
  refine ⟨st₁, st₂, st₃, st₅, hvalid, hcharged, hshuffle, ⟨receipt, hfnl⟩, ?_⟩
  rw [total_rich] at hsum
  omega

/-- A transaction that passes the validation, does nothing, and ends. -/
def callAndEnd (v : View) : Option (Except MonadException Receipt) :=
  (((do
    let valid ← validateTransaction (fun _ => 0) (.evm .petersburg) plainCall 1 0 []
    match valid with
    | .error _ => abort
    | .ok () => do
      let charged ← irrevocableChange (fun _ => 0) (.evm .petersburg) plainCall 1 0 0
      match charged with
      | .error _ => abort
      | .ok () => executeFinal (fun _ => 0) (.evm .petersburg) plainCall 1 ⟨2, none, none⟩ ⟨true, 0, 0⟩ :
      Method (Except MonadException Receipt))
    { incarnation := ⟨1, 1⟩ }).answer v.answer).map (·.1)

/-- If the tokens do not fit in a `uint256_t`, the award can overflow. -/
theorem award_overflows : staticValidateTransaction (.evm .petersburg) plainCall none none 0 = .ok () ∧
    callAndEnd (rich 30000 uint256Max) = some (.error .balanceOverflow) := by
  refine ⟨by decide +kernel, ?_⟩
  decide +kernel

end MonadExecution.Ethereum.Gas
