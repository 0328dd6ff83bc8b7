/-
# Story.EvmStaking.RewardMinimum -- the minimum of a reward withdrawal

The sweep decides with one sum and pays another. `ProcessEligibleRewardWithdrawal` adds the
rewards and the commission as decimals and truncates the sum; `EnqueueRewardWithdrawal`
withdraws the two one by one, and each of them is truncated by itself. The sums differ by one
when the fractions add up to a whole coin, so a self-delegation that comes to one less than the
minimum may be queued. In every other case what is queued reaches the minimum, and what does not
reach it is left alone.
-/
import Story.EvmStaking.Payments
import Story.EvmStaking.Sweep

namespace Story.EvmStaking

open Story.Effect Story.Errors Story.Sdk Story.Collections Story.Eth

variable {W : Type} {K : Keepers W} {ctx : Ctx} {s t : Store W}

/-! ## What is due -/

/-- What a call is told is due: rewards, and commission if the delegation is the validator's own,
in 10^-18 of the bond coin, and the spendable balance of the delegator. -/
structure Dues where
  rewards : Int
  commission : Int
  spendable : Int

namespace Dues

/-- **The amount a withdrawal pays out.** -/
def payout (D : Dues) : Int := D.rewards / 10 ^ 18 + D.commission / 10 ^ 18 + D.spendable

/-- The fractions of the rewards and the commission add up to a whole coin. -/
def Carries (D : Dues) : Prop := 10 ^ 18 ≤ D.rewards % 10 ^ 18 + D.commission % 10 ^ 18

instance (D : Dues) : Decidable D.Carries := inferInstanceAs (Decidable (_ ≤ _))

/-- The coin that counts in the decision and not in the payment. -/
def carry (D : Dues) : Int := if D.Carries then 1 else 0

end Dues

/-- **What is relied on in one call**, which reads what is due in the stores `w` and leaves them as
`w'`: the balance is as it was, and from `w'` on the distribution module pays what it reported,
truncated, and refuses to pay commission only when there is none. -/
structure Dues.Laws (D : Dues) (K : Keepers W) (balance : W → Int) (ctx : Ctx)
    (delegation : Delegation) (validator : Validator) (del val : Bytes) (w w' : W) : Prop where
  valAddress : K.codec.valAddressFromBech32 (K.codec.valString val) = .ok val
  reported : ∃ rewards commission spendable,
    Reports K ctx delegation validator del val w rewards commission spendable w' ∧
      rewards defaultBondDenom = D.rewards ∧ commission defaultBondDenom = D.commission ∧
      spendable.amount = D.spendable
  balance : balance w' = balance w
  rewardsPaid : ∀ coins w₁, Returns (K.distr.withdrawDelegationRewards ctx del val) w' coins w₁ →
    coins defaultBondDenom = D.rewards / 10 ^ 18
  commissionPaid : delegation.delegatorAddress = K.codec.accString val →
    ∀ coins w₁ coins' w₂, Returns (K.distr.withdrawDelegationRewards ctx del val) w' coins w₁ →
      Returns (K.distr.withdrawValidatorCommission ctx val) w₁ coins' w₂ →
      coins' defaultBondDenom = D.commission / 10 ^ 18
  noCommission : delegation.delegatorAddress = K.codec.accString val →
    ∀ coins w₁ e w₂, Returns (K.distr.withdrawDelegationRewards ctx del val) w' coins w₁ →
      Fails (K.distr.withdrawValidatorCommission ctx val) w₁ (.err e) w₂ →
      .noValidatorCommission ∈ e.is → D.commission = 0

/-- Truncating a sum, and truncating its parts. -/
theorem Dues.truncate_add {D : Dues} (hrewards : 0 ≤ D.rewards) (hcommission : 0 ≤ D.commission) :
    (D.rewards + D.commission).tdiv (10 ^ 18) + D.spendable = D.payout + D.carry := by
  rw [Int.tdiv_eq_ediv_of_nonneg (Int.add_nonneg hrewards hcommission)]
  unfold payout carry
  split
  all_goals
    rename_i hcarries
    unfold Carries at hcarries
    omega

/-! ## The two sums -/

/-- The calls report one thing. -/
theorem Reports.unique {delegation : Delegation} {validator : Validator} {del val : Bytes}
    {w w₁ w₂ : W} {rewards rewards' commission commission' : DecCoins} {spendable spendable' : Coin}
    (h : Reports K ctx delegation validator del val w rewards commission spendable w₁)
    (h' : Reports K ctx delegation validator del val w rewards' commission' spendable' w₂) :
    rewards = rewards' ∧ commission = commission' ∧ spendable = spendable' ∧ w₁ = w₂ := by
  obtain ⟨period, a, b, c, hperiod, hrewards, hcommission, hspendable⟩ := h
  obtain ⟨period', a', b', c', hperiod', hrewards', hcommission', hspendable'⟩ := h'
  obtain ⟨rfl, rfl⟩ := hperiod.unique hperiod'
  obtain ⟨rfl, rfl⟩ := hrewards.unique hrewards'
  obtain ⟨rfl, rfl⟩ : commission = commission' ∧ c = c' := by
    split at hcommission
    next hself =>
      rw [if_pos hself] at hcommission'
      exact hcommission.unique hcommission'
    next hother =>
      rw [if_neg hother] at hcommission'
      exact ⟨hcommission.1.trans hcommission'.1.symm, hcommission.2.trans hcommission'.2.symm⟩
  obtain ⟨rfl, rfl⟩ := hspendable.unique hspendable'
  exact ⟨rfl, rfl, rfl, rfl⟩

section Sums

variable {D : Dues} {balance : W → Int} {w w' : W} {delegation : Delegation}
  {validator : Validator} {del val : Bytes}
  (laws : D.Laws K balance ctx delegation validator del val w w')

include laws

/-- **The sum the sweep decides with.** -/
theorem Appraised.sums {rewards commission : DecCoins} {unclaimed claimed : UInt64} {w₁ : W}
    (h : Appraised K ctx delegation validator w del val rewards commission unclaimed claimed w₁) :
    w₁ = w' ∧ (unclaimed.toNat : Int) = (D.rewards + D.commission).tdiv (10 ^ 18) ∧
      (claimed.toNat : Int) = D.spendable := by
  obtain ⟨spendable, hreports, hclaimed⟩ := h.calls
  obtain ⟨_, _, _, hreports', hr, hc, hs⟩ := laws.reported
  obtain ⟨rfl, rfl, rfl, rfl⟩ := hreports.unique hreports'
  refine ⟨rfl, ?_, hclaimed.symm.trans hs⟩
  rw [← h.unclaimed_eq, truncateDecimal, Pi.add_apply, hr, hc]

/-- Commission is due to a validator alone. -/
theorem Dues.Laws.commission_eq_zero
    (hother : delegation.delegatorAddress ≠ K.codec.accString val) : D.commission = 0 := by
  obtain ⟨_, commission, _, ⟨_, _, _, _, _, _, hcommission, _⟩, _, hc, _⟩ := laws.reported
  rw [if_neg hother] at hcommission
  rw [← hc, hcommission.1]
  rfl

/-- **The sum it pays.** -/
theorem Collects.payout {claimed : UInt64} {coins : Coins} {w₂ : W}
    (h : Collects K ctx delegation.delegatorAddress del val claimed w' coins w₂)
    (hclaimed : claimed.toNat = D.spendable) : coins defaultBondDenom = D.payout := by
  obtain ⟨rewards, commission, w₁, hrewards, hcommission, rfl⟩ := h
  have hr := laws.rewardsPaid _ _ hrewards
  have hc : commission defaultBondDenom = D.commission / 10 ^ 18 := by
    split at hcommission
    next hself =>
      rcases hcommission with hc | ⟨rfl, e, hfail, hno⟩
      · exact laws.commissionPaid hself _ _ _ _ hrewards hc
      · rw [laws.noCommission hself _ _ _ _ hrewards hfail hno]
        rfl
    next hother =>
      obtain ⟨rfl, _⟩ := hcommission
      rw [laws.commission_eq_zero hother]
      rfl
  simp only [Pi.add_apply, hr, hc, newCoins, if_true, hclaimed, Dues.payout]

end Sums

/-! ## A ledger that counts fractions -/

section Fractional

open Story.Sdk.Ledger

/-- The distribution module of the ledger with rewards and commission in 10^-18 of a coin: what
is less than a coin is not paid out. -/
def fractionalDistr : DistributionKeeper Ledger :=
  { Ledger.distr with
    calculateDelegationRewards := fun _ val del _ => do
      return bondCoins ((← get).rewards (decode del.delegatorAddress) (decode val.operator))
    getValidatorAccumulatedCommission := fun _ val => do
      return bondCoins ((← get).commission val)
    withdrawDelegationRewards := fun _ del val => do
      let l ← get
      let amount := l.rewards del val / 10 ^ 18
      set { l.credit del amount with
        rewards := Function.update l.rewards del (Function.update (l.rewards del) val 0) }
      return bondCoins amount
    withdrawValidatorCommission := fun _ val => do
      let l ← get
      let amount := l.commission val / 10 ^ 18
      if l.commission val = 0 then refuse "no validator commission" [.noValidatorCommission]
      else
        set { l.credit val amount with
          commission := Function.update l.commission val (l.commission val % 10 ^ 18) }
        return bondCoins amount }

def fractionalKeepers : Keepers Ledger := { Ledger.keepers with distr := fractionalDistr }

@[simp] theorem bondCoins_bond (amount : Int) : bondCoins amount defaultBondDenom = amount := by
  simp [bondCoins, newCoins]

/-- What is due on the ledger. -/
def ledgerDues (l : Ledger) (delegator : String) (del val : Bytes) : Dues where
  rewards := l.rewards del val
  commission := if delegator = encode val then l.commission val else 0
  spendable := l.balance del

theorem ledger_reports (ctx : Ctx) (delegation : Delegation) (validator : Validator) (l : Ledger) :
    ∃ rewards commission spendable,
      Reports fractionalKeepers ctx delegation validator (decode delegation.delegatorAddress)
        (decode validator.operator) l rewards commission spendable l ∧
      let D := ledgerDues l delegation.delegatorAddress (decode delegation.delegatorAddress)
        (decode validator.operator)
      rewards defaultBondDenom = D.rewards ∧ commission defaultBondDenom = D.commission ∧
        spendable.amount = D.spendable := by
  by_cases hself : delegation.delegatorAddress = encode (decode validator.operator)
  · refine ⟨_, bondCoins (l.commission (decode validator.operator)), _,
      ⟨_, l, l, l, rfl, rfl, ?_, rfl⟩, bondCoins_bond _, ?_, rfl⟩
    · exact (if_pos hself).mpr rfl
    · rw [bondCoins_bond]
      exact (if_pos hself).symm
  · refine ⟨_, 0, _, ⟨_, l, l, l, rfl, rfl, ?_, rfl⟩, bondCoins_bond _, ?_, rfl⟩
    · exact (if_neg hself).mpr ⟨rfl, rfl⟩
    · exact (if_neg hself).symm

theorem ledgerDues_laws (ctx : Ctx) (delegation : Delegation) (validator : Validator) (l : Ledger) :
    (ledgerDues l delegation.delegatorAddress (decode delegation.delegatorAddress)
        (decode validator.operator)).Laws fractionalKeepers
      (fun l => l.balance (decode delegation.delegatorAddress)) ctx delegation validator
      (decode delegation.delegatorAddress) (decode validator.operator) l l where
  valAddress := congrArg Except.ok (decode_encode _)
  reported := ledger_reports ctx delegation validator l
  balance := rfl
  rewardsPaid := by
    intro coins w₁ h
    obtain ⟨_, hl, h⟩ := ReadOnly.returns_bind_iff.mp h
    obtain ⟨rfl, _⟩ := returns_get.mp hl
    obtain ⟨_, _, _, h⟩ := returns_bind.mp h
    obtain ⟨rfl, rfl⟩ := returns_pure.mp h
    exact bondCoins_bond _
  commissionPaid := by
    intro hself coins w₁ coins' w₂ h h'
    obtain ⟨_, hl, h⟩ := ReadOnly.returns_bind_iff.mp h
    obtain ⟨rfl, _⟩ := returns_get.mp hl
    obtain ⟨_, _, hset, h⟩ := returns_bind.mp h
    obtain rfl := returns_set.mp hset
    obtain ⟨rfl, rfl⟩ := returns_pure.mp h
    obtain ⟨_, hl, h'⟩ := ReadOnly.returns_bind_iff.mp h'
    obtain ⟨rfl, _⟩ := returns_get.mp hl
    rcases returns_ite.mp h' with ⟨_, h'⟩ | ⟨_, h'⟩
    · exact absurd h' returns_throw
    · obtain ⟨_, _, _, h'⟩ := returns_bind.mp h'
      obtain ⟨rfl, rfl⟩ := returns_pure.mp h'
      rw [bondCoins_bond]
      exact congrArg (· / 10 ^ 18) (if_pos hself).symm
  noCommission := by
    intro hself coins w₁ e w₂ h h' _
    obtain ⟨_, hl, h⟩ := ReadOnly.returns_bind_iff.mp h
    obtain ⟨rfl, _⟩ := returns_get.mp hl
    obtain ⟨_, _, hset, h⟩ := returns_bind.mp h
    obtain rfl := returns_set.mp hset
    obtain ⟨rfl, rfl⟩ := returns_pure.mp h
    rcases fails_bind.mp h' with h' | ⟨_, _, hl, h'⟩
    · exact absurd h' fails_get
    obtain ⟨rfl, rfl⟩ := returns_get.mp hl
    rcases fails_ite.mp h' with ⟨hzero, _⟩ | ⟨_, h'⟩
    · exact (if_pos hself).trans hzero
    · rcases fails_bind.mp h' with h' | ⟨_, _, _, h'⟩
      · exact absurd h' fails_set
      · exact absurd h' fails_pure

end Fractional

/-- A validator with half a coin of rewards on its own stake, half a coin of commission and a
balance of seven. -/
def halfAndHalf : Store Ledger :=
  let fresh := Store.fresh
    { Ledger.empty with
      balance := fun _ => 7
      rewards := fun _ _ => 5 * 10 ^ 17
      commission := fun _ => 5 * 10 ^ 17 }
  { fresh with accounts := { fresh.accounts with delegatorRewardAddress := fun _ => some "0x01" } }

/-- The validator's own delegation. -/
def ownDelegation : Delegation := ⟨Ledger.encode [1], Ledger.encode [1], 1⟩

/-- What is queued for the validator, with the minimum `minAmount`. -/
theorem halfAndHalf_queues (minAmount : UInt64) (h : minAmount = 7 ∨ minAmount = 8) :
    ∃ t, Returns (processEligibleRewardWithdrawal fractionalKeepers sampleCtx ownDelegation
        (sampleValidator 1 false) minAmount) halfAndHalf () t ∧
      t.rewardWithdrawalQueue.waiting.map Withdrawal.amount = [7] := by
  have heval : (outcome (processEligibleRewardWithdrawal fractionalKeepers sampleCtx ownDelegation
      (sampleValidator 1 false) minAmount) halfAndHalf).map
        (fun o => o.2.rewardWithdrawalQueue.waiting.map Withdrawal.amount) = some [7] := by
    rcases h with rfl | rfl <;> decide +kernel
  obtain ⟨_, t, ht, hqueue⟩ := returns_of_outcome heval
  exact ⟨t, ht, hqueue⟩

/-! ## Only rewards that reach the minimum are queued -/

/-- **What a call does**: it decides with the carry, and pays without it. -/
theorem Dues.Laws.swept {D : Dues} {balance : W → Int} {w : W} {delegation : Delegation}
    {validator : Validator} {minAmount : UInt64} {del val : Bytes}
    (laws : D.Laws K balance ctx delegation validator del val s.accounts.sdk w)
    (hval : K.codec.validatorStringToBytes validator.operator = .ok val)
    (hdel : K.codec.accAddressFromBech32 delegation.delegatorAddress = .ok del)
    (hrewards : 0 ≤ D.rewards) (hcommission : 0 ≤ D.commission) (hfits : D.payout < 2 ^ 63)
    (h : Returns (processEligibleRewardWithdrawal K ctx delegation validator minAmount) s () t) :
    (minAmount.toNat ≤ D.payout + D.carry ∧ ∃ withdrawal : Withdrawal,
      t.rewardWithdrawalQueue = s.rewardWithdrawalQueue.push withdrawal ∧
        withdrawal.amount.toNat = D.payout) ∨
    (D.payout + D.carry < minAmount.toNat ∧ t.rewardWithdrawalQueue = s.rewardWithdrawalQueue ∧
      balance t.accounts.sdk = balance s.accounts.sdk) := by
  obtain ⟨del', val', rewards, commission, unclaimed, claimed, w', happ, hcase⟩ :=
    returns_processEligibleRewardWithdrawal h
  obtain rfl : del = del' := Except.ok.inj (hdel.symm.trans happ.delAddr)
  obtain rfl : val = val' := Except.ok.inj (hval.symm.trans happ.valAddr)
  obtain ⟨rfl, hunclaimed, hclaimed⟩ := happ.sums laws
  have hsum : ((unclaimed.toNat + claimed.toNat : Nat) : Int) = D.payout + D.carry := by
    rw [Nat.cast_add, hunclaimed, hclaimed, Dues.truncate_add hrewards hcommission]
  -- the sum does not wrap around
  have hadd : ((unclaimed + claimed).toNat : Int) = D.payout + D.carry := by
    have hcarry : D.carry ≤ 1 := by
      unfold Dues.carry
      split <;> omega
    rw [← hsum, UInt64.toNat_add, Nat.mod_eq_of_lt (by omega)]
  rw [UInt64.le_iff_toNat_le] at hcase
  rcases hcase with ⟨hle, henqueue⟩ | ⟨hnot, rfl⟩
  · refine .inl ⟨by omega, ?_⟩
    obtain ⟨del', val', evm, coins, amount, w₁, w₂, hdel', hval', _, hcollects, hamount, _, rfl⟩ :=
      returns_enqueueRewardWithdrawal henqueue
    obtain rfl : del = del' := Except.ok.inj (hdel.symm.trans hdel')
    obtain rfl : val = val' := Except.ok.inj (laws.valAddress.symm.trans hval')
    exact ⟨_, rfl, hamount.symm.trans (hcollects.payout laws hclaimed)⟩
  · exact .inr ⟨by omega, rfl, laws.balance⟩

/-- Exactly what reaches the minimum is queued, and what does not is left alone. -/
def Dues.QueuedFrom (D : Dues) (balance : W → Int) (minAmount : UInt64) (s t : Store W) : Prop :=
  (minAmount.toNat ≤ D.payout ∧ ∃ withdrawal : Withdrawal,
    t.rewardWithdrawalQueue = s.rewardWithdrawalQueue.push withdrawal ∧
      withdrawal.amount.toNat = D.payout) ∨
  (D.payout < minAmount.toNat ∧ t.rewardWithdrawalQueue = s.rewardWithdrawalQueue ∧
    balance t.accounts.sdk = balance s.accounts.sdk)

/-- **Only rewards that reach the minimum are queued**, unless the fractions of rewards and
commission add up to a whole coin and the payout is just this coin short of the minimum; then they
are queued all the same. -/
theorem queued_iff_payout_reaches_minimum {D : Dues} {balance : W → Int} {w : W}
    {delegation : Delegation} {validator : Validator} {minAmount : UInt64} {del val : Bytes}
    (laws : D.Laws K balance ctx delegation validator del val s.accounts.sdk w)
    (hval : K.codec.validatorStringToBytes validator.operator = .ok val)
    (hdel : K.codec.accAddressFromBech32 delegation.delegatorAddress = .ok del)
    (hrewards : 0 ≤ D.rewards) (hcommission : 0 ≤ D.commission) (hfits : D.payout < 2 ^ 63)
    (h : Returns (processEligibleRewardWithdrawal K ctx delegation validator minAmount) s () t) :
    D.QueuedFrom balance minAmount s t ↔ ¬ (D.Carries ∧ D.payout + 1 = minAmount.toNat) := by
  have hswept := laws.swept hval hdel hrewards hcommission hfits h
  unfold Dues.carry at hswept
  constructor
  · rintro hqueued ⟨hcarries, hshort⟩
    rw [if_pos hcarries] at hswept
    -- the payout is below the minimum, so nothing should have been queued
    obtain ⟨_, hkept, _⟩ := hqueued.resolve_left fun hreach => by omega
    obtain ⟨_, withdrawal, hpush, _⟩ := hswept.resolve_right fun hbelow => by omega
    exact Queue.push_ne _ _ (hpush.symm.trans hkept)
  · intro hnot
    rcases hswept with ⟨hle, hpush⟩ | ⟨hlt, hkept⟩
    · refine .inl ⟨?_, hpush⟩
      split at hle
      next hcarries =>
        have hne : D.payout + 1 ≠ minAmount.toNat := fun hshort => hnot ⟨hcarries, hshort⟩
        omega
      next => omega
    · refine .inr ⟨?_, hkept⟩
      split at hlt <;> omega

/-- What is due to the validator: half a coin, half a coin, and seven. -/
def halfAndHalfDues : Dues := ⟨5 * 10 ^ 17, 5 * 10 ^ 17, 7⟩

theorem halfAndHalfDues_laws : halfAndHalfDues.Laws fractionalKeepers (fun l => l.balance [1])
    sampleCtx ownDelegation (sampleValidator 1 false) [1] [1] halfAndHalf.accounts.sdk
    halfAndHalf.accounts.sdk := by
  have hone : Ledger.decode (Ledger.encode [1]) = [1] := Ledger.decode_encode [1]
  have hlaws := ledgerDues_laws sampleCtx ownDelegation (sampleValidator 1 false)
    halfAndHalf.accounts.sdk
  have hdel : Ledger.decode ownDelegation.delegatorAddress = [1] := hone
  have hval : Ledger.decode (sampleValidator 1 false).operator = [1] := hone
  rw [hdel, hval] at hlaws
  exact hlaws

/-- With a minimum of seven the validator's seven coins are queued. -/
theorem seven_reach_seven : ∃ t, ∃ withdrawal : Withdrawal,
    Returns (processEligibleRewardWithdrawal fractionalKeepers sampleCtx ownDelegation
      (sampleValidator 1 false) 7) halfAndHalf () t ∧
    t.rewardWithdrawalQueue = halfAndHalf.rewardWithdrawalQueue.push withdrawal ∧
    withdrawal.amount.toNat = 7 := by
  obtain ⟨t, ht, _⟩ := halfAndHalf_queues 7 (.inl rfl)
  have hval : fractionalKeepers.codec.validatorStringToBytes (sampleValidator 1 false).operator =
      .ok [1] := congrArg Except.ok (Ledger.decode_encode [1])
  have hdel : fractionalKeepers.codec.accAddressFromBech32 ownDelegation.delegatorAddress =
      .ok [1] := congrArg Except.ok (Ledger.decode_encode [1])
  have hqueued := (queued_iff_payout_reaches_minimum halfAndHalfDues_laws hval hdel (by decide)
    (by decide) (by decide) ht).mpr (by decide)
  rcases hqueued with ⟨_, withdrawal, hpush, hamount⟩ | ⟨hlt, _⟩
  · have hseven : halfAndHalfDues.payout = 7 := by decide
    rw [hseven] at hamount
    exact ⟨t, withdrawal, ht, hpush, by exact_mod_cast hamount⟩
  · exact absurd hlt (by decide)

/-- With a minimum of eight they are queued as well: the fractions count in the decision, and are
lost in the payment. -/
theorem seven_queued_below_eight :
    halfAndHalfDues.Laws fractionalKeepers (fun l => l.balance [1]) sampleCtx ownDelegation
      (sampleValidator 1 false) [1] [1] halfAndHalf.accounts.sdk halfAndHalf.accounts.sdk ∧
    halfAndHalfDues.payout = 7 ∧
    ∃ t, Returns (processEligibleRewardWithdrawal fractionalKeepers sampleCtx ownDelegation
        (sampleValidator 1 false) 8) halfAndHalf () t ∧
      t.rewardWithdrawalQueue.waiting.map Withdrawal.amount = [7] :=
  ⟨halfAndHalfDues_laws, by decide, halfAndHalf_queues 8 (.inr rfl)⟩

end Story.EvmStaking
