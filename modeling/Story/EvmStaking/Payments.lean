/-
# Story.EvmStaking.Payments -- what the end of a block pays

Four paths of `EndBlock` burn coins and queue a withdrawal: the principal of an entry, the
residue on the account of its delegator, the rewards the sweep reaches, and the UBI pool. Each
works out by itself what it burns and what it queues. Here they become one machine: its
steps are quiet keeper calls, and payments, which burn coins, write a debug line and queue
a withdrawal. `EndBlock` refines it, first one payment of principal for each entry in their
order, then payments of rewards and of the UBI pool; what holds of every payment holds of the
block.
-/
import Story.Effect.Trace
import Story.EvmStaking.Calls
import Story.EvmStaking.Withdraw

namespace Story.EvmStaking

open Story.Effect Story.Errors Story.Sdk Story.Collections Story.Netconf Story.Eth

variable {W α : Type} {K : Keepers W} {Q : W → W → Prop} {ctx : Ctx} {s t : Store W}

/-! ## Payments -/

/-- What a payment is for, and the withdrawal it queues. A payment of rewards is known by its
debug line. -/
inductive Payment
  | principal (entry : UnbondedEntry) (withdrawal : Withdrawal)
  | reward (line : LogLine) (withdrawal : Withdrawal)
  | ubi (withdrawal : Withdrawal)

/-- The withdrawal of a payment. -/
def Payment.withdrawal : Payment → Withdrawal
  | .principal _ withdrawal => withdrawal
  | .reward _ withdrawal => withdrawal
  | .ubi withdrawal => withdrawal

/-- The delegator and the amount of a line about rewards. -/
def LogLine.reward : LogLine → Option (String × UInt64)
  | .unstake _ _ _ => none
  | .residue delegator _ amount => some (delegator, amount)
  | .rewards _ delegator _ _ amountTotal => some (delegator, amountTotal)

/-- Keeper calls have moved the stores of the SDK modules to `w`. -/
def Store.withSdk (s : Store W) (w : W) : Store W :=
  { s with accounts := { s.accounts with sdk := w } }

/-- A payment is recorded, once its coins are burned. -/
def Store.settle (s : Store W) (w : W) : Payment → Store W
  | .principal entry withdrawal =>
      { s.withSdk w with
        journal := s.journal ++
          [.unstake entry.delegatorAddress entry.validatorAddress entry.amount]
        withdrawalQueue := s.withdrawalQueue.push withdrawal }
  | .reward line withdrawal =>
      { s.withSdk w with
        journal := s.journal ++ [line]
        rewardWithdrawalQueue := s.rewardWithdrawalQueue.push withdrawal }
  | .ubi withdrawal =>
      { s.withSdk w with withdrawalQueue := s.withdrawalQueue.push withdrawal }

/-- Coins of an account are sent to the module and burned. -/
def Burns (K : Keepers W) (ctx : Ctx) (addr : Bytes) (coins : Coins) (w w' : W) : Prop :=
  ∃ w₁, Returns (K.bank.sendCoinsFromAccountToModule ctx addr moduleName coins) w () w₁ ∧
    Returns (K.bank.burnCoins ctx moduleName coins) w₁ () w'

/-- The coins of a payment are burned, which leads to `w`, and the withdrawal is made out to
whom they belonged. -/
def Payment.Burned (K : Keepers W) (ctx : Ctx) (s : Store W) (w : W) : Payment → Prop
  | .principal entry withdrawal =>
      ∃ addr val evm, ∃ amount : UInt64,
        K.codec.accAddressFromBech32 entry.delegatorAddress = .ok addr ∧
        K.codec.valAddressFromBech32 entry.validatorAddress = .ok val ∧
        s.accounts.delegatorWithdrawAddress entry.delegatorAddress = some evm ∧
        entry.amount = amount.toNat ∧
        Burns K ctx addr (newCoins ⟨defaultBondDenom, amount.toNat⟩) s.accounts.sdk w ∧
        withdrawal = ⟨toUint64 ctx.blockHeight, evm, amount, .unstake, K.codec.hexEncode val⟩
  | .reward line withdrawal =>
      ∃ delegator addr val evm, ∃ coins : Coins, ∃ amount : UInt64,
        line.reward = some (delegator, amount) ∧
        K.codec.accAddressFromBech32 delegator = .ok addr ∧
        s.accounts.delegatorRewardAddress delegator = some evm ∧
        coins defaultBondDenom = amount.toNat ∧
        Burns K ctx addr coins s.accounts.sdk w ∧
        withdrawal = ⟨toUint64 ctx.blockHeight, evm, amount, .reward, K.codec.hexEncode val⟩
  | .ubi withdrawal =>
      ∃ balance coin w₁ w₂, ∃ amount : UInt64,
        Returns (K.distr.getUbiBalanceByDenom ctx defaultBondDenom) s.accounts.sdk balance w₁ ∧
        Returns (K.distr.withdrawUbiByDenomToModule ctx defaultBondDenom moduleName) w₁ coin w₂ ∧
        Returns (K.bank.burnCoins ctx moduleName (newCoins coin)) w₂ () w ∧
        balance = amount.toNat ∧
        withdrawal =
          ⟨toUint64 ctx.blockHeight, s.currentParams.ubiWithdrawAddress, amount, .ubi, ""⟩

/-- A step of the machine: quiet keeper calls and the sweep index, or a payment. -/
def PayStep (K : Keepers W) (Q : W → W → Prop) (ctx : Ctx) :
    Option Payment → Store W → Store W → Prop
  | none, s, t =>
      ∃ w index, Q s.accounts.sdk w ∧ t = { s.withSdk w with validatorSweepIndex := index }
  | some p, s, t => ∃ w, p.Burned K ctx s w ∧ t = s.settle w p

/-! ## What payments leave behind -/

/-- The withdrawal of a payment, if it goes into the withdrawal queue. -/
def Payment.toWithdrawalQueue : Payment → Option Withdrawal
  | .principal _ withdrawal => some withdrawal
  | .reward _ _ => none
  | .ubi withdrawal => some withdrawal

/-- The withdrawal of a payment, if it goes into the reward withdrawal queue. -/
def Payment.toRewardQueue : Payment → Option Withdrawal
  | .principal _ _ => none
  | .reward _ withdrawal => some withdrawal
  | .ubi _ => none

/-- The withdrawals of a run of payments, by queue. -/
def toWithdrawalQueue (ps : List (Option Payment)) : List Withdrawal :=
  ps.filterMap fun p => p.bind Payment.toWithdrawalQueue

def toRewardQueue (ps : List (Option Payment)) : List Withdrawal :=
  ps.filterMap fun p => p.bind Payment.toRewardQueue

/-- A step pushes the withdrawals of its payment, and no others. -/
def Pushes (p : Option Payment) (s t : Store W) : Prop :=
  t.withdrawalQueue = s.withdrawalQueue.pushAll (toWithdrawalQueue [p]) ∧
    t.rewardWithdrawalQueue = s.rewardWithdrawalQueue.pushAll (toRewardQueue [p])

theorem PayStep.pushes {p : Option Payment} (h : PayStep K Q ctx p s t) : Pushes p s t := by
  rcases p with _ | p
  · obtain ⟨w, index, _, rfl⟩ := h
    exact ⟨rfl, rfl⟩
  · obtain ⟨w, _, rfl⟩ := h
    cases p <;> exact ⟨rfl, rfl⟩

/-- **A run of such steps** leaves its withdrawals in the two queues, in their order. -/
theorem queues_of_payments {R : Option Payment → Store W → Store W → Prop}
    (hR : ∀ p s t, R p s t → Pushes p s t) {ps : List (Option Payment)} (h : Trace R s ps t) :
    t.withdrawalQueue = s.withdrawalQueue.pushAll (toWithdrawalQueue ps) ∧
      t.rewardWithdrawalQueue = s.rewardWithdrawalQueue.pushAll (toRewardQueue ps) := by
  refine h.invariant (I := fun ps t =>
    t.withdrawalQueue = s.withdrawalQueue.pushAll (toWithdrawalQueue ps) ∧
      t.rewardWithdrawalQueue = s.rewardWithdrawalQueue.pushAll (toRewardQueue ps)) ⟨rfl, rfl⟩ ?_
  rintro ps p t u ⟨hw, hr⟩ hstep
  obtain ⟨hw', hr'⟩ := hR p t u hstep
  rw [hw', hr', hw, hr, ← Queue.pushAll_append, ← Queue.pushAll_append]
  simp only [toWithdrawalQueue, toRewardQueue, List.filterMap_append, and_self]

/-- A run of the machine that pays no principal. -/
def PaysRewards (K : Keepers W) (Q : W → W → Prop) (ctx : Ctx) (s t : Store W) : Prop :=
  ∃ ps, Trace (PayStep K Q ctx) s ps t ∧ ∀ e w, some (.principal e w) ∉ ps

instance : IsPreorder (Store W) (PaysRewards K Q ctx) where
  refl := fun _ => ⟨[], .nil, by simp⟩
  trans := by
    rintro s t u ⟨ps, h, hp⟩ ⟨ps', h', hp'⟩
    refine ⟨ps ++ ps', h.append h', ?_⟩
    intro e w hmem
    rcases List.mem_append.mp hmem with hmem | hmem
    · exact hp e w hmem
    · exact hp' e w hmem

theorem PayStep.paysRewards {p : Option Payment} (h : PayStep K Q ctx p s t)
    (hp : ∀ e w, p ≠ some (.principal e w)) : PaysRewards K Q ctx s t := by
  refine ⟨[p], Trace.nil.snoc h, ?_⟩
  intro e w hmem
  exact hp e w (List.mem_singleton.mp hmem).symm

/-- Quiet calls pay nothing. -/
instance moves_call_paysRewards (x : SdkProg W α) [Moves Q x] :
    Moves (PaysRewards K Q ctx) (call x : Prog (Store W) α) := by
  refine moves_call (Q := Q) fun s w h => ?_
  exact PayStep.paysRewards (p := none) ⟨w, s.validatorSweepIndex, h, rfl⟩ (by simp)

/-! ## The principal of an entry -/

@[simp] theorem returns_debug {line : LogLine} {u : Unit} :
    Returns (debug line) s u t ↔ { s with journal := s.journal ++ [line] } = t := by
  simp [debug]

theorem returns_bech32ValidatorAddressToEvmAddress {σ : Type} {codec : Codec} {address evm : String}
    {s t : σ} : Returns (bech32ValidatorAddressToEvmAddress codec address) s evm t ↔
      ∃ val, codec.valAddressFromBech32 address = .ok val ∧ codec.hexEncode val = evm ∧ s = t := by
  simp only [bech32ValidatorAddressToEvmAddress, returns_bind, returns_wrapErr, returns_convert,
    returns_pure]
  constructor
  · rintro ⟨val, _, ⟨hval, rfl⟩, hevm, rfl⟩
    exact ⟨val, hval, hevm, rfl⟩
  · rintro ⟨val, hval, hevm, rfl⟩
    exact ⟨val, s, ⟨hval, rfl⟩, hevm, rfl⟩

/-- **The first loop** pays the principal of the entry. -/
theorem unstakePrincipal_pays {entry : UnbondedEntry}
    (h : Returns (unstakePrincipal K ctx entry) s () t) :
    ∃ w, PayStep K Q ctx (some (.principal entry w)) s t := by
  simp only [unstakePrincipal, getWithdrawAddress, returns_bind, returns_wrapErr, returns_debug,
    returns_convert, returns_bech32ValidatorAddressToEvmAddress, returns_getEntry, returns_uint64,
    returns_ipTokenToBondCoin, returns_call, returns_addWithdrawalToQueue] at h
  obtain ⟨_, _, rfl, addr, _, ⟨haddr, rfl⟩, _, _, ⟨val, hval, rfl, rfl⟩, evm, _, ⟨hevm, rfl⟩,
    amount, _, ⟨hamount, rfl⟩, _, _, ⟨rfl, rfl⟩, _, _, ⟨w₁, hsend, rfl⟩, _, _, ⟨w, hburn, rfl⟩,
    rfl⟩ := h
  refine ⟨_, w, ⟨addr, val, evm, amount, haddr, hval, hevm, hamount, ⟨w₁, hsend, hburn⟩, rfl⟩, ?_⟩
  rfl

/-! ## The rewards of a delegation -/

/-- The commission of a validator is withdrawn, if it has any. -/
def WithdrawsCommission (K : Keepers W) (ctx : Ctx) (val : Bytes) (w : W) (commission : Coins)
    (w' : W) : Prop :=
  Returns (K.distr.withdrawValidatorCommission ctx val) w commission w' ∨
    commission = 0 ∧ ∃ e, Fails (K.distr.withdrawValidatorCommission ctx val) w (.err e) w' ∧
      .noValidatorCommission ∈ e.is

/-- The rewards of a delegation, and for a self-delegation the commission, are withdrawn; with
the balance that was claimed before they come to `coins`. -/
def Collects (K : Keepers W) (ctx : Ctx) (delegator : String) (del val : Bytes)
    (claimedReward : UInt64) (w : W) (coins : Coins) (w' : W) : Prop :=
  ∃ rewards commission w₁,
    Returns (K.distr.withdrawDelegationRewards ctx del val) w rewards w₁ ∧
    (if delegator = K.codec.accString val then WithdrawsCommission K ctx val w₁ commission w'
      else commission = 0 ∧ w' = w₁) ∧
    coins = rewards + commission + newCoins ⟨defaultBondDenom, claimedReward.toNat⟩

/-- The error a keeper reports, seen by the program. -/
theorem fails_call_err {x : SdkProg W α} {err : GoError} :
    Fails (call x) s (.err err) t ↔
      ∃ e w, Fails x s.accounts.sdk (.err e) w ∧ GoError.ofSdk e = err ∧ s.withSdk w = t := by
  rw [fails_call]
  constructor
  · rintro ⟨f, w, hf, hfault, ht⟩
    cases f with
    | err e => exact ⟨e, w, hf, Fault.err.inj hfault, ht⟩
    | panic why => cases hfault
  · rintro ⟨e, w, hf, rfl, ht⟩
    exact ⟨.err e, w, hf, rfl, ht⟩

theorem returns_withdrawOwnCommission {val : Bytes} {commission : Coins}
    (h : Returns (withdrawOwnCommission K ctx val) s commission t) :
    ∃ w, WithdrawsCommission K ctx val s.accounts.sdk commission w ∧ t = s.withSdk w := by
  obtain ⟨r, s', hr, h⟩ := returns_bind.mp h
  cases r with
  | ok c =>
      obtain ⟨rfl, rfl⟩ := returns_pure.mp h
      obtain ⟨w, hw, rfl⟩ := returns_call.mp (returns_attempt_ok.mp hr)
      exact ⟨w, .inl hw, rfl⟩
  | error err =>
      obtain ⟨e, w, hw, rfl, rfl⟩ := fails_call_err.mp (returns_attempt_error.mp hr)
      rcases returns_ite.mp h with ⟨hno, h⟩ | ⟨_, h⟩
      · obtain ⟨rfl, rfl⟩ := returns_pure.mp h
        exact ⟨w, .inr ⟨rfl, e, hw, by simpa [GoError.isA, GoError.ofSdk] using hno⟩, rfl⟩
      · exact absurd h returns_fail

theorem returns_claimedCoins {claimedReward : UInt64} {coins : Coins}
    (h : Returns (claimedCoins claimedReward) s coins t) :
    coins = newCoins ⟨defaultBondDenom, claimedReward.toNat⟩ ∧ s = t := by
  rcases returns_ite.mp h with ⟨_, h⟩ | ⟨hzero, h⟩
  · obtain ⟨_, _, hcoin, h⟩ := returns_bind.mp h
    obtain ⟨hnonneg, rfl, rfl⟩ := returns_newCoin.mp hcoin
    obtain ⟨rfl, rfl⟩ := returns_pure.mp h
    -- a balance of 2^63 or more is negative as an `int64`, and stops in `NewCoin`
    have hint : toInt64 claimedReward = claimedReward.toNat := by
      unfold toInt64 at hnonneg ⊢
      have := claimedReward.toNat_lt
      split at hnonneg <;> omega
    exact ⟨by rw [hint], rfl⟩
  · obtain ⟨rfl, rfl⟩ := returns_pure.mp h
    have hclaimed : claimedReward.toNat = 0 := by simpa [UInt64.lt_iff_toNat_lt] using hzero
    refine ⟨funext fun d => ?_, rfl⟩
    simp [newCoins, hclaimed]

/-- Both ways to the commission in `EnqueueRewardWithdrawal`. -/
theorem returns_ownCommission {delegator : String} {val : Bytes} {commission : Coins}
    (h : Returns (if delegator = K.codec.accString val then withdrawOwnCommission K ctx val
      else pure 0) s commission t) :
    ∃ w, (if delegator = K.codec.accString val then
        WithdrawsCommission K ctx val s.accounts.sdk commission w
      else commission = 0 ∧ w = s.accounts.sdk) ∧ t = s.withSdk w := by
  rcases returns_ite.mp h with ⟨hself, h⟩ | ⟨hother, h⟩
  · simpa only [if_pos hself] using returns_withdrawOwnCommission h
  · obtain ⟨rfl, rfl⟩ := returns_pure.mp h
    exact ⟨_, by rw [if_neg hother]; exact ⟨rfl, rfl⟩, rfl⟩

/-- **What `EnqueueRewardWithdrawal` does**: it collects the coins, burns all of them, and queues
as much as they hold of the bond coin. -/
theorem returns_enqueueRewardWithdrawal {delegator validator : String} {claimedReward : UInt64}
    (h : Returns (enqueueRewardWithdrawal K ctx delegator validator claimedReward) s () t) :
    ∃ del val evm, ∃ coins : Coins, ∃ amount : UInt64, ∃ w w',
      K.codec.accAddressFromBech32 delegator = .ok del ∧
      K.codec.valAddressFromBech32 validator = .ok val ∧
      s.accounts.delegatorRewardAddress delegator = some evm ∧
      Collects K ctx delegator del val claimedReward s.accounts.sdk coins w ∧
      coins defaultBondDenom = amount.toNat ∧
      Burns K ctx del coins w w' ∧
      t = s.settle w' (.reward (.rewards validator delegator evm claimedReward amount)
        ⟨toUint64 ctx.blockHeight, evm, amount, .reward, K.codec.hexEncode val⟩) := by
  unfold enqueueRewardWithdrawal at h
  obtain ⟨val, hval, h⟩ := ReadOnly.returns_bind_iff.mp h
  obtain ⟨del, hdel, h⟩ := ReadOnly.returns_bind_iff.mp h
  obtain ⟨hval, _⟩ := returns_convert.mp (returns_wrapErr.mp hval)
  obtain ⟨hdel, _⟩ := returns_convert.mp (returns_wrapErr.mp hdel)
  obtain ⟨rewards, _, hr, h⟩ := returns_bind.mp h
  obtain ⟨w₁, hrewards, rfl⟩ := returns_call.mp hr
  obtain ⟨commission, _, hc, h⟩ := returns_bind.mp h
  obtain ⟨w₂, hcommission, rfl⟩ := returns_ownCommission hc
  obtain ⟨claimed, _, hclaimed, h⟩ := returns_bind.mp h
  obtain ⟨rfl, rfl⟩ := returns_claimedCoins hclaimed
  simp only [getRewardAddress, returns_bind, returns_wrapErr, returns_debug, returns_getEntry,
    returns_bech32ValidatorAddressToEvmAddress, returns_uint64, returns_call,
    returns_addRewardWithdrawalToQueue] at h
  obtain ⟨amount, _, ⟨hamount, rfl⟩, evm, _, ⟨hevm, rfl⟩, _, _, ⟨val', hval', rfl, rfl⟩, _, _, rfl,
    _, _, ⟨w₃, hsend, rfl⟩, _, _, ⟨w₄, hburn, rfl⟩, rfl⟩ := h
  obtain rfl : val = val' := Except.ok.inj (hval.symm.trans hval')
  exact ⟨del, val, evm, _, amount, w₂, w₄, hdel, hval, hevm,
    ⟨rewards, commission, w₁, hrewards, hcommission, rfl⟩, hamount, ⟨w₃, hsend, hburn⟩, rfl⟩

/-- The calls that tell what is due to a delegator, in their order, and what they report: the
rewards and the commission that have accrued, in 10^-18 of a coin, and the spendable balance. -/
def Reports (K : Keepers W) (ctx : Ctx) (delegation : Delegation) (validator : Validator)
    (del val : Bytes) (w : W) (rewards commission : DecCoins) (spendable : Coin) (w' : W) : Prop :=
  ∃ endingPeriod w₁ w₂ w₃,
    Returns (K.distr.incrementValidatorPeriod ctx validator) w endingPeriod w₁ ∧
    Returns (K.distr.calculateDelegationRewards ctx validator delegation endingPeriod) w₁
      rewards w₂ ∧
    (if delegation.delegatorAddress = K.codec.accString val then
        Returns (K.distr.getValidatorAccumulatedCommission ctx val) w₂ commission w₃
      else commission = 0 ∧ w₃ = w₂) ∧
    Returns (K.bank.spendableCoin ctx del defaultBondDenom) w₃ spendable w'

/-- What `ProcessEligibleRewardWithdrawal` looks at, up to its decision. -/
structure Appraised (K : Keepers W) (ctx : Ctx) (delegation : Delegation) (validator : Validator)
    (w : W) (del val : Bytes) (rewards commission : DecCoins) (unclaimed claimed : UInt64)
    (w' : W) : Prop where
  valAddr : K.codec.validatorStringToBytes validator.operator = .ok val
  delAddr : K.codec.accAddressFromBech32 delegation.delegatorAddress = .ok del
  calls : ∃ spendable,
    Reports K ctx delegation validator del val w rewards commission spendable w' ∧
    spendable.amount = claimed.toNat
  unclaimed_eq : truncateDecimal (rewards + commission) defaultBondDenom = unclaimed.toNat

/-- Both ways to the commission in `ProcessEligibleRewardWithdrawal`. -/
theorem returns_accumulatedCommission {delegator : String} {val : Bytes} {commission : DecCoins}
    (h : Returns (if delegator = K.codec.accString val then
        call (K.distr.getValidatorAccumulatedCommission ctx val) else pure 0) s commission t) :
    ∃ w, (if delegator = K.codec.accString val then
        Returns (K.distr.getValidatorAccumulatedCommission ctx val) s.accounts.sdk commission w
      else commission = 0 ∧ w = s.accounts.sdk) ∧ t = s.withSdk w := by
  rcases returns_ite.mp h with ⟨hself, h⟩ | ⟨hother, h⟩
  · obtain ⟨w, hw, rfl⟩ := returns_call.mp h
    exact ⟨w, by rw [if_pos hself]; exact hw, rfl⟩
  · obtain ⟨rfl, rfl⟩ := returns_pure.mp h
    exact ⟨_, by rw [if_neg hother]; exact ⟨rfl, rfl⟩, rfl⟩

/-- **What `ProcessEligibleRewardWithdrawal` does**: it compares the appraised sum with the
minimum, and enqueues or leaves it. -/
theorem returns_processEligibleRewardWithdrawal {delegation : Delegation} {validator : Validator}
    {minAmount : UInt64}
    (h : Returns (processEligibleRewardWithdrawal K ctx delegation validator minAmount) s () t) :
    ∃ del val rewards commission unclaimed claimed w,
      Appraised K ctx delegation validator s.accounts.sdk del val rewards commission unclaimed
        claimed w ∧
      (minAmount ≤ unclaimed + claimed ∧
          Returns (enqueueRewardWithdrawal K ctx delegation.delegatorAddress
            (K.codec.valString val) claimed) (s.withSdk w) () t ∨
        ¬ minAmount ≤ unclaimed + claimed ∧ t = s.withSdk w) := by
  unfold processEligibleRewardWithdrawal at h
  obtain ⟨val, hv, h⟩ := ReadOnly.returns_bind_iff.mp h
  obtain ⟨hval, _⟩ := returns_convert.mp (returns_wrapErr.mp hv)
  simp only [returns_bind, returns_call] at h
  obtain ⟨endingPeriod, _, ⟨w₁, hperiod, rfl⟩, rewards, _, ⟨w₂, hrewards, rfl⟩, h⟩ := h
  obtain ⟨commission, _, hc, h⟩ := h
  obtain ⟨w₃, hcommission, rfl⟩ := returns_accumulatedCommission hc
  simp only [returns_wrapErr, returns_convert, returns_uint64, returns_onlyIf] at h
  obtain ⟨del, _, ⟨hdel, rfl⟩, unclaimed, _, ⟨hunclaimed, rfl⟩, spendable, _,
    ⟨w₄, hspendable, rfl⟩, claimed, _, ⟨hclaimed, rfl⟩, h⟩ := h
  refine ⟨del, val, rewards, commission, unclaimed, claimed, w₄, ⟨hval, hdel, ?_, hunclaimed⟩, ?_⟩
  · exact ⟨spendable, ⟨endingPeriod, w₁, w₂, w₃, hperiod, hrewards, hcommission, hspendable⟩,
      hclaimed⟩
  · rcases h with ⟨hle, h⟩ | ⟨hnot, rfl⟩
    · exact .inl ⟨hle, h⟩
    · exact .inr ⟨hnot, rfl⟩

/-! ## The residue of an account -/

/-- The keeper knows a delegation, or reports that there is none. -/
def AsksDelegation (K : Keepers W) (ctx : Ctx) (del val : Bytes) (totallyUnstaked : Bool)
    (w w' : W) : Prop :=
  match totallyUnstaked with
  | false => ∃ d, Returns (K.staking.getDelegation ctx del val) w d w'
  | true => ∃ e, Fails (K.staking.getDelegation ctx del val) w (.err e) w' ∧ .noDelegation ∈ e.is

theorem returns_isTotallyUnstaked {del val : Bytes} {totallyUnstaked : Bool}
    (h : Returns (isTotallyUnstaked K ctx del val) s totallyUnstaked t) :
    ∃ w, AsksDelegation K ctx del val totallyUnstaked s.accounts.sdk w ∧ t = s.withSdk w := by
  obtain ⟨r, s', hr, h⟩ := returns_bind.mp h
  cases r with
  | ok d =>
      obtain ⟨rfl, rfl⟩ := returns_pure.mp h
      obtain ⟨w, hw, rfl⟩ := returns_call.mp (returns_attempt_ok.mp hr)
      exact ⟨w, ⟨d, hw⟩, rfl⟩
  | error err =>
      obtain ⟨e, w, hw, rfl, rfl⟩ := fails_call_err.mp (returns_attempt_error.mp hr)
      rcases returns_ite.mp h with ⟨hno, h⟩ | ⟨_, h⟩
      · obtain ⟨rfl, rfl⟩ := returns_pure.mp h
        exact ⟨w, ⟨e, hw, by simpa [GoError.isA, GoError.ofSdk] using hno⟩, rfl⟩
      · exact absurd h returns_fail

theorem returns_withdrawRemainingCommission {val : Bytes}
    (h : Returns (withdrawRemainingCommission K ctx val) s () t) :
    ∃ commission w, WithdrawsCommission K ctx val s.accounts.sdk commission w ∧
      t = s.withSdk w := by
  obtain ⟨r, s', hr, h⟩ := returns_bind.mp h
  cases r with
  | ok c =>
      obtain ⟨_, rfl⟩ := returns_pure.mp h
      obtain ⟨w, hw, rfl⟩ := returns_call.mp (returns_attempt_ok.mp hr)
      exact ⟨c, w, .inl hw, rfl⟩
  | error err =>
      obtain ⟨e, w, hw, rfl, rfl⟩ := fails_call_err.mp (returns_attempt_error.mp hr)
      rcases returns_ite.mp h with ⟨hno, h⟩ | ⟨_, h⟩
      · obtain ⟨_, rfl⟩ := returns_pure.mp h
        exact ⟨0, w, .inr ⟨rfl, e, hw, by simpa [GoError.isA, GoError.ofSdk] using hno⟩, rfl⟩
      · exact absurd h returns_fail

/-- What the second loop does before it looks at the balance: it asks for the delegation, and
withdraws the commission of a validator whose own stake is gone. -/
def Inspects (K : Keepers W) (ctx : Ctx) (del val : Bytes) (totallyUnstaked : Bool)
    (w w' : W) : Prop :=
  ∃ w₁, AsksDelegation K ctx del val totallyUnstaked w w₁ ∧
    if totallyUnstaked ∧ del = val then
      ∃ commission, WithdrawsCommission K ctx val w₁ commission w'
    else w' = w₁

/-- **What the second loop does** with an entry. Before v1.2.1 it leaves the account alone while
a delegation remains; otherwise it burns and queues all that is spendable. -/
theorem returns_unstakeResidue {entry : UnbondedEntry}
    (h : Returns (unstakeResidue K ctx entry) s () t) :
    ∃ del val totallyUnstaked isV w,
      K.codec.accAddressFromBech32 entry.delegatorAddress = .ok del ∧
      K.codec.valAddressFromBech32 entry.validatorAddress = .ok val ∧
      isV121 ctx.chainID ctx.blockHeight = .ok isV ∧
      Inspects K ctx del val totallyUnstaked s.accounts.sdk w ∧
      (totallyUnstaked = false ∧ isV = false ∧ t = s.withSdk w ∨
        (totallyUnstaked = true ∨ isV = true) ∧ ∃ spendable, ∃ amount : UInt64, ∃ w₁,
          Returns (K.bank.spendableCoin ctx del defaultBondDenom) w spendable w₁ ∧
          spendable.amount = amount.toNat ∧
          (amount = 0 ∧ t = s.withSdk w₁ ∨
            ∃ evm w₂, s.accounts.delegatorRewardAddress entry.delegatorAddress = some evm ∧
              Burns K ctx del (newCoins ⟨defaultBondDenom, amount.toNat⟩) w₁ w₂ ∧
              t = s.settle w₂
                (.reward (.residue entry.delegatorAddress entry.validatorAddress amount)
                  ⟨toUint64 ctx.blockHeight, evm, amount, .reward, K.codec.hexEncode val⟩))) := by
  unfold unstakeResidue at h
  simp only [returns_bind, returns_wrapErr, returns_convert, returns_ofExcept,
    returns_bech32ValidatorAddressToEvmAddress] at h
  obtain ⟨del, _, ⟨hdel, rfl⟩, val, _, ⟨hval, rfl⟩, _, _, ⟨val', hval', rfl, rfl⟩,
    totallyUnstaked, _, hunstaked, _, s₁, hcommission, isV, _, ⟨hisV, rfl⟩, h⟩ := h
  obtain rfl : val = val' := Except.ok.inj (hval.symm.trans hval')
  obtain ⟨w₁, hask, rfl⟩ := returns_isTotallyUnstaked hunstaked
  -- the commission is withdrawn only when a validator has left its own delegation
  have hinspects : ∃ w, Inspects K ctx del val totallyUnstaked s.accounts.sdk w ∧
      s.withSdk w = s₁ := by
    rcases returns_onlyIf.mp hcommission with ⟨hself, hc⟩ | ⟨hother, heq⟩
    · obtain ⟨commission, w, hw, heq⟩ := returns_withdrawRemainingCommission hc
      exact ⟨w, ⟨w₁, hask, by rw [if_pos hself]; exact ⟨commission, hw⟩⟩, heq.symm⟩
    · exact ⟨w₁, ⟨w₁, hask, by rw [if_neg hother]⟩, heq⟩
  obtain ⟨w, hinspects, rfl⟩ := hinspects
  refine ⟨del, val, totallyUnstaked, isV, w, hdel, hval, hisV, hinspects, ?_⟩
  rcases returns_ite.mp h with ⟨hskip, h⟩ | ⟨hpay, h⟩
  · obtain ⟨_, rfl⟩ := returns_pure.mp h
    obtain ⟨hstaked, hbefore⟩ : totallyUnstaked = false ∧ isV = false := by simpa using hskip
    exact .inl ⟨hstaked, hbefore, rfl⟩
  simp only [returns_bind, returns_call, returns_uint64] at h
  obtain ⟨spendable, _, ⟨w₂, hspendable, rfl⟩, amount, _, ⟨hamount, rfl⟩, h⟩ := h
  have hpay : totallyUnstaked = true ∨ isV = true := by
    cases totallyUnstaked <;> cases isV <;> simp_all
  refine .inr ⟨hpay, spendable, amount, w₂, hspendable, hamount, ?_⟩
  rcases returns_ite.mp h with ⟨hzero, h⟩ | ⟨_, h⟩
  · obtain ⟨_, rfl⟩ := returns_pure.mp h
    exact .inl ⟨hzero, rfl⟩
  simp only [getRewardAddress, returns_bind, returns_wrapErr, returns_debug, returns_getEntry,
    returns_ipTokenToBondCoin, returns_call, returns_addRewardWithdrawalToQueue] at h
  obtain ⟨_, _, ⟨rfl, rfl⟩, _, _, ⟨w₃, hsend, rfl⟩, _, _, ⟨w₄, hburn, rfl⟩, _, _, rfl, evm, _,
    ⟨hevm, rfl⟩, rfl⟩ := h
  exact .inr ⟨evm, w₄, hevm, ⟨w₃, hsend, hburn⟩, rfl⟩

/-! ## The code is a run of the machine -/

section Refines

variable [IsPreorder W Q] [Quiet K Q] {w w' : W} {del val : Bytes}

omit [IsPreorder W Q] in
theorem WithdrawsCommission.quiet {commission : Coins}
    (h : WithdrawsCommission K ctx val w commission w') : Q w w' := by
  have hmoves : Moves Q (K.distr.withdrawValidatorCommission ctx val) := inferInstance
  rcases h with h | ⟨_, e, h, _⟩
  · exact hmoves.returns _ _ _ h
  · exact hmoves.fails _ _ _ h

theorem Collects.quiet {delegator : String} {claimedReward : UInt64} {coins : Coins}
    (h : Collects K ctx delegator del val claimedReward w coins w') : Q w w' := by
  obtain ⟨rewards, commission, w₁, hrewards, hcommission, _⟩ := h
  have hmoves : Moves Q (K.distr.withdrawDelegationRewards ctx del val) := inferInstance
  have h₁ : Q w w₁ := hmoves.returns _ _ _ hrewards
  split at hcommission
  · exact trans_of Q h₁ hcommission.quiet
  · exact hcommission.2 ▸ h₁

theorem Inspects.quiet {totallyUnstaked : Bool}
    (h : Inspects K ctx del val totallyUnstaked w w') : Q w w' := by
  obtain ⟨w₁, hask, hcommission⟩ := h
  have hmoves : Moves Q (K.staking.getDelegation ctx del val) := inferInstance
  have h₁ : Q w w₁ := by
    cases totallyUnstaked with
    | false =>
        obtain ⟨d, h⟩ := hask
        exact hmoves.returns _ _ _ h
    | true =>
        obtain ⟨e, h, _⟩ := hask
        exact hmoves.fails _ _ _ h
  split at hcommission
  · obtain ⟨commission, h⟩ := hcommission
    exact trans_of Q h₁ h.quiet
  · exact hcommission ▸ h₁

theorem Appraised.quiet {delegation : Delegation} {validator : Validator}
    {rewards commission : DecCoins} {unclaimed claimed : UInt64}
    (h : Appraised K ctx delegation validator w del val rewards commission unclaimed claimed w') :
    Q w w' := by
  obtain ⟨spendable, ⟨endingPeriod, w₁, w₂, w₃, h₁, h₂, h₃, h₄⟩, _⟩ := h.calls
  have q₁ : Q w w₁ := (Quiet.incrementValidatorPeriod ctx validator).returns _ _ _ h₁
  have q₂ : Q w₁ w₂ := (Quiet.calculateDelegationRewards ctx validator _ _).returns _ _ _ h₂
  have q₃ : Q w₂ w₃ := by
    split at h₃
    · exact (Quiet.getValidatorAccumulatedCommission ctx val).returns _ _ _ h₃
    · exact h₃.2 ▸ refl_of Q w₂
  have q₄ : Q w₃ w' := (Quiet.spendableCoin ctx del _).returns _ _ _ h₄
  exact trans_of Q (trans_of Q q₁ q₂) (trans_of Q q₃ q₄)

omit [IsPreorder W Q] [Quiet K Q] in
theorem PaysRewards.withSdk (hq : Q s.accounts.sdk w) : PaysRewards K Q ctx s (s.withSdk w) :=
  PayStep.paysRewards (p := none) ⟨w, s.validatorSweepIndex, hq, rfl⟩ (by simp)

omit [IsPreorder W Q] [Quiet K Q] in
/-- Quiet calls, then a payment of rewards. -/
theorem PaysRewards.settle {line : LogLine} {withdrawal : Withdrawal} (hq : Q s.accounts.sdk w)
    (hb : (Payment.reward line withdrawal).Burned K ctx (s.withSdk w) w') :
    PaysRewards K Q ctx s (s.settle w' (.reward line withdrawal)) := by
  refine trans_of _ (PaysRewards.withSdk hq) ?_
  exact PayStep.paysRewards (p := some (.reward line withdrawal)) ⟨w', hb, rfl⟩ (by simp)

theorem enqueueRewardWithdrawal_pays {delegator validator : String} {claimedReward : UInt64}
    (h : Returns (enqueueRewardWithdrawal K ctx delegator validator claimedReward) s () t) :
    PaysRewards K Q ctx s t := by
  obtain ⟨del, val, evm, coins, amount, w, w', hdel, _, hevm, hcollects, hamount, hburns, rfl⟩ :=
    returns_enqueueRewardWithdrawal h
  refine PaysRewards.settle hcollects.quiet ?_
  exact ⟨delegator, del, val, evm, coins, amount, rfl, hdel, hevm, hamount, hburns, rfl⟩

theorem processEligibleRewardWithdrawal_pays {delegation : Delegation} {validator : Validator}
    {minAmount : UInt64} :
    Ensures (PaysRewards K Q ctx)
      (processEligibleRewardWithdrawal K ctx delegation validator minAmount) := by
  intro s u t h
  obtain ⟨del, val, rewards, commission, unclaimed, claimed, w, happ, hcase⟩ :=
    returns_processEligibleRewardWithdrawal h
  have hseen : PaysRewards K Q ctx s (s.withSdk w) := PaysRewards.withSdk happ.quiet
  rcases hcase with ⟨_, h⟩ | ⟨_, rfl⟩
  · exact trans_of _ hseen (enqueueRewardWithdrawal_pays h)
  · exact hseen

theorem unstakeResidue_pays {entry : UnbondedEntry} :
    Ensures (PaysRewards K Q ctx) (unstakeResidue K ctx entry) := by
  intro s u t h
  obtain ⟨del, val, _, _, w, hdel, _, _, hinspects, hcase⟩ := returns_unstakeResidue h
  have hq : Q s.accounts.sdk w := hinspects.quiet
  rcases hcase with ⟨_, _, rfl⟩ | ⟨_, spendable, amount, w₁, hspendable, _, hcase⟩
  · exact PaysRewards.withSdk hq
  have hq₁ : Q s.accounts.sdk w₁ :=
    trans_of Q hq ((Quiet.spendableCoin ctx del _).returns _ _ _ hspendable)
  rcases hcase with ⟨_, rfl⟩ | ⟨evm, w₂, hevm, hburns, rfl⟩
  · exact PaysRewards.withSdk hq₁
  · refine PaysRewards.settle hq₁ ?_
    exact ⟨_, del, val, evm, _, amount, rfl, hdel, hevm, by simp [newCoins], hburns, rfl⟩

theorem sweepLoop_pays (validatorSet : List Validator) (sweepBound : UInt32)
    (minRewardWithdrawalAmount : UInt64) (rounds : Nat) (st : Sweep) :
    Ensures (PaysRewards K Q ctx)
      (sweepLoop K ctx validatorSet sweepBound minRewardWithdrawalAmount rounds st) := by
  induction rounds generalizing st with
  | zero => exact .pure _
  | succ rounds ih =>
      rw [sweepLoop]
      split
      · exact .of_moves _
      refine .ite (fun _ => ih _) fun _ => ?_
      refine .bind (.of_moves _) fun valAddr => .bind (.of_moves _) fun delegations => ?_
      refine .ite (fun _ => ih _) fun _ => ?_
      refine .bind (.forM fun delegation _ => ?_) fun _ => .ite (fun _ => .pure _) fun _ => ih _
      exact .mapError processEligibleRewardWithdrawal_pays

theorem processRewardWithdrawals_pays :
    Ensures (PaysRewards K Q ctx) (processRewardWithdrawals K ctx) := by
  have hindex : Ensures (PaysRewards K Q ctx)
      (getValidatorSweepIndex : Prog (Store W) ValidatorSweepIndex) :=
    .bind (.of_moves _) fun _ => .pure _
  have hset (index : ValidatorSweepIndex) : Ensures (PaysRewards K Q ctx)
      (setValidatorSweepIndex index : Prog (Store W) Unit) := by
    intro s u t h
    obtain rfl := returns_modify.mp h
    exact PayStep.paysRewards (p := none) ⟨_, some index, refl_of Q _, rfl⟩ (by simp)
  have hbound : Ensures (PaysRewards K Q ctx) (maxSweepPerBlock : Prog (Store W) UInt32) :=
    .bind (.of_moves _) fun _ => .pure _
  have hmin : Ensures (PaysRewards K Q ctx)
      (minPartialWithdrawalAmount : Prog (Store W) UInt64) := .bind (.of_moves _) fun _ => .pure _
  refine .bind (.mapError hindex) fun index => .bind (.of_moves _) fun validatorSet => ?_
  refine .bind (.mapError hbound) fun bound => .bind (.mapError hmin) fun min => ?_
  exact .bind (sweepLoop_pays _ _ _ _ _) fun st => .mapError (hset _)

omit [IsPreorder W Q] in
theorem processUbiWithdrawal_pays :
    Ensures (PaysRewards K Q ctx) (processUbiWithdrawal K ctx) := by
  intro s u t h
  simp only [processUbiWithdrawal, returns_bind, returns_wrapErr, returns_getParams, returns_call,
    returns_uint64] at h
  obtain ⟨params, _, ⟨rfl, rfl⟩, balance, _, ⟨w₁, hbalance, rfl⟩, amount, _, ⟨hamount, rfl⟩, h⟩ := h
  rcases returns_ite.mp h with ⟨_, h⟩ | ⟨_, h⟩
  · obtain ⟨_, rfl⟩ := returns_pure.mp h
    exact PaysRewards.withSdk ((Quiet.getUbiBalanceByDenom ctx _).returns _ _ _ hbalance)
  simp only [returns_bind, returns_wrapErr, returns_call, returns_addWithdrawalToQueue] at h
  obtain ⟨coin, _, ⟨w₂, hcoin, rfl⟩, _, _, ⟨w, hburn, rfl⟩, rfl⟩ := h
  refine PayStep.paysRewards (p := some (.ubi _)) ⟨w, ⟨balance, coin, w₁, w₂, amount, hbalance,
    hcoin, hburn, hamount, rfl⟩, rfl⟩ (by simp)

/-- The payments of principal for some entries. -/
def principals (pairs : List (UnbondedEntry × Withdrawal)) : List (Option Payment) :=
  pairs.map fun p => some (.principal p.1 p.2)

omit [IsPreorder W Q] [Quiet K Q] in
theorem unstakePrincipals_pay {entries : List UnbondedEntry}
    (h : Returns (entries.forM (unstakePrincipal K ctx)) s () t) :
    ∃ pairs, pairs.map Prod.fst = entries ∧
      Trace (PayStep K Q ctx) s (principals pairs) t := by
  refine h.forM_inv (I := fun done t' => ∃ pairs, pairs.map Prod.fst = done ∧
    Trace (PayStep K Q ctx) s (principals pairs) t') ?_ ⟨[], rfl, .nil⟩
  rintro done entry s' t' _ ⟨pairs, rfl, htrace⟩ h'
  obtain ⟨w, hstep⟩ := unstakePrincipal_pays h'
  refine ⟨pairs ++ [(entry, w)], by simp, ?_⟩
  simpa [principals] using htrace.snoc hstep

/-- **`ProcessUnstakeWithdrawals`** pays the principal of its entries, one by one and in their
order, and pays no principal after that. -/
theorem processUnstakeWithdrawals_pays {entries : List UnbondedEntry}
    (h : Returns (processUnstakeWithdrawals K ctx entries) s () t) :
    ∃ pairs s', pairs.map Prod.fst = entries ∧
      Trace (PayStep K Q ctx) s (principals pairs) s' ∧ PaysRewards K Q ctx s' t := by
  obtain ⟨_, s', hprincipals, hresidues⟩ := returns_bind.mp h
  obtain ⟨pairs, hpairs, htrace⟩ := unstakePrincipals_pay (Q := Q) hprincipals
  have hloop : Ensures (PaysRewards K Q ctx) (entries.forM (unstakeResidue K ctx)) :=
    .forM fun _ _ => unstakeResidue_pays
  exact ⟨pairs, s', hpairs, htrace, hloop _ _ _ hresidues⟩

/-- **The end of a block** does so as well. -/
theorem endBlockWithdrawals_pays {entries : List UnbondedEntry}
    (h : Returns (endBlockWithdrawals K ctx entries) s () t) :
    ∃ pairs s', pairs.map Prod.fst = entries ∧
      Trace (PayStep K Q ctx) s (principals pairs) s' ∧ PaysRewards K Q ctx s' t := by
  obtain ⟨_, s₁, hunstake, h⟩ := returns_bind.mp h
  obtain ⟨pairs, s', hpairs, htrace, hresidues⟩ :=
    processUnstakeWithdrawals_pays (Q := Q) (returns_wrapErr.mp hunstake)
  refine ⟨pairs, s', hpairs, htrace, ?_⟩
  have hrest : Ensures (PaysRewards K Q ctx) (do
      wrapErr "process reward withdrawals" (processRewardWithdrawals K ctx)
      wrapErr "process ubi withdrawal" (processUbiWithdrawal K ctx)) :=
    .bind (.mapError processRewardWithdrawals_pays) fun _ => .mapError processUbiWithdrawal_pays
  exact trans_of _ hresidues (hrest _ _ _ h)

end Refines

/-- **The end of a block**: nothing during the singularity, otherwise the end blocker of the
staking module and the withdrawals for its entries. -/
theorem returns_endBlock (h : Returns (endBlock K ctx) s () t) :
    ∃ height w, Returns (K.staking.getSingularityHeight ctx) s.accounts.sdk height w ∧
      (ctx.blockHeight < toInt64 height ∧ t = s.withSdk w ∨
        ¬ ctx.blockHeight < toInt64 height ∧ ∃ entries w',
          Returns (K.staking.endBlockerWithUnbondedEntries ctx) w entries w' ∧
          Returns (endBlockWithdrawals K ctx entries) (s.withSdk w') () t) := by
  obtain ⟨inSingularity, s₁, hsing, h⟩ := returns_bind.mp h
  simp only [isSingularity, returns_bind, returns_call, returns_pure] at hsing
  obtain ⟨height, _, ⟨w, hheight, rfl⟩, rfl, rfl⟩ := hsing
  refine ⟨height, w, hheight, ?_⟩
  rcases returns_ite.mp h with ⟨hin, h⟩ | ⟨hout, h⟩
  · obtain ⟨_, rfl⟩ := returns_pure.mp h
    exact .inl ⟨by simpa using hin, rfl⟩
  · obtain ⟨entries, _, hentries, h⟩ := returns_bind.mp h
    obtain ⟨w', hw', rfl⟩ := returns_call.mp (returns_wrapErr.mp hentries)
    exact .inr ⟨by simpa using hout, entries, w', hw', h⟩

end Story.EvmStaking
