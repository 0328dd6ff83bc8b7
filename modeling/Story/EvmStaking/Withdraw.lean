/-
# Story.EvmStaking.Withdraw -- withdrawals created at the end of a block

`EndBlock` queues what the block owes to the execution layer: one withdrawal for
each unbonding entry that matured, what is left on the accounts of their owners,
the rewards of the delegations the sweep reaches, and the UBI pool. Every path
burns coins and queues a withdrawal, and none of them works on a branch: an error
here stops the block.
-/
import Story.EvmStaking.Events
import Story.EvmStaking.WithdrawalQueue
import Story.Netconf

namespace Story.EvmStaking

open Story.Effect Story.Errors Story.Sdk Story.Collections Story.Netconf Story.Eth

variable {W : Type}

/-! ## Shared pieces -/

/-- `utils.Bech32ValidatorAddressToEvmAddress`. -/
def bech32ValidatorAddressToEvmAddress {σ : Type} (codec : Codec)
    (bech32ValidatorAddress : String) : Prog σ String := do
  let validatorAccAddress ← wrapErr "failed to convert bech32 validator address to evm address"
    (convert (codec.valAddressFromBech32 bech32ValidatorAddress))
  pure (codec.hexEncode validatorAccAddress)

/-- `DelegatorWithdrawAddress.Get`. -/
def getWithdrawAddress (delegator : String) : Prog (Store W) String :=
  getEntry withdrawAddressMapName fun s => s.accounts.delegatorWithdrawAddress delegator

/-- `DelegatorRewardAddress.Get`. -/
def getRewardAddress (delegator : String) : Prog (Store W) String :=
  getEntry rewardAddressMapName fun s => s.accounts.delegatorRewardAddress delegator

/-! ## Unstake withdrawals -/

/-- The first loop of `ProcessUnstakeWithdrawals`: burn the principal of an entry and
queue it. -/
def unstakePrincipal (K : Keepers W) (ctx : Ctx) (entry : UnbondedEntry) :
    Prog (Store W) Unit := do
  debug (.unstake entry.delegatorAddress entry.validatorAddress entry.amount)
  let delegatorAddr ← wrapErr "delegator address from bech32"
    (convert (K.codec.accAddressFromBech32 entry.delegatorAddress))
  let valEVMAddr ← wrapErr "convert validator bech32 address to evm address"
    (bech32ValidatorAddressToEvmAddress K.codec entry.validatorAddress)
  let withdrawEVMAddr ← wrapErr "map delegator pubkey to evm address"
    (getWithdrawAddress entry.delegatorAddress)
  let amount ← uint64 entry.amount
  let bond ← ipTokenToBondCoin amount.toNat
  wrapErr "send coins from account to module for unbonding entry coins"
    (call (K.bank.sendCoinsFromAccountToModule ctx delegatorAddr moduleName bond.coins))
  wrapErr "burn coins of unbonding entry coins" (call (K.bank.burnCoins ctx moduleName bond.coins))
  wrapErr "add unstake withdrawal to queue" (addWithdrawalToQueue
    ⟨toUint64 ctx.blockHeight, withdrawEVMAddr, amount, .unstake, valEVMAddr⟩)

/-- Has the delegator no delegation to the validator any more? -/
def isTotallyUnstaked (K : Keepers W) (ctx : Ctx) (delegatorAddr validatorAddr : Bytes) :
    Prog (Store W) Bool := do
  match ← attempt (call (K.staking.getDelegation ctx delegatorAddr validatorAddr)) with
  | .ok _ => pure false
  | .error err =>
    if err.isA (.sdk .noDelegation) then pure true else fail (err.wrap "get delegation")

/-- Withdraw the commission of a validator that has unstaked all of its own stake. -/
def withdrawRemainingCommission (K : Keepers W) (ctx : Ctx) (validatorAddr : Bytes) :
    Prog (Store W) Unit := do
  match ← attempt (call (K.distr.withdrawValidatorCommission ctx validatorAddr)) with
  | .ok _ => pure ()
  | .error err =>
      if err.isA (.sdk .noValidatorCommission) then pure ()
      else fail (err.wrap "withdraw validator commission")

/-- The second loop of `ProcessUnstakeWithdrawals`: what is left on the account of the
entry's delegator are rewards; burn them and queue them. -/
def unstakeResidue (K : Keepers W) (ctx : Ctx) (entry : UnbondedEntry) : Prog (Store W) Unit := do
  let delegatorAddr ← wrapErr "delegator address from bech32"
    (convert (K.codec.accAddressFromBech32 entry.delegatorAddress))
  let validatorAddr ← wrapErr "validator address from bech32"
    (convert (K.codec.valAddressFromBech32 entry.validatorAddress))
  let valEVMAddr ← wrapErr "convert validator bech32 address to evm address"
    (bech32ValidatorAddressToEvmAddress K.codec entry.validatorAddress)
  let totallyUnstaked ← isTotallyUnstaked K ctx delegatorAddr validatorAddr
  onlyIf (totallyUnstaked ∧ delegatorAddr = validatorAddr)
    (withdrawRemainingCommission K ctx validatorAddr)
  let isV121 ← wrapErr "failed to check if v1.2.1 is applied or not"
    (ofExcept (isV121 ctx.chainID ctx.blockHeight))
  -- before v1.2.1 the residue is left alone while a delegation remains
  if !totallyUnstaked && !isV121 then
    pure ()
  else
    let spendable ← call (K.bank.spendableCoin ctx delegatorAddr defaultBondDenom)
    let residueAmount ← uint64 spendable.amount
    if residueAmount = 0 then
      pure ()
    else
      let bond ← ipTokenToBondCoin residueAmount.toNat
      wrapErr "send coins from account to module for residue reward"
        (call (K.bank.sendCoinsFromAccountToModule ctx delegatorAddr moduleName bond.coins))
      wrapErr "burn coins of residue reward" (call (K.bank.burnCoins ctx moduleName bond.coins))
      debug (.residue entry.delegatorAddress entry.validatorAddress residueAmount)
      let rewardsEVMAddr ← wrapErr "map delegator bech32 address to evm reward address"
        (getRewardAddress entry.delegatorAddress)
      wrapErr "add reward withdrawal to queue" (addRewardWithdrawalToQueue
        ⟨toUint64 ctx.blockHeight, rewardsEVMAddr, residueAmount, .reward, valEVMAddr⟩)

def processUnstakeWithdrawals (K : Keepers W) (ctx : Ctx)
    (unbondedEntries : List UnbondedEntry) : Prog (Store W) Unit := do
  unbondedEntries.forM (unstakePrincipal K ctx)
  unbondedEntries.forM (unstakeResidue K ctx)

/-! ## Reward withdrawals -/

/-- The commission part of `EnqueueRewardWithdrawal`: the coins it adds to the rewards. -/
def withdrawOwnCommission (K : Keepers W) (ctx : Ctx) (valAddr : Bytes) :
    Prog (Store W) Coins := do
  match ← attempt (call (K.distr.withdrawValidatorCommission ctx valAddr)) with
  | .ok commissionRewards => pure commissionRewards
  | .error err => if err.isA (.sdk .noValidatorCommission) then pure 0 else fail err

/-- The balance that was claimed before, as coins. -/
def claimedCoins (claimedReward : UInt64) : Prog (Store W) Coins :=
  if 0 < claimedReward then do
    let rewardCoins ← newCoin defaultBondDenom (toInt64 claimedReward)
    pure (newCoins rewardCoins)
  else
    pure 0

def enqueueRewardWithdrawal (K : Keepers W) (ctx : Ctx) (delAddrBech32 valAddrBech32 : String)
    (claimedReward : UInt64) : Prog (Store W) Unit := do
  let valAddr ← wrapErr "validator address from bech32"
    (convert (K.codec.valAddressFromBech32 valAddrBech32))
  let valAccAddr := K.codec.accString valAddr
  let delAddr ← wrapErr "convert acc address from bech32 address"
    (convert (K.codec.accAddressFromBech32 delAddrBech32))
  let delRewards ← call (K.distr.withdrawDelegationRewards ctx delAddr valAddr)
  let commission ←
    (if delAddrBech32 = valAccAddr then withdrawOwnCommission K ctx valAddr else pure 0)
  let claimed ← claimedCoins claimedReward
  let delRewards : Coins := delRewards + commission + claimed
  let delRewardUint64 ← uint64 (delRewards defaultBondDenom)
  let withdrawalEVMAddr ← wrapErr "map delegator bech32 address to evm reward address"
    (getRewardAddress delAddrBech32)
  let valEVMAddr ← wrapErr "convert validator bech32 address to evm address"
    (bech32ValidatorAddressToEvmAddress K.codec valAddrBech32)
  debug (.rewards valAddrBech32 delAddrBech32 withdrawalEVMAddr claimedReward delRewardUint64)
  call (K.bank.sendCoinsFromAccountToModule ctx delAddr moduleName delRewards)
  call (K.bank.burnCoins ctx moduleName delRewards)
  wrapErr "add reward withdrawal to queue" (addRewardWithdrawalToQueue
    ⟨toUint64 ctx.blockHeight, withdrawalEVMAddr, delRewardUint64, .reward, valEVMAddr⟩)

def processEligibleRewardWithdrawal (K : Keepers W) (ctx : Ctx) (delegation : Delegation)
    (validator : Validator) (minRewardWithdrawalAmount : UInt64) : Prog (Store W) Unit := do
  let valAddr ← wrapErr "validator address from bech32"
    (convert (K.codec.validatorStringToBytes validator.operator))
  let valAccAddr := K.codec.accString valAddr
  let endingPeriod ← call (K.distr.incrementValidatorPeriod ctx validator)
  let delRewards ← call (K.distr.calculateDelegationRewards ctx validator delegation endingPeriod)
  let commission ←
    (if delegation.delegatorAddress = valAccAddr then
      call (K.distr.getValidatorAccumulatedCommission ctx valAddr)
    else pure 0)
  let delRewards : DecCoins := delRewards + commission
  let addr ← wrapErr "convert acc address from bech32 address"
    (convert (K.codec.accAddressFromBech32 delegation.delegatorAddress))
  let unclaimedReward ← uint64 (truncateDecimal delRewards defaultBondDenom)
  let spendable ← call (K.bank.spendableCoin ctx addr defaultBondDenom)
  let claimedReward ← uint64 spendable.amount
  let totalReward := unclaimedReward + claimedReward
  onlyIf (minRewardWithdrawalAmount ≤ totalReward)
    (wrapErr "enqueue reward withdrawal" (enqueueRewardWithdrawal K ctx
      delegation.delegatorAddress (K.codec.valString valAddr) claimedReward))

/-- The variables of the sweep loop of `ProcessRewardWithdrawals`. -/
structure Sweep where
  nextValIndex : UInt64
  nextValDelIndex : UInt64
  swept : UInt32

/-- The sweep loop, with `rounds` validators to go. -/
def sweepLoop (K : Keepers W) (ctx : Ctx) (validatorSet : List Validator) (sweepBound : UInt32)
    (minRewardWithdrawalAmount : UInt64) : (rounds : Nat) → Sweep → Prog (Store W) Sweep
  | 0, st => pure st
  | rounds + 1, st => do
      match validatorSet[st.nextValIndex.toNat]? with
      | none => goPanic "index out of range"
      | some validator =>
          let next : Sweep :=
            { nextValIndex := (st.nextValIndex + 1) % UInt64.ofNat validatorSet.length
              nextValDelIndex := 0
              swept := st.swept }
          if validator.jailed then
            sweepLoop K ctx validatorSet sweepBound minRewardWithdrawalAmount rounds next
          else
            let valAddr ← wrapErr "convert validator address from string to bytes"
              (convert (K.codec.validatorStringToBytes validator.operator))
            let delegations ← wrapErr "get validator delegations"
              (call (K.staking.getValidatorDelegations ctx valAddr))
            if UInt64.ofNat delegations.length ≤ st.nextValDelIndex then
              sweepLoop K ctx validatorSet sweepBound minRewardWithdrawalAmount rounds next
            else
              let rest := delegations.drop st.nextValDelIndex.toNat
              let remainingSweep := sweepBound - st.swept
              let shouldStopPrematurely := decide (remainingSweep < UInt32.ofNat rest.length)
              let nextDelegations :=
                if shouldStopPrematurely then rest.take remainingSweep.toNat else rest
              nextDelegations.forM fun delegation =>
                wrapErr "process eligible reward withdrawal"
                  (processEligibleRewardWithdrawal K ctx delegation validator
                    minRewardWithdrawalAmount)
              if shouldStopPrematurely then
                pure { st with
                  nextValDelIndex := st.nextValDelIndex + UInt64.ofNat nextDelegations.length }
              else
                sweepLoop K ctx validatorSet sweepBound minRewardWithdrawalAmount rounds
                  { next with swept := st.swept + UInt32.ofNat nextDelegations.length }

def processRewardWithdrawals (K : Keepers W) (ctx : Ctx) : Prog (Store W) Unit := do
  let validatorSweepIndex ← wrapErr "get validator sweep index" getValidatorSweepIndex
  let validatorSet ← wrapErr "get all validators" (call (K.staking.getAllValidators ctx))
  -- an index beyond the validator set starts over
  let overflow := UInt64.ofNat validatorSet.length ≤ validatorSweepIndex.nextValIndex
  let start : Sweep :=
    { nextValIndex := if overflow then 0 else validatorSweepIndex.nextValIndex
      nextValDelIndex := if overflow then 0 else validatorSweepIndex.nextValDelIndex
      swept := 0 }
  let sweepBound ← wrapErr "get max sweep per block" maxSweepPerBlock
  let minRewardWithdrawalAmount ← wrapErr "get minimum partial withdrawal amount"
    minPartialWithdrawalAmount
  let st ← sweepLoop K ctx validatorSet sweepBound minRewardWithdrawalAmount
    validatorSet.length start
  wrapErr "set validator sweep index"
    (setValidatorSweepIndex ⟨st.nextValIndex, st.nextValDelIndex⟩)

/-! ## UBI withdrawals, and the end of a block -/

def processUbiWithdrawal (K : Keepers W) (ctx : Ctx) : Prog (Store W) Unit := do
  let params ← wrapErr "get ubi params" getParams
  let ubiBalance ← wrapErr "get ubi balance by denom"
    (call (K.distr.getUbiBalanceByDenom ctx defaultBondDenom))
  let amount ← uint64 ubiBalance
  if amount < params.minPartialWithdrawalAmount then
    pure ()
  else
    let ubiCoin ← wrapErr "withdraw ubi by denom to module"
      (call (K.distr.withdrawUbiByDenomToModule ctx defaultBondDenom moduleName))
    wrapErr "burn ubi coins" (call (K.bank.burnCoins ctx moduleName (newCoins ubiCoin)))
    wrapErr "add ubi withdrawal to queue" (addWithdrawalToQueue
      ⟨toUint64 ctx.blockHeight, params.ubiWithdrawAddress, amount, .ubi, ""⟩)

/-- The part of `EndBlock` behind the staking module's own end blocker. -/
def endBlockWithdrawals (K : Keepers W) (ctx : Ctx) (unbondedEntries : List UnbondedEntry) :
    Prog (Store W) Unit := do
  wrapErr "process unstake withdrawals" (processUnstakeWithdrawals K ctx unbondedEntries)
  wrapErr "process reward withdrawals" (processRewardWithdrawals K ctx)
  wrapErr "process ubi withdrawal" (processUbiWithdrawal K ctx)

def endBlock (K : Keepers W) (ctx : Ctx) : Prog (Store W) Unit := do
  let inSingularity ← isSingularity K ctx
  if inSingularity then
    pure ()
  else
    let unbondedEntries ← wrapErr "process staking EndBlocker"
      (call (K.staking.endBlockerWithUnbondedEntries ctx))
    endBlockWithdrawals K ctx unbondedEntries

end Story.EvmStaking
