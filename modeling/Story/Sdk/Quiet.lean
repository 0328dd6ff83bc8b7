/-
# Story.Sdk.Quiet -- keeper calls that leave something alone

What a theorem relies on is often that most keeper calls do not touch some quantity:
the supply of a coin, the money of an account, who holds a delegation. `Quiet K Q` says
that every call which neither moves coins on purpose nor creates a delegation moves
along `Q`. The calls it leaves out are the ones such a theorem has to speak about.
-/
import Story.Sdk

namespace Story.Sdk

open Story.Effect Story.Errors Story.Eth

variable {W : Type}

/-- Every end of these calls is `Q`-related to its start. -/
class Quiet (K : Keepers W) (Q : W → W → Prop) : Prop where
  hasAccount : ∀ ctx addr, Moves Q (K.auth.hasAccount ctx addr)
  setNewAccount : ∀ ctx addr, Moves Q (K.auth.setNewAccount ctx addr)
  spendableCoin : ∀ ctx addr denom, Moves Q (K.bank.spendableCoin ctx addr denom)
  getValidator : ∀ ctx addr, Moves Q (K.staking.getValidator ctx addr)
  getAllValidators : ∀ ctx, Moves Q (K.staking.getAllValidators ctx)
  getDelegation : ∀ ctx del val, Moves Q (K.staking.getDelegation ctx del val)
  getValidatorDelegations : ∀ ctx val, Moves Q (K.staking.getValidatorDelegations ctx val)
  minDelegation : ∀ ctx, Moves Q (K.staking.minDelegation ctx)
  getFlexiblePeriodType : ∀ ctx, Moves Q (K.staking.getFlexiblePeriodType ctx)
  getLockedTokenType : ∀ ctx, Moves Q (K.staking.getLockedTokenType ctx)
  getSingularityHeight : ∀ ctx, Moves Q (K.staking.getSingularityHeight ctx)
  editValidator : ∀ ctx msg, Moves Q (K.staking.editValidator ctx msg)
  undelegate : ∀ ctx msg, Moves Q (K.staking.undelegate ctx msg)
  beginRedelegate : ∀ ctx msg, Moves Q (K.staking.beginRedelegate ctx msg)
  unjail : ∀ ctx addr, Moves Q (K.slashing.unjail ctx addr)
  incrementValidatorPeriod : ∀ ctx val, Moves Q (K.distr.incrementValidatorPeriod ctx val)
  calculateDelegationRewards : ∀ ctx val del endingPeriod,
    Moves Q (K.distr.calculateDelegationRewards ctx val del endingPeriod)
  getValidatorAccumulatedCommission : ∀ ctx val,
    Moves Q (K.distr.getValidatorAccumulatedCommission ctx val)
  withdrawDelegationRewards : ∀ ctx del val,
    Moves Q (K.distr.withdrawDelegationRewards ctx del val)
  withdrawValidatorCommission : ∀ ctx val, Moves Q (K.distr.withdrawValidatorCommission ctx val)
  getUbiBalanceByDenom : ∀ ctx denom, Moves Q (K.distr.getUbiBalanceByDenom ctx denom)
  withdrawUbiByDenomToModule : ∀ ctx denom name,
    Moves Q (K.distr.withdrawUbiByDenomToModule ctx denom name)

attribute [instance] Quiet.hasAccount Quiet.setNewAccount Quiet.spendableCoin Quiet.getValidator
  Quiet.getAllValidators Quiet.getDelegation Quiet.getValidatorDelegations Quiet.minDelegation
  Quiet.getFlexiblePeriodType Quiet.getLockedTokenType Quiet.getSingularityHeight
  Quiet.editValidator Quiet.undelegate Quiet.beginRedelegate Quiet.unjail
  Quiet.incrementValidatorPeriod Quiet.calculateDelegationRewards
  Quiet.getValidatorAccumulatedCommission Quiet.withdrawDelegationRewards
  Quiet.withdrawValidatorCommission Quiet.getUbiBalanceByDenom Quiet.withdrawUbiByDenomToModule

end Story.Sdk
