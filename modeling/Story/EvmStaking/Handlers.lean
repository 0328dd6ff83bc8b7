/-
# Story.EvmStaking.Handlers -- ten event handlers and their dispatcher

`ProcessStakingEvents` looks at the first topic of a log, parses the log, scales a
staking amount from wei to gwei and runs the handler. A log that does not parse
and a handler that fails are reported and skipped: only a malformed log stops the
loop. What the bindings make of a log is a parameter, `StakingContract`.
-/
import Story.EvmStaking.Events
import Story.EvmEngine.Types

namespace Story.EvmStaking

open Story.Effect Story.Errors Story.Sdk Story.Collections Story.Eth

variable {W : Type}

/-! ## The handlers -/

def processUpdateValidatorCommission (K : Keepers W) (ctx : Ctx)
    (ev : UpdateValidatorCommission) : Prog (Accounts W) Unit := cacheContext do
  let validatorPubkey ← wrapErr "validator pubkey to cosmos"
    (pubKeyBytesToCosmos ev.validatorCmpPubkey)
  let valEvmAddr ← wrapErr "validator pubkey to evm address"
    (cosmosPubkeyToEVMAddress K.codec validatorPubkey)
  let validatorAddr := bytesOf valEvmAddr
  let validator ← classify [(.sdk .noValidatorFound, .validatorNotFound)] "get validator"
    (cachedCtx (call (K.staking.getValidator ctx validatorAddr)))
  -- `LegacyNewDecWithPrec(rate, 4)`
  let newComm : Int := ev.commissionRate.toNat * 10 ^ 14
  let msg : MsgEditValidator :=
    { validatorAddress := K.codec.valString validatorAddr
      description := validator.description
      commissionRate := newComm
      minSelfDelegation := validator.minSelfDelegation }
  if !K.staking.isKeeper then
    fail (.new "type assertion failed")
  else
    wrapErr "update validator commission rate" (cachedCtx (call (K.staking.editValidator ctx msg)))

def processSetWithdrawalAddress (K : Keepers W) (ev : SetAddress) : Prog (Accounts W) Unit :=
  cacheContext do
    let depositorAddr := bytesOf ev.delegator
    let executionAddr := bytesToAddress (bytesOf ev.executionAddress)
    wrapErr "delegator withdraw address map set"
      (cachedCtx (setWithdrawAddress (K.codec.accString depositorAddr)
        (K.codec.addressString executionAddr)))

def processSetRewardAddress (K : Keepers W) (ev : SetAddress) : Prog (Accounts W) Unit :=
  cacheContext do
    let depositorAddr := bytesOf ev.delegator
    let executionAddr := bytesToAddress (bytesOf ev.executionAddress)
    wrapErr "delegator reward address map set"
      (cachedCtx (setRewardAddress (K.codec.accString depositorAddr)
        (K.codec.addressString executionAddr)))

def processSetOperator (K : Keepers W) (ev : SetOperator) : Prog (Accounts W) Unit :=
  cacheContext do
    let depositorAddr := bytesOf ev.delegator
    wrapErr "delegator operator address map set"
      (cachedCtx (setOperatorAddress (K.codec.accString depositorAddr)
        (some (K.codec.addressString ev.operator))))

def processUnsetOperator (K : Keepers W) (ev : UnsetOperator) : Prog (Accounts W) Unit :=
  cacheContext do
    let depositorAddr := bytesOf ev.delegator
    wrapErr "delegator operator address map remove"
      (cachedCtx (setOperatorAddress (K.codec.accString depositorAddr) none))

def processCreateValidator (K : Keepers W) (ctx : Ctx) (ev : CreateValidator) :
    Prog (Accounts W) Unit := cacheContext do
  let validatorPubkey ← wrapErr "validator pubkey to cosmos"
    (pubKeyBytesToCosmos ev.validatorCmpPubkey)
  let valEvmAddr ← wrapErr "validator pubkey to evm address"
    (cosmosPubkeyToEVMAddress K.codec validatorPubkey)
  let validatorAddr := bytesOf valEvmAddr
  let delegatorAddr := bytesOf valEvmAddr
  let bond ← ipTokenToBondCoin ev.stakeAmount
  ensureAccount K ctx delegatorAddr
  if !K.staking.isKeeper then
    fail (.new "type assertion failed")
  else
    let moniker := if ev.moniker = "" then K.codec.valString validatorAddr else ev.moniker
    let minSelfDelegation ← wrapErr "get min self delegation"
      (cachedCtx (call (K.staking.minDelegation ctx)))
    -- a rate of r basis points is `LegacyNewDec(r).Quo(LegacyNewDec(10000))`
    let msg ← wrapErr "create validator message" (convert (K.staking.newMsgCreateValidator
      { validatorAddress := K.codec.valString validatorAddr
        pubkey := validatorPubkey
        value := bond.coin
        moniker := moniker
        rate := ev.commissionRate.toNat * 10 ^ 14
        maxRate := ev.maxCommissionRate.toNat * 10 ^ 14
        maxChangeRate := ev.maxCommissionChangeRate.toNat * 10 ^ 14
        minSelfDelegation := minSelfDelegation
        supportTokenType := ev.supportsUnlocked.toNat }))
    -- the reward address defaults to the operator, the withdraw address to the validator
    setDefaultAddresses (K.codec.accString delegatorAddr) (K.codec.addressString valEvmAddr)
      (K.codec.addressString ev.operatorAddress)
    wrapErr "create stake coin for depositor: mint coins"
      (cachedCtx (call (K.bank.mintCoins ctx moduleName bond.coins)))
    wrapErr "create stake coin for depositor: send coins"
      (cachedCtx (call
        (K.bank.sendCoinsFromModuleToAccount ctx moduleName delegatorAddr bond.coins)))
    classify
      [ (.sdk .validatorOwnerExists, .validatorAlreadyExists),
        (.sdk .commissionLTMinRate, .invalidCommissionRate),
        (.sdk .minSelfDelegationBelowMinDelegation, .invalidMinSelfDelegation),
        (.sdk .noTokenTypeFound, .invalidTokenType) ] "create validator"
      (cachedCtx (call (K.staking.createValidator ctx msg)))

/-- The period type and the delegation id of a deposit. -/
structure DepositPeriod where
  periodType : Int
  delID : String

/-- Locked tokens can only be staked with the flexible period. -/
def depositPeriod (K : Keepers W) (ctx : Ctx) (ev : Deposit) (isLocked : Bool) :
    Prog (Branched (Accounts W)) DepositPeriod :=
  if isLocked then do
    let flexPeriodType ← wrapErr "get flexible period type"
      (cachedCtx (call (K.staking.getFlexiblePeriodType ctx)))
    pure ⟨flexPeriodType, K.staking.flexiblePeriodDelegationID⟩
  else
    pure ⟨toInt32 ev.stakingPeriod, toString ev.delegationId⟩

def processDeposit (K : Keepers W) (ctx : Ctx) (ev : Deposit) : Prog (Accounts W) Unit :=
  cacheContext do
  let validatorPubkey ← wrapErr "validator pubkey to cosmos"
    (pubKeyBytesToCosmos ev.validatorCmpPubkey)
  let valEvmAddr ← wrapErr "validator pubkey to evm address"
    (cosmosPubkeyToEVMAddress K.codec validatorPubkey)
  let depositorAddr := bytesOf ev.delegator
  let validatorAddr := bytesOf valEvmAddr
  let bond ← ipTokenToBondCoin ev.stakeAmount
  ensureAccount K ctx depositorAddr
  let lockedTokenType ← wrapErr "get locked token type"
    (cachedCtx (call (K.staking.getLockedTokenType ctx)))
  let val ← classify [(.sdk .noValidatorFound, .validatorNotFound)] "get validator failed"
    (cachedCtx (call (K.staking.getValidator ctx validatorAddr)))
  let period ← depositPeriod K ctx ev (val.supportTokenType = lockedTokenType)
  if !K.staking.isKeeper then
    fail (.new "type assertion failed")
  else
    setDefaultAddresses (K.codec.accString depositorAddr) (K.codec.addressString ev.delegator)
      (K.codec.addressString ev.delegator)
    wrapErr "create stake coin for depositor: mint coins"
      (cachedCtx (call (K.bank.mintCoins ctx moduleName bond.coins)))
    wrapErr "create stake coin for depositor: send coins"
      (cachedCtx (call
        (K.bank.sendCoinsFromModuleToAccount ctx moduleName depositorAddr bond.coins)))
    let msg : MsgDelegate :=
      { delegatorAddress := K.codec.accString depositorAddr
        validatorAddress := K.codec.valString validatorAddr
        amount := bond.coin
        periodDelegationID := period.delID
        periodType := period.periodType }
    classify
      [ (.sdk .delegationBelowMinimum, .invalidDelegationAmount),
        (.sdk .noPeriodTypeFound, .invalidPeriodType) ] "delegate"
      (cachedCtx (call (K.staking.delegate ctx msg)))

def processRedelegate (K : Keepers W) (ctx : Ctx) (ev : Redelegate) : Prog (Accounts W) Unit :=
  cacheContext do
  let isInSingularity ← wrapErr "check if it is singularity" (cachedCtx (isSingularity K ctx))
  if isInSingularity then
    pure ()
  else
    let validatorSrcPubkey ← wrapErr "src validator pubkey to cosmos"
      (pubKeyBytesToCosmos ev.validatorSrcCmpPubkey)
    let validatorDstPubkey ← wrapErr "dst validator pubkey to cosmos"
      (pubKeyBytesToCosmos ev.validatorDstCmpPubkey)
    let valSrcEvmAddr ← wrapErr "src validator pubkey to evm address"
      (cosmosPubkeyToEVMAddress K.codec validatorSrcPubkey)
    let valDstEvmAddr ← wrapErr "dst validator pubkey to evm address"
      (cosmosPubkeyToEVMAddress K.codec validatorDstPubkey)
    let depositorAddr := bytesOf ev.delegator
    let validatorSrcAddr := bytesOf valSrcEvmAddr
    let validatorDstAddr := bytesOf valDstEvmAddr
    onlyIf (K.codec.addressString ev.delegator ≠ K.codec.addressString ev.operatorAddress)
      (checkOperator (K.codec.accString depositorAddr) (K.codec.addressString ev.operatorAddress)
        "invalid redelegateOnBehalf txn, no operator"
        "get delegator's operator address failed"
        "invalid redelegateOnBehalf txn, not from operator")
    let bond ← ipTokenToBondCoin ev.amount
    let lockedTokenType ← wrapErr "get locked token type"
      (cachedCtx (call (K.staking.getLockedTokenType ctx)))
    let valSrc ← classify [(.sdk .noValidatorFound, .validatorNotFound)] "get src validator failed"
      (cachedCtx (call (K.staking.getValidator ctx validatorSrcAddr)))
    let delID :=
      if valSrc.supportTokenType = lockedTokenType then K.staking.flexiblePeriodDelegationID
      else toString ev.delegationId
    let msg : MsgBeginRedelegate :=
      { delegatorAddress := K.codec.accString depositorAddr
        validatorSrcAddress := K.codec.valString validatorSrcAddr
        validatorDstAddress := K.codec.valString validatorDstAddr
        periodDelegationID := delID
        amount := bond.coin }
    if !K.staking.isKeeper then
      goPanic "interface conversion"
    else
      let _ ← classify
        [ (.sdk .selfRedelegation, .selfRedelegation),
          (.sdk .noValidatorFound, .validatorNotFound),
          (.sdk .tokenTypeMismatch, .tokenTypeMismatch),
          (.sdk .noDelegation, .delegationNotFound),
          (.sdk .noPeriodDelegation, .periodDelegationNotFound) ] "failed to begin redelegation"
        (cachedCtx (call (K.staking.beginRedelegate ctx msg)))
      pure ()

def processWithdraw (K : Keepers W) (ctx : Ctx) (ev : Withdraw) : Prog (Accounts W) Unit :=
  cacheContext do
  let isInSingularity ← wrapErr "check if it is singularity" (cachedCtx (isSingularity K ctx))
  if isInSingularity then
    pure ()
  else
    let validatorPubkey ← wrapErr "validator pubkey to cosmos"
      (pubKeyBytesToCosmos ev.validatorCmpPubkey)
    let valEvmAddr ← wrapErr "validator pubkey to evm address"
      (cosmosPubkeyToEVMAddress K.codec validatorPubkey)
    let depositorAddr := bytesOf ev.delegator
    let validatorAddr := bytesOf valEvmAddr
    onlyIf (K.codec.addressString ev.delegator ≠ K.codec.addressString ev.operatorAddress)
      (checkOperator (K.codec.accString depositorAddr) (K.codec.addressString ev.operatorAddress)
        "invalid unstakeOnBehalf txn, no operator"
        "get delegator's operator address failed"
        "invalid unstakeOnBehalf txn, not from operator")
    let bond ← ipTokenToBondCoin ev.stakeAmount
    let hasAccount ← cachedCtx (call (K.auth.hasAccount ctx depositorAddr))
    if !hasAccount then
      fail (.new "depositor account not found")
    else
      let lockedTokenType ← wrapErr "get locked token type"
        (cachedCtx (call (K.staking.getLockedTokenType ctx)))
      let val ← classify [(.sdk .noValidatorFound, .validatorNotFound)] "get validator failed"
        (cachedCtx (call (K.staking.getValidator ctx validatorAddr)))
      let delID :=
        if val.supportTokenType = lockedTokenType then K.staking.flexiblePeriodDelegationID
        else toString ev.delegationId
      let msg : MsgUndelegate :=
        { delegatorAddress := K.codec.accString depositorAddr
          validatorAddress := K.codec.valString validatorAddr
          periodDelegationID := delID
          amount := bond.coin }
      if !K.staking.isKeeper then
        goPanic "interface conversion"
      else
        let _ ← classify
          [ (.sdk .noValidatorFound, .validatorNotFound),
            (.sdk .noDelegation, .delegationNotFound),
            (.sdk .noPeriodDelegation, .periodDelegationNotFound) ] "undelegate"
          (cachedCtx (call (K.staking.undelegate ctx msg)))
        pure ()

def processUnjail (K : Keepers W) (ctx : Ctx) (ev : Unjail) : Prog (Accounts W) Unit :=
  cacheContext do
  let validatorPubkey ← wrapErr "validator pubkey to cosmos"
    (pubKeyBytesToCosmos ev.validatorCmpPubkey)
  let valEvmAddr ← wrapErr "validator pubkey to evm address"
    (cosmosPubkeyToEVMAddress K.codec validatorPubkey)
  let valAddr := bytesOf valEvmAddr
  let valDelAddr := bytesOf valEvmAddr
  onlyIf (K.codec.addressString valEvmAddr ≠ K.codec.addressString ev.unjailer)
    (checkOperator (K.codec.accString valDelAddr) (K.codec.addressString ev.unjailer)
      "invalid unjailOnBehalf txn, no operator for delegator"
      "get validator's operator address failed"
      "invalid unjailOnBehalf txn, not from operator")
  classify
    [ (.sdk .noValidatorForAddress, .validatorNotFound),
      (.sdk .missingSelfDelegation, .missingSelfDelegation),
      (.sdk .validatorNotJailed, .validatorNotJailed),
      (.sdk .validatorJailed, .validatorStillJailed) ] "unjail"
    (cachedCtx (call (K.slashing.unjail ctx valAddr)))

/-! ## The dispatcher -/

/-- A parsed event of the staking contract. -/
inductive StakingEvent
  | updateValidatorCommission (ev : UpdateValidatorCommission)
  | setWithdrawalAddress (ev : SetAddress)
  | setRewardAddress (ev : SetAddress)
  | setOperator (ev : SetOperator)
  | unsetOperator (ev : UnsetOperator)
  | createValidator (ev : CreateValidator)
  | deposit (ev : Deposit)
  | redelegate (ev : Redelegate)
  | withdraw (ev : Withdraw)
  | unjail (ev : Unjail)
  deriving DecidableEq

/-- Run the handler of an event. -/
def handle (K : Keepers W) (ctx : Ctx) : StakingEvent → Prog (Accounts W) Unit
  | .updateValidatorCommission ev => processUpdateValidatorCommission K ctx ev
  | .setWithdrawalAddress ev => processSetWithdrawalAddress K ev
  | .setRewardAddress ev => processSetRewardAddress K ev
  | .setOperator ev => processSetOperator K ev
  | .unsetOperator ev => processUnsetOperator K ev
  | .createValidator ev => processCreateValidator K ctx ev
  | .deposit ev => processDeposit K ctx ev
  | .redelegate ev => processRedelegate K ctx ev
  | .withdraw ev => processWithdraw K ctx ev
  | .unjail ev => processUnjail K ctx ev

/-- The generated bindings of the IPTokenStaking contract: the id of each event, and
what parsing a log of that event yields. -/
structure StakingContract where
  updateValidatorCommissionID : Hash
  parseUpdateValidatorCommission : Eth.Log → Except GoError UpdateValidatorCommission
  setWithdrawalAddressID : Hash
  parseSetWithdrawalAddress : Eth.Log → Except GoError SetAddress
  setRewardAddressID : Hash
  parseSetRewardAddress : Eth.Log → Except GoError SetAddress
  setOperatorID : Hash
  parseSetOperator : Eth.Log → Except GoError SetOperator
  unsetOperatorID : Hash
  parseUnsetOperator : Eth.Log → Except GoError UnsetOperator
  createValidatorID : Hash
  parseCreateValidator : Eth.Log → Except GoError CreateValidator
  depositID : Hash
  parseDeposit : Eth.Log → Except GoError Deposit
  redelegateID : Hash
  parseRedelegate : Eth.Log → Except GoError Redelegate
  withdrawID : Hash
  parseWithdraw : Eth.Log → Except GoError Withdraw
  unjailID : Hash
  parseUnjail : Eth.Log → Except GoError Unjail

def gwei : Nat := 10 ^ 9

/-- The `switch` of `ProcessStakingEvents`: nothing for a log of another event, else
the parsed event with its amount in gwei. -/
def StakingContract.parse (C : StakingContract) (topic : Hash) (ethlog : Eth.Log) :
    Option (Except GoError StakingEvent) :=
  if topic = C.updateValidatorCommissionID then
    some ((C.parseUpdateValidatorCommission ethlog).map .updateValidatorCommission)
  else if topic = C.setWithdrawalAddressID then
    some ((C.parseSetWithdrawalAddress ethlog).map .setWithdrawalAddress)
  else if topic = C.setRewardAddressID then
    some ((C.parseSetRewardAddress ethlog).map .setRewardAddress)
  else if topic = C.setOperatorID then
    some ((C.parseSetOperator ethlog).map .setOperator)
  else if topic = C.unsetOperatorID then
    some ((C.parseUnsetOperator ethlog).map .unsetOperator)
  else if topic = C.createValidatorID then
    some ((C.parseCreateValidator ethlog).map fun ev =>
      .createValidator { ev with stakeAmount := ev.stakeAmount / gwei })
  else if topic = C.depositID then
    some ((C.parseDeposit ethlog).map fun ev =>
      .deposit { ev with stakeAmount := ev.stakeAmount / gwei })
  else if topic = C.redelegateID then
    some ((C.parseRedelegate ethlog).map fun ev =>
      .redelegate { ev with amount := ev.amount / gwei })
  else if topic = C.withdrawID then
    some ((C.parseWithdraw ethlog).map fun ev =>
      .withdraw { ev with stakeAmount := ev.stakeAmount / gwei })
  else if topic = C.unjailID then
    some ((C.parseUnjail ethlog).map .unjail)
  else none

/-- `if err = k.Process...; err != nil { clog.Error(...); continue }`: an error is logged
and dropped. -/
def logError {σ : Type} (x : Prog σ Unit) : Prog σ Unit := do
  let _ ← attempt x
  pure ()

/-- One round of the loop shared by the dispatchers: check the log, convert it, and act
on its first topic. -/
def dispatchLog {σ : Type} (act : Hash → Eth.Log → Prog σ Unit)
    (evmLog : Option EvmEngine.EVMEvent) : Prog σ Unit :=
  match EvmEngine.EVMEvent.verify evmLog with
  | .error err => fail (err.wrap "verify log [BUG]")
  | .ok _ =>
      match EvmEngine.EVMEvent.toEthLog evmLog with
      | .error err => fail err
      | .ok ethlog =>
          match ethlog.topics with
          | [] => goPanic "index out of range [0] with length 0"
          | topic :: _ => act topic ethlog

/-- What a dispatcher does with a parsed log: run the handler, skip what does not parse. -/
def actOn {σ ε : Type} (parse : Hash → Eth.Log → Option (Except GoError ε))
    (handler : ε → Prog σ Unit) (topic : Hash) (ethlog : Eth.Log) : Prog σ Unit :=
  match parse topic ethlog with
  | none => pure ()
  | some (.error _) => pure ()
  | some (.ok ev) => logError (handler ev)

def processStakingEvents (K : Keepers W) (C : StakingContract) (ctx : Ctx)
    (logs : List (Option EvmEngine.EVMEvent)) : Prog (Accounts W) Unit :=
  logs.forM (dispatchLog (actOn C.parse (handle K ctx)))

end Story.EvmStaking
