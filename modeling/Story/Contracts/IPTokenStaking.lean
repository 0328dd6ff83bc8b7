/-
# Story.Contracts.IPTokenStaking -- the deposit contract

Every function of the contract that writes, as the execution layer runs it. A call first
credits its value; staked amounts and fees are burned, which is a transfer to the zero
address; what is below a gwei of a staked amount is sent back to the caller, whose code
then runs and may call the contract again.

Kept besides the storage: the transfers the contract has made, the events it has emitted
that the consensus layer reads, and the value that reached it other than with a call
(`forced`: no function accepts such value, but the protocol cannot be refused). The
functions of `Ownable2Step` are stood in for by one that sets the owner and asks for
nothing. The `data` of an event is checked and then left out, as no handler reads it.
-/
import Story.Contracts.Secp256k1Verifier
import Story.EvmStaking.Handlers

namespace Story.Contracts

open Story.Effect Story.Eth Story.Evm Story.EvmStaking

/-! ## State -/

structure Transfer where
  recipient : Address
  amount : Nat
  deriving DecidableEq

/-- The immutables; the constructor checks the fee. -/
structure Immutables where
  DEFAULT_MIN_FEE : Nat
  MAX_DATA_LENGTH : Nat
  gwei_le : gwei ≤ DEFAULT_MIN_FEE

/-- `IIPTokenStaking.InitializerArgs`. -/
structure InitializerArgs where
  owner : Address
  minStakeAmount : Nat
  minUnstakeAmount : Nat
  minCommissionRate : Nat
  fee : Nat

inductive StakingPeriod
  | FLEXIBLE
  | SHORT
  | MEDIUM
  | LONG
  deriving DecidableEq

/-- The `uint8` of a staking period. -/
def StakingPeriod.code : StakingPeriod → Nat
  | .FLEXIBLE => 0
  | .SHORT => 1
  | .MEDIUM => 2
  | .LONG => 3

structure IPTokenStaking where
  balance : Nat
  forced : Nat
  owner : Address
  /-- The guard of `nonReentrant` is up. -/
  entered : Bool
  minCommissionRate : Nat
  minStakeAmount : Nat
  minUnstakeAmount : Nat
  delegationIdCounter : Nat
  fee : Nat
  transfers : List Transfer
  events : List StakingEvent

def MAX_MONIKER_LENGTH : Nat := 70

def STAKE_ROUNDING : Nat := gwei

namespace IPTokenStaking

/-- The proxy before it is set up. -/
def blank : IPTokenStaking where
  balance := 0
  forced := 0
  owner := zeroAddress
  entered := false
  minCommissionRate := 0
  minStakeAmount := 0
  minUnstakeAmount := 0
  delegationIdCounter := 0
  fee := 0
  transfers := []
  events := []

/-! ## Modifiers and transfers -/

def guard : Lens IPTokenStaking Bool where
  view := IPTokenStaking.entered
  put := fun entered s => { s with entered := entered }
  view_put := fun _ _ => rfl
  put_view := fun _ => rfl
  put_put := fun _ _ _ => rfl

/-- Sending value out of the balance. -/
def transfer (recipient : Address) (amount : Nat) : Tx IPTokenStaking Unit := do
  let s ← get
  require (amount ≤ s.balance) "insufficient balance"
  modify fun s => { s with
    balance := s.balance - amount
    transfers := s.transfers ++ [⟨recipient, amount⟩] }

def emit (ev : StakingEvent) : Tx IPTokenStaking Unit :=
  modify fun s => { s with events := s.events ++ [ev] }

/-- The modifier `chargesFee`. -/
def chargesFee (value : Nat) (body : Tx IPTokenStaking Unit) : Tx IPTokenStaking Unit := do
  let s ← get
  require (value = s.fee) "IPTokenStaking: Invalid fee amount"
  transfer zeroAddress value
  body

/-- `_refundRemainder`; `recipient` is the code of the caller. -/
def refundRemainder (sender : Address) (remainder : Nat) (recipient : Tx IPTokenStaking Unit) :
    Tx IPTokenStaking Unit := do
  let success ← tryCall do
    transfer sender remainder
    recipient
  require success "IPTokenStaking: Failed to refund remainder"

/-- `roundedStakeAmount`: the amount, and the remainder. -/
def roundedStakeAmount (rawAmount : Nat) : Nat × Nat :=
  let remainder := rawAmount % STAKE_ROUNDING
  (rawAmount - remainder, remainder)

/-! ## Parameters -/

/-- `_setFee`. -/
def setFee (I : Immutables) (newFee : Nat) : Tx IPTokenStaking Unit := do
  require (I.DEFAULT_MIN_FEE ≤ newFee) "IPTokenStaking: Invalid min fee"
  modify fun s => { s with fee := newFee }

/-- `_setMinStakeAmount`. -/
def setMinStakeAmount (newMinStakeAmount : Nat) : Tx IPTokenStaking Unit := do
  let minStakeAmount := newMinStakeAmount - newMinStakeAmount % STAKE_ROUNDING
  modify fun s => { s with minStakeAmount := minStakeAmount }
  require (0 < minStakeAmount) "IPTokenStaking: Zero min stake amount"

/-- `_setMinUnstakeAmount`. -/
def setMinUnstakeAmount (newMinUnstakeAmount : Nat) : Tx IPTokenStaking Unit := do
  let minUnstakeAmount := newMinUnstakeAmount - newMinUnstakeAmount % STAKE_ROUNDING
  modify fun s => { s with minUnstakeAmount := minUnstakeAmount }
  require (0 < minUnstakeAmount) "IPTokenStaking: Zero min unstake amount"

/-- `_setMinCommissionRate`. -/
def setMinCommissionRate (newValue : Nat) : Tx IPTokenStaking Unit := do
  require (0 < newValue) "IPTokenStaking: Zero min commission rate"
  modify fun s => { s with minCommissionRate := newValue }

/-- Setting up the proxy, which is done once. -/
def setUp (I : Immutables) (args : InitializerArgs) : Tx IPTokenStaking Unit := do
  modify fun s => { s with owner := args.owner }
  setMinStakeAmount args.minStakeAmount
  setMinUnstakeAmount args.minUnstakeAmount
  setMinCommissionRate args.minCommissionRate
  setFee I args.fee

/-! ## Requests for a fee -/

def setOperator (sender : Address) (value : Nat) (operator : Address) : Tx IPTokenStaking Unit :=
  chargesFee value do
    require (operator ≠ zeroAddress) "IPTokenStaking: zero input address"
    emit (.setOperator ⟨sender, operator⟩)

def unsetOperator (sender : Address) (value : Nat) : Tx IPTokenStaking Unit :=
  chargesFee value do
    emit (.unsetOperator ⟨sender⟩)

def setWithdrawalAddress (sender : Address) (value : Nat) (newWithdrawalAddress : Address) :
    Tx IPTokenStaking Unit :=
  chargesFee value do
    require (newWithdrawalAddress ≠ zeroAddress) "IPTokenStaking: zero input address"
    emit (.setWithdrawalAddress ⟨sender, bytesToHash (bytesOf newWithdrawalAddress)⟩)

def setRewardsAddress (sender : Address) (value : Nat) (newRewardsAddress : Address) :
    Tx IPTokenStaking Unit :=
  chargesFee value do
    require (newRewardsAddress ≠ zeroAddress) "IPTokenStaking: zero input address"
    emit (.setRewardAddress ⟨sender, bytesToHash (bytesOf newRewardsAddress)⟩)

section Keys

variable (I : Immutables) (V : Crypto)

def updateValidatorCommission (sender : Address) (value : Nat) (validatorCmpPubkey : Bytes)
    (commissionRate : UInt32) : Tx IPTokenStaking Unit :=
  chargesFee value do
    V.verifyCmpPubkeyWithExpectedAddress validatorCmpPubkey sender
    let s ← get
    require (s.minCommissionRate ≤ commissionRate.toNat)
      "IPTokenStaking: Commission rate under min"
    emit (.updateValidatorCommission ⟨validatorCmpPubkey, commissionRate⟩)

/-- `_redelegate`, with the fee of both its callers. -/
def redelegate (sender : Address) (value : Nat) (delegator : Address)
    (validatorSrcCmpPubkey validatorDstCmpPubkey : Bytes) (delegationId amount : Nat) :
    Tx IPTokenStaking Unit :=
  chargesFee value do
    V.verifyCmpPubkey validatorSrcCmpPubkey
    V.verifyCmpPubkey validatorDstCmpPubkey
    require (delegator ≠ zeroAddress) "IPTokenStaking: Invalid delegator"
    require (V.keccak256 validatorSrcCmpPubkey ≠ V.keccak256 validatorDstCmpPubkey)
      "IPTokenStaking: Redelegating to same validator"
    let s ← get
    require (delegationId ≤ s.delegationIdCounter) "IPTokenStaking: Invalid delegation id"
    let stakeAmount := (roundedStakeAmount amount).1
    require (s.minStakeAmount ≤ stakeAmount) "IPTokenStaking: Stake amount under min"
    emit (.redelegate ⟨delegator, validatorSrcCmpPubkey, validatorDstCmpPubkey, delegationId,
      sender, stakeAmount⟩)

/-- `_unstake`, with the fee of both its callers. -/
def unstake (sender : Address) (value : Nat) (delegator : Address) (validatorCmpPubkey : Bytes)
    (delegationId amount : Nat) (data : Bytes) : Tx IPTokenStaking Unit :=
  chargesFee value do
    V.verifyCmpPubkey validatorCmpPubkey
    let s ← get
    require (delegationId ≤ s.delegationIdCounter) "IPTokenStaking: Invalid delegation id"
    let unstakeAmount := (roundedStakeAmount amount).1
    require (s.minUnstakeAmount ≤ unstakeAmount) "IPTokenStaking: Unstake amount under min"
    require (data.length ≤ I.MAX_DATA_LENGTH) "IPTokenStaking: Data length over max"
    emit (.withdraw ⟨delegator, validatorCmpPubkey, unstakeAmount, delegationId, sender⟩)

def unjail (sender : Address) (value : Nat) (validatorCmpPubkey data : Bytes) :
    Tx IPTokenStaking Unit :=
  chargesFee value do
    V.verifyCmpPubkeyWithExpectedAddress validatorCmpPubkey sender
    require (data.length ≤ I.MAX_DATA_LENGTH) "IPTokenStaking: Data length over max"
    emit (.unjail ⟨sender, validatorCmpPubkey⟩)

/-- `unjailOnBehalf` asks for a key on the curve only. -/
def unjailOnBehalf (sender : Address) (value : Nat) (validatorCmpPubkey data : Bytes) :
    Tx IPTokenStaking Unit :=
  chargesFee value do
    V.verifyCmpPubkey validatorCmpPubkey
    require (data.length ≤ I.MAX_DATA_LENGTH) "IPTokenStaking: Data length over max"
    emit (.unjail ⟨sender, validatorCmpPubkey⟩)

/-! ## Staking -/

/-- The arguments of `createValidator`. -/
structure ValidatorArgs where
  validatorCmpPubkey : Bytes
  moniker : String
  commissionRate : UInt32
  maxCommissionRate : UInt32
  maxCommissionChangeRate : UInt32
  supportsUnlocked : Bool
  data : Bytes

/-- The event of `_createValidator`. -/
def ValidatorArgs.event (args : ValidatorArgs) (stakeAmount : Nat) (sender : Address) :
    CreateValidator where
  validatorCmpPubkey := args.validatorCmpPubkey
  moniker := args.moniker
  stakeAmount := stakeAmount
  commissionRate := args.commissionRate
  maxCommissionRate := args.maxCommissionRate
  maxCommissionChangeRate := args.maxCommissionChangeRate
  supportsUnlocked := if args.supportsUnlocked then 1 else 0
  operatorAddress := sender

/-- `createValidator` and `_createValidator`. -/
def createValidator (sender : Address) (value : Nat) (args : ValidatorArgs)
    (recipient : Tx IPTokenStaking Unit) : Tx IPTokenStaking Unit := do
  V.verifyCmpPubkeyWithExpectedAddress args.validatorCmpPubkey sender
  nonReentrant guard do
    let (stakeAmount, remainder) := roundedStakeAmount value
    let s ← get
    require (s.minStakeAmount ≤ stakeAmount) "IPTokenStaking: Stake amount under min"
    require (s.minCommissionRate ≤ args.commissionRate.toNat)
      "IPTokenStaking: Commission rate under min"
    require (args.commissionRate ≤ args.maxCommissionRate)
      "IPTokenStaking: Commission rate over max"
    require (args.moniker.utf8ByteSize ≤ MAX_MONIKER_LENGTH)
      "IPTokenStaking: Moniker length over max"
    require (args.data.length ≤ I.MAX_DATA_LENGTH) "IPTokenStaking: Data length over max"
    transfer zeroAddress stakeAmount
    emit (.createValidator (args.event stakeAmount sender))
    if 0 < remainder then
      refundRemainder sender remainder recipient

/-- The id of a delegation in `_stake`: flexible ones have none of their own. -/
def nextDelegationId (stakingPeriod : StakingPeriod) : Tx IPTokenStaking Nat := do
  if stakingPeriod ≠ .FLEXIBLE then
    let s ← get
    let delegationId ← checkedAdd s.delegationIdCounter 1
    modify fun s => { s with delegationIdCounter := delegationId }
    pure delegationId
  else
    pure 0

/-- `_stake`, with the guard of both its callers. -/
def stake (sender : Address) (value : Nat) (delegator : Address) (validatorCmpPubkey : Bytes)
    (stakingPeriod : StakingPeriod) (data : Bytes) (recipient : Tx IPTokenStaking Unit) :
    Tx IPTokenStaking Unit := nonReentrant guard do
  V.verifyCmpPubkey validatorCmpPubkey
  require (delegator ≠ zeroAddress) "IPTokenStaking: invalid delegator"
  require (data.length ≤ I.MAX_DATA_LENGTH) "IPTokenStaking: Data length over max"
  require (stakingPeriod.code ≤ StakingPeriod.LONG.code) "IPTokenStaking: Invalid staking period"
  let (stakeAmount, remainder) := roundedStakeAmount value
  let s ← get
  require (s.minStakeAmount ≤ stakeAmount) "IPTokenStaking: Stake amount under min"
  let delegationId ← nextDelegationId stakingPeriod
  emit (.deposit ⟨delegator, validatorCmpPubkey, stakeAmount, stakingPeriod.code, delegationId,
    sender⟩)
  transfer zeroAddress stakeAmount
  if 0 < remainder then
    refundRemainder sender remainder recipient

end Keys

/-! ## The contract -/

/-- The functions that write. -/
inductive Fn
  | setMinStakeAmount (newMinStakeAmount : Nat)
  | setMinUnstakeAmount (newMinUnstakeAmount : Nat)
  | setFee (newFee : Nat)
  | setMinCommissionRate (newValue : Nat)
  | setOwner (newOwner : Address)
  | setOperator (operator : Address)
  | unsetOperator
  | setWithdrawalAddress (newWithdrawalAddress : Address)
  | setRewardsAddress (newRewardsAddress : Address)
  | createValidator (args : ValidatorArgs)
  | updateValidatorCommission (validatorCmpPubkey : Bytes) (commissionRate : UInt32)
  | stake (validatorCmpPubkey : Bytes) (stakingPeriod : StakingPeriod) (data : Bytes)
  | stakeOnBehalf (delegator : Address) (validatorCmpPubkey : Bytes)
      (stakingPeriod : StakingPeriod) (data : Bytes)
  | redelegate (validatorSrcCmpPubkey validatorDstCmpPubkey : Bytes) (delegationId amount : Nat)
  | redelegateOnBehalf (delegator : Address) (validatorSrcCmpPubkey validatorDstCmpPubkey : Bytes)
      (delegationId amount : Nat)
  | unstake (validatorCmpPubkey : Bytes) (delegationId amount : Nat) (data : Bytes)
  | unstakeOnBehalf (delegator : Address) (validatorCmpPubkey : Bytes) (delegationId amount : Nat)
      (data : Bytes)
  | unjail (validatorCmpPubkey data : Bytes)
  | unjailOnBehalf (validatorCmpPubkey data : Bytes)

/-- The setters of the owner take no value. -/
def onlyOwnerSets (sender : Address) (value : Nat) (set : Tx IPTokenStaking Unit) :
    Tx IPTokenStaking Unit := do
  require (value = 0) "value sent to a function that is not payable"
  onlyOwner IPTokenStaking.owner sender
  set

/-- What a function does once the value of the call is credited. -/
def run (I : Immutables) (V : Crypto) (sender : Address) (value : Nat)
    (recipient : Tx IPTokenStaking Unit) : Fn → Tx IPTokenStaking Unit
  | .setMinStakeAmount newMinStakeAmount =>
      onlyOwnerSets sender value (setMinStakeAmount newMinStakeAmount)
  | .setMinUnstakeAmount newMinUnstakeAmount =>
      onlyOwnerSets sender value (setMinUnstakeAmount newMinUnstakeAmount)
  | .setFee newFee => onlyOwnerSets sender value (setFee I newFee)
  | .setMinCommissionRate newValue => onlyOwnerSets sender value (setMinCommissionRate newValue)
  | .setOwner newOwner => do
      require (value = 0) "value sent to a function that is not payable"
      modify fun s => { s with owner := newOwner }
  | .setOperator operator => setOperator sender value operator
  | .unsetOperator => unsetOperator sender value
  | .setWithdrawalAddress newWithdrawalAddress =>
      setWithdrawalAddress sender value newWithdrawalAddress
  | .setRewardsAddress newRewardsAddress => setRewardsAddress sender value newRewardsAddress
  | .createValidator args => createValidator I V sender value args recipient
  | .updateValidatorCommission validatorCmpPubkey commissionRate =>
      updateValidatorCommission V sender value validatorCmpPubkey commissionRate
  | .stake validatorCmpPubkey stakingPeriod data =>
      stake I V sender value sender validatorCmpPubkey stakingPeriod data recipient
  | .stakeOnBehalf delegator validatorCmpPubkey stakingPeriod data =>
      stake I V sender value delegator validatorCmpPubkey stakingPeriod data recipient
  | .redelegate validatorSrcCmpPubkey validatorDstCmpPubkey delegationId amount =>
      redelegate V sender value sender validatorSrcCmpPubkey validatorDstCmpPubkey delegationId
        amount
  | .redelegateOnBehalf delegator validatorSrcCmpPubkey validatorDstCmpPubkey delegationId amount =>
      redelegate V sender value delegator validatorSrcCmpPubkey validatorDstCmpPubkey delegationId
        amount
  | .unstake validatorCmpPubkey delegationId amount data =>
      unstake I V sender value sender validatorCmpPubkey delegationId amount data
  | .unstakeOnBehalf delegator validatorCmpPubkey delegationId amount data =>
      unstake I V sender value delegator validatorCmpPubkey delegationId amount data
  | .unjail validatorCmpPubkey data => unjail I V sender value validatorCmpPubkey data
  | .unjailOnBehalf validatorCmpPubkey data =>
      unjailOnBehalf I V sender value validatorCmpPubkey data

def exec (I : Immutables) (V : Crypto) (sender : Address) (value : Nat) (fn : Fn)
    (recipient : Tx IPTokenStaking Unit) : Tx IPTokenStaking Unit := do
  modify fun s => { s with balance := s.balance + value }
  run I V sender value recipient fn

/-- The contract; it has no `multicall`. -/
def contract (I : Immutables) (V : Crypto) : Contract Address Fn IPTokenStaking where
  exec := exec I V
  credit := fun amount s => { s with balance := s.balance + amount, forced := s.forced + amount }
  multicall := false

end IPTokenStaking

end Story.Contracts
