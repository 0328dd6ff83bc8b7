/-
# Story.EvmStaking.Events -- the handlers of the staking contract's events

Each handler of the ten event kinds branches the store with `CacheContext`, makes
all its reads and writes through the branch, and writes the branch back when it
returns no error: a deferred closure turns a panic into an error first. A handler
is a program on a branched state under `cacheContext`, and `cachedCtx` marks every
single call that the source makes with the cached context.

Events and logs the handlers emit are left out: no store holds them.
-/
import Story.EvmStaking.Store

namespace Story.EvmStaking

open Story.Effect Story.Errors Story.Sdk Story.Collections Story.Eth

variable {W : Type}

/-! ## Events of the IPTokenStaking contract

Amounts are `uint256` values. -/

structure UpdateValidatorCommission where
  validatorCmpPubkey : Bytes
  commissionRate : UInt32
  deriving DecidableEq

/-- `SetWithdrawalAddress` and `SetRewardAddress` have the same fields. -/
structure SetAddress where
  delegator : Address
  executionAddress : Hash
  deriving DecidableEq

structure SetOperator where
  delegator : Address
  operator : Address
  deriving DecidableEq

structure UnsetOperator where
  delegator : Address
  deriving DecidableEq

structure CreateValidator where
  validatorCmpPubkey : Bytes
  moniker : String
  stakeAmount : Nat
  commissionRate : UInt32
  maxCommissionRate : UInt32
  maxCommissionChangeRate : UInt32
  supportsUnlocked : UInt8
  operatorAddress : Address
  deriving DecidableEq

structure Deposit where
  delegator : Address
  validatorCmpPubkey : Bytes
  stakeAmount : Nat
  stakingPeriod : Nat
  delegationId : Nat
  operatorAddress : Address
  deriving DecidableEq

structure Redelegate where
  delegator : Address
  validatorSrcCmpPubkey : Bytes
  validatorDstCmpPubkey : Bytes
  delegationId : Nat
  operatorAddress : Address
  amount : Nat
  deriving DecidableEq

structure Withdraw where
  delegator : Address
  validatorCmpPubkey : Bytes
  stakeAmount : Nat
  delegationId : Nat
  operatorAddress : Address
  deriving DecidableEq

structure Unjail where
  unjailer : Address
  validatorCmpPubkey : Bytes
  deriving DecidableEq

/-! ## Shared pieces -/

/-- The deferred closure of a handler: a panic becomes an error. -/
def recoverErr : Fault → Fault
  | .panic r => .err ((GoError.new s!"panic caused by {r}").wrapErrWithCode .unexpectedCondition)
  | f => f

/-- `cachedCtx, writeCache := sdkCtx.CacheContext()` with the deferred closure of a handler. -/
def cacheContext {σ α : Type} (body : Prog (Branched σ) α) : Prog σ α := transact recoverErr body

/-- A call made with the cached context. -/
def cachedCtx {σ α : Type} (x : Prog σ α) : Prog (Branched σ) α := onCopy x

/-- `if errors.Is(err, e) { return errors.WrapErrWithCode(c, err) } else if ...`, tried in
order for the pairs of `cases`, then `else if err != nil { return errors.Wrap(err, msg) }`. -/
def classify {σ α : Type} (cases : List (Sentinel × ErrCode)) (msg : String) (x : Prog σ α) :
    Prog σ α :=
  mapError
    (Fault.mapErr fun err =>
      match cases.find? fun c => err.isA c.1 with
      | some c => err.wrapErrWithCode c.2
      | none => err.wrap msg)
    x

@[simp] theorem returns_cacheContext {σ α : Type} {body : Prog (Branched σ) α} {s t : σ} {a : α} :
    Returns (cacheContext body) s a t ↔ ∃ b, Returns body ⟨s, s⟩ a b ∧ b.copy = t :=
  returns_transact

@[simp] theorem returns_cachedCtx {σ α : Type} {x : Prog σ α} {b b' : Branched σ} {a : α} :
    Returns (cachedCtx x) b a b' ↔ ∃ t, Returns x b.copy a t ∧ ⟨b.parent, t⟩ = b' :=
  returns_onCopy

@[simp] theorem returns_classify {σ α : Type} {cases : List (Sentinel × ErrCode)} {msg : String}
    {x : Prog σ α} {s t : σ} {a : α} : Returns (classify cases msg x) s a t ↔ Returns x s a t :=
  returns_mapError

instance moves_cachedCtx {σ α : Type} {R : σ → σ → Prop} (x : Prog σ α) [Moves R x] :
    Moves (OnCopy R) (cachedCtx x) := Moves.onCopy _

instance moves_classify {σ α : Type} {R : σ → σ → Prop} (cases : List (Sentinel × ErrCode))
    (msg : String) (x : Prog σ α) [Moves R x] : Moves R (classify cases msg x) :=
  Moves.mapError _ _

/-- `k1util.PubKeyBytesToCosmos`; a cosmos key is its bytes. -/
def pubKeyBytesToCosmos {σ : Type} (pubkey : Bytes) : Prog σ Bytes :=
  if pubkey.length ≠ 33 then fail (.new "invalid pubkey length") else pure pubkey

/-- `k1util.CosmosPubkeyToEVMAddress`. -/
def cosmosPubkeyToEVMAddress {σ : Type} (codec : Codec) (pubkeyCmp : Bytes) : Prog σ Address :=
  convert (codec.decompressToAddress pubkeyCmp)

@[simp] theorem returns_pubKeyBytesToCosmos {σ : Type} {pubkey pk : Bytes} {s t : σ} :
    Returns (pubKeyBytesToCosmos pubkey) s pk t ↔ pubkey.length = 33 ∧ pubkey = pk ∧ s = t := by
  unfold pubKeyBytesToCosmos
  split <;> simp_all

@[simp] theorem returns_cosmosPubkeyToEVMAddress {σ : Type} {codec : Codec} {pubkeyCmp : Bytes}
    {s t : σ} {addr : Address} :
    Returns (cosmosPubkeyToEVMAddress codec pubkeyCmp) s addr t ↔
      codec.decompressToAddress pubkeyCmp = .ok addr ∧ s = t :=
  returns_convert

/-- The two results of `IPTokenToBondCoin`. -/
structure BondCoin where
  coin : Coin
  coins : Coins

/-- `IPTokenToBondCoin`. -/
def ipTokenToBondCoin {σ : Type} (amount : Nat) : Prog σ BondCoin := do
  let coin ← newCoin defaultBondDenom amount
  pure ⟨coin, newCoins coin⟩

instance readOnly_pubKeyBytesToCosmos {σ : Type} (pubkey : Bytes) :
    ReadOnly (pubKeyBytesToCosmos pubkey : Prog σ Bytes) := ReadOnly.ite _ _ _

instance readOnly_cosmosPubkeyToEVMAddress {σ : Type} (codec : Codec) (pubkeyCmp : Bytes) :
    ReadOnly (cosmosPubkeyToEVMAddress codec pubkeyCmp : Prog σ Address) := readOnly_convert _

instance readOnly_ipTokenToBondCoin {σ : Type} (amount : Nat) :
    ReadOnly (ipTokenToBondCoin amount : Prog σ BondCoin) := ReadOnly.bind _ _

@[simp] theorem returns_ipTokenToBondCoin {σ : Type} {amount : Nat} {s t : σ} {bond : BondCoin} :
    Returns (ipTokenToBondCoin amount) s bond t ↔
      bond = ⟨⟨defaultBondDenom, amount⟩, newCoins ⟨defaultBondDenom, amount⟩⟩ ∧ s = t := by
  simp only [ipTokenToBondCoin, returns_bind, returns_newCoin, returns_pure]
  constructor
  · rintro ⟨_, _, ⟨_, rfl, rfl⟩, rfl, rfl⟩
    exact ⟨rfl, rfl⟩
  · rintro ⟨rfl, rfl⟩
    exact ⟨_, _, ⟨by omega, rfl, rfl⟩, rfl, rfl⟩

/-- The Go conversion `int32(n.Int64())` of a `uint256`. -/
def toInt32 (n : Nat) : Int :=
  if n % 2 ^ 32 < 2 ^ 31 then ((n % 2 ^ 32 : Nat) : Int) else ((n % 2 ^ 32 : Nat) : Int) - 2 ^ 32

/-- `IsSingularity`. -/
def isSingularity {σ : Type} [HasSdk σ W] (K : Keepers W) (ctx : Ctx) : Prog σ Bool := do
  let singularityHeight ← call (K.staking.getSingularityHeight ctx)
  return ctx.blockHeight < toInt64 singularityHeight

/-- The maps of the module, by the name of their collection. -/
def withdrawAddressMapName : String := "delegator_withdraw_address_map"
def rewardAddressMapName : String := "delegator_reward_address_map"
def operatorAddressMapName : String := "delegator_operator_address_map"

/-- `DelegatorWithdrawAddress.Set`. -/
def setWithdrawAddress (delegator address : String) : Prog (Accounts W) Unit :=
  modify fun a =>
    { a with delegatorWithdrawAddress :=
        Function.update a.delegatorWithdrawAddress delegator (some address) }

/-- `DelegatorRewardAddress.Set`. -/
def setRewardAddress (delegator address : String) : Prog (Accounts W) Unit :=
  modify fun a =>
    { a with delegatorRewardAddress :=
        Function.update a.delegatorRewardAddress delegator (some address) }

/-- `DelegatorOperatorAddress.Set`, and `Remove` for `none`. -/
def setOperatorAddress (delegator : String) (address : Option String) : Prog (Accounts W) Unit :=
  modify fun a =>
    { a with delegatorOperatorAddress :=
        Function.update a.delegatorOperatorAddress delegator address }

/-- `DelegatorOperatorAddress.Get`. -/
def getOperatorAddress (delegator : String) : Prog (Accounts W) String :=
  getEntry operatorAddressMapName fun a => a.delegatorOperatorAddress delegator

/-- Both address maps get a default where they have no entry. -/
def setDefaultAddresses (delegator withdrawAddress rewardAddress : String) :
    Prog (Branched (Accounts W)) Unit := do
  let a ← cachedCtx get
  onlyIf (a.delegatorWithdrawAddress delegator = none)
    (cachedCtx (setWithdrawAddress delegator withdrawAddress))
  let a ← cachedCtx get
  onlyIf (a.delegatorRewardAddress delegator = none)
    (cachedCtx (setRewardAddress delegator rewardAddress))

/-- The check of the "on behalf" events: `sender` has to be the operator of `delegator`. -/
def checkOperator (delegator sender noOperator getFailed notOperator : String) :
    Prog (Branched (Accounts W)) Unit := do
  match ← attempt (cachedCtx (getOperatorAddress delegator)) with
  | .error err =>
      if err.isNotFound then
        fail ((GoError.new noOperator).wrapErrWithCode .invalidOperator)
      else
        fail (err.wrap getFailed)
  | .ok operatorAddr =>
      onlyIf (operatorAddr ≠ sender)
        (fail ((GoError.new notOperator).wrapErrWithCode .invalidOperator))

/-- Create the account of `addr` when it does not exist. -/
def ensureAccount (K : Keepers W) (ctx : Ctx) (addr : Bytes) :
    Prog (Branched (Accounts W)) Unit := do
  let exists_ ← cachedCtx (call (K.auth.hasAccount ctx addr))
  onlyIf (!exists_) (cachedCtx (call (K.auth.setNewAccount ctx addr)))

end Story.EvmStaking
