/-
# Story.Sdk -- the Cosmos SDK as the program sees it

The bank, staking, distribution, slashing, auth and upgrade modules are not part of
the program. Their stores are one type `W`, and every keeper call is an arbitrary
program on `W`: the development never says what such a call does, except where a
theorem lists the documented behaviour it relies on. `Keepers W` bundles the calls,
`Codec` the pure address and key conversions of the SDK and of go-ethereum.

An `int64` height or time is an `Int`. Coins are what `AmountOf` reads, a function
from denominations to amounts; decimal coins count units of 10^-18.
-/
import Story.Eth

namespace Story.Sdk

open Story.Effect Story.Errors Story.Eth

/-! ## Machine integers -/

/-- The Go conversion `uint64(i)` of an `int64`. -/
def toUint64 (i : Int) : UInt64 := UInt64.ofNat (i % 2 ^ 64).toNat

/-- The Go conversion `int64(u)` of a `uint64`. -/
def toInt64 (u : UInt64) : Int :=
  if u.toNat < 2 ^ 63 then u.toNat else u.toNat - 2 ^ 64

theorem toNat_toUint64 {i : Int} (h0 : 0 ≤ i) (h : i < 2 ^ 64) : (toUint64 i).toNat = i.toNat := by
  rw [toUint64, UInt64.toNat_ofNat', Int.emod_eq_of_lt h0 (by exact_mod_cast h)]
  apply Nat.mod_eq_of_lt
  omega

/-- `math.Int.Uint64()`, which panics on a value that does not fit. -/
def uint64 {σ : Type} (i : Int) : Prog σ UInt64 :=
  if 0 ≤ i ∧ i < 2 ^ 64 then pure (UInt64.ofNat i.toNat) else goPanic "Uint64() out of bounds"

@[simp] theorem returns_uint64 {σ : Type} {i : Int} {s t : σ} {u : UInt64} :
    Returns (uint64 i) s u t ↔ i = u.toNat ∧ s = t := by
  unfold uint64
  split
  · rename_i h
    rw [returns_pure]
    constructor
    · rintro ⟨rfl, rfl⟩
      refine ⟨?_, rfl⟩
      rw [UInt64.toNat_ofNat', Nat.mod_eq_of_lt (by omega)]
      omega
    · rintro ⟨rfl, rfl⟩
      simp
  · rename_i h
    simp only [returns_goPanic, false_iff, not_and]
    intro hi
    exact absurd ⟨by omega, by have := u.toNat_lt; omega⟩ h

/-! ## The context of a call -/

inductive ExecMode
  | finalize
  | other
  deriving DecidableEq

/-- What the program reads off an `sdk.Context`. -/
structure Ctx where
  chainID : String
  blockHeight : Int
  /-- `BlockTime().Unix()`. -/
  blockTime : Int
  /-- `BlockHeader().AppHash`. -/
  appHash : Bytes
  execMode : ExecMode
  deriving DecidableEq

/-! ## Coins -/

/-- `sdk.DefaultBondDenom`. -/
def defaultBondDenom : String := "stake"

structure Coin where
  denom : String
  amount : Int
  deriving DecidableEq

/-- `sdk.Coins`, by what `AmountOf` reads. -/
abbrev Coins := String → Int

/-- `sdk.DecCoins`, by what `AmountOf` reads, in units of 10^-18. -/
abbrev DecCoins := String → Int

/-- `sdk.NewCoin`, which panics on a negative amount. -/
def newCoin {σ : Type} (denom : String) (amount : Int) : Prog σ Coin :=
  if amount < 0 then goPanic ("negative coin amount: " ++ toString amount) else pure ⟨denom, amount⟩

/-- `sdk.NewCoins` of one coin. -/
def newCoins (coin : Coin) : Coins := fun d => if d = coin.denom then coin.amount else 0

/-- The coins part of `DecCoins.TruncateDecimal`. -/
def truncateDecimal (dc : DecCoins) : Coins := fun d => (dc d).tdiv (10 ^ 18)

instance readOnly_newCoin {σ : Type} (denom : String) (amount : Int) :
    ReadOnly (newCoin denom amount : Prog σ Coin) := ReadOnly.ite _ _ _

@[simp] theorem returns_newCoin {σ : Type} {denom : String} {amount : Int} {s t : σ} {c : Coin} :
    Returns (newCoin denom amount) s c t ↔ 0 ≤ amount ∧ c = ⟨denom, amount⟩ ∧ s = t := by
  unfold newCoin
  split <;> simp <;> grind

/-! ## Records of the staking module -/

/-- `stypes.Validator`, the parts that are read. `consensusPubkey` is the cached key. -/
structure Validator where
  operator : String
  jailed : Bool
  supportTokenType : Int
  minSelfDelegation : Int
  description : String
  consensusPubkey : Option Bytes
  deriving DecidableEq

structure Delegation where
  delegatorAddress : String
  validatorAddress : String
  shares : Int
  deriving DecidableEq

structure UnbondedEntry where
  delegatorAddress : String
  validatorAddress : String
  amount : Int
  deriving DecidableEq

structure MsgDelegate where
  delegatorAddress : String
  validatorAddress : String
  amount : Coin
  periodDelegationID : String
  periodType : Int
  deriving DecidableEq

structure MsgUndelegate where
  delegatorAddress : String
  validatorAddress : String
  periodDelegationID : String
  amount : Coin
  deriving DecidableEq

structure MsgBeginRedelegate where
  delegatorAddress : String
  validatorSrcAddress : String
  validatorDstAddress : String
  periodDelegationID : String
  amount : Coin
  deriving DecidableEq

/-- Rates are `LegacyDec`s, in units of 10^-18. -/
structure MsgCreateValidator where
  validatorAddress : String
  pubkey : Bytes
  value : Coin
  moniker : String
  rate : Int
  maxRate : Int
  maxChangeRate : Int
  minSelfDelegation : Int
  supportTokenType : Int
  deriving DecidableEq

structure MsgEditValidator where
  validatorAddress : String
  description : String
  commissionRate : Int
  minSelfDelegation : Int
  deriving DecidableEq

/-- `upgradetypes.Plan`. -/
structure Plan where
  name : String
  height : Int
  info : String
  deriving DecidableEq

/-! ## Conversions -/

/-- Address and key conversions of the SDK and of go-ethereum. -/
structure Codec where
  /-- `common.HexToAddress`. -/
  hexToAddress : String → Address
  /-- `common.Address.String`, the same as `Hex`. -/
  addressString : Address → String
  /-- `hexutil.Encode`. -/
  hexEncode : Bytes → String
  /-- `sdk.AccAddress.String`. -/
  accString : Bytes → String
  accAddressFromBech32 : String → Except SdkError Bytes
  /-- `sdk.ValAddress.String`. -/
  valString : Bytes → String
  valAddressFromBech32 : String → Except SdkError Bytes
  /-- `ValidatorAddressCodec().StringToBytes`. -/
  validatorStringToBytes : String → Except SdkError Bytes
  /-- `ethcrypto.DecompressPubkey`, then `ethcrypto.PubkeyToAddress`. -/
  decompressToAddress : Bytes → Except SdkError Address
  /-- `authtypes.NewModuleAddress(name).String()`. -/
  moduleAddress : String → String

/-- A pure conversion of a library, as a call. -/
def convert {σ α : Type} (r : Except SdkError α) : Prog σ α :=
  match r with
  | .ok a => pure a
  | .error e => fail (.ofSdk e)

@[simp] theorem returns_convert {σ α : Type} {r : Except SdkError α} {s t : σ} {a : α} :
    Returns (convert r) s a t ↔ r = .ok a ∧ s = t := by
  cases r <;> simp [convert]

@[simp] theorem fails_convert {σ α : Type} {r : Except SdkError α} {s t : σ} {f : Fault} :
    Fails (convert r) s f t ↔ ∃ e, r = .error e ∧ f = .err (.ofSdk e) ∧ s = t := by
  cases r <;> simp [convert, eq_comm]

instance readOnly_convert {σ α : Type} (r : Except SdkError α) :
    ReadOnly (convert r : Prog σ α) := by
  cases r with
  | ok a => exact ReadOnly.pure a
  | error e => exact readOnly_fail _

/-! ## Keepers -/

structure AccountKeeper (W : Type) where
  hasAccount : Ctx → Bytes → SdkProg W Bool
  /-- `SetAccount(NewAccountWithAddress(addr))`. -/
  setNewAccount : Ctx → Bytes → SdkProg W Unit

structure BankKeeper (W : Type) where
  mintCoins : Ctx → String → Coins → SdkProg W Unit
  burnCoins : Ctx → String → Coins → SdkProg W Unit
  sendCoinsFromModuleToAccount : Ctx → String → Bytes → Coins → SdkProg W Unit
  sendCoinsFromAccountToModule : Ctx → Bytes → String → Coins → SdkProg W Unit
  spendableCoin : Ctx → Bytes → String → SdkProg W Coin

structure StakingKeeper (W : Type) where
  /-- Does the interface value hold a `*skeeper.Keeper`? -/
  isKeeper : Bool
  /-- `stypes.FlexiblePeriodDelegationID`. -/
  flexiblePeriodDelegationID : String
  getValidator : Ctx → Bytes → SdkProg W Validator
  getAllValidators : Ctx → SdkProg W (List Validator)
  getDelegation : Ctx → Bytes → Bytes → SdkProg W Delegation
  getValidatorDelegations : Ctx → Bytes → SdkProg W (List Delegation)
  endBlockerWithUnbondedEntries : Ctx → SdkProg W (List UnbondedEntry)
  minDelegation : Ctx → SdkProg W Int
  getFlexiblePeriodType : Ctx → SdkProg W Int
  getLockedTokenType : Ctx → SdkProg W Int
  getSingularityHeight : Ctx → SdkProg W UInt64
  /-- `stypes.NewMsgCreateValidator` packs the key and may refuse it. -/
  newMsgCreateValidator : MsgCreateValidator → Except SdkError MsgCreateValidator
  delegate : Ctx → MsgDelegate → SdkProg W Unit
  createValidator : Ctx → MsgCreateValidator → SdkProg W Unit
  editValidator : Ctx → MsgEditValidator → SdkProg W Unit
  undelegate : Ctx → MsgUndelegate → SdkProg W Coin
  beginRedelegate : Ctx → MsgBeginRedelegate → SdkProg W Coin

structure SlashingKeeper (W : Type) where
  unjail : Ctx → Bytes → SdkProg W Unit

structure DistributionKeeper (W : Type) where
  incrementValidatorPeriod : Ctx → Validator → SdkProg W UInt64
  calculateDelegationRewards : Ctx → Validator → Delegation → UInt64 → SdkProg W DecCoins
  getValidatorAccumulatedCommission : Ctx → Bytes → SdkProg W DecCoins
  withdrawDelegationRewards : Ctx → Bytes → Bytes → SdkProg W Coins
  withdrawValidatorCommission : Ctx → Bytes → SdkProg W Coins
  getUbiBalanceByDenom : Ctx → String → SdkProg W Int
  withdrawUbiByDenomToModule : Ctx → String → String → SdkProg W Coin
  /-- The rate is a `LegacyDec`, in units of 10^-18. -/
  setUbi : Ctx → Int → SdkProg W Unit

structure UpgradeKeeper (W : Type) where
  /-- `Plan.ValidateBasic`. -/
  validateBasic : Plan → Except SdkError Unit
  scheduleUpgrade : Ctx → Plan → SdkProg W Unit
  clearUpgradePlan : Ctx → SdkProg W Unit
  /-- Writes a file of the node, never a store. -/
  dumpUpgradeInfoToDisk : Int → Plan → Except SdkError Unit

/-- All keepers the program is wired to. -/
structure Keepers (W : Type) where
  codec : Codec
  auth : AccountKeeper W
  bank : BankKeeper W
  staking : StakingKeeper W
  slashing : SlashingKeeper W
  distr : DistributionKeeper W
  upgrade : UpgradeKeeper W

/-! ## Calling a keeper -/

/-- A state that has the stores of the SDK modules in it. -/
class HasSdk (σ : Type) (W : outParam Type) where
  lens : Lens σ W

/-- Call a keeper. -/
def call {σ W α : Type} [HasSdk σ W] (x : SdkProg W α) : Prog σ α := zoom HasSdk.lens (sdk x)

@[simp] theorem returns_call {σ W α : Type} [HasSdk σ W] {x : SdkProg W α} {s t : σ} {a : α} :
    Returns (call x) s a t ↔
      ∃ w, Returns x (HasSdk.lens.view s) a w ∧ HasSdk.lens.put w s = t := by
  simp [call]

@[simp] theorem fails_call {σ W α : Type} [HasSdk σ W] {x : SdkProg W α} {s t : σ} {f : Fault} :
    Fails (call x) s f t ↔
      ∃ f₀ w, Fails x (HasSdk.lens.view s) f₀ w ∧ Fault.ofSdk f₀ = f ∧
        HasSdk.lens.put w s = t := by
  simp only [call, fails_zoom, fails_sdk]
  constructor
  · rintro ⟨w, ⟨f₀, hx, hf⟩, ht⟩
    exact ⟨f₀, w, hx, hf, ht⟩
  · rintro ⟨f₀, w, hx, hf, ht⟩
    exact ⟨w, ⟨f₀, hx, hf⟩, ht⟩

/-- A call moves along `R` when the keeper moves along what `R` says about its stores. -/
theorem moves_call {σ W α : Type} [HasSdk σ W] {R : σ → σ → Prop} {Q : W → W → Prop}
    {x : SdkProg W α} (h : ∀ s w, Q (HasSdk.lens.view s) w → R s (HasSdk.lens.put w s))
    [Moves Q x] : Moves R (call x : Prog σ α) :=
  Moves.zoom h

instance readOnly_call {σ W α : Type} [HasSdk σ W] (x : SdkProg W α) [ReadOnly x] :
    ReadOnly (call x : Prog σ α) :=
  have : ReadOnly (sdk x) := ReadOnly.mapError _ _
  ReadOnly.zoom _ _

instance settles_call {σ W α : Type} [HasSdk σ W] (x : SdkProg W α) :
    Settles (call x : Prog σ α) := Settles.zoom _ _

instance settles_convert {σ α : Type} (r : Except SdkError α) :
    Settles (convert r : Prog σ α) := by
  cases r with
  | ok a => exact Settles.pure a
  | error e => exact Settles.fail _

end Story.Sdk
