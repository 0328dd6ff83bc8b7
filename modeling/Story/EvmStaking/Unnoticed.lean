/-
# Story.EvmStaking.Unnoticed -- what the staking handlers do not notice

The staking handlers reach the stores of the SDK modules through fifteen keeper calls.
When each of these ignores some change of the stores, so does every handler: around
the calls there are only the address maps of the module, which are not part of these
stores, and computations. The rules follow the statements of a handler, as those for
its atomicity do.
-/
import Story.Effect.Ignore
import Story.EvmStaking.Handlers

namespace Story.EvmStaking

open Story.Effect Story.Errors Story.Sdk Story.Collections Story.Eth

variable {W σ α : Type}

/-! ## Statements -/

section Statements

variable {f : σ → σ}

instance ignores_fail (e : GoError) : Ignores f (fail e : Prog σ α) := Ignores.throw _

instance ignores_goPanic (why : String) : Ignores f (goPanic why : Prog σ α) := Ignores.throw _

instance ignores_wrapErr (msg : String) (x : Prog σ α) [Ignores f x] :
    Ignores f (wrapErr msg x) := Ignores.mapError _ _

instance ignores_attempt (x : Prog σ α) [Ignores f x] : Ignores f (attempt x) :=
  Ignores.catching _ _

instance ignores_classify (cases : List (Sentinel × ErrCode)) (msg : String) (x : Prog σ α)
    [Ignores f x] : Ignores f (classify cases msg x) := Ignores.mapError _ _

instance ignores_ofExcept (r : Except GoError α) : Ignores f (ofExcept r : Prog σ α) := by
  cases r with
  | ok a => exact Ignores.pure a
  | error e => exact ignores_fail e

instance ignores_convert (r : Except SdkError α) : Ignores f (convert r : Prog σ α) := by
  cases r with
  | ok a => exact Ignores.pure a
  | error e => exact ignores_fail _

instance ignores_newCoin (denom : String) (amount : Int) :
    Ignores f (newCoin denom amount : Prog σ Coin) := Ignores.ite _ _ _

instance ignores_ipTokenToBondCoin (amount : Nat) :
    Ignores f (ipTokenToBondCoin amount : Prog σ BondCoin) := Ignores.bind _ _

instance ignores_pubKeyBytesToCosmos (pubkey : Bytes) :
    Ignores f (pubKeyBytesToCosmos pubkey : Prog σ Bytes) := Ignores.ite _ _ _

instance ignores_cosmosPubkeyToEVMAddress (codec : Codec) (pubkey : Bytes) :
    Ignores f (cosmosPubkeyToEVMAddress codec pubkey : Prog σ Address) := ignores_convert _

instance ignores_cachedCtx (x : Prog σ α) [Ignores f x] :
    Ignores (Branched.map f) (cachedCtx x) := Ignores.onCopy x

theorem Ignores.cacheContext (body : Prog (Branched σ) α) [Ignores (Branched.map f) body] :
    Ignores f (cacheContext body) := Ignores.transact _ body

theorem ignores_getEntry {name : String} {entry : σ → Option α}
    (h : ∀ s, entry (f s) = entry s) : Ignores f (getEntry name entry) := by
  apply Ignores.read_bind fun s => returns_get.mpr ⟨rfl, rfl⟩
  · intro s
    rw [h]
  · intro s
    cases entry s with
    | none => exact ignores_fail _
    | some v => exact Ignores.pure v

instance ignores_call [HasSdk σ W] {g : W → W} (x : SdkProg W α) [Ignores g x] :
    Ignores (HasSdk.lens.alter g) (call x : Prog σ α) :=
  have : Ignores g (sdk x) := Ignores.mapError _ _
  Ignores.zoom _ g _

end Statements

/-! ## The keeper calls -/

/-- The keeper calls of the staking handlers ignore the change `g`. -/
class Unnoticed (K : Keepers W) (g : W → W) : Prop where
  hasAccount : ∀ ctx addr, Ignores g (K.auth.hasAccount ctx addr)
  setNewAccount : ∀ ctx addr, Ignores g (K.auth.setNewAccount ctx addr)
  mintCoins : ∀ ctx name coins, Ignores g (K.bank.mintCoins ctx name coins)
  sendCoinsFromModuleToAccount : ∀ ctx name addr coins,
    Ignores g (K.bank.sendCoinsFromModuleToAccount ctx name addr coins)
  getValidator : ∀ ctx addr, Ignores g (K.staking.getValidator ctx addr)
  minDelegation : ∀ ctx, Ignores g (K.staking.minDelegation ctx)
  getFlexiblePeriodType : ∀ ctx, Ignores g (K.staking.getFlexiblePeriodType ctx)
  getLockedTokenType : ∀ ctx, Ignores g (K.staking.getLockedTokenType ctx)
  getSingularityHeight : ∀ ctx, Ignores g (K.staking.getSingularityHeight ctx)
  delegate : ∀ ctx msg, Ignores g (K.staking.delegate ctx msg)
  createValidator : ∀ ctx msg, Ignores g (K.staking.createValidator ctx msg)
  editValidator : ∀ ctx msg, Ignores g (K.staking.editValidator ctx msg)
  undelegate : ∀ ctx msg, Ignores g (K.staking.undelegate ctx msg)
  beginRedelegate : ∀ ctx msg, Ignores g (K.staking.beginRedelegate ctx msg)
  unjail : ∀ ctx addr, Ignores g (K.slashing.unjail ctx addr)

attribute [instance] Unnoticed.hasAccount Unnoticed.setNewAccount Unnoticed.mintCoins
  Unnoticed.sendCoinsFromModuleToAccount Unnoticed.getValidator Unnoticed.minDelegation
  Unnoticed.getFlexiblePeriodType Unnoticed.getLockedTokenType Unnoticed.getSingularityHeight
  Unnoticed.delegate Unnoticed.createValidator Unnoticed.editValidator Unnoticed.undelegate
  Unnoticed.beginRedelegate Unnoticed.unjail

/-! ## The handlers -/

section Handlers

variable {K : Keepers W} {g : W → W} {ctx : Ctx}

/-- A change of the stores of the SDK modules, seen from the accounts. -/
def Accounts.onSdk (g : W → W) : Accounts W → Accounts W := HasSdk.lens.alter g

instance ignores_call_onSdk (x : SdkProg W α) [Ignores g x] :
    Ignores (Accounts.onSdk g) (call x : Prog (Accounts W) α) := ignores_call x

instance ignores_setWithdrawAddress (delegator address : String) :
    Ignores (Accounts.onSdk g) (setWithdrawAddress delegator address : Prog (Accounts W) Unit) :=
  Ignores.modify fun _ => rfl

instance ignores_setRewardAddress (delegator address : String) :
    Ignores (Accounts.onSdk g) (setRewardAddress delegator address : Prog (Accounts W) Unit) :=
  Ignores.modify fun _ => rfl

instance ignores_setOperatorAddress (delegator : String) (address : Option String) :
    Ignores (Accounts.onSdk g) (setOperatorAddress delegator address : Prog (Accounts W) Unit) :=
  Ignores.modify fun _ => rfl

instance ignores_getOperatorAddress (delegator : String) :
    Ignores (Accounts.onSdk g) (getOperatorAddress delegator : Prog (Accounts W) String) :=
  ignores_getEntry fun _ => rfl

instance ignores_setDefaultAddresses (delegator withdrawAddress rewardAddress : String) :
    Ignores (Branched.map (Accounts.onSdk g))
      (setDefaultAddresses delegator withdrawAddress rewardAddress :
        Prog (Branched (Accounts W)) Unit) := by
  have hread (b : Branched (Accounts W)) : Returns (cachedCtx get) b b.copy b :=
    returns_cachedCtx.mpr ⟨b.copy, returns_get.mpr ⟨rfl, rfl⟩, rfl⟩
  refine Ignores.read_bind hread (fun _ => rfl) fun b => ?_
  refine @Ignores.bind _ _ _ _ _ _ _ inferInstance fun _ => ?_
  exact Ignores.read_bind hread (fun _ => rfl) fun _ => inferInstance

instance ignores_checkOperator (delegator sender noOperator getFailed notOperator : String) :
    Ignores (Branched.map (Accounts.onSdk g))
      (checkOperator delegator sender noOperator getFailed notOperator :
        Prog (Branched (Accounts W)) Unit) := by
  refine @Ignores.bind _ _ _ _ _ _ _ inferInstance fun r => ?_
  cases r with
  | error err => exact Ignores.ite _ _ _
  | ok operatorAddr => exact Ignores.onlyIf _ _

variable [Unnoticed K g]

instance ignores_isSingularity :
    Ignores (Accounts.onSdk g) (isSingularity K ctx : Prog (Accounts W) Bool) := Ignores.bind _ _

instance ignores_ensureAccount (addr : Bytes) :
    Ignores (Branched.map (Accounts.onSdk g)) (ensureAccount K ctx addr) := Ignores.bind _ _

instance ignores_depositPeriod (ev : Deposit) (isLocked : Bool) :
    Ignores (Branched.map (Accounts.onSdk g)) (depositPeriod K ctx ev isLocked) :=
  Ignores.ite _ _ _

set_option synthInstance.maxSize 2000 in
/-- **Each of the ten handlers** ignores what its keeper calls ignore. -/
theorem handle_ignores (ev : StakingEvent) : Ignores (Accounts.onSdk g) (handle K ctx ev) := by
  cases ev <;>
    dsimp only [handle, processUpdateValidatorCommission, processSetWithdrawalAddress,
      processSetRewardAddress, processSetOperator, processUnsetOperator, processCreateValidator,
      processDeposit, processRedelegate, processWithdraw, processUnjail] <;>
    exact Ignores.cacheContext _

end Handlers

end Story.EvmStaking
