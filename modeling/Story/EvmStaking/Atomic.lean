/-
# Story.EvmStaking.Atomic -- a failing handler leaves nothing behind

Every handler works on a branch of the state, and its deferred closure turns a panic
into an error and writes the branch back only when the named result is nil. Whether
that makes the handler atomic depends on its body: each call has to go through the
cached context. The rules below follow the statements a body is made of, so that
they read it off the handler.
-/
import Story.EvmStaking.Handlers

namespace Story.EvmStaking

open Story.Effect Story.Errors Story.Sdk

variable {W σ α β : Type}

/-! ## Statements of a handler -/

/-- The body of a handler: it writes the cached context only, and ends by itself. -/
class HandlerBody (x : Prog (Branched σ) α) : Prop where
  copyOnly : CopyOnly x
  settles : Settles x

instance settles_cachedCtx (x : Prog σ α) [Settles x] : Settles (cachedCtx x) :=
  Settles.zoom _ x

instance settles_classify (cases : List (Sentinel × ErrCode)) (msg : String) (x : Prog σ α)
    [Settles x] : Settles (classify cases msg x) :=
  Settles.mapErr _ x

namespace HandlerBody

instance pure (a : α) : HandlerBody (pure a : Prog (Branched σ) α) := ⟨.pure a, .pure a⟩

instance fail (e : GoError) : HandlerBody (fail e : Prog (Branched σ) α) := ⟨.throw _, .fail e⟩

instance goPanic (why : String) : HandlerBody (goPanic why : Prog (Branched σ) α) :=
  ⟨.throw _, .goPanic why⟩

instance bind (x : Prog (Branched σ) α) (f : α → Prog (Branched σ) β) [hx : HandlerBody x]
    [hf : ∀ a, HandlerBody (f a)] : HandlerBody (x >>= f) :=
  have := hx.settles
  have := fun a => (hf a).settles
  ⟨hx.copyOnly.bind fun a => (hf a).copyOnly, inferInstance⟩

instance ite (c : Prop) [Decidable c] (x y : Prog (Branched σ) α) [hx : HandlerBody x]
    [hy : HandlerBody y] : HandlerBody (if c then x else y) :=
  have := hx.settles
  have := hy.settles
  ⟨hx.copyOnly.ite hy.copyOnly, inferInstance⟩

instance onlyIf (c : Prop) [Decidable c] (x : Prog (Branched σ) Unit) [hx : HandlerBody x] :
    HandlerBody (onlyIf c x) :=
  have := hx.settles
  ⟨hx.copyOnly.onlyIf, inferInstance⟩

instance cachedCtx (x : Prog σ α) [Settles x] : HandlerBody (cachedCtx x) :=
  ⟨.onCopy x, inferInstance⟩

instance wrapErr (msg : String) (x : Prog (Branched σ) α) [hx : HandlerBody x] :
    HandlerBody (wrapErr msg x) :=
  have := hx.settles
  ⟨hx.copyOnly.mapError, inferInstance⟩

instance classify (cases : List (Sentinel × ErrCode)) (msg : String)
    (x : Prog (Branched σ) α) [hx : HandlerBody x] : HandlerBody (classify cases msg x) :=
  have := hx.settles
  ⟨hx.copyOnly.mapError, inferInstance⟩

instance attempt (x : Prog (Branched σ) α) [hx : HandlerBody x] : HandlerBody (attempt x) :=
  have := hx.settles
  ⟨hx.copyOnly.catching, inferInstance⟩

instance ofExcept (r : Except GoError α) : HandlerBody (ofExcept r : Prog (Branched σ) α) := by
  cases r with
  | ok a => exact pure a
  | error e => exact fail e

instance convert (r : Except SdkError α) : HandlerBody (convert r : Prog (Branched σ) α) := by
  cases r with
  | ok a => exact pure a
  | error e => exact fail _

instance newCoin (denom : String) (amount : Int) :
    HandlerBody (newCoin denom amount : Prog (Branched σ) Coin) := ite _ _ _

instance ipTokenToBondCoin (amount : Nat) :
    HandlerBody (ipTokenToBondCoin amount : Prog (Branched σ) BondCoin) := bind _ _

instance pubKeyBytesToCosmos (pubkey : Eth.Bytes) :
    HandlerBody (pubKeyBytesToCosmos pubkey : Prog (Branched σ) Eth.Bytes) := ite _ _ _

instance cosmosPubkeyToEVMAddress (codec : Codec) (pubkey : Eth.Bytes) :
    HandlerBody (cosmosPubkeyToEVMAddress codec pubkey : Prog (Branched σ) Eth.Address) :=
  convert _

end HandlerBody

/-! ## Pieces the handlers share -/

instance settles_getEntry (name : String) (entry : σ → Option α) :
    Settles (Collections.getEntry name entry) := by
  refine @Settles.bind _ _ _ _ _ Settles.get fun s => ?_
  split <;> infer_instance

instance settles_isSingularity [HasSdk σ W] (K : Keepers W) (ctx : Ctx) :
    Settles (isSingularity K ctx : Prog σ Bool) := Settles.bind _ _

instance settles_setWithdrawAddress (delegator address : String) :
    Settles (setWithdrawAddress delegator address : Prog (Accounts W) Unit) := Settles.modify _

instance settles_setRewardAddress (delegator address : String) :
    Settles (setRewardAddress delegator address : Prog (Accounts W) Unit) := Settles.modify _

instance settles_setOperatorAddress (delegator : String) (address : Option String) :
    Settles (setOperatorAddress delegator address : Prog (Accounts W) Unit) := Settles.modify _

instance handlerBody_setDefaultAddresses (delegator withdrawAddress rewardAddress : String) :
    HandlerBody (setDefaultAddresses delegator withdrawAddress rewardAddress :
      Prog (Branched (Accounts W)) Unit) := HandlerBody.bind _ _

instance handlerBody_checkOperator (delegator sender noOperator getFailed notOperator : String) :
    HandlerBody (checkOperator delegator sender noOperator getFailed notOperator :
      Prog (Branched (Accounts W)) Unit) := by
  have hget : Settles (getOperatorAddress delegator : Prog (Accounts W) String) :=
    settles_getEntry _ _
  refine @HandlerBody.bind _ _ _ _ _ inferInstance fun r => ?_
  cases r with
  | error err => exact HandlerBody.ite _ _ _
  | ok operatorAddr => exact HandlerBody.onlyIf _ _

instance handlerBody_ensureAccount (K : Keepers W) (ctx : Ctx) (addr : Eth.Bytes) :
    HandlerBody (ensureAccount K ctx addr) := HandlerBody.bind _ _

instance handlerBody_depositPeriod (K : Keepers W) (ctx : Ctx) (ev : Deposit) (isLocked : Bool) :
    HandlerBody (depositPeriod K ctx ev isLocked) := HandlerBody.ite _ _ _

/-! ## Handlers -/

/-- All or nothing: a call that stops has changed nothing, and stops with an error. -/
def Atomic (x : Prog σ α) : Prop := ∀ s f t, Fails x s f t → t = s ∧ ∃ e, f = .err e

theorem Atomic.cacheContext (body : Prog (Branched σ) α) [h : HandlerBody body] :
    Atomic (cacheContext body) := by
  intro s f t hf
  refine ⟨h.copyOnly.fails_transact hf, ?_⟩
  obtain ⟨f₀, b, hf₀, rfl, _⟩ := fails_transact.mp hf
  cases f₀ with
  | err e => exact ⟨e, rfl⟩
  | panic why => exact ⟨_, rfl⟩
  | retrying => exact absurd rfl (h.settles.failsWith _ _ _ hf₀)

set_option synthInstance.maxSize 1000 in
/-- **Each of the ten handlers is atomic.** -/
theorem handle_atomic (K : Keepers W) (ctx : Ctx) (ev : StakingEvent) :
    Atomic (handle K ctx ev) := by
  -- the local definitions of a body have to go before its statements show
  cases ev <;>
    dsimp only [handle, processUpdateValidatorCommission, processSetWithdrawalAddress,
      processSetRewardAddress, processSetOperator, processUnsetOperator, processCreateValidator,
      processDeposit, processRedelegate, processWithdraw, processUnjail] <;>
    exact .cacheContext _

end Story.EvmStaking
