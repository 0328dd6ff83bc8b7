/-
# Story.Sdk.LedgerLaws -- what the calls of the ledger do

Most calls of the ledger only read. Each of the others has one way to return, and a
call of the ledger that stops has changed nothing.
-/
import Story.Sdk.Ledger
import Story.Sdk.Quiet

namespace Story.Sdk.Ledger

open Story.Effect Story.Errors Story.Eth

variable {α : Type} {Q : Ledger → Ledger → Prop}

/-! ## Calls that only read -/

instance readOnly_refuse (msg : String) (is : List SdkSentinel) :
    ReadOnly (refuse msg is : SdkProg Ledger α) := ReadOnly.throw _

instance readOnly_getValidator (ctx : Ctx) (addr : Bytes) :
    ReadOnly (keepers.staking.getValidator ctx addr) := by
  refine @ReadOnly.bind _ _ _ _ _ _ inferInstance fun l => ?_
  split <;> infer_instance

instance readOnly_getDelegation (ctx : Ctx) (del val : Bytes) :
    ReadOnly (keepers.staking.getDelegation ctx del val) := by
  refine @ReadOnly.bind _ _ _ _ _ _ inferInstance fun l => ?_
  split <;> infer_instance

/-! ## Calls that write -/

/-- The state in which a call ends. -/
def finish (x : SdkProg Ledger α) (l : Ledger) : Ledger :=
  match x.run l with
  | .ok _ l' => l'
  | .error _ l' => l'

theorem moves_of_finish {x : SdkProg Ledger α} (h : ∀ l, Q l (finish x l)) : Moves Q x where
  returns := by
    intro l a l' hr
    have hl := h l
    rwa [finish, returns_iff.mp hr] at hl
  fails := by
    intro l e l' hf
    have hl := h l
    rwa [finish, fails_iff.mp hf] at hl

/-- A call that looks at the state first. -/
theorem moves_get_bind {f : Ledger → SdkProg Ledger α} (h : ∀ l, Q l (finish (f l) l)) :
    Moves Q (get >>= f) :=
  moves_of_finish h

/-- **The quiet calls of the ledger.** -/
theorem quiet [IsPreorder Ledger Q]
    (setNewAccount : ∀ l addr, Q l { l with accounts := addr :: l.accounts })
    (undelegate : ∀ l : Ledger, ∀ e : UnbondedEntry,
      l.delegation e.delegatorAddress e.validatorAddress ≠ none →
      Q l { l with maturing := l.maturing ++ [e] })
    (beginRedelegate : ∀ l : Ledger, ∀ d : Delegation, ∀ src,
      l.delegation d.delegatorAddress src ≠ none →
      Q l { l with delegations := d :: l.delegations })
    (withdrawDelegationRewards : ∀ l : Ledger, ∀ del val,
      Q l { l.credit del (l.rewards del val) with
        rewards := Function.update l.rewards del (Function.update (l.rewards del) val 0) })
    (withdrawValidatorCommission : ∀ l : Ledger, ∀ val,
      Q l { l.credit val (l.commission val) with
        commission := Function.update l.commission val 0 })
    (withdrawUbi : ∀ l : Ledger, ∀ name, Q l { l.payModule name l.ubi with ubi := 0 }) :
    Quiet keepers Q where
  hasAccount := fun _ _ => Moves.bind _ _
  setNewAccount := fun _ addr => Moves.modify fun l => setNewAccount l addr
  spendableCoin := fun _ _ _ => Moves.bind _ _
  getValidator := fun _ _ => Moves.of_readOnly _
  getAllValidators := fun _ => Moves.bind _ _
  getDelegation := fun _ _ _ => Moves.of_readOnly _
  getValidatorDelegations := fun _ _ => Moves.bind _ _
  minDelegation := fun _ => Moves.pure _
  getFlexiblePeriodType := fun _ => Moves.pure _
  getLockedTokenType := fun _ => Moves.pure _
  getSingularityHeight := fun _ => Moves.pure _
  editValidator := fun _ _ => Moves.pure _
  undelegate := by
    intro ctx msg
    refine moves_get_bind fun l => ?_
    split
    next => exact refl_of Q l
    next d hd => exact undelegate l ⟨_, _, _⟩ (by rw [hd]; simp)
  beginRedelegate := by
    intro ctx msg
    refine moves_get_bind fun l => ?_
    split
    next => exact refl_of Q l
    next d hd => exact beginRedelegate l ⟨_, _, _⟩ msg.validatorSrcAddress (by rw [hd]; simp)
  unjail := fun _ _ => Moves.pure _
  incrementValidatorPeriod := fun _ _ => Moves.pure _
  calculateDelegationRewards := fun _ _ _ _ => Moves.bind _ _
  getValidatorAccumulatedCommission := fun _ _ => Moves.bind _ _
  withdrawDelegationRewards := fun _ del val =>
    moves_get_bind fun l => withdrawDelegationRewards l del val
  withdrawValidatorCommission := by
    intro ctx val
    refine moves_get_bind fun l => ?_
    split
    · exact refl_of Q l
    · exact withdrawValidatorCommission l val
  getUbiBalanceByDenom := fun _ _ => Moves.bind _ _
  withdrawUbiByDenomToModule := by
    intro ctx denom name
    refine moves_get_bind fun l => ?_
    split
    · exact withdrawUbi l name
    · exact refl_of Q l

/-- Paying matured entries out writes balances only. -/
theorem foldl_mature (entries : List UnbondedEntry) (l : Ledger) :
    entries.foldl mature l = { l with balance := (entries.foldl mature l).balance } := by
  induction entries generalizing l with
  | nil => rfl
  | cons e entries ih =>
      rw [List.foldl_cons, ih]
      rfl

/-! ## What a call that returns has done -/

section Returned

variable {ctx : Ctx} {name : String} {addr : Bytes} {coins : Coins} {l l' : Ledger} {u : Unit}

theorem returns_mintCoins (h : Returns (keepers.bank.mintCoins ctx name coins) l u l') :
    l' = { l.payModule name (coins defaultBondDenom) with
      supply := l.supply + coins defaultBondDenom } :=
  (returns_modify.mp h).symm

/-- A call that takes money checks first that it is there. -/
theorem returns_checked {c : Ledger → Prop} [DecidablePred c] {msg : String}
    {f : Ledger → Ledger} :
    Returns (do
      let l ← get
      if c l then refuse msg [] else set (f l) : SdkProg Ledger PUnit) l u l' ↔
      ¬ c l ∧ l' = f l := by
  rw [ReadOnly.returns_bind_iff]
  constructor
  · rintro ⟨_, hget, h⟩
    obtain ⟨rfl, _⟩ := returns_get.mp hget
    rcases returns_ite.mp h with ⟨_, h⟩ | ⟨hc, h⟩
    · exact absurd h returns_throw
    · exact ⟨hc, (returns_set.mp h).symm⟩
  · rintro ⟨hc, rfl⟩
    exact ⟨l, returns_get.mpr ⟨rfl, rfl⟩, returns_ite.mpr (.inr ⟨hc, returns_set.mpr rfl⟩)⟩

theorem returns_burnCoins :
    Returns (keepers.bank.burnCoins ctx name coins) l u l' ↔
      ¬ l.pool name < coins defaultBondDenom ∧
        l' = { l.payModule name (-coins defaultBondDenom) with
          supply := l.supply - coins defaultBondDenom } :=
  returns_checked

theorem returns_sendToAccount :
    Returns (keepers.bank.sendCoinsFromModuleToAccount ctx name addr coins) l u l' ↔
      ¬ l.pool name < coins defaultBondDenom ∧
        l' = (l.payModule name (-coins defaultBondDenom)).pay addr (coins defaultBondDenom) :=
  returns_checked

theorem returns_sendToModule :
    Returns (keepers.bank.sendCoinsFromAccountToModule ctx addr name coins) l u l' ↔
      ¬ l.balance addr < coins defaultBondDenom ∧
        l' = (l.pay addr (-coins defaultBondDenom)).payModule name (coins defaultBondDenom) :=
  returns_checked

theorem returns_stake {del val : String} {amount : Int}
    (h : Returns (stake del val amount) l u l') :
    l' = { l.pay (decode del) (-amount) with
      delegations := ⟨del, val, amount⟩ :: l.delegations } :=
  (returns_checked.mp h).2

theorem returns_createValidator {msg : MsgCreateValidator}
    (h : Returns (keepers.staking.createValidator ctx msg) l u l') :
    ∃ validators, l' = { l.pay (decode msg.validatorAddress) (-msg.value.amount) with
      delegations := ⟨msg.validatorAddress, msg.validatorAddress, msg.value.amount⟩ :: l.delegations
      validators := validators } := by
  obtain ⟨_, l₁, hstake, h⟩ := returns_bind.mp h
  obtain rfl := returns_stake hstake
  exact ⟨_, (returns_modify.mp h).symm⟩

end Returned

end Story.Sdk.Ledger
