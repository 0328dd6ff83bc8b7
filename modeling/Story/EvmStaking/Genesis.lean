/-
# Story.EvmStaking.Genesis -- `InitGenesis` of `x/evmstaking`

Genesis stores the parameters and the sweep index, initialises both queues and
registers every validator of the staking module as its own payout address.
-/
import Story.EvmStaking.Withdraw

namespace Story.EvmStaking

open Story.Effect Story.Errors Story.Sdk Story.Collections Story.Eth

variable {W : Type}

structure GenesisState where
  params : Params
  validatorSweepIndex : ValidatorSweepIndex
  deriving DecidableEq, Repr

def validateGenesis (gs : GenesisState) : Except GoError Unit :=
  match gs.params.validate with
  | .error err => .error (err.wrap "validate genesis state params")
  | .ok _ => .ok ()

/-- The loop of `InitGenesis` over the validators. -/
def registerValidators (K : Keepers W) : List Validator → Prog (Store W) Unit
  | [] => pure ()
  | v :: vals =>
      match v.consensusPubkey with
      -- the source returns `err` here, which is nil: the remaining validators are skipped
      | none => pure ()
      | some pk => do
          let evmAddr ← cosmosPubkeyToEVMAddress K.codec pk
          let delAddr := bytesOf evmAddr
          zoom accountsLens (wrapErr "set delegator withdraw address map"
            (setWithdrawAddress (K.codec.accString delAddr) (K.codec.addressString evmAddr)))
          zoom accountsLens (wrapErr "set delegator reward address map"
            (setRewardAddress (K.codec.accString delAddr) (K.codec.addressString evmAddr)))
          registerValidators K vals

def initGenesis (K : Keepers W) (ctx : Ctx) (gs : GenesisState) : Prog (Store W) Unit := do
  ofExcept (validateGenesis gs)
  setParams gs.params
  setValidatorSweepIndex gs.validatorSweepIndex
  zoom withdrawalQueueLens Queue.init
  zoom rewardWithdrawalQueueLens Queue.init
  let vals ← call (K.staking.getAllValidators ctx)
  registerValidators K vals

/-- The store of the module before genesis: nothing is stored. -/
def Store.fresh (w : W) : Store W where
  accounts :=
    { delegatorWithdrawAddress := fun _ => none
      delegatorRewardAddress := fun _ => none
      delegatorOperatorAddress := fun _ => none
      sdk := w }
  params := none
  validatorSweepIndex := none
  withdrawalQueue := Queue.unset
  rewardWithdrawalQueue := Queue.unset
  journal := []

/-- Registering validators writes the address maps only. -/
theorem registerValidators_frame {K : Keepers W} {vals : List Validator} {s t : Store W}
    {u : Unit} (h : Returns (registerValidators K vals) s u t) :
    t = { s with accounts := t.accounts } ∧ t.accounts.sdk = s.accounts.sdk := by
  induction vals generalizing s with
  | nil =>
      obtain ⟨_, rfl⟩ := returns_pure.mp h
      exact ⟨rfl, rfl⟩
  | cons v vals ih =>
      rw [registerValidators] at h
      split at h
      · obtain ⟨_, rfl⟩ := returns_pure.mp h
        exact ⟨rfl, rfl⟩
      · simp only [returns_bind, returns_cosmosPubkeyToEVMAddress, returns_zoom, returns_wrapErr,
          setWithdrawAddress, setRewardAddress, returns_modify] at h
        obtain ⟨_, _, ⟨_, rfl⟩, _, _, ⟨_, rfl, rfl⟩, _, _, ⟨_, rfl, rfl⟩, h⟩ := h
        obtain ⟨ht, hsdk⟩ := ih h
        exact ⟨by rw [ht]; rfl, hsdk⟩

/-- The store when genesis comes to the validators. -/
def Store.beforeValidators (gs : GenesisState) (w : W) : Store W :=
  { Store.fresh w with
    params := some gs.params
    validatorSweepIndex := some gs.validatorSweepIndex
    withdrawalQueue := ⟨some 0, some 0, Queue.unset.elements⟩
    rewardWithdrawalQueue := ⟨some 0, some 0, Queue.unset.elements⟩ }

theorem returns_initGenesis {K : Keepers W} {ctx : Ctx} {gs : GenesisState} {w : W}
    {t : Store W} {u : Unit} :
    Returns (initGenesis K ctx gs) (Store.fresh w) u t ↔
      validateGenesis gs = .ok () ∧ ∃ vals w', Returns (K.staking.getAllValidators ctx) w vals w' ∧
        Returns (registerValidators K vals) (Store.beforeValidators gs w') u t := by
  simp only [initGenesis, returns_bind, returns_ofExcept, returns_zoom, returns_call,
    setParams, setValidatorSweepIndex, returns_modify, Queue.returns_init]
  constructor
  · rintro ⟨_, _, ⟨hgs, rfl⟩, _, _, rfl, _, _, rfl, _, _, ⟨_, rfl, rfl⟩, _, _, ⟨_, rfl, rfl⟩,
      vals, _, ⟨w', hw, rfl⟩, h⟩
    exact ⟨hgs, vals, w', hw, h⟩
  · rintro ⟨hgs, vals, w', hw, h⟩
    exact ⟨(), _, ⟨hgs, rfl⟩, (), _, rfl, (), _, rfl, (), _, ⟨_, rfl, rfl⟩, (), _, ⟨_, rfl, rfl⟩,
      vals, _, ⟨w', hw, rfl⟩, h⟩

/-- After genesis both queues are initialised and empty. -/
theorem initGenesis_queues {K : Keepers W} {ctx : Ctx} {gs : GenesisState} {w : W}
    {t : Store W} {u : Unit} (h : Returns (initGenesis K ctx gs) (Store.fresh w) u t) :
    t.withdrawalQueue.Holds 0 [] ∧ t.rewardWithdrawalQueue.Holds 0 [] ∧
      t.params = some gs.params := by
  obtain ⟨_, vals, w', _, h⟩ := returns_initGenesis.mp h
  rw [(registerValidators_frame h).1]
  exact ⟨Queue.holds_initial, Queue.holds_initial, rfl⟩

/-- On a chain without validators a valid genesis state is stored as it is. -/
theorem initGenesis_of_no_validators (K : Keepers W) (ctx : Ctx) {gs : GenesisState} {w : W}
    (hgs : validateGenesis gs = .ok ())
    (hvals : Returns (K.staking.getAllValidators ctx) w [] w) :
    ∃ t, Returns (initGenesis K ctx gs) (Store.fresh w) () t :=
  ⟨_, returns_initGenesis.mpr ⟨hgs, [], w, hvals, returns_pure.mpr ⟨rfl, rfl⟩⟩⟩

end Story.EvmStaking
