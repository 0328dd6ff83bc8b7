/-
# Story.EvmStaking.Addresses -- what the handlers do to the address maps

The module keeps three addresses for a delegator: where principal is paid to, where
rewards are paid to, and who may act on the delegator's behalf. Six of the ten
handlers write none of them. The other four write them as `AddressBook.after` says,
which is all that later arguments about these maps need to know of the handlers.
-/
import Story.EvmEngine.Isolation
import Story.EvmStaking.Genesis

namespace Story.EvmStaking

open Story.Effect Story.Errors Story.Sdk Story.Collections Story.Eth
open Story.EvmEngine (effect effect_cases effect_of_returns)

variable {W : Type}

/-! ## The address book -/

/-- The three maps of the module. -/
@[ext] structure AddressBook where
  withdraw : AddressMap
  reward : AddressMap
  operator : AddressMap

def Accounts.book (a : Accounts W) : AddressBook :=
  ⟨a.delegatorWithdrawAddress, a.delegatorRewardAddress, a.delegatorOperatorAddress⟩

/-- Give a key a value unless it has one. -/
def setDefault (m : AddressMap) (key value : String) : AddressMap :=
  if m key = none then Function.update m key (some value) else m

theorem setDefault_of_ne (m : AddressMap) {key key' : String} (h : key' ≠ key) (value : String) :
    setDefault m key value key' = m key' := by
  unfold setDefault
  split
  · exact Function.update_of_ne h _ _
  · rfl

theorem setDefault_self (m : AddressMap) (key value : String) :
    setDefault m key value key = some ((m key).getD value) := by
  unfold setDefault
  split
  next h => rw [Function.update_self, h, Option.getD_none]
  next h =>
    obtain ⟨v, hv⟩ := Option.ne_none_iff_exists'.mp h
    rw [hv, Option.getD_some]

/-- The address a `SetWithdrawalAddress` or `SetRewardAddress` event asks for. -/
def SetAddress.target (ev : SetAddress) : Address := bytesToAddress (bytesOf ev.executionAddress)

namespace AddressBook

/-- Both payout addresses of a delegator get a default. -/
def withDefaults (b : AddressBook) (delegator withdrawAddress rewardAddress : String) :
    AddressBook :=
  { b with
    withdraw := setDefault b.withdraw delegator withdrawAddress
    reward := setDefault b.reward delegator rewardAddress }

/-- **The maps after an event was handled.** -/
def after (codec : Codec) (b : AddressBook) : StakingEvent → AddressBook
  | .setWithdrawalAddress ev =>
      { b with
        withdraw := Function.update b.withdraw (codec.accString (bytesOf ev.delegator))
          (some (codec.addressString ev.target)) }
  | .setRewardAddress ev =>
      { b with
        reward := Function.update b.reward (codec.accString (bytesOf ev.delegator))
          (some (codec.addressString ev.target)) }
  | .setOperator ev =>
      { b with
        operator := Function.update b.operator (codec.accString (bytesOf ev.delegator))
          (some (codec.addressString ev.operator)) }
  | .unsetOperator ev =>
      { b with
        operator := Function.update b.operator (codec.accString (bytesOf ev.delegator)) none }
  | .createValidator ev =>
      match codec.decompressToAddress ev.validatorCmpPubkey with
      | .error _ => b
      | .ok valEvmAddr =>
          b.withDefaults (codec.accString (bytesOf valEvmAddr)) (codec.addressString valEvmAddr)
            (codec.addressString ev.operatorAddress)
  | .deposit ev =>
      b.withDefaults (codec.accString (bytesOf ev.delegator)) (codec.addressString ev.delegator)
        (codec.addressString ev.delegator)
  | _ => b

end AddressBook

/-! ## Calls that leave the book alone -/

instance moves_call_book {α : Type} (x : SdkProg W α) :
    Moves (Same Accounts.book) (call x : Prog (Accounts W) α) :=
  Moves.zoom_of_frame _ fun _ _ => rfl

instance moves_isSingularity_book (K : Keepers W) (ctx : Ctx) :
    Moves (Same Accounts.book) (isSingularity K ctx : Prog (Accounts W) Bool) := Moves.bind _ _

instance readOnly_getOperatorAddress (delegator : String) :
    ReadOnly (getOperatorAddress delegator : Prog (Accounts W) String) := readOnly_getEntry _ _

instance readOnly_checkOperator (delegator sender noOperator getFailed notOperator : String) :
    ReadOnly (checkOperator delegator sender noOperator getFailed notOperator :
      Prog (Branched (Accounts W)) Unit) := by
  have hget : ReadOnly (cachedCtx (getOperatorAddress delegator : Prog (Accounts W) String)) :=
    ReadOnly.zoom _ _
  refine @ReadOnly.bind _ _ _ _ _ _ inferInstance fun r => ?_
  cases r with
  | error err => exact ReadOnly.ite _ _ _
  | ok operatorAddr => exact ReadOnly.ite _ _ _

instance moves_ensureAccount_book (K : Keepers W) (ctx : Ctx) (addr : Bytes) :
    Moves (OnCopy (Same Accounts.book)) (ensureAccount K ctx addr) := Moves.bind _ _

instance moves_depositPeriod_book (K : Keepers W) (ctx : Ctx) (ev : Deposit) (isLocked : Bool) :
    Moves (OnCopy (Same Accounts.book)) (depositPeriod K ctx ev isLocked) := Moves.ite _ _ _

/-! ## The handlers -/

theorem returns_setDefaultAddresses {delegator withdrawAddress rewardAddress : String}
    {b b' : Branched (Accounts W)} {u : Unit}
    (h : Returns (setDefaultAddresses delegator withdrawAddress rewardAddress) b u b') :
    b'.copy.book = b.copy.book.withDefaults delegator withdrawAddress rewardAddress ∧
      b'.copy.sdk = b.copy.sdk := by
  simp only [setDefaultAddresses, returns_bind, returns_cachedCtx, returns_get, returns_onlyIf,
    setWithdrawAddress, setRewardAddress, returns_modify] at h
  obtain ⟨_, _, ⟨_, ⟨rfl, rfl⟩, rfl⟩, _, b₁, h₁, _, _, ⟨_, ⟨rfl, rfl⟩, rfl⟩, h₂⟩ := h
  rcases h₁ with ⟨hw, _, rfl, rfl⟩ | ⟨hw, rfl⟩ <;> rcases h₂ with ⟨hr, _, rfl, rfl⟩ | ⟨hr, rfl⟩ <;>
    simp_all [Accounts.book, AddressBook.withDefaults, setDefault]

theorem returns_processCreateValidator_book {K : Keepers W} {ctx : Ctx} {ev : CreateValidator}
    {a a' : Accounts W} (h : Returns (processCreateValidator K ctx ev) a () a') :
    a'.book = a.book.after K.codec (.createValidator ev) := by
  obtain ⟨b, hb, rfl⟩ := returns_cacheContext.mp h
  obtain ⟨pk, h₁, h⟩ := ReadOnly.returns_bind_iff.mp hb
  obtain ⟨valEvmAddr, h₂, h⟩ := ReadOnly.returns_bind_iff.mp h
  obtain ⟨bond, _, h⟩ := ReadOnly.returns_bind_iff.mp h
  obtain ⟨_, b₃, e₃, _, h⟩ := Moves.bind_inv (R := OnCopy (Same Accounts.book)) h
  rcases returns_ite.mp h with ⟨_, h⟩ | ⟨_, h⟩
  · exact absurd h returns_fail
  obtain ⟨_, b₄, e₄, _, h⟩ := Moves.bind_inv (R := OnCopy (Same Accounts.book)) h
  obtain ⟨_, _, h⟩ := ReadOnly.returns_bind_iff.mp h
  obtain ⟨_, b₅, h₅, h⟩ := returns_bind.mp h
  obtain ⟨e₅, _⟩ := returns_setDefaultAddresses h₅
  have e₆ : OnCopy (Same Accounts.book) b₅ b := Moves.returns _ _ _ h
  obtain ⟨_, rfl, _⟩ := returns_pubKeyBytesToCosmos.mp (returns_wrapErr.mp h₁)
  obtain ⟨hpk, _⟩ := returns_cosmosPubkeyToEVMAddress.mp (returns_wrapErr.mp h₂)
  rw [AddressBook.after, hpk]
  calc b.copy.book
      = b₄.copy.book.withDefaults _ _ _ := e₆.trans e₅
    _ = a.book.withDefaults _ _ _ := by rw [e₄.trans e₃]

theorem returns_processDeposit_book {K : Keepers W} {ctx : Ctx} {ev : Deposit}
    {a a' : Accounts W} (h : Returns (processDeposit K ctx ev) a () a') :
    a'.book = a.book.after K.codec (.deposit ev) := by
  obtain ⟨b, hb, rfl⟩ := returns_cacheContext.mp h
  obtain ⟨pk, _, h⟩ := ReadOnly.returns_bind_iff.mp hb
  obtain ⟨valEvmAddr, _, h⟩ := ReadOnly.returns_bind_iff.mp h
  obtain ⟨bond, _, h⟩ := ReadOnly.returns_bind_iff.mp h
  obtain ⟨_, b₁, e₁, _, h⟩ := Moves.bind_inv (R := OnCopy (Same Accounts.book)) h
  obtain ⟨_, b₂, e₂, _, h⟩ := Moves.bind_inv (R := OnCopy (Same Accounts.book)) h
  obtain ⟨_, b₃, e₃, _, h⟩ := Moves.bind_inv (R := OnCopy (Same Accounts.book)) h
  obtain ⟨_, b₄, e₄, _, h⟩ := Moves.bind_inv (R := OnCopy (Same Accounts.book)) h
  rcases returns_ite.mp h with ⟨_, h⟩ | ⟨_, h⟩
  · exact absurd h returns_fail
  obtain ⟨_, b₅, h₅, h⟩ := returns_bind.mp h
  obtain ⟨e₅, _⟩ := returns_setDefaultAddresses h₅
  have e₆ : OnCopy (Same Accounts.book) b₅ b := Moves.returns _ _ _ h
  calc b.copy.book
      = b₄.copy.book.withDefaults _ _ _ := e₆.trans e₅
    _ = a.book.withDefaults _ _ _ := by rw [((e₄.trans e₃).trans e₂).trans e₁]

set_option synthInstance.maxSize 2000 in
/-- **What a handler that returns has done to the maps.** -/
theorem returns_handle_book {K : Keepers W} {ctx : Ctx} {ev : StakingEvent} {a a' : Accounts W}
    (h : Returns (handle K ctx ev) a () a') : a'.book = a.book.after K.codec ev := by
  cases ev with
  | createValidator ev => exact returns_processCreateValidator_book h
  | deposit ev => exact returns_processDeposit_book h
  | setWithdrawalAddress ev =>
      simp only [handle, processSetWithdrawalAddress, returns_cacheContext, returns_wrapErr,
        returns_cachedCtx, setWithdrawAddress, returns_modify] at h
      obtain ⟨_, ⟨_, rfl, rfl⟩, rfl⟩ := h
      rfl
  | setRewardAddress ev =>
      simp only [handle, processSetRewardAddress, returns_cacheContext, returns_wrapErr,
        returns_cachedCtx, setRewardAddress, returns_modify] at h
      obtain ⟨_, ⟨_, rfl, rfl⟩, rfl⟩ := h
      rfl
  | setOperator ev =>
      simp only [handle, processSetOperator, returns_cacheContext, returns_wrapErr,
        returns_cachedCtx, setOperatorAddress, returns_modify] at h
      obtain ⟨_, ⟨_, rfl, rfl⟩, rfl⟩ := h
      rfl
  | unsetOperator ev =>
      simp only [handle, processUnsetOperator, returns_cacheContext, returns_wrapErr,
        returns_cachedCtx, setOperatorAddress, returns_modify] at h
      obtain ⟨_, ⟨_, rfl, rfl⟩, rfl⟩ := h
      rfl
  | updateValidatorCommission ev =>
      dsimp only [handle, processUpdateValidatorCommission] at h
      exact Moves.returns_transact (R := Same Accounts.book) h
  | redelegate ev =>
      dsimp only [handle, processRedelegate] at h
      exact Moves.returns_transact (R := Same Accounts.book) h
  | withdraw ev =>
      dsimp only [handle, processWithdraw] at h
      exact Moves.returns_transact (R := Same Accounts.book) h
  | unjail ev =>
      dsimp only [handle, processUnjail] at h
      exact Moves.returns_transact (R := Same Accounts.book) h

/-! ## Runs of events -/

/-- Handle events one after the other; one that fails leaves nothing behind. -/
def runEvents (K : Keepers W) (a : Accounts W) (evs : List (Ctx × StakingEvent)) : Accounts W :=
  evs.foldl (fun a e => effect (handle K e.1 e.2) a) a

@[simp] theorem runEvents_nil (K : Keepers W) (a : Accounts W) : runEvents K a [] = a := rfl

@[simp] theorem runEvents_snoc (K : Keepers W) (a : Accounts W) (evs : List (Ctx × StakingEvent))
    (e : Ctx × StakingEvent) :
    runEvents K a (evs ++ [e]) = effect (handle K e.1 e.2) (runEvents K a evs) := by
  simp [runEvents]

/-- The event is handled without an error. -/
def Succeeds (K : Keepers W) (e : Ctx × StakingEvent) (a : Accounts W) : Prop :=
  ∃ a', Returns (handle K e.1 e.2) a () a'

theorem book_of_succeeds {K : Keepers W} {e : Ctx × StakingEvent} {a : Accounts W}
    (h : Succeeds K e a) :
    (effect (handle K e.1 e.2) a).book = a.book.after K.codec e.2 := by
  obtain ⟨a', h⟩ := h
  rw [effect_of_returns h]
  exact returns_handle_book h

theorem effect_of_not_succeeds {K : Keepers W} {e : Ctx × StakingEvent} {a : Accounts W}
    (h : ¬ Succeeds K e a) : effect (handle K e.1 e.2) a = a := by
  rcases effect_cases (handle K e.1 e.2) a with heq | hret
  · exact heq
  · exact absurd ⟨_, hret⟩ h

/-- The four events that only write an address cannot fail. -/
theorem succeeds_of_address_event (K : Keepers W) (ctx : Ctx) (a : Accounts W) :
    (∀ ev, Succeeds K (ctx, .setWithdrawalAddress ev) a) ∧
      (∀ ev, Succeeds K (ctx, .setRewardAddress ev) a) ∧
      (∀ ev, Succeeds K (ctx, .setOperator ev) a) ∧
      ∀ ev, Succeeds K (ctx, .unsetOperator ev) a := by
  refine ⟨?_, ?_, ?_, ?_⟩ <;>
    · intro ev
      simp [Succeeds, handle, processSetWithdrawalAddress, processSetRewardAddress,
        processSetOperator, processUnsetOperator, setWithdrawAddress, setRewardAddress,
        setOperatorAddress]

/-- The events the dispatcher finds in a list of logs. -/
def StakingContract.eventsOf (C : StakingContract) (logs : List (Option EvmEngine.EVMEvent)) :
    List StakingEvent :=
  logs.filterMap fun ev =>
    match EvmEngine.parseEvent C.parse ev with
    | some (.ok e) => some e
    | _ => none

/-- **The dispatcher on verified logs** is a run of the events it finds. -/
theorem processStakingEvents_run (K : Keepers W) (C : StakingContract) (ctx : Ctx)
    {logs : List (Option EvmEngine.EVMEvent)} (hv : EvmEngine.Verified logs) (a : Accounts W) :
    Returns (processStakingEvents K C ctx logs) a ()
      (runEvents K a ((C.eventsOf logs).map fun ev => (ctx, ev))) := by
  have hfold := (EvmEngine.stakingEvents_isolated K C ctx).returns_fold logs a hv
  suffices hrun : logs.foldl (EvmEngine.applyEvent C.parse (handle K ctx)) a
      = runEvents K a ((C.eventsOf logs).map fun ev => (ctx, ev)) by
    rwa [hrun] at hfold
  clear hfold hv
  induction logs using List.reverseRecOn with
  | nil => rfl
  | append_singleton logs ev ih =>
      rw [List.foldl_append, ih, List.foldl_cons, List.foldl_nil, EvmEngine.applyEvent]
      rcases hp : EvmEngine.parseEvent C.parse ev with _ | _ | e <;>
        simp [StakingContract.eventsOf, hp]

end Story.EvmStaking
