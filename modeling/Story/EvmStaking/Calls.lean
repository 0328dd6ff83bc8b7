/-
# Story.EvmStaking.Calls -- the keeper calls of the handlers

Seen from the stores of the SDK modules, a handler is a sequence of keeper calls. Eight
of the ten handlers make quiet calls only. The two that stake mint coins, send them to
an account and delegate them, after some quiet calls. Every argument about coins or
delegations starts from these three lemmas.
-/
import Story.EvmStaking.Addresses
import Story.Sdk.Quiet

namespace Story.EvmStaking

open Story.Effect Story.Errors Story.Sdk Story.Collections Story.Eth

variable {W : Type} {K : Keepers W} {Q : W → W → Prop}

/-- A relation on the stores of the SDK modules. -/
def OnSdk (Q : W → W → Prop) (a a' : Accounts W) : Prop := Q a.sdk a'.sdk

instance [IsPreorder W Q] : IsPreorder (Accounts W) (OnSdk Q) where
  refl := fun a => refl_of Q a.sdk
  trans := fun _ _ _ h h' => trans_of Q h h'

instance moves_call_onSdk {α : Type} (x : SdkProg W α) [Moves Q x] :
    Moves (OnSdk Q) (call x : Prog (Accounts W) α) :=
  moves_call (Q := Q) fun _ _ h => h

section Quiet

variable [IsPreorder W Q]

instance moves_setWithdrawAddress_onSdk (delegator address : String) :
    Moves (OnSdk Q) (setWithdrawAddress delegator address : Prog (Accounts W) Unit) :=
  Moves.modify fun a => refl_of Q a.sdk

instance moves_setRewardAddress_onSdk (delegator address : String) :
    Moves (OnSdk Q) (setRewardAddress delegator address : Prog (Accounts W) Unit) :=
  Moves.modify fun a => refl_of Q a.sdk

instance moves_setOperatorAddress_onSdk (delegator : String) (address : Option String) :
    Moves (OnSdk Q) (setOperatorAddress delegator address : Prog (Accounts W) Unit) :=
  Moves.modify fun a => refl_of Q a.sdk

variable [Quiet K Q]

instance moves_isSingularity_onSdk (ctx : Ctx) :
    Moves (OnSdk Q) (isSingularity K ctx : Prog (Accounts W) Bool) := Moves.bind _ _

instance moves_ensureAccount_onSdk (ctx : Ctx) (addr : Bytes) :
    Moves (OnCopy (OnSdk Q)) (ensureAccount K ctx addr) := Moves.bind _ _

instance moves_depositPeriod_onSdk (ctx : Ctx) (ev : Deposit) (isLocked : Bool) :
    Moves (OnCopy (OnSdk Q)) (depositPeriod K ctx ev isLocked) := Moves.ite _ _ _

end Quiet

/-- The event is one of the two that stake. -/
def StakingEvent.Stakes : StakingEvent → Prop
  | .deposit _ => True
  | .createValidator _ => True
  | _ => False

variable [IsPreorder W Q] [Quiet K Q] {ctx : Ctx} {a a' : Accounts W}

set_option synthInstance.maxSize 2000 in
/-- **A handler that does not stake** makes quiet calls only. -/
theorem handle_quiet {ev : StakingEvent} (hev : ¬ ev.Stakes)
    (h : Returns (handle K ctx ev) a () a') : Q a.sdk a'.sdk := by
  cases ev with
  | createValidator ev => exact absurd trivial hev
  | deposit ev => exact absurd trivial hev
  | _ =>
      dsimp only [handle, processUpdateValidatorCommission, processSetWithdrawalAddress,
        processSetRewardAddress, processSetOperator, processUnsetOperator, processRedelegate,
        processWithdraw, processUnjail] at h
      exact Moves.returns_transact (R := OnSdk Q) h

/-- The calls of a handler that stakes `amount` for the account `addr`, from the stores `w` to
the stores `w'`: quiet ones, then the coins are minted, sent to the account and put to
`delegate`. -/
def StakeCalls (K : Keepers W) (Q : W → W → Prop) (ctx : Ctx) (addr : Bytes) (amount : Nat)
    (delegate : SdkProg W Unit) (w w' : W) : Prop :=
  let coins := newCoins ⟨defaultBondDenom, amount⟩
  ∃ w₁ w₂ w₃, Q w w₁ ∧ Returns (K.bank.mintCoins ctx moduleName coins) w₁ () w₂ ∧
    Returns (K.bank.sendCoinsFromModuleToAccount ctx moduleName addr coins) w₂ () w₃ ∧
    Returns delegate w₃ () w'

omit [IsPreorder W Q] [Quiet K Q] in
/-- The last three calls of both handlers. -/
theorem returns_stakeCalls {addr : Bytes} {amount : Nat} {delegate : SdkProg W Unit}
    {cases : List (Sentinel × ErrCode)} {msg₁ msg₂ msg₃ : String}
    {b b' : Branched (Accounts W)} {u : Unit}
    (h : Returns (do
      wrapErr msg₁ (cachedCtx (call
        (K.bank.mintCoins ctx moduleName (newCoins ⟨defaultBondDenom, amount⟩))))
      wrapErr msg₂ (cachedCtx (call (K.bank.sendCoinsFromModuleToAccount ctx moduleName addr
        (newCoins ⟨defaultBondDenom, amount⟩))))
      classify cases msg₃ (cachedCtx (call delegate))) b u b')
    {w : W} (hq : Q w b.copy.sdk) : StakeCalls K Q ctx addr amount delegate w b'.copy.sdk := by
  simp only [returns_bind, returns_wrapErr, returns_classify, returns_cachedCtx, returns_call,
    Accounts.view_sdk, Accounts.put_sdk] at h
  obtain ⟨_, _, ⟨_, ⟨w₂, h₂, rfl⟩, rfl⟩, _, _, ⟨_, ⟨w₃, h₃, rfl⟩, rfl⟩, _, ⟨w₄, h₄, rfl⟩, rfl⟩ := h
  exact ⟨b.copy.sdk, w₂, w₃, hq, h₂, h₃, h₄⟩

/-- **The calls of `ProcessDeposit`.** -/
theorem processDeposit_calls {ev : Deposit} (h : Returns (processDeposit K ctx ev) a () a') :
    ∃ msg : MsgDelegate, msg.delegatorAddress = K.codec.accString (bytesOf ev.delegator) ∧
      msg.amount = ⟨defaultBondDenom, ev.stakeAmount⟩ ∧
      StakeCalls K Q ctx (bytesOf ev.delegator) ev.stakeAmount (K.staking.delegate ctx msg)
        a.sdk a'.sdk := by
  obtain ⟨b, hb, rfl⟩ := returns_cacheContext.mp h
  obtain ⟨pk, _, h⟩ := ReadOnly.returns_bind_iff.mp hb
  obtain ⟨valEvmAddr, _, h⟩ := ReadOnly.returns_bind_iff.mp h
  obtain ⟨bond, hbond, h⟩ := ReadOnly.returns_bind_iff.mp h
  obtain ⟨rfl, _⟩ := returns_ipTokenToBondCoin.mp hbond
  obtain ⟨_, b₁, q₁, _, h⟩ := Moves.bind_inv (R := OnCopy (OnSdk Q)) h
  obtain ⟨_, b₂, q₂, _, h⟩ := Moves.bind_inv (R := OnCopy (OnSdk Q)) h
  obtain ⟨_, b₃, q₃, _, h⟩ := Moves.bind_inv (R := OnCopy (OnSdk Q)) h
  obtain ⟨_, b₄, q₄, _, h⟩ := Moves.bind_inv (R := OnCopy (OnSdk Q)) h
  rcases returns_ite.mp h with ⟨_, h⟩ | ⟨_, h⟩
  · exact absurd h returns_fail
  obtain ⟨_, b₅, h₅, h⟩ := returns_bind.mp h
  obtain ⟨_, e₅⟩ := returns_setDefaultAddresses h₅
  have hq : Q a.sdk b₅.copy.sdk := by
    rw [e₅]
    exact trans_of Q (trans_of Q q₁ q₂) (trans_of Q q₃ q₄)
  exact ⟨_, rfl, rfl, returns_stakeCalls h hq⟩

/-- **The calls of `ProcessCreateValidator`.** -/
theorem processCreateValidator_calls {ev : CreateValidator}
    (h : Returns (processCreateValidator K ctx ev) a () a') :
    ∃ d m msg, K.codec.decompressToAddress ev.validatorCmpPubkey = .ok d ∧
      m.validatorAddress = K.codec.valString (bytesOf d) ∧
      m.value = ⟨defaultBondDenom, ev.stakeAmount⟩ ∧
      K.staking.newMsgCreateValidator m = .ok msg ∧
      StakeCalls K Q ctx (bytesOf d) ev.stakeAmount (K.staking.createValidator ctx msg)
        a.sdk a'.sdk := by
  obtain ⟨b, hb, rfl⟩ := returns_cacheContext.mp h
  obtain ⟨pk, hpk, h⟩ := ReadOnly.returns_bind_iff.mp hb
  obtain ⟨d, hd, h⟩ := ReadOnly.returns_bind_iff.mp h
  obtain ⟨bond, hbond, h⟩ := ReadOnly.returns_bind_iff.mp h
  obtain ⟨rfl, _⟩ := returns_ipTokenToBondCoin.mp hbond
  obtain ⟨_, b₁, q₁, _, h⟩ := Moves.bind_inv (R := OnCopy (OnSdk Q)) h
  rcases returns_ite.mp h with ⟨_, h⟩ | ⟨_, h⟩
  · exact absurd h returns_fail
  obtain ⟨_, b₂, q₂, _, h⟩ := Moves.bind_inv (R := OnCopy (OnSdk Q)) h
  obtain ⟨msg, hmsg, h⟩ := ReadOnly.returns_bind_iff.mp h
  obtain ⟨_, b₃, h₃, hrest⟩ := returns_bind.mp h
  obtain ⟨_, e₃⟩ := returns_setDefaultAddresses h₃
  have hq : Q a.sdk b₃.copy.sdk := by
    rw [e₃]
    exact trans_of Q q₁ q₂
  obtain ⟨_, rfl, _⟩ := returns_pubKeyBytesToCosmos.mp (returns_wrapErr.mp hpk)
  obtain ⟨hd, _⟩ := returns_cosmosPubkeyToEVMAddress.mp (returns_wrapErr.mp hd)
  obtain ⟨hmsg, _⟩ := returns_convert.mp (returns_wrapErr.mp hmsg)
  exact ⟨d, _, msg, hd, rfl, rfl, hmsg, returns_stakeCalls hrest hq⟩

/-! ## Amounts -/

/-- The amount of an event; the other events have none. -/
def StakingEvent.amount : StakingEvent → Nat
  | .createValidator ev => ev.stakeAmount
  | .deposit ev => ev.stakeAmount
  | .redelegate ev => ev.amount
  | .withdraw ev => ev.stakeAmount
  | _ => 0

/-- An event as `ProcessStakingEvents` hands it to its handler, with its amount in gwei. -/
def StakingEvent.inGwei : StakingEvent → StakingEvent
  | .createValidator ev => .createValidator { ev with stakeAmount := ev.stakeAmount / gwei }
  | .deposit ev => .deposit { ev with stakeAmount := ev.stakeAmount / gwei }
  | .redelegate ev => .redelegate { ev with amount := ev.amount / gwei }
  | .withdraw ev => .withdraw { ev with stakeAmount := ev.stakeAmount / gwei }
  | ev => ev

theorem StakingEvent.amount_inGwei (ev : StakingEvent) : ev.inGwei.amount = ev.amount / gwei := by
  cases ev <;> first | rfl | exact (Nat.zero_div gwei).symm

/-- **The division by a gwei loses nothing.** -/
theorem StakingEvent.inGwei_exact {ev : StakingEvent} (h : gwei ∣ ev.amount) :
    ev.inGwei.amount * gwei = ev.amount := by
  rw [ev.amount_inGwei]
  exact Nat.div_mul_cancel h

namespace StakingContract

variable (C : StakingContract)

/-- The id of an event. -/
def eventID : StakingEvent → Eth.Hash
  | .updateValidatorCommission _ => C.updateValidatorCommissionID
  | .setWithdrawalAddress _ => C.setWithdrawalAddressID
  | .setRewardAddress _ => C.setRewardAddressID
  | .setOperator _ => C.setOperatorID
  | .unsetOperator _ => C.unsetOperatorID
  | .createValidator _ => C.createValidatorID
  | .deposit _ => C.depositID
  | .redelegate _ => C.redelegateID
  | .withdraw _ => C.withdrawID
  | .unjail _ => C.unjailID

/-- The bindings read the log of an event as that event. -/
def Reads (ethlog : Eth.Log) : StakingEvent → Prop
  | .updateValidatorCommission ev => C.parseUpdateValidatorCommission ethlog = .ok ev
  | .setWithdrawalAddress ev => C.parseSetWithdrawalAddress ethlog = .ok ev
  | .setRewardAddress ev => C.parseSetRewardAddress ethlog = .ok ev
  | .setOperator ev => C.parseSetOperator ethlog = .ok ev
  | .unsetOperator ev => C.parseUnsetOperator ethlog = .ok ev
  | .createValidator ev => C.parseCreateValidator ethlog = .ok ev
  | .deposit ev => C.parseDeposit ethlog = .ok ev
  | .redelegate ev => C.parseRedelegate ethlog = .ok ev
  | .withdraw ev => C.parseWithdraw ethlog = .ok ev
  | .unjail ev => C.parseUnjail ethlog = .ok ev

/-- The ids, from the last case of the `switch` to the first. -/
def eventIDs : List Eth.Hash :=
  [C.unjailID, C.withdrawID, C.redelegateID, C.depositID, C.createValidatorID, C.unsetOperatorID,
    C.setOperatorID, C.setRewardAddressID, C.setWithdrawalAddressID, C.updateValidatorCommissionID]

variable {C}

/-- **The `switch` finds the handler of an event**, and divides its amount. -/
theorem parse_of_reads (hids : C.eventIDs.Nodup) {ethlog : Eth.Log} {ev : StakingEvent}
    (h : C.Reads ethlog ev) : C.parse (C.eventID ev) ethlog = some (.ok ev.inGwei) := by
  simp only [eventIDs, List.nodup_cons, List.mem_cons, List.not_mem_nil, or_false, not_or] at hids
  cases ev <;> simp only [Reads] at h <;>
    simp [parse, eventID, StakingEvent.inGwei, Except.map, hids, h]

end StakingContract

/-- The calls that a staking event stands for: its amount is minted once, sent to the account of the
delegator, or of the validator, and put to the staking module for that account. -/
def MintsOnce (K : Keepers W) (Q : W → W → Prop) (ctx : Ctx) (w w' : W) : StakingEvent → Prop
  | .createValidator ev => ∃ d m msg, K.codec.decompressToAddress ev.validatorCmpPubkey = .ok d ∧
      m.validatorAddress = K.codec.valString (bytesOf d) ∧
      m.value = ⟨defaultBondDenom, ev.stakeAmount⟩ ∧ K.staking.newMsgCreateValidator m = .ok msg ∧
      StakeCalls K Q ctx (bytesOf d) ev.stakeAmount (K.staking.createValidator ctx msg) w w'
  | .deposit ev => ∃ msg : MsgDelegate,
      msg.delegatorAddress = K.codec.accString (bytesOf ev.delegator) ∧
      msg.amount = ⟨defaultBondDenom, ev.stakeAmount⟩ ∧
      StakeCalls K Q ctx (bytesOf ev.delegator) ev.stakeAmount (K.staking.delegate ctx msg) w w'
  | _ => False

/-- **A staking handler mints the amount of its event**, once. -/
theorem handle_mints {ev : StakingEvent} (hev : ev.Stakes)
    (h : Returns (handle K ctx ev) a () a') : MintsOnce K Q ctx a.sdk a'.sdk ev := by
  cases ev with
  | createValidator ev => exact processCreateValidator_calls (Q := Q) h
  | deposit ev => exact processDeposit_calls (Q := Q) h
  | _ => exact absurd hev id

end Story.EvmStaking
