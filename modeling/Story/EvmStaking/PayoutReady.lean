/-
# Story.EvmStaking.PayoutReady -- a payout address is there when it is needed

At the end of a block the module looks up where to pay the principal of a matured entry
and the rewards of a delegation. A missing entry stops the block, and with it the chain.
The entries are written long before: by genesis for the validators, and by the handlers
that stake. So the invariant of a whole run is that every account which holds a
delegation or an unbonding entry has both addresses on record.
-/
import Story.EvmStaking.PayoutAddresses
import Story.EvmStaking.Run
import Story.EvmStaking.Calls
import Story.Sdk.LedgerLaws

namespace Story.EvmStaking

open Story.Effect Story.Errors Story.Sdk Story.Collections Story.Eth
open Story.EvmEngine (effect effect_cases effect_of_returns completes returns_of_completes)

variable {W : Type}

/-! ## Who holds stake -/

/-- No account holds a delegation or an unbonding entry that did not hold one before. -/
def NoNewHolder (held : W → String → Prop) (w w' : W) : Prop := ∀ x, held w' x → held w x

instance (held : W → String → Prop) : IsPreorder W (NoNewHolder held) where
  refl := fun _ _ h => h
  trans := fun _ _ _ h h' x hx => h x (h' x hx)

/-- What is assumed of the staking module, where `held w x` says that the account `x` holds
a delegation or an unbonding entry. A delegation of an account that has none is made by
`Delegate` and `CreateValidator` only: `BeginRedelegate` asks for a delegation, and so does
every unbonding entry. -/
class HolderLaws (K : Keepers W) (held : W → String → Prop) : Prop
    extends Quiet K (NoNewHolder held) where
  mintCoins : ∀ ctx name c, Moves (NoNewHolder held) (K.bank.mintCoins ctx name c)
  burnCoins : ∀ ctx name c, Moves (NoNewHolder held) (K.bank.burnCoins ctx name c)
  sendCoinsFromModuleToAccount : ∀ ctx name addr c,
    Moves (NoNewHolder held) (K.bank.sendCoinsFromModuleToAccount ctx name addr c)
  sendCoinsFromAccountToModule : ∀ ctx addr name c,
    Moves (NoNewHolder held) (K.bank.sendCoinsFromAccountToModule ctx addr name c)
  endBlocker : ∀ ctx, Moves (NoNewHolder held) (K.staking.endBlockerWithUnbondedEntries ctx)
  delegate : ∀ ctx msg w u w', Returns (K.staking.delegate ctx msg) w u w' →
    ∀ b : Address, msg.delegatorAddress = K.codec.accString (bytesOf b) →
    ∀ x, held w' x → held w x ∨ x = msg.delegatorAddress
  /-- The delegator of a new validator is the account with the bytes of its address. -/
  createValidator : ∀ ctx msg w u w', Returns (K.staking.createValidator ctx msg) w u w' →
    ∀ b : Address, msg.validatorAddress = K.codec.valString (bytesOf b) →
    ∀ x, held w' x → held w x ∨ x = K.codec.accString (bytesOf b)
  newMsgCreateValidator : ∀ m m', K.staking.newMsgCreateValidator m = .ok m' →
    m'.validatorAddress = m.validatorAddress
  delegations_held : ∀ ctx val w l w', Returns (K.staking.getValidatorDelegations ctx val) w l w' →
    ∀ del ∈ l, held w del.delegatorAddress
  unbonded_held : ∀ ctx w l w', Returns (K.staking.endBlockerWithUnbondedEntries ctx) w l w' →
    ∀ e ∈ l, held w e.delegatorAddress

attribute [instance] HolderLaws.mintCoins HolderLaws.burnCoins
  HolderLaws.sendCoinsFromModuleToAccount HolderLaws.sendCoinsFromAccountToModule
  HolderLaws.endBlocker

/-- Both payout addresses of the account are on record. -/
def AddressBook.Has (b : AddressBook) (x : String) : Prop := b.withdraw x ≠ none ∧ b.reward x ≠ none

/-- **The invariant.** -/
def Covered (held : W → String → Prop) (a : Accounts W) : Prop := ∀ x, held a.sdk x → a.book.Has x

theorem has_setDefault (m : AddressMap) (key value : String) {x : String} (h : m x ≠ none) :
    setDefault m key value x ≠ none := by
  by_cases hx : x = key
  · subst hx
    rw [setDefault_self]
    exact Option.some_ne_none _
  · rwa [setDefault_of_ne _ hx]

theorem AddressBook.Has.withDefaults {b : AddressBook} {x : String} (h : b.Has x)
    (key v v' : String) : (b.withDefaults key v v').Has x :=
  ⟨has_setDefault _ _ _ h.1, has_setDefault _ _ _ h.2⟩

theorem AddressBook.has_withDefaults (b : AddressBook) (key v v' : String) :
    (b.withDefaults key v v').Has key := by
  constructor
  · change setDefault _ _ _ _ ≠ none
    rw [setDefault_self]
    exact Option.some_ne_none _
  · change setDefault _ _ _ _ ≠ none
    rw [setDefault_self]
    exact Option.some_ne_none _

/-- No event removes a payout address. -/
theorem AddressBook.Has.after {b : AddressBook} {x : String} (h : b.Has x) (codec : Codec)
    (ev : StakingEvent) : (b.after codec ev).Has x := by
  have hupdate (m : AddressMap) (hm : m x ≠ none) (key v : String) :
      Function.update m key (some v) x ≠ none := by
    rw [Function.update_apply]
    split
    · exact Option.some_ne_none _
    · exact hm
  cases ev with
  | setWithdrawalAddress ev => exact ⟨hupdate _ h.1 _ _, h.2⟩
  | setRewardAddress ev => exact ⟨h.1, hupdate _ h.2 _ _⟩
  | deposit ev => exact h.withDefaults _ _ _
  | createValidator ev =>
      simp only [AddressBook.after]
      split
      · exact h
      · exact h.withDefaults _ _ _
  | _ => exact h

/-! ## The handlers -/

section Handlers

variable {K : Keepers W} {held : W → String → Prop} [HolderLaws K held] {ctx : Ctx}
  {a a' : Accounts W}

/-- The calls of a handler that stakes make a holder of the account they are for, at most. -/
theorem held_of_stakeCalls {addr : Bytes} {amount : Nat} {delegate : SdkProg W Unit} {key : String}
    {w w' : W} (h : StakeCalls K (NoNewHolder held) ctx addr amount delegate w w')
    (hdel : ∀ w₀ w₁, Returns delegate w₀ () w₁ → ∀ x, held w₁ x → held w₀ x ∨ x = key) (x : String)
    (hx : held w' x) : held w x ∨ x = key := by
  obtain ⟨w₁, w₂, w₃, hq, hmint, hsend, hd⟩ := h
  rcases hdel _ _ hd x hx with hx | rfl
  · have hsend : NoNewHolder held w₂ w₃ :=
      (HolderLaws.sendCoinsFromModuleToAccount ctx moduleName addr _).returns _ _ _ hsend
    have hmint : NoNewHolder held w₁ w₂ :=
      (HolderLaws.mintCoins ctx moduleName _).returns _ _ _ hmint
    exact .inl (hq x (hmint x (hsend x hx)))
  · exact .inr rfl

/-- **Every event keeps the invariant.** -/
theorem Covered.handle {ev : StakingEvent} (ha : Covered held a)
    (h : Returns (handle K ctx ev) a () a') : Covered held a' := by
  have hbook := returns_handle_book h
  -- an account that held something before has its addresses still
  suffices hnew : ∀ x, held a'.sdk x → held a.sdk x ∨ a'.book.Has x by
    intro x hx
    rcases hnew x hx with hx | hx
    · rw [hbook]
      exact (ha x hx).after _ _
    · exact hx
  intro x hx
  cases ev with
  | deposit ev =>
      obtain ⟨msg, hmsg, _, hcalls⟩ := processDeposit_calls (Q := NoNewHolder held) h
      rcases held_of_stakeCalls hcalls
        (fun w₀ w₁ hr => HolderLaws.delegate ctx msg w₀ () w₁ hr _ hmsg) x hx with hx | rfl
      · exact .inl hx
      · rw [hbook, hmsg]
        exact .inr (AddressBook.has_withDefaults _ _ _ _)
  | createValidator ev =>
      obtain ⟨d, m, msg, hd, hm, _, hmsg, hcalls⟩ :=
        processCreateValidator_calls (Q := NoNewHolder held) h
      have hval : msg.validatorAddress = K.codec.valString (bytesOf d) :=
        (HolderLaws.newMsgCreateValidator held m msg hmsg).trans hm
      rcases held_of_stakeCalls hcalls
        (fun w₀ w₁ hr => HolderLaws.createValidator ctx msg w₀ () w₁ hr _ hval) x hx with hx | rfl
      · exact .inl hx
      · rw [hbook, AddressBook.after, hd]
        exact .inr (AddressBook.has_withDefaults _ _ _ _)
  | _ => exact .inl (handle_quiet (Q := NoNewHolder held) (by simp [StakingEvent.Stakes]) h x hx)

end Handlers

/-! ## The end of a block -/

/-- The fault is not about a missing payout address. -/
def NotMissing : Fault → Prop
  | .err e => .notFound withdrawAddressMapName ∉ e.is ∧ .notFound rewardAddressMapName ∉ e.is
  | _ => True

/-- The invariant, and the accounts in `xs` have their addresses. -/
def Ready (held : W → String → Prop) (xs : List String) (s : Store W) : Prop :=
  Covered held s.accounts ∧ ∀ x ∈ xs, s.accounts.book.Has x

section EndBlock

variable {K : Keepers W} {held : W → String → Prop} {xs : List String} {ctx : Ctx} {α : Type}

instance safe_wrapErr (msg : String) (x : Prog (Store W) α) [Safe (Ready held xs) NotMissing x] :
    Safe (Ready held xs) NotMissing (wrapErr msg x) := by
  refine Safe.mapError (E := NotMissing) ?_
  intro f hf
  cases f with
  | err e => exact hf
  | panic why => trivial
  | retrying => trivial

instance safe_call (x : SdkProg W α) [hx : Moves (NoNewHolder held) x] :
    Safe (Ready held xs) NotMissing (call x : Prog (Store W) α) where
  returns := by
    intro s a t hs h
    obtain ⟨w, hw, rfl⟩ := returns_call.mp h
    exact ⟨fun y hy => hs.1 y (hx.returns _ _ _ hw y hy), hs.2⟩
  fails := by
    intro s f t _ h
    obtain ⟨f₀, w, _, rfl, _⟩ := fails_call.mp h
    cases f₀ with
    | err e => simp [Fault.ofSdk, NotMissing, GoError.ofSdk]
    | panic why => trivial

/-- A call that catches the error of a keeper; such an error says nothing about the maps. -/
theorem safe_attempt_call {β : Type} {x : SdkProg W α} [hx : Moves (NoNewHolder held) x]
    {f : Except GoError α → Prog (Store W) β}
    (hok : ∀ a, Safe (Ready held xs) NotMissing (f (.ok a)))
    (herr : ∀ e, Safe (Ready held xs) NotMissing (f (.error (.ofSdk e)))) :
    Safe (Ready held xs) NotMissing (attempt (call x) >>= f) := by
  have hcall : ∀ {s r t}, Ready held xs s → Returns (attempt (call x : Prog (Store W) α)) s r t →
      Ready held xs t ∧ ∀ err, r = .error err → ∃ e, err = .ofSdk e := by
    intro s r t hs h
    cases r with
    | ok a => exact ⟨(safe_call x).returns s a t hs (returns_attempt_ok.mp h), by simp⟩
    | error err =>
        obtain ⟨f₀, w, hw, herr, rfl⟩ := fails_call.mp (returns_attempt_error.mp h)
        refine ⟨⟨fun y hy => hs.1 y (hx.fails _ _ _ hw y hy), hs.2⟩, ?_⟩
        rintro _ ⟨⟩
        cases f₀ with
        | err e => exact ⟨e, (Fault.err.inj herr).symm⟩
        | panic why => cases herr
  have hrest : ∀ r, (∀ err, r = .error err → ∃ e, err = .ofSdk e) →
      Safe (Ready held xs) NotMissing (f r) := by
    intro r hr
    cases r with
    | ok a => exact hok a
    | error err =>
        obtain ⟨e, rfl⟩ := hr err rfl
        exact herr e
  constructor
  · intro s b t hs h
    obtain ⟨r, s', h, h'⟩ := returns_bind.mp h
    obtain ⟨hs', hr⟩ := hcall hs h
    exact (hrest r hr).returns _ _ _ hs' h'
  · intro s e t hs h
    rcases fails_bind.mp h with h | ⟨r, s', h, h'⟩
    · exact (safe_call x).fails _ _ _ hs (fails_attempt.mp h).1
    · obtain ⟨hs', hr⟩ := hcall hs h
      exact (hrest r hr).fails _ _ _ hs' h'

instance safe_convert (r : Except SdkError α) :
    Safe (Ready held xs) NotMissing (convert r : Prog (Store W) α) := by
  refine Safe.of_readOnly ?_
  intro s f t h
  obtain ⟨e, _, rfl, _⟩ := fails_convert.mp h
  simp [NotMissing, GoError.ofSdk]

/-- The height of an upgrade may be unknown; that is an error of its own. -/
instance safe_isV121 (chainID : String) (blockNumber : Int) :
    Safe (Ready held xs) NotMissing
      (ofExcept (Netconf.isV121 chainID blockNumber) : Prog (Store W) Bool) := by
  refine Safe.of_readOnly ?_
  intro s f t h
  obtain ⟨e, he, rfl, _⟩ := fails_ofExcept.mp h
  simp [NotMissing, Netconf.is_of_isActive_eq_error he]

instance safe_goPanic (why : String) :
    Safe (Ready held xs) NotMissing (goPanic why : Prog (Store W) α) :=
  Safe.of_readOnly (.throw trivial)

instance safe_uint64 (i : Int) :
    Safe (Ready held xs) NotMissing (uint64 i : Prog (Store W) UInt64) := Safe.ite _ _ _

instance safe_newCoin (denom : String) (amount : Int) :
    Safe (Ready held xs) NotMissing (newCoin denom amount : Prog (Store W) Coin) := Safe.ite _ _ _

instance safe_ipTokenToBondCoin (amount : Nat) :
    Safe (Ready held xs) NotMissing (ipTokenToBondCoin amount : Prog (Store W) BondCoin) :=
  Safe.bind _ _

instance safe_debug (line : LogLine) :
    Safe (Ready held xs) NotMissing (debug line : Prog (Store W) Unit) :=
  Safe.modify fun _ h => h

instance safe_addWithdrawalToQueue (w : Withdrawal) :
    Safe (Ready held xs) NotMissing (addWithdrawalToQueue w : Prog (Store W) Unit) where
  returns := by
    intro s u t hs h
    obtain rfl := returns_addWithdrawalToQueue.mp h
    exact hs
  fails := fun _ _ _ _ h => absurd h fails_addWithdrawalToQueue

instance safe_addRewardWithdrawalToQueue (w : Withdrawal) :
    Safe (Ready held xs) NotMissing (addRewardWithdrawalToQueue w : Prog (Store W) Unit) where
  returns := by
    intro s u t hs h
    obtain rfl := returns_addRewardWithdrawalToQueue.mp h
    exact hs
  fails := fun _ _ _ _ h => absurd h fails_addRewardWithdrawalToQueue

theorem safe_getWithdrawAddress {x : String} (hx : x ∈ xs) :
    Safe (Ready held xs) NotMissing (getWithdrawAddress x : Prog (Store W) String) where
  returns := fun _ _ _ hs h => (returns_getEntry.mp h).2 ▸ hs
  fails := fun _ _ _ hs h => absurd (fails_getEntry.mp h).1 (hs.2 x hx).1

theorem safe_getRewardAddress {x : String} (hx : x ∈ xs) :
    Safe (Ready held xs) NotMissing (getRewardAddress x : Prog (Store W) String) where
  returns := fun _ _ _ hs h => (returns_getEntry.mp h).2 ▸ hs
  fails := fun _ _ _ hs h => absurd (fails_getEntry.mp h).1 (hs.2 x hx).2

instance safe_bech32 (codec : Codec) (val : String) :
    Safe (Ready held xs) NotMissing
      (bech32ValidatorAddressToEvmAddress codec val : Prog (Store W) String) := Safe.bind _ _

/-- The error of a keeper that was caught and is handed on. -/
theorem safe_fail {e : GoError} (h : ∀ c, .notFound c ∉ e.is) :
    Safe (Ready held xs) NotMissing (fail e : Prog (Store W) α) :=
  Safe.of_readOnly (.throw ⟨h _, h _⟩)

variable [HolderLaws K held]

theorem safe_unstakePrincipal {entry : UnbondedEntry} (hx : entry.delegatorAddress ∈ xs) :
    Safe (Ready held xs) NotMissing (unstakePrincipal K ctx entry) := by
  have haddr : Safe (Ready held xs) NotMissing
      (getWithdrawAddress entry.delegatorAddress : Prog (Store W) String) :=
    safe_getWithdrawAddress hx
  unfold unstakePrincipal
  infer_instance

theorem not_mem_ofSdk (e : SdkError) (c : String) : .notFound c ∉ (GoError.ofSdk e).is := by
  simp [GoError.ofSdk]

instance safe_isTotallyUnstaked (del val : Bytes) :
    Safe (Ready held xs) NotMissing (isTotallyUnstaked K ctx del val) := by
  refine safe_attempt_call (fun _ => Safe.pure _) fun e => ?_
  have : Safe (Ready held xs) NotMissing
      (fail ((GoError.ofSdk e).wrap "get delegation") : Prog (Store W) Bool) :=
    safe_fail (not_mem_ofSdk e)
  exact Safe.ite _ _ _

instance safe_withdrawRemainingCommission (val : Bytes) :
    Safe (Ready held xs) NotMissing (withdrawRemainingCommission K ctx val) := by
  refine safe_attempt_call (fun _ => Safe.pure _) fun e => ?_
  have : Safe (Ready held xs) NotMissing
      (fail ((GoError.ofSdk e).wrap "withdraw validator commission") : Prog (Store W) Unit) :=
    safe_fail (not_mem_ofSdk e)
  exact Safe.ite _ _ _

instance safe_withdrawOwnCommission (val : Bytes) :
    Safe (Ready held xs) NotMissing (withdrawOwnCommission K ctx val) := by
  refine safe_attempt_call (fun _ => Safe.pure _) fun e => ?_
  have : Safe (Ready held xs) NotMissing (fail (.ofSdk e) : Prog (Store W) Coins) :=
    safe_fail (not_mem_ofSdk e)
  exact Safe.ite _ _ _

instance safe_claimedCoins (claimedReward : UInt64) :
    Safe (Ready held xs) NotMissing (claimedCoins claimedReward : Prog (Store W) Coins) :=
  Safe.ite _ _ _

set_option synthInstance.maxSize 2000 in
theorem safe_unstakeResidue {entry : UnbondedEntry} (hx : entry.delegatorAddress ∈ xs) :
    Safe (Ready held xs) NotMissing (unstakeResidue K ctx entry) := by
  have haddr : Safe (Ready held xs) NotMissing
      (getRewardAddress entry.delegatorAddress : Prog (Store W) String) := safe_getRewardAddress hx
  unfold unstakeResidue
  infer_instance

set_option synthInstance.maxSize 2000 in
theorem safe_enqueueRewardWithdrawal {del val : String} {claimedReward : UInt64} (hx : del ∈ xs) :
    Safe (Ready held xs) NotMissing (enqueueRewardWithdrawal K ctx del val claimedReward) := by
  have haddr : Safe (Ready held xs) NotMissing (getRewardAddress del : Prog (Store W) String) :=
    safe_getRewardAddress hx
  dsimp only [enqueueRewardWithdrawal]
  infer_instance

set_option synthInstance.maxSize 2000 in
theorem safe_processEligibleRewardWithdrawal {delegation : Delegation} {validator : Validator}
    {minAmount : UInt64} (hx : delegation.delegatorAddress ∈ xs) :
    Safe (Ready held xs) NotMissing
      (processEligibleRewardWithdrawal K ctx delegation validator minAmount) := by
  have henqueue (val : String) (claimedReward : UInt64) : Safe (Ready held xs) NotMissing
      (enqueueRewardWithdrawal K ctx delegation.delegatorAddress val claimedReward) :=
    safe_enqueueRewardWithdrawal hx
  dsimp only [processEligibleRewardWithdrawal]
  infer_instance

instance safe_getParams :
    Safe (Ready held xs) NotMissing (getParams : Prog (Store W) Params) := Safe.bind _ _

theorem safe_processUnstakeWithdrawals {entries : List UnbondedEntry}
    (hx : ∀ e ∈ entries, e.delegatorAddress ∈ xs) :
    Safe (Ready held xs) NotMissing (processUnstakeWithdrawals K ctx entries) := by
  have hprincipal := Safe.forM (P := Ready held xs) (E := NotMissing) (l := entries)
    (f := unstakePrincipal K ctx) fun e he => safe_unstakePrincipal (hx e he)
  have hresidue := Safe.forM (P := Ready held xs) (E := NotMissing) (l := entries)
    (f := unstakeResidue K ctx) fun e he => safe_unstakeResidue (hx e he)
  exact Safe.bind _ _

omit [HolderLaws K held] in
/-- When a keeper reports accounts that hold something, their addresses are on record. -/
theorem safe_reported {β : Type} {msg : String} {x : SdkProg W α} [Moves (NoNewHolder held) x]
    {f : α → Prog (Store W) β} (names : α → List String)
    (hnames : ∀ w a w', Returns x w a w' → ∀ y ∈ names a, held w y)
    (hf : ∀ a, Safe (Ready held (names a ++ xs)) NotMissing (f a)) :
    Safe (Ready held xs) NotMissing (wrapErr msg (call x) >>= f) := by
  have hcall : Safe (Ready held xs) NotMissing (wrapErr msg (call x) : Prog (Store W) _) :=
    inferInstance
  have hfound : ∀ {s a t}, Ready held xs s → Returns (wrapErr msg (call x)) s a t →
      Ready held (names a ++ xs) t := by
    intro s a t hs h
    have ht := hcall.returns s a t hs h
    refine ⟨ht.1, ?_⟩
    intro y hy
    rcases List.mem_append.mp hy with hy | hy
    · obtain ⟨w, hw, rfl⟩ := returns_call.mp (returns_wrapErr.mp h)
      exact hs.1 _ (hnames _ a w hw y hy)
    · exact ht.2 y hy
  constructor
  · intro s b t hs h
    obtain ⟨a, s', h, h'⟩ := returns_bind.mp h
    have ht := (hf a).returns _ _ _ (hfound hs h) h'
    exact ⟨ht.1, fun y hy => ht.2 y (List.mem_append_right _ hy)⟩
  · intro s e t hs h
    rcases fails_bind.mp h with h | ⟨a, s', h, h'⟩
    · exact hcall.fails _ _ _ hs h
    · exact (hf a).fails _ _ _ (hfound hs h) h'

/-- The delegators of a list of delegations, and of a list of entries. -/
def delegatorsOf (l : List Delegation) : List String := l.map Delegation.delegatorAddress

def entryDelegators (l : List UnbondedEntry) : List String := l.map UnbondedEntry.delegatorAddress

theorem safe_sweepLoop (validatorSet : List Validator) (sweepBound : UInt32)
    (minRewardWithdrawalAmount : UInt64) (rounds : Nat) (st : Sweep) :
    Safe (Ready held xs) NotMissing
      (sweepLoop K ctx validatorSet sweepBound minRewardWithdrawalAmount rounds st) := by
  induction rounds generalizing xs st with
  | zero => exact Safe.pure _
  | succ rounds ih =>
      rw [sweepLoop]
      split
      · exact safe_goPanic _
      next validator _ =>
        -- a jailed validator is passed over, and so is one whose delegations are all swept
        refine @Safe.ite _ _ _ _ _ _ _ _ _ (ih _) ?_
        refine @Safe.bind _ _ _ _ _ _ _ _ inferInstance fun valAddr =>
          safe_reported delegatorsOf ?_ fun l => ?_
        · intro w l w' h y hy
          obtain ⟨del, hdel, rfl⟩ := List.mem_map.mp hy
          exact HolderLaws.delegations_held ctx valAddr w l w' h del hdel
        refine @Safe.ite _ _ _ _ _ _ _ _ _ (ih _) ?_
        refine @Safe.bind _ _ _ _ _ _ _ _ ?_ fun _ => ?_
        · -- each delegation was just reported, so its delegator is on record
          refine Safe.forM fun del hdel => ?_
          have hmem : del ∈ l := by
            split at hdel
            · exact List.mem_of_mem_drop (List.mem_of_mem_take hdel)
            · exact List.mem_of_mem_drop hdel
          have : Safe (Ready held (delegatorsOf l ++ xs)) NotMissing
              (processEligibleRewardWithdrawal K ctx del validator minRewardWithdrawalAmount) :=
            safe_processEligibleRewardWithdrawal
              (List.mem_append_left _ (List.mem_map_of_mem hmem))
          exact safe_wrapErr _ _
        · exact @Safe.ite _ _ _ _ _ _ _ _ _ (Safe.pure _) (ih _)

instance safe_processRewardWithdrawals :
    Safe (Ready held xs) NotMissing (processRewardWithdrawals K ctx) := by
  have hloop (validatorSet : List Validator) (sweepBound : UInt32) (minAmount : UInt64)
      (rounds : Nat) (st : Sweep) : Safe (Ready held xs) NotMissing
        (sweepLoop K ctx validatorSet sweepBound minAmount rounds st) :=
    safe_sweepLoop validatorSet sweepBound minAmount rounds st
  have hset (i : ValidatorSweepIndex) : Safe (Ready held xs) NotMissing
      (setValidatorSweepIndex i : Prog (Store W) Unit) := Safe.modify fun _ h => h
  have hget : Safe (Ready held xs) NotMissing
      (getValidatorSweepIndex : Prog (Store W) ValidatorSweepIndex) := Safe.bind _ _
  have hmax : Safe (Ready held xs) NotMissing (maxSweepPerBlock : Prog (Store W) UInt32) :=
    Safe.bind _ _
  have hmin : Safe (Ready held xs) NotMissing
      (minPartialWithdrawalAmount : Prog (Store W) UInt64) := Safe.bind _ _
  dsimp only [processRewardWithdrawals]
  infer_instance

set_option synthInstance.maxSize 2000 in
instance safe_processUbiWithdrawal :
    Safe (Ready held xs) NotMissing (processUbiWithdrawal K ctx) := by
  unfold processUbiWithdrawal
  infer_instance

/-- **The end of a block** keeps the invariant, and does not stop for a missing address. -/
theorem endBlock_covered {s : Store W} (hs : Covered held s.accounts) :
    (∀ t, Returns (endBlock K ctx) s () t → Covered held t.accounts) ∧
      ∀ f t, Fails (endBlock K ctx) s f t → NotMissing f := by
  have hsafe : Safe (Ready held []) NotMissing (endBlock K ctx) := by
    have hsing : Safe (Ready held []) NotMissing (isSingularity K ctx : Prog (Store W) Bool) :=
      Safe.bind _ _
    refine @Safe.bind _ _ _ _ _ _ _ _ hsing fun inSingularity => ?_
    refine @Safe.ite _ _ _ _ _ _ _ _ _ (Safe.pure _) ?_
    refine safe_reported entryDelegators ?_ fun entries => ?_
    · intro w l w' h y hy
      obtain ⟨e, he, rfl⟩ := List.mem_map.mp hy
      exact HolderLaws.unbonded_held ctx w l w' h e he
    · have hunstake : Safe (Ready held (entryDelegators entries ++ [])) NotMissing
          (processUnstakeWithdrawals K ctx entries) :=
        safe_processUnstakeWithdrawals
          fun e he => List.mem_append_left _ (List.mem_map_of_mem he)
      unfold endBlockWithdrawals
      infer_instance
  have hready : Ready held [] s := ⟨hs, by simp⟩
  exact ⟨fun t h => (hsafe.returns _ _ _ hready h).1, fun f t h => hsafe.fails _ _ _ hready h⟩

end EndBlock

/-! ## Whole runs -/

section Runs

variable {K : Keepers W} {held : W → String → Prop}

/-- A validator that was registered has its addresses. -/
theorem has_registered {codec : Codec} {accounts : List Address} {d : Address} (b : AddressBook)
    (h : d ∈ accounts ∨ b.Has (codec.accString (bytesOf d))) :
    (accounts.foldl (AddressBook.register codec) b).Has (codec.accString (bytesOf d)) := by
  induction accounts generalizing b with
  | nil => exact h.resolve_left List.not_mem_nil
  | cons x accounts ih =>
      refine ih _ ?_
      by_cases hkey : codec.accString (bytesOf d) = codec.accString (bytesOf x)
      · right
        simp [AddressBook.Has, AddressBook.register, hkey]
      · rcases h with h | h
        · have hne : d ≠ x := fun heq => hkey (by rw [heq])
          exact .inl ((List.mem_cons.mp h).resolve_left hne)
        · right
          simpa [AddressBook.Has, AddressBook.register, Function.update_of_ne hkey] using h

variable [HolderLaws K held]

/-- **Genesis establishes the invariant.** -/
theorem covered_genesis {ctx : Ctx} {gs : GenesisState} {w w' : W} {vals : List Validator}
    (hvals : Returns (K.staking.getAllValidators ctx) w vals w')
    (hcached : ∀ v ∈ vals, v.consensusPubkey ≠ none)
    (hself : ∀ x, held w x → ∃ d, GenesisValidator K.codec vals d ∧
      x = K.codec.accString (bytesOf d)) {s : Store W}
    (h : Returns (initGenesis K ctx gs) (Store.fresh w) () s) : Covered held s.accounts := by
  obtain ⟨_, vals', w'', hw, hreg⟩ := returns_initGenesis.mp h
  obtain ⟨rfl, rfl⟩ := hvals.unique hw
  obtain ⟨accounts, hall, hbook⟩ := registerValidators_book hcached hreg
  have hsdk : s.accounts.sdk = w' := (registerValidators_frame hreg).2
  intro x hx
  rw [hsdk] at hx
  have hquiet := (Quiet.getAllValidators (Q := NoNewHolder held) ctx).returns _ _ _ hw
  obtain ⟨d, hd, rfl⟩ := hself x (hquiet x hx)
  rw [hbook]
  exact has_registered _ (.inl ((mem_accounts_iff hall).mpr hd))

/-- **Every action keeps the invariant.** -/
theorem Covered.prog (action : Action Ctx) (s : Store W) (out : List Eth.Withdrawal) (t : Store W)
    (hs : Covered held s.accounts) (h : Returns (action.prog K (endBlock K)) s out t) :
    Covered held t.accounts := by
  cases action with
  | event ctx ev =>
      obtain ⟨a, ha, rfl, _⟩ := returns_prog_event.mp h
      exact hs.handle ha
  | blockEnd ctx => exact (endBlock_covered hs).1 t (returns_prog_blockEnd.mp h).1
  | dequeueWithdrawals maxDequeue =>
      obtain ⟨q, _, rfl⟩ := returns_zoom.mp h
      exact hs
  | dequeueRewardWithdrawals maxDequeue =>
      obtain ⟨q, _, rfl⟩ := returns_zoom.mp h
      exact hs

end Runs

/-- **Payout addresses exist when they are needed.** Start with genesis on a staking state in
which the validators, with their keys cached, are the only ones to hold anything, and let the
module run. In every state reached every account that holds a delegation or an unbonding
entry has a withdrawal address and a reward address, and the end of the next block does not
stop because one is missing. -/
theorem payout_addresses_exist (K : Keepers W) (held : W → String → Prop)
    (hlaws : HolderLaws K held) (ctx : Ctx) (gs : GenesisState) (w w' : W) (vals : List Validator)
    (hvals : Returns (K.staking.getAllValidators ctx) w vals w')
    (hcached : ∀ v ∈ vals, v.consensusPubkey ≠ none)
    (hself : ∀ x, held w x → ∃ d, GenesisValidator K.codec vals d ∧
      x = K.codec.accString (bytesOf d)) (s t : Store W) (steps : List (Step Ctx))
    (hgenesis : Returns (initGenesis K ctx gs) (Store.fresh w) () s) (hrun : Run K s steps t) :
    (∀ x, held t.accounts.sdk x →
        t.accounts.delegatorWithdrawAddress x ≠ none ∧
        t.accounts.delegatorRewardAddress x ≠ none) ∧
      ∀ ctx' f t', Fails (endBlock K ctx') t f t' → NotMissing f := by
  have hcov : Covered held t.accounts := by
    induction hrun with
    | nil => exact covered_genesis hvals hcached hself hgenesis
    | snoc _ ha ih => exact ha.keeps Covered.prog ih
  exact ⟨hcov, fun ctx' => (endBlock_covered hcov).2⟩

/-! ### A run on the ledger -/

/-- The account has a delegation or an unbonding entry on the ledger. -/
def LedgerHeld (l : Ledger) (x : String) : Prop :=
  x ∈ delegatorsOf l.delegations ∨ x ∈ entryDelegators l.maturing

/-- Who has a delegation is found. -/
theorem mem_of_delegation {l : Ledger} {del val : String} (h : l.delegation del val ≠ none) :
    del ∈ delegatorsOf l.delegations := by
  obtain ⟨d, hd⟩ := Option.ne_none_iff_exists'.mp h
  have hp := List.find?_some hd
  simp only [decide_eq_true_eq] at hp
  exact List.mem_map.mpr ⟨d, List.mem_of_find?_eq_some hd, hp.1⟩

theorem ledger_stake_held {del val : String} {amount : Int} {l l' : Ledger} {u : Unit}
    (h : Returns (Ledger.stake del val amount) l u l') (x : String) (hx : LedgerHeld l' x) :
    LedgerHeld l x ∨ x = del := by
  simp only [Ledger.stake, returns_bind, returns_get] at h
  obtain ⟨_, _, ⟨rfl, rfl⟩, h⟩ := h
  rcases returns_ite.mp h with ⟨_, h⟩ | ⟨_, h⟩
  · exact absurd h returns_throw
  · obtain rfl := returns_set.mp h
    rcases hx with hx | hx
    · rcases List.mem_cons.mp hx with hx | hx
      · exact .inr hx
      · exact .inl (.inl hx)
    · exact .inl (.inr hx)

instance ledger_holderLaws : HolderLaws Ledger.keepers LedgerHeld where
  toQuiet := by
    refine Ledger.quiet ?_ ?_ ?_ ?_ ?_ ?_
    · exact fun l addr x hx => hx
    · rintro l e he x (hx | hx)
      · exact .inl hx
      · simp only [entryDelegators, List.map_append, List.mem_append, List.map_cons, List.map_nil,
          List.mem_singleton] at hx
        rcases hx with hx | rfl
        · exact .inr hx
        · exact .inl (mem_of_delegation he)
    · rintro l d src hd x (hx | hx)
      · rcases List.mem_cons.mp hx with rfl | hx
        · exact .inl (mem_of_delegation hd)
        · exact .inl hx
      · exact .inr hx
    · exact fun l del val x hx => hx
    · exact fun l val x hx => hx
    · exact fun l name x hx => hx
  mintCoins := fun _ _ _ => Moves.modify fun _ _ hx => hx
  burnCoins := by
    intro ctx name c
    refine Ledger.moves_get_bind fun l => ?_
    split <;> exact fun x hx => hx
  sendCoinsFromModuleToAccount := by
    intro ctx name addr c
    refine Ledger.moves_get_bind fun l => ?_
    split <;> exact fun x hx => hx
  sendCoinsFromAccountToModule := by
    intro ctx addr name c
    refine Ledger.moves_get_bind fun l => ?_
    split <;> exact fun x hx => hx
  endBlocker := by
    intro ctx
    refine Ledger.moves_get_bind fun l => ?_
    change NoNewHolder LedgerHeld l { l.maturing.foldl Ledger.mature l with maturing := [] }
    rw [Ledger.foldl_mature]
    rintro x (hx | hx)
    · exact .inl hx
    · exact absurd hx List.not_mem_nil
  delegate := fun _ _ _ _ _ h _ _ x hx => ledger_stake_held h x hx
  createValidator := by
    intro ctx msg l u l' h b hb x hx
    obtain ⟨_, l₁, hstake, hmod⟩ := returns_bind.mp h
    obtain rfl := returns_modify.mp hmod
    rw [← show msg.validatorAddress = Ledger.keepers.codec.accString (bytesOf b) from hb]
    exact ledger_stake_held hstake x hx
  newMsgCreateValidator := by
    rintro m _ ⟨⟩
    rfl
  delegations_held := by
    intro ctx val l ds l' h del hdel
    simp only [Ledger.keepers, Ledger.staking, returns_bind, returns_get, returns_pure] at h
    obtain ⟨_, _, ⟨rfl, rfl⟩, rfl, rfl⟩ := h
    exact .inl (List.mem_map_of_mem (List.mem_of_mem_filter hdel))
  unbonded_held := by
    intro ctx l es l' h e he
    simp only [Ledger.keepers, Ledger.staking, returns_bind, returns_get, returns_set,
      returns_pure] at h
    obtain ⟨_, _, ⟨rfl, rfl⟩, _, _, rfl, rfl, rfl⟩ := h
    exact .inr (List.mem_map_of_mem he)

/-- Validator 9 has staked for itself. -/
def selfStakedLedger : Ledger :=
  let val := Ledger.encode (bytesOf (addressOf 9))
  { Ledger.empty with
    validators := [⟨val, false, 0, 1, "", some (pubkeyOf 9)⟩]
    delegations := [⟨val, val, 5⟩] }

/-- Account 1 stakes with validator 9 and unstakes: its withdrawal address is on record, and
the end of the block queues the payment. -/
theorem unstaked_is_paid :
    let deposit : StakingEvent := .deposit ⟨addressOf 1, pubkeyOf 9, 5, 0, 0, addressOf 1⟩
    let unstake : StakingEvent := .withdraw ⟨addressOf 1, pubkeyOf 9, 5, 0, addressOf 1⟩
    let s := effect (initGenesis Ledger.keepers stakingCtx ⟨defaultParams, ⟨0, 0⟩⟩)
      (Store.fresh selfStakedLedger)
    let a := effect (handle Ledger.keepers stakingCtx deposit) s.accounts
    let t := { s with accounts := effect (handle Ledger.keepers stakingCtx unstake) a }
    t.accounts.delegatorWithdrawAddress (Ledger.encode (bytesOf (addressOf 1))) ≠ none ∧
      (effect (endBlock Ledger.keepers stakingCtx) t).withdrawalQueue.len = 1 := by
  intro deposit unstake s a t
  have hgenesis : Returns (initGenesis Ledger.keepers stakingCtx ⟨defaultParams, ⟨0, 0⟩⟩)
      (Store.fresh selfStakedLedger) () s := returns_of_completes (by decide +kernel)
  have hdeposit : Returns (handle Ledger.keepers stakingCtx deposit) s.accounts () a :=
    returns_of_completes (by decide +kernel)
  have hunstake : Returns (handle Ledger.keepers stakingCtx unstake) a () t.accounts :=
    returns_of_completes (by decide +kernel)
  have hrun : Run Ledger.keepers s
      [⟨.event stakingCtx deposit, some []⟩, ⟨.event stakingCtx unstake, some []⟩] t :=
    .snoc (t := { s with accounts := a })
      (.snoc .nil (returns_prog_event.mpr ⟨a, hdeposit, rfl, rfl⟩))
      (returns_prog_event.mpr ⟨t.accounts, hunstake, rfl, rfl⟩)
  have hvals : Returns (Ledger.keepers.staking.getAllValidators stakingCtx) selfStakedLedger
      selfStakedLedger.validators selfStakedLedger := rfl
  have hself : ∀ x, LedgerHeld selfStakedLedger x → ∃ d,
      GenesisValidator Ledger.keepers.codec selfStakedLedger.validators d ∧
        x = Ledger.keepers.codec.accString (bytesOf d) := by
    rintro x (hx | hx)
    · exact ⟨addressOf 9, ⟨_, List.mem_singleton_self _, _, rfl, rfl⟩, List.mem_singleton.mp hx⟩
    · exact absurd hx List.not_mem_nil
  have h := payout_addresses_exist Ledger.keepers LedgerHeld ledger_holderLaws stakingCtx
    ⟨defaultParams, ⟨0, 0⟩⟩ selfStakedLedger selfStakedLedger selfStakedLedger.validators hvals
    (by decide) hself s t _ hgenesis hrun
  exact ⟨(h.1 _ (.inr (by decide +kernel))).1, by decide +kernel⟩

end Story.EvmStaking
