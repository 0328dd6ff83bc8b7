/-
# Story.Contracts.DelegationIds -- a locked stake has a delegation id of its own

The contract counts locked stakes, and a stake is named by the count. The counter goes up
in the middle of a call that later sends value, so the invariant is about the events: the
counter is the number of locked stakes emitted so far, and each event fits the ones before
it. Every function keeps that whatever the code it refunds does, and a call that reverts
takes its counting back with its events.

The consensus layer passes the id on to the staking module, unless the validator takes
locked tokens only. So no two deposits meet in one period delegation, but for flexible
ones.
-/
import Story.Contracts.IPTokenStakingBooks
import Story.EvmStaking.Authorisation

namespace Story.Contracts.IPTokenStaking

open Story.Effect Story.Errors Story.Eth Story.Evm Story.EvmStaking Story.Sdk

variable {I : Immutables} {V : Crypto} {s t : IPTokenStaking}

/-! ## Numbered events -/

/-- The id of a locked stake. -/
def lockedId : StakingEvent → Option Nat
  | .deposit ev => if ev.stakingPeriod = 0 then none else some ev.delegationId
  | _ => none

/-- The ids of the locked stakes, in the order of the events. -/
def lockedIds (events : List StakingEvent) : List Nat := events.filterMap lockedId

/-- The event fits the ones before it: a locked stake has the next id, a flexible one has none,
and who unstakes or redelegates names one that there is, or none. -/
def Follows (before : List StakingEvent) : StakingEvent → Prop
  | .deposit ev =>
      if ev.stakingPeriod = 0 then ev.delegationId = 0
      else ev.delegationId = (lockedIds before).length + 1
  | .withdraw ev => ev.delegationId ≤ (lockedIds before).length
  | .redelegate ev => ev.delegationId ≤ (lockedIds before).length
  | _ => True

/-- Every event fits the ones before it. -/
def WellNumbered (events : List StakingEvent) : Prop :=
  ∀ before e after, events = before ++ e :: after → Follows before e

theorem WellNumbered.snoc {events : List StakingEvent} {e : StakingEvent}
    (h : WellNumbered events) (he : Follows events e) : WellNumbered (events ++ [e]) := by
  intro before e' after heq
  rcases List.eq_nil_or_concat after with rfl | ⟨after, last, rfl⟩
  · obtain ⟨rfl, hlast⟩ := List.append_inj' heq rfl
    obtain rfl := (List.cons.inj hlast).1
    exact he
  · rw [List.concat_eq_append, ← List.cons_append, ← List.append_assoc] at heq
    exact h before e' after (List.append_inj' heq rfl).1

theorem WellNumbered.of_append {events more : List StakingEvent}
    (h : WellNumbered (events ++ more)) : WellNumbered events := by
  intro before e after heq
  exact h before e (after ++ more) (by rw [heq, List.append_assoc, List.cons_append])

/-- **The ids are 1, 2, 3, and so on.** -/
theorem WellNumbered.lockedIds_eq {events : List StakingEvent} (h : WellNumbered events) :
    lockedIds events = List.range' 1 (lockedIds events).length := by
  induction events using List.reverseRecOn with
  | nil => rfl
  | append_singleton events e ih =>
      have hids := ih h.of_append
      have hfollows := h events e [] rfl
      have happend : lockedIds (events ++ [e]) = lockedIds events ++ lockedIds [e] :=
        List.filterMap_append
      rw [happend]
      cases hid : lockedId e with
      | none =>
          have hnil : lockedIds [e] = [] := by simp [lockedIds, hid]
          rw [hnil, List.append_nil]
          exact hids
      | some id =>
          -- only a locked deposit has an id, and it is the next one
          have hone : lockedIds [e] = [id] := by simp [lockedIds, hid]
          have hnext : id = 1 + (lockedIds events).length := by
            cases e with
            | deposit ev =>
                simp only [lockedId] at hid
                simp only [Follows] at hfollows
                split at hid
                · cases hid
                next hlocked =>
                  rw [if_neg hlocked] at hfollows
                  rw [← Option.some.inj hid, hfollows, Nat.add_comm]
            | _ => cases hid
          rw [hone, List.length_append, List.length_singleton, List.range'_concat, ← hids, hnext,
            Nat.one_mul]

/-- An id was issued when it is positive and not above the count. -/
theorem WellNumbered.mem_lockedIds {events : List StakingEvent} (h : WellNumbered events)
    {id : Nat} : id ∈ lockedIds events ↔ 0 < id ∧ id ≤ (lockedIds events).length := by
  rw [h.lockedIds_eq, List.mem_range'_1, List.length_range']
  omega

/-! ## The counter -/

/-- The counter is the number of locked stakes. -/
structure Numbered (s : IPTokenStaking) : Prop where
  counter : s.delegationIdCounter = (lockedIds s.events).length
  events : WellNumbered s.events

theorem Numbered.of_same (h : Numbered s) (hcounter : t.delegationIdCounter = s.delegationIdCounter)
    (hevents : t.events = s.events) : Numbered t where
  counter := by rw [hcounter, hevents, h.counter]
  events := hevents ▸ h.events

/-- A program that touches neither the counter nor the events. -/
theorem numbered_modify {f : IPTokenStaking → IPTokenStaking}
    (hcounter : ∀ s, (f s).delegationIdCounter = s.delegationIdCounter)
    (hevents : ∀ s, (f s).events = s.events) :
    Keeps Numbered (modify f : Tx IPTokenStaking PUnit) :=
  Keeps.modify fun s hs => hs.of_same (hcounter s) (hevents s)

theorem numbered_transfer (recipient : Address) (amount : Nat) :
    Keeps Numbered (transfer recipient amount) := by
  intro s u t hs h
  obtain ⟨_, rfl⟩ := returns_transfer.mp h
  exact hs.of_same rfl rfl

theorem numbered_nonReentrant {body : Tx IPTokenStaking Unit} (hbody : Keeps Numbered body) :
    Keeps Numbered (nonReentrant guard body) :=
  Keeps.bind .readOnly fun _ => Keeps.bind .readOnly fun _ =>
    Keeps.bind (numbered_modify (fun _ => rfl) fun _ => rfl) fun _ =>
      Keeps.bind hbody fun _ => numbered_modify (fun _ => rfl) fun _ => rfl

theorem numbered_chargesFee {value : Nat} {body : Tx IPTokenStaking Unit}
    (hbody : Keeps Numbered body) : Keeps Numbered (chargesFee value body) :=
  Keeps.bind .readOnly fun _ => Keeps.bind .readOnly fun _ =>
    Keeps.bind (numbered_transfer _ _) fun _ => hbody

theorem numbered_refundRemainder {sender : Address} {remainder : Nat}
    {recipient : Tx IPTokenStaking Unit} (hrecipient : Keeps Numbered recipient) :
    Keeps Numbered (refundRemainder sender remainder recipient) :=
  Keeps.bind (.tryCall (Keeps.bind (numbered_transfer _ _) fun _ => hrecipient))
    fun _ => .readOnly

/-- An event that is no locked stake and fits the ones before it. -/
theorem Numbered.emit (h : Numbered s) {e : StakingEvent} (hid : lockedId e = none)
    (hfollows : Follows s.events e) : Numbered { s with events := s.events ++ [e] } where
  counter := by
    show s.delegationIdCounter = (lockedIds (s.events ++ [e])).length
    rw [h.counter, lockedIds, lockedIds, List.filterMap_append]
    simp [hid]
  events := h.events.snoc hfollows

/-- Events that name no delegation. -/
theorem numbered_emit {e : StakingEvent} (hid : lockedId e = none)
    (hfollows : ∀ before, Follows before e) : Keeps Numbered (emit e) :=
  Keeps.modify fun s hs => hs.emit hid (hfollows s.events)

/-! ## Every call -/

/-- **A stake is numbered**: a locked one with the next id, a flexible one with none. -/
theorem numbered_issue {stakingPeriod : StakingPeriod} {event : Nat → Deposit}
    (hperiod : ∀ id, (event id).stakingPeriod = stakingPeriod.code)
    (hid : ∀ id, (event id).delegationId = id) {rest : Tx IPTokenStaking Unit}
    (hrest : Keeps Numbered rest) :
    Keeps Numbered (do
      let delegationId ← nextDelegationId stakingPeriod
      emit (.deposit (event delegationId))
      rest) := by
  intro s u t hs h
  obtain ⟨id, s', hnext, h⟩ := returns_bind.mp h
  obtain ⟨_, s'', hemit, hret⟩ := returns_bind.mp h
  obtain rfl := returns_modify.mp hemit
  refine hrest _ _ _ ?_ hret
  -- a locked stake counts up before its event, and a flexible one does not count
  rcases returns_ite.mp hnext with ⟨hlocked, hnext⟩ | ⟨hflexible, hnext⟩
  · have hcode : (event id).stakingPeriod ≠ 0 := by
      rw [hperiod]
      cases stakingPeriod <;> simp_all [StakingPeriod.code]
    simp only [returns_bind, returns_get, returns_checkedAdd, returns_modify,
      returns_pure] at hnext
    obtain ⟨_, _, ⟨rfl, rfl⟩, _, _, ⟨_, rfl, rfl⟩, _, _, rfl, rfl, rfl⟩ := hnext
    have hevent : lockedId (.deposit (event (s.delegationIdCounter + 1)))
        = some (s.delegationIdCounter + 1) := by
      rw [lockedId, if_neg hcode, hid]
    refine ⟨?_, hs.events.snoc ?_⟩
    · show s.delegationIdCounter + 1 = (lockedIds (s.events ++ [_])).length
      rw [lockedIds, List.filterMap_append, List.length_append, ← lockedIds, ← hs.counter]
      simp [hevent]
    · show if _ then _ else _
      rw [if_neg hcode, hid, hs.counter]
  · obtain ⟨rfl, rfl⟩ := returns_pure.mp hnext
    have hcode : (event 0).stakingPeriod = 0 := by
      rw [hperiod]
      cases stakingPeriod <;> simp_all [StakingPeriod.code]
    refine hs.emit ?_ ?_
    · rw [lockedId, if_pos hcode]
    · show if _ then _ else _
      rw [if_pos hcode, hid]

variable {sender delegator : Address} {value delegationId amount : Nat} {key data : Bytes}
  {recipient : Tx IPTokenStaking Unit}

theorem numbered_stake {stakingPeriod : StakingPeriod} (hrecipient : Keeps Numbered recipient) :
    Keeps Numbered (stake I V sender value delegator key stakingPeriod data recipient) := by
  apply numbered_nonReentrant
  refine Keeps.bind .readOnly fun _ => Keeps.bind .readOnly fun _ => Keeps.bind .readOnly fun _ =>
    Keeps.bind .readOnly fun _ => Keeps.bind .readOnly fun _ => Keeps.bind .readOnly fun _ => ?_
  apply numbered_issue (fun _ => rfl) (fun _ => rfl)
  exact Keeps.bind (numbered_transfer _ _) fun _ =>
    .ite (numbered_refundRemainder hrecipient) .readOnly

theorem numbered_createValidator {args : ValidatorArgs} (hrecipient : Keeps Numbered recipient) :
    Keeps Numbered (createValidator I V sender value args recipient) := by
  refine Keeps.bind .readOnly fun _ => numbered_nonReentrant ?_
  refine Keeps.bind .readOnly fun _ => Keeps.bind .readOnly fun _ => Keeps.bind .readOnly fun _ =>
    Keeps.bind .readOnly fun _ => Keeps.bind .readOnly fun _ => Keeps.bind .readOnly fun _ => ?_
  refine Keeps.bind (numbered_transfer _ _) fun _ => ?_
  exact Keeps.bind (numbered_emit rfl fun _ => trivial) fun _ =>
    .ite (numbered_refundRemainder hrecipient) .readOnly

/-- The fee leaves the counter and the events alone. -/
theorem returns_chargesFee {body : Tx IPTokenStaking Unit} {u : Unit}
    (h : Returns (chargesFee value body) s u t) :
    ∃ s', s'.delegationIdCounter = s.delegationIdCounter ∧ s'.events = s.events ∧
      Returns body s' u t := by
  simp only [chargesFee, returns_bind, returns_get, returns_require, returns_transfer] at h
  obtain ⟨_, _, ⟨rfl, rfl⟩, _, _, ⟨_, rfl⟩, _, s', ⟨_, rfl⟩, hbody⟩ := h
  refine ⟨_, ?_, ?_, hbody⟩
  · rfl
  · rfl

/-- What a request that names a delegation does: the id is not above the counter, and there is
one more event. -/
structure Requested (delegationId : Nat) (e : StakingEvent) (s t : IPTokenStaking) : Prop where
  le : delegationId ≤ s.delegationIdCounter
  counter : t.delegationIdCounter = s.delegationIdCounter
  events : t.events = s.events ++ [e]

theorem returns_unstake {u : Unit}
    (h : Returns (unstake I V sender value delegator key delegationId amount data) s u t) :
    Requested delegationId
      (.withdraw ⟨delegator, key, (roundedStakeAmount amount).1, delegationId, sender⟩) s t := by
  obtain ⟨s', hcounter, hevents, h⟩ := returns_chargesFee h
  simp only [returns_bind, returns_get, returns_require, Crypto.returns_verifyCmpPubkey] at h
  obtain ⟨_, _, ⟨_, rfl⟩, _, _, ⟨rfl, rfl⟩, _, _, ⟨hle, rfl⟩, _, _, ⟨_, rfl⟩, _, _, ⟨_, rfl⟩,
    hemit⟩ := h
  obtain rfl := returns_modify.mp hemit
  exact ⟨hcounter ▸ hle, hcounter, by rw [← hevents]⟩

theorem returns_redelegate {src dst : Bytes} {u : Unit}
    (h : Returns (redelegate V sender value delegator src dst delegationId amount) s u t) :
    Requested delegationId (.redelegate ⟨delegator, src, dst, delegationId, sender,
      (roundedStakeAmount amount).1⟩) s t := by
  obtain ⟨s', hcounter, hevents, h⟩ := returns_chargesFee h
  simp only [returns_bind, returns_get, returns_require, Crypto.returns_verifyCmpPubkey] at h
  obtain ⟨_, _, ⟨_, rfl⟩, _, _, ⟨_, rfl⟩, _, _, ⟨_, rfl⟩, _, _, ⟨_, rfl⟩, _, _, ⟨rfl, rfl⟩, _, _,
    ⟨hle, rfl⟩, _, _, ⟨_, rfl⟩, hemit⟩ := h
  obtain rfl := returns_modify.mp hemit
  exact ⟨hcounter ▸ hle, hcounter, by rw [← hevents]⟩

theorem Requested.numbered {e : StakingEvent} (h : Requested delegationId e s t)
    (hid : lockedId e = none)
    (hfollows : ∀ before, delegationId ≤ (lockedIds before).length → Follows before e)
    (hs : Numbered s) : Numbered t := by
  have hfits : Follows s.events e := hfollows _ (hs.counter ▸ h.le)
  exact (hs.emit hid hfits).of_same h.counter h.events

/-- **Every call** keeps the numbers. -/
theorem numbered_exec {fn : Fn} (hrecipient : Keeps Numbered recipient) :
    Keeps Numbered (exec I V sender value fn recipient) := by
  by_cases hparam : fn.SetsParameter
  · intro s u t hs h
    have hbooks := books_of_exec hparam h
    exact hs.of_same (congrArg Books.delegationIdCounter hbooks) (congrArg Books.events hbooks)
  refine Keeps.bind (numbered_modify (fun _ => rfl) fun _ => rfl) fun _ => ?_
  cases fn with
  | setOperator operator =>
      exact numbered_chargesFee (Keeps.bind .readOnly fun _ => numbered_emit rfl fun _ => trivial)
  | unsetOperator => exact numbered_chargesFee (numbered_emit rfl fun _ => trivial)
  | setWithdrawalAddress newWithdrawalAddress =>
      exact numbered_chargesFee (Keeps.bind .readOnly fun _ => numbered_emit rfl fun _ => trivial)
  | setRewardsAddress newRewardsAddress =>
      exact numbered_chargesFee (Keeps.bind .readOnly fun _ => numbered_emit rfl fun _ => trivial)
  | createValidator args => exact numbered_createValidator hrecipient
  | updateValidatorCommission key rate =>
      exact numbered_chargesFee (Keeps.bind .readOnly fun _ => Keeps.bind .readOnly fun _ =>
        Keeps.bind .readOnly fun _ => numbered_emit rfl fun _ => trivial)
  | stake key period data => exact numbered_stake hrecipient
  | stakeOnBehalf delegator key period data => exact numbered_stake hrecipient
  | redelegate src dst id amount | redelegateOnBehalf delegator src dst id amount =>
      exact fun _ _ _ hs h => (returns_redelegate h).numbered rfl (fun _ hle => hle) hs
  | unstake key id amount data | unstakeOnBehalf delegator key id amount data =>
      exact fun _ _ _ hs h => (returns_unstake h).numbered rfl (fun _ hle => hle) hs
  | unjail key data =>
      exact numbered_chargesFee (Keeps.bind .readOnly fun _ => Keeps.bind .readOnly fun _ =>
        numbered_emit rfl fun _ => trivial)
  | unjailOnBehalf key data =>
      exact numbered_chargesFee (Keeps.bind .readOnly fun _ => Keeps.bind .readOnly fun _ =>
        numbered_emit rfl fun _ => trivial)
  | _ => exact absurd trivial hparam

theorem numbered_perform (script : Script Address Fn) (batch : Option Address) :
    Keeps Numbered ((contract I V).perform batch script) :=
  Contract.perform_keeps (contract I V) (I := fun _ : Unit => Numbered)
    (fun _ _ _ hs => hs.of_same rfl rfl)
    (fun _ _ _ _ hrecipient _ => numbered_exec (hrecipient ())) script batch ()

theorem Reached.numbered {args : InitializerArgs} {script : Script Address Fn}
    (h : Reached I V args script s) : Numbered s := by
  obtain ⟨s₀, hsetUp, hscript⟩ := h
  refine numbered_perform script none _ _ _ ?_ hscript
  have hbooks := books_setUp hsetUp
  have hblank : Numbered blank := ⟨rfl, fun _ _ _ heq => absurd heq (by simp [blank])⟩
  exact hblank.of_same (congrArg Books.delegationIdCounter hbooks) (congrArg Books.events hbooks)

/-! ## Requests -/

/-- The id that an unstake or a redelegation names. -/
def Fn.requestedId : Fn → Option Nat
  | .redelegate _ _ delegationId _ | .redelegateOnBehalf _ _ _ delegationId _ => some delegationId
  | .unstake _ delegationId _ _ | .unstakeOnBehalf _ _ delegationId _ _ => some delegationId
  | _ => none

/-- The id in the event of an unstake or a redelegation. -/
def requestedId : StakingEvent → Option Nat
  | .withdraw ev => some ev.delegationId
  | .redelegate ev => some ev.delegationId
  | _ => none

/-- **A request that succeeds** names no id above the counter. -/
theorem requestedId_le {fn : Fn} (h : Returns (exec I V sender value fn recipient) s () t)
    (hfn : fn.requestedId = some delegationId) : delegationId ≤ s.delegationIdCounter := by
  obtain ⟨_, s', hcredit, hrun⟩ := returns_bind.mp h
  obtain rfl := returns_modify.mp hcredit
  cases fn with
  | redelegate src dst id amount | redelegateOnBehalf delegator src dst id amount =>
      obtain rfl := Option.some.inj hfn
      have hle := (returns_redelegate hrun).le
      exact hle
  | unstake key id amount data | unstakeOnBehalf delegator key id amount data =>
      obtain rfl := Option.some.inj hfn
      have hle := (returns_unstake hrun).le
      exact hle
  | _ => cases hfn

theorem Numbered.zero_or_issued (h : Numbered s) (hle : delegationId ≤ s.delegationIdCounter) :
    delegationId = 0 ∨ delegationId ∈ lockedIds s.events := by
  rw [h.events.mem_lockedIds, ← h.counter]
  omega

/-- The same for the events, each of which is judged by those before it. -/
theorem WellNumbered.zero_or_issued {events before after : List StakingEvent} {e : StakingEvent}
    (h : WellNumbered events) (heq : events = before ++ e :: after)
    (he : requestedId e = some delegationId) :
    delegationId = 0 ∨ delegationId ∈ lockedIds before := by
  have hbefore : WellNumbered before := (heq ▸ h).of_append
  have hfollows := h before e after heq
  rw [hbefore.mem_lockedIds]
  cases e with
  | withdraw ev | redelegate ev =>
      obtain rfl := Option.some.inj he
      simp only [Follows] at hfollows
      omega
  | _ => cases he

/-- A locked stake has an id that no stake before it had. -/
theorem WellNumbered.id_lt {events before after : List StakingEvent} {ev ev' : Deposit}
    (h : WellNumbered events) (heq : events = before ++ .deposit ev :: after)
    (hlocked : ev.stakingPeriod ≠ 0) (hev' : .deposit ev' ∈ before) :
    ev'.delegationId < ev.delegationId := by
  have hbefore : WellNumbered before := (heq ▸ h).of_append
  have hfollows := h before _ after heq
  simp only [Follows, if_neg hlocked] at hfollows
  obtain ⟨first, rest, hsplit⟩ := List.append_of_mem hev'
  have hfollows' := hbefore first _ rest hsplit
  simp only [Follows] at hfollows'
  split at hfollows'
  · omega
  next hlocked' =>
    have hmem : ev'.delegationId ∈ lockedIds before :=
      List.mem_filterMap.mpr ⟨_, hev', by rw [lockedId, if_neg hlocked']⟩
    have := (hbefore.mem_lockedIds.mp hmem).2
    omega

/-! ## The consensus layer -/

section Delegate

variable {W : Type} {K : Keepers W} {ctx : Ctx} {a a' : Accounts W} {ev : Deposit}

/-- The calls of a deposit that ends in `a'`, with the message it puts to `Delegate`. Here
`isLocked` says that the validator takes locked tokens. To such a validator the period is the
flexible one, whatever the event says; to another one it is that of the event. -/
def Delegated (K : Keepers W) (ctx : Ctx) (ev : Deposit) (a a' : Accounts W) (isLocked : Bool)
    (msg : MsgDelegate) : Prop :=
  ∃ addr b₁ lockedTokenType val w₂ w₃ w₄,
    K.codec.decompressToAddress ev.validatorCmpPubkey = .ok addr ∧
    Returns (ensureAccount K ctx (bytesOf ev.delegator)) ⟨a, a⟩ () b₁ ∧
    Returns (K.staking.getLockedTokenType ctx) b₁.copy.sdk lockedTokenType w₂ ∧
    Returns (K.staking.getValidator ctx (bytesOf addr)) w₂ val w₃ ∧
    isLocked = decide (val.supportTokenType = lockedTokenType) ∧
    (if isLocked then
      Returns (K.staking.getFlexiblePeriodType ctx) w₃ msg.periodType w₄ ∧
        msg.periodDelegationID = K.staking.flexiblePeriodDelegationID
    else w₃ = w₄ ∧ msg.periodType = toInt32 ev.stakingPeriod ∧
        msg.periodDelegationID = toString ev.delegationId) ∧
    StakeCalls K Eq ctx (bytesOf ev.delegator) ev.stakeAmount (K.staking.delegate ctx msg) w₄ a'.sdk

/-- **A deposit that succeeds** has called `Delegate`. -/
theorem exists_delegated (h : Returns (processDeposit K ctx ev) a () a') :
    ∃ isLocked msg, Delegated K ctx ev a a' isLocked msg := by
  obtain ⟨b, hb, rfl⟩ := returns_cacheContext.mp h
  obtain ⟨pk, hpk, hrest⟩ := ReadOnly.returns_bind_iff.mp hb
  obtain ⟨addr, haddr, hrest'⟩ := ReadOnly.returns_bind_iff.mp hrest
  obtain ⟨_, rfl, _⟩ := returns_pubKeyBytesToCosmos.mp (returns_wrapErr.mp hpk)
  obtain ⟨haddr, _⟩ := returns_cosmosPubkeyToEVMAddress.mp (returns_wrapErr.mp haddr)
  obtain ⟨bond, hbond, hcalls⟩ := ReadOnly.returns_bind_iff.mp hrest'
  obtain ⟨rfl, _⟩ := returns_ipTokenToBondCoin.mp hbond
  obtain ⟨_, b₁, haccount, h₁⟩ := returns_bind.mp hcalls
  obtain ⟨locked, b₂, hlocked, h₂⟩ := returns_bind.mp h₁
  obtain ⟨val, b₃, hval, h₃⟩ := returns_bind.mp h₂
  obtain ⟨period, b₄, hperiod, h₄⟩ := returns_bind.mp h₃
  rcases returns_ite.mp h₄ with ⟨_, hfail⟩ | ⟨_, h₅⟩
  · exact absurd hfail returns_fail
  obtain ⟨_, b₅, hdefaults, hstake⟩ := returns_bind.mp h₅
  obtain ⟨_, e₅⟩ := returns_setDefaultAddresses hdefaults
  have hstake := returns_stakeCalls (Q := Eq) hstake e₅.symm
  simp only [returns_wrapErr, returns_classify, returns_cachedCtx, returns_call,
    Accounts.view_sdk, Accounts.put_sdk] at hlocked hval
  obtain ⟨_, ⟨w₂, hlocked, rfl⟩, rfl⟩ := hlocked
  obtain ⟨_, ⟨w₃, hval, rfl⟩, rfl⟩ := hval
  refine ⟨decide (val.supportTokenType = locked), _, addr, b₁, locked, val, w₂, w₃, b₄.copy.sdk,
    haddr, haccount, hlocked, hval, rfl, ?_, hstake⟩
  -- the token type of the validator decides about the period and the id
  unfold depositPeriod at hperiod
  split at hperiod
  next his =>
    rw [if_pos his]
    simp only [returns_bind, returns_wrapErr, returns_cachedCtx, returns_call, returns_pure,
      Accounts.view_sdk, Accounts.put_sdk] at hperiod
    obtain ⟨flex, _, ⟨_, ⟨w₄, hflex, rfl⟩, rfl⟩, rfl, rfl⟩ := hperiod
    exact ⟨hflex, rfl⟩
  next hnot =>
    rw [if_neg hnot]
    obtain ⟨rfl, rfl⟩ := returns_pure.mp hperiod
    exact ⟨rfl, rfl, rfl⟩

/-- The id of a delegation is that of its event, or the flexible one. -/
theorem Delegated.periodDelegationID {isLocked : Bool} {msg : MsgDelegate}
    (h : Delegated K ctx ev a a' isLocked msg) :
    msg.periodDelegationID = if isLocked then K.staking.flexiblePeriodDelegationID
      else toString ev.delegationId := by
  obtain ⟨_, _, _, _, _, _, _, _, _, _, _, _, hperiod, _⟩ := h
  cases isLocked with
  | true => exact hperiod.2
  | false => exact hperiod.2.2

/-- Two deposits with different ids never meet in one delegation, when the later one is locked
and the flexible id is no positive number. -/
theorem Delegated.id_ne {ctx' : Ctx} {b b' : Accounts W} {ev' : Deposit} {isLocked' : Bool}
    {msg msg' : MsgDelegate} (h : Delegated K ctx ev a a' false msg)
    (h' : Delegated K ctx' ev' b b' isLocked' msg')
    (hflexible : ∀ n : Nat, 0 < n → K.staking.flexiblePeriodDelegationID ≠ toString n)
    (hlt : ev'.delegationId < ev.delegationId) :
    msg'.periodDelegationID ≠ msg.periodDelegationID := by
  rw [h.periodDelegationID, h'.periodDelegationID]
  cases isLocked' with
  | true => exact hflexible _ (Nat.zero_lt_of_lt hlt)
  | false => exact fun heq => hlt.ne (Nat.repr_inj.mp heq)

end Delegate

/-- **A locked stake never merges with another one.** In every state the contract reaches the
ids of the locked stakes are 1, 2, 3, and so on, and the flexible ones have the id 0; an
unstake or a redelegation, a call from here as well as one inside a refund before, names 0 or
an id issued before it. A deposit that the consensus layer takes has called `Delegate`: to a
validator of locked tokens with the flexible id and period, and to another one, when the stake
is locked, with an id that no deposit before it can have used. -/
theorem locked_stakes_never_merge {args : InitializerArgs} {script : Script Address Fn}
    (h : Reached I V args script s) :
    lockedIds s.events = List.range' 1 s.delegationIdCounter ∧
      (∀ ev, .deposit ev ∈ s.events → ev.stakingPeriod = 0 → ev.delegationId = 0) ∧
      (∀ before e after id, s.events = before ++ e :: after → requestedId e = some id →
        id = 0 ∨ id ∈ lockedIds before) ∧
      (∀ sender value fn reaction t id,
        Returns (exec I V sender value fn ((contract I V).perform none reaction)) s () t →
          fn.requestedId = some id → id = 0 ∨ id ∈ lockedIds s.events) ∧
      ∀ before ev after, s.events = before ++ .deposit ev :: after →
        ∀ (W : Type) (K : Keepers W) (ctx : Ctx) (a a' : Accounts W),
          (∀ n : Nat, 0 < n → K.staking.flexiblePeriodDelegationID ≠ toString n) →
          Returns (handle K ctx (StakingEvent.deposit ev).inGwei) a () a' →
          ∃ isLocked msg,
            Delegated K ctx { ev with stakeAmount := ev.stakeAmount / gwei } a a' isLocked msg ∧
            (isLocked = false → ev.stakingPeriod ≠ 0 → ∀ ev', .deposit ev' ∈ before →
              ∀ ctx' b b' isLocked' msg',
                Delegated K ctx' { ev' with stakeAmount := ev'.stakeAmount / gwei } b b' isLocked'
                  msg' → msg'.periodDelegationID ≠ msg.periodDelegationID) := by
  have hnumbered := h.numbered
  refine ⟨?_, ?_, ?_, ?_, ?_⟩
  · rw [hnumbered.counter]
    exact hnumbered.events.lockedIds_eq
  · intro ev hev hflexible
    obtain ⟨before, after, heq⟩ := List.append_of_mem hev
    have hfollows := hnumbered.events before _ after heq
    simpa only [Follows, if_pos hflexible] using hfollows
  · intro before e after id heq he
    exact hnumbered.events.zero_or_issued heq he
  · intro sender value fn reaction t id hcall hfn
    exact hnumbered.zero_or_issued (requestedId_le hcall hfn)
  · intro before ev after heq W K ctx a a' hflexible hhandle
    obtain ⟨isLocked, msg, hmsg⟩ := exists_delegated hhandle
    refine ⟨isLocked, msg, hmsg, ?_⟩
    rintro rfl hlocked ev' hev' ctx' b b' isLocked' msg' hmsg'
    have hlt := hnumbered.events.id_lt heq hlocked hev'
    exact hmsg.id_ne hmsg' hflexible hlt

/-- Two locked stakes. The caller of the second one unstakes the first from within the refund. -/
def lockedTwice : Script Address Fn :=
  let sender := sampleCrypto.holder evenKey
  .call sender (2 * gwei) (.stake evenKey .SHORT []) .done <|
    .call sender (3 * gwei + 5) (.stakeOnBehalf (addressOf 1) evenKey .LONG [])
      (.call sender gwei (.unstake evenKey 1 gwei []) .done .done)
      .done

/-- The validator of these stakes takes tokens that are not locked. -/
def openAccounts : Accounts Ledger :=
  let val := Ledger.encode (bytesOf (bytesToAddress evenKey))
  { stakedAccounts with
    sdk := { stakedLedger with validators := [⟨val, false, 1, 1, "", some evenKey⟩] } }

theorem second_stake_apart :
    let sender := sampleCrypto.holder evenKey
    let first : Deposit := ⟨sender, evenKey, 2 * gwei, 1, 1, sender⟩
    let second : Deposit := ⟨addressOf 1, evenKey, 3 * gwei, 3, 2, sender⟩
    ∃ s, Reached sampleImmutables sampleCrypto sampleArgs lockedTwice s ∧
      s.events = [.deposit first, .deposit second, .withdraw ⟨sender, evenKey, gwei, 1, sender⟩] ∧
      lockedIds s.events = List.range' 1 s.delegationIdCounter ∧
      ∃ a' isLocked msg, Delegated Ledger.keepers stakingCtx { second with stakeAmount := 3 }
        openAccounts a' isLocked msg := by
  intro sender first second
  have heval : ((finalState (setUp sampleImmutables sampleArgs) blank).bind fun s₀ =>
      (finalState ((contract sampleImmutables sampleCrypto).perform none lockedTwice) s₀)).map
        (fun s => s.events)
      = some [.deposit first, .deposit second,
          .withdraw ⟨sender, evenKey, gwei, 1, sender⟩] := by decide +kernel
  obtain ⟨s, hs, hevents⟩ := Option.map_eq_some_iff.mp heval
  obtain ⟨s₀, hs₀, hs⟩ := Option.bind_eq_some_iff.mp hs
  have hreached : Reached sampleImmutables sampleCrypto sampleArgs lockedTwice s :=
    ⟨s₀, returns_of_finalState hs₀, returns_of_finalState hs⟩
  have hdeposit : (outcome (handle Ledger.keepers stakingCtx (StakingEvent.deposit second).inGwei)
      openAccounts).map (fun _ => ()) = some () := by decide +kernel
  obtain ⟨_, a', hdeposit, _⟩ := returns_of_outcome hdeposit
  have hflexible (n : Nat) (hn : 0 < n) : "0" ≠ toString n := by
    intro heq
    have hzero := Nat.repr_inj.mp (show Nat.repr 0 = Nat.repr n from heq)
    omega
  obtain ⟨hids, _, _, _, hcl⟩ := locked_stakes_never_merge hreached
  obtain ⟨isLocked, msg, hmsg, _⟩ := hcl [.deposit first] second _ hevents Ledger Ledger.keepers
    stakingCtx openAccounts a' hflexible hdeposit
  have hgwei : second.stakeAmount / gwei = 3 := by decide
  rw [hgwei] at hmsg
  exact ⟨s, hreached, hevents, hids, a', isLocked, msg, hmsg⟩

end Story.Contracts.IPTokenStaking
