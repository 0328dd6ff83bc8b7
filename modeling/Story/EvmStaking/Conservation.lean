/-
# Story.EvmStaking.Conservation -- bond coins are conserved

A coin of the execution layer that is staked becomes a bond coin; a bond coin that is burned
becomes a queued withdrawal, and in the end a withdrawal of a payload. So the supply of bond
coins, the amounts that wait in the two queues and the amounts handed out so far change together
only when a staking event mints.

That every payment burns what it queues is a fact about the machine of
`Story.EvmStaking.Payments`. That what is queued waits until it is handed out is a fact about the
queues, and holds while they have keys left: with 2^64 withdrawals waiting a queue looks empty.
-/
import Story.EvmStaking.Payments
import Story.EvmStaking.Genesis
import Story.EvmStaking.Run
import Story.Sdk.LedgerLaws

namespace Story.EvmStaking

open Story.Effect Story.Errors Story.Sdk Story.Collections Story.Eth

variable {W : Type} {K : Keepers W} {ctx : Ctx} {s t : Store W}

/-! ## Amounts -/

/-- The amounts of some withdrawals together. -/
def sumAmounts (l : List Withdrawal) : Int := (l.map fun w => (w.amount.toNat : Int)).sum

@[simp] theorem sumAmounts_nil : sumAmounts [] = 0 := rfl

@[simp] theorem sumAmounts_append (l l' : List Withdrawal) :
    sumAmounts (l ++ l') = sumAmounts l + sumAmounts l' := by
  simp [sumAmounts]

/-- The amounts of some withdrawals of a payload together. -/
def sumEth (l : List Eth.Withdrawal) : Int := (l.map fun w => (w.amount.toNat : Int)).sum

theorem sumEth_numbered (codec : Codec) (n : Nat) (l : List Withdrawal) :
    sumEth (numbered codec n l) = sumAmounts l := by
  induction l generalizing n with
  | nil => rfl
  | cons w l ih => simpa [sumEth, sumAmounts, numbered, toEthWithdrawal] using ih (n + 1)

/-! ## Every payment burns what it queues -/

/-- **What is relied on**: the bank makes and destroys bond coins only when it mints and burns,
and the UBI withdrawal hands over the balance that was reported. -/
structure SupplyLaws (K : Keepers W) (supply : W → Int) : Prop where
  quiet : Quiet K (Same supply)
  mintCoins : ∀ ctx name coins w w', Returns (K.bank.mintCoins ctx name coins) w () w' →
    supply w' = supply w + coins defaultBondDenom
  burnCoins : ∀ ctx name coins w w', Returns (K.bank.burnCoins ctx name coins) w () w' →
    supply w' = supply w - coins defaultBondDenom
  sendToAccount : ∀ ctx name addr coins w w',
    Returns (K.bank.sendCoinsFromModuleToAccount ctx name addr coins) w () w' → supply w' = supply w
  sendToModule : ∀ ctx addr name coins w w',
    Returns (K.bank.sendCoinsFromAccountToModule ctx addr name coins) w () w' → supply w' = supply w
  delegate : ∀ ctx msg w w', Returns (K.staking.delegate ctx msg) w () w' → supply w' = supply w
  createValidator : ∀ ctx msg w w',
    Returns (K.staking.createValidator ctx msg) w () w' → supply w' = supply w
  ubi : ∀ ctx denom name w balance w₁ coin w₂,
    Returns (K.distr.getUbiBalanceByDenom ctx denom) w balance w₁ →
    Returns (K.distr.withdrawUbiByDenomToModule ctx denom name) w₁ coin w₂ →
    coin = ⟨denom, balance⟩

/-- A payment is in one of the two queues. -/
theorem sumAmounts_withdrawal (p : Option Payment) :
    sumAmounts (p.map Payment.withdrawal).toList =
      sumAmounts (toWithdrawalQueue [p]) + sumAmounts (toRewardQueue [p]) := by
  rcases p with _ | p
  · rfl
  · cases p with
    | principal entry withdrawal => exact (add_zero (sumAmounts [withdrawal])).symm
    | reward line withdrawal => exact (zero_add (sumAmounts [withdrawal])).symm
    | ubi withdrawal => exact (add_zero (sumAmounts [withdrawal])).symm

/-- A step that burns exactly what it queues: nothing, or the amount of one withdrawal. -/
def Matched (supply : W → Int) (p : Option Payment) (s t : Store W) : Prop :=
  supply t.accounts.sdk + sumAmounts (p.map Payment.withdrawal).toList = supply s.accounts.sdk ∧
    Pushes p s t

section Supply

variable {supply : W → Int} (laws : SupplyLaws K supply)

include laws

theorem Burns.supply_eq {addr : Bytes} {coins : Coins} {w w' : W}
    (h : Burns K ctx addr coins w w') :
    supply w' = supply w - coins defaultBondDenom := by
  obtain ⟨w₁, hsend, hburn⟩ := h
  rw [laws.burnCoins _ _ _ _ _ hburn, laws.sendToModule _ _ _ _ _ _ hsend]

/-- **Every payment burns what it queues.** -/
theorem Payment.Burned.supply_eq {p : Payment} {w : W} (h : p.Burned K ctx s w) :
    supply w + p.withdrawal.amount.toNat = supply s.accounts.sdk := by
  cases p with
  | principal entry withdrawal =>
      obtain ⟨addr, val, evm, amount, _, _, _, _, hburns, rfl⟩ := h
      have := hburns.supply_eq laws
      simp only [newCoins, if_true] at this
      show supply w + (amount.toNat : Int) = _
      omega
  | reward line withdrawal =>
      obtain ⟨delegator, addr, val, evm, coins, amount, _, _, _, hcoins, hburns, rfl⟩ := h
      have := hburns.supply_eq laws
      show supply w + (amount.toNat : Int) = _
      omega
  | ubi withdrawal =>
      obtain ⟨balance, coin, w₁, w₂, amount, hbalance, hcoin, hburn, hamount, rfl⟩ := h
      have h₁ : supply w₁ = supply s.accounts.sdk :=
        (laws.quiet.getUbiBalanceByDenom ctx _).returns _ _ _ hbalance
      have h₂ : supply w₂ = supply w₁ :=
        (laws.quiet.withdrawUbiByDenomToModule ctx _ _).returns _ _ _ hcoin
      have h₃ := laws.burnCoins _ _ _ _ _ hburn
      rw [laws.ubi _ _ _ _ _ _ _ _ hbalance hcoin] at h₃
      simp only [newCoins, if_true] at h₃
      show supply w + (amount.toNat : Int) = _
      omega

theorem PayStep.matched {p : Option Payment} (h : PayStep K (Same supply) ctx p s t) :
    Matched supply p s t := by
  refine ⟨?_, h.pushes⟩
  rcases p with _ | p
  · obtain ⟨w, index, hw, rfl⟩ := h
    have hsame : supply w = supply s.accounts.sdk := hw
    simpa [Store.withSdk] using hsame
  · obtain ⟨w, hburned, rfl⟩ := h
    have hsettle : (s.settle w p).accounts.sdk = w := by cases p <;> rfl
    rw [hsettle]
    simpa [sumAmounts] using Payment.Burned.supply_eq laws hburned

/-- **The end of a block** is a run of such steps. -/
theorem endBlockWithdrawals_matched {entries : List UnbondedEntry}
    (h : Returns (endBlockWithdrawals K ctx entries) s () t) :
    ∃ ps, Trace (Matched supply) s ps t := by
  have := laws.quiet
  obtain ⟨pairs, s', _, hprincipals, ps, hrest, _⟩ :=
    endBlockWithdrawals_pays (Q := Same supply) h
  refine ⟨_, ((hprincipals.append hrest).refine id (f := fun p => [p]) ?_)⟩
  intro p t u hstep
  exact Trace.nil.snoc (hstep.matched laws)

end Supply

/-! ## Runs -/

/-- The end of a block on entries that have come due, whatever the staking module has done to let
them come due. -/
def endBlockOn (K : Keepers W) (due : Ctx × List UnbondedEntry) : Prog (Store W) Unit :=
  endBlockWithdrawals K due.1 due.2

/-- A step of the module in which bond coins may be made, burned, queued or handed out. -/
abbrev Deal := Step (Ctx × List UnbondedEntry)

theorem takes_blockEnd {entries : List UnbondedEntry}
    (h : Returns (endBlockWithdrawals K ctx entries) s () t) :
    Step.Takes K (endBlockOn K) ⟨.blockEnd (ctx, entries), some []⟩ s t :=
  returns_prog_blockEnd.mpr ⟨h, rfl⟩

/-- What an event that is handled mints. -/
def StakingEvent.mints : StakingEvent → Nat
  | .deposit ev => ev.stakeAmount
  | .createValidator ev => ev.stakeAmount
  | _ => 0

theorem mints_of_not_stakes {e : StakingEvent} (h : ¬ e.Stakes) : e.mints = 0 := by
  cases e with
  | deposit ev => exact absurd trivial h
  | createValidator ev => exact absurd trivial h
  | _ => rfl

theorem mints_of_stakes {e : StakingEvent} (h : e.Stakes) : e.mints = e.amount := by
  cases e with
  | deposit ev => rfl
  | createValidator ev => rfl
  | _ => exact absurd h id

def Action.mints {β : Type} : Action β → Nat
  | .event _ ev => ev.mints
  | _ => 0

/-- What the successful steps of a run have minted, in all. -/
def minted (steps : List Deal) : Int :=
  (steps.map fun a => if a.result.isSome then (a.action.mints : Int) else 0).sum

/-- What a run has handed out, in all. -/
def handedOut (steps : List Deal) : Int := (steps.map fun a => sumEth (a.result.getD [])).sum

theorem handedOut_some (action : Action (Ctx × List UnbondedEntry)) (out : List Eth.Withdrawal) :
    handedOut [⟨action, some out⟩] = sumEth out := by
  simp [handedOut]

theorem minted_some (action : Action (Ctx × List UnbondedEntry)) (out : List Eth.Withdrawal) :
    minted [⟨action, some out⟩] = action.mints := by
  simp [minted]

/-- What waits in the two queues. -/
def Store.queued (s : Store W) : Int :=
  sumAmounts s.withdrawalQueue.waiting + sumAmounts s.rewardWithdrawalQueue.waiting

/-- Fewer than 2^64 withdrawals wait in each queue. -/
def Store.Intact (s : Store W) : Prop :=
  (∃ n l, s.withdrawalQueue.Ring n l) ∧ ∃ n l, s.rewardWithdrawalQueue.Ring n l

/-- The step leads from `s` to `t`, and both queues are intact then. -/
def TakesIntact (K : Keepers W) (a : Deal) (s t : Store W) : Prop :=
  a.Takes K (endBlockOn K) s t ∧ t.Intact

section Steps

variable {supply : W → Int} (laws : SupplyLaws K supply)

/-- Dequeuing hands out what it takes from the queue. -/
theorem dequeueEligible_sum {codec : Codec} {q q' : Queue Withdrawal} {n : Nat}
    {l : List Withdrawal} (hq : q.Ring n l) {maxDequeue : UInt32} {out : List Eth.Withdrawal}
    (h : Returns (dequeueEligible codec maxDequeue) q out q') :
    sumAmounts q'.waiting + sumEth out = sumAmounts q.waiting := by
  obtain ⟨q₁, h₁, hq₁⟩ := dequeueEligible_ring codec hq maxDequeue
  obtain ⟨rfl, rfl⟩ := h₁.unique h
  rw [hq₁.waiting_eq, hq.waiting_eq, sumEth_numbered, add_comm, ← sumAmounts_append,
    List.take_append_drop]

include laws

/-- A staking event changes the supply by what it mints. -/
theorem handle_supply {ev : StakingEvent} {a a' : Accounts W}
    (h : Returns (handle K ctx ev) a () a') : supply a'.sdk = supply a.sdk + ev.mints := by
  have := laws.quiet
  have hquiet (hev : ¬ ev.Stakes) : supply a'.sdk = supply a.sdk + ev.mints := by
    have hsame : supply a'.sdk = supply a.sdk := handle_quiet (Q := Same supply) hev h
    simpa [mints_of_not_stakes hev] using hsame
  have hstake {addr : Bytes} {amount : Nat} {delegate : SdkProg W Unit}
      (hcalls : StakeCalls K (Same supply) ctx addr amount delegate a.sdk a'.sdk)
      (hdelegate : ∀ w w', Returns delegate w () w' → supply w' = supply w) :
      supply a'.sdk = supply a.sdk + amount := by
    obtain ⟨w₁, w₂, w₃, h₁, hmint, hsend, hdel⟩ := hcalls
    have h₁ : supply w₁ = supply a.sdk := h₁
    have h₂ := laws.mintCoins _ _ _ _ _ hmint
    simp only [newCoins, if_true] at h₂
    rw [hdelegate _ _ hdel, laws.sendToAccount _ _ _ _ _ _ hsend, h₂, h₁]
  cases ev with
  | deposit ev =>
      obtain ⟨msg, _, _, hcalls⟩ := processDeposit_calls (Q := Same supply) h
      exact hstake hcalls (laws.delegate ctx msg)
  | createValidator ev =>
      obtain ⟨d, m, msg, _, _, _, _, hcalls⟩ := processCreateValidator_calls (Q := Same supply) h
      exact hstake hcalls (laws.createValidator ctx msg)
  | _ => exact hquiet id

omit laws in
/-- A run of matched steps between states whose queues are intact. -/
theorem matched_conserves {ps : List (Option Payment)} (h : Trace (Matched supply) s ps t)
    (hs : s.Intact) (ht : t.Intact) :
    supply t.accounts.sdk + t.queued = supply s.accounts.sdk + s.queued := by
  obtain ⟨hw, hr⟩ := queues_of_payments (fun _ _ _ h => h.2) h
  have hburned : supply t.accounts.sdk + sumAmounts (toWithdrawalQueue ps) +
      sumAmounts (toRewardQueue ps) = supply s.accounts.sdk := by
    refine h.invariant (I := fun ps t => supply t.accounts.sdk + sumAmounts (toWithdrawalQueue ps) +
      sumAmounts (toRewardQueue ps) = supply s.accounts.sdk) (by simp [toWithdrawalQueue,
        toRewardQueue]) ?_
    intro ps p t u ih hstep
    have hp := sumAmounts_withdrawal p
    have hstep := hstep.1
    simp only [toWithdrawalQueue, toRewardQueue, List.filterMap_append, sumAmounts_append]
      at ih hp ⊢
    omega
  obtain ⟨⟨n, l, hl⟩, m, r, hr₀⟩ := hs
  obtain ⟨⟨n', l', hl'⟩, m', r', hr'⟩ := ht
  rw [hw] at hl'
  rw [hr] at hr'
  rw [Store.queued, Store.queued, hw, hr, hl.waiting_pushAll hl', hr₀.waiting_pushAll hr',
    sumAmounts_append, sumAmounts_append]
  omega

/-- **One step** changes the three sums together by what it mints. -/
theorem takes_conserves {a : Deal} (h : a.Takes K (endBlockOn K) s t) (hs : s.Intact)
    (ht : t.Intact) :
    supply t.accounts.sdk + t.queued + handedOut [a] =
      supply s.accounts.sdk + s.queued + minted [a] := by
  obtain ⟨action, result⟩ := a
  cases result with
  | none =>
      -- it stopped and was rolled back
      obtain ⟨_, rfl⟩ := h
      simp [handedOut, minted, sumEth]
  | some out =>
      have h : Returns (action.prog K (endBlockOn K)) s out t := h
      rw [handedOut_some, minted_some]
      cases action with
      | event ctx ev =>
          obtain ⟨a, ha, rfl, rfl⟩ := returns_prog_event.mp h
          have hsupply : supply a.sdk = supply s.accounts.sdk + ev.mints := handle_supply laws ha
          show supply a.sdk + s.queued + 0 = supply s.accounts.sdk + s.queued + ev.mints
          omega
      | blockEnd due =>
          obtain ⟨hend, rfl⟩ := returns_prog_blockEnd.mp h
          -- what is burned is queued
          obtain ⟨ps, hps⟩ := endBlockWithdrawals_matched laws hend
          have hqueued := matched_conserves hps hs ht
          show _ + 0 = _ + ((0 : Nat) : Int)
          omega
      | dequeueWithdrawals maxDequeue =>
          obtain ⟨q, hq, rfl⟩ := returns_zoom.mp h
          obtain ⟨⟨n, l, hl⟩, _⟩ := hs
          have htaken : sumAmounts q.waiting + sumEth out = sumAmounts s.withdrawalQueue.waiting :=
            dequeueEligible_sum hl hq
          show supply s.accounts.sdk +
              (sumAmounts q.waiting + sumAmounts s.rewardWithdrawalQueue.waiting) + _ =
            supply s.accounts.sdk + (sumAmounts s.withdrawalQueue.waiting +
              sumAmounts s.rewardWithdrawalQueue.waiting) + ((0 : Nat) : Int)
          omega
      | dequeueRewardWithdrawals maxDequeue =>
          obtain ⟨q, hq, rfl⟩ := returns_zoom.mp h
          obtain ⟨_, n, l, hl⟩ := hs
          have htaken : sumAmounts q.waiting + sumEth out =
              sumAmounts s.rewardWithdrawalQueue.waiting := dequeueEligible_sum hl hq
          show supply s.accounts.sdk +
              (sumAmounts s.withdrawalQueue.waiting + sumAmounts q.waiting) + _ =
            supply s.accounts.sdk + (sumAmounts s.withdrawalQueue.waiting +
              sumAmounts s.rewardWithdrawalQueue.waiting) + ((0 : Nat) : Int)
          omega

end Steps

/-! ## The ledger conserves coins -/

theorem ledger_supplyLaws : SupplyLaws Ledger.keepers Ledger.supply where
  quiet := Ledger.quiet (fun _ _ => rfl) (fun _ _ _ => rfl) (fun _ _ _ _ => rfl)
    (fun _ _ _ => rfl) (fun _ _ => rfl) (fun _ _ => rfl)
  mintCoins := fun _ _ _ _ _ h => congrArg Ledger.supply (Ledger.returns_mintCoins h)
  burnCoins := fun _ _ _ _ _ h => congrArg Ledger.supply (Ledger.returns_burnCoins.mp h).2
  sendToAccount := by
    intro ctx _ _ coins l l' h
    rw [(Ledger.returns_sendToAccount.mp h).2]
    rfl
  sendToModule := by
    intro ctx _ _ coins l l' h
    rw [(Ledger.returns_sendToModule.mp h).2]
    rfl
  delegate := by
    intro ctx msg l l' h
    rw [Ledger.returns_stake h]
    rfl
  createValidator := by
    intro ctx msg l l' h
    obtain ⟨validators, rfl⟩ := Ledger.returns_createValidator h
    rfl
  ubi := by
    intro ctx denom name l balance l₁ coin l₂ hget hwithdraw
    obtain ⟨_, hl, h⟩ := ReadOnly.returns_bind_iff.mp hget
    obtain ⟨rfl, _⟩ := returns_get.mp hl
    obtain ⟨rfl, rfl⟩ := returns_pure.mp h
    obtain ⟨_, _, hl, h⟩ := returns_bind.mp hwithdraw
    obtain ⟨rfl, rfl⟩ := returns_get.mp hl
    rcases returns_ite.mp h with ⟨hbond, h⟩ | ⟨hother, h⟩
    · obtain ⟨_, _, _, h⟩ := returns_bind.mp h
      obtain ⟨rfl, _⟩ := returns_pure.mp h
      rw [if_pos hbond]
    · obtain ⟨rfl, _⟩ := returns_pure.mp h
      rw [if_neg hother]

/-- A block before v1.2.1. -/
def earlyCtx : Ctx := ⟨Netconf.testChainID, 1, 0, [], .finalize⟩

/-- Account 1 has unbonded from validator 2. -/
def unbonded (amount : UInt64) : UnbondedEntry :=
  ⟨Ledger.encode [1], Ledger.encode [2], amount.toNat⟩

/-- A ledger in which account 1 has a delegation to validator 2 left. -/
def oneDelegation (balance : Bytes → Int) (pool : String → Int) (supply : Int) : Ledger :=
  { Ledger.empty with
    balance := balance
    pool := pool
    supply := supply
    delegations := [⟨Ledger.encode [1], Ledger.encode [2], 1⟩] }

/-- A store with some withdrawals queued. -/
def backlog (l : Ledger) (q : Queue Withdrawal) (journal : List LogLine) : Store Ledger where
  accounts :=
    { delegatorWithdrawAddress := fun _ => some "0x01"
      delegatorRewardAddress := fun _ => some "0x01"
      delegatorOperatorAddress := fun _ => none
      sdk := l }
  params := some defaultParams
  validatorSweepIndex := some ⟨0, 0⟩
  withdrawalQueue := q
  rewardWithdrawalQueue := ⟨some 0, some 0, fun _ => none⟩
  journal := journal

/-- The withdrawal for the entry. -/
def unbondedWithdrawal (amount : UInt64) : Withdrawal :=
  ⟨1, "0x01", amount, .unstake, Ledger.encode [2]⟩

section Backlog

variable {b : Bytes → Int} {p : String → Int} {n : Int} {q : Queue Withdrawal}
  {j : List LogLine} {amount : UInt64}

theorem burns_oneDelegation (hbalance : amount.toNat ≤ b [1]) (hpool : 0 ≤ p moduleName) :
    Burns Ledger.keepers earlyCtx [1] (newCoins ⟨defaultBondDenom, amount.toNat⟩)
      (oneDelegation b p n)
      (oneDelegation (Function.update b [1] (b [1] - amount.toNat)) p (n - amount.toNat)) := by
  have hcoins : newCoins ⟨defaultBondDenom, amount.toNat⟩ defaultBondDenom = amount.toNat := by
    simp [newCoins]
  refine ⟨_, Ledger.returns_sendToModule.mpr ⟨?_, rfl⟩, Ledger.returns_burnCoins.mpr ⟨?_, ?_⟩⟩
  · rw [hcoins]
    exact not_lt.mpr hbalance
  · rw [hcoins]
    simp [Ledger.payModule, Ledger.pay, oneDelegation, hpool]
  · rw [hcoins]
    simp [Ledger.payModule, Ledger.pay, oneDelegation, sub_eq_add_neg]

theorem returns_unstakePrincipal_backlog {l l' : Ledger}
    (hburns : Burns Ledger.keepers earlyCtx [1] (newCoins ⟨defaultBondDenom, amount.toNat⟩) l l') :
    Returns (unstakePrincipal Ledger.keepers earlyCtx (unbonded amount)) (backlog l q j) ()
      (backlog l' (q.push (unbondedWithdrawal amount))
        (j ++ [.unstake (Ledger.encode [1]) (Ledger.encode [2]) amount.toNat])) := by
  obtain ⟨l₁, hsend, hburn⟩ := hburns
  simp only [unstakePrincipal, getWithdrawAddress, returns_bind, returns_wrapErr, returns_debug,
    returns_convert, returns_bech32ValidatorAddressToEvmAddress, returns_getEntry, returns_uint64,
    returns_ipTokenToBondCoin, returns_call, returns_addWithdrawalToQueue]
  exact ⟨(), _, rfl, [1], _, ⟨congrArg Except.ok (Ledger.decode_encode [1]), rfl⟩, _, _,
    ⟨[2], congrArg Except.ok (Ledger.decode_encode [2]), rfl, rfl⟩, "0x01", _, ⟨rfl, rfl⟩, amount,
    _, ⟨rfl, rfl⟩, _, _, ⟨rfl, rfl⟩, (), _, ⟨l₁, hsend, rfl⟩, (), _, ⟨l', hburn, rfl⟩, rfl⟩

/-- Before v1.2.1 the residue is left alone. -/
theorem returns_unstakeResidue_backlog :
    Returns (unstakeResidue Ledger.keepers earlyCtx (unbonded amount))
      (backlog (oneDelegation b p n) q j) () (backlog (oneDelegation b p n) q j) := by
  have hstaked : Returns (isTotallyUnstaked Ledger.keepers earlyCtx [1] [2])
      (backlog (oneDelegation b p n) q j) false (backlog (oneDelegation b p n) q j) := by rfl
  have hdel : Ledger.keepers.codec.accAddressFromBech32 (unbonded amount).delegatorAddress =
      .ok [1] := congrArg Except.ok (Ledger.decode_encode [1])
  have hval : Ledger.keepers.codec.valAddressFromBech32 (unbonded amount).validatorAddress =
      .ok [2] := congrArg Except.ok (Ledger.decode_encode [2])
  simp only [unstakeResidue, returns_bind, returns_wrapErr, returns_convert, returns_ofExcept,
    returns_bech32ValidatorAddressToEvmAddress]
  exact ⟨[1], _, ⟨hdel, rfl⟩, [2], _, ⟨hval, rfl⟩, _, _, ⟨[2], hval, rfl, rfl⟩, false, _, hstaked,
    (), _, returns_onlyIf.mpr (.inr ⟨by simp, rfl⟩), false, _, ⟨by decide, rfl⟩, by simp⟩

/-- A block with one entry: its amount is burned and queued. -/
theorem returns_blockEnd_backlog (amount : UInt64) (hbalance : amount.toNat ≤ b [1])
    (hpool : 0 ≤ p moduleName) :
    ∃ j', Returns (endBlockWithdrawals Ledger.keepers earlyCtx [unbonded amount])
      (backlog (oneDelegation b p n) q j) ()
      (backlog
        (oneDelegation (Function.update b [1] (b [1] - amount.toNat)) p (n - amount.toNat))
        (q.push (unbondedWithdrawal amount)) j') := by
  refine ⟨j ++ [.unstake (Ledger.encode [1]) (Ledger.encode [2]) amount.toNat],
    Returns.bind (a := ()) (returns_wrapErr.mpr (Returns.bind (a := ()) (returns_forM_cons.mpr
      ⟨_, returns_unstakePrincipal_backlog (burns_oneDelegation hbalance hpool),
        returns_forM_nil.mpr rfl⟩)
      (returns_forM_cons.mpr ⟨_, returns_unstakeResidue_backlog, returns_forM_nil.mpr rfl⟩))) ?_⟩
  rfl

end Backlog

/-- **Bond coins are conserved** over every run whose queues stay intact: the supply, what waits
in the queues and what was handed out change together by what the staking events mint. Each end
of a block is a run of steps that burn the amount of one withdrawal and queue it, or burn and
queue nothing. -/
theorem bond_coins_conserved {supply : W → Int} (laws : SupplyLaws K supply) {steps : List Deal}
    (hs : s.Intact) (h : Trace (TakesIntact K) s steps t) :
    supply t.accounts.sdk + t.queued + handedOut steps =
        supply s.accounts.sdk + s.queued + minted steps ∧
      ∀ ctx entries s t, Returns (endBlockWithdrawals K ctx entries) s () t →
        ∃ ps, Trace (Matched supply) s ps t := by
  refine ⟨?_, fun ctx entries s t hend => endBlockWithdrawals_matched laws hend⟩
  suffices H : t.Intact ∧ supply t.accounts.sdk + t.queued + handedOut steps =
      supply s.accounts.sdk + s.queued + minted steps from H.2
  refine h.invariant (I := fun steps t => t.Intact ∧
    supply t.accounts.sdk + t.queued + handedOut steps =
      supply s.accounts.sdk + s.queued + minted steps) ⟨hs, by simp [handedOut, minted]⟩ ?_
  rintro steps a t u ⟨ht, ih⟩ ⟨hstep, hu⟩
  have hone := takes_conserves laws hstep ht hu
  refine ⟨hu, ?_⟩
  simp only [handedOut, minted, List.map_append, List.sum_append] at ih hone ⊢
  omega

/-- Both queues after genesis. -/
def emptyQueue : Queue Withdrawal := ⟨some 0, some 0, fun _ => none⟩

theorem ring_emptyQueue : emptyQueue.Ring 0 [] := Queue.holds_initial.toRing

/-- Three of five coins are unbonded, and handed out. -/
theorem three_of_five_handed_out :
    ∃ steps t, Trace (TakesIntact Ledger.keepers)
        (backlog (oneDelegation (fun _ => 5) 0 5) emptyQueue []) steps t ∧
      handedOut steps = 3 ∧ t.accounts.sdk.supply + t.queued = 2 := by
  obtain ⟨j, hblock⟩ := returns_blockEnd_backlog (b := fun _ => 5) (p := 0) (n := 5)
    (q := emptyQueue) (j := []) 3 (by decide) (by decide)
  have hring := ring_emptyQueue.push (unbondedWithdrawal 3) (by decide)
  obtain ⟨q, hdequeue, hring'⟩ := dequeueEligible_ring Ledger.codec hring 1
  let blockEnd : Deal := ⟨.blockEnd (earlyCtx, [unbonded 3]), some []⟩
  let dequeue : Deal :=
    ⟨.dequeueWithdrawals 1, some (numbered Ledger.codec 0 [unbondedWithdrawal 3])⟩
  have hfirst : Trace (TakesIntact Ledger.keepers)
      (backlog (oneDelegation (fun _ => 5) 0 5) emptyQueue []) [blockEnd] _ :=
    Trace.nil.snoc ⟨takes_blockEnd hblock, ⟨_, _, hring⟩, _, _, ring_emptyQueue⟩
  have hrun := hfirst.snoc (a := dequeue)
    ⟨returns_zoom.mpr ⟨q, hdequeue, rfl⟩, ⟨_, _, hring'⟩, _, _, ring_emptyQueue⟩
  have hhanded : handedOut ([blockEnd] ++ [dequeue]) = 3 := by decide
  have hminted : minted ([blockEnd] ++ [dequeue]) = 0 := by decide
  have hconserved := (bond_coins_conserved ledger_supplyLaws
    ⟨⟨_, _, ring_emptyQueue⟩, _, _, ring_emptyQueue⟩ hrun).1
  have hstart : (backlog (oneDelegation (fun _ => 5) 0 5) emptyQueue []).queued = 0 := by
    rw [Store.queued, show (backlog (oneDelegation (fun _ => 5) 0 5) emptyQueue
      []).withdrawalQueue.waiting = [] from ring_emptyQueue.waiting_eq,
      show (backlog (oneDelegation (fun _ => 5) 0 5) emptyQueue
      []).rewardWithdrawalQueue.waiting = [] from ring_emptyQueue.waiting_eq]
    rfl
  have hsupply : (backlog (oneDelegation (fun _ => 5) 0 5) emptyQueue []).accounts.sdk.supply =
    5 := rfl
  refine ⟨_, _, hrun, hhanded, ?_⟩
  omega

/-- Blocks that unbond nothing still queue a withdrawal of zero. -/
theorem exists_zero_blocks (n : Nat) : ∃ steps j, minted steps = 0 ∧ handedOut steps = 0 ∧
    Trace (Step.Takes Ledger.keepers (endBlockOn Ledger.keepers))
      (backlog (oneDelegation (fun _ => 1) 0 1) emptyQueue []) steps
      (backlog (oneDelegation (fun _ => 1) 0 1)
        (emptyQueue.pushAll (List.replicate n (unbondedWithdrawal 0))) j) := by
  induction n with
  | zero => exact ⟨[], [], rfl, rfl, .nil⟩
  | succ n ih =>
      obtain ⟨steps, j, hminted, hhanded, hrun⟩ := ih
      obtain ⟨j', hblock⟩ := returns_blockEnd_backlog (b := fun _ => 1) (p := 0) (n := 1)
        (q := emptyQueue.pushAll (List.replicate n (unbondedWithdrawal 0))) (j := j) 0
        (by decide) (by decide)
      have hsame : oneDelegation (Function.update (fun _ => 1) [1] (1 - (0 : UInt64).toNat)) 0
          (1 - (0 : UInt64).toNat) = oneDelegation (fun _ => 1) 0 1 := by
        simp
      rw [hsame, ← Queue.pushAll_concat, ← List.replicate_succ'] at hblock
      refine ⟨steps ++ [⟨.blockEnd (earlyCtx, [unbonded 0]), some []⟩], j', ?_, ?_,
        hrun.snoc (takes_blockEnd hblock)⟩
      · simpa [minted, Action.mints] using hminted
      · simpa [handedOut, sumEth] using hhanded

/-- **Without the bound a coin is lost.** With 2^64 - 1 withdrawals waiting, the next one makes
the queue look empty: a coin is burned, and nothing waits for it. -/
theorem burned_coin_lost : ∃ steps t,
    Trace (Step.Takes Ledger.keepers (endBlockOn Ledger.keepers))
      (backlog (oneDelegation (fun _ => 1) 0 1) emptyQueue []) steps t ∧
    minted steps = 0 ∧ handedOut steps = 0 ∧
    (backlog (oneDelegation (fun _ => 1) 0 1) emptyQueue []).accounts.sdk.supply = 1 ∧
    t.accounts.sdk.supply = 0 ∧ t.withdrawalQueue.waiting = [] ∧
    t.rewardWithdrawalQueue.waiting = [] := by
  obtain ⟨steps, j, hminted, hhanded, hrun⟩ := exists_zero_blocks (2 ^ 64 - 1)
  obtain ⟨j', hblock⟩ := returns_blockEnd_backlog (b := fun _ => 1) (p := 0) (n := 1)
    (q := emptyQueue.pushAll (List.replicate (2 ^ 64 - 1) (unbondedWithdrawal 0))) (j := j)
    1 (by decide) (by decide)
  have hring : (emptyQueue.pushAll (List.replicate (2 ^ 64 - 1) (unbondedWithdrawal 0))).Ring 0
      ([] ++ List.replicate (2 ^ 64 - 1) (unbondedWithdrawal 0)) := by
    apply ring_emptyQueue.pushAll
    rw [List.length_replicate]
    decide
  refine ⟨steps ++ [⟨.blockEnd (earlyCtx, [unbonded 1]), some []⟩], _,
    hrun.snoc (takes_blockEnd hblock), ?_, ?_, rfl, rfl, ?_, ring_emptyQueue.waiting_eq⟩
  · simpa [minted, Action.mints] using hminted
  · simpa [handedOut, sumEth] using hhanded
  · apply hring.waiting_push_full
    rw [List.nil_append, List.length_replicate]
    decide

end Story.EvmStaking
