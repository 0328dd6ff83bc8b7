/-
# Story.App.Bridge -- the two layers hold the same coins

A coin leaves the execution layer when the deposit contract burns it, and comes back as a
withdrawal of a payload. In between it is a bond coin. Nothing but the logs of the contract and
the withdrawals of the payloads connects the layers, and each is looked after elsewhere: the
contract burns what its events stake, the logs reach the handlers once and in order, a handler
mints the amount of its event, the end of a block burns what it queues, a payload takes out of the
queues what it pays. Here they are put together, over runs of the whole chain with inflation,
slashing and events that are refused. A run is one in which fewer than 2^64 withdrawals enter
each queue (`InRange`) and the mint module goes on minting the bond denomination
(`MintsBondCoins`).
-/
import Story.App.Singularity
import Story.Contracts.EmittedEvents
import Story.EvmEngine.EventDelivery

namespace Story.App.Bridge

open Story.Effect Story.Errors Story.Sdk Story.Eth Story.Evm Story.EvmEngine Story.Contracts
open Story.App.Singularity (nodeLens mintLens sdkOf staked supply_applyPayload)
open Story.Contracts.IPTokenStaking (stakedBy burnedBy stakedBy_append Reached WellFormed)
open Story.EvmStaking (StakingEvent StakingContract GenesisState Accounts gwei handle sumAmounts
  sumEth)

variable {W : Type}

/-! ## The logs of the contract -/

/-- The logs of some blocks are those of the events, in their order, and others whose first topic
the `switch` does not know. -/
inductive Logged (C : StakingContract) : List Eth.Log → List StakingEvent → Prop
  | nil : Logged C [] []
  | event {l : Eth.Log} {topics : List Hash} {e : StakingEvent} {ls : List Eth.Log}
      {evs : List StakingEvent} (htopics : l.topics = C.eventID e :: topics)
      (hreads : C.Reads l e) (hrest : Logged C ls evs) : Logged C (l :: ls) (e :: evs)
  | foreign {l : Eth.Log} {ls : List Eth.Log} {evs : List StakingEvent}
      (hforeign : ∀ topic ∈ l.topics.head?, topic ∉ C.eventIDs) (hrest : Logged C ls evs) :
      Logged C (l :: ls) evs

theorem parse_eq_none {C : StakingContract} {topic : Hash} {l : Eth.Log}
    (h : topic ∉ C.eventIDs) : C.parse topic l = none := by
  simp only [StakingContract.eventIDs, List.mem_cons, List.not_mem_nil, or_false, not_or] at h
  simp [StakingContract.parse, h]

/-- **The dispatcher finds the events of the contract in the logs**, with their amounts in gwei. -/
theorem stakingEventsIn_of_logged {C : StakingContract} (hids : C.eventIDs.Nodup)
    {ls : List Eth.Log} {evs : List StakingEvent} (h : Logged C ls evs) :
    stakingEventsIn C ls = evs.map StakingEvent.inGwei := by
  induction h with
  | nil => rfl
  | event htopics hreads _ ih =>
      have hparse := StakingContract.parse_of_reads hids hreads
      rw [stakingEventsIn, eventsIn] at ih ⊢
      simp [htopics, hparse, Except.toOption, ih]
  | @foreign l ls evs hforeign _ ih =>
      rw [stakingEventsIn, eventsIn] at ih ⊢
      rw [List.filterMap_cons_none, ih]
      cases htopics : l.topics with
      | nil => rfl
      | cons topic topics =>
          have hnone := parse_eq_none (l := l) (hforeign topic (by simp [htopics]))
          simp [hnone]

/-- What a checked event stakes is a whole number of gwei. -/
theorem mints_inGwei {V : Crypto} {e : StakingEvent} (h : WellFormed V e) :
    gwei * e.inGwei.mints = e.mints := by
  cases e with
  | createValidator ev => exact Nat.mul_div_cancel' h.2.2.1
  | deposit ev => exact Nat.mul_div_cancel' h.2.2.1
  | _ => rfl

theorem stakedBy_inGwei {V : Crypto} {evs : List StakingEvent} (h : ∀ e ∈ evs, WellFormed V e) :
    gwei * stakedBy (evs.map StakingEvent.inGwei) = stakedBy evs := by
  induction evs with
  | nil => rfl
  | cons e evs ih =>
      have he := mints_inGwei (h e (by simp))
      have hevs := ih fun e' he' => h e' (by simp [he'])
      simp only [stakedBy, List.map_cons, List.sum_cons, Nat.mul_add] at hevs ⊢
      rw [he, hevs]

/-! ## What is refused -/

/-- The amounts of the staking events whose handler fails, when they are handled one after the
other from `a` on: the contract has burned them, and nothing is minted for them. -/
def refused (K : Keepers W) (ctx : Ctx) : Accounts W → List StakingEvent → Nat
  | _, [] => 0
  | a, ev :: evs =>
      (if completes (handle K ctx ev) a then 0 else ev.mints) +
        refused K ctx (effect (handle K ctx ev) a) evs

theorem staked_add_refused (K : Keepers W) (ctx : Ctx) (a : Accounts W)
    (evs : List StakingEvent) : staked K ctx a evs + refused K ctx a evs = stakedBy evs := by
  induction evs generalizing a with
  | nil => rfl
  | cons ev evs ih =>
      have hrest := ih (effect (handle K ctx ev) a)
      simp only [staked, refused, stakedBy, List.map_cons, List.sum_cons] at hrest ⊢
      split <;> omega

/-! ## Steps of the chain -/

/-- The parts of a block. A finalized payload comes with the payload it brought, and with what
its events staked and what of them was refused; what the other modules do comes with the coins
that are burned by slashing. -/
inductive Step
  | beginBlock (ctx : Ctx)
  | payload (E : Engine) (fuel : Nat) (ctx : Ctx) (msg : MsgExecutionPayload)
      (accepted : ExecutableData) (staked refused : Nat)
  | endBlock (ctx : Ctx)
  | other (burned : Nat)

namespace Step

def staked : Step → Nat
  | .payload _ _ _ _ _ staked _ => staked
  | _ => 0

def refused : Step → Nat
  | .payload _ _ _ _ _ _ refused => refused
  | _ => 0

def slashed : Step → Nat
  | .other burned => burned
  | _ => 0

/-- What a payload credits on the execution layer. -/
def credited : Step → Int
  | .payload _ _ _ _ accepted _ _ => sumEth ((accepted.withdrawals.getD []).filterMap id)
  | _ => 0

/-- The step as the head sees it. -/
def headStep : Step → HeadStep
  | .payload E fuel ctx msg accepted _ _ => .finalize E fuel ctx msg (some accepted)
  | _ => .other

end Step

/-- The node that voted had the head and the evmstaking store of `n`, up to the accounts, which the
begin blockers write after the vote. -/
def SameBooks (v n : Node W) : Prop :=
  v.store.head = n.store.head ∧
    ∃ a, v.store.evmstaking = { n.store.evmstaking with accounts := a }

/-- Every coin of the mint module is a bond coin. -/
def MintsBondCoins (c : Singularity.Chain W) : Prop :=
  ∀ p ∈ c.mintParams, p.mintDenom = defaultBondDenom

/-- Fewer than 2^64 withdrawals have entered each queue. -/
def InRange (c : Singularity.Chain W) : Prop :=
  (∃ n l, c.node.store.evmstaking.withdrawalQueue.Holds n l) ∧
    ∃ n l, c.node.store.evmstaking.rewardWithdrawalQueue.Holds n l

/-- The step leads from `c` to `c'`. A payload that is finalized has got the vote of a node whose
client reads the logs of the chain. The other modules may do to their stores, and a parameter
change to the parameters, what they like, but they burn what they say and make no coins. -/
def Step.Runs (A : Wiring W) (M : Mint.Keeper W) (quo : Mint.Quo) (logs : Hash → List Eth.Log)
    (supply : W → Int) : Step → Singularity.Chain W → Singularity.Chain W → Prop
  | .beginBlock ctx, c, c' =>
      Returns (zoom mintLens (M.beginBlocker ctx (Mint.defaultInflationCalculationFn quo))) c () c'
  | .payload E fuel ctx msg accepted amount lost, c, c' =>
      let a := c.node.store.evmstaking.accounts
      let evs := A.stakingContract.eventsOf msg.prevPayloadEvents
      parseAndVerifyProposedPayload A ctx c.node.store.head msg = .ok accepted ∧
        (∃ d, Returns (zoom nodeLens (msgExecutionPayload A E fuel ctx msg)) c d c') ∧
        amount = Singularity.staked A.keepers ctx a evs ∧
        lost = Bridge.refused A.keepers ctx a evs ∧
        ∃ E' fuel' mode v v', E'.ReadsLogs logs ∧ SameBooks v c.node ∧
          Returns (proposalExecutionPayload A E' fuel' { ctx with execMode := mode } msg) v () v'
  | .endBlock ctx, c, c' =>
      Returns (zoom (nodeLens.comp evmstakingLens) (EvmStaking.endBlock A.keepers ctx)) c () c' ∧
        InRange c'
  | .other burned, c, c' =>
      c'.node.store.head = c.node.store.head ∧
        c'.node.store.evmstaking.withdrawalQueue = c.node.store.evmstaking.withdrawalQueue ∧
        c'.node.store.evmstaking.rewardWithdrawalQueue =
          c.node.store.evmstaking.rewardWithdrawalQueue ∧
        MintsBondCoins c' ∧ c'.mintEvents = c.mintEvents ∧
        supply (sdkOf c'.node) + burned = supply (sdkOf c.node)

/-! ## What each part does to the coins -/

/-- **What is relied on**: the laws of the bank and the staking module, also for the end blocker of
the staking module and for the calls of the mint module. -/
structure Laws (K : Keepers W) (M : Mint.Keeper W) (supply : W → Int) : Prop
    extends Singularity.Laws K supply where
  endBlocker : ∀ ctx, Moves (Same supply) (K.staking.endBlockerWithUnbondedEntries ctx)
  mintHeight : ∀ ctx, Moves (Same supply) (M.getSingularityHeight ctx)
  mintBank : ∀ ctx name coins w w', Returns (M.bankMintCoins ctx name coins) w () w' →
    supply w' = supply w + coins defaultBondDenom
  mintSend : ∀ ctx sender recipient coins w w',
    Returns (M.sendCoinsFromModuleToModule ctx sender recipient coins) w () w' →
      supply w' = supply w

/-- What waits in the queues of a chain. -/
def queued (c : Singularity.Chain W) : Int := c.node.store.evmstaking.queued

theorem queued_eq {c : Singularity.Chain W} {n m : Nat} {l r : List EvmStaking.Withdrawal}
    (hl : c.node.store.evmstaking.withdrawalQueue.Holds n l)
    (hr : c.node.store.evmstaking.rewardWithdrawalQueue.Holds m r) :
    queued c = sumAmounts l + sumAmounts r := by
  rw [queued, EvmStaking.Store.queued, hl.toRing.waiting_eq, hr.toRing.waiting_eq]

section Parts

variable {A : Wiring W} {K : Keepers W} {M : Mint.Keeper W} {quo : Mint.Quo} {supply : W → Int}
  {ctx : Ctx}

instance readOnly_defaultInflationCalculationFn {σ : Type} (params : Mint.Params) :
    ReadOnly (Mint.defaultInflationCalculationFn quo params : Prog σ Int) := by
  unfold Mint.defaultInflationCalculationFn
  split
  · infer_instance
  · split <;> infer_instance

theorem returns_mintNewCoin {σ : Type} {denom : String} {amount : Int} {s t : σ} {coin : Coin}
    (h : Returns (M.newCoin denom amount) s coin t) : coin = ⟨denom, amount⟩ ∧ t = s := by
  unfold Mint.Keeper.newCoin at h
  split at h
  · exact absurd h returns_goPanic
  · obtain ⟨_, rfl, rfl⟩ := returns_newCoin.mp h
    exact ⟨rfl, rfl⟩

/-- **The beginning of a block** makes what the mint module reports. -/
theorem supply_beginBlocker (laws : Laws K M supply) {s t : Mint.Store W}
    (hdenom : ∀ p ∈ s.params, p.mintDenom = defaultBondDenom)
    (h : Returns (M.beginBlocker ctx (Mint.defaultInflationCalculationFn quo)) s () t) :
    t.params = s.params ∧ supply t.sdk + s.events.sum = supply s.sdk + t.events.sum := by
  obtain ⟨height, s₁, hheight, h⟩ := returns_bind.mp h
  obtain ⟨w, hw, rfl⟩ := returns_call.mp hheight
  have hw : supply w = supply s.sdk := (laws.mintHeight ctx).returns _ _ _ hw
  rcases returns_ite.mp h with ⟨_, h⟩ | ⟨_, h⟩
  · -- the singularity is not over
    obtain ⟨_, rfl⟩ := returns_pure.mp h
    refine ⟨rfl, ?_⟩
    show supply w + s.events.sum = supply s.sdk + s.events.sum
    rw [hw]
  obtain ⟨params, s₂, hparams, h⟩ := returns_bind.mp h
  obtain ⟨rfl, hp⟩ : s₂ = { s with sdk := w } ∧ s.params = some params := by
    obtain ⟨_, _, hget, hparams⟩ := returns_bind.mp hparams
    obtain ⟨rfl, rfl⟩ := returns_get.mp hget
    split at hparams
    · exact absurd hparams returns_fail
    next p hsome =>
      obtain ⟨rfl, rfl⟩ := returns_pure.mp hparams
      exact ⟨rfl, hsome⟩
  obtain ⟨amount, _, h⟩ := ReadOnly.returns_bind_iff.mp h
  obtain ⟨coin, s₃, hcoin, h⟩ := returns_bind.mp h
  obtain ⟨rfl, rfl⟩ := returns_mintNewCoin hcoin
  obtain ⟨_, s₄, hmint, h⟩ := returns_bind.mp h
  obtain ⟨minted, hminted, rfl⟩ := Mint.returns_mintCoins.mp hmint
  obtain ⟨_, s₅, hsend, h⟩ := returns_bind.mp h
  obtain ⟨sent, hsent, rfl⟩ := returns_call.mp hsend
  obtain rfl := returns_modify.mp h
  have hbond : params.mintDenom = defaultBondDenom := hdenom params (by simp [hp])
  have hmade : supply minted = supply w + Mint.truncateInt amount := by
    split at hminted
    next hzero =>
      have hzero : Mint.truncateInt amount = 0 := hzero
      rw [hzero, add_zero, ← hminted]
    · have hcoins := laws.mintBank _ _ _ _ _ hminted
      simpa [newCoins, hbond] using hcoins
  have hpaid : supply sent = supply minted := laws.mintSend _ _ _ _ _ _ hsent
  refine ⟨rfl, ?_⟩
  show supply sent + s.events.sum = supply s.sdk + (s.events ++ [Mint.truncateInt amount]).sum
  rw [hpaid, hmade, hw, List.sum_append, List.sum_singleton]
  ring

/-- **The end of a block** queues what it burns. -/
theorem supply_endBlock (laws : Laws K M supply) {s t : EvmStaking.Store W} (hs : s.Intact)
    (ht : t.Intact) (h : Returns (EvmStaking.endBlock K ctx) s () t) :
    supply t.accounts.sdk + t.queued = supply s.accounts.sdk + s.queued := by
  have hquiet := laws.quiet
  obtain ⟨singular, s₁, hsingular, h⟩ := returns_bind.mp h
  obtain ⟨height, s₂, hheight, hret⟩ := returns_bind.mp hsingular
  obtain ⟨w, hw, rfl⟩ := returns_call.mp hheight
  obtain ⟨_, rfl⟩ := returns_pure.mp hret
  have hw : supply w = supply s.accounts.sdk :=
    (hquiet.getSingularityHeight ctx).returns _ _ _ hw
  rcases returns_ite.mp h with ⟨_, h⟩ | ⟨_, h⟩
  · obtain ⟨_, rfl⟩ := returns_pure.mp h
    show supply w + s.queued = _
    rw [hw]
  obtain ⟨entries, s₃, hentries, h⟩ := returns_bind.mp h
  obtain ⟨w', hw', rfl⟩ := returns_call.mp (returns_wrapErr.mp hentries)
  have hw' : supply w' = supply w :=
    (laws.endBlocker ctx).returns _ _ _ hw'
  obtain ⟨ps, hps⟩ := EvmStaking.endBlockWithdrawals_matched laws.toSupplyLaws h
  have hconserved : supply t.accounts.sdk + t.queued = supply w' + s.queued :=
    EvmStaking.matched_conserves hps hs ht
  rw [hconserved, hw', hw]

/-- A vote has compared the withdrawals of the payload with what is due. -/
theorem withdrawals_of_vote {E : Engine} {fuel : Nat} {msg : MsgExecutionPayload}
    {v v' : Node W} {n m : Nat} {l r : List EvmStaking.Withdrawal}
    (hl : v.store.evmstaking.withdrawalQueue.Holds n l)
    (hr : v.store.evmstaking.rewardWithdrawalQueue.Holds m r)
    (h : Returns (proposalExecutionPayload A E fuel ctx msg) v () v') :
    ∃ payload, parseAndVerifyProposedPayload A ctx v.store.head msg = .ok payload ∧
      payload.withdrawals.getD [] =
        ((dequeuedOf A.keepers.codec v.store.evmstaking n m l r).withdrawals ++
          (dequeuedOf A.keepers.codec v.store.evmstaking n m l r).rewardWithdrawals).map some := by
  obtain ⟨node, _, hget, h⟩ := returns_bind.mp h
  obtain ⟨rfl, rfl⟩ := returns_get.mp hget
  split at h
  · exact absurd h returns_fail
  simp only [returns_bind, returns_wrapErr, returns_ofExcept, returns_zoom] at h
  obtain ⟨payload, _, ⟨hparse, rfl⟩, _, _, ⟨s, hcompare, rfl⟩, _⟩ := h
  exact ⟨payload, hparse, ((returns_compareWithdrawals A.keepers.codec hl hr).mp hcompare).1⟩

/-- What a payload credits is what is due, as the vote saw the same queues. -/
theorem credited_of_vote {E : Engine} {fuel : Nat} {msg : MsgExecutionPayload}
    {accepted : ExecutableData} {mode : ExecMode} {node v v' : Node W} {n m : Nat}
    {l r : List EvmStaking.Withdrawal} (hl : node.store.evmstaking.withdrawalQueue.Holds n l)
    (hr : node.store.evmstaking.rewardWithdrawalQueue.Holds m r) (hbooks : SameBooks v node)
    (hparse : parseAndVerifyProposedPayload A ctx node.store.head msg = .ok accepted)
    (hvote : Returns (proposalExecutionPayload A E fuel { ctx with execMode := mode } msg) v ()
      v') :
    sumEth ((accepted.withdrawals.getD []).filterMap id) =
      sumAmounts (due (maxOf node.store.evmstaking) l) +
        sumAmounts (dueRewards (maxOf node.store.evmstaking) l r) := by
  obtain ⟨hhead, a, hstore⟩ := hbooks
  have hl' : v.store.evmstaking.withdrawalQueue.Holds n l := by
    rw [hstore]
    exact hl
  have hr' : v.store.evmstaking.rewardWithdrawalQueue.Holds m r := by
    rw [hstore]
    exact hr
  obtain ⟨payload, hparse', hpaid⟩ := withdrawals_of_vote hl' hr' hvote
  obtain rfl : accepted = payload := by
    rw [hhead] at hparse'
    exact Except.ok.inj (hparse.symm.trans hparse')
  have hmax : maxOf v.store.evmstaking = maxOf node.store.evmstaking := by
    rw [hstore]
    rfl
  have hids (ws : List Eth.Withdrawal) : (ws.map some).filterMap id = ws := by
    simp [List.filterMap_map]
  rw [hpaid, hids, ← EvmStaking.sumEth_numbered A.keepers.codec n,
    ← EvmStaking.sumEth_numbered A.keepers.codec m]
  simp [dequeuedOf, hmax, sumEth]

/-- What is due is what no longer waits. -/
theorem sumAmounts_due (max : UInt32) (l r : List EvmStaking.Withdrawal) :
    sumAmounts (l.drop max.toNat) + sumAmounts (r.drop (max.toNat - (due max l).length)) +
        (sumAmounts (due max l) + sumAmounts (dueRewards max l r)) =
      sumAmounts l + sumAmounts r := by
  have hl : sumAmounts (due max l) + sumAmounts (l.drop max.toNat) = sumAmounts l := by
    rw [← EvmStaking.sumAmounts_append, due, List.take_append_drop]
  have hr : sumAmounts (dueRewards max l r) +
      sumAmounts (r.drop (max.toNat - (due max l).length)) = sumAmounts r := by
    rw [← EvmStaking.sumAmounts_append, dueRewards, List.take_append_drop]
  omega

/-- **A finalized payload** pays what it takes out of the queues, and its events stake what they
stake. -/
theorem supply_payload (laws : Laws A.keepers M supply) {logs : Hash → List Eth.Log} {E : Engine}
    {fuel : Nat} {msg : MsgExecutionPayload} {accepted : ExecutableData} {amount lost : Nat}
    {c c' : Singularity.Chain W} (hc : InRange c)
    (h : (Step.payload E fuel ctx msg accepted amount lost).Runs A M quo logs supply c c') :
    InRange c' ∧ c'.mintParams = c.mintParams ∧ c'.mintEvents = c.mintEvents ∧
      supply (sdkOf c'.node) + queued c' +
          (Step.payload E fuel ctx msg accepted amount lost).credited =
        supply (sdkOf c.node) + queued c + amount := by
  obtain ⟨hparse, ⟨d, hzoom⟩, hamount, _, E', fuel', mode, v, v', _, hbooks, hvote⟩ := h
  obtain ⟨⟨n, l, hl⟩, m, r, hr⟩ := hc
  have hcredited := credited_of_vote hl hr hbooks hparse hvote
  obtain ⟨node, hmsg, rfl⟩ := returns_zoom.mp hzoom
  obtain ⟨_, payload, t, _, hdequeue, happly⟩ := returns_msgExecutionPayload.mp hmsg
  obtain ⟨q, q', hq, hq', hspec⟩ := dequeueProposed_spec A.keepers.codec hl hr
  obtain ⟨_, _, rfl⟩ := (hspec _ _ _).mp hdequeue
  have hframe := (applyPayload_frame happly).1
  have hfirst : (nodeLens.put node c).node.store.evmstaking.withdrawalQueue = q := by
    show node.store.evmstaking.withdrawalQueue = q
    rw [hframe]
    rfl
  have hsecond : (nodeLens.put node c).node.store.evmstaking.rewardWithdrawalQueue = q' := by
    show node.store.evmstaking.rewardWithdrawalQueue = q'
    rw [hframe]
    rfl
  rw [← hfirst] at hq
  rw [← hsecond] at hq'
  have hstaked := supply_applyPayload laws.toLaws happly
  have hsupply : supply (sdkOf node) = supply (sdkOf c.node) + amount := by
    rw [hamount]
    exact hstaked
  refine ⟨⟨⟨_, _, hq⟩, _, _, hq'⟩, rfl, rfl, ?_⟩
  have hdue := sumAmounts_due (maxOf c.node.store.evmstaking) l r
  rw [queued_eq hq hq', queued_eq hl hr, Step.credited, hcredited]
  show supply (sdkOf node) + _ + _ = _
  omega

end Parts

/-! ## Runs -/

/-- The chain right after genesis; the first block of the execution layer has the given hash. -/
structure Starts (A : Wiring W) (gs : GenesisState) (executionBlockHash : Bytes) (w : W)
    (c : Singularity.Chain W) : Prop where
  modules : Singularity.Starts A gs w c
  head : ∃ s, Returns (insertGenesisHead executionBlockHash) s () c.node.store
  denom : MintsBondCoins c

/-- **The invariant**: where the bond coins are that were there at genesis, were staked or were
made by the mint module, and that every staking event handled was staked or refused. -/
structure Balanced (C : StakingContract) (supply : W → Int) (w : W) (steps : List Step)
    (c : Singularity.Chain W) : Prop where
  inRange : InRange c
  denom : MintsBondCoins c
  books : supply (sdkOf c.node) + queued c + (steps.map Step.credited).sum +
      (steps.map Step.slashed).sum =
    supply w + c.mintEvents.sum + (steps.map Step.staked).sum
  handled : (steps.map Step.staked).sum + (steps.map Step.refused).sum =
    stakedBy ((steps.map Step.headStep).flatMap (HeadStep.handled C))

section Runs

variable {A : Wiring W} {M : Mint.Keeper W} {quo : Mint.Quo} {logs : Hash → List Eth.Log}
  {supply : W → Int} {w : W} {c c' : Singularity.Chain W} {steps : List Step}

theorem Starts.balanced {gs : GenesisState} {executionBlockHash : Bytes}
    (h : Starts A gs executionBlockHash w c) (laws : Laws A.keepers M supply) :
    Balanced A.stakingContract supply w [] c := by
  have hholds := h.modules.holds laws.toLaws
  have hsupply := hholds.supply_eq
  refine ⟨⟨⟨_, _, hholds.frozen.withdrawals⟩, _, _, hholds.frozen.rewards⟩, h.denom, ?_, rfl⟩
  rw [queued_eq hholds.frozen.withdrawals hholds.frozen.rewards, hholds.minted]
  simpa using hsupply

/-- A step that only has to be entered in the books: what it does to the coins is given, and it
hands no event to a handler or says what became of each. -/
theorem Balanced.snoc (h : Balanced A.stakingContract supply w steps c) {step : Step}
    (hrange : InRange c') (hdenom : MintsBondCoins c')
    (hbooks : supply (sdkOf c'.node) + queued c' + step.credited + step.slashed + c.mintEvents.sum =
      supply (sdkOf c.node) + queued c + step.staked + c'.mintEvents.sum)
    (hhandled : step.staked + step.refused =
      stakedBy (step.headStep.handled A.stakingContract)) :
    Balanced A.stakingContract supply w (steps ++ [step]) c' := by
  have hbefore := h.books
  have hevents := h.handled
  refine ⟨hrange, hdenom, ?_, ?_⟩
  · simp only [List.map_append, List.sum_append, List.map_cons, List.map_nil, List.sum_cons,
      List.sum_nil, add_zero]
    push_cast at hbefore ⊢
    omega
  · simp only [List.map_append, List.sum_append, List.map_cons, List.map_nil, List.sum_cons,
      List.sum_nil, add_zero, List.flatMap_append, List.flatMap_cons, List.flatMap_nil,
      List.append_nil, stakedBy_append]
    omega

/-- **One step** keeps it. -/
theorem Balanced.step (h : Balanced A.stakingContract supply w steps c)
    (laws : Laws A.keepers M supply) {step : Step} (hstep : step.Runs A M quo logs supply c c') :
    Balanced A.stakingContract supply w (steps ++ [step]) c' := by
  cases step with
  | beginBlock ctx =>
      obtain ⟨t, hbegin, rfl⟩ := returns_zoom.mp hstep
      have hdenom : ∀ p ∈ (mintLens.view c).params, p.mintDenom = defaultBondDenom := h.denom
      obtain ⟨hparams, hsupply⟩ := supply_beginBlocker laws hdenom hbegin
      apply h.snoc
      · exact h.inRange
      · show ∀ p ∈ t.params, p.mintDenom = defaultBondDenom
        rw [hparams]
        exact hdenom
      · show supply t.sdk + queued c + 0 + ((0 : Nat) : Int) + c.mintEvents.sum =
          supply (sdkOf c.node) + queued c + ((0 : Nat) : Int) + t.events.sum
        have hsupply : supply t.sdk + c.mintEvents.sum = supply (sdkOf c.node) + t.events.sum :=
          hsupply
        omega
      · rfl
  | payload E fuel ctx msg accepted amount lost =>
      obtain ⟨hrange, hparams, hevents, hsupply⟩ := supply_payload laws h.inRange hstep
      obtain ⟨_, _, hamount, hlost, _⟩ := hstep
      apply h.snoc hrange
      · show ∀ p ∈ c'.mintParams, p.mintDenom = defaultBondDenom
        rw [hparams]
        exact h.denom
      · rw [hevents, hsupply]
        show _ + ((0 : Nat) : Int) + _ = _ + (amount : Int) + _
        omega
      · show amount + lost = stakedBy (stakingEventsIn _ (msg.prevPayloadEvents.filterMap logOf))
        rw [hamount, hlost, ← eventsOf_eq_stakingEventsIn]
        exact staked_add_refused _ _ _ _
  | endBlock ctx =>
      obtain ⟨hzoom, hrange⟩ := hstep
      obtain ⟨t, hend, rfl⟩ := returns_zoom.mp hzoom
      have hintact {c : Singularity.Chain W} (hc : InRange c) : c.node.store.evmstaking.Intact := by
        obtain ⟨⟨n, l, hl⟩, m, r, hr⟩ := hc
        exact ⟨⟨n, l, hl.toRing⟩, m, r, hr.toRing⟩
      have ht : t.Intact := hintact hrange
      have hsupply := supply_endBlock laws (hintact h.inRange) ht hend
      apply h.snoc hrange
      · exact h.denom
      · show supply t.accounts.sdk + t.queued + 0 + ((0 : Nat) : Int) + c.mintEvents.sum =
          supply c.node.store.evmstaking.accounts.sdk + c.node.store.evmstaking.queued +
            ((0 : Nat) : Int) + c.mintEvents.sum
        have hsupply : supply t.accounts.sdk + t.queued =
          supply c.node.store.evmstaking.accounts.sdk + c.node.store.evmstaking.queued := hsupply
        omega
      · rfl
  | other burned =>
      obtain ⟨_, hw, hr, hdenom, hevents, hsupply⟩ := hstep
      have hqueued : queued c' = queued c := by
        rw [queued, queued, EvmStaking.Store.queued, EvmStaking.Store.queued, hw, hr]
      apply h.snoc
      · rw [InRange, hw, hr]
        exact h.inRange
      · exact hdenom
      · rw [hqueued, hevents]
        show _ + _ + 0 + (burned : Int) + _ = _ + _ + ((0 : Nat) : Int) + _
        omega
      · rfl

/-- A step is a step of the head, and a payload has got its vote. -/
theorem Step.Runs.headStep {step : Step} (h : step.Runs A M quo logs supply c c') :
    step.headStep.Voted A logs c.node ∧ step.headStep.Runs A c.node c'.node := by
  cases step with
  | beginBlock ctx =>
      obtain ⟨t, _, rfl⟩ := returns_zoom.mp h
      exact ⟨trivial, rfl⟩
  | payload E fuel ctx msg accepted amount lost =>
      obtain ⟨hparse, ⟨d, hzoom⟩, _, _, E', fuel', mode, v, v', hE', hbooks, hvote⟩ := h
      obtain ⟨node, hmsg, rfl⟩ := returns_zoom.mp hzoom
      exact ⟨⟨E', fuel', _, v, v', hE', hbooks.1, hvote⟩, hparse, d, hmsg⟩
  | endBlock ctx =>
      obtain ⟨t, _, rfl⟩ := returns_zoom.mp h.1
      exact ⟨trivial, rfl⟩
  | other burned => exact ⟨trivial, h.1⟩

/-- **The two layers hold the same coins.** Let the logs of the blocks of the chain be those of the
events of the deposit contract. Then what the events have staked, which the contract has burned,
together with the coins of genesis and those of the mint module, is found again: as bond coins, in
the two queues, credited by a payload, slashed, in events that were refused, or in the logs of the
head, which the next payload brings. In particular no more comes back than was burned. The steps
of the run keep the queues below 2^64 withdrawals and the denomination of the mint module, as
`Step.Runs` asks of the end of a block and of the other modules. -/
theorem bridge_balances {I : Immutables} {V : Crypto} {args : InitializerArgs}
    {script : Script Address IPTokenStaking.Fn} {s : IPTokenStaking} {gs : GenesisState}
    {executionBlockHash : Bytes} (laws : Laws A.keepers M supply)
    (hids : A.stakingContract.eventIDs.Nodup) (hcontract : Reached I V args script s)
    (hstart : Starts A gs executionBlockHash w c)
    (hrun : Trace (Step.Runs A M quo logs supply) c steps c')
    (hlogged : Logged A.stakingContract
      ((blocksOf executionBlockHash (steps.map Step.headStep)).flatMap logs) s.events) :
    ∃ head, c'.node.store.head = some head ∧
      gwei * (supply (sdkOf c'.node) + queued c' + (steps.map Step.credited).sum +
          (steps.map Step.slashed).sum + (steps.map Step.refused).sum +
          stakedBy (stakingEventsIn A.stakingContract (logs head.hash))) =
        gwei * (supply w + c'.mintEvents.sum) + stakedBy s.events ∧
      stakedBy s.events ≤ burnedBy s.transfers ∧
      gwei * (supply (sdkOf c'.node) + queued c' + (steps.map Step.credited).sum) ≤
        gwei * (supply w + c'.mintEvents.sum) + burnedBy s.transfers := by
  obtain ⟨hform, hburned⟩ := hcontract.checked
  have hhead : ∃ head, c.node.store.head = some head ∧
      LogsDue logs executionBlockHash [] head := by
    obtain ⟨st, hst⟩ := hstart.head
    have hst := returns_modify.mp hst
    refine ⟨_, by rw [← hst], ?_⟩
    simp [LogsDue, blocksOf, acceptedIn, ExecutionHead.hash]
  obtain ⟨hbalanced, head, hhead, hdue⟩ := Trace.invariant
    (I := fun steps c' => Balanced A.stakingContract supply w steps c' ∧
      ∃ head, c'.node.store.head = some head ∧
        LogsDue logs executionBlockHash (steps.map Step.headStep) head)
    ⟨hstart.balanced laws, hhead⟩
    (by
      rintro steps step t u ⟨hbalanced, hdue⟩ hstep
      refine ⟨hbalanced.step laws hstep, ?_⟩
      rw [List.map_append]
      exact LogsDue.step hdue hstep.headStep.1 hstep.headStep.2)
    hrun
  -- the events handled and those of the head are the events of the contract, in gwei
  have hevents : stakedBy ((steps.map Step.headStep).flatMap
        (HeadStep.handled A.stakingContract)) +
      stakedBy (stakingEventsIn A.stakingContract (logs head.hash)) =
        stakedBy (s.events.map StakingEvent.inGwei) := by
    rw [← stakedBy_append, handled_eq_stakingEventsIn, ← stakingEventsIn_of_logged hids hlogged,
      ← hdue]
    exact congrArg stakedBy (eventsIn_append _ _).symm
  have hgwei := stakedBy_inGwei hform
  rw [← hevents, ← hbalanced.handled] at hgwei
  have hbooks := hbalanced.books
  have hequation : gwei * (supply (sdkOf c'.node) + queued c' + (steps.map Step.credited).sum +
      (steps.map Step.slashed).sum + (steps.map Step.refused).sum +
      stakedBy (stakingEventsIn A.stakingContract (logs head.hash))) =
        gwei * (supply w + c'.mintEvents.sum) + (stakedBy s.events : Int) := by
    rw [hbooks, ← hgwei]
    push_cast
    ring
  refine ⟨head, hhead, hequation, hburned, ?_⟩
  have hpos : (0 : Int) ≤ gwei * ((steps.map Step.slashed).sum + (steps.map Step.refused).sum +
      stakedBy (stakingEventsIn A.stakingContract (logs head.hash)) : Nat) := by positivity
  have hburned : (stakedBy s.events : Int) ≤ burnedBy s.transfers := by exact_mod_cast hburned
  push_cast at hpos hequation ⊢
  linarith

end Runs

/-! ## A validator is created across the bridge -/

open Story.App.Singularity (frozenKeepers frozenMint frozenKeepers_laws frozenWiring frozenChain)
open Story.EvmStaking (stakedLedger)

theorem frozenLaws : Laws frozenKeepers frozenMint Ledger.supply where
  toLaws := frozenKeepers_laws
  endBlocker := by
    intro ctx
    refine Ledger.moves_get_bind fun l => ?_
    show ({ l.maturing.foldl Ledger.mature l with maturing := [] } : Ledger).supply = l.supply
    rw [Ledger.foldl_mature]
  mintHeight := fun _ => Moves.pure _
  mintBank := frozenKeepers_laws.mintCoins
  mintSend := by
    intro ctx sender recipient coins w w' h
    obtain rfl := returns_modify.mp h
    rfl

/-- A caller who makes the holder of the key a validator with two coins. -/
def foundsValidator : Script Address IPTokenStaking.Fn :=
  .call (sampleCrypto.holder evenKey) (2 * gwei)
    (.createValidator ⟨evenKey, "first", 1, 1, 1, true, []⟩) .done .done

/-- The event of that call. -/
def founded : EvmStaking.CreateValidator :=
  IPTokenStaking.ValidatorArgs.event ⟨evenKey, "first", 1, 1, 1, true, []⟩ (2 * gwei)
    (sampleCrypto.holder evenKey)

def bridgeWiring : Wiring Ledger :=
  { frozenWiring with
    stakingContract :=
      { frozenWiring.stakingContract with parseCreateValidator := fun _ => .ok founded } }

/-- The genesis block logs it. -/
def foundingLogs (hash : Hash) : List Eth.Log :=
  if hash = genesisHead.hash then [⟨bytesToAddress [], [bytesToHash [6]], [], bytesToHash []⟩]
  else []

def bridgeChain : Singularity.Chain Ledger :=
  let store := { frozenChain.node.store with head := some genesisHead }
  { frozenChain with node := { frozenChain.node with store := store } }

theorem bridgeChain_starts :
    Starts bridgeWiring ⟨EvmStaking.defaultParams, ⟨0, 0⟩⟩ [1] stakedLedger bridgeChain where
  modules := ⟨rfl, localnetCtx .other, rfl⟩
  head := ⟨bridgeChain.node.store, rfl⟩
  denom := by
    intro p hp
    obtain rfl := Option.some.inj hp
    rfl

/-- The contract has burned two coins, and the first payload brings its event: there are two bond
coins more. -/
theorem validator_founded_across_bridge : ∃ s steps c',
    Reached IPTokenStaking.sampleImmutables sampleCrypto IPTokenStaking.sampleArgs foundsValidator
      s ∧
    Trace (Step.Runs bridgeWiring frozenMint Mint.exactQuo foundingLogs Ledger.supply)
      bridgeChain steps c' ∧
    s.transfers = [⟨zeroAddress, 2 * gwei⟩] ∧ (sdkOf c'.node).supply + queued c' = 2 := by
  have heval : ((finalState (IPTokenStaking.setUp IPTokenStaking.sampleImmutables
      IPTokenStaking.sampleArgs) IPTokenStaking.blank).bind fun s₀ =>
        (finalState ((IPTokenStaking.contract IPTokenStaking.sampleImmutables sampleCrypto).perform
          none foundsValidator) s₀)).map (fun s => (s.events, s.transfers))
      = some ([.createValidator founded], [⟨zeroAddress, 2 * gwei⟩]) := by decide +kernel
  obtain ⟨s, hs, hfields⟩ := Option.map_eq_some_iff.mp heval
  obtain ⟨s₀, hs₀, hs⟩ := Option.bind_eq_some_iff.mp hs
  obtain ⟨hevents, htransfers⟩ := Prod.mk.inj hfields
  have hcontract : Reached IPTokenStaking.sampleImmutables sampleCrypto IPTokenStaking.sampleArgs
      foundsValidator s := ⟨s₀, returns_of_finalState hs₀, returns_of_finalState hs⟩
  let msg : MsgExecutionPayload :=
    { nextMsg bridgeWiring genesisHead [] with prevPayloadEvents := [eventOf 6] }
  let payload := (nextProto genesisHead []).toExecutableData
  let E : Engine := { obligingEngine with filterLogs := fun _ h => .ok (foundingLogs h) }
  have hvote := returns_of_completes (show completes (proposalExecutionPayload bridgeWiring E 1
    (localnetCtx .other) msg) bridgeChain.node = true by decide +kernel)
  have hreads : E.ReadsLogs foundingLogs := fun _ _ _ h => (Except.ok.inj h).symm
  have hbooks : SameBooks bridgeChain.node bridgeChain.node := ⟨rfl, _, rfl⟩
  have hmsg : (outcome (msgExecutionPayload bridgeWiring obligingEngine 1 (localnetCtx .finalize)
      msg) bridgeChain.node).map (fun r => r.2.store.head) =
        some (some (headOf (localnetCtx .finalize) payload)) := by decide +kernel
  obtain ⟨d, node, hret, hhead⟩ := returns_of_outcome hmsg
  have hparse : parseAndVerifyProposedPayload bridgeWiring (localnetCtx .finalize)
      bridgeChain.node.store.head msg = .ok payload := by
    -- the events of the message are not looked at here
    show parseAndVerifyProposedPayload bridgeWiring (localnetCtx .finalize) (some genesisHead)
      (nextMsg bridgeWiring genesisHead []) = _
    exact parse_nextMsg _ genesisHead [] .finalize
  have hstaked : 2 = staked frozenKeepers (localnetCtx .finalize)
      bridgeChain.node.store.evmstaking.accounts
      (bridgeWiring.stakingContract.eventsOf [eventOf 6]) := by decide +kernel
  have hrefused : 0 = refused frozenKeepers (localnetCtx .finalize)
      bridgeChain.node.store.evmstaking.accounts
      (bridgeWiring.stakingContract.eventsOf [eventOf 6]) := by decide +kernel
  have hrun := (Trace.nil
      (R := Step.Runs bridgeWiring frozenMint Mint.exactQuo foundingLogs Ledger.supply)
    (s := bridgeChain)).snoc (a := Step.payload obligingEngine 1 (localnetCtx .finalize) msg payload
      2 0) ⟨hparse, ⟨d, returns_zoom.mpr ⟨node, hret, rfl⟩⟩, hstaked, hrefused, E, 1, .other, _, _,
        hreads, hbooks, hvote⟩
  have hlogged : Logged bridgeWiring.stakingContract ((blocksOf [1] ([Step.payload obligingEngine 1
      (localnetCtx .finalize) msg payload 2 0].map Step.headStep)).flatMap foundingLogs)
      s.events := by
    have hlogs : (blocksOf [1] ([Step.payload obligingEngine 1 (localnetCtx .finalize) msg payload 2
        0].map Step.headStep)).flatMap foundingLogs =
          [⟨bytesToAddress [], [bytesToHash [6]], [], bytesToHash []⟩] := by decide +kernel
    rw [hlogs, hevents]
    exact .event rfl rfl .nil
  obtain ⟨head, hhead', hbalance, _⟩ := bridge_balances frozenLaws (by decide +kernel) hcontract
    bridgeChain_starts hrun hlogged
  obtain rfl : headOf (localnetCtx .finalize) payload = head :=
    Option.some.inj (hhead.symm.trans hhead')
  refine ⟨s, _, _, hcontract, hrun, htransfers, ?_⟩
  have htip : stakedBy (stakingEventsIn bridgeWiring.stakingContract
      (foundingLogs (headOf (localnetCtx .finalize) payload).hash)) = 0 := by decide +kernel
  have hstart : stakedLedger.supply = 0 := rfl
  rw [htip, hstart, hevents] at hbalance
  -- no withdrawal, no slashing, nothing refused, no inflation
  have hbalance : (gwei : Int) * ((sdkOf node).supply + queued (nodeLens.put node bridgeChain) +
      0 + 0 + 0 + 0) = gwei * (0 + 0) + (2 * gwei : Nat) := hbalance
  show (sdkOf node).supply + queued (nodeLens.put node bridgeChain) = 2
  simp only [gwei] at hbalance
  omega

end Story.App.Bridge
