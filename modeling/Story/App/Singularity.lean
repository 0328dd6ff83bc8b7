/-
# Story.App.Singularity -- nothing moves before the singularity ends

Until the block height that the staking module calls the singularity, new coins are made by
staking only. Four guards see to it: the begin blocker of the mint module, the end blocker of
the evmstaking module, and the handlers of the events `Withdraw` and `Redelegate`. Each of
them asks the staking module for the height and compares it with the height of the block.

While they hold, no withdrawal is queued, so every payload that is voted for is one without
withdrawals, and the supply of bond coins grows by the stakes alone.
-/
import Story.EvmEngine.Payout
import Story.EvmEngine.HeadChain
import Story.EvmEngine.OnePass
import Story.EvmStaking.Conservation
import Story.Mint.Budget

namespace Story.App.Singularity

open Story.Effect Story.Errors Story.Sdk Story.Eth Story.EvmEngine
open Story.EvmStaking (StakingEvent GenesisState SupplyLaws Accounts handle endBlock
  endBlockWithdrawals isSingularity processWithdraw processRedelegate cacheContext cachedCtx
  classify returns_cacheContext returns_cachedCtx returns_classify addressOf pubkeyOf stakedLedger
  gwei)

variable {W : Type} {A : Wiring W} {K : Keepers W} {M : Mint.Keeper W} {ctx : Ctx} {height : UInt64}

/-! ## The guards -/

/-- **What is relied on**: both modules are told the same height, which never changes and fits
in an `int64`. -/
structure ConstantHeight (K : Keepers W) (M : Mint.Keeper W) (height : UInt64) : Prop where
  staking : ∀ ctx, K.staking.getSingularityHeight ctx = pure height
  mint : ∀ ctx, M.getSingularityHeight ctx = pure height
  lt : height.toNat < 2 ^ 63

theorem call_pure {σ α : Type} [HasSdk σ W] (a : α) : (call (pure a) : Prog σ α) = pure a := by
  funext s
  show EStateM.Result.ok a (HasSdk.lens.put (HasSdk.lens.view s) s) = .ok a s
  rw [HasSdk.lens.put_view]

theorem isSingularity_eq {σ : Type} [HasSdk σ W] (h : ConstantHeight K M height) :
    (isSingularity K ctx : Prog σ Bool) = pure (decide (ctx.blockHeight < height.toNat)) := by
  rw [isSingularity, h.staking, call_pure, pure_bind, Mint.toInt64_of_lt h.lt]

/-- What the begin blocker of the mint module does behind its guard. -/
def mintShare (M : Mint.Keeper W) (ctx : Ctx) (ic : Mint.InflationCalculationFn (Mint.Store W)) :
    Prog (Mint.Store W) Unit := do
  let params ← Mint.getParams
  let mintedCoinAmt ← ic params
  let mintedCoin ← M.newCoin params.mintDenom (Mint.truncateInt mintedCoinAmt)
  M.mintCoins ctx mintedCoin
  M.addCollectedFees ctx mintedCoin
  modify fun s => { s with events := s.events ++ [mintedCoin.amount] }

/-- What the end blocker of the evmstaking module does behind its guard. -/
def endBlockActive (K : Keepers W) (ctx : Ctx) : Prog (EvmStaking.Store W) Unit := do
  let unbondedEntries ← wrapErr "process staking EndBlocker"
    (call (K.staking.endBlockerWithUnbondedEntries ctx))
  endBlockWithdrawals K ctx unbondedEntries

theorem beginBlocker_eq (h : ConstantHeight K M height)
    (ic : Mint.InflationCalculationFn (Mint.Store W)) :
    M.beginBlocker ctx ic =
      if ctx.blockHeight < height.toNat then pure () else mintShare M ctx ic := by
  rw [Mint.Keeper.beginBlocker, h.mint, call_pure, pure_bind, Mint.toInt64_of_lt h.lt]
  rfl

theorem endBlock_eq (h : ConstantHeight K M height) :
    endBlock K ctx = if ctx.blockHeight < height.toNat then pure () else endBlockActive K ctx := by
  rw [endBlock, isSingularity_eq h, pure_bind]
  simp only [decide_eq_true_eq]
  rfl

/-- The handlers whose first question is whether it is the singularity. -/
def Guarded : StakingEvent → Prop
  | .redelegate _ | .withdraw _ => True
  | _ => False

/-- During the singularity they commit a context in which nothing has happened. -/
theorem handle_of_lt (h : ConstantHeight K M height) (hlt : ctx.blockHeight < height.toNat)
    {ev : StakingEvent} (hev : Guarded ev) (a : Accounts W) : Returns (handle K ctx ev) a () a := by
  have hguard {rest : Prog (Branched (Accounts W)) Unit} :
      Returns (cacheContext (do
        let isInSingularity ← wrapErr "check if it is singularity"
          (cachedCtx (isSingularity K ctx))
        if isInSingularity then pure () else rest)) a () a := by
    rw [isSingularity_eq h, decide_eq_true hlt]
    rfl
  cases ev with
  | redelegate ev => exact hguard
  | withdraw ev => exact hguard
  | _ => exact hev.elim

/-- The keepers of a chain without a singularity. -/
def withoutSingularity (K : Keepers W) : Keepers W :=
  { K with staking := { K.staking with getSingularityHeight := fun _ => pure 0 } }

/-- **From the height on** every event is handled as on such a chain. -/
theorem handle_of_ge (h : ConstantHeight K M height) (hge : height.toNat ≤ ctx.blockHeight)
    (ev : StakingEvent) : handle K ctx ev = handle (withoutSingularity K) ctx ev := by
  have hheight : ¬ ctx.blockHeight < height.toNat := not_lt.mpr hge
  have hzero : ¬ ctx.blockHeight < (0 : UInt64).toNat := by
    have : (0 : UInt64).toNat = 0 := rfl
    omega
  have hK : (isSingularity K ctx : Prog (Accounts W) Bool) = pure false := by
    rw [isSingularity_eq h, decide_eq_false hheight]
  have hK₀ : (isSingularity (withoutSingularity K) ctx : Prog (Accounts W) Bool) = pure false := by
    have hconst : ConstantHeight (withoutSingularity K)
        { M with getSingularityHeight := fun _ => pure 0 } 0 :=
      ⟨fun _ => rfl, fun _ => rfl, by decide⟩
    rw [isSingularity_eq hconst, decide_eq_false hzero]
  cases ev with
  | redelegate ev =>
      show processRedelegate K ctx ev = processRedelegate (withoutSingularity K) ctx ev
      rw [processRedelegate, processRedelegate, hK, hK₀]
      rfl
  | withdraw ev =>
      show processWithdraw K ctx ev = processWithdraw (withoutSingularity K) ctx ev
      rw [processWithdraw, processWithdraw, hK, hK₀]
      rfl
  | _ => rfl

/-- The body of a guarded handler, once the singularity is over. -/
theorem returns_of_ge (h : ConstantHeight K M height) (hge : height.toNat ≤ ctx.blockHeight)
    {rest : Prog (Branched (Accounts W)) Unit} {b b' : Branched (Accounts W)}
    (hbody : Returns (do
      let isInSingularity ← wrapErr "check if it is singularity" (cachedCtx (isSingularity K ctx))
      if isInSingularity then pure () else rest) b () b') : Returns rest b () b' := by
  rw [isSingularity_eq h, decide_eq_false (not_lt.mpr hge)] at hbody
  exact hbody

/-- The last call of a handler leaves the stores as the keeper does. -/
theorem returns_lastCall {α : Type} {x : SdkProg W α} {cases : List (Sentinel × ErrCode)}
    {msg : String} {b b' : Branched (Accounts W)}
    (h : Returns (do
      let _ ← classify cases msg (cachedCtx (call x))
      pure ()) b () b') : ∃ r, Returns x b.copy.sdk r b'.copy.sdk := by
  simp only [returns_bind, returns_classify, returns_cachedCtx, returns_call, returns_pure,
    EvmStaking.Accounts.view_sdk, EvmStaking.Accounts.put_sdk] at h
  obtain ⟨r, _, ⟨_, ⟨w, hx, rfl⟩, rfl⟩, _, rfl⟩ := h
  exact ⟨r, hx⟩

/-- An unstake that succeeds ends with the call of `Undelegate`. -/
theorem withdraw_undelegates (h : ConstantHeight K M height)
    (hge : height.toNat ≤ ctx.blockHeight) {ev : EvmStaking.Withdraw} {a a' : Accounts W}
    (hev : Returns (handle K ctx (.withdraw ev)) a () a') :
    ∃ msg coin w, msg.delegatorAddress = K.codec.accString (bytesOf ev.delegator) ∧
      msg.amount = ⟨defaultBondDenom, ev.stakeAmount⟩ ∧
      Returns (K.staking.undelegate ctx msg) w coin a'.sdk := by
  obtain ⟨b, hbody, rfl⟩ := returns_cacheContext.mp hev
  obtain ⟨_, _, _, h₁⟩ := returns_bind.mp (returns_of_ge h hge hbody)
  obtain ⟨_, _, _, h₂⟩ := returns_bind.mp h₁
  obtain ⟨_, _, _, h₃⟩ := returns_bind.mp h₂
  obtain ⟨bond, _, hbond, h₄⟩ := returns_bind.mp h₃
  obtain ⟨rfl, _⟩ := EvmStaking.returns_ipTokenToBondCoin.mp hbond
  obtain ⟨_, _, _, h₅⟩ := returns_bind.mp h₄
  rcases returns_ite.mp h₅ with ⟨_, hfail⟩ | ⟨_, h₆⟩
  · exact absurd hfail returns_fail
  obtain ⟨_, _, _, h₇⟩ := returns_bind.mp h₆
  obtain ⟨_, _, _, h₈⟩ := returns_bind.mp h₇
  rcases returns_ite.mp h₈ with ⟨_, hpanic⟩ | ⟨_, hcall⟩
  · exact absurd hpanic returns_goPanic
  obtain ⟨coin, hcoin⟩ := returns_lastCall hcall
  exact ⟨_, coin, _, rfl, rfl, hcoin⟩

/-- A redelegation that succeeds ends with the call of `BeginRedelegate`. -/
theorem redelegate_begins (h : ConstantHeight K M height) (hge : height.toNat ≤ ctx.blockHeight)
    {ev : EvmStaking.Redelegate} {a a' : Accounts W}
    (hev : Returns (handle K ctx (.redelegate ev)) a () a') :
    ∃ msg coin w, msg.delegatorAddress = K.codec.accString (bytesOf ev.delegator) ∧
      msg.amount = ⟨defaultBondDenom, ev.amount⟩ ∧
      Returns (K.staking.beginRedelegate ctx msg) w coin a'.sdk := by
  obtain ⟨b, hbody, rfl⟩ := returns_cacheContext.mp hev
  obtain ⟨_, _, _, h₁⟩ := returns_bind.mp (returns_of_ge h hge hbody)
  obtain ⟨_, _, _, h₂⟩ := returns_bind.mp h₁
  obtain ⟨_, _, _, h₃⟩ := returns_bind.mp h₂
  obtain ⟨_, _, _, h₄⟩ := returns_bind.mp h₃
  obtain ⟨_, _, _, h₅⟩ := returns_bind.mp h₄
  obtain ⟨bond, _, hbond, h₆⟩ := returns_bind.mp h₅
  obtain ⟨rfl, _⟩ := EvmStaking.returns_ipTokenToBondCoin.mp hbond
  obtain ⟨_, _, _, h₇⟩ := returns_bind.mp h₆
  obtain ⟨_, _, _, h₈⟩ := returns_bind.mp h₇
  rcases returns_ite.mp h₈ with ⟨_, hpanic⟩ | ⟨_, hcall⟩
  · exact absurd hpanic returns_goPanic
  obtain ⟨coin, hcoin⟩ := returns_lastCall hcall
  exact ⟨_, coin, _, rfl, rfl, hcoin⟩

/-! ## What the events of a payload stake -/

/-- The amounts of the `Deposit` and `CreateValidator` events that are handled without an error,
when they are handled one after the other from `a` on. -/
def staked (K : Keepers W) (ctx : Ctx) : Accounts W → List StakingEvent → Nat
  | _, [] => 0
  | a, ev :: evs =>
      (if completes (handle K ctx ev) a then ev.mints else 0) +
        staked K ctx (effect (handle K ctx ev) a) evs

/-- **What is relied on** for the supply: the laws of the bank and the staking module, and that
upgrade plans and the UBI percentage are no coins. -/
structure Laws (K : Keepers W) (supply : W → Int) : Prop extends SupplyLaws K supply where
  scheduleUpgrade : ∀ ctx plan, Moves (Same supply) (K.upgrade.scheduleUpgrade ctx plan)
  clearUpgradePlan : ∀ ctx, Moves (Same supply) (K.upgrade.clearUpgradePlan ctx)
  setUbi : ∀ ctx rate, Moves (Same supply) (K.distr.setUbi ctx rate)

/-- What the stores of the SDK modules are worth, read off the state of the upgrade handlers. -/
def ofUpgrades (supply : W → Int) (s : UpgradeState W) : Int := supply s.sdk

section Supply

variable {supply : W → Int} (laws : Laws K supply)

include laws

theorem supply_effect (ev : StakingEvent) (a : Accounts W) :
    supply (effect (handle K ctx ev) a).sdk =
      supply a.sdk + (if completes (handle K ctx ev) a then ev.mints else 0 : Nat) := by
  cases hdone : completes (handle K ctx ev) a with
  | true =>
      rw [if_pos rfl]
      exact EvmStaking.handle_supply laws.toSupplyLaws (returns_of_completes hdone)
  | false =>
      obtain ⟨f, t, hfails⟩ := fails_of_not_completes hdone
      rw [effect, fails_iff.mp hfails]
      simp

/-- **The events of a payload** change the supply by what they stake. -/
theorem supply_runEvents (evs : List StakingEvent) (a : Accounts W) :
    supply (EvmStaking.runEvents K a (evs.map fun ev => (ctx, ev))).sdk =
      supply a.sdk + staked K ctx a evs := by
  induction evs generalizing a with
  | nil => simp [staked]
  | cons ev evs ih =>
      have hstep : supply (effect (handle K ctx ev) a).sdk = _ := supply_effect laws ev a
      have hrest := ih (effect (handle K ctx ev) a)
      simp only [EvmStaking.runEvents, List.map_cons, List.foldl_cons, staked] at hrest ⊢
      rw [hrest, hstep]
      push_cast
      ring

/-- Upgrade events make no coins. -/
theorem supply_handleUpgrade {ev : UpgradeEvent} {s t : UpgradeState W}
    (h : Returns (handleUpgrade K ctx ev) s () t) : supply t.sdk = supply s.sdk := by
  have := laws.scheduleUpgrade
  have := laws.clearUpgradePlan
  have hcall {x : SdkProg W Unit} [Moves (Same supply) x] :
      Moves (Same (ofUpgrades supply)) (call x) :=
    moves_call (Q := Same supply) fun _ _ h => h
  have hstore (plan : Plan) : Moves (Same (ofUpgrades supply))
      (storePendingUpgrade plan) := Moves.modify fun _ => rfl
  have hreset : Moves (Same (ofUpgrades supply)) resetPendingUpgrade :=
    Moves.modify fun _ => rfl
  have hset (plan : Plan) : Moves (Same (ofUpgrades supply))
      (setPendingUpgrade K ctx plan) := Moves.bind _ _
  have hschedule (ev : SoftwareUpgrade) (isTerence : Bool) :
      Moves (Same (ofUpgrades supply)) (scheduleUpgrade K ctx ev isTerence) :=
    Moves.ite _ _ _
  have hcancel (isTerence : Bool) :
      Moves (Same (ofUpgrades supply)) (cancelUpgrade K ctx isTerence) :=
    Moves.ite _ _ _
  cases ev with
  | softwareUpgrade ev =>
      simp only [handleUpgrade, processSoftwareUpgrade, dumpUpgradeInfo_eq] at h
      exact Moves.returns_transact (R := Same (ofUpgrades supply)) h
  | cancelUpgrade =>
      exact Moves.returns_transact (R := Same (ofUpgrades supply)) h

/-- Nor does a new UBI percentage. -/
theorem supply_processUBIPercentageSet {ev : UBIPercentageSet} {w w' : W}
    (h : Returns (processUBIPercentageSet K ctx ev) w () w') : supply w' = supply w := by
  have := laws.setUbi
  have hsdk (rate : Int) : Moves (Same supply) (sdk (K.distr.setUbi ctx rate)) :=
    Moves.mapError _ _
  exact Moves.returns_transact (R := Same supply) h

end Supply

/-- A dispatcher that returns has verified every log. -/
theorem verified_of_dispatch {σ : Type} {act : Hash → Eth.Log → Prog σ Unit}
    {logs : List (Option EVMEvent)} {s t : σ} {u : Unit}
    (h : Returns (logs.forM (EvmStaking.dispatchLog act)) s u t) : Verified logs := by
  induction logs generalizing s with
  | nil => exact fun _ hev => absurd hev (List.not_mem_nil)
  | cons ev logs ih =>
      obtain ⟨s', hev, hrest⟩ := returns_forM_cons.mp h
      have hverify : EVMEvent.verify ev = .ok () := by
        unfold EvmStaking.dispatchLog at hev
        split at hev
        · exact absurd hev returns_fail
        next hok => exact hok
      intro ev' hmem
      rcases List.mem_cons.mp hmem with rfl | hmem
      · exact hverify
      · exact ih hrest ev' hmem

/-- A dispatcher goes where its handlers go. -/
theorem dispatch_moves {σ ε : Type} {parse : Hash → Eth.Log → Option (Except GoError ε)}
    {handler : ε → Prog σ Unit} {R : σ → σ → Prop} [IsPreorder σ R]
    (hatomic : ∀ e, EvmStaking.Atomic (handler e))
    (hmoves : ∀ e s t, Returns (handler e) s () t → R s t)
    {logs : List (Option EVMEvent)} {s t : σ} {u : Unit}
    (h : Returns (logs.forM (EvmStaking.dispatchLog (EvmStaking.actOn parse handler))) s u t) :
    R s t := by
  obtain ⟨_, rfl⟩ := h.unique (returns_dispatch parse hatomic (verified_of_dispatch h) s)
  clear h
  induction logs generalizing s with
  | nil => exact refl_of R s
  | cons ev logs ih =>
      refine trans_of R ?_ ih
      unfold applyEvent
      split
      next e _ =>
        rcases effect_cases (handler e) s with heq | hret
        · rw [heq]
          exact refl_of R s
        · exact hmoves e _ _ hret
      next => exact refl_of R s

/-! ## A finalized payload -/

section Payload

variable {supply : W → Int} {n n' : Node W}

/-- The stores of the SDK modules of a node. -/
def sdkOf (n : Node W) : W := n.store.evmstaking.accounts.sdk

theorem supply_deliverEvents (laws : Laws A.keepers supply) {logs : List (Option EVMEvent)}
    {u : Unit} (h : Returns (deliverEvents A ctx logs) n u n') :
    supply (sdkOf n') = supply (sdkOf n) +
      staked A.keepers ctx n.store.evmstaking.accounts (A.stakingContract.eventsOf logs) := by
  simp only [deliverEvents, returns_bind, returns_wrapErr, returns_zoom] at h
  obtain ⟨_, _, ⟨a, hstaking, rfl⟩, _, _, ⟨p, hupgrade, rfl⟩, w, hubi, rfl⟩ := h
  have hrun := EvmStaking.processStakingEvents_run A.keepers A.stakingContract ctx
    (verified_of_dispatch hstaking) n.store.evmstaking.accounts
  obtain ⟨_, rfl⟩ := hstaking.unique hrun
  have hp : ofUpgrades supply p = ofUpgrades supply _ :=
    dispatch_moves (R := Same (ofUpgrades supply)) (handleUpgrade_atomic A.keepers ctx)
      (fun _ _ _ hev => supply_handleUpgrade laws hev) hupgrade
  have hw : supply w = supply p.sdk :=
    dispatch_moves (R := Same supply) (processUBIPercentageSet_atomic A.keepers ctx)
      (fun _ _ _ hev => supply_processUBIPercentageSet laws hev) hubi
  calc supply w = supply p.sdk := hw
    _ = supply (EvmStaking.runEvents A.keepers n.store.evmstaking.accounts _).sdk := hp
    _ = _ := supply_runEvents laws _ _

/-- Applying a payload changes the supply by what its events stake. -/
theorem supply_applyPayload (laws : Laws A.keepers supply) {E : Engine} {fuel : Nat}
    {logs : List (Option EVMEvent)} {payload : ExecutableData} {u : Unit}
    (h : Returns (applyPayload A E fuel ctx logs payload) n u n') :
    supply (sdkOf n') = supply (sdkOf n) +
      staked A.keepers ctx n.store.evmstaking.accounts (A.stakingContract.eventsOf logs) := by
  simp only [applyPayload, returns_bind, returns_wrapErr, returns_zoom] at h
  obtain ⟨_, n₁, hpush, _, n₂, hfc, _, n₃, hev, st, hhead, rfl⟩ := h
  obtain rfl : n₂ = n₁ := ReadOnly.returns _ _ _ hfc
  have hstore : n₂.store = n.store := pushLoop_store hpush
  have hlast : st.evmstaking = n₃.store.evmstaking := by
    rw [updateExecutionHead_returns hhead]
    rfl
  have hdeliver := supply_deliverEvents laws hev
  rw [sdkOf, sdkOf, hstore] at hdeliver
  show supply st.evmstaking.accounts.sdk = _
  rw [hlast]
  exact hdeliver

/-- No withdrawal has ever been queued, and the sweep is where genesis put it. -/
structure Frozen (index : EvmStaking.ValidatorSweepIndex) (s : EvmStaking.Store W) : Prop where
  withdrawals : s.withdrawalQueue.Holds 0 []
  rewards : s.rewardWithdrawalQueue.Holds 0 []
  sweep : s.validatorSweepIndex = some index

/-- **A finalized payload** finds nothing to pay out, and stakes what its events stake. -/
theorem Frozen.msgExecutionPayload {index : EvmStaking.ValidatorSweepIndex}
    (hn : Frozen index n.store.evmstaking) (laws : Laws A.keepers supply) {E : Engine}
    {fuel : Nat} {msg : MsgExecutionPayload} {d : Dequeued}
    (h : Returns (msgExecutionPayload A E fuel ctx msg) n d n') :
    Frozen index n'.store.evmstaking ∧ d = ⟨[], []⟩ ∧
      supply (sdkOf n') = supply (sdkOf n) + staked A.keepers ctx n.store.evmstaking.accounts
        (A.stakingContract.eventsOf msg.prevPayloadEvents) := by
  obtain ⟨_, payload, t, _, hdequeue, happly⟩ := returns_msgExecutionPayload.mp h
  obtain ⟨q, q', hq, hq', hspec⟩ :=
    dequeueProposed_spec A.keepers.codec hn.withdrawals hn.rewards
  obtain ⟨_, rfl, rfl⟩ := (hspec _ _ _).mp hdequeue
  have hframe := (applyPayload_frame happly).1
  have hsupply := supply_applyPayload laws happly
  refine ⟨?_, ?_, hsupply⟩
  · rw [hframe]
    have hq₀ : q.Holds 0 [] := by simpa [due] using hq
    have hq₀' : q'.Holds 0 [] := by simpa [dueRewards] using hq'
    exact ⟨hq₀, hq₀', hn.sweep⟩
  · simp [dequeuedOf, due, dueRewards, EvmStaking.numbered]

/-- A vote for a payload is a vote for one without withdrawals. -/
theorem Frozen.compareWithdrawals {index : EvmStaking.ValidatorSweepIndex}
    {s t : EvmStaking.Store W} (hs : Frozen index s) {codec : Codec}
    {actual : List (Option Eth.Withdrawal)} {u : Unit}
    (h : Returns (compareWithdrawals codec actual) s u t) : actual = [] := by
  have hactual := ((returns_compareWithdrawals codec hs.withdrawals hs.rewards).mp h).1
  simpa [dequeuedOf, due, dueRewards, EvmStaking.numbered] using hactual

end Payload

/-! ## Runs of the chain -/

/-- A node with the store of its mint module. -/
structure Chain (W : Type) where
  node : Node W
  mintParams : Option Mint.Params
  mintEvents : List Int

def nodeLens : Lens (Chain W) (Node W) where
  view := Chain.node
  put := fun n c => { c with node := n }
  view_put := fun _ _ => rfl
  put_view := fun _ => rfl
  put_put := fun _ _ _ => rfl

/-- The mint module shares the stores of the SDK modules with the others. -/
def mintLens : Lens (Chain W) (Mint.Store W) where
  view := fun c => ⟨c.mintParams, sdkOf c.node, c.mintEvents⟩
  put := fun m c => ⟨sdkLens.put m.sdk c.node, m.params, m.events⟩
  view_put := fun _ _ => rfl
  put_view := fun _ => rfl
  put_put := fun _ _ _ => rfl

/-- The parts of a block. A finalized payload names what its events staked, and what the other
modules do names the coins that are burned by slashing. -/
inductive Step
  | beginBlock (ctx : Ctx)
  | payload (E : Engine) (fuel : Nat) (ctx : Ctx) (msg : MsgExecutionPayload) (amount : Nat)
  | endBlock (ctx : Ctx)
  | other (burned : Nat)

/-- The height of the block that the step is a part of is below `height`. -/
def Step.Below (height : UInt64) : Step → Prop
  | .beginBlock ctx | .payload _ _ ctx _ _ | .endBlock ctx => ctx.blockHeight < height.toNat
  | .other _ => True

/-- The amounts of the `Deposit` and `CreateValidator` events that succeeded. -/
def Step.staked : Step → Nat
  | .payload _ _ _ _ amount => amount
  | _ => 0

def Step.burned : Step → Nat
  | .other burned => burned
  | _ => 0

/-- The step leads from `c` to `c'`. The other modules of the chain may do to their stores, and
a parameter change to the parameters, what they like, but they burn what they say and make no
coins. A block or a message that fails is rolled back, which is no step. -/
def Step.Runs (A : Wiring W) (M : Mint.Keeper W)
    (ic : Mint.InflationCalculationFn (Mint.Store W)) (supply : W → Int) :
    Step → Chain W → Chain W → Prop
  | .beginBlock ctx, c, c' => Returns (zoom mintLens (M.beginBlocker ctx ic)) c () c'
  | .payload E fuel ctx msg amount, c, c' =>
      (∃ d, Returns (zoom nodeLens (msgExecutionPayload A E fuel ctx msg)) c d c') ∧
        amount = Singularity.staked A.keepers ctx c.node.store.evmstaking.accounts
          (A.stakingContract.eventsOf msg.prevPayloadEvents)
  | .endBlock ctx, c, c' =>
      Returns (zoom (nodeLens.comp evmstakingLens) (EvmStaking.endBlock A.keepers ctx)) c () c'
  | .other burned, c, c' =>
      c'.node.store.evmstaking.withdrawalQueue = c.node.store.evmstaking.withdrawalQueue ∧
        c'.node.store.evmstaking.rewardWithdrawalQueue =
          c.node.store.evmstaking.rewardWithdrawalQueue ∧
        c'.node.store.evmstaking.validatorSweepIndex =
          c.node.store.evmstaking.validatorSweepIndex ∧
        c'.mintEvents = c.mintEvents ∧
        supply (sdkOf c'.node) + burned = supply (sdkOf c.node)

/-- The chain right after genesis. -/
def Starts (A : Wiring W) (gs : GenesisState) (w : W) (c : Chain W) : Prop :=
  c.mintEvents = [] ∧ ∃ ctx, Returns (EvmStaking.initGenesis A.keepers ctx gs)
    (EvmStaking.Store.fresh w) () c.node.store.evmstaking

section Runs

variable {ic : Mint.InflationCalculationFn (Mint.Store W)} {supply : W → Int} {gs : GenesisState}
  {w : W} {c c' : Chain W} {run : List Step}

/-- **The invariant**: frozen queues, nothing minted, and the books of the bond coins. -/
structure Holds (supply : W → Int) (gs : GenesisState) (w : W) (run : List Step) (c : Chain W) :
    Prop where
  frozen : Frozen gs.validatorSweepIndex c.node.store.evmstaking
  minted : c.mintEvents = []
  supply_eq : supply (sdkOf c.node) + (run.map Step.burned).sum =
    supply w + (run.map Step.staked).sum

theorem Starts.holds (h : Starts A gs w c) (laws : Laws A.keepers supply) :
    Holds supply gs w [] c := by
  have hquiet := laws.quiet
  obtain ⟨hminted, ctx, hgenesis⟩ := h
  obtain ⟨hw, hr, _⟩ := EvmStaking.initGenesis_queues hgenesis
  obtain ⟨_, vals, w', hvals, hregister⟩ := EvmStaking.returns_initGenesis.mp hgenesis
  obtain ⟨hframe, hsdk⟩ := EvmStaking.registerValidators_frame hregister
  refine ⟨⟨hw, hr, ?_⟩, hminted, ?_⟩
  · rw [hframe]
    rfl
  · have hsame : supply w' = supply w := (hquiet.getAllValidators ctx).returns _ _ _ hvals
    have hgen : sdkOf c.node = w' := hsdk
    simp [hgen, hsame]

/-- **One step** below the height keeps it. -/
theorem Holds.step (h : Holds supply gs w run c) (hheight : ConstantHeight A.keepers M height)
    (laws : Laws A.keepers supply) {step : Step} (hbelow : step.Below height)
    (hstep : step.Runs A M ic supply c c') : Holds supply gs w (run ++ [step]) c' := by
  have hsupply := h.supply_eq
  -- below the height the block begins and ends without doing anything
  have hsame (hc : c' = c) (hstaked : step.staked = 0) (hburned : step.burned = 0) :
      Holds supply gs w (run ++ [step]) c' := by
    subst hc
    refine ⟨h.frozen, h.minted, ?_⟩
    simpa [hstaked, hburned] using hsupply
  cases step with
  | beginBlock ctx =>
      refine hsame ?_ rfl rfl
      have hbegin : Returns (zoom mintLens (M.beginBlocker ctx ic)) c () c' := hstep
      have hlt : ctx.blockHeight < height.toNat := hbelow
      rw [beginBlocker_eq hheight, if_pos hlt] at hbegin
      obtain ⟨_, hpure, rfl⟩ := returns_zoom.mp hbegin
      obtain ⟨_, rfl⟩ := returns_pure.mp hpure
      exact mintLens.put_view c
  | payload E fuel ctx msg amount =>
      obtain ⟨⟨d, hzoom⟩, hamount⟩ := hstep
      obtain ⟨n, hmsg, rfl⟩ := returns_zoom.mp hzoom
      obtain ⟨hfrozen, _, hstaked⟩ := h.frozen.msgExecutionPayload laws hmsg
      refine ⟨hfrozen, h.minted, ?_⟩
      have hpaid : supply (sdkOf n) = supply (sdkOf c.node) + amount := by
        rw [hamount]
        exact hstaked
      show supply (sdkOf n) + _ = _
      simp only [List.map_append, List.sum_append, List.map_cons, List.map_nil, List.sum_cons,
        List.sum_nil, Step.staked, Step.burned]
      push_cast at hsupply ⊢
      omega
  | endBlock ctx =>
      refine hsame ?_ rfl rfl
      have hlt : ctx.blockHeight < height.toNat := hbelow
      have hend : Returns (zoom (nodeLens.comp evmstakingLens) (endBlock A.keepers ctx)) c () c' :=
        hstep
      rw [endBlock_eq hheight, if_pos hlt] at hend
      obtain ⟨_, hpure, rfl⟩ := returns_zoom.mp hend
      obtain ⟨_, rfl⟩ := returns_pure.mp hpure
      exact (nodeLens.comp evmstakingLens).put_view c
  | other burned =>
      obtain ⟨hw, hr, hindex, hevents, hburned⟩ := hstep
      refine ⟨⟨hw ▸ h.frozen.withdrawals, hr ▸ h.frozen.rewards, hindex ▸ h.frozen.sweep⟩,
        hevents ▸ h.minted, ?_⟩
      simp only [List.map_append, List.sum_append, List.map_cons, List.map_nil, List.sum_cons,
        List.sum_nil, Step.staked, Step.burned]
      push_cast at hsupply ⊢
      omega

/-- **Every run** below the height keeps it. -/
theorem holds_of_trace (hheight : ConstantHeight A.keepers M height)
    (laws : Laws A.keepers supply) (hstart : Starts A gs w c)
    (hrun : Trace (Step.Runs A M ic supply) c run c') (hbelow : ∀ step ∈ run, step.Below height) :
    Holds supply gs w run c' := by
  refine hrun.invariant (I := fun run c' => (∀ step ∈ run, step.Below height) →
    Holds supply gs w run c') (fun _ => hstart.holds laws) ?_ hbelow
  intro run step t u ih hstep hbelow
  have hlast := hbelow step (by simp)
  exact (ih fun step' hmem => hbelow step' (by simp [hmem])).step hheight laws hlast hstep

/-- A queue that is empty and whose counters are those of genesis. -/
structure Untouched (q : Collections.Queue EvmStaking.Withdrawal) : Prop where
  front : q.front = some 0
  rear : q.rear = some 0
  elements : ∀ k, q.elements k = none

theorem untouched_of_holds {q : Collections.Queue EvmStaking.Withdrawal} (h : q.Holds 0 []) :
    Untouched q :=
  ⟨h.front_eq, h.rear_eq, fun k => by simpa using h.elements_eq k⟩

/-- **Nothing moves before the singularity ends.** On every run from genesis whose blocks are
below the height, both queues are as genesis left them, and so is the sweep; nothing has been
minted by the mint module; a payload that is voted for has no withdrawals; and the supply of bond
coins, together with what slashing has burned, is that of genesis and the stakes that succeeded.
Below the height the begin blocker, the end blocker and the two guarded handlers do nothing; from
the height on each of them does all it has to do. -/
theorem nothing_moves_before_singularity (hheight : ConstantHeight A.keepers M height)
    (laws : Laws A.keepers supply) (hstart : Starts A gs w c)
    (hrun : Trace (Step.Runs A M ic supply) c run c') :
    ((∀ step ∈ run, step.Below height) →
      Untouched c'.node.store.evmstaking.withdrawalQueue ∧
      Untouched c'.node.store.evmstaking.rewardWithdrawalQueue ∧
      c'.node.store.evmstaking.validatorSweepIndex = some gs.validatorSweepIndex ∧
      c'.mintEvents = [] ∧
      (∀ actual t, Returns (compareWithdrawals A.keepers.codec actual) c'.node.store.evmstaking ()
        t → actual = []) ∧
      supply (sdkOf c'.node) + (run.map Step.burned).sum =
        supply w + (run.map Step.staked).sum) ∧
    (∀ ctx : Ctx, ctx.blockHeight < height.toNat →
      M.beginBlocker ctx ic = pure () ∧ endBlock A.keepers ctx = pure () ∧
        ∀ ev, Guarded ev → ∀ a, Returns (handle A.keepers ctx ev) a () a) ∧
    ∀ ctx : Ctx, height.toNat ≤ ctx.blockHeight →
      M.beginBlocker ctx ic = mintShare M ctx ic ∧
        endBlock A.keepers ctx = endBlockActive A.keepers ctx ∧
        (∀ ev, handle A.keepers ctx ev = handle (withoutSingularity A.keepers) ctx ev) ∧
        (∀ ev a a', Returns (handle A.keepers ctx (.withdraw ev)) a () a' → ∃ msg coin w,
          msg.delegatorAddress = A.keepers.codec.accString (bytesOf ev.delegator) ∧
          msg.amount = ⟨defaultBondDenom, ev.stakeAmount⟩ ∧
          Returns (A.keepers.staking.undelegate ctx msg) w coin a'.sdk) ∧
        ∀ ev a a', Returns (handle A.keepers ctx (.redelegate ev)) a () a' → ∃ msg coin w,
          msg.delegatorAddress = A.keepers.codec.accString (bytesOf ev.delegator) ∧
          msg.amount = ⟨defaultBondDenom, ev.amount⟩ ∧
          Returns (A.keepers.staking.beginRedelegate ctx msg) w coin a'.sdk := by
  refine ⟨?_, ?_, ?_⟩
  · intro hbelow
    have h := holds_of_trace hheight laws hstart hrun hbelow
    exact ⟨untouched_of_holds h.frozen.withdrawals, untouched_of_holds h.frozen.rewards,
      h.frozen.sweep, h.minted, fun _ _ hcompare => h.frozen.compareWithdrawals hcompare,
      h.supply_eq⟩
  · intro ctx hlt
    refine ⟨?_, ?_, fun ev hev a => handle_of_lt hheight hlt hev a⟩
    · rw [beginBlocker_eq hheight, if_pos hlt]
    · rw [endBlock_eq hheight, if_pos hlt]
  · intro ctx hge
    refine ⟨?_, ?_, handle_of_ge hheight hge, ?_, ?_⟩
    · rw [beginBlocker_eq hheight, if_neg (not_lt.mpr hge)]
    · rw [endBlock_eq hheight, if_neg (not_lt.mpr hge)]
    · exact fun ev a a' hev => withdraw_undelegates hheight hge hev
    · exact fun ev a a' hev => redelegate_begins hheight hge hev

end Runs

/-! ## A stake during the singularity -/

/-- The ledger of a chain whose singularity ends at height 10. -/
def frozenKeepers : Keepers Ledger :=
  { Ledger.keepers with
    staking := { Ledger.keepers.staking with getSingularityHeight := fun _ => pure 10 } }

def frozenMint : Mint.Keeper Ledger :=
  { Mint.ledgerKeeper with getSingularityHeight := fun _ => pure 10 }

theorem frozenKeepers_constant : ConstantHeight frozenKeepers frozenMint 10 :=
  ⟨fun _ => rfl, fun _ => rfl, by decide⟩

theorem frozenKeepers_laws : Laws frozenKeepers Ledger.supply :=
  have laws := EvmStaking.ledger_supplyLaws
  { quiet := { laws.quiet with getSingularityHeight := fun _ => Moves.pure _ }
    mintCoins := laws.mintCoins
    burnCoins := laws.burnCoins
    sendToAccount := laws.sendToAccount
    sendToModule := laws.sendToModule
    delegate := laws.delegate
    createValidator := laws.createValidator
    ubi := laws.ubi
    scheduleUpgrade := by
      intro ctx plan
      refine Ledger.moves_get_bind fun l => ?_
      split_ifs <;> rfl
    clearUpgradePlan := fun _ => Moves.modify fun _ => rfl
    setUbi := fun _ _ => Moves.pure _ }

/-- The bindings find a deposit of account 1 to validator 9, and a request to unstake it. -/
def frozenWiring : Wiring Ledger :=
  { orderedWiring with
    keepers := frozenKeepers
    stakingContract :=
      { orderedWiring.stakingContract with
        parseDeposit := fun _ => .ok ⟨addressOf 1, pubkeyOf 9, 5 * gwei, 1, 1, addressOf 1⟩
        parseWithdraw := fun _ => .ok ⟨addressOf 1, pubkeyOf 9, 5 * gwei, 1, addressOf 1⟩ } }

def frozenChain : Chain Ledger where
  node :=
    { store :=
        { evmstaking := effect (EvmStaking.initGenesis frozenKeepers (localnetCtx .other)
            ⟨EvmStaking.defaultParams, ⟨0, 0⟩⟩) (EvmStaking.Store.fresh stakedLedger)
          head := some firstHeads.1
          pendingUpgrade := none }
      isExecEngSyncing := false
      mutablePayload := ⟨Vector.replicate 8 0, 0⟩ }
  mintParams := some Mint.defaultParams
  mintEvents := []

/-- The block in which they come. -/
def frozenBlock : List Step :=
  [ .beginBlock (localnetCtx .finalize),
    .payload obligingEngine 1 (localnetCtx .finalize)
      { nextMsg frozenWiring firstHeads.1 [] with prevPayloadEvents := [eventOf 7, eventOf 9] } 5,
    .endBlock (localnetCtx .finalize) ]

theorem stake_during_singularity : ∃ c',
    Trace (Step.Runs frozenWiring frozenMint
        (Mint.defaultInflationCalculationFn Mint.exactQuo) Ledger.supply)
      frozenChain frozenBlock c' ∧
    Untouched c'.node.store.evmstaking.withdrawalQueue ∧ (sdkOf c'.node).supply = 5 := by
  let msg : MsgExecutionPayload :=
    { nextMsg frozenWiring firstHeads.1 [] with prevPayloadEvents := [eventOf 7, eventOf 9] }
  have hpayload : (outcome (msgExecutionPayload frozenWiring obligingEngine 1
      (localnetCtx .finalize) msg) frozenChain.node).map (fun _ => ()) = some () := by
    decide +kernel
  obtain ⟨d, n, hmsg, _⟩ := returns_of_outcome hpayload
  have hamount : 5 = staked frozenKeepers (localnetCtx .finalize)
      frozenChain.node.store.evmstaking.accounts
      (frozenWiring.stakingContract.eventsOf [eventOf 7, eventOf 9]) := by decide +kernel
  have hstart : Starts frozenWiring ⟨EvmStaking.defaultParams, ⟨0, 0⟩⟩ stakedLedger frozenChain :=
    ⟨rfl, localnetCtx .other, rfl⟩
  let c₁ : Chain Ledger := { frozenChain with node := n }
  have hend : Returns (zoom (nodeLens.comp evmstakingLens)
      (endBlock frozenKeepers (localnetCtx .finalize))) c₁ () c₁ := by rfl
  have hrun : Trace (Step.Runs frozenWiring frozenMint
      (Mint.defaultInflationCalculationFn Mint.exactQuo)
      Ledger.supply) frozenChain frozenBlock c₁ :=
    ((Trace.nil.snoc (a := Step.beginBlock _) rfl).snoc (a := Step.payload _ _ _ msg 5)
      ⟨⟨d, returns_zoom.mpr ⟨n, hmsg, rfl⟩⟩, hamount⟩).snoc (a := Step.endBlock _) hend
  have hlt : (localnetCtx .finalize).blockHeight < (10 : UInt64).toNat := by decide
  have hbelow : ∀ step ∈ frozenBlock, step.Below 10 := by
    simp only [frozenBlock, List.forall_mem_cons]
    exact ⟨hlt, hlt, hlt, by simp⟩
  obtain ⟨hfrozen, _⟩ := nothing_moves_before_singularity frozenKeepers_constant
    frozenKeepers_laws hstart hrun
  obtain ⟨huntouched, _, _, _, _, hsupply⟩ := hfrozen hbelow
  have hburned : (frozenBlock.map Step.burned).sum = 0 := rfl
  have hstaked : (frozenBlock.map Step.staked).sum = 5 := rfl
  have hgenesis : stakedLedger.supply = 0 := rfl
  rw [hburned, hstaked, hgenesis] at hsupply
  refine ⟨_, hrun, huntouched, ?_⟩
  simpa using hsupply

end Story.App.Singularity
