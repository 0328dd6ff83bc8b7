/-
# Story.EvmEngine.Withdrawals -- from the queues to the execution layer

The three guarantees about the withdrawals of a payload, over whole runs of a node: they
are delivered exactly once and in order, the ones validators vote for are the ones that
are paid, and a payload that was accepted can be finalized. All three rest on the keys of
the queues, which are `uint64` counters: they hold as long as fewer than 2^64 withdrawals
have entered a queue, and the last two fail at the next one.
-/
import Story.EvmEngine.Progress
import Story.Sdk.Ledger

namespace Story.EvmEngine

open Story.Effect Story.Errors Story.Sdk Story.Collections Story.Netconf
open Story.EvmStaking (Withdrawal numbered processStakingEvents)

variable {W : Type}

/-! ## Delivered once, in order -/

/-- What was delivered out of a queue, against what was enqueued in it: the delivered
withdrawals followed by the contents are the enqueued ones, and the indices handed out
are `0, 1, 2, ...`. -/
structure DeliveredInOrder (codec : Codec) (q : Queue Withdrawal) (enqueued : List Withdrawal)
    (delivered : List Eth.Withdrawal) : Prop where
  concat : ∃ paid, delivered = numbered codec 0 paid ∧ paid ++ q.contents = enqueued
  indices : delivered.map (fun w => w.index.toNat) = List.range delivered.length

theorem Tracked.deliveredInOrder {codec : Codec} {q : Queue Withdrawal} {all : List Withdrawal}
    {paid : List Eth.Withdrawal} (h : Tracked codec q all paid) :
    DeliveredInOrder codec q all paid where
  concat := ⟨all.take paid.length, h.paid_eq, by rw [h.contents_eq, List.take_append_drop]⟩
  indices := by
    have hidx := congrArg (List.map UInt64.toNat) h.map_index
    rw [List.map_map, List.map_map] at hidx
    refine hidx.trans ((List.map_congr_left ?_).trans (List.map_id _))
    intro i hi
    have hi' := List.mem_range.mp hi
    have hb := h.holds.bound
    exact Queue.toNat_ofNat_of_lt (by omega)

/-- **Withdrawals are delivered exactly once and in order.** After every run from genesis,
in each queue; and a payload finalized next delivers at most the maximum, and delivers
rewards only when it leaves the first queue empty. -/
theorem withdrawals_delivered_once {A : Wiring W} {run : List NodeStep} {n : Node W}
    (hrun : GenesisRun A run n) :
    DeliveredInOrder A.keepers.codec n.store.evmstaking.withdrawalQueue
        (run.flatMap NodeStep.enqueued) (run.flatMap NodeStep.delivered) ∧
      DeliveredInOrder A.keepers.codec n.store.evmstaking.rewardWithdrawalQueue
        (run.flatMap NodeStep.enqueuedRewards) (run.flatMap NodeStep.deliveredRewards) ∧
      ∀ E fuel ctx msg d n', Returns (msgExecutionPayload A E fuel ctx msg) n d n' →
        d.withdrawals.length + d.rewardWithdrawals.length ≤ (maxOf n.store.evmstaking).toNat ∧
          (d.rewardWithdrawals ≠ [] → n'.store.evmstaking.withdrawalQueue.contents = []) := by
  obtain ⟨hw, hr⟩ := hrun.tracked
  refine ⟨hw.deliveredInOrder, hr.deliveredInOrder, ?_⟩
  intro E fuel ctx msg d n' h
  obtain ⟨payload, t, _, hd, hframe, _⟩ := msgExecutionPayload_returns h
  obtain ⟨hle, hempty⟩ := dequeueProposed_bounds _ hw.holds hr.holds hd
  refine ⟨hle, fun hne => ?_⟩
  rw [hframe]
  exact hempty hne

/-- A withdrawal of one unit. -/
def oneUnit : Withdrawal := ⟨1, "0x01", 1, .unstake, "0x02"⟩

/-- The genesis of the ledger: no accounts, no validators, the default parameters. -/
theorem exists_ledger_genesis : ∃ n₀ : Node Ledger,
    Returns (EvmStaking.initGenesis Ledger.keepers (localnetCtx .other)
        ⟨EvmStaking.defaultParams, ⟨0, 0⟩⟩) (EvmStaking.Store.fresh Ledger.empty) ()
        n₀.store.evmstaking ∧
      Idle (some EvmStaking.defaultParams) 0 n₀ := by
  obtain ⟨s, hs⟩ := EvmStaking.initGenesis_of_no_validators Ledger.keepers (localnetCtx .other)
    (show EvmStaking.validateGenesis ⟨EvmStaking.defaultParams, ⟨0, 0⟩⟩ = .ok () from rfl)
    (show Returns (Ledger.keepers.staking.getAllValidators _) Ledger.empty [] Ledger.empty from rfl)
  obtain ⟨hw, hr, hp⟩ := EvmStaking.initGenesis_queues hs
  exact ⟨⟨⟨s, some ⟨0, 0, [], 0⟩, none⟩, false, ⟨Vector.replicate 8 0, 0⟩⟩, hs,
    ⟨⟨_, rfl⟩, hw, hr, hp, rfl⟩⟩

/-- A run of the ledger in which `k` withdrawals are queued and paid one by one. -/
theorem exists_ledger_run {k : Nat} (hk : k < 2 ^ 64) :
    ∃ run n, GenesisRun (plainWiring Ledger.keepers) run n ∧
      Idle (some EvmStaking.defaultParams) k n ∧
      run.flatMap NodeStep.enqueued = List.replicate k oneUnit := by
  obtain ⟨n₀, hgen, h₀⟩ := exists_ledger_genesis
  have hmax : 0 < (maxOf n₀.store.evmstaking).toNat := by
    rw [maxOf, EvmStaking.Store.currentParams, h₀.params]
    decide
  obtain ⟨run, n, hrun, hn, hq, hr⟩ := h₀.reach (A := plainWiring Ledger.keepers) hmax oneUnit hk
  refine ⟨run, n, ⟨⟨_, _, _, n₀, hgen, hrun⟩, ?_, ?_⟩, hn, hq⟩
  · rw [hq, List.length_replicate]
    exact hk
  · rw [hr]
    exact Nat.two_pow_pos 64

/-- After three rounds three withdrawals are delivered, and none is left. -/
theorem three_withdrawals_delivered : ∃ run n, GenesisRun (plainWiring Ledger.keepers) run n ∧
    run.flatMap NodeStep.enqueued = List.replicate 3 oneUnit ∧
    n.store.evmstaking.withdrawalQueue.contents = [] ∧
    DeliveredInOrder Ledger.codec n.store.evmstaking.withdrawalQueue (List.replicate 3 oneUnit)
      (run.flatMap NodeStep.delivered) := by
  obtain ⟨run, n, hrun, hn, hq⟩ := exists_ledger_run (show 3 < 2 ^ 64 by decide)
  exact ⟨run, n, hrun, hq, hn.withdrawals.contents_eq, hq ▸ (withdrawals_delivered_once hrun).1⟩

/-! ## Voted and paid -/

/-- Validators vote for `d` in state `s`, and `d` is what is paid. -/
structure PaysAsVoted (codec : Codec) (s : EvmStaking.Store W) (d : Dequeued) : Prop where
  /-- `d` is what the finalized message takes out of the queues. -/
  obtained : ∃ s₁ t,
    Returns (EvmStaking.dequeueEligibleWithdrawals codec (maxOf s)) s d.withdrawals s₁ ∧
      Returns (EvmStaking.dequeueEligibleRewardWithdrawals codec
        (maxOf s - UInt32.ofNat d.withdrawals.length)) s₁ d.rewardWithdrawals t
  /-- The vote accepts these withdrawals, in this order, and no others. -/
  vote : ∀ ws s', Returns (compareWithdrawals codec (ws.map some)) s () s' ↔
    ws = d.withdrawals ++ d.rewardWithdrawals ∧ s = s'
  /-- Both length checks of the finalized message pass. -/
  length_checks : ∃ t,
    Returns (dequeueProposed codec (d.withdrawals ++ d.rewardWithdrawals).length) s d t
  /-- The subtraction from the maximum does not wrap. -/
  no_underflow : d.withdrawals.length ≤ (maxOf s).toNat ∧
    (maxOf s - UInt32.ofNat d.withdrawals.length).toNat
      = (maxOf s).toNat - d.withdrawals.length
  /-- Peeking returns what dequeuing would, and leaves the state as it is. -/
  peek : ∀ max, ∃ ws t, Returns (EvmStaking.peekEligibleWithdrawals codec max) s ws s ∧
    Returns (EvmStaking.dequeueEligibleWithdrawals codec max) s ws t
  peekRewards : ∀ max, ∃ ws t,
    Returns (EvmStaking.peekEligibleRewardWithdrawals codec max) s ws s ∧
      Returns (EvmStaking.dequeueEligibleRewardWithdrawals codec max) s ws t

theorem paysAsVoted_of_holds (codec : Codec) {s : EvmStaking.Store W} {k m : Nat}
    {l r : List Withdrawal} (hl : s.withdrawalQueue.Holds k l)
    (hr : s.rewardWithdrawalQueue.Holds m r) :
    PaysAsVoted codec s (dequeuedOf codec s k m l r) where
  obtained := by
    obtain ⟨q, hd, _⟩ := dequeueEligibleWithdrawals_returns codec hl (maxOf s)
    obtain ⟨q', hd', _⟩ := dequeueEligibleRewardWithdrawals_returns codec
      (s := { s with withdrawalQueue := q }) hr (maxOf s - UInt32.ofNat (due (maxOf s) l).length)
    have hlen : (dequeuedOf codec s k m l r).withdrawals.length = (due (maxOf s) l).length := by
      simp [dequeuedOf]
    rw [due_sub_due, ← hlen] at hd'
    exact ⟨_, _, hd, hd'⟩
  vote := by
    intro ws s'
    rw [returns_compareWithdrawals codec hl hr]
    refine and_congr_left fun _ => ?_
    exact (List.map_injective_iff.mpr (Option.some_injective _)).eq_iff
  length_checks := by
    obtain ⟨q, q', _, _, hspec⟩ := dequeueProposed_spec codec hl hr
    exact ⟨_, (hspec _ _ _).mpr ⟨by simp [dequeuedOf], rfl, rfl⟩⟩
  no_underflow := by
    simpa [dequeuedOf] using And.intro (length_due_le (maxOf s) l) (toNat_sub_due (maxOf s) l)
  peek := by
    intro max
    obtain ⟨q, hd, _⟩ := dequeueEligibleWithdrawals_returns codec hl max
    exact ⟨_, _, peekEligibleWithdrawals_returns codec hl max, hd⟩
  peekRewards := by
    intro max
    obtain ⟨q, hd, _⟩ := dequeueEligibleRewardWithdrawals_returns codec hr max
    exact ⟨_, _, peekEligibleRewardWithdrawals_returns codec hr max, hd⟩

/-- **What validators vote for is what gets paid**, in every state a run from genesis
reaches before 2^64 withdrawals have entered a queue, for every value of the parameters. -/
theorem voted_withdrawals_are_paid {A : Wiring W} {run : List NodeStep} {n : Node W}
    (hrun : GenesisRun A run n) (p : EvmStaking.Params) :
    ∃ d, PaysAsVoted A.keepers.codec { n.store.evmstaking with params := some p } d := by
  obtain ⟨hw, hr⟩ := hrun.tracked
  exact ⟨_, paysAsVoted_of_holds A.keepers.codec
    (s := { n.store.evmstaking with params := some p }) hw.holds hr.holds⟩

theorem Reached.enqueue {A : Wiring W} {run : List NodeStep} {n : Node W} (h : Reached A run n)
    (w : Withdrawal) : Reached A (run ++ [.enqueue w]) (queued n w) := by
  obtain ⟨ctx, gs, w₀, n₀, hgen, hrun⟩ := h
  exact ⟨ctx, gs, w₀, n₀, hgen, hrun.snoc (runs_enqueue A n w)⟩

/-- The withdrawals of a fourth block, while the first of it waits in the queue. -/
theorem fourth_withdrawal_paid_as_voted : ∃ run n,
    GenesisRun (plainWiring Ledger.keepers) run n ∧
    n.store.evmstaking.withdrawalQueue.contents = [oneUnit] ∧
    ∃ d, PaysAsVoted Ledger.codec
      { n.store.evmstaking with params := some EvmStaking.defaultParams } d := by
  obtain ⟨run, n, hrun, hn, hq⟩ := exists_ledger_run (show 3 < 2 ^ 64 by decide)
  have hrun' : GenesisRun (plainWiring Ledger.keepers) (run ++ [.enqueue oneUnit])
      (queued n oneUnit) := by
    refine ⟨hrun.reached.enqueue oneUnit, ?_, ?_⟩
    · rw [List.flatMap_append, hq, List.length_append, List.length_replicate]
      decide
    · rw [List.flatMap_append, List.length_append]
      exact hrun.bound_rewards
  exact ⟨_, _, hrun', (hn.withdrawals.push oneUnit (by decide)).contents_eq,
    voted_withdrawals_are_paid hrun' EvmStaking.defaultParams⟩

/-- **Without the bound the vote and the payment part.** After 2^64 - 1 withdrawals have
gone through the queue, the next one is under the last key: the vote accepts the empty
list only, and the finalized message takes the withdrawal out. -/
theorem vote_misses_last_key : ∃ run n, Reached (plainWiring Ledger.keepers) run n ∧
    Returns (compareWithdrawals Ledger.codec []) n.store.evmstaking () n.store.evmstaking ∧
    ∃ w t, Returns (EvmStaking.dequeueEligibleWithdrawals Ledger.codec (maxOf n.store.evmstaking))
      n.store.evmstaking [w] t := by
  obtain ⟨run, n, hrun, hn, _⟩ := exists_ledger_run (show 2 ^ 64 - 1 < 2 ^ 64 by decide)
  have hmax : 0 < (maxOf n.store.evmstaking).toNat := by
    rw [maxOf, EvmStaking.Store.currentParams, hn.params]
    decide
  obtain ⟨t, ht⟩ := hn.dequeue_last Ledger.codec oneUnit hmax
  exact ⟨_, _, hrun.reached.enqueue oneUnit, hn.vote_last Ledger.codec oneUnit, _, t, ht⟩

/-! ## Accepted and finalized -/

/-- **Acceptance implies finalization.** If the vote on a message returns, in a state a run
from genesis reaches before 2^64 withdrawals have entered a queue, then the finalized
message never stops with an error or a panic, and returns once the client answers, with
the payload as the new head. The three dispatchers return on its events in any state. -/
theorem accepted_payload_finalizes {A : Wiring W} {run : List NodeStep} {n n₁ : Node W}
    (hrun : GenesisRun A run n) {E E' : Engine} {fuel : Nat} {ctx ctx' : Ctx}
    {msg : MsgExecutionPayload} {u : Unit}
    (hvote : Returns (proposalExecutionPayload A E fuel ctx msg) n u n₁)
    (hchain : ctx'.chainID = ctx.chainID) (hheight : ctx'.blockHeight = ctx.blockHeight)
    (htime : ctx'.blockTime = ctx.blockTime) (hmode : ctx'.execMode = .finalize)
    (happ : Eth.bytesToHash ctx'.appHash ≠ emptyHash) (hE : E'.Accepts) :
    (∀ fuel f n', Fails (msgExecutionPayload A E' fuel ctx' msg) n f n' → f = .retrying) ∧
      (E'.Answers → ∃ payload fuel₀ d n',
        parseAndVerifyProposedPayload A ctx n.store.head msg = .ok payload ∧
        (∀ fuel, fuel₀ ≤ fuel → Returns (msgExecutionPayload A E' fuel ctx' msg) n d n') ∧
        n'.store.head = some
          { createdHeight := toUint64 ctx'.blockHeight
            blockHeight := payload.number
            blockHash := Eth.bytesOf payload.blockHash
            blockTime := payload.timestamp }) ∧
      (∀ s, ∃ t, Returns (processStakingEvents A.keepers A.stakingContract ctx'
        msg.prevPayloadEvents) s () t) ∧
      (∀ s, ∃ t, Returns (processUpgradeEvents A.keepers A.upgradeContract ctx'
        msg.prevPayloadEvents) s () t) ∧
      (∀ s, ∃ t, Returns (processUBIEvents A.keepers A.ubiContract ctx'
        msg.prevPayloadEvents) s () t) := by
  obtain ⟨payload, s, hparse, hcompare, hv⟩ := proposalExecutionPayload_returns hvote
  obtain ⟨hw, hr⟩ := hrun.tracked
  obtain ⟨hactual, _⟩ := (returns_compareWithdrawals A.keepers.codec hw.holds hr.holds).mp hcompare
  obtain ⟨q, q', _, _, hspec⟩ := dequeueProposed_spec A.keepers.codec hw.holds hr.holds
  have hd := (hspec (payload.withdrawals.getD []).length _ _).mpr
    ⟨by rw [hactual]; simp [dequeuedOf], rfl, rfl⟩
  have hparse' : parseAndVerifyProposedPayload A ctx' n.store.head msg = .ok payload :=
    (parse_congr hchain hheight htime _).trans hparse
  obtain ⟨hfails, hreturns⟩ := msgExecutionPayload_of_checked hmode hparse' hd hv hE
  have hstaking := stakingEvents_isolated A.keepers A.stakingContract ctx'
  have hupgrade := upgradeEvents_isolated A.keepers A.upgradeContract ctx'
  have hubi := ubiEvents_isolated A.keepers A.ubiContract ctx'
  refine ⟨hfails, ?_, fun s => ⟨_, hstaking.returns_fold _ s hv⟩,
    fun s => ⟨_, hupgrade.returns_fold _ s hv⟩, fun s => ⟨_, hubi.returns_fold _ s hv⟩⟩
  intro hans
  obtain ⟨fuel₀, n', hret⟩ := hreturns hans happ
  refine ⟨payload, fuel₀, _, n', hparse, hret, ?_⟩
  obtain ⟨payload', _, hp, _, _, hhead⟩ := msgExecutionPayload_returns (hret fuel₀ le_rfl)
  rw [hparse'] at hp
  obtain rfl := Except.ok.inj hp
  exact hhead

/-- The node of the ledger votes for a payload on top of its head, and finalizes it. -/
theorem ledger_finalizes_what_it_accepts : ∃ (n : Node Ledger) (msg : MsgExecutionPayload),
    Returns (proposalExecutionPayload (plainWiring Ledger.keepers) obligingEngine 1
      (localnetCtx .other) msg) n () n ∧
    ∃ fuel₀ d n', ∀ fuel, fuel₀ ≤ fuel → Returns (msgExecutionPayload (plainWiring Ledger.keepers)
      obligingEngine fuel (localnetCtx .finalize) msg) n d n' := by
  obtain ⟨run, n, hrun, hn, _⟩ := exists_ledger_run (show 3 < 2 ^ 64 by decide)
  obtain ⟨head, hhead⟩ := hn.head
  have hcompare : Returns (compareWithdrawals Ledger.codec []) n.store.evmstaking ()
      n.store.evmstaking :=
    (returns_compareWithdrawals Ledger.codec hn.withdrawals hn.rewards).mpr
      ⟨by simp [dequeuedOf, due, dueRewards, numbered], rfl⟩
  have hvote : Returns (proposalExecutionPayload (plainWiring Ledger.keepers) obligingEngine 1
      (localnetCtx .other) (nextMsg (plainWiring Ledger.keepers) head [])) n () n :=
    vote_of_compared hn.synced (by rw [hhead]; exact parse_nextMsg _ head [] .other)
      (by rw [nextProto_withdrawals]; exact hcompare) (by decide) rfl
  obtain ⟨_, hreturns, _⟩ := accepted_payload_finalizes hrun hvote
    (show (localnetCtx .finalize).chainID = _ from rfl) rfl rfl rfl (by decide)
    obligingEngine_accepts
  obtain ⟨_, fuel₀, d, n', _, hret, _⟩ := hreturns obligingEngine_answers
  exact ⟨n, _, hvote, fuel₀, d, n', hret⟩

/-- **Without the bound an accepted payload may not finalize.** After 2^64 - 1 withdrawals
have gone through the queue and one more waits, the node accepts a payload without
withdrawals, and then refuses to finalize it. -/
theorem accepted_payload_refused_at_last_key : ∃ run n msg,
    Reached (plainWiring Ledger.keepers) run n ∧
    Returns (proposalExecutionPayload (plainWiring Ledger.keepers) obligingEngine 1
      (localnetCtx .other) msg) n () n ∧
    ∀ fuel, ∃ e n', Fails (msgExecutionPayload (plainWiring Ledger.keepers) obligingEngine fuel
      (localnetCtx .finalize) msg) n (.err e) n' := by
  obtain ⟨run, n, hrun, hn, _⟩ := exists_ledger_run (show 2 ^ 64 - 1 < 2 ^ 64 by decide)
  have hmax : 0 < (maxOf n.store.evmstaking).toNat := by
    rw [maxOf, EvmStaking.Store.currentParams, hn.params]
    decide
  obtain ⟨head, hhead⟩ := hn.head
  have hparse (mode : ExecMode) : parseAndVerifyProposedPayload (plainWiring Ledger.keepers)
      (localnetCtx mode) (queued n oneUnit).store.head
      (nextMsg (plainWiring Ledger.keepers) head []) =
        .ok (nextProto head []).toExecutableData := by
    change parseAndVerifyProposedPayload _ _ n.store.head _ = _
    rw [hhead]
    exact parse_nextMsg _ head [] mode
  refine ⟨_, queued n oneUnit, nextMsg (plainWiring Ledger.keepers) head [],
    hrun.reached.enqueue oneUnit, ?_, ?_⟩
  · exact vote_of_compared hn.synced (hparse .other)
      (by rw [nextProto_withdrawals]; exact hn.vote_last Ledger.codec oneUnit) (by decide) rfl
  · intro fuel
    obtain ⟨e, t, ht⟩ := hn.refuse_last Ledger.codec oneUnit hmax
    refine ⟨e, evmstakingLens.put t (queued n oneUnit), ?_⟩
    rw [msgExecutionPayload,
      if_neg (show ¬ (localnetCtx .finalize).execMode ≠ .finalize from not_not.mpr rfl)]
    refine (returns_get.mpr ⟨rfl, rfl⟩ : Returns get _ _ _).fails_bind_iff.mpr ?_
    refine (returns_ofExcept.mpr ⟨hparse .finalize, rfl⟩).fails_bind_iff.mpr ?_
    refine fails_bind.mpr (.inl (fails_zoom.mpr ⟨t, ?_, rfl⟩))
    rw [nextProto_withdrawals]
    exact ht

end Story.EvmEngine
