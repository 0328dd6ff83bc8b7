/-
# Story.EvmEngine.Progress -- a node can always go on

Whatever withdrawals wait in the queues and whatever block is the head, there is a
payload on top of it that a node finalizes, and it pays what is due. Rounds of queuing
one withdrawal and finalizing such a payload lead a node to every count of withdrawals,
up to the last key of the queue.
-/
import Story.EvmEngine.Agreement

namespace Story.EvmEngine

open Story.Effect Story.Errors Story.Sdk Story.Collections Story.Netconf
open Story.EvmStaking (Withdrawal numbered)

variable {W : Type}

/-! ## A payload on top of any head -/

/-- A client that takes every payload at the first attempt and has no logs. -/
def obligingEngine : Engine where
  newPayloadV3 := fun _ _ _ => .ok ⟨.valid, none, none⟩
  forkchoiceUpdatedV3 := fun _ _ _ => .ok ⟨⟨.valid, none, none⟩, none⟩
  getPayloadV3 := fun _ _ => .ok none
  filterLogs := fun _ _ => .ok []
  cancelled := fun _ _ => false

theorem obligingEngine_accepts : obligingEngine.Accepts where
  not_cancelled := fun _ _ => rfl
  newPayload := by
    intro i payload root status h
    cases h
    decide
  forkchoice := by
    intro i fcs attrs fcr h
    cases h
    decide

theorem obligingEngine_answers : obligingEngine.Answers where
  newPayload := fun _ _ => ⟨0, _, rfl⟩
  forkchoice := fun _ _ => ⟨0, _, rfl⟩

/-- A context of a chain on which the proto payload is in use from the start. -/
def localnetCtx (execMode : ExecMode) : Ctx := ⟨storyLocalnetID, 1, 0, [1], execMode⟩

/-- The next payload on top of `head`, in its protobuf form. -/
def nextProto (head : ExecutionHead) (ws : List Eth.Withdrawal) : ExecutionPayloadDeneb where
  parentHash := head.hash
  feeRecipient := Vector.replicate 20 0
  stateRoot := emptyHash
  receiptsRoot := emptyHash
  logsBloom := []
  prevRandao := head.hash
  blockNumber := head.blockHeight + 1
  gasLimit := 0
  gasUsed := 0
  timestamp := minTimestamp head
  extraData := []
  baseFeePerGas := toBytesBE 32 0
  blockHash := emptyHash
  transactions := none
  withdrawals := ws.map fun w => ⟨w.index, w.validator, w.address, w.amount⟩
  blobGasUsed := 0
  excessBlobGas := 0

/-- The message that proposes it. -/
def nextMsg (A : Wiring W) (head : ExecutionHead) (ws : List Eth.Withdrawal) :
    MsgExecutionPayload where
  authority := A.keepers.codec.moduleAddress moduleName
  executionPayload := none
  prevPayloadEvents := []
  executionPayloadDeneb := some (nextProto head ws)

theorem fitsHead_next (head : ExecutionHead) (ws : List Eth.Withdrawal) (execMode : ExecMode) :
    FitsHead (localnetCtx execMode) head (nextProto head ws).toExecutableData where
  number := rfl
  parentHash := rfl
  min_timestamp := UInt64.le_refl _
  max_timestamp := by
    change minTimestamp head ≤ maxTimestamp _ head
    rw [maxTimestamp]
    split
    · exact UInt64.le_refl _
    · next h => exact UInt64.not_lt.mp h
  random := rfl
  withdrawals := rfl
  blobGasUsed := rfl
  excessBlobGas := rfl
  executionWitness := rfl

/-- Both servers parse it. -/
theorem parse_nextMsg (A : Wiring W) (head : ExecutionHead) (ws : List Eth.Withdrawal)
    (execMode : ExecMode) :
    parseAndVerifyProposedPayload A (localnetCtx execMode) (some head) (nextMsg A head ws)
      = .ok (nextProto head ws).toExecutableData :=
  parse_of_fits rfl
    (parsePayload_proto (show isTerence storyLocalnetID 1 = .ok true by decide) rfl rfl
      (length_toBytesBE 32 0))
    (fitsHead_next head ws execMode)

theorem nextProto_withdrawals (head : ExecutionHead) (ws : List Eth.Withdrawal) :
    (nextProto head ws).toExecutableData.withdrawals.getD [] = ws.map some := by
  simp [nextProto, ExecutionPayloadDeneb.toExecutableData, withdrawalFromProto]

/-- **Progress.** On top of any head there is a payload that finalizes, and it pays what is
due from the two queues. -/
theorem exists_finalize (A : Wiring W) {n : Node W} {head : ExecutionHead} {k m : Nat}
    {l r : List Withdrawal} (hhead : n.store.head = some head)
    (hl : n.store.evmstaking.withdrawalQueue.Holds k l)
    (hr : n.store.evmstaking.rewardWithdrawalQueue.Holds m r) :
    ∃ fuel n', Returns (msgExecutionPayload A obligingEngine fuel (localnetCtx .finalize)
        (nextMsg A head ((dequeuedOf A.keepers.codec n.store.evmstaking k m l r).withdrawals ++
          (dequeuedOf A.keepers.codec n.store.evmstaking k m l r).rewardWithdrawals))) n
        (dequeuedOf A.keepers.codec n.store.evmstaking k m l r) n' := by
  obtain ⟨q, q', _, _, hspec⟩ := dequeueProposed_spec A.keepers.codec hl hr
  have hparse := parse_nextMsg A head
    ((dequeuedOf A.keepers.codec n.store.evmstaking k m l r).withdrawals ++
      (dequeuedOf A.keepers.codec n.store.evmstaking k m l r).rewardWithdrawals) .finalize
  rw [← hhead] at hparse
  have hd := (hspec _ _ _).mpr ⟨rfl, rfl, rfl⟩
  obtain ⟨fuel, n', hret⟩ := (msgExecutionPayload_of_checked rfl hparse
    (by rw [nextProto_withdrawals]; simpa [dequeuedOf] using hd) (by intro ev hev; cases hev)
    obligingEngine_accepts).2 obligingEngine_answers (by decide)
  exact ⟨fuel, n', hret fuel le_rfl⟩

/-- A node in sync votes for a payload that passes the checks and pays what it peeks. -/
theorem vote_of_compared {A : Wiring W} {n : Node W} {ctx : Ctx} {msg : MsgExecutionPayload}
    {payload : Eth.ExecutableData} (hsync : n.isExecEngSyncing = false)
    (hparse : parseAndVerifyProposedPayload A ctx n.store.head msg = .ok payload)
    (hcompare : Returns (compareWithdrawals A.keepers.codec (payload.withdrawals.getD []))
      n.store.evmstaking () n.store.evmstaking)
    (happ : Eth.bytesToHash ctx.appHash ≠ emptyHash) (hevents : msg.prevPayloadEvents = []) :
    Returns (proposalExecutionPayload A obligingEngine 1 ctx msg) n () n := by
  have hpush : Returns (attempt (pushPayload obligingEngine ctx payload 0)) n
      (.ok ⟨.valid, none, none⟩) n :=
    returns_attempt_ok.mpr (by
      rw [pushPayload, if_neg happ]
      exact returns_wrapErr.mpr (returns_convert.mpr ⟨rfl, rfl⟩))
  have hloop : Returns (retryForever (obligingEngine.cancelled .newPayload)
      (verifyPush obligingEngine ctx payload) 1 0) n () n :=
    retryForever_of_attempt (n := 0) (fun _ => rfl) (by simp)
      (hpush.bind (returns_pure.mpr ⟨rfl, rfl⟩)) Nat.one_pos
  have hlogs : Returns (evmEvents obligingEngine 1 payload.parentHash) n [] n := rfl
  refine (returns_get.mpr ⟨rfl, rfl⟩ : Returns get n n n).bind ?_
  rw [hsync, if_neg Bool.false_ne_true]
  refine (returns_wrapErr.mpr (returns_ofExcept.mpr ⟨hparse, rfl⟩)).bind ?_
  refine (returns_wrapErr.mpr (returns_zoom.mpr ⟨_, hcompare, evmstakingLens.put_view n⟩)).bind ?_
  refine hloop.bind ((returns_wrapErr.mpr hlogs).bind ?_)
  rw [hevents]
  exact returns_wrapErr.mpr (returns_ofExcept.mpr ⟨rfl, rfl⟩)

/-! ## Rounds of queuing and paying out -/

/-- Keepers wired to bindings that make nothing of any log, and to no JSON encoder. -/
def plainWiring (K : Keepers W) : Wiring W where
  keepers := K
  stakingContract :=
    { updateValidatorCommissionID := emptyHash
      parseUpdateValidatorCommission := fun _ => .error (.new "no event")
      setWithdrawalAddressID := emptyHash
      parseSetWithdrawalAddress := fun _ => .error (.new "no event")
      setRewardAddressID := emptyHash
      parseSetRewardAddress := fun _ => .error (.new "no event")
      setOperatorID := emptyHash
      parseSetOperator := fun _ => .error (.new "no event")
      unsetOperatorID := emptyHash
      parseUnsetOperator := fun _ => .error (.new "no event")
      createValidatorID := emptyHash
      parseCreateValidator := fun _ => .error (.new "no event")
      depositID := emptyHash
      parseDeposit := fun _ => .error (.new "no event")
      redelegateID := emptyHash
      parseRedelegate := fun _ => .error (.new "no event")
      withdrawID := emptyHash
      parseWithdraw := fun _ => .error (.new "no event")
      unjailID := emptyHash
      parseUnjail := fun _ => .error (.new "no event") }
  upgradeContract :=
    { softwareUpgradeID := emptyHash
      parseSoftwareUpgrade := fun _ => .error (.new "no event")
      cancelUpgradeID := emptyHash
      parseCancelUpgrade := fun _ => .error (.new "no event") }
  ubiContract :=
    { ubiPercentageSetID := emptyHash
      parseUBIPercentageSet := fun _ => .error (.new "no event") }
  json :=
    { marshal := fun _ => .error ⟨"no encoder", []⟩
      decodeStrict := fun _ => .error ⟨"no decoder", []⟩
      unmarshal := fun _ => .error ⟨"no decoder", []⟩ }

/-- `k` withdrawals have gone through the first queue, none through the second, and none
waits. -/
structure Idle (p : Option EvmStaking.Params) (k : Nat) (n : Node W) : Prop where
  head : ∃ head, n.store.head = some head
  withdrawals : n.store.evmstaking.withdrawalQueue.Holds k []
  rewards : n.store.evmstaking.rewardWithdrawalQueue.Holds 0 []
  params : n.store.evmstaking.params = p
  synced : n.isExecEngSyncing = false

/-- The node after `w` was queued. -/
def queued (n : Node W) (w : Withdrawal) : Node W :=
  evmstakingLens.put { n.store.evmstaking with
    withdrawalQueue := n.store.evmstaking.withdrawalQueue.push w } n

theorem runs_enqueue (A : Wiring W) (n : Node W) (w : Withdrawal) :
    (NodeStep.enqueue w).Runs A n (queued n w) :=
  returns_zoom.mpr ⟨_, returns_zoom.mpr ⟨_, Queue.returns_enqueue.mpr rfl, rfl⟩, rfl⟩

/-- One round. -/
theorem Idle.round {A : Wiring W} {p : Option EvmStaking.Params} {k : Nat} {n : Node W}
    (h : Idle p k n) (hmax : 0 < (maxOf n.store.evmstaking).toNat) (hk : k + 1 < 2 ^ 64)
    (w : Withdrawal) :
    ∃ steps n', Trace (NodeStep.Runs A) n steps n' ∧ Idle p (k + 1) n' ∧
      steps.flatMap NodeStep.enqueued = [w] ∧ steps.flatMap NodeStep.enqueuedRewards = [] := by
  obtain ⟨head, hhead⟩ := h.head
  have hl : (queued n w).store.evmstaking.withdrawalQueue.Holds k [w] := h.withdrawals.push w hk
  obtain ⟨fuel, n', hfin⟩ := exists_finalize A (n := queued n w) hhead hl h.rewards
  have hstep : (NodeStep.finalize obligingEngine fuel (localnetCtx .finalize) _ _).Runs A
      (queued n w) n' := hfin
  refine ⟨_, n', (Trace.nil.snoc (runs_enqueue A n w)).snoc hstep, ?_, rfl, rfl⟩
  obtain ⟨_, payload, t, _, hd, happly⟩ := returns_msgExecutionPayload.mp hfin
  obtain ⟨hframe, hhead'⟩ := applyPayload_frame happly
  obtain ⟨q, q', hq, hq', hspec⟩ := dequeueProposed_spec A.keepers.codec hl h.rewards
  obtain ⟨_, _, rfl⟩ := (hspec _ _ _).mp hd
  -- one withdrawal waits, so the payload takes it and leaves the queue empty
  have hmax' : maxOf (queued n w).store.evmstaking = maxOf n.store.evmstaking := rfl
  have hone : (due (maxOf n.store.evmstaking) [w]).length = 1 := by
    simp only [due, List.length_take, List.length_cons, List.length_nil]
    omega
  have hdrop : [w].drop (maxOf n.store.evmstaking).toNat = [] :=
    List.drop_of_length_le hmax
  rw [hmax', hone, hdrop] at hq
  have hrewards : q'.Holds 0 [] := by simpa [dueRewards] using hq'
  refine ⟨⟨_, hhead'⟩, ?_, ?_, ?_, applyPayload_synced ?_ happly⟩
  · rw [hframe]
    exact hq
  · rw [hframe]
    exact hrewards
  · rw [hframe]
    exact h.params
  · intro i root status hstatus
    cases hstatus
    rfl

/-- **Every count is reached.** -/
theorem Idle.reach {A : Wiring W} {p : Option EvmStaking.Params} {n : Node W}
    (h : Idle p 0 n) (hmax : 0 < (maxOf n.store.evmstaking).toNat) (w : Withdrawal) {k : Nat}
    (hk : k < 2 ^ 64) :
    ∃ steps n', Trace (NodeStep.Runs A) n steps n' ∧ Idle p k n' ∧
      steps.flatMap NodeStep.enqueued = List.replicate k w ∧
      steps.flatMap NodeStep.enqueuedRewards = [] := by
  induction k with
  | zero => exact ⟨[], n, .nil, h, rfl, rfl⟩
  | succ k ih =>
      obtain ⟨steps, n₁, hrun, h₁, hq, hr⟩ := ih (by omega)
      have hmax₁ : 0 < (maxOf n₁.store.evmstaking).toNat := by
        rw [maxOf, EvmStaking.Store.currentParams, h₁.params, ← h.params]
        exact hmax
      obtain ⟨steps', n', hrun', h', hq', hr'⟩ := h₁.round hmax₁ hk w
      refine ⟨steps ++ steps', n', hrun.append hrun', h', ?_, ?_⟩
      · rw [List.flatMap_append, hq, hq', ← List.replicate_succ']
      · rw [List.flatMap_append, hr, hr', List.append_nil]

/-! ## The last key

With one more withdrawal queued the rear of the queue wraps, and the two sides part. -/

section

variable {p : Option EvmStaking.Params} {n : Node W} (h : Idle p (2 ^ 64 - 1) n) (codec : Codec)
  (w : Withdrawal)

include h

/-- The vote sees no withdrawals. -/
theorem Idle.vote_last : Returns (compareWithdrawals codec []) (queued n w).store.evmstaking ()
    (queued n w).store.evmstaking := by
  have hmax : Returns (wrapErr "get max withdrawals per block"
      EvmStaking.maxWithdrawalPerBlock) (queued n w).store.evmstaking
      (maxOf n.store.evmstaking) (queued n w).store.evmstaking :=
    returns_wrapErr.mpr (EvmStaking.returns_maxWithdrawalPerBlock.mpr ⟨rfl, rfl⟩)
  have hp : Returns (wrapErr "peek withdrawals" (EvmStaking.peekEligibleWithdrawals codec
      (maxOf n.store.evmstaking))) (queued n w).store.evmstaking []
      (queued n w).store.evmstaking :=
    returns_wrapErr.mpr (returns_zoom.mpr
      ⟨_, EvmStaking.peekEligible_last codec h.withdrawals w _, rfl⟩)
  have hp' : Returns (wrapErr "peek reward withdrawals" (EvmStaking.peekEligibleRewardWithdrawals
      codec (maxOf n.store.evmstaking - UInt32.ofNat 0))) (queued n w).store.evmstaking []
      (queued n w).store.evmstaking := by
    have hpeek := peekEligibleRewardWithdrawals_returns codec
      (s := (queued n w).store.evmstaking) h.rewards (maxOf n.store.evmstaking - UInt32.ofNat 0)
    rw [due, List.take_nil] at hpeek
    exact returns_wrapErr.mpr hpeek
  refine hmax.bind (hp.bind ?_)
  rw [if_neg (by simp)]
  refine hp'.bind ?_
  rw [if_neg (by simp)]
  simp [compareFrom]

/-- The finalized message takes the withdrawal out. -/
theorem Idle.dequeue_last (hmax : 0 < (maxOf n.store.evmstaking).toNat) :
    ∃ t, Returns (EvmStaking.dequeueEligibleWithdrawals codec (maxOf n.store.evmstaking))
      (queued n w).store.evmstaking
      [EvmStaking.toEthWithdrawal codec (UInt64.ofNat (2 ^ 64 - 1)) w] t := by
  obtain ⟨q, hq⟩ := EvmStaking.dequeueEligible_last codec h.withdrawals w hmax
  exact ⟨_, returns_zoom.mpr ⟨q, hq, rfl⟩⟩

/-- So it refuses a payload without withdrawals. -/
theorem Idle.refuse_last (hmax : 0 < (maxOf n.store.evmstaking).toNat) :
    ∃ e t, Fails (dequeueProposed codec 0) (queued n w).store.evmstaking (.err e) t := by
  have hm : Returns (wrapErr "error getting max withdrawal per block"
      EvmStaking.maxWithdrawalPerBlock) (queued n w).store.evmstaking
      (maxOf n.store.evmstaking) (queued n w).store.evmstaking :=
    returns_wrapErr.mpr (EvmStaking.returns_maxWithdrawalPerBlock.mpr ⟨rfl, rfl⟩)
  obtain ⟨t, ht⟩ := h.dequeue_last codec w hmax
  refine ⟨.new (s!"dequeued withdrawals {1} should not greater than "
    ++ s!"proposed withdrawals {0}"), t, hm.fails_bind_iff.mpr
      ((returns_wrapErr.mpr ht).fails_bind_iff.mpr ?_)⟩
  rw [if_pos (by simp)]
  exact fails_fail.mpr ⟨rfl, rfl⟩

end

end Story.EvmEngine
