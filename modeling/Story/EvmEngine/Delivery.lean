/-
# Story.EvmEngine.Delivery -- withdrawals are delivered once and in order

A withdrawal queue over a whole run: `Tracked q all paid` says that `paid` are the
first withdrawals ever queued, numbered from zero, and that the queue keeps the
rest of them. Queuing and paying out keep it, whatever else the store goes through,
as long as fewer than 2^64 withdrawals have been queued. The steps of a node are
such steps of its evmstaking store.
-/
import Story.EvmEngine.Payout
import Story.EvmStaking.Genesis
import Story.Effect.Trace

namespace Story.EvmEngine

open Story.Effect Story.Errors Story.Sdk Story.Collections
open Story.EvmStaking (Withdrawal numbered)

variable {W : Type}

/-! ## A queue with its history -/

/-- `paid` has been handed out of `all`, and `q` keeps the rest. -/
structure Tracked (codec : Codec) (q : Queue Withdrawal) (all : List Withdrawal)
    (paid : List Eth.Withdrawal) : Prop where
  length_le : paid.length ≤ all.length
  holds : q.Holds paid.length (all.drop paid.length)
  paid_eq : paid = numbered codec 0 (all.take paid.length)

namespace Tracked

variable {codec : Codec} {q : Queue Withdrawal} {all : List Withdrawal}
  {paid : List Eth.Withdrawal}

theorem initial (h : q.Holds 0 []) : Tracked codec q [] [] := ⟨le_rfl, h, rfl⟩

theorem push (h : Tracked codec q all paid) (w : Withdrawal) (hb : all.length + 1 < 2 ^ 64) :
    Tracked codec (q.push w) (all ++ [w]) paid where
  length_le := by
    have := h.length_le
    simp only [List.length_append, List.length_cons, List.length_nil]
    omega
  holds := by
    rw [List.drop_append_of_le_length h.length_le]
    apply h.holds.push
    have := h.length_le
    simp only [List.length_drop]
    omega
  paid_eq := by
    rw [List.take_append_of_le_length h.length_le]
    exact h.paid_eq

/-- Taking `k` more elements out of the queue. -/
theorem pay (h : Tracked codec q all paid) {q' : Queue Withdrawal} {out : List Withdrawal}
    {k : Nat} (hout : out = (all.drop paid.length).take k)
    (hq : q'.Holds (paid.length + out.length) ((all.drop paid.length).drop k)) :
    Tracked codec q' all (paid ++ numbered codec paid.length out) := by
  have hlen : (paid ++ numbered codec paid.length out).length = paid.length + out.length := by
    simp
  have hout_le : out.length ≤ all.length - paid.length := by
    simp only [hout, List.length_take, List.length_drop]
    omega
  -- `k` may be more than there is, so everything is counted by what came out
  have hdrop : (all.drop paid.length).drop k = all.drop (paid.length + out.length) := by
    have hk : (all.drop paid.length).drop k = (all.drop paid.length).drop out.length := by
      rw [hout, List.length_take]
      rcases Nat.le_total k (all.drop paid.length).length with hle | hle
      · rw [Nat.min_eq_left hle]
      · rw [Nat.min_eq_right hle, List.drop_of_length_le hle, List.drop_length]
    rw [hk, List.drop_drop]
  have htake : out = (all.drop paid.length).take out.length := by
    conv_lhs => rw [hout]
    rw [hout, List.length_take, List.take_eq_take_min]
  refine ⟨?_, ?_, ?_⟩
  · have := h.length_le
    omega
  · rw [hlen, ← hdrop]
    exact hq
  · rw [hlen, List.take_add, EvmStaking.numbered_append, ← h.paid_eq, ← htake]
    have hmin : (all.take paid.length).length = paid.length := by
      rw [List.length_take]
      exact Nat.min_eq_left h.length_le
    rw [hmin, Nat.zero_add]

/-- The contents of the queue are what has not been handed out. -/
theorem contents_eq (h : Tracked codec q all paid) : q.contents = all.drop paid.length :=
  h.holds.contents_eq

/-- The indices handed out are `0, 1, 2, ...`. -/
theorem map_index (h : Tracked codec q all paid) :
    paid.map Eth.Withdrawal.index = (List.range paid.length).map UInt64.ofNat := by
  conv_lhs => rw [h.paid_eq]
  rw [EvmStaking.map_index_numbered, List.range_eq_range', List.length_take,
    Nat.min_eq_left h.length_le]

end Tracked

/-! ## Runs of the evmstaking store -/

/-- The steps of a store that its queues can see. -/
inductive QueueStep
  | add (w : Withdrawal)
  | addReward (w : Withdrawal)
  | pay (d : Dequeued)
  | other

/-- Any other step leaves the two queues as they are, and may change the rest at will. -/
def QueueStep.Runs (codec : Codec) :
    QueueStep → EvmStaking.Store W → EvmStaking.Store W → Prop
  | .add w, s, t => Returns (EvmStaking.addWithdrawalToQueue w) s () t
  | .addReward w, s, t => Returns (EvmStaking.addRewardWithdrawalToQueue w) s () t
  | .pay d, s, t => ∃ proposed, Returns (dequeueProposed codec proposed) s d t
  | .other, s, t =>
      t.withdrawalQueue = s.withdrawalQueue ∧ t.rewardWithdrawalQueue = s.rewardWithdrawalQueue

namespace QueueStep

def queued : QueueStep → List Withdrawal
  | .add w => [w]
  | _ => []

def queuedRewards : QueueStep → List Withdrawal
  | .addReward w => [w]
  | _ => []

def handedOut : QueueStep → List Eth.Withdrawal
  | .pay d => d.withdrawals
  | _ => []

def handedOutRewards : QueueStep → List Eth.Withdrawal
  | .pay d => d.rewardWithdrawals
  | _ => []

end QueueStep

open QueueStep in
/-- Both queues of a store with their histories. -/
structure QueuesTracked (codec : Codec) (steps : List QueueStep) (s : EvmStaking.Store W) :
    Prop where
  withdrawals : Tracked codec s.withdrawalQueue (steps.flatMap queued) (steps.flatMap handedOut)
  rewards : Tracked codec s.rewardWithdrawalQueue (steps.flatMap queuedRewards)
    (steps.flatMap handedOutRewards)

open QueueStep in
/-- Fewer than 2^64 withdrawals have been queued in either queue. -/
structure Bounded (steps : List QueueStep) : Prop where
  withdrawals : (steps.flatMap queued).length < 2 ^ 64
  rewards : (steps.flatMap queuedRewards).length < 2 ^ 64

theorem Bounded.of_append {steps steps' : List QueueStep} (h : Bounded (steps ++ steps')) :
    Bounded steps := by
  obtain ⟨h₁, h₂⟩ := h
  rw [List.flatMap_append, List.length_append] at h₁ h₂
  exact ⟨by omega, by omega⟩

open QueueStep in
/-- One step keeps the histories. -/
theorem QueuesTracked.step {codec : Codec} {steps : List QueueStep} {a : QueueStep}
    {s t : EvmStaking.Store W} (h : QueuesTracked codec steps s) (hb : Bounded (steps ++ [a]))
    (hR : a.Runs codec s t) : QueuesTracked codec (steps ++ [a]) t := by
  obtain ⟨hw, hr⟩ := h
  obtain ⟨hb₁, hb₂⟩ := hb
  simp only [List.flatMap_append, List.flatMap_singleton, List.length_append] at hb₁ hb₂
  cases a with
  | add w =>
      obtain ⟨q, hq, rfl⟩ := returns_zoom.mp hR
      obtain rfl := Queue.returns_enqueue.mp hq
      refine ⟨?_, ?_⟩
      · simpa [queued, handedOut] using hw.push w (by simpa [queued] using hb₁)
      · simpa [queuedRewards, handedOutRewards] using hr
  | addReward w =>
      obtain ⟨q, hq, rfl⟩ := returns_zoom.mp hR
      obtain rfl := Queue.returns_enqueue.mp hq
      refine ⟨?_, ?_⟩
      · simpa [queued, handedOut] using hw
      · simpa [queuedRewards, handedOutRewards] using
          hr.push w (by simpa [queuedRewards] using hb₂)
  | pay d =>
      obtain ⟨proposed, hR⟩ := hR
      obtain ⟨q, q', hq, hq', hiff⟩ := dequeueProposed_spec codec hw.holds hr.holds
      obtain ⟨_, rfl, rfl⟩ := (hiff proposed d t).mp hR
      have hpay := hw.pay (show due (maxOf s) _ = _ from rfl) hq
      have hpay' := hr.pay (show dueRewards (maxOf s) (List.drop _ (steps.flatMap queued)) _ = _
        from rfl) hq'
      refine ⟨?_, ?_⟩
      · simpa [queued, handedOut, dequeuedOf] using hpay
      · simpa [queuedRewards, handedOutRewards, dequeuedOf] using hpay'
  | other =>
      obtain ⟨hR₁, hR₂⟩ := hR
      refine ⟨?_, ?_⟩
      · simpa [queued, handedOut, hR₁] using hw
      · simpa [queuedRewards, handedOutRewards, hR₂] using hr

/-- **Every run keeps the histories.** -/
theorem queuesTracked_of_trace {codec : Codec} {steps : List QueueStep}
    {s t : EvmStaking.Store W} (hw : s.withdrawalQueue.Holds 0 [])
    (hr : s.rewardWithdrawalQueue.Holds 0 []) (hb : Bounded steps)
    (h : Trace (QueueStep.Runs codec) s steps t) : QueuesTracked codec steps t := by
  refine Trace.invariant (I := fun steps t => Bounded steps → QueuesTracked codec steps t)
    ?_ ?_ h hb
  · exact fun _ => ⟨.initial hw, .initial hr⟩
  · intro steps a t u ih hR hb
    exact (ih hb.of_append).step hb hR

/-! ## Runs of a node -/

/-- The steps of a node. The label of a finalized payload names what it delivered. -/
inductive NodeStep
  | enqueue (w : Withdrawal)
  | enqueueReward (w : Withdrawal)
  | finalize (E : Engine) (fuel : Nat) (ctx : Ctx) (msg : MsgExecutionPayload) (d : Dequeued)
  | other

/-- A finalized payload is one whose message returns; a step of another kind leaves the
queues as they are. -/
def NodeStep.Runs (A : Wiring W) : NodeStep → Node W → Node W → Prop
  | .enqueue w, n, n' =>
      Returns (zoom evmstakingLens (EvmStaking.addWithdrawalToQueue w)) n () n'
  | .enqueueReward w, n, n' =>
      Returns (zoom evmstakingLens (EvmStaking.addRewardWithdrawalToQueue w)) n () n'
  | .finalize E fuel ctx msg d, n, n' => Returns (msgExecutionPayload A E fuel ctx msg) n d n'
  | .other, n, n' =>
      n'.store.evmstaking.withdrawalQueue = n.store.evmstaking.withdrawalQueue ∧
        n'.store.evmstaking.rewardWithdrawalQueue = n.store.evmstaking.rewardWithdrawalQueue

/-- What the evmstaking store sees of a step: a payload pays out, then runs its events. -/
def NodeStep.queueSteps : NodeStep → List QueueStep
  | .enqueue w => [.add w]
  | .enqueueReward w => [.addReward w]
  | .finalize _ _ _ _ d => [.pay d, .other]
  | .other => [.other]

/-- Every step of a node is a run of its evmstaking store. -/
theorem NodeStep.Runs.queueRun {A : Wiring W} {step : NodeStep} {n n' : Node W}
    (h : step.Runs A n n') :
    Trace (QueueStep.Runs A.keepers.codec) n.store.evmstaking step.queueSteps
      n'.store.evmstaking := by
  cases step with
  | enqueue w =>
      obtain ⟨t, hadd, rfl⟩ := returns_zoom.mp h
      exact Trace.nil.snoc (a := QueueStep.add w) hadd
  | enqueueReward w =>
      obtain ⟨t, hadd, rfl⟩ := returns_zoom.mp h
      exact Trace.nil.snoc (a := QueueStep.addReward w) hadd
  | finalize E fuel ctx msg d =>
      obtain ⟨payload, t, _, hd, hframe, _⟩ := msgExecutionPayload_returns h
      refine (Trace.nil.snoc (a := QueueStep.pay d) ⟨_, hd⟩).snoc (a := QueueStep.other) ?_
      rw [hframe]
      exact ⟨rfl, rfl⟩
  | other => exact Trace.nil.snoc (a := QueueStep.other) h

/-- The withdrawals a step queues. -/
def NodeStep.enqueued : NodeStep → List Withdrawal
  | .enqueue w => [w]
  | _ => []

/-- The reward withdrawals a step queues. -/
def NodeStep.enqueuedRewards : NodeStep → List Withdrawal
  | .enqueueReward w => [w]
  | _ => []

/-- The withdrawals a step delivers to the execution layer. -/
def NodeStep.delivered : NodeStep → List Eth.Withdrawal
  | .finalize _ _ _ _ d => d.withdrawals
  | _ => []

/-- The reward withdrawals a step delivers to the execution layer. -/
def NodeStep.deliveredRewards : NodeStep → List Eth.Withdrawal
  | .finalize _ _ _ _ d => d.rewardWithdrawals
  | _ => []

/-- Reading a list off the steps of the store is reading it off the steps of the node. -/
theorem flatMap_queueSteps {α : Type} {f : QueueStep → List α} {g : NodeStep → List α}
    (h : ∀ step : NodeStep, step.queueSteps.flatMap f = g step) (run : List NodeStep) :
    (run.flatMap NodeStep.queueSteps).flatMap f = run.flatMap g := by
  rw [List.flatMap_assoc]
  exact congrArg run.flatMap (funext h)

/-- A run that starts with genesis leads to `n`. -/
def Reached (A : Wiring W) (run : List NodeStep) (n : Node W) : Prop :=
  ∃ ctx gs w n₀, Returns (EvmStaking.initGenesis A.keepers ctx gs) (EvmStaking.Store.fresh w) ()
    n₀.store.evmstaking ∧ Trace (NodeStep.Runs A) n₀ run n

/-- Such a run, with fewer than 2^64 withdrawals queued in either queue. -/
structure GenesisRun (A : Wiring W) (run : List NodeStep) (n : Node W) : Prop where
  reached : Reached A run n
  bound : (run.flatMap NodeStep.enqueued).length < 2 ^ 64
  bound_rewards : (run.flatMap NodeStep.enqueuedRewards).length < 2 ^ 64

/-- The queues of such a run, with their histories. -/
theorem GenesisRun.tracked {A : Wiring W} {run : List NodeStep} {n : Node W}
    (h : GenesisRun A run n) :
    Tracked A.keepers.codec n.store.evmstaking.withdrawalQueue (run.flatMap NodeStep.enqueued)
        (run.flatMap NodeStep.delivered) ∧
      Tracked A.keepers.codec n.store.evmstaking.rewardWithdrawalQueue
        (run.flatMap NodeStep.enqueuedRewards) (run.flatMap NodeStep.deliveredRewards) := by
  obtain ⟨⟨ctx, gs, w, n₀, hgen, hrun⟩, hb, hb'⟩ := h
  obtain ⟨hw, hr, _⟩ := EvmStaking.initGenesis_queues hgen
  have hq : (run.flatMap NodeStep.queueSteps).flatMap QueueStep.queued
      = run.flatMap NodeStep.enqueued :=
    flatMap_queueSteps (fun step => by cases step <;> rfl) run
  have hqr : (run.flatMap NodeStep.queueSteps).flatMap QueueStep.queuedRewards
      = run.flatMap NodeStep.enqueuedRewards :=
    flatMap_queueSteps (fun step => by cases step <;> rfl) run
  have hd : (run.flatMap NodeStep.queueSteps).flatMap QueueStep.handedOut
      = run.flatMap NodeStep.delivered :=
    flatMap_queueSteps (fun step => by cases step <;> simp [NodeStep.queueSteps,
      QueueStep.handedOut, NodeStep.delivered]) run
  have hdr : (run.flatMap NodeStep.queueSteps).flatMap QueueStep.handedOutRewards
      = run.flatMap NodeStep.deliveredRewards :=
    flatMap_queueSteps (fun step => by cases step <;> simp [NodeStep.queueSteps,
      QueueStep.handedOutRewards, NodeStep.deliveredRewards]) run
  obtain ⟨hT, hT'⟩ := queuesTracked_of_trace hw hr ⟨hq ▸ hb, hqr ▸ hb'⟩
    (hrun.refine (fun n : Node W => n.store.evmstaking) fun _ _ _ h => h.queueRun)
  rw [hq, hd] at hT
  rw [hqr, hdr] at hT'
  exact ⟨hT, hT'⟩

end Story.EvmEngine
