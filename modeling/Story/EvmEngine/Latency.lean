/-
# Story.EvmEngine.Latency -- how long a withdrawal waits

A payload has room for a fixed number of withdrawals. The first queue is served before the
second, and a payload never leaves room unused while anything waits. So a withdrawal of the
first queue waits for those in front of it and for nothing else. A reward waits for the
rewards in front of it and for every withdrawal of the first queue that comes before its
turn, however late: the bound below counts them, and without a bound on their number there
is none.
-/
import Story.EvmEngine.Withdrawals

namespace Story.EvmEngine

open Story.Effect Story.Errors Story.Sdk Story.Collections
open Story.EvmStaking (Withdrawal numbered toEthWithdrawal)

variable {W : Type} {A : Wiring W}

/-! ## One payload -/

/-- The lengths of what a payload takes from two queues with `l` and `r` in them. -/
theorem length_due_cases (max : UInt32) (l r : List Withdrawal) {m : Nat} (hm : m ≤ max.toNat) :
    (m ≤ (due max l).length ∨ (due max l).length = l.length) ∧
      (m ≤ (due max l).length + (dueRewards max l r).length ∨
        (dueRewards max l r).length = r.length) := by
  simp only [due, dueRewards, List.length_take]
  omega

namespace NodeStep

/-- Is the step a payload? -/
def payloads : NodeStep → Nat
  | .finalize .. => 1
  | _ => 0

/-- A step of a node that has room for at least `m` withdrawals in a payload. -/
def WithRoom (A : Wiring W) (m : Nat) (step : NodeStep) (n n' : Node W) : Prop :=
  step.Runs A n n' ∧ m ≤ (maxOf n.store.evmstaking).toNat

end NodeStep

/-- The payloads of a run. -/
def payloadsIn (run : List NodeStep) : Nat := (run.map NodeStep.payloads).sum

open NodeStep in
/-- A payload is full, or it empties the first queue; and it is full, or it empties both. -/
theorem GenesisRun.payload_full {run : List NodeStep} {n n' : Node W} (h : GenesisRun A run n)
    {m : Nat} {E : Engine} {fuel : Nat} {ctx : Ctx} {msg : MsgExecutionPayload} {d : Dequeued}
    (hstep : (NodeStep.finalize E fuel ctx msg d).WithRoom A m n n') :
    (m ≤ d.withdrawals.length ∨
      (run.flatMap delivered).length + d.withdrawals.length = (run.flatMap enqueued).length) ∧
    (m ≤ d.withdrawals.length + d.rewardWithdrawals.length ∨
      (run.flatMap deliveredRewards).length + d.rewardWithdrawals.length
        = (run.flatMap enqueuedRewards).length) := by
  obtain ⟨hrun, hroom⟩ := hstep
  obtain ⟨hw, hr⟩ := h.tracked
  obtain ⟨payload, t, _, hd, _, _⟩ := msgExecutionPayload_returns hrun
  obtain ⟨_, _, _, _, hspec⟩ := dequeueProposed_spec A.keepers.codec hw.holds hr.holds
  obtain ⟨_, rfl, _⟩ := (hspec _ _ _).mp hd
  have hcases := length_due_cases (maxOf n.store.evmstaking)
    ((run.flatMap enqueued).drop (run.flatMap delivered).length)
    ((run.flatMap enqueuedRewards).drop (run.flatMap deliveredRewards).length) hroom
  have hlen := hw.length_le
  have hlen' := hr.length_le
  simp only [List.length_drop] at hcases
  simp only [dequeuedOf, EvmStaking.length_numbered]
  omega

/-! ## Runs -/

/-- A run from genesis that goes on, within the range of the keys. -/
theorem GenesisRun.go_on {run run' : List NodeStep} {n n' : Node W} (h : GenesisRun A run n)
    (hrun : Trace (NodeStep.Runs A) n run' n')
    (hb : ((run ++ run').flatMap NodeStep.enqueued).length < 2 ^ 64)
    (hb' : ((run ++ run').flatMap NodeStep.enqueuedRewards).length < 2 ^ 64) :
    GenesisRun A (run ++ run') n' := by
  obtain ⟨⟨ctx, gs, w, n₀, hgen, hrun₀⟩, _, _⟩ := h
  exact ⟨⟨ctx, gs, w, n₀, hgen, hrun₀.append hrun⟩, hb, hb'⟩

theorem runs_of_withRoom {m : Nat} {run : List NodeStep} {n n' : Node W}
    (h : Trace (NodeStep.WithRoom A m) n run n') : Trace (NodeStep.Runs A) n run n' := by
  induction h with
  | nil => exact .nil
  | snoc _ hstep ih => exact ih.snoc hstep.1

open NodeStep in
/-- **The invariant of the waiting time.** As long as something that was queued `before` still
waits in the first queue, the payloads of the run have been full of withdrawals of that queue;
as long as something still waits in the second, they have been full. -/
structure Served (m : Nat) (before run : List NodeStep) : Prop where
  withdrawals : (before.flatMap enqueued).length ≤ ((before ++ run).flatMap delivered).length ∨
    m * payloadsIn run ≤ (run.flatMap delivered).length
  rewards :
    (before.flatMap enqueuedRewards).length ≤ ((before ++ run).flatMap deliveredRewards).length ∨
      m * payloadsIn run ≤
        (run.flatMap delivered).length + (run.flatMap deliveredRewards).length

open NodeStep in
/-- **One step** keeps it. -/
theorem Served.step {m : Nat} {before run : List NodeStep} {step : NodeStep} {n n' : Node W}
    (h : Served m before run) (hgen : GenesisRun A (before ++ run) n)
    (hstep : step.WithRoom A m n n') : Served m before (run ++ [step]) := by
  obtain ⟨hw, hr⟩ := h
  have hidle (h₀ : step.payloads = 0) (h₁ : step.delivered = []) (h₂ : step.deliveredRewards = []) :
      Served m before (run ++ [step]) := by
    refine ⟨?_, ?_⟩
    · simpa [payloadsIn, h₀, h₁] using hw
    · simpa [payloadsIn, h₀, h₁, h₂] using hr
  cases step with
  | finalize E fuel ctx msg d =>
      obtain ⟨hfull, hfull'⟩ := hgen.payload_full hstep
      have hpay : payloadsIn (run ++ [.finalize E fuel ctx msg d]) = payloadsIn run + 1 := by
        simp [payloadsIn, payloads]
      simp only [List.flatMap_append, List.length_append] at hw hr hfull hfull'
      refine ⟨?_, ?_⟩
      · simp only [hpay, List.flatMap_append, List.flatMap_singleton, List.length_append, delivered,
          Nat.mul_succ]
        omega
      · simp only [hpay, List.flatMap_append, List.flatMap_singleton, List.length_append, delivered,
          deliveredRewards, Nat.mul_succ]
        omega
  | enqueue w => exact hidle rfl rfl rfl
  | enqueueReward w => exact hidle rfl rfl rfl
  | other => exact hidle rfl rfl rfl

open NodeStep in
/-- **Whole runs** keep it. -/
theorem served_of_trace {m : Nat} {before run : List NodeStep} {n n' : Node W}
    (hgen : GenesisRun A before n) (hrun : Trace (NodeStep.WithRoom A m) n run n')
    (hb : ((before ++ run).flatMap enqueued).length < 2 ^ 64)
    (hb' : ((before ++ run).flatMap enqueuedRewards).length < 2 ^ 64) : Served m before run := by
  induction hrun with
  | nil => exact ⟨.inr (by simp [payloadsIn]), .inr (by simp [payloadsIn])⟩
  | @snoc run t u step hrun hstep ih =>
      rw [← List.append_assoc, List.flatMap_append, List.length_append] at hb hb'
      have hb₁ : ((before ++ run).flatMap enqueued).length < 2 ^ 64 := by omega
      have hb₂ : ((before ++ run).flatMap enqueuedRewards).length < 2 ^ 64 := by omega
      exact (ih hb₁ hb₂).step (hgen.go_on (runs_of_withRoom hrun) hb₁ hb₂) hstep

/-! ## Waiting times -/

theorem getElem?_numbered (codec : Codec) (n j : Nat) (l : List Withdrawal) :
    (numbered codec n l)[j]? =
      l[j]?.map fun w => toEthWithdrawal codec (UInt64.ofNat (n + j)) w := by
  induction l generalizing n j with
  | nil => rfl
  | cons w l ih =>
      cases j with
      | zero => rfl
      | succ j =>
          rw [numbered, List.getElem?_cons_succ, List.getElem?_cons_succ, ih]
          simp [Nat.add_assoc, Nat.add_comm 1 j]

/-- What has been handed out at a position is what was queued there. -/
theorem Tracked.getElem?_paid {codec : Codec} {q : Queue Withdrawal} {all : List Withdrawal}
    {paid : List Eth.Withdrawal} (h : Tracked codec q all paid) {j : Nat} {w : Withdrawal}
    (hw : all[j]? = some w) (hj : j < paid.length) :
    paid[j]? = some (toEthWithdrawal codec (UInt64.ofNat j) w) := by
  rw [h.paid_eq, getElem?_numbered, List.getElem?_take_of_lt hj, hw, Nat.zero_add]
  rfl

open NodeStep in
/-- **How long a withdrawal waits.** A node has gone through `before`, and then through `run` with
room for `m` withdrawals in every payload; fewer than 2^64 withdrawals have entered each queue. A
withdrawal of the first queue that was queued before is paid, as it was queued, once the payloads
of the run have had room for it and those that waited in front of it. A reward is, once they have
had room for the rewards up to it and for all that has come into the first queue until then. -/
theorem withdrawals_paid_in_time {m : Nat} {before run : List NodeStep} {n n' : Node W}
    (hgen : GenesisRun A before n) (hrun : Trace (NodeStep.WithRoom A m) n run n')
    (hb : ((before ++ run).flatMap enqueued).length < 2 ^ 64)
    (hb' : ((before ++ run).flatMap enqueuedRewards).length < 2 ^ 64) :
    (∀ j w, (before.flatMap enqueued)[j]? = some w →
      j < (before.flatMap delivered).length + m * payloadsIn run →
      ((before ++ run).flatMap delivered)[j]?
        = some (toEthWithdrawal A.keepers.codec (UInt64.ofNat j) w)) ∧
    (∀ j w, (before.flatMap enqueuedRewards)[j]? = some w →
      j + ((before ++ run).flatMap enqueued).length
        < (before.flatMap deliveredRewards).length + (before.flatMap delivered).length
          + m * payloadsIn run →
      ((before ++ run).flatMap deliveredRewards)[j]?
        = some (toEthWithdrawal A.keepers.codec (UInt64.ofNat j) w)) := by
  obtain ⟨hserved, hserved'⟩ := served_of_trace hgen hrun hb hb'
  obtain ⟨htracked, htracked'⟩ := (hgen.go_on (runs_of_withRoom hrun) hb hb').tracked
  have hpaid := htracked.length_le
  simp only [List.flatMap_append, List.length_append] at hserved hserved' hpaid
  refine ⟨?_, ?_⟩
  · intro j w hw htime
    obtain ⟨hj, _⟩ := List.getElem?_eq_some_iff.mp hw
    refine htracked.getElem?_paid ?_ ?_
    · rw [List.flatMap_append, List.getElem?_append_left hj, hw]
    · rw [List.flatMap_append, List.length_append]
      omega
  · intro j w hw htime
    obtain ⟨hj, _⟩ := List.getElem?_eq_some_iff.mp hw
    rw [List.flatMap_append, List.length_append] at htime
    refine htracked'.getElem?_paid ?_ ?_
    · rw [List.flatMap_append, List.getElem?_append_left hj, hw]
    · rw [List.flatMap_append, List.length_append]
      omega

open NodeStep in
/-- Two withdrawals of the ledger have been paid and a third one waits: the next payload, which
has room for it, pays it. -/
theorem third_withdrawal_paid_next : ∃ before run n n',
    GenesisRun (plainWiring Ledger.keepers) before n ∧
    Trace (NodeStep.WithRoom (plainWiring Ledger.keepers) 32) n run n' ∧ payloadsIn run = 1 ∧
    before.flatMap enqueued = List.replicate 3 oneUnit ∧
    ((before ++ run).flatMap delivered)[2]? = some (toEthWithdrawal Ledger.codec 2 oneUnit) := by
  obtain ⟨before, n, hgen, hidle, hq⟩ := exists_ledger_run (show 2 < 2 ^ 64 by decide)
  have hr : (before.flatMap enqueuedRewards).length < 2 ^ 64 := hgen.bound_rewards
  have hqueued : (before ++ [NodeStep.enqueue oneUnit]).flatMap enqueued
      = List.replicate 3 oneUnit := by
    rw [List.flatMap_append, hq]
    rfl
  have hgen' := hgen.go_on (Trace.nil.snoc (runs_enqueue (plainWiring Ledger.keepers) n oneUnit))
    (by rw [List.nil_append, hqueued]; decide) (by simpa [enqueuedRewards] using hr)
  -- the third withdrawal is the only one in the queue, so the payload pays it
  obtain ⟨head, hhead⟩ := hidle.head
  obtain ⟨fuel, n', hfin⟩ := exists_finalize (plainWiring Ledger.keepers) (n := queued n oneUnit)
    hhead (hidle.withdrawals.push oneUnit (by decide)) hidle.rewards
  have hmax : (maxOf (queued n oneUnit).store.evmstaking).toNat = 32 := by
    show (n.store.evmstaking.params.getD _).maxWithdrawalPerBlock.toNat = 32
    rw [hidle.params]
    rfl
  have hrun := (Trace.nil (R := NodeStep.WithRoom (plainWiring Ledger.keepers) 32)).snoc
    (a := NodeStep.finalize obligingEngine fuel _ _ _) ⟨hfin, hmax.ge⟩
  refine ⟨_, _, _, n', hgen', hrun, rfl, hqueued, ?_⟩
  refine (withdrawals_paid_in_time hgen' hrun ?_ ?_).1 2 oneUnit ?_ ?_
  · rw [List.flatMap_append, List.nil_append, hqueued]
    simp [enqueued]
  · simpa [enqueuedRewards] using hr
  · rw [List.nil_append, hqueued]
    rfl
  · simp [payloadsIn, payloads]

end Story.EvmEngine
