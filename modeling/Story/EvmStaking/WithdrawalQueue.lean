/-
# Story.EvmStaking.WithdrawalQueue -- the two withdrawal queues

`withdrawal_queue.go` and `reward_queue.go` are the same code over two queues: here
one definition on a queue, and the source's functions as that definition on the
queue each of them names. Dequeuing takes elements out one by one; peeking reads
them by position. On a queue that holds a list both hand out its first elements,
numbered from the front key on.
-/
import Story.EvmStaking.Store

namespace Story.EvmStaking

open Story.Effect Story.Errors Story.Sdk Story.Collections

variable {W : Type}

/-! ## The code -/

/-- The Ethereum withdrawal for a queue element. Its `Validator` field carries the
withdrawal type, as the execution layer does not use it. -/
def toEthWithdrawal (codec : Codec) (index : UInt64) (withdrawal : Withdrawal) : Eth.Withdrawal :=
  { index := index
    validator := withdrawal.withdrawalType.toUint64
    address := codec.hexToAddress withdrawal.executionAddress
    amount := withdrawal.amount }

/-- The loop of the dequeuing functions, with `fuel` rounds left, in round `i`. -/
def dequeueLoop (codec : Codec) (front : UInt64) :
    (fuel : Nat) → (i : UInt64) → Prog (Queue Withdrawal) (List Eth.Withdrawal)
  | 0, _ => pure []
  | fuel + 1, i => do
      match ← attempt Queue.dequeue with
      | .error err => if err.isA .emptyQueue then pure [] else fail err
      | .ok withdrawal =>
          let withdrawals ← dequeueLoop codec front fuel (i + 1)
          pure (toEthWithdrawal codec (front + i) withdrawal :: withdrawals)

def dequeueEligible (codec : Codec) (maxDequeue : UInt32) :
    Prog (Queue Withdrawal) (List Eth.Withdrawal) := do
  let front ← Queue.readFront
  dequeueLoop codec front maxDequeue.toNat 0

/-- The loop of the peeking functions. -/
def peekLoop (codec : Codec) (front : UInt64) :
    (fuel : Nat) → (i : UInt64) → Prog (Queue Withdrawal) (List Eth.Withdrawal)
  | 0, _ => pure []
  | fuel + 1, i => do
      match ← attempt (Queue.getAt i) with
      | .error err => if err.isA .outOfBoundsQueue then pure [] else fail err
      | .ok withdrawal =>
          let withdrawals ← peekLoop codec front fuel (i + 1)
          pure (toEthWithdrawal codec (front + i) withdrawal :: withdrawals)

def peekEligible (codec : Codec) (maxPeek : UInt32) :
    Prog (Queue Withdrawal) (List Eth.Withdrawal) := do
  if (← get).isEmpty then
    pure []
  else
    let front ← Queue.readFront
    peekLoop codec front maxPeek.toNat 0

def addWithdrawalToQueue (withdrawal : Withdrawal) : Prog (Store W) Unit :=
  zoom withdrawalQueueLens (Queue.enqueue withdrawal)

def addRewardWithdrawalToQueue (withdrawal : Withdrawal) : Prog (Store W) Unit :=
  zoom rewardWithdrawalQueueLens (Queue.enqueue withdrawal)

def dequeueEligibleWithdrawals (codec : Codec) (maxDequeue : UInt32) :
    Prog (Store W) (List Eth.Withdrawal) :=
  zoom withdrawalQueueLens (dequeueEligible codec maxDequeue)

def dequeueEligibleRewardWithdrawals (codec : Codec) (maxDequeue : UInt32) :
    Prog (Store W) (List Eth.Withdrawal) :=
  zoom rewardWithdrawalQueueLens (dequeueEligible codec maxDequeue)

def peekEligibleWithdrawals (codec : Codec) (maxPeek : UInt32) :
    Prog (Store W) (List Eth.Withdrawal) :=
  zoom withdrawalQueueLens (peekEligible codec maxPeek)

def peekEligibleRewardWithdrawals (codec : Codec) (maxPeek : UInt32) :
    Prog (Store W) (List Eth.Withdrawal) :=
  zoom rewardWithdrawalQueueLens (peekEligible codec maxPeek)

@[simp] theorem returns_addWithdrawalToQueue {w : Withdrawal} {s t : Store W} {u : Unit} :
    Returns (addWithdrawalToQueue w) s u t ↔
      { s with withdrawalQueue := s.withdrawalQueue.push w } = t := by
  simp [addWithdrawalToQueue, Queue.returns_enqueue]

@[simp] theorem returns_addRewardWithdrawalToQueue {w : Withdrawal} {s t : Store W} {u : Unit} :
    Returns (addRewardWithdrawalToQueue w) s u t ↔
      { s with rewardWithdrawalQueue := s.rewardWithdrawalQueue.push w } = t := by
  simp [addRewardWithdrawalToQueue, Queue.returns_enqueue]

@[simp] theorem fails_addWithdrawalToQueue {w : Withdrawal} {s t : Store W} {f : Fault} :
    ¬ Fails (addWithdrawalToQueue w) s f t := by
  simp [addWithdrawalToQueue, Queue.fails_enqueue]

@[simp] theorem fails_addRewardWithdrawalToQueue {w : Withdrawal} {s t : Store W} {f : Fault} :
    ¬ Fails (addRewardWithdrawalToQueue w) s f t := by
  simp [addRewardWithdrawalToQueue, Queue.fails_enqueue]

/-! ## Peeking only reads -/

instance readOnly_peekLoop (codec : Codec) (front : UInt64) (fuel : Nat) (i : UInt64) :
    ReadOnly (peekLoop codec front fuel i) := by
  induction fuel generalizing i with
  | zero => exact ReadOnly.pure _
  | succ fuel ih =>
      have hrest := ih (i + 1)
      refine @ReadOnly.bind _ _ _ _ _ _ inferInstance ?_
      intro r
      cases r with
      | error err => exact ReadOnly.ite _ _ _
      | ok w => exact ReadOnly.bind _ _

instance readOnly_peekEligible (codec : Codec) (maxPeek : UInt32) :
    ReadOnly (peekEligible codec maxPeek) := ReadOnly.bind _ _

instance readOnly_peekEligibleWithdrawals (codec : Codec) (maxPeek : UInt32) :
    ReadOnly (peekEligibleWithdrawals codec maxPeek : Prog (Store W) _) := ReadOnly.zoom _ _

instance readOnly_peekEligibleRewardWithdrawals (codec : Codec) (maxPeek : UInt32) :
    ReadOnly (peekEligibleRewardWithdrawals codec maxPeek : Prog (Store W) _) := ReadOnly.zoom _ _

/-! ## Withdrawals numbered from a key on -/

/-- The Ethereum withdrawals for a list of queue elements, numbered `n, n + 1, ...`. -/
def numbered (codec : Codec) : (n : Nat) → List Withdrawal → List Eth.Withdrawal
  | _, [] => []
  | n, w :: l => toEthWithdrawal codec (UInt64.ofNat n) w :: numbered codec (n + 1) l

@[simp] theorem length_numbered (codec : Codec) (n : Nat) (l : List Withdrawal) :
    (numbered codec n l).length = l.length := by
  induction l generalizing n with
  | nil => rfl
  | cons w l ih => simp [numbered, ih]

theorem numbered_append (codec : Codec) (n : Nat) (l l' : List Withdrawal) :
    numbered codec n (l ++ l') = numbered codec n l ++ numbered codec (n + l.length) l' := by
  induction l generalizing n with
  | nil => rfl
  | cons w l ih =>
      simp only [List.cons_append, numbered, ih, List.length_cons]
      congr 3
      omega

theorem map_index_numbered (codec : Codec) (n : Nat) (l : List Withdrawal) :
    (numbered codec n l).map Eth.Withdrawal.index =
      (List.range' n l.length).map UInt64.ofNat := by
  induction l generalizing n with
  | nil => rfl
  | cons w l ih => simp [numbered, ih, List.range'_succ, toEthWithdrawal]

/-! ## Dequeuing and peeking hand out the first elements -/

section Specs

variable (codec : Codec) {q : Queue Withdrawal} {n : Nat} {l : List Withdrawal}

private theorem ofNat_add_ofNat_sub {m k : Nat} (h : m ≤ k) :
    UInt64.ofNat m + UInt64.ofNat (k - m) = UInt64.ofNat k := by
  rw [← UInt64.ofNat_add, Nat.add_sub_cancel' h]

theorem dequeueLoop_of_isEmpty (front : UInt64) (fuel : Nat) (i : UInt64)
    (he : q.isEmpty = true) : Returns (dequeueLoop codec front fuel i) q [] q := by
  cases fuel with
  | zero => exact returns_pure.mpr ⟨rfl, rfl⟩
  | succ fuel =>
      have hempty : (errEmptyQueue.wrap "dequeue").isA .emptyQueue = true := by decide
      refine (returns_attempt_error.mpr (Queue.dequeue_of_isEmpty he)).bind ?_
      simp [hempty]

theorem dequeueLoop_returns {front : Nat} (fuel : Nat) (h : q.Ring n l) (hf : front ≤ n) :
    ∃ q', Returns (dequeueLoop codec (UInt64.ofNat front) fuel (UInt64.ofNat (n - front))) q
        (numbered codec n (l.take fuel)) q' ∧
      q'.Ring (n + (l.take fuel).length) (l.drop fuel) := by
  induction fuel generalizing q n l with
  | zero => exact ⟨q, by simp [dequeueLoop, numbered], by simpa using h⟩
  | succ fuel ih =>
      cases l with
      | nil =>
          refine ⟨q, dequeueLoop_of_isEmpty codec _ _ _ (h.isEmpty_iff.mpr rfl), by simpa using h⟩
      | cons w l =>
          obtain ⟨q', hr, hq'⟩ := ih h.pop (Nat.le_succ_of_le hf)
          have hi : UInt64.ofNat (n - front) + 1 = UInt64.ofNat (n + 1 - front) := by
            rw [show n + 1 - front = n - front + 1 by omega, UInt64.ofNat_add]
            rfl
          refine ⟨q', (returns_attempt_ok.mpr h.dequeue_cons).bind ?_, ?_⟩
          · rw [hi]
            refine hr.bind ?_
            simp [ofNat_add_ofNat_sub hf, numbered]
          · simpa [add_assoc, add_comm, add_left_comm] using hq'

/-- **Dequeuing** takes the first `maxDequeue` elements out of the queue, also when the
counters wrap around. -/
theorem dequeueEligible_ring (h : q.Ring n l) (maxDequeue : UInt32) :
    ∃ q', Returns (dequeueEligible codec maxDequeue) q
        (numbered codec n (l.take maxDequeue.toNat)) q' ∧
      q'.Ring (n + (l.take maxDequeue.toNat).length) (l.drop maxDequeue.toNat) := by
  obtain ⟨q', hr, hq'⟩ := dequeueLoop_returns codec maxDequeue.toNat h le_rfl
  refine ⟨q', h.readFront.bind ?_, hq'⟩
  simpa using hr

theorem dequeueEligible_returns (h : q.Holds n l) (maxDequeue : UInt32) :
    ∃ q', Returns (dequeueEligible codec maxDequeue) q
        (numbered codec n (l.take maxDequeue.toNat)) q' ∧
      q'.Holds (n + (l.take maxDequeue.toNat).length) (l.drop maxDequeue.toNat) := by
  obtain ⟨q', hr, hq'⟩ := dequeueEligible_ring codec h.toRing maxDequeue
  refine ⟨q', hr, hq', ?_⟩
  have hb := h.bound
  rw [List.length_take, List.length_drop]
  omega

theorem peekLoop_returns (fuel : Nat) {i : Nat} (h : q.Holds n l) (hi : i ≤ l.length) :
    Returns (peekLoop codec (UInt64.ofNat n) fuel (UInt64.ofNat i)) q
      (numbered codec (n + i) ((l.drop i).take fuel)) q := by
  induction fuel generalizing i with
  | zero => simp [peekLoop, numbered]
  | succ fuel ih =>
      rcases Nat.lt_or_eq_of_le hi with hlt | rfl
      · have hdrop : l.drop i = l[i] :: l.drop (i + 1) := List.drop_eq_getElem_cons hlt
        refine (returns_attempt_ok.mpr (h.getAt_of_lt hlt)).bind ?_
        have hnext : UInt64.ofNat i + 1 = UInt64.ofNat (i + 1) := by
          rw [UInt64.ofNat_add]
          rfl
        rw [hnext]
        refine (ih hlt).bind ?_
        rw [hdrop, List.take_succ_cons, numbered, ← UInt64.ofNat_add, add_assoc]
        exact returns_pure.mpr ⟨rfl, rfl⟩
      · have hbound : (errOutOfBoundsQueue.wrap "get").isA .outOfBoundsQueue = true := by decide
        refine (returns_attempt_error.mpr (h.getAt_of_le le_rfl h.bound)).bind ?_
        simp [hbound, numbered]

/-- **Peeking** reads the first `maxPeek` elements and leaves the queue as it is. -/
theorem peekEligible_returns (h : q.Holds n l) (maxPeek : UInt32) :
    Returns (peekEligible codec maxPeek) q (numbered codec n (l.take maxPeek.toNat)) q := by
  have hget : Returns (get : Prog (Queue Withdrawal) _) q q q := returns_get.mpr ⟨rfl, rfl⟩
  refine hget.bind ?_
  by_cases he : q.isEmpty = true
  · have hl : l = [] := h.isEmpty_iff.mp he
    simp [he, hl, numbered]
  · rw [if_neg he]
    refine h.readFront.bind ?_
    simpa using peekLoop_returns codec maxPeek.toNat h (Nat.zero_le _)

/-! ### The last key -/

/-- Peeking does not see the element under the last key. -/
theorem peekEligible_last (h : q.Holds (2 ^ 64 - 1) []) (w : Withdrawal) (maxPeek : UInt32) :
    Returns (peekEligible codec maxPeek) (q.push w) [] (q.push w) := by
  have hget : Returns (get : Prog (Queue Withdrawal) _) (q.push w) (q.push w) (q.push w) :=
    returns_get.mpr ⟨rfl, rfl⟩
  refine hget.bind ?_
  by_cases he : (q.push w).isEmpty = true
  · simp [he]
  rw [if_neg he]
  have hfront : Returns Queue.readFront (q.push w) (UInt64.ofNat (2 ^ 64 - 1)) (q.push w) := by
    simp [Queue.readFront, Queue.push, h.front_eq]
  refine hfront.bind ?_
  cases maxPeek.toNat with
  | zero => exact returns_pure.mpr ⟨rfl, rfl⟩
  | succ fuel =>
      have hbound : (errOutOfBoundsQueue.wrap "get").isA .outOfBoundsQueue = true := by decide
      refine (returns_attempt_error.mpr (h.push_last_getAt w)).bind ?_
      simp [hbound]

/-- Dequeuing hands it out. -/
theorem dequeueEligible_last (h : q.Holds (2 ^ 64 - 1) []) (w : Withdrawal) {maxDequeue : UInt32}
    (hmax : 0 < maxDequeue.toNat) :
    ∃ q', Returns (dequeueEligible codec maxDequeue) (q.push w)
      [toEthWithdrawal codec (UInt64.ofNat (2 ^ 64 - 1)) w] q' := by
  obtain ⟨q', hdeq, he⟩ := h.push_last_dequeue w
  obtain ⟨fuel, hfuel⟩ : ∃ fuel, maxDequeue.toNat = fuel + 1 := ⟨maxDequeue.toNat - 1, by omega⟩
  have hfront : Returns Queue.readFront (q.push w) (UInt64.ofNat (2 ^ 64 - 1)) (q.push w) := by
    simp [Queue.readFront, Queue.push, h.front_eq]
  refine ⟨q', hfront.bind ?_⟩
  rw [hfuel]
  refine (returns_attempt_ok.mpr hdeq).bind ?_
  refine (dequeueLoop_of_isEmpty codec _ _ _ he).bind ?_
  simp

end Specs

end Story.EvmStaking
