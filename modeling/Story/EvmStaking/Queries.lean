/-
# Story.EvmStaking.Queries -- reading the withdrawal queues as a whole

`GetAllWithdrawals` and `GetWithdrawals` run through the queue with `Iterate`, from
`front` to `rear`. The paginated queries of `grpc_query.go` do not: they open the key
prefix of the elements and page through whatever lies there, with the SDK's paginator,
which is a parameter here. Both are right for the same reason, that the queue refines
a list: no key is in use but those of the elements that have not left.
-/
import Story.Collections.QueueCalls
import Story.EvmStaking.WithdrawalQueue

namespace Story.EvmStaking

open Story.Effect Story.Errors Story.Sdk Story.Collections

variable {W : Type}

/-! ## The code -/

/-- `GetAllWithdrawals` and `GetAllRewardWithdrawals`, on the queue each of them names. -/
def getAll : Prog (Queue Withdrawal) (List Withdrawal) := do
  let wdrKvs ← Queue.iterate
  return wdrKvs.map Prod.snd

/-- The loop of `GetWithdrawals`: what the iterator has left, and the withdrawals so far. -/
def getLoop (maxRetrieve : Nat) :
    List (UInt64 × Withdrawal) → (withdrawals : List Withdrawal) → List Withdrawal
  | [], withdrawals => withdrawals
  | (_, withdrawal) :: iterator, withdrawals =>
      if withdrawals.length < maxRetrieve then
        getLoop maxRetrieve iterator (withdrawals ++ [withdrawal])
      else withdrawals

/-- `GetWithdrawals` and `GetRewardWithdrawals`, on the queue each of them names. -/
def getUpTo (maxRetrieve : UInt32) : Prog (Queue Withdrawal) (List Withdrawal) := do
  return getLoop maxRetrieve.toNat (← Queue.iterate) []

def getAllWithdrawals : Prog (Store W) (List Withdrawal) := zoom withdrawalQueueLens getAll

def getAllRewardWithdrawals : Prog (Store W) (List Withdrawal) :=
  zoom rewardWithdrawalQueueLens getAll

def getWithdrawals (maxRetrieve : UInt32) : Prog (Store W) (List Withdrawal) :=
  zoom withdrawalQueueLens (getUpTo maxRetrieve)

def getRewardWithdrawals (maxRetrieve : UInt32) : Prog (Store W) (List Withdrawal) :=
  zoom rewardWithdrawalQueueLens (getUpTo maxRetrieve)

/-- The SDK's `query.GenericFilteredPaginate` with the identity filter: a page of the entries
of a prefix store, in the order of their keys, for a page request `P`, with a page response
`R`. -/
abbrev Paginator (P R : Type) :=
  List (UInt64 × Withdrawal) → P → Except GoError (List Withdrawal × R)

/-- `paginateWithdrawalQueue`. The prefix store of the elements is what `scan` runs through. -/
def paginateWithdrawalQueue {P R : Type} (paginate : Paginator P R) (pagination : P) :
    Prog (Queue Withdrawal) (List Withdrawal × R) := do
  let (withdrawals, pageResp) ← wrapErr "failed to paginate withdrawal queue"
    (ofExcept (paginate (← get).scan pagination))
  let ws := withdrawals.map fun w =>
    { creationHeight := w.creationHeight
      executionAddress := w.executionAddress
      amount := w.amount
      withdrawalType := w.withdrawalType
      validatorAddress := w.validatorAddress }
  return (ws, pageResp)

/-- `status.Error(codes.InvalidArgument, "empty request")`. -/
def errEmptyRequest : GoError :=
  .new "rpc error: code = InvalidArgument desc = empty request"

/-- `status.Error(codes.Internal, err.Error())`. -/
def internal (err : GoError) : GoError :=
  .new ("rpc error: code = Internal desc = " ++ err.msg)

/-- `GetWithdrawalQueue` and `GetRewardWithdrawalQueue`, on the queue each of them names;
`request` is the page request, if there is a request. -/
def getQueue {P R : Type} (paginate : Paginator P R) (request : Option P) :
    Prog (Queue Withdrawal) (List Withdrawal × R) := do
  match request with
  | none => fail errEmptyRequest
  | some pagination =>
      match ← attempt (paginateWithdrawalQueue paginate pagination) with
      | .error err => fail (internal err)
      | .ok page => pure page

def getWithdrawalQueue {P R : Type} (paginate : Paginator P R) (request : Option P) :
    Prog (Store W) (List Withdrawal × R) :=
  zoom withdrawalQueueLens (getQueue paginate request)

def getRewardWithdrawalQueue {P R : Type} (paginate : Paginator P R) (request : Option P) :
    Prog (Store W) (List Withdrawal × R) :=
  zoom rewardWithdrawalQueueLens (getQueue paginate request)

/-! ## On a queue that holds a list -/

section Holds

variable {q : Queue Withdrawal} {n : Nat} {l : List Withdrawal}

theorem returns_getAll (h : q.Holds n l) : Returns getAll q l q := by
  have hlist : q.entries.map Prod.snd = l := h.contents_eq
  simp [getAll, Queue.iterate, hlist]

/-- The loop collects from the front until it has enough. -/
theorem getLoop_eq (m : Nat) (kvs : List (UInt64 × Withdrawal)) (ws : List Withdrawal) :
    getLoop m kvs ws = ws ++ (kvs.map Prod.snd).take (m - ws.length) := by
  induction kvs generalizing ws with
  | nil => simp [getLoop]
  | cons kv kvs ih =>
      unfold getLoop
      split
      next hlt =>
        rw [ih, List.map_cons, show m - ws.length = m - (ws ++ [kv.2]).length + 1 by
          rw [List.length_append, List.length_singleton]
          omega, List.take_succ_cons, List.append_assoc]
        rfl
      next hge =>
        rw [show m - ws.length = 0 by omega, List.take_zero, List.append_nil]

theorem returns_getUpTo (h : q.Holds n l) (maxRetrieve : UInt32) :
    Returns (getUpTo maxRetrieve) q (l.take maxRetrieve.toNat) q := by
  have hlist : q.entries.map Prod.snd = l := h.contents_eq
  simp [getUpTo, Queue.iterate, getLoop_eq, hlist]

/-- A page of the query is a page of the raw scan. -/
theorem returns_getQueue {P R : Type} {paginate : Paginator P R} {pagination : P}
    {page : List Withdrawal × R} (h : paginate q.scan pagination = .ok page) :
    Returns (getQueue paginate (some pagination)) q page q := by
  have hpage : Returns (paginateWithdrawalQueue paginate pagination) q page q := by
    simp [paginateWithdrawalQueue, h]
  exact (returns_attempt_ok.mpr hpage).bind (returns_pure.mpr ⟨rfl, rfl⟩)

end Holds

/-! ## The queues refine lists -/

/-- One of the two queues of a store, read as a whole. -/
theorem zoom_reads_list (queue : Lens (Store W) (Queue Withdrawal)) {s : Store W} {n : Nat}
    {calls : List (QueueCall Withdrawal)} (h : QueueCall.Reached calls (queue.view s) n) :
    Returns (zoom queue getAll) s (QueueCall.listAfter calls []) s ∧
    (∀ m, Returns (zoom queue (getUpTo m)) s
      ((QueueCall.listAfter calls []).take m.toNat) s) ∧
    ∃ kvs, kvs.map Prod.snd = QueueCall.listAfter calls [] ∧
      ∀ {P R : Type} (paginate : Paginator P R) pagination page,
        paginate kvs pagination = .ok page →
          Returns (zoom queue (getQueue paginate (some pagination))) s page s := by
  have hput : queue.put (queue.view s) s = s := queue.put_view s
  refine ⟨?_, ?_, _, h.refinesList.scan, ?_⟩
  · exact returns_zoom.mpr ⟨_, returns_getAll h.holds, hput⟩
  · intro m
    exact returns_zoom.mpr ⟨_, returns_getUpTo h.holds m, hput⟩
  · intro P R paginate pagination page hpage
    exact returns_zoom.mpr ⟨_, returns_getQueue hpage, hput⟩

/-- **The persistent queue refines a list.** After any calls on an initialized queue, as long as
fewer than 2^64 elements were enqueued, the queue is for every client the list the calls make.
So `GetAllWithdrawals`, which goes by the counters, returns the withdrawals not yet dequeued,
and the paginated query, which does not, pages through the same ones, in the same order; and so
do the two for rewards. -/
theorem queue_refines_list :
    (∀ {T : Type} {q₀ : Queue T}, Returns Queue.init Queue.unset () q₀ →
      ∀ calls : List (QueueCall T), (QueueCall.enqueued calls).length < 2 ^ 64 →
        QueueCall.RefinesList calls (QueueCall.after calls q₀)) ∧
    ∀ {q₀ : Queue Withdrawal}, Returns Queue.init Queue.unset () q₀ →
      ∀ calls : List (QueueCall Withdrawal), (QueueCall.enqueued calls).length < 2 ^ 64 →
      ∀ {W : Type} (s : Store W),
        (s.withdrawalQueue = QueueCall.after calls q₀ →
          Returns getAllWithdrawals s (QueueCall.listAfter calls []) s ∧
          (∀ m, Returns (getWithdrawals m) s
            ((QueueCall.listAfter calls []).take m.toNat) s) ∧
          ∃ kvs, kvs.map Prod.snd = QueueCall.listAfter calls [] ∧
            ∀ {P R : Type} (paginate : Paginator P R) pagination page,
              paginate kvs pagination = .ok page →
                Returns (getWithdrawalQueue paginate (some pagination)) s page s) ∧
        (s.rewardWithdrawalQueue = QueueCall.after calls q₀ →
          Returns getAllRewardWithdrawals s (QueueCall.listAfter calls []) s ∧
          (∀ m, Returns (getRewardWithdrawals m) s
            ((QueueCall.listAfter calls []).take m.toNat) s) ∧
          ∃ kvs, kvs.map Prod.snd = QueueCall.listAfter calls [] ∧
            ∀ {P R : Type} (paginate : Paginator P R) pagination page,
              paginate kvs pagination = .ok page →
                Returns (getRewardWithdrawalQueue paginate (some pagination)) s page s) := by
  refine ⟨?_, ?_⟩
  · intro T q₀ hinit calls hroom
    obtain ⟨n, h⟩ := QueueCall.exists_reached hinit calls hroom
    exact h.refinesList
  · intro q₀ hinit calls hroom W s
    obtain ⟨n, h⟩ := QueueCall.exists_reached hinit calls hroom
    refine ⟨fun hs => ?_, fun hs => ?_⟩
    · rw [← hs] at h
      exact zoom_reads_list withdrawalQueueLens h
    · rw [← hs] at h
      exact zoom_reads_list rewardWithdrawalQueueLens h

/-- Of two elements the first has left. -/
theorem second_left_of_two :
    QueueCall.RefinesList [.enqueue 1, .enqueue 2, .dequeue, .peek]
      (QueueCall.after [.enqueue 1, .enqueue 2, .dequeue, .peek]
        (⟨some 0, some 0, Queue.unset.elements⟩ : Queue Nat)) ∧
    QueueCall.listAfter [.enqueue 1, .enqueue 2, .dequeue, .peek] [] = [2] :=
  ⟨queue_refines_list.1 (Queue.returns_init.mpr rfl) _ (by decide), rfl⟩

end Story.EvmStaking
