/-
# Story.EvmEngine.Payout -- what a payload pays out, voted and finalized

A payload pays out the first withdrawals of the withdrawal queue, up to the maximum
per block, and fills the room that is left from the reward queue. The vote reads
them by position, the finalized payload takes them out one by one; on queues that
hold lists both see the same split of the maximum, `due`.
-/
import Story.EvmEngine.Server

namespace Story.EvmEngine

open Story.Effect Story.Errors Story.Sdk Story.Collections
open Story.EvmStaking (Withdrawal numbered)

variable {W : Type}

/-! ## The split of the maximum -/

/-- What is due from the first queue. -/
def due (max : UInt32) (l : List Withdrawal) : List Withdrawal := l.take max.toNat

/-- What is due from the second queue, when `l` is in the first. -/
def dueRewards (max : UInt32) (l r : List Withdrawal) : List Withdrawal :=
  r.take (max.toNat - (due max l).length)

theorem length_due_le (max : UInt32) (l : List Withdrawal) : (due max l).length ≤ max.toNat := by
  simp [due]

/-- The conversion of the length to `uint32` is exact and the subtraction does not wrap. -/
theorem toNat_sub_due (max : UInt32) (l : List Withdrawal) :
    (max - UInt32.ofNat (due max l).length).toNat = max.toNat - (due max l).length := by
  have hle := length_due_le max l
  have hlt : (due max l).length < 2 ^ 32 := lt_of_le_of_lt hle max.toNat_lt
  have hof : (UInt32.ofNat (due max l).length).toNat = (due max l).length := by
    rw [UInt32.toNat_ofNat']
    exact Nat.mod_eq_of_lt hlt
  rw [UInt32.toNat_sub_of_le, hof]
  rw [UInt32.le_iff_toNat_le, hof]
  exact hle

/-- The room left by the first queue, asked from the second. -/
theorem due_sub_due (max : UInt32) (l r : List Withdrawal) :
    due (max - UInt32.ofNat (due max l).length) r = dueRewards max l r := by
  rw [due, toNat_sub_due, dueRewards]

/-- Rewards are due only when the whole first queue is. -/
theorem due_eq_of_dueRewards {max : UInt32} {l r : List Withdrawal}
    (h : dueRewards max l r ≠ []) : due max l = l := by
  by_contra hne
  have hlen : max.toNat < l.length := by
    by_contra hge
    exact hne (List.take_of_length_le (by omega))
  apply h
  simp [dueRewards, due, List.length_take, Nat.min_eq_left (Nat.le_of_lt hlen)]

theorem length_due_add_dueRewards_le (max : UInt32) (l r : List Withdrawal) :
    (due max l).length + (dueRewards max l r).length ≤ max.toNat := by
  have := length_due_le max l
  simp only [dueRewards, List.length_take]
  omega

/-! ## Finalizing -/

section

variable (codec : Codec) {s t : EvmStaking.Store W} {n m : Nat} {l r : List Withdrawal}

/-- The maximum a store sets for a block. -/
def maxOf (s : EvmStaking.Store W) : UInt32 := s.currentParams.maxWithdrawalPerBlock

/-- What a finalized payload takes out of a store whose queues hold `l` and `r`. -/
def dequeuedOf (codec : Codec) (s : EvmStaking.Store W) (n m : Nat) (l r : List Withdrawal) :
    Dequeued :=
  ⟨numbered codec n (due (maxOf s) l), numbered codec m (dueRewards (maxOf s) l r)⟩

theorem dequeueEligibleWithdrawals_returns (h : s.withdrawalQueue.Holds n l) (max : UInt32) :
    ∃ q, Returns (EvmStaking.dequeueEligibleWithdrawals codec max) s
        (numbered codec n (due max l)) { s with withdrawalQueue := q } ∧
      q.Holds (n + (due max l).length) (l.drop max.toNat) := by
  obtain ⟨q, hr, hq⟩ := EvmStaking.dequeueEligible_returns codec h max
  exact ⟨q, returns_zoom.mpr ⟨q, hr, rfl⟩, hq⟩

theorem dequeueEligibleRewardWithdrawals_returns (h : s.rewardWithdrawalQueue.Holds m r)
    (max : UInt32) :
    ∃ q, Returns (EvmStaking.dequeueEligibleRewardWithdrawals codec max) s
        (numbered codec m (due max r)) { s with rewardWithdrawalQueue := q } ∧
      q.Holds (m + (due max r).length) (r.drop max.toNat) := by
  obtain ⟨q, hr, hq⟩ := EvmStaking.dequeueEligible_returns codec h max
  exact ⟨q, returns_zoom.mpr ⟨q, hr, rfl⟩, hq⟩

/-- **Finalizing pays what is due**, and returns exactly when the proposed number is right. -/
theorem dequeueProposed_spec (hl : s.withdrawalQueue.Holds n l)
    (hr : s.rewardWithdrawalQueue.Holds m r) :
    ∃ q q', q.Holds (n + (due (maxOf s) l).length) (l.drop (maxOf s).toNat) ∧
      q'.Holds (m + (dueRewards (maxOf s) l r).length)
        (r.drop ((maxOf s).toNat - (due (maxOf s) l).length)) ∧
      ∀ proposed d t, Returns (dequeueProposed codec proposed) s d t ↔
        proposed = (due (maxOf s) l).length + (dueRewards (maxOf s) l r).length ∧
          d = dequeuedOf codec s n m l r ∧
          t = { s with withdrawalQueue := q, rewardWithdrawalQueue := q' } := by
  obtain ⟨q, hd, hq⟩ := dequeueEligibleWithdrawals_returns codec hl (maxOf s)
  have hr' : ({ s with withdrawalQueue := q } : EvmStaking.Store W).rewardWithdrawalQueue.Holds
      m r := hr
  obtain ⟨q', hd', hq'⟩ := dequeueEligibleRewardWithdrawals_returns codec hr'
    (maxOf s - UInt32.ofNat (due (maxOf s) l).length)
  rw [due_sub_due] at hd' hq'
  rw [toNat_sub_due] at hq'
  refine ⟨q, q', hq, hq', ?_⟩
  intro proposed d t
  have hmax : Returns (wrapErr "error getting max withdrawal per block"
      EvmStaking.maxWithdrawalPerBlock) s (maxOf s) s := by
    simp [maxOf]
  rw [dequeueProposed, hmax.bind_iff, (returns_wrapErr.mpr hd).bind_iff,
    EvmStaking.length_numbered]
  by_cases hlt : proposed < (due (maxOf s) l).length
  · rw [if_pos hlt]
    simp only [returns_fail, false_iff, not_and]
    omega
  · rw [if_neg hlt, (returns_wrapErr.mpr hd').bind_iff, EvmStaking.length_numbered]
    by_cases heq : (due (maxOf s) l).length + (dueRewards (maxOf s) l r).length = proposed
    · simp [heq, dequeuedOf, eq_comm]
    · simp [heq, Ne.symm heq]

/-- A payload pays at most the maximum, and pays rewards only when it empties the first
queue. -/
theorem dequeueProposed_bounds (hl : s.withdrawalQueue.Holds n l)
    (hr : s.rewardWithdrawalQueue.Holds m r) {proposed : Nat} {d : Dequeued}
    (h : Returns (dequeueProposed codec proposed) s d t) :
    d.withdrawals.length + d.rewardWithdrawals.length ≤ (maxOf s).toNat ∧
      (d.rewardWithdrawals ≠ [] → t.withdrawalQueue.contents = []) := by
  obtain ⟨q, q', hq, _, hspec⟩ := dequeueProposed_spec codec hl hr
  obtain ⟨_, rfl, rfl⟩ := (hspec _ _ _).mp h
  constructor
  · simpa [dequeuedOf] using length_due_add_dueRewards_le (maxOf s) l r
  · intro hne
    have hrewards : dueRewards (maxOf s) l r ≠ [] := by
      intro h
      exact hne (by simp [dequeuedOf, h, numbered])
    have hall := congrArg List.length (due_eq_of_dueRewards hrewards)
    have hle := length_due_le (maxOf s) l
    exact hq.contents_eq.trans (List.drop_of_length_le (by omega))

/-! ## Voting -/

theorem peekEligibleWithdrawals_returns (h : s.withdrawalQueue.Holds n l) (max : UInt32) :
    Returns (EvmStaking.peekEligibleWithdrawals codec max) s (numbered codec n (due max l)) s :=
  returns_zoom.mpr ⟨_, EvmStaking.peekEligible_returns codec h max, rfl⟩

theorem peekEligibleRewardWithdrawals_returns (h : s.rewardWithdrawalQueue.Holds m r)
    (max : UInt32) :
    Returns (EvmStaking.peekEligibleRewardWithdrawals codec max) s
      (numbered codec m (due max r)) s :=
  returns_zoom.mpr ⟨_, EvmStaking.peekEligible_returns codec h max, rfl⟩

/-- A comparison loop returns when `actual` goes on with `expected` from `pos` on. -/
theorem returns_compareFrom {σ : Type} {actual : List (Option Eth.Withdrawal)} {pos : Nat}
    {expected : List Eth.Withdrawal} {s t : σ} {u : Unit} :
    Returns (compareFrom actual pos expected) s u t ↔
      expected.map some <+: actual.drop pos ∧ s = t := by
  induction expected generalizing pos with
  | nil => simp [compareFrom]
  | cons e expected ih =>
      rw [compareFrom, List.map_cons]
      rcases hx : actual[pos]? with _ | _ | a
      · have hdrop : actual.drop pos = [] := by simpa using hx
        simp [hdrop]
      · have hdrop := List.drop_eq_getElem?_toList_append (l := actual) (i := pos)
        simp [hdrop, hx]
      · have hdrop := List.drop_eq_getElem?_toList_append (l := actual) (i := pos)
        have heq : e = a ↔ e.index = a.index ∧ e.validator = a.validator ∧
            e.address = a.address ∧ e.amount = a.amount := Eth.Withdrawal.ext_iff
        rw [hdrop, hx, Option.toList_some, List.singleton_append, List.cons_prefix_cons,
          Option.some.injEq, heq, and_assoc, ← @ih (pos + 1)]
        simp only [returns_ite]
        grind [returns_fail]

/-- A concatenation is a prefix when its parts follow each other. -/
theorem append_prefix_iff {α : Type} {a b l : List α} :
    a ++ b <+: l ↔ a <+: l ∧ b <+: l.drop a.length := by
  constructor
  · rintro ⟨c, rfl⟩
    exact ⟨⟨b ++ c, by simp⟩, ⟨c, by simp⟩⟩
  · rintro ⟨⟨c, rfl⟩, h⟩
    simpa using h

/-- **Voting accepts what is due**, and nothing else. -/
theorem returns_compareWithdrawals (hl : s.withdrawalQueue.Holds n l)
    (hr : s.rewardWithdrawalQueue.Holds m r) {actual : List (Option Eth.Withdrawal)} {u : Unit} :
    Returns (compareWithdrawals codec actual) s u t ↔
      actual = ((dequeuedOf codec s n m l r).withdrawals ++
        (dequeuedOf codec s n m l r).rewardWithdrawals).map some ∧ s = t := by
  have hmax : Returns (wrapErr "get max withdrawals per block"
      EvmStaking.maxWithdrawalPerBlock) s (maxOf s) s := by
    simp [maxOf]
  have hp : Returns (wrapErr "peek withdrawals"
      (EvmStaking.peekEligibleWithdrawals codec (maxOf s))) s _ s :=
    returns_wrapErr.mpr (peekEligibleWithdrawals_returns codec hl (maxOf s))
  have hp' : Returns (wrapErr "peek reward withdrawals"
      (EvmStaking.peekEligibleRewardWithdrawals codec
        (maxOf s - UInt32.ofNat (due (maxOf s) l).length))) s _ s :=
    returns_wrapErr.mpr (peekEligibleRewardWithdrawals_returns codec hr _)
  rw [due_sub_due] at hp'
  rw [compareWithdrawals, hmax.bind_iff, hp.bind_iff, EvmStaking.length_numbered]
  have hlen : ∀ h : actual = ((dequeuedOf codec s n m l r).withdrawals ++
      (dequeuedOf codec s n m l r).rewardWithdrawals).map some,
      actual.length = (due (maxOf s) l).length + (dueRewards (maxOf s) l r).length := by
    rintro rfl
    simp [dequeuedOf]
  -- a list that is too short for the withdrawals is refused before the rewards are peeked
  by_cases hlt : actual.length < (due (maxOf s) l).length
  · rw [if_pos hlt]
    simp only [returns_fail, false_iff, not_and]
    intro h
    have := hlen h
    omega
  rw [if_neg hlt, hp'.bind_iff, EvmStaking.length_numbered]
  by_cases heq : (due (maxOf s) l).length + (dueRewards (maxOf s) l r).length = actual.length
  · simp only [heq, ne_eq, not_true_eq_false, if_false, returns_bind, returns_compareFrom]
    constructor
    · rintro ⟨_, _, ⟨h₁, rfl⟩, h₂, rfl⟩
      refine ⟨?_, rfl⟩
      have h₁' : (numbered codec n (due (maxOf s) l)).map some <+: actual := by simpa using h₁
      have h := append_prefix_iff.mpr ⟨h₁', by simpa using h₂⟩
      rw [dequeuedOf, List.map_append]
      exact (h.eq_of_length (by simp [heq])).symm
    · rintro ⟨h, rfl⟩
      rw [dequeuedOf, List.map_append] at h
      obtain ⟨h₁, h₂⟩ := append_prefix_iff.mp ⟨[], (List.append_nil _).trans h.symm⟩
      exact ⟨(), s, ⟨by simpa using h₁, rfl⟩, by simpa using h₂, rfl⟩
  · simp only [ne_eq, heq, not_false_eq_true, if_true, returns_fail, false_iff, not_and]
    intro h
    exact absurd (hlen h).symm heq

end

/-! ## The whole message -/

section

variable {A : Wiring W} {E : Engine} {fuel : Nat} {ctx : Ctx} {n n' : Node W}

/-- Pushing a payload writes the syncing flag only. -/
theorem finalizePush_store {payload : Eth.ExecutableData} {i : Nat} {o : Option Unit}
    (h : Returns (finalizePush E ctx payload i) n o n') : n'.store = n.store := by
  obtain ⟨r, n₁, h₁, h⟩ := returns_bind.mp h
  have hn₁ : n₁ = n := ReadOnly.returns _ _ _ h₁
  subst hn₁
  cases r with
  | error _ =>
      obtain ⟨_, rfl⟩ := returns_pure.mp h
      rfl
  | ok status =>
      dsimp only at h
      split at h
      · exact absurd h returns_fail
      · simp only [returns_bind, returns_get, returns_onlyIf, returns_modify, returns_pure] at h
        obtain ⟨_, _, ⟨rfl, rfl⟩, _, n₂, h₂, _, n₃, h₃, _, rfl⟩ := h
        have hn₂ : n₂.store = n₁.store := by
          rcases h₂ with ⟨_, rfl⟩ | ⟨_, rfl⟩ <;> rfl
        rcases h₃ with ⟨_, rfl⟩ | ⟨_, rfl⟩ <;> exact hn₂

/-- An answer other than SYNCING takes the flag down. -/
theorem finalizePush_synced {payload : Eth.ExecutableData} {i : Nat} {u : Unit}
    (hE : ∀ status, E.newPayloadV3 i payload (Eth.bytesToHash ctx.appHash) = .ok status →
      isSyncing status = false)
    (h : Returns (finalizePush E ctx payload i) n (some u) n') : n'.isExecEngSyncing = false := by
  obtain ⟨r, n₁, h₁, h⟩ := returns_bind.mp h
  cases r with
  | error _ => cases (returns_pure.mp h).1
  | ok status =>
      have hstatus : isSyncing status = false := by
        have hpush := returns_attempt_ok.mp h₁
        rw [pushPayload, returns_ite] at hpush
        rcases hpush with ⟨_, hpush⟩ | ⟨_, hpush⟩
        · exact absurd hpush returns_fail
        · exact hE status (returns_convert.mp (returns_wrapErr.mp hpush)).1
      dsimp only at h
      split at h
      · exact absurd h returns_fail
      · simp only [returns_bind, returns_get, returns_onlyIf, returns_modify, returns_pure,
          hstatus] at h
        obtain ⟨_, _, ⟨rfl, rfl⟩, _, n₂, h₂, _, n₃, h₃, _, rfl⟩ := h
        obtain rfl : n₁ = n₂ := by simpa using h₂
        by_cases hn : n₁.isExecEngSyncing = true
        · obtain rfl : { n₁ with isExecEngSyncing := false } = n₃ := by simpa [hn] using h₃
          rfl
        · obtain rfl : n₁ = n₃ := by simpa [hn] using h₃
          simpa using hn

/-- The dispatchers write the accounts and the pending upgrade only. -/
theorem deliverEvents_frame {logs : List (Option EVMEvent)} {u : Unit}
    (h : Returns (deliverEvents A ctx logs) n u n') :
    n'.store.evmstaking
        = { n.store.evmstaking with accounts := n'.store.evmstaking.accounts } ∧
      n'.store.head = n.store.head ∧ n'.isExecEngSyncing = n.isExecEngSyncing := by
  simp only [deliverEvents, returns_bind, returns_wrapErr, returns_zoom] at h
  obtain ⟨_, _, ⟨a, _, rfl⟩, _, _, ⟨p, _, rfl⟩, w, _, rfl⟩ := h
  exact ⟨rfl, rfl, rfl⟩

theorem pushLoop_store {payload : Eth.ExecutableData} {u : Unit}
    (h : Returns (retryForever (E.cancelled .newPayload) (finalizePush E ctx payload) fuel 0)
      n u n') : n'.store = n.store := by
  obtain ⟨_, n₁, hn₁, hstop⟩ := retryForever_returns (I := fun m => m.store = n.store)
    (fun i m m' hI hr => (finalizePush_store hr).trans hI) rfl h
  exact (finalizePush_store hstop).trans hn₁

/-- Applying a payload makes its block the head, and otherwise writes what events write. -/
theorem applyPayload_frame {logs : List (Option EVMEvent)} {payload : Eth.ExecutableData}
    {u : Unit} (h : Returns (applyPayload A E fuel ctx logs payload) n u n') :
    n'.store.evmstaking
        = { n.store.evmstaking with accounts := n'.store.evmstaking.accounts } ∧
      n'.store.head = some (headOf ctx payload) := by
  simp only [applyPayload, returns_bind, returns_wrapErr, returns_zoom] at h
  obtain ⟨_, n₁, hpush, _, n₂, hfc, _, n₃, hev, st, hhead, rfl⟩ := h
  obtain rfl := ReadOnly.returns _ _ _ hfc
  obtain ⟨hframe, _⟩ := deliverEvents_frame hev
  obtain rfl := updateExecutionHead_returns hhead
  refine ⟨?_, rfl⟩
  rw [← pushLoop_store hpush]
  exact hframe

/-- The calls a finalized message is made of. -/
theorem returns_msgExecutionPayload {msg : MsgExecutionPayload} {d : Dequeued} :
    Returns (msgExecutionPayload A E fuel ctx msg) n d n' ↔ ctx.execMode = .finalize ∧
      ∃ payload t, parseAndVerifyProposedPayload A ctx n.store.head msg = .ok payload ∧
        Returns (dequeueProposed A.keepers.codec (payload.withdrawals.getD []).length)
          n.store.evmstaking d t ∧
        Returns (applyPayload A E fuel ctx msg.prevPayloadEvents payload)
          (evmstakingLens.put t n) () n' := by
  rw [msgExecutionPayload, returns_ite]
  simp only [returns_fail, and_false, false_or, not_not, returns_bind, returns_get,
    returns_ofExcept, returns_zoom, returns_pure]
  refine and_congr_right fun _ => ⟨?_, ?_⟩
  · rintro ⟨_, _, ⟨rfl, rfl⟩, payload, _, ⟨hparse, rfl⟩, _, _, ⟨t, hd, rfl⟩, _, _, happly, rfl, rfl⟩
    exact ⟨payload, t, hparse, hd, happly⟩
  · rintro ⟨payload, t, hparse, hd, happly⟩
    exact ⟨n, n, ⟨rfl, rfl⟩, payload, n, ⟨hparse, rfl⟩, d, _, ⟨t, hd, rfl⟩, (), n', happly, rfl,
      rfl⟩

/-- **What a finalized payload has done**: it passed the checks against the head, the
queues gave what it proposed, and its block is the head. -/
theorem msgExecutionPayload_returns {msg : MsgExecutionPayload} {d : Dequeued}
    (h : Returns (msgExecutionPayload A E fuel ctx msg) n d n') :
    ∃ payload t, parseAndVerifyProposedPayload A ctx n.store.head msg = .ok payload ∧
      Returns (dequeueProposed A.keepers.codec (payload.withdrawals.getD []).length)
        n.store.evmstaking d t ∧
      n'.store.evmstaking = { t with accounts := n'.store.evmstaking.accounts } ∧
      n'.store.head = some (headOf ctx payload) := by
  obtain ⟨_, payload, t, hparse, hd, happly⟩ := returns_msgExecutionPayload.mp h
  obtain ⟨hframe, hhead⟩ := applyPayload_frame happly
  exact ⟨payload, t, hparse, hd, hframe, hhead⟩

/-- A payload the client does not answer with SYNCING leaves the node in sync. -/
theorem applyPayload_synced {logs : List (Option EVMEvent)} {payload : Eth.ExecutableData}
    {u : Unit} (hE : ∀ i root status, E.newPayloadV3 i payload root = .ok status →
      isSyncing status = false)
    (h : Returns (applyPayload A E fuel ctx logs payload) n u n') :
    n'.isExecEngSyncing = false := by
  simp only [applyPayload, returns_bind, returns_wrapErr, returns_zoom] at h
  obtain ⟨_, n₁, hpush, _, n₂, hfc, _, n₃, hev, st, _, rfl⟩ := h
  obtain rfl := ReadOnly.returns _ _ _ hfc
  obtain ⟨i, m, _, hstop⟩ := retryForever_returns (I := fun _ => True)
    (fun _ _ _ _ _ => trivial) trivial hpush
  change n₃.isExecEngSyncing = false
  rw [(deliverEvents_frame hev).2.2]
  exact finalizePush_synced (hE i _) hstop

end

end Story.EvmEngine
