/-
# Story.EvmEngine.Agreement -- an accepted payload finalizes

The vote and the finalized message are separate code with different checks. This file
reads off what a vote has established, and shows that it is all the finalized message
needs: the parsed payload is the same, the withdrawals it counts are the ones the vote
compared, and the events are equal to verified ones, so no dispatcher stops. What is
left is the execution client, which is asked until it answers.
-/
import Story.EvmEngine.Delivery
import Story.EvmEngine.Isolation

namespace Story.EvmEngine

open Story.Effect Story.Errors Story.Sdk Story.Collections
open Story.EvmStaking (processStakingEvents)

variable {W : Type}

/-! ## Events equal to verified ones -/

/-- An event that equals a verified one is verified: an absent field equals an empty one
only, and the verified one has no empty field of fixed length. -/
theorem verify_of_protoEqual {a b : Option EVMEvent} (h : protoEqual a b = true)
    (hv : EVMEvent.verify a = .ok ()) : EVMEvent.verify b = .ok () := by
  obtain ⟨l, address, txHash, rfl, ha, hx, hne, hla, htl, hxl⟩ := EVMEvent.verify_eq_ok hv
  cases b with
  | none => cases h
  | some b =>
      simp only [protoEqual, ha, hx, Option.getD_some, Bool.and_eq_true, decide_eq_true_eq] at h
      obtain ⟨⟨⟨haddr, htopics⟩, _⟩, hhash⟩ := h
      have hba : b.address = some address := by
        cases hb : b.address with
        | none =>
            rw [hb, Option.getD_none] at haddr
            simp [haddr] at hla
        | some x => rw [haddr, hb, Option.getD_some]
      have hbx : b.txHash = some txHash := by
        cases hb : b.txHash with
        | none =>
            rw [hb, Option.getD_none] at hhash
            simp [hhash] at hxl
        | some x => rw [hhash, hb, Option.getD_some]
      have htl' : ∀ t ∈ b.topics, t.length = 32 := htopics ▸ htl
      have hne' : b.topics ≠ [] := htopics ▸ hne
      simpa [EVMEvent.verify, hba, hbx, hla, hxl, hne'] using htl'

theorem verified_of_evmEventsEqual {a b : List (Option EVMEvent)}
    (h : evmEventsEqual a b = .ok ()) (hv : Verified a) : Verified b := by
  rw [evmEventsEqual] at h
  split at h
  · cases h
  next hlen =>
    split at h
    next hall =>
      intro ev hev
      obtain ⟨i, hi, rfl⟩ := List.getElem_of_mem hev
      have hia : i < a.length := by omega
      have hi' : i < (List.zipWith protoEqual a b).length := by simp [hia, hi]
      have heq : protoEqual a[i] b[i] = true := by
        have := List.all_eq_true.mp hall _ (List.getElem_mem hi')
        simpa using this
      exact verify_of_protoEqual heq (hv _ (List.getElem_mem hia))
    · cases h

theorem verified_of_verifyEvents {σ : Type} {events : List (Option EVMEvent)} {s t : σ}
    {u : Unit} (h : Returns (verifyEvents events) s u t) : Verified events := by
  refine Returns.forM_inv (I := fun done _ => Verified done) ?_ ?_ h
  · intro done ev s t _ hdone hev ev' h'
    rcases List.mem_append.mp h' with h' | h'
    · exact hdone ev' h'
    · obtain rfl := List.mem_singleton.mp h'
      exact (returns_ofExcept.mp (returns_wrapErr.mp hev)).1
  · intro ev hev
    cases hev

/-! ## What a vote establishes -/

/-- A vote that returns has parsed the payload, found its withdrawals to be the ones it
peeks, and found the events equal to verified ones. -/
theorem proposalExecutionPayload_returns {A : Wiring W} {E : Engine} {fuel : Nat} {ctx : Ctx}
    {msg : MsgExecutionPayload} {n n' : Node W} {u : Unit}
    (h : Returns (proposalExecutionPayload A E fuel ctx msg) n u n') :
    ∃ payload s, parseAndVerifyProposedPayload A ctx n.store.head msg = .ok payload ∧
      Returns (compareWithdrawals A.keepers.codec (payload.withdrawals.getD []))
        n.store.evmstaking () s ∧
      Verified msg.prevPayloadEvents := by
  obtain ⟨node, _, hget, h⟩ := returns_bind.mp h
  obtain ⟨rfl, rfl⟩ := returns_get.mp hget
  split at h
  · exact absurd h returns_fail
  simp only [returns_bind, returns_wrapErr, returns_ofExcept, returns_zoom] at h
  obtain ⟨payload, _, ⟨hparse, rfl⟩, _, _, ⟨s, hcompare, _⟩, _, n₁, _, events, n₂, hevents,
    heq, _⟩ := h
  refine ⟨payload, s, hparse, hcompare, ?_⟩
  simp only [evmEvents, returns_bind, returns_wrapErr, returns_pure] at hevents
  obtain ⟨logs, n₃, _, _, n₄, hverify, rfl, _⟩ := hevents
  exact verified_of_evmEventsEqual heq (verified_of_verifyEvents hverify)

/-! ## The execution client -/

/-- The client during a call: no context is cancelled, and no answer is INVALID. -/
structure Engine.Accepts (E : Engine) : Prop where
  not_cancelled : ∀ loop i, E.cancelled loop i = false
  newPayload : ∀ i payload root status, E.newPayloadV3 i payload root = .ok status →
    status.status ≠ .invalid
  forkchoice : ∀ i fcs attrs fcr, E.forkchoiceUpdatedV3 i fcs attrs = .ok fcr →
    fcr.payloadStatus.status ≠ .invalid

/-- The client answers in the end, when it is asked again and again. -/
structure Engine.Answers (E : Engine) : Prop where
  newPayload : ∀ payload root, ∃ i status, E.newPayloadV3 i payload root = .ok status
  forkchoice : ∀ fcs attrs, ∃ i fcr, E.forkchoiceUpdatedV3 i fcs attrs = .ok fcr

/-- A loop that is not cancelled and whose attempts return stops for lack of fuel only. -/
theorem retryForever_fails {σ α : Type} {cancelled : Nat → Bool} {fn : Nat → Prog σ (Option α)}
    (hc : ∀ i, cancelled i = false) (hfn : ∀ i s f t, ¬ Fails (fn i) s f t) {fuel i : Nat}
    {s t : σ} {f : Fault} (h : Fails (retryForever cancelled fn fuel i) s f t) :
    f = .retrying := by
  induction fuel generalizing i s with
  | zero => exact (fails_throw.mp h).1.symm
  | succ fuel ih =>
      rcases fails_bind.mp h with h | ⟨r, s', hr, h⟩
      · exact absurd (fails_attempt.mp h).1 (hfn i s f t)
      · rw [hc, if_neg Bool.false_ne_true] at h
        rcases r with err | _ | a
        · exact absurd (returns_attempt_error.mp hr) (hfn i s _ s')
        · exact ih h
        · exact absurd h fails_pure

/-- A loop that is not cancelled and one of whose attempts stops returns, given the fuel. -/
theorem retryForever_eventually {σ α : Type} {cancelled : Nat → Bool}
    {fn : Nat → Prog σ (Option α)} (hc : ∀ i, cancelled i = false) {s : σ}
    (hfn : ∀ i, Returns (fn i) s none s ∨ ∃ a t, Returns (fn i) s (some a) t)
    (hstop : ∃ i a t, Returns (fn i) s (some a) t) :
    ∃ fuel₀ a t, ∀ fuel, fuel₀ ≤ fuel → Returns (retryForever cancelled fn fuel 0) s a t := by
  classical
  obtain ⟨a, t, hfirst⟩ := Nat.find_spec hstop
  refine ⟨Nat.find hstop + 1, a, t, fun fuel hfuel => ?_⟩
  refine retryForever_of_attempt (n := Nat.find hstop) hc ?_ ?_ hfuel
  · intro k hk
    rw [Nat.zero_add]
    rcases hfn k with h | ⟨a, t, h⟩
    · exact h
    · exact absurd ⟨a, t, h⟩ (Nat.find_min hstop hk)
  · rwa [Nat.zero_add]

section

variable {E : Engine} {ctx : Ctx} {payload : Eth.ExecutableData} {n : Node W}

/-- An answer that is not INVALID ends the loop that pushes the payload. -/
theorem finalizePush_of_answer (hE : E.Accepts) {i : Nat} {status : Eth.PayloadStatus}
    (happ : Eth.bytesToHash ctx.appHash ≠ emptyHash)
    (hans : E.newPayloadV3 i payload (Eth.bytesToHash ctx.appHash) = .ok status) :
    ∃ n', Returns (finalizePush E ctx payload i) n (some ()) n' := by
  have hpush : Returns (attempt (pushPayload E ctx payload i)) n (.ok status) n :=
    returns_attempt_ok.mpr (by
      rw [pushPayload, if_neg happ]
      exact returns_wrapErr.mpr (returns_convert.mpr ⟨hans, rfl⟩))
  have hvalid : ¬ isInvalid status = true := by
    simpa [isInvalid] using hE.newPayload i _ _ _ hans
  simp only [finalizePush, hpush.bind_iff, if_neg hvalid, returns_bind, returns_get,
    returns_onlyIf, returns_modify, returns_pure]
  -- the flag is raised while syncing, and lowered when it was up
  by_cases hs : isSyncing status = true
  · exact ⟨_, n, n, ⟨rfl, rfl⟩, (), _, .inl ⟨hs, rfl⟩, (), _, .inr ⟨fun h => h.1 hs, rfl⟩,
      trivial, rfl⟩
  · by_cases hn : n.isExecEngSyncing = true
    · exact ⟨_, n, n, ⟨rfl, rfl⟩, (), n, .inr ⟨hs, rfl⟩, (), _, .inl ⟨⟨hs, hn⟩, rfl⟩,
        trivial, rfl⟩
    · exact ⟨_, n, n, ⟨rfl, rfl⟩, (), n, .inr ⟨hs, rfl⟩, (), _,
        .inr ⟨fun h => hn h.2, rfl⟩, trivial, rfl⟩

/-- An attempt to push the payload asks for another one, or ends the loop. -/
theorem finalizePush_attempt (hE : E.Accepts) (ctx : Ctx) (payload : Eth.ExecutableData)
    (i : Nat) (n : Node W) :
    Returns (finalizePush E ctx payload i) n none n ∨
      ∃ u n', Returns (finalizePush E ctx payload i) n (some u) n' := by
  have hretry {err : GoError} (h : Fails (pushPayload E ctx payload i) n (.err err) n) :
      Returns (finalizePush E ctx payload i) n none n :=
    (returns_attempt_error.mpr h).bind (returns_pure.mpr ⟨rfl, rfl⟩)
  by_cases happ : Eth.bytesToHash ctx.appHash = emptyHash
  · refine .inl (@hretry (.new "app hash is empty") ?_)
    rw [pushPayload, if_pos happ]
    exact fails_fail.mpr ⟨rfl, rfl⟩
  cases hans : E.newPayloadV3 i payload (Eth.bytesToHash ctx.appHash) with
  | error err =>
      refine .inl (@hretry ((GoError.ofSdk err).wrap "new payload") ?_)
      rw [pushPayload, if_neg happ]
      exact fails_wrapErr.mpr ⟨_, fails_convert.mpr ⟨err, hans, rfl, rfl⟩, rfl⟩
  | ok status =>
      obtain ⟨n', h⟩ := finalizePush_of_answer hE happ hans
      exact .inr ⟨(), n', h⟩

/-- An answer that is not INVALID ends the loop that moves the fork choice. -/
theorem finalizeForkchoice_of_answer (hE : E.Accepts) {i : Nat} {fcr : Eth.ForkChoiceResponse}
    (hans : E.forkchoiceUpdatedV3 i ⟨payload.blockHash, payload.blockHash, payload.blockHash⟩ none
      = .ok fcr) : Returns (finalizeForkchoice E payload i) n (some ()) n := by
  have hvalid : ¬ isInvalid fcr.payloadStatus = true := by
    simpa [isInvalid] using hE.forkchoice i _ _ _ hans
  rw [finalizeForkchoice]
  simp only [hans, if_neg hvalid, ite_self]
  exact returns_pure.mpr ⟨rfl, rfl⟩

theorem finalizeForkchoice_attempt (hE : E.Accepts) (payload : Eth.ExecutableData) (i : Nat)
    (n : Node W) :
    Returns (finalizeForkchoice E payload i) n none n ∨
      ∃ u n', Returns (finalizeForkchoice E payload i) n (some u) n' := by
  cases hans : E.forkchoiceUpdatedV3 i
      ⟨payload.blockHash, payload.blockHash, payload.blockHash⟩ none with
  | error err =>
      left
      rw [finalizeForkchoice]
      simp only [hans]
      exact returns_pure.mpr ⟨rfl, rfl⟩
  | ok fcr => exact .inr ⟨(), n, finalizeForkchoice_of_answer hE hans⟩

end

/-! ## Finalizing what was accepted -/

section

variable {A : Wiring W} {E : Engine} {ctx : Ctx} {msg : MsgExecutionPayload} {n : Node W}
  {payload : Eth.ExecutableData}

/-- A payload that passes the checks was checked against a head. -/
theorem head_of_parse {head : Option ExecutionHead}
    (h : parseAndVerifyProposedPayload A ctx head msg = .ok payload) : ∃ hd, head = some hd := by
  cases head with
  | some hd => exact ⟨hd, rfl⟩
  | none =>
      rw [parseAndVerifyProposedPayload] at h
      split at h
      · cases h
      · split at h <;> cases h

/-- The parse depends on the chain id, the height and the time of the context only. -/
theorem parse_congr {ctx' : Ctx} (hchain : ctx'.chainID = ctx.chainID)
    (hheight : ctx'.blockHeight = ctx.blockHeight) (htime : ctx'.blockTime = ctx.blockTime)
    (head : Option ExecutionHead) :
    parseAndVerifyProposedPayload A ctx' head msg
      = parseAndVerifyProposedPayload A ctx head msg := by
  cases ctx
  cases ctx'
  dsimp only at hchain hheight htime
  subst hchain hheight htime
  rfl

/-- **No dispatcher stops** on verified events. -/
theorem deliverEvents_returns {logs : List (Option EVMEvent)} (hv : Verified logs) (n : Node W) :
    ∃ n', Returns (deliverEvents A ctx logs) n () n' := by
  have hstaking := stakingEvents_isolated A.keepers A.stakingContract ctx
  have hupgrade := upgradeEvents_isolated A.keepers A.upgradeContract ctx
  have hubi := ubiEvents_isolated A.keepers A.ubiContract ctx
  have hzoom {τ : Type} {l : Lens (Node W) τ} {x : Prog τ Unit} (msg : String)
      (hx : ∀ s, ∃ t, Returns x s () t) (m : Node W) :
      ∃ m', Returns (wrapErr msg (zoom l x)) m () m' := by
    obtain ⟨t, ht⟩ := hx (l.view m)
    exact ⟨_, returns_wrapErr.mpr (returns_zoom.mpr ⟨t, ht, rfl⟩)⟩
  obtain ⟨n₁, h₁⟩ := hzoom _ (fun s => ⟨_, hstaking.returns_fold logs s hv⟩) n
  obtain ⟨n₂, h₂⟩ := hzoom _ (fun s => ⟨_, hupgrade.returns_fold logs s hv⟩) n₁
  obtain ⟨n₃, h₃⟩ := hzoom _ (fun s => ⟨_, hubi.returns_fold logs s hv⟩) n₂
  exact ⟨n₃, h₁.bind (h₂.bind h₃)⟩

/-- The calls behind the two loops return, when there is a head to update. -/
theorem applyPayload_tail (A : Wiring W) (ctx : Ctx) (payload : Eth.ExecutableData)
    {logs : List (Option EVMEvent)} {hd : ExecutionHead} (hv : Verified logs)
    (hhead : n.store.head = some hd) :
    ∃ n₁ n₂, Returns (deliverEvents A ctx logs) n () n₁ ∧
      Returns (wrapErr "update execution head"
        (zoom storeLens (updateExecutionHead ctx payload))) n₁ () n₂ := by
  obtain ⟨n₁, hev⟩ := deliverEvents_returns hv n
  have hn₁ : n₁.store.head = some hd := by
    rw [(deliverEvents_frame hev).2.1, hhead]
  have hupdate : Returns (updateExecutionHead ctx payload) n₁.store ()
      { n₁.store with head := some (headOf ctx payload) } := by
    refine (returns_get.mpr ⟨rfl, rfl⟩ : Returns get n₁.store n₁.store n₁.store).bind ?_
    simp only [hn₁]
    exact returns_modify.mpr rfl
  exact ⟨n₁, _, hev, returns_wrapErr.mpr (returns_zoom.mpr ⟨_, hupdate, rfl⟩)⟩

/-- Applying a payload whose events are verified stops for lack of fuel only. -/
theorem applyPayload_fails {logs : List (Option EVMEvent)} {hd : ExecutionHead}
    (hv : Verified logs) (hE : E.Accepts) (hhead : n.store.head = some hd) {fuel : Nat}
    {f : Fault} {n' : Node W} (h : Fails (applyPayload A E fuel ctx logs payload) n f n') :
    f = .retrying := by
  have hpush (i : Nat) (m : Node W) (f : Fault) (m' : Node W) :
      ¬ Fails (finalizePush E ctx payload i) m f m' := by
    rcases finalizePush_attempt hE ctx payload i m with h | ⟨u, k, h⟩ <;> exact h.not_fails
  have hfc (i : Nat) (m : Node W) (f : Fault) (m' : Node W) :
      ¬ Fails (finalizeForkchoice E payload i) m f m' := by
    rcases finalizeForkchoice_attempt hE payload i m with h | ⟨u, k, h⟩ <;> exact h.not_fails
  rcases fails_bind.mp h with h | ⟨_, n₁, h₁, htail⟩
  · exact retryForever_fails (hE.not_cancelled _) hpush h
  rcases fails_bind.mp htail with h | ⟨_, n₂, h₂, hend⟩
  · exact retryForever_fails (hE.not_cancelled _) hfc h
  obtain rfl := ReadOnly.returns _ _ _ h₂
  obtain ⟨n₃, n₄, hdeliver, hupdate⟩ := applyPayload_tail A ctx payload hv
    ((congrArg Store.head (pushLoop_store h₁)).trans hhead)
  exact absurd (hdeliver.fails_bind_iff.mp hend) hupdate.not_fails

/-- Applying a payload whose events are verified returns when the client answers. -/
theorem applyPayload_eventually {logs : List (Option EVMEvent)} {hd : ExecutionHead}
    (hv : Verified logs) (hE : E.Accepts) (hans : E.Answers)
    (happ : Eth.bytesToHash ctx.appHash ≠ emptyHash) (hhead : n.store.head = some hd) :
    ∃ fuel₀ n', ∀ fuel, fuel₀ ≤ fuel →
      Returns (applyPayload A E fuel ctx logs payload) n () n' := by
  obtain ⟨i, status, hstatus⟩ := hans.newPayload payload (Eth.bytesToHash ctx.appHash)
  obtain ⟨m, hm⟩ := finalizePush_of_answer (n := n) hE happ hstatus
  obtain ⟨fuel₁, _, n₁, hpush⟩ := retryForever_eventually (hE.not_cancelled .newPayload)
    (finalizePush_attempt hE ctx payload · n) ⟨i, (), m, hm⟩
  obtain ⟨j, fcr, hfcr⟩ := hans.forkchoice
    ⟨payload.blockHash, payload.blockHash, payload.blockHash⟩ none
  obtain ⟨fuel₂, _, n₂, hfc⟩ := retryForever_eventually (hE.not_cancelled .forkchoice)
    (finalizeForkchoice_attempt hE payload · n₁)
    ⟨j, (), n₁, finalizeForkchoice_of_answer hE hfcr⟩
  have hn₁ : n₁.store.head = some hd :=
    (congrArg Store.head (pushLoop_store (hpush fuel₁ le_rfl))).trans hhead
  obtain rfl := ReadOnly.returns _ _ _ (hfc fuel₂ le_rfl)
  obtain ⟨n₃, n₄, hdeliver, hupdate⟩ := applyPayload_tail A ctx payload hv hn₁
  refine ⟨max fuel₁ fuel₂, n₄, fun fuel hfuel => ?_⟩
  exact (hpush fuel (le_trans (le_max_left _ _) hfuel)).bind
    ((hfc fuel (le_trans (le_max_right _ _) hfuel)).bind (hdeliver.bind hupdate))

/-- **The finalized message on a payload the vote has checked**: it stops for lack of fuel
only, and when the client answers it returns. -/
theorem msgExecutionPayload_of_checked {d : Dequeued} {t : EvmStaking.Store W}
    (hmode : ctx.execMode = .finalize)
    (hparse : parseAndVerifyProposedPayload A ctx n.store.head msg = .ok payload)
    (hd : Returns (dequeueProposed A.keepers.codec (payload.withdrawals.getD []).length)
      n.store.evmstaking d t)
    (hv : Verified msg.prevPayloadEvents) (hE : E.Accepts) :
    (∀ fuel f n', Fails (msgExecutionPayload A E fuel ctx msg) n f n' → f = .retrying) ∧
      (E.Answers → Eth.bytesToHash ctx.appHash ≠ emptyHash →
        ∃ fuel₀ n', ∀ fuel, fuel₀ ≤ fuel →
          Returns (msgExecutionPayload A E fuel ctx msg) n d n') := by
  have hmode' : ¬ ctx.execMode ≠ .finalize := not_not.mpr hmode
  obtain ⟨head, hhead⟩ := head_of_parse hparse
  have hget : Returns (get : Prog (Node W) (Node W)) n n n := returns_get.mpr ⟨rfl, rfl⟩
  have hpay : Returns (ofExcept (parseAndVerifyProposedPayload A ctx n.store.head msg)) n payload
      n := returns_ofExcept.mpr ⟨hparse, rfl⟩
  have hdeq : Returns (zoom evmstakingLens
      (dequeueProposed A.keepers.codec (payload.withdrawals.getD []).length)) n d
      (evmstakingLens.put t n) := returns_zoom.mpr ⟨t, hd, rfl⟩
  have hhead' : (evmstakingLens.put t n).store.head = some head := hhead
  constructor
  · intro fuel f n' h
    rw [msgExecutionPayload, if_neg hmode', hget.fails_bind_iff, hpay.fails_bind_iff,
      hdeq.fails_bind_iff] at h
    rcases fails_bind.mp h with h | ⟨_, _, _, h⟩
    · exact applyPayload_fails hv hE hhead' h
    · exact absurd h fails_pure
  · intro hans happ
    obtain ⟨fuel₀, n', happly⟩ : ∃ fuel₀ n', ∀ fuel, fuel₀ ≤ fuel → Returns
        (applyPayload A E fuel ctx msg.prevPayloadEvents payload) (evmstakingLens.put t n) () n' :=
      applyPayload_eventually hv hE hans happ hhead'
    exact ⟨fuel₀, n', fun fuel hfuel => returns_msgExecutionPayload.mpr
      ⟨hmode, payload, t, hparse, hd, happly fuel hfuel⟩⟩

end

end Story.EvmEngine
