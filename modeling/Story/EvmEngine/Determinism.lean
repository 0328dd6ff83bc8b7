/-
# Story.EvmEngine.Determinism -- finalizing does not depend on the local client

Nodes finalize the same message against execution clients of their own: one may answer
at once and another after many errors, one may be in sync and another not. What a node
keeps in memory and the file it writes for an upgrade are its own too. None of it shows
in the stores: two calls of `msgServer.ExecutionPayload` agree on them, by the rules for
two runs. The address of the validator is not even an input of the call.
-/
import Story.Effect.Agree
import Story.EvmEngine.HeadChain

namespace Story.EvmEngine

open Story.Effect Story.Errors Story.Sdk Story.Eth Story.Netconf

variable {W : Type}

/-! ## Keepers of two nodes -/

/-- The same keepers on a node whose disk behaves in another way. -/
def Wiring.withDump (A : Wiring W) (dump : Int → Plan → Except SdkError Unit) : Wiring W :=
  { A with keepers :=
      { A.keepers with upgrade := { A.keepers.upgrade with dumpUpgradeInfoToDisk := dump } } }

section Dump

variable (A : Wiring W) (dump : Int → Plan → Except SdkError Unit) (ctx : Ctx)

theorem handle_withDump :
    EvmStaking.handle (A.withDump dump).keepers ctx = EvmStaking.handle A.keepers ctx := by
  funext ev
  cases ev <;> rfl

theorem handleUpgrade_withDump :
    handleUpgrade (A.withDump dump).keepers ctx = handleUpgrade A.keepers ctx := by
  funext ev
  cases ev with
  | softwareUpgrade ev =>
      simp only [handleUpgrade, processSoftwareUpgrade, dumpUpgradeInfo_eq]
      rfl
  | cancelUpgrade => rfl

/-- **The disk is never asked about**: the events do the same on both nodes. -/
theorem deliverEvents_withDump (logs : List (Option EVMEvent)) :
    deliverEvents (A.withDump dump) ctx logs = deliverEvents A ctx logs := by
  unfold deliverEvents EvmStaking.processStakingEvents processUpgradeEvents
  rw [handle_withDump, handleUpgrade_withDump]
  rfl

end Dump

/-! ## Two runs -/

/-- A call that is still going round one of its loops has not returned. -/
def Retrying (f : Fault) : Prop := f = .retrying

/-- Two programs of nodes that cannot be told apart by the stores. -/
abbrev SameStores {α : Type} (x y : Prog (Node W) α) : Prop := Agrees Node.store Retrying x y

namespace SameStores

variable {α : Type}

theorem wrapErr {x y : Prog (Node W) α} (msg : String) (h : SameStores x y) :
    SameStores (wrapErr msg x) (wrapErr msg y) := by
  refine Agrees.mapError ?_ h
  rintro _ rfl
  rfl

theorem ofExcept (r : Except GoError α) :
    SameStores (ofExcept r : Prog (Node W) α) (ofExcept r) := by
  cases r with
  | ok a => exact Agrees.pure a
  | error e => exact Agrees.throw _

/-- A program on a part of the node that is a part of its stores. -/
theorem zoom {τ : Type} {l : Lens (Node W) τ} (view : Store W → τ) (put : τ → Store W → Store W)
    (hview : ∀ n, l.view n = view n.store) (hput : ∀ t n, (l.put t n).store = put t n.store)
    (x : Prog τ α) : SameStores (zoom l x) (zoom l x) := by
  refine Agrees.zoom x ?_ ?_
  · intro n₁ n₂ h
    rw [hview, hview, h]
  · intro n₁ n₂ t h
    rw [hput, hput, h]

end SameStores

theorem deliverEvents_sameStores (A : Wiring W) (ctx : Ctx) (logs : List (Option EVMEvent)) :
    SameStores (deliverEvents A ctx logs) (deliverEvents A ctx logs) := by
  refine Agrees.bind (SameStores.wrapErr _ (SameStores.zoom (fun s => s.evmstaking.accounts)
    (fun a s => { s with evmstaking := { s.evmstaking with accounts := a } })
    (fun _ => rfl) (fun _ _ => rfl) _)) fun _ => ?_
  refine Agrees.bind (SameStores.wrapErr _ (SameStores.zoom
    (fun s => ⟨s.pendingUpgrade, s.evmstaking.accounts.sdk⟩)
    (fun u s =>
      { s with
        pendingUpgrade := u.pendingUpgrade
        evmstaking :=
          { s.evmstaking with
            accounts := { s.evmstaking.accounts with sdk := u.sdk } } })
    (fun _ => rfl) (fun _ _ => rfl) _)) fun _ => ?_
  exact SameStores.wrapErr _ (SameStores.zoom (fun s => s.evmstaking.accounts.sdk)
    (fun w s =>
      { s with
        evmstaking :=
          { s.evmstaking with
            accounts := { s.evmstaking.accounts with sdk := w } } })
    (fun _ => rfl) (fun _ _ => rfl) _)

/-! ## The loops -/

section Loops

variable {E : Engine} (hE : E.Accepts) (ctx : Ctx) (payload : ExecutableData) (fuel : Nat)
include hE

/-- Whatever a client answers, short of INVALID, the loop that pushes the payload comes back
in the end with the stores as they were. -/
theorem pushLoop_ends {n n' : Node W} {r : Except Fault Unit}
    (h : Ends (retryForever (E.cancelled .newPayload) (finalizePush E ctx payload) fuel 0) n r n')
    (hr : Finished Retrying r) : r = .ok () ∧ n'.store = n.store := by
  cases r with
  | ok u => exact ⟨rfl, pushLoop_store h⟩
  | error f =>
      refine absurd (retryForever_fails (hE.not_cancelled _) ?_ h) (hr f rfl)
      intro i m f m'
      rcases finalizePush_attempt hE ctx payload i m with h | ⟨u, k, h⟩ <;> exact h.not_fails

/-- So does the loop that moves the fork choice. -/
theorem forkchoiceLoop_ends {n n' : Node W} {r : Except Fault Unit}
    (h : Ends (retryForever (E.cancelled .forkchoice) (finalizeForkchoice E payload) fuel 0) n r n')
    (hr : Finished Retrying r) : r = .ok () ∧ n'.store = n.store := by
  cases r with
  | ok u => exact ⟨rfl, congrArg Node.store (ReadOnly.returns _ _ _ h)⟩
  | error f =>
      refine absurd (retryForever_fails (hE.not_cancelled _) ?_ h) (hr f rfl)
      intro i m f m'
      rcases finalizeForkchoice_attempt hE payload i m with h | ⟨u, k, h⟩ <;> exact h.not_fails

end Loops

/-! ## The whole message -/

section

variable {A : Wiring W} {E₁ E₂ : Engine} {fuel₁ fuel₂ : Nat} {ctx : Ctx}

theorem applyPayload_sameStores (hE₁ : E₁.Accepts) (hE₂ : E₂.Accepts)
    (logs : List (Option EVMEvent)) (payload : ExecutableData) :
    SameStores (applyPayload A E₁ fuel₁ ctx logs payload)
      (applyPayload A E₂ fuel₂ ctx logs payload) := by
  refine .bind (agrees_of_idle (fun _ _ _ => pushLoop_ends hE₁ ctx payload fuel₁)
    fun _ _ _ => pushLoop_ends hE₂ ctx payload fuel₂) fun _ => ?_
  refine .bind (agrees_of_idle (fun _ _ _ => forkchoiceLoop_ends hE₁ payload fuel₁)
    fun _ _ _ => forkchoiceLoop_ends hE₂ payload fuel₂) fun _ => ?_
  refine .bind (deliverEvents_sameStores A ctx logs) fun _ => ?_
  exact SameStores.wrapErr _ (SameStores.zoom id (fun s _ => s) (fun _ => rfl) (fun _ _ => rfl) _)

theorem msgExecutionPayload_sameStores (hE₁ : E₁.Accepts) (hE₂ : E₂.Accepts)
    (msg : MsgExecutionPayload) :
    SameStores (msgExecutionPayload A E₁ fuel₁ ctx msg)
      (msgExecutionPayload A E₂ fuel₂ ctx msg) := by
  unfold msgExecutionPayload
  split
  · exact Agrees.throw _
  refine Agrees.get_bind fun n₁ n₂ hstore => ?_
  rw [hstore]
  refine .bind (SameStores.ofExcept _) fun payload => ?_
  refine .bind (SameStores.zoom Store.evmstaking (fun t s => { s with evmstaking := t })
    (fun _ => rfl) (fun _ _ => rfl) _) fun d => ?_
  exact .bind (applyPayload_sameStores hE₁ hE₂ _ payload) fun _ => Agrees.pure d

theorem msgExecutionPayload_withDump (A : Wiring W) (dump : Int → Plan → Except SdkError Unit)
    (E : Engine) (fuel : Nat) (ctx : Ctx) (msg : MsgExecutionPayload) :
    msgExecutionPayload (A.withDump dump) E fuel ctx msg =
      msgExecutionPayload A E fuel ctx msg := by
  unfold msgExecutionPayload applyPayload
  simp only [deliverEvents_withDump]
  rfl

end

/-- **Finalization does not depend on the local client.** Two nodes with the same stores
finalize the same message. Whatever their clients answer, short of INVALID, after however
many errors, whatever they keep in memory and however their disks behave: when both calls
return they return the same, and leave the same stores. -/
theorem finalization_independent_of_client {A : Wiring W}
    {dump₁ dump₂ : Int → Plan → Except SdkError Unit} {E₁ E₂ : Engine} {fuel₁ fuel₂ : Nat}
    {ctx : Ctx} {msg : MsgExecutionPayload} {n₁ n₂ m₁ m₂ : Node W} {r₁ r₂ : Except Fault Dequeued}
    (hstore : n₁.store = n₂.store) (hE₁ : E₁.Accepts) (hE₂ : E₂.Accepts)
    (h₁ : Ends (msgExecutionPayload (A.withDump dump₁) E₁ fuel₁ ctx msg) n₁ r₁ m₁)
    (h₂ : Ends (msgExecutionPayload (A.withDump dump₂) E₂ fuel₂ ctx msg) n₂ r₂ m₂)
    (hret₁ : r₁ ≠ .error .retrying) (hret₂ : r₂ ≠ .error .retrying) :
    r₁ = r₂ ∧ m₁.store = m₂.store := by
  rw [msgExecutionPayload_withDump] at h₁ h₂
  refine msgExecutionPayload_sameStores hE₁ hE₂ msg hstore h₁ h₂ ?_ ?_
  · rintro _ rfl rfl
    exact hret₁ rfl
  · rintro _ rfl rfl
    exact hret₂ rfl

/-- A client that cannot be reached at first, and then has to catch up. -/
def slowEngine : Engine where
  newPayloadV3 := fun i _ _ =>
    if i = 0 then .error ⟨"connection refused", []⟩ else .ok ⟨.syncing, none, none⟩
  forkchoiceUpdatedV3 := fun i _ _ =>
    if i = 0 then .error ⟨"connection refused", []⟩ else .ok ⟨⟨.accepted, none, none⟩, none⟩
  getPayloadV3 := fun _ _ => .ok none
  filterLogs := fun _ _ => .ok []
  cancelled := fun _ _ => false

theorem slowEngine_accepts : slowEngine.Accepts where
  not_cancelled := fun _ _ => rfl
  newPayload := by
    intro i payload root status h
    simp only [slowEngine] at h
    split at h <;> cases h
    decide
  forkchoice := by
    intro i fcs attrs fcr h
    simp only [slowEngine] at h
    split at h <;> cases h
    decide

/-- A node in sync and one that is behind, whose disk is full, finalize the first payload of
the ledger. -/
theorem slow_node_keeps_up : ∃ (n₁ n₂ m₁ m₂ : Node Ledger) (d : Dequeued),
    n₁.isExecEngSyncing = false ∧ n₂.isExecEngSyncing = true ∧
    Returns (msgExecutionPayload ((plainWiring Ledger.keepers).withDump fun _ _ => .ok ())
      obligingEngine 1 (localnetCtx .finalize)
      (nextMsg (plainWiring Ledger.keepers) firstHeads.1 [])) n₁ d m₁ ∧
    Returns (msgExecutionPayload
      ((plainWiring Ledger.keepers).withDump fun _ _ => .error ⟨"no space left", []⟩)
      slowEngine 2 (localnetCtx .finalize)
      (nextMsg (plainWiring Ledger.keepers) firstHeads.1 [])) n₂ d m₂ ∧
    m₁.store = m₂.store := by
  let n₁ := effect (zoom storeLens (insertGenesisHead [])) bareNode
  let n₂ : Node Ledger :=
    { n₁ with isExecEngSyncing := true, mutablePayload := ⟨Vector.replicate 8 1, 7⟩ }
  obtain ⟨d₁, h₁, _⟩ := returns_map.mp (returns_of_completes (show completes ((fun _ => ()) <$>
    msgExecutionPayload ((plainWiring Ledger.keepers).withDump fun _ _ => .ok ())
      obligingEngine 1 (localnetCtx .finalize)
      (nextMsg (plainWiring Ledger.keepers) firstHeads.1 [])) n₁ = true by decide +kernel))
  obtain ⟨d₂, h₂, _⟩ := returns_map.mp (returns_of_completes (show completes ((fun _ => ()) <$>
    msgExecutionPayload
      ((plainWiring Ledger.keepers).withDump fun _ _ => .error ⟨"no space left", []⟩)
      slowEngine 2 (localnetCtx .finalize)
      (nextMsg (plainWiring Ledger.keepers) firstHeads.1 [])) n₂ = true by decide +kernel))
  obtain ⟨hd, hstore⟩ := finalization_independent_of_client
    (show n₁.store = n₂.store from rfl) obligingEngine_accepts slowEngine_accepts
    (show Ends _ n₁ (.ok d₁) _ from h₁) (show Ends _ n₂ (.ok d₂) _ from h₂) (by simp) (by simp)
  obtain rfl := Except.ok.inj hd
  exact ⟨n₁, n₂, _, _, d₁, rfl, rfl, h₁, h₂, hstore⟩

end Story.EvmEngine
