/-
# Story.App.Block -- whole blocks, and replicas that run them

A block goes through the pre-blocker, the begin blockers, its one transaction and the end
blockers. A transaction that fails leaves no trace in the stores, and the block goes on; an
error anywhere else stops the node, and nothing of the block is committed.

Around the blocks CometBFT calls the node for other things: to prepare a proposal, to vote
on one, to start a build for the next height. Every node sees calls of its own here, at times
of its own, answered by an execution client of its own, and it may be restarted at any time.
As long as no client calls a decided block INVALID, and no call of a block is cancelled, what a
replica commits is what the blocks make of its first state, and of nothing else.
-/
import Story.App.PreBlocker
import Story.App.ProcessProposal
import Story.App.Singularity
import Story.EvmEngine.Abci
import Story.EvmEngine.Determinism

namespace Story.App.Block

open Story.Effect Story.Errors Story.Sdk Story.Eth Story.EvmEngine
open Story.App.Singularity (nodeLens mintLens)

variable {W : Type}

/-! ## What is committed -/

/-- The stores of all modules. What the keeper has in memory is not among them. -/
structure Committed (W : Type) where
  store : EvmEngine.Store W
  mintParams : Option Mint.Params
  mintEvents : List Int

def committedLens : Lens (Singularity.Chain W) (Committed W) where
  view := fun c => ⟨c.node.store, c.mintParams, c.mintEvents⟩
  put := fun s c => ⟨{ c.node with store := s.store }, s.mintParams, s.mintEvents⟩
  view_put := fun _ _ => rfl
  put_view := fun _ => rfl
  put_put := fun _ _ _ => rfl

def committed (c : Singularity.Chain W) : Committed W := committedLens.view c

/-! ## A block -/

/-- The SDK modules around those of this repository, in the order of `app_config.go`, and the
mint module with its inflation function. -/
structure Modules (W : Type) where
  /-- `ModuleManager.PreBlock`: `x/upgrade`. -/
  preBlock : Ctx → SdkProg W Unit
  mint : Mint.Keeper W
  inflation : Mint.InflationCalculationFn (Mint.Store W)
  /-- The begin blockers behind the one of mint: distribution, slashing, evidence, staking. -/
  beginBlock : Ctx → SdkProg W Unit
  /-- The end blocker in front of the one of evmstaking: gov. -/
  endBlock : Ctx → SdkProg W Unit

/-- Stands for the recovery of `baseapp.runTx`, an SDK function: what becomes of the way a message
stops. A call that never ends is not recovered from. -/
def recoverTx : Fault → Option GoError
  | .err e => some e
  | .panic why => some (.new ("recovered: " ++ why))
  | .retrying => none

/-- Stands for `baseapp.runTx` on the transaction of a block, an SDK function: the message runs on a
branch of the stores. When it fails its writes are dropped, but the memory of the keeper keeps
what the message has put there. -/
def deliverTx (A : Wiring W) (E : Engine) (fuel : Nat) (ctx : Ctx) (msg : MsgExecutionPayload) :
    Prog (Singularity.Chain W) (Except GoError Dequeued) :=
  rollback committedLens recoverTx (zoom nodeLens (msgExecutionPayload A E fuel ctx msg))

/-- `FinalizeBlock` of the application, up to the hash of the stores. -/
def finalizeBlock (A : Wiring W) (N : Modules W) (E : Engine) (fuel : Nat) (ctx : Ctx)
    (msgs : List MsgExecutionPayload) :
    Prog (Singularity.Chain W) (List (Except GoError Dequeued)) := do
  zoom (nodeLens.comp upgradeLens) (preBlocker A.keepers N.preBlock ctx)
  zoom mintLens (N.mint.beginBlocker ctx N.inflation)
  zoom (nodeLens.comp sdkLens) (sdk (N.beginBlock ctx))
  let txResults ← msgs.mapM (deliverTx A E fuel ctx)
  zoom (nodeLens.comp sdkLens) (sdk (N.endBlock ctx))
  zoom (nodeLens.comp evmstakingLens) (EvmStaking.endBlock A.keepers ctx)
  pure txResults

/-! ## Two nodes run one block -/

/-- Two programs that cannot be told apart by what is committed. -/
abbrev SameCommits {α : Type} (x y : Prog (Singularity.Chain W) α) : Prop :=
  Agrees committedLens.view Retrying x y

/-- A program on a part of the node that is a part of its stores. -/
theorem sameCommits_zoom {τ α : Type} {l : Lens (Singularity.Chain W) τ} (view : Committed W → τ)
    (put : τ → Committed W → Committed W) (hview : ∀ c, l.view c = view (committed c))
    (hput : ∀ t c, committed (l.put t c) = put t (committed c)) (x : Prog τ α) :
    SameCommits (zoom l x) (zoom l x) := by
  refine Agrees.zoom x ?_ ?_
  · intro c₁ c₂ h
    rw [hview, hview]
    exact congrArg view h
  · intro c₁ c₂ t h
    show committed _ = committed _
    rw [hput, hput]
    exact congrArg (put t) h

/-- What two nodes with the same stores make of their stores, they make of what they commit. -/
theorem sameCommits_of_sameStores {α : Type} {x y : Prog (Node W) α} (h : SameStores x y) :
    SameCommits (zoom nodeLens x) (zoom nodeLens y) := by
  intro c₁ c₂ r₁ r₂ d₁ d₂ hc h₁ h₂ hr₁ hr₂
  obtain ⟨n₁, hn₁, rfl⟩ := ends_zoom.mp h₁
  obtain ⟨n₂, hn₂, rfl⟩ := ends_zoom.mp h₂
  obtain ⟨hr, hn⟩ := h (congrArg Committed.store hc) hn₁ hn₂ hr₁ hr₂
  refine ⟨hr, ?_⟩
  show (⟨n₁.store, c₁.mintParams, c₁.mintEvents⟩ : Committed W)
    = ⟨n₂.store, c₂.mintParams, c₂.mintEvents⟩
  have hparams : c₁.mintParams = c₂.mintParams := congrArg Committed.mintParams hc
  have hevents : c₁.mintEvents = c₂.mintEvents := congrArg Committed.mintEvents hc
  rw [hn, hparams, hevents]

section Block

variable {A : Wiring W} {N : Modules W} {E₁ E₂ : Engine} {fuel₁ fuel₂ : Nat} {ctx : Ctx}

theorem sameCommits_upgrade {α : Type} (x : Prog (UpgradeState W) α) :
    SameCommits (zoom (nodeLens.comp upgradeLens) x) (zoom (nodeLens.comp upgradeLens) x) :=
  sameCommits_zoom (fun s => ⟨s.store.pendingUpgrade, s.store.evmstaking.accounts.sdk⟩)
    (fun u s => { s with store :=
      { s.store with
        pendingUpgrade := u.pendingUpgrade
        evmstaking :=
          { s.store.evmstaking with
            accounts := { s.store.evmstaking.accounts with sdk := u.sdk } } } })
    (fun _ => rfl) (fun _ _ => rfl) x

theorem sameCommits_sdk {α : Type} (x : Prog W α) :
    SameCommits (zoom (nodeLens.comp sdkLens) x) (zoom (nodeLens.comp sdkLens) x) :=
  sameCommits_zoom (fun s => s.store.evmstaking.accounts.sdk)
    (fun w s => { s with store :=
      { s.store with
        evmstaking :=
          { s.store.evmstaking with
            accounts := { s.store.evmstaking.accounts with sdk := w } } } })
    (fun _ => rfl) (fun _ _ => rfl) x

theorem sameCommits_mint {α : Type} (x : Prog (Mint.Store W) α) :
    SameCommits (zoom mintLens x) (zoom mintLens x) :=
  sameCommits_zoom (fun s => ⟨s.mintParams, s.store.evmstaking.accounts.sdk, s.mintEvents⟩)
    (fun m s => ⟨{ s.store with
        evmstaking :=
          { s.store.evmstaking with
            accounts := { s.store.evmstaking.accounts with sdk := m.sdk } } },
      m.params, m.events⟩)
    (fun _ => rfl) (fun _ _ => rfl) x

theorem sameCommits_evmstaking {α : Type} (x : Prog (EvmStaking.Store W) α) :
    SameCommits (zoom (nodeLens.comp evmstakingLens) x) (zoom (nodeLens.comp evmstakingLens) x) :=
  sameCommits_zoom (fun s => s.store.evmstaking)
    (fun t s => { s with store := { s.store with evmstaking := t } })
    (fun _ => rfl) (fun _ _ => rfl) x

theorem deliverTx_sameCommits (hE₁ : E₁.Accepts) (hE₂ : E₂.Accepts) (msg : MsgExecutionPayload) :
    SameCommits (deliverTx A E₁ fuel₁ ctx msg) (deliverTx A E₂ fuel₂ ctx msg) := by
  refine Agrees.rollback ?_ (sameCommits_of_sameStores
    (msgExecutionPayload_sameStores hE₁ hE₂ msg))
  rintro _ rfl
  rfl

theorem sameCommits_mapM {α β : Type} {f g : α → Prog (Singularity.Chain W) β} (l : List α)
    (h : ∀ a, SameCommits (f a) (g a)) : SameCommits (l.mapM f) (l.mapM g) := by
  induction l with
  | nil =>
      rw [List.mapM_nil, List.mapM_nil]
      exact Agrees.pure _
  | cons a l ih =>
      rw [List.mapM_cons, List.mapM_cons]
      refine .bind (h a) fun b => ?_
      exact .bind ih fun bs => Agrees.pure _

/-- **One block.** Two nodes with the same stores make the same of a block if neither client calls
a payload of it INVALID and neither call is cancelled. -/
theorem finalizeBlock_sameCommits (hE₁ : E₁.Accepts) (hE₂ : E₂.Accepts)
    (msgs : List MsgExecutionPayload) :
    SameCommits (finalizeBlock A N E₁ fuel₁ ctx msgs) (finalizeBlock A N E₂ fuel₂ ctx msgs) := by
  refine .bind (sameCommits_upgrade _) fun _ => ?_
  refine .bind (sameCommits_mint _) fun _ => ?_
  refine .bind (sameCommits_sdk _) fun _ => ?_
  refine .bind (sameCommits_mapM msgs (deliverTx_sameCommits hE₁ hE₂)) fun txResults => ?_
  refine .bind (sameCommits_sdk _) fun _ => ?_
  exact .bind (sameCommits_evmstaking _) fun _ => Agrees.pure txResults

end Block

/-! ## Replicas -/

/-- The calls of a node. The label of a block carries what the block gave. -/
inductive Call
  | prepareProposal (P : Proposer) (E : Engine) (fuel : Nat) (ctx : Ctx) (req : PrepareRequest)
  | processProposal (E : Engine) (fuel : Nat) (txDecoder : Bytes → Except GoError Tx)
      (moduleAddress : Bytes) (ctx : Ctx) (req : RequestProcessProposal)
  | finalizeBlock (E : Engine) (fuel : Nat) (ctx : Ctx) (msgs : List MsgExecutionPayload)
      (result : Except Fault (List (Except GoError Dequeued)))
  | postFinalize (P : Proposer) (E : Engine) (isNext : Except SdkError Bool) (ctx : Ctx)
  | restart

/-- The fields of a keeper that has just been made. -/
def freshMemory (n : Node W) : Node W :=
  { n with isExecEngSyncing := false, mutablePayload := ⟨Vector.replicate 8 0, 0⟩ }

/-- A call on a branch of the stores that is dropped, however it ends. -/
def OnBranch {α : Type} (x : Prog (Node W) α) (c c' : Singularity.Chain W) : Prop :=
  ∃ r n', Ends x c.node r n' ∧ c' = { c with node := { n' with store := c.node.store } }

/-- What a call does to a replica whose disk answers `dump`. The client may answer anything to a
block that has been decided, short of INVALID. A block that fails is not committed. -/
def Call.Runs (A : Wiring W) (N : Modules W) (dump : Int → Plan → Except SdkError Unit) :
    Call → Singularity.Chain W → Singularity.Chain W → Prop
  | .prepareProposal P E fuel ctx req, c, c' =>
      OnBranch (EvmEngine.prepareProposal (A.withDump dump) P E fuel ctx req) c c'
  | .processProposal E fuel txDecoder moduleAddress ctx req, c, c' =>
      OnBranch (makeProcessProposalHandler
        (makeProcessProposalRouter (A.withDump dump) E fuel) txDecoder moduleAddress ctx req) c c'
  | .finalizeBlock E fuel ctx msgs result, c, c' =>
      E.Accepts ∧ result ≠ .error .retrying ∧
        ∃ d, Ends (Block.finalizeBlock (A.withDump dump) N E fuel ctx msgs) c result d ∧
          c' = (match result with
            | .ok _ => d
            | .error _ => committedLens.put (committed c) d)
  | .postFinalize P E isNext ctx, c, c' =>
      OnBranch (EvmEngine.postFinalize (A.withDump dump) P E isNext ctx) c c'
  | .restart, c, c' => c' = { c with node := freshMemory c.node }

/-- What consensus decides: the header of a block and its messages. -/
structure Decided where
  ctx : Ctx
  msgs : List MsgExecutionPayload

/-- A block that was run, with what it gave. -/
structure Outcome where
  block : Decided
  result : Except Fault (List (Except GoError Dequeued))

/-- The blocks among the calls. -/
def Call.outcomes : Call → List Outcome
  | .finalizeBlock _ _ ctx msgs result => [⟨⟨ctx, msgs⟩, result⟩]
  | _ => []

/-- The blocks a run has finalized, in their order. -/
def decided (run : List Call) : List Decided :=
  (run.flatMap Call.outcomes).map Outcome.block

/-- What a block does to what is committed, on some replica. -/
def Outcome.Runs (A : Wiring W) (N : Modules W) (o : Outcome) (s s' : Committed W) : Prop :=
  ∃ E fuel dump c c', committed c = s ∧ committed c' = s' ∧
    Call.Runs A N dump (.finalizeBlock E fuel o.block.ctx o.block.msgs o.result) c c'

section Replicas

variable {A : Wiring W} {N : Modules W}

theorem OnBranch.committed_eq {α : Type} {x : Prog (Node W) α} {c c' : Singularity.Chain W}
    (h : OnBranch x c c') : committed c' = committed c := by
  obtain ⟨r, n', _, rfl⟩ := h
  rfl

/-- Only blocks change what is committed. -/
theorem Call.Runs.refines {dump : Int → Plan → Except SdkError Unit} {call : Call}
    {c c' : Singularity.Chain W} (h : call.Runs A N dump c c') :
    Trace (Outcome.Runs A N) (committed c) call.outcomes (committed c') := by
  cases call with
  | prepareProposal P E fuel ctx req =>
      rw [OnBranch.committed_eq h]
      exact .nil
  | processProposal E fuel txDecoder moduleAddress ctx req =>
      rw [OnBranch.committed_eq h]
      exact .nil
  | finalizeBlock E fuel ctx msgs result =>
      exact Trace.nil.snoc (a := Outcome.mk ⟨ctx, msgs⟩ result)
        ⟨E, fuel, dump, c, c', rfl, rfl, h⟩
  | postFinalize P E isNext ctx =>
      rw [OnBranch.committed_eq h]
      exact .nil
  | restart =>
      subst h
      exact .nil

section Dump

variable (dump : Int → Plan → Except SdkError Unit) (ctx : Ctx)

theorem sweepLoop_withDump (validatorSet : List Validator) (sweepBound : UInt32)
    (minAmount : UInt64) (rounds : Nat) (st : EvmStaking.Sweep) :
    EvmStaking.sweepLoop (A.withDump dump).keepers ctx validatorSet sweepBound minAmount rounds st
      = EvmStaking.sweepLoop A.keepers ctx validatorSet sweepBound minAmount rounds st := by
  induction rounds generalizing st with
  | zero => rfl
  | succ rounds ih =>
      simp only [EvmStaking.sweepLoop, ih]
      rfl

theorem endBlock_withDump :
    EvmStaking.endBlock (A.withDump dump).keepers ctx = EvmStaking.endBlock A.keepers ctx := by
  unfold EvmStaking.endBlock EvmStaking.endBlockWithdrawals EvmStaking.processRewardWithdrawals
  simp only [sweepLoop_withDump]
  rfl

/-- The disk is not asked during a block. -/
theorem finalizeBlock_withDump (E : Engine) (fuel : Nat) (msgs : List MsgExecutionPayload) :
    finalizeBlock (A.withDump dump) N E fuel ctx msgs = finalizeBlock A N E fuel ctx msgs := by
  unfold finalizeBlock deliverTx
  simp only [msgExecutionPayload_withDump, endBlock_withDump]
  rfl

end Dump

/-- **A block is a function of what is committed.** -/
theorem Outcome.Runs.functional {o₁ o₂ : Outcome} {s t₁ t₂ : Committed W}
    (hblock : o₁.block = o₂.block) (h₁ : o₁.Runs A N s t₁) (h₂ : o₂.Runs A N s t₂) :
    o₁ = o₂ ∧ t₁ = t₂ := by
  obtain ⟨block, r₁⟩ := o₁
  obtain ⟨_, r₂⟩ := o₂
  obtain rfl : block = _ := hblock
  obtain ⟨E₁, fuel₁, dump₁, c₁, _, hc₁, rfl, hE₁, hr₁, d₁, hd₁, rfl⟩ := h₁
  obtain ⟨E₂, fuel₂, dump₂, c₂, _, hc₂, rfl, hE₂, hr₂, d₂, hd₂, rfl⟩ := h₂
  rw [finalizeBlock_withDump] at hd₁ hd₂
  have hstart : committed c₁ = committed c₂ := hc₁.trans hc₂.symm
  obtain ⟨hr, hd⟩ : r₁ = r₂ ∧ committed d₁ = committed d₂ := by
    refine finalizeBlock_sameCommits hE₁ hE₂ block.msgs hstart hd₁ hd₂ ?_ ?_
    · rintro _ rfl rfl
      exact hr₁ rfl
    · rintro _ rfl rfl
      exact hr₂ rfl
  subst hr
  refine ⟨rfl, ?_⟩
  -- a block that failed leaves what was committed before it
  cases r₁ with
  | ok results => exact hd
  | error f => exact hstart

/-- **Replicas agree.** Two replicas start with the same stores and run the same blocks, which end,
with clients that never answer INVALID to a decided block and calls that are not cancelled
(`Engine.Accepts`, in `Call.Runs`). Whatever other calls they get in between, whatever else their
clients answer, whatever their disks do, and however often they are restarted: the blocks give
the same results on both, and leave the same stores. -/
theorem replicas_agree {dump₁ dump₂ : Int → Plan → Except SdkError Unit}
    {c₁ c₂ d₁ d₂ : Singularity.Chain W}
    {run₁ run₂ : List Call} (hstart : committed c₁ = committed c₂)
    (h₁ : Trace (Call.Runs A N dump₁) c₁ run₁ d₁) (h₂ : Trace (Call.Runs A N dump₂) c₂ run₂ d₂)
    (hblocks : decided run₁ = decided run₂) :
    run₁.flatMap Call.outcomes = run₂.flatMap Call.outcomes ∧ committed d₁ = committed d₂ := by
  have hr₁ := h₁.refine committed fun _ _ _ h => h.refines
  have hr₂ := h₂.refine committed fun _ _ _ h => h.refines
  rw [← hstart] at hr₂
  have hstep : ∀ o₁ o₂ s t u, Outcome.block o₁ = Outcome.block o₂ → Outcome.Runs A N o₁ s t →
      Outcome.Runs A N o₂ s u → o₁ = o₂ ∧ t = u :=
    fun _ _ _ _ _ hblock h₁ h₂ => h₁.functional hblock h₂
  exact hr₁.functional hstep hr₂ hblocks

end Replicas

/-- The modules around the ledger: nothing happens in them. -/
def stillModules : Modules Ledger where
  preBlock := fun _ => pure ()
  mint := Singularity.frozenMint
  inflation := Mint.defaultInflationCalculationFn Mint.exactQuo
  beginBlock := fun _ => pure ()
  endBlock := fun _ => pure ()

/-- The messages of the block in which account 1 stakes. -/
def stakingBlock : List MsgExecutionPayload :=
  [{ nextMsg Singularity.frozenWiring firstHeads.1 [] with
      prevPayloadEvents := [eventOf 7, eventOf 9] }]

/-- One replica runs the block at once. The other one is restarted, has a client that is behind
and a disk that is full; both have the stake in their stores afterwards. -/
theorem restarted_replica_keeps_up : ∃ d₁ d₂ results₁ results₂,
    Trace (Call.Runs Singularity.frozenWiring stillModules fun _ _ => .ok ())
      Singularity.frozenChain
      [.finalizeBlock obligingEngine 1 (localnetCtx .finalize) stakingBlock (.ok results₁)] d₁ ∧
    Trace (Call.Runs Singularity.frozenWiring stillModules fun _ _ => .error ⟨"no space left", []⟩)
      Singularity.frozenChain
      [.restart,
        .finalizeBlock slowEngine 2 (localnetCtx .finalize) stakingBlock (.ok results₂)] d₂ ∧
    committed d₁ = committed d₂ ∧ (Singularity.sdkOf d₂.node).supply = 5 := by
  have hsupply : (outcome (finalizeBlock (Singularity.frozenWiring.withDump fun _ _ => .ok ())
      stillModules obligingEngine 1 (localnetCtx .finalize) stakingBlock)
      Singularity.frozenChain).map (fun r => (Singularity.sdkOf r.2.node).supply) = some 5 := by
    decide +kernel
  have hslow : (outcome (finalizeBlock
      (Singularity.frozenWiring.withDump fun _ _ => .error ⟨"no space left", []⟩)
      stillModules slowEngine 2 (localnetCtx .finalize) stakingBlock)
      { Singularity.frozenChain with node := freshMemory Singularity.frozenChain.node }).map
        (fun _ => ()) = some () := by
    decide +kernel
  obtain ⟨results₁, d₁, h₁, h5⟩ := returns_of_outcome hsupply
  obtain ⟨results₂, d₂, h₂, _⟩ := returns_of_outcome hslow
  have hrun₁ : Trace (Call.Runs Singularity.frozenWiring stillModules fun _ _ => .ok ())
      Singularity.frozenChain
      [.finalizeBlock obligingEngine 1 (localnetCtx .finalize) stakingBlock (.ok results₁)] d₁ :=
    Trace.nil.snoc (a := Call.finalizeBlock _ _ _ _ _)
      ⟨obligingEngine_accepts, by simp, d₁, h₁, rfl⟩
  have hrun₂ : Trace (Call.Runs Singularity.frozenWiring stillModules
      fun _ _ => .error ⟨"no space left", []⟩) Singularity.frozenChain
      [.restart,
        .finalizeBlock slowEngine 2 (localnetCtx .finalize) stakingBlock (.ok results₂)] d₂ :=
    (Trace.nil.snoc (a := Call.restart) rfl).snoc (a := Call.finalizeBlock _ _ _ _ _)
      ⟨slowEngine_accepts, by simp, d₂, h₂, rfl⟩
  obtain ⟨_, hd⟩ := replicas_agree rfl hrun₁ hrun₂ rfl
  refine ⟨d₁, d₂, results₁, results₂, hrun₁, hrun₂, hd, ?_⟩
  have hsdk := congrArg (fun s => s.store.evmstaking.accounts.sdk.supply) hd
  exact hsdk.symm.trans h5

end Story.App.Block
