/-
# Story.EvmEngine.EventDelivery -- every log of the execution layer is handled once

The consensus layer learns of the execution layer by its logs alone. A payload carries the
logs of the block before it: the proposer reads them off its client, the voters compare them
with their own, and the finalized message hands them to the dispatchers without looking at a
client again. So the logs of a block are handled one block late.

Between the client and the dispatchers a log is an event of the message, whose byte fields
may be absent. The comparison does not tell an absent field from an empty one, and still the
dispatchers are given the log that the client gave, and run their handlers on it.
-/
import Story.EvmEngine.HeadChain
import Story.EvmEngine.OnePass

namespace Story.EvmEngine

open Story.Effect Story.Errors Story.Sdk Story.Eth
open Story.EvmStaking (StakingContract StakingEvent)

variable {W : Type}

/-! ## There and back -/

/-- A log that is made an event and back is the same log. -/
theorem toEthLog_eventOfLog {l : Eth.Log} (h : l.topics ≠ []) :
    EVMEvent.toEthLog (some (eventOfLog l)) = .ok l := by
  have htopics : (l.topics.map bytesOf).map bytesToHash = l.topics := by
    simp [Function.comp_def, bytesToHash]
  simp [EVMEvent.toEthLog, eventOfLog, h, ethAddress, htopics, bytesToHash, bytesToAddress,
    Bind.bind, Except.bind, Pure.pure, Except.pure]

/-- Events that compare as equal are the same log to a dispatcher. -/
theorem toEthLog_of_protoEqual {a b : Option EVMEvent} (h : protoEqual a b = true) :
    EVMEvent.toEthLog a = EVMEvent.toEthLog b := by
  cases a with
  | none =>
      cases b with
      | none => rfl
      | some b => cases h
  | some a =>
      cases b with
      | none => cases h
      | some b =>
          simp only [protoEqual, Bool.and_eq_true, decide_eq_true_eq] at h
          obtain ⟨⟨⟨haddr, htopics⟩, hdata⟩, hhash⟩ := h
          simp only [EVMEvent.toEthLog, haddr, htopics, hdata, hhash]

theorem map_toEthLog_of_evmEventsEqual {a b : List (Option EVMEvent)}
    (h : evmEventsEqual a b = .ok ()) : a.map EVMEvent.toEthLog = b.map EVMEvent.toEthLog := by
  rw [evmEventsEqual] at h
  split at h
  · cases h
  next hlen =>
    split at h
    · rename_i hall
      refine List.ext_getElem (by simpa using hlen) fun i hi hi' => ?_
      simp only [List.length_map] at hi hi'
      have hz : i < (List.zipWith protoEqual a b).length := by simp [hi, hi']
      have heq := List.all_eq_true.mp hall _ (List.getElem_mem hz)
      simpa using toEthLog_of_protoEqual (by simpa using heq)
    · cases h

/-! ## Clients that know the chain -/

/-- The client reads the logs of a block as they are, whenever it answers. -/
def Engine.ReadsLogs (E : Engine) (logs : Hash → List Eth.Log) : Prop :=
  ∀ i hash ls, E.filterLogs i hash = .ok ls → ls = logs hash

/-- `evmEvents` is the logs of the block, each of them with a topic. -/
theorem map_toEthLog_evmEvents {σ : Type} {E : Engine} {logs : Hash → List Eth.Log}
    (hE : E.ReadsLogs logs) {fuel : Nat} {hash : Hash} {s t : σ} {events : List (Option EVMEvent)}
    (h : Returns (evmEvents E fuel hash) s events t) :
    events.map EVMEvent.toEthLog = (logs hash).map .ok := by
  simp only [evmEvents, returns_bind, returns_wrapErr, returns_pure] at h
  obtain ⟨ls, s₁, hfilter, _, s₂, hverify, rfl, rfl⟩ := h
  obtain ⟨i, s₃, _, hi⟩ := retryForever_returns (I := fun _ => True) (fun _ _ _ _ _ => trivial)
    trivial hfilter
  obtain rfl : ls = logs hash := by
    split at hi
    · cases (returns_pure.mp hi).1
    next ls' hls =>
      obtain rfl := Option.some.inj (returns_pure.mp hi).1
      exact hE i hash _ hls
  have hv := verified_of_verifyEvents hverify
  rw [List.map_map]
  refine List.map_congr_left fun l hl => ?_
  obtain ⟨_, _, _, hl', _, _, hne, _⟩ :=
    EVMEvent.verify_eq_ok (hv (some (eventOfLog l)) (List.mem_map_of_mem hl))
  obtain rfl := Option.some.inj hl'
  exact toEthLog_eventOfLog (by simpa [eventOfLog] using hne)

/-- **A vote** establishes that the events of the message are the logs of the head. -/
theorem logs_of_vote {A : Wiring W} {E : Engine} {logs : Hash → List Eth.Log}
    (hE : E.ReadsLogs logs) {fuel : Nat} {ctx : Ctx} {msg : MsgExecutionPayload} {n n' : Node W}
    {u : Unit} (h : Returns (proposalExecutionPayload A E fuel ctx msg) n u n') :
    ∃ head, n.store.head = some head ∧
      msg.prevPayloadEvents.map EVMEvent.toEthLog = (logs head.hash).map .ok := by
  obtain ⟨node, _, hget, h⟩ := returns_bind.mp h
  obtain ⟨rfl, rfl⟩ := returns_get.mp hget
  split at h
  · exact absurd h returns_fail
  simp only [returns_bind, returns_wrapErr, returns_ofExcept, returns_zoom] at h
  obtain ⟨payload, _, ⟨hparse, rfl⟩, _, _, _, _, n₁, _, events, n₂, hevents, heq, _⟩ := h
  obtain ⟨head, hhead, hfits⟩ := fits_of_parse hparse
  refine ⟨head, hhead, ?_⟩
  rw [← map_toEthLog_of_evmEventsEqual heq, map_toEthLog_evmEvents hE hevents, hfits.parentHash]

/-! ## What the dispatchers run -/

section Dispatch

variable {σ ε : Type} {parse : Hash → Eth.Log → Option (Except GoError ε)}
  {handler : ε → Prog σ Unit}

/-- What a dispatcher is given for an event. -/
def logOf (ev : Option EVMEvent) : Option Eth.Log := (EVMEvent.toEthLog ev).toOption

/-- The events of a contract in the logs of the execution layer. -/
def eventsIn (parse : Hash → Eth.Log → Option (Except GoError ε)) (ls : List Eth.Log) : List ε :=
  ls.filterMap fun l =>
    match l.topics with
    | [] => none
    | topic :: _ => (parse topic l).bind Except.toOption

theorem eventsIn_append (ls ls' : List Eth.Log) :
    eventsIn parse (ls ++ ls') = eventsIn parse ls ++ eventsIn parse ls' :=
  List.filterMap_append

/-- The events of a list of logs, given as events of a message. -/
theorem eventsIn_logOf (parse : Hash → Eth.Log → Option (Except GoError ε))
    (events : List (Option EVMEvent)) : eventsIn parse (events.filterMap logOf) =
      events.filterMap fun ev => (parseEvent parse ev).bind Except.toOption := by
  rw [eventsIn, List.filterMap_filterMap]
  refine List.filterMap_congr fun ev _ => ?_
  rw [parseEvent, logOf]
  cases EVMEvent.toEthLog ev with
  | error e => rfl
  | ok l =>
      simp only [Except.toOption, Option.bind_some]
      cases l.topics <;> rfl

/-- The handler on one event after the other; one that fails leaves no trace. -/
def runAll (handler : ε → Prog σ Unit) (evs : List ε) (s : σ) : σ :=
  evs.foldl (fun s e => effect (handler e) s) s

/-- A dispatcher runs its handler on its events, in their order, each of them once. -/
theorem foldl_applyEvent (events : List (Option EVMEvent)) (s : σ) :
    events.foldl (applyEvent parse handler) s =
      runAll handler (eventsIn parse (events.filterMap logOf)) s := by
  rw [eventsIn_logOf, runAll]
  induction events generalizing s with
  | nil => rfl
  | cons ev events ih =>
      rw [List.foldl_cons, ih, applyEvent, List.filterMap_cons]
      rcases parseEvent parse ev with _ | _ | e <;> rfl

/-- A dispatcher that returns has checked every event. -/
theorem verified_of_dispatched {act : Hash → Eth.Log → Prog σ Unit}
    {events : List (Option EVMEvent)} {s t : σ} {u : Unit}
    (h : Returns (events.forM (EvmStaking.dispatchLog act)) s u t) : Verified events := by
  refine Returns.forM_inv (I := fun done _ => Verified done) ?_ (by simp [Verified]) h
  intro done ev s t _ hdone hev ev' h'
  rcases List.mem_append.mp h' with h' | h'
  · exact hdone ev' h'
  · obtain rfl := List.mem_singleton.mp h'
    unfold EvmStaking.dispatchLog at hev
    split at hev
    · exact absurd hev returns_fail
    next hverify => exact hverify

end Dispatch

/-- The staking handlers on the staking events of the logs, then the upgrade handlers on theirs,
then the handler of the UBI percentage. -/
def runLogs (A : Wiring W) (ctx : Ctx) (ls : List Eth.Log) (n : Node W) : Node W :=
  sdkLens.alter
    (runAll (processUBIPercentageSet A.keepers ctx) (eventsIn A.ubiContract.parse ls))
    (upgradeLens.alter
      (runAll (handleUpgrade A.keepers ctx) (eventsIn A.upgradeContract.parse ls))
      (accountsLens.alter
        (runAll (EvmStaking.handle A.keepers ctx) (eventsIn A.stakingContract.parse ls)) n))

/-- **What `deliverEvents` runs**: the handlers, on the logs that its events stand for. -/
theorem deliverEvents_runs {A : Wiring W} {ctx : Ctx} {events : List (Option EVMEvent)}
    {n n' : Node W} {u : Unit} (h : Returns (deliverEvents A ctx events) n u n') :
    n' = runLogs A ctx (events.filterMap logOf) n := by
  have hstaking := stakingEvents_isolated A.keepers A.stakingContract ctx
  have hupgrade := upgradeEvents_isolated A.keepers A.upgradeContract ctx
  have hubi := ubiEvents_isolated A.keepers A.ubiContract ctx
  simp only [deliverEvents, returns_bind, returns_wrapErr, returns_zoom] at h
  obtain ⟨_, _, ⟨a, ha, rfl⟩, _, _, ⟨p, hp, rfl⟩, w, hw, rfl⟩ := h
  have hv : Verified events := verified_of_dispatched ha
  obtain ⟨_, rfl⟩ := ha.unique (hstaking.returns_fold events _ hv)
  obtain ⟨_, rfl⟩ := hp.unique (hupgrade.returns_fold events _ hv)
  obtain ⟨_, rfl⟩ := hw.unique (hubi.returns_fold events _ hv)
  simp only [foldl_applyEvent]
  rfl

/-- The staking events in the logs of the execution layer. -/
def stakingEventsIn (C : StakingContract) (ls : List Eth.Log) : List StakingEvent :=
  eventsIn C.parse ls

theorem eventsOf_eq_stakingEventsIn (C : StakingContract) (events : List (Option EVMEvent)) :
    C.eventsOf events = stakingEventsIn C (events.filterMap logOf) := by
  rw [stakingEventsIn, eventsIn_logOf, StakingContract.eventsOf]
  refine List.filterMap_congr fun ev _ => ?_
  rcases parseEvent C.parse ev with _ | _ | e <;> rfl

/-! ## Runs -/

namespace HeadStep

/-- The message of an accepted payload has got the vote of a node on the same head, whose client
reads the logs of the chain. -/
def Voted (A : Wiring W) (logs : Hash → List Eth.Log) : HeadStep → Node W → Prop
  | .finalize _ _ _ msg (some _), n => ∃ (E : Engine) (fuel : Nat) (ctx : Ctx) (v v' : Node W),
      E.ReadsLogs logs ∧ v.store.head = n.store.head ∧
        Returns (proposalExecutionPayload A E fuel ctx msg) v () v'
  | _, _ => True

/-- The logs that a step hands to the dispatchers. -/
def delivered : HeadStep → List Eth.Log
  | .finalize _ _ _ msg (some _) => msg.prevPayloadEvents.filterMap logOf
  | _ => []

/-- The staking events among them. -/
def handled (C : StakingContract) (step : HeadStep) : List StakingEvent :=
  stakingEventsIn C step.delivered

/-- The step has run the handlers on these logs and on no others: an accepted payload takes its
withdrawals out of the queues, runs the handlers and becomes the head, and that is all it writes.
A message that fails writes nothing. -/
def Handles (A : Wiring W) (ls : List Eth.Log) : HeadStep → Node W → Node W → Prop
  | .finalize _ _ ctx _ (some payload), n, n' => ∃ (d : Dequeued) (m : Node W),
      Returns (dequeueProposed A.keepers.codec (payload.withdrawals.getD []).length)
        n.store.evmstaking d m.store.evmstaking ∧
      m.store = { n.store with evmstaking := m.store.evmstaking } ∧
      n'.store = { (runLogs A ctx ls m).store with head := some (headOf ctx payload) }
  | .finalize _ _ _ _ none, n, n' => ls = [] ∧ n'.store = n.store
  | .other, n, n' => ls = [] ∧ n'.store.head = n.store.head

end HeadStep

/-- The blocks from genesis on: the first one, and those of the accepted payloads. -/
def blocksOf (executionBlockHash : Bytes) (steps : List HeadStep) : List Hash :=
  bytesToHash executionBlockHash :: (acceptedIn steps).map fun a => a.payload.blockHash

/-- The logs of all the blocks are those that have been delivered, and those of the head. -/
def LogsDue (logs : Hash → List Eth.Log) (executionBlockHash : Bytes) (steps : List HeadStep)
    (head : ExecutionHead) : Prop :=
  steps.flatMap HeadStep.delivered ++ logs head.hash
    = (blocksOf executionBlockHash steps).flatMap logs

section Runs

variable {A : Wiring W} {logs : Hash → List Eth.Log} {executionBlockHash : Bytes}

theorem delivered_of_voted {step : HeadStep} {n : Node W} {head : ExecutionHead}
    {E : Engine} {fuel : Nat} {ctx : Ctx} {msg : MsgExecutionPayload} {payload : ExecutableData}
    (hstep : step = .finalize E fuel ctx msg (some payload)) (hvote : step.Voted A logs n)
    (hhead : n.store.head = some head) : step.delivered = logs head.hash := by
  subst hstep
  obtain ⟨E', fuel', ctx', v, v', hE', hsame, hvote⟩ := hvote
  obtain ⟨head', hhead', hlogs⟩ := logs_of_vote hE' hvote
  obtain rfl : head' = head := Option.some.inj (hhead'.symm.trans (hsame.trans hhead))
  have hopt := congrArg (List.filterMap Except.toOption) hlogs
  rw [List.filterMap_map, List.filterMap_map] at hopt
  exact hopt.trans (by simp [Function.comp_def, Except.toOption])

/-- **One step** delivers the logs of the head it moves away from, or nothing. -/
theorem LogsDue.step {steps : List HeadStep} {step : HeadStep} {n n' : Node W}
    (h : ∃ head, n.store.head = some head ∧ LogsDue logs executionBlockHash steps head)
    (hvote : step.Voted A logs n) (hstep : step.Runs A n n') :
    ∃ head, n'.store.head = some head ∧
      LogsDue logs executionBlockHash (steps ++ [step]) head := by
  obtain ⟨head, hhead, hdue⟩ := h
  have hidle (hacc : step.accepted = []) (hdel : step.delivered = []) :
      LogsDue logs executionBlockHash (steps ++ [step]) head := by
    unfold LogsDue at hdue ⊢
    rw [List.flatMap_append, List.flatMap_singleton, hdel, List.append_nil, hdue]
    simp [blocksOf, acceptedIn, hacc]
  cases step with
  | other => exact ⟨head, hstep.trans hhead, hidle rfl rfl⟩
  | finalize E fuel ctx msg accepted =>
      cases accepted with
      | none =>
          obtain ⟨f, m, _, _, rfl⟩ := hstep
          exact ⟨head, hhead, hidle rfl rfl⟩
      | some payload =>
          have hdel := delivered_of_voted rfl hvote hhead
          obtain ⟨hparse, d, hret⟩ := hstep
          obtain ⟨payload', _, hparse', _, _, hhead'⟩ := msgExecutionPayload_returns hret
          obtain rfl : payload = payload' := Except.ok.inj (hparse.symm.trans hparse')
          refine ⟨_, hhead', ?_⟩
          have hhash : (headOf ctx payload).hash = payload.blockHash := by
            simp [ExecutionHead.hash, headOf, bytesToHash]
          unfold LogsDue at hdue ⊢
          rw [List.flatMap_append, List.flatMap_singleton, hdel, hdue, hhash]
          simp [blocksOf, acceptedIn, HeadStep.accepted]

/-- **One step** runs the handlers on what is delivered to it. -/
theorem HeadStep.Runs.handles {step : HeadStep} {n n' : Node W} (h : step.Runs A n n') :
    step.Handles A step.delivered n n' := by
  cases step with
  | other => exact ⟨rfl, h⟩
  | finalize E fuel ctx msg accepted =>
      cases accepted with
      | none =>
          obtain ⟨f, m, _, _, rfl⟩ := h
          exact ⟨rfl, rfl⟩
      | some payload =>
          obtain ⟨hparse, d, hret⟩ := h
          obtain ⟨_, payload', t, hparse', hdequeue, happly⟩ := returns_msgExecutionPayload.mp hret
          obtain rfl : payload = payload' := Except.ok.inj (hparse.symm.trans hparse')
          simp only [applyPayload, returns_bind, returns_wrapErr, returns_zoom] at happly
          obtain ⟨_, m₀, hpush, _, m, hfc, _, n₃, hev, st, hhead, rfl⟩ := happly
          obtain rfl := ReadOnly.returns _ _ _ hfc
          obtain rfl := deliverEvents_runs hev
          have hm : m.store = { n.store with evmstaking := t } := pushLoop_store hpush
          have ht : m.store.evmstaking = t := by rw [hm]
          refine ⟨d, m, ?_, ?_, updateExecutionHead_returns hhead⟩
          · rw [ht]
            exact hdequeue
          · rw [ht]
            exact hm

theorem handled_eq_stakingEventsIn (C : StakingContract) (steps : List HeadStep) :
    steps.flatMap (HeadStep.handled C) = stakingEventsIn C (steps.flatMap HeadStep.delivered) :=
  (List.filterMap_flatMap ..).symm

/-- **Every log is handled once, in order, one block late.** From genesis on, the logs that the
dispatchers have run their handlers on, followed by those of the head block, are the logs of all
blocks of the chain: none is lost, repeated or moved. The same holds of the staking events in
them. -/
theorem logs_delivered_once {steps : List HeadStep} {n₀ n₁ n : Node W}
    (hgenesis : Returns (zoom storeLens (insertGenesisHead executionBlockHash)) n₀ () n₁)
    (hrun : Trace (fun step n n' => HeadStep.Voted A logs step n ∧ HeadStep.Runs A step n n')
      n₁ steps n) :
    ∃ head, n.store.head = some head ∧
      Trace (fun step => step.Handles A step.delivered) n₁ steps n ∧
      steps.flatMap HeadStep.delivered ++ logs head.hash
        = (blocksOf executionBlockHash steps).flatMap logs ∧
      steps.flatMap (HeadStep.handled A.stakingContract)
          ++ stakingEventsIn A.stakingContract (logs head.hash)
        = stakingEventsIn A.stakingContract ((blocksOf executionBlockHash steps).flatMap logs) := by
  have hstart : ∃ head, n₁.store.head = some head ∧ LogsDue logs executionBlockHash [] head := by
    obtain ⟨s, hs, rfl⟩ := returns_zoom.mp hgenesis
    obtain rfl := returns_modify.mp hs
    exact ⟨_, rfl, by simp [LogsDue, blocksOf, acceptedIn, ExecutionHead.hash]⟩
  obtain ⟨head, hhead, hdue⟩ := Trace.invariant
    (I := fun steps n => ∃ head, n.store.head = some head ∧
      LogsDue logs executionBlockHash steps head)
    hstart (fun _ _ _ _ ih h => LogsDue.step ih h.1 h.2) hrun
  have hhandles : Trace (fun step => step.Handles A step.delivered) n₁ steps n :=
    hrun.mono fun _ _ _ h => h.2.handles
  refine ⟨head, hhead, hhandles, hdue, ?_⟩
  rw [handled_eq_stakingEventsIn, ← hdue]
  exact (eventsIn_append _ _).symm

end Runs

/-- The head of a chain whose genesis block has the hash 1. -/
def genesisHead : ExecutionHead := ⟨0, 0, [1], 0⟩

/-- The genesis block logs that account 1 names an operator; no other block logs anything. -/
def genesisLogs (hash : Hash) : List Eth.Log :=
  if hash = genesisHead.hash then [⟨bytesToAddress [], [bytesToHash [4]], [], bytesToHash []⟩]
  else []

def loggingEngine : Engine := { obligingEngine with filterLogs := fun _ h => .ok (genesisLogs h) }

/-- The first payload brings the log of the genesis block: the operator is named, by one event. -/
theorem genesis_log_handled_once : ∃ steps n head,
    Trace (fun step n n' => HeadStep.Voted orderedWiring genesisLogs step n ∧
      HeadStep.Runs orderedWiring step n n')
      (effect (zoom storeLens (insertGenesisHead [1])) bareNode) steps n ∧
    n.store.head = some head ∧ genesisLogs head.hash = [] ∧
    steps.flatMap (HeadStep.handled orderedWiring.stakingContract)
      = [.setOperator ⟨EvmStaking.addressOf 1, EvmStaking.addressOf 2⟩] ∧
    Trace (fun step => step.Handles orderedWiring step.delivered)
      (effect (zoom storeLens (insertGenesisHead [1])) bareNode) steps n ∧
    operatorOf bareNode.store.evmstaking.accounts 1 = none ∧
    operatorOf n.store.evmstaking.accounts 1 =
      some (Ledger.encode (bytesOf (EvmStaking.addressOf 2))) := by
  have hgenesis := returns_of_completes
    (show completes (zoom storeLens (insertGenesisHead [1])) bareNode = true by decide +kernel)
  set n₁ := effect (zoom storeLens (insertGenesisHead [1])) bareNode with hn₁
  let msg : MsgExecutionPayload :=
    { nextMsg orderedWiring genesisHead [] with prevPayloadEvents := [eventOf 4] }
  let payload := (nextProto genesisHead []).toExecutableData
  have hvote := returns_of_completes (show completes (proposalExecutionPayload orderedWiring
    loggingEngine 1 (localnetCtx .other) msg) n₁ = true by decide +kernel)
  have hmsg : (outcome (msgExecutionPayload orderedWiring obligingEngine 1 (localnetCtx .finalize)
      msg) n₁).map (fun r => (r.2.store.head, operatorOf r.2.store.evmstaking.accounts 1)) =
        some (some (headOf (localnetCtx .finalize) payload),
          some (Ledger.encode (bytesOf (EvmStaking.addressOf 2)))) := by decide +kernel
  obtain ⟨d, n, hret, hfields⟩ := returns_of_outcome hmsg
  obtain ⟨hhead, hnamed⟩ := Prod.mk.inj hfields
  have hparse : parseAndVerifyProposedPayload orderedWiring (localnetCtx .finalize) n₁.store.head
      msg = .ok payload := by
    have hstored : n₁.store.head = some genesisHead := by decide +kernel
    rw [hstored]
    -- the events of the message are not looked at here
    show parseAndVerifyProposedPayload orderedWiring (localnetCtx .finalize) (some genesisHead)
      (nextMsg orderedWiring genesisHead []) = _
    exact parse_nextMsg _ genesisHead [] .finalize
  have hreads : loggingEngine.ReadsLogs genesisLogs := fun _ _ _ h => (Except.ok.inj h).symm
  have hrun := (Trace.nil (R := fun step n n' => HeadStep.Voted orderedWiring genesisLogs step n ∧
      HeadStep.Runs orderedWiring step n n') (s := n₁)).snoc
    (a := HeadStep.finalize obligingEngine 1 (localnetCtx .finalize) msg (some payload))
    ⟨⟨loggingEngine, 1, localnetCtx .other, n₁, _, hreads, rfl, hvote⟩, hparse, d, hret⟩
  obtain ⟨head, hhead', hhandles, _, hevents⟩ := logs_delivered_once hgenesis hrun
  obtain rfl : headOf (localnetCtx .finalize) payload = head :=
    Option.some.inj (hhead.symm.trans hhead')
  have htip : genesisLogs (headOf (localnetCtx .finalize) payload).hash = [] := by decide +kernel
  refine ⟨_, n, _, hrun, hhead', htip, ?_, hhandles, by decide +kernel, hnamed⟩
  rw [htip] at hevents
  rw [← List.append_nil (List.flatMap _ _)]
  exact hevents.trans (by decide +kernel)

end Story.EvmEngine
