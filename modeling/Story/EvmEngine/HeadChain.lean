/-
# Story.EvmEngine.HeadChain -- the head is the tip of one chain

The execution head is a single row that every finalized payload overwrites. Seen from
outside it is the tip of a chain of blocks: each accepted payload names the one before
as its parent, is numbered after it and is later than it. The chain is defined on its
own below, with `Nat` numbers and times; the checks against the stored head, which
work on 64-bit words, are then shown to extend it.
-/
import Story.EvmEngine.Progress
import Story.Sdk.Ledger

namespace Story.EvmEngine

open Story.Effect Story.Errors Story.Sdk Story.Eth Story.Netconf

variable {W : Type}

/-! ## Chains of blocks -/

/-- What a block says to the next one. -/
structure Tip where
  number : Nat
  hash : Hash
  time : Nat

/-- A payload that was accepted, and the consensus time it was accepted at. -/
structure Accepted where
  blockTime : Int
  payload : ExecutableData

namespace Accepted

def number (a : Accepted) : Nat := a.payload.number.toNat

def time (a : Accepted) : Nat := a.payload.timestamp.toNat

/-- The tip a payload becomes. -/
def tip (a : Accepted) : Tip := ⟨a.number, a.payload.blockHash, a.time⟩

/-- Time does not run backwards past the epoch, and nothing reaches the last 64-bit word. -/
structure InRange (a : Accepted) : Prop where
  blockTime : 0 ≤ a.blockTime
  number : a.number < 2 ^ 64 - 1
  time : a.time < 2 ^ 64 - 1

end Accepted

/-- `a` goes on top of `tip`. -/
structure Tip.Extends (tip : Tip) (a : Accepted) : Prop where
  number : a.number = tip.number + 1
  parentHash : a.payload.parentHash = tip.hash
  random : a.payload.random = tip.hash
  later : tip.time < a.time
  in_window : (a.time : Int) ≤ max a.blockTime (tip.time + 1)

/-- `LinearChain root blocks tip`: the blocks lead from `root` to `tip`, each on top of the
one before. -/
def LinearChain (root : Tip) (blocks : List Accepted) (tip : Tip) : Prop :=
  Trace (fun a t t' => t.Extends a ∧ t' = a.tip) root blocks tip

namespace LinearChain

variable {root tip : Tip} {blocks : List Accepted}

theorem number_eq (h : LinearChain root blocks tip) :
    tip.number = root.number + blocks.length := by
  refine Trace.invariant (I := fun ls t => t.number = root.number + ls.length) rfl ?_ h
  rintro ls a t _ ih ⟨hext, rfl⟩
  have hnumber := hext.number
  simp only [Accepted.tip, List.length_append, List.length_singleton]
  omega

/-- No block of the chain is above or later than its tip. -/
theorem le_tip (h : LinearChain root blocks tip) :
    ∀ a ∈ blocks, a.number ≤ tip.number ∧ a.time ≤ tip.time := by
  refine Trace.invariant (I := fun ls t => ∀ a ∈ ls, a.number ≤ t.number ∧ a.time ≤ t.time)
    (by simp) ?_ h
  rintro ls a t _ ih ⟨hext, rfl⟩ b hb
  have hnumber := hext.number
  have hlater := hext.later
  rcases List.mem_append.mp hb with hb | hb
  · have := ih b hb
    simp only [Accepted.tip]
    omega
  · obtain rfl := List.mem_singleton.mp hb
    exact ⟨le_rfl, le_rfl⟩

/-- Numbers and times go up along the chain. -/
theorem increasing (h : LinearChain root blocks tip) :
    blocks.Pairwise fun a b => a.number < b.number ∧ a.time < b.time := by
  induction h with
  | nil => exact .nil
  | @snoc ls t _ a hrun hstep ih =>
      have hle := le_tip hrun
      have hnumber := hstep.1.number
      have hlater := hstep.1.later
      refine List.pairwise_append.mpr ⟨ih, List.pairwise_singleton _ _, ?_⟩
      intro b hb c hc
      obtain rfl := List.mem_singleton.mp hc
      have := hle b hb
      omega

end LinearChain

/-! ## The checks extend the chain -/

/-- The tip that is stored. -/
def ExecutionHead.tip (h : ExecutionHead) : Tip := ⟨h.blockHeight.toNat, h.hash, h.blockTime.toNat⟩

theorem tip_headOf (ctx : Ctx) (payload : ExecutableData) :
    (headOf ctx payload).tip = (Accepted.mk ctx.blockTime payload).tip := by
  simp [ExecutionHead.tip, ExecutionHead.hash, headOf, Accepted.tip, Accepted.number,
    Accepted.time, bytesToHash, bytesToFixed_bytesOf]

/-- The conversion of a time to a 64-bit word never makes it later. -/
theorem toNat_toUint64_le {i : Int} (h0 : 0 ≤ i) : ((toUint64 i).toNat : Int) ≤ i := by
  rw [toUint64, UInt64.toNat_ofNat']
  omega

theorem toNat_add_one {u : UInt64} (h : u.toNat < 2 ^ 64 - 1) : (u + 1).toNat = u.toNat + 1 := by
  rw [UInt64.toNat_add, UInt64.toNat_one]
  omega

/-- **The checks of the server are those of the chain**, short of the last 64-bit word. -/
theorem FitsHead.extends {ctx : Ctx} {head : ExecutionHead} {payload : ExecutableData}
    (h : FitsHead ctx head payload) (hblock : 0 ≤ ctx.blockTime)
    (hnumber : head.blockHeight.toNat < 2 ^ 64 - 1) (htime : head.blockTime.toNat < 2 ^ 64 - 1) :
    head.tip.Extends ⟨ctx.blockTime, payload⟩ := by
  have hmin : (minTimestamp head).toNat = head.blockTime.toNat + 1 := toNat_add_one htime
  have hmax : ((maxTimestamp ctx head).toNat : Int)
      ≤ max ctx.blockTime (head.blockTime.toNat + 1) := by
    unfold maxTimestamp
    split
    · omega
    · exact (toNat_toUint64_le hblock).trans (le_max_left _ _)
  have hlow := UInt64.le_iff_toNat_le.mp h.min_timestamp
  have hhigh := UInt64.le_iff_toNat_le.mp h.max_timestamp
  constructor
  · show payload.number.toNat = _
    rw [h.number]
    exact toNat_add_one hnumber
  · exact h.parentHash
  · exact h.random
  · show head.blockTime.toNat < payload.timestamp.toNat
    omega
  · show (payload.timestamp.toNat : Int) ≤ _
    exact (Int.ofNat_le.mpr hhigh).trans hmax

/-! ## Runs of finalized messages -/

/-- A finalized message, with the payload it carried if it was accepted, or anything else a
block does. -/
inductive HeadStep
  | finalize (E : Engine) (fuel : Nat) (ctx : Ctx) (msg : MsgExecutionPayload)
      (accepted : Option ExecutableData)
  | other

namespace HeadStep

/-- A message that fails is rolled back: what it did to the stores is dropped, and what it
did to the memory of the node is not. Nothing else writes the head. -/
def Runs (A : Wiring W) : HeadStep → Node W → Node W → Prop
  | .finalize E fuel ctx msg (some payload), n, n' =>
      parseAndVerifyProposedPayload A ctx n.store.head msg = .ok payload ∧
        ∃ d, Returns (msgExecutionPayload A E fuel ctx msg) n d n'
  | .finalize E fuel ctx msg none, n, n' =>
      ∃ f m, Fails (msgExecutionPayload A E fuel ctx msg) n f m ∧ f ≠ .retrying ∧
        n' = { m with store := n.store }
  | .other, n, n' => n'.store.head = n.store.head

/-- What a step accepted. -/
def accepted : HeadStep → List Accepted
  | .finalize _ _ ctx _ (some payload) => [⟨ctx.blockTime, payload⟩]
  | _ => []

end HeadStep

/-- The payloads a run accepted, in order. -/
def acceptedIn (run : List HeadStep) : List Accepted := run.flatMap HeadStep.accepted

/-- The tip of a chain of which nothing but the genesis block is there. -/
def genesisTip (executionBlockHash : Bytes) : Tip := ⟨0, bytesToHash executionBlockHash, 0⟩

/-- The stored head is the tip of the chain of the payloads accepted so far, and has room
above it. -/
structure AtTip (root : Tip) (blocks : List Accepted) (head : ExecutionHead) : Prop where
  chain : LinearChain root blocks head.tip
  number : head.blockHeight.toNat < 2 ^ 64 - 1
  time : head.blockTime.toNat < 2 ^ 64 - 1

/-- An accepted payload moves the tip. -/
theorem AtTip.accept {root : Tip} {blocks : List Accepted} {head : ExecutionHead} {ctx : Ctx}
    {payload : ExecutableData} (h : AtTip root blocks head) (hfits : FitsHead ctx head payload)
    (hrange : (Accepted.mk ctx.blockTime payload).InRange) :
    AtTip root (blocks ++ [⟨ctx.blockTime, payload⟩]) (headOf ctx payload) := by
  refine ⟨Trace.snoc h.chain ⟨?_, tip_headOf ctx payload⟩, hrange.number, hrange.time⟩
  exact hfits.extends hrange.blockTime h.number h.time

/-- **One step** keeps the head at the tip. -/
theorem AtTip.step {A : Wiring W} {root : Tip} {blocks : List Accepted} {step : HeadStep}
    {n n' : Node W} (h : ∃ head, n.store.head = some head ∧ AtTip root blocks head)
    (hstep : step.Runs A n n') (hrange : ∀ a ∈ step.accepted, a.InRange) :
    ∃ head, n'.store.head = some head ∧ AtTip root (blocks ++ step.accepted) head := by
  obtain ⟨head, hhead, htip⟩ := h
  cases step with
  | other =>
      refine ⟨head, hstep.trans hhead, ?_⟩
      simpa [HeadStep.accepted] using htip
  | finalize E fuel ctx msg accepted =>
      cases accepted with
      | none =>
          obtain ⟨f, m, _, _, rfl⟩ := hstep
          refine ⟨head, hhead, ?_⟩
          simpa [HeadStep.accepted] using htip
      | some payload =>
          obtain ⟨hparse, d, hret⟩ := hstep
          obtain ⟨payload', _, hparse', _, _, hhead'⟩ := msgExecutionPayload_returns hret
          obtain rfl : payload = payload' := Except.ok.inj (hparse.symm.trans hparse')
          obtain ⟨hd, hstored, hfits⟩ := fits_of_parse hparse
          obtain rfl : head = hd := Option.some.inj (hhead.symm.trans hstored)
          exact ⟨_, hhead', htip.accept hfits (hrange _ (List.mem_singleton_self _))⟩

/-- **Whole runs** keep the head at the tip. -/
theorem AtTip.run {A : Wiring W} {root : Tip} {steps : List HeadStep} {n n' : Node W}
    {head : ExecutionHead} (hhead : n.store.head = some head) (htip : AtTip root [] head)
    (hrun : Trace (HeadStep.Runs A) n steps n') (hrange : ∀ a ∈ acceptedIn steps, a.InRange) :
    ∃ head', n'.store.head = some head' ∧ AtTip root (acceptedIn steps) head' := by
  induction hrun with
  | nil => exact ⟨head, hhead, htip⟩
  | snoc _ hstep ih =>
      simp only [acceptedIn, List.flatMap_append, List.flatMap_singleton,
        List.mem_append] at hrange ih ⊢
      exact AtTip.step (ih fun a ha => hrange a (.inl ha)) hstep fun a ha => hrange a (.inr ha)

/-- **The head is the tip of one linear chain** of all the payloads accepted since genesis:
there are as many as its height says, each is on top of the one before, no two share a
number, and none of them is accepted again on top of it. -/
theorem head_is_tip_of_one_chain {A : Wiring W} {executionBlockHash : Bytes}
    {steps : List HeadStep} {n₀ n₁ n : Node W}
    (hgenesis : Returns (zoom storeLens (insertGenesisHead executionBlockHash)) n₀ () n₁)
    (hrun : Trace (HeadStep.Runs A) n₁ steps n) (hrange : ∀ a ∈ acceptedIn steps, a.InRange) :
    ∃ head, n.store.head = some head ∧
      head.blockHeight.toNat = (acceptedIn steps).length ∧
      LinearChain (genesisTip executionBlockHash) (acceptedIn steps) head.tip ∧
      ((acceptedIn steps).Pairwise fun a b => a.number < b.number ∧ a.time < b.time) ∧
      ∀ ctx msg, ∀ a ∈ acceptedIn steps,
        parseAndVerifyProposedPayload A ctx n.store.head msg ≠ .ok a.payload := by
  obtain ⟨s, hinsert, rfl⟩ := returns_zoom.mp hgenesis
  obtain rfl := returns_modify.mp hinsert
  have hroot : AtTip (genesisTip executionBlockHash) [] ⟨0, 0, executionBlockHash, 0⟩ :=
    ⟨Trace.nil, Nat.succ_pos _, Nat.succ_pos _⟩
  obtain ⟨head, hhead, htip⟩ := AtTip.run rfl hroot hrun hrange
  have hcount := htip.chain.number_eq
  refine ⟨head, hhead, ?_, htip.chain, htip.chain.increasing, ?_⟩
  · simpa [genesisTip, ExecutionHead.tip] using hcount
  · intro ctx msg a ha hparse
    obtain ⟨hd, hstored, hfits⟩ := fits_of_parse hparse
    obtain rfl : head = hd := Option.some.inj (hhead.symm.trans hstored)
    -- the next number is above the height of the head, and `a` is not
    have hnext : a.number = head.blockHeight.toNat + 1 := by
      show a.payload.number.toNat = _
      rw [hfits.number]
      exact toNat_add_one htip.number
    have hle := (htip.chain.le_tip a ha).1
    simp only [ExecutionHead.tip] at hle
    omega

/-- A node of the ledger before anything of the execution layer is known. -/
def bareNode : Node Ledger where
  store :=
    { evmstaking := effect (EvmStaking.initGenesis Ledger.keepers (localnetCtx .other)
        ⟨EvmStaking.defaultParams, ⟨0, 0⟩⟩) (EvmStaking.Store.fresh Ledger.empty)
      head := none
      pendingUpgrade := none }
  isExecEngSyncing := false
  mutablePayload := ⟨Vector.replicate 8 0, 0⟩

/-- The head of it once genesis is inserted, and after one payload. -/
def firstHeads : ExecutionHead × ExecutionHead :=
  let genesis : ExecutionHead := ⟨0, 0, [], 0⟩
  (genesis, headOf (localnetCtx .finalize) (nextProto genesis []).toExecutableData)

/-- Finalizing a payload without withdrawals on top of `head`. -/
def finalizeNext (head : ExecutionHead) : Prog (Node Ledger) Unit :=
  (fun _ => ()) <$> msgExecutionPayload (plainWiring Ledger.keepers) obligingEngine 1
    (localnetCtx .finalize) (nextMsg (plainWiring Ledger.keepers) head [])

theorem returns_finalizeNext {head : ExecutionHead} {n n' : Node Ledger} {u : Unit}
    (hhead : n.store.head = some head) (h : Returns (finalizeNext head) n u n') :
    (HeadStep.finalize obligingEngine 1 (localnetCtx .finalize)
      (nextMsg (plainWiring Ledger.keepers) head [])
      (some (nextProto head []).toExecutableData)).Runs (plainWiring Ledger.keepers) n n' := by
  obtain ⟨d, hret, _⟩ := returns_map.mp h
  refine ⟨?_, d, hret⟩
  rw [hhead]
  exact parse_nextMsg _ head [] .finalize

/-- The node of the ledger accepts two payloads while its clock stands still, and refuses the
first one when it comes again. -/
theorem replay_refused_after_two_payloads : ∃ steps n head,
    Trace (HeadStep.Runs (plainWiring Ledger.keepers))
      (effect (zoom storeLens (insertGenesisHead [])) bareNode) steps n ∧
    steps.length = 3 ∧ n.store.head = some head ∧ (acceptedIn steps).length = 2 ∧
    LinearChain (genesisTip []) (acceptedIn steps) head.tip := by
  have hgenesis := returns_of_completes
    (show completes (zoom storeLens (insertGenesisHead [])) bareNode = true by decide +kernel)
  set n₁ := effect (zoom storeLens (insertGenesisHead [])) bareNode with hn₁
  have hfirst := returns_finalizeNext (show n₁.store.head = some firstHeads.1 by decide +kernel)
    (returns_of_completes (by decide +kernel))
  set n₂ := effect (finalizeNext firstHeads.1) n₁ with hn₂
  have hsecond := returns_finalizeNext (show n₂.store.head = some firstHeads.2 by decide +kernel)
    (returns_of_completes (by decide +kernel))
  set n₃ := effect (finalizeNext firstHeads.2) n₂ with hn₃
  obtain ⟨f, m, hagain, hf⟩ := fails_of_fault (show (fault (finalizeNext firstHeads.1) n₃).map
    (decide <| · = .retrying) = some false by decide +kernel)
  have hreplay : (HeadStep.finalize obligingEngine 1 (localnetCtx .finalize)
      (nextMsg (plainWiring Ledger.keepers) firstHeads.1 []) none).Runs
      (plainWiring Ledger.keepers) n₃ { m with store := n₃.store } :=
    ⟨f, m, fails_map.mp hagain, of_decide_eq_false hf, rfl⟩
  have hrun := ((Trace.nil.snoc hfirst).snoc hsecond).snoc hreplay
  obtain ⟨head, hhead, _, hchain, _⟩ := head_is_tip_of_one_chain hgenesis hrun (by
    intro a ha
    rcases List.mem_pair.mp ha with rfl | rfl
    · exact ⟨le_rfl, by decide, by decide⟩
    · exact ⟨le_rfl, by decide, by decide⟩)
  exact ⟨_, _, head, hrun, rfl, hhead, rfl, hchain⟩

end Story.EvmEngine
