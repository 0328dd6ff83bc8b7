/-
# Story.EvmEngine.Proposal -- an honest proposal is accepted

The proposer builds a payload in one of two ways: ahead of time, with the time of the
block that was just finalized, or when it is asked to propose. The verifier recomputes
everything from its own state. Both builds read the same head and the same queues as the
verifier, and both time stamps lie in the verifier's window, because consensus time does
not go back and the head takes precedence on both sides.
-/
import Story.EvmEngine.Abci
import Story.EvmEngine.Progress
import Story.Sdk.Ledger

namespace Story.EvmEngine

open Story.Effect Story.Errors Story.Sdk Story.Eth Story.Netconf

variable {W : Type}

/-! ## What the proposer relies on -/

/-- A payload that was built on top of `head` as `attrs` asks. -/
structure BuiltFor (head : ExecutionHead) (attrs : PayloadAttributes)
    (payload : ExecutableData) : Prop where
  number : payload.number = head.blockHeight + 1
  parentHash : payload.parentHash = head.hash
  timestamp : payload.timestamp = attrs.timestamp
  random : payload.random = attrs.random
  withdrawals : payload.withdrawals = some (attrs.withdrawals.map some)
  transactions : payload.transactions.isSome
  blobGasUsed : payload.blobGasUsed.isSome
  excessBlobGas : payload.excessBlobGas.isSome
  executionWitness : payload.executionWitness = none
  baseFeePerGas : ∃ fee : Nat, payload.baseFeePerGas = some (fee : Int) ∧ fee < 2 ^ 256

/-- A payload id that one call got for a build request yields a payload built for it. -/
def Engine.Builds (start fetch : Engine) (head : ExecutionHead) : Prop :=
  ∀ i attrs fcr id j payload,
    start.forkchoiceUpdatedV3 i (forkchoiceOf head) (some attrs) = .ok fcr →
    fcr.payloadID = some id → fetch.getPayloadV3 j id = .ok payload →
    ∃ p, payload = some p ∧ BuiltFor head attrs p

/-- Two clients have the same logs of every block. -/
def Engine.SameLogs (E E' : Engine) : Prop :=
  ∀ i j blockHash logs logs', E.filterLogs i blockHash = .ok logs →
    E'.filterLogs j blockHash = .ok logs' → logs = logs'

/-- A payload without nil lists and without a witness, whose base fee is a number of 256 bits,
survives JSON and passes the strict decoder. -/
def Json.Faithful (json : Json) : Prop :=
  ∀ (p : ExecutableData) (b : Bytes) (fee : Nat), p.transactions.isSome → p.withdrawals.isSome →
    p.executionWitness = none → p.baseFeePerGas = some (fee : Int) → fee < 2 ^ 256 →
    json.marshal (some p) = .ok b → json.decodeStrict b = .ok () ∧ json.unmarshal b = .ok p

/-! ## Time stamps -/

theorem minTimestamp_le_maxTimestamp (ctx : Ctx) (head : ExecutionHead) :
    minTimestamp head ≤ maxTimestamp ctx head := by
  rw [maxTimestamp]
  split
  · exact UInt64.le_refl _
  next h => exact UInt64.not_lt.mp h

theorem toUint64_le {i j : Int} (h0 : 0 ≤ i) (hij : i ≤ j) (hj : j < 2 ^ 63) :
    toUint64 i ≤ toUint64 j := by
  rw [UInt64.le_iff_toNat_le, toNat_toUint64 h0 (by omega), toNat_toUint64 (by omega) (by omega)]
  omega

/-- **The window.** A build started at an earlier time, or at the same time, as the
verifier's gets a time stamp in the verifier's window. -/
theorem buildTimestamp_mem_window {head : ExecutionHead} {ctx : Ctx} {time : Int} (h0 : 0 ≤ time)
    (hle : time ≤ ctx.blockTime) (hlt : ctx.blockTime < 2 ^ 63) :
    minTimestamp head ≤ buildTimestamp head time ∧
      buildTimestamp head time ≤ maxTimestamp ctx head := by
  unfold buildTimestamp
  split
  · exact ⟨UInt64.le_refl _, minTimestamp_le_maxTimestamp ctx head⟩
  next h =>
    have hlater : head.blockTime < toUint64 time := UInt64.not_le.mp h
    have hnow : toUint64 time ≤ toUint64 ctx.blockTime := toUint64_le h0 hle hlt
    have hmin : minTimestamp head ≤ toUint64 time := by
      rw [minTimestamp, UInt64.le_iff_toNat_le, UInt64.toNat_add]
      have := UInt64.lt_iff_toNat_lt.mp hlater
      have := Nat.mod_le (head.blockTime.toNat + (1 : UInt64).toNat) (2 ^ 64)
      have h1 : (1 : UInt64).toNat = 1 := rfl
      omega
    refine ⟨hmin, ?_⟩
    rw [maxTimestamp, if_neg (UInt64.not_lt.mpr (UInt64.le_trans hmin hnow))]
    exact hnow

/-- A payload built as `startBuild` asks fits the head. -/
theorem BuiltFor.fitsHead {head : ExecutionHead} {feeRecipient : Address}
    {withdrawals : List Eth.Withdrawal} {appHash : Hash} {time : Int} {payload : ExecutableData}
    {ctx : Ctx}
    (h : BuiltFor head (attributesFor head feeRecipient withdrawals appHash time) payload)
    (h0 : 0 ≤ time) (hle : time ≤ ctx.blockTime) (hlt : ctx.blockTime < 2 ^ 63) :
    FitsHead ctx head payload where
  number := h.number
  parentHash := h.parentHash
  min_timestamp := by
    rw [h.timestamp]
    exact (buildTimestamp_mem_window h0 hle hlt).1
  max_timestamp := by
    rw [h.timestamp]
    exact (buildTimestamp_mem_window h0 hle hlt).2
  random := h.random
  withdrawals := by
    rw [h.withdrawals]
    rfl
  blobGasUsed := h.blobGasUsed
  excessBlobGas := h.excessBlobGas
  executionWitness := h.executionWitness

/-! ## Withdrawals -/

instance readOnly_peekProposed (codec : Codec) :
    ReadOnly (peekProposed codec : Prog (EvmStaking.Store W) _) := by
  unfold peekProposed
  infer_instance

/-- **The verifier accepts what the proposer peeked**, whatever the queues hold. -/
theorem compareWithdrawals_of_peekProposed {codec : Codec} {s t : EvmStaking.Store W}
    {ws : List Eth.Withdrawal} (h : Returns (peekProposed codec) s ws t) :
    Returns (compareWithdrawals codec (ws.map some)) s () s := by
  simp only [peekProposed, ReadOnly.returns_bind_iff, returns_wrapErr, returns_pure] at h
  obtain ⟨max, hmax, first, hfirst, second, hsecond, rfl, _⟩ := h
  have hmax' : Returns (wrapErr "get max withdrawals per block"
      EvmStaking.maxWithdrawalPerBlock) s max s := returns_wrapErr.mpr hmax
  have hfirst' : Returns (wrapErr "peek withdrawals"
      (EvmStaking.peekEligibleWithdrawals codec max)) s first s := returns_wrapErr.mpr hfirst
  have hsecond' : Returns (wrapErr "peek reward withdrawals"
      (EvmStaking.peekEligibleRewardWithdrawals codec (max - UInt32.ofNat first.length)))
        s second s :=
    returns_wrapErr.mpr hsecond
  refine hmax'.bind (hfirst'.bind ?_)
  rw [if_neg (by simp)]
  refine hsecond'.bind ?_
  rw [if_neg (by simp)]
  have hcompare : Returns (compareFrom ((first ++ second).map some) 0 first) s () s :=
    returns_compareFrom.mpr ⟨by simp, rfl⟩
  refine hcompare.bind (returns_compareFrom.mpr ⟨?_, rfl⟩)
  simp

/-! ## Events -/

/-- The events a node reads off its client come from one answer of it. -/
theorem evmEvents_returns {σ : Type} {E : Engine} {fuel : Nat} {blockHash : Hash} {s t : σ}
    {events : List (Option EVMEvent)} (h : Returns (evmEvents E fuel blockHash) s events t) :
    ∃ i logs, E.filterLogs i blockHash = .ok logs ∧
      events = logs.map fun l => some (eventOfLog l) := by
  simp only [evmEvents, returns_bind, returns_wrapErr, returns_pure] at h
  obtain ⟨logs, s₁, hlogs, _, s₂, _, rfl, _⟩ := h
  obtain ⟨i, _, _, hstop⟩ := retryForever_returns (I := fun _ => True)
    (fun _ _ _ _ _ => trivial) trivial hlogs
  refine ⟨i, logs, ?_, rfl⟩
  split at hstop
  · cases (returns_pure.mp hstop).1
  next hans =>
    cases (returns_pure.mp hstop).1
    exact hans

theorem protoEqual_self (ev : Option EVMEvent) : protoEqual ev ev = true := by
  cases ev <;> simp [protoEqual]

theorem evmEventsEqual_self (events : List (Option EVMEvent)) :
    evmEventsEqual events events = .ok () := by
  have hall : (List.zipWith protoEqual events events).all id = true := by
    induction events with
    | nil => rfl
    | cons ev events ih =>
        rw [List.zipWith_cons_cons, List.all_cons, ih, protoEqual_self]
        rfl
  rw [evmEventsEqual, if_neg (by simp), if_pos hall]

/-! ## The message -/

/-- The decoder of the verifier undoes the encoder of the proposer, up to what the checks
do not look at. -/
theorem parsePayload_of_encodePayload {σ : Type} {json : Json} {ctx : Ctx} {terence : Bool}
    {p : ExecutableData} {msg : MsgExecutionPayload} {s t : σ} (hjson : json.Faithful)
    (hterence : isTerence ctx.chainID ctx.blockHeight = .ok terence)
    (htx : p.transactions.isSome) (hws : p.withdrawals.isSome)
    (hwitness : p.executionWitness = none)
    {fee : Nat} (hfee : p.baseFeePerGas = some (fee : Int)) (hlt : fee < 2 ^ 256)
    (h : Returns (encodePayload json terence (some p)) s
      (msg.executionPayload, msg.executionPayloadDeneb) t) :
    ∃ txs fee, parsePayload json ctx msg
      = .ok { p with transactions := txs, baseFeePerGas := fee } := by
  obtain ⟨ws, hws'⟩ := Option.isSome_iff_exists.mp hws
  cases terence with
  | true =>
      obtain ⟨out, s', hout, h⟩ := returns_bind.mp h
      obtain ⟨hdata, hproto⟩ := Prod.mk.inj (returns_pure.mp h).1
      have hround := payloadFromProto_payloadToProto (returns_wrapErr.mp hout)
      refine ⟨some (p.transactions.getD []), p.baseFeePerGas.map fun i => (i.natAbs : Int), ?_⟩
      simp only [parsePayload, hterence, ← hdata, ← hproto, Option.isSome_none,
        Bool.false_eq_true, if_false, hround, hws', Option.getD_some]
  | false =>
      obtain ⟨b, s', hb, h⟩ := returns_bind.mp h
      obtain ⟨hdata, hproto⟩ := Prod.mk.inj (returns_pure.mp h).1
      obtain ⟨hmarshal, _⟩ := returns_convert.mp (returns_wrapErr.mp hb)
      obtain ⟨hstrict, hunmarshal⟩ := hjson p b fee htx hws hwitness hfee hlt hmarshal
      refine ⟨p.transactions, p.baseFeePerGas, ?_⟩
      simp [parsePayload, hterence, ← hdata, ← hproto, hstrict, hunmarshal]

/-- What `PrepareProposal` has established when it has a message for a payload. -/
theorem proposalMsg_returns {σ : Type} {A : Wiring W} {E : Engine} {fuel : Nat} {ctx : Ctx}
    {payload : Option ExecutableData} {msg : MsgExecutionPayload} {s t : σ}
    (h : Returns (proposalMsg A E fuel ctx payload) s msg t) :
    ∃ p terence s₁ t₁, payload = some p ∧ isTerence ctx.chainID ctx.blockHeight = .ok terence ∧
      Returns (encodePayload A.json terence (some p)) s
        (msg.executionPayload, msg.executionPayloadDeneb) s₁ ∧
      msg.authority = A.keepers.codec.moduleAddress moduleName ∧
      Returns (evmEvents E fuel p.parentHash) s₁ msg.prevPayloadEvents t₁ := by
  simp only [proposalMsg, returns_bind, returns_wrapErr, returns_ofExcept] at h
  obtain ⟨terence, _, ⟨hterence, rfl⟩, ⟨data, proto⟩, s₁, henc, h⟩ := h
  cases payload with
  | none => exact absurd h returns_goPanic
  | some p =>
      simp only [returns_bind, returns_wrapErr, returns_pure] at h
      obtain ⟨events, t₁, hevents, rfl, _⟩ := h
      exact ⟨p, terence, s₁, t₁, rfl, hterence, henc, rfl, hevents⟩

/-! ## The two ways to a payload -/

/-- The client `E` was asked, as an attempt of a loop, to build on top of the head of `n`,
and gave the payload the id `id`. -/
def BuildStarted (P : Proposer) (E : Engine) (n : Node W) (withdrawals : List Eth.Withdrawal)
    (appHash : Hash) (time : Int) (id : PayloadID) : Prop :=
  ∃ i head fcr, n.store.head = some head ∧
    E.forkchoiceUpdatedV3 i (forkchoiceOf head)
      (some (attributesFor head P.validatorAddr withdrawals appHash time)) = .ok fcr ∧
    fcr.payloadID = some id

instance readOnly_startBuild {σ : Type} (E : Engine) (i : Nat) (head : Option ExecutionHead)
    (feeRecipient : Address) (withdrawals : List Eth.Withdrawal) (appHash : Hash) (time : Int) :
    ReadOnly (startBuild E i head feeRecipient withdrawals appHash time : Prog σ _) :=
  ReadOnly.bind _ _

theorem startBuild_returns {σ : Type} {E : Engine} {i : Nat} {head : Option ExecutionHead}
    {feeRecipient : Address} {withdrawals : List Eth.Withdrawal} {appHash : Hash} {time : Int}
    {fcr : ForkChoiceResponse} {s t : σ}
    (h : Returns (startBuild E i head feeRecipient withdrawals appHash time) s fcr t) :
    ∃ hd, head = some hd ∧ E.forkchoiceUpdatedV3 i (forkchoiceOf hd)
      (some (attributesFor hd feeRecipient withdrawals appHash time)) = .ok fcr := by
  obtain ⟨hd, _, hget, h⟩ := returns_bind.mp h
  obtain ⟨hhead, _⟩ := returns_ofExcept.mp (returns_wrapErr.mp hget)
  refine ⟨hd, ?_, (returns_convert.mp (returns_wrapErr.mp h)).1⟩
  cases head with
  | none => cases hhead
  | some hd' =>
      cases hhead
      rfl

/-- **PostFinalize** starts a build for the next height with what it peeks, or leaves the
node as it is. -/
theorem postFinalize_returns {A : Wiring W} {P : Proposer} {E : Engine}
    {isNext : Except SdkError Bool} {ctx : Ctx} {n n' : Node W} {u : Unit}
    (h : Returns (postFinalize A P E isNext ctx) n u n') :
    n' = n ∨ ∃ ws id, Returns (peekProposed A.keepers.codec) n.store.evmstaking ws
        n.store.evmstaking ∧
      BuildStarted P E n ws (bytesToHash ctx.appHash) ctx.blockTime id ∧
      n' = { n with mutablePayload := ⟨id, toUint64 (ctx.blockHeight + 1)⟩ } := by
  have hunchanged {n₁ : Node W} (h : Returns (pure () : Prog (Node W) Unit) n₁ u n') : n' = n₁ :=
    (returns_pure.mp h).2.symm
  obtain ⟨node, hget, h⟩ := ReadOnly.returns_bind_iff.mp h
  obtain ⟨rfl, _⟩ := returns_get.mp hget
  -- no optimistic build is wanted, the engine is syncing, or another node is next
  split at h
  · exact .inl (hunchanged h)
  split at h
  · exact .inl (hunchanged h)
  split at h
  · exact .inl (hunchanged h)
  · exact .inl (hunchanged h)
  obtain ⟨r, hpeek, h⟩ := ReadOnly.returns_bind_iff.mp h
  cases r with
  | error err => exact .inl (hunchanged h)
  | ok ws =>
      obtain ⟨s, hs, _⟩ := returns_zoom.mp (returns_attempt_ok.mp hpeek)
      obtain rfl := ReadOnly.returns _ _ _ hs
      obtain ⟨r, hbuild, h⟩ := ReadOnly.returns_bind_iff.mp h
      cases r with
      | error err => exact .inl (hunchanged h)
      | ok fcr =>
          obtain ⟨hd, hhead, hfcr⟩ := startBuild_returns (returns_attempt_ok.mp hbuild)
          dsimp only at h
          -- only an answer that names a payload changes the node
          split at h
          · exact .inl (hunchanged h)
          split at h
          · exact .inl (hunchanged h)
          split at h
          · exact .inl (hunchanged h)
          next id hid =>
            exact .inr ⟨ws, id, hs, ⟨0, hd, fcr, hhead, hfcr, hid⟩, (returns_modify.mp h).symm⟩

instance readOnly_buildAttempt {σ : Type} (E : Engine) (head : Option ExecutionHead)
    (feeRecipient : Address) (withdrawals : List Eth.Withdrawal) (appHash : Hash) (time : Int)
    (i : Nat) :
    ReadOnly (buildAttempt E head feeRecipient withdrawals appHash time i : Prog σ _) := by
  refine @ReadOnly.bind _ _ _ _ _ _ inferInstance ?_
  intro r
  split
  · exact ReadOnly.pure _
  · refine @ReadOnly.ite _ _ _ _ _ _ _ inferInstance (@ReadOnly.ite _ _ _ _ _ _ _ inferInstance ?_)
    split <;> infer_instance

theorem buildAttempt_returns {P : Proposer} {E : Engine} {n n₁ n₂ : Node W}
    {withdrawals : List Eth.Withdrawal} {appHash : Hash} {time : Int} {i : Nat} {id : PayloadID}
    (h : Returns (buildAttempt E n.store.head P.validatorAddr withdrawals appHash time i) n₁
      (some id) n₂) : BuildStarted P E n withdrawals appHash time id := by
  obtain ⟨r, n₃, hbuild, h⟩ := returns_bind.mp h
  cases r with
  | error err => cases (returns_pure.mp h).1
  | ok fcr =>
      obtain ⟨hd, hhead, hfcr⟩ := startBuild_returns (returns_attempt_ok.mp hbuild)
      dsimp only at h
      split at h
      · exact absurd h returns_fail
      split at h
      · exact absurd h returns_fail
      split at h
      · exact absurd h returns_fail
      next id' hid =>
        cases (returns_pure.mp h).1
        exact ⟨i, hd, fcr, hhead, hfcr, hid⟩

instance readOnly_choosePayload (P : Proposer) (E : Engine) (fuel : Nat) (ctx : Ctx)
    (req : PrepareRequest) (withdrawals : List Eth.Withdrawal) :
    ReadOnly (choosePayload P E fuel ctx req withdrawals : Prog (Node W) _) :=
  ReadOnly.bind _ _

/-- The id is the one in memory, for this height, or a build was started for it. -/
theorem choosePayload_returns {P : Proposer} {E : Engine} {fuel : Nat} {ctx : Ctx}
    {req : PrepareRequest} {withdrawals : List Eth.Withdrawal} {n n' : Node W} {id : PayloadID}
    (h : Returns (choosePayload P E fuel ctx req withdrawals) n id n') :
    BuildStarted P E n withdrawals (bytesToHash ctx.appHash) req.time id ∨
      n.mutablePayload = ⟨id, toUint64 req.height⟩ := by
  obtain ⟨node, _, hget, h⟩ := returns_bind.mp h
  obtain ⟨rfl, rfl⟩ := returns_get.mp hget
  split at h
  next =>
    obtain ⟨i, n₁, _, hstop⟩ := retryForever_returns (I := fun _ => True)
      (fun _ _ _ _ _ => trivial) trivial h
    exact .inl (buildAttempt_returns hstop)
  next hheight =>
    obtain ⟨rfl, _⟩ := returns_pure.mp h
    rw [not_not.mp hheight]
    exact .inr rfl

/-- **PrepareProposal** fetched the payload of its message by an id it chose. -/
theorem prepareProposal_returns {A : Wiring W} {P : Proposer} {E : Engine} {fuel : Nat} {ctx : Ctx}
    {req : PrepareRequest} {n n' : Node W} {proposal : Proposal}
    (h : Returns (prepareProposal A P E fuel ctx req) n (some proposal) n') :
    ∃ (ws : List Eth.Withdrawal) (id : PayloadID) (i : Nat) (payload : Option ExecutableData)
      (n₁ n₂ : Node W),
      Returns (peekProposed A.keepers.codec) n.store.evmstaking ws n.store.evmstaking ∧
      Returns (choosePayload P E fuel ctx req ws) n id n ∧
      E.getPayloadV3 i id = .ok payload ∧
      Returns (proposalMsg A E fuel ctx payload) n₁ proposal.msg n₂ := by
  obtain ⟨node, _, hget, h⟩ := returns_bind.mp h
  obtain ⟨rfl, rfl⟩ := returns_get.mp hget
  -- three refusals, and the first block, which has no payload
  split at h
  · exact absurd h returns_fail
  split at h
  · exact absurd h returns_fail
  split at h
  · exact absurd h returns_fail
  split at h
  · cases (returns_pure.mp h).1
  obtain ⟨ws, hpeek, h⟩ := ReadOnly.returns_bind_iff.mp h
  obtain ⟨s, hs, _⟩ := returns_zoom.mp hpeek
  obtain rfl := ReadOnly.returns _ _ _ hs
  obtain ⟨id, hid, h⟩ := ReadOnly.returns_bind_iff.mp h
  obtain ⟨_, n₁, _, h⟩ := returns_bind.mp h
  obtain ⟨payload, n₂, hfetch, h⟩ := returns_bind.mp h
  obtain ⟨i, n₃, _, hstop⟩ := retryForever_returns (I := fun _ => True)
    (fun _ _ _ _ _ => trivial) trivial hfetch
  have hpayload : E.getPayloadV3 i id = .ok payload := by
    unfold fetchAttempt at hstop
    split at hstop
    · split at hstop
      · exact absurd hstop returns_fail
      · cases (returns_pure.mp hstop).1
    next hans =>
      cases (returns_pure.mp hstop).1
      exact hans
  obtain ⟨msg, n₄, hmsg, h⟩ := returns_bind.mp h
  obtain ⟨_, _, _, h⟩ := returns_bind.mp h
  obtain ⟨tx, _, _, h⟩ := returns_bind.mp h
  split at h
  · exact absurd h returns_fail
  · cases (returns_pure.mp h).1
    exact ⟨ws, id, i, payload, n₂, n₄, hs, hid, hpayload, hmsg⟩

/-! ## The memory of a node -/

/-- What happens on a node between two calls of `PrepareProposal`: it finalizes blocks, and
does other things, which leave the payload in memory alone. -/
inductive UptimeStep
  | finalized (E : Engine) (isNext : Except SdkError Bool) (ctx : Ctx)
  | other

def UptimeStep.Runs (A : Wiring W) (P : Proposer) : UptimeStep → Node W → Node W → Prop
  | .finalized E isNext ctx, n, n' => Returns (postFinalize A P E isNext ctx) n () n'
  | .other, n, n' => n'.mutablePayload = n.mutablePayload

/-- The step belongs to a block below `height`. -/
def UptimeStep.Below (height : Int) : UptimeStep → Prop
  | .finalized _ _ ctx => 0 ≤ ctx.blockHeight ∧ ctx.blockHeight < height
  | .other => True

/-- A node that was started with no payload in memory and has finalized blocks below
`height` only. -/
def UpSince (A : Wiring W) (P : Proposer) (height : Int) (n : Node W) : Prop :=
  ∃ (boot : Node W) (steps : List UptimeStep), boot.mutablePayload.height = 0 ∧
    Trace (UptimeStep.Runs A P) boot steps n ∧ ∀ step ∈ steps, step.Below height

/-- The payload in memory is for a height that has been finalized. -/
theorem UpSince.height_le {A : Wiring W} {P : Proposer} {height : Int} {n : Node W}
    (h : UpSince A P height n) (h0 : 0 ≤ height) (hlt : height < 2 ^ 63) :
    (n.mutablePayload.height.toNat : Int) ≤ height := by
  obtain ⟨boot, steps, hboot, hrun, hbelow⟩ := h
  have hinv : (∀ step ∈ steps, step.Below height) →
      (n.mutablePayload.height.toNat : Int) ≤ height := by
    refine hrun.invariant (I := fun steps n => (∀ step ∈ steps, step.Below height) →
      (n.mutablePayload.height.toNat : Int) ≤ height) ?_ ?_
    · intro _
      rw [hboot]
      exact h0
    · intro steps step n n' ih hstep hbelow
      have hn := ih fun a ha => hbelow a (by simp [ha])
      cases step with
      | other =>
          rw [show n'.mutablePayload = n.mutablePayload from hstep]
          exact hn
      | finalized E isNext ctx =>
          rcases postFinalize_returns hstep with rfl | ⟨ws, id, _, _, rfl⟩
          · exact hn
          · obtain ⟨hpos, hctx⟩ := hbelow (.finalized E isNext ctx) (by simp)
            show ((toUint64 (ctx.blockHeight + 1)).toNat : Int) ≤ height
            rw [toNat_toUint64 (by omega) (by omega)]
            omega
  exact hinv hbelow

/-! ## Acceptance -/

/-- The decoding of a message depends on the chain id and the height of the context only. -/
theorem parsePayload_congr {json : Json} {ctx ctx' : Ctx} (hchain : ctx'.chainID = ctx.chainID)
    (hheight : ctx'.blockHeight = ctx.blockHeight) (msg : MsgExecutionPayload) :
    parsePayload json ctx' msg = parsePayload json ctx msg := by
  rw [parsePayload, parsePayload, hchain, hheight]

/-- A payload that fits a head still does after a change of transactions and base fee. -/
theorem FitsHead.congr {ctx : Ctx} {head : ExecutionHead} {p : ExecutableData}
    (h : FitsHead ctx head p) (txs : Option (List Bytes)) (fee : Option Int) :
    FitsHead ctx head { p with transactions := txs, baseFeePerGas := fee } :=
  ⟨h.number, h.parentHash, h.min_timestamp, h.max_timestamp, h.random, h.withdrawals,
    h.blobGasUsed, h.excessBlobGas, h.executionWitness⟩

/-- What a verifier at context `ctx` makes of a message: every check that it passes. -/
structure PassesChecks (A : Wiring W) (E : Engine) (ctx : Ctx) (n : Node W)
    (msg : MsgExecutionPayload) (payload : ExecutableData) : Prop where
  parses : parseAndVerifyProposedPayload A ctx n.store.head msg = .ok payload
  withdrawals : Returns (compareWithdrawals A.keepers.codec (payload.withdrawals.getD []))
    n.store.evmstaking () n.store.evmstaking
  /-- Any client with the same logs as the proposer's yields the events of the message. -/
  events : ∀ E' fuel events n', E.SameLogs E' →
    Returns (evmEvents E' fuel payload.parentHash) n events n' →
    evmEventsEqual events msg.prevPayloadEvents = .ok ()

/-- A message for a payload that was built for the peeked withdrawals passes. -/
theorem passesChecks_of_built {A : Wiring W} {E : Engine} {fuel : Nat} {ctx ctx' : Ctx}
    {n n₁ n₂ : Node W} {head : ExecutionHead} {feeRecipient : Address}
    {ws : List Eth.Withdrawal} {appHash : Hash} {time : Int} {p : ExecutableData}
    {msg : MsgExecutionPayload} (hjson : A.json.Faithful) (hhead : n.store.head = some head)
    (hpeek : Returns (peekProposed A.keepers.codec) n.store.evmstaking ws n.store.evmstaking)
    (hbuilt : BuiltFor head (attributesFor head feeRecipient ws appHash time) p)
    (h0 : 0 ≤ time) (hle : time ≤ ctx'.blockTime) (hlt : ctx'.blockTime < 2 ^ 63)
    (hmsg : Returns (proposalMsg A E fuel ctx (some p)) n₁ msg n₂)
    (hchain : ctx'.chainID = ctx.chainID) (hheight : ctx'.blockHeight = ctx.blockHeight) :
    ∃ payload, PassesChecks A E ctx' n msg payload ∧
      minTimestamp head ≤ payload.timestamp ∧ payload.timestamp ≤ maxTimestamp ctx' head := by
  obtain ⟨_, terence, s₁, t₁, hp, hterence, henc, hauth, hevents⟩ := proposalMsg_returns hmsg
  obtain rfl := Option.some.inj hp
  have hws : p.withdrawals.isSome := by
    rw [hbuilt.withdrawals]
    rfl
  obtain ⟨baseFee, hfee, hfeelt⟩ := hbuilt.baseFeePerGas
  obtain ⟨txs, fee, hparse⟩ := parsePayload_of_encodePayload hjson hterence hbuilt.transactions hws
    hbuilt.executionWitness hfee hfeelt henc
  have hfits := (hbuilt.fitsHead h0 hle hlt).congr txs fee
  rw [← parsePayload_congr hchain hheight] at hparse
  refine ⟨_, ⟨?_, ?_, ?_⟩, hfits.min_timestamp, hfits.max_timestamp⟩
  · rw [hhead]
    exact parse_of_fits hauth hparse hfits
  · show Returns (compareWithdrawals _ (p.withdrawals.getD [])) _ _ _
    rw [hbuilt.withdrawals]
    exact compareWithdrawals_of_peekProposed hpeek
  · intro E' fuel' events n' hlogs hevents'
    obtain ⟨i, logs, hi, heq⟩ := evmEvents_returns hevents
    obtain ⟨j, logs', hj, rfl⟩ := evmEvents_returns hevents'
    obtain rfl := hlogs i j _ _ _ hi hj
    rw [heq]
    exact evmEventsEqual_self _

/-! ### A client that builds one payload -/

/-- The payload for a request, with nothing in it but what was asked for. -/
def barePayload (head : ExecutionHead) (attrs : PayloadAttributes) : ExecutableData where
  parentHash := head.hash
  feeRecipient := attrs.suggestedFeeRecipient
  stateRoot := emptyHash
  receiptsRoot := emptyHash
  logsBloom := []
  random := attrs.random
  number := head.blockHeight + 1
  gasLimit := 0
  gasUsed := 0
  timestamp := attrs.timestamp
  extraData := []
  baseFeePerGas := some 7
  blockHash := emptyHash
  transactions := some []
  withdrawals := some (attrs.withdrawals.map some)
  blobGasUsed := some 0
  excessBlobGas := some 0
  executionWitness := none

/-- A client that gives an id to one request only, and has no logs. -/
def builderEngine (head : ExecutionHead) (attrs : PayloadAttributes) : Engine where
  newPayloadV3 := fun _ _ _ => .ok ⟨.valid, none, none⟩
  forkchoiceUpdatedV3 := fun _ _ a =>
    .ok ⟨⟨.valid, none, none⟩, if a = some attrs then some (Vector.replicate 8 1) else none⟩
  getPayloadV3 := fun _ _ => .ok (some (barePayload head attrs))
  filterLogs := fun _ _ => .ok []
  cancelled := fun _ _ => false

theorem builderEngine_builds (head : ExecutionHead) (attrs : PayloadAttributes) :
    (builderEngine head attrs).Builds (builderEngine head attrs) head := by
  intro i attrs' fcr id j payload hfcr hid hpayload
  cases hfcr
  cases hpayload
  have hattrs : some attrs' = some attrs := by
    by_contra hne
    simp only [if_neg hne] at hid
    cases hid
  obtain rfl := Option.some.inj hattrs
  exact ⟨_, rfl, rfl, rfl, rfl, rfl, rfl, rfl, rfl, rfl, rfl, 7, rfl, by decide⟩

/-- A node of the local network after its first block, with one withdrawal queued. -/
def localNode : Node Ledger where
  store :=
    { evmstaking :=
        { accounts := ⟨fun _ => none, fun _ => none, fun _ => none, .empty⟩
          params := some EvmStaking.defaultParams
          validatorSweepIndex := none
          withdrawalQueue :=
            ⟨some 0, some 1, fun k => if k = 0 then some ⟨1, "", 5, .unstake, ""⟩ else none⟩
          rewardWithdrawalQueue := ⟨some 0, some 0, fun _ => none⟩
          journal := [] }
      head := some ⟨0, 0, [7], 0⟩
      pendingUpgrade := none }
  isExecEngSyncing := false
  mutablePayload := ⟨Vector.replicate 8 0, 0⟩

def localProposer : Proposer := ⟨Vector.replicate 20 1, true, fun _ => .ok (), fun _ => .ok []⟩

/-- Block `height` of a chain. -/
def blockOf (chainID : String) (height time : Int) : Ctx := ⟨chainID, height, time, [1], .other⟩

/-- **An honest proposal is accepted.** A node that is up since before block `height`
finalizes that block and then proposes the next one, at a time that is not before the time
of `height`. Whichever way it built the payload, every node with the same stores accepts
the message, and the time stamp lies in the window of the verifier. -/
theorem honest_proposal_accepted {A : Wiring W} {P : Proposer} {height : Int}
    (hpos : 0 < height) (hmax : height + 1 < 2 ^ 63) {n n₁ : Node W} (hup : UpSince A P height n)
    -- block `height` is finalized
    {E₁ : Engine} {isNext : Except SdkError Bool} {ctx₁ : Ctx}
    (hheight₁ : ctx₁.blockHeight = height)
    (hpost : Returns (postFinalize A P E₁ isNext ctx₁) n () n₁)
    -- the next block is proposed
    {E₂ : Engine} {fuel : Nat} {ctx₂ : Ctx} {req : PrepareRequest} {proposal : Proposal}
    {n₂ n₃ : Node W} (hstore : n₂.store = n₁.store) (hmem : n₂.mutablePayload = n₁.mutablePayload)
    (hheight₂ : ctx₂.blockHeight = height + 1) (hreq : req.height = height + 1)
    (hprep : Returns (prepareProposal A P E₂ fuel ctx₂ req) n₂ (some proposal) n₃)
    -- consensus time does not go back
    (htime₀ : 0 ≤ ctx₁.blockTime) (htime : ctx₁.blockTime ≤ req.time) (htimemax : req.time < 2 ^ 63)
    -- the execution client and the encoder
    (hjson : A.json.Faithful)
    (hopt : ∀ head, n.store.head = some head → E₁.Builds E₂ head)
    (hfresh : ∀ head, n.store.head = some head → E₂.Builds E₂ head)
    -- the verifier
    {m : Node W} (hm : m.store = n.store) {ctx : Ctx} (hchain : ctx.chainID = ctx₂.chainID)
    (hheight : ctx.blockHeight = height + 1) (hctxtime : ctx.blockTime = req.time) :
    ∃ head payload, m.store.head = some head ∧
      PassesChecks A E₂ ctx m proposal.msg payload ∧
      minTimestamp head ≤ payload.timestamp ∧ payload.timestamp ≤ maxTimestamp ctx head := by
  obtain ⟨ws, id, i, fetched, m₁, m₂, hpeek, hchoose, hfetch, hmsg⟩ := prepareProposal_returns hprep
  have hstore₁ : n₁.store = n.store := by
    rcases postFinalize_returns hpost with rfl | ⟨_, _, _, _, rfl⟩ <;> rfl
  have hstore₂ : n₂.store = m.store := by rw [hstore, hstore₁, hm]
  rw [← hm] at hopt hfresh
  -- the payload was asked for by one of the two builds, with withdrawals peeked in the same stores
  obtain ⟨ws', appHash, time, head, p, hpeek', hhead, h0, hle, rfl, hbuilt⟩ :
      ∃ ws' appHash time head p,
        Returns (peekProposed A.keepers.codec) m.store.evmstaking ws' m.store.evmstaking ∧
        m.store.head = some head ∧ 0 ≤ time ∧ time ≤ req.time ∧ fetched = some p ∧
        BuiltFor head (attributesFor head P.validatorAddr ws' appHash time) p := by
    rcases choosePayload_returns hchoose with ⟨j, head, fcr, hhead, hfcr, hid⟩ | hmemory
    · rw [hstore₂] at hpeek hhead
      obtain ⟨p, hp, hbuilt⟩ := hfresh head hhead j _ fcr id i fetched hfcr hid hfetch
      exact ⟨ws, _, req.time, head, p, hpeek, hhead, by omega, le_rfl, hp, hbuilt⟩
    · rw [hmem] at hmemory
      rcases postFinalize_returns hpost with
        rfl | ⟨ws', id', hpeek', ⟨j, head, fcr, hhead, hfcr, hid⟩, rfl⟩
      · -- the id would be left over from a block below, which is for another height
        exfalso
        have hle := hup.height_le hpos.le (by omega)
        rw [hmemory, hreq, toNat_toUint64 (by omega) (by omega)] at hle
        omega
      · obtain rfl : id' = id := congrArg MutablePayload.id hmemory
        rw [← hm] at hpeek' hhead
        obtain ⟨p, hp, hbuilt⟩ := hopt head hhead j _ fcr id' i fetched hfcr hid hfetch
        exact ⟨ws', _, ctx₁.blockTime, head, p, hpeek', hhead, htime₀, htime, hp, hbuilt⟩
  obtain ⟨payload, hpasses, hwindow⟩ := passesChecks_of_built hjson hhead hpeek' hbuilt h0
    (by rw [hctxtime]; exact hle) (by rw [hctxtime]; exact htimemax) hmsg hchain
    (by rw [hheight, hheight₂])
  exact ⟨head, payload, hhead, hpasses, hwindow⟩

/-- The payload of the withdrawal of `localNode`, asked for at time 10. -/
def earlyAttributes : PayloadAttributes :=
  attributesFor ⟨0, 0, [7], 0⟩ localProposer.validatorAddr
    [EvmStaking.toEthWithdrawal Ledger.codec 0 ⟨1, "", 5, .unstake, ""⟩] (bytesToHash [1]) 10

def earlyPayload : ExecutableData := barePayload ⟨0, 0, [7], 0⟩ earlyAttributes

/-- An engine that builds it, and the node after it was asked to. -/
def earlyEngine : Engine := builderEngine ⟨0, 0, [7], 0⟩ earlyAttributes

def earlyNode : Node Ledger := { localNode with mutablePayload := ⟨Vector.replicate 8 1, 2⟩ }

/-- A codec that has a text for this payload only. -/
def earlyJson : Json where
  marshal := fun p => if p = some earlyPayload then .ok [1] else .error ⟨"no text", []⟩
  decodeStrict := fun b => if b = [1] then .ok () else .error ⟨"no payload", []⟩
  unmarshal := fun b => if b = [1] then .ok earlyPayload else .error ⟨"no payload", []⟩

theorem earlyJson_faithful : earlyJson.Faithful := by
  intro p b fee _ _ _ _ _ hmarshal
  by_cases hp : some p = some earlyPayload
  · have hb : Except.ok [1] = Except.ok b := (if_pos hp).symm.trans hmarshal
    obtain rfl := Except.ok.inj hb
    obtain rfl := Option.some.inj hp
    exact ⟨rfl, rfl⟩
  · cases (if_neg hp).symm.trans hmarshal

/-- A build started at time 10, after the first block, is proposed in the second block at time 12,
in the given form, and accepted. -/
def EarlyBuildAccepted (A : Wiring Ledger) (chainID : String) (terence : Bool) : Prop :=
  ∃ (E : Engine) (n₁ n₂ : Node Ledger) (proposal : Proposal) (payload : ExecutableData),
    Returns (postFinalize A localProposer E (.ok true) (blockOf chainID 1 10)) localNode () n₁ ∧
    n₁.mutablePayload.height = 2 ∧
    Returns (prepareProposal A localProposer E 1 (blockOf chainID 2 12) ⟨[], 1000, 1000, 2, 12⟩)
      n₁ (some proposal) n₂ ∧
    proposal.msg.executionPayload.isSome = !terence ∧
    proposal.msg.executionPayloadDeneb.isSome = terence ∧
    PassesChecks A E (blockOf chainID 2 12) localNode proposal.msg payload

/-- From Terence on the payload is proposed as protobuf, and before it as JSON. -/
theorem early_build_accepted :
    EarlyBuildAccepted (plainWiring Ledger.keepers) storyLocalnetID true ∧
      EarlyBuildAccepted { plainWiring Ledger.keepers with json := earlyJson } storyChainID
        false := by
  have hbuilds : ∀ hd, localNode.store.head = some hd → earlyEngine.Builds earlyEngine hd := by
    rintro _ ⟨⟩
    exact builderEngine_builds _ _
  have hup (A : Wiring Ledger) : UpSince A localProposer 1 localNode :=
    ⟨localNode, [], rfl, .nil, by simp⟩
  constructor
  · have hpost : Returns (postFinalize (plainWiring Ledger.keepers) localProposer
        earlyEngine (.ok true) (blockOf storyLocalnetID 1 10)) localNode () earlyNode := rfl
    have hprep : Returns (prepareProposal (plainWiring Ledger.keepers) localProposer earlyEngine 1
        (blockOf storyLocalnetID 2 12) ⟨[], 1000, 1000, 2, 12⟩)
        earlyNode (some ⟨_, []⟩) earlyNode := rfl
    have hjson : (plainWiring Ledger.keepers).json.Faithful := by
      intro p b _ _ _ _ _ _ hb
      cases hb
    obtain ⟨_, payload, _, hpasses, _⟩ := honest_proposal_accepted (by decide) (by decide) (hup _)
      rfl hpost rfl rfl rfl rfl hprep (by decide) (by decide) (by decide) hjson hbuilds hbuilds
      (m := localNode) rfl (show (blockOf storyLocalnetID 2 12).chainID = _ from rfl) rfl rfl
    exact ⟨_, _, _, _, payload, hpost, rfl, hprep, rfl, rfl, hpasses⟩
  · have hpost : Returns (postFinalize { plainWiring Ledger.keepers with json := earlyJson }
        localProposer earlyEngine (.ok true) (blockOf storyChainID 1 10))
        localNode () earlyNode := rfl
    have hprep : Returns (prepareProposal { plainWiring Ledger.keepers with json := earlyJson }
        localProposer earlyEngine 1 (blockOf storyChainID 2 12) ⟨[], 1000, 1000, 2, 12⟩) earlyNode
        (some ⟨_, []⟩) earlyNode := rfl
    obtain ⟨_, payload, _, hpasses, _⟩ := honest_proposal_accepted (by decide) (by decide) (hup _)
      rfl hpost rfl rfl rfl rfl hprep (by decide) (by decide) (by decide) earlyJson_faithful hbuilds
      hbuilds (m := localNode) rfl (show (blockOf storyChainID 2 12).chainID = _ from rfl) rfl rfl
    exact ⟨_, _, _, _, payload, hpost, rfl, hprep, rfl, rfl, hpasses⟩

end Story.EvmEngine
