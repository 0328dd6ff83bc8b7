/-
# Story.EvmEngine.Server -- checking a proposed payload, and finalizing it

`proposalServer.ExecutionPayload` votes on a payload: it compares the withdrawals
with the ones it peeks, pushes the payload to the execution client and compares the
events with its own view. `msgServer.ExecutionPayload` runs when the block is final:
it dequeues, pushes, moves the fork choice and delivers the events. Both start with
the same checks of the payload against the stored execution head.
-/
import Story.EvmEngine.Node

namespace Story.EvmEngine

open Story.Effect Story.Errors Story.Sdk Story.Eth Story.Netconf

variable {W : Type}

/-! ## The execution head -/

/-- `getExecutionHead`. -/
def getExecutionHead (head : Option ExecutionHead) : Except GoError ExecutionHead :=
  match head with
  | none => .error ((GoError.new "not found").wrap "get execution head")
  | some h => .ok h

def insertGenesisHead (executionBlockHash : Bytes) : Prog (Store W) Unit :=
  modify fun s => { s with head := some ⟨0, 0, executionBlockHash, 0⟩ }

/-- The head a payload becomes. -/
def headOf (ctx : Ctx) (payload : ExecutableData) : ExecutionHead where
  createdHeight := toUint64 ctx.blockHeight
  blockHeight := payload.number
  blockHash := bytesOf payload.blockHash
  blockTime := payload.timestamp

def updateExecutionHead (ctx : Ctx) (payload : ExecutableData) : Prog (Store W) Unit := do
  match (← get).head with
  | none => fail ((GoError.new "not found").wrap "update execution head")
  | some _ => modify fun s => { s with head := some (headOf ctx payload) }

theorem updateExecutionHead_returns {ctx : Ctx} {payload : ExecutableData} {s t : Store W}
    {u : Unit} (h : Returns (updateExecutionHead ctx payload) s u t) :
    t = { s with head := some (headOf ctx payload) } := by
  obtain ⟨s', _, hget, h⟩ := returns_bind.mp h
  obtain ⟨rfl, rfl⟩ := returns_get.mp hget
  split at h
  · exact absurd h returns_fail
  · exact (returns_modify.mp h).symm

/-! ## Checking a payload against the head -/

/-- The decoding part of `parseAndVerifyProposedPayload`. -/
def parsePayload (json : Json) (ctx : Ctx) (msg : MsgExecutionPayload) :
    Except GoError ExecutableData :=
  match isTerence ctx.chainID ctx.blockHeight with
  | .error err =>
      .error (err.wrap "failed to check if the Terence upgrade is activated or not")
  | .ok true =>
      if msg.executionPayload.isSome then .error (.new "legacy json payload not allowed")
      else
        match payloadFromProto msg.executionPayloadDeneb with
        | .error err => .error (err.wrap "unmarshal proto payload")
        | .ok payload => .ok payload
  | .ok false =>
      if msg.executionPayloadDeneb.isSome then .error (.new "proto payload not allowed")
      else
        match json.decodeStrict (msg.executionPayload.getD []) with
        | .error err =>
            .error
              (((GoError.ofSdk err).wrap "unmarshal payload").wrap "validate execution payload")
        | .ok _ =>
            match json.unmarshal (msg.executionPayload.getD []) with
            | .error err => .error ((GoError.ofSdk err).wrap "unmarshal payload")
            | .ok payload => .ok payload

/-- The window of time stamps a payload on top of `head` may have. -/
def minTimestamp (head : ExecutionHead) : UInt64 := head.blockTime + 1

def maxTimestamp (ctx : Ctx) (head : ExecutionHead) : UInt64 :=
  if toUint64 ctx.blockTime < minTimestamp head then minTimestamp head
  else toUint64 ctx.blockTime

/-- The checks of `parseAndVerifyProposedPayload` on a decoded payload. -/
def verifyPayload (ctx : Ctx) (head : ExecutionHead) (payload : ExecutableData) :
    Except GoError Unit :=
  if payload.number ≠ head.blockHeight + 1 then
    .error (.new "invalid proposed payload number")
  else if payload.parentHash ≠ head.hash then
    .error (.new "invalid proposed payload parent hash")
  else if payload.timestamp < minTimestamp head ∨ maxTimestamp ctx head < payload.timestamp then
    .error (.new "invalid payload timestamp")
  else if payload.random ≠ head.hash then
    .error (.new "invalid payload random")
  else if
      payload.withdrawals.isNone ∨ payload.blobGasUsed.isNone ∨ payload.excessBlobGas.isNone then
    .error (.new "the followings must not be nil")
  else if payload.executionWitness.isSome then
    .error (.new "witness not allowed in payload")
  else .ok ()

/-- `parseAndVerifyProposedPayload`: it reads nothing of the store but the head. -/
def parseAndVerifyProposedPayload (A : Wiring W) (ctx : Ctx) (head : Option ExecutionHead)
    (msg : MsgExecutionPayload) : Except GoError ExecutableData :=
  if msg.authority ≠ A.keepers.codec.moduleAddress moduleName then
    .error (.new "invalid authority")
  else
    match parsePayload A.json ctx msg with
    | .error err => .error err
    | .ok payload =>
        match getExecutionHead head with
        | .error err => .error (err.wrap "latest execution block")
        | .ok head =>
            match verifyPayload ctx head payload with
            | .error err => .error err
            | .ok _ => .ok payload

/-- From Terence on a proposal carries the payload in its protobuf form. -/
theorem parsePayload_proto {json : Json} {ctx : Ctx} {msg : MsgExecutionPayload}
    {p : ExecutionPayloadDeneb} (hterence : isTerence ctx.chainID ctx.blockHeight = .ok true)
    (hjson : msg.executionPayload = none) (hproto : msg.executionPayloadDeneb = some p)
    (hfee : p.baseFeePerGas.length = 32) :
    parsePayload json ctx msg = .ok p.toExecutableData := by
  simp [parsePayload, hterence, hjson, hproto, payloadFromProto, hfee]

/-- What the checks against the head ask of a payload. -/
structure FitsHead (ctx : Ctx) (head : ExecutionHead) (payload : ExecutableData) : Prop where
  number : payload.number = head.blockHeight + 1
  parentHash : payload.parentHash = head.hash
  min_timestamp : minTimestamp head ≤ payload.timestamp
  max_timestamp : payload.timestamp ≤ maxTimestamp ctx head
  random : payload.random = head.hash
  withdrawals : payload.withdrawals.isSome
  blobGasUsed : payload.blobGasUsed.isSome
  excessBlobGas : payload.excessBlobGas.isSome
  executionWitness : payload.executionWitness = none

theorem verifyPayload_of_fits {ctx : Ctx} {head : ExecutionHead} {payload : ExecutableData}
    (h : FitsHead ctx head payload) : verifyPayload ctx head payload = .ok () := by
  have hmin := UInt64.not_lt.mpr h.min_timestamp
  have hmax := UInt64.not_lt.mpr h.max_timestamp
  have hw := h.withdrawals
  have hb := h.blobGasUsed
  have he := h.excessBlobGas
  rw [verifyPayload, if_neg (not_not.mpr h.number), if_neg (not_not.mpr h.parentHash),
    if_neg (not_or.mpr ⟨hmin, hmax⟩), if_neg (not_not.mpr h.random), if_neg, if_neg]
  · simp [h.executionWitness]
  · simp [Option.isNone_iff_eq_none, Option.ne_none_iff_isSome.mpr hw,
      Option.ne_none_iff_isSome.mpr hb, Option.ne_none_iff_isSome.mpr he]

theorem fits_of_verifyPayload {ctx : Ctx} {head : ExecutionHead} {payload : ExecutableData}
    (h : verifyPayload ctx head payload = .ok ()) : FitsHead ctx head payload := by
  unfold verifyPayload at h
  split at h
  · cases h
  next hnumber =>
  split at h
  · cases h
  next hparent =>
  split at h
  · cases h
  next htime =>
  split at h
  · cases h
  next hrandom =>
  split at h
  · cases h
  next hnil =>
  split at h
  · cases h
  next hwitness =>
  obtain ⟨hmin, hmax⟩ := not_or.mp htime
  simp only [Option.isNone_iff_eq_none, not_or, ← ne_eq, Option.ne_none_iff_isSome] at hnil
  exact ⟨not_not.mp hnumber, not_not.mp hparent, UInt64.not_lt.mp hmin, UInt64.not_lt.mp hmax,
    not_not.mp hrandom, hnil.1, hnil.2.1, hnil.2.2, by simpa using hwitness⟩

/-- A payload that passes the checks fits the head that is stored. -/
theorem fits_of_parse {A : Wiring W} {ctx : Ctx} {head : Option ExecutionHead}
    {msg : MsgExecutionPayload} {payload : ExecutableData}
    (h : parseAndVerifyProposedPayload A ctx head msg = .ok payload) :
    ∃ hd, head = some hd ∧ FitsHead ctx hd payload := by
  unfold parseAndVerifyProposedPayload at h
  split at h
  · cases h
  split at h
  · cases h
  cases head with
  | none => cases h
  | some hd =>
      simp only [getExecutionHead] at h
      split at h
      · cases h
      next hverify =>
        obtain rfl := Except.ok.inj h
        exact ⟨hd, rfl, fits_of_verifyPayload hverify⟩

theorem parse_of_fits {A : Wiring W} {ctx : Ctx} {head : ExecutionHead}
    {msg : MsgExecutionPayload} {payload : ExecutableData}
    (hauth : msg.authority = A.keepers.codec.moduleAddress moduleName)
    (hparse : parsePayload A.json ctx msg = .ok payload) (hfits : FitsHead ctx head payload) :
    parseAndVerifyProposedPayload A ctx (some head) msg = .ok payload := by
  simp [parseAndVerifyProposedPayload, hauth, hparse, getExecutionHead,
    verifyPayload_of_fits hfits]

/-! ## Comparing withdrawals -/

/-- One loop of `compareWithdrawals`: `expected` against `actual` from position `pos` on. -/
def compareFrom {σ : Type} (actual : List (Option Eth.Withdrawal)) :
    (pos : Nat) → (expected : List Eth.Withdrawal) → Prog σ Unit
  | _, [] => pure ()
  | pos, e :: expected =>
      match actual[pos]? with
      | none => goPanic "index out of range"
      | some none => goPanic "invalid memory address or nil pointer dereference"
      | some (some a) =>
          if e.index ≠ a.index then fail (.new "invalid withdrawal index")
          else if e.validator ≠ a.validator then fail (.new "invalid withdrawal type")
          else if e.address ≠ a.address then fail (.new "invalid withdrawal address")
          else if e.amount ≠ a.amount then fail (.new "invalid withdrawal amount")
          else compareFrom actual (pos + 1) expected

def compareWithdrawals (codec : Codec) (actualWithdrawals : List (Option Eth.Withdrawal)) :
    Prog (EvmStaking.Store W) Unit := do
  let maxWithdrawals ← wrapErr "get max withdrawals per block" EvmStaking.maxWithdrawalPerBlock
  let expectedWithdrawals ← wrapErr "peek withdrawals"
    (EvmStaking.peekEligibleWithdrawals codec maxWithdrawals)
  if actualWithdrawals.length < expectedWithdrawals.length then
    fail (.new (s!"expected withdrawals {expectedWithdrawals.length} should not greater than "
      ++ s!"actual withdrawals {actualWithdrawals.length}"))
  else
    let maxRewardWithdrawals := maxWithdrawals - UInt32.ofNat expectedWithdrawals.length
    let expectedRewardWithdrawals ← wrapErr "peek reward withdrawals"
      (EvmStaking.peekEligibleRewardWithdrawals codec maxRewardWithdrawals)
    let expectedTotalWithdrawals := expectedWithdrawals.length + expectedRewardWithdrawals.length
    if expectedTotalWithdrawals ≠ actualWithdrawals.length then
      fail (.new (s!"expected total withdrawals {expectedTotalWithdrawals} should equal to "
        ++ s!"actual withdrawals {actualWithdrawals.length}"))
    else
      compareFrom actualWithdrawals 0 expectedWithdrawals
      compareFrom actualWithdrawals expectedWithdrawals.length expectedRewardWithdrawals

/-! ## The execution client -/

/-- The nil hash. -/
def emptyHash : Hash := Vector.replicate 32 0

def pushPayload {σ : Type} (E : Engine) (ctx : Ctx) (payload : ExecutableData) (i : Nat) :
    Prog σ PayloadStatus :=
  let appHash := bytesToHash ctx.appHash
  if appHash = emptyHash then fail (.new "app hash is empty")
  else wrapErr "new payload" (convert (E.newPayloadV3 i payload appHash))

instance readOnly_pushPayload {σ : Type} (E : Engine) (ctx : Ctx) (payload : ExecutableData)
    (i : Nat) : ReadOnly (pushPayload E ctx payload i : Prog σ PayloadStatus) :=
  ReadOnly.ite _ _ _

def isSyncing (status : PayloadStatus) : Bool :=
  status.status = .syncing || status.status = .accepted

def isInvalid (status : PayloadStatus) : Bool := status.status = .invalid

/-- The error `isInvalid` reports. -/
def errPayloadInvalid : GoError := .new "payload invalid"

def errExecEngSyncing : GoError := .new "execution engine is syncing"

/-! ## Events of the previous payload -/

/-- The event for a log of the execution layer. -/
def eventOfLog (l : Eth.Log) : EVMEvent where
  address := some (bytesOf l.address)
  topics := l.topics.map bytesOf
  data := l.data
  txHash := some (bytesOf l.txHash)

/-- The loop of `evmEvents` over the converted events. -/
def verifyEvents {σ : Type} (events : List (Option EVMEvent)) : Prog σ Unit :=
  events.forM fun ev => wrapErr "verify event" (ofExcept (EVMEvent.verify ev))

def evmEvents {σ : Type} (E : Engine) (fuel : Nat) (blockHash : Hash) :
    Prog σ (List (Option EVMEvent)) := do
  let logs ← wrapErr "filter logs"
    (retryForever (E.cancelled .filterLogs) (fun i =>
      match E.filterLogs i blockHash with
      | .error _ => pure none
      | .ok logs => pure (some logs)) fuel 0)
  let events := logs.map fun l => some (eventOfLog l)
  verifyEvents events
  pure events

def evmEventsEqual (a b : List (Option EVMEvent)) : Except GoError Unit :=
  if a.length ≠ b.length then .error (.new "count mismatch")
  else if (List.zipWith protoEqual a b).all id then .ok ()
  else .error (.new "log mismatch")

/-! ## Voting on a payload -/

/-- One attempt of `proposalServer.ExecutionPayload` to push the payload. -/
def verifyPush {σ : Type} (E : Engine) (ctx : Ctx) (payload : ExecutableData) (i : Nat) :
    Prog σ (Option Unit) := do
  match ← attempt (pushPayload E ctx payload i) with
  | .error _ => pure none
  | .ok status =>
      if isInvalid status then
        fail (errPayloadInvalid.wrap "invalid payload, rejecting proposal")
      else if isSyncing status then
        fail errExecEngSyncing
      else
        pure (some ())

/-- `proposalServer.ExecutionPayload`. -/
def proposalExecutionPayload (A : Wiring W) (E : Engine) (fuel : Nat) (ctx : Ctx)
    (msg : MsgExecutionPayload) : Prog (Node W) Unit := do
  let node ← get
  if node.isExecEngSyncing then
    fail errExecEngSyncing
  else
    let payload ← wrapErr "parse and verify payload"
      (ofExcept (parseAndVerifyProposedPayload A ctx node.store.head msg))
    wrapErr "compare local and received withdrawals"
      (zoom evmstakingLens
        (compareWithdrawals A.keepers.codec (payload.withdrawals.getD [])))
    retryForever (E.cancelled .newPayload) (verifyPush E ctx payload) fuel 0
    let events ← wrapErr "prepare evm event logs" (evmEvents E fuel payload.parentHash)
    wrapErr "verify prev payload events" (ofExcept (evmEventsEqual events msg.prevPayloadEvents))

/-! ## Finalizing a payload -/

/-- What a finalized payload took out of the two queues. -/
structure Dequeued where
  withdrawals : List Eth.Withdrawal
  rewardWithdrawals : List Eth.Withdrawal
  deriving DecidableEq

/-- The dequeuing part of `msgServer.ExecutionPayload`, with its checks against the
`proposed` number of withdrawals. -/
def dequeueProposed (codec : Codec) (proposed : Nat) :
    Prog (EvmStaking.Store W) Dequeued := do
  let maxWithdrawals ← wrapErr "error getting max withdrawal per block"
    EvmStaking.maxWithdrawalPerBlock
  let ws ← wrapErr "error on withdrawals dequeue"
    (EvmStaking.dequeueEligibleWithdrawals codec maxWithdrawals)
  if proposed < ws.length then
    fail (.new (s!"dequeued withdrawals {ws.length} should not greater than "
      ++ s!"proposed withdrawals {proposed}"))
  else
    let maxRewardWithdrawals := maxWithdrawals - UInt32.ofNat ws.length
    let rws ← wrapErr "error on reward withdrawals dequeue"
      (EvmStaking.dequeueEligibleRewardWithdrawals codec maxRewardWithdrawals)
    let totalWithdrawals := ws.length + rws.length
    if totalWithdrawals ≠ proposed then
      fail (.new (s!"dequeued total withdrawals {totalWithdrawals} should equal to "
        ++ s!"proposed withdrawals {proposed}"))
    else
      pure ⟨ws, rws⟩

/-- One attempt of `msgServer.ExecutionPayload` to push the payload. -/
def finalizePush (E : Engine) (ctx : Ctx) (payload : ExecutableData) (i : Nat) :
    Prog (Node W) (Option Unit) := do
  match ← attempt (pushPayload E ctx payload i) with
  | .error _ => pure none
  | .ok status =>
      if isInvalid status then
        fail errPayloadInvalid
      else do
        let node ← get
        onlyIf (isSyncing status) (modify fun n => { n with isExecEngSyncing := true })
        onlyIf (¬ isSyncing status ∧ node.isExecEngSyncing)
          (modify fun n => { n with isExecEngSyncing := false })
        pure (some ())

/-- One attempt of `msgServer.ExecutionPayload` to move the fork choice. -/
def finalizeForkchoice {σ : Type} (E : Engine) (payload : ExecutableData) (i : Nat) :
    Prog σ (Option Unit) :=
  let fcs : ForkchoiceState := ⟨payload.blockHash, payload.blockHash, payload.blockHash⟩
  match E.forkchoiceUpdatedV3 i fcs none with
  | .error _ => pure none
  | .ok fcr =>
      if isSyncing fcr.payloadStatus then pure (some ())
      else if isInvalid fcr.payloadStatus then fail errPayloadInvalid
      else pure (some ())

instance readOnly_finalizeForkchoice {σ : Type} (E : Engine) (payload : ExecutableData)
    (i : Nat) : ReadOnly (finalizeForkchoice E payload i : Prog σ (Option Unit)) := by
  unfold finalizeForkchoice
  dsimp only
  split <;> infer_instance

/-- The three dispatchers over the events of the previous payload. -/
def deliverEvents (A : Wiring W) (ctx : Ctx) (logs : List (Option EVMEvent)) :
    Prog (Node W) Unit := do
  wrapErr "deliver staking-related event logs" (zoom accountsLens
    (EvmStaking.processStakingEvents A.keepers A.stakingContract ctx logs))
  wrapErr "deliver upgrade-related event logs" (zoom upgradeLens
    (processUpgradeEvents A.keepers A.upgradeContract ctx logs))
  wrapErr "deliver ubi-related event logs" (zoom sdkLens
    (processUBIEvents A.keepers A.ubiContract ctx logs))

/-- The part of `msgServer.ExecutionPayload` behind the dequeuing. -/
def applyPayload (A : Wiring W) (E : Engine) (fuel : Nat) (ctx : Ctx)
    (logs : List (Option EVMEvent)) (payload : ExecutableData) : Prog (Node W) Unit := do
  retryForever (E.cancelled .newPayload) (finalizePush E ctx payload) fuel 0
  retryForever (E.cancelled .forkchoice) (finalizeForkchoice E payload) fuel 0
  deliverEvents A ctx logs
  wrapErr "update execution head" (zoom storeLens (updateExecutionHead ctx payload))

/-- `msgServer.ExecutionPayload`. The source answers with an empty response; here the
withdrawals it took out of the queues are handed back, so that they can be spoken of. -/
def msgExecutionPayload (A : Wiring W) (E : Engine) (fuel : Nat) (ctx : Ctx)
    (msg : MsgExecutionPayload) : Prog (Node W) Dequeued := do
  if ctx.execMode ≠ .finalize then
    fail (.new "only allowed in finalize mode")
  else
    let node ← get
    let payload ← ofExcept (parseAndVerifyProposedPayload A ctx node.store.head msg)
    let dequeued ← zoom evmstakingLens
      (dequeueProposed A.keepers.codec (payload.withdrawals.getD []).length)
    applyPayload A E fuel ctx msg.prevPayloadEvents payload
    pure dequeued

end Story.EvmEngine
