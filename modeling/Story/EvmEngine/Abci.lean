/-
# Story.EvmEngine.Abci -- proposing a block

`PrepareProposal` asks the execution client for a payload and wraps it into a message.
When this node expects to propose the next block, `PostFinalize` has started the build
already, with the time and the state of the block that was just finalized, and keeps
the payload id in memory for that one height.
-/
import Story.EvmEngine.Server

namespace Story.EvmEngine

open Story.Effect Story.Errors Story.Sdk Story.Eth Story.Netconf

variable {W : Type}

/-! ## Requests -/

/-- The fields of the keeper that proposing reads, and its transaction encoder. -/
structure Proposer where
  validatorAddr : Address
  buildOptimistic : Bool
  /-- `SetMsgs` of a transaction builder. -/
  setMsgs : MsgExecutionPayload → Except SdkError Unit
  /-- The transaction encoder, on the transaction with this one message. -/
  encodeTx : MsgExecutionPayload → Except SdkError Bytes

/-- `abci.RequestPrepareProposal`, with `Block.MaxBytes` of the consensus parameters. -/
structure PrepareRequest where
  txs : List Bytes
  maxTxBytes : Int
  consensusMaxBytes : Int
  height : Int
  /-- `Time.Unix()`. -/
  time : Int

/-- The only transaction of a proposal, and the message in it. -/
structure Proposal where
  msg : MsgExecutionPayload
  tx : Bytes

/-- `cmttypes.MaxBlockSizeBytes`. -/
def maxBlockSizeBytes : Int := 104857600

/-- The size limit of a block: `-1` in the consensus parameters stands for the largest. -/
def PrepareRequest.maxBytes (req : PrepareRequest) : Int :=
  if req.consensusMaxBytes = -1 then maxBlockSizeBytes else req.consensusMaxBytes

/-! ## Starting a build -/

/-- The time stamp `startBuild` asks for: the given time, or the next one after the head. -/
def buildTimestamp (head : ExecutionHead) (timestamp : Int) : UInt64 :=
  if toUint64 timestamp ≤ head.blockTime then head.blockTime + 1 else toUint64 timestamp

/-- The head block is final: it is head, safe and finalized block at once. -/
def forkchoiceOf (head : ExecutionHead) : ForkchoiceState := ⟨head.hash, head.hash, head.hash⟩

/-- The attributes `startBuild` asks for. The hash of the head serves as randao. -/
def attributesFor (head : ExecutionHead) (feeRecipient : Address)
    (withdrawals : List Eth.Withdrawal) (appHash : Hash) (timestamp : Int) :
    PayloadAttributes where
  timestamp := buildTimestamp head timestamp
  random := head.hash
  suggestedFeeRecipient := feeRecipient
  withdrawals := withdrawals
  beaconRoot := some appHash

/-- `startBuild`, as the `i`-th attempt of its loop. -/
def startBuild {σ : Type} (E : Engine) (i : Nat) (head : Option ExecutionHead)
    (feeRecipient : Address) (withdrawals : List Eth.Withdrawal) (appHash : Hash)
    (timestamp : Int) : Prog σ ForkChoiceResponse := do
  let head ← wrapErr "latest execution block" (ofExcept (getExecutionHead head))
  wrapErr "forkchoice update" (convert (E.forkchoiceUpdatedV3 i (forkchoiceOf head)
    (some (attributesFor head feeRecipient withdrawals appHash timestamp))))

/-- The withdrawals of the next payload, read off the queues. -/
def peekProposed (codec : Codec) : Prog (EvmStaking.Store W) (List Eth.Withdrawal) := do
  let maxWithdrawals ← wrapErr "get max withdrawal per block" EvmStaking.maxWithdrawalPerBlock
  let withdrawals ← wrapErr "error on withdrawals dequeue"
    (EvmStaking.peekEligibleWithdrawals codec maxWithdrawals)
  let maxRewardWithdrawals := maxWithdrawals - UInt32.ofNat withdrawals.length
  let rewardWithdrawals ← wrapErr "error on reward withdrawals dequeue"
    (EvmStaking.peekEligibleRewardWithdrawals codec maxRewardWithdrawals)
  pure (withdrawals ++ rewardWithdrawals)

/-! ## PostFinalize -/

/-- `PostFinalize`, with the answer of `isNextProposer`. Whatever goes wrong is logged. -/
def postFinalize (A : Wiring W) (P : Proposer) (E : Engine) (isNext : Except SdkError Bool)
    (ctx : Ctx) : Prog (Node W) Unit := do
  let node ← get
  if !P.buildOptimistic then pure ()
  else if node.isExecEngSyncing then pure ()
  else
    match isNext with
    | .error _ => pure ()
    | .ok false => pure ()
    | .ok true =>
        match ← attempt (zoom evmstakingLens (peekProposed A.keepers.codec)) with
        | .error _ => pure ()
        | .ok withdrawals =>
            match ← attempt (startBuild E 0 node.store.head P.validatorAddr withdrawals
                (bytesToHash ctx.appHash) ctx.blockTime) with
            | .error _ => pure ()
            | .ok fcr =>
                if isSyncing fcr.payloadStatus then pure ()
                else if isInvalid fcr.payloadStatus then pure ()
                else
                  match fcr.payloadID with
                  | none => pure ()
                  | some payloadID =>
                      modify fun n =>
                        { n with mutablePayload := ⟨payloadID, toUint64 (ctx.blockHeight + 1)⟩ }

/-! ## PrepareProposal -/

/-- One attempt of `PrepareProposal` to start a build. -/
def buildAttempt {σ : Type} (E : Engine) (head : Option ExecutionHead) (feeRecipient : Address)
    (withdrawals : List Eth.Withdrawal) (appHash : Hash) (timestamp : Int) (i : Nat) :
    Prog σ (Option PayloadID) := do
  match ← attempt (startBuild E i head feeRecipient withdrawals appHash timestamp) with
  | .error _ => pure none
  | .ok fcr =>
      if isSyncing fcr.payloadStatus then fail (.new "evm unexpectedly syncing")
      else if isInvalid fcr.payloadStatus then
        fail (errPayloadInvalid.wrap "proposed invalid payload")
      else
        match fcr.payloadID with
        | none => fail (.new "missing payload ID [BUG]")
        | some payloadID => pure (some payloadID)

/-- `isUnknownPayload`: the text of `engine.UnknownPayload` occurs in the error. -/
def isUnknownPayload (err : SdkError) : Bool :=
  decide ("unknown payload".toList <:+: err.msg.toLower.toList)

/-- One attempt of `PrepareProposal` to fetch the payload. -/
def fetchAttempt {σ : Type} (E : Engine) (payloadID : PayloadID) (i : Nat) :
    Prog σ (Option (Option ExecutableData)) :=
  match E.getPayloadV3 i payloadID with
  | .error err => if isUnknownPayload err then fail (.ofSdk err) else pure none
  | .ok payload => pure (some payload)

/-- The payload id to fetch: the optimistic one, when it is for the requested height. -/
def choosePayload (P : Proposer) (E : Engine) (fuel : Nat) (ctx : Ctx) (req : PrepareRequest)
    (withdrawals : List Eth.Withdrawal) : Prog (Node W) PayloadID := do
  let node ← get
  if toUint64 req.height ≠ node.mutablePayload.height then
    retryForever (E.cancelled .startBuild)
      (buildAttempt E node.store.head P.validatorAddr withdrawals (bytesToHash ctx.appHash)
        req.time) fuel 0
  else
    pure node.mutablePayload.id

/-- The two forms of a payload in a message: JSON before Terence, protobuf from it on. -/
def encodePayload {σ : Type} (json : Json) (isTerence : Bool) (payload : Option ExecutableData) :
    Prog σ (Option Bytes × Option ExecutionPayloadDeneb) :=
  if isTerence then do
    let payloadProto ← wrapErr "failed to convert execution payload to proto message"
      (payloadToProto payload)
    pure (none, some payloadProto)
  else do
    let payloadData ← wrapErr "failed to json marshal execution payload"
      (convert (json.marshal payload))
    pure (some payloadData, none)

/-- The message `PrepareProposal` puts a payload into. -/
def proposalMsg {σ : Type} (A : Wiring W) (E : Engine) (fuel : Nat) (ctx : Ctx)
    (payload : Option ExecutableData) : Prog σ MsgExecutionPayload := do
  let isTerence ← wrapErr "failed to check if the Terence upgrade is activated or not"
    (ofExcept (isTerence ctx.chainID ctx.blockHeight))
  let (payloadData, payloadProto) ← encodePayload A.json isTerence payload
  match payload with
  | none => goPanic "invalid memory address or nil pointer dereference"
  | some payload => do
      let events ← wrapErr "prepare evm event logs" (evmEvents E fuel payload.parentHash)
      pure
        { authority := A.keepers.codec.moduleAddress moduleName
          executionPayload := payloadData
          prevPayloadEvents := events
          executionPayloadDeneb := payloadProto }

/-- `PrepareProposal`. The first block is proposed empty. -/
def prepareProposal (A : Wiring W) (P : Proposer) (E : Engine) (fuel : Nat) (ctx : Ctx)
    (req : PrepareRequest) : Prog (Node W) (Option Proposal) := do
  let node ← get
  if node.isExecEngSyncing then fail errExecEngSyncing
  else if 0 < req.txs.length then fail (.new "unexpected transactions in proposal")
  else if req.maxTxBytes < (req.maxBytes * 9).tdiv 10 then fail (.new "invalid max tx bytes [BUG]")
  else if req.height = 1 then pure none
  else
    let withdrawals ← zoom evmstakingLens (peekProposed A.keepers.codec)
    let payloadID ← choosePayload P E fuel ctx req withdrawals
    onlyIf (E.cancelled .buildDelay 0) (fail (errContextCanceled.wrap "context done"))
    let payload ← retryForever (E.cancelled .getPayload) (fetchAttempt E payloadID) fuel 0
    let msg ← proposalMsg A E fuel ctx payload
    wrapErr "set tx builder msgs" (convert (P.setMsgs msg))
    let tx ← wrapErr "encode tx builder" (convert (P.encodeTx msg))
    if req.maxTxBytes < tx.length then fail (.new "tx size exceeds the max bytes of tx")
    else pure (some ⟨msg, tx⟩)

end Story.EvmEngine
