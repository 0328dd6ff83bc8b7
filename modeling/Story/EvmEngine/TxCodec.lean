/-
# Story.EvmEngine.TxCodec -- the bytes of a payload message

A proposal is the bytes of one transaction, and a payload message travels in them in the
encoding of `types/tx.pb.go`. The message holds events, and from the Terence upgrade on a
payload with withdrawals of its own, so there are four codecs, each with a `Size`, a
`MarshalToSizedBuffer` that fills a slice of that size from its end, and an `Unmarshal`.

Three things have to fit for a message to come back: the size, down to the bytes of every
length in front of a field, or the slice is cut in the wrong place; the tags; and the cases of
the readers. What does not survive is the difference between a nil and an empty slice. A nil
event, which the Go type has room for, is a panic of the writer; no reader returns one.
-/
import Story.EvmEngine.Server
import Story.Proto.Writer

namespace Story.EvmEngine

open Story.Effect Story.Errors Story.Eth Story.Sdk Story.Proto Story.Proto.Writer

/-! ## Custom types -/

/-- `Address.Unmarshal` and `Hash.Unmarshal` of `types/customproto.go`. -/
def unmarshalFixed (n : Nat) (msg : String) (bs : Bytes) : Except WireError (Vector UInt8 n) :=
  if bs.length ≠ n then .error (.other msg) else .ok (bytesToFixed n bs)

def unmarshalAddress : Bytes → Except WireError Address :=
  unmarshalFixed 20 "invalid address length"

def unmarshalHash : Bytes → Except WireError Hash := unmarshalFixed 32 "invalid hash length"

theorem unmarshalFixed_bytesOf {n : Nat} (msg : String) (v : Vector UInt8 n) :
    unmarshalFixed n msg (bytesOf v) = .ok v := by
  rw [unmarshalFixed, if_neg (by simp), bytesToFixed_bytesOf]

/-! ## Withdrawals -/

namespace WithdrawalEVM

def size (m : WithdrawalEVM) : Nat :=
  (if m.index ≠ 0 then 1 + sov m.index else 0) +
  (if m.validatorIndex ≠ 0 then 1 + sov m.validatorIndex else 0) +
  (1 + 20 + sov 20) +
  (if m.amount ≠ 0 then 1 + sov m.amount else 0)

def marshalToSizedBuffer (m : WithdrawalEVM) : Writer Unit := do
  optVarint [0x20] m.amount
  putBytes [0x1a] (bytesOf m.address)
  optVarint [0x10] m.validatorIndex
  optVarint [0x8] m.index

def schema : Schema WithdrawalEVM where
  name := "WithdrawalEVM"
  fields := [
    ⟨1, "Index", .varint fun v m => { m with index := v }⟩,
    ⟨2, "ValidatorIndex", .varint fun v m => { m with validatorIndex := v }⟩,
    ⟨3, "Address", .parsed unmarshalAddress fun a m => { m with address := a }⟩,
    ⟨4, "Amount", .varint fun v m => { m with amount := v }⟩]

/-- `WithdrawalEVM{}`. -/
def zero : WithdrawalEVM := ⟨0, 0, zeroAddress, 0⟩

def unmarshal (bs : Bytes) : Except WireError WithdrawalEVM := schema.unmarshal zero bs

/-- The fields that are written, in the order of the message. -/
def encode (m : WithdrawalEVM) : Bytes :=
  optVarintField 1 m.index ++ optVarintField 2 m.validatorIndex ++
  bytesField 3 (bytesOf m.address) ++ optVarintField 4 m.amount

theorem writes_encode (m : WithdrawalEVM) : Writes m.marshalToSizedBuffer m.encode :=
  (writes_optVarint 4 _ rfl).bind <| (writes_putBytes 3 _ rfl).bind <|
    (writes_optVarint 2 _ rfl).bind (writes_optVarint 1 _ rfl)

theorem length_encode (m : WithdrawalEVM) : m.encode.length = m.size := by
  simp only [encode, List.length_append, length_optVarintField, length_bytesField, length_bytesOf]
  rfl

theorem reads_encode (m : WithdrawalEVM) : schema.Reads zero m.encode m := by
  exact .append (.append (.append (.optVarintField 1 m.index (by decide) rfl rfl rfl)
    (.optVarintField 2 m.validatorIndex (by decide) rfl rfl rfl))
    (.parsedField 3 (by decide) rfl (unmarshalFixed_bytesOf _ m.address) rfl))
    (.optVarintField 4 m.amount (by decide) rfl rfl rfl)

end WithdrawalEVM

/-! ## Events -/

/-- What a slice comes back as: an empty one is nil. -/
def nilIfEmpty {α : Type} (x : Option (List α)) : Option (List α) :=
  match x.getD [] with
  | [] => none
  | y :: ys => some (y :: ys)

theorem nilIfEmpty_of_eq_nil {α : Type} {x : Option (List α)} (h : x.getD [] = []) :
    nilIfEmpty x = none := by
  rw [nilIfEmpty, h]

theorem nilIfEmpty_of_ne_nil {α : Type} {x : Option (List α)} (h : x.getD [] ≠ []) :
    nilIfEmpty x = some (x.getD []) := by
  rw [nilIfEmpty]
  cases hx : x.getD [] with
  | nil => exact absurd hx h
  | cons y ys => rfl

theorem getD_nilIfEmpty {α : Type} (x : Option (List α)) :
    (nilIfEmpty x).getD [] = x.getD [] := by
  by_cases h : x.getD [] = []
  · rw [nilIfEmpty_of_eq_nil h, h]
    rfl
  · rw [nilIfEmpty_of_ne_nil h]
    rfl

namespace EVMEvent

/-- `Size`, on a possibly nil event. -/
def size : Option EVMEvent → Nat
  | none => 0
  | some m =>
      (if 0 < (m.address.getD []).length then
        1 + (m.address.getD []).length + sov (UInt64.ofNat (m.address.getD []).length) else 0) +
      (m.topics.map fun b => 1 + b.length + sov (UInt64.ofNat b.length)).sum +
      (if 0 < m.data.length then 1 + m.data.length + sov (UInt64.ofNat m.data.length) else 0) +
      (if 0 < (m.txHash.getD []).length then
        1 + (m.txHash.getD []).length + sov (UInt64.ofNat (m.txHash.getD []).length) else 0)

/-- `MarshalToSizedBuffer`, on a possibly nil event. -/
def marshalToSizedBuffer : Option EVMEvent → Writer Unit
  | none => throw "runtime error: invalid memory address or nil pointer dereference"
  | some m => do
      optBytes [0x22] (m.txHash.getD [])
      optBytes [0x1a] m.data
      eachReverse (putBytes [0x12]) m.topics
      optBytes [0xa] (m.address.getD [])

def schema : Schema EVMEvent where
  name := "EVMEvent"
  fields := [
    ⟨1, "Address", .plain fun bs m => { m with address := some bs }⟩,
    ⟨2, "Topics", .plain fun bs m => { m with topics := m.topics ++ [bs] }⟩,
    ⟨3, "Data", .plain fun bs m => { m with data := bs }⟩,
    ⟨4, "TxHash", .plain fun bs m => { m with txHash := some bs }⟩]

/-- `EVMEvent{}`. -/
def zero : EVMEvent := ⟨none, [], [], none⟩

def unmarshal (bs : Bytes) : Except WireError EVMEvent := schema.unmarshal zero bs

def encode (m : EVMEvent) : Bytes :=
  optBytesField 1 (m.address.getD []) ++ m.topics.flatMap (bytesField 2) ++
  optBytesField 3 m.data ++ optBytesField 4 (m.txHash.getD [])

/-- The event that comes back. -/
def normal (m : EVMEvent) : EVMEvent :=
  { m with address := nilIfEmpty m.address, txHash := nilIfEmpty m.txHash }

theorem writes_encode (m : EVMEvent) : Writes (marshalToSizedBuffer (some m)) m.encode :=
  (writes_optBytes 4 _ rfl).bind <| (writes_optBytes 3 _ rfl).bind <|
    (Writes.eachReverse fun b _ => writes_putBytes 2 b rfl).bind (writes_optBytes 1 _ rfl)

theorem length_encode (m : EVMEvent) : m.encode.length = size (some m) := by
  simp only [encode, List.length_append, length_optBytesField, List.length_flatMap,
    length_bytesField]
  rfl

theorem reads_encode (m : EVMEvent) : schema.Reads zero m.encode m.normal := by
  have haddress : schema.Reads zero (optBytesField 1 (m.address.getD []))
      { zero with address := nilIfEmpty m.address } := by
    refine .optBytesField_of 1 (by decide) rfl (fun h => ?_) fun h => ?_
    · rw [nilIfEmpty_of_eq_nil h]
      rfl
    · rw [nilIfEmpty_of_ne_nil h]
  have htopics : schema.Reads { zero with address := nilIfEmpty m.address }
      (m.topics.flatMap (bytesField 2))
      { zero with address := nilIfEmpty m.address, topics := m.topics } := by
    by_cases hne : m.topics = []
    · rw [hne]
      exact .nil _
    · exact .repeated topics (fun xs m => { m with topics := xs }) (fun _ _ => rfl)
        (fun _ _ _ => rfl) (fun b _ m => .parsedField 2 (by decide) rfl rfl rfl) hne
  have htxHash : schema.Reads { m.normal with txHash := none } (optBytesField 4 (m.txHash.getD []))
      m.normal := by
    refine .optBytesField_of 4 (by decide) rfl (fun h => ?_) fun h => ?_
    · rw [normal, nilIfEmpty_of_eq_nil h]
    · rw [normal, nilIfEmpty_of_ne_nil h]
  exact ((haddress.append htopics).append (.optBytesField 3 m.data (by decide) rfl rfl rfl)).append
    htxHash

end EVMEvent

/-! ## Payloads -/

namespace ExecutionPayloadDeneb

def size (m : ExecutionPayloadDeneb) : Nat :=
  (1 + 32 + sov 32) + (1 + 20 + sov 20) + (1 + 32 + sov 32) + (1 + 32 + sov 32) +
  (if 0 < m.logsBloom.length then
    1 + m.logsBloom.length + sov (UInt64.ofNat m.logsBloom.length) else 0) +
  (1 + 32 + sov 32) +
  (if m.blockNumber ≠ 0 then 1 + sov m.blockNumber else 0) +
  (if m.gasLimit ≠ 0 then 1 + sov m.gasLimit else 0) +
  (if m.gasUsed ≠ 0 then 1 + sov m.gasUsed else 0) +
  (if m.timestamp ≠ 0 then 1 + sov m.timestamp else 0) +
  (if 0 < m.extraData.length then
    1 + m.extraData.length + sov (UInt64.ofNat m.extraData.length) else 0) +
  (if 0 < m.baseFeePerGas.length then
    1 + m.baseFeePerGas.length + sov (UInt64.ofNat m.baseFeePerGas.length) else 0) +
  (1 + 32 + sov 32) +
  ((m.transactions.getD []).map fun b => 1 + b.length + sov (UInt64.ofNat b.length)).sum +
  (m.withdrawals.map fun e => 1 + e.size + sov (UInt64.ofNat e.size)).sum +
  (if m.blobGasUsed ≠ 0 then 2 + sov m.blobGasUsed else 0) +
  (if m.excessBlobGas ≠ 0 then 2 + sov m.excessBlobGas else 0)

def marshalToSizedBuffer (m : ExecutionPayloadDeneb) : Writer Unit := do
  optVarint [0x88, 0x1] m.excessBlobGas
  optVarint [0x80, 0x1] m.blobGasUsed
  eachReverse (fun w => putMessage [0x7a] w.marshalToSizedBuffer) m.withdrawals
  eachReverse (putBytes [0x72]) (m.transactions.getD [])
  putBytes [0x6a] (bytesOf m.blockHash)
  optBytes [0x62] m.baseFeePerGas
  optBytes [0x5a] m.extraData
  optVarint [0x50] m.timestamp
  optVarint [0x48] m.gasUsed
  optVarint [0x40] m.gasLimit
  optVarint [0x38] m.blockNumber
  putBytes [0x32] (bytesOf m.prevRandao)
  optBytes [0x2a] m.logsBloom
  putBytes [0x22] (bytesOf m.receiptsRoot)
  putBytes [0x1a] (bytesOf m.stateRoot)
  putBytes [0x12] (bytesOf m.feeRecipient)
  putBytes [0xa] (bytesOf m.parentHash)

def schema : Schema ExecutionPayloadDeneb where
  name := "ExecutionPayloadDeneb"
  fields := [
    ⟨1, "ParentHash", .parsed unmarshalHash fun h m => { m with parentHash := h }⟩,
    ⟨2, "FeeRecipient", .parsed unmarshalAddress fun a m => { m with feeRecipient := a }⟩,
    ⟨3, "StateRoot", .parsed unmarshalHash fun h m => { m with stateRoot := h }⟩,
    ⟨4, "ReceiptsRoot", .parsed unmarshalHash fun h m => { m with receiptsRoot := h }⟩,
    ⟨5, "LogsBloom", .plain fun bs m => { m with logsBloom := bs }⟩,
    ⟨6, "PrevRandao", .parsed unmarshalHash fun h m => { m with prevRandao := h }⟩,
    ⟨7, "BlockNumber", .varint fun v m => { m with blockNumber := v }⟩,
    ⟨8, "GasLimit", .varint fun v m => { m with gasLimit := v }⟩,
    ⟨9, "GasUsed", .varint fun v m => { m with gasUsed := v }⟩,
    ⟨10, "Timestamp", .varint fun v m => { m with timestamp := v }⟩,
    ⟨11, "ExtraData", .plain fun bs m => { m with extraData := bs }⟩,
    ⟨12, "BaseFeePerGas", .plain fun bs m => { m with baseFeePerGas := bs }⟩,
    ⟨13, "BlockHash", .parsed unmarshalHash fun h m => { m with blockHash := h }⟩,
    ⟨14, "Transactions", .plain fun bs m =>
      { m with transactions := some (m.transactions.getD [] ++ [bs]) }⟩,
    ⟨15, "Withdrawals", .parsed WithdrawalEVM.unmarshal fun w m =>
      { m with withdrawals := m.withdrawals ++ [w] }⟩,
    ⟨16, "BlobGasUsed", .varint fun v m => { m with blobGasUsed := v }⟩,
    ⟨17, "ExcessBlobGas", .varint fun v m => { m with excessBlobGas := v }⟩]

/-- `ExecutionPayloadDeneb{}`. -/
def zero : ExecutionPayloadDeneb where
  parentHash := bytesToHash []
  feeRecipient := zeroAddress
  stateRoot := bytesToHash []
  receiptsRoot := bytesToHash []
  logsBloom := []
  prevRandao := bytesToHash []
  blockNumber := 0
  gasLimit := 0
  gasUsed := 0
  timestamp := 0
  extraData := []
  baseFeePerGas := []
  blockHash := bytesToHash []
  transactions := none
  withdrawals := []
  blobGasUsed := 0
  excessBlobGas := 0

def encode (m : ExecutionPayloadDeneb) : Bytes :=
  bytesField 1 (bytesOf m.parentHash) ++ bytesField 2 (bytesOf m.feeRecipient) ++
  bytesField 3 (bytesOf m.stateRoot) ++ bytesField 4 (bytesOf m.receiptsRoot) ++
  optBytesField 5 m.logsBloom ++ bytesField 6 (bytesOf m.prevRandao) ++
  optVarintField 7 m.blockNumber ++ optVarintField 8 m.gasLimit ++ optVarintField 9 m.gasUsed ++
  optVarintField 10 m.timestamp ++ optBytesField 11 m.extraData ++
  optBytesField 12 m.baseFeePerGas ++ bytesField 13 (bytesOf m.blockHash) ++
  (m.transactions.getD []).flatMap (bytesField 14) ++
  m.withdrawals.flatMap (fun w => bytesField 15 w.encode) ++
  optVarintField 16 m.blobGasUsed ++ optVarintField 17 m.excessBlobGas

/-- The payload that comes back. -/
def normal (m : ExecutionPayloadDeneb) : ExecutionPayloadDeneb :=
  { m with transactions := nilIfEmpty m.transactions }

theorem writes_encode (m : ExecutionPayloadDeneb) : Writes m.marshalToSizedBuffer m.encode :=
  (writes_optVarint 17 _ rfl).bind <| (writes_optVarint 16 _ rfl).bind <|
    (Writes.eachReverse fun w _ => w.writes_encode.putMessage 15 rfl).bind <|
    (Writes.eachReverse fun b _ => writes_putBytes 14 b rfl).bind <|
    (writes_putBytes 13 _ rfl).bind <| (writes_optBytes 12 _ rfl).bind <|
    (writes_optBytes 11 _ rfl).bind <| (writes_optVarint 10 _ rfl).bind <|
    (writes_optVarint 9 _ rfl).bind <| (writes_optVarint 8 _ rfl).bind <|
    (writes_optVarint 7 _ rfl).bind <| (writes_putBytes 6 _ rfl).bind <|
    (writes_optBytes 5 _ rfl).bind <| (writes_putBytes 4 _ rfl).bind <|
    (writes_putBytes 3 _ rfl).bind <| (writes_putBytes 2 _ rfl).bind (writes_putBytes 1 _ rfl)

theorem length_encode (m : ExecutionPayloadDeneb) : m.encode.length = m.size := by
  simp only [encode, List.length_append, length_optBytesField, length_optVarintField,
    List.length_flatMap, length_bytesField, length_bytesOf, WithdrawalEVM.length_encode]
  rfl

theorem reads_transactions (m : ExecutionPayloadDeneb) (hm : m.transactions = none)
    (txs : Option (List Bytes)) :
    schema.Reads m ((txs.getD []).flatMap (bytesField 14))
      { m with transactions := nilIfEmpty txs } := by
  by_cases hne : txs.getD [] = []
  · rw [hne, nilIfEmpty_of_eq_nil hne, ← hm]
    exact .nil m
  · rw [nilIfEmpty_of_ne_nil hne]
    have h := Schema.Reads.repeated (S := schema) (m := m) (g := bytesField 14)
      (fun m => m.transactions.getD []) (fun xs m => { m with transactions := some xs })
      (fun _ _ => rfl) (fun _ _ _ => rfl)
      (fun b _ m => .parsedField 14 (by decide) rfl rfl rfl) hne
    rw [hm] at h
    exact h

theorem reads_withdrawals (m : ExecutionPayloadDeneb) (hm : m.withdrawals = [])
    (ws : List WithdrawalEVM) :
    schema.Reads m (ws.flatMap fun w => bytesField 15 w.encode) { m with withdrawals := ws } := by
  by_cases hne : ws = []
  · have hself : { m with withdrawals := [] } = m := by rw [← hm]
    rw [hne, hself]
    exact .nil m
  · have h := Schema.Reads.repeated (S := schema) (m := m)
      (g := fun w : WithdrawalEVM => bytesField 15 w.encode) withdrawals
      (fun ws m => { m with withdrawals := ws }) (fun _ _ => rfl) (fun _ _ _ => rfl)
      (fun w _ m => .messageField 15 (by decide) rfl (fun _ => rfl) w.reads_encode rfl) hne
    rw [hm] at h
    exact h

theorem reads_encode (m : ExecutionPayloadDeneb) : schema.Reads zero m.encode m.normal := by
  have h₄ := (((Schema.Reads.parsedField (S := schema) (m := zero) 1 (by decide) rfl
    (unmarshalFixed_bytesOf _ m.parentHash) rfl).append (.parsedField 2 (by decide) rfl
    (unmarshalFixed_bytesOf _ m.feeRecipient) rfl)).append (.parsedField 3 (by decide) rfl
    (unmarshalFixed_bytesOf _ m.stateRoot) rfl)).append (.parsedField 4 (by decide) rfl
    (unmarshalFixed_bytesOf _ m.receiptsRoot) rfl)
  have h₆ := (h₄.append (.optBytesField 5 m.logsBloom (by decide) rfl rfl rfl)).append
    (.parsedField 6 (by decide) rfl (unmarshalFixed_bytesOf _ m.prevRandao) rfl)
  have h₁₀ := (((h₆.append (.optVarintField 7 m.blockNumber (by decide) rfl rfl rfl)).append
    (.optVarintField 8 m.gasLimit (by decide) rfl rfl rfl)).append
    (.optVarintField 9 m.gasUsed (by decide) rfl rfl rfl)).append
    (.optVarintField 10 m.timestamp (by decide) rfl rfl rfl)
  have h₁₃ := ((h₁₀.append (.optBytesField 11 m.extraData (by decide) rfl rfl rfl)).append
    (.optBytesField 12 m.baseFeePerGas (by decide) rfl rfl rfl)).append
    (.parsedField 13 (by decide) rfl (unmarshalFixed_bytesOf _ m.blockHash) rfl)
  have h₁₅ := (h₁₃.append (reads_transactions _ rfl m.transactions)).append
    (reads_withdrawals _ rfl m.withdrawals)
  exact (h₁₅.append (.optVarintField 16 m.blobGasUsed (by decide) rfl rfl rfl)).append
    (.optVarintField 17 m.excessBlobGas (by decide) rfl rfl rfl)

end ExecutionPayloadDeneb

/-! ## Messages -/

/-- `types.MsgExecutionPayload` as the generated code holds it: a Go string is any sequence of
bytes. -/
structure RawMsgExecutionPayload where
  authority : Bytes
  executionPayload : Option Bytes
  prevPayloadEvents : List (Option EVMEvent)
  executionPayloadDeneb : Option ExecutionPayloadDeneb
  deriving DecidableEq

namespace RawMsgExecutionPayload

def size (m : RawMsgExecutionPayload) : Nat :=
  (if 0 < m.authority.length then
    1 + m.authority.length + sov (UInt64.ofNat m.authority.length) else 0) +
  (if 0 < (m.executionPayload.getD []).length then
    1 + (m.executionPayload.getD []).length +
      sov (UInt64.ofNat (m.executionPayload.getD []).length) else 0) +
  (m.prevPayloadEvents.map fun e =>
    1 + EVMEvent.size e + sov (UInt64.ofNat (EVMEvent.size e))).sum +
  (match m.executionPayloadDeneb with
    | none => 0
    | some p => 1 + p.size + sov (UInt64.ofNat p.size))

def marshalToSizedBuffer (m : RawMsgExecutionPayload) : Writer Unit := do
  optMessage [0x22] (m.executionPayloadDeneb.map (·.marshalToSizedBuffer))
  eachReverse (fun ev => putMessage [0x1a] (EVMEvent.marshalToSizedBuffer ev)) m.prevPayloadEvents
  optBytes [0x12] (m.executionPayload.getD [])
  optBytes [0xa] m.authority

def marshal (m : RawMsgExecutionPayload) : Except String Bytes :=
  Proto.marshal m.size m.marshalToSizedBuffer

/-- The fourth field is read into the payload that is there already. -/
def schema : Schema RawMsgExecutionPayload where
  name := "MsgExecutionPayload"
  fields := [
    ⟨1, "Authority", .plain fun bs m => { m with authority := bs }⟩,
    ⟨2, "ExecutionPayload", .plain fun bs m => { m with executionPayload := some bs }⟩,
    ⟨3, "PrevPayloadEvents", .parsed EVMEvent.unmarshal fun e m =>
      { m with prevPayloadEvents := m.prevPayloadEvents ++ [some e] }⟩,
    ⟨4, "ExecutionPayloadDeneb", .bytes fun bs m =>
      let p := m.executionPayloadDeneb.getD ExecutionPayloadDeneb.zero
      (ExecutionPayloadDeneb.schema.unmarshal p bs).map fun p =>
        { m with executionPayloadDeneb := some p }⟩]

/-- `MsgExecutionPayload{}`. -/
def zero : RawMsgExecutionPayload := ⟨[], none, [], none⟩

def unmarshal (bs : Bytes) : Except WireError RawMsgExecutionPayload := schema.unmarshal zero bs

/-- The fields that are written; a nil event has none. -/
def encode (m : RawMsgExecutionPayload) : Bytes :=
  optBytesField 1 m.authority ++ optBytesField 2 (m.executionPayload.getD []) ++
  m.prevPayloadEvents.flatMap (fun e => bytesField 3 (e.elim [] EVMEvent.encode)) ++
  m.executionPayloadDeneb.elim [] (fun p => bytesField 4 p.encode)

/-- The message that comes back. -/
def normal (m : RawMsgExecutionPayload) : RawMsgExecutionPayload where
  authority := m.authority
  executionPayload := nilIfEmpty m.executionPayload
  prevPayloadEvents := m.prevPayloadEvents.map (Option.map EVMEvent.normal)
  executionPayloadDeneb := m.executionPayloadDeneb.map ExecutionPayloadDeneb.normal

variable {m : RawMsgExecutionPayload}

theorem writes_encode (hevents : ∀ ev ∈ m.prevPayloadEvents, ev ≠ none) :
    Writes m.marshalToSizedBuffer m.encode := by
  have hdeneb : Writes (optMessage [0x22] (m.executionPayloadDeneb.map (·.marshalToSizedBuffer)))
      (m.executionPayloadDeneb.elim [] fun p => bytesField 4 p.encode) := by
    cases m.executionPayloadDeneb with
    | none => exact .pure
    | some p => exact p.writes_encode.putMessage 4 rfl
  have hprev : Writes (eachReverse
        (fun ev => putMessage [0x1a] (EVMEvent.marshalToSizedBuffer ev)) m.prevPayloadEvents)
      (m.prevPayloadEvents.flatMap fun e => bytesField 3 (e.elim [] EVMEvent.encode)) := by
    refine .eachReverse fun ev hev => ?_
    obtain ⟨e, rfl⟩ := Option.ne_none_iff_exists'.mp (hevents ev hev)
    exact e.writes_encode.putMessage 3 rfl
  exact hdeneb.bind (hprev.bind ((writes_optBytes 2 _ rfl).bind (writes_optBytes 1 _ rfl)))

theorem length_encode (m : RawMsgExecutionPayload) : m.encode.length = m.size := by
  have hevent : ∀ e : Option EVMEvent, (e.elim [] EVMEvent.encode).length = EVMEvent.size e := by
    intro e
    cases e with
    | none => rfl
    | some e => exact e.length_encode
  have hdeneb : (m.executionPayloadDeneb.elim [] fun p => bytesField 4 p.encode).length
      = match m.executionPayloadDeneb with
        | none => 0
        | some p => 1 + p.size + sov (UInt64.ofNat p.size) := by
    cases m.executionPayloadDeneb with
    | none => rfl
    | some p =>
        simp only [Option.elim_some, length_bytesField, ExecutionPayloadDeneb.length_encode]
        rfl
  simp only [encode, List.length_append, length_optBytesField, List.length_flatMap,
    length_bytesField, hevent, hdeneb]
  rfl

theorem reads_events (m : RawMsgExecutionPayload) (hm : m.prevPayloadEvents = [])
    {evs : List (Option EVMEvent)} (hevs : ∀ ev ∈ evs, ev ≠ none) :
    schema.Reads m (evs.flatMap fun e => bytesField 3 (e.elim [] EVMEvent.encode))
      { m with prevPayloadEvents := evs.map (Option.map EVMEvent.normal) } := by
  by_cases hne : evs = []
  · have hself : { m with prevPayloadEvents := [] } = m := by rw [← hm]
    rw [hne, List.map_nil, hself]
    exact .nil m
  · have h := Schema.Reads.repeated_map (S := schema) (m := m)
      (g := fun e : Option EVMEvent => bytesField 3 (e.elim [] EVMEvent.encode))
      (Option.map EVMEvent.normal) prevPayloadEvents
      (fun evs m => { m with prevPayloadEvents := evs }) (fun _ _ => rfl) (fun _ _ _ => rfl)
      (fun ev hev m => by
        obtain ⟨e, rfl⟩ := Option.ne_none_iff_exists'.mp (hevs ev hev)
        exact .messageField 3 (by decide) rfl (fun _ => rfl) e.reads_encode rfl) hne
    rw [hm] at h
    exact h

theorem reads_encode (hevents : ∀ ev ∈ m.prevPayloadEvents, ev ≠ none) :
    schema.Reads zero m.encode m.normal := by
  have hjson : schema.Reads { zero with authority := m.authority }
      (optBytesField 2 (m.executionPayload.getD []))
      { zero with
        authority := m.authority, executionPayload := nilIfEmpty m.executionPayload } := by
    refine .optBytesField_of 2 (by decide) rfl (fun h => ?_) fun h => ?_
    · rw [nilIfEmpty_of_eq_nil h]
      rfl
    · rw [nilIfEmpty_of_ne_nil h]
  have hdeneb : schema.Reads { m.normal with executionPayloadDeneb := none }
      (m.executionPayloadDeneb.elim [] fun p => bytesField 4 p.encode) m.normal := by
    cases hp : m.executionPayloadDeneb with
    | none =>
        have hself : { m.normal with executionPayloadDeneb := none } = m.normal := by
          rw [normal, hp, Option.map_none]
        rw [hself]
        exact .nil _
    | some p =>
        refine .of_length_lt fun hlen => .bytesField 4 (by decide) rfl ?_
        simp only [Option.elim_some, bytesField, List.length_append] at hlen
        have hread : ExecutionPayloadDeneb.schema.unmarshal .zero p.encode = .ok p.normal :=
          p.reads_encode.unmarshal_eq (by omega)
        show (ExecutionPayloadDeneb.schema.unmarshal .zero p.encode).map _ = _
        rw [hread, normal, hp]
        rfl
  exact (((Schema.Reads.optBytesField 1 m.authority (by decide) rfl rfl rfl).append hjson).append
    (reads_events _ rfl hevents)).append hdeneb

/-- A message and what comes back have the same bytes. -/
theorem encode_normal (m : RawMsgExecutionPayload) : m.normal.encode = m.encode := by
  have hevent : ∀ e : Option EVMEvent,
      (e.map EVMEvent.normal).elim [] EVMEvent.encode = e.elim [] EVMEvent.encode := by
    intro e
    cases e with
    | none => rfl
    | some e =>
        simp only [Option.map_some, Option.elim_some, EVMEvent.encode, EVMEvent.normal,
          getD_nilIfEmpty]
  have hdeneb : (m.executionPayloadDeneb.map ExecutionPayloadDeneb.normal).elim []
      (fun p => bytesField 4 p.encode)
        = m.executionPayloadDeneb.elim [] (fun p => bytesField 4 p.encode) := by
    cases m.executionPayloadDeneb with
    | none => rfl
    | some p =>
        simp only [Option.map_some, Option.elim_some, ExecutionPayloadDeneb.encode,
          ExecutionPayloadDeneb.normal, getD_nilIfEmpty]
  simp only [encode, normal, getD_nilIfEmpty, List.flatMap_map, hevent, hdeneb]

theorem marshal_eq (hevents : ∀ ev ∈ m.prevPayloadEvents, ev ≠ none) : m.marshal = .ok m.encode :=
  (writes_encode hevents).marshal_eq m.length_encode

theorem normal_events (hevents : ∀ ev ∈ m.prevPayloadEvents, ev ≠ none) :
    ∀ ev ∈ m.normal.prevPayloadEvents, ev ≠ none := by
  intro ev hev
  obtain ⟨e, he, rfl⟩ := List.mem_map.mp hev
  simpa using hevents e he

/-- **A payload message survives its encoding.** A message without nil events is written without
a panic into as many bytes as its size says, and these are read back as the message, empty
slices being nil. Written again, it has the same bytes; and a message with the same bytes is the
same message, up to nil and empty. -/
theorem payload_message_round_trip (m : RawMsgExecutionPayload)
    (hevents : ∀ ev ∈ m.prevPayloadEvents, ev ≠ none) (hsize : m.size < 2 ^ 63) :
    ∃ bs, m.marshal = .ok bs ∧ bs.length = m.size ∧ unmarshal bs = .ok m.normal ∧
      m.normal.marshal = .ok bs ∧
      ∀ m' : RawMsgExecutionPayload, (∀ ev ∈ m'.prevPayloadEvents, ev ≠ none) →
        m'.marshal = .ok bs → m'.normal = m.normal := by
  have hread : ∀ m' : RawMsgExecutionPayload, (∀ ev ∈ m'.prevPayloadEvents, ev ≠ none) →
      m'.encode.length < 2 ^ 63 → unmarshal m'.encode = .ok m'.normal :=
    fun m' h hlen => (reads_encode h).unmarshal_eq hlen
  have hlen : m.encode.length < 2 ^ 63 := by rwa [length_encode]
  refine ⟨m.encode, marshal_eq hevents, m.length_encode, hread m hevents hlen, ?_, ?_⟩
  · rw [marshal_eq (normal_events hevents), encode_normal]
  · intro m' hevents' hbytes
    rw [marshal_eq hevents'] at hbytes
    have hsame : m'.encode = m.encode := Except.ok.inj hbytes
    have h := hread m' hevents' (by rwa [hsame])
    rw [hsame, hread m hevents hlen] at h
    exact (Except.ok.inj h).symm

/-- A message with an event and a payload that holds a withdrawal. -/
def sample : RawMsgExecutionPayload where
  authority := [0x61]
  executionPayload := some []
  prevPayloadEvents := [some ⟨some [1], [[2], []], [], none⟩]
  executionPayloadDeneb := some { ExecutionPayloadDeneb.zero with
    blockNumber := 300
    withdrawals := [⟨1, 0, zeroAddress, 2 ^ 40⟩] }

theorem sample_round_trip :
    sample.size = 244 ∧ ∃ bs, sample.marshal = .ok bs ∧ unmarshal bs = .ok sample.normal := by
  have hsize : sample.size = 244 := by decide
  obtain ⟨bs, hbs, _, hread, _⟩ := payload_message_round_trip sample (by decide)
    (by rw [hsize]; decide)
  exact ⟨hsize, bs, hbs, hread⟩

/-- No setter adds a nil event. -/
theorem events_of_unmarshal {bs : Bytes} (h : unmarshal bs = .ok m) :
    ∀ ev ∈ m.prevPayloadEvents, ev ≠ none := by
  refine Schema.unmarshal_keeps (P := fun m => ∀ ev ∈ m.prevPayloadEvents, ev ≠ none) ?_ h
    (by simp [zero])
  intro f hf
  simp only [schema, List.mem_cons, List.not_mem_nil, or_false] at hf
  obtain rfl | rfl | rfl | rfl := hf
  · intro bs m m' hm h
    cases h
    exact hm
  · intro bs m m' hm h
    cases h
    exact hm
  · intro bs m m' hm h ev hev
    cases hparse : EVMEvent.unmarshal bs with
    | error e =>
        simp only [hparse] at h
        cases h
    | ok e =>
        simp only [hparse] at h
        cases h
        obtain hev | hev := List.mem_append.mp hev
        · exact hm ev hev
        · rw [List.mem_singleton.mp hev]
          exact Option.some_ne_none e
  · intro bs m m' hm h
    simp only at h
    cases hparse : ExecutionPayloadDeneb.schema.unmarshal
        (m.executionPayloadDeneb.getD ExecutionPayloadDeneb.zero) bs with
    | error e =>
        rw [hparse] at h
        cases h
    | ok p =>
        rw [hparse] at h
        cases h
        exact hm

/-- **What is accepted can be sent on.** However a message was encoded, once it has been
accepted it is written again without a panic, in as many bytes as its size says, and comes back
as itself up to nil and empty slices. -/
theorem accepted_message_reencodes {m : RawMsgExecutionPayload} {bs : Bytes}
    (h : unmarshal bs = .ok m) (hsize : m.size < 2 ^ 63) :
    ∃ bs', m.marshal = .ok bs' ∧ bs'.length = m.size ∧ unmarshal bs' = .ok m.normal := by
  have hevents := events_of_unmarshal h
  refine ⟨m.encode, marshal_eq hevents, m.length_encode, (reads_encode hevents).unmarshal_eq ?_⟩
  rwa [length_encode]

/-- The bytes have the fields the wrong way round, the authority twice, and a length of zero in
two bytes. -/
theorem odd_message_reencodes :
    ∃ bs', (⟨[0x61], some [], [], none⟩ : RawMsgExecutionPayload).marshal = .ok bs' ∧
      unmarshal bs' = .ok ⟨[0x61], none, [], none⟩ := by
  have hread : unmarshal [0x12, 0x80, 0x0, 0xa, 0x1, 0x62, 0xa, 0x1, 0x61]
      = .ok ⟨[0x61], some [], [], none⟩ := by decide
  obtain ⟨bs', hbs, _, hback⟩ := accepted_message_reencodes hread (by decide)
  exact ⟨bs', hbs, hback⟩

/-- **Fields that are not of this schema change nothing.** Behind bytes that are accepted,
fields with other numbers may stand, groups in groups included: what is accepted, and what it
is read as, is the same as without them. -/
theorem unknown_fields_ignored {m r : RawMsgExecutionPayload} {a b : Bytes} {fields : Fields}
    (ha : unmarshal a = .ok m) (hfields : schema.Unknown fields)
    (hlen : (a ++ (fields.encode ++ b)).length < 2 ^ 63) :
    unmarshal (a ++ (fields.encode ++ b)) = .ok r ↔ unmarshal (a ++ b) = .ok r := by
  simp only [List.length_append] at hlen
  have hunknown : schema.unmarshal m fields.encode = .ok m :=
    (Schema.Reads.unknown m hfields).unmarshal_eq (by omega)
  calc unmarshal (a ++ (fields.encode ++ b)) = .ok r
      ↔ schema.unmarshal m (fields.encode ++ b) = .ok r :=
        Schema.unmarshal_append ha (by simp only [List.length_append]; omega)
    _ ↔ schema.unmarshal m b = .ok r :=
        Schema.unmarshal_append hunknown (by simp only [List.length_append]; omega)
    _ ↔ unmarshal (a ++ b) = .ok r :=
        (Schema.unmarshal_append ha (by simp only [List.length_append]; omega)).symm

theorem authority_behind_group :
    ∃ fields : Fields, schema.Unknown fields ∧
      unmarshal ([0xa, 0x1, 0x61] ++ (fields.encode ++ [0x12, 0x1, 0x7b]))
        = .ok ⟨[0x61], some [0x7b], [], none⟩ := by
  refine ⟨.cons 9 (.group (.cons 1 (.varint 5) .nil)) .nil, by decide, ?_⟩
  refine (unknown_fields_ignored (m := ⟨[0x61], none, [], none⟩) (by decide) (by decide)
    (by decide)).mpr (by decide)

end RawMsgExecutionPayload

/-! ## What the handlers see -/

namespace MsgExecutionPayload

/-- The message as it is encoded. -/
def raw (m : MsgExecutionPayload) : RawMsgExecutionPayload :=
  ⟨utf8 m.authority, m.executionPayload, m.prevPayloadEvents, m.executionPayloadDeneb⟩

theorem raw_injective : Function.Injective raw := by
  intro m m' h
  obtain ⟨authority, json, events, deneb⟩ := m
  obtain ⟨authority', json', events', deneb'⟩ := m'
  simp only [raw, RawMsgExecutionPayload.mk.injEq] at h
  obtain ⟨hauthority, rfl, rfl, rfl⟩ := h
  rw [utf8_injective hauthority]

/-- The message that comes back. -/
def normal (m : MsgExecutionPayload) : MsgExecutionPayload where
  authority := m.authority
  executionPayload := nilIfEmpty m.executionPayload
  prevPayloadEvents := m.prevPayloadEvents.map (Option.map EVMEvent.normal)
  executionPayloadDeneb := m.executionPayloadDeneb.map ExecutionPayloadDeneb.normal

end MsgExecutionPayload

/-- Nothing in an event that passes `Verify` is empty but its data. -/
theorem map_normal_of_verify {ev : Option EVMEvent} (h : EVMEvent.verify ev = .ok ()) :
    ev.map EVMEvent.normal = ev := by
  obtain ⟨l, address, txHash, rfl, ha, hx, -, hla, -, hxl⟩ := EVMEvent.verify_eq_ok h
  have haddress : nilIfEmpty l.address = l.address := by
    rw [nilIfEmpty_of_ne_nil, ha]
    · rfl
    · rw [ha]
      exact List.ne_nil_of_length_pos (by simp [hla])
  have htxHash : nilIfEmpty l.txHash = l.txHash := by
    rw [nilIfEmpty_of_ne_nil, hx]
    · rfl
    · rw [hx]
      exact List.ne_nil_of_length_pos (by simp [hxl])
  simp only [Option.map_some, EVMEvent.normal, haddress, htxHash]

theorem payloadFromProto_normal (p : Option ExecutionPayloadDeneb) :
    payloadFromProto (p.map ExecutionPayloadDeneb.normal) = payloadFromProto p := by
  cases p with
  | none => rfl
  | some p =>
      simp only [Option.map_some, payloadFromProto, ExecutionPayloadDeneb.normal,
        ExecutionPayloadDeneb.toExecutableData, getD_nilIfEmpty]

theorem parsePayload_normal (json : Json) (ctx : Ctx) {m : MsgExecutionPayload}
    (hjson : m.executionPayload ≠ some []) :
    parsePayload json ctx m.normal = parsePayload json ctx m := by
  have hsame : nilIfEmpty m.executionPayload = m.executionPayload := by
    cases hm : m.executionPayload with
    | none => rfl
    | some bs =>
        refine nilIfEmpty_of_ne_nil ?_
        rintro rfl
        exact hjson hm
  simp only [parsePayload, MsgExecutionPayload.normal, hsame, payloadFromProto_normal,
    Option.isSome_map]

/-- **The encoding is transparent to the handlers.** A message with verified events and without
an empty JSON payload, as proposers build them, is encoded to bytes that stand for exactly one
message, and on that message the vote and the finalization are the programs that they are on
the original. -/
theorem handlers_see_through_encoding (m : MsgExecutionPayload)
    (hevents : ∀ ev ∈ m.prevPayloadEvents, EVMEvent.verify ev = .ok ())
    (hjson : m.executionPayload ≠ some []) (hsize : m.raw.size < 2 ^ 63) :
    ∃ bs m', m.raw.marshal = .ok bs ∧ RawMsgExecutionPayload.unmarshal bs = .ok m'.raw ∧
      (∀ m'', RawMsgExecutionPayload.unmarshal bs = .ok m''.raw → m'' = m') ∧
      ∀ {W : Type} (A : Wiring W) (E : Engine) (fuel : Nat) (ctx : Ctx),
        proposalExecutionPayload A E fuel ctx m' = proposalExecutionPayload A E fuel ctx m ∧
        msgExecutionPayload A E fuel ctx m' = msgExecutionPayload A E fuel ctx m := by
  have hnil : ∀ ev ∈ m.raw.prevPayloadEvents, ev ≠ none := by
    rintro ev hev rfl
    cases hevents none hev
  have hread : RawMsgExecutionPayload.unmarshal m.raw.encode = .ok m.normal.raw :=
    (RawMsgExecutionPayload.reads_encode hnil).unmarshal_eq
      (by rwa [RawMsgExecutionPayload.length_encode])
  have hsame : m.normal.prevPayloadEvents = m.prevPayloadEvents := by
    refine (List.map_congr_left fun ev hev => ?_).trans (List.map_id _)
    exact map_normal_of_verify (hevents ev hev)
  refine ⟨m.raw.encode, m.normal, RawMsgExecutionPayload.marshal_eq hnil, hread, ?_, ?_⟩
  · intro m'' h
    rw [hread] at h
    exact (MsgExecutionPayload.raw_injective (Except.ok.inj h)).symm
  · intro W A E fuel ctx
    have hparse : ∀ head, parseAndVerifyProposedPayload A ctx head m.normal
        = parseAndVerifyProposedPayload A ctx head m := by
      intro head
      simp only [parseAndVerifyProposedPayload, parsePayload_normal A.json ctx hjson]
      rfl
    constructor
    · simp only [proposalExecutionPayload, hparse, hsame]
    · simp only [msgExecutionPayload, hparse, hsame]

/-- A block without transactions, whose list is empty and not nil. -/
def emptyBlockMsg : MsgExecutionPayload where
  authority := "evmengine"
  executionPayload := none
  prevPayloadEvents :=
    [some ⟨some (List.replicate 20 1), [List.replicate 32 2], [], some (List.replicate 32 3)⟩]
  executionPayloadDeneb := some { ExecutionPayloadDeneb.zero with transactions := some [] }

theorem empty_block_same_vote :
    emptyBlockMsg.normal ≠ emptyBlockMsg ∧
      ∃ m', (∃ bs, emptyBlockMsg.raw.marshal = .ok bs ∧
        RawMsgExecutionPayload.unmarshal bs = .ok m'.raw) ∧
        ∀ {W : Type} (A : Wiring W) (E : Engine) (fuel : Nat) (ctx : Ctx),
          proposalExecutionPayload A E fuel ctx m'
            = proposalExecutionPayload A E fuel ctx emptyBlockMsg := by
  obtain ⟨bs, m', hbs, hread, _, hsame⟩ :=
    handlers_see_through_encoding emptyBlockMsg (by decide) (by decide) (by decide)
  exact ⟨by decide, m', ⟨bs, hbs, hread⟩, fun A E fuel ctx => (hsame A E fuel ctx).1⟩

end Story.EvmEngine
