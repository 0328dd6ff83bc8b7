/-
# Story.EvmEngine.Types -- messages of `x/evmengine` and their conversions

The payload message, the EVM events it carries, and the protobuf form of an
execution payload. A byte field whose nil value the code tells apart from an empty
one is an `Option`. JSON encoding is a parameter: the development uses it only
through what the encoder and the two decoders promise.
-/
import Story.Errors
import Story.Eth

namespace Story.EvmEngine

open Story.Effect Story.Errors Story.Eth

/-- `types.ModuleName`. -/
def moduleName : String := "evmengine"

/-! ## EVM events -/

/-- `types.EVMEvent`. -/
structure EVMEvent where
  address : Option Bytes
  topics : List Bytes
  data : Bytes
  txHash : Option Bytes
  deriving DecidableEq

/-- `EVMEvent.Verify`, on a possibly nil event. -/
def EVMEvent.verify : Option EVMEvent → Except GoError Unit
  | none => .error (.new "nil log")
  | some l =>
      match l.address with
      | none => .error (.new "nil address")
      | some address =>
          if l.topics.length = 0 then .error (.new "empty topics")
          else
            match l.txHash with
            | none => .error (.new "nil tx hash")
            | some txHash =>
                if address.length ≠ 20 then .error (.new "invalid address length")
                else if l.topics.any (fun t => t.length ≠ 32) then
                  .error (.new "invalid topic length")
                else if txHash.length ≠ 32 then .error (.new "invalid tx hash length")
                else .ok ()

/-- `cast.EthAddress`. -/
def ethAddress (b : Bytes) : Except GoError Address :=
  if b.length = 20 then .ok (bytesToAddress b) else .error (.new "invalid address length")

/-- `EVMEvent.ToEthLog`, on a possibly nil event. -/
def EVMEvent.toEthLog : Option EVMEvent → Except GoError Eth.Log
  | none => .error (.new "nil log")
  | some l =>
      if l.topics.length = 0 then .error (.new "empty topics")
      else do
        let addr ← ethAddress (l.address.getD [])
        return { address := addr
                 topics := l.topics.map bytesToHash
                 data := l.data
                 txHash := bytesToHash (l.txHash.getD []) }

/-- What `Verify` accepts. -/
theorem EVMEvent.verify_eq_ok {ev : Option EVMEvent} (h : EVMEvent.verify ev = .ok ()) :
    ∃ l address txHash, ev = some l ∧ l.address = some address ∧ l.txHash = some txHash ∧
      l.topics ≠ [] ∧ address.length = 20 ∧ (∀ t ∈ l.topics, t.length = 32) ∧
      txHash.length = 32 := by
  cases ev with
  | none => cases h
  | some l =>
      simp only [EVMEvent.verify] at h
      split at h
      · cases h
      rename_i address ha
      split at h
      · cases h
      rename_i ht
      split at h
      · cases h
      rename_i txHash hx
      split at h
      · cases h
      rename_i hla
      split at h
      · cases h
      rename_i htl
      split at h
      · cases h
      rename_i hxl
      refine ⟨l, address, txHash, rfl, ha, hx, ?_, by simpa using hla, ?_, by simpa using hxl⟩
      · rintro hnil
        exact ht (by simp [hnil])
      · simpa using htl

/-- An event that passes `Verify` converts, and the log has a first topic. -/
theorem EVMEvent.toEthLog_of_verify {ev : Option EVMEvent} (h : EVMEvent.verify ev = .ok ()) :
    ∃ log, EVMEvent.toEthLog ev = .ok log ∧ log.topics ≠ [] := by
  obtain ⟨l, address, txHash, rfl, ha, hx, hne, hla, htl, hxl⟩ := EVMEvent.verify_eq_ok h
  refine ⟨⟨bytesToAddress address, l.topics.map bytesToHash, l.data, bytesToHash txHash⟩,
    ?_, by simpa using hne⟩
  simp only [EVMEvent.toEthLog, List.length_eq_zero_iff, hne, if_false, ha, hx, Option.getD_some,
    ethAddress, hla, if_true, Bind.bind, Except.bind, Pure.pure, Except.pure]

/-- `proto.Equal` of two possibly nil events: an absent byte field equals an empty one. -/
def protoEqual (a b : Option EVMEvent) : Bool :=
  match a, b with
  | none, none => true
  | some a, some b =>
      a.address.getD [] = b.address.getD [] && a.topics = b.topics && a.data = b.data &&
        a.txHash.getD [] = b.txHash.getD []
  | _, _ => false

/-! ## Payloads -/

/-- `types.WithdrawalEVM`. -/
structure WithdrawalEVM where
  index : UInt64
  validatorIndex : UInt64
  address : Address
  amount : UInt64
  deriving DecidableEq

/-- `types.ExecutionPayloadDeneb`. -/
structure ExecutionPayloadDeneb where
  parentHash : Hash
  feeRecipient : Address
  stateRoot : Hash
  receiptsRoot : Hash
  logsBloom : Bytes
  prevRandao : Hash
  blockNumber : UInt64
  gasLimit : UInt64
  gasUsed : UInt64
  timestamp : UInt64
  extraData : Bytes
  baseFeePerGas : Bytes
  blockHash : Hash
  transactions : Option (List Bytes)
  withdrawals : List WithdrawalEVM
  blobGasUsed : UInt64
  excessBlobGas : UInt64
  deriving DecidableEq

/-- `types.MsgExecutionPayload`. -/
structure MsgExecutionPayload where
  authority : String
  executionPayload : Option Bytes
  prevPayloadEvents : List (Option EVMEvent)
  executionPayloadDeneb : Option ExecutionPayloadDeneb
  deriving DecidableEq

/-- The `k` low bytes of a number, most significant first. -/
def toBytesBE : (k : Nat) → (n : Nat) → Bytes
  | 0, _ => []
  | k + 1, n => toBytesBE k (n / 256) ++ [UInt8.ofNat n]

/-- `big.Int.SetBytes`. -/
def ofBytesBE (b : Bytes) : Nat := b.foldl (fun acc x => acc * 256 + x.toNat) 0

@[simp] theorem length_toBytesBE (k n : Nat) : (toBytesBE k n).length = k := by
  induction k generalizing n with
  | zero => rfl
  | succ k ih => simp [toBytesBE, ih]

/-- `FillBytes` into 32 bytes: of the absolute value, with a panic when it does not fit
or the pointer is nil. -/
def fillBytes32 {σ : Type} (x : Option Int) : Prog σ Bytes :=
  match x with
  | none => goPanic "invalid memory address or nil pointer dereference"
  | some i =>
      if i.natAbs < 2 ^ 256 then pure (toBytesBE 32 i.natAbs)
      else goPanic "math/big: buffer too small to fit value"

def withdrawalToProto (w : Option Eth.Withdrawal) : Except GoError WithdrawalEVM :=
  match w with
  | none => .error (.new "nil withdrawal")
  | some w =>
      .ok { index := w.index, validatorIndex := w.validator, address := w.address,
            amount := w.amount }

def withdrawalFromProto (w : WithdrawalEVM) : Eth.Withdrawal :=
  { index := w.index, validator := w.validatorIndex, address := w.address, amount := w.amount }

/-- The loop of `PayloadToProto` over the withdrawals. -/
def withdrawalsToProto {σ : Type} : List (Option Eth.Withdrawal) → Prog σ (List WithdrawalEVM)
  | [] => pure []
  | w :: ws =>
      match withdrawalToProto w with
      | .error e => fail (e.wrap "withdrawal to proto")
      | .ok w => do
          let ws ← withdrawalsToProto ws
          pure (w :: ws)

def payloadToProto {σ : Type} (p : Option ExecutableData) : Prog σ ExecutionPayloadDeneb :=
  match p with
  | none => fail (.new "nil payload")
  | some p =>
      match p.blobGasUsed, p.excessBlobGas with
      | none, _ => fail (.new "nil payload BlobGasUsed")
      | some _, none => fail (.new "nil payload ExcessBlobGas")
      | some blobGasUsed, some excessBlobGas =>
          if p.executionWitness.isSome then fail (.new "payload has ExecutionWitness")
          else do
            let baseFeePerGas ← fillBytes32 p.baseFeePerGas
            let withdrawals ← withdrawalsToProto (p.withdrawals.getD [])
            pure
              { parentHash := p.parentHash
                feeRecipient := p.feeRecipient
                stateRoot := p.stateRoot
                receiptsRoot := p.receiptsRoot
                logsBloom := p.logsBloom
                prevRandao := p.random
                blockNumber := p.number
                gasLimit := p.gasLimit
                gasUsed := p.gasUsed
                timestamp := p.timestamp
                extraData := p.extraData
                baseFeePerGas := baseFeePerGas
                blockHash := p.blockHash
                transactions := p.transactions
                withdrawals := withdrawals
                blobGasUsed := blobGasUsed
                excessBlobGas := excessBlobGas }

/-- The payload `PayloadFromProto` builds. -/
def ExecutionPayloadDeneb.toExecutableData (p : ExecutionPayloadDeneb) : ExecutableData where
  parentHash := p.parentHash
  feeRecipient := p.feeRecipient
  stateRoot := p.stateRoot
  receiptsRoot := p.receiptsRoot
  logsBloom := p.logsBloom
  random := p.prevRandao
  number := p.blockNumber
  gasLimit := p.gasLimit
  gasUsed := p.gasUsed
  timestamp := p.timestamp
  extraData := p.extraData
  baseFeePerGas := some (ofBytesBE p.baseFeePerGas)
  blockHash := p.blockHash
  -- geth requires empty JSON arrays, not null
  transactions := some (p.transactions.getD [])
  withdrawals := some (p.withdrawals.map fun w => some (withdrawalFromProto w))
  blobGasUsed := some p.blobGasUsed
  excessBlobGas := some p.excessBlobGas
  executionWitness := none

def payloadFromProto (p : Option ExecutionPayloadDeneb) : Except GoError ExecutableData :=
  match p with
  | none => .error (.new "nil payload")
  | some p =>
      if p.baseFeePerGas.length ≠ 32 then .error (.new "invalid BaseFeePerGas length")
      else .ok p.toExecutableData

/-! ### The round trip through protobuf -/

theorem ofBytesBE_concat (b : Bytes) (x : UInt8) :
    ofBytesBE (b ++ [x]) = ofBytesBE b * 256 + x.toNat := by
  simp [ofBytesBE]

theorem ofBytesBE_toBytesBE (k n : Nat) : ofBytesBE (toBytesBE k n) = n % 256 ^ k := by
  induction k generalizing n with
  | zero => simp [toBytesBE, ofBytesBE, Nat.mod_one]
  | succ k ih =>
      have hlow : (UInt8.ofNat n).toNat = n % 256 := UInt8.toNat_ofNat'
      rw [toBytesBE, ofBytesBE_concat, ih, hlow, Nat.pow_succ', Nat.mod_mul]
      omega

theorem ofBytesBE_lt (b : Bytes) : ofBytesBE b < 256 ^ b.length := by
  induction b using List.reverseRecOn with
  | nil => exact Nat.one_pos
  | append_singleton b x ih =>
      have hx : x.toNat < 256 := x.toNat_lt
      rw [ofBytesBE_concat, List.length_append, List.length_singleton, Nat.pow_succ]
      omega

/-- As many bytes as there were give the bytes back, leading zeros included. -/
theorem toBytesBE_ofBytesBE (b : Bytes) : toBytesBE b.length (ofBytesBE b) = b := by
  induction b using List.reverseRecOn with
  | nil => rfl
  | append_singleton b x ih =>
      have hx : x.toNat < 256 := x.toNat_lt
      have hhigh : (ofBytesBE b * 256 + x.toNat) / 256 = ofBytesBE b := by omega
      have hlow : UInt8.ofNat (ofBytesBE b * 256 + x.toNat) = x := by
        rw [← UInt8.toNat_inj, UInt8.toNat_ofNat']
        omega
      rw [ofBytesBE_concat, List.length_append, List.length_singleton]
      show toBytesBE b.length ((ofBytesBE b * 256 + x.toNat) / 256) ++ [_] = _
      rw [hhigh, hlow, ih]

theorem returns_fillBytes32 {σ : Type} {x : Option Int} {s t : σ} {b : Bytes}
    (h : Returns (fillBytes32 x) s b t) :
    b.length = 32 ∧ x.map (fun i => (i.natAbs : Int)) = some (ofBytesBE b : Int) := by
  unfold fillBytes32 at h
  split at h
  · exact absurd h returns_goPanic
  next i =>
    split at h
    next hlt =>
      obtain ⟨rfl, _⟩ := returns_pure.mp h
      refine ⟨length_toBytesBE 32 _, ?_⟩
      rw [ofBytesBE_toBytesBE, Nat.mod_eq_of_lt (by simpa using hlt)]
      rfl
    · exact absurd h returns_goPanic

/-- No nil withdrawal comes through, and the others come back. -/
theorem returns_withdrawalsToProto {σ : Type} {ws : List (Option Eth.Withdrawal)} {s t : σ}
    {out : List WithdrawalEVM} (h : Returns (withdrawalsToProto ws) s out t) :
    (out.map fun w => some (withdrawalFromProto w)) = ws := by
  induction ws generalizing s out t with
  | nil =>
      obtain ⟨rfl, _⟩ := returns_pure.mp h
      rfl
  | cons w ws ih =>
      cases w with
      | none => exact absurd h returns_fail
      | some w =>
          obtain ⟨rest, s', hrest, h⟩ := returns_bind.mp h
          obtain ⟨rfl, _⟩ := returns_pure.mp h
          rw [List.map_cons, ih hrest]
          rfl

/-- **Round trip.** A payload that converts to protobuf comes back with empty lists for nil
ones; of the base fee the absolute value survives. -/
theorem payloadFromProto_payloadToProto {σ : Type} {p : ExecutableData} {s t : σ}
    {out : ExecutionPayloadDeneb} (h : Returns (payloadToProto (some p)) s out t) :
    payloadFromProto (some out) = .ok
      { p with
        transactions := some (p.transactions.getD [])
        withdrawals := some (p.withdrawals.getD [])
        baseFeePerGas := p.baseFeePerGas.map fun i => (i.natAbs : Int) } := by
  simp only [payloadToProto] at h
  split at h
  · exact absurd h returns_fail
  · exact absurd h returns_fail
  next blobGasUsed excessBlobGas hblob hexcess =>
    split at h
    · exact absurd h returns_fail
    next hwitness =>
      obtain ⟨baseFeePerGas, s₁, hfee, h⟩ := returns_bind.mp h
      obtain ⟨withdrawals, s₂, hws, h⟩ := returns_bind.mp h
      obtain ⟨rfl, _⟩ := returns_pure.mp h
      obtain ⟨hlen, hfee⟩ := returns_fillBytes32 hfee
      have hws := returns_withdrawalsToProto hws
      rw [payloadFromProto, if_neg (by simpa using hlen), ExecutionPayloadDeneb.toExecutableData]
      simp only [hws, hfee, ← hblob, ← hexcess]
      simp only [Bool.not_eq_true, Option.isSome_eq_false_iff, Option.isNone_iff_eq_none]
        at hwitness
      rw [hwitness]

/-- `encoding/json` on payloads: `json.Marshal`, the strict decoding of
`ValidateExecPayload`, and `json.Unmarshal`. -/
structure Json where
  marshal : Option ExecutableData → Except SdkError Bytes
  decodeStrict : Bytes → Except SdkError Unit
  unmarshal : Bytes → Except SdkError ExecutableData

end Story.EvmEngine
