/-
# Story.EvmEngine.PayloadEncoding -- the protobuf form of a payload loses nothing

From the Terence upgrade on a proposal carries its payload as a protobuf message. The
two conversions of `types/convert.go` are inverse to each other on the payloads a
proposal may carry, but for one thing: geth wants empty JSON arrays where protobuf has
none, so a list that was nil comes back empty. What has to be shown is that the base
fee survives its 32 big-endian bytes, leading zeros included, in both directions, and
that nothing on the way can fail.
-/
import Story.EvmEngine.Server

namespace Story.EvmEngine

open Story.Effect Story.Errors Story.Eth Story.Sdk

/-! ## What is encoded -/

/-- The payloads a Terence proposal may carry. -/
structure Encodable (p : ExecutableData) : Prop where
  blobGasUsed : p.blobGasUsed ≠ none
  excessBlobGas : p.excessBlobGas ≠ none
  executionWitness : p.executionWitness = none
  baseFeePerGas : ∃ fee : Int, p.baseFeePerGas = some fee ∧ 0 ≤ fee ∧ fee < 2 ^ 256
  withdrawals : ∀ w ∈ p.withdrawals.getD [], w ≠ none

/-- The payload with empty lists for nil ones. -/
def emptyForNil (p : ExecutableData) : ExecutableData :=
  { p with
    transactions := some (p.transactions.getD [])
    withdrawals := some (p.withdrawals.getD []) }

/-- The message with empty lists for nil ones. -/
def ExecutionPayloadDeneb.emptyForNil (q : ExecutionPayloadDeneb) : ExecutionPayloadDeneb :=
  { q with transactions := some (q.transactions.getD []) }

/-- The checks of `parseAndVerifyProposedPayload` that are not about the head: neither of their
errors is ever the answer. -/
def PassesNilChecks (p : ExecutableData) : Prop :=
  ∀ (ctx : Ctx) (head : ExecutionHead),
    verifyPayload ctx head p ≠ .error (.new "the followings must not be nil") ∧
    verifyPayload ctx head p ≠ .error (.new "witness not allowed in payload")

variable {σ : Type}

/-! ## There and back -/

theorem exists_returns_withdrawalsToProto {ws : List (Option Eth.Withdrawal)}
    (h : ∀ w ∈ ws, w ≠ none) (s : σ) : ∃ out, Returns (withdrawalsToProto ws) s out s := by
  induction ws with
  | nil => exact ⟨[], returns_pure.mpr ⟨rfl, rfl⟩⟩
  | cons w ws ih =>
      obtain ⟨out, hout⟩ := ih fun w' hw' => h w' (List.mem_cons_of_mem w hw')
      cases w with
      | none => exact absurd rfl (h none List.mem_cons_self)
      | some w => exact ⟨_, hout.bind (returns_pure.mpr ⟨rfl, rfl⟩)⟩

theorem exists_returns_payloadToProto {p : ExecutableData} (h : Encodable p) (s : σ) :
    ∃ q, Returns (payloadToProto (some p)) s q s := by
  obtain ⟨fee, hfee, hfee0, hfee256⟩ := h.baseFeePerGas
  obtain ⟨blob, hblob⟩ := Option.ne_none_iff_exists'.mp h.blobGasUsed
  obtain ⟨excess, hexcess⟩ := Option.ne_none_iff_exists'.mp h.excessBlobGas
  obtain ⟨ws, hws⟩ := exists_returns_withdrawalsToProto h.withdrawals s
  have hbytes : Returns (fillBytes32 p.baseFeePerGas) s (toBytesBE 32 fee.natAbs) s := by
    rw [hfee, fillBytes32, if_pos (by omega)]
    exact returns_pure.mpr ⟨rfl, rfl⟩
  simp only [payloadToProto, hblob, hexcess, h.executionWitness]
  exact ⟨_, hbytes.bind (hws.bind (returns_pure.mpr ⟨rfl, rfl⟩))⟩

/-- An encodable payload goes through protobuf unchanged. -/
theorem exists_proto_of_encodable {p : ExecutableData} (h : Encodable p) (s : σ) :
    ∃ q, Returns (payloadToProto (some p)) s q s ∧
      payloadFromProto (some q) = .ok (emptyForNil p) := by
  obtain ⟨q, hq⟩ := exists_returns_payloadToProto h s
  refine ⟨q, hq, ?_⟩
  obtain ⟨fee, hfee, hfee0, -⟩ := h.baseFeePerGas
  have habs : p.baseFeePerGas.map (fun i => (i.natAbs : Int)) = p.baseFeePerGas := by
    rw [hfee, Option.map_some, Int.natAbs_of_nonneg hfee0]
  rw [payloadFromProto_payloadToProto hq, habs]
  rfl

/-! ## Back and there -/

theorem returns_withdrawalsToProto_map (ws : List WithdrawalEVM) (s : σ) :
    Returns (withdrawalsToProto (ws.map fun w => some (withdrawalFromProto w))) s ws s := by
  induction ws with
  | nil => exact returns_pure.mpr ⟨rfl, rfl⟩
  | cons w ws ih => exact ih.bind (returns_pure.mpr ⟨rfl, rfl⟩)

theorem returns_payloadToProto_toExecutableData {q : ExecutionPayloadDeneb}
    (hfee : q.baseFeePerGas.length = 32) (s : σ) :
    Returns (payloadToProto (some q.toExecutableData)) s q.emptyForNil s := by
  have hlt := ofBytesBE_lt q.baseFeePerGas
  rw [hfee] at hlt
  have hback := toBytesBE_ofBytesBE q.baseFeePerGas
  rw [hfee] at hback
  have hbytes : Returns (fillBytes32 q.toExecutableData.baseFeePerGas) s q.baseFeePerGas s := by
    show Returns (fillBytes32 (some ((ofBytesBE q.baseFeePerGas : Nat) : Int))) s _ s
    rw [fillBytes32, Int.natAbs_natCast, if_pos (by simpa using hlt), hback]
    exact returns_pure.mpr ⟨rfl, rfl⟩
  exact hbytes.bind ((returns_withdrawalsToProto_map q.withdrawals s).bind
    (returns_pure.mpr ⟨rfl, rfl⟩))

/-- What comes back has its lists and its blob gas, and no witness. -/
theorem passesNilChecks_toExecutableData (q : ExecutionPayloadDeneb) :
    PassesNilChecks q.toExecutableData := by
  intro ctx head
  have hnil : ¬ (q.toExecutableData.withdrawals.isNone ∨ q.toExecutableData.blobGasUsed.isNone ∨
      q.toExecutableData.excessBlobGas.isNone) := by
    simp [ExecutionPayloadDeneb.toExecutableData]
  have hwitness : ¬ q.toExecutableData.executionWitness.isSome := by
    simp [ExecutionPayloadDeneb.toExecutableData]
  -- the two checks are passed: what is left are the answers of those before them
  rw [verifyPayload, if_neg hnil, if_neg hwitness]
  split_ifs <;> simp [GoError.new]

/-- A nil list and an empty one decode to the same payload. -/
theorem payloadFromProto_emptyForNil (q : ExecutionPayloadDeneb) :
    payloadFromProto (some q.emptyForNil) = payloadFromProto (some q) := rfl

/-! ## The encoding -/

/-- **The protobuf form loses nothing.** Every payload a Terence proposal may carry converts to
protobuf and comes back field by field, nil lists as empty ones. Every message with a base fee
of 32 bytes converts to a payload that passes the nil and witness checks, and comes back, again
up to nil and empty. So both conversions are injective up to nil and empty. -/
theorem terence_encoding_lossless :
    (∀ p, Encodable p → ∀ {σ : Type} (s : σ), ∃ q, Returns (payloadToProto (some p)) s q s ∧
      payloadFromProto (some q) = .ok (emptyForNil p)) ∧
    (∀ q : ExecutionPayloadDeneb, q.baseFeePerGas.length = 32 →
      ∃ p, payloadFromProto (some q) = .ok p ∧ PassesNilChecks p ∧
        ∀ {σ : Type} (s : σ), Returns (payloadToProto (some p)) s q.emptyForNil s) ∧
    (∀ p p', Encodable p → Encodable p' → ∀ {σ : Type} (s : σ) q q',
      Returns (payloadToProto (some p)) s q s → Returns (payloadToProto (some p')) s q' s →
      q.emptyForNil = q'.emptyForNil → emptyForNil p = emptyForNil p') ∧
    (∀ q q' : ExecutionPayloadDeneb, ∀ p, payloadFromProto (some q) = .ok p →
      payloadFromProto (some q') = .ok p → q.emptyForNil = q'.emptyForNil) := by
  have hback : ∀ q : ExecutionPayloadDeneb, ∀ p, payloadFromProto (some q) = .ok p →
      p = q.toExecutableData ∧ q.baseFeePerGas.length = 32 := by
    intro q p h
    rw [payloadFromProto] at h
    split at h
    · cases h
    next hlen => exact ⟨(Except.ok.inj h).symm, not_not.mp hlen⟩
  refine ⟨fun p hp σ s => exists_proto_of_encodable hp s, ?_, ?_, ?_⟩
  · intro q hfee
    refine ⟨q.toExecutableData, ?_, passesNilChecks_toExecutableData q, ?_⟩
    · rw [payloadFromProto, if_neg (not_not.mpr hfee)]
    · intro σ s
      exact returns_payloadToProto_toExecutableData hfee s
  · intro p p' hp hp' σ s q q' hq hq' heq
    obtain ⟨r, hr, hfrom⟩ := exists_proto_of_encodable hp s
    obtain ⟨r', hr', hfrom'⟩ := exists_proto_of_encodable hp' s
    obtain ⟨rfl, -⟩ := hq.unique hr
    obtain ⟨rfl, -⟩ := hq'.unique hr'
    rw [← payloadFromProto_emptyForNil, heq, payloadFromProto_emptyForNil, hfrom'] at hfrom
    exact (Except.ok.inj hfrom).symm
  · intro q q' p h h'
    obtain ⟨rfl, hfee⟩ := hback q p h
    obtain ⟨heq, hfee'⟩ := hback q' _ h'
    have hto := returns_payloadToProto_toExecutableData hfee ()
    rw [heq] at hto
    exact (hto.unique (returns_payloadToProto_toExecutableData hfee' ())).1

/-- A payload with a base fee of seven, no list of transactions and one withdrawal. -/
def feeOfSeven : ExecutableData where
  parentHash := bytesToHash [1]
  feeRecipient := bytesToAddress [2]
  stateRoot := bytesToHash [3]
  receiptsRoot := bytesToHash [4]
  logsBloom := []
  random := bytesToHash [1]
  number := 5
  gasLimit := 0
  gasUsed := 0
  timestamp := 6
  extraData := []
  baseFeePerGas := some 7
  blockHash := bytesToHash [8]
  transactions := none
  withdrawals := some [some ⟨0, 1, bytesToAddress [9], 10⟩]
  blobGasUsed := some 0
  excessBlobGas := some 0
  executionWitness := none

theorem feeOfSeven_survives :
    ∃ q, Returns (payloadToProto (some feeOfSeven)) () q () ∧
      payloadFromProto (some q) = .ok (emptyForNil feeOfSeven) := by
  apply terence_encoding_lossless.1
  exact
    { blobGasUsed := by decide
      excessBlobGas := by decide
      executionWitness := rfl
      baseFeePerGas := ⟨7, rfl, by decide, by decide⟩
      withdrawals := by decide }

end Story.EvmEngine
