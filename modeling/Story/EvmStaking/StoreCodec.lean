/-
# Story.EvmStaking.StoreCodec -- the bytes of the stored records

The module keeps withdrawals, parameters and the sweep index in the encodings of
`evmstaking.pb.go`, `params.pb.go` and `genesis.pb.go`. A record is read back exactly: there are
no slices in it, so nil and empty do not differ, and a record of zeros only, which has no bytes
at all, is what an empty value is read as.

Numbers of fewer than 64 bits are widened on the way out and cut on the way in. A withdrawal
type is an `int32` in Go, and any `int32` survives, not only the three that have names.
-/
import Story.EvmStaking.Store
import Story.Proto.Writer

namespace Story.EvmStaking

open Story.Eth (Bytes)
open Story.Proto Story.Proto.Writer

/-! ## Narrow numbers -/

/-- `uint64(x)` of an `int32`. -/
def widen (x : Int32) : UInt64 := x.toInt64.toUInt64

/-- What is left of a varint in an `int32`. -/
def narrow (v : UInt64) : Int32 := v.toUInt32.toInt32

theorem narrow_widen (x : Int32) : narrow (widen x) = x := by
  apply Int32.toBitVec_inj.mp
  show BitVec.setWidth 32 (BitVec.signExtend 64 x.toBitVec) = x.toBitVec
  apply BitVec.eq_of_getElem_eq
  intro i hi
  rw [BitVec.getElem_setWidth, BitVec.getLsbD_signExtend]
  simp [hi, show i < 64 by omega]

/-! ## Withdrawals -/

/-- `types.Withdrawal` as the generated code holds it. -/
structure RawWithdrawal where
  creationHeight : UInt64
  executionAddress : Bytes
  amount : UInt64
  withdrawalType : Int32
  validatorAddress : Bytes
  deriving DecidableEq

namespace RawWithdrawal

def size (m : RawWithdrawal) : Nat :=
  (if m.creationHeight ≠ 0 then 1 + sov m.creationHeight else 0) +
  (if 0 < m.executionAddress.length then
    1 + m.executionAddress.length + sov (UInt64.ofNat m.executionAddress.length) else 0) +
  (if m.amount ≠ 0 then 1 + sov m.amount else 0) +
  (if widen m.withdrawalType ≠ 0 then 1 + sov (widen m.withdrawalType) else 0) +
  (if 0 < m.validatorAddress.length then
    1 + m.validatorAddress.length + sov (UInt64.ofNat m.validatorAddress.length) else 0)

def marshalToSizedBuffer (m : RawWithdrawal) : Writer Unit := do
  optBytes [0x2a] m.validatorAddress
  optVarint [0x20] (widen m.withdrawalType)
  optVarint [0x18] m.amount
  optBytes [0x12] m.executionAddress
  optVarint [0x8] m.creationHeight

def schema : Schema RawWithdrawal where
  name := "Withdrawal"
  fields := [
    ⟨1, "CreationHeight", .varint fun v m => { m with creationHeight := v }⟩,
    ⟨2, "ExecutionAddress", .plain fun bs m => { m with executionAddress := bs }⟩,
    ⟨3, "Amount", .varint fun v m => { m with amount := v }⟩,
    ⟨4, "WithdrawalType", .varint fun v m => { m with withdrawalType := narrow v }⟩,
    ⟨5, "ValidatorAddress", .plain fun bs m => { m with validatorAddress := bs }⟩]

def zero : RawWithdrawal := ⟨0, [], 0, 0, []⟩

def encode (m : RawWithdrawal) : Bytes :=
  optVarintField 1 m.creationHeight ++ optBytesField 2 m.executionAddress ++
  optVarintField 3 m.amount ++ optVarintField 4 (widen m.withdrawalType) ++
  optBytesField 5 m.validatorAddress

theorem writes_encode (m : RawWithdrawal) : Writes m.marshalToSizedBuffer m.encode :=
  (writes_optBytes 5 _ rfl).bind <| (writes_optVarint 4 _ rfl).bind <|
    (writes_optVarint 3 _ rfl).bind <| (writes_optBytes 2 _ rfl).bind (writes_optVarint 1 _ rfl)

theorem length_encode (m : RawWithdrawal) : m.encode.length = m.size := by
  simp only [encode, List.length_append, length_optVarintField, length_optBytesField]
  rfl

theorem reads_encode (m : RawWithdrawal) : schema.Reads zero m.encode m := by
  have hnarrow : narrow 0 = 0 := by decide
  have htype : schema.Reads { m with withdrawalType := 0, validatorAddress := [] }
      (optVarintField 4 (widen m.withdrawalType)) { m with validatorAddress := [] } := by
    refine .optVarintField 4 _ (by decide) rfl ?_ ?_
    · simp only [hnarrow]
    · simp only [narrow_widen]
  have hvalidator : schema.Reads { m with validatorAddress := [] }
      (optBytesField 5 m.validatorAddress) m := .optBytesField 5 _ (by decide) rfl rfl rfl
  exact ((((Schema.Reads.optVarintField 1 m.creationHeight (by decide) rfl rfl rfl).append
    (.optBytesField 2 m.executionAddress (by decide) rfl rfl rfl)).append
    (.optVarintField 3 m.amount (by decide) rfl rfl rfl)).append htype).append hvalidator

end RawWithdrawal

/-! ## Parameters -/

structure RawParams where
  maxWithdrawalPerBlock : UInt32
  maxSweepPerBlock : UInt32
  minPartialWithdrawalAmount : UInt64
  ubiWithdrawAddress : Bytes
  deriving DecidableEq

namespace RawParams

def size (m : RawParams) : Nat :=
  (if m.maxWithdrawalPerBlock.toUInt64 ≠ 0 then
    1 + sov m.maxWithdrawalPerBlock.toUInt64 else 0) +
  (if m.maxSweepPerBlock.toUInt64 ≠ 0 then 1 + sov m.maxSweepPerBlock.toUInt64 else 0) +
  (if m.minPartialWithdrawalAmount ≠ 0 then 1 + sov m.minPartialWithdrawalAmount else 0) +
  (if 0 < m.ubiWithdrawAddress.length then
    1 + m.ubiWithdrawAddress.length + sov (UInt64.ofNat m.ubiWithdrawAddress.length) else 0)

def marshalToSizedBuffer (m : RawParams) : Writer Unit := do
  optBytes [0x22] m.ubiWithdrawAddress
  optVarint [0x18] m.minPartialWithdrawalAmount
  optVarint [0x10] m.maxSweepPerBlock.toUInt64
  optVarint [0x8] m.maxWithdrawalPerBlock.toUInt64

def schema : Schema RawParams where
  name := "Params"
  fields := [
    ⟨1, "MaxWithdrawalPerBlock", .varint fun v m =>
      { m with maxWithdrawalPerBlock := v.toUInt32 }⟩,
    ⟨2, "MaxSweepPerBlock", .varint fun v m => { m with maxSweepPerBlock := v.toUInt32 }⟩,
    ⟨3, "MinPartialWithdrawalAmount", .varint fun v m =>
      { m with minPartialWithdrawalAmount := v }⟩,
    ⟨4, "UbiWithdrawAddress", .plain fun bs m => { m with ubiWithdrawAddress := bs }⟩]

def zero : RawParams := ⟨0, 0, 0, []⟩

def encode (m : RawParams) : Bytes :=
  optVarintField 1 m.maxWithdrawalPerBlock.toUInt64 ++
  optVarintField 2 m.maxSweepPerBlock.toUInt64 ++
  optVarintField 3 m.minPartialWithdrawalAmount ++ optBytesField 4 m.ubiWithdrawAddress

theorem writes_encode (m : RawParams) : Writes m.marshalToSizedBuffer m.encode :=
  (writes_optBytes 4 _ rfl).bind <| (writes_optVarint 3 _ rfl).bind <|
    (writes_optVarint 2 _ rfl).bind (writes_optVarint 1 _ rfl)

theorem length_encode (m : RawParams) : m.encode.length = m.size := by
  simp only [encode, List.length_append, length_optVarintField, length_optBytesField]
  rfl

theorem reads_encode (m : RawParams) : schema.Reads zero m.encode m := by
  have hwithdrawal : schema.Reads zero (optVarintField 1 m.maxWithdrawalPerBlock.toUInt64)
      { zero with maxWithdrawalPerBlock := m.maxWithdrawalPerBlock } := by
    refine .optVarintField 1 _ (by decide) rfl rfl ?_
    simp only [UInt32.toUInt32_toUInt64]
  have hsweep : schema.Reads { zero with maxWithdrawalPerBlock := m.maxWithdrawalPerBlock }
      (optVarintField 2 m.maxSweepPerBlock.toUInt64)
      { zero with
        maxWithdrawalPerBlock := m.maxWithdrawalPerBlock
        maxSweepPerBlock := m.maxSweepPerBlock } := by
    refine .optVarintField 2 _ (by decide) rfl rfl ?_
    simp only [UInt32.toUInt32_toUInt64]
  have haddress : schema.Reads { m with ubiWithdrawAddress := [] }
      (optBytesField 4 m.ubiWithdrawAddress) m := .optBytesField 4 _ (by decide) rfl rfl rfl
  exact ((hwithdrawal.append hsweep).append
    (.optVarintField 3 m.minPartialWithdrawalAmount (by decide) rfl rfl rfl)).append haddress

end RawParams

/-! ## The sweep index -/

namespace ValidatorSweepIndex

def size (m : ValidatorSweepIndex) : Nat :=
  (if m.nextValIndex ≠ 0 then 1 + sov m.nextValIndex else 0) +
  (if m.nextValDelIndex ≠ 0 then 1 + sov m.nextValDelIndex else 0)

def marshalToSizedBuffer (m : ValidatorSweepIndex) : Writer Unit := do
  optVarint [0x10] m.nextValDelIndex
  optVarint [0x8] m.nextValIndex

def schema : Schema ValidatorSweepIndex where
  name := "ValidatorSweepIndex"
  fields := [
    ⟨1, "NextValIndex", .varint fun v m => { m with nextValIndex := v }⟩,
    ⟨2, "NextValDelIndex", .varint fun v m => { m with nextValDelIndex := v }⟩]

def zero : ValidatorSweepIndex := ⟨0, 0⟩

def encode (m : ValidatorSweepIndex) : Bytes :=
  optVarintField 1 m.nextValIndex ++ optVarintField 2 m.nextValDelIndex

theorem writes_encode (m : ValidatorSweepIndex) : Writes m.marshalToSizedBuffer m.encode :=
  (writes_optVarint 2 _ rfl).bind (writes_optVarint 1 _ rfl)

theorem length_encode (m : ValidatorSweepIndex) : m.encode.length = m.size := by
  simp only [encode, List.length_append, length_optVarintField]
  rfl

theorem reads_encode (m : ValidatorSweepIndex) : schema.Reads zero m.encode m := by
  have hdel : schema.Reads { m with nextValDelIndex := 0 } (optVarintField 2 m.nextValDelIndex) m :=
    .optVarintField 2 _ (by decide) rfl rfl rfl
  exact (Schema.Reads.optVarintField 1 m.nextValIndex (by decide) rfl rfl rfl).append hdel

end ValidatorSweepIndex

end Story.EvmStaking
