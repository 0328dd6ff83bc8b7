/-
# Story.Eth -- the Ethereum values the consensus client handles

Fixed-size byte strings are vectors, so an address always has 20 bytes and a hash
32. A Go pointer that the code compares with nil is an `Option`; so is a slice
whose nil value the code tells apart from an empty one.
-/
import Story.Errors

namespace Story.Eth

open Story.Errors

abbrev Bytes := List UInt8

abbrev Address := Vector UInt8 20

abbrev Hash := Vector UInt8 32

/-- The last `n` bytes of `b`, padded with zeros on the left when there are fewer. -/
def padLeft (n : Nat) (b : Bytes) : Bytes :=
  (List.replicate (n - b.length) 0 ++ b).drop (b.length - n)

theorem length_padLeft (n : Nat) (b : Bytes) : (padLeft n b).length = n := by
  simp only [padLeft, List.length_drop, List.length_append, List.length_replicate]
  omega

theorem padLeft_of_length {n : Nat} {b : Bytes} (h : b.length = n) : padLeft n b = b := by
  simp [padLeft, h]

/-- `common.BytesToHash` and `common.BytesToAddress`: crop from the left, pad on the left. -/
def bytesToFixed (n : Nat) (b : Bytes) : Vector UInt8 n :=
  ⟨(padLeft n b).toArray, by simp [length_padLeft]⟩

def bytesToHash (b : Bytes) : Hash := bytesToFixed 32 b

def bytesToAddress (b : Bytes) : Address := bytesToFixed 20 b

/-- `address(0)`. -/
def zeroAddress : Address := bytesToAddress []

/-- `Bytes()` of a fixed-size value. -/
def bytesOf {n : Nat} (v : Vector UInt8 n) : Bytes := v.toList

@[simp] theorem bytesOf_bytesToFixed (n : Nat) (b : Bytes) :
    bytesOf (bytesToFixed n b) = padLeft n b := rfl

@[simp] theorem length_bytesOf {n : Nat} (v : Vector UInt8 n) : (bytesOf v).length = n := by
  simp [bytesOf]

@[simp] theorem bytesToFixed_bytesOf {n : Nat} (v : Vector UInt8 n) :
    bytesToFixed n (bytesOf v) = v := by
  apply Vector.toList_inj.mp
  change bytesOf (bytesToFixed n (bytesOf v)) = bytesOf v
  rw [bytesOf_bytesToFixed, padLeft_of_length (length_bytesOf v)]

theorem bytesOf_injective {n : Nat} : Function.Injective (bytesOf (n := n)) := by
  intro v w h
  rw [← bytesToFixed_bytesOf v, ← bytesToFixed_bytesOf w, h]

/-- `types.Withdrawal` of go-ethereum. -/
@[ext] structure Withdrawal where
  index : UInt64
  validator : UInt64
  address : Address
  amount : UInt64
  deriving DecidableEq

/-- `types.Log` of go-ethereum, the fields that `ToEthLog` fills. -/
structure Log where
  address : Address
  topics : List Hash
  data : Bytes
  txHash : Hash
  deriving DecidableEq

/-- `engine.ExecutableData`. -/
structure ExecutableData where
  parentHash : Hash
  feeRecipient : Address
  stateRoot : Hash
  receiptsRoot : Hash
  logsBloom : Bytes
  random : Hash
  number : UInt64
  gasLimit : UInt64
  gasUsed : UInt64
  timestamp : UInt64
  extraData : Bytes
  baseFeePerGas : Option Int
  blockHash : Hash
  transactions : Option (List Bytes)
  withdrawals : Option (List (Option Withdrawal))
  blobGasUsed : Option UInt64
  excessBlobGas : Option UInt64
  executionWitness : Option Bytes
  deriving DecidableEq

/-- `engine.PayloadAttributes`. -/
structure PayloadAttributes where
  timestamp : UInt64
  random : Hash
  suggestedFeeRecipient : Address
  withdrawals : List Withdrawal
  beaconRoot : Option Hash
  deriving DecidableEq

/-- `engine.ForkchoiceStateV1`. -/
structure ForkchoiceState where
  headBlockHash : Hash
  safeBlockHash : Hash
  finalizedBlockHash : Hash
  deriving DecidableEq

/-- The status strings of the Engine API; `other` is any further string. -/
inductive Status
  | valid
  | invalid
  | syncing
  | accepted
  | other (status : String)
  deriving DecidableEq

/-- `engine.PayloadStatusV1`. -/
structure PayloadStatus where
  status : Status
  latestValidHash : Option Hash
  validationError : Option String
  deriving DecidableEq

abbrev PayloadID := Vector UInt8 8

/-- `engine.ForkChoiceResponse`. -/
structure ForkChoiceResponse where
  payloadStatus : PayloadStatus
  payloadID : Option PayloadID
  deriving DecidableEq

end Story.Eth
