/-
# Story.EvmStaking.Store -- the store of `x/evmstaking`

The stored records of the module: parameters, sweep index, the three maps from a
delegator to an address, and the two withdrawal queues. The part an event handler
can reach, the three maps and the stores of the SDK modules, is a record of its
own, `Accounts`: the handlers are programs on it, so that they cannot touch a queue
is a matter of types.

`journal` is not stored: it holds the debug lines that say whom a withdrawal is
for. A queued withdrawal carries an execution address only, so these lines are what
ties it to a delegator; nothing reads them.
-/
import Story.Collections.Queue
import Story.Sdk

namespace Story.EvmStaking

open Story.Effect Story.Errors Story.Sdk Story.Collections

/-! ## Records -/

/-- `types.ModuleName`. -/
def moduleName : String := "evmstaking"

inductive WithdrawalType
  | unstake
  | reward
  | ubi
  deriving DecidableEq, Repr

/-- The protobuf number of a withdrawal type. -/
def WithdrawalType.toUint64 : WithdrawalType → UInt64
  | .unstake => 0
  | .reward => 1
  | .ubi => 2

/-- `types.Withdrawal`; `⟨..⟩` is `NewWithdrawal`. -/
structure Withdrawal where
  creationHeight : UInt64
  executionAddress : String
  amount : UInt64
  withdrawalType : WithdrawalType
  validatorAddress : String
  deriving DecidableEq, Repr

structure Params where
  maxWithdrawalPerBlock : UInt32
  maxSweepPerBlock : UInt32
  minPartialWithdrawalAmount : UInt64
  ubiWithdrawAddress : String
  deriving DecidableEq, Repr

/-- The Go zero value, which `GetParams` returns when nothing is stored. -/
def Params.zero : Params := ⟨0, 0, 0, ""⟩

def defaultParams : Params := ⟨32, 128, 8000000000, ""⟩

structure ValidatorSweepIndex where
  nextValIndex : UInt64
  nextValDelIndex : UInt64
  deriving DecidableEq, Repr

def validateMaxWithdrawalPerBlock (v : UInt32) : Except GoError Unit :=
  if v = 0 then .error (.new s!"max withdrawal per block must be positive: {v}") else .ok ()

def validateMaxSweepPerBlock (maxSweepPerBlock maxWithdrawalPerBlock : UInt32) :
    Except GoError Unit :=
  if maxSweepPerBlock = 0 then
    .error (.new s!"max sweep per block must be positive: {maxSweepPerBlock}")
  else if maxSweepPerBlock < maxWithdrawalPerBlock then
    .error (.new ("max sweep per block must be greater than or equal to max withdrawal per block: "
      ++ s!"{maxSweepPerBlock} < {maxWithdrawalPerBlock}"))
  else .ok ()

def validateMinPartialWithdrawalAmount (v : UInt64) : Except GoError Unit :=
  if v = 0 then .error (.new s!"min partial withdrawal amount must be positive: {v}") else .ok ()

def Params.validate (p : Params) : Except GoError Unit := do
  validateMaxWithdrawalPerBlock p.maxWithdrawalPerBlock
  validateMaxSweepPerBlock p.maxSweepPerBlock p.maxWithdrawalPerBlock
  validateMinPartialWithdrawalAmount p.minPartialWithdrawalAmount

theorem defaultParams_validate : defaultParams.validate = .ok () := rfl

/-- The debug lines that name the delegator a withdrawal is for. -/
inductive LogLine
  /-- "Unstake withdrawal of mature unbonding delegation" -/
  | unstake (delegator validator : String) (amount : Int)
  /-- "Residue rewards of mature unbonding delegation" -/
  | residue (delegator validator : String) (amount : UInt64)
  /-- "Withdraw delegator rewards" -/
  | rewards (validator delegator withdrawalEVMAddr : String) (amountClaimed amountTotal : UInt64)
  deriving DecidableEq, Repr

/-! ## The store -/

/-- A `collections.Map[string, string]`. -/
abbrev AddressMap := String → Option String

/-- The address maps of the module, and the stores of the SDK modules. -/
structure Accounts (W : Type) where
  delegatorWithdrawAddress : AddressMap
  delegatorRewardAddress : AddressMap
  delegatorOperatorAddress : AddressMap
  sdk : W

structure Store (W : Type) where
  accounts : Accounts W
  params : Option Params
  validatorSweepIndex : Option ValidatorSweepIndex
  withdrawalQueue : Queue Withdrawal
  rewardWithdrawalQueue : Queue Withdrawal
  journal : List LogLine

variable {W : Type}

instance : HasSdk (Accounts W) W where
  lens :=
    { view := Accounts.sdk
      put := fun w a => { a with sdk := w }
      view_put := fun _ _ => rfl
      put_view := fun _ => rfl
      put_put := fun _ _ _ => rfl }

instance : HasSdk (Store W) W where
  lens :=
    { view := fun s => s.accounts.sdk
      put := fun w s => { s with accounts := { s.accounts with sdk := w } }
      view_put := fun _ _ => rfl
      put_view := fun _ => rfl
      put_put := fun _ _ _ => rfl }

@[simp] theorem Accounts.view_sdk (a : Accounts W) : HasSdk.lens.view a = a.sdk := rfl

@[simp] theorem Accounts.put_sdk (w : W) (a : Accounts W) :
    HasSdk.lens.put w a = { a with sdk := w } := rfl

@[simp] theorem Store.view_sdk (s : Store W) : HasSdk.lens.view s = s.accounts.sdk := rfl

@[simp] theorem Store.put_sdk (w : W) (s : Store W) :
    HasSdk.lens.put w s = { s with accounts := { s.accounts with sdk := w } } := rfl

/-- The part of the store the event handlers work on. -/
def accountsLens : Lens (Store W) (Accounts W) where
  view := Store.accounts
  put := fun a s => { s with accounts := a }
  view_put := fun _ _ => rfl
  put_view := fun _ => rfl
  put_put := fun _ _ _ => rfl

def withdrawalQueueLens : Lens (Store W) (Queue Withdrawal) where
  view := Store.withdrawalQueue
  put := fun q s => { s with withdrawalQueue := q }
  view_put := fun _ _ => rfl
  put_view := fun _ => rfl
  put_put := fun _ _ _ => rfl

def rewardWithdrawalQueueLens : Lens (Store W) (Queue Withdrawal) where
  view := Store.rewardWithdrawalQueue
  put := fun q s => { s with rewardWithdrawalQueue := q }
  view_put := fun _ _ => rfl
  put_view := fun _ => rfl
  put_put := fun _ _ _ => rfl

@[simp] theorem accountsLens_view (s : Store W) : accountsLens.view s = s.accounts := rfl

@[simp] theorem accountsLens_put (a : Accounts W) (s : Store W) :
    accountsLens.put a s = { s with accounts := a } := rfl

@[simp] theorem withdrawalQueueLens_view (s : Store W) :
    withdrawalQueueLens.view s = s.withdrawalQueue := rfl

@[simp] theorem withdrawalQueueLens_put (q : Queue Withdrawal) (s : Store W) :
    withdrawalQueueLens.put q s = { s with withdrawalQueue := q } := rfl

@[simp] theorem rewardWithdrawalQueueLens_view (s : Store W) :
    rewardWithdrawalQueueLens.view s = s.rewardWithdrawalQueue := rfl

@[simp] theorem rewardWithdrawalQueueLens_put (q : Queue Withdrawal) (s : Store W) :
    rewardWithdrawalQueueLens.put q s = { s with rewardWithdrawalQueue := q } := rfl

/-- Write a debug line. -/
def debug (line : LogLine) : Prog (Store W) Unit :=
  modify fun s => { s with journal := s.journal ++ [line] }

/-! ## Parameters and the sweep index -/

def setParams (params : Params) : Prog (Store W) Unit :=
  modify fun s => { s with params := some params }

def getParams : Prog (Store W) Params := do
  return (← get).params.getD Params.zero

def maxWithdrawalPerBlock : Prog (Store W) UInt32 := do
  return (← getParams).maxWithdrawalPerBlock

def maxSweepPerBlock : Prog (Store W) UInt32 := do
  return (← getParams).maxSweepPerBlock

def minPartialWithdrawalAmount : Prog (Store W) UInt64 := do
  return (← getParams).minPartialWithdrawalAmount

def setValidatorSweepIndex (validatorSweepIndex : ValidatorSweepIndex) : Prog (Store W) Unit :=
  modify fun s => { s with validatorSweepIndex := some validatorSweepIndex }

def getValidatorSweepIndex : Prog (Store W) ValidatorSweepIndex := do
  return (← get).validatorSweepIndex.getD ⟨0, 0⟩

/-- The parameters a read of the store yields. -/
def Store.currentParams (s : Store W) : Params := s.params.getD Params.zero

instance readOnly_getParams : ReadOnly (getParams : Prog (Store W) Params) := ReadOnly.bind _ _

instance readOnly_maxWithdrawalPerBlock :
    ReadOnly (maxWithdrawalPerBlock : Prog (Store W) UInt32) := ReadOnly.bind _ _

@[simp] theorem returns_getParams {s t : Store W} {p : Params} :
    Returns getParams s p t ↔ s.currentParams = p ∧ s = t := by
  simp [getParams, Store.currentParams, and_comm]

@[simp] theorem returns_maxWithdrawalPerBlock {s t : Store W} {n : UInt32} :
    Returns maxWithdrawalPerBlock s n t ↔ s.currentParams.maxWithdrawalPerBlock = n ∧ s = t := by
  simp [maxWithdrawalPerBlock, and_comm]

@[simp] theorem returns_maxSweepPerBlock {s t : Store W} {n : UInt32} :
    Returns maxSweepPerBlock s n t ↔ s.currentParams.maxSweepPerBlock = n ∧ s = t := by
  simp [maxSweepPerBlock, and_comm]

@[simp] theorem returns_minPartialWithdrawalAmount {s t : Store W} {n : UInt64} :
    Returns minPartialWithdrawalAmount s n t ↔
      s.currentParams.minPartialWithdrawalAmount = n ∧ s = t := by
  simp [minPartialWithdrawalAmount, and_comm]

end Story.EvmStaking
