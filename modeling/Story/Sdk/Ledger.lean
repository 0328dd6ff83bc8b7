/-
# Story.Sdk.Ledger -- keepers that fit on a page

A theorem about the program lists the behaviour of the SDK modules it relies on. This
file gives one set of keepers that behaves that way: a ledger of bond coins with
accounts, delegations, rewards, a UBI pool and an upgrade plan. It shows that the
lists can be met together, and gives the theorems something to run on.
-/
import Story.Sdk

namespace Story.Sdk

open Story.Effect Story.Errors Story.Eth

/-- The stores of the modules, for one denomination. -/
structure Ledger where
  accounts : List Bytes
  balance : Bytes → Int
  pool : String → Int
  supply : Int
  /-- Everything that was ever paid to an account as rewards or commission. -/
  credited : Bytes → Int
  validators : List Validator
  delegations : List Delegation
  maturing : List UnbondedEntry
  rewards : Bytes → Bytes → Int
  commission : Bytes → Int
  ubi : Int
  plan : Option Plan
  done : List String

namespace Ledger

/-- Nothing has happened yet. -/
def empty : Ledger where
  accounts := []
  balance := 0
  pool := 0
  supply := 0
  credited := 0
  validators := []
  delegations := []
  maturing := []
  rewards := 0
  commission := 0
  ubi := 0
  plan := none
  done := []

/-! ## Addresses as strings -/

/-- Each byte as a character. -/
def encode (b : Bytes) : String := String.ofList (b.map fun x => Char.ofNat x.toNat)

def decode (s : String) : Bytes := s.toList.map fun c => UInt8.ofNat c.toNat

@[simp] theorem decode_encode (b : Bytes) : decode (encode b) = b := by
  have hchar (x : UInt8) : UInt8.ofNat (Char.ofNat x.toNat).toNat = x := by
    have hx : x.toNat < 0xd800 := lt_trans x.toNat_lt (by decide)
    rw [Char.toNat_ofNat, if_pos (.inl hx), UInt8.ofNat_toNat]
  simp [decode, encode, Function.comp_def, hchar]

theorem encode_injective : Function.Injective encode :=
  Function.LeftInverse.injective decode_encode

def codec : Codec where
  hexToAddress := fun s => bytesToAddress (decode s)
  addressString := fun a => encode (bytesOf a)
  hexEncode := encode
  accString := encode
  accAddressFromBech32 := fun s => .ok (decode s)
  valString := encode
  valAddressFromBech32 := fun s => .ok (decode s)
  validatorStringToBytes := fun s => .ok (decode s)
  decompressToAddress := fun pubkey => .ok (bytesToAddress pubkey)
  moduleAddress := fun name => name

/-! ## Keepers -/

/-- Stop with an error that carries the given sentinels. -/
def refuse {α : Type} (msg : String) (is : List SdkSentinel) : SdkProg Ledger α :=
  throw (.err ⟨msg, is⟩)

/-- Add to the balance of an account. -/
def pay (l : Ledger) (addr : Bytes) (amount : Int) : Ledger :=
  { l with balance := Function.update l.balance addr (l.balance addr + amount) }

/-- Pay rewards or commission to an account. -/
def credit (l : Ledger) (addr : Bytes) (amount : Int) : Ledger :=
  { l.pay addr amount with
    credited := Function.update l.credited addr (l.credited addr + amount) }

/-- Add to the account of a module. -/
def payModule (l : Ledger) (name : String) (amount : Int) : Ledger :=
  { l with pool := Function.update l.pool name (l.pool name + amount) }

/-- Coins of the bond denomination. -/
def bondCoins (amount : Int) : Coins := newCoins ⟨defaultBondDenom, amount⟩

def auth : AccountKeeper Ledger where
  hasAccount := fun _ addr => do return decide (addr ∈ (← get).accounts)
  setNewAccount := fun _ addr => modify fun l => { l with accounts := addr :: l.accounts }

def bank : BankKeeper Ledger where
  mintCoins := fun _ name c =>
    modify fun l =>
      { l.payModule name (c defaultBondDenom) with supply := l.supply + c defaultBondDenom }
  burnCoins := fun _ name c => do
    let l ← get
    if l.pool name < c defaultBondDenom then refuse "insufficient funds" []
    else
      set { l.payModule name (-c defaultBondDenom) with
        supply := l.supply - c defaultBondDenom }
  sendCoinsFromModuleToAccount := fun _ name addr c => do
    let l ← get
    if l.pool name < c defaultBondDenom then refuse "insufficient funds" []
    else set ((l.payModule name (-c defaultBondDenom)).pay addr (c defaultBondDenom))
  sendCoinsFromAccountToModule := fun _ addr name c => do
    let l ← get
    if l.balance addr < c defaultBondDenom then refuse "insufficient funds" []
    else set ((l.pay addr (-c defaultBondDenom)).payModule name (c defaultBondDenom))
  spendableCoin := fun _ addr denom => do
    let l ← get
    return ⟨denom, if denom = defaultBondDenom then l.balance addr else 0⟩

/-- The delegations of `del` to `val`. -/
def delegation (l : Ledger) (del val : String) : Option Delegation :=
  l.delegations.find? fun d => d.delegatorAddress = del ∧ d.validatorAddress = val

/-- Pay a matured entry out. -/
def mature (l : Ledger) (e : UnbondedEntry) : Ledger := l.pay (decode e.delegatorAddress) e.amount

/-- Take the stake of a delegation off the account of the delegator. -/
def stake (del val : String) (amount : Int) : SdkProg Ledger Unit := do
  let l ← get
  if l.balance (decode del) < amount then refuse "insufficient funds" []
  else
    set { l.pay (decode del) (-amount) with delegations := ⟨del, val, amount⟩ :: l.delegations }

def staking : StakingKeeper Ledger where
  isKeeper := true
  flexiblePeriodDelegationID := "0"
  getValidator := fun _ addr => do
    match (← get).validators.find? fun v => v.operator = encode addr with
    | none => refuse "validator does not exist" [.noValidatorFound]
    | some v => pure v
  getAllValidators := fun _ => do return (← get).validators
  getDelegation := fun _ del val => do
    match (← get).delegation (encode del) (encode val) with
    | none => refuse "no delegation" [.noDelegation]
    | some d => pure d
  getValidatorDelegations := fun _ val => do
    return (← get).delegations.filter fun d => d.validatorAddress = encode val
  endBlockerWithUnbondedEntries := fun _ => do
    let l ← get
    set { l.maturing.foldl mature l with maturing := [] }
    return l.maturing
  minDelegation := fun _ => pure 1
  getFlexiblePeriodType := fun _ => pure 0
  getLockedTokenType := fun _ => pure 0
  getSingularityHeight := fun _ => pure 0
  newMsgCreateValidator := fun msg => .ok msg
  delegate := fun _ msg => stake msg.delegatorAddress msg.validatorAddress msg.amount.amount
  createValidator := fun _ msg => do
    stake msg.validatorAddress msg.validatorAddress msg.value.amount
    modify fun l =>
      { l with validators := l.validators ++
          [⟨msg.validatorAddress, false, msg.supportTokenType, msg.minSelfDelegation, msg.moniker,
            some msg.pubkey⟩] }
  editValidator := fun _ _ => pure ()
  undelegate := fun _ msg => do
    match (← get).delegation msg.delegatorAddress msg.validatorAddress with
    | none => refuse "no delegation" [.noDelegation]
    | some _ =>
        modify fun l =>
          { l with maturing := l.maturing ++
              [⟨msg.delegatorAddress, msg.validatorAddress, msg.amount.amount⟩] }
        return msg.amount
  beginRedelegate := fun _ msg => do
    match (← get).delegation msg.delegatorAddress msg.validatorSrcAddress with
    | none => refuse "no delegation" [.noDelegation]
    | some _ =>
        modify fun l =>
          { l with delegations :=
              ⟨msg.delegatorAddress, msg.validatorDstAddress, msg.amount.amount⟩ :: l.delegations }
        return msg.amount

def slashing : SlashingKeeper Ledger where
  unjail := fun _ _ => pure ()

def distr : DistributionKeeper Ledger where
  incrementValidatorPeriod := fun _ _ => pure 0
  calculateDelegationRewards := fun _ val del _ => do
    let amount := (← get).rewards (decode del.delegatorAddress) (decode val.operator)
    return bondCoins (amount * 10 ^ 18)
  getValidatorAccumulatedCommission := fun _ val => do
    return bondCoins ((← get).commission val * 10 ^ 18)
  withdrawDelegationRewards := fun _ del val => do
    let l ← get
    let amount := l.rewards del val
    set { l.credit del amount with
      rewards := Function.update l.rewards del (Function.update (l.rewards del) val 0) }
    return bondCoins amount
  withdrawValidatorCommission := fun _ val => do
    let l ← get
    if l.commission val = 0 then refuse "no validator commission" [.noValidatorCommission]
    else
      set { l.credit val (l.commission val) with
        commission := Function.update l.commission val 0 }
      return bondCoins (l.commission val)
  getUbiBalanceByDenom := fun _ denom => do
    let l ← get
    return if denom = defaultBondDenom then l.ubi else 0
  withdrawUbiByDenomToModule := fun _ denom name => do
    let l ← get
    if denom = defaultBondDenom then
      set { l.payModule name l.ubi with ubi := 0 }
      return ⟨denom, l.ubi⟩
    else return ⟨denom, 0⟩
  setUbi := fun _ _ => pure ()

def upgrade : UpgradeKeeper Ledger where
  validateBasic := fun plan =>
    if plan.name = "" then .error ⟨"name cannot be empty", [.invalidRequest]⟩
    else if plan.height ≤ 0 then .error ⟨"height must be greater than 0", [.invalidRequest]⟩
    else .ok ()
  scheduleUpgrade := fun ctx plan => do
    let l ← get
    if plan.name = "" ∨ plan.height ≤ 0 then refuse "invalid plan" [.invalidRequest]
    else if plan.height < ctx.blockHeight then
      refuse "upgrade cannot be scheduled in the past" [.invalidRequest]
    else if plan.name ∈ l.done then
      refuse "upgrade has already been completed" [.invalidRequest]
    else set { l with plan := some plan }
  clearUpgradePlan := fun _ => modify fun l => { l with plan := none }
  dumpUpgradeInfoToDisk := fun _ _ => .ok ()

/-- The pre-block call of the module manager: a plan that is due is executed. -/
def preBlock (ctx : Ctx) : SdkProg Ledger Unit :=
  modify fun l =>
    match l.plan with
    | none => l
    | some plan =>
        if plan.height ≤ ctx.blockHeight then { l with plan := none, done := plan.name :: l.done }
        else l

def keepers : Keepers Ledger where
  codec := codec
  auth := auth
  bank := bank
  staking := staking
  slashing := slashing
  distr := distr
  upgrade := upgrade

end Ledger

end Story.Sdk
