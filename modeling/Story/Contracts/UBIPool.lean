/-
# Story.Contracts.UBIPool -- the contract that pays out UBI

The owner sets distributions: an amount for each of a list of public keys. The holder of
a key claims its amount. The total that is still to be claimed is kept on the side, and
a new distribution must be covered by the balance that is not pending.

Two things are kept that the contract does not store: the events it has emitted, and the
payments it has made. The functions of `Ownable2Step` are stood in for by one that sets
the owner and asks for nothing.
-/
import Story.Contracts.Secp256k1Verifier
import Story.Collections.Total

namespace Story.Contracts

open Story.Effect Story.Eth Story.Evm Story.Collections

/-! ## State -/

/-- An entry of the mapping: a distribution, and a compressed public key. -/
abbrev Entry := Nat × Bytes

/-- A payment: what was paid for which entry. -/
structure Payment where
  entry : Entry
  amount : Nat
  deriving DecidableEq

/-- `UBIDistributionSet`. -/
structure UBIDistributionSet where
  distributionId : Nat
  totalUBI : Nat
  validatorCmpPubKeys : List Bytes
  amounts : List Nat
  deriving DecidableEq

structure UBIPool where
  balance : Nat
  owner : Address
  /-- The guard of `nonReentrant` is up. -/
  entered : Bool
  currentDistributionId : Nat
  validatorUBIAmounts : Entry → Nat
  totalPendingClaims : Nat
  distributions : List UBIDistributionSet
  payments : List Payment

/-- The contract as it is deployed. -/
def UBIPool.deployed (owner : Address) : UBIPool where
  balance := 0
  owner := owner
  entered := false
  currentDistributionId := 0
  validatorUBIAmounts := fun _ => 0
  totalPendingClaims := 0
  distributions := []
  payments := []

/-! ## Functions -/

namespace UBIPool

def guard : Lens UBIPool Bool where
  view := UBIPool.entered
  put := fun entered s => { s with entered := entered }
  view_put := fun _ _ => rfl
  put_view := fun _ => rfl
  put_put := fun _ _ _ => rfl

/-- `setUBIPercentage`; the consensus layer reads the event. -/
def setUBIPercentage (maxUBIPercentage : UInt32) (sender : Address) (percentage : UInt32) :
    Tx UBIPool Unit := do
  onlyOwner UBIPool.owner sender
  require (percentage ≤ maxUBIPercentage) "UBIPool: percentage too high"

/-- The loop of `setUBIDistribution`: write the entries and add up the amounts. -/
def setAmounts (V : Crypto) (distributionId : Nat) : (accAmount : Nat) → List (Bytes × Nat) →
    Tx UBIPool Nat
  | accAmount, [] => pure accAmount
  | accAmount, (validatorCmpPubkey, amount) :: rest => do
      require (0 < amount) "UBIPool: amounts cannot be zero"
      V.verifyCmpPubkey validatorCmpPubkey
      modify fun s => { s with
        validatorUBIAmounts :=
          Function.update s.validatorUBIAmounts (distributionId, validatorCmpPubkey) amount }
      let accAmount ← checkedAdd accAmount amount
      setAmounts V distributionId accAmount rest

def setUBIDistribution (V : Crypto) (sender : Address) (totalUBI : Nat)
    (validatorCmpPubKeys : List Bytes) (amounts : List Nat) : Tx UBIPool Unit := do
  onlyOwner UBIPool.owner sender
  require (0 < validatorCmpPubKeys.length) "UBIPool: validatorCmpPubKeys cannot be empty"
  require (validatorCmpPubKeys.length = amounts.length) "UBIPool: length mismatch"
  let s ← get
  let reserved ← checkedAdd totalUBI s.totalPendingClaims
  require (reserved ≤ s.balance) "UBIPool: not enough balance"
  let totalPendingClaims ← checkedAdd s.totalPendingClaims totalUBI
  modify fun s => { s with totalPendingClaims := totalPendingClaims }
  let distributionId ← checkedAdd s.currentDistributionId 1
  modify fun s => { s with currentDistributionId := distributionId }
  let accAmount ← setAmounts V distributionId 0 (validatorCmpPubKeys.zip amounts)
  require (accAmount = totalUBI) "UBIPool: total amount mismatch"
  modify fun s => { s with
    distributions :=
      s.distributions ++ [⟨distributionId, totalUBI, validatorCmpPubKeys, amounts⟩] }

/-- Sending the amount of an entry out of the balance. -/
def send (entry : Entry) (amount : Nat) : Tx UBIPool Unit := do
  let s ← get
  require (amount ≤ s.balance) "insufficient balance"
  modify fun s => { s with
    balance := s.balance - amount
    payments := s.payments ++ [⟨entry, amount⟩] }

/-- `claimUBI`; `recipient` is the code of the caller, which runs when it is paid. -/
def claimUBI (V : Crypto) (sender : Address) (distributionId : Nat) (validatorCmpPubkey : Bytes)
    (recipient : Tx UBIPool Unit) : Tx UBIPool Unit := nonReentrant guard do
  V.verifyCmpPubkeyWithExpectedAddress validatorCmpPubkey sender
  let s ← get
  let amount := s.validatorUBIAmounts (distributionId, validatorCmpPubkey)
  require (0 < amount) "UBIPool: no UBI to claim"
  modify fun s => { s with
    validatorUBIAmounts :=
      Function.update s.validatorUBIAmounts (distributionId, validatorCmpPubkey) 0 }
  let success ← tryCall do
    send (distributionId, validatorCmpPubkey) amount
    recipient
  require success "UBIPool: failed to send UBI"
  let s ← get
  let totalPendingClaims ← checkedSub s.totalPendingClaims amount
  modify fun s => { s with totalPendingClaims := totalPendingClaims }

/-- The functions of the contract that write. -/
inductive Fn
  | setUBIPercentage (percentage : UInt32)
  | setUBIDistribution (totalUBI : Nat) (validatorCmpPubKeys : List Bytes) (amounts : List Nat)
  | claimUBI (distributionId : Nat) (validatorCmpPubkey : Bytes)
  | setOwner (newOwner : Address)

def exec (V : Crypto) (maxUBIPercentage : UInt32) (sender : Address) (value : Nat) (fn : Fn)
    (recipient : Tx UBIPool Unit) : Tx UBIPool Unit := do
  -- none of them is payable
  require (value = 0) "value sent to a function that is not payable"
  match fn with
  | .setUBIPercentage percentage => UBIPool.setUBIPercentage maxUBIPercentage sender percentage
  | .setUBIDistribution totalUBI validatorCmpPubKeys amounts =>
      UBIPool.setUBIDistribution V sender totalUBI validatorCmpPubKeys amounts
  | .claimUBI distributionId validatorCmpPubkey =>
      UBIPool.claimUBI V sender distributionId validatorCmpPubkey recipient
  | .setOwner newOwner => modify fun s => { s with owner := newOwner }

/-- The contract. -/
def contract (V : Crypto) (maxUBIPercentage : UInt32) : Contract Address Fn UBIPool where
  exec := exec V maxUBIPercentage
  credit := fun amount s => { s with balance := s.balance + amount }
  multicall := true

/-! ## What the functions do -/

variable {V : Crypto} {s t : UBIPool}

/-- The entries after the amounts of a distribution have been written. -/
def writeAll (distributionId : Nat) (m : Entry → Nat) (pairs : List (Bytes × Nat)) : Entry → Nat :=
  pairs.foldl (fun m p => Function.update m (distributionId, p.1) p.2) m

/-- The loop writes all amounts, each positive, and returns their sum. -/
theorem returns_setAmounts {distributionId accAmount n : Nat} {pairs : List (Bytes × Nat)}
    (h : Returns (setAmounts V distributionId accAmount pairs) s n t) :
    n = accAmount + (pairs.map Prod.snd).sum ∧ (∀ p ∈ pairs, 0 < p.2) ∧
      t = { s with
        validatorUBIAmounts := writeAll distributionId s.validatorUBIAmounts pairs } := by
  induction pairs generalizing accAmount s with
  | nil =>
      obtain ⟨rfl, rfl⟩ := returns_pure.mp h
      simp [writeAll]
  | cons p pairs ih =>
      simp only [setAmounts, returns_bind, returns_require, returns_modify,
        Crypto.returns_verifyCmpPubkey, returns_checkedAdd] at h
      obtain ⟨_, _, ⟨hpos, rfl⟩, _, _, ⟨_, rfl⟩, _, _, rfl, _, _, ⟨_, rfl, rfl⟩, hrest⟩ := h
      obtain ⟨rfl, hall, rfl⟩ := ih hrest
      refine ⟨by simp [Nat.add_assoc], ?_, by simp [writeAll]⟩
      intro q hq
      rcases List.mem_cons.mp hq with rfl | hq
      · exact hpos
      · exact hall q hq

/-- **A distribution** is covered by what is not pending, gets the next id, and its amounts
are written under it. -/
theorem returns_setUBIDistribution {sender : Address} {totalUBI : Nat} {keys : List Bytes}
    {amounts : List Nat} {u : Unit}
    (h : Returns (setUBIDistribution V sender totalUBI keys amounts) s u t) :
    keys.length = amounts.length ∧ totalUBI + s.totalPendingClaims ≤ s.balance ∧
      totalUBI = ((keys.zip amounts).map Prod.snd).sum ∧
      (∀ p ∈ keys.zip amounts, 0 < p.2) ∧
      t = { s with
        totalPendingClaims := s.totalPendingClaims + totalUBI
        currentDistributionId := s.currentDistributionId + 1
        validatorUBIAmounts :=
          writeAll (s.currentDistributionId + 1) s.validatorUBIAmounts (keys.zip amounts)
        distributions :=
          s.distributions ++ [⟨s.currentDistributionId + 1, totalUBI, keys, amounts⟩] } := by
  -- the checks come first and change nothing
  obtain ⟨_, _, h₁⟩ := ReadOnly.returns_bind_iff.mp h
  obtain ⟨_, _, h₂⟩ := ReadOnly.returns_bind_iff.mp h₁
  obtain ⟨_, hlen, h₃⟩ := ReadOnly.returns_bind_iff.mp h₂
  obtain ⟨_, hget, h₄⟩ := ReadOnly.returns_bind_iff.mp h₃
  obtain ⟨rfl, _⟩ := returns_get.mp hget
  obtain ⟨_, _, hreserved, h₅⟩ := returns_bind.mp h₄
  obtain ⟨_, rfl, rfl⟩ := returns_checkedAdd.mp hreserved
  obtain ⟨_, hbalance, h₆⟩ := ReadOnly.returns_bind_iff.mp h₅
  obtain ⟨hlen, _⟩ := returns_require.mp hlen
  obtain ⟨hbalance, _⟩ := returns_require.mp hbalance
  simp only [returns_bind, returns_require, returns_modify, returns_checkedAdd] at h₆
  obtain ⟨_, _, ⟨_, rfl, rfl⟩, _, _, rfl, _, _, ⟨_, rfl, rfl⟩, _, _, rfl, _, _, hloop, _, _,
    ⟨hacc, rfl⟩, rfl⟩ := h₆
  obtain ⟨hsum, hpos, rfl⟩ := returns_setAmounts hloop
  refine ⟨hlen, hbalance, ?_, hpos, rfl⟩
  rw [← hacc, hsum, Nat.zero_add]

theorem returns_send {entry : Entry} {amount : Nat} {u : Unit} :
    Returns (send entry amount) s u t ↔ amount ≤ s.balance ∧
      t = { s with
        balance := s.balance - amount
        payments := s.payments ++ [⟨entry, amount⟩] } := by
  simp only [send, returns_bind, returns_get, returns_require, returns_modify]
  constructor
  · rintro ⟨_, _, ⟨rfl, rfl⟩, _, _, ⟨hbalance, rfl⟩, rfl⟩
    exact ⟨hbalance, rfl⟩
  · rintro ⟨hbalance, rfl⟩
    exact ⟨s, s, ⟨rfl, rfl⟩, (), s, ⟨hbalance, rfl⟩, rfl⟩

/-- The pool when the amount of an entry has been sent, and the code of the caller runs. -/
def paidOut (s : UBIPool) (entry : Entry) : UBIPool :=
  { s with
    entered := true
    balance := s.balance - s.validatorUBIAmounts entry
    validatorUBIAmounts := Function.update s.validatorUBIAmounts entry 0
    payments := s.payments ++ [⟨entry, s.validatorUBIAmounts entry⟩] }

/-- The pool when the code of the caller is done and `amount` is no longer pending. -/
def settled (s : UBIPool) (amount : Nat) : UBIPool :=
  { s with entered := false, totalPendingClaims := s.totalPendingClaims - amount }

/-- **A claim** clears the entry, sends its amount, runs the code of the caller and takes the
amount off the total. -/
theorem returns_claimUBI {sender : Address} {distributionId : Nat} {key : Bytes}
    {recipient : Tx UBIPool Unit} {u : Unit} :
    Returns (claimUBI V sender distributionId key recipient) s u t ↔
      s.entered = false ∧ (V.ValidKey key ∧ V.holder key = sender) ∧
      0 < s.validatorUBIAmounts (distributionId, key) ∧
      s.validatorUBIAmounts (distributionId, key) ≤ s.balance ∧
      ∃ q, Returns recipient (s.paidOut (distributionId, key)) () q ∧
        s.validatorUBIAmounts (distributionId, key) ≤ q.totalPendingClaims ∧
        t = q.settled (s.validatorUBIAmounts (distributionId, key)) := by
  rw [claimUBI, returns_nonReentrant]
  simp only [returns_bind, returns_require, returns_get, returns_modify,
    Crypto.returns_verifyCmpPubkeyWithExpectedAddress, returns_checkedSub]
  constructor
  · rintro ⟨hentered, _, ⟨_, _, ⟨hkey, rfl⟩, _, _, ⟨rfl, rfl⟩, _, _, ⟨hpos, rfl⟩, _, _, rfl,
      success, q, hcall, _, _, ⟨hsuccess, rfl⟩, _, _, ⟨rfl, rfl⟩, _, _, ⟨hle, rfl, rfl⟩, rfl⟩, rfl⟩
    obtain rfl : success = true := hsuccess
    simp only [returns_tryCall_true, returns_bind, returns_send] at hcall
    obtain ⟨_, _, ⟨hbalance, rfl⟩, hrecipient⟩ := hcall
    exact ⟨hentered, hkey, hpos, hbalance, _, hrecipient, hle, rfl⟩
  · rintro ⟨hentered, hkey, hpos, hbalance, q, hrecipient, hle, rfl⟩
    have hcall : Returns (tryCall (do
        send (distributionId, key) (s.validatorUBIAmounts (distributionId, key))
        recipient))
        { s with
          entered := true
          validatorUBIAmounts := Function.update s.validatorUBIAmounts (distributionId, key) 0 }
        true q := by
      refine returns_tryCall_true.mpr (Returns.bind (a := ()) ?_ hrecipient)
      exact returns_send.mpr ⟨hbalance, rfl⟩
    exact ⟨hentered, _, ⟨(), _, ⟨hkey, rfl⟩, _, _, ⟨rfl, rfl⟩, (), _, ⟨hpos, rfl⟩, (), _, rfl,
      true, q, hcall, (), q, ⟨rfl, rfl⟩, q, q, ⟨rfl, rfl⟩, _, q, ⟨hle, rfl, rfl⟩, rfl⟩, rfl⟩

end UBIPool

end Story.Contracts
