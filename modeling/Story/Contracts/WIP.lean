/-
# Story.Contracts.WIP -- wrapped IP

`WIP` is an ERC20 token: IP sent to it is minted as WIP, and WIP is burned for IP. Nothing
guards `withdraw` against being entered again by the account it pays.

The token it builds on is a library. It is given by its storage and its functions, `ERC20`, and
what is assumed of them is `ERC20.Laws`: minting, burning and moving change the balances by the
amount, and fail where there is not enough. What `_givePermit2InfiniteAllowance` decides is up to
the token. Three things are kept that the contract does not store: what each account has deposited
and taken out, the moves of WIP between accounts, and the IP that came in without a call.
-/
import Story.Evm.Frames
import Story.Eth

namespace Story.Contracts

open Story.Effect Story.Eth Story.Evm

/-! ## The token -/

/-- The token that `WIP` inherits, with the storages `τ` that it can get to. The functions of the
caller take it as their first argument. -/
structure ERC20 (τ : Type) where
  deployed : τ
  totalSupply : τ → Nat
  balanceOf : τ → Address → Nat
  /-- `_mint`. -/
  mint : (target : Address) → (amount : Nat) → Tx τ Unit
  /-- `_burn`. -/
  burn : (source : Address) → (amount : Nat) → Tx τ Unit
  approve : (sender spender : Address) → (amount : Nat) → Tx τ Unit
  transfer : (sender target : Address) → (amount : Nat) → Tx τ Unit
  transferFrom : (sender source target : Address) → (amount : Nat) → Tx τ Unit

/-- Balances after a move: the source is written first, which matters when it is the target. -/
def moved (m : Address → Nat) (source target : Address) (amount : Nat) : Address → Nat :=
  let taken := Function.update m source (m source - amount)
  Function.update taken target (taken target + amount)

namespace ERC20

variable {τ : Type} (T : ERC20 τ)

/-- The amount was there, and has gone from one account to the other. -/
structure Moved (source target : Address) (amount : Nat) (s t : τ) : Prop where
  sufficient : amount ≤ T.balanceOf s source
  balances : T.balanceOf t = moved (T.balanceOf s) source target amount
  supply : T.totalSupply t = T.totalSupply s

/-- **What is assumed of the token.** -/
structure Laws : Prop where
  deployed : (∀ a, T.balanceOf T.deployed a = 0) ∧ T.totalSupply T.deployed = 0
  mint : ∀ a amount s u t, Returns (T.mint a amount) s u t →
    T.balanceOf t = Function.update (T.balanceOf s) a (T.balanceOf s a + amount) ∧
      T.totalSupply t = T.totalSupply s + amount
  burn : ∀ a amount s u t, Returns (T.burn a amount) s u t → amount ≤ T.balanceOf s a ∧
    T.balanceOf t = Function.update (T.balanceOf s) a (T.balanceOf s a - amount) ∧
      T.totalSupply t = T.totalSupply s - amount
  burns : ∀ a amount s, amount ≤ T.balanceOf s a → ∃ t, Returns (T.burn a amount) s () t
  approve : ∀ sender spender amount s u t, Returns (T.approve sender spender amount) s u t →
    T.balanceOf t = T.balanceOf s ∧ T.totalSupply t = T.totalSupply s
  transfer : ∀ sender target amount s u t, Returns (T.transfer sender target amount) s u t →
    T.Moved sender target amount s t
  transferFrom : ∀ sender source target amount s u t,
    Returns (T.transferFrom sender source target amount) s u t → T.Moved source target amount s t

end ERC20

/-! ## State -/

inductive WIPEvent
  | deposit (sender : Address) (amount : Nat)
  | withdrawal (recipient : Address) (amount : Nat)
  deriving DecidableEq

/-- WIP that went from one account to another. -/
structure WIPMove where
  source : Address
  target : Address
  amount : Nat
  deriving DecidableEq

structure WIP (τ : Type) where
  ipBalance : Nat
  token : τ
  events : List WIPEvent
  deposited : Address → Nat
  withdrawn : Address → Nat
  moves : List WIPMove
  gifts : Nat

namespace WIP

variable {τ : Type} (T : ERC20 τ)

/-- The contract as it is deployed to an address with some IP. -/
def deployed (ip : Nat) : WIP τ where
  ipBalance := ip
  token := T.deployed
  events := []
  deposited := fun _ => 0
  withdrawn := fun _ => 0
  moves := []
  gifts := ip

def tokenLens : Lens (WIP τ) τ where
  view := WIP.token
  put := fun token s => { s with token := token }
  view_put := fun _ _ => rfl
  put_view := fun _ => rfl
  put_put := fun _ _ _ => rfl

/-! ## Functions -/

def emit (event : WIPEvent) : Tx (WIP τ) Unit :=
  modify fun s => { s with events := s.events ++ [event] }

/-- `deposit`, which `receive` calls. -/
def deposit (sender : Address) (value : Nat) : Code Address (WIP τ) Unit := do
  Code.run (zoom tokenLens (T.mint sender value))
  Code.run (emit (.deposit sender value))

def withdraw (sender : Address) (value : Nat) : Code Address (WIP τ) Unit := do
  Code.run (zoom tokenLens (T.burn sender value))
  let success ← Code.call sender value
  if ¬success then Code.revert "IPTransferFailed"
  else Code.run (emit (.withdrawal sender value))

def approve (sender spender : Address) (amount : Nat) : Code Address (WIP τ) Unit := do
  Code.run (require (spender ≠ sender) "ERC20InvalidSpender")
  Code.run (zoom tokenLens (T.approve sender spender amount))

/-- The checks of the receiver in `transfer` and `transferFrom`. -/
def checkReceiver (this receiver : Address) : Tx (WIP τ) Unit := do
  require (receiver ≠ zeroAddress) "ERC20InvalidReceiver"
  require (receiver ≠ this) "ERC20InvalidReceiver"

/-- A function of the token that moves WIP, kept track of. -/
def moving (move : Tx τ Unit) (source target : Address) (amount : Nat) : Tx (WIP τ) Unit := do
  zoom tokenLens move
  modify fun s => { s with moves := s.moves ++ [⟨source, target, amount⟩] }

def transfer (this sender receiver : Address) (amount : Nat) : Code Address (WIP τ) Unit := do
  Code.run (checkReceiver this receiver)
  Code.run (moving (T.transfer sender receiver amount) sender receiver amount)

def transferFrom (this sender source receiver : Address) (amount : Nat) :
    Code Address (WIP τ) Unit := do
  Code.run (checkReceiver this receiver)
  Code.run (moving (T.transferFrom sender source receiver amount) source receiver amount)

/-- The functions of the contract that write. -/
inductive Fn
  | receive
  | deposit
  | withdraw (value : Nat)
  | approve (spender : Address) (amount : Nat)
  | transfer (receiver : Address) (amount : Nat)
  | transferFrom (source receiver : Address) (amount : Nat)

/-- A function that is not payable. -/
def nonPayable (value : Nat) (body : Code Address (WIP τ) Unit) : Code Address (WIP τ) Unit := do
  Code.run (require (value = 0) "value sent to a function that is not payable")
  body

def code (this sender : Address) (value : Nat) : Fn → Code Address (WIP τ) Unit
  | .receive => WIP.deposit T sender value
  | .deposit => WIP.deposit T sender value
  | .withdraw amount => nonPayable value (WIP.withdraw T sender amount)
  | .approve spender amount => nonPayable value (WIP.approve T sender spender amount)
  | .transfer receiver amount => nonPayable value (WIP.transfer T this sender receiver amount)
  | .transferFrom source receiver amount =>
      nonPayable value (WIP.transferFrom T this sender source receiver amount)

/-- The contract at the address `this`. -/
def program (this : Address) : Program Address Fn (WIP τ) where
  code := code T this
  balance := ipBalance
  received := fun sender value s => { s with
    ipBalance := s.ipBalance + value
    deposited := Function.update s.deposited sender (s.deposited sender + value) }
  paid := fun recipient amount s => { s with
    ipBalance := s.ipBalance - amount
    withdrawn := Function.update s.withdrawn recipient (s.withdrawn recipient + amount) }
  gift := fun amount s => { s with
    ipBalance := s.ipBalance + amount
    gifts := s.gifts + amount }

end WIP

end Story.Contracts
