/-
# Story.Contracts.WIPBooks -- wrapped IP is backed at every point of an execution

Between the moment IP comes in and the moment it is minted, and between the moment WIP is
burned and the moment IP is sent, an amount is in flight. The books are stated with that
amount: the supply, what is in flight and what was given away to the contract make up its
balance, and each account holds, has taken out, has passed on and has in flight what it
deposited and was given. Every function leads from the books with its value in flight to
the books at rest, and hands over to others at rest only.
-/
import Story.Contracts.WIP
import Story.Collections.Total

namespace Story.Contracts.WIP

open Story.Effect Story.Eth Story.Evm Story.Collections Relation

variable {τ : Type} {T : ERC20 τ} {s t : WIP τ} {account : Address} {amount : Nat} {u : Unit}

/-! ## Amounts of one account -/

/-- An amount that belongs to an account: IP that is in and not minted yet, or burned and not
sent yet. -/
structure InFlight where
  owner : Address
  amount : Nat

/-- The part of the amount that belongs to `a`: all of it or nothing. -/
def InFlight.of (i : InFlight) (a : Address) : Nat := if a = i.owner then i.amount else 0

/-- Nothing is in flight. -/
def atRest : InFlight := ⟨zeroAddress, 0⟩

@[simp] theorem InFlight.of_zero (owner a : Address) : InFlight.of ⟨owner, 0⟩ a = 0 := by
  unfold InFlight.of
  split <;> rfl

theorem update_add (m : Address → Nat) (owner : Address) (amount : Nat) (a : Address) :
    Function.update m owner (m owner + amount) a = m a + InFlight.of ⟨owner, amount⟩ a := by
  unfold InFlight.of
  rcases eq_or_ne a owner with rfl | hne
  · simp
  · simp [hne]

theorem update_sub {m : Address → Nat} {owner : Address} (hle : amount ≤ m owner) (a : Address) :
    Function.update m owner (m owner - amount) a + InFlight.of ⟨owner, amount⟩ a = m a := by
  unfold InFlight.of
  rcases eq_or_ne a owner with rfl | hne
  · simp [hle]
  · simp [hne]

/-- A move in terms of one account, also when it is both the source and the target. -/
theorem moved_apply {m : Address → Nat} {source : Address} (target : Address)
    (hle : amount ≤ m source) (a : Address) :
    moved m source target amount a + InFlight.of ⟨source, amount⟩ a
      = m a + InFlight.of ⟨target, amount⟩ a := by
  have hsource := update_sub hle a
  have htarget := update_add (Function.update m source (m source - amount)) target amount a
  unfold moved
  omega

theorem finite_moved {m : Address → Nat} (h : m.support.Finite) (source target : Address)
    (amount : Nat) : (moved m source target amount).support.Finite :=
  finite_support_update (finite_support_update h _ _) _ _

/-- A move changes no total. -/
theorem total_moved {m : Address → Nat} (h : m.support.Finite) {source : Address}
    (target : Address) (hle : amount ≤ m source) :
    total (moved m source target amount) = total m := by
  have hsource := total_update h source (m source - amount)
  have htarget := total_update (finite_support_update h source (m source - amount)) target
    (Function.update m source (m source - amount) target + amount)
  show total (Function.update _ _ _) = total m
  omega

/-! ## The books -/

/-- WIP that others have passed on to an account. -/
def movedTo (s : WIP τ) (a : Address) : Nat :=
  ((s.moves.filter fun m => m.target = a).map WIPMove.amount).sum

/-- WIP that an account has passed on to others. -/
def movedFrom (s : WIP τ) (a : Address) : Nat :=
  ((s.moves.filter fun m => m.source = a).map WIPMove.amount).sum

/-- The log of moves grows by one. -/
theorem sum_filter_snoc (account : WIPMove → Address) (moves : List WIPMove) (m : WIPMove)
    (a : Address) :
    (((moves ++ [m]).filter fun m => account m = a).map WIPMove.amount).sum
      = ((moves.filter fun m => account m = a).map WIPMove.amount).sum
        + InFlight.of ⟨account m, m.amount⟩ a := by
  unfold InFlight.of
  rcases eq_or_ne a (account m) with rfl | hne
  · simp
  · simp [hne, hne.symm]

/-- The books of a contract that was deployed with `ip` and is given amounts of `gifts`. -/
structure Books (T : ERC20 τ) (ip : Nat) (gifts : Nat → Prop) (i : InFlight) (s : WIP τ) :
    Prop where
  finite : (T.balanceOf s.token).support.Finite
  supply : total (T.balanceOf s.token) = T.totalSupply s.token
  backed : T.totalSupply s.token + i.amount + s.gifts = s.ipBalance
  account : ∀ a, T.balanceOf s.token a + s.withdrawn a + s.movedFrom a + i.of a
    = s.deposited a + s.movedTo a
  given : (∀ n, ¬gifts n) → s.gifts = ip

variable {ip : Nat} {gifts : Nat → Prop}

/-- Nothing is in flight, whoever it would belong to. -/
theorem Books.of_zero {owner : Address} (h : Books T ip gifts ⟨owner, 0⟩ s) (owner' : Address) :
    Books T ip gifts ⟨owner', 0⟩ s where
  given := h.given
  finite := h.finite
  supply := h.supply
  backed := h.backed
  account := by
    intro a
    have := h.account a
    rw [InFlight.of_zero] at this ⊢
    exact this

theorem Books.deployed (laws : T.Laws) (ip : Nat) :
    Books T ip gifts atRest (WIP.deployed T ip) := by
  obtain ⟨hbalance, hsupply⟩ := laws.deployed
  refine ⟨?_, ?_, ?_, ?_, fun _ => rfl⟩
  · simp [WIP.deployed, Function.support, hbalance]
  · exact (total_eq_zero hbalance).trans hsupply.symm
  · simp [WIP.deployed, atRest, hsupply]
  · intro a
    simp [WIP.deployed, atRest, hbalance, movedTo, movedFrom]

variable {this sender : Address} {value : Nat}

/-- The value of a call is in flight when its code begins. -/
theorem Books.received (h : Books T ip gifts atRest s) :
    Books T ip gifts ⟨sender, value⟩ ((program T this).received sender value s) := by
  have hbacked := h.backed
  refine ⟨h.finite, h.supply, ?_, ?_, h.given⟩
  · show T.totalSupply s.token + value + s.gifts = s.ipBalance + value
    simp only [atRest] at hbacked
    omega
  · intro a
    have haccount := h.account a
    have hdeposited := update_add s.deposited sender value a
    show T.balanceOf s.token a + s.withdrawn a + s.movedFrom a + _
      = Function.update s.deposited sender (s.deposited sender + value) a + s.movedTo a
    simp only [atRest, InFlight.of_zero] at haccount
    omega

theorem Books.mint (laws : T.Laws) (h : Books T ip gifts ⟨account, amount⟩ s)
    (hmint : Returns (zoom tokenLens (T.mint account amount)) s u t) :
    Books T ip gifts atRest t := by
  obtain ⟨token, htoken, rfl⟩ := returns_zoom.mp hmint
  obtain ⟨hbalances, hminted⟩ := laws.mint _ _ s.token _ _ htoken
  have hsupply := h.supply
  have hbacked := h.backed
  have htotal := total_update h.finite account (T.balanceOf s.token account + amount)
  refine ⟨?_, ?_, ?_, ?_, h.given⟩
  · show (T.balanceOf token).support.Finite
    rw [hbalances]
    exact finite_support_update h.finite _ _
  · show total (T.balanceOf token) = T.totalSupply token
    rw [hbalances]
    omega
  · show T.totalSupply token + 0 + s.gifts = s.ipBalance
    simp only at hbacked
    omega
  · intro a
    have haccount := h.account a
    have hbalance := update_add (T.balanceOf s.token) account amount a
    show T.balanceOf token a + s.withdrawn a + s.movedFrom a + InFlight.of ⟨_, 0⟩ a =
      s.deposited a + s.movedTo a
    rw [InFlight.of_zero, hbalances]
    omega

theorem Books.burn (laws : T.Laws) (h : Books T ip gifts atRest s)
    (hburn : Returns (zoom tokenLens (T.burn account amount)) s u t) :
    Books T ip gifts ⟨account, amount⟩ t := by
  obtain ⟨token, htoken, rfl⟩ := returns_zoom.mp hburn
  obtain ⟨hle, hbalances, hburned⟩ := laws.burn _ _ s.token _ _ htoken
  have hsupply := h.supply
  have hbacked := h.backed
  have htotal := total_update h.finite account (T.balanceOf s.token account - amount)
  simp only [atRest] at hbacked
  refine ⟨?_, ?_, ?_, ?_, h.given⟩
  · show (T.balanceOf token).support.Finite
    rw [hbalances]
    exact finite_support_update h.finite _ _
  · show total (T.balanceOf token) = T.totalSupply token
    rw [hbalances]
    omega
  · -- the supply covers the amount, so the difference is not cut off at zero
    show T.totalSupply token + amount + s.gifts = s.ipBalance
    omega
  · intro a
    have haccount := h.account a
    have hbalance := update_sub hle a
    show T.balanceOf token a + s.withdrawn a + s.movedFrom a + _ = s.deposited a + s.movedTo a
    rw [hbalances]
    simp only [atRest, InFlight.of_zero] at haccount
    omega

/-- What is in flight is there to be sent. -/
theorem Books.covered (h : Books T ip gifts ⟨account, amount⟩ s) : amount ≤ s.ipBalance := by
  have hbacked := h.backed
  simp only at hbacked
  omega

/-- What has been sent is out of flight. -/
theorem Books.paid (h : Books T ip gifts ⟨account, amount⟩ s) :
    Books T ip gifts atRest ((program T this).paid account amount s) := by
  have hbacked := h.backed
  refine ⟨h.finite, h.supply, ?_, ?_, h.given⟩
  · show T.totalSupply s.token + 0 + s.gifts = s.ipBalance - amount
    simp only at hbacked
    omega
  · intro a
    have haccount := h.account a
    have hwithdrawn := update_add s.withdrawn account amount a
    show T.balanceOf s.token a
        + Function.update s.withdrawn account (s.withdrawn account + amount) a
        + s.movedFrom a + InFlight.of ⟨_, 0⟩ a = s.deposited a + s.movedTo a
    rw [InFlight.of_zero]
    omega

theorem Books.moving {i : InFlight} (h : Books T ip gifts i s) {move : Tx τ Unit}
    {source target : Address}
    (hmoves : ∀ r u r', Returns move r u r' → T.Moved source target amount r r')
    (hmove : Returns (moving move source target amount) s u t) : Books T ip gifts i t := by
  obtain ⟨_, _, hzoom, hlog⟩ := returns_bind.mp hmove
  obtain ⟨token, htoken, rfl⟩ := returns_zoom.mp hzoom
  obtain rfl := returns_modify.mp hlog
  obtain ⟨hle, hbalances, hsupply⟩ := hmoves s.token _ _ htoken
  refine ⟨?_, ?_, ?_, ?_, h.given⟩
  · show (T.balanceOf token).support.Finite
    rw [hbalances]
    exact finite_moved h.finite _ _ _
  · show total (T.balanceOf token) = T.totalSupply token
    rw [hbalances, hsupply]
    exact (total_moved h.finite target hle).trans h.supply
  · show T.totalSupply token + i.amount + s.gifts = s.ipBalance
    rw [hsupply]
    exact h.backed
  · intro a
    have haccount := h.account a
    have hmoved := moved_apply target hle a
    have hfrom := sum_filter_snoc WIPMove.source s.moves ⟨source, target, amount⟩ a
    have hto := sum_filter_snoc WIPMove.target s.moves ⟨source, target, amount⟩ a
    show T.balanceOf token a + _ + _ + _ = _
    rw [hbalances]
    simp only [movedTo, movedFrom, tokenLens] at haccount hfrom hto ⊢
    omega

/-- Events are not written to the books, nor is what leaves the balances alone. -/
theorem Books.frame {i : InFlight} (h : Books T ip gifts i s) (events : List WIPEvent) {token : τ}
    (hbalances : T.balanceOf token = T.balanceOf s.token)
    (hsupply : T.totalSupply token = T.totalSupply s.token) :
    Books T ip gifts i { s with events := events, token := token } := by
  refine ⟨?_, ?_, ?_, ?_, h.given⟩
  · rw [hbalances]
    exact h.finite
  · rw [hbalances, hsupply]
    exact h.supply
  · rw [hsupply]
    exact h.backed
  · rw [hbalances]
    exact h.account

theorem Books.gift (h : Books T ip gifts atRest s) (hgift : gifts amount) :
    Books T ip gifts atRest ((program T this).gift amount s) := by
  refine ⟨h.finite, h.supply, ?_, h.account, fun hnone => absurd hgift (hnone amount)⟩
  have hbacked := h.backed
  show T.totalSupply s.token + 0 + (s.gifts + amount) = s.ipBalance + amount
  simp only [atRest] at hbacked
  omega

/-! ## The functions -/

section Functions

variable (T ip gifts this)

/-- Code of the contract that is safe with `i` in flight. -/
abbrev SafeCode (i : InFlight) (code : Code Address (WIP τ) Unit) : Prop :=
  Safe (program T this) (Books T ip gifts) atRest i code

theorem safe_emit (event : WIPEvent) : SafeCode T ip gifts this atRest (.run (emit event)) := by
  refine .act (j := atRest) ?_ .stop
  intro s t hs hret
  obtain rfl := returns_modify.mp hret
  exact hs.frame _ rfl rfl

variable {T} (laws : T.Laws)

include laws

theorem safe_deposit : SafeCode T ip gifts this ⟨sender, value⟩ (deposit T sender value) := by
  apply Safe.act (j := atRest)
  · intro s t hs hret
    exact hs.mint laws hret
  · exact safe_emit T ip gifts this _

/-- What is burned is in flight until it is sent; when the send fails, the call is undone. -/
theorem safe_withdraw : SafeCode T ip gifts this atRest (withdraw T sender amount) := by
  apply Safe.act (j := ⟨sender, amount⟩)
  · intro s t hs hret
    exact hs.burn laws hret
  · apply Safe.send
    · intro s hs
      exact hs.covered
    · intro s hs
      exact hs.paid
    · exact safe_emit T ip gifts this _
    · exact .revert

theorem safe_approve {spender : Address} :
    SafeCode T ip gifts this atRest (approve T sender spender amount) := by
  apply Safe.act (j := atRest)
  · intro s t hs hret
    exact (returns_require.mp hret).2 ▸ hs
  · refine .act (j := atRest) ?_ .stop
    intro s t hs hret
    obtain ⟨token, happrove, rfl⟩ := returns_zoom.mp hret
    obtain ⟨hbalances, hsupply⟩ := laws.approve _ _ _ _ _ _ happrove
    exact hs.frame s.events hbalances hsupply

omit laws in
/-- A check of the receiver, and then code that moves. -/
theorem safe_moving {source receiver : Address} {move : Tx τ Unit}
    (hmoves : ∀ r u r', Returns move r u r' → T.Moved source receiver amount r r') :
    SafeCode T ip gifts this atRest (do
      Code.run (checkReceiver this receiver)
      Code.run (moving move source receiver amount)) := by
  apply Safe.act (j := atRest)
  · intro s t hs hret
    simp only [checkReceiver, returns_bind, returns_require] at hret
    obtain ⟨_, _, ⟨_, rfl⟩, _, rfl⟩ := hret
    exact hs
  · refine .act (j := atRest) ?_ .stop
    intro s t hs hret
    exact hs.moving hmoves hret

omit laws in
theorem safe_nonPayable {body : Code Address (WIP τ) Unit}
    (hbody : SafeCode T ip gifts this atRest body) :
    SafeCode T ip gifts this ⟨sender, value⟩ (nonPayable value body) := by
  apply Safe.act (j := atRest)
  · intro s t hs hret
    obtain ⟨rfl, rfl⟩ := returns_require.mp hret
    exact hs.of_zero zeroAddress
  · exact hbody

/-- **Every function** is safe from the moment its value has come in. -/
theorem guarded : Guarded (program T this) (Books T ip gifts) atRest gifts where
  call := by
    intro sender value fn s hs
    refine ⟨⟨sender, value⟩, hs.received, ?_⟩
    cases fn with
    | receive => exact safe_deposit ip gifts this laws
    | deposit => exact safe_deposit ip gifts this laws
    | withdraw amount => exact safe_nonPayable ip gifts this (safe_withdraw ip gifts this laws)
    | approve spender amount =>
        exact safe_nonPayable ip gifts this (safe_approve ip gifts this laws)
    | transfer receiver amount =>
        exact safe_nonPayable ip gifts this
          (safe_moving ip gifts this (laws.transfer sender receiver amount))
    | transferFrom source receiver amount =>
        exact safe_nonPayable ip gifts this
          (safe_moving ip gifts this (laws.transferFrom sender source receiver amount))
  gift := fun _ _ hgift hs => hs.gift hgift

end Functions

/-! ## Withdrawing -/

/-- The account after a holder has taken out an amount, which leaves the token as `token`. -/
def afterWithdraw (s : WIP τ) (token : τ) (holder : Address) (amount : Nat) : WIP τ :=
  { s with
    ipBalance := s.ipBalance - amount
    token := token
    withdrawn := Function.update s.withdrawn holder (s.withdrawn holder + amount)
    events := s.events ++ [.withdrawal holder amount] }

theorem received_zero (s : WIP τ) : (program T this).received sender 0 s = s := by
  show { s with
    ipBalance := s.ipBalance + 0
    deposited := Function.update s.deposited sender (s.deposited sender + 0) } = s
  rw [Nat.add_zero, Nat.add_zero, Function.update_eq_self]

/-- **A withdrawal** by the code that has control goes through when the holder accepts the IP. -/
theorem withdraw_steps {before : WIP τ} {frames : List (Frame Address (WIP τ))} {token : τ}
    (hburn : Returns (T.burn account amount) s.token () token) (hip : amount ≤ s.ipBalance) :
    ReflTransGen (Step (program T this) gifts) ⟨s, .outside before :: frames⟩
      ⟨s.afterWithdraw token account amount, .outside before :: frames⟩ := by
  have hcall : Step (program T this) gifts ⟨s, .outside before :: frames⟩ _ :=
    .call account 0 (.withdraw amount)
  rw [received_zero] at hcall
  refine .trans (.single hcall) (.trans (.single (.act (returns_require.mpr ⟨rfl, rfl⟩))) ?_)
  refine .trans (.single (.act (returns_zoom.mpr ⟨token, hburn, rfl⟩))) ?_
  refine .trans (.single (.send hip)) (.trans (.single .leave) ?_)
  exact .trans (.single (.act (returns_modify.mpr rfl))) (.single .stop)

/-- Also between transactions, when it makes up a transaction of its own. -/
theorem withdraw_steps_of_open {frames : List (Frame Address (WIP τ))} (hopen : Open frames)
    {token : τ} (hburn : Returns (T.burn account amount) s.token () token)
    (hip : amount ≤ s.ipBalance) :
    ReflTransGen (Step (program T this) gifts) ⟨s, frames⟩
      ⟨s.afterWithdraw token account amount, frames⟩ := by
  match frames, hopen with
  | [], _ =>
      exact .trans (.single (.enter trivial)) (.trans (withdraw_steps hburn hip) (.single .leave))
  | .outside before :: frames, _ => exact withdraw_steps hburn hip

/-! ## Every point -/

/-- What holds at a point of an execution of a contract deployed with `ip`. The balances add
up to the supply, and the contract has the IP for it; if IP comes with calls only, it has no
more at the points at which others have control, such as the end of a transaction. There, a
holder can take out what it holds, and no send of the contract fails for lack of IP. No
account has taken out and passed on more than it put in and was passed. -/
structure FullyBacked (T : ERC20 τ) (this : Address) (gifts : Nat → Prop) (ip : Nat)
    (p : Point Address (WIP τ)) : Prop where
  finite : (T.balanceOf p.state.token).support.Finite
  supply : total (T.balanceOf p.state.token) = T.totalSupply p.state.token
  backed : T.totalSupply p.state.token ≤ p.state.ipBalance
  exact_at_rest : ip = 0 → (∀ amount, ¬gifts amount) → Open p.frames →
    T.totalSupply p.state.token = p.state.ipBalance
  withdrawable : ∀ holder amount, Open p.frames → amount ≤ T.balanceOf p.state.token holder →
    ∃ token, Returns (T.burn holder amount) p.state.token () token ∧
      ReflTransGen (Step (program T this) gifts) p
        ⟨p.state.afterWithdraw token holder amount, p.frames⟩
  covered : ∀ before recipient amount next frames,
    p.frames = .running before (.send recipient amount next) :: frames →
      amount ≤ p.state.ipBalance
  no_more_out : ∀ a, p.state.withdrawn a + p.state.movedFrom a
    ≤ p.state.deposited a + p.state.movedTo a

/-- A holder's balance is part of the supply. -/
theorem Books.balance_le {i : InFlight} (h : Books T ip gifts i s) (a : Address) :
    T.balanceOf s.token a ≤ s.ipBalance := by
  have htotal := total_update h.finite a 0
  have hsupply := h.supply
  have hbacked := h.backed
  omega

/-- **Wrapped IP is fully backed** at every point of every execution. -/
theorem wip_fully_backed (laws : T.Laws) {p : Point Address (WIP τ)}
    (hrun : ReflTransGen (Step (program T this) gifts) ⟨deployed T ip, []⟩ p) :
    FullyBacked T this gifts ip p := by
  obtain ⟨i, hbooks, hframes⟩ := (guarded ip gifts this laws).sound (Books.deployed laws ip) hrun
  have hbacked := hbooks.backed
  refine ⟨hbooks.finite, hbooks.supply, by omega, ?_, ?_, ?_, ?_⟩
  · intro hip hnone hopen
    obtain rfl := hframes.eq_rest hopen
    have hgiven := hbooks.given hnone
    simp only [atRest] at hbacked
    omega
  · intro holder amount hopen hle
    obtain ⟨token, hburn⟩ := laws.burns holder amount p.state.token hle
    exact ⟨token, hburn,
      withdraw_steps_of_open hopen hburn (hle.trans (hbooks.balance_le holder))⟩
  · intro before recipient amount next frames heq
    rw [heq] at hframes
    exact hframes.covered hbooks
  · intro a
    have haccount := hbooks.account a
    omega

/-! ### A token that meets the laws -/

structure PlainToken where
  totalSupply : Nat
  balanceOf : Address → Nat
  allowance : Address × Address → Nat

namespace PlainToken

def checkBalance (source : Address) (amount : Nat) : Tx PlainToken Unit := do
  let s ← get
  require (amount ≤ s.balanceOf source) "InsufficientBalance"

def move (source target : Address) (amount : Nat) : Tx PlainToken Unit := do
  checkBalance source amount
  modify fun s => { s with balanceOf := moved s.balanceOf source target amount }

/-- A token whose allowances are not used up. -/
def erc20 : ERC20 PlainToken where
  deployed := ⟨0, fun _ => 0, fun _ => 0⟩
  totalSupply := PlainToken.totalSupply
  balanceOf := PlainToken.balanceOf
  mint := fun target amount => modify fun s => { s with
    totalSupply := s.totalSupply + amount
    balanceOf := Function.update s.balanceOf target (s.balanceOf target + amount) }
  burn := fun source amount => do
    checkBalance source amount
    modify fun s => { s with
      totalSupply := s.totalSupply - amount
      balanceOf := Function.update s.balanceOf source (s.balanceOf source - amount) }
  approve := fun sender spender amount =>
    modify fun s => { s with allowance := Function.update s.allowance (sender, spender) amount }
  transfer := move
  transferFrom := fun sender source target amount => do
    let s ← get
    require (amount ≤ s.allowance (source, sender)) "InsufficientAllowance"
    move source target amount

theorem returns_checkBalance {s t : PlainToken} {source : Address} {amount : Nat} {u : Unit} :
    Returns (checkBalance source amount) s u t ↔ amount ≤ s.balanceOf source ∧ s = t := by
  simp only [checkBalance, returns_bind, returns_get, returns_require]
  constructor
  · rintro ⟨_, _, ⟨rfl, rfl⟩, h⟩
    exact h
  · exact fun h => ⟨s, s, ⟨rfl, rfl⟩, h⟩

theorem moved_of_move {s t : PlainToken} {source target : Address} {amount : Nat} {u : Unit}
    (h : Returns (move source target amount) s u t) : erc20.Moved source target amount s t := by
  simp only [move, returns_bind, returns_checkBalance, returns_modify] at h
  obtain ⟨_, _, ⟨hle, rfl⟩, rfl⟩ := h
  exact ⟨hle, rfl, rfl⟩

theorem laws : erc20.Laws where
  deployed := ⟨fun _ => rfl, rfl⟩
  mint := by
    intro a amount s u t h
    obtain rfl := returns_modify.mp h
    exact ⟨rfl, rfl⟩
  burn := by
    intro a amount s u t h
    obtain ⟨_, _, hcheck, h⟩ := returns_bind.mp h
    obtain ⟨hle, rfl⟩ := returns_checkBalance.mp hcheck
    obtain rfl := returns_modify.mp h
    exact ⟨hle, rfl, rfl⟩
  burns := by
    intro a amount s hle
    exact ⟨_, Returns.bind (a := ()) (returns_checkBalance.mpr ⟨hle, rfl⟩) (returns_modify.mpr rfl)⟩
  approve := by
    intro sender spender amount s u t h
    obtain rfl := returns_modify.mp h
    exact ⟨rfl, rfl⟩
  transfer := fun _ _ _ _ _ _ h => moved_of_move h
  transferFrom := by
    intro sender source target amount s u t h
    obtain ⟨_, _, h⟩ := ReadOnly.returns_bind_iff.mp h
    obtain ⟨_, _, h⟩ := ReadOnly.returns_bind_iff.mp h
    exact moved_of_move h

end PlainToken

/-- A holder deposits 5 and takes out 3; while it is paid, it passes 1 on. -/
theorem reentered_withdrawal :
    ∃ p, ReflTransGen (Step (program PlainToken.erc20 (bytesToAddress [9])) fun _ => False)
        ⟨deployed PlainToken.erc20 0, []⟩ p ∧
      p.frames.length = 3 ∧ p.state.ipBalance = 2 ∧
      p.state.token.balanceOf (bytesToAddress [1]) = 1 ∧
      p.state.token.balanceOf (bytesToAddress [2]) = 1 ∧
      p.state.events = [.deposit (bytesToAddress [1]) 5] ∧
      FullyBacked PlainToken.erc20 (bytesToAddress [9]) (fun _ => False) 0 p := by
  have hdeposit : ReflTransGen
      (Step (program PlainToken.erc20 (bytesToAddress [9])) fun _ => False)
      ⟨deployed PlainToken.erc20 0, []⟩ _ :=
    ((((ReflTransGen.single (.enter trivial)).tail (.call (bytesToAddress [1]) 5 .deposit)).tail
      (.act (by rfl))).tail (.act (by rfl))).tail .stop
  have hpaid := (((hdeposit.tail (.call (bytesToAddress [1]) 0 (.withdraw 3))).tail
    (.act (by rfl))).tail (.act (by rfl))).tail (.send (by decide))
  have hmoved := ((((hpaid.tail (.call (bytesToAddress [1]) 0
    (.transfer (bytesToAddress [2]) 1))).tail (.act (by rfl))).tail (.act (by rfl))).tail
    (.act (by rfl))).tail .stop
  exact ⟨_, hmoved, rfl, rfl, by decide, by decide, rfl,
    wip_fully_backed PlainToken.laws hmoved⟩

end Story.Contracts.WIP
