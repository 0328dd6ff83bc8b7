/-
# Story.EvmStaking.EndBlockReturns -- the end of a block does not stop the chain

An error or a panic in `EndBlock` stops every node at the same height. Its code has many ways
to stop: an address that does not decode, an amount that does not fit a `uint64`, an account or
a module account that cannot pay, a payout address that is not on record. None of them happens
while the SDK modules are sound.

`Treasury` is what the module sees of them: the spendable balance of each account, the balance
of its own module account, and who has staked with whom. `Treasury.Laws` says what a sound
treasury answers to the calls that `EndBlock` makes. The balances decide whether a payment goes
through: all principal of a block is on the accounts before any of it is taken, a residue is what
is spendable, and what is paid as rewards has just been credited.
-/
import Story.Effect.Total
import Story.EvmStaking.PayoutReady
import Story.EvmStaking.Separation
import Story.EvmStaking.Sweep

namespace Story.EvmStaking

open Story.Effect Story.Errors Story.Sdk Story.Collections Story.Eth Story.Netconf
open Story.EvmEngine (effect effect_of_returns returns_of_completes)

variable {W : Type}

/-! ## A sound treasury -/

/-- What the module sees of the SDK modules, in bond coins. The accounts of modules are left out:
coins come and go there for other reasons, and nobody delegates from one. -/
structure Treasury (W : Type) where
  sound : W → Prop
  isModule : Bytes → Prop
  spendable : W → Bytes → Int
  /-- The balance of the module account. -/
  pool : W → Int
  validators : W → List Validator
  delegations : W → (val : Bytes) → List Delegation

/-- Coins of the bond denomination. -/
def bondCoins (n : Int) : Coins := newCoins ⟨defaultBondDenom, n⟩

/-- An entry that can be paid: its addresses decode, and the delegator is no module. -/
structure Payable (codec : Codec) (isModule : Bytes → Prop) (entry : UnbondedEntry) : Prop where
  delegator : ∃ del, codec.accAddressFromBech32 entry.delegatorAddress = .ok del ∧ ¬ isModule del
  validator : ∃ val, codec.valAddressFromBech32 entry.validatorAddress = .ok val
  amount : 0 ≤ entry.amount

theorem principalOf_nonneg {codec : Codec} {isModule : Bytes → Prop}
    {entries : List UnbondedEntry} (h : ∀ e ∈ entries, Payable codec isModule e) (d : Bytes) :
    0 ≤ principalOf codec d entries := by
  refine List.sum_nonneg fun x hx => ?_
  obtain ⟨e, he, rfl⟩ := List.mem_map.mp hx
  split
  · exact (h e he).amount
  · exact le_refl 0

namespace Treasury

variable (T : Treasury W) (held : W → String → Prop)

/-- The treasury stays sound, and nobody stakes or comes to hold anything. -/
structure Kept (w w' : W) : Prop where
  sound : T.sound w'
  held : NoNewHolder held w w'
  validators : T.validators w' = T.validators w
  delegations : T.delegations w' = T.delegations w

/-- Moreover each account gains what `d` says, and the module account gains `p`. -/
structure Shift (d : Bytes → Int) (p : Int) (w w' : W) : Prop extends T.Kept held w w' where
  spendable : ∀ a, ¬ T.isModule a → T.spendable w' a = T.spendable w a + d a
  pool : T.pool w' = T.pool w + p

/-- The staking module reports this delegation for this validator. -/
structure Delegated (codec : Codec) (w : W) (v : Validator) (val : Address) (d : Delegation) :
    Prop where
  validator : v ∈ T.validators w
  operator : codec.validatorStringToBytes v.operator = .ok (bytesOf val)
  delegation : d ∈ T.delegations w (bytesOf val)

/-- **What a sound treasury answers** in the block of `ctx`. Balances stay below 2^63; matured
principal is on the accounts of its owners when it is reported; the validators and delegations that
are reported have rewards and commission, which go to the account they belong to; and a payment
that is covered goes through. -/
structure Laws (K : Keepers W) (ctx : Ctx) : Prop where
  accAddress : ∀ b : Address,
    K.codec.accAddressFromBech32 (K.codec.accString (bytesOf b)) = .ok (bytesOf b)
  valAddress : ∀ b : Address,
    K.codec.valAddressFromBech32 (K.codec.valString (bytesOf b)) = .ok (bytesOf b)
  bounded : ∀ w a, T.sound w → ¬ T.isModule a → 0 ≤ T.spendable w a ∧ T.spendable w a < 2 ^ 63
  pool_nonneg : ∀ w, T.sound w → 0 ≤ T.pool w
  singularity : ∀ w, T.sound w → ∃ h, Returns (K.staking.getSingularityHeight ctx) w h w
  endBlocker : ∀ w, T.sound w → ∃ entries w',
    Returns (K.staking.endBlockerWithUnbondedEntries ctx) w entries w' ∧ T.sound w' ∧
      NoNewHolder held w w' ∧
      (∀ e ∈ entries, Payable K.codec T.isModule e ∧ held w e.delegatorAddress) ∧
      ∀ a, ¬ T.isModule a → principalOf K.codec a entries ≤ T.spendable w' a
  spendableCoin : ∀ a w, T.sound w → ¬ T.isModule a →
    Returns (K.bank.spendableCoin ctx a defaultBondDenom) w ⟨defaultBondDenom, T.spendable w a⟩ w
  sendToModule : ∀ a n w, T.sound w → ¬ T.isModule a → 0 ≤ n → n ≤ T.spendable w a → ∃ w',
    Returns (K.bank.sendCoinsFromAccountToModule ctx a moduleName (bondCoins n)) w () w' ∧
      T.Shift held (Pi.single a (-n)) n w w'
  burnCoins : ∀ n w, T.sound w → 0 ≤ n → n ≤ T.pool w → ∃ w',
    Returns (K.bank.burnCoins ctx moduleName (bondCoins n)) w () w' ∧
      T.Shift held 0 (-n) w w'
  getDelegation : ∀ x y del val w, T.sound w → K.codec.accAddressFromBech32 x = .ok del →
    K.codec.valAddressFromBech32 y = .ok val →
    (∃ d, Returns (K.staking.getDelegation ctx del val) w d w) ∨
      ∃ e, Fails (K.staking.getDelegation ctx del val) w (.err e) w ∧ .noDelegation ∈ e.is
  commissionPaid : ∀ y val w, T.sound w → K.codec.valAddressFromBech32 y = .ok val →
    (∃ n w', Returns (K.distr.withdrawValidatorCommission ctx val) w (bondCoins n) w' ∧ 0 ≤ n ∧
        T.Shift held (Pi.single val n) 0 w w') ∨
      ∃ e, Fails (K.distr.withdrawValidatorCommission ctx val) w (.err e) w ∧
        .noValidatorCommission ∈ e.is
  getAllValidators : ∀ w, T.sound w →
    Returns (K.staking.getAllValidators ctx) w (T.validators w) w ∧
      (T.validators w).length < 2 ^ 63 ∧ ∀ v ∈ T.validators w, ∃ b : Address,
        K.codec.validatorStringToBytes v.operator = .ok (bytesOf b)
  getValidatorDelegations : ∀ w v (val : Address), T.sound w → v ∈ T.validators w →
    K.codec.validatorStringToBytes v.operator = .ok (bytesOf val) →
    Returns (K.staking.getValidatorDelegations ctx (bytesOf val)) w
      (T.delegations w (bytesOf val)) w
  delegators : ∀ w v val d, T.sound w → T.Delegated K.codec w v val d →
    held w d.delegatorAddress ∧
      ∃ del, K.codec.accAddressFromBech32 d.delegatorAddress = .ok del ∧ ¬ T.isModule del
  period : ∀ w v, T.sound w → v ∈ T.validators w → ∃ p w',
    Returns (K.distr.incrementValidatorPeriod ctx v) w p w' ∧ T.Shift held 0 0 w w'
  /-- The rewards are asked for up to the period that has just been closed. -/
  calculated : ∀ w v val d p w', T.sound w → T.Delegated K.codec w v val d →
    Returns (K.distr.incrementValidatorPeriod ctx v) w p w' → ∃ r w'',
      Returns (K.distr.calculateDelegationRewards ctx v d p) w' r w'' ∧
        0 ≤ r defaultBondDenom ∧ r defaultBondDenom < 2 ^ 62 * 10 ^ 18 ∧
        T.Shift held 0 0 w' w''
  accumulated : ∀ w v (val : Address), T.sound w → v ∈ T.validators w →
    K.codec.validatorStringToBytes v.operator = .ok (bytesOf val) → ∃ r w',
      Returns (K.distr.getValidatorAccumulatedCommission ctx (bytesOf val)) w r w' ∧
        0 ≤ r defaultBondDenom ∧ r defaultBondDenom < 2 ^ 62 * 10 ^ 18 ∧
        T.Shift held 0 0 w w'
  rewardsPaid : ∀ w v val d del, T.sound w → T.Delegated K.codec w v val d →
    K.codec.accAddressFromBech32 d.delegatorAddress = .ok del → ∃ n w',
      Returns (K.distr.withdrawDelegationRewards ctx del (bytesOf val)) w (bondCoins n) w' ∧
        0 ≤ n ∧ T.Shift held (Pi.single del n) 0 w w'
  ubiBalance : ∀ w, T.sound w → ∃ n w',
    Returns (K.distr.getUbiBalanceByDenom ctx defaultBondDenom) w n w' ∧ 0 ≤ n ∧ n < 2 ^ 64 ∧
      T.Kept held w w'
  /-- What has just been reported is paid, if it is anything. -/
  ubiPaid : ∀ w n w', T.sound w →
    Returns (K.distr.getUbiBalanceByDenom ctx defaultBondDenom) w n w' → 0 < n → ∃ paid w'',
      Returns (K.distr.withdrawUbiByDenomToModule ctx defaultBondDenom moduleName) w'
        ⟨defaultBondDenom, paid⟩ w'' ∧ 0 ≤ paid ∧ T.Kept held w' w'' ∧
        T.pool w'' = T.pool w' + paid

variable {T held} {K : Keepers W} {ctx : Ctx} {w w' w'' : W} {d d' : Bytes → Int} {p p' : Int}

theorem Kept.refl (h : T.sound w) : T.Kept held w w := ⟨h, fun _ hx => hx, rfl, rfl⟩

theorem Kept.trans (h : T.Kept held w w') (h' : T.Kept held w' w'') : T.Kept held w w'' :=
  ⟨h'.sound, fun x hx => h.held x (h'.held x hx), h'.validators.trans h.validators,
    h'.delegations.trans h.delegations⟩

/-- Nothing has been paid. -/
theorem Shift.refl (h : T.sound w) (a : Bytes) : T.Shift held (Pi.single a 0) 0 w w where
  toKept := .refl h
  spendable := by simp
  pool := (add_zero _).symm

theorem Shift.trans (h : T.Shift held d p w w') (h' : T.Shift held d' p' w' w'') :
    T.Shift held (d + d') (p + p') w w'' where
  toKept := h.toKept.trans h'.toKept
  spendable := fun a ha => by rw [h'.spendable a ha, h.spendable a ha, add_assoc, Pi.add_apply]
  pool := by rw [h'.pool, h.pool, add_assoc]

end Treasury

/-! ## The state of the module -/

/-- The module's own part of a step: payout addresses and parameters stay as they are. -/
structure Treasury.Passes (T : Treasury W) (held : W → String → Prop) (s t : Store W) : Prop where
  kept : T.Kept held s.accounts.sdk t.accounts.sdk
  book : t.accounts.book = s.accounts.book
  params : t.params = s.params

namespace Treasury.Passes

variable {T : Treasury W} {held : W → String → Prop} {s t u : Store W}

theorem refl (h : T.sound s.accounts.sdk) : T.Passes held s s := ⟨.refl h, rfl, rfl⟩

theorem trans (h : T.Passes held s t) (h' : T.Passes held t u) : T.Passes held s u :=
  ⟨h.kept.trans h'.kept, h'.book.trans h.book, h'.params.trans h.params⟩

/-- Who had addresses and stake before has them now. -/
theorem covered (h : T.Passes held s t) (hs : Covered held s.accounts) :
    Covered held t.accounts := by
  intro x hx
  rw [h.book]
  exact hs x (h.kept.held x hx)

end Treasury.Passes

/-! ## Parameters -/

section EndBlock

variable {K : Keepers W} {T : Treasury W} {held : W → String → Prop} {ctx : Ctx} {α : Type}

variable (laws : T.Laws held K ctx)

include laws

/-! ## Unstake withdrawals -/

end EndBlock

/-! ## A sound ledger -/

/-- Rewards are owed for stake with the validator `v` only, and no account can come to more
than 2^62 by what it is owed. -/
structure LedgerSound (v : Bytes) (l : Ledger) : Prop where
  balance : ∀ a, 0 ≤ l.balance a
  rewards : ∀ a b, 0 ≤ l.rewards a b
  elsewhere : ∀ a b, b ≠ v → l.rewards a b = 0
  commission : ∀ a, 0 ≤ l.commission a
  maturing : ∀ e ∈ l.maturing, 0 ≤ e.amount
  bounded : ∀ a, l.balance a + l.rewards a v + l.commission a +
    principalOf Ledger.codec a l.maturing < 2 ^ 62
  pool : 0 ≤ l.pool moduleName
  ubi : 0 ≤ l.ubi ∧ l.ubi < 2 ^ 62
  validators : l.validators.length < 2 ^ 63
  operators : ∀ v ∈ l.validators, ∃ b : Address, Ledger.decode v.operator = bytesOf b

namespace LedgerSound

variable {v : Bytes} {l : Ledger} (h : LedgerSound v l)

include h

theorem payable {e : UnbondedEntry} (he : e ∈ l.maturing) :
    Payable Ledger.codec (fun _ => False) e :=
  ⟨⟨_, rfl, id⟩, ⟨_, rfl⟩, h.maturing e he⟩

theorem principal (a : Bytes) : 0 ≤ principalOf Ledger.codec a l.maturing :=
  principalOf_nonneg (fun _ he => h.payable he) a

omit h in
theorem balance_pay (addr : Bytes) (n : Int) :
    (l.pay addr n).balance = l.balance + Pi.single addr n := by
  funext a
  by_cases ha : a = addr
  · subst ha
    simp [Ledger.pay]
  · simp [Ledger.pay, Function.update_of_ne ha, Pi.single_eq_of_ne ha]

/-- Coins that an account has can be taken. -/
theorem send {addr : Bytes} {n : Int} (hn : 0 ≤ n) (hle : n ≤ l.balance addr) :
    LedgerSound v ((l.pay addr (-n)).payModule moduleName n) where
  __ := h
  balance a := by
    have := h.balance a
    change 0 ≤ (l.pay addr (-n)).balance a
    rw [balance_pay, Pi.add_apply, Pi.single_apply]
    split
    next ha => subst ha; omega
    next => omega
  bounded a := by
    have := h.bounded a
    change (l.pay addr (-n)).balance a + l.rewards a v + l.commission a +
      principalOf Ledger.codec a l.maturing < 2 ^ 62
    rw [balance_pay, Pi.add_apply, Pi.single_apply]
    split <;> omega
  pool := by
    have := h.pool
    simp only [Ledger.payModule, Ledger.pay, Function.update_self]
    omega

end LedgerSound

end Story.EvmStaking
