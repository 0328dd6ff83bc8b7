/-
# Story.EvmStaking.Separation -- principal and rewards are kept apart

Unbonded principal and rewards land on the same account, and the module tells them apart by
order alone: all principal of a block is burned before any balance is read, and whatever is left
then is taken to be rewards. So the account is watched through its spendable balance less
everything ever credited to it as rewards or commission. Quiet calls do not change this
difference, a payment lowers it by its amount, the staking module's end blocker raises it by the
principal it returns, and a staking event leaves it. Hence over any run what was queued as rewards
is what was credited and is not spendable any more.
-/
import Story.EvmStaking.Genesis
import Story.EvmStaking.Payments
import Story.EvmStaking.Run
import Story.Sdk.LedgerLaws

namespace Story.EvmStaking

open Story.Effect Story.Errors Story.Sdk Story.Collections Story.Eth Story.Netconf

variable {W : Type} {K : Keepers W} {ctx : Ctx} {s t : Store W}

/-! ## Accounts -/

/-- What the SDK modules keep about an account. `credited` is everything that was ever paid to it
as rewards or commission, `owed` the commission a validator can withdraw. Some of the accounts are
held by modules: coins come and go there for other reasons, and nobody delegates from one. -/
structure Purse (W : Type) where
  isModule : Bytes → Prop
  spendable : W → Bytes → Int
  credited : W → Bytes → Int
  owed : W → Bytes → Int
  staked : W → (del val : Bytes) → Prop

namespace Purse

variable (P : Purse W)

/-- The accounts that are not held by a module. -/
abbrev Account : Type := { d : Bytes // ¬ P.isModule d }

/-- What an account can spend beyond what was credited to it. -/
def net (w : W) (d : P.Account) : Int := P.spendable w d - P.credited w d

/-- The account at the address has lost the amount, and otherwise nothing about any account has
changed. -/
structure Loses (addr : Bytes) (amount : Int) (w w' : W) : Prop where
  spendable : ∀ d : P.Account,
    P.spendable w' d + (if addr = d then amount else 0) = P.spendable w d
  credited : ∀ d : P.Account, P.credited w' d = P.credited w d
  owed : ∀ d : P.Account, P.owed w' d = P.owed w d
  staked : P.staked w' = P.staked w

/-- Nothing about any account changes. -/
structure Untouched (w w' : W) : Prop where
  spendable : ∀ d : P.Account, P.spendable w' d = P.spendable w d
  credited : ∀ d : P.Account, P.credited w' d = P.credited w d
  owed : ∀ d : P.Account, P.owed w' d = P.owed w d
  staked : P.staked w' = P.staked w

/-- A validator has been paid what it was owed. -/
structure PaysCommission (val : Bytes) (w w' : W) : Prop where
  own : ∀ d : P.Account, val = d → P.spendable w' d = P.spendable w d + P.owed w d ∧
    P.credited w' d = P.credited w d + P.owed w d ∧ P.owed w' d = 0
  other : ∀ d : P.Account, val ≠ d → P.spendable w' d = P.spendable w d ∧
    P.credited w' d = P.credited w d ∧ P.owed w' d = P.owed w d
  staked : P.staked w' = P.staked w

variable {P}

theorem Untouched.loses {w w' : W} (h : P.Untouched w w') (addr : Bytes) : P.Loses addr 0 w w' where
  spendable := fun d => by simpa using h.spendable d
  credited := h.credited
  owed := h.owed
  staked := h.staked

theorem Untouched.trans_loses {addr : Bytes} {amount : Int} {w w' w'' : W}
    (h : P.Untouched w w') (h' : P.Loses addr amount w' w'') : P.Loses addr amount w w'' where
  spendable := fun d => (h'.spendable d).trans (h.spendable d)
  credited := fun d => (h'.credited d).trans (h.credited d)
  owed := fun d => (h'.owed d).trans (h.owed d)
  staked := h'.staked.trans h.staked

theorem Untouched.net_eq {w w' : W} (h : P.Untouched w w') : P.net w' = P.net w := by
  funext d
  rw [net, net, h.spendable, h.credited]

theorem Loses.net_eq {addr : Bytes} {amount : Int} {w w' : W} (h : P.Loses addr amount w w')
    (d : P.Account) : P.net w' d + (if addr = d then amount else 0) = P.net w d := by
  have hspendable := h.spendable d
  rw [net, net, h.credited]
  omega

theorem Loses.trans_untouched {addr : Bytes} {amount : Int} {w w' w'' : W}
    (h : P.Loses addr amount w w') (h' : P.Untouched w' w'') : P.Loses addr amount w w'' where
  spendable := fun d => by rw [h'.spendable, h.spendable]
  credited := fun d => (h'.credited d).trans (h.credited d)
  owed := fun d => (h'.owed d).trans (h.owed d)
  staked := h'.staked.trans h.staked

end Purse

/-- The string names the account. -/
def belongsTo (codec : Codec) (d : Bytes) (x : String) : Bool :=
  (codec.accAddressFromBech32 x).toOption == some d

theorem belongsTo_iff {codec : Codec} {addr d : Bytes} {x : String}
    (h : codec.accAddressFromBech32 x = .ok addr) : belongsTo codec d x = true ↔ addr = d := by
  simp [belongsTo, h, Except.toOption]

/-- The principal that some entries return to an account. -/
def principalOf (codec : Codec) (d : Bytes) (entries : List UnbondedEntry) : Int :=
  (entries.map fun e => if belongsTo codec d e.delegatorAddress then e.amount else 0).sum

/-- The rewards that some debug lines name for an account. -/
def rewardsOf (codec : Codec) (d : Bytes) (lines : List LogLine) : Int :=
  ((lines.filterMap LogLine.reward).map fun r =>
    if belongsTo codec d r.1 then (r.2.toNat : Int) else 0).sum

@[simp] theorem principalOf_append (codec : Codec) (d : Bytes) (l l' : List UnbondedEntry) :
    principalOf codec d (l ++ l') = principalOf codec d l + principalOf codec d l' := by
  simp [principalOf]

@[simp] theorem rewardsOf_append (codec : Codec) (d : Bytes) (l l' : List LogLine) :
    rewardsOf codec d (l ++ l') = rewardsOf codec d l + rewardsOf codec d l' := by
  simp [rewardsOf]

/-- **What is relied on**, of the accounts that are not held by modules: rewards and commission are
paid to the account they belong to, the end blocker returns the principal of its entries, and coins
do not move otherwise. An address of the execution layer survives bech32. -/
structure Purse.Laws (P : Purse W) (K : Keepers W) : Prop where
  accAddress : ∀ b : Address,
    K.codec.accAddressFromBech32 (K.codec.accString (bytesOf b)) = .ok (bytesOf b)
  valAddress : ∀ b : Address,
    K.codec.valAddressFromBech32 (K.codec.valString (bytesOf b)) = .ok (bytesOf b)
  quiet : Quiet K (Same P.net)
  mintCoins : ∀ ctx name coins w w', Returns (K.bank.mintCoins ctx name coins) w () w' →
    P.net w' = P.net w
  burnCoins : ∀ ctx name coins w w', Returns (K.bank.burnCoins ctx name coins) w () w' →
    P.Untouched w w'
  sendToAccount : ∀ ctx name addr coins w w',
    Returns (K.bank.sendCoinsFromModuleToAccount ctx name addr coins) w () w' →
    ∀ d, P.net w' d = P.net w d + if addr = d then coins defaultBondDenom else 0
  sendToModule : ∀ ctx addr name coins w w',
    Returns (K.bank.sendCoinsFromAccountToModule ctx addr name coins) w () w' →
    P.Loses addr (coins defaultBondDenom) w w'
  spendableCoin : ∀ ctx addr w coin w',
    Returns (K.bank.spendableCoin ctx addr defaultBondDenom) w coin w' →
    P.Untouched w w' ∧ (¬ P.isModule addr → coin.amount = P.spendable w addr)
  delegate : ∀ ctx msg addr w w',
    K.codec.accAddressFromBech32 msg.delegatorAddress = .ok addr →
    Returns (K.staking.delegate ctx msg) w () w' →
    ∀ d, P.net w' d + (if addr = d then msg.amount.amount else 0) = P.net w d
  newMsgCreateValidator : ∀ m msg, K.staking.newMsgCreateValidator m = .ok msg →
    msg.validatorAddress = m.validatorAddress ∧ msg.value = m.value
  createValidator : ∀ ctx msg addr w w',
    K.codec.valAddressFromBech32 msg.validatorAddress = .ok addr →
    Returns (K.staking.createValidator ctx msg) w () w' →
    ∀ d, P.net w' d + (if addr = d then msg.value.amount else 0) = P.net w d
  endBlocker : ∀ ctx w entries w',
    Returns (K.staking.endBlockerWithUnbondedEntries ctx) w entries w' →
    ∀ d, P.net w' d = P.net w d + principalOf K.codec d entries
  delegated : ∀ ctx del val totallyUnstaked w w',
    AsksDelegation K ctx del val totallyUnstaked w w' →
    P.Untouched w w' ∧ (totallyUnstaked = false ↔ P.staked w del val)
  commission : ∀ ctx val w coins w',
    WithdrawsCommission K ctx val w coins w' → P.PaysCommission val w w'

/-! ## What payments are made of -/

/-- The withdrawal returns the principal of the entry to its delegator. -/
def IsPrincipalOf (a : Accounts W) (entry : UnbondedEntry) (w : Withdrawal) : Prop :=
  a.delegatorWithdrawAddress entry.delegatorAddress = some w.executionAddress ∧
    entry.amount = w.amount.toNat ∧ w.withdrawalType = .unstake

/-- The withdrawal pays the rewards the line is about to the delegator it names. -/
def IsRewardOf (a : Accounts W) (line : LogLine) (w : Withdrawal) : Prop :=
  ∃ delegator, line.reward = some (delegator, w.amount) ∧
    a.delegatorRewardAddress delegator = some w.executionAddress ∧ w.withdrawalType = .reward

/-- The withdrawal of a payment is what it should be. -/
def Payment.Made (a : Accounts W) : Payment → Prop
  | .principal entry w => IsPrincipalOf a entry w
  | .reward line w => IsRewardOf a line w
  | .ubi w => w.withdrawalType = .ubi

/-- The debug line of an entry. -/
def unstakeLine (entry : UnbondedEntry) : LogLine :=
  .unstake entry.delegatorAddress entry.validatorAddress entry.amount

theorem rewardsOf_unstakeLines (codec : Codec) (d : Bytes) (entries : List UnbondedEntry) :
    rewardsOf codec d (entries.map unstakeLine) = 0 := by
  induction entries with
  | nil => rfl
  | cons e entries ih => exact ih

def Payment.entry : Payment → Option UnbondedEntry
  | .principal entry _ => some entry
  | _ => none

/-- The line a payment writes. -/
def Payment.line : Payment → Option LogLine
  | .principal entry _ => some (unstakeLine entry)
  | .reward line _ => some line
  | .ubi _ => none

/-- The entries some payments are for, and the lines they write. -/
def entriesOf (ps : List (Option Payment)) : List UnbondedEntry :=
  ps.filterMap fun p => p.bind Payment.entry

def linesOf (ps : List (Option Payment)) : List LogLine :=
  ps.filterMap fun p => p.bind Payment.line

theorem Payment.Burned.made {p : Payment} {w : W} (h : p.Burned K ctx s w) : p.Made s.accounts := by
  cases p with
  | principal entry withdrawal =>
      obtain ⟨addr, val, evm, amount, _, _, hevm, hamount, _, rfl⟩ := h
      exact ⟨hevm, hamount, rfl⟩
  | reward line withdrawal =>
      obtain ⟨delegator, addr, val, evm, coins, amount, hline, _, hevm, _, _, rfl⟩ := h
      exact ⟨delegator, hline, hevm, rfl⟩
  | ubi withdrawal =>
      obtain ⟨balance, coin, w₁, w₂, amount, _, _, _, _, rfl⟩ := h
      rfl

/-- The two address maps a payment reads. -/
def Accounts.payoutMaps (a : Accounts W) : AddressMap × AddressMap :=
  (a.delegatorWithdrawAddress, a.delegatorRewardAddress)

theorem Payment.Made.congr {a a' : Accounts W} (h : a'.payoutMaps = a.payoutMaps) {p : Payment}
    (hp : p.Made a') : p.Made a := by
  obtain ⟨hw, hr⟩ := Prod.mk.inj h
  cases p with
  | principal entry withdrawal => exact ⟨hw ▸ hp.1, hp.2⟩
  | reward line withdrawal =>
      obtain ⟨delegator, hline, hevm, htype⟩ := hp
      exact ⟨delegator, hline, hr ▸ hevm, htype⟩
  | ubi withdrawal => exact hp

/-- **What a run of payments leaves behind**: every payment is made to the addresses on record at
the start, and has written its line. -/
theorem payments_made {Q : W → W → Prop} {ps : List (Option Payment)}
    (h : Trace (PayStep K Q ctx) s ps t) :
    (∀ p, some p ∈ ps → p.Made s.accounts) ∧ t.accounts.payoutMaps = s.accounts.payoutMaps ∧
      t.journal = s.journal ++ linesOf ps := by
  refine h.invariant (I := fun ps t => (∀ p, some p ∈ ps → p.Made s.accounts) ∧
    t.accounts.payoutMaps = s.accounts.payoutMaps ∧ t.journal = s.journal ++ linesOf ps)
    ⟨by simp, rfl, by simp [linesOf]⟩ ?_
  rintro ps p t u ⟨hmade, hmaps, hjournal⟩ hstep
  rcases p with _ | p
  · obtain ⟨w, index, _, rfl⟩ := hstep
    refine ⟨fun p hp => hmade p (by simpa using hp), hmaps, ?_⟩
    rw [linesOf, List.filterMap_append]
    simpa [linesOf, Store.withSdk] using hjournal
  obtain ⟨w, hburned, rfl⟩ := hstep
  refine ⟨?_, ?_, ?_⟩
  · intro p' hp'
    rcases List.mem_append.mp hp' with hp' | hp'
    · exact hmade p' hp'
    · obtain rfl : p' = p := by simpa using hp'
      exact hburned.made.congr hmaps
  · rw [← hmaps]
    cases p <;> rfl
  · rw [linesOf, List.filterMap_append, ← List.append_assoc, ← linesOf, ← hjournal]
    cases p with
    | principal entry withdrawal => rfl
    | reward line withdrawal => rfl
    | ubi withdrawal => exact (List.append_nil _).symm

/-! ## Payments and the account -/

/-- Whom a payment is for. -/
def Payment.payee : Payment → Option String
  | .principal entry _ => some entry.delegatorAddress
  | .reward line _ => line.reward.map Prod.fst
  | .ubi _ => none

/-- What some payments come to for an account. -/
def paidTo (codec : Codec) (d : Bytes) (p : Option Payment) : Int :=
  match p with
  | none => 0
  | some p => if p.payee.any (belongsTo codec d) then p.withdrawal.amount.toNat else 0

section Accounting

variable {P : Purse W} (laws : P.Laws K)

include laws

/-- Coins of an account that are burned are lost to it. -/
theorem Burns.loses {addr : Bytes} {coins : Coins} {w w' : W} (h : Burns K ctx addr coins w w') :
    P.Loses addr (coins defaultBondDenom) w w' := by
  obtain ⟨w₁, hsend, hburn⟩ := h
  exact (laws.sendToModule _ _ _ _ _ _ hsend).trans_untouched (laws.burnCoins _ _ _ _ _ hburn)

/-- **A payment lowers the account of its payee by its amount**, and no other. -/
theorem PayStep.net_eq {p : Option Payment} (h : PayStep K (Same P.net) ctx p s t)
    (d : P.Account) :
    P.net t.accounts.sdk d + paidTo K.codec d p = P.net s.accounts.sdk d := by
  rcases p with _ | p
  · obtain ⟨w, index, hw, rfl⟩ := h
    have hnet : P.net w = P.net s.accounts.sdk := hw
    simp [paidTo, Store.withSdk, hnet]
  obtain ⟨w, hburned, rfl⟩ := h
  have hsettle : (s.settle w p).accounts.sdk = w := by cases p <;> rfl
  rw [hsettle]
  cases p with
  | principal entry withdrawal =>
      obtain ⟨addr, val, evm, amount, haddr, _, _, _, hburns, rfl⟩ := hburned
      have hnet := (hburns.loses laws).net_eq d
      simpa [paidTo, Payment.payee, Payment.withdrawal, belongsTo_iff haddr, newCoins] using hnet
  | reward line withdrawal =>
      obtain ⟨delegator, addr, val, evm, coins, amount, hline, haddr, _, hcoins, hburns, rfl⟩ :=
        hburned
      have hnet := (hburns.loses laws).net_eq d
      simpa [paidTo, Payment.payee, Payment.withdrawal, hline, belongsTo_iff haddr, hcoins]
        using hnet
  | ubi withdrawal =>
      obtain ⟨balance, coin, w₁, w₂, amount, hbalance, hcoin, hburn, _, rfl⟩ := hburned
      have h₁ : P.net w₁ = P.net s.accounts.sdk :=
        (laws.quiet.getUbiBalanceByDenom ctx _).returns _ _ _ hbalance
      have h₂ : P.net w₂ = P.net w₁ :=
        (laws.quiet.withdrawUbiByDenomToModule ctx _ _).returns _ _ _ hcoin
      have h₃ : P.net w = P.net w₂ := (laws.burnCoins _ _ _ _ _ hburn).net_eq
      simp [paidTo, Payment.payee, h₃, h₂, h₁]

omit laws in
/-- What a payment comes to is principal or rewards. -/
theorem paidTo_eq {a : Accounts W} {p : Payment} (h : p.Made a) (codec : Codec) (d : Bytes) :
    paidTo codec d (some p) =
      principalOf codec d (entriesOf [some p]) + rewardsOf codec d (linesOf [some p]) := by
  cases p with
  | principal entry withdrawal =>
      obtain ⟨_, hamount, _⟩ := h
      show (if belongsTo codec d entry.delegatorAddress then (withdrawal.amount.toNat : Int)
        else 0) = principalOf codec d [entry] + 0
      simp [principalOf, hamount]
  | reward line withdrawal =>
      obtain ⟨delegator, hline, _⟩ := h
      show _ = 0 + rewardsOf codec d [line]
      simp [paidTo, rewardsOf, Payment.payee, Payment.withdrawal, hline]
  | ubi withdrawal => rfl

/-- **A run of payments** lowers an account by the principal and the rewards it pays to it. -/
theorem net_of_payments {ps : List (Option Payment)}
    (h : Trace (PayStep K (Same P.net) ctx) s ps t) (d : P.Account) :
    P.net t.accounts.sdk d + principalOf K.codec d (entriesOf ps) +
      rewardsOf K.codec d (linesOf ps) = P.net s.accounts.sdk d := by
  refine h.invariant (I := fun ps t => P.net t.accounts.sdk d +
    principalOf K.codec d (entriesOf ps) + rewardsOf K.codec d (linesOf ps) =
      P.net s.accounts.sdk d) (by simp [principalOf, rewardsOf, entriesOf, linesOf]) ?_
  intro ps p t u ih hstep
  have hnet := hstep.net_eq laws d
  have hpaid : paidTo K.codec d p =
      principalOf K.codec d (entriesOf [p]) + rewardsOf K.codec d (linesOf [p]) := by
    rcases p with _ | p
    · rfl
    · obtain ⟨w, hburned, _⟩ := hstep
      exact paidTo_eq hburned.made K.codec d
  simp only [entriesOf, linesOf, List.filterMap_append, principalOf_append, rewardsOf_append]
    at ih hpaid ⊢
  omega

end Accounting

/-! ## The end of a block -/

/-- **What the end of a block leaves in the queues.** For each entry, in their order, a withdrawal
of its principal, and behind them nothing but UBI; and for each line about rewards that was
written, in their order, a withdrawal of these rewards. -/
structure KeptApart (entries : List UnbondedEntry) (s t : Store W) (lines : List LogLine) :
    Prop where
  journal : t.journal = s.journal ++ (entries.map unstakeLine ++ lines)
  unstakes : ∃ ws ubis, List.Forall₂ (IsPrincipalOf s.accounts) entries ws ∧
    (∀ w ∈ ubis, w.withdrawalType = .ubi) ∧
    t.withdrawalQueue = s.withdrawalQueue.pushAll (ws ++ ubis)
  rewards : ∃ ws, List.Forall₂ (IsRewardOf s.accounts) lines ws ∧
    t.rewardWithdrawalQueue = s.rewardWithdrawalQueue.pushAll ws

/-- A run without principal: its lines go with the rewards it queues, and the rest is UBI. -/
theorem rewards_made {a : Accounts W} {ps : List (Option Payment)}
    (hmade : ∀ p, some p ∈ ps → p.Made a) (hps : ∀ e w, some (.principal e w) ∉ ps) :
    List.Forall₂ (IsRewardOf a) (linesOf ps) (toRewardQueue ps) ∧ entriesOf ps = [] ∧
      ∀ w ∈ toWithdrawalQueue ps, w.withdrawalType = .ubi := by
  induction ps with
  | nil => exact ⟨.nil, rfl, by simp [toWithdrawalQueue]⟩
  | cons p ps ih =>
      obtain ⟨hlines, hentries, hubi⟩ := ih (fun p' hp' => hmade p' (List.mem_cons_of_mem _ hp'))
        fun e w h => hps e w (List.mem_cons_of_mem _ h)
      rcases p with _ | p
      · exact ⟨hlines, hentries, hubi⟩
      have hp := hmade p List.mem_cons_self
      cases p with
      | principal entry withdrawal => exact absurd List.mem_cons_self (hps entry withdrawal)
      | reward line withdrawal => exact ⟨.cons hp hlines, hentries, hubi⟩
      | ubi withdrawal =>
          refine ⟨hlines, hentries, ?_⟩
          intro w hw
          rcases List.mem_cons.mp hw with rfl | hw
          · exact hp
          · exact hubi w hw

/-- The payments of principal are one for each entry. -/
theorem principals_made {a : Accounts W} {pairs : List (UnbondedEntry × Withdrawal)}
    (hmade : ∀ p, some p ∈ principals pairs → p.Made a) :
    List.Forall₂ (IsPrincipalOf a) (pairs.map Prod.fst) (pairs.map Prod.snd) ∧
      toWithdrawalQueue (principals pairs) = pairs.map Prod.snd ∧
      toRewardQueue (principals pairs) = [] ∧
      linesOf (principals pairs) = (pairs.map Prod.fst).map unstakeLine ∧
      entriesOf (principals pairs) = pairs.map Prod.fst := by
  induction pairs with
  | nil => exact ⟨.nil, rfl, rfl, rfl, rfl⟩
  | cons pair pairs ih =>
      obtain ⟨hall, hw, hr, hl, he⟩ := ih fun p hp => hmade p (List.mem_cons_of_mem _ hp)
      have hp : IsPrincipalOf a pair.1 pair.2 := hmade (.principal pair.1 pair.2) List.mem_cons_self
      exact ⟨.cons hp hall, congrArg (pair.2 :: ·) hw, hr, congrArg (unstakeLine pair.1 :: ·) hl,
        congrArg (pair.1 :: ·) he⟩

/-- **Payments of principal, then of rewards.** The rewards they queue for an account lower it by
just their amount. -/
theorem keptApart_of_pays {P : Purse W} (laws : P.Laws K) {s' : Store W}
    {pairs : List (UnbondedEntry × Withdrawal)}
    (hprincipals : Trace (PayStep K (Same P.net) ctx) s (principals pairs) s')
    (hpays : PaysRewards K (Same P.net) ctx s' t) :
    ∃ lines, KeptApart (pairs.map Prod.fst) s t lines ∧ ∀ d : P.Account,
      P.net t.accounts.sdk d + principalOf K.codec d (pairs.map Prod.fst) +
        rewardsOf K.codec d lines = P.net s.accounts.sdk d := by
  obtain ⟨ps, hrest, hps⟩ := hpays
  have hrun := hprincipals.append hrest
  obtain ⟨hmade, _, hjournal⟩ := payments_made hrun
  obtain ⟨hw, hr⟩ := queues_of_payments (fun _ _ _ h => h.pushes) hrun
  obtain ⟨hall, hpw, hpr, hpl, hpe⟩ :=
    principals_made fun p hp => hmade p (List.mem_append_left _ hp)
  obtain ⟨hlines, hentries, hubi⟩ :=
    rewards_made (fun p hp => hmade p (List.mem_append_right _ hp)) hps
  refine ⟨linesOf ps, ⟨?_, ⟨_, _, hall, hubi, ?_⟩, _, hlines, ?_⟩, ?_⟩
  · rw [hjournal, ← hpl, linesOf, List.filterMap_append]
    rfl
  · rw [hw, ← hpw, toWithdrawalQueue, List.filterMap_append]
    rfl
  · rw [hr, toRewardQueue, List.filterMap_append, ← toRewardQueue, hpr]
    rfl
  · intro d
    have hnet := net_of_payments laws hrun d
    have he : entriesOf (principals pairs ++ ps) = pairs.map Prod.fst := by
      rw [entriesOf, List.filterMap_append, ← entriesOf, ← entriesOf, hpe, hentries,
        List.append_nil]
    have hl : rewardsOf K.codec d (linesOf (principals pairs ++ ps)) =
        rewardsOf K.codec d (linesOf ps) := by
      rw [linesOf, List.filterMap_append, ← linesOf, ← linesOf, hpl, rewardsOf_append,
        rewardsOf_unstakeLines, zero_add]
    rw [he, hl] at hnet
    exact hnet

theorem endBlockWithdrawals_keptApart {P : Purse W} (laws : P.Laws K)
    {entries : List UnbondedEntry} (h : Returns (endBlockWithdrawals K ctx entries) s () t) :
    ∃ lines, KeptApart entries s t lines ∧ ∀ d : P.Account,
      P.net t.accounts.sdk d + principalOf K.codec d entries + rewardsOf K.codec d lines =
        P.net s.accounts.sdk d := by
  have := laws.quiet
  obtain ⟨pairs, s', rfl, hprincipals, hpays⟩ := endBlockWithdrawals_pays (Q := Same P.net) h
  exact keptApart_of_pays laws hprincipals hpays

theorem processUnstakeWithdrawals_keptApart {P : Purse W} (laws : P.Laws K)
    {entries : List UnbondedEntry}
    (h : Returns (processUnstakeWithdrawals K ctx entries) s () t) :
    ∃ lines, KeptApart entries s t lines ∧ ∀ d : P.Account,
      P.net t.accounts.sdk d + principalOf K.codec d entries + rewardsOf K.codec d lines =
        P.net s.accounts.sdk d := by
  have := laws.quiet
  obtain ⟨pairs, s', rfl, hprincipals, hpays⟩ := processUnstakeWithdrawals_pays (Q := Same P.net) h
  exact keptApart_of_pays laws hprincipals hpays

/-- **A staking event** leaves every account as it was: what is minted for it is delegated. -/
theorem handle_net {P : Purse W} (laws : P.Laws K) {ev : StakingEvent} {a a' : Accounts W}
    (h : Returns (handle K ctx ev) a () a') : P.net a'.sdk = P.net a.sdk := by
  have := laws.quiet
  have hstake {addr : Bytes} {amount : Nat} {delegate : SdkProg W Unit}
      (hcalls : StakeCalls K (Same P.net) ctx addr amount delegate a.sdk a'.sdk)
      (hdelegate : ∀ w w', Returns delegate w () w' →
        ∀ d, P.net w' d + (if addr = d then (amount : Int) else 0) = P.net w d) :
      P.net a'.sdk = P.net a.sdk := by
    obtain ⟨w₁, w₂, w₃, h₁, hmint, hsend, hdel⟩ := hcalls
    have h₁ : P.net w₁ = P.net a.sdk := h₁
    have h₂ := laws.mintCoins _ _ _ _ _ hmint
    funext d
    have h₃ := laws.sendToAccount _ _ _ _ _ _ hsend d
    have h₄ := hdelegate _ _ hdel d
    simp only [newCoins, if_true] at h₃
    rw [h₂, h₁] at h₃
    omega
  cases ev with
  | deposit ev =>
      obtain ⟨msg, haddr, hamount, hcalls⟩ := processDeposit_calls (Q := Same P.net) h
      refine hstake hcalls fun w w' hdel => ?_
      have hnet := laws.delegate _ _ (bytesOf ev.delegator) _ _
        (by rw [haddr]; exact laws.accAddress _) hdel
      rwa [hamount] at hnet
  | createValidator ev =>
      obtain ⟨d, m, msg, _, haddr, hvalue, hmsg, hcalls⟩ :=
        processCreateValidator_calls (Q := Same P.net) h
      obtain ⟨haddr', hvalue'⟩ := laws.newMsgCreateValidator _ _ hmsg
      refine hstake hcalls fun w w' hdel => ?_
      have hnet := laws.createValidator _ _ (bytesOf d) _ _
        (by rw [haddr', haddr]; exact laws.valAddress _) hdel
      rwa [hvalue', hvalue] at hnet
  | _ => exact handle_quiet (Q := Same P.net) id h

/-- What an account holds beyond its credits, and what was queued for it as rewards. -/
def watched (P : Purse W) (codec : Codec) (d : P.Account) (s : Store W) : Int :=
  rewardsOf codec d s.journal + P.net s.accounts.sdk d

theorem endBlock_watched {P : Purse W} (laws : P.Laws K) (h : Returns (endBlock K ctx) s () t)
    (d : P.Account) : watched P K.codec d t = watched P K.codec d s := by
  obtain ⟨height, w, hheight, hcase⟩ := returns_endBlock h
  have hw : P.net w = P.net s.accounts.sdk :=
    (laws.quiet.getSingularityHeight ctx).returns _ _ _ hheight
  rcases hcase with ⟨_, rfl⟩ | ⟨_, entries, w', hend, h⟩
  · show rewardsOf K.codec d s.journal + P.net w d = _
    rw [hw, watched]
  · obtain ⟨lines, hkept, hnet⟩ := endBlockWithdrawals_keptApart laws h
    have hnet := hnet d
    have hend : P.net w' d = P.net w d + principalOf K.codec d entries :=
      laws.endBlocker _ _ _ _ hend d
    have hsdk : (s.withSdk w').accounts.sdk = w' := rfl
    rw [hsdk, hend, hw] at hnet
    rw [watched, watched, hkept.journal, rewardsOf_append, rewardsOf_append,
      rewardsOf_unstakeLines]
    show rewardsOf K.codec d s.journal + _ + _ = _
    omega

/-- **One step of the module** leaves what is watched. -/
theorem prog_watched {P : Purse W} (laws : P.Laws K) {action : Action Ctx}
    {out : List Eth.Withdrawal} (h : Returns (action.prog K (endBlock K)) s out t)
    (d : P.Account) :
    watched P K.codec d t = watched P K.codec d s := by
  cases action with
  | event ctx ev =>
      obtain ⟨a, ha, rfl, _⟩ := returns_prog_event.mp h
      show rewardsOf K.codec d s.journal + P.net a.sdk d = _
      rw [handle_net laws ha, watched]
  | blockEnd ctx => exact endBlock_watched laws (returns_prog_blockEnd.mp h).1 d
  | dequeueWithdrawals maxDequeue =>
      obtain ⟨q, _, rfl⟩ := returns_zoom.mp h
      rfl
  | dequeueRewardWithdrawals maxDequeue =>
      obtain ⟨q, _, rfl⟩ := returns_zoom.mp h
      rfl

/-! ## The residue loop

What the second loop does to an account depends on which entries there are, not on their order:
the commission of a validator is collected when one of them is its own last stake, and an account
is emptied when one of its entries is not passed over. -/

section Residue

variable {P : Purse W}

/-- One of the entries is the last of the validator's own stake. -/
def Collected (P : Purse W) (codec : Codec) (w₀ : W) (entries : List UnbondedEntry) (d : Bytes) :
    Prop :=
  ∃ e ∈ entries, codec.accAddressFromBech32 e.delegatorAddress = .ok d ∧
    codec.valAddressFromBech32 e.validatorAddress = .ok d ∧ ¬ P.staked w₀ d d

/-- One of the entries of the account is not passed over. -/
def Emptied (P : Purse W) (codec : Codec) (w₀ : W) (isV : Bool) (entries : List UnbondedEntry)
    (d : Bytes) : Prop :=
  ∃ e ∈ entries, ∃ val, codec.accAddressFromBech32 e.delegatorAddress = .ok d ∧
    codec.valAddressFromBech32 e.validatorAddress = .ok val ∧ (¬ P.staked w₀ d val ∨ isV = true)

/-- The account in `w`, when the loop that started in `w₀` has handled the entries. -/
structure AfterResidue (P : Purse W) (codec : Codec) (isV : Bool) (w₀ : W)
    (entries : List UnbondedEntry) (d : P.Account) (w : W) : Prop where
  staked : P.staked w = P.staked w₀
  collected : Collected P codec w₀ entries d →
    P.credited w d = P.credited w₀ d + P.owed w₀ d ∧ P.owed w d = 0
  uncollected : ¬ Collected P codec w₀ entries d →
    P.credited w d = P.credited w₀ d ∧ P.owed w d = P.owed w₀ d
  emptied : Emptied P codec w₀ isV entries d → P.spendable w d = 0
  unemptied : ¬ Emptied P codec w₀ isV entries d → P.spendable w d = P.spendable w₀ d

/-- **What the loop does to an account** for one entry. -/
structure ResidueStep (P : Purse W) (isV : Bool) (del val : Bytes) (d : P.Account) (w w' : W) :
    Prop where
  staked : P.staked w' = P.staked w
  credits : del = d ∧ val = d ∧ ¬ P.staked w d d →
    P.credited w' d = P.credited w d + P.owed w d ∧ P.owed w' d = 0
  keeps_credit : ¬ (del = d ∧ val = d ∧ ¬ P.staked w d d) →
    P.credited w' d = P.credited w d ∧ P.owed w' d = P.owed w d
  empties : del = d ∧ (¬ P.staked w d val ∨ isV = true) → P.spendable w' d = 0
  keeps_spendable : ¬ (del = d ∧ (¬ P.staked w d val ∨ isV = true)) →
    P.spendable w' d = P.spendable w d

/-- What asking for the delegation, and collecting commission, has done to an account. -/
structure Inspected (P : Purse W) (del val : Bytes) (totallyUnstaked : Bool) (d : P.Account)
    (w w' : W) : Prop where
  unstaked : totallyUnstaked = true ↔ ¬ P.staked w del val
  staked : P.staked w' = P.staked w
  credits : del = d ∧ val = d ∧ ¬ P.staked w d d →
    P.credited w' d = P.credited w d + P.owed w d ∧ P.owed w' d = 0
  keeps : ¬ (del = d ∧ val = d ∧ ¬ P.staked w d d) →
    P.spendable w' d = P.spendable w d ∧ P.credited w' d = P.credited w d ∧
      P.owed w' d = P.owed w d

theorem Inspects.inspected (laws : P.Laws K) {del val : Bytes} {totallyUnstaked : Bool} {w w' : W}
    (h : Inspects K ctx del val totallyUnstaked w w') (d : P.Account) :
    Inspected P del val totallyUnstaked d w w' := by
  obtain ⟨w₁, hask, hcommission⟩ := h
  obtain ⟨hsame, hiff⟩ := laws.delegated _ _ _ _ _ _ hask
  have hgone : totallyUnstaked = true ↔ ¬ P.staked w del val := by
    rw [← hiff, Bool.not_eq_false]
  split at hcommission
  next hself =>
    obtain ⟨coins, hc⟩ := hcommission
    obtain ⟨hunstaked, rfl⟩ := hself
    have hpays := laws.commission _ _ _ _ _ hc
    refine ⟨hgone, hpays.staked.trans hsame.staked, ?_, ?_⟩
    · rintro ⟨hd, _, _⟩
      obtain ⟨_, hcredited, howed⟩ := hpays.own d hd
      rw [hcredited, hsame.credited, hsame.owed]
      exact ⟨rfl, howed⟩
    · intro hnot
      have hne : del ≠ d := by
        rintro rfl
        exact hnot ⟨rfl, rfl, hgone.mp hunstaked⟩
      obtain ⟨hspendable, hcredited, howed⟩ := hpays.other d hne
      rw [hspendable, hcredited, howed]
      exact ⟨hsame.spendable d, hsame.credited d, hsame.owed d⟩
  next hother =>
    subst hcommission
    refine ⟨hgone, hsame.staked, ?_, fun _ => ⟨hsame.spendable d, hsame.credited d, hsame.owed d⟩⟩
    rintro ⟨rfl, rfl, hno⟩
    exact absurd ⟨hgone.mpr hno, rfl⟩ hother

/-- When the delegator then loses all it can spend, the entry was paid. -/
theorem Inspected.paid {isV totallyUnstaked : Bool} {del val : Bytes} {d : P.Account} {w w₁ w' : W}
    {amount : Int} (h : Inspected P del val totallyUnstaked d w w₁)
    (hpay : totallyUnstaked = true ∨ isV = true) (hloses : P.Loses del amount w₁ w')
    (hall : del = d → amount = P.spendable w₁ d) : ResidueStep P isV del val d w w' := by
  have hspendable := hloses.spendable d
  refine ⟨hloses.staked.trans h.staked, fun hown => ?_, fun hnot => ?_, ?_, fun hnot => ?_⟩
  · rw [hloses.credited, hloses.owed]
    exact h.credits hown
  · rw [hloses.credited, hloses.owed]
    exact (h.keeps hnot).2
  · rintro ⟨hd, _⟩
    rw [if_pos hd, hall hd] at hspendable
    omega
  · -- the entry of somebody else
    have hne : del ≠ d := by
      rintro rfl
      rw [h.unstaked] at hpay
      exact hnot ⟨rfl, hpay⟩
    rw [if_neg hne, add_zero] at hspendable
    rw [hspendable]
    exact (h.keeps fun hown => hne hown.1).1

/-- **The second loop, for one entry.** -/
theorem unstakeResidue_step (laws : P.Laws K) {entry : UnbondedEntry}
    (h : Returns (unstakeResidue K ctx entry) s () t) (d : P.Account) :
    ∃ del val isV, K.codec.accAddressFromBech32 entry.delegatorAddress = .ok del ∧
      K.codec.valAddressFromBech32 entry.validatorAddress = .ok val ∧
      isV121 ctx.chainID ctx.blockHeight = .ok isV ∧
      ResidueStep P isV del val d s.accounts.sdk t.accounts.sdk := by
  obtain ⟨del, val, totallyUnstaked, isV, w, hdel, hval, hisV, hinspects, hcase⟩ :=
    returns_unstakeResidue h
  refine ⟨del, val, isV, hdel, hval, hisV, ?_⟩
  have hseen := hinspects.inspected laws d
  rcases hcase with ⟨hstaked, hbefore, rfl⟩ |
    ⟨hpay, spendable, amount, w₁, hspendable, hamount, hcase⟩
  · -- passed over: the delegation remains, so nothing was collected either
    have hremains : P.staked s.accounts.sdk del val := by
      by_contra hno
      rw [hseen.unstaked.mpr hno] at hstaked
      cases hstaked
    have hkeeps := hseen.keeps (by
      rintro ⟨rfl, rfl, hno⟩
      exact hno hremains)
    refine ⟨hseen.staked, hseen.credits, fun _ => hkeeps.2, ?_, fun _ => hkeeps.1⟩
    rintro ⟨rfl, hno | hisV⟩
    · exact absurd hremains hno
    · rw [hbefore] at hisV
      cases hisV
  obtain ⟨hsame, hreported⟩ := laws.spendableCoin _ _ _ _ _ hspendable
  have hall : del = d → (amount.toNat : Int) = P.spendable w d := by
    rintro rfl
    rw [← hreported d.2, hamount]
  rcases hcase with ⟨hzero, rfl⟩ | ⟨evm, w₂, _, hburns, rfl⟩
  · -- nothing to burn: the account was empty
    rw [hzero] at hall
    exact hseen.paid hpay (hsame.loses del) hall
  · refine hseen.paid hpay (hsame.trans_loses (hburns.loses laws)) ?_
    simpa [newCoins] using hall

section Loop

variable {codec : Codec} {w₀ : W} {entries : List UnbondedEntry} {entry : UnbondedEntry}
  {del val d : Bytes} {isV : Bool}
  (hdel : codec.accAddressFromBech32 entry.delegatorAddress = .ok del)
  (hval : codec.valAddressFromBech32 entry.validatorAddress = .ok val)

include hdel hval

theorem collected_concat : Collected P codec w₀ (entries ++ [entry]) d ↔
    Collected P codec w₀ entries d ∨ del = d ∧ val = d ∧ ¬ P.staked w₀ d d := by
  simp only [Collected, List.mem_append, List.mem_singleton, or_and_right, exists_or,
    exists_eq_left, hdel, hval, Except.ok.injEq]

theorem emptied_concat : Emptied P codec w₀ isV (entries ++ [entry]) d ↔
    Emptied P codec w₀ isV entries d ∨ del = d ∧ (¬ P.staked w₀ d val ∨ isV = true) := by
  simp only [Emptied, List.mem_append, List.mem_singleton, or_and_right, exists_or,
    exists_eq_left, hdel, hval, Except.ok.injEq]
  refine or_congr_right ⟨?_, ?_⟩
  · rintro ⟨_, hd, rfl, h⟩
    exact ⟨hd, h⟩
  · rintro ⟨hd, h⟩
    exact ⟨val, hd, rfl, h⟩

omit hdel hval in
/-- The loop has not begun. -/
theorem AfterResidue.start (codec : Codec) (isV : Bool) (w₀ : W) (d : P.Account) :
    AfterResidue P codec isV w₀ [] d w₀ := by
  refine ⟨rfl, ?_, fun _ => ⟨rfl, rfl⟩, ?_, fun _ => rfl⟩
  · rintro ⟨e, he, _⟩
    exact absurd he List.not_mem_nil
  · rintro ⟨e, he, _⟩
    exact absurd he List.not_mem_nil

theorem AfterResidue.step {d : P.Account} {w w' : W} (h : AfterResidue P codec isV w₀ entries d w)
    (hstep : ResidueStep P isV del val d w w') :
    AfterResidue P codec isV w₀ (entries ++ [entry]) d w' := by
  refine ⟨hstep.staked.trans h.staked, fun hd => ?_, fun hd => ?_, fun hd => ?_, fun hd => ?_⟩
  · -- a second entry of the same validator finds nothing owed any more
    by_cases hnow : del = d ∧ val = d ∧ ¬ P.staked w₀ d d
    · obtain ⟨hcredit, howed⟩ := hstep.credits (by rwa [h.staked])
      refine ⟨?_, howed⟩
      by_cases hd' : Collected P codec w₀ entries d
      · obtain ⟨hc, ho⟩ := h.collected hd'
        rw [hcredit, hc, ho, add_zero]
      · obtain ⟨hc, ho⟩ := h.uncollected hd'
        rw [hcredit, hc, ho]
    · obtain ⟨hcredit, howed⟩ := hstep.keeps_credit (by rwa [h.staked])
      rw [hcredit, howed]
      exact h.collected (((collected_concat hdel hval).mp hd).resolve_right hnow)
  · rw [collected_concat hdel hval, not_or] at hd
    obtain ⟨hcredit, howed⟩ := hstep.keeps_credit (by rw [h.staked]; exact hd.2)
    rw [hcredit, howed]
    exact h.uncollected hd.1
  · by_cases hnow : del = d ∧ (¬ P.staked w₀ d val ∨ isV = true)
    · exact hstep.empties (by rwa [h.staked])
    · rw [hstep.keeps_spendable (by rwa [h.staked])]
      exact h.emptied (((emptied_concat hdel hval).mp hd).resolve_right hnow)
  · rw [emptied_concat hdel hval, not_or] at hd
    rw [hstep.keeps_spendable (by rw [h.staked]; exact hd.2)]
    exact h.unemptied hd.1

end Loop

theorem unstakeResidues_after (laws : P.Laws K) {entries : List UnbondedEntry} {isV : Bool}
    (hisV : isV121 ctx.chainID ctx.blockHeight = .ok isV)
    (h : Returns (entries.forM (unstakeResidue K ctx)) s () t) (d : P.Account) :
    AfterResidue P K.codec isV s.accounts.sdk entries d t.accounts.sdk := by
  refine h.forM_inv (I := fun done t' =>
    AfterResidue P K.codec isV s.accounts.sdk done d t'.accounts.sdk) ?_ (.start _ _ _ _)
  intro done entry s' t' _ hdone h'
  obtain ⟨del, val, isV', hdel, hval, hisV', hstep⟩ := unstakeResidue_step laws h' d
  obtain rfl : isV = isV' := Except.ok.inj (hisV.symm.trans hisV')
  exact hdone.step hdel hval hstep

/-- The first loop takes the principal, and nothing else. -/
theorem unstakePrincipals_after (laws : P.Laws K) {entries : List UnbondedEntry}
    (h : Returns (entries.forM (unstakePrincipal K ctx)) s () t) (d : P.Account) :
    P.spendable t.accounts.sdk d + principalOf K.codec d entries = P.spendable s.accounts.sdk d ∧
      P.credited t.accounts.sdk d = P.credited s.accounts.sdk d ∧
      P.owed t.accounts.sdk d = P.owed s.accounts.sdk d ∧
      P.staked t.accounts.sdk = P.staked s.accounts.sdk := by
  refine h.forM_inv (I := fun done t' =>
    P.spendable t'.accounts.sdk d + principalOf K.codec d done = P.spendable s.accounts.sdk d ∧
      P.credited t'.accounts.sdk d = P.credited s.accounts.sdk d ∧
      P.owed t'.accounts.sdk d = P.owed s.accounts.sdk d ∧
      P.staked t'.accounts.sdk = P.staked s.accounts.sdk) ?_
    ⟨by simp [principalOf], rfl, rfl, rfl⟩
  rintro done entry s' t' _ ⟨hspend, hcredit, howed, hstaked⟩ h'
  obtain ⟨_, w, ⟨addr, val, evm, amount, haddr, _, _, hamount, hburns, _⟩, rfl⟩ :=
    unstakePrincipal_pays (Q := Same P.net) h'
  have hloses := hburns.loses laws
  refine ⟨?_, (hloses.credited d).trans hcredit, (hloses.owed d).trans howed,
    hloses.staked.trans hstaked⟩
  have hone : principalOf K.codec d [entry] = if addr = d then (amount.toNat : Int) else 0 := by
    simp [principalOf, belongsTo_iff haddr, hamount]
  have hspend' : P.spendable w d + (if addr = d then (amount.toNat : Int) else 0) =
      P.spendable s'.accounts.sdk d := by
    simpa [newCoins] using hloses.spendable d
  show P.spendable w d + _ = _
  rw [principalOf_append, hone]
  omega

/-! ## The whole of `ProcessUnstakeWithdrawals` -/

/-- The code knows whether v1.2.1 is active, once there is an entry to handle. -/
theorem isV121_of_unstakeResidues {entries : List UnbondedEntry} (hne : entries ≠ [])
    (h : Returns (entries.forM (unstakeResidue K ctx)) s () t) :
    ∃ isV, isV121 ctx.chainID ctx.blockHeight = .ok isV := by
  cases entries with
  | nil => exact absurd rfl hne
  | cons e entries =>
      obtain ⟨s', h, _⟩ := returns_forM_cons.mp h
      obtain ⟨_, _, _, isV, _, _, _, hisV, _⟩ := returns_unstakeResidue h
      exact ⟨isV, hisV⟩

theorem decoded_of_unstakeResidues {entries : List UnbondedEntry}
    (h : Returns (entries.forM (unstakeResidue K ctx)) s () t) :
    ∀ e ∈ entries, ∃ val, K.codec.valAddressFromBech32 e.validatorAddress = .ok val := by
  refine h.forM_inv (I := fun done _ => ∀ e ∈ done, ∃ val,
    K.codec.valAddressFromBech32 e.validatorAddress = .ok val) ?_ (by simp)
  intro done entry s' t' _ hdone h' e he
  rcases List.mem_append.mp he with he | he
  · exact hdone e he
  · obtain ⟨_, val, _, _, _, _, hval, _⟩ := returns_unstakeResidue h'
    obtain rfl := List.mem_singleton.mp he
    exact ⟨val, hval⟩

theorem principalOf_perm {entries entries' : List UnbondedEntry} (hperm : entries.Perm entries')
    (codec : Codec) (d : Bytes) : principalOf codec d entries = principalOf codec d entries' :=
  (hperm.map _).sum_eq

/-- Which entries there are decides what is left on the account. -/
theorem AfterResidue.of_perm {codec : Codec} {isV : Bool} {w₀ w₀' w w' : W} {d : P.Account}
    {entries entries' : List UnbondedEntry} (hperm : entries.Perm entries')
    (h : AfterResidue P codec isV w₀ entries d w) (h' : AfterResidue P codec isV w₀' entries' d w')
    (hspend : P.spendable w₀ d = P.spendable w₀' d)
    (hcredit : P.credited w₀ d = P.credited w₀' d) (howed : P.owed w₀ d = P.owed w₀' d)
    (hstaked : P.staked w₀ = P.staked w₀') :
    P.spendable w d = P.spendable w' d ∧ P.credited w d = P.credited w' d := by
  have hc : Collected P codec w₀ entries d ↔ Collected P codec w₀' entries' d := by
    simp only [Collected, hperm.mem_iff, hstaked]
  have he : Emptied P codec w₀ isV entries d ↔ Emptied P codec w₀' isV entries' d := by
    simp only [Emptied, hperm.mem_iff, hstaked]
  constructor
  · by_cases hd : Emptied P codec w₀ isV entries d
    · rw [h.emptied hd, h'.emptied (he.mp hd)]
    · rw [h.unemptied hd, h'.unemptied (he.not.mp hd), hspend]
  · by_cases hd : Collected P codec w₀ entries d
    · rw [(h.collected hd).1, (h'.collected (hc.mp hd)).1, hcredit, howed]
    · rw [(h.uncollected hd).1, (h'.uncollected (hc.not.mp hd)).1, hcredit]

/-- **The order of the entries does not matter** for what an account is paid and left with. -/
theorem processUnstakeWithdrawals_perm (laws : P.Laws K) {t' : Store W}
    {entries entries' : List UnbondedEntry} (hperm : entries.Perm entries')
    (h : Returns (processUnstakeWithdrawals K ctx entries) s () t)
    (h' : Returns (processUnstakeWithdrawals K ctx entries') s () t') (d : P.Account) :
    P.spendable t.accounts.sdk d = P.spendable t'.accounts.sdk d ∧
      P.credited t.accounts.sdk d = P.credited t'.accounts.sdk d ∧
      rewardsOf K.codec d t.journal = rewardsOf K.codec d t'.journal := by
  have hprincipal := principalOf_perm hperm K.codec d
  obtain ⟨lines, hkept, hnet⟩ := processUnstakeWithdrawals_keptApart laws h
  obtain ⟨lines', hkept', hnet'⟩ := processUnstakeWithdrawals_keptApart laws h'
  have hleft : P.spendable t.accounts.sdk d = P.spendable t'.accounts.sdk d ∧
      P.credited t.accounts.sdk d = P.credited t'.accounts.sdk d := by
    obtain ⟨_, s₁, h₁, h₂⟩ := returns_bind.mp h
    obtain ⟨_, s₁', h₁', h₂'⟩ := returns_bind.mp h'
    by_cases hne : entries = []
    · subst hne
      obtain rfl := List.Perm.nil_eq hperm
      obtain ⟨_, rfl⟩ := h.unique h'
      exact ⟨rfl, rfl⟩
    obtain ⟨isV, hisV⟩ := isV121_of_unstakeResidues hne h₂
    obtain ⟨hspend, hcredit, howed, hstaked⟩ := unstakePrincipals_after laws h₁ d
    obtain ⟨hspend', hcredit', howed', hstaked'⟩ := unstakePrincipals_after laws h₁' d
    have hsame : P.spendable s₁.accounts.sdk d = P.spendable s₁'.accounts.sdk d := by omega
    exact (unstakeResidues_after laws hisV h₂ d).of_perm hperm
      (unstakeResidues_after laws hisV h₂' d) hsame (hcredit.trans hcredit'.symm)
      (howed.trans howed'.symm) (hstaked.trans hstaked'.symm)
  -- what is left and the principal are the same, so the rewards that were paid are too
  refine ⟨hleft.1, hleft.2, ?_⟩
  have hnet := hnet d
  have hnet' := hnet' d
  rw [hkept.journal, hkept'.journal]
  simp only [rewardsOf_append, rewardsOf_unstakeLines]
  simp only [Purse.net, hleft.1, hleft.2] at hnet hnet'
  omega

/-- **From v1.2.1 on** every account with an entry is empty when `ProcessUnstakeWithdrawals`
ends. -/
theorem processUnstakeWithdrawals_empties (laws : P.Laws K) {entries : List UnbondedEntry}
    (hisV : isV121 ctx.chainID ctx.blockHeight = .ok true)
    (h : Returns (processUnstakeWithdrawals K ctx entries) s () t) {e : UnbondedEntry}
    (he : e ∈ entries) {d : P.Account}
    (hd : K.codec.accAddressFromBech32 e.delegatorAddress = .ok d.1) :
    P.spendable t.accounts.sdk d = 0 := by
  obtain ⟨_, s₁, _, h₂⟩ := returns_bind.mp h
  obtain ⟨val, hval⟩ := decoded_of_unstakeResidues h₂ e he
  exact (unstakeResidues_after laws hisV h₂ d).emptied ⟨e, he, val, hd, hval, .inr rfl⟩

end Residue

/-! ## Whole runs -/

/-- The entries the staking module's end blocker returns; during the singularity it is not
called. -/
def Matured (K : Keepers W) (ctx : Ctx) (s : Store W) (entries : List UnbondedEntry) : Prop :=
  ∃ height w, Returns (K.staking.getSingularityHeight ctx) s.accounts.sdk height w ∧
    (ctx.blockHeight < toInt64 height ∧ entries = [] ∨
      ¬ ctx.blockHeight < toInt64 height ∧ ∃ w',
        Returns (K.staking.endBlockerWithUnbondedEntries ctx) w entries w')

theorem endBlock_keptApart {P : Purse W} (laws : P.Laws K) (h : Returns (endBlock K ctx) s () t) :
    ∃ entries lines, Matured K ctx s entries ∧ KeptApart entries s t lines := by
  obtain ⟨height, w, hheight, hcase⟩ := returns_endBlock h
  rcases hcase with ⟨hsing, rfl⟩ | ⟨hsing, entries, w', hend, h⟩
  · refine ⟨[], [], ⟨height, w, hheight, .inl ⟨hsing, rfl⟩⟩, (List.append_nil _).symm,
      ⟨[], [], .nil, by simp, rfl⟩, [], .nil, rfl⟩
  · obtain ⟨lines, hkept, _⟩ := endBlockWithdrawals_keptApart laws h
    exact ⟨entries, lines, ⟨height, w, hheight, .inr ⟨hsing, w', hend⟩⟩, hkept.journal,
      hkept.unstakes, hkept.rewards⟩

/-! ## The ledger keeps accounts -/

/-- The ledger keeps the coins of the modules in its pool, apart from the accounts. -/
def ledgerPurse : Purse Ledger where
  isModule := fun _ => False
  spendable := Ledger.balance
  credited := Ledger.credited
  owed := Ledger.commission
  staked := fun l del val => l.delegation (Ledger.encode del) (Ledger.encode val) ≠ none

theorem ledger_pay_balance (l : Ledger) (addr : Bytes) (amount : Int) (d : Bytes) :
    (l.pay addr amount).balance d = l.balance d + if addr = d then amount else 0 := by
  simp only [Ledger.pay, Function.update_apply]
  by_cases h : d = addr
  · rw [if_pos h, if_pos h.symm, h]
  · rw [if_neg h, if_neg (Ne.symm h), add_zero]

theorem ledger_credit_net (l : Ledger) (addr : Bytes) (amount : Int) :
    ledgerPurse.net (l.credit addr amount) = ledgerPurse.net l := by
  funext d
  simp only [Purse.net, ledgerPurse, Ledger.credit, Ledger.pay, Function.update_apply]
  split
  next h => rw [h]; omega
  next => rfl

theorem ledger_pay_net (l : Ledger) (addr : Bytes) (amount : Int) (d : ledgerPurse.Account) :
    ledgerPurse.net (l.pay addr amount) d =
      ledgerPurse.net l d + if addr = d then amount else 0 := by
  show (l.pay addr amount).balance d - l.credited d = l.balance d - l.credited d + _
  rw [ledger_pay_balance]
  omega

/-- What an account pays is lost to it. -/
theorem ledger_pay_net_neg (l : Ledger) (addr : Bytes) (amount : Int) (d : ledgerPurse.Account) :
    ledgerPurse.net (l.pay addr (-amount)) d + (if addr = d then amount else 0) =
      ledgerPurse.net l d := by
  rw [ledger_pay_net]
  split <;> omega

theorem ledger_untouched (l : Ledger) : ledgerPurse.Untouched l l :=
  ⟨fun _ => rfl, fun _ => rfl, fun _ => rfl, rfl⟩

theorem ledger_mature_balance (entries : List UnbondedEntry) (l : Ledger) (d : Bytes) :
    (entries.foldl Ledger.mature l).balance d =
      l.balance d + principalOf Ledger.codec d entries := by
  induction entries generalizing l with
  | nil => simp [principalOf]
  | cons e entries ih =>
      have hone : (l.mature e).balance d = l.balance d + principalOf Ledger.codec d [e] := by
        have hiff : belongsTo Ledger.codec d e.delegatorAddress = true ↔
            Ledger.decode e.delegatorAddress = d := belongsTo_iff rfl
        rw [Ledger.mature, ledger_pay_balance]
        simp [principalOf, hiff]
      have hcons : principalOf Ledger.codec d (e :: entries) =
          principalOf Ledger.codec d [e] + principalOf Ledger.codec d entries :=
        principalOf_append _ _ [e] entries
      rw [List.foldl_cons, ih, hone, hcons]
      omega

theorem ledger_purseLaws : ledgerPurse.Laws Ledger.keepers where
  accAddress := fun b => congrArg Except.ok (Ledger.decode_encode (bytesOf b))
  valAddress := fun b => congrArg Except.ok (Ledger.decode_encode (bytesOf b))
  quiet := Ledger.quiet (fun _ _ => rfl) (fun _ _ _ => rfl) (fun _ _ _ _ => rfl)
    (fun l del val => ledger_credit_net l del (l.rewards del val))
    (fun l val => ledger_credit_net l val (l.commission val)) (fun _ _ => rfl)
  mintCoins := by
    intro ctx name coins l l' h
    rw [Ledger.returns_mintCoins h]
    rfl
  burnCoins := by
    intro ctx name coins l l' h
    rw [(Ledger.returns_burnCoins.mp h).2]
    exact ⟨fun _ => rfl, fun _ => rfl, fun _ => rfl, rfl⟩
  sendToAccount := by
    intro ctx name addr coins l l' h
    rw [(Ledger.returns_sendToAccount.mp h).2]
    exact ledger_pay_net _ addr _
  sendToModule := by
    intro ctx addr name coins l l' h
    rw [(Ledger.returns_sendToModule.mp h).2]
    refine ⟨fun d => ?_, fun _ => rfl, fun _ => rfl, rfl⟩
    show (l.pay addr (-coins defaultBondDenom)).balance d + _ = l.balance d
    rw [ledger_pay_balance]
    split <;> omega
  spendableCoin := by
    intro ctx addr l coin l' h
    obtain ⟨_, hl, h⟩ := ReadOnly.returns_bind_iff.mp h
    obtain ⟨rfl, _⟩ := returns_get.mp hl
    obtain ⟨rfl, rfl⟩ := returns_pure.mp h
    exact ⟨ledger_untouched _, fun _ => rfl⟩
  delegate := by
    rintro ctx msg _ l l' ⟨⟩ h
    rw [Ledger.returns_stake h]
    exact ledger_pay_net_neg _ _ _
  newMsgCreateValidator := by
    rintro m _ ⟨⟩
    exact ⟨rfl, rfl⟩
  createValidator := by
    rintro ctx msg _ l l' ⟨⟩ h
    obtain ⟨validators, rfl⟩ := Ledger.returns_createValidator h
    exact ledger_pay_net_neg _ _ _
  endBlocker := by
    intro ctx l entries l' h d
    obtain ⟨_, _, hl, h⟩ := returns_bind.mp h
    obtain ⟨rfl, rfl⟩ := returns_get.mp hl
    obtain ⟨_, _, hset, h⟩ := returns_bind.mp h
    obtain rfl := returns_set.mp hset
    obtain ⟨rfl, rfl⟩ := returns_pure.mp h
    have hbalance := ledger_mature_balance l.maturing l d
    have hcredited : (l.maturing.foldl Ledger.mature l).credited = l.credited := by
      rw [Ledger.foldl_mature]
    show (l.maturing.foldl Ledger.mature l).balance d -
      (l.maturing.foldl Ledger.mature l).credited d = l.balance d - l.credited d + _
    rw [hbalance, hcredited]
    show _ = _ + principalOf Ledger.codec d l.maturing
    omega
  delegated := by
    intro ctx del val totallyUnstaked l l' h
    cases totallyUnstaked with
    | false =>
        obtain ⟨d, h⟩ := h
        obtain ⟨_, hl, h⟩ := ReadOnly.returns_bind_iff.mp h
        obtain ⟨rfl, _⟩ := returns_get.mp hl
        split at h
        next => exact absurd h returns_throw
        next d' hd =>
          obtain ⟨_, rfl⟩ := returns_pure.mp h
          refine ⟨ledger_untouched _, fun _ => ?_, fun _ => rfl⟩
          show l.delegation (Ledger.encode del) (Ledger.encode val) ≠ none
          rw [hd]
          simp
    | true =>
        obtain ⟨e, h, _⟩ := h
        rcases fails_bind.mp h with h | ⟨_, _, hl, h⟩
        · exact absurd h fails_get
        obtain ⟨rfl, rfl⟩ := returns_get.mp hl
        split at h
        next hd =>
          obtain ⟨_, rfl⟩ := fails_throw.mp h
          refine ⟨ledger_untouched _, fun h => absurd h (by simp), fun h => absurd hd h⟩
        next => exact absurd h fails_pure
  commission := by
    intro ctx val l coins l' h
    rcases h with h | ⟨_, e, h, _⟩
    · obtain ⟨_, _, hl, h⟩ := returns_bind.mp h
      obtain ⟨rfl, rfl⟩ := returns_get.mp hl
      rcases returns_ite.mp h with ⟨_, h⟩ | ⟨_, h⟩
      · exact absurd h returns_throw
      · obtain ⟨_, _, hset, h⟩ := returns_bind.mp h
        obtain rfl := returns_set.mp hset
        obtain ⟨_, rfl⟩ := returns_pure.mp h
        refine ⟨?_, fun d hd => ?_, rfl⟩
        · rintro d rfl
          exact ⟨Function.update_self .., Function.update_self .., Function.update_self ..⟩
        · have hne : (d : Bytes) ≠ val := Ne.symm hd
          exact ⟨Function.update_of_ne hne .., Function.update_of_ne hne ..,
            Function.update_of_ne hne ..⟩
    · rcases fails_bind.mp h with h | ⟨_, _, hl, h⟩
      · exact absurd h fails_get
      obtain ⟨rfl, rfl⟩ := returns_get.mp hl
      rcases fails_ite.mp h with ⟨hzero, h⟩ | ⟨_, h⟩
      · obtain ⟨_, rfl⟩ := fails_throw.mp h
        -- nothing is owed, so nothing changes
        refine ⟨?_, fun _ _ => ⟨rfl, rfl, rfl⟩, rfl⟩
        rintro d rfl
        have howed : ledgerPurse.owed l d = 0 := hzero
        rw [howed]
        exact ⟨(add_zero _).symm, (add_zero _).symm, rfl⟩
      · rcases fails_bind.mp h with h | ⟨_, _, _, h⟩
        · exact absurd h fails_set
        · exact absurd h fails_pure

/-! ## Principal and rewards are kept apart -/

/-- **Principal and rewards are kept apart.** Over every run, what was queued for an account as
rewards and what it can spend together are what was ever credited to it, if they were at the
start. Each block end queues one withdrawal of principal for each entry, in their order, to the
address on record, and one withdrawal of rewards for each line about rewards. Neither what an
account is paid as rewards for the entries nor what it is left with depends on their order, and
from v1.2.1 on it is left with nothing. The accounts are those that are not held by a module; a
delegator's is one of them. -/
theorem principal_and_rewards_kept_apart {P : Purse W} (laws : P.Laws K) :
    (∀ s steps t, Run K s steps t → ∀ d : P.Account,
      rewardsOf K.codec d s.journal + P.spendable s.accounts.sdk d = P.credited s.accounts.sdk d →
      rewardsOf K.codec d t.journal + P.spendable t.accounts.sdk d =
        P.credited t.accounts.sdk d) ∧
    (∀ ctx s t, Returns (endBlock K ctx) s () t →
      ∃ entries lines, Matured K ctx s entries ∧ KeptApart entries s t lines) ∧
    (∀ ctx entries entries' s t t', entries.Perm entries' →
      Returns (processUnstakeWithdrawals K ctx entries) s () t →
      Returns (processUnstakeWithdrawals K ctx entries') s () t' →
      ∀ d : P.Account, principalOf K.codec d entries = principalOf K.codec d entries' ∧
        P.spendable t.accounts.sdk d = P.spendable t'.accounts.sdk d ∧
        rewardsOf K.codec d t.journal = rewardsOf K.codec d t'.journal) ∧
    (∀ ctx entries s t, isV121 ctx.chainID ctx.blockHeight = .ok true →
      Returns (processUnstakeWithdrawals K ctx entries) s () t →
      ∀ e ∈ entries, ∀ d : P.Account,
        K.codec.accAddressFromBech32 e.delegatorAddress = .ok d.1 →
        P.spendable t.accounts.sdk d = 0) := by
  refine ⟨?_, fun ctx s t h => endBlock_keptApart laws h, ?_, ?_⟩
  · intro s steps t hrun d hs
    have hwatched : watched P K.codec d t = watched P K.codec d s := by
      refine hrun.invariant (I := fun _ t => watched P K.codec d t = watched P K.codec d s) rfl ?_
      intro steps a t u ht hstep
      refine hstep.keeps (I := fun t => watched P K.codec d t = watched P K.codec d s) ?_ ht
      intro action t out u ht h
      exact (prog_watched laws h d).trans ht
    simp only [watched, Purse.net] at hwatched
    omega
  · intro ctx entries entries' s t t' hperm h h' d
    obtain ⟨hspend, _, hrewards⟩ := processUnstakeWithdrawals_perm laws hperm h h' d
    exact ⟨principalOf_perm hperm K.codec d, hspend, hrewards⟩
  · intro ctx entries s t hisV h e he d hd
    exact processUnstakeWithdrawals_empties laws hisV h he hd

/-- Account 1 has twenty coins of rewards at validator 9, and five coins of principal mature. -/
def maturingStore : Store Ledger :=
  let fresh := Store.fresh
    { Ledger.empty with
      validators := [⟨Ledger.encode [9], false, 0, 1, "", none⟩]
      delegations := [⟨Ledger.encode [1], Ledger.encode [9], 1⟩]
      maturing := [⟨Ledger.encode [1], Ledger.encode [9], 5⟩]
      rewards := fun _ _ => 20
      pool := fun _ => 0 }
  { fresh with
    params := some ⟨32, 128, 8, ""⟩
    accounts :=
      { fresh.accounts with
        delegatorWithdrawAddress := fun _ => some "0x01"
        delegatorRewardAddress := fun _ => some "0x02" } }

/-- At the end of the block the five coins are queued as principal and the twenty as rewards. -/
theorem five_and_twenty_kept_apart : ∃ t,
    Run Ledger.keepers maturingStore [⟨.blockEnd ⟨storyLocalnetID, 100, 0, [], .finalize⟩, some []⟩]
      t ∧
    t.withdrawalQueue.waiting.map Withdrawal.amount = [5] ∧
    t.rewardWithdrawalQueue.waiting.map Withdrawal.amount = [20] ∧
    rewardsOf Ledger.codec [1] t.journal + t.accounts.sdk.balance [1] =
      t.accounts.sdk.credited [1] := by
  have heval : (outcome (endBlock Ledger.keepers ⟨storyLocalnetID, 100, 0, [], .finalize⟩)
      maturingStore).map (fun o => (o.2.withdrawalQueue.waiting.map Withdrawal.amount,
        o.2.rewardWithdrawalQueue.waiting.map Withdrawal.amount)) = some ([5], [20]) := by
    decide +kernel
  obtain ⟨_, t, ht, hqueues⟩ := returns_of_outcome heval
  obtain ⟨hunstakes, hrewards⟩ := Prod.mk.inj hqueues
  have hrun : Run Ledger.keepers maturingStore
      ([] ++ [⟨.blockEnd ⟨storyLocalnetID, 100, 0, [], .finalize⟩, some []⟩]) t :=
    Trace.nil.snoc (returns_prog_blockEnd.mpr ⟨ht, rfl⟩)
  refine ⟨t, hrun, hunstakes, hrewards, ?_⟩
  exact (principal_and_rewards_kept_apart ledger_purseLaws).1 _ _ _ hrun ⟨[1], id⟩ rfl

end Story.EvmStaking
