/-
# Story.EvmStaking.Authorisation -- who may act for a delegator, and where the money goes

Three handlers accept an event sent by somebody else than the account it is about,
if that sender is the operator on record. The table of operators is written by two
handlers. Over a whole run of events its entry for a delegator is what the latest
of these two events for that delegator says, so an event on behalf of a delegator
that changes anything was sent by the operator the delegator named last.

The payout addresses obey the same law, with a default that two handlers fill in.
-/
import Story.EvmStaking.Addresses
import Story.Sdk.Ledger

namespace Story.EvmStaking

open Story.Effect Story.Errors Story.Sdk Story.Collections Story.Eth
open Story.EvmEngine (effect effect_cases effect_of_returns)

variable {W : Type}

/-! ## Operators -/

/-- The events that name or dismiss the operator of `d`. -/
def StakingEvent.setsOperatorOf (d : Address) : StakingEvent → Bool
  | .setOperator ev => ev.delegator = d
  | .unsetOperator ev => ev.delegator = d
  | _ => false

/-- The latest event about the operator of `d` names `o`. -/
def OperatorNamed (evs : List StakingEvent) (d o : Address) : Prop :=
  (evs.filter (·.setsOperatorOf d)).getLast? = some (.setOperator ⟨d, o⟩)

/-- The event is about the account `d` and was sent by somebody else, `o`. -/
def StakingEvent.OnBehalf (codec : Codec) (d o : Address) : StakingEvent → Prop
  | .withdraw ev => ev.delegator = d ∧ ev.operatorAddress = o ∧ o ≠ d
  | .redelegate ev => ev.delegator = d ∧ ev.operatorAddress = o ∧ o ≠ d
  | .unjail ev =>
      codec.decompressToAddress ev.validatorCmpPubkey = .ok d ∧ ev.unjailer = o ∧ o ≠ d
  | _ => False

theorem operatorNamed_snoc_of_sets {evs : List StakingEvent} {ev : StakingEvent} {d o : Address}
    (h : ev.setsOperatorOf d = true) :
    OperatorNamed (evs ++ [ev]) d o ↔ ev = .setOperator ⟨d, o⟩ := by
  rw [OperatorNamed, List.filter_append, List.filter_cons_of_pos h, List.filter_nil,
    List.getLast?_concat, Option.some_inj]

theorem operatorNamed_snoc_of_not_sets {evs : List StakingEvent} {ev : StakingEvent}
    {d o : Address} (h : ¬ ev.setsOperatorOf d = true) :
    OperatorNamed (evs ++ [ev]) d o ↔ OperatorNamed evs d o := by
  rw [OperatorNamed, List.filter_append, List.filter_cons_of_neg h, List.filter_nil,
    List.append_nil, OperatorNamed]

section Table

variable {K : Keepers W} (hacc : Function.Injective K.codec.accString)

include hacc

/-- Different delegators have different keys in the maps. -/
theorem accString_bytesOf_inj {d d' : Address} :
    K.codec.accString (bytesOf d) = K.codec.accString (bytesOf d') ↔ d = d' :=
  hacc.eq_iff.trans bytesOf_injective.eq_iff

/-- **One event** that is not about the operator of `d` leaves its entry alone, whether it
is handled or fails. -/
theorem operator_effect_of_not_sets {e : Ctx × StakingEvent} {d : Address}
    (h : ¬ e.2.setsOperatorOf d = true) (a : Accounts W) :
    (effect (handle K e.1 e.2) a).delegatorOperatorAddress (K.codec.accString (bytesOf d))
      = a.delegatorOperatorAddress (K.codec.accString (bytesOf d)) := by
  by_cases hs : Succeeds K e a
  · change (effect (handle K e.1 e.2) a).book.operator _ = a.book.operator _
    rw [book_of_succeeds hs]
    obtain ⟨ctx, ev⟩ := e
    cases ev with
    | setOperator ev =>
        have hne : d ≠ ev.delegator := by
          rintro rfl
          simp [StakingEvent.setsOperatorOf] at h
        exact Function.update_of_ne (mt (accString_bytesOf_inj hacc).mp hne) _ _
    | unsetOperator ev =>
        have hne : d ≠ ev.delegator := by
          rintro rfl
          simp [StakingEvent.setsOperatorOf] at h
        exact Function.update_of_ne (mt (accString_bytesOf_inj hacc).mp hne) _ _
    | createValidator ev =>
        simp only [AddressBook.after]
        split <;> rfl
    | _ => rfl
  · rw [effect_of_not_succeeds hs]

omit hacc in
/-- **One event** about the operator of `d` is always handled. -/
theorem operator_effect_of_sets {e : Ctx × StakingEvent} {d : Address}
    (h : e.2.setsOperatorOf d = true) (a : Accounts W) :
    (effect (handle K e.1 e.2) a).delegatorOperatorAddress (K.codec.accString (bytesOf d))
      = match e.2 with
        | .setOperator ev => some (K.codec.addressString ev.operator)
        | _ => none := by
  obtain ⟨ctx, ev⟩ := e
  obtain ⟨_, _, hset, hunset⟩ := succeeds_of_address_event K ctx a
  cases ev with
  | setOperator ev =>
      obtain rfl : ev.delegator = d := by simpa [StakingEvent.setsOperatorOf] using h
      have hbook := congrArg AddressBook.operator (book_of_succeeds (hset ev))
      exact (congrFun hbook _).trans (Function.update_self _ _ _)
  | unsetOperator ev =>
      obtain rfl : ev.delegator = d := by simpa [StakingEvent.setsOperatorOf] using h
      have hbook := congrArg AddressBook.operator (book_of_succeeds (hunset ev))
      exact (congrFun hbook _).trans (Function.update_self _ _ _)
  | _ => simp [StakingEvent.setsOperatorOf] at h

/-- **The table over a run.** -/
theorem operator_runEvents (haddr : Function.Injective K.codec.addressString) {a : Accounts W}
    (hstart : ∀ x, a.delegatorOperatorAddress x = none) (evs : List (Ctx × StakingEvent))
    (d o : Address) :
    (runEvents K a evs).delegatorOperatorAddress (K.codec.accString (bytesOf d))
        = some (K.codec.addressString o) ↔
      OperatorNamed (evs.map Prod.snd) d o := by
  induction evs using List.reverseRecOn with
  | nil => simp [hstart, OperatorNamed]
  | append_singleton evs e ih =>
      rw [runEvents_snoc, List.map_append, List.map_singleton]
      by_cases h : e.2.setsOperatorOf d = true
      · rw [operator_effect_of_sets h, operatorNamed_snoc_of_sets h]
        split
        next ev hev =>
          obtain rfl : ev.delegator = d := by simpa [hev, StakingEvent.setsOperatorOf] using h
          rw [Option.some_inj, haddr.eq_iff, hev]
          constructor
          · rintro rfl
            rfl
          · intro heq
            injection heq with heq
            rw [heq]
        next hne =>
          simp only [false_iff, reduceCtorEq]
          exact fun heq => hne _ heq
      · rw [operator_effect_of_not_sets hacc h, operatorNamed_snoc_of_not_sets h, ih]

end Table

/-! ### Events on behalf of an account -/

theorem returns_checkOperator {delegator sender noOperator getFailed notOperator : String}
    {b b' : Branched (Accounts W)} {u : Unit}
    (h : Returns (checkOperator delegator sender noOperator getFailed notOperator) b u b') :
    b.copy.delegatorOperatorAddress delegator = some sender := by
  obtain ⟨r, b₁, hr, h⟩ := returns_bind.mp h
  cases r with
  | error err => rcases returns_ite.mp h with ⟨_, h⟩ | ⟨_, h⟩ <;> exact absurd h returns_fail
  | ok operatorAddr =>
      obtain ⟨t, ht, rfl⟩ := returns_cachedCtx.mp (returns_attempt_ok.mp hr)
      obtain ⟨hentry, rfl⟩ := returns_getEntry.mp ht
      rcases returns_onlyIf.mp h with ⟨_, h⟩ | ⟨heq, _⟩
      · exact absurd h returns_fail
      · rw [hentry, not_not.mp heq]

section OnBehalf

variable {K : Keepers W} (haddr : Function.Injective K.codec.addressString) {a a' : Accounts W}

include haddr

/-- The check of a handler, on an event that somebody else sent. -/
theorem operator_of_checked {d o : Address} (hne : o ≠ d)
    {noOperator getFailed notOperator : String}
    {b b' : Branched (Accounts W)} {u : Unit}
    (h : Returns (onlyIf (K.codec.addressString d ≠ K.codec.addressString o)
      (checkOperator (K.codec.accString (bytesOf d)) (K.codec.addressString o) noOperator getFailed
        notOperator)) b u b') :
    b.copy.delegatorOperatorAddress (K.codec.accString (bytesOf d))
      = some (K.codec.addressString o) := by
  rcases returns_onlyIf.mp h with ⟨_, h⟩ | ⟨heq, _⟩
  · exact returns_checkOperator h
  · exact absurd (haddr (not_not.mp heq)).symm hne

variable [∀ ctx, ReadOnly (K.staking.getSingularityHeight ctx)]

omit haddr in
instance readOnly_isSingularity (ctx : Ctx) :
    ReadOnly (isSingularity K ctx : Prog (Accounts W) Bool) := ReadOnly.bind _ _

/-- **An event on behalf of `d` that changes anything** was sent by the operator of `d`. -/
theorem operator_of_onBehalf {ctx : Ctx} {ev : StakingEvent} {d o : Address}
    (hev : ev.OnBehalf K.codec d o) (h : Returns (handle K ctx ev) a () a') (hne : a' ≠ a) :
    a.delegatorOperatorAddress (K.codec.accString (bytesOf d)) =
      some (K.codec.addressString o) := by
  have hread (x : Prog (Accounts W) Bool) [ReadOnly x] : ReadOnly (cachedCtx x) := ReadOnly.zoom _ _
  cases ev with
  | withdraw ev =>
      obtain ⟨rfl, rfl, hod⟩ := hev
      obtain ⟨b, hb, rfl⟩ := returns_cacheContext.mp h
      obtain ⟨inSingularity, _, h⟩ := ReadOnly.returns_bind_iff.mp hb
      -- during the singularity the handler returns before the check, and changes nothing
      rcases returns_ite.mp h with ⟨_, h⟩ | ⟨_, h⟩
      · obtain ⟨_, rfl⟩ := returns_pure.mp h
        exact absurd rfl hne
      obtain ⟨_, _, h⟩ := ReadOnly.returns_bind_iff.mp h
      obtain ⟨_, _, h⟩ := ReadOnly.returns_bind_iff.mp h
      obtain ⟨_, _, hcheck, _⟩ := returns_bind.mp h
      exact operator_of_checked haddr hod hcheck
  | redelegate ev =>
      obtain ⟨rfl, rfl, hod⟩ := hev
      obtain ⟨b, hb, rfl⟩ := returns_cacheContext.mp h
      obtain ⟨inSingularity, _, h⟩ := ReadOnly.returns_bind_iff.mp hb
      rcases returns_ite.mp h with ⟨_, h⟩ | ⟨_, h⟩
      · obtain ⟨_, rfl⟩ := returns_pure.mp h
        exact absurd rfl hne
      obtain ⟨_, _, h⟩ := ReadOnly.returns_bind_iff.mp h
      obtain ⟨_, _, h⟩ := ReadOnly.returns_bind_iff.mp h
      obtain ⟨_, _, h⟩ := ReadOnly.returns_bind_iff.mp h
      obtain ⟨_, _, h⟩ := ReadOnly.returns_bind_iff.mp h
      obtain ⟨_, _, hcheck, _⟩ := returns_bind.mp h
      exact operator_of_checked haddr hod hcheck
  | unjail ev =>
      -- here `d` is the address of the key, not a field of the event
      obtain ⟨hd, rfl, hod⟩ := hev
      obtain ⟨b, hb, rfl⟩ := returns_cacheContext.mp h
      obtain ⟨pk, hpk, h⟩ := ReadOnly.returns_bind_iff.mp hb
      obtain ⟨valEvmAddr, hval, hrest⟩ := ReadOnly.returns_bind_iff.mp h
      obtain ⟨_, rfl, _⟩ := returns_pubKeyBytesToCosmos.mp (returns_wrapErr.mp hpk)
      obtain ⟨hval, _⟩ := returns_cosmosPubkeyToEVMAddress.mp (returns_wrapErr.mp hval)
      obtain rfl : valEvmAddr = d := Except.ok.inj (hval.symm.trans hd)
      obtain ⟨_, _, hcheck, _⟩ := returns_bind.mp hrest
      exact operator_of_checked haddr hod hcheck
  | _ => exact hev.elim

end OnBehalf

/-- **Operator authorisation.** Start with an empty table and handle any events, each with
or without success. The entry of `d` is `o` exactly when the latest event about the operator
of `d` names `o`; an event that is not about the operator of `d` never changes the entry; and
an event on behalf of `d` changes anything at all only when `o`, who sent it, is the
operator `d` named last. -/
theorem operator_authorisation (K : Keepers W) (hacc : Function.Injective K.codec.accString)
    (haddr : Function.Injective K.codec.addressString)
    (hquery : ∀ ctx, ReadOnly (K.staking.getSingularityHeight ctx)) (a : Accounts W)
    (hstart : ∀ x, a.delegatorOperatorAddress x = none) (evs : List (Ctx × StakingEvent))
    (d o : Address) :
    ((runEvents K a evs).delegatorOperatorAddress (K.codec.accString (bytesOf d))
        = some (K.codec.addressString o) ↔ OperatorNamed (evs.map Prod.snd) d o) ∧
      (∀ ctx ev, ev.setsOperatorOf d = false →
        (effect (handle K ctx ev) (runEvents K a evs)).delegatorOperatorAddress
            (K.codec.accString (bytesOf d))
          = (runEvents K a evs).delegatorOperatorAddress (K.codec.accString (bytesOf d))) ∧
      ∀ ctx ev, ev.OnBehalf K.codec d o →
        effect (handle K ctx ev) (runEvents K a evs) ≠ runEvents K a evs →
        OperatorNamed (evs.map Prod.snd) d o := by
  have htable := operator_runEvents hacc haddr hstart evs d o
  refine ⟨htable, ?_, ?_⟩
  · intro ctx ev hev
    exact operator_effect_of_not_sets (e := (ctx, ev)) hacc (by simp [hev]) _
  · intro ctx ev hev hne
    apply htable.mp
    rcases effect_cases (handle K ctx ev) (runEvents K a evs) with heq | hret
    · exact absurd heq hne
    · exact operator_of_onBehalf haddr hev hret hne

/-! ### A run of the operator table -/

/-- The address whose last byte is `n`, and a public key for it on the ledger. -/
def addressOf (n : UInt8) : Address := bytesToAddress [n]

def pubkeyOf (n : UInt8) : Bytes := List.replicate 32 0 ++ [n]

def stakingCtx : Ctx := ⟨Netconf.storyLocalnetID, 100, 1000, [], .finalize⟩

/-- Account 1 has a delegation to validator 9. -/
def stakedLedger : Ledger :=
  let del := Ledger.encode (bytesOf (addressOf 1))
  let val := Ledger.encode (bytesOf (addressOf 9))
  { Ledger.empty with
    accounts := [bytesOf (addressOf 1)]
    validators := [⟨val, false, 0, 1, "", some (pubkeyOf 9)⟩]
    delegations := [⟨del, val, 5⟩] }

def stakedAccounts : Accounts Ledger := (Store.fresh stakedLedger).accounts

theorem ledger_addressString_injective : Function.Injective Ledger.keepers.codec.addressString :=
  Ledger.encode_injective.comp bytesOf_injective

/-- Account 2 unstakes for account 1, which named it before. -/
theorem named_operator_unstakes :
    let named : StakingEvent := .setOperator ⟨addressOf 1, addressOf 2⟩
    let unstake : StakingEvent := .withdraw ⟨addressOf 1, pubkeyOf 9, 5, 0, addressOf 2⟩
    let a := runEvents Ledger.keepers stakedAccounts [(stakingCtx, named)]
    effect (handle Ledger.keepers stakingCtx unstake) a ≠ a ∧
      OperatorNamed [named] (addressOf 1) (addressOf 2) := by
  intro named unstake a
  have hne : effect (handle Ledger.keepers stakingCtx unstake) a ≠ a := by
    intro heq
    have hlen : (effect (handle Ledger.keepers stakingCtx unstake) a).sdk.maturing.length
        ≠ a.sdk.maturing.length := by decide +kernel
    exact hlen (congrArg (fun a => a.sdk.maturing.length) heq)
  have hquery (ctx : Ctx) : ReadOnly (Ledger.keepers.staking.getSingularityHeight ctx) :=
    ReadOnly.pure 0
  have h := operator_authorisation Ledger.keepers Ledger.encode_injective
    ledger_addressString_injective hquery stakedAccounts (fun _ => rfl) [(stakingCtx, named)]
    (addressOf 1) (addressOf 2)
  exact ⟨hne, h.2.2 stakingCtx unstake ⟨rfl, rfl, by decide⟩ hne⟩

end Story.EvmStaking
