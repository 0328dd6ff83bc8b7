/-
# Story.EvmStaking.PayoutAddresses -- nobody redirects somebody else's money

Principal and rewards of a delegator are paid to two addresses on record. Each is the
address the delegator asked for last. Before the delegator asks for one it is the
delegator's own address, filled in by genesis, by the first deposit for the account
or by the account's own validator. Everything else that happens, failing events and
events of other accounts included, leaves the record alone.
-/
import Story.EvmStaking.Authorisation

namespace Story.EvmStaking

open Story.Effect Story.Errors Story.Sdk Story.Collections Story.Eth
open Story.EvmEngine (effect effect_cases effect_of_returns)

variable {W : Type}

/-! ## The two records -/

/-- What is paid out. -/
inductive Payout
  | principal
  | rewards

namespace Payout

/-- The map that says where to. -/
def addresses (p : Payout) (b : AddressBook) : AddressMap :=
  match p with
  | principal => b.withdraw
  | rewards => b.reward

/-- The address an event of `d` itself asks for. -/
def asked (p : Payout) (d : Address) : StakingEvent → Option Address
  | .setWithdrawalAddress ev =>
      match p with
      | principal => if ev.delegator = d then some ev.target else none
      | rewards => none
  | .setRewardAddress ev =>
      match p with
      | principal => none
      | rewards => if ev.delegator = d then some ev.target else none
  | _ => none

/-- The address `d` asked for last. -/
def latest (p : Payout) (d : Address) (evs : List (Ctx × StakingEvent)) : Option Address :=
  (evs.filterMap fun e => p.asked d e.2).getLast?

/-- The address on record for `d`. -/
def record (p : Payout) (codec : Codec) (a : Accounts W) (d : Address) : Option String :=
  p.addresses a.book (codec.accString (bytesOf d))

end Payout

/-- The event stakes for the account `d`: a deposit for it, or its own validator. -/
def StakingEvent.StakesFor (codec : Codec) (d : Address) : StakingEvent → Prop
  | .deposit ev => ev.delegator = d
  | .createValidator ev => codec.decompressToAddress ev.validatorCmpPubkey = .ok d
  | _ => False

/-- Some event of the run staked for `d` and was handled without an error. -/
def Staked (K : Keepers W) (a : Accounts W) (evs : List (Ctx × StakingEvent)) (d : Address) :
    Prop :=
  ∃ before e later, evs = before ++ e :: later ∧ e.2.StakesFor K.codec d ∧
    Succeeds K e (runEvents K a before)

/-- What the contract promises about the events it emits: the operator of a new validator is
the account of its key. -/
def StakingEvent.FromContract (codec : Codec) : StakingEvent → Prop
  | .createValidator ev =>
      ∀ v, codec.decompressToAddress ev.validatorCmpPubkey = .ok v → ev.operatorAddress = v
  | _ => True

/-- An address the contract left-padded to 32 bytes is read back. -/
@[simp] theorem SetAddress.target_padded (d x : Address) :
    (SetAddress.mk d (bytesToHash (bytesOf x))).target = x := by
  change bytesToFixed 20 (padLeft 32 (bytesOf x)) = x
  conv_rhs => rw [← bytesToFixed_bytesOf x]
  simp [bytesToFixed, padLeft]

/-! ## One event -/

section Step

variable {K : Keepers W} (hacc : Function.Injective K.codec.accString) (p : Payout) {d : Address}

theorem addresses_withDefaults (b : AddressBook) (key value : String) :
    p.addresses (b.withDefaults key value value) = setDefault (p.addresses b) key value := by
  cases p <;> rfl

/-- The address of `d` changes to what `d` asks for. -/
theorem record_of_asked {e : Ctx × StakingEvent} {x : Address} (h : p.asked d e.2 = some x)
    (a : Accounts W) :
    p.record K.codec (effect (handle K e.1 e.2) a) d = some (K.codec.addressString x) := by
  obtain ⟨ctx, ev⟩ := e
  obtain ⟨hwithdraw, hreward, _, _⟩ := succeeds_of_address_event K ctx a
  cases ev with
  | setWithdrawalAddress ev =>
      cases p with
      | principal =>
          obtain ⟨rfl, rfl⟩ : ev.delegator = d ∧ ev.target = x := by
            simpa [Payout.asked] using h
          rw [Payout.record, book_of_succeeds (hwithdraw ev)]
          exact Function.update_self _ _ _
      | rewards => simp [Payout.asked] at h
  | setRewardAddress ev =>
      cases p with
      | principal => simp [Payout.asked] at h
      | rewards =>
          obtain ⟨rfl, rfl⟩ : ev.delegator = d ∧ ev.target = x := by
            simpa [Payout.asked] using h
          rw [Payout.record, book_of_succeeds (hreward ev)]
          exact Function.update_self _ _ _
  | _ => simp [Payout.asked] at h

/-- A stake for `d` fills the address of `d` in, if there is none. -/
theorem record_of_stakes {e : Ctx × StakingEvent} (hc : e.2.FromContract K.codec)
    (h : e.2.StakesFor K.codec d) {a : Accounts W} (hs : Succeeds K e a) :
    p.record K.codec (effect (handle K e.1 e.2) a) d
      = some ((p.record K.codec a d).getD (K.codec.addressString d)) := by
  rw [Payout.record, book_of_succeeds hs]
  obtain ⟨ctx, ev⟩ := e
  cases ev with
  | deposit ev =>
      obtain rfl : ev.delegator = d := h
      rw [AddressBook.after, addresses_withDefaults, setDefault_self]
      rfl
  | createValidator ev =>
      have hd : K.codec.decompressToAddress ev.validatorCmpPubkey = .ok d := h
      simp only [AddressBook.after, hd, hc d hd]
      rw [addresses_withDefaults, setDefault_self]
      rfl
  | _ => exact h.elim

include hacc in
/-- Every other event leaves it alone. -/
theorem record_of_other {e : Ctx × StakingEvent} (hc : e.2.FromContract K.codec)
    (hask : p.asked d e.2 = none) {a : Accounts W}
    (hstake : ¬ (e.2.StakesFor K.codec d ∧ Succeeds K e a)) :
    p.record K.codec (effect (handle K e.1 e.2) a) d = p.record K.codec a d := by
  by_cases hs : Succeeds K e a
  · have hstake : ¬ e.2.StakesFor K.codec d := fun h => hstake ⟨h, hs⟩
    rw [Payout.record, book_of_succeeds hs, Payout.record]
    obtain ⟨ctx, ev⟩ := e
    -- an entry of another account has another key, since its Bech32 form can be read back
    have hkey {d' : Address} (h : d' ≠ d) :
        K.codec.accString (bytesOf d) ≠ K.codec.accString (bytesOf d') :=
      mt (accString_bytesOf_inj hacc).mp h.symm
    cases ev with
    | setWithdrawalAddress ev =>
        cases p with
        | principal =>
            have hne : ev.delegator ≠ d := by simpa [Payout.asked] using hask
            exact Function.update_of_ne (hkey hne) _ _
        | rewards => rfl
    | setRewardAddress ev =>
        cases p with
        | principal => rfl
        | rewards =>
            have hne : ev.delegator ≠ d := by simpa [Payout.asked] using hask
            exact Function.update_of_ne (hkey hne) _ _
    | deposit ev =>
        rw [AddressBook.after, addresses_withDefaults]
        exact setDefault_of_ne _ (hkey hstake) _
    | createValidator ev =>
        simp only [AddressBook.after]
        split
        next => rfl
        next v hv =>
          have hne : v ≠ d := by
            rintro rfl
            exact hstake hv
          rw [hc v hv, addresses_withDefaults]
          exact setDefault_of_ne _ (hkey hne) _
    | _ => rfl
  · rw [effect_of_not_succeeds hs]

end Step

/-! ## Genesis -/

/-- The account of the validator. -/
def ValidatorAccount (codec : Codec) (v : Validator) (d : Address) : Prop :=
  ∃ pk, v.consensusPubkey = some pk ∧ codec.decompressToAddress pk = .ok d

/-- `d` is the account of one of the validators. -/
def GenesisValidator (codec : Codec) (vals : List Validator) (d : Address) : Prop :=
  ∃ v ∈ vals, ValidatorAccount codec v d

/-- The book after one validator was registered. -/
def AddressBook.register (codec : Codec) (b : AddressBook) (d : Address) : AddressBook :=
  { b with
    withdraw := Function.update b.withdraw (codec.accString (bytesOf d))
      (some (codec.addressString d))
    reward := Function.update b.reward (codec.accString (bytesOf d))
      (some (codec.addressString d)) }

theorem addresses_register (p : Payout) (codec : Codec) (b : AddressBook) (d : Address) :
    p.addresses (b.register codec d) = Function.update (p.addresses b)
      (codec.accString (bytesOf d)) (some (codec.addressString d)) := by
  cases p <;> rfl

/-- **Registering validators** whose keys are cached, one after the other. -/
theorem registerValidators_book {K : Keepers W} {vals : List Validator}
    (hcached : ∀ v ∈ vals, v.consensusPubkey ≠ none) {s t : Store W} {u : Unit}
    (h : Returns (registerValidators K vals) s u t) :
    ∃ accounts : List Address, List.Forall₂ (ValidatorAccount K.codec) vals accounts ∧
      t.accounts.book = accounts.foldl (AddressBook.register K.codec) s.accounts.book := by
  induction vals generalizing s with
  | nil =>
      obtain ⟨_, rfl⟩ := returns_pure.mp h
      exact ⟨[], .nil, rfl⟩
  | cons v vals ih =>
      obtain ⟨pk, hpk⟩ := Option.ne_none_iff_exists'.mp (hcached v (by simp))
      simp only [registerValidators, hpk, returns_bind, returns_cosmosPubkeyToEVMAddress,
        returns_zoom, returns_wrapErr, setWithdrawAddress, setRewardAddress, returns_modify] at h
      obtain ⟨d, _, ⟨hd, rfl⟩, _, _, ⟨_, rfl, rfl⟩, _, _, ⟨_, rfl, rfl⟩, h⟩ := h
      obtain ⟨accounts, hall, hbook⟩ := ih (fun v' hv' => hcached v' (by simp [hv'])) h
      exact ⟨d :: accounts, .cons ⟨pk, hpk, hd⟩ hall, hbook⟩

theorem mem_accounts_iff {codec : Codec} {vals : List Validator} {accounts : List Address}
    (hall : List.Forall₂ (ValidatorAccount codec) vals accounts) {d : Address} :
    d ∈ accounts ↔ GenesisValidator codec vals d := by
  induction hall with
  | nil => simp [GenesisValidator]
  | @cons v x vals accounts hv _ ih =>
      have hx : x = d ↔ ValidatorAccount codec v d := by
        constructor
        · rintro rfl
          exact hv
        · rintro ⟨pk, hpk, hd⟩
          obtain ⟨pk', hpk', hx⟩ := hv
          obtain rfl : pk = pk' := Option.some.inj (hpk.symm.trans hpk')
          exact Except.ok.inj (hx.symm.trans hd)
      rw [List.mem_cons, ih, eq_comm, hx]
      simp [GenesisValidator]

theorem addresses_registered {codec : Codec} (hacc : Function.Injective codec.accString)
    (p : Payout) (accounts : List Address) (b : AddressBook) (d : Address) :
    p.addresses (accounts.foldl (AddressBook.register codec) b) (codec.accString (bytesOf d))
      = if d ∈ accounts then some (codec.addressString d)
        else p.addresses b (codec.accString (bytesOf d)) := by
  induction accounts generalizing b with
  | nil => rfl
  | cons x accounts ih =>
      have hkey : codec.accString (bytesOf d) = codec.accString (bytesOf x) ↔ d = x :=
        hacc.eq_iff.trans bytesOf_injective.eq_iff
      rw [List.foldl_cons, ih, addresses_register, Function.update_apply]
      simp only [hkey]
      grind

/-- **The records after genesis.** -/
theorem record_genesis {K : Keepers W} (hacc : Function.Injective K.codec.accString) {ctx : Ctx}
    {gs : GenesisState} {w w' : W} {vals : List Validator}
    (hvals : Returns (K.staking.getAllValidators ctx) w vals w')
    (hcached : ∀ v ∈ vals, v.consensusPubkey ≠ none) {s : Store W}
    (h : Returns (initGenesis K ctx gs) (Store.fresh w) () s) (p : Payout) (d : Address) :
    (GenesisValidator K.codec vals d →
        p.record K.codec s.accounts d = some (K.codec.addressString d)) ∧
      (¬ GenesisValidator K.codec vals d → p.record K.codec s.accounts d = none) := by
  obtain ⟨_, vals', w'', hw, hreg⟩ := returns_initGenesis.mp h
  obtain ⟨rfl, rfl⟩ := hvals.unique hw
  obtain ⟨accounts, hall, hbook⟩ := registerValidators_book hcached hreg
  have hrecord : p.record K.codec s.accounts d
      = if d ∈ accounts then some (K.codec.addressString d) else none := by
    rw [Payout.record, hbook, addresses_registered hacc]
    cases p <;> rfl
  rw [hrecord, ← mem_accounts_iff hall]
  exact ⟨fun hd => if_pos hd, fun hd => if_neg hd⟩

/-! ## Whole runs -/

theorem latest_snoc (p : Payout) (d : Address) (evs : List (Ctx × StakingEvent))
    (e : Ctx × StakingEvent) :
    p.latest d (evs ++ [e]) = (p.asked d e.2).or (p.latest d evs) := by
  rw [Payout.latest, List.filterMap_append, Payout.latest]
  cases h : p.asked d e.2 <;> simp [h]

theorem staked_snoc {K : Keepers W} {a : Accounts W} {evs : List (Ctx × StakingEvent)}
    {e : Ctx × StakingEvent} {d : Address} :
    Staked K a (evs ++ [e]) d ↔
      Staked K a evs d ∨ (e.2.StakesFor K.codec d ∧ Succeeds K e (runEvents K a evs)) := by
  constructor
  · rintro ⟨before, e', later, heq, hd, hs⟩
    rcases List.eq_nil_or_concat later with rfl | ⟨later, x, rfl⟩
    · obtain ⟨rfl, hlast⟩ := List.append_inj' heq rfl
      obtain rfl : e = e' := List.singleton_inj.mp hlast
      exact .inr ⟨hd, hs⟩
    · have heq' : evs ++ [e] = (before ++ e' :: later) ++ [x] := by simpa using heq
      obtain ⟨rfl, _⟩ := List.append_inj' heq' rfl
      exact .inl ⟨before, e', later, rfl, hd, hs⟩
  · rintro (⟨before, e', later, rfl, hd, hs⟩ | ⟨hd, hs⟩)
    · exact ⟨before, e', later ++ [e], by simp, hd, hs⟩
    · exact ⟨evs, e, [], rfl, hd, hs⟩

/-- What the record of `d` is after a run: the address asked for last, else the account's own
address if anything has filled it in, which `filled` says about the start of the run. -/
structure Recorded (K : Keepers W) (p : Payout) (filled : Prop) (a : Accounts W)
    (evs : List (Ctx × StakingEvent)) (d : Address) : Prop where
  asked : ∀ x, p.latest d evs = some x →
    p.record K.codec (runEvents K a evs) d = some (K.codec.addressString x)
  own : p.latest d evs = none → filled ∨ Staked K a evs d →
    p.record K.codec (runEvents K a evs) d = some (K.codec.addressString d)
  absent : p.latest d evs = none → ¬ (filled ∨ Staked K a evs d) →
    p.record K.codec (runEvents K a evs) d = none

/-- **The records over a run.** -/
theorem recorded_run {K : Keepers W} (hacc : Function.Injective K.codec.accString) {p : Payout}
    {filled : Prop} {a : Accounts W} {d : Address}
    (hown : filled → p.record K.codec a d = some (K.codec.addressString d))
    (habsent : ¬ filled → p.record K.codec a d = none) (evs : List (Ctx × StakingEvent))
    (hc : ∀ e ∈ evs, e.2.FromContract K.codec) : Recorded K p filled a evs d := by
  induction evs using List.reverseRecOn with
  | nil =>
      have hstaked : ¬ Staked K a [] d := by
        rintro ⟨before, e, later, heq, _⟩
        simp at heq
      refine ⟨fun x hx => by simp [Payout.latest] at hx, fun _ h => ?_, fun _ h => ?_⟩
      · exact hown (h.resolve_right hstaked)
      · exact habsent fun hf => h (.inl hf)
  | append_singleton evs e ih =>
      have ih := ih fun e' he' => hc e' (by simp [he'])
      have hce := hc e (by simp)
      cases hask : p.asked d e.2 with
      | some x =>
          have hlatest : p.latest d (evs ++ [e]) = some x := by
            rw [latest_snoc, hask, Option.some_or]
          refine ⟨fun y hy => ?_, fun h => ?_, fun h => ?_⟩
          · obtain rfl : x = y := Option.some.inj (hlatest.symm.trans hy)
            rw [runEvents_snoc]
            exact record_of_asked p hask _
          · rw [hlatest] at h
            cases h
          · rw [hlatest] at h
            cases h
      | none =>
          have hlatest : p.latest d (evs ++ [e]) = p.latest d evs := by
            rw [latest_snoc, hask, Option.none_or]
          by_cases hst : e.2.StakesFor K.codec d ∧ Succeeds K e (runEvents K a evs)
          · have hrec := record_of_stakes p hce hst.1 hst.2
            rw [← runEvents_snoc] at hrec
            refine ⟨fun x hx => ?_, fun h _ => ?_, fun _ h => ?_⟩
            · rw [hrec, ih.asked x (hlatest ▸ hx), Option.getD_some]
            · rw [hrec]
              -- the record is either the account's own address already, or still empty
              by_cases hf : filled ∨ Staked K a evs d
              · rw [ih.own (hlatest ▸ h) hf, Option.getD_some]
              · rw [ih.absent (hlatest ▸ h) hf, Option.getD_none]
            · exact absurd (.inr (staked_snoc.mpr (.inr hst))) h
          · have hrec := record_of_other hacc p hce hask hst
            rw [← runEvents_snoc] at hrec
            have hstaked : Staked K a (evs ++ [e]) d ↔ Staked K a evs d := by
              rw [staked_snoc, or_iff_left hst]
            refine ⟨fun x hx => ?_, fun h hf => ?_, fun h hf => ?_⟩
            · exact hrec.trans (ih.asked x (hlatest ▸ hx))
            · exact hrec.trans (ih.own (hlatest ▸ h) (hf.imp_right hstaked.mp))
            · exact hrec.trans (ih.absent (hlatest ▸ h) (mt (Or.imp_right hstaked.mpr) hf))

/-- **Nobody can redirect somebody else's money.** After genesis and any run of events of the
contract, the withdrawal address and the reward address of every account `d` are the one `d`
asked for last; else the own address of `d`, if `d` is a genesis validator or something was
staked for `d` successfully; else absent. And a single event that `d` did not send leaves an
address that is there alone. -/
theorem payout_addresses_follow_owner (K : Keepers W)
    (hacc : Function.Injective K.codec.accString) (ctx : Ctx) (gs : GenesisState) (w w' : W)
    (vals : List Validator) (hvals : Returns (K.staking.getAllValidators ctx) w vals w')
    (hcached : ∀ v ∈ vals, v.consensusPubkey ≠ none) (s : Store W)
    (hgenesis : Returns (initGenesis K ctx gs) (Store.fresh w) () s)
    (evs : List (Ctx × StakingEvent)) (hc : ∀ e ∈ evs, e.2.FromContract K.codec) (p : Payout)
    (d : Address) :
    Recorded K p (GenesisValidator K.codec vals d) s.accounts evs d ∧
      ∀ e : Ctx × StakingEvent, e.2.FromContract K.codec → p.asked d e.2 = none →
        p.record K.codec (runEvents K s.accounts evs) d ≠ none →
        p.record K.codec (runEvents K s.accounts (evs ++ [e])) d
          = p.record K.codec (runEvents K s.accounts evs) d := by
  obtain ⟨hown, habsent⟩ := record_genesis hacc hvals hcached hgenesis p d
  refine ⟨recorded_run hacc hown habsent evs hc, ?_⟩
  intro e hce hask hthere
  rw [runEvents_snoc]
  by_cases hst : e.2.StakesFor K.codec d ∧ Succeeds K e (runEvents K s.accounts evs)
  · obtain ⟨x, hx⟩ := Option.ne_none_iff_exists'.mp hthere
    rw [record_of_stakes p hce hst.1 hst.2, hx, Option.getD_some]
  · exact record_of_other hacc p hce hask hst

/-- Account 2 deposits for account 1, which then asks for address 7. -/
theorem asked_address_recorded :
    let deposit : StakingEvent := .deposit ⟨addressOf 1, pubkeyOf 9, 5, 0, 0, addressOf 2⟩
    let ask : StakingEvent :=
      .setWithdrawalAddress ⟨addressOf 1, bytesToHash (bytesOf (addressOf 7))⟩
    let s := effect (initGenesis Ledger.keepers stakingCtx ⟨defaultParams, ⟨0, 0⟩⟩)
      (Store.fresh stakedLedger)
    Payout.principal.record Ledger.keepers.codec
          (runEvents Ledger.keepers s.accounts [(stakingCtx, deposit)]) (addressOf 1)
        = some (Ledger.keepers.codec.addressString (addressOf 1)) ∧
      Payout.principal.record Ledger.keepers.codec
          (runEvents Ledger.keepers s.accounts [(stakingCtx, deposit), (stakingCtx, ask)])
          (addressOf 1)
        = some (Ledger.keepers.codec.addressString (addressOf 7)) := by
  intro deposit ask s
  have hs : Returns (initGenesis Ledger.keepers stakingCtx ⟨defaultParams, ⟨0, 0⟩⟩)
      (Store.fresh stakedLedger) () s := rfl
  have hcached : ∀ v ∈ stakedLedger.validators, v.consensusPubkey ≠ none := by decide
  have hvals : Returns (Ledger.keepers.staking.getAllValidators stakingCtx) stakedLedger
      stakedLedger.validators stakedLedger := rfl
  have h (evs) (hc : ∀ e ∈ evs, e.2.FromContract Ledger.keepers.codec) :=
    (payout_addresses_follow_owner Ledger.keepers Ledger.encode_injective stakingCtx
      ⟨defaultParams, ⟨0, 0⟩⟩ stakedLedger stakedLedger stakedLedger.validators hvals hcached s hs
      evs hc .principal (addressOf 1)).1
  refine ⟨(h _ (by simp [deposit, StakingEvent.FromContract])).own (by rfl) (.inr ?_),
    (h _ (by simp [deposit, ask, StakingEvent.FromContract])).asked (addressOf 7) ?_⟩
  · exact ⟨[], _, [], rfl, rfl, _, rfl⟩
  · simp [Payout.latest, Payout.asked, deposit, ask]

end Story.EvmStaking
