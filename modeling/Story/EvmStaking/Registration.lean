/-
# Story.EvmStaking.Registration -- genesis registers every validator, or fails

`InitGenesis` goes through the validators of the staking module and stops at the first
one whose key gives no address. There are two ways to stop. A key that cannot be
converted ends genesis with the error of the conversion. A key that cannot be read
ends it with `return err`, and the `err` in scope there is the one of the call before
the loop, which is nil: genesis succeeds, and nobody from this validator on has a
payout address.
-/
import Story.EvmStaking.PayoutAddresses

namespace Story.EvmStaking

open Story.Effect Story.Errors Story.Sdk Story.Collections Story.Eth

variable {W : Type} {K : Keepers W} {vals : List Validator}

/-- The validator's key can be read, but not converted. -/
def Unconvertible (codec : Codec) (v : Validator) : Prop :=
  ∃ pk e, v.consensusPubkey = some pk ∧ codec.decompressToAddress pk = .error e

/-- **Genesis does not run into an unreadable key**: every one is behind a key that cannot be
converted. -/
def ReadableFirst (codec : Codec) (vals : List Validator) : Prop :=
  ∀ before v after, vals = before ++ v :: after → v.consensusPubkey = none →
    ∃ v' ∈ before, Unconvertible codec v'

theorem Unconvertible.no_account {codec : Codec} {v : Validator} (h : Unconvertible codec v)
    (d : Address) : ¬ ValidatorAccount codec v d := by
  rintro ⟨pk, hpk, hd⟩
  obtain ⟨pk', e, hpk', he⟩ := h
  obtain rfl : pk = pk' := Option.some.inj (hpk.symm.trans hpk')
  rw [hd] at he
  cases he

/-- A validator has an account, or a key that is unreadable, or one that is unconvertible. -/
theorem account_cases (codec : Codec) (v : Validator) :
    (∃ d, ValidatorAccount codec v d) ∨ v.consensusPubkey = none ∨ Unconvertible codec v := by
  cases hpk : v.consensusPubkey with
  | none => exact .inr (.inl rfl)
  | some pk =>
      cases hd : codec.decompressToAddress pk with
      | ok d => exact .inl ⟨d, pk, hpk, hd⟩
      | error e => exact .inr (.inr ⟨pk, e, hpk, hd⟩)

private theorem exists_first {α : Type} (p : α → Prop) (l : List α) :
    (∀ x ∈ l, p x) ∨ ∃ before x after, l = before ++ x :: after ∧ (∀ y ∈ before, p y) ∧ ¬ p x := by
  induction l with
  | nil => exact .inl (by simp)
  | cons x l ih =>
      by_cases hx : p x
      · rcases ih with hall | ⟨before, y, after, rfl, hbefore, hy⟩
        · exact .inl (List.forall_mem_cons.mpr ⟨hx, hall⟩)
        · exact .inr ⟨x :: before, y, after, rfl, List.forall_mem_cons.mpr ⟨hx, hbefore⟩, hy⟩
      · exact .inr ⟨[], x, l, rfl, by simp, hx⟩

/-- Either every validator has an account, or the first one without is unconvertible. -/
theorem ReadableFirst.split {codec : Codec} (h : ReadableFirst codec vals) :
    (∀ v ∈ vals, ∃ d, ValidatorAccount codec v d) ∨
    ∃ before v after, vals = before ++ v :: after ∧
      (∀ v' ∈ before, ∃ d, ValidatorAccount codec v' d) ∧ Unconvertible codec v := by
  rcases exists_first (fun v => ∃ d, ValidatorAccount codec v d) vals with
    hall | ⟨before, v, after, heq, hbefore, hv⟩
  · exact .inl hall
  · refine .inr ⟨before, v, after, heq, hbefore, ?_⟩
    rcases account_cases codec v with haccount | hnone | hconv
    · exact absurd haccount hv
    · -- a key before this one would have to be unconvertible
      obtain ⟨v', hmem, hbad⟩ := h before v after heq hnone
      obtain ⟨d, hd⟩ := hbefore v' hmem
      exact absurd hd (hbad.no_account d)
    · exact hconv

/-- The loop stops with the error of the first key that cannot be converted. -/
theorem registerValidators_fails {before : List Validator} {v : Validator}
    (hbefore : ∀ v' ∈ before, ∃ d, ValidatorAccount K.codec v' d)
    (hv : Unconvertible K.codec v) (after : List Validator) (s : Store W) :
    ∃ e t, Fails (registerValidators K (before ++ v :: after)) s (.err e) t := by
  induction before generalizing s with
  | nil =>
      obtain ⟨pk, e, hpk, he⟩ := hv
      refine ⟨.ofSdk e, s, ?_⟩
      rw [List.nil_append, registerValidators, hpk]
      apply fails_bind.mpr
      left
      exact fails_convert.mpr ⟨e, he, rfl, rfl⟩
  | cons v' before ih =>
      obtain ⟨d, pk, hpk, hd⟩ := hbefore v' (by simp)
      obtain ⟨e, t, hfails⟩ := ih (fun v'' hv'' => hbefore v'' (by simp [hv''])) _
      refine ⟨e, t, ?_⟩
      rw [List.cons_append, registerValidators, hpk]
      simp only [fails_bind, returns_cosmosPubkeyToEVMAddress, returns_zoom, returns_wrapErr,
        setWithdrawAddress, setRewardAddress, returns_modify]
      exact .inr ⟨d, s, ⟨hd, rfl⟩, .inr ⟨(), _, ⟨_, rfl, rfl⟩, .inr ⟨(), _, ⟨_, rfl, rfl⟩, hfails⟩⟩⟩

/-- The loop ends without an error at a key that cannot be read, unless a key before it cannot be
converted. -/
theorem registerValidators_returns {before : List Validator} {v : Validator}
    (hbefore : ∀ v' ∈ before, ¬ Unconvertible K.codec v') (hv : v.consensusPubkey = none)
    (after : List Validator) (s : Store W) :
    ∃ t, Returns (registerValidators K (before ++ v :: after)) s () t := by
  induction before generalizing s with
  | nil =>
      refine ⟨s, ?_⟩
      rw [List.nil_append, registerValidators, hv]
      exact returns_pure.mpr ⟨rfl, rfl⟩
  | cons v' before ih =>
      rw [List.cons_append, registerValidators]
      rcases account_cases K.codec v' with ⟨d, pk, hpk, hd⟩ | hnone | hconv
      · obtain ⟨t, hrest⟩ := ih (fun v'' hv'' => hbefore v'' (by simp [hv''])) _
        refine ⟨t, ?_⟩
        rw [hpk]
        simp only [returns_bind, returns_cosmosPubkeyToEVMAddress, returns_zoom, returns_wrapErr,
          setWithdrawAddress, setRewardAddress, returns_modify]
        exact ⟨d, s, ⟨hd, rfl⟩, (), _, ⟨_, rfl, rfl⟩, (), _, ⟨_, rfl, rfl⟩, hrest⟩
      · refine ⟨s, ?_⟩
        rw [hnone]
        exact returns_pure.mpr ⟨rfl, rfl⟩
      · exact absurd hconv (hbefore v' (by simp))

/-! ## Genesis -/

/-- The store when genesis comes to the validators, on any store. -/
def Store.seeded (gs : GenesisState) (s : Store W) (w : W) : Store W :=
  { accounts := { s.accounts with sdk := w }
    params := some gs.params
    validatorSweepIndex := some gs.validatorSweepIndex
    withdrawalQueue := ⟨some 0, some 0, s.withdrawalQueue.elements⟩
    rewardWithdrawalQueue := ⟨some 0, some 0, s.rewardWithdrawalQueue.elements⟩
    journal := s.journal }

section InitGenesis

variable {ctx : Ctx} {gs : GenesisState} {s t : Store W} {w : W}
  (hgs : validateGenesis gs = .ok ())
  (hvals : Returns (K.staking.getAllValidators ctx) s.accounts.sdk vals w)

include hgs hvals

/-- What genesis does once the validators are known is the loop. -/
theorem initGenesis_run_eq :
    (initGenesis K ctx gs).run s = (registerValidators K vals).run (s.seeded gs w) := by
  have hvalid : Returns (ofExcept (validateGenesis gs)) s () s := returns_ofExcept.mpr ⟨hgs, rfl⟩
  have hcall : Returns (call (K.staking.getAllValidators ctx)) (s.seeded gs s.accounts.sdk) vals
      (s.seeded gs w) := returns_call.mpr ⟨w, hvals, rfl⟩
  rw [initGenesis, hvalid.run_bind]
  -- the four writes in between cannot fail
  show (call (K.staking.getAllValidators ctx) >>= registerValidators K).run
    (s.seeded gs s.accounts.sdk) = _
  rw [hcall.run_bind]

theorem returns_initGenesis_iff {u : Unit} :
    Returns (initGenesis K ctx gs) s u t ↔
      Returns (registerValidators K vals) (s.seeded gs w) u t := by
  rw [returns_iff, initGenesis_run_eq hgs hvals, returns_iff]

theorem fails_initGenesis_iff {f : Fault} :
    Fails (initGenesis K ctx gs) s f t ↔
      Fails (registerValidators K vals) (s.seeded gs w) f t := by
  rw [fails_iff, initGenesis_run_eq hgs hvals, fails_iff]

end InitGenesis

/-- What genesis is meant to do with the validators `vals`: if it returns, every validator has an
account, and both address maps send the account to its own address; if some key cannot be read or
cannot be converted, it returns an error. -/
def RegistersOrFails (K : Keepers W) (ctx : Ctx) (gs : GenesisState) (s : Store W)
    (vals : List Validator) : Prop :=
  (∀ t, Returns (initGenesis K ctx gs) s () t → ∀ v ∈ vals, ∃ d, ValidatorAccount K.codec v d ∧
    t.accounts.delegatorWithdrawAddress (K.codec.accString (bytesOf d)) =
      some (K.codec.addressString d) ∧
    t.accounts.delegatorRewardAddress (K.codec.accString (bytesOf d)) =
      some (K.codec.addressString d)) ∧
  ((∃ v ∈ vals, ¬ ∃ d, ValidatorAccount K.codec v d) →
    ∃ e t, Fails (initGenesis K ctx gs) s (.err e) t)

theorem registersOrFails_of_readableFirst (hacc : Function.Injective K.codec.accString) {ctx : Ctx}
    {gs : GenesisState} {s : Store W} {w : W} (hgs : validateGenesis gs = .ok ())
    (hvals : Returns (K.staking.getAllValidators ctx) s.accounts.sdk vals w)
    (hfirst : ReadableFirst K.codec vals) : RegistersOrFails K ctx gs s vals := by
  rcases hfirst.split with hall | ⟨before, v, after, rfl, hbefore, hv⟩
  · refine ⟨?_, ?_⟩
    · intro t h v hv
      have hreg := (returns_initGenesis_iff hgs hvals).mp h
      have hread : ∀ v ∈ vals, v.consensusPubkey ≠ none := by
        intro v' hv'
        obtain ⟨d, pk, hpk, -⟩ := hall v' hv'
        simp [hpk]
      obtain ⟨accounts, haccounts, hbook⟩ := registerValidators_book hread hreg
      obtain ⟨d, hd⟩ := hall v hv
      have hmem : d ∈ accounts := (mem_accounts_iff haccounts).mpr ⟨v, hv, hd⟩
      have hentry (p : Payout) :=
        addresses_registered hacc p accounts (s.seeded gs w).accounts.book d
      simp only [← hbook, if_pos hmem] at hentry
      exact ⟨d, hd, hentry .principal, hentry .rewards⟩
    · rintro ⟨v, hv, hno⟩
      exact absurd (hall v hv) hno
  · obtain ⟨e, t, hfails⟩ := registerValidators_fails hbefore hv after (s.seeded gs w)
    have hgenesis := (fails_initGenesis_iff hgs hvals).mpr hfails
    refine ⟨?_, fun _ => ⟨e, t, hgenesis⟩⟩
    intro t' h
    exact absurd hgenesis h.not_fails

/-- **Genesis registers every validator, or fails**, on any store and for any valid genesis state,
exactly when it does not run into a key that cannot be read. -/
theorem genesis_registers_or_fails (K : Keepers W) (hacc : Function.Injective K.codec.accString)
    (ctx : Ctx) (gs : GenesisState) (hgs : validateGenesis gs = .ok ()) (s : Store W)
    (vals : List Validator) (w : W)
    (hvals : Returns (K.staking.getAllValidators ctx) s.accounts.sdk vals w) :
    RegistersOrFails K ctx gs s vals ↔ ReadableFirst K.codec vals := by
  refine ⟨?_, registersOrFails_of_readableFirst hacc hgs hvals⟩
  rintro ⟨hregisters, _⟩ before v after rfl hnone
  by_contra hconv
  push Not at hconv
  -- the loop stops at the unreadable key, or before it, and genesis returns
  obtain ⟨t, hloop⟩ := registerValidators_returns hconv hnone after (s.seeded gs w)
  have hreturns := (returns_initGenesis_iff hgs hvals).mpr hloop
  obtain ⟨d, ⟨pk, hpk, _⟩, _⟩ := hregisters t hreturns v (by simp)
  rw [hnone] at hpk
  cases hpk

/-- The only validator of the ledger is registered. -/
theorem only_validator_registered :
    ∃ t, Returns (initGenesis Ledger.keepers stakingCtx ⟨defaultParams, ⟨0, 0⟩⟩)
        (Store.fresh stakedLedger) () t ∧
      ∀ v ∈ stakedLedger.validators, ∃ d, ValidatorAccount Ledger.codec v d ∧
        t.accounts.delegatorWithdrawAddress (Ledger.codec.accString (bytesOf d)) =
          some (Ledger.codec.addressString d) ∧
        t.accounts.delegatorRewardAddress (Ledger.codec.accString (bytesOf d)) =
          some (Ledger.codec.addressString d) := by
  have hfirst : ReadableFirst Ledger.codec stakedLedger.validators := by
    intro before v after heq hnone
    have hread : ∀ v ∈ stakedLedger.validators, v.consensusPubkey ≠ none := by decide
    exact absurd hnone (hread v (by simp [heq]))
  have h := (genesis_registers_or_fails Ledger.keepers Ledger.encode_injective stakingCtx
    ⟨defaultParams, ⟨0, 0⟩⟩ rfl (Store.fresh stakedLedger) stakedLedger.validators stakedLedger
    rfl).mpr hfirst
  exact ⟨_, rfl, h.1 _ rfl⟩

/-- A validator whose key cannot be read, before the one of `stakedLedger`. -/
def unreadableLedger : Ledger :=
  { stakedLedger with
    validators := ⟨Ledger.encode (bytesOf (addressOf 8)), false, 0, 1, "", none⟩ ::
      stakedLedger.validators }

/-- **An unreadable key ends genesis silently.** Genesis succeeds although the key of the first
validator cannot be read, and the second validator has an account but no address in either
map. -/
theorem unreadable_key_skips_the_rest :
    ∃ t, Returns (initGenesis Ledger.keepers stakingCtx ⟨defaultParams, ⟨0, 0⟩⟩)
        (Store.fresh unreadableLedger) () t ∧
      (∃ v ∈ unreadableLedger.validators, v.consensusPubkey = none) ∧
      ∃ v ∈ unreadableLedger.validators, ∃ d, ValidatorAccount Ledger.codec v d ∧
        t.accounts.delegatorWithdrawAddress (Ledger.codec.accString (bytesOf d)) = none ∧
        t.accounts.delegatorRewardAddress (Ledger.codec.accString (bytesOf d)) = none := by
  refine ⟨_, rfl, ⟨_, List.mem_cons_self, rfl⟩, ?_⟩
  refine ⟨_, List.mem_cons_of_mem _ List.mem_cons_self, _, ⟨pubkeyOf 9, rfl, rfl⟩, rfl, rfl⟩

end Story.EvmStaking
