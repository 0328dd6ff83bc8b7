/-
# Story.Contracts.EmittedEvents -- what every event of the deposit contract carries

The consensus layer never sees a call of the deposit contract, only the events. What the contract
has checked before it emits an event is all that the consensus layer can rely on: that the keys
are keys, that an address is not the zero address, that a stake is a whole number of gwei and has
been burned. `Grows` says this of everything the contract emits and sends between two states, and
is kept by every call, by re-entrant ones as well.
-/
import Story.Contracts.IPTokenStakingBooks
import Story.EvmStaking.Conservation

namespace Story.Contracts

open Story.Effect Story.Eth Story.Evm Story.EvmStaking Story.Sdk

namespace IPTokenStaking

variable {I : Immutables} {V : Crypto} {s t : IPTokenStaking}

/-! ## Events that stand for themselves -/

/-- What the contract has checked of an event. -/
def WellFormed (V : Crypto) : StakingEvent → Prop
  | .updateValidatorCommission ev => V.ValidKey ev.validatorCmpPubkey
  | .setWithdrawalAddress ev | .setRewardAddress ev =>
      ∃ a, a ≠ zeroAddress ∧ ev.executionAddress = bytesToHash (bytesOf a)
  | .setOperator ev => ev.operator ≠ zeroAddress
  | .unsetOperator _ => True
  | .createValidator ev =>
      V.ValidKey ev.validatorCmpPubkey ∧ V.holder ev.validatorCmpPubkey = ev.operatorAddress ∧
        gwei ∣ ev.stakeAmount ∧ ev.commissionRate ≤ ev.maxCommissionRate ∧
        ev.supportsUnlocked.toNat ≤ 1
  | .deposit ev =>
      V.ValidKey ev.validatorCmpPubkey ∧ ev.delegator ≠ zeroAddress ∧ gwei ∣ ev.stakeAmount ∧
        ev.stakingPeriod ≤ StakingPeriod.LONG.code
  | .redelegate ev =>
      V.ValidKey ev.validatorSrcCmpPubkey ∧ V.ValidKey ev.validatorDstCmpPubkey ∧
        ev.validatorSrcCmpPubkey ≠ ev.validatorDstCmpPubkey ∧ ev.delegator ≠ zeroAddress ∧
        gwei ∣ ev.amount
  | .withdraw ev => V.ValidKey ev.validatorCmpPubkey ∧ gwei ∣ ev.stakeAmount
  | .unjail ev => V.ValidKey ev.validatorCmpPubkey

/-- The amounts that some events stake. -/
def stakedBy (evs : List StakingEvent) : Nat := (evs.map StakingEvent.mints).sum

/-- What was sent to the zero address. -/
def burnedBy (ts : List Transfer) : Nat :=
  (ts.map fun x => if x.recipient = zeroAddress then x.amount else 0).sum

@[simp] theorem stakedBy_append (evs evs' : List StakingEvent) :
    stakedBy (evs ++ evs') = stakedBy evs + stakedBy evs' := by
  simp [stakedBy]

@[simp] theorem burnedBy_append (ts ts' : List Transfer) :
    burnedBy (ts ++ ts') = burnedBy ts + burnedBy ts' := by
  simp [burnedBy]

/-! ## Between two states -/

/-- What the contract has emitted and sent from `s` to `t`: events that it has checked, and at
least what they stake to the zero address. -/
def Grows (V : Crypto) (s t : IPTokenStaking) : Prop :=
  ∃ evs ts, t.events = s.events ++ evs ∧ t.transfers = s.transfers ++ ts ∧
    (∀ e ∈ evs, WellFormed V e) ∧ stakedBy evs ≤ burnedBy ts

theorem Grows.of_same (hevents : t.events = s.events) (htransfers : t.transfers = s.transfers) :
    Grows V s t := by
  refine ⟨[], [], ?_, ?_, ?_, le_refl 0⟩
  · rw [hevents, List.append_nil]
  · rw [htransfers, List.append_nil]
  · simp

theorem Grows.of_books (h : books t = books s) : Grows V s t :=
  .of_same (congrArg Books.events h) (congrArg Books.transfers h)

theorem Grows.trans {u : IPTokenStaking} (h : Grows V s t) (h' : Grows V t u) : Grows V s u := by
  obtain ⟨evs, ts, hevs, hts, hform, hle⟩ := h
  obtain ⟨evs', ts', hevs', hts', hform', hle'⟩ := h'
  refine ⟨evs ++ evs', ts ++ ts', ?_, ?_, ?_, ?_⟩
  · rw [hevs', hevs, List.append_assoc]
  · rw [hts', hts, List.append_assoc]
  · intro e he
    rcases List.mem_append.mp he with he | he
    · exact hform e he
    · exact hform' e he
  · rw [stakedBy_append, burnedBy_append]
    omega

/-- One more event with the money it stakes. -/
theorem Grows.one {e : StakingEvent} (ts : List Transfer) (hform : WellFormed V e)
    (hle : e.mints ≤ burnedBy ts) (hevents : t.events = s.events ++ [e])
    (htransfers : t.transfers = s.transfers ++ ts) : Grows V s t := by
  refine ⟨[e], ts, hevents, htransfers, ?_, ?_⟩
  · simpa using hform
  · simpa [stakedBy] using hle

/-! ## Requests -/

/-- The program does nothing but emit one event that it has checked, and that does not stake. -/
def Emits (V : Crypto) (body : Tx IPTokenStaking Unit) : Prop :=
  ∀ s u t, Returns body s u t →
    ∃ e, WellFormed V e ∧ ¬ e.Stakes ∧ t = { s with events := s.events ++ [e] }

theorem Emits.emit {e : StakingEvent} (hform : WellFormed V e) (hstakes : ¬ e.Stakes) :
    Emits V (emit e) := by
  intro s u t h
  exact ⟨e, hform, hstakes, (returns_modify.mp h).symm⟩

/-- What was looked at before may be used. -/
theorem Emits.bind {α : Type} {x : Tx IPTokenStaking α} [ReadOnly x]
    {f : α → Tx IPTokenStaking Unit} (hf : ∀ s a, Returns x s a s → Emits V (f a)) :
    Emits V (x >>= f) := by
  intro s u t h
  obtain ⟨a, hx, h⟩ := ReadOnly.returns_bind_iff.mp h
  exact hf s a hx s u t h

theorem Emits.check {c : Prop} [Decidable c] {msg : String} {body : Tx IPTokenStaking Unit}
    (hbody : c → Emits V body) :
    Emits V (do
      require c msg
      body) := by
  apply Emits.bind
  intro s _ h
  exact hbody (returns_require.mp h).1

theorem Emits.verify {key : Bytes} {body : Tx IPTokenStaking Unit}
    (hbody : V.ValidKey key → Emits V body) :
    Emits V (do
      V.verifyCmpPubkey key
      body) := by
  apply Emits.bind
  intro s _ h
  exact hbody (Crypto.returns_verifyCmpPubkey.mp h).1

theorem Emits.verifyHolder {key : Bytes} {expected : Address} {body : Tx IPTokenStaking Unit}
    (hbody : V.ValidKey key → Emits V body) :
    Emits V (do
      V.verifyCmpPubkeyWithExpectedAddress key expected
      body) := by
  apply Emits.bind
  intro s _ h
  exact hbody (Crypto.returns_verifyCmpPubkeyWithExpectedAddress.mp h).1.1

/-- A request sends its fee to the zero address. -/
theorem Emits.grows {body : Tx IPTokenStaking Unit} (hbody : Emits V body) {value : Nat} {u : Unit}
    (h : Returns (chargesFee value body) { s with balance := s.balance + value } u t) :
    Grows V s t := by
  simp only [chargesFee, returns_bind, returns_get, returns_require, returns_transfer] at h
  obtain ⟨_, _, ⟨rfl, rfl⟩, _, _, ⟨_, rfl⟩, _, _, ⟨_, rfl⟩, h⟩ := h
  obtain ⟨e, hform, hstakes, rfl⟩ := hbody _ _ _ h
  apply Grows.one [⟨zeroAddress, value⟩] hform ?_ rfl rfl
  rw [mints_of_not_stakes hstakes]
  exact Nat.zero_le _

/-! ## Every call -/

theorem grows_redelegate {sender : Address} {value : Nat} {delegator : Address} {src dst : Bytes}
    {delegationId amount : Nat} {u : Unit}
    (h : Returns (redelegate V sender value delegator src dst delegationId amount)
      { s with balance := s.balance + value } u t) : Grows V s t := by
  apply Emits.grows ?_ h
  apply Emits.verify
  intro hsrc
  apply Emits.verify
  intro hdst
  apply Emits.check
  intro hdelegator
  apply Emits.check
  intro hkeccak
  apply Emits.bind
  intro s' _ _
  apply Emits.check
  intro _
  apply Emits.check
  intro _
  have hne : src ≠ dst := fun heq => hkeccak (congrArg V.keccak256 heq)
  exact Emits.emit ⟨hsrc, hdst, hne, hdelegator, dvd_roundedStakeAmount amount⟩ id

theorem grows_unstake {sender : Address} {value : Nat} {delegator : Address} {key : Bytes}
    {delegationId amount : Nat} {data : Bytes} {u : Unit}
    (h : Returns (unstake I V sender value delegator key delegationId amount data)
      { s with balance := s.balance + value } u t) : Grows V s t := by
  apply Emits.grows ?_ h
  apply Emits.verify
  intro hkey
  apply Emits.bind
  intro s' _ _
  apply Emits.check
  intro _
  apply Emits.check
  intro _
  apply Emits.check
  intro _
  exact Emits.emit ⟨hkey, dvd_roundedStakeAmount amount⟩ id

/-- A staking call from the state `r` on, in which its event is out and its amount burned: the
code of the caller runs at most once more. -/
theorem grows_of_refund {sender : Address} {value : Nat} {recipient : Tx IPTokenStaking Unit}
    {e : StakingEvent} {r q : IPTokenStaking} {u : Unit}
    (hrecipient : ∀ p, Keeps (Grows V p) recipient)
    (h : Returns (if 0 < value % gwei then refundRemainder sender (value % gwei) recipient
      else pure ()) r u q)
    (hform : WellFormed V e) (hstakes : e.Stakes) (hevents : r.events = s.events ++ [e])
    (htransfers : r.transfers = s.transfers ++ [⟨zeroAddress, e.amount⟩]) :
    Grows V s { q with entered := false } := by
  obtain ⟨p, hp, hrun⟩ := returns_refund h
  have hstaked : Grows V s p := by
    subst hp
    apply Grows.one (⟨zeroAddress, e.amount⟩ :: refund sender value) hform
    · rw [mints_of_stakes hstakes]
      simp [burnedBy]
    · exact hevents
    · show r.transfers ++ refund sender value = _
      rw [htransfers, List.append_assoc, List.singleton_append]
  rcases hrun with hrun | rfl
  · exact hrecipient s p () q hstaked hrun
  · exact hstaked

theorem grows_createValidator {sender : Address} {value : Nat} {args : ValidatorArgs}
    {recipient : Tx IPTokenStaking Unit} (hrecipient : ∀ p, Keeps (Grows V p) recipient) {u : Unit}
    (h : Returns (createValidator I V sender value args recipient)
      { s with balance := s.balance + value } u t) : Grows V s t := by
  obtain ⟨_, _, hkey, h⟩ := returns_bind.mp h
  obtain ⟨⟨hvalid, hholder⟩, rfl⟩ := Crypto.returns_verifyCmpPubkeyWithExpectedAddress.mp hkey
  obtain ⟨_, q, hbody, rfl⟩ := returns_nonReentrant.mp h
  simp only [returns_bind, returns_get, returns_require, returns_modify, returns_transfer,
    emit] at hbody
  obtain ⟨_, _, ⟨rfl, rfl⟩, _, _, ⟨_, rfl⟩, _, _, ⟨_, rfl⟩, _, _, ⟨hrate, rfl⟩, _, _, ⟨_, rfl⟩,
    _, _, ⟨_, rfl⟩, _, _, ⟨_, rfl⟩, _, _, rfl, hrefund⟩ := hbody
  have hform : WellFormed V
      (.createValidator (args.event (roundedStakeAmount value).1 sender)) := by
    refine ⟨hvalid, hholder, dvd_roundedStakeAmount value, hrate, ?_⟩
    show (if args.supportsUnlocked then (1 : UInt8) else 0).toNat ≤ 1
    split <;> decide
  exact grows_of_refund hrecipient hrefund hform trivial rfl rfl

theorem grows_stake {sender : Address} {value : Nat} {delegator : Address}
    {validatorCmpPubkey : Bytes} {stakingPeriod : StakingPeriod} {data : Bytes}
    {recipient : Tx IPTokenStaking Unit} (hrecipient : ∀ p, Keeps (Grows V p) recipient) {u : Unit}
    (h : Returns (stake I V sender value delegator validatorCmpPubkey stakingPeriod data recipient)
      { s with balance := s.balance + value } u t) : Grows V s t := by
  obtain ⟨_, q, hbody, rfl⟩ := returns_nonReentrant.mp h
  simp only [returns_bind, returns_get, returns_require, returns_modify, returns_transfer, emit,
    Crypto.returns_verifyCmpPubkey] at hbody
  obtain ⟨_, _, ⟨hvalid, rfl⟩, _, _, ⟨hdelegator, rfl⟩, _, _, ⟨_, rfl⟩, _, _, ⟨hperiod, rfl⟩, _, _,
    ⟨rfl, rfl⟩, _, _, ⟨_, rfl⟩, delegationId, r, hid, _, _, rfl, _, _, ⟨_, rfl⟩, hrefund⟩ := hbody
  obtain ⟨n, rfl⟩ := returns_nextDelegationId hid
  have hform : WellFormed V (.deposit ⟨delegator, validatorCmpPubkey,
      (roundedStakeAmount value).1, stakingPeriod.code, delegationId, sender⟩) :=
    ⟨hvalid, hdelegator, dvd_roundedStakeAmount value, hperiod⟩
  exact grows_of_refund hrecipient hrefund hform trivial rfl rfl

theorem grows_exec {sender : Address} {value : Nat} {fn : Fn} {recipient : Tx IPTokenStaking Unit}
    (hrecipient : ∀ p, Keeps (Grows V p) recipient) {u : Unit}
    (h : Returns (exec I V sender value fn recipient) s u t) : Grows V s t := by
  by_cases hparam : fn.SetsParameter
  · exact .of_books (books_of_exec hparam h)
  obtain ⟨_, _, h₀, h⟩ := returns_bind.mp h
  obtain rfl := returns_modify.mp h₀
  cases fn with
  | setOperator operator =>
      apply Emits.grows ?_ h
      apply Emits.check
      intro hoperator
      exact Emits.emit hoperator id
  | unsetOperator => exact Emits.grows (Emits.emit (e := .unsetOperator ⟨sender⟩) trivial id) h
  | setWithdrawalAddress newWithdrawalAddress =>
      apply Emits.grows ?_ h
      apply Emits.check
      intro haddress
      exact Emits.emit ⟨newWithdrawalAddress, haddress, rfl⟩ id
  | setRewardsAddress newRewardsAddress =>
      apply Emits.grows ?_ h
      apply Emits.check
      intro haddress
      exact Emits.emit ⟨newRewardsAddress, haddress, rfl⟩ id
  | createValidator args => exact grows_createValidator hrecipient h
  | updateValidatorCommission key rate =>
      apply Emits.grows ?_ h
      apply Emits.verifyHolder
      intro hkey
      apply Emits.bind
      intro s' _ _
      apply Emits.check
      intro _
      exact Emits.emit hkey id
  | stake key period data => exact grows_stake hrecipient h
  | stakeOnBehalf delegator key period data => exact grows_stake hrecipient h
  | redelegate src dst delegationId amount => exact grows_redelegate h
  | redelegateOnBehalf delegator src dst delegationId amount => exact grows_redelegate h
  | unstake key delegationId amount data => exact grows_unstake h
  | unstakeOnBehalf delegator key delegationId amount data => exact grows_unstake h
  | unjail key data =>
      apply Emits.grows ?_ h
      apply Emits.verifyHolder
      intro hkey
      apply Emits.check
      intro _
      exact Emits.emit hkey id
  | unjailOnBehalf key data =>
      apply Emits.grows ?_ h
      apply Emits.verify
      intro hkey
      apply Emits.check
      intro _
      exact Emits.emit hkey id
  | _ => exact absurd trivial hparam

theorem grows_perform (script : Script Address Fn) (batch : Option Address)
    (p : IPTokenStaking) : Keeps (Grows V p) ((contract I V).perform batch script) := by
  refine Contract.perform_keeps (contract I V) ?_ ?_ script batch p
  · intro p amount s hs
    exact hs.trans (Grows.of_same rfl rfl)
  · intro sender value fn recipient hrecipient p s u t hs h
    exact hs.trans (grows_exec hrecipient h)

/-- In every state that the contract reaches, every event it has emitted was checked, and what
the events stake was burned. -/
theorem Reached.checked {args : InitializerArgs} {script : Script Address Fn}
    (h : Reached I V args script s) :
    (∀ e ∈ s.events, WellFormed V e) ∧ stakedBy s.events ≤ burnedBy s.transfers := by
  obtain ⟨s₀, hsetUp, hscript⟩ := h
  obtain ⟨evs, ts, hevents, htransfers, hform, hle⟩ :=
    grows_perform script none blank _ _ _ (.of_books (books_setUp hsetUp)) hscript
  rw [hevents, htransfers]
  exact ⟨hform, hle⟩

end IPTokenStaking

end Story.Contracts
