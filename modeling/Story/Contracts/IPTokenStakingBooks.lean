/-
# Story.Contracts.IPTokenStakingBooks -- every wei staked is burned or refunded

What a call of the deposit contract leaves behind. A request for a fee burns its value
and emits one event. A staking call burns the amount its event names and sends the rest,
less than a gwei, back to the caller; while the code of the caller runs the guard is up,
so that code can make requests but not stake. `Since` says what has happened to the
contract between two states, and is kept by everything that can be done to it.

The amounts of the events are whole numbers of gwei, so that nothing is lost when the
consensus layer divides by a gwei before it mints.
-/
import Story.Contracts.IPTokenStaking
import Story.EvmStaking.Conservation

namespace Story.Contracts

open Story.Effect Story.Eth Story.Evm Story.EvmStaking Story.Sdk

namespace IPTokenStaking

variable {I : Immutables} {V : Crypto} {s t : IPTokenStaking}

/-! ## Parameters -/

/-- What the contract holds besides its owner and its parameters. -/
structure Books where
  entered : Bool
  balance : Nat
  forced : Nat
  delegationIdCounter : Nat
  transfers : List Transfer
  events : List StakingEvent

def books (s : IPTokenStaking) : Books where
  entered := s.entered
  balance := s.balance
  forced := s.forced
  delegationIdCounter := s.delegationIdCounter
  transfers := s.transfers
  events := s.events

/-- The setters of the parameters. -/
def setters (I : Immutables) (n : Nat) : List (Tx IPTokenStaking Unit) :=
  [setFee I n, setMinStakeAmount n, setMinUnstakeAmount n, setMinCommissionRate n]

/-- **A setter changes parameters only.** -/
theorem moves_setter {n : Nat} {set : Tx IPTokenStaking Unit} (h : set ∈ setters I n) :
    Moves (Same books) set := by
  have hwrite (f : IPTokenStaking → IPTokenStaking) (hf : ∀ s, books (f s) = books s) :
      Moves (Same books) (modify f : Tx IPTokenStaking PUnit) := .modify hf
  simp only [setters, List.mem_cons, List.not_mem_nil, or_false] at h
  rcases h with rfl | rfl | rfl | rfl
  · have := hwrite (fun s => { s with fee := n }) fun _ => rfl
    exact Moves.bind _ _
  · have := hwrite (fun s => { s with minStakeAmount := n - n % STAKE_ROUNDING }) fun _ => rfl
    exact Moves.bind _ _
  · have := hwrite (fun s => { s with minUnstakeAmount := n - n % STAKE_ROUNDING }) fun _ => rfl
    exact Moves.bind _ _
  · have := hwrite (fun s => { s with minCommissionRate := n }) fun _ => rfl
    exact Moves.bind _ _

theorem books_setUp {args : InitializerArgs} {u : Unit} (h : Returns (setUp I args) s u t) :
    books t = books s := by
  simp only [setUp, returns_bind, returns_modify] at h
  obtain ⟨_, _, rfl, _, s₁, hstake, _, s₂, hunstake, _, s₃, hrate, hfee⟩ := h
  have hset (n : Nat) {set : Tx IPTokenStaking Unit} {s t : IPTokenStaking} {u : Unit}
      (hset : set ∈ setters I n) (h : Returns set s u t) : books t = books s :=
    (moves_setter hset).returns s u t h
  calc books t = books s₃ := hset args.fee (by simp [setters]) hfee
    _ = books s₂ := hset args.minCommissionRate (by simp [setters]) hrate
    _ = books s₁ := hset args.minUnstakeAmount (by simp [setters]) hunstake
    _ = books { s with owner := args.owner } :=
        hset args.minStakeAmount (by simp [setters]) hstake

/-- The functions that set the owner or a parameter. -/
def Fn.SetsParameter : Fn → Prop
  | .setMinStakeAmount _ | .setMinUnstakeAmount _ | .setFee _ | .setMinCommissionRate _
  | .setOwner _ => True
  | _ => False

theorem books_of_exec {sender : Address} {value : Nat} {fn : Fn} (hfn : fn.SetsParameter)
    {recipient : Tx IPTokenStaking Unit} {u : Unit}
    (h : Returns (exec I V sender value fn recipient) s u t) : books t = books s := by
  obtain ⟨_, _, h₀, h⟩ := returns_bind.mp h
  obtain rfl := returns_modify.mp h₀
  have hsets {n : Nat} {set : Tx IPTokenStaking Unit} (hset : set ∈ setters I n)
      (h : Returns (onlyOwnerSets sender value set) { s with balance := s.balance + value } u t) :
      books t = books s := by
    obtain ⟨_, hvalue, h⟩ := ReadOnly.returns_bind_iff.mp h
    obtain ⟨rfl, _⟩ := returns_require.mp hvalue
    obtain ⟨_, _, h⟩ := ReadOnly.returns_bind_iff.mp h
    exact (moves_setter hset).returns _ _ _ h
  cases fn with
  | setMinStakeAmount n => exact hsets (n := n) (by simp [setters]) h
  | setMinUnstakeAmount n => exact hsets (n := n) (by simp [setters]) h
  | setFee n => exact hsets (n := n) (by simp [setters]) h
  | setMinCommissionRate n => exact hsets (n := n) (by simp [setters]) h
  | setOwner newOwner =>
      simp only [run, returns_bind, returns_require, returns_modify] at h
      obtain ⟨_, _, ⟨rfl, rfl⟩, rfl⟩ := h
      rfl
  | _ => exact absurd hfn id

/-! ## Between two states -/

/-- What has happened to the contract from `s` to `t`: it kept nothing of what it was called
with, every event has a whole number of gwei, and while the guard was up nothing was staked and
nothing was sent but to be burned. -/
structure Since (s t : IPTokenStaking) : Prop where
  entered : t.entered = s.entered
  balance : t.balance + s.forced = s.balance + t.forced
  events : ∃ more, t.events = s.events ++ more ∧ (∀ e ∈ more, gwei ∣ e.amount) ∧
    (s.entered = true → ∀ e ∈ more, ¬ e.Stakes)
  transfers : ∃ more, t.transfers = s.transfers ++ more ∧
    (s.entered = true → ∀ x ∈ more, x.recipient = zeroAddress)

theorem Since.of_same (h : books t = books s) : Since s t := by
  obtain ⟨hentered, hbalance, hforced, _, htransfers, hevents⟩ := Books.mk.inj h
  refine ⟨hentered, ?_, ⟨[], by simp [hevents]⟩, ⟨[], by simp [htransfers]⟩⟩
  rw [hbalance, hforced]

theorem Since.trans {u : IPTokenStaking} (h : Since s t) (h' : Since t u) : Since s u where
  entered := h'.entered.trans h.entered
  balance := by
    have := h.balance
    have := h'.balance
    omega
  events := by
    obtain ⟨more, hmore, hgwei, hguard⟩ := h.events
    obtain ⟨more', hmore', hgwei', hguard'⟩ := h'.events
    rw [h.entered] at hguard'
    refine ⟨more ++ more', by rw [hmore', hmore, List.append_assoc], ?_, ?_⟩
    · exact fun e he => (List.mem_append.mp he).elim (hgwei e) (hgwei' e)
    · exact fun hs e he => (List.mem_append.mp he).elim (hguard hs e) (hguard' hs e)
  transfers := by
    obtain ⟨more, hmore, hguard⟩ := h.transfers
    obtain ⟨more', hmore', hguard'⟩ := h'.transfers
    rw [h.entered] at hguard'
    refine ⟨more ++ more', by rw [hmore', hmore, List.append_assoc], ?_⟩
    exact fun hs x hx => (List.mem_append.mp hx).elim (hguard hs x) (hguard' hs x)

/-! ## Requests and parameters -/

theorem returns_transfer {recipient : Address} {amount : Nat} {u : Unit} :
    Returns (transfer recipient amount) s u t ↔ amount ≤ s.balance ∧
      t = { s with
        balance := s.balance - amount
        transfers := s.transfers ++ [⟨recipient, amount⟩] } := by
  simp only [transfer, returns_bind, returns_get, returns_require, returns_modify]
  constructor
  · rintro ⟨_, _, ⟨rfl, rfl⟩, _, _, ⟨hle, rfl⟩, rfl⟩
    exact ⟨hle, rfl⟩
  · rintro ⟨hle, rfl⟩
    exact ⟨s, s, ⟨rfl, rfl⟩, (), s, ⟨hle, rfl⟩, rfl⟩

/-- The program does nothing but emit one event, which does not stake. -/
def Requests (body : Tx IPTokenStaking Unit) : Prop :=
  ∀ s u t, Returns body s u t →
    ∃ e : StakingEvent, gwei ∣ e.amount ∧ ¬ e.Stakes ∧ t = { s with events := s.events ++ [e] }

theorem requests_emit {e : StakingEvent} (hgwei : gwei ∣ e.amount) (hstakes : ¬ e.Stakes) :
    Requests (emit e) := by
  intro s u t h
  exact ⟨e, hgwei, hstakes, (returns_modify.mp h).symm⟩

theorem Requests.bind {α : Type} {x : Tx IPTokenStaking α} [ReadOnly x]
    {f : α → Tx IPTokenStaking Unit} (hf : ∀ a, Requests (f a)) : Requests (x >>= f) := by
  intro s u t h
  obtain ⟨a, _, h⟩ := ReadOnly.returns_bind_iff.mp h
  exact hf a s u t h

/-- A request burns the value it comes with. -/
theorem Requests.since {body : Tx IPTokenStaking Unit} (hbody : Requests body) {value : Nat}
    {u : Unit}
    (h : Returns (chargesFee value body) { s with balance := s.balance + value } u t) :
    Since s t := by
  simp only [chargesFee, returns_bind, returns_get, returns_require, returns_transfer] at h
  obtain ⟨_, _, ⟨rfl, rfl⟩, _, _, ⟨_, rfl⟩, _, _, ⟨_, rfl⟩, h⟩ := h
  obtain ⟨e, hgwei, hstakes, rfl⟩ := hbody _ _ _ h
  refine ⟨rfl, ?_, ⟨[e], rfl, by simpa using hgwei, by simpa using fun _ => hstakes⟩,
    ⟨[⟨zeroAddress, value⟩], rfl, by simp⟩⟩
  show s.balance + value - value + s.forced = s.balance + s.forced
  omega

theorem dvd_roundedStakeAmount (rawAmount : Nat) : gwei ∣ (roundedStakeAmount rawAmount).1 :=
  Nat.dvd_sub_mod rawAmount

/-! ## Staking calls -/

/-- What is sent back to the caller. -/
def refund (sender : Address) (value : Nat) : List Transfer :=
  if 0 < value % gwei then [⟨sender, value % gwei⟩] else []

/-- `p` is the state in which a staking call has burned the amount of its event and refunded
the rest, and the code of the caller runs. -/
structure Staked (sender : Address) (value : Nat) (e : StakingEvent) (s p : IPTokenStaking) :
    Prop where
  free : s.entered = false
  stakes : e.Stakes
  amount : e.amount = (roundedStakeAmount value).1
  minimum : s.minStakeAmount ≤ e.amount
  entered : p.entered = true
  balance : p.balance = s.balance
  forced : p.forced = s.forced
  events : p.events = s.events ++ [e]
  transfers : p.transfers = s.transfers ++ ⟨zeroAddress, e.amount⟩ :: refund sender value

/-- A staking call: the amount is staked, the code of the caller runs if it is sent something,
and the guard goes down. -/
def StakeCall (sender : Address) (value : Nat) (recipient : Tx IPTokenStaking Unit)
    (s t : IPTokenStaking) : Prop :=
  ∃ e p q, Staked sender value e s p ∧ (Returns recipient p () q ∨ q = p) ∧
    t = { q with entered := false }

theorem returns_refund {sender : Address} {value : Nat} {recipient : Tx IPTokenStaking Unit}
    {u : Unit}
    (h : Returns (if 0 < value % gwei then refundRemainder sender (value % gwei) recipient
      else pure ()) s u t) :
    ∃ p, p = { s with
        balance := s.balance - value % gwei
        transfers := s.transfers ++ refund sender value } ∧
      (Returns recipient p () t ∨ t = p) := by
  refine ⟨_, rfl, ?_⟩
  rcases returns_ite.mp h with ⟨hpos, h⟩ | ⟨hzero, h⟩
  · left
    simp only [refundRemainder, returns_bind, returns_require] at h
    obtain ⟨success, q, hcall, hsuccess, rfl⟩ := h
    obtain rfl : success = true := hsuccess
    simp only [returns_tryCall_true, returns_bind, returns_transfer] at hcall
    obtain ⟨_, _, ⟨_, rfl⟩, hrecipient⟩ := hcall
    simpa [refund, hpos] using hrecipient
  · right
    obtain ⟨_, rfl⟩ := returns_pure.mp h
    simp [refund, Nat.eq_zero_of_not_pos hzero]

/-- The value of a call is its rounded amount and the remainder. -/
theorem rounded_add_remainder (value : Nat) :
    (roundedStakeAmount value).1 + value % gwei = value :=
  Nat.sub_add_cancel (Nat.mod_le value gwei)

/-- A staking call from the state `r` on, in which its event is out and its amount burned. -/
theorem stakeCall_of_refund {sender : Address} {value : Nat} {recipient : Tx IPTokenStaking Unit}
    {e : StakingEvent} {r q : IPTokenStaking} {u : Unit}
    (h : Returns (if 0 < value % gwei then refundRemainder sender (value % gwei) recipient
      else pure ()) r u q)
    (hfree : s.entered = false) (hstakes : e.Stakes)
    (hamount : e.amount = (roundedStakeAmount value).1) (hmin : s.minStakeAmount ≤ e.amount)
    (hentered : r.entered = true) (hbalance : r.balance = s.balance + value - e.amount)
    (hforced : r.forced = s.forced) (hevents : r.events = s.events ++ [e])
    (htransfers : r.transfers = s.transfers ++ [⟨zeroAddress, e.amount⟩]) :
    StakeCall sender value recipient s { q with entered := false } := by
  obtain ⟨p, hp, hrun⟩ := returns_refund h
  refine ⟨e, p, q, ⟨hfree, hstakes, hamount, hmin, ?_, ?_, ?_, ?_, ?_⟩, hrun, rfl⟩ <;> subst hp
  · exact hentered
  · have := rounded_add_remainder value
    show r.balance - value % gwei = s.balance
    omega
  · exact hforced
  · exact hevents
  · show r.transfers ++ refund sender value = _
    rw [htransfers, List.append_assoc, List.singleton_append]

theorem returns_createValidator {sender : Address} {value : Nat} {args : ValidatorArgs}
    {recipient : Tx IPTokenStaking Unit} {u : Unit}
    (h : Returns (createValidator I V sender value args recipient)
      { s with balance := s.balance + value } u t) : StakeCall sender value recipient s t := by
  obtain ⟨_, _, hkey, h⟩ := returns_bind.mp h
  obtain ⟨_, rfl⟩ := Crypto.returns_verifyCmpPubkeyWithExpectedAddress.mp hkey
  obtain ⟨hfree, q, hbody, rfl⟩ := returns_nonReentrant.mp h
  simp only [returns_bind, returns_get, returns_require, returns_modify, returns_transfer,
    emit] at hbody
  obtain ⟨_, _, ⟨rfl, rfl⟩, _, _, ⟨hmin, rfl⟩, _, _, ⟨_, rfl⟩, _, _, ⟨_, rfl⟩, _, _, ⟨_, rfl⟩,
    _, _, ⟨_, rfl⟩, _, _, ⟨_, rfl⟩, _, _, rfl, hrefund⟩ := hbody
  exact stakeCall_of_refund (e := .createValidator (args.event (roundedStakeAmount value).1 sender))
    hrefund hfree trivial rfl hmin rfl rfl rfl rfl rfl

/-- A locked stake counts the ids up, and nothing else changes. -/
theorem returns_nextDelegationId {stakingPeriod : StakingPeriod} {delegationId : Nat}
    (h : Returns (nextDelegationId stakingPeriod) s delegationId t) :
    ∃ n, t = { s with delegationIdCounter := n } := by
  rcases returns_ite.mp h with ⟨_, h⟩ | ⟨_, h⟩
  · simp only [returns_bind, returns_get, returns_checkedAdd, returns_modify, returns_pure] at h
    obtain ⟨_, _, ⟨rfl, rfl⟩, _, _, ⟨_, rfl, rfl⟩, _, _, rfl, _, rfl⟩ := h
    exact ⟨_, rfl⟩
  · obtain ⟨_, rfl⟩ := returns_pure.mp h
    exact ⟨s.delegationIdCounter, rfl⟩

theorem returns_stake {sender : Address} {value : Nat} {delegator : Address}
    {validatorCmpPubkey : Bytes} {stakingPeriod : StakingPeriod} {data : Bytes}
    {recipient : Tx IPTokenStaking Unit} {u : Unit}
    (h : Returns (stake I V sender value delegator validatorCmpPubkey stakingPeriod data recipient)
      { s with balance := s.balance + value } u t) : StakeCall sender value recipient s t := by
  obtain ⟨hfree, q, hbody, rfl⟩ := returns_nonReentrant.mp h
  simp only [returns_bind, returns_get, returns_require, returns_modify, returns_transfer, emit,
    Crypto.returns_verifyCmpPubkey] at hbody
  obtain ⟨_, _, ⟨_, rfl⟩, _, _, ⟨_, rfl⟩, _, _, ⟨_, rfl⟩, _, _, ⟨_, rfl⟩, _, _, ⟨rfl, rfl⟩,
    _, _, ⟨hmin, rfl⟩, delegationId, r, hid, _, _, rfl, _, _, ⟨_, rfl⟩, hrefund⟩ := hbody
  obtain ⟨n, rfl⟩ := returns_nextDelegationId hid
  exact stakeCall_of_refund (e := .deposit ⟨delegator, validatorCmpPubkey,
      (roundedStakeAmount value).1, stakingPeriod.code, delegationId, sender⟩)
    hrefund hfree trivial rfl hmin rfl rfl rfl rfl rfl

/-- While the code of the caller runs the guard is up, so after it the contract has the same
balance, and has staked nothing else. -/
theorem StakeCall.since {sender : Address} {value : Nat} {recipient : Tx IPTokenStaking Unit}
    (hrecipient : ∀ p, Keeps (Since p) recipient) (h : StakeCall sender value recipient s t) :
    Since s t ∧ ∃ e moreEvents moreTransfers, e.Stakes ∧ e.amount = (roundedStakeAmount value).1 ∧
      s.minStakeAmount ≤ e.amount ∧ t.events = s.events ++ e :: moreEvents ∧
      (∀ e' ∈ moreEvents, ¬ e'.Stakes) ∧
      t.transfers = s.transfers ++ ⟨zeroAddress, e.amount⟩ ::
        (refund sender value ++ moreTransfers) ∧
      ∀ x ∈ moreTransfers, x.recipient = zeroAddress := by
  obtain ⟨e, p, q, hstaked, hrun, rfl⟩ := h
  have hself : Since p p := .of_same rfl
  -- the guard is up in `p`, so the code of the caller can make requests but cannot stake
  have hsince : Since p q := by
    rcases hrun with hrun | rfl
    · exact hrecipient p p () q hself hrun
    · exact hself
  obtain ⟨moreEvents, hevents, hgwei, hguard⟩ := hsince.events
  obtain ⟨moreTransfers, htransfers, hburned⟩ := hsince.transfers
  rw [hstaked.events, List.append_assoc, List.singleton_append] at hevents
  rw [hstaked.transfers, List.append_assoc, List.cons_append] at htransfers
  refine ⟨⟨hstaked.free.symm, ?_, ⟨_, hevents, ?_, ?_⟩, ⟨_, htransfers, ?_⟩⟩, e, moreEvents,
    moreTransfers, hstaked.stakes, hstaked.amount, hstaked.minimum, hevents,
    hguard hstaked.entered, htransfers, hburned hstaked.entered⟩
  · have hbalance := hsince.balance
    rwa [hstaked.balance, hstaked.forced] at hbalance
  · intro e' he'
    rcases List.mem_cons.mp he' with rfl | he'
    · exact hstaked.amount ▸ dvd_roundedStakeAmount value
    · exact hgwei e' he'
  · simp [hstaked.free]
  · simp [hstaked.free]

/-! ## Every call -/

/-- The functions that stake. -/
def Fn.Stakes : Fn → Prop
  | .createValidator _ => True
  | .stake _ _ _ => True
  | .stakeOnBehalf _ _ _ _ => True
  | _ => False

theorem stakeCall_of_exec {sender : Address} {value : Nat} {fn : Fn} (hfn : fn.Stakes)
    {recipient : Tx IPTokenStaking Unit} {u : Unit}
    (h : Returns (exec I V sender value fn recipient) s u t) :
    StakeCall sender value recipient s t := by
  obtain ⟨_, _, h₀, h⟩ := returns_bind.mp h
  obtain rfl := returns_modify.mp h₀
  cases fn with
  | createValidator args => exact returns_createValidator h
  | stake key period data => exact returns_stake h
  | stakeOnBehalf delegator key period data => exact returns_stake h
  | _ => exact absurd hfn id

theorem since_redelegate {sender : Address} {value : Nat} {delegator : Address} {src dst : Bytes}
    {delegationId amount : Nat} {u : Unit}
    (h : Returns (redelegate V sender value delegator src dst delegationId amount)
      { s with balance := s.balance + value } u t) : Since s t := by
  refine Requests.since ?_ h
  refine .bind fun _ => .bind fun _ => .bind fun _ => .bind fun _ => .bind fun _ =>
    .bind fun _ => .bind fun _ => ?_
  exact requests_emit (dvd_roundedStakeAmount amount) id

theorem since_unstake {sender : Address} {value : Nat} {delegator : Address} {key : Bytes}
    {delegationId amount : Nat} {data : Bytes} {u : Unit}
    (h : Returns (unstake I V sender value delegator key delegationId amount data)
      { s with balance := s.balance + value } u t) : Since s t := by
  refine Requests.since ?_ h
  refine .bind fun _ => .bind fun _ => .bind fun _ => .bind fun _ => .bind fun _ => ?_
  exact requests_emit (dvd_roundedStakeAmount amount) id

/-- **A call leaves the balance as it was**, whatever the code of the caller does. -/
theorem since_exec {sender : Address} {value : Nat} {fn : Fn} {recipient : Tx IPTokenStaking Unit}
    (hrecipient : ∀ p, Keeps (Since p) recipient) {u : Unit}
    (h : Returns (exec I V sender value fn recipient) s u t) : Since s t := by
  by_cases hfn : fn.Stakes
  · exact (StakeCall.since hrecipient (stakeCall_of_exec hfn h)).1
  by_cases hparam : fn.SetsParameter
  · exact .of_same (books_of_exec hparam h)
  obtain ⟨_, _, h₀, h⟩ := returns_bind.mp h
  obtain rfl := returns_modify.mp h₀
  cases fn with
  | setOperator operator =>
      exact (Requests.bind fun _ => requests_emit (dvd_zero _) id).since h
  | unsetOperator => exact (requests_emit (dvd_zero _) id).since h
  | setWithdrawalAddress newWithdrawalAddress =>
      exact (Requests.bind fun _ => requests_emit (dvd_zero _) id).since h
  | setRewardsAddress newRewardsAddress =>
      exact (Requests.bind fun _ => requests_emit (dvd_zero _) id).since h
  | updateValidatorCommission key rate =>
      exact (Requests.bind fun _ => .bind fun _ => .bind fun _ =>
        requests_emit (dvd_zero _) id).since h
  | redelegate src dst delegationId amount => exact since_redelegate h
  | redelegateOnBehalf delegator src dst delegationId amount => exact since_redelegate h
  | unstake key delegationId amount data => exact since_unstake h
  | unstakeOnBehalf delegator key delegationId amount data => exact since_unstake h
  | unjail key data =>
      exact (Requests.bind fun _ => .bind fun _ => requests_emit (dvd_zero _) id).since h
  | unjailOnBehalf key data =>
      exact (Requests.bind fun _ => .bind fun _ => requests_emit (dvd_zero _) id).since h
  | createValidator _ | stake _ _ _ | stakeOnBehalf _ _ _ _ => exact absurd trivial hfn
  | _ => exact absurd trivial hparam

theorem since_perform (script : Script Address Fn) (batch : Option Address)
    (p : IPTokenStaking) : Keeps (Since p) ((contract I V).perform batch script) := by
  refine Contract.perform_keeps (contract I V) ?_ ?_ script batch p
  · intro p amount s hs
    refine hs.trans ⟨rfl, ?_, ⟨[], by simp [contract]⟩, ⟨[], by simp [contract]⟩⟩
    show s.balance + amount + s.forced = s.balance + (s.forced + amount)
    omega
  · intro sender value fn recipient hrecipient p s u t hs h
    exact hs.trans (since_exec hrecipient h)

/-! ## Over a run -/

/-- `s` is reached from the set-up contract by a script of the outside world. -/
def Reached (I : Immutables) (V : Crypto) (args : InitializerArgs) (script : Script Address Fn)
    (s : IPTokenStaking) : Prop :=
  ∃ s₀, Returns (setUp I args) blank () s₀ ∧ Returns ((contract I V).perform none script) s₀ () s

theorem Reached.since {args : InitializerArgs} {script : Script Address Fn}
    (h : Reached I V args script s) : Since blank s := by
  obtain ⟨s₀, hsetUp, hscript⟩ := h
  exact since_perform script none blank _ _ _ (.of_same (books_setUp hsetUp)) hscript

/-- What a staking call with `value` by `sender` does from `s` to `t`: its event comes first,
then what the code of the caller asks for; the amount of the event is burned and the rest is
refunded. -/
def BurnsAndRefunds (sender : Address) (value : Nat) (s t : IPTokenStaking) : Prop :=
  ∃ e remainder moreEvents moreTransfers, e.Stakes ∧
    t.events = s.events ++ e :: moreEvents ∧ (∀ e' ∈ moreEvents, ¬ e'.Stakes) ∧
    t.transfers = s.transfers ++ ⟨zeroAddress, e.amount⟩ ::
      ((if 0 < remainder then [⟨sender, remainder⟩] else []) ++ moreTransfers) ∧
    (∀ x ∈ moreTransfers, x.recipient = zeroAddress) ∧
    value = e.amount + remainder ∧ remainder < gwei ∧ gwei ∣ e.amount ∧
    s.minStakeAmount ≤ e.amount

/-- The consensus layer finds the handler of the event, with its amount in gwei. If the event
stakes and its handler succeeds, the handler mints that amount once and for the account the event
names, and the supply of bond coins, in wei, grows by the amount of the event. -/
def MintsExactly (e : StakingEvent) : Prop :=
  (∀ (C : StakingContract) (ethlog : Eth.Log), C.eventIDs.Nodup → C.Reads ethlog e →
      C.parse (C.eventID e) ethlog = some (.ok e.inGwei)) ∧
    e.inGwei.amount * gwei = e.amount ∧
    (∀ (W : Type) (K : Keepers W) (Q : W → W → Prop) [IsPreorder W Q] [Quiet K Q] (ctx : Ctx)
      (a a' : Accounts W), e.Stakes → Returns (handle K ctx e.inGwei) a () a' →
        MintsOnce K Q ctx a.sdk a'.sdk e.inGwei) ∧
    ∀ (W : Type) (K : Keepers W) (supply : W → Int), SupplyLaws K supply → ∀ (ctx : Ctx)
      (a a' : Accounts W), e.Stakes → Returns (handle K ctx e.inGwei) a () a' →
        (supply a'.sdk - supply a.sdk) * gwei = e.amount

theorem mintsExactly {e : StakingEvent} (h : gwei ∣ e.amount) : MintsExactly e := by
  have hexact := StakingEvent.inGwei_exact h
  have hstill (hstakes : e.Stakes) : e.inGwei.Stakes := by
    cases e <;> exact hstakes
  refine ⟨fun C ethlog hids hreads => StakingContract.parse_of_reads hids hreads, hexact, ?_, ?_⟩
  · intro W K Q _ _ ctx a a' hstakes hhandle
    exact handle_mints (hstill hstakes) hhandle
  · intro W K supply laws ctx a a' hstakes hhandle
    rw [handle_supply laws hhandle, mints_of_stakes (hstill hstakes), ← hexact]
    push_cast
    ring

/-- **Every wei staked is burned or refunded, and minted on the other layer.** In every state
that the contract reaches it holds nothing but what was forced on it; a call from there leaves
the balance as it was; a staking call burns the amount of its event, at least the minimum, and
refunds the rest, less than a gwei; and every event that was ever emitted is a whole number of
gwei, which is what the consensus layer mints for it. -/
theorem staked_wei_burned_refunded_or_minted {args : InitializerArgs}
    {script : Script Address Fn} (h : Reached I V args script s) :
    s.balance = s.forced ∧
      (∀ sender value fn reaction t,
        Returns (exec I V sender value fn ((contract I V).perform none reaction)) s () t →
        t.balance + s.forced = s.balance + t.forced ∧
          (fn.Stakes → BurnsAndRefunds sender value s t)) ∧
      ∀ e ∈ s.events, gwei ∣ e.amount ∧ MintsExactly e := by
  have hsince := h.since
  refine ⟨?_, ?_, ?_⟩
  · have hbalance := hsince.balance
    simp only [blank] at hbalance
    omega
  · intro sender value fn reaction t hcall
    have hreaction := fun p => since_perform (I := I) (V := V) reaction none p
    refine ⟨(since_exec hreaction hcall).balance, fun hfn => ?_⟩
    obtain ⟨_, e, moreEvents, moreTransfers, hstakes, hamount, hmin, hevents, hmore, htransfers,
      hburned⟩ := StakeCall.since hreaction (stakeCall_of_exec hfn hcall)
    refine ⟨e, value % gwei, moreEvents, moreTransfers, hstakes, hevents, hmore, htransfers,
      hburned, ?_, Nat.mod_lt _ (by decide), hamount ▸ dvd_roundedStakeAmount value, hmin⟩
    rw [hamount, rounded_add_remainder]
  · intro e he
    obtain ⟨more, hevents, hgwei, _⟩ := hsince.events
    rw [hevents] at he
    have hdvd := hgwei e (by simpa [blank] using he)
    exact ⟨hdvd, mintsExactly hdvd⟩

def sampleImmutables : Immutables := ⟨gwei, 64, le_rfl⟩

def sampleArgs : InitializerArgs := ⟨sampleCrypto.holder evenKey, gwei, gwei, 1, gwei⟩

/-- A caller who stakes with five wei too many and uses the refund to make a request, which is
accepted, and to stake again, which is not. -/
def stakesTwice : Script Address Fn :=
  let sender := sampleCrypto.holder evenKey
  .credit 7 <| .call sender (2 * gwei + 5) (.stake evenKey .SHORT [])
    (.call sender gwei .unsetOperator .done <|
      .call sender (3 * gwei) (.stake evenKey .SHORT []) .done .done)
    .done

theorem five_wei_refunded : ∃ s,
    Reached sampleImmutables sampleCrypto sampleArgs stakesTwice s ∧ s.balance = 7 ∧
    s.transfers = [⟨zeroAddress, 2 * gwei⟩, ⟨sampleCrypto.holder evenKey, 5⟩,
      ⟨zeroAddress, gwei⟩] ∧
    ∀ e ∈ s.events, MintsExactly e := by
  have heval : ((finalState (setUp sampleImmutables sampleArgs) blank).bind fun s₀ =>
      (finalState ((contract sampleImmutables sampleCrypto).perform none stakesTwice) s₀)).map
        (fun s => (s.forced, s.transfers))
      = some (7, [⟨zeroAddress, 2 * gwei⟩, ⟨sampleCrypto.holder evenKey, 5⟩,
        ⟨zeroAddress, gwei⟩]) := by decide +kernel
  obtain ⟨s, hs, hfields⟩ := Option.map_eq_some_iff.mp heval
  obtain ⟨s₀, hs₀, hs⟩ := Option.bind_eq_some_iff.mp hs
  simp only [Prod.mk.injEq] at hfields
  have hreached : Reached sampleImmutables sampleCrypto sampleArgs stakesTwice s :=
    ⟨s₀, returns_of_finalState hs₀, returns_of_finalState hs⟩
  obtain ⟨hbalance, _, hevents⟩ := staked_wei_burned_refunded_or_minted hreached
  exact ⟨s, hreached, hbalance.trans hfields.1, hfields.2, fun e he => (hevents e he).2⟩

end IPTokenStaking

end Story.Contracts
