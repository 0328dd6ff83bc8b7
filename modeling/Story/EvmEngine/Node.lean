/-
# Story.EvmEngine.Node -- a node, its execution client, and retrying

The committed stores of the application and the fields of the `x/evmengine` keeper
that live in memory only make up a node. The execution client is a parameter: an
`Engine` says what each attempt of each call answers during one ABCI call, so two
nodes, or two calls on one node, may see different answers. `retryForever` takes
fuel; running out of it is not an outcome of the code, and is told apart.
-/
import Story.EvmEngine.Upgrades
import Story.EvmStaking.Withdraw

namespace Story.EvmEngine

open Story.Effect Story.Errors Story.Sdk Story.Eth Story.Netconf

variable {W : Type}

/-! ## The state of a node -/

/-- `ExecutionHead`, the singleton row of the head table. -/
structure ExecutionHead where
  createdHeight : UInt64
  blockHeight : UInt64
  blockHash : Bytes
  blockTime : UInt64
  deriving DecidableEq

def ExecutionHead.hash (h : ExecutionHead) : Hash := bytesToHash h.blockHash

/-- The stores of the application. -/
structure Store (W : Type) where
  evmstaking : EvmStaking.Store W
  head : Option ExecutionHead
  pendingUpgrade : Option Plan

/-- `mutablePayload`, the optimistically triggered payload; its time stamp only delays. -/
structure MutablePayload where
  id : PayloadID
  height : UInt64
  deriving DecidableEq

/-- A node: its stores, and what its keeper keeps in memory. -/
structure Node (W : Type) where
  store : Store W
  isExecEngSyncing : Bool
  mutablePayload : MutablePayload

def storeLens : Lens (Node W) (Store W) where
  view := Node.store
  put := fun s n => { n with store := s }
  view_put := fun _ _ => rfl
  put_view := fun _ => rfl
  put_put := fun _ _ _ => rfl

def evmstakingLens : Lens (Node W) (EvmStaking.Store W) where
  view := fun n => n.store.evmstaking
  put := fun s n => { n with store := { n.store with evmstaking := s } }
  view_put := fun _ _ => rfl
  put_view := fun _ => rfl
  put_put := fun _ _ _ => rfl

/-- The accounts the staking handlers work on. -/
def accountsLens : Lens (Node W) (EvmStaking.Accounts W) :=
  evmstakingLens.comp EvmStaking.accountsLens

/-- The state the upgrade handlers work on. -/
def upgradeLens : Lens (Node W) (UpgradeState W) where
  view := fun n => ⟨n.store.pendingUpgrade, n.store.evmstaking.accounts.sdk⟩
  put := fun u n =>
    { n with store :=
        { n.store with
          pendingUpgrade := u.pendingUpgrade
          evmstaking :=
            { n.store.evmstaking with
              accounts := { n.store.evmstaking.accounts with sdk := u.sdk } } } }
  view_put := fun _ _ => rfl
  put_view := fun _ => rfl
  put_put := fun _ _ _ => rfl

/-- The stores of the SDK modules. -/
def sdkLens : Lens (Node W) W :=
  accountsLens.comp HasSdk.lens

/-! ## Wiring -/

/-- What the keeper is wired to, besides the execution client. -/
structure Wiring (W : Type) where
  keepers : Keepers W
  stakingContract : EvmStaking.StakingContract
  upgradeContract : UpgradeContract
  ubiContract : UBIContract
  json : Json

/-- The waits of an ABCI call, each of which may be cancelled: the retry loops, and the
build delay. -/
inductive Loop
  | newPayload
  | forkchoice
  | startBuild
  | buildDelay
  | getPayload
  | filterLogs
  deriving DecidableEq

/-- The execution client during one ABCI call: the answer to the `i`-th attempt of each
call, and whether the context has been cancelled after the `i`-th round of a loop. -/
structure Engine where
  newPayloadV3 : Nat → ExecutableData → Hash → Except SdkError PayloadStatus
  forkchoiceUpdatedV3 : Nat → ForkchoiceState → Option PayloadAttributes →
    Except SdkError ForkChoiceResponse
  getPayloadV3 : Nat → PayloadID → Except SdkError (Option ExecutableData)
  filterLogs : Nat → Hash → Except SdkError (List Eth.Log)
  cancelled : Loop → Nat → Bool

/-! ## Retrying -/

def errContextCanceled : GoError := .new "context canceled"

/-- `retryForever`: `fn` says nothing to be called again, and a value to stop. -/
def retryForever {σ α : Type} (cancelled : Nat → Bool) (fn : Nat → Prog σ (Option α)) :
    (fuel i : Nat) → Prog σ α
  | 0, _ => throw .retrying
  | fuel + 1, i => do
      let r ← attempt (fn i)
      if cancelled i then
        fail (errContextCanceled.wrap "retry canceled")
      else
        match r with
        | .error err => fail err
        | .ok none => retryForever cancelled fn fuel (i + 1)
        | .ok (some a) => pure a

instance readOnly_retryForever {σ α : Type} (cancelled : Nat → Bool)
    (fn : Nat → Prog σ (Option α)) [∀ i, ReadOnly (fn i)] (fuel i : Nat) :
    ReadOnly (retryForever cancelled fn fuel i) := by
  induction fuel generalizing i with
  | zero => exact ReadOnly.throw _
  | succ fuel ih =>
      unfold retryForever
      refine @ReadOnly.bind _ _ _ _ _ _ inferInstance ?_
      intro r
      refine @ReadOnly.ite _ _ _ _ _ _ _ inferInstance ?_
      rcases r with err | _ | a
      · exact readOnly_fail err
      · exact ih (i + 1)
      · exact ReadOnly.pure a

/-- The loop returns what some attempt returned; the attempts before it changed nothing
that `I` speaks about. -/
theorem retryForever_returns {σ α : Type} {cancelled : Nat → Bool} {fn : Nat → Prog σ (Option α)}
    {I : σ → Prop} (hretry : ∀ i s t, I s → Returns (fn i) s none t → I t) {fuel i : Nat}
    {s t : σ} {a : α} (hI : I s) (h : Returns (retryForever cancelled fn fuel i) s a t) :
    ∃ j s', I s' ∧ Returns (fn j) s' (some a) t := by
  induction fuel generalizing i s with
  | zero => exact absurd h returns_throw
  | succ fuel ih =>
      obtain ⟨r, s', hr, h⟩ := returns_bind.mp h
      split at h
      · exact absurd h returns_fail
      cases r with
      | error err => exact absurd h returns_fail
      | ok o =>
          have hr' := returns_attempt_ok.mp hr
          cases o with
          | none => exact ih (hretry i s s' hI hr') h
          | some b =>
              obtain ⟨rfl, rfl⟩ := returns_pure.mp h
              exact ⟨i, s, hI, hr'⟩

/-- A loop that is not cancelled and whose `n`-th attempt is the first to stop returns
what that attempt returns, given fuel for `n + 1` rounds. -/
theorem retryForever_of_attempt {σ α : Type} {cancelled : Nat → Bool}
    {fn : Nat → Prog σ (Option α)} (hc : ∀ i, cancelled i = false) {n : Nat} {s t : σ} {a : α}
    {fuel i : Nat} (hretry : ∀ k < n, Returns (fn (i + k)) s none s)
    (hstop : Returns (fn (i + n)) s (some a) t) (hfuel : n < fuel) :
    Returns (retryForever cancelled fn fuel i) s a t := by
  induction n generalizing i fuel with
  | zero =>
      obtain ⟨fuel, rfl⟩ : ∃ k, fuel = k + 1 := ⟨fuel - 1, by omega⟩
      refine (returns_attempt_ok.mpr hstop).bind ?_
      simp [hc]
  | succ n ih =>
      obtain ⟨fuel, rfl⟩ : ∃ k, fuel = k + 1 := ⟨fuel - 1, by omega⟩
      have h0 := hretry 0 (Nat.succ_pos n)
      refine (returns_attempt_ok.mpr h0).bind ?_
      simp only [hc, Bool.false_eq_true, if_false]
      refine ih (i := i + 1) ?_ ?_ (by omega)
      · intro k hk
        have := hretry (k + 1) (by omega)
        rwa [show i + 1 + k = i + (k + 1) by omega]
      · rwa [show i + 1 + n = i + (n + 1) by omega]

end Story.EvmEngine
