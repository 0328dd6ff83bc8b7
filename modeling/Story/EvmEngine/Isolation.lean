/-
# Story.EvmEngine.Isolation -- event handlers are all-or-nothing and isolated

The three dispatchers share one loop. On events that pass `Verify` it never stops:
each event applies the complete effect of its handler or nothing at all, so a list
of events is a left fold over the state, and the events whose handler fails might
as well not be there.
-/
import Story.EvmEngine.Upgrades
import Story.EvmStaking.Atomic
import Story.Sdk.Ledger

namespace Story.EvmEngine

open Story.Effect Story.Errors Story.Sdk Story.Eth
open Story.EvmStaking (Atomic HandlerBody dispatchLog actOn logError handle processStakingEvents
  StakingContract)

variable {W σ ε : Type}

/-! ## What an event does -/

/-- The complete effect of a call, or nothing when it stops. -/
def effect (x : Prog σ Unit) (s : σ) : σ :=
  match x.run s with
  | .ok _ t => t
  | .error _ _ => s

theorem effect_of_returns {x : Prog σ Unit} {s t : σ} (h : Returns x s () t) : effect x s = t := by
  rw [effect, returns_iff.mp h]

theorem effect_cases (x : Prog σ Unit) (s : σ) : effect x s = s ∨ Returns x s () (effect x s) := by
  unfold effect
  split
  next h => exact .inr h
  next => exact .inl rfl

/-- Does the call return? -/
def completes (x : Prog σ Unit) (s : σ) : Bool :=
  match x.run s with
  | .ok _ _ => true
  | .error _ _ => false

theorem returns_of_completes {x : Prog σ Unit} {s : σ} (h : completes x s = true) :
    Returns x s () (effect x s) := by
  unfold completes at h
  rw [returns_iff, effect]
  split at h
  next hx => rw [hx]
  next => cases h

theorem fails_of_not_completes {x : Prog σ Unit} {s : σ} (h : completes x s = false) :
    ∃ f t, Fails x s f t := by
  unfold completes at h
  split at h
  next => cases h
  next f t hx => exact ⟨f, t, fails_iff.mpr hx⟩

/-- What a dispatcher makes of an event; nothing when it is not one of its own. -/
def parseEvent (parse : Hash → Eth.Log → Option (Except GoError ε)) (ev : Option EVMEvent) :
    Option (Except GoError ε) :=
  match EVMEvent.toEthLog ev with
  | .error _ => none
  | .ok ethlog =>
      match ethlog.topics with
      | [] => none
      | topic :: _ => parse topic ethlog

/-- One event, applied to the state. -/
def applyEvent (parse : Hash → Eth.Log → Option (Except GoError ε)) (handler : ε → Prog σ Unit)
    (s : σ) (ev : Option EVMEvent) : σ :=
  match parseEvent parse ev with
  | some (.ok e) => effect (handler e) s
  | _ => s

/-- The event does not parse, or its handler stops in state `s`. -/
def failsOn (parse : Hash → Eth.Log → Option (Except GoError ε)) (handler : ε → Prog σ Unit)
    (s : σ) (ev : Option EVMEvent) : Bool :=
  match parseEvent parse ev with
  | none => false
  | some (.error _) => true
  | some (.ok e) =>
      match (handler e).run s with
      | .ok _ _ => false
      | .error _ _ => true

/-- The list without the events that fail when their turn comes. -/
def withoutFailing (parse : Hash → Eth.Log → Option (Except GoError ε))
    (handler : ε → Prog σ Unit) : σ → List (Option EVMEvent) → List (Option EVMEvent)
  | _, [] => []
  | s, ev :: logs =>
      if failsOn parse handler s ev then withoutFailing parse handler s logs
      else ev :: withoutFailing parse handler (applyEvent parse handler s ev) logs

/-- Every event of the list passes `Verify`. -/
def Verified (logs : List (Option EVMEvent)) : Prop := ∀ ev ∈ logs, EVMEvent.verify ev = .ok ()

/-! ## One round of the loop -/

section

variable (parse : Hash → Eth.Log → Option (Except GoError ε)) {handler : ε → Prog σ Unit}

/-- A failing call whose error is dropped has done nothing, if it is atomic. -/
theorem returns_logError {x : Prog σ Unit} (hx : Atomic x) (s : σ) :
    Returns (logError x) s () (effect x s) := by
  rw [logError, effect]
  cases h : x.run s with
  | ok u t =>
      have hret : Returns (attempt x) s (.ok u) t := returns_attempt_ok.mpr h
      exact hret.bind (returns_pure.mpr ⟨rfl, rfl⟩)
  | error f t =>
      obtain ⟨rfl, e, rfl⟩ := hx s f t h
      have hret : Returns (attempt x) t (.error e) t := returns_attempt_error.mpr h
      exact hret.bind (returns_pure.mpr ⟨rfl, rfl⟩)

/-- **One round**, on an event that passes `Verify`. -/
theorem returns_dispatchLog (hh : ∀ e, Atomic (handler e)) {ev : Option EVMEvent}
    (hv : EVMEvent.verify ev = .ok ()) (s : σ) :
    Returns (dispatchLog (actOn parse handler) ev) s () (applyEvent parse handler s ev) := by
  obtain ⟨ethlog, hlog, hne⟩ := EVMEvent.toEthLog_of_verify hv
  obtain ⟨topic, topics, htopics⟩ := List.exists_cons_of_ne_nil hne
  have hparse : parseEvent parse ev = parse topic ethlog := by
    simp only [parseEvent, hlog, htopics]
  simp only [dispatchLog, hv, hlog, htopics, actOn, applyEvent, hparse]
  rcases parse topic ethlog with _ | _ | e
  · exact returns_pure.mpr ⟨rfl, rfl⟩
  · exact returns_pure.mpr ⟨rfl, rfl⟩
  · exact returns_logError (hh e) s

theorem applyEvent_of_failsOn {s : σ} {ev : Option EVMEvent}
    (h : failsOn parse handler s ev = true) : applyEvent parse handler s ev = s := by
  rw [failsOn] at h
  rw [applyEvent]
  split at h
  next hp => rw [hp]
  next hp => rw [hp]
  next e hp =>
    rw [hp]
    change effect (handler e) s = s
    rw [effect]
    split at h
    next => cases h
    next => rfl

/-! ## The loop -/

/-- **The loop is a left fold** on verified events. -/
theorem returns_dispatch (hh : ∀ e, Atomic (handler e)) {logs : List (Option EVMEvent)}
    (hv : Verified logs) (s : σ) :
    Returns (logs.forM (dispatchLog (actOn parse handler))) s ()
      (logs.foldl (applyEvent parse handler) s) := by
  induction logs generalizing s with
  | nil => exact returns_forM_nil.mpr rfl
  | cons ev logs ih =>
      have hev := returns_dispatchLog parse hh (hv ev (by simp)) s
      exact returns_forM_cons.mpr ⟨_, hev, ih (fun ev' h => hv ev' (by simp [h])) _⟩

theorem verified_withoutFailing (handler : ε → Prog σ Unit) {logs : List (Option EVMEvent)}
    (hv : Verified logs) (s : σ) :
    Verified (withoutFailing parse handler s logs) := by
  induction logs generalizing s with
  | nil => exact hv
  | cons ev logs ih =>
      have hrest : Verified logs := fun ev' h => hv ev' (by simp [h])
      rw [withoutFailing]
      split
      · exact ih hrest s
      · intro ev' h
        rcases List.mem_cons.mp h with rfl | h
        · exact hv ev' (by simp)
        · exact ih hrest _ ev' h

theorem foldl_withoutFailing (logs : List (Option EVMEvent)) (s : σ) :
    (withoutFailing parse handler s logs).foldl (applyEvent parse handler) s
      = logs.foldl (applyEvent parse handler) s := by
  induction logs generalizing s with
  | nil => rfl
  | cons ev logs ih =>
      rw [withoutFailing]
      split
      next hf => rw [ih, List.foldl_cons, applyEvent_of_failsOn parse hf]
      next => rw [List.foldl_cons, ih, List.foldl_cons]

end

/-! ## The three dispatchers -/

/-- A dispatcher whose handlers are all-or-nothing and isolated from each other. -/
structure Isolated (parse : Hash → Eth.Log → Option (Except GoError ε))
    (handler : ε → Prog σ Unit) (process : List (Option EVMEvent) → Prog σ Unit) : Prop where
  /-- A handler that returns an error or panics, at any point, changes nothing. -/
  all_or_nothing : ∀ e s f t, Fails (handler e) s f t → t = s ∧ ∃ err, f = .err err
  /-- Verified events are processed without an error, one after the other. -/
  returns_fold : ∀ logs s, Verified logs →
    Returns (process logs) s () (logs.foldl (applyEvent parse handler) s)
  /-- The events that fail might as well not be in the list. -/
  deletion : ∀ logs s, Verified logs →
    Returns (process (withoutFailing parse handler s logs)) s ()
      (logs.foldl (applyEvent parse handler) s)

theorem Isolated.of_atomic {parse : Hash → Eth.Log → Option (Except GoError ε)}
    {handler : ε → Prog σ Unit} (hh : ∀ e, Atomic (handler e)) :
    Isolated parse handler fun logs => logs.forM (dispatchLog (actOn parse handler)) where
  all_or_nothing := hh
  returns_fold := fun _ s hv => returns_dispatch parse hh hv s
  deletion := by
    intro logs s hv
    have h := returns_dispatch parse hh (verified_withoutFailing parse handler hv s) s
    rwa [foldl_withoutFailing] at h

theorem handleUpgrade_atomic (K : Keepers W) (ctx : Ctx) (ev : UpgradeEvent) :
    Atomic (handleUpgrade K ctx ev) := by
  have hstore (plan : Plan) : Settles (storePendingUpgrade plan : Prog (UpgradeState W) Unit) :=
    Settles.modify _
  have hreset : Settles (resetPendingUpgrade : Prog (UpgradeState W) Unit) := Settles.modify _
  have hset (plan : Plan) : Settles (setPendingUpgrade K ctx plan) := Settles.bind _ _
  have hschedule (ev : SoftwareUpgrade) (isTerence : Bool) :
      Settles (scheduleUpgrade K ctx ev isTerence) := Settles.ite _ _ _
  have hcancel (isTerence : Bool) : Settles (cancelUpgrade K ctx isTerence) := Settles.ite _ _ _
  have hdump (ev : SoftwareUpgrade) :
      HandlerBody (dumpUpgradeInfo K ev : Prog (Branched (UpgradeState W)) Unit) := by
    rw [dumpUpgradeInfo_eq]
    infer_instance
  cases ev <;> exact .cacheContext _

theorem processUBIPercentageSet_atomic (K : Keepers W) (ctx : Ctx) (ev : UBIPercentageSet) :
    Atomic (processUBIPercentageSet K ctx ev) := by
  dsimp only [processUBIPercentageSet]
  exact .cacheContext _

theorem stakingEvents_isolated (K : Keepers W) (C : StakingContract) (ctx : Ctx) :
    Isolated C.parse (handle K ctx) (processStakingEvents K C ctx) :=
  .of_atomic (EvmStaking.handle_atomic K ctx)

theorem upgradeEvents_isolated (K : Keepers W) (C : UpgradeContract) (ctx : Ctx) :
    Isolated C.parse (handleUpgrade K ctx) (processUpgradeEvents K C ctx) :=
  .of_atomic (handleUpgrade_atomic K ctx)

theorem ubiEvents_isolated (K : Keepers W) (C : UBIContract) (ctx : Ctx) :
    Isolated C.parse (processUBIPercentageSet K ctx) (processUBIEvents K C ctx) :=
  .of_atomic (processUBIPercentageSet_atomic K ctx)

/-- **The three dispatchers of the program are isolated.** -/
theorem event_dispatchers_isolated (K : Keepers W) (staking : StakingContract)
    (upgrade : UpgradeContract) (ubi : UBIContract) (ctx : Ctx) :
    Isolated staking.parse (handle K ctx) (processStakingEvents K staking ctx) ∧
      Isolated upgrade.parse (handleUpgrade K ctx) (processUpgradeEvents K upgrade ctx) ∧
      Isolated ubi.parse (processUBIPercentageSet K ctx) (processUBIEvents K ubi ctx) :=
  ⟨stakingEvents_isolated K staking ctx, upgradeEvents_isolated K upgrade ctx,
    ubiEvents_isolated K ubi ctx⟩

/-! ### A failing event between two that succeed -/

/-- Bindings with a topic for each event, for which no log parses. -/
def silentContract : StakingContract where
  updateValidatorCommissionID := bytesToHash [1]
  parseUpdateValidatorCommission := fun _ => .error (.new "no event")
  setWithdrawalAddressID := bytesToHash [2]
  parseSetWithdrawalAddress := fun _ => .error (.new "no event")
  setRewardAddressID := bytesToHash [3]
  parseSetRewardAddress := fun _ => .error (.new "no event")
  setOperatorID := bytesToHash [4]
  parseSetOperator := fun _ => .error (.new "no event")
  unsetOperatorID := bytesToHash [5]
  parseUnsetOperator := fun _ => .error (.new "no event")
  createValidatorID := bytesToHash [6]
  parseCreateValidator := fun _ => .error (.new "no event")
  depositID := bytesToHash [7]
  parseDeposit := fun _ => .error (.new "no event")
  redelegateID := bytesToHash [8]
  parseRedelegate := fun _ => .error (.new "no event")
  withdrawID := bytesToHash [9]
  parseWithdraw := fun _ => .error (.new "no event")
  unjailID := bytesToHash [10]
  parseUnjail := fun _ => .error (.new "no event")

/-- An event with the given topic and data. -/
def eventWith (topic : UInt8) (data : Bytes) : Option EVMEvent :=
  some
    { address := some (List.replicate 20 0)
      topics := [List.replicate 31 0 ++ [topic]]
      data := data
      txHash := some (List.replicate 32 0) }

/-- Bindings that read who names whom off the data of a log, and for which every log about a jail
lacks the public key. -/
def namingContract : StakingContract :=
  { silentContract with
    parseSetOperator := fun l =>
      .ok ⟨bytesToAddress (l.data.take 1), bytesToAddress (l.data.drop 1)⟩
    parseUnjail := fun _ => .ok ⟨bytesToAddress [], []⟩ }

/-- The operator on record for the account with the given last byte. -/
def operatorOf (a : EvmStaking.Accounts Ledger) (n : UInt8) : Option String :=
  a.delegatorOperatorAddress (Ledger.encode (bytesOf (bytesToAddress [n])))

/-- Accounts 1 and 3 name their operators. What fails in between changes nothing and keeps neither
of them from it, and the run is the one without it. -/
theorem operators_named_around_failure :
    let ctx : Ctx := ⟨Netconf.storyLocalnetID, 100, 1000, [], .finalize⟩
    let a : EvmStaking.Accounts Ledger := ⟨fun _ => none, fun _ => none, fun _ => none, .empty⟩
    let process := processStakingEvents Ledger.keepers namingContract ctx
    ∃ a', Returns (process [eventWith 4 [1, 2], eventWith 10 [], eventWith 4 [3, 4]]) a () a' ∧
      Returns (process [eventWith 4 [1, 2], eventWith 4 [3, 4]]) a () a' ∧
      operatorOf a' 1 = some (Ledger.encode (bytesOf (bytesToAddress [2]))) ∧
      operatorOf a' 3 = some (Ledger.encode (bytesOf (bytesToAddress [4]))) := by
  intro ctx a process
  have hisolated := (event_dispatchers_isolated Ledger.keepers namingContract
    ⟨bytesToHash [11], fun _ => .error (.new "no event"), bytesToHash [12],
      fun _ => .error (.new "no event")⟩
    ⟨bytesToHash [13], fun _ => .error (.new "no event")⟩ ctx).1
  have hv : Verified [eventWith 4 [1, 2], eventWith 10 [], eventWith 4 [3, 4]] := by
    simp only [Verified, List.forall_mem_cons]
    exact ⟨rfl, rfl, rfl, by simp⟩
  have hskipped : withoutFailing namingContract.parse (handle Ledger.keepers ctx) a
      [eventWith 4 [1, 2], eventWith 10 [], eventWith 4 [3, 4]] =
        [eventWith 4 [1, 2], eventWith 4 [3, 4]] := by decide +kernel
  have hrest := hisolated.deletion _ a hv
  rw [hskipped] at hrest
  exact ⟨_, hisolated.returns_fold _ a hv, hrest, by decide +kernel, by decide +kernel⟩

end Story.EvmEngine
