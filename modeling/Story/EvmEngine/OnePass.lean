/-
# Story.EvmEngine.OnePass -- three passes over the events equal one

A finalized payload goes through the events of the previous block three times: once for
the staking contract, once for the upgrade contract, once for the UBI pool. So an
upgrade event that the execution layer emitted before a deposit is handled after it.
That makes no difference, because the three kinds of handlers share no state: those for
upgrades stay within the pending slot and the store of `x/upgrade`, the one for the UBI
percentage within one parameter of `x/distribution`, and those for staking neither read
nor write either. Steps that share no state commute, and three folds over one list
become a single one.
-/
import Story.EvmStaking.Unnoticed
import Story.EvmEngine.Isolation
import Story.EvmEngine.Server
import Story.EvmStaking.Authorisation

namespace Story.EvmEngine

open Story.Effect Story.Errors Story.Sdk Story.Eth Story.EvmStaking
open Story.Netconf (isTerence)

variable {W U P : Type}

/-! ## One pass -/

/-- What one pass does with a log: it runs the handler that matches the first topic. -/
def actInOrder (A : Wiring W) (ctx : Ctx) (topic : Hash) (ethlog : Eth.Log) :
    Prog (Node W) Unit :=
  if (A.stakingContract.parse topic ethlog).isSome then
    zoom accountsLens (actOn A.stakingContract.parse (handle A.keepers ctx) topic ethlog)
  else if (A.upgradeContract.parse topic ethlog).isSome then
    zoom upgradeLens (actOn A.upgradeContract.parse (handleUpgrade A.keepers ctx) topic ethlog)
  else
    zoom sdkLens (actOn A.ubiContract.parse (processUBIPercentageSet A.keepers ctx) topic ethlog)

/-- The events in the order in which the execution layer emitted them. -/
def deliverInOrder (A : Wiring W) (ctx : Ctx) (logs : List (Option EVMEvent)) :
    Prog (Node W) Unit :=
  logs.forM (dispatchLog (actInOrder A ctx))

/-! ## Topics -/

/-- The topic ids a contract's dispatcher compares with. -/
def stakingTopics (C : StakingContract) : List Hash :=
  [C.updateValidatorCommissionID, C.setWithdrawalAddressID, C.setRewardAddressID, C.setOperatorID,
    C.unsetOperatorID, C.createValidatorID, C.depositID, C.redelegateID, C.withdrawID, C.unjailID]

def upgradeTopics (C : UpgradeContract) : List Hash := [C.softwareUpgradeID, C.cancelUpgradeID]

def ubiTopics (C : UBIContract) : List Hash := [C.ubiPercentageSetID]

namespace Wiring

def topics (A : Wiring W) : List Hash :=
  stakingTopics A.stakingContract ++ (upgradeTopics A.upgradeContract ++ ubiTopics A.ubiContract)

end Wiring

/-- One comparison of a dispatcher. -/
theorem isSome_ite_iff {α : Type} {topic id : Hash} {ids : List Hash} {x : Except GoError α}
    {rest : Option (Except GoError α)} (hrest : rest.isSome ↔ topic ∈ ids) :
    (if topic = id then some x else rest).isSome ↔ topic ∈ id :: ids := by
  split
  next heq => simp [heq]
  next hne => simp [hne, hrest]

theorem isSome_none_iff {α : Type} {topic : Hash} :
    (none : Option (Except GoError α)).isSome ↔ topic ∈ ([] : List Hash) := by
  simp

theorem staking_parse_isSome {C : StakingContract} {topic : Hash} {ethlog : Eth.Log} :
    (C.parse topic ethlog).isSome ↔ topic ∈ stakingTopics C := by
  iterate 10 apply isSome_ite_iff
  exact isSome_none_iff

theorem upgrade_parse_isSome {C : UpgradeContract} {topic : Hash} {ethlog : Eth.Log} :
    (C.parse topic ethlog).isSome ↔ topic ∈ upgradeTopics C := by
  iterate 2 apply isSome_ite_iff
  exact isSome_none_iff

theorem ubi_parse_isSome {C : UBIContract} {topic : Hash} {ethlog : Eth.Log} :
    (C.parse topic ethlog).isSome ↔ topic ∈ ubiTopics C := by
  apply isSome_ite_iff
  exact isSome_none_iff

/-! ## What the handlers ignore -/

section Ignore

variable {K : Keepers W} {g : W → W} {ctx : Ctx}

/-- A change of the stores of the SDK modules, seen from the upgrade handlers. -/
def UpgradeState.onSdk (g : W → W) : UpgradeState W → UpgradeState W := HasSdk.lens.alter g

instance ignores_call_upgrade {α : Type} (x : SdkProg W α) [Ignores g x] :
    Ignores (UpgradeState.onSdk g) (call x : Prog (UpgradeState W) α) := ignores_call x

instance ignores_setPendingUpgrade (plan : Plan) :
    Ignores (UpgradeState.onSdk g) (setPendingUpgrade K ctx plan) := by
  have hstore : Ignores (UpgradeState.onSdk g)
      (storePendingUpgrade plan : Prog (UpgradeState W) Unit) := Ignores.modify fun _ => rfl
  refine @Ignores.bind _ _ _ _ _ _ _ inferInstance fun _ => ?_
  refine @Ignores.ite _ _ _ _ _ _ _ _ inferInstance ?_
  exact Ignores.read_bind (fun s => returns_get.mpr ⟨rfl, rfl⟩) (fun _ => rfl)
    fun _ => inferInstance

/-- The upgrade handlers ignore what the two calls of `x/upgrade` ignore. -/
theorem handleUpgrade_ignores (hschedule : ∀ plan, Ignores g (K.upgrade.scheduleUpgrade ctx plan))
    (hclear : Ignores g (K.upgrade.clearUpgradePlan ctx)) (ev : UpgradeEvent) :
    Ignores (UpgradeState.onSdk g) (handleUpgrade K ctx ev) := by
  have hreset : Ignores (UpgradeState.onSdk g) (resetPendingUpgrade : Prog (UpgradeState W) Unit) :=
    Ignores.modify fun _ => rfl
  have hdo (ev : SoftwareUpgrade) (isTerence : Bool) :
      Ignores (UpgradeState.onSdk g) (scheduleUpgrade K ctx ev isTerence) := Ignores.ite _ _ _
  have hundo (isTerence : Bool) :
      Ignores (UpgradeState.onSdk g) (cancelUpgrade K ctx isTerence) := Ignores.ite _ _ _
  cases ev with
  | softwareUpgrade ev =>
      show Ignores _ (cacheContext _)
      rw [dumpUpgradeInfo_eq]
      exact Ignores.cacheContext _
  | cancelUpgrade => exact Ignores.cacheContext _

theorem processUBIPercentageSet_ignores (hset : ∀ rate, Ignores g (K.distr.setUbi ctx rate))
    (ev : UBIPercentageSet) : Ignores g (processUBIPercentageSet K ctx ev) := by
  have hcall (rate : Int) : Ignores g (sdk (K.distr.setUbi ctx rate)) := Ignores.mapError _ _
  exact Ignores.cacheContext _

end Ignore

/-! ## Steps -/

section Steps

variable {σ ε : Type} {f : σ → σ}

theorem effect_commute {x : Prog σ Unit} (h : Ignores f x) : Function.Commute (effect x) f := by
  intro s
  rcases returns_or_fails x s with ⟨_, t, hx⟩ | ⟨e, t, hx⟩
  · rw [effect_of_returns hx, effect_of_returns (h.returns hx)]
  · have hf := h.fails hx
    rw [fails_iff] at hx hf
    rw [effect, effect, hx, hf]

/-- An event that is handled after a change that its handlers ignore. -/
theorem applyEvent_ignores {parse : Hash → Eth.Log → Option (Except GoError ε)}
    {handler : ε → Prog σ Unit} (h : ∀ e, Ignores f (handler e)) (ev : Option EVMEvent) (s : σ) :
    applyEvent parse handler (f s) ev = f (applyEvent parse handler s ev) := by
  simp only [applyEvent]
  split
  · exact effect_commute (h _) s
  · rfl

end Steps

/-- One event, handled by one of the dispatchers, on a node. -/
def stakingStep (A : Wiring W) (ctx : Ctx) (n : Node W) (ev : Option EVMEvent) : Node W :=
  accountsLens.alter (applyEvent A.stakingContract.parse (handle A.keepers ctx) · ev) n

def upgradeStep (A : Wiring W) (ctx : Ctx) (n : Node W) (ev : Option EVMEvent) : Node W :=
  upgradeLens.alter (applyEvent A.upgradeContract.parse (handleUpgrade A.keepers ctx) · ev) n

def ubiStep (A : Wiring W) (ctx : Ctx) (n : Node W) (ev : Option EVMEvent) : Node W :=
  sdkLens.alter (applyEvent A.ubiContract.parse (processUBIPercentageSet A.keepers ctx) · ev) n

/-! ## Stores that are apart -/

/-- **The stores of the three kinds of handlers are apart**: `up` is the store of `x/upgrade`,
`ubi` the UBI parameter of `x/distribution`. -/
structure Apart (K : Keepers W) (up : Lens W U) (ubi : Lens W P) : Prop where
  beside : ∀ u p w, up.put u (ubi.put p w) = ubi.put p (up.put u w)
  scheduleUpgrade : ∀ ctx plan, Within up (K.upgrade.scheduleUpgrade ctx plan)
  clearUpgradePlan : ∀ ctx, Within up (K.upgrade.clearUpgradePlan ctx)
  setUbi : ∀ ctx rate, Within ubi (K.distr.setUbi ctx rate)
  staking_upgrade : ∀ u, Unnoticed K (up.put u)
  staking_ubi : ∀ p, Unnoticed K (ubi.put p)

/-- The pending slot and the store of `x/upgrade`. -/
def pendingLens (up : Lens W U) : Lens (Node W) (Option Plan × U) where
  view := fun n => (n.store.pendingUpgrade, up.view (sdkLens.view n))
  put := fun t n => upgradeLens.put ⟨t.1, up.put t.2 (sdkLens.view n)⟩ n
  view_put := by
    intro t n
    show (t.1, up.view (up.put t.2 _)) = t
    rw [up.view_put]
  put_view := by
    intro n
    show upgradeLens.put ⟨_, up.put (up.view _) _⟩ n = n
    rw [up.put_view]
    exact upgradeLens.put_view n
  put_put := by
    intro t t' n
    show upgradeLens.put ⟨t.1, up.put t.2 (up.put t'.2 _)⟩ (upgradeLens.put _ n) = _
    rw [up.put_put, upgradeLens.put_put]

/-- The UBI parameter. -/
def ubiLens (ubi : Lens W P) : Lens (Node W) P := sdkLens.comp ubi

section Apart

variable {A : Wiring W} {ctx : Ctx} {up : Lens W U} {ubi : Lens W P}
  (h : Apart A.keepers up ubi)

include h

theorem stakingStep_blind_pending (ev : Option EVMEvent) (t : Option Plan × U) :
    Function.Commute (stakingStep A ctx · ev) ((pendingLens up).put t) := by
  intro n
  have hg := h.staking_upgrade t.2
  show
    accountsLens.put (applyEvent _ _ (Accounts.onSdk (up.put t.2) (accountsLens.view n)) ev) _ = _
  rw [applyEvent_ignores fun e => handle_ignores e]
  rfl

theorem stakingStep_blind_ubi (ev : Option EVMEvent) (p : P) :
    Function.Commute (stakingStep A ctx · ev) ((ubiLens ubi).put p) := by
  intro n
  have hg := h.staking_ubi p
  show accountsLens.put (applyEvent _ _ (Accounts.onSdk (ubi.put p) (accountsLens.view n)) ev) _ = _
  rw [applyEvent_ignores fun e => handle_ignores e]
  rfl

theorem upgradeStep_within (ev : Option EVMEvent) (m : Node W) :
    Function.Commute (upgradeStep A ctx · ev) ((pendingLens up).graft m) := by
  intro n
  let g := up.graft (sdkLens.view m)
  have hignores (e : UpgradeEvent) :
      Ignores (UpgradeState.onSdk g) (handleUpgrade A.keepers ctx e) :=
    handleUpgrade_ignores (fun plan => h.scheduleUpgrade ctx plan _) (h.clearUpgradePlan ctx _) e
  show upgradeLens.put (applyEvent _ _ (UpgradeState.onSdk g (upgradeLens.view n)) ev) _ = _
  rw [applyEvent_ignores hignores]
  rfl

theorem ubiStep_within (ev : Option EVMEvent) (m : Node W) :
    Function.Commute (ubiStep A ctx · ev) ((ubiLens ubi).graft m) := by
  intro n
  have hignores (e : UBIPercentageSet) :
      Ignores (ubi.graft (sdkLens.view m)) (processUBIPercentageSet A.keepers ctx e) :=
    processUBIPercentageSet_ignores (fun rate => h.setUbi ctx rate _) e
  show sdkLens.put (applyEvent _ _ (ubi.graft (sdkLens.view m) (sdkLens.view n)) ev) _ = _
  rw [applyEvent_ignores hignores]
  rfl

theorem pendingLens_beside (t : Option Plan × U) (p : P) (n : Node W) :
    (pendingLens up).put t ((ubiLens ubi).put p n) =
      (ubiLens ubi).put p ((pendingLens up).put t n) := by
  show upgradeLens.put ⟨t.1, up.put t.2 (ubi.put p (sdkLens.view n))⟩ _ = _
  rw [h.beside]
  rfl

/-- **Steps of different dispatchers commute.** -/
theorem upgradeStep_stakingStep_commute (ev ev' : Option EVMEvent) :
    Function.Commute (upgradeStep A ctx · ev) (stakingStep A ctx · ev') :=
  (commute_of_blind_of_within (stakingStep_blind_pending h ev') (upgradeStep_within h ev)).symm

theorem ubiStep_stakingStep_commute (ev ev' : Option EVMEvent) :
    Function.Commute (ubiStep A ctx · ev) (stakingStep A ctx · ev') :=
  (commute_of_blind_of_within (stakingStep_blind_ubi h ev') (ubiStep_within h ev)).symm

theorem ubiStep_upgradeStep_commute (ev ev' : Option EVMEvent) :
    Function.Commute (ubiStep A ctx · ev) (upgradeStep A ctx · ev') := by
  apply Function.Commute.symm
  apply commute_of_blind_of_within (l := ubiLens ubi) _ (ubiStep_within h ev)
  exact blind_of_within (pendingLens_beside h) (upgradeStep_within h ev')

end Apart

/-! ## The passes -/

/-- One event, by every dispatcher that recognises it. -/
def eventStep (A : Wiring W) (ctx : Ctx) (n : Node W) (ev : Option EVMEvent) : Node W :=
  ubiStep A ctx (upgradeStep A ctx (stakingStep A ctx n ev) ev) ev

/-- **The three passes**, as one fold. -/
theorem returns_deliverEvents {A : Wiring W} {up : Lens W U} {ubi : Lens W P}
    (h : Apart A.keepers up ubi) (ctx : Ctx) {logs : List (Option EVMEvent)} (hv : Verified logs)
    (n : Node W) :
    Returns (deliverEvents A ctx logs) n () (logs.foldl (eventStep A ctx) n) := by
  have hstaking := stakingEvents_isolated A.keepers A.stakingContract ctx
  have hupgrade := upgradeEvents_isolated A.keepers A.upgradeContract ctx
  have hubi := ubiEvents_isolated A.keepers A.ubiContract ctx
  have hone : logs.foldl (eventStep A ctx) n = logs.foldl (ubiStep A ctx)
      (logs.foldl (upgradeStep A ctx) (logs.foldl (stakingStep A ctx) n)) := by
    rw [foldl_foldl_of_commute (upgradeStep_stakingStep_commute h),
      foldl_foldl_of_commute]
    · rfl
    · intro ev ev'
      exact (ubiStep_upgradeStep_commute h ev ev').comp_right (ubiStep_stakingStep_commute h ev ev')
  have h₁ : Returns (zoom accountsLens (processStakingEvents A.keepers A.stakingContract ctx logs))
      n () (logs.foldl (stakingStep A ctx) n) :=
    returns_zoom.mpr ⟨_, hstaking.returns_fold logs _ hv, accountsLens.alter_foldl _ logs n⟩
  have h₂ (m : Node W) : Returns (zoom upgradeLens
      (processUpgradeEvents A.keepers A.upgradeContract ctx logs)) m ()
      (logs.foldl (upgradeStep A ctx) m) :=
    returns_zoom.mpr ⟨_, hupgrade.returns_fold logs _ hv, upgradeLens.alter_foldl _ logs m⟩
  have h₃ (m : Node W) : Returns (zoom sdkLens (processUBIEvents A.keepers A.ubiContract ctx logs))
      m () (logs.foldl (ubiStep A ctx) m) :=
    returns_zoom.mpr ⟨_, hubi.returns_fold logs _ hv, sdkLens.alter_foldl _ logs m⟩
  rw [hone]
  exact (returns_wrapErr.mpr h₁).bind
    ((returns_wrapErr.mpr (h₂ _)).bind (returns_wrapErr.mpr (h₃ _)))

/-! ### One pass -/

/-- The event is one of the dispatcher's own, and its log parses. -/
def parses {ε : Type} (parse : Hash → Eth.Log → Option (Except GoError ε))
    (ev : Option EVMEvent) : Bool :=
  match parseEvent parse ev with
  | some (.ok _) => true
  | _ => false

theorem applyEvent_of_not_parses {σ ε : Type} {parse : Hash → Eth.Log → Option (Except GoError ε)}
    {ev : Option EVMEvent} (h : parses parse ev = false) (handler : ε → Prog σ Unit) (s : σ) :
    applyEvent parse handler s ev = s := by
  unfold parses at h
  unfold applyEvent
  split
  next e he =>
    rw [he] at h
    cases h
  next => rfl

theorem not_parses_of_none {ε : Type} {parse : Hash → Eth.Log → Option (Except GoError ε)}
    {ev : Option EVMEvent} (h : parseEvent parse ev = none) : parses parse ev = false := by
  rw [parses, h]

/-- An event that passes `Verify` has a log with a first topic, and nothing else of it counts. -/
theorem exists_topic {ev : Option EVMEvent} (hv : EVMEvent.verify ev = .ok ()) :
    ∃ topic ethlog,
      (∀ {σ : Type} (act : Hash → Eth.Log → Prog σ Unit), dispatchLog act ev = act topic ethlog) ∧
      ∀ {ε : Type} (parse : Hash → Eth.Log → Option (Except GoError ε)),
        parseEvent parse ev = parse topic ethlog := by
  obtain ⟨ethlog, hlog, hne⟩ := EVMEvent.toEthLog_of_verify hv
  obtain ⟨topic, topics, htopics⟩ := List.exists_cons_of_ne_nil hne
  refine ⟨topic, ethlog, ?_, ?_⟩
  · intro σ act
    simp only [dispatchLog, hv, hlog, htopics]
  · intro ε parse
    simp only [parseEvent, hlog, htopics]

section OnePass

variable {A : Wiring W} {ctx : Ctx} {n : Node W} {ev : Option EVMEvent}

theorem stakingStep_of_not_parses (h : parses A.stakingContract.parse ev = false) :
    stakingStep A ctx n ev = n := by
  rw [stakingStep, Lens.alter, applyEvent_of_not_parses h, accountsLens.put_view]

theorem upgradeStep_of_not_parses (h : parses A.upgradeContract.parse ev = false) :
    upgradeStep A ctx n ev = n := by
  rw [upgradeStep, Lens.alter, applyEvent_of_not_parses h, upgradeLens.put_view]

theorem ubiStep_of_not_parses (h : parses A.ubiContract.parse ev = false) :
    ubiStep A ctx n ev = n := by
  rw [ubiStep, Lens.alter, applyEvent_of_not_parses h, sdkLens.put_view]

variable (hids : A.topics.Nodup)

include hids

/-- A topic belongs to one contract at most. -/
theorem parse_exclusive (topic : Hash) (ethlog : Eth.Log) :
    ((A.stakingContract.parse topic ethlog).isSome →
      A.upgradeContract.parse topic ethlog = none ∧ A.ubiContract.parse topic ethlog = none) ∧
    ((A.upgradeContract.parse topic ethlog).isSome →
      A.stakingContract.parse topic ethlog = none ∧ A.ubiContract.parse topic ethlog = none) ∧
    ((A.ubiContract.parse topic ethlog).isSome →
      A.stakingContract.parse topic ethlog = none ∧
        A.upgradeContract.parse topic ethlog = none) := by
  obtain ⟨-, hrest, hdisjoint⟩ := List.nodup_append'.mp hids
  obtain ⟨-, -, hdisjoint'⟩ := List.nodup_append'.mp hrest
  simp only [← Option.not_isSome_iff_eq_none, staking_parse_isSome, upgrade_parse_isSome,
    ubi_parse_isSome]
  refine ⟨fun h => ⟨fun h' => ?_, fun h' => ?_⟩, fun h => ⟨fun h' => ?_, fun h' => ?_⟩,
    fun h => ⟨fun h' => ?_, fun h' => ?_⟩⟩
  · exact hdisjoint h (List.mem_append_left _ h')
  · exact hdisjoint h (List.mem_append_right _ h')
  · exact hdisjoint h' (List.mem_append_left _ h)
  · exact hdisjoint' h h'
  · exact hdisjoint h' (List.mem_append_right _ h)
  · exact hdisjoint' h' h

/-- **One event of the single pass.** -/
theorem returns_dispatch_inOrder (hv : EVMEvent.verify ev = .ok ()) (n : Node W) :
    Returns (dispatchLog (actInOrder A ctx) ev) n () (eventStep A ctx n ev) := by
  obtain ⟨topic, ethlog, hdispatch, hparse⟩ := exists_topic hv
  obtain ⟨hstaking, hupgrade, -⟩ := parse_exclusive hids topic ethlog
  rw [hdispatch, actInOrder, eventStep]
  -- the contract whose topic it is acts, and the other two steps are the identity
  split
  next hknown =>
    obtain ⟨hno, hno'⟩ := hstaking hknown
    rw [upgradeStep_of_not_parses (not_parses_of_none ((hparse _).trans hno)),
      ubiStep_of_not_parses (not_parses_of_none ((hparse _).trans hno'))]
    have hone := returns_dispatchLog A.stakingContract.parse (handle_atomic A.keepers ctx) hv
      (accountsLens.view n)
    rw [hdispatch] at hone
    exact returns_zoom.mpr ⟨_, hone, rfl⟩
  next hunknown =>
    rw [Bool.not_eq_true, Option.isSome_eq_false_iff, Option.isNone_iff_eq_none] at hunknown
    rw [stakingStep_of_not_parses (not_parses_of_none ((hparse _).trans hunknown))]
    split
    next hknown =>
      obtain ⟨-, hno⟩ := hupgrade hknown
      rw [ubiStep_of_not_parses (not_parses_of_none ((hparse _).trans hno))]
      have hone := returns_dispatchLog A.upgradeContract.parse (handleUpgrade_atomic A.keepers ctx)
        hv (upgradeLens.view n)
      rw [hdispatch] at hone
      exact returns_zoom.mpr ⟨_, hone, rfl⟩
    next hunknown' =>
      rw [Bool.not_eq_true, Option.isSome_eq_false_iff, Option.isNone_iff_eq_none] at hunknown'
      rw [upgradeStep_of_not_parses (not_parses_of_none ((hparse _).trans hunknown'))]
      have hone := returns_dispatchLog A.ubiContract.parse
        (processUBIPercentageSet_atomic A.keepers ctx) hv (sdkLens.view n)
      rw [hdispatch] at hone
      exact returns_zoom.mpr ⟨_, hone, rfl⟩

theorem returns_deliverInOrder {logs : List (Option EVMEvent)} (hv : Verified logs) (n : Node W) :
    Returns (deliverInOrder A ctx logs) n () (logs.foldl (eventStep A ctx) n) := by
  induction logs generalizing n with
  | nil => exact returns_forM_nil.mpr rfl
  | cons ev logs ih =>
      have hev : Returns (dispatchLog (actInOrder A ctx) ev) n () (eventStep A ctx n ev) :=
        returns_dispatch_inOrder hids (hv ev (by simp)) n
      exact returns_forM_cons.mpr ⟨_, hev, ih (fun ev' h => hv ev' (by simp [h])) _⟩

end OnePass

/-! ## Three passes are one -/

/-- The three dispatchers. -/
inductive Dispatcher
  | staking
  | upgrade
  | ubi
  deriving DecidableEq

/-- Does the dispatcher have a case for the first topic of the event? -/
def recognises (A : Wiring W) (ev : Option EVMEvent) : Dispatcher → Bool
  | .staking => (parseEvent A.stakingContract.parse ev).isSome
  | .upgrade => (parseEvent A.upgradeContract.parse ev).isSome
  | .ubi => (parseEvent A.ubiContract.parse ev).isSome

/-- The event has a known topic and a log that parses. -/
def effective (A : Wiring W) (ev : Option EVMEvent) : Bool :=
  parses A.stakingContract.parse ev || parses A.upgradeContract.parse ev ||
    parses A.ubiContract.parse ev

theorem eventStep_of_not_effective {A : Wiring W} {ctx : Ctx} {n : Node W} {ev : Option EVMEvent}
    (h : effective A ev = false) : eventStep A ctx n ev = n := by
  simp only [effective, Bool.or_eq_false_iff] at h
  obtain ⟨⟨hstaking, hupgrade⟩, hubi⟩ := h
  rw [eventStep, stakingStep_of_not_parses hstaking, upgradeStep_of_not_parses hupgrade,
    ubiStep_of_not_parses hubi]

theorem foldl_effective (A : Wiring W) (ctx : Ctx) (logs : List (Option EVMEvent)) (n : Node W) :
    (logs.filter (effective A)).foldl (eventStep A ctx) n = logs.foldl (eventStep A ctx) n := by
  rw [List.foldl_filter]
  congr 1
  funext m ev
  cases h : effective A ev with
  | true => rfl
  | false => exact (eventStep_of_not_effective h).symm

theorem recognises_exclusive {A : Wiring W} (hids : A.topics.Nodup) {ev : Option EVMEvent}
    (hv : EVMEvent.verify ev = .ok ()) {d d' : Dispatcher} (h : recognises A ev d = true)
    (h' : recognises A ev d' = true) : d = d' := by
  obtain ⟨topic, ethlog, -, hparse⟩ := exists_topic hv
  obtain ⟨hstaking, hupgrade, hubi⟩ := parse_exclusive hids topic ethlog
  cases d <;> cases d' <;> simp_all [recognises]

/-- **Processing the events in three passes equals processing them in order.** For every node and
every list of events that pass `Verify`, the three dispatchers, one after another over the whole
list, and a single pass that runs for each event the handler of its first topic, end in the same
state. No event has a case in two dispatchers; and the events of unknown topics and those that do
not parse might as well not be there, in either way of processing. -/
theorem three_passes_are_one (A : Wiring W) (up : Lens W U) (ubi : Lens W P)
    (hapart : Apart A.keepers up ubi) (hids : A.topics.Nodup) (ctx : Ctx) (n : Node W)
    (logs : List (Option EVMEvent)) (hv : Verified logs) :
    (∃ n', Returns (deliverEvents A ctx logs) n () n' ∧
      Returns (deliverInOrder A ctx logs) n () n' ∧
      Returns (deliverEvents A ctx (logs.filter (effective A))) n () n' ∧
      Returns (deliverInOrder A ctx (logs.filter (effective A))) n () n') ∧
    ∀ ev ∈ logs, ∀ d d', recognises A ev d = true → recognises A ev d' = true → d = d' := by
  have hv' : Verified (logs.filter (effective A)) := fun ev h => hv ev (List.mem_of_mem_filter h)
  have hsame := foldl_effective A ctx logs n
  refine ⟨⟨logs.foldl (eventStep A ctx) n, ?_, ?_, ?_, ?_⟩, ?_⟩
  · exact returns_deliverEvents hapart ctx hv n
  · exact returns_deliverInOrder hids hv n
  · rw [← hsame]
    exact returns_deliverEvents hapart ctx hv' n
  · rw [← hsame]
    exact returns_deliverInOrder hids hv' n
  · intro ev hev d d' h h'
    exact recognises_exclusive hids (hv ev hev) h h'

/-! ### On the ledger -/

section Ledger

open Story.Sdk.Ledger (refuse stake)

/-- The store of `x/upgrade` in the ledger. -/
def ledgerUpgrades : Lens Ledger (Option Plan × List String) where
  view := fun l => (l.plan, l.done)
  put := fun t l => { l with plan := t.1, done := t.2 }
  view_put := fun _ _ => rfl
  put_view := fun _ => rfl
  put_put := fun _ _ _ => rfl

/-- The ledger does not keep the UBI percentage. -/
def noPercentage : Lens Ledger Unit where
  view := fun _ => ()
  put := fun _ l => l
  view_put := fun _ _ => rfl
  put_view := fun _ => rfl
  put_put := fun _ _ _ => rfl

variable (t : Option Plan × List String)

instance ignores_refuse {f : Ledger → Ledger} {α : Type} (msg : String) (is : List SdkSentinel) :
    Ignores f (refuse msg is : SdkProg Ledger α) := Ignores.throw _

instance ignores_stake (del val : String) (amount : Int) :
    Ignores (ledgerUpgrades.put t) (stake del val amount) :=
  Ignores.guarded (fun _ => Iff.rfl) fun _ => rfl

instance ledger_unnoticed : Unnoticed Ledger.keepers (ledgerUpgrades.put t) where
  hasAccount := fun _ _ => .of_run fun _ => rfl
  setNewAccount := fun _ _ => .of_run fun _ => rfl
  mintCoins := fun _ _ _ => .of_run fun _ => rfl
  sendCoinsFromModuleToAccount := fun _ _ _ _ => Ignores.guarded (fun _ => Iff.rfl) fun _ => rfl
  getValidator := by
    intro ctx addr
    refine Ignores.read_bind (fun _ => returns_get.mpr ⟨rfl, rfl⟩) (fun _ => rfl) fun l => ?_
    split
    · exact ignores_refuse _ _
    · exact Ignores.pure _
  minDelegation := fun _ => Ignores.pure _
  getFlexiblePeriodType := fun _ => Ignores.pure _
  getLockedTokenType := fun _ => Ignores.pure _
  getSingularityHeight := fun _ => Ignores.pure _
  delegate := fun _ _ => ignores_stake t _ _ _
  createValidator := by
    intro ctx msg
    refine @Ignores.bind _ _ _ _ _ _ _ (ignores_stake t _ _ _) fun _ => ?_
    exact Ignores.modify fun _ => rfl
  editValidator := fun _ _ => Ignores.pure _
  undelegate := by
    intro ctx msg
    refine Ignores.read_bind (fun _ => returns_get.mpr ⟨rfl, rfl⟩) (fun _ => rfl) fun l => ?_
    split
    · exact ignores_refuse _ _
    · exact @Ignores.bind _ _ _ _ _ _ _ (Ignores.modify fun _ => rfl) fun _ => Ignores.pure _
  beginRedelegate := by
    intro ctx msg
    refine Ignores.read_bind (fun _ => returns_get.mpr ⟨rfl, rfl⟩) (fun _ => rfl) fun l => ?_
    split
    · exact ignores_refuse _ _
    · exact @Ignores.bind _ _ _ _ _ _ _ (Ignores.modify fun _ => rfl) fun _ => Ignores.pure _
  unjail := fun _ _ => Ignores.pure _

theorem ledger_apart : Apart Ledger.keepers ledgerUpgrades noPercentage where
  beside := fun _ _ _ => rfl
  scheduleUpgrade := by
    intro ctx plan l
    apply Ignores.of_run
    intro l'
    show (ite (plan.name = "" ∨ plan.height ≤ 0) _ (ite (plan.height < ctx.blockHeight) _
        (ite (plan.name ∈ l'.done) _ _)) : SdkProg Ledger Unit).run _ =
      mapState _ ((ite (plan.name = "" ∨ plan.height ≤ 0) _ (ite (plan.height < ctx.blockHeight) _
        (ite (plan.name ∈ l'.done) _ _)) : SdkProg Ledger Unit).run l')
    split_ifs <;> rfl
  clearUpgradePlan := fun _ _ => Ignores.modify fun _ => rfl
  setUbi := fun _ _ _ => Ignores.pure _
  staking_upgrade := ledger_unnoticed
  staking_ubi := fun _ =>
    { hasAccount := fun _ _ => .id _
      setNewAccount := fun _ _ => .id _
      mintCoins := fun _ _ _ => .id _
      sendCoinsFromModuleToAccount := fun _ _ _ _ => .id _
      getValidator := fun _ _ => .id _
      minDelegation := fun _ => .id _
      getFlexiblePeriodType := fun _ => .id _
      getLockedTokenType := fun _ => .id _
      getSingularityHeight := fun _ => .id _
      delegate := fun _ _ => .id _
      createValidator := fun _ _ => .id _
      editValidator := fun _ _ => .id _
      undelegate := fun _ _ => .id _
      beginRedelegate := fun _ _ => .id _
      unjail := fun _ _ => .id _ }

/-- Bindings with a topic for each event. Two logs parse: one names an operator, one schedules an
upgrade. -/
def orderedWiring : Wiring Ledger where
  keepers := Ledger.keepers
  stakingContract :=
    { silentContract with parseSetOperator := fun _ => .ok ⟨addressOf 1, addressOf 2⟩ }
  upgradeContract :=
    { softwareUpgradeID := bytesToHash [11]
      parseSoftwareUpgrade := fun _ => .ok ⟨"v2", 200, ""⟩
      cancelUpgradeID := bytesToHash [12]
      parseCancelUpgrade := fun _ => .error (.new "no event") }
  ubiContract :=
    { ubiPercentageSetID := bytesToHash [13]
      parseUBIPercentageSet := fun _ => .error (.new "no event") }
  json :=
    { marshal := fun _ => .error ⟨"no encoder", []⟩
      decodeStrict := fun _ => .error ⟨"no decoder", []⟩
      unmarshal := fun _ => .error ⟨"no decoder", []⟩ }

/-- An event with the given topic. -/
def eventOf (topic : UInt8) : Option EVMEvent := eventWith topic []

/-- An upgrade is scheduled before an operator is named: both ways of processing do both. -/
theorem upgrade_before_operator :
    ∃ n', Returns (deliverEvents orderedWiring stakingCtx [eventOf 11, eventOf 4, eventOf 99])
        ⟨⟨Store.fresh stakedLedger, none, none⟩, false, ⟨Vector.replicate 8 0, 0⟩⟩ () n' ∧
      Returns (deliverInOrder orderedWiring stakingCtx [eventOf 11, eventOf 4, eventOf 99])
        ⟨⟨Store.fresh stakedLedger, none, none⟩, false, ⟨Vector.replicate 8 0, 0⟩⟩ () n' ∧
      n'.store.pendingUpgrade = some ⟨"v2", 200, ""⟩ ∧
      n'.store.evmstaking.accounts.delegatorOperatorAddress
          (Ledger.encode (bytesOf (addressOf 1))) =
        some (Ledger.encode (bytesOf (addressOf 2))) := by
  have hids : orderedWiring.topics.Nodup := by decide
  have hv : Verified [eventOf 11, eventOf 4, eventOf 99] := by
    simp only [Verified, List.forall_mem_cons]
    exact ⟨rfl, rfl, rfl, by simp⟩
  obtain ⟨⟨n', h, h', -⟩, -⟩ := three_passes_are_one orderedWiring ledgerUpgrades noPercentage
    ledger_apart hids stakingCtx
    ⟨⟨Store.fresh stakedLedger, none, none⟩, false, ⟨Vector.replicate 8 0, 0⟩⟩
    [eventOf 11, eventOf 4, eventOf 99] hv
  refine ⟨n', h, h', ?_⟩
  rw [← effect_of_returns h]
  decide +kernel

end Ledger

end Story.EvmEngine
