/-
# Story.EvmEngine.Upgrades -- software upgrades and the UBI percentage

From the Terence upgrade on, an accepted `SoftwareUpgrade` event is kept in a slot
of the module until its height is reached; before it, the event goes straight to
`x/upgrade`. The slot and the stores of the SDK modules are the state here: nothing
in this file can reach a withdrawal queue or an address map.
-/
import Story.EvmStaking.Handlers
import Story.Netconf

namespace Story.EvmEngine

open Story.Effect Story.Errors Story.Sdk Story.Eth Story.Netconf
open Story.EvmStaking (cacheContext cachedCtx classify dispatchLog actOn returns_cacheContext
  returns_cachedCtx returns_classify)

variable {W : Type}

/-! ## State and events -/

/-- The pending slot of the module, and the stores of the SDK modules. -/
structure UpgradeState (W : Type) where
  pendingUpgrade : Option Plan
  sdk : W

instance : HasSdk (UpgradeState W) W where
  lens :=
    { view := UpgradeState.sdk
      put := fun w s => { s with sdk := w }
      view_put := fun _ _ => rfl
      put_view := fun _ => rfl
      put_put := fun _ _ _ => rfl }

@[simp] theorem UpgradeState.view_sdk (s : UpgradeState W) : HasSdk.lens.view s = s.sdk := rfl

@[simp] theorem UpgradeState.put_sdk (w : W) (s : UpgradeState W) :
    HasSdk.lens.put w s = { s with sdk := w } := rfl

/-- `UpgradeEntrypointSoftwareUpgrade`. -/
structure SoftwareUpgrade where
  name : String
  height : Int
  info : String
  deriving DecidableEq

/-- A parsed event of the upgrade contract. -/
inductive UpgradeEvent
  | softwareUpgrade (ev : SoftwareUpgrade)
  | cancelUpgrade
  deriving DecidableEq

def SoftwareUpgrade.plan (ev : SoftwareUpgrade) : Plan := ⟨ev.name, ev.height, ev.info⟩

def errUpgradePending : GoError := ⟨"upgrade is already pending", [.upgradePending]⟩
def errUpgradeNotFound : GoError := .new "upgrade not found"

/-- `sdkerrors.ErrInvalidRequest`. -/
def errInvalidRequest : GoError := ⟨"invalid request", [.sdk .invalidRequest]⟩

/-! ## The pending slot -/

def getPendingUpgrade : Prog (UpgradeState W) Plan := do
  match (← get).pendingUpgrade with
  | none => fail errUpgradeNotFound
  | some upgrade => pure upgrade

/-- `setPendingUpgrade`, the write. -/
def storePendingUpgrade (upgrade : Plan) : Prog (UpgradeState W) Unit :=
  modify fun s => { s with pendingUpgrade := some upgrade }

def isUpgradePending (s : UpgradeState W) : Bool := s.pendingUpgrade.isSome

def resetPendingUpgrade : Prog (UpgradeState W) Unit :=
  modify fun s => { s with pendingUpgrade := none }

/-- `SetPendingUpgrade`, the checks and the write. -/
def setPendingUpgrade (K : Keepers W) (ctx : Ctx) (plan : Plan) : Prog (UpgradeState W) Unit := do
  wrapErr "invalid plan" (convert (K.upgrade.validateBasic plan))
  if plan.height < ctx.blockHeight then
    fail (errInvalidRequest.wrapErrWithCode .invalidRequest)
  else
    let s ← get
    if isUpgradePending s then
      fail errUpgradePending
    else
      wrapErr "failed to set upgrade plan" (storePendingUpgrade plan)

/-- `ShouldUpgrade`: the pending plan, when its height has been reached. -/
def shouldUpgrade (ctx : Ctx) (s : UpgradeState W) : Option Plan :=
  match s.pendingUpgrade with
  | none => none
  | some upgradePlan => if upgradePlan.height ≤ ctx.blockHeight then some upgradePlan else none

/-! ## Scheduling and cancelling -/

def scheduleUpgrade (K : Keepers W) (ctx : Ctx) (ev : SoftwareUpgrade) (isTerence : Bool) :
    Prog (UpgradeState W) Unit :=
  if isTerence then
    classify [(.upgradePending, .pendingUpgradeExists)] "failed to set pending upgrade"
      (setPendingUpgrade K ctx ev.plan)
  else
    classify [(.sdk .invalidRequest, .invalidRequest)]
      "failed to schedule upgrade in upgrade module"
      (call (K.upgrade.scheduleUpgrade ctx ev.plan))

def cancelUpgrade (K : Keepers W) (ctx : Ctx) (isTerence : Bool) : Prog (UpgradeState W) Unit :=
  if isTerence then
    wrapErr "failed to reset upgrade" (wrapErr "failed to delete pending upgrade"
      resetPendingUpgrade)
  else
    classify [(.sdk .invalidRequest, .invalidRequest)] "failed to clear upgrade plan"
      (call (K.upgrade.clearUpgradePlan ctx))

/-- The call of `DumpUpgradeInfoToDisk`: it writes a file of the node, and an error of it is
logged and forgotten. -/
def dumpUpgradeInfo {σ : Type} (K : Keepers W) (ev : SoftwareUpgrade) : Prog σ Unit :=
  match K.upgrade.dumpUpgradeInfoToDisk ev.height ev.plan with
  | .error _ => pure ()
  | .ok _ => pure ()

@[simp] theorem dumpUpgradeInfo_eq {σ : Type} (K : Keepers W) (ev : SoftwareUpgrade) :
    (dumpUpgradeInfo K ev : Prog σ Unit) = pure () := by
  unfold dumpUpgradeInfo
  split <;> rfl

def processSoftwareUpgrade (K : Keepers W) (ctx : Ctx) (ev : SoftwareUpgrade) :
    Prog (UpgradeState W) Unit := cacheContext do
  let isTerence ← wrapErr "failed to check Terence upgrade height"
    (ofExcept (isTerence ctx.chainID ctx.blockHeight))
  wrapErr "failed to schedule upgrade" (cachedCtx (scheduleUpgrade K ctx ev isTerence))
  dumpUpgradeInfo K ev

def processCancelUpgrade (K : Keepers W) (ctx : Ctx) : Prog (UpgradeState W) Unit :=
  cacheContext do
  let isTerence ← wrapErr "failed to check Terence upgrade height"
    (ofExcept (isTerence ctx.chainID ctx.blockHeight))
  wrapErr "failed to cancel the upgrade" (cachedCtx (cancelUpgrade K ctx isTerence))

def handleUpgrade (K : Keepers W) (ctx : Ctx) : UpgradeEvent → Prog (UpgradeState W) Unit
  | .softwareUpgrade ev => processSoftwareUpgrade K ctx ev
  | .cancelUpgrade => processCancelUpgrade K ctx

/-- The generated bindings of the UpgradeEntrypoint contract. -/
structure UpgradeContract where
  softwareUpgradeID : Hash
  parseSoftwareUpgrade : Eth.Log → Except GoError SoftwareUpgrade
  cancelUpgradeID : Hash
  parseCancelUpgrade : Eth.Log → Except GoError Unit

def UpgradeContract.parse (C : UpgradeContract) (topic : Hash) (ethlog : Eth.Log) :
    Option (Except GoError UpgradeEvent) :=
  if topic = C.softwareUpgradeID then
    some ((C.parseSoftwareUpgrade ethlog).map .softwareUpgrade)
  else if topic = C.cancelUpgradeID then
    some ((C.parseCancelUpgrade ethlog).map fun _ => .cancelUpgrade)
  else none

def processUpgradeEvents (K : Keepers W) (C : UpgradeContract) (ctx : Ctx)
    (logs : List (Option EVMEvent)) : Prog (UpgradeState W) Unit :=
  logs.forM (dispatchLog (actOn C.parse (handleUpgrade K ctx)))

/-! ### Events from Terence on -/

section Terence

variable {K : Keepers W} {ctx : Ctx} {s t : UpgradeState W}

/-- **A plan is accepted** when it is valid, not in the past, and the slot is free. -/
theorem returns_processSoftwareUpgrade {ev : SoftwareUpgrade}
    (hT : isTerence ctx.chainID ctx.blockHeight = .ok true) :
    Returns (processSoftwareUpgrade K ctx ev) s () t ↔
      K.upgrade.validateBasic ev.plan = .ok () ∧ ctx.blockHeight ≤ ev.height ∧
        s.pendingUpgrade = none ∧ t = { s with pendingUpgrade := some ev.plan } := by
  have hheight : ev.plan.height = ev.height := rfl
  simp only [processSoftwareUpgrade, returns_cacheContext, returns_bind, returns_wrapErr,
    returns_ofExcept, hT, Except.ok.injEq, returns_cachedCtx, scheduleUpgrade,
    dumpUpgradeInfo_eq, returns_pure]
  constructor
  · rintro ⟨b, ⟨_, _, ⟨rfl, rfl⟩, _, _, ⟨t', hset, rfl⟩, _, rfl⟩, rfl⟩
    simp only [if_true, returns_classify, setPendingUpgrade, returns_bind, returns_wrapErr,
      returns_convert] at hset
    obtain ⟨_, _, ⟨hv, rfl⟩, hset⟩ := hset
    rw [hheight] at hset
    rcases returns_ite.mp hset with ⟨_, hf⟩ | ⟨hpast, hset⟩
    · exact absurd hf returns_fail
    · obtain ⟨_, _, hget, hset⟩ := returns_bind.mp hset
      obtain ⟨rfl, rfl⟩ := returns_get.mp hget
      rcases returns_ite.mp hset with ⟨_, hf⟩ | ⟨hfree, hset⟩
      · exact absurd hf returns_fail
      · refine ⟨hv, by omega, by simpa [isUpgradePending] using hfree, ?_⟩
        exact (returns_modify.mp (returns_wrapErr.mp hset)).symm
  · rintro ⟨hv, hpast, hfree, rfl⟩
    refine ⟨⟨s, _⟩, ⟨true, ⟨s, s⟩, ⟨rfl, rfl⟩, (), _, ⟨_, ?_, rfl⟩, trivial, rfl⟩, rfl⟩
    simp [setPendingUpgrade, hv, hheight, not_lt.mpr hpast, isUpgradePending, hfree,
      storePendingUpgrade]

/-- A cancel event empties the slot, whatever is in it. -/
theorem returns_processCancelUpgrade
    (hT : isTerence ctx.chainID ctx.blockHeight = .ok true) :
    Returns (processCancelUpgrade K ctx) s () t ↔ t = { s with pendingUpgrade := none } := by
  simp [processCancelUpgrade, hT, cancelUpgrade, resetPendingUpgrade, eq_comm]

end Terence

/-! ## The UBI percentage -/

/-- `UBIPoolUBIPercentageSet`. -/
structure UBIPercentageSet where
  percentage : UInt32
  deriving DecidableEq

def processUBIPercentageSet (K : Keepers W) (ctx : Ctx) (ev : UBIPercentageSet) : Prog W Unit :=
  cacheContext do
  -- `LegacyNewDecWithPrec(percentage, 4)`
  let newUBI : Int := ev.percentage.toNat * 10 ^ 14
  classify [(.sdk .invalidRequest, .invalidRequest)] "set new UBI percentage"
    (cachedCtx (sdk (K.distr.setUbi ctx newUBI)))

/-- The generated bindings of the UBIPool contract. -/
structure UBIContract where
  ubiPercentageSetID : Hash
  parseUBIPercentageSet : Eth.Log → Except GoError UBIPercentageSet

def UBIContract.parse (C : UBIContract) (topic : Hash) (ethlog : Eth.Log) :
    Option (Except GoError UBIPercentageSet) :=
  if topic = C.ubiPercentageSetID then some (C.parseUBIPercentageSet ethlog) else none

def processUBIEvents (K : Keepers W) (C : UBIContract) (ctx : Ctx)
    (logs : List (Option EVMEvent)) : Prog W Unit :=
  logs.forM (dispatchLog (actOn C.parse (processUBIPercentageSet K ctx)))

end Story.EvmEngine
