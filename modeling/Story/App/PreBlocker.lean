/-
# Story.App.PreBlocker -- scheduling upgrades before a block

Before any transaction of a block runs, `App.PreBlocker` hands two kinds of plans to
`x/upgrade`: the hard forks that are compiled into the binary, each at its own height,
and the plan in the pending slot once its height has been reached. Only then does the
module manager run, and `x/upgrade` with it. An error here stops the node before it
can look at the block, so no event of that block can take the plan back.
-/
import Story.EvmEngine.Isolation

namespace Story.App

open Story.Effect Story.Errors Story.Sdk Story.Netconf Story.EvmEngine

variable {W : Type}

/-! ## Hard forks -/

/-- `upgrades.Fork`, the parts that are read. -/
structure Fork where
  upgradeName : String
  upgradeHeight : Int
  upgradeInfo : String

def virgilFork : Fork where
  upgradeName := virgil
  upgradeHeight := 0
  upgradeInfo := "upgrade to change the duration of the short staking period during the " ++
    "singularity period"

def v120Fork : Fork where
  upgradeName := ovid
  upgradeHeight := 0
  upgradeInfo := "upgrade to change the max bytes of block in consensus parameters"

def polybiusFork : Fork where
  upgradeName := polybius
  upgradeHeight := 0
  upgradeInfo := "upgrade to increase max number of validator to 80"

def terenceFork : Fork where
  upgradeName := terence
  upgradeHeight := 0
  upgradeInfo := "Terence upgrade that supports rolling upgrade via upgrade entrypoint " ++
    "contract with single binary"

/-- `Forks`. -/
def forks : List Fork := [virgilFork, v120Fork, polybiusFork, terenceFork]

/-- A fork of the two public networks only: the `GetUpgradeHeight` of such a fork. -/
def publicUpgradeHeight (aeneid story : Int) (chainID : String) : Option Int :=
  if chainID = aeneidChainID then some aeneid
  else if chainID = storyChainID then some story
  else none

def virgilUpgradeHeight : String → Option Int := publicUpgradeHeight 345158 809988
def v120UpgradeHeight : String → Option Int := publicUpgradeHeight 4362990 4477880
def polybiusUpgradeHeight : String → Option Int := publicUpgradeHeight 6008000 8270000

def terenceUpgradeHeight (chainID : String) : Option Int :=
  match getUpgradeHeight chainID terence with
  | .ok height => some height
  | .error _ => none

/-- The height of a fork on a chain, or none when the loop skips the fork there. -/
def Fork.heightOn (fork : Fork) (chainID : String) : Option Int :=
  if fork.upgradeName = virgil then virgilUpgradeHeight chainID
  else if fork.upgradeName = ovid then v120UpgradeHeight chainID
  else if fork.upgradeName = polybius then polybiusUpgradeHeight chainID
  else if fork.upgradeName = terence then terenceUpgradeHeight chainID
  else some fork.upgradeHeight

def Fork.plan (fork : Fork) (height : Int) : Plan := ⟨fork.upgradeName, height, fork.upgradeInfo⟩

/-- One round of the loop of `scheduleForkUpgrade`. -/
def scheduleFork (K : Keepers W) (ctx : Ctx) (fork : Fork) : Prog (UpgradeState W) Unit :=
  match fork.heightOn ctx.chainID with
  | none => pure ()
  | some upgradeHeight =>
      onlyIf (ctx.blockHeight = upgradeHeight) do
        match ← attempt (call (K.upgrade.scheduleUpgrade ctx (fork.plan ctx.blockHeight))) with
        | .ok _ => pure ()
        | .error err =>
            goPanic ("hard fork: failed to schedule upgrade " ++ fork.upgradeName ++
              " during BeginBlock at height " ++ toString ctx.blockHeight ++ ": " ++ err.msg)

def scheduleForkUpgrade (K : Keepers W) (ctx : Ctx) : Prog (UpgradeState W) Unit :=
  forks.forM (scheduleFork K ctx)

/-! ## The pre-blocker -/

/-- What `PreBlocker` does before it calls the module manager. -/
def schedulePlans (K : Keepers W) (ctx : Ctx) : Prog (UpgradeState W) Unit := do
  scheduleForkUpgrade K ctx
  match shouldUpgrade ctx (← get) with
  | none => pure ()
  | some plan =>
      wrapErr "failed to schedule upgrade" (call (K.upgrade.scheduleUpgrade ctx plan))
      wrapErr "failed to reset pending upgrade" (wrapErr "failed to delete pending upgrade"
        resetPendingUpgrade)

/-- `App.PreBlocker`. `modules` is `ModuleManager.PreBlock`. -/
def preBlocker (K : Keepers W) (modules : Ctx → SdkProg W Unit) (ctx : Ctx) :
    Prog (UpgradeState W) Unit := do
  schedulePlans K ctx
  wrapErr "module manager preblocker" (call (modules ctx))

/-! ## Forks from Terence on -/

section Forks

variable {K : Keepers W} {ctx : Ctx} {fork : Fork} {s t : UpgradeState W} {T : Int}

theorem returns_scheduleFork_skipped (h : fork.heightOn ctx.chainID ≠ some ctx.blockHeight) :
    Returns (scheduleFork K ctx fork) s () t ↔ s = t := by
  unfold scheduleFork
  split
  · simp
  next height hheight =>
    have hne : ctx.blockHeight ≠ height := by
      rintro rfl
      exact h hheight
    simp [hne]

theorem returns_scheduleFork_due (h : fork.heightOn ctx.chainID = some ctx.blockHeight) :
    Returns (scheduleFork K ctx fork) s () t ↔
      Returns (call (K.upgrade.scheduleUpgrade ctx (fork.plan ctx.blockHeight))) s () t := by
  simp only [scheduleFork, h, onlyIf, if_true]
  constructor
  · intro hr
    obtain ⟨r, s', hcall, hr⟩ := returns_bind.mp hr
    cases r with
    | error err => exact absurd hr returns_goPanic
    | ok u =>
        obtain ⟨_, rfl⟩ := returns_pure.mp hr
        exact returns_attempt_ok.mp hcall
  · intro hr
    exact (returns_attempt_ok.mpr hr).bind (returns_pure.mpr ⟨rfl, rfl⟩)

/-- The forks of the public networks are over when Terence is reached. -/
theorem publicUpgradeHeight_lt {aeneid story height : Int} {chainID : String}
    (hT : getUpgradeHeight chainID terence = .ok T) (ha : aeneid < 10886688)
    (hs : story < 11538000) (h : publicUpgradeHeight aeneid story chainID = some height) :
    height < T := by
  unfold publicUpgradeHeight at h
  split at h
  next hc =>
    subst hc
    obtain rfl : T = 10886688 := (Except.ok.inj hT).symm
    grind
  next =>
    split at h
    next hc =>
      subst hc
      obtain rfl : T = 11538000 := (Except.ok.inj hT).symm
      grind
    next => cases h

theorem heightOn_terenceFork {chainID : String} (hT : getUpgradeHeight chainID terence = .ok T) :
    terenceFork.heightOn chainID = some T := by
  show terenceUpgradeHeight chainID = some T
  rw [terenceUpgradeHeight, hT]

/-- **From Terence on** the loop schedules Terence itself, at its height, and nothing else. -/
theorem returns_scheduleForkUpgrade (hT : getUpgradeHeight ctx.chainID terence = .ok T)
    (hh : T ≤ ctx.blockHeight) :
    Returns (scheduleForkUpgrade K ctx) s () t ↔
      (ctx.blockHeight = T ∧
        Returns (call (K.upgrade.scheduleUpgrade ctx (terenceFork.plan T))) s () t) ∨
      (T < ctx.blockHeight ∧ s = t) := by
  -- the earlier forks have heights below that of Terence on every chain that has one
  have hpast {aeneid story : Int} (ha : aeneid < 10886688) (hs : story < 11538000) :
      publicUpgradeHeight aeneid story ctx.chainID ≠ some ctx.blockHeight := by
    intro h
    exact absurd (publicUpgradeHeight_lt hT ha hs h) (by omega)
  have hvirgil : virgilFork.heightOn ctx.chainID ≠ some ctx.blockHeight :=
    hpast (by decide) (by decide)
  have hv120 : v120Fork.heightOn ctx.chainID ≠ some ctx.blockHeight :=
    hpast (by decide) (by decide)
  have hpolybius : polybiusFork.heightOn ctx.chainID ≠ some ctx.blockHeight :=
    hpast (by decide) (by decide)
  have hterence := heightOn_terenceFork hT
  simp only [scheduleForkUpgrade, forks, returns_forM_cons, returns_forM_nil,
    returns_scheduleFork_skipped hvirgil, returns_scheduleFork_skipped hv120,
    returns_scheduleFork_skipped hpolybius, exists_eq_left', exists_eq_right]
  rcases lt_or_eq_of_le hh with hlt | rfl
  · rw [returns_scheduleFork_skipped (by rw [hterence]; intro h; cases h; omega)]
    constructor
    · exact fun h => .inr ⟨hlt, h⟩
    · rintro (⟨rfl, _⟩ | ⟨_, h⟩)
      · omega
      · exact h
  · rw [returns_scheduleFork_due hterence]
    constructor
    · exact fun h => .inl ⟨rfl, h⟩
    · rintro (⟨_, h⟩ | ⟨h, _⟩)
      · exact h
      · omega

/-! ## What is scheduled -/

theorem shouldUpgrade_eq_some {u : UpgradeState W} {p : Plan} :
    shouldUpgrade ctx u = some p ↔ u.pendingUpgrade = some p ∧ p.height ≤ ctx.blockHeight := by
  unfold shouldUpgrade
  split <;> grind

theorem returns_schedulePlans_none {u : UpgradeState W}
    (hf : Returns (scheduleForkUpgrade K ctx) s () u) (hp : shouldUpgrade ctx u = none) :
    Returns (schedulePlans K ctx) s () t ↔ t = u := by
  rw [schedulePlans, hf.bind_iff, (returns_get.mpr ⟨rfl, rfl⟩ : Returns get u u u).bind_iff, hp,
    returns_pure]
  exact ⟨fun h => h.2.symm, fun h => ⟨rfl, h.symm⟩⟩

theorem returns_schedulePlans_some {u : UpgradeState W} {plan : Plan}
    (hf : Returns (scheduleForkUpgrade K ctx) s () u) (hp : shouldUpgrade ctx u = some plan) :
    Returns (schedulePlans K ctx) s () t ↔
      ∃ w, Returns (K.upgrade.scheduleUpgrade ctx plan) u.sdk () w ∧ t = ⟨none, w⟩ := by
  rw [schedulePlans, hf.bind_iff, (returns_get.mpr ⟨rfl, rfl⟩ : Returns get u u u).bind_iff, hp]
  simp only [returns_bind, returns_wrapErr, returns_call, resetPendingUpgrade, returns_modify]
  constructor
  · rintro ⟨_, _, ⟨w, hw, rfl⟩, rfl⟩
    exact ⟨w, hw, rfl⟩
  · rintro ⟨w, hw, rfl⟩
    exact ⟨(), _, ⟨w, hw, rfl⟩, rfl⟩

/-- A plan that `x/upgrade` refuses stops the pre-blocker with its error. -/
theorem fails_schedulePlans {u : UpgradeState W} {plan : Plan} {e : SdkError} {w : W}
    (hf : Returns (scheduleForkUpgrade K ctx) s () u) (hp : shouldUpgrade ctx u = some plan)
    (he : Fails (K.upgrade.scheduleUpgrade ctx plan) u.sdk (.err e) w) :
    Fails (schedulePlans K ctx) s (.err ((GoError.ofSdk e).wrap "failed to schedule upgrade"))
      { u with sdk := w } := by
  rw [schedulePlans, hf.fails_bind_iff,
    (returns_get.mpr ⟨rfl, rfl⟩ : Returns get u u u).fails_bind_iff, hp]
  refine fails_bind.mpr (.inl (fails_wrapErr.mpr ⟨_, fails_call.mpr ⟨_, w, he, rfl, rfl⟩, rfl⟩))

end Forks

end Story.App
