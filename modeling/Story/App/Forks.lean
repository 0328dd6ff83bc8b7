/-
# Story.App.Forks -- every fork is applied once

The forks are compiled into the binary, each with its height on each chain. The pre-blocker
hands the fork of its height to `x/upgrade`, and the module manager, called next, runs the
upgrade handler of that name in the same block. `RunsPlans` says what is assumed of `x/upgrade`
here. Along a run of blocks in which no upgrade event is processed, each handler is then run
once, in the block of its fork, and the pre-blocker of any other block leaves the records of
the handlers alone.
-/
import Story.App.Migrations
import Story.App.UpgradeSafety

namespace Story.App

open Story.Effect Story.Errors Story.Sdk Story.Netconf Story.EvmEngine

variable {W ρ V : Type}

/-! ## One fork for a height -/

/-- The fork that is due at a height. -/
def forkAt (chainID : String) (height : Int) : Option Fork :=
  forks.find? fun fork => fork.heightOn chainID = some height

theorem publicUpgradeHeight_inj {a a' s s' height : Int} {chainID : String}
    (h : publicUpgradeHeight a s chainID = some height)
    (h' : publicUpgradeHeight a' s' chainID = some height) : a = a' ∨ s = s' := by
  unfold publicUpgradeHeight at h h'
  grind

/-- No two forks share a height, on any chain. -/
theorem forks_pairwise (chainID : String) (height : Int) :
    forks.Pairwise fun f g => f.heightOn chainID = some height →
      g.heightOn chainID ≠ some height := by
  have hpublic {a a' s s' : Int} (ha : a ≠ a') (hs : s ≠ s')
      (h : publicUpgradeHeight a s chainID = some height) :
      publicUpgradeHeight a' s' chainID ≠ some height := by
    intro h'
    rcases publicUpgradeHeight_inj h h' with heq | heq
    · exact ha heq
    · exact hs heq
  -- Terence is behind the forks of the public networks
  have hterence {a s : Int} (ha : a < 10886688) (hs : s < 11538000)
      (h : publicUpgradeHeight a s chainID = some height) :
      terenceUpgradeHeight chainID ≠ some height := by
    intro h'
    unfold terenceUpgradeHeight at h'
    split at h'
    next T hT =>
      cases h'
      exact absurd (publicUpgradeHeight_lt hT ha hs h) (lt_irrefl _)
    next => cases h'
  refine .cons ?_ (.cons ?_ (.cons ?_ (.cons ?_ .nil)))
  · intro g hg
    simp only [List.mem_cons, List.not_mem_nil, or_false] at hg
    rcases hg with rfl | rfl | rfl
    · exact hpublic (by decide) (by decide)
    · exact hpublic (by decide) (by decide)
    · exact hterence (by decide) (by decide)
  · intro g hg
    simp only [List.mem_cons, List.not_mem_nil, or_false] at hg
    rcases hg with rfl | rfl
    · exact hpublic (by decide) (by decide)
    · exact hterence (by decide) (by decide)
  · intro g hg
    obtain rfl := List.mem_singleton.mp hg
    exact hterence (by decide) (by decide)
  · intro g hg
    cases hg

/-- The loop over the forks schedules the one that is due. -/
theorem returns_scheduleForks {K : Keepers W} {ctx : Ctx} {s t : UpgradeState W} {fs : List Fork}
    (hfs : fs.Pairwise fun f g => f.heightOn ctx.chainID = some ctx.blockHeight →
      g.heightOn ctx.chainID ≠ some ctx.blockHeight) :
    Returns (fs.forM (scheduleFork K ctx)) s () t ↔
      match fs.find? fun fork => fork.heightOn ctx.chainID = some ctx.blockHeight with
      | none => s = t
      | some fork =>
          Returns (call (K.upgrade.scheduleUpgrade ctx (fork.plan ctx.blockHeight))) s () t := by
  induction hfs generalizing s with
  | nil => exact returns_forM_nil
  | @cons f fs hf hfs ih =>
      rw [returns_forM_cons]
      by_cases hdue : f.heightOn ctx.chainID = some ctx.blockHeight
      · have hrest : fs.find? (fun g => g.heightOn ctx.chainID = some ctx.blockHeight) = none := by
          refine List.find?_eq_none.mpr ?_
          intro g hg
          simpa using hf g hg hdue
        simp only [ih, hrest, List.find?_cons_of_pos (p := fun g : Fork =>
          decide (g.heightOn ctx.chainID = some ctx.blockHeight)) (decide_eq_true hdue),
          returns_scheduleFork_due hdue, exists_eq_right]
      · have hskip : List.find? (fun g : Fork =>
            decide (g.heightOn ctx.chainID = some ctx.blockHeight)) (f :: fs) =
            fs.find? fun g => decide (g.heightOn ctx.chainID = some ctx.blockHeight) :=
          List.find?_cons_of_neg (by simpa using hdue)
        simp only [returns_scheduleFork_skipped hdue, hskip, exists_eq_left', ih]

/-! ## Runs -/

/-- What the forks rely on in `x/upgrade`. In stores `w`, `plan w` is the stored plan and `done
w` holds of the names that are marked done. The pre-block call of the module manager runs the
handler of a plan in the block of the plan; `others` relates the stores before and after
anything else a block does. -/
structure RunsPlans {C : Codec} (K : Keepers W) (modules : Ctx → SdkProg W Unit)
    (others : W → W → Prop) (handlers : List (String × UpgradeHandler W V))
    (view : W → MigrationState C ρ) (plan : W → Option Plan) (done : W → String → Prop) :
    Prop where
  valid : ∀ fork ∈ forks, ∀ height, 0 < height →
    K.upgrade.validateBasic (fork.plan height) = .ok ()
  accepts : ∀ ctx p w, K.upgrade.validateBasic p = .ok () → ctx.blockHeight ≤ p.height →
    ¬ done w p.name → ∃ w', Returns (K.upgrade.scheduleUpgrade ctx p) w () w'
  stores : ∀ ctx p w w', Returns (K.upgrade.scheduleUpgrade ctx p) w () w' →
    plan w' = some p ∧ done w' = done w ∧ view w' = view w
  runs : ∀ ctx p w w', plan w = some p → p.height = ctx.blockHeight →
    Returns (modules ctx) w () w' → plan w' = none ∧
      (∀ name, done w' name ↔ done w name ∨ name = p.name) ∧
      ∃ handler vm vm' v, (p.name, handler) ∈ handlers ∧ Returns (handler ctx p vm) w vm' v ∧
        view w' = view v
  idles : ∀ ctx w w', plan w = none → Returns (modules ctx) w () w' →
    plan w' = none ∧ done w' = done w ∧ view w' = view w
  keeps : ∀ w w', others w w' → plan w' = plan w ∧ done w' = done w

/-- A step in which no upgrade event is processed. -/
def Step.RunsQuietly (K : Keepers W) (modules : Ctx → SdkProg W Unit) (others : W → W → Prop)
    (a : Step) (s t : Chain W) : Prop :=
  (∀ ev, a ≠ .event ev) ∧ a.Runs K modules others s t

/-- The fork of this name has been reached. -/
def Passed (ctx : Ctx) (name : String) : Prop :=
  ∃ fork ∈ forks, fork.upgradeName = name ∧
    ∃ height, fork.heightOn ctx.chainID = some height ∧ 0 < height ∧ height ≤ ctx.blockHeight

/-- Between two blocks: nothing is scheduled, and the forks that have been reached are done. -/
structure Chain.Settled (plan : W → Option Plan) (done : W → String → Prop) (s : Chain W) :
    Prop where
  height : 0 ≤ s.ctx.blockHeight
  pending : s.store.pendingUpgrade = none
  stored : plan s.store.sdk = none
  done : ∀ name, done s.store.sdk name ↔ Passed s.ctx name

/-- What the pre-blocker of a block makes of the records. -/
def forkMigration {C : Codec} (checks : Checks ρ) (authority : String) (ctx : Ctx)
    (st : MigrationState C ρ) : Option (MigrationState C ρ) :=
  match forkAt ctx.chainID ctx.blockHeight with
  | none => some st
  | some fork => migration checks authority ctx fork.upgradeName st

section Runs

variable {ctx : Ctx}

theorem forkAt_eq_some {chainID : String} {height : Int} {fork : Fork} :
    forkAt chainID height = some fork ↔ fork ∈ forks ∧ fork.heightOn chainID = some height := by
  constructor
  · intro h
    exact ⟨List.mem_of_find?_eq_some h, by simpa using List.find?_some h⟩
  · rintro ⟨hmem, hheight⟩
    cases hfind : forkAt chainID height with
    | none => exact absurd hheight (by simpa using List.find?_eq_none.mp hfind fork hmem)
    | some g =>
        have hg : g.heightOn chainID = some height := by simpa using List.find?_some hfind
        by_contra hne
        have : Std.Symm fun f g : Fork => f.heightOn chainID = some height →
            g.heightOn chainID ≠ some height := ⟨fun f g h hg hf => h hf hg⟩
        exact (forks_pairwise chainID height).forall (List.mem_of_find?_eq_some hfind) hmem
          (fun h => hne (by rw [h])) hg hheight

theorem fork_eq_of_upgradeName {f g : Fork} (hf : f ∈ forks) (hg : g ∈ forks)
    (h : f.upgradeName = g.upgradeName) : f = g := by
  have hnames : (forks.map Fork.upgradeName).Nodup := by decide
  exact List.inj_on_of_nodup_map hnames hf hg h

/-- A fork that is due has not been passed before. -/
theorem not_passed_of_due {fork : Fork} {height : Int} (hheight : ctx.blockHeight < height)
    (hfork : forkAt ctx.chainID height = some fork) : ¬ Passed ctx fork.upgradeName := by
  rintro ⟨g, hg, hname, height', hg', _, hle⟩
  obtain ⟨hmem, hdue⟩ := forkAt_eq_some.mp hfork
  obtain rfl := fork_eq_of_upgradeName hg hmem hname
  rw [hg'] at hdue
  cases hdue
  omega

theorem passed_next {ctx' : Ctx} (hchain : ctx'.chainID = ctx.chainID)
    (hheight : ctx'.blockHeight = ctx.blockHeight + 1) (hpos : 0 ≤ ctx.blockHeight)
    (name : String) :
    Passed ctx' name ↔ Passed ctx name ∨
      ∃ fork, forkAt ctx'.chainID ctx'.blockHeight = some fork ∧ name = fork.upgradeName := by
  unfold Passed
  rw [hchain]
  constructor
  · rintro ⟨fork, hmem, rfl, height, hdue, hpos', hle⟩
    rcases lt_or_eq_of_le hle with hlt | rfl
    · exact .inl ⟨fork, hmem, rfl, height, hdue, hpos', by omega⟩
    · exact .inr ⟨fork, forkAt_eq_some.mpr ⟨hmem, hdue⟩, rfl⟩
  · rintro (⟨fork, hmem, rfl, height, hdue, hpos', hle⟩ | ⟨fork, hfork, rfl⟩)
    · exact ⟨fork, hmem, rfl, height, hdue, hpos', by omega⟩
    · obtain ⟨hmem, hdue⟩ := forkAt_eq_some.mp hfork
      exact ⟨fork, hmem, rfl, _, hdue, by omega, le_rfl⟩

variable {C : Codec} {K : Keepers W} {modules : Ctx → SdkProg W Unit} {others : W → W → Prop}
  {R : Type} {S : MigrationKeepers W ρ} {view : W → MigrationState C ρ} {rest : W → R}
  {checks : Checks ρ} {plan : W → Option Plan} {done : W → String → Prop} {s t : Chain W}

theorem shouldUpgrade_eq_none {u : UpgradeState W} (h : u.pendingUpgrade = none) :
    shouldUpgrade ctx u = none := by
  rw [Option.eq_none_iff_forall_ne_some]
  intro p hp
  rw [shouldUpgrade_eq_some, h] at hp
  exact absurd hp.1 (by simp)

/-- The state after the plans of a block have been scheduled: the plan of its fork, if it has
one, and nothing else. -/
theorem Chain.Settled.scheduled {handlers : List (String × UpgradeHandler W V)}
    (hx : RunsPlans K modules others handlers view plan done) (hs : s.Settled plan done)
    {u : UpgradeState W} (h : Returns (schedulePlans K ctx) s.store () u) :
    u.pendingUpgrade = none ∧ done u.sdk = done s.store.sdk ∧
      view u.sdk = view s.store.sdk ∧
      plan u.sdk = (forkAt ctx.chainID ctx.blockHeight).map (Fork.plan · ctx.blockHeight) := by
  obtain ⟨_, v, hforks, _⟩ := returns_bind.mp h
  have hloop := (returns_scheduleForks (forks_pairwise ctx.chainID ctx.blockHeight)).mp hforks
  have hv : v.pendingUpgrade = none ∧ done v.sdk = done s.store.sdk ∧
      view v.sdk = view s.store.sdk ∧
      plan v.sdk = (forkAt ctx.chainID ctx.blockHeight).map (Fork.plan · ctx.blockHeight) := by
    unfold forkAt
    split at hloop
    next hfork =>
      subst hloop
      rw [hfork]
      exact ⟨hs.pending, rfl, rfl, hs.stored⟩
    next fork hfork =>
      rw [hfork]
      obtain ⟨w, hw, rfl⟩ := returns_call.mp hloop
      obtain ⟨hplan, hdone, hview⟩ := hx.stores _ _ _ _ hw
      exact ⟨hs.pending, hdone, hview, hplan⟩
  obtain rfl := (returns_schedulePlans_none hforks (shouldUpgrade_eq_none hv.1)).mp h
  exact hv

/-- A fork that is due is taken by `x/upgrade`. -/
theorem Chain.Settled.returns_schedulePlans {handlers : List (String × UpgradeHandler W V)}
    (hx : RunsPlans K modules others handlers view plan done) (hs : s.Settled plan done)
    (hn : s.Next ctx) : ∃ u, Returns (schedulePlans K ctx) s.store () u := by
  have hheight := hn.height
  have hpos := hs.height
  have hforks : ∃ v, Returns (scheduleForkUpgrade K ctx) s.store () v ∧
      v.pendingUpgrade = none := by
    have hloop := @returns_scheduleForks W K ctx s.store
    cases hfork : forkAt ctx.chainID ctx.blockHeight with
    | none =>
        refine ⟨s.store, (hloop (forks_pairwise _ _)).mpr ?_, hs.pending⟩
        unfold forkAt at hfork
        rw [hfork]
    | some fork =>
        have hnew : ¬ done s.store.sdk fork.upgradeName := by
          rw [hs.done]
          rw [hn.chainID] at hfork
          exact not_passed_of_due (by omega) hfork
        obtain ⟨w, hw⟩ := hx.accepts ctx (fork.plan ctx.blockHeight) s.store.sdk
          (hx.valid fork (forkAt_eq_some.mp hfork).1 _ (by omega)) le_rfl hnew
        refine ⟨{ s.store with sdk := w }, (hloop (forks_pairwise _ _)).mpr ?_, hs.pending⟩
        unfold forkAt at hfork
        rw [hfork]
        exact returns_call.mpr ⟨w, hw, rfl⟩
  obtain ⟨v, hv, hpending⟩ := hforks
  exact ⟨v, (returns_schedulePlans_none hv (shouldUpgrade_eq_none hpending)).mpr rfl⟩

/-- **The pre-blocker migrates.** In the block of a fork it does what the fork is for, in any
other block it leaves the records alone; the chain stays settled. -/
theorem Chain.Settled.preBlock [DecidableEq ρ] (hS : MigrationStore S view rest checks)
    (hx : RunsPlans K modules others (upgrades (V := V) C S) view plan done)
    (hs : s.Settled plan done) (hn : s.Next ctx) {u : UpgradeState W}
    (h : Returns (preBlocker K modules ctx) s.store () u) :
    forkMigration checks S.getAuthority ctx (view s.store.sdk) = some (view u.sdk) ∧
      (⟨ctx, u⟩ : Chain W).Settled plan done := by
  obtain ⟨_, v, hplans, hmodules⟩ := returns_bind.mp h
  obtain ⟨w, hw, rfl⟩ := returns_call.mp (returns_wrapErr.mp hmodules)
  obtain ⟨hpending, hdone, hview, hplan⟩ := hs.scheduled hx hplans
  have hheight := hn.height
  have hpos := hs.height
  have hpassed := passed_next hn.chainID hn.height hs.height
  have hmigration : forkMigration checks S.getAuthority ctx (view s.store.sdk) =
      some (view w) ∧ plan w = none ∧ ∀ name, done w name ↔ Passed ctx name := by
    unfold forkMigration
    cases hfork : forkAt ctx.chainID ctx.blockHeight with
    | none =>
        rw [hfork] at hplan
        obtain ⟨hnone, hsame, hrecords⟩ := hx.idles _ _ _ hplan hw
        refine ⟨by rw [hrecords]; exact congrArg some hview.symm, hnone, fun name => ?_⟩
        have hmiddle : done w name ↔ Passed s.ctx name := by
          rw [hsame, ← hs.done, ← hdone]
        rw [hmiddle, hpassed, hfork]
        simp
    | some fork =>
        rw [hfork] at hplan
        obtain ⟨hnone, hmarked, handler, vm, vm', v', hhandler, hreturns, hrecords⟩ :=
          hx.runs _ _ _ _ hplan rfl hw
        refine ⟨?_, hnone, fun name => ?_⟩
        · have hcomputes := computes_handler hS hhandler ctx
            (fork.plan ctx.blockHeight) vm v.sdk
          rw [hrecords, ← hview]
          exact (hcomputes.of_returns hreturns).2.1
        · have hbefore : done v.sdk name ↔ Passed s.ctx name := by
            rw [hdone, hs.done]
          rw [hmarked, hpassed, hfork]
          refine or_congr hbefore ⟨fun hname => ⟨fork, rfl, hname⟩, ?_⟩
          rintro ⟨g, hg, hname⟩
          cases hg
          exact hname
  obtain ⟨hrecords, hnone, hmarks⟩ := hmigration
  exact ⟨hrecords, by show 0 ≤ ctx.blockHeight; omega, hpending, hnone, hmarks⟩

/-- **The step lemma.** -/
theorem Chain.Settled.step [DecidableEq ρ] (hS : MigrationStore S view rest checks)
    (hx : RunsPlans K modules others (upgrades (V := V) C S) view plan done) {a : Step}
    (hs : s.Settled plan done) (hstep : a.RunsQuietly K modules others s t) :
    t.Settled plan done := by
  obtain ⟨hquiet, hstep⟩ := hstep
  cases a with
  | preBlock ctx =>
      obtain ⟨hn, rfl, hret⟩ := hstep
      exact (hs.preBlock hS hx hn hret).2
  | event ev => exact absurd rfl (hquiet ev)
  | other =>
      obtain ⟨w, hw, rfl⟩ := hstep
      obtain ⟨hplan, hdone⟩ := hx.keeps _ _ hw
      refine ⟨hs.height, hs.pending, hplan.trans hs.stored, fun name => ?_⟩
      show done w name ↔ _
      rw [hdone]
      exact hs.done name

end Runs

/-! ## The registry as an example -/

deriving instance Inhabited for SdkError, SdkFault
deriving instance Inhabited for Codec, AccountKeeper, BankKeeper, StakingKeeper, SlashingKeeper,
  DistributionKeeper, UpgradeKeeper, Keepers

namespace Registry

def keepers : Keepers Registry where
  __ := (default : Keepers Registry)
  codec := Ledger.codec
  upgrade :=
    { (default : UpgradeKeeper Registry) with
      validateBasic := fun _ => .ok ()
      scheduleUpgrade := fun ctx plan => do
        let r ← get
        if plan.height < ctx.blockHeight ∨ plan.name ∈ r.done then throw (.err ⟨"refused", []⟩)
        else set { r with plan := some plan } }

/-- Run the handler of a plan, and mark the plan as done. -/
def applyUpgrade (ctx : Ctx) (plan : Plan) (handler : UpgradeHandler Registry Unit) :
    SdkProg Registry Unit := do
  mapError (fun _ => .panic "upgrade failed") (handler ctx plan ())
  modify fun r => { r with plan := none, done := plan.name :: r.done }

/-- The pre-block call of the module manager. -/
def preBlock (ctx : Ctx) : SdkProg Registry Unit := do
  match (← get).plan with
  | none => pure ()
  | some plan =>
      if plan.height = ctx.blockHeight then
        match (upgrades Ledger.codec migrations).lookup plan.name with
        | none => throw (.panic "UPGRADE NEEDED")
        | some handler => applyUpgrade ctx plan handler
      else pure ()

def SameUpgrades (r r' : Registry) : Prop := r'.plan = r.plan ∧ r'.done = r.done

theorem runsPlans :
    RunsPlans keepers preBlock SameUpgrades (upgrades (V := Unit) Ledger.codec migrations)
      Registry.state Registry.plan fun r name => name ∈ r.done where
  valid := fun _ _ _ _ => rfl
  accepts := by
    intro ctx p r _ hheight hnew
    refine ⟨{ r with plan := some p }, Returns.bind (returns_get.mpr ⟨rfl, rfl⟩) ?_⟩
    rw [if_neg (by rintro (hlt | hdone); exacts [absurd hlt (not_lt.mpr hheight), hnew hdone])]
    exact returns_set.mpr rfl
  stores := by
    intro ctx p r r' h
    obtain ⟨_, _, hget, h⟩ := returns_bind.mp h
    obtain ⟨rfl, rfl⟩ := returns_get.mp hget
    rcases returns_ite.mp h with ⟨_, h⟩ | ⟨_, h⟩
    · exact absurd h returns_throw
    · obtain rfl := returns_set.mp h
      exact ⟨rfl, rfl, rfl⟩
  runs := by
    intro ctx p r r' hplan hheight h
    obtain ⟨_, _, hget, h⟩ := returns_bind.mp h
    obtain ⟨rfl, rfl⟩ := returns_get.mp hget
    rw [hplan] at h
    simp only [hheight, if_true] at h
    cases hlookup : (upgrades Ledger.codec migrations).lookup p.name with
    | none =>
        rw [hlookup] at h
        exact absurd h returns_throw
    | some handler =>
        rw [hlookup] at h
        obtain ⟨vm', v, hrun, hmark⟩ := returns_bind.mp h
        obtain rfl := returns_modify.mp hmark
        have hreturns := returns_mapError.mp hrun
        obtain ⟨A, B, hmem, _⟩ := List.lookup_eq_some_iff.mp hlookup
        have hin : (p.name, handler) ∈ upgrades Ledger.codec migrations := by
          rw [hmem]
          simp
        obtain ⟨_, _, hrest⟩ := (computes_handler migrationStore hin ctx p () r).of_returns hreturns
        have hdone : v.done = r.done := congrArg Prod.snd hrest
        refine ⟨rfl, fun name => ?_, handler, (), vm', _, hin, hreturns, rfl⟩
        show name ∈ p.name :: v.done ↔ _
        rw [hdone, List.mem_cons, or_comm]
  idles := by
    intro ctx r r' hplan h
    obtain ⟨_, _, hget, h⟩ := returns_bind.mp h
    obtain ⟨rfl, rfl⟩ := returns_get.mp hget
    rw [hplan] at h
    obtain ⟨_, rfl⟩ := returns_pure.mp h
    exact ⟨hplan, rfl, rfl⟩
  keeps := fun _ _ h => ⟨h.1, by rw [h.2]⟩

end Registry

/-! ## Main result -/

/-- **Each fork migrates once, at its height.** Along every run of blocks without upgrade events,
whatever else the blocks do, the names that are marked done are those of the forks that have
been reached. The next pre-blocker never stops while it schedules; when it returns, it has
applied the migration of the fork at its height, or, in any other block, none. -/
theorem forks_migrate_once [DecidableEq ρ] {C : Codec} {K : Keepers W}
    {modules : Ctx → SdkProg W Unit} {others : W → W → Prop} {R : Type} {S : MigrationKeepers W ρ}
    {view : W → MigrationState C ρ} {rest : W → R} {checks : Checks ρ} {plan : W → Option Plan}
    {done : W → String → Prop} (hS : MigrationStore S view rest checks)
    (hx : RunsPlans K modules others (upgrades (V := V) C S) view plan done)
    {start s : Chain W} {steps : List Step} (hstart : start.Settled plan done)
    (run : Trace (Step.RunsQuietly K modules others) start steps s) {ctx : Ctx}
    (hnext : s.Next ctx) :
    (∀ name, done s.store.sdk name ↔ Passed s.ctx name) ∧
      (∃ u, Returns (schedulePlans K ctx) s.store () u) ∧
      ∀ u, Returns (preBlocker K modules ctx) s.store () u →
        forkMigration checks S.getAuthority ctx (view s.store.sdk) = some (view u.sdk) := by
  have hs : s.Settled plan done :=
    run.invariant (I := fun _ s => s.Settled plan done) hstart
      fun _ _ _ _ hs hstep => hs.step hS hx hstep
  refine ⟨hs.done, hs.returns_schedulePlans hx hnext, ?_⟩
  intro u hu
  exact (hs.preBlock hS hx hnext hu).1

/-- Block `height` of Aeneid. -/
def aeneidBlock (height : Int) : Ctx := ⟨aeneidChainID, height, 0, [], .finalize⟩

/-- The registry of Aeneid in the block of Virgil: the migration has been applied. -/
def Registry.afterVirgil : Registry where
  plan := none
  done := [virgil]
  state := (virgilMigration checks (aeneidBlock 345158) atGenesis.state).getD atGenesis.state

/-- In the block of Virgil the registry migrates and Virgil is marked done; the block behind it
changes nothing. -/
theorem aeneid_migrates_at_virgil :
    Trace (Step.RunsQuietly Registry.keepers Registry.preBlock Registry.SameUpgrades)
      ⟨aeneidBlock 345157, ⟨none, Registry.atGenesis⟩⟩ [.preBlock (aeneidBlock 345158)]
      ⟨aeneidBlock 345158, ⟨none, Registry.afterVirgil⟩⟩ ∧
    Passed (aeneidBlock 345158) virgil ∧
    Registry.afterVirgil.state.periodDelegations.entries.map (fun e => e.2.endTime) =
      [0, 1000 + 89 * 86400000000000, 2000] ∧
    ∃ r : Registry, Returns (preBlocker Registry.keepers Registry.preBlock (aeneidBlock 345159))
      ⟨none, Registry.afterVirgil⟩ () ⟨none, r⟩ ∧ r.state = Registry.afterVirgil.state := by
  have hstart : (⟨aeneidBlock 345157, ⟨none, Registry.atGenesis⟩⟩ : Chain Registry).Settled
      Registry.plan fun r name => name ∈ r.done := by
    refine ⟨by decide, rfl, rfl, fun name => ⟨fun h => absurd h List.not_mem_nil, ?_⟩⟩
    rintro ⟨fork, hmem, _, height, hheight, _, hle⟩
    simp only [forks, List.mem_cons, List.not_mem_nil, or_false] at hmem
    rcases hmem with rfl | rfl | rfl | rfl <;> cases hheight <;> exact absurd hle (by decide)
  have hstep : (Step.preBlock (aeneidBlock 345158)).RunsQuietly Registry.keepers
      Registry.preBlock Registry.SameUpgrades ⟨aeneidBlock 345157, ⟨none, Registry.atGenesis⟩⟩
      ⟨aeneidBlock 345158, ⟨none, Registry.afterVirgil⟩⟩ := ⟨by simp, ⟨rfl, rfl⟩, rfl, rfl⟩
  have run := Trace.nil.snoc hstep
  have hnext : (⟨aeneidBlock 345158, ⟨none, Registry.afterVirgil⟩⟩ : Chain Registry).Next
      (aeneidBlock 345159) := ⟨rfl, rfl⟩
  have hreturns : Returns (preBlocker Registry.keepers Registry.preBlock (aeneidBlock 345159))
      ⟨none, Registry.afterVirgil⟩ () ⟨none, Registry.afterVirgil⟩ := rfl
  obtain ⟨hdone, _, hmigration⟩ := forks_migrate_once Registry.migrationStore Registry.runsPlans
    hstart run hnext
  refine ⟨run, (hdone virgil).mp (List.mem_singleton.mpr rfl), rfl, _, hreturns, ?_⟩
  exact (Option.some.inj (hmigration _ hreturns)).symm

end Story.App
