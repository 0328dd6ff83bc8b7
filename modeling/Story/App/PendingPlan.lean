/-
# Story.App.PendingPlan -- one place for a pending upgrade

Before Terence an upgrade event goes straight to `x/upgrade`, whose store holds the
plan; from Terence on it goes to the slot of the module, and `x/upgrade` sees the plan
in the block it is for. A plan that was scheduled before Terence for a block after it
would be in neither place the events can reach: a cancel event empties the slot only.

It does not survive. The Terence fork is itself scheduled in `x/upgrade`, by the
pre-blocker of its block, and so replaces what is stored; the module manager then
executes it in the same block, and clears the store. This file follows both places
along every run from genesis, with the plans that the slot has accepted.
-/
import Story.App.UpgradeSafety

namespace Story.App

open Story.Effect Story.Errors Story.Sdk Story.Netconf Story.EvmEngine
open Story.EvmStaking (returns_cacheContext returns_cachedCtx returns_classify)

variable {W : Type}

/-! ## What is assumed of the upgrade module -/

/-- `plan w` is the plan in the store of `x/upgrade`. A plan that is scheduled replaces it, and
is not for a past block; the pre-block call of the module manager applies and clears the plan
of its block, and schedules none; nothing else in a block touches it. -/
structure PlanStore (K : Keepers W) (modules : Ctx → SdkProg W Unit) (others : W → W → Prop)
    (plan : W → Option Plan) : Prop where
  replaces : ∀ ctx p w w', Returns (K.upgrade.scheduleUpgrade ctx p) w () w' →
    plan w' = some p ∧ ctx.blockHeight ≤ p.height
  applies : ∀ ctx w w', Returns (modules ctx) w () w' →
    (∀ p, plan w = some p → p.height = ctx.blockHeight → plan w' = none) ∧
      (plan w = none → plan w' = none)
  keeps : ∀ w w', others w w' → plan w' = plan w

/-! ## Runs with all events -/

/-- The chain, with the plans the slot has accepted since it was last emptied. -/
structure Watched (W : Type) where
  chain : Chain W
  accepted : List Plan

/-- A step of a block that does not fail. -/
inductive Act
  | preBlock (ctx : Ctx)
  | accepted (ev : UpgradeEvent)
  | rejected (ev : UpgradeEvent)
  | other

/-- The record after an accepted event. Before Terence the slot takes no part. -/
def recordEvent (ctx : Ctx) (accepted : List Plan) : UpgradeEvent → List Plan
  | .softwareUpgrade ev =>
      if isTerence ctx.chainID ctx.blockHeight = .ok true then accepted ++ [ev.plan] else accepted
  | .cancelUpgrade => []

/-- The record after the pre-blocker: it may have taken the plan out of the slot. -/
def recordPreBlock (before after : UpgradeState W) (accepted : List Plan) : List Plan :=
  if isUpgradePending before && !isUpgradePending after then [] else accepted

/-- What a step does. An event whose handler fails is skipped. -/
def Act.Runs (K : Keepers W) (modules : Ctx → SdkProg W Unit) (others : W → W → Prop) :
    Act → Watched W → Watched W → Prop
  | .preBlock ctx, s, t =>
      s.chain.Next ctx ∧ t.chain.ctx = ctx ∧
        Returns (preBlocker K modules ctx) s.chain.store () t.chain.store ∧
        t.accepted = recordPreBlock s.chain.store t.chain.store s.accepted
  | .accepted ev, s, t =>
      t.chain.ctx = s.chain.ctx ∧
        Returns (handleUpgrade K s.chain.ctx ev) s.chain.store () t.chain.store ∧
        t.accepted = recordEvent s.chain.ctx s.accepted ev
  | .rejected ev, s, t =>
      t.chain.ctx = s.chain.ctx ∧
        (∃ e, Fails (handleUpgrade K s.chain.ctx ev) s.chain.store e t.chain.store) ∧
        t.accepted = s.accepted
  | .other, s, t =>
      t.chain.ctx = s.chain.ctx ∧ t.accepted = s.accepted ∧
        ∃ w, others s.chain.store.sdk w ∧ t.chain.store = { s.chain.store with sdk := w }

/-- A chain before its first block: nothing is scheduled. -/
structure Watched.Genesis (plan : W → Option Plan) (T : Int) (s : Watched W) : Prop where
  terence : getUpgradeHeight s.chain.ctx.chainID terence = .ok T
  pending : s.chain.store.pendingUpgrade = none
  stored : plan s.chain.store.sdk = none
  accepted : s.accepted = []

/-! ## The invariant -/

/-- Up to Terence the slot is empty. From Terence on the store of `x/upgrade` is, and the slot
holds the one plan that was accepted. -/
structure Watched.OnePlace (plan : W → Option Plan) (T : Int) (s : Watched W) : Prop where
  terence : getUpgradeHeight s.chain.ctx.chainID terence = .ok T
  slot : s.chain.store.pendingUpgrade = s.accepted.head?
  single : s.accepted.length ≤ 1
  before : s.chain.ctx.blockHeight < T → s.accepted = []
  stored : T ≤ s.chain.ctx.blockHeight → plan s.chain.store.sdk = none

section Invariant

variable {K : Keepers W} {modules : Ctx → SdkProg W Unit} {others : W → W → Prop}
  {plan : W → Option Plan} {T : Int} {s t : Watched W} {ctx : Ctx}

theorem Watched.Genesis.onePlace (h : s.Genesis plan T) : s.OnePlace plan T where
  terence := h.terence
  slot := by rw [h.pending, h.accepted, List.head?_nil]
  single := by simp [h.accepted]
  before := fun _ => h.accepted
  stored := fun _ => h.stored

theorem Watched.OnePlace.pending_none (hs : s.OnePlace plan T)
    (h : s.chain.ctx.blockHeight < T) : s.chain.store.pendingUpgrade = none := by
  rw [hs.slot, hs.before h, List.head?_nil]

/-- The forks are put into `x/upgrade`; the slot is left alone. -/
theorem pending_scheduleForkUpgrade {u v : UpgradeState W} {r : Unit}
    (h : Returns (scheduleForkUpgrade K ctx) u r v) : v.pendingUpgrade = u.pendingUpgrade := by
  have hround (fork : Fork) {u v : UpgradeState W} (h : Returns (scheduleFork K ctx fork) u () v) :
      v.pendingUpgrade = u.pendingUpgrade := by
    by_cases hdue : fork.heightOn ctx.chainID = some ctx.blockHeight
    · obtain ⟨w, _, rfl⟩ := returns_call.mp ((returns_scheduleFork_due hdue).mp h)
      rfl
    · obtain rfl := (returns_scheduleFork_skipped hdue).mp h
      rfl
  simp only [scheduleForkUpgrade, forks, returns_forM_cons, returns_forM_nil] at h
  obtain ⟨_, h₁, _, h₂, _, h₃, _, h₄, rfl⟩ := h
  rw [hround _ h₄, hround _ h₃, hround _ h₂, hround _ h₁]

/-- After the forks, what is stored is the plan of the Terence fork, in its block, or nothing. -/
theorem Watched.OnePlace.forked (hx : PlanStore K modules others plan) (hs : s.OnePlace plan T)
    (hn : s.chain.Next ctx) (hT : T ≤ ctx.blockHeight) {v : UpgradeState W}
    (hf : Returns (scheduleForkUpgrade K ctx) s.chain.store () v) :
    plan v.sdk = none ∨ ∃ p, plan v.sdk = some p ∧ p.height = ctx.blockHeight := by
  have hterence : getUpgradeHeight ctx.chainID Netconf.terence = .ok T := by
    rw [hn.chainID]
    exact hs.terence
  rcases (returns_scheduleForkUpgrade hterence hT).mp hf with ⟨heq, hcall⟩ | ⟨hlt, rfl⟩
  · obtain ⟨w, hw, rfl⟩ := returns_call.mp hcall
    exact .inr ⟨_, (hx.replaces _ _ _ _ hw).1, heq.symm⟩
  · have := hn.height
    exact .inl (hs.stored (by omega))

/-- **The pre-blocker** leaves nothing in `x/upgrade`: what it hands over is for this block. -/
theorem Watched.OnePlace.preBlock (hx : PlanStore K modules others plan) (hs : s.OnePlace plan T)
    (hn : s.chain.Next ctx) (ht : t.chain.ctx = ctx)
    (h : Returns (preBlocker K modules ctx) s.chain.store () t.chain.store)
    (hrecord : t.accepted = recordPreBlock s.chain.store t.chain.store s.accepted) :
    t.OnePlace plan T := by
  obtain ⟨_, u, hplans, hmodules⟩ := returns_bind.mp h
  obtain ⟨w, hw, hstore⟩ := returns_call.mp (returns_wrapErr.mp hmodules)
  obtain ⟨_, v, hf, _⟩ := returns_bind.mp hplans
  obtain ⟨happlied, hnone⟩ := hx.applies _ _ _ hw
  have hslot := pending_scheduleForkUpgrade hf
  have hheight := hn.height
  have hterence : getUpgradeHeight t.chain.ctx.chainID Netconf.terence = .ok T := by
    rw [ht, hn.chainID]
    exact hs.terence
  cases hdue : shouldUpgrade ctx v with
  | none =>
      obtain rfl := (returns_schedulePlans_none hf hdue).mp hplans
      have hsame : t.chain.store.pendingUpgrade = s.chain.store.pendingUpgrade := by
        rw [← hstore]
        exact hslot
      have haccepted : t.accepted = s.accepted := by
        rw [hrecord, recordPreBlock, isUpgradePending, isUpgradePending, hsame]
        cases s.chain.store.pendingUpgrade <;> rfl
      refine ⟨hterence, by rw [hsame, haccepted, hs.slot], haccepted ▸ hs.single, ?_, ?_⟩
      · intro hlt
        rw [ht] at hlt
        rw [haccepted, hs.before (by omega)]
      · intro hT
        rw [ht] at hT
        rw [← hstore]
        show plan w = none
        rcases hs.forked hx hn hT hf with hempty | ⟨p, hp, hnow⟩
        · exact hnone hempty
        · exact happlied p hp hnow
  | some p =>
      obtain ⟨w', hw', rfl⟩ := (returns_schedulePlans_some hf hdue).mp hplans
      obtain ⟨hpending, hle⟩ := shouldUpgrade_eq_some.mp hdue
      obtain ⟨hstored, hge⟩ := hx.replaces _ _ _ _ hw'
      have hempty : t.chain.store.pendingUpgrade = none := by
        rw [← hstore]
        rfl
      have haccepted : t.accepted = [] := by
        rw [hrecord, recordPreBlock, isUpgradePending, isUpgradePending, hempty, ← hslot, hpending]
        rfl
      refine ⟨hterence, by rw [hempty, haccepted, List.head?_nil], by simp [haccepted],
        fun _ => haccepted, fun _ => ?_⟩
      rw [← hstore]
      -- the plan was due, and `x/upgrade` took it, so it is for this block
      exact happlied p hstored (by omega)

theorem isTerence_eq_false {chainID : String} {height : Int}
    (hT : getUpgradeHeight chainID terence = .ok T) (h : height < T) :
    isTerence chainID height = .ok false := by
  rw [isTerence, isActive_eq_ok_iff]
  exact ⟨T, hT, (decide_eq_false (by omega)).symm⟩

/-- Before Terence an event leaves the slot alone. -/
theorem pending_handleUpgrade {ev : UpgradeEvent} {u v : UpgradeState W}
    (hT : isTerence ctx.chainID ctx.blockHeight = .ok false)
    (h : Returns (handleUpgrade K ctx ev) u () v) : v.pendingUpgrade = u.pendingUpgrade := by
  cases ev with
  | softwareUpgrade ev =>
      simp only [handleUpgrade, processSoftwareUpgrade, returns_cacheContext, returns_bind,
        returns_wrapErr, returns_ofExcept, hT, Except.ok.injEq, returns_cachedCtx,
        scheduleUpgrade, dumpUpgradeInfo_eq, returns_pure] at h
      obtain ⟨_, ⟨_, _, ⟨rfl, rfl⟩, _, _, ⟨t', h, rfl⟩, _, rfl⟩, rfl⟩ := h
      obtain ⟨w, _, rfl⟩ := returns_call.mp (returns_classify.mp h)
      rfl
  | cancelUpgrade =>
      simp only [handleUpgrade, processCancelUpgrade, returns_cacheContext, returns_bind,
        returns_wrapErr, returns_ofExcept, hT, Except.ok.injEq, returns_cachedCtx,
        cancelUpgrade] at h
      obtain ⟨_, ⟨_, _, ⟨rfl, rfl⟩, t', h, rfl⟩, rfl⟩ := h
      obtain ⟨w, _, rfl⟩ := returns_call.mp (returns_classify.mp h)
      rfl

/-- **An accepted event**: before Terence it is a matter of `x/upgrade`, from Terence on of the
slot. -/
theorem Watched.OnePlace.accept {ev : UpgradeEvent} (hs : s.OnePlace plan T)
    (ht : t.chain.ctx = s.chain.ctx)
    (h : Returns (handleUpgrade K s.chain.ctx ev) s.chain.store () t.chain.store)
    (hrecord : t.accepted = recordEvent s.chain.ctx s.accepted ev) : t.OnePlace plan T := by
  have hterence : getUpgradeHeight t.chain.ctx.chainID Netconf.terence = .ok T := by
    rw [ht]
    exact hs.terence
  by_cases hT : T ≤ s.chain.ctx.blockHeight
  · have hactive := (isTerence_iff hs.terence).mpr hT
    have hstored := hs.stored hT
    cases ev with
    | softwareUpgrade ev =>
        obtain ⟨_, _, hfree, hstore⟩ := (returns_processSoftwareUpgrade hactive).mp h
        -- the slot was free, so nothing had been accepted
        have hempty : s.accepted = [] := List.head?_eq_none_iff.mp (hs.slot ▸ hfree)
        have haccepted : t.accepted = [ev.plan] := by
          rw [hrecord, recordEvent, if_pos hactive, hempty, List.nil_append]
        refine ⟨hterence, by rw [hstore, haccepted]; rfl, by simp [haccepted], ?_, ?_⟩
        · intro hlt
          rw [ht] at hlt
          omega
        · intro _
          rw [hstore]
          exact hstored
    | cancelUpgrade =>
        have hstore := (returns_processCancelUpgrade hactive).mp h
        have haccepted : t.accepted = [] := hrecord
        refine ⟨hterence, by rw [hstore, haccepted]; rfl, by simp [haccepted],
          fun _ => haccepted, fun _ => ?_⟩
        rw [hstore]
        exact hstored
  · have hinactive := isTerence_eq_false hs.terence (not_le.mp hT)
    have hempty := hs.before (not_le.mp hT)
    have hslot := pending_handleUpgrade hinactive h
    have haccepted : t.accepted = [] := by
      rw [hrecord, hempty]
      cases ev with
      | softwareUpgrade ev => simp [recordEvent, hinactive]
      | cancelUpgrade => rfl
    refine ⟨hterence, ?_, by simp [haccepted], fun _ => haccepted, ?_⟩
    · rw [hslot, hs.pending_none (not_le.mp hT), haccepted, List.head?_nil]
    · intro hT'
      rw [ht] at hT'
      exact absurd hT' hT

/-- **The step lemma.** -/
theorem Watched.OnePlace.step (hx : PlanStore K modules others plan) {a : Act}
    (hs : s.OnePlace plan T) (hstep : a.Runs K modules others s t) : t.OnePlace plan T := by
  cases a with
  | preBlock ctx =>
      obtain ⟨hn, ht, hret, hrecord⟩ := hstep
      exact hs.preBlock hx hn ht hret hrecord
  | accepted ev =>
      obtain ⟨ht, hret, hrecord⟩ := hstep
      exact hs.accept ht hret hrecord
  | rejected ev =>
      obtain ⟨ht, ⟨e, hfails⟩, hrecord⟩ := hstep
      obtain ⟨hstore, _⟩ := handleUpgrade_atomic K _ ev _ _ _ hfails
      obtain rfl : t = s := by
        obtain ⟨⟨tctx, tstore⟩, taccepted⟩ := t
        obtain ⟨⟨sctx, sstore⟩, saccepted⟩ := s
        simp_all
      exact hs
  | other =>
      obtain ⟨ht, hrecord, w, hw, hstore⟩ := hstep
      refine ⟨ht ▸ hs.terence, by rw [hstore, hrecord]; exact hs.slot, hrecord ▸ hs.single, ?_, ?_⟩
      · intro hlt
        rw [hrecord]
        exact hs.before (ht ▸ hlt)
      · intro hT
        rw [hstore]
        exact (hx.keeps _ _ hw).trans (hs.stored (ht ▸ hT))

/-- A chain whose slot is taken refuses every other plan, and nothing changes. -/
theorem Watched.OnePlace.refuses (hs : s.OnePlace plan T) (hT : T ≤ s.chain.ctx.blockHeight)
    (htaken : s.chain.store.pendingUpgrade ≠ none) (ev : SoftwareUpgrade) :
    ∃ e, Fails (processSoftwareUpgrade K s.chain.ctx ev) s.chain.store e s.chain.store := by
  rcases returns_or_fails (processSoftwareUpgrade K s.chain.ctx ev) s.chain.store with
    ⟨_, v, h⟩ | ⟨e, v, h⟩
  · obtain ⟨_, _, hfree, _⟩ :=
      (returns_processSoftwareUpgrade ((isTerence_iff hs.terence).mpr hT)).mp h
    exact absurd hfree htaken
  · obtain ⟨rfl, _⟩ := handleUpgrade_atomic K _ (.softwareUpgrade ev) _ _ _ h
    exact ⟨e, h⟩

end Invariant

/-! ## Main results -/

/-- **After Terence there is one place for a pending upgrade.** Along every run from genesis,
in every block from Terence on: `x/upgrade` holds no plan; the slot is empty or holds the one
plan it has accepted since it was last emptied; while it is taken every other plan is refused,
and nothing changes; and once a cancel event is processed nothing is scheduled anywhere. -/
theorem pending_upgrade_in_one_place {K : Keepers W} {modules : Ctx → SdkProg W Unit}
    {others : W → W → Prop} {plan : W → Option Plan} (hx : PlanStore K modules others plan)
    {T : Int} {start s : Watched W} {acts : List Act} (hstart : start.Genesis plan T)
    (run : Trace (Act.Runs K modules others) start acts s) (hT : T ≤ s.chain.ctx.blockHeight) :
    plan s.chain.store.sdk = none ∧
      s.chain.store.pendingUpgrade = s.accepted.head? ∧ s.accepted.length ≤ 1 ∧
      (s.chain.store.pendingUpgrade ≠ none → ∀ ev,
        ∃ e, Fails (processSoftwareUpgrade K s.chain.ctx ev) s.chain.store e s.chain.store) ∧
      ∀ t, Returns (processCancelUpgrade K s.chain.ctx) s.chain.store () t →
        plan t.sdk = none ∧ t.pendingUpgrade = none := by
  have hs : s.OnePlace plan T :=
    run.invariant (I := fun _ s => s.OnePlace plan T) hstart.onePlace
      fun _ _ _ _ hs hstep => hs.step hx hstep
  refine ⟨hs.stored hT, hs.slot, hs.single, fun htaken ev => hs.refuses hT htaken ev, ?_⟩
  intro t hcancel
  obtain rfl := (returns_processCancelUpgrade ((isTerence_iff hs.terence).mpr hT)).mp hcancel
  exact ⟨hs.stored hT, rfl⟩

theorem ledger_planStore :
    PlanStore Ledger.keepers Ledger.preBlock SameUpgrades Ledger.plan where
  replaces := by
    intro ctx p l l' h
    refine ⟨(ledger_xUpgrade.stores ctx p l l' h).1, ?_⟩
    by_contra hpast
    obtain ⟨e, w, hfails⟩ := ledger_xUpgrade.rejects ctx p l (.inr (.inl (not_le.mp hpast)))
    exact h.not_fails hfails
  applies := by
    intro ctx l l' h
    have hexec := (ledger_xUpgrade.executes ctx l l' h).1
    refine ⟨fun p hp hnow => ?_, fun hnone => ?_⟩
    · rw [Option.eq_none_iff_forall_ne_some]
      intro q hq
      obtain ⟨hq, hlt⟩ := hexec q hq
      obtain rfl : p = q := Option.some.inj (hp.symm.trans hq)
      omega
    · rw [Option.eq_none_iff_forall_ne_some]
      intro q hq
      exact Option.some_ne_none q ((hexec q hq).1.symm.trans hnone)
  keeps := fun _ _ h => h.1

/-- The test chain before block 49. -/
def freshChain : Watched Ledger := ⟨⟨testBlock 48, ⟨none, .empty⟩⟩, []⟩

/-- A plan for block 60 that is scheduled in block 49 is gone after block 50, that of Terence;
a plan that is accepted there is cancelled for good. -/
theorem early_plan_replaced_at_terence : ∃ s : Watched Ledger,
    Trace (Act.Runs Ledger.keepers Ledger.preBlock SameUpgrades) freshChain
      [.preBlock (testBlock 49), .accepted (.softwareUpgrade (testUpgrade 60)),
        .preBlock (testBlock 50), .accepted (.softwareUpgrade (testUpgrade 70))] s ∧
    s.chain.store.sdk.plan = none ∧
    s.chain.store.pendingUpgrade = some (testUpgrade 70).plan ∧
    ∃ e, Fails (processSoftwareUpgrade Ledger.keepers s.chain.ctx (testUpgrade 80)) s.chain.store e
      s.chain.store := by
  let l₁ : Ledger := { Ledger.empty with plan := some (testUpgrade 60).plan }
  let l₂ : Ledger := { Ledger.empty with done := [terence] }
  have run : Trace (Act.Runs Ledger.keepers Ledger.preBlock SameUpgrades) freshChain
      [.preBlock (testBlock 49), .accepted (.softwareUpgrade (testUpgrade 60)),
        .preBlock (testBlock 50), .accepted (.softwareUpgrade (testUpgrade 70))]
      ⟨⟨testBlock 50, ⟨some (testUpgrade 70).plan, l₂⟩⟩, [(testUpgrade 70).plan]⟩ := by
    have h₁ : Act.Runs Ledger.keepers Ledger.preBlock SameUpgrades (.preBlock (testBlock 49))
        freshChain ⟨⟨testBlock 49, ⟨none, .empty⟩⟩, []⟩ := ⟨⟨rfl, rfl⟩, rfl, rfl, rfl⟩
    have h₂ : Act.Runs Ledger.keepers Ledger.preBlock SameUpgrades
        (.accepted (.softwareUpgrade (testUpgrade 60))) ⟨⟨testBlock 49, ⟨none, .empty⟩⟩, []⟩
        ⟨⟨testBlock 49, ⟨none, l₁⟩⟩, []⟩ := ⟨rfl, rfl, rfl⟩
    have h₃ : Act.Runs Ledger.keepers Ledger.preBlock SameUpgrades (.preBlock (testBlock 50))
        ⟨⟨testBlock 49, ⟨none, l₁⟩⟩, []⟩ ⟨⟨testBlock 50, ⟨none, l₂⟩⟩, []⟩ :=
      ⟨⟨rfl, rfl⟩, rfl, rfl, rfl⟩
    have h₄ : Act.Runs Ledger.keepers Ledger.preBlock SameUpgrades
        (.accepted (.softwareUpgrade (testUpgrade 70))) ⟨⟨testBlock 50, ⟨none, l₂⟩⟩, []⟩
        ⟨⟨testBlock 50, ⟨some (testUpgrade 70).plan, l₂⟩⟩, [(testUpgrade 70).plan]⟩ :=
      ⟨rfl, rfl, rfl⟩
    exact (((Trace.nil.snoc h₁).snoc h₂).snoc h₃).snoc h₄
  have hstart : freshChain.Genesis Ledger.plan 50 := ⟨rfl, rfl, rfl, rfl⟩
  obtain ⟨hplan, hslot, _, hrefuses, _⟩ :=
    pending_upgrade_in_one_place ledger_planStore hstart run (by decide)
  exact ⟨_, run, hplan, hslot, hrefuses (by simp) (testUpgrade 80)⟩

end Story.App
