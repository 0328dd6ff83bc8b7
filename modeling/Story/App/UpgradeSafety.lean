/-
# Story.App.UpgradeSafety -- pending upgrades and the pre-blocker

A plan is checked twice, in two blocks: by the module when the event is processed,
and by `x/upgrade` when the pre-blocker hands the plan over. The second check comes
later and is stricter, and the chain stops when it fails.

This file follows the slot along a run of blocks. A plan whose height is above the
block of its event and whose name is not marked done is always accepted the second
time, because nothing can be marked done while the slot is taken. A plan for the very
block of its event is accepted the first time and never the second.
-/
import Story.App.PreBlocker
import Story.Effect.Trace
import Story.Sdk.Ledger

namespace Story.App

open Story.Effect Story.Errors Story.Sdk Story.Netconf Story.EvmEngine

variable {W : Type}

/-! ## The upgrade module -/

/-- What the program relies on in `x/upgrade`. In stores `w`, `plan w` is the stored
plan and `done w` holds of the names that are marked done; `modules` is the pre-block
call of the module manager, and `others` relates the stores before and after anything
else a block does. -/
structure XUpgrade (K : Keepers W) (modules : Ctx → SdkProg W Unit) (others : W → W → Prop)
    (plan : W → Option Plan) (done : W → String → Prop) : Prop where
  accepts : ∀ ctx p w, K.upgrade.validateBasic p = .ok () → ctx.blockHeight ≤ p.height →
    ¬ done w p.name → ∃ w', Returns (K.upgrade.scheduleUpgrade ctx p) w () w'
  rejects : ∀ ctx p w, K.upgrade.validateBasic p ≠ .ok () ∨ p.height < ctx.blockHeight ∨
    done w p.name → ∃ e w', Fails (K.upgrade.scheduleUpgrade ctx p) w (.err e) w'
  stores : ∀ ctx p w w', Returns (K.upgrade.scheduleUpgrade ctx p) w () w' →
    plan w' = some p ∧ done w' = done w
  /-- A plan whose height has been reached is executed, and marked done. -/
  executes : ∀ ctx w w', Returns (modules ctx) w () w' →
    (∀ p, plan w' = some p → plan w = some p ∧ ctx.blockHeight < p.height) ∧
      ∀ name, done w' name → done w name ∨ ∃ p, plan w = some p ∧ p.name = name
  keeps : ∀ w w', others w w' → plan w' = plan w ∧ done w' = done w

/-! ## Runs of blocks -/

/-- The block being processed, and the stores. -/
structure Chain (W : Type) where
  ctx : Ctx
  store : UpgradeState W

/-- A step of a block. -/
inductive Step
  | preBlock (ctx : Ctx)
  | event (ev : UpgradeEvent)
  | other

/-- The context of the next block of the chain. -/
structure Chain.Next (s : Chain W) (ctx : Ctx) : Prop where
  chainID : ctx.chainID = s.ctx.chainID
  height : ctx.blockHeight = s.ctx.blockHeight + 1

/-- What a step does. Events are processed from Terence on; one that fails is skipped. -/
def Step.Runs (K : Keepers W) (modules : Ctx → SdkProg W Unit) (others : W → W → Prop) :
    Step → Chain W → Chain W → Prop
  | .preBlock ctx, s, t =>
      s.Next ctx ∧ t.ctx = ctx ∧ Returns (preBlocker K modules ctx) s.store () t.store
  | .event ev, s, t =>
      isTerence s.ctx.chainID s.ctx.blockHeight = .ok true ∧
        t = { s with store := effect (handleUpgrade K s.ctx ev) s.store }
  | .other, s, t => ∃ w, others s.store.sdk w ∧ t = { s with store := { s.store with sdk := w } }

/-- If the event is accepted, its plan is for a later block and has a name that is not marked
done. -/
def Step.Timely (K : Keepers W) (done : W → String → Prop) : Step → Chain W → Prop
  | .event (.softwareUpgrade ev), s =>
      ∀ u, Returns (processSoftwareUpgrade K s.ctx ev) s.store () u →
        s.ctx.blockHeight < ev.height ∧ ¬ done s.store.sdk ev.name
  | _, _ => True

/-- A step with a timely plan, if it has one. -/
def Step.RunsTimely (K : Keepers W) (modules : Ctx → SdkProg W Unit) (others : W → W → Prop)
    (done : W → String → Prop) (a : Step) (s t : Chain W) : Prop :=
  a.Timely K done s ∧ a.Runs K modules others s t

/-- A chain about to enter the blocks from height `T` on, Terence's: no plan is pending.
At `T` itself a stored plan may be left over, which the Terence fork replaces. -/
structure Chain.Enters (plan : W → Option Plan) (T : Int) (s : Chain W) : Prop where
  terence : getUpgradeHeight s.ctx.chainID terence = .ok T
  height : T ≤ s.ctx.blockHeight + 1
  pending : s.store.pendingUpgrade = none
  stored : s.ctx.blockHeight + 1 = T ∨ plan s.store.sdk = none

/-! ## The invariant -/

/-- The pending plan will be accepted by `x/upgrade` in its block. -/
structure Chain.Safe (K : Keepers W) (plan : W → Option Plan) (done : W → String → Prop) (T : Int)
    (s : Chain W) : Prop where
  terence : getUpgradeHeight s.ctx.chainID terence = .ok T
  height : T ≤ s.ctx.blockHeight + 1
  stored : s.ctx.blockHeight + 1 = T ∨ plan s.store.sdk = none
  pending : ∀ p, s.store.pendingUpgrade = some p →
    T ≤ s.ctx.blockHeight ∧ s.ctx.blockHeight < p.height ∧
      K.upgrade.validateBasic p = .ok () ∧ ¬ done s.store.sdk p.name

section Invariant

variable {K : Keepers W} {modules : Ctx → SdkProg W Unit} {others : W → W → Prop}
  {plan : W → Option Plan} {done : W → String → Prop} {T : Int} {s t : Chain W} {ctx : Ctx}

theorem Chain.Enters.safe (h : s.Enters plan T) : s.Safe K plan done T where
  terence := h.terence
  height := h.height
  stored := h.stored
  pending := by
    intro p hp
    rw [h.pending] at hp
    cases hp

theorem isTerence_iff {chainID : String} {height : Int}
    (hT : getUpgradeHeight chainID terence = .ok T) :
    isTerence chainID height = .ok true ↔ T ≤ height := by
  rw [isTerence, isActive_eq_ok_iff, hT]
  simp

/-- The forks leave the slot alone, and a plan is stored only at the height of Terence. -/
theorem Chain.Safe.forked (hx : XUpgrade K modules others plan done) (hs : s.Safe K plan done T)
    (hn : s.Next ctx) {u : UpgradeState W}
    (hf : Returns (scheduleForkUpgrade K ctx) s.store () u) :
    (ctx.blockHeight = T ∧ u.pendingUpgrade = none ∧ plan u.sdk = some (terenceFork.plan T)) ∨
      (T < ctx.blockHeight ∧ u = s.store ∧ plan u.sdk = none) := by
  have hT : getUpgradeHeight ctx.chainID Netconf.terence = .ok T := by
    rw [hn.chainID]
    exact hs.terence
  have hheight := hn.height
  have hle := hs.height
  rcases (returns_scheduleForkUpgrade hT (by omega)).mp hf with ⟨heq, hcall⟩ | ⟨hlt, rfl⟩
  · left
    obtain ⟨w, hw, rfl⟩ := returns_call.mp hcall
    refine ⟨heq, ?_, (hx.stores _ _ _ _ hw).1⟩
    -- a pending plan was accepted at height `T` or later
    show s.store.pendingUpgrade = none
    rw [Option.eq_none_iff_forall_ne_some]
    intro p hp
    have := (hs.pending p hp).1
    omega
  · right
    refine ⟨hlt, rfl, ?_⟩
    rcases hs.stored with h | h
    · omega
    · exact h

/-- **A plan that is due is accepted** by `x/upgrade`. -/
theorem Chain.Safe.schedules (hx : XUpgrade K modules others plan done)
    (hs : s.Safe K plan done T) (hn : s.Next ctx) {u : UpgradeState W}
    (hf : Returns (scheduleForkUpgrade K ctx) s.store () u) {p : Plan}
    (hp : shouldUpgrade ctx u = some p) :
    ∃ w, Returns (K.upgrade.scheduleUpgrade ctx p) u.sdk () w := by
  obtain ⟨hpend, _⟩ := shouldUpgrade_eq_some.mp hp
  rcases hs.forked hx hn hf with ⟨_, hnone, _⟩ | ⟨_, rfl, _⟩
  · rw [hnone] at hpend
    cases hpend
  · obtain ⟨_, hlt, hvalid, hnew⟩ := hs.pending p hpend
    exact hx.accepts ctx p _ hvalid (by have := hn.height; omega) hnew

/-- After the scheduling part, a stored plan is one for this block. The slot holds a plan
for a later block, or nothing. -/
theorem Chain.Safe.scheduled (hx : XUpgrade K modules others plan done)
    (hs : s.Safe K plan done T) (hn : s.Next ctx) {u : UpgradeState W}
    (h : Returns (schedulePlans K ctx) s.store () u) :
    (∀ p, plan u.sdk = some p → p.height = ctx.blockHeight) ∧
      (u.pendingUpgrade = none ∨
        u = s.store ∧ T < ctx.blockHeight ∧ plan u.sdk = none ∧ shouldUpgrade ctx u = none) := by
  obtain ⟨_, v, hf, _⟩ := returns_bind.mp h
  have hforked := hs.forked hx hn hf
  cases hdue : shouldUpgrade ctx v with
  | none =>
      obtain rfl := (returns_schedulePlans_none hf hdue).mp h
      rcases hforked with ⟨hT, hnone, hplan⟩ | ⟨hlt, hv, hplan⟩
      · refine ⟨?_, .inl hnone⟩
        intro p hp
        rw [hplan] at hp
        cases hp
        exact hT.symm
      · exact ⟨by simp [hplan], .inr ⟨hv, hlt, hplan, hdue⟩⟩
  | some p =>
      obtain ⟨w, hw, rfl⟩ := (returns_schedulePlans_some hf hdue).mp h
      refine ⟨?_, .inl rfl⟩
      intro q hq
      rw [(hx.stores _ _ _ _ hw).1] at hq
      cases hq
      -- the plan became due in this very block
      obtain ⟨hpend, hle⟩ := shouldUpgrade_eq_some.mp hdue
      rcases hforked with ⟨_, hnone, _⟩ | ⟨_, rfl, _⟩
      · rw [hnone] at hpend
        cases hpend
      · obtain ⟨_, hlt, _⟩ := hs.pending p hpend
        have := hn.height
        omega

/-- The pre-blocker keeps the invariant. -/
theorem Chain.Safe.preBlock (hx : XUpgrade K modules others plan done)
    (hs : s.Safe K plan done T) (hn : s.Next ctx) (ht : t.ctx = ctx)
    (h : Returns (preBlocker K modules ctx) s.store () t.store) : t.Safe K plan done T := by
  obtain ⟨_, u, hplans, hmodules⟩ := returns_bind.mp h
  obtain ⟨w, hw, hstore⟩ := returns_call.mp (returns_wrapErr.mp hmodules)
  obtain ⟨hexec, hdone⟩ := hx.executes _ _ _ hw
  obtain ⟨hnow, hslot⟩ := hs.scheduled hx hn hplans
  have hheight := hn.height
  have hle := hs.height
  refine ⟨?_, by rw [ht]; omega, .inr ?_, ?_⟩
  · rw [ht, hn.chainID]
    exact hs.terence
  · -- a plan that the modules left would be for a later block, but it was due in this one
    rw [← hstore]
    show plan w = none
    rw [Option.eq_none_iff_forall_ne_some]
    intro p hp
    obtain ⟨hp', hlt⟩ := hexec p hp
    have : p.height = ctx.blockHeight := hnow p hp'
    omega
  · -- a plan still in the slot was not handed over, so its height is ahead
    rw [← hstore, ht]
    intro p hp
    have hp : u.pendingUpgrade = some p := hp
    rcases hslot with hnone | ⟨rfl, hlt, hplan, hdue⟩
    · rw [hnone] at hp
      cases hp
    · obtain ⟨_, _, hvalid, hnew⟩ := hs.pending p hp
      have hlater : ¬ p.height ≤ ctx.blockHeight := by
        intro hle
        rw [shouldUpgrade_eq_some.mpr ⟨hp, hle⟩] at hdue
        cases hdue
      refine ⟨by omega, by omega, hvalid, ?_⟩
      intro hd
      rcases hdone _ hd with hd | ⟨q, hq, _⟩
      · exact hnew hd
      · have hq : plan s.store.sdk = some q := hq
        rw [hplan] at hq
        cases hq

/-- A timely event keeps the invariant: it leaves the stores of `x/upgrade` alone. -/
theorem Chain.Safe.event {ev : UpgradeEvent} (hs : s.Safe K plan done T)
    (hterence : isTerence s.ctx.chainID s.ctx.blockHeight = .ok true)
    (htimely : (Step.event ev).Timely K done s) :
    ({ s with store := effect (handleUpgrade K s.ctx ev) s.store } : Chain W).Safe K plan done
      T := by
  rcases effect_cases (handleUpgrade K s.ctx ev) s.store with heq | hret
  · rw [heq]
    exact hs
  · generalize effect (handleUpgrade K s.ctx ev) s.store = u at hret ⊢
    cases ev with
    | softwareUpgrade ev =>
        obtain ⟨hlater, hnew⟩ := htimely u hret
        obtain ⟨hvalid, _, _, rfl⟩ := (returns_processSoftwareUpgrade hterence).mp hret
        refine ⟨hs.terence, hs.height, hs.stored, ?_⟩
        rintro p ⟨⟩
        exact ⟨(isTerence_iff hs.terence).mp hterence, hlater, hvalid, hnew⟩
    | cancelUpgrade =>
        obtain rfl := (returns_processCancelUpgrade hterence).mp hret
        exact ⟨hs.terence, hs.height, hs.stored, fun p hp => nomatch hp⟩

/-- **The step lemma.** -/
theorem Chain.Safe.step (hx : XUpgrade K modules others plan done) {a : Step}
    (hs : s.Safe K plan done T) (htimely : a.Timely K done s)
    (hstep : a.Runs K modules others s t) : t.Safe K plan done T := by
  cases a with
  | preBlock ctx =>
      obtain ⟨hn, ht, hret⟩ := hstep
      exact hs.preBlock hx hn ht hret
  | event ev =>
      obtain ⟨hterence, rfl⟩ := hstep
      exact hs.event hterence htimely
  | other =>
      obtain ⟨w, hw, rfl⟩ := hstep
      obtain ⟨hplan, hdone⟩ := hx.keeps _ _ hw
      refine ⟨hs.terence, hs.height, ?_, ?_⟩
      · show _ ∨ plan w = none
        rw [hplan]
        exact hs.stored
      · intro p hp
        show _ ∧ _ ∧ _ ∧ ¬ done w p.name
        rw [hdone]
        exact hs.pending p hp

/-- **The run lemma.** -/
theorem Chain.Safe.run (hx : XUpgrade K modules others plan done) {steps : List Step}
    (hs : s.Safe K plan done T)
    (h : Trace (Step.RunsTimely K modules others done) s steps t) :
    t.Safe K plan done T := by
  induction h with
  | nil => exact hs
  | snoc _ hstep ih => exact ih.step hx hstep.1 hstep.2

/-- The scheduling part stops only where a fork of the binary is refused. -/
theorem Chain.Safe.fails_schedulePlans (hx : XUpgrade K modules others plan done)
    (hs : s.Safe K plan done T) (hn : s.Next ctx) {f : Fault} {v : UpgradeState W}
    (h : Fails (schedulePlans K ctx) s.store f v) :
    Fails (scheduleForkUpgrade K ctx) s.store f v := by
  rcases fails_bind.mp h with hfork | ⟨_, u, hf, _⟩
  · exact hfork
  · exfalso
    cases hdue : shouldUpgrade ctx u with
    | none => exact ((returns_schedulePlans_none hf hdue).mpr rfl).not_fails h
    | some p =>
        obtain ⟨w, hw⟩ := hs.schedules hx hn hf hdue
        exact ((returns_schedulePlans_some hf hdue).mpr ⟨w, hw, rfl⟩).not_fails h

/-- Above the height of Terence the scheduling part always returns. -/
theorem Chain.Safe.returns_schedulePlans (hx : XUpgrade K modules others plan done)
    (hs : s.Safe K plan done T) (hn : s.Next ctx) (hlt : T < ctx.blockHeight) :
    ∃ v, Returns (schedulePlans K ctx) s.store () v := by
  rcases returns_or_fails (schedulePlans K ctx) s.store with ⟨_, v, h⟩ | ⟨f, v, h⟩
  · exact ⟨v, h⟩
  · have hT : getUpgradeHeight ctx.chainID Netconf.terence = .ok T := by
      rw [hn.chainID]
      exact hs.terence
    have hf : Returns (scheduleForkUpgrade K ctx) s.store () s.store :=
      (returns_scheduleForkUpgrade hT hlt.le).mpr (.inr ⟨hlt, rfl⟩)
    exact absurd (hs.fails_schedulePlans hx hn h) hf.not_fails

end Invariant

/-- **An untimely plan stops the chain.** A plan that is due and that `x/upgrade` refuses,
because its height is past or its name is marked done, stops the pre-blocker. -/
theorem fails_preBlocker_of_refused {K : Keepers W} {modules : Ctx → SdkProg W Unit}
    {others : W → W → Prop} {plan : W → Option Plan} {done : W → String → Prop}
    (hx : XUpgrade K modules others plan done) {T : Int} {ctx : Ctx} {s : UpgradeState W} {p : Plan}
    (hT : getUpgradeHeight ctx.chainID terence = .ok T) (hlt : T < ctx.blockHeight)
    (hpending : s.pendingUpgrade = some p) (hdue : p.height ≤ ctx.blockHeight)
    (hp : p.height < ctx.blockHeight ∨ done s.sdk p.name) :
    ∃ e t, Fails (preBlocker K modules ctx) s
      (.err ((GoError.ofSdk e).wrap "failed to schedule upgrade")) t := by
  obtain ⟨e, w, hw⟩ := hx.rejects ctx p s.sdk (.inr hp)
  have hf : Returns (scheduleForkUpgrade K ctx) s () s :=
    (returns_scheduleForkUpgrade hT hlt.le).mpr (.inr ⟨hlt, rfl⟩)
  have hplans := fails_schedulePlans hf (shouldUpgrade_eq_some.mpr ⟨hpending, hdue⟩) hw
  exact ⟨e, _, fails_bind.mpr (.inl hplans)⟩

/-! ## The ledger as an example -/

/-- The rest of a block leaves the upgrade store of the ledger alone. -/
def SameUpgrades (l l' : Ledger) : Prop := l'.plan = l.plan ∧ l'.done = l.done

theorem ledger_xUpgrade :
    XUpgrade Ledger.keepers Ledger.preBlock SameUpgrades Ledger.plan (fun l n => n ∈ l.done) where
  accepts := by
    intro ctx p l hvalid hheight hnew
    have hp : ¬ (p.name = "" ∨ p.height ≤ 0) := by
      intro h
      simp only [Ledger.keepers, Ledger.upgrade] at hvalid
      grind
    refine ⟨{ l with plan := some p }, ?_⟩
    simp [Ledger.keepers, Ledger.upgrade, hp, not_lt.mpr hheight, hnew]
  rejects := by
    intro ctx p l h
    simp only [Ledger.keepers, Ledger.upgrade, Ledger.refuse] at h ⊢
    by_cases hvalid : p.name = "" ∨ p.height ≤ 0
    · simp [hvalid]
    by_cases hpast : p.height < ctx.blockHeight
    · simp [hvalid, hpast]
    by_cases hdone : p.name ∈ l.done
    · simp [hvalid, hpast, hdone]
    grind
  stores := by
    intro ctx p l l' h
    simp only [Ledger.keepers, Ledger.upgrade, Ledger.refuse, returns_bind, returns_get] at h
    obtain ⟨_, _, ⟨rfl, rfl⟩, h⟩ := h
    simp only [returns_ite, returns_throw, and_false, false_or, returns_set] at h
    obtain ⟨_, _, _, rfl⟩ := h
    exact ⟨rfl, rfl⟩
  executes := by
    intro ctx l l' h
    obtain rfl := returns_modify.mp h
    cases hplan : l.plan with
    | none => simp [hplan]
    | some p =>
        by_cases hdue : p.height ≤ ctx.blockHeight
        · simp only [hdue, if_true]
          grind
        · simp only [hdue, if_false]
          grind
  keeps := fun _ _ h => ⟨h.1, by rw [h.2]⟩

/-- Block `height` of the test chain, where Terence is at 50. -/
def testBlock (height : Int) : Ctx := ⟨testChainID, height, 0, [], .finalize⟩

/-- The test chain after block 50. -/
def testChain : Chain Ledger := ⟨testBlock 50, ⟨none, .empty⟩⟩

/-- An upgrade event. -/
def testUpgrade (height : Int) : SoftwareUpgrade := ⟨"test-upgrade", height, "test-info"⟩

theorem testChain_enters : testChain.Enters Ledger.plan 50 :=
  ⟨rfl, by decide, rfl, .inr rfl⟩

/-- Block 51 of the test chain, up to an upgrade event for block `height`. -/
theorem testChain_block {height : Int} (hheight : 51 ≤ height) :
    Step.Runs Ledger.keepers Ledger.preBlock SameUpgrades (.preBlock (testBlock 51)) testChain
        ⟨testBlock 51, ⟨none, .empty⟩⟩ ∧
      Step.Runs Ledger.keepers Ledger.preBlock SameUpgrades
        (.event (.softwareUpgrade (testUpgrade height))) ⟨testBlock 51, ⟨none, .empty⟩⟩
        ⟨testBlock 51, ⟨some (testUpgrade height).plan, .empty⟩⟩ := by
  refine ⟨⟨⟨rfl, rfl⟩, rfl, rfl⟩, rfl, ?_⟩
  have hvalid : Ledger.keepers.upgrade.validateBasic (testUpgrade height).plan = .ok () := by
    have hpos : ¬ height ≤ 0 := by omega
    simp [Ledger.keepers, Ledger.upgrade, testUpgrade, SoftwareUpgrade.plan, hpos]
  have hret : Returns (processSoftwareUpgrade Ledger.keepers (testBlock 51) (testUpgrade height))
      ⟨none, .empty⟩ () ⟨some (testUpgrade height).plan, .empty⟩ :=
    (returns_processSoftwareUpgrade rfl).mpr ⟨hvalid, hheight, rfl, rfl⟩
  exact congrArg (Chain.mk _) (effect_of_returns hret).symm

/-! ## Main results -/

/-- **Timely upgrades never stop the pre-blocker.** Along every run of blocks from Terence
on, if each upgrade event that is accepted names a block above its own and a name that is not
marked done, `x/upgrade` accepts every pending plan that is due. So the scheduling part can stop at
the height of Terence only, and there only when the Terence fork itself is refused. -/
theorem timely_upgrades_never_stop_preBlocker {K : Keepers W} {modules : Ctx → SdkProg W Unit}
    {others : W → W → Prop} {plan : W → Option Plan} {done : W → String → Prop}
    (hx : XUpgrade K modules others plan done) {T : Int} {start s : Chain W} {steps : List Step}
    (hstart : start.Enters plan T)
    (run : Trace (Step.RunsTimely K modules others done) start steps s)
    {ctx : Ctx} (hnext : s.Next ctx) :
    (∀ u p, Returns (scheduleForkUpgrade K ctx) s.store () u → shouldUpgrade ctx u = some p →
        ∃ w, Returns (K.upgrade.scheduleUpgrade ctx p) u.sdk () w) ∧
      (∀ f v, Fails (schedulePlans K ctx) s.store f v →
        Fails (scheduleForkUpgrade K ctx) s.store f v) ∧
      (T < ctx.blockHeight → ∃ v, Returns (schedulePlans K ctx) s.store () v) := by
  have hs : s.Safe K plan done T := hstart.safe.run hx run
  refine ⟨?_, ?_, ?_⟩
  · intro u p hf hp
    exact hs.schedules hx hnext hf hp
  · intro f v h
    exact hs.fails_schedulePlans hx hnext h
  · exact hs.returns_schedulePlans hx hnext

/-- A plan for block 52, accepted in block 51, is due in block 52 and handed over. -/
theorem test_upgrade_handed_over :
    ∃ s : Chain Ledger,
      Trace (Step.RunsTimely Ledger.keepers Ledger.preBlock SameUpgrades fun l n => n ∈ l.done)
        testChain
        [.preBlock (testBlock 51), .event (.softwareUpgrade (testUpgrade 52))] s ∧
      shouldUpgrade (testBlock 52) s.store = some (testUpgrade 52).plan ∧
      ∃ v, Returns (schedulePlans Ledger.keepers (testBlock 52)) s.store () v := by
  obtain ⟨hblock, hevent⟩ := testChain_block (show (51 : Int) ≤ 52 by decide)
  have hfirst : Step.RunsTimely Ledger.keepers Ledger.preBlock SameUpgrades
      (fun l n => n ∈ l.done) (.preBlock (testBlock 51)) _ _ := ⟨trivial, hblock⟩
  have hsecond : Step.RunsTimely Ledger.keepers Ledger.preBlock SameUpgrades
      (fun l n => n ∈ l.done) (.event (.softwareUpgrade (testUpgrade 52))) _ _ :=
    ⟨fun _ _ => ⟨by decide, by simp [Ledger.empty]⟩, hevent⟩
  have run := (Trace.nil.snoc hfirst).snoc hsecond
  have hnext : (⟨testBlock 51, ⟨some (testUpgrade 52).plan, .empty⟩⟩ : Chain Ledger).Next
      (testBlock 52) := ⟨rfl, rfl⟩
  have hmain := timely_upgrades_never_stop_preBlocker ledger_xUpgrade testChain_enters run hnext
  exact ⟨_, run, rfl, hmain.2.2 (by decide)⟩

/-- A plan for block 51 is accepted in block 51, and block 52 never starts: `x/upgrade`
refuses a plan for a block that is over, and the pre-blocker returns its error. -/
theorem own_block_upgrade_stops_chain :
    ∃ s : Chain Ledger, testChain.Enters Ledger.plan 50 ∧
      Trace (Step.Runs Ledger.keepers Ledger.preBlock SameUpgrades) testChain
        [.preBlock (testBlock 51), .event (.softwareUpgrade (testUpgrade 51))] s ∧
      s.store.pendingUpgrade = some (testUpgrade 51).plan ∧
      ∃ e t, s.Next (testBlock 52) ∧
        Fails (preBlocker Ledger.keepers Ledger.preBlock (testBlock 52)) s.store
          (.err ((GoError.ofSdk e).wrap "failed to schedule upgrade")) t := by
  obtain ⟨hblock, hevent⟩ := testChain_block (show (51 : Int) ≤ 51 by decide)
  have run := (Trace.nil.snoc hblock).snoc hevent
  have hT : getUpgradeHeight (testBlock 52).chainID terence = .ok 50 := rfl
  have hpending : (⟨some (testUpgrade 51).plan, .empty⟩ : UpgradeState Ledger).pendingUpgrade =
      some (testUpgrade 51).plan := rfl
  obtain ⟨e, t, hfails⟩ := fails_preBlocker_of_refused ledger_xUpgrade hT (by decide) hpending
    (by decide) (.inl (by decide))
  exact ⟨_, testChain_enters, run, rfl, e, t, ⟨rfl, rfl⟩, hfails⟩

end Story.App
