/-
# Story.EvmStaking.Run -- runs of the staking module

From block to block the module handles events, ends blocks, and hands out the
withdrawals of a finalized payload from its two queues. A step that stops is rolled
back: the event handlers see to that themselves, and a block that stops is never
committed. A run is a list of such steps, each with what came of it. How a block ends is left
open at first: a run of the module ends its blocks with `EndBlock`.
-/
import Story.Effect.Trace
import Story.EvmStaking.Addresses

namespace Story.EvmStaking

open Story.Effect Story.Errors Story.Sdk Story.Collections Story.Eth

variable {W β : Type}

/-- What the module does; `β` is what the end of a block is given. -/
inductive Action (β : Type)
  | event (ctx : Ctx) (ev : StakingEvent)
  | blockEnd (b : β)
  | dequeueWithdrawals (maxDequeue : UInt32)
  | dequeueRewardWithdrawals (maxDequeue : UInt32)

/-- The program of an action, with the withdrawals it hands out; `finish` ends a block. -/
def Action.prog (K : Keepers W) (finish : β → Prog (Store W) Unit) :
    Action β → Prog (Store W) (List Eth.Withdrawal)
  | .event ctx ev => do
      zoom accountsLens (handle K ctx ev)
      return []
  | .blockEnd b => do
      finish b
      return []
  | .dequeueWithdrawals maxDequeue => dequeueEligibleWithdrawals K.codec maxDequeue
  | .dequeueRewardWithdrawals maxDequeue => dequeueEligibleRewardWithdrawals K.codec maxDequeue

/-- An action and what came of it: the withdrawals handed out, or nothing when it stopped. -/
structure Step (β : Type) where
  action : Action β
  result : Option (List Eth.Withdrawal)

/-- The step leads from `s` to `t`. -/
def Step.Takes (K : Keepers W) (finish : β → Prog (Store W) Unit) (a : Step β) (s t : Store W) :
    Prop :=
  match a.result with
  | some out => Returns (a.action.prog K finish) s out t
  | none => (∃ f t', Fails (a.action.prog K finish) s f t') ∧ t = s

/-- A run of the module. -/
abbrev Run (K : Keepers W) (s : Store W) (steps : List (Step Ctx)) (t : Store W) : Prop :=
  Trace (Step.Takes K (endBlock K)) s steps t

variable {finish : β → Prog (Store W) Unit}

@[simp] theorem returns_prog_event {K : Keepers W} {ctx : Ctx} {ev : StakingEvent} {s t : Store W}
    {out : List Eth.Withdrawal} :
    Returns ((Action.event ctx ev).prog K finish) s out t ↔
      ∃ a, Returns (handle K ctx ev) s.accounts () a ∧ t = { s with accounts := a } ∧ out = [] := by
  simp only [Action.prog, returns_bind, returns_zoom, returns_pure]
  constructor
  · rintro ⟨_, _, ⟨a, ha, rfl⟩, rfl, rfl⟩
    exact ⟨a, ha, rfl, rfl⟩
  · rintro ⟨a, ha, rfl, rfl⟩
    exact ⟨(), _, ⟨a, ha, rfl⟩, rfl, rfl⟩

@[simp] theorem returns_prog_blockEnd {K : Keepers W} {b : β} {s t : Store W}
    {out : List Eth.Withdrawal} :
    Returns ((Action.blockEnd b).prog K finish) s out t ↔
      Returns (finish b) s () t ∧ out = [] := by
  simp only [Action.prog, returns_bind, returns_pure]
  constructor
  · rintro ⟨_, _, h, rfl, rfl⟩
    exact ⟨h, rfl⟩
  · rintro ⟨h, rfl⟩
    exact ⟨(), t, h, rfl, rfl⟩

/-- What every action that returns keeps, every step keeps. -/
theorem Step.Takes.keeps {K : Keepers W} {I : Store W → Prop}
    (h : ∀ (action : Action β) s out t, I s → Returns (action.prog K finish) s out t → I t)
    {a : Step β} {s t : Store W} (hs : I s) (ha : a.Takes K finish s t) : I t := by
  unfold Step.Takes at ha
  split at ha
  · exact h _ _ _ _ hs ha
  · exact ha.2 ▸ hs

end Story.EvmStaking
