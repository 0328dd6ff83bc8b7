/-
# Story.Evm.Call -- calls that revert, and callees that call back

A function of a contract is a program on the contract's account; a revert is a failing
end. A message call either succeeds or is undone as a whole, and the caller sees which
(`tryCall`). When a contract sends value to an address, the code there may do anything
to the contract before it returns: call its functions, from any address, and have value
sent to it, which may set off other code in turn. Such behaviour, and that of the whole
outside world over many transactions, is a `Script`; `perform` runs one. A family of
invariants that every function keeps, given that the code it sends value to keeps
them, is kept by every script.
-/
import Story.Effect.Moves

namespace Story.Evm

open Story.Effect

variable {σ α Addr Fn : Type}

/-! ## Programs that revert -/

/-- A program of a contract; it stops with the reason of a revert. -/
abbrev Tx (σ α : Type) := EStateM String σ α

def require (c : Prop) [Decidable c] (reason : String) : Tx σ Unit :=
  if c then pure () else throw reason

@[simp] theorem returns_require {c : Prop} [Decidable c] {reason : String} {s t : σ} {u : Unit} :
    Returns (require c reason) s u t ↔ c ∧ s = t := by
  unfold require
  split <;> simp_all

instance readOnly_require (c : Prop) [Decidable c] (reason : String) :
    ReadOnly (require c reason : Tx σ Unit) := ReadOnly.ite _ _ _

/-- A message call: all of it happens, or nothing. -/
def tryCall (x : Tx σ Unit) : Tx σ Bool := fun s =>
  match x.run s with
  | .ok _ t => .ok true t
  | .error _ _ => .ok false s

@[simp] theorem returns_tryCall_true {x : Tx σ Unit} {s t : σ} :
    Returns (tryCall x) s true t ↔ Returns x s () t := by
  simp only [returns_iff, EStateM.run, tryCall]
  cases h : x s <;> simp

theorem returns_tryCall_false {x : Tx σ Unit} {s t : σ} (h : Returns (tryCall x) s false t) :
    s = t := by
  simp only [returns_iff, EStateM.run, tryCall] at h
  cases hx : x s with
  | ok u s' => simp [hx] at h
  | error e s' => simpa [hx] using h

/-- The state a program returns in, if it does. -/
def finalState (x : Tx σ Unit) (s : σ) : Option σ :=
  match x.run s with
  | .ok _ t => some t
  | .error _ _ => none

theorem returns_of_finalState {x : Tx σ Unit} {s t : σ} (h : finalState x s = some t) :
    Returns x s () t := by
  unfold finalState at h
  rw [returns_iff]
  split at h
  next hx => rw [hx, Option.some.inj h]
  next => cases h

/-- Adding `uint256` values, with the check of the compiler. -/
def checkedAdd (a b : Nat) : Tx σ Nat :=
  if a + b < 2 ^ 256 then pure (a + b) else throw "arithmetic overflow"

/-- Subtracting `uint256` values, with the check of the compiler. -/
def checkedSub (a b : Nat) : Tx σ Nat :=
  if b ≤ a then pure (a - b) else throw "arithmetic underflow"

@[simp] theorem returns_checkedAdd {a b c : Nat} {s t : σ} :
    Returns (checkedAdd a b) s c t ↔ a + b < 2 ^ 256 ∧ a + b = c ∧ s = t := by
  unfold checkedAdd
  split <;> simp_all

@[simp] theorem returns_checkedSub {a b c : Nat} {s t : σ} :
    Returns (checkedSub a b) s c t ↔ b ≤ a ∧ a - b = c ∧ s = t := by
  unfold checkedSub
  split <;> simp_all

/-! ## Modifiers -/

/-- `onlyOwner` of a contract that keeps its owner in `owner`. -/
def onlyOwner [DecidableEq Addr] (owner : σ → Addr) (sender : Addr) : Tx σ Unit := do
  let s ← get
  require (owner s = sender) "OwnableUnauthorizedAccount"

instance readOnly_onlyOwner [DecidableEq Addr] (owner : σ → Addr) (sender : Addr) :
    ReadOnly (onlyOwner owner sender) := ReadOnly.bind _ _

/-- `nonReentrant` of a contract with the guard `guard`, which is up while the body runs. -/
def nonReentrant (guard : Lens σ Bool) (body : Tx σ Unit) : Tx σ Unit := do
  let s ← get
  require (guard.view s = false) "ReentrancyGuardReentrantCall"
  modify (guard.put true)
  body
  modify (guard.put false)

theorem returns_nonReentrant {guard : Lens σ Bool} {body : Tx σ Unit} {s t : σ} {u : Unit} :
    Returns (nonReentrant guard body) s u t ↔ guard.view s = false ∧
      ∃ q, Returns body (guard.put true s) () q ∧ t = guard.put false q := by
  simp only [nonReentrant, returns_bind, returns_get, returns_require, returns_modify]
  constructor
  · rintro ⟨_, _, ⟨rfl, rfl⟩, _, _, ⟨hdown, rfl⟩, _, _, rfl, _, q, hbody, rfl⟩
    exact ⟨hdown, q, hbody, rfl⟩
  · rintro ⟨hdown, q, hbody, rfl⟩
    exact ⟨s, s, ⟨rfl, rfl⟩, (), s, ⟨hdown, rfl⟩, (), _, rfl, (), q, hbody, rfl⟩

/-! ## The outside world -/

/-- What happens to a contract: value is credited to it without a call, a function of it is
called with some value, or several of its functions are called in one batch. `reaction` is
what the code at the receiving end does when the function sends value. -/
inductive Script (Addr Fn : Type)
  | done
  | revert
  | credit (amount : Nat) (next : Script Addr Fn)
  | call (sender : Addr) (value : Nat) (fn : Fn) (reaction next : Script Addr Fn)
  | multicall (sender : Addr) (body next : Script Addr Fn)

/-- A contract: what a call of a function does, given what the code does to which it sends
value; what a credit does; and whether it has a `multicall`. -/
structure Contract (Addr Fn σ : Type) where
  exec : Addr → Nat → Fn → Tx σ Unit → Tx σ Unit
  credit : Nat → σ → σ
  multicall : Bool

namespace Contract

variable (C : Contract Addr Fn σ)

/-- Run a script. The outside world goes on when a call of it reverts; the calls of a batch
are made for one sender, without value, and one that reverts undoes the batch. -/
def perform : Option Addr → Script Addr Fn → Tx σ Unit
  | _, .done => pure ()
  | _, .revert => throw "reverted"
  | batch, .credit amount next => do
      modify (C.credit amount)
      perform batch next
  | none, .call sender value fn reaction next => do
      let _ ← tryCall (C.exec sender value fn (perform none reaction))
      perform none next
  | some sender, .call _ _ fn reaction next => do
      C.exec sender 0 fn (perform none reaction)
      perform (some sender) next
  | none, .multicall sender body next => do
      let _ ← tryCall (do
        require C.multicall "no such function"
        perform (some sender) body)
      perform none next
  | some sender, .multicall _ body next => do
      perform (some sender) body
      perform (some sender) next

end Contract

/-! ## Invariants -/

/-- A program that is started under `I` and returns does so under `I`. -/
def Keeps (I : σ → Prop) (x : Tx σ α) : Prop := ∀ s a t, I s → Returns x s a t → I t

theorem Keeps.bind {β : Type} {I : σ → Prop} {x : Tx σ α} {f : α → Tx σ β} (hx : Keeps I x)
    (hf : ∀ a, Keeps I (f a)) : Keeps I (x >>= f) := by
  intro s b t hs h
  obtain ⟨a, s', h₁, h₂⟩ := returns_bind.mp h
  exact hf a _ _ _ (hx _ _ _ hs h₁) h₂

theorem Keeps.readOnly {I : σ → Prop} {x : Tx σ α} [ReadOnly x] : Keeps I x := by
  intro s a t hs h
  rw [ReadOnly.returns s a t h]
  exact hs

theorem Keeps.modify {I : σ → Prop} {f : σ → σ} (h : ∀ s, I s → I (f s)) :
    Keeps I (modify f : Tx σ PUnit) := by
  intro s u t hs hret
  exact returns_modify.mp hret ▸ h s hs

theorem Keeps.ite {I : σ → Prop} {c : Prop} [Decidable c] {x y : Tx σ α} (hx : Keeps I x)
    (hy : Keeps I y) : Keeps I (if c then x else y) := by
  split
  · exact hx
  · exact hy

/-- A call keeps what the callee keeps, also when it is undone. -/
theorem Keeps.tryCall {I : σ → Prop} {x : Tx σ Unit} (hx : Keeps I x) : Keeps I (tryCall x) := by
  intro s b t hs h
  cases b with
  | true => exact hx _ _ _ hs (returns_tryCall_true.mp h)
  | false => exact returns_tryCall_false h ▸ hs

/-- **Scripts keep what the functions keep.** The family lets a function send value in a
state in which another invariant holds than the one it started from. -/
theorem Contract.perform_keeps {ι : Type} {I : ι → σ → Prop} (C : Contract Addr Fn σ)
    (hcredit : ∀ i n s, I i s → I i (C.credit n s))
    (hexec : ∀ sender value fn pay, (∀ i, Keeps (I i) pay) →
      ∀ i, Keeps (I i) (C.exec sender value fn pay))
    (script : Script Addr Fn) (batch : Option Addr) (i : ι) :
    Keeps (I i) (C.perform batch script) := by
  induction script generalizing batch i with
  | done =>
      intro s u t hs h
      unfold perform at h
      exact (returns_pure.mp h).2 ▸ hs
  | revert =>
      intro s u t _ h
      unfold perform at h
      exact absurd h returns_throw
  | credit amount next ih =>
      unfold perform
      exact Keeps.bind (.modify (hcredit i amount)) fun _ => ih batch i
  | call sender value fn reaction next ih ih' =>
      cases batch with
      -- a call that reverts is undone, unless it is one of a batch, which reverts with it
      | none =>
          unfold perform
          exact Keeps.bind (.tryCall (hexec _ _ _ _ (ih none) i)) fun _ => ih' none i
      | some sender =>
          unfold perform
          exact Keeps.bind (hexec _ _ _ _ (ih none) i) fun _ => ih' (some sender) i
  | multicall sender body next ih ih' =>
      cases batch with
      | none =>
          unfold perform
          exact Keeps.bind (.tryCall (Keeps.bind .readOnly fun _ => ih (some sender) i))
            fun _ => ih' none i
      | some sender =>
          unfold perform
          exact Keeps.bind (ih (some sender) i) fun _ => ih' (some sender) i

end Story.Evm
