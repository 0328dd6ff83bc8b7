/-
# Story.Evm.Frames -- execution in single steps, with the open calls on a stack

`Story.Evm.Call` says how a script ends. To speak about every point on the way, also
inside a callback and also in a call that is undone later, the calls that are open are
kept on a stack: code of others, which may do anything; code of the contract that runs;
and code of the contract that has sent value and waits for the receiver. Each frame
keeps the account as it was when the frame was opened, for the case that it reverts.

The code of a contract is made of actions, each in one piece, and sends. It is `Safe` when
its actions lead from one invariant of a family to another, and it hands over, and ends,
under the one that holds at rest. Then every point of every execution has an invariant of
the family, and at every point at which others run it is the one at rest.
-/
import Story.Evm.Call

namespace Story.Evm

open Story.Effect Relation

variable {Addr Fn σ α β ι : Type}

/-! ## Code -/

/-- The code of a contract. What follows a send depends on whether it succeeded. -/
inductive Code (Addr σ α : Type)
  | stop (a : α)
  | revert (reason : String)
  | act (action : Tx σ Unit) (next : Code Addr σ α)
  | send (recipient : Addr) (amount : Nat) (next : Bool → Code Addr σ α)

namespace Code

def bind : Code Addr σ α → (α → Code Addr σ β) → Code Addr σ β
  | .stop a, f => f a
  | .revert reason, _ => .revert reason
  | .act action next, f => .act action (next.bind f)
  | .send recipient amount next, f => .send recipient amount fun success => (next success).bind f

instance : Monad (Code Addr σ) where
  pure := .stop
  bind := bind

/-- One action. -/
def run (action : Tx σ Unit) : Code Addr σ Unit := .act action (.stop ())

/-- One send, and whether it succeeded. -/
def call (recipient : Addr) (amount : Nat) : Code Addr σ Bool := .send recipient amount .stop

end Code

/-- A contract: the code of its functions, its balance, and what becomes of its account when
value comes with a call, when it sends value, and when value comes without a call. -/
structure Program (Addr Fn σ : Type) where
  code : Addr → Nat → Fn → Code Addr σ Unit
  balance : σ → Nat
  received : Addr → Nat → σ → σ
  paid : Addr → Nat → σ → σ
  gift : Nat → σ → σ

/-! ## Steps -/

/-- An open call, with the account as it was when the call was made. -/
inductive Frame (Addr σ : Type)
  | outside (before : σ)
  | running (before : σ) (code : Code Addr σ Unit)
  | waiting (before : σ) (next : Bool → Code Addr σ Unit)

/-- A point of an execution; the innermost call comes first. -/
structure Point (Addr σ : Type) where
  state : σ
  frames : List (Frame Addr σ)

/-- No code of the contract is running: it is between transactions, or the code of others
has control. -/
def Open : List (Frame Addr σ) → Prop
  | [] => True
  | .outside _ :: _ => True
  | _ => False

/-- The code of the contract goes on after a send; other code just goes on. -/
def resume (success : Bool) : List (Frame Addr σ) → List (Frame Addr σ)
  | .waiting before next :: frames => .running before (next success) :: frames
  | frames => frames

/-- One step of an execution in which value without a call comes in amounts of `gifts`. -/
inductive Step (C : Program Addr Fn σ) (gifts : Nat → Prop) : Point Addr σ → Point Addr σ → Prop
  /-- A transaction begins, or code of others calls code of others. -/
  | enter {s : σ} {frames : List (Frame Addr σ)} (h : Open frames) :
      Step C gifts ⟨s, frames⟩ ⟨s, .outside s :: frames⟩
  | gift {s : σ} {frames : List (Frame Addr σ)} {amount : Nat} (h : Open frames)
      (hgift : gifts amount) : Step C gifts ⟨s, frames⟩ ⟨C.gift amount s, frames⟩
  | call {s before : σ} {frames : List (Frame Addr σ)} (sender : Addr) (value : Nat) (fn : Fn) :
      Step C gifts ⟨s, .outside before :: frames⟩
        ⟨C.received sender value s,
          .running s (C.code sender value fn) :: .outside before :: frames⟩
  | act {s t before : σ} {action : Tx σ Unit} {next : Code Addr σ Unit}
      {frames : List (Frame Addr σ)} (h : Returns action s () t) :
      Step C gifts ⟨s, .running before (.act action next) :: frames⟩
        ⟨t, .running before next :: frames⟩
  | stop {s before : σ} {frames : List (Frame Addr σ)} :
      Step C gifts ⟨s, .running before (.stop ()) :: frames⟩ ⟨s, frames⟩
  /-- The code reverts, an action of it fails, or the gas is used up. -/
  | abort {s before : σ} {code : Code Addr σ Unit} {frames : List (Frame Addr σ)} :
      Step C gifts ⟨s, .running before code :: frames⟩ ⟨before, frames⟩
  | send {s before : σ} {recipient : Addr} {amount : Nat} {next : Bool → Code Addr σ Unit}
      {frames : List (Frame Addr σ)} (h : amount ≤ C.balance s) :
      Step C gifts ⟨s, .running before (.send recipient amount next) :: frames⟩
        ⟨C.paid recipient amount s, .outside s :: .waiting before next :: frames⟩
  /-- The balance does not suffice, or the stack is as deep as it may be. -/
  | refuse {s before : σ} {recipient : Addr} {amount : Nat} {next : Bool → Code Addr σ Unit}
      {frames : List (Frame Addr σ)} :
      Step C gifts ⟨s, .running before (.send recipient amount next) :: frames⟩
        ⟨s, .running before (next false) :: frames⟩
  | leave {s before : σ} {frames : List (Frame Addr σ)} :
      Step C gifts ⟨s, .outside before :: frames⟩ ⟨s, resume true frames⟩
  | undo {s before : σ} {frames : List (Frame Addr σ)} :
      Step C gifts ⟨s, .outside before :: frames⟩ ⟨before, resume false frames⟩

/-! ## Safe code -/

section Safe

variable (C : Program Addr Fn σ) (I : ι → σ → Prop) (rest : ι)

/-- Started under the invariant `i`, the code ends and hands over under the one at rest, and
never sends more than there is. -/
inductive Safe : ι → Code Addr σ Unit → Prop
  | stop : Safe rest (.stop ())
  | revert {i : ι} {reason : String} : Safe i (.revert reason)
  | act {i j : ι} {action : Tx σ Unit} {next : Code Addr σ Unit}
      (haction : ∀ s t, I i s → Returns action s () t → I j t) (hnext : Safe j next) :
      Safe i (.act action next)
  | send {i : ι} {recipient : Addr} {amount : Nat} {next : Bool → Code Addr σ Unit}
      (hcovered : ∀ s, I i s → amount ≤ C.balance s)
      (hpaid : ∀ s, I i s → I rest (C.paid recipient amount s))
      (hsuccess : Safe rest (next true)) (hfailure : Safe i (next false)) :
      Safe i (.send recipient amount next)

/-- The stack is safe to go on with under the invariant `i`. -/
inductive SafeFrames : ι → List (Frame Addr σ) → Prop
  | nil : SafeFrames rest []
  | outside {before : σ} {frames : List (Frame Addr σ)} (hbefore : I rest before)
      (hframes : SafeFrames rest frames) : SafeFrames rest (.outside before :: frames)
  | callback {i : ι} {sent before : σ} {next : Bool → Code Addr σ Unit}
      {frames : List (Frame Addr σ)} (hsent : I i sent) (hfailure : Safe C I rest i (next false))
      (hsuccess : Safe C I rest rest (next true)) (hbefore : I rest before)
      (hframes : SafeFrames rest frames) :
      SafeFrames rest (.outside sent :: .waiting before next :: frames)
  | running {i : ι} {before : σ} {code : Code Addr σ Unit} {frames : List (Frame Addr σ)}
      (hcode : Safe C I rest i code) (hbefore : I rest before)
      (hframes : SafeFrames rest frames) : SafeFrames i (.running before code :: frames)

/-- A contract all functions of which are safe from the moment their value has come in. -/
structure Guarded (gifts : Nat → Prop) : Prop where
  call : ∀ sender value fn s, I rest s →
    ∃ i, I i (C.received sender value s) ∧ Safe C I rest i (C.code sender value fn)
  gift : ∀ amount s, gifts amount → I rest s → I rest (C.gift amount s)

end Safe

variable {C : Program Addr Fn σ} {I : ι → σ → Prop} {rest i : ι} {gifts : Nat → Prop}
  {frames : List (Frame Addr σ)}

/-- Others have control under the invariant at rest only. -/
theorem SafeFrames.eq_rest (h : SafeFrames C I rest i frames) (hopen : Open frames) :
    i = rest := by
  cases h with
  | nil => rfl
  | outside => rfl
  | callback => rfl
  | running => exact hopen.elim

/-- A stack on which nothing waits goes on as it is. -/
theorem SafeFrames.resume_eq (h : SafeFrames C I rest i frames) (success : Bool) :
    resume success frames = frames := by
  cases h <;> rfl

/-- What the contract is about to send is there. -/
theorem SafeFrames.covered {s before : σ} {recipient : Addr} {amount : Nat}
    {next : Bool → Code Addr σ Unit} (hs : I i s)
    (h : SafeFrames C I rest i (.running before (.send recipient amount next) :: frames)) :
    amount ≤ C.balance s := by
  cases h with
  | running hcode => cases hcode with
    | send hcovered => exact hcovered s hs

/-- A point of an execution that is as it should be. -/
def Point.Sound (C : Program Addr Fn σ) (I : ι → σ → Prop) (rest : ι) (p : Point Addr σ) : Prop :=
  ∃ i, I i p.state ∧ SafeFrames C I rest i p.frames

/-- **One step** of an execution of a guarded contract. -/
theorem Guarded.step (h : Guarded C I rest gifts) {p q : Point Addr σ} (hp : p.Sound C I rest)
    (hstep : Step C gifts p q) : q.Sound C I rest := by
  obtain ⟨i, hs, hframes⟩ := hp
  cases hstep with
  | enter hopen =>
      obtain rfl := hframes.eq_rest hopen
      exact ⟨i, hs, .outside hs hframes⟩
  | gift hopen hgift =>
      obtain rfl := hframes.eq_rest hopen
      exact ⟨i, h.gift _ _ hgift hs, hframes⟩
  | call sender value fn =>
      obtain rfl := hframes.eq_rest trivial
      obtain ⟨j, hj, hcode⟩ := h.call sender value fn _ hs
      exact ⟨j, hj, .running hcode hs hframes⟩
  | act hret => cases hframes with
    | running hcode hbefore hrest => cases hcode with
      | act haction hnext => exact ⟨_, haction _ _ hs hret, .running hnext hbefore hrest⟩
  | stop => cases hframes with
    | running hcode _ hrest => cases hcode with
      | stop => exact ⟨_, hs, hrest⟩
  -- a frame that ends early goes back to the state it was opened in
  | abort => cases hframes with
    | running _ hbefore hrest => exact ⟨rest, hbefore, hrest⟩
  | send _ => cases hframes with
    | running hcode hbefore hrest => cases hcode with
      | send _ hpaid hsuccess hfailure =>
          exact ⟨rest, hpaid _ hs, .callback hs hfailure hsuccess hbefore hrest⟩
  | refuse => cases hframes with
    | running hcode hbefore hrest => cases hcode with
      | send _ _ _ hfailure => exact ⟨i, hs, .running hfailure hbefore hrest⟩
  -- the code that was called is done: an outer call, or the receiver of a send
  | leave => cases hframes with
    | outside _ hrest => exact ⟨rest, hs, (hrest.resume_eq true).symm ▸ hrest⟩
    | callback _ _ hsuccess hbefore hrest => exact ⟨rest, hs, .running hsuccess hbefore hrest⟩
  | undo => cases hframes with
    | outside hbefore hrest => exact ⟨rest, hbefore, (hrest.resume_eq false).symm ▸ hrest⟩
    | callback hsent hfailure _ hbefore hrest =>
        exact ⟨_, hsent, .running hfailure hbefore hrest⟩

/-- **Every point** of an execution that starts between transactions. -/
theorem Guarded.sound (h : Guarded C I rest gifts) {s : σ} {p : Point Addr σ} (hs : I rest s)
    (hrun : ReflTransGen (Step C gifts) ⟨s, []⟩ p) : p.Sound C I rest := by
  induction hrun with
  | refl => exact ⟨rest, hs, .nil⟩
  | tail _ hstep ih => exact h.step ih hstep

end Story.Evm
