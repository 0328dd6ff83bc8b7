/-
# Story.Errors -- error values of `lib/errors`, and calls that may panic

A Go error is read in two ways only: its text, and the sentinels `errors.Is` finds
in its chain. So an error is modelled as a text with the list of sentinels in it.
`Wrap` puts a text in front and keeps the sentinels; `WrapErrWithCode` joins the
sentinel of an error code to them. Stack traces and the structured log attributes
are not part of the text and nothing reads them back, so they are left out.

A call of the program is an `EStateM` over a `Fault`: it stops with an error value
it returned, or with a panic. A call into the Cosmos SDK stops with an `SdkFault`,
whose errors carry SDK sentinels only.
-/
import Story.Effect.Moves

namespace Story.Errors

open Story.Effect

/-! ## Error codes -/

/-- The `ErrCode` constants of `lib/errors/codes.go`, in the order of their numbers. -/
inductive ErrCode
  | unspecified
  | unexpectedCondition
  | invalidCmpPubKey
  | validatorNotFound
  | validatorAlreadyExists
  | invalidTokenType
  | invalidOperator
  | invalidCommissionRate
  | invalidMinSelfDelegation
  | invalidPeriodType
  | invalidDelegationAmount
  | delegationNotFound
  | periodDelegationNotFound
  | invalidRequest
  | selfRedelegation
  | tokenTypeMismatch
  | missingSelfDelegation
  | validatorNotJailed
  | validatorStillJailed
  | pendingUpgradeExists
  deriving DecidableEq, Repr

/-- The texts of the `Err...` values of `codeToErr`. -/
def ErrCode.string : ErrCode → String
  | .unspecified => "unspecified"
  | .unexpectedCondition => "unexpected_condition"
  | .invalidCmpPubKey => "invalid_compressed_pubkey"
  | .validatorNotFound => "validator_not_found"
  | .validatorAlreadyExists => "validator_already_exists"
  | .invalidTokenType => "invalid_token_type"
  | .invalidOperator => "invalid_operator"
  | .invalidCommissionRate => "invalid_commission_rate"
  | .invalidMinSelfDelegation => "invalid_min_self_delegation"
  | .invalidPeriodType => "invalid_period_type"
  | .invalidDelegationAmount => "invalid_delegation_amount"
  | .delegationNotFound => "delegation_not_found"
  | .periodDelegationNotFound => "period_delegation_not_found"
  | .invalidRequest => "invalid_request"
  | .selfRedelegation => "self_redelegation"
  | .tokenTypeMismatch => "token_type_mismatch"
  | .missingSelfDelegation => "missing_self_delegation"
  | .validatorNotJailed => "validator_not_jailed"
  | .validatorStillJailed => "validator_still_jailed"
  | .pendingUpgradeExists => "pending_upgrade_exists"

/-! ## Sentinels -/

/-- The sentinel errors of the Cosmos SDK modules that the program tests for. -/
inductive SdkSentinel
  | noValidatorFound
  | selfRedelegation
  | tokenTypeMismatch
  | noDelegation
  | noPeriodDelegation
  | delegationBelowMinimum
  | noPeriodTypeFound
  | validatorOwnerExists
  | commissionLTMinRate
  | minSelfDelegationBelowMinDelegation
  | noTokenTypeFound
  | noValidatorForAddress
  | missingSelfDelegation
  | validatorNotJailed
  | validatorJailed
  | noValidatorCommission
  | invalidRequest
  deriving DecidableEq, Repr

/-- The sentinels an error of the program can carry. `notFound c` is
`collections.ErrNotFound`, raised by the collection named `c`. -/
inductive Sentinel
  | sdk (e : SdkSentinel)
  | code (c : ErrCode)
  | notFound (collection : String)
  | emptyQueue
  | outOfBoundsQueue
  | upgradePending
  deriving DecidableEq, Repr

/-- An error of an SDK call. -/
structure SdkError where
  msg : String
  is : List SdkSentinel
  deriving DecidableEq, Repr

/-- An error of the program: its text, and the sentinels `errors.Is` finds in it. -/
structure GoError where
  msg : String
  is : List Sentinel
  deriving DecidableEq, Repr

namespace GoError

/-- `errors.New`. -/
def new (msg : String) : GoError := ⟨msg, []⟩

/-- `errors.Wrap`. -/
def wrap (err : GoError) (msg : String) : GoError := ⟨msg ++ ": " ++ err.msg, err.is⟩

/-- `errors.WrapErrWithCode`, a `stderrors.Join` of the code's error and `err`. -/
def wrapErrWithCode (code : ErrCode) (err : GoError) : GoError :=
  ⟨code.string ++ "\n" ++ err.msg, .code code :: err.is⟩

/-- `errors.Is` for the sentinels of the model. -/
def isA (err : GoError) (target : Sentinel) : Bool := err.is.contains target

/-- `errors.Is(err, collections.ErrNotFound)`. -/
def isNotFound (err : GoError) : Bool :=
  err.is.any fun | .notFound _ => true | _ => false

/-- An error that came out of an SDK call. -/
def ofSdk (err : SdkError) : GoError := ⟨err.msg, err.is.map .sdk⟩

end GoError

/-! ## Calls -/

/-- How a call of the program stops early. `retrying` is not an outcome of the code:
it says that a retry loop was still going when the model's fuel ran out. -/
inductive Fault
  | err (e : GoError)
  | panic (why : String)
  | retrying
  deriving DecidableEq, Repr

/-- How an SDK call stops early. -/
inductive SdkFault
  | err (e : SdkError)
  | panic (why : String)
  deriving DecidableEq, Repr

/-- A call of the program on a state `σ`. -/
abbrev Prog (σ α : Type) := EStateM Fault σ α

/-- A call into the SDK on a state `σ`. -/
abbrev SdkProg (σ α : Type) := EStateM SdkFault σ α

variable {σ τ α : Type}

/-- Return an error value. -/
def fail (e : GoError) : Prog σ α := throw (.err e)

/-- The Go statement `panic(why)`, or a runtime panic. -/
def goPanic (why : String) : Prog σ α := throw (.panic why)

/-- Change the error value of a fault; a panic carries none. -/
def Fault.mapErr (f : GoError → GoError) : Fault → Fault
  | .err e => .err (f e)
  | .panic why => .panic why
  | .retrying => .retrying

/-- `if err != nil { return errors.Wrap(err, msg) }` after a call. -/
def wrapErr (msg : String) (x : Prog σ α) : Prog σ α :=
  mapError (Fault.mapErr fun e => e.wrap msg) x

/-- `v, err := x()`: the error becomes a value, a panic goes on. -/
def attempt (x : Prog σ α) : Prog σ (Except GoError α) :=
  catching (fun | .err e => some e | _ => none) x

/-- An SDK fault as a fault of the program. -/
def Fault.ofSdk : SdkFault → Fault
  | .err e => .err (.ofSdk e)
  | .panic why => .panic why

/-- Call into the SDK. -/
def sdk (x : SdkProg σ α) : Prog σ α := mapError Fault.ofSdk x

/-- A function that returns a value or an error, as a call. -/
def ofExcept (r : Except GoError α) : Prog σ α :=
  match r with
  | .ok a => pure a
  | .error e => fail e

/-! ### What such calls return, and how they stop -/

@[simp] theorem returns_fail {e : GoError} {s t : σ} {a : α} :
    ¬ Returns (fail e : Prog σ α) s a t := returns_throw

@[simp] theorem fails_fail {e : GoError} {f : Fault} {s t : σ} :
    Fails (fail e : Prog σ α) s f t ↔ .err e = f ∧ s = t := fails_throw

@[simp] theorem returns_goPanic {why : String} {s t : σ} {a : α} :
    ¬ Returns (goPanic why : Prog σ α) s a t := returns_throw

@[simp] theorem fails_goPanic {why : String} {f : Fault} {s t : σ} :
    Fails (goPanic why : Prog σ α) s f t ↔ .panic why = f ∧ s = t := fails_throw

@[simp] theorem returns_wrapErr {msg : String} {x : Prog σ α} {s t : σ} {a : α} :
    Returns (wrapErr msg x) s a t ↔ Returns x s a t := returns_mapError

@[simp] theorem fails_wrapErr {msg : String} {x : Prog σ α} {s t : σ} {f : Fault} :
    Fails (wrapErr msg x) s f t ↔
      ∃ f₀, Fails x s f₀ t ∧ f₀.mapErr (fun e => e.wrap msg) = f := fails_mapError

@[simp] theorem returns_sdk {x : SdkProg σ α} {s t : σ} {a : α} :
    Returns (sdk x) s a t ↔ Returns x s a t := returns_mapError

@[simp] theorem fails_sdk {x : SdkProg σ α} {s t : σ} {f : Fault} :
    Fails (sdk x) s f t ↔ ∃ f₀, Fails x s f₀ t ∧ Fault.ofSdk f₀ = f := fails_mapError

@[simp] theorem returns_attempt_ok {x : Prog σ α} {s t : σ} {a : α} :
    Returns (attempt x) s (.ok a) t ↔ Returns x s a t := returns_catching_ok

@[simp] theorem returns_attempt_error {x : Prog σ α} {s t : σ} {e : GoError} :
    Returns (attempt x) s (.error e) t ↔ Fails x s (.err e) t := by
  rw [attempt, returns_catching_error]
  constructor
  · rintro ⟨f, hf, hc⟩
    cases f with
    | err e' =>
        cases hc
        exact hf
    | panic why => cases hc
    | retrying => cases hc
  · intro hf
    exact ⟨.err e, hf, rfl⟩

@[simp] theorem fails_attempt {x : Prog σ α} {s t : σ} {f : Fault} :
    Fails (attempt x) s f t ↔ Fails x s f t ∧ ∀ e, f ≠ .err e := by
  rw [attempt, fails_catching]
  cases f <;> simp

@[simp] theorem returns_ofExcept {r : Except GoError α} {s t : σ} {a : α} :
    Returns (ofExcept r) s a t ↔ r = .ok a ∧ s = t := by
  cases r <;> simp [ofExcept]

@[simp] theorem fails_ofExcept {r : Except GoError α} {s t : σ} {f : Fault} :
    Fails (ofExcept r) s f t ↔ ∃ e, r = .error e ∧ f = .err e ∧ s = t := by
  cases r <;> simp [ofExcept, eq_comm]

/-! ### Calls that only read -/

instance readOnly_fail (e : GoError) : ReadOnly (fail e : Prog σ α) := ReadOnly.throw _

instance readOnly_goPanic (why : String) : ReadOnly (goPanic why : Prog σ α) := ReadOnly.throw _

instance readOnly_wrapErr (msg : String) (x : Prog σ α) [ReadOnly x] : ReadOnly (wrapErr msg x) :=
  ReadOnly.mapError _ _

instance readOnly_attempt (x : Prog σ α) [ReadOnly x] : ReadOnly (attempt x) :=
  ReadOnly.catching _ _

instance readOnly_ofExcept (r : Except GoError α) : ReadOnly (ofExcept r : Prog σ α) := by
  cases r with
  | ok a => exact ReadOnly.pure a
  | error e => exact readOnly_fail e

/-! ### Calls that move along a preorder -/

instance moves_wrapErr {R : σ → σ → Prop} (msg : String) (x : Prog σ α) [Moves R x] :
    Moves R (wrapErr msg x) := Moves.mapError _ _

instance moves_sdk {R : σ → σ → Prop} (x : SdkProg σ α) [Moves R x] : Moves R (sdk x) :=
  Moves.mapError _ _

/-! ### Calls without a retry loop -/

/-- The call ends by itself: it never stops because the fuel ran out. The instances
follow the way a call is put together. -/
class Settles (x : Prog σ α) : Prop where
  failsWith : FailsWith (fun f => f ≠ .retrying) x

namespace Settles

variable {β : Type}

instance pure (a : α) : Settles (pure a : Prog σ α) := ⟨.pure a⟩

instance get : Settles (get : Prog σ σ) := ⟨.get⟩

instance modify (f : σ → σ) : Settles (modify f : Prog σ PUnit) := ⟨.modify f⟩

instance fail (e : GoError) : Settles (fail e : Prog σ α) := ⟨.throw (by simp)⟩

instance goPanic (why : String) : Settles (goPanic why : Prog σ α) := ⟨.throw (by simp)⟩

instance bind (x : Prog σ α) (f : α → Prog σ β) [Settles x] [∀ a, Settles (f a)] :
    Settles (x >>= f) := ⟨.bind failsWith fun _ => failsWith⟩

instance ite (c : Prop) [Decidable c] (x y : Prog σ α) [Settles x] [Settles y] :
    Settles (if c then x else y) := ⟨.ite failsWith failsWith⟩

instance onlyIf (c : Prop) [Decidable c] (x : Prog σ PUnit) [Settles x] :
    Settles (onlyIf c x) := ⟨.onlyIf failsWith⟩

instance mapErr (g : GoError → GoError) (x : Prog σ α) [Settles x] :
    Settles (mapError (Fault.mapErr g) x) := by
  refine ⟨.mapError ?_⟩
  intro s f t h
  have hf := failsWith s f t h
  cases f with
  | err e => simp [Fault.mapErr]
  | panic why => simp [Fault.mapErr]
  | retrying => exact absurd rfl hf

instance wrapErr (msg : String) (x : Prog σ α) [Settles x] : Settles (wrapErr msg x) :=
  mapErr _ x

instance attempt (x : Prog σ α) [Settles x] : Settles (attempt x) :=
  ⟨.catching fun s f t h _ => failsWith s f t h⟩

instance sdk (x : SdkProg σ α) : Settles (sdk x) := by
  refine ⟨.mapError ?_⟩
  intro s f t _
  cases f <;> simp [Fault.ofSdk]

instance zoom (l : Lens σ τ) (x : Prog τ α) [Settles x] : Settles (zoom l x) :=
  ⟨failsWith.zoom⟩

end Settles

end Story.Errors
