/-
# Story.Mint.Keeper -- the mint module

At the beginning of every block after the singularity the module mints a share of the
yearly inflation and sends it to the fee collector. The share is computed with decimals
of 18 digits, which count units of 10^-18 here; the number of blocks goes through a
conversion to `int64` on the way. The division of decimals is a function of the SDK and a
parameter here.
-/
import Story.Sdk
import Story.Numbers.Decimal

namespace Story.Mint

open Story.Effect Story.Errors Story.Sdk Story.Numbers

/-- `types.ModuleName`. -/
def moduleName : String := "mint"

/-! ## Decimals -/

/-- One, in units of 10^-18. -/
def decUnit : Nat := 10 ^ 18

/-- `math.LegacyNewDec`. -/
def legacyNewDec (i : Int) : Int := i * decUnit

/-- `LegacyDec.Quo`: the quotient, or the text of the panic. -/
abbrev Quo := Int → Int → Except String Int

/-- `LegacyDec.TruncateInt`. -/
def truncateInt (x : Int) : Int := x.tdiv decUnit

/-- `LegacyDec.String`: all 18 digits after the point. -/
def legacyDecString : Option Int → String
  | none => "<nil>"
  | some x =>
      let fraction := toString (x.natAbs % decUnit)
      (if x < 0 then "-" else "") ++ toString (x.natAbs / decUnit) ++ "." ++
        String.ofList (List.replicate (18 - fraction.length) '0') ++ fraction

/-! ## Parameters -/

/-- `types.Params`; `inflationsPerYear` may be a decimal without a value. -/
structure Params where
  mintDenom : String
  inflationsPerYear : Option Int
  blocksPerYear : UInt64
  deriving DecidableEq

/-- `types.DefaultParams`, for blocks of five seconds. -/
def defaultParams : Params where
  mintDenom := defaultBondDenom
  inflationsPerYear := some (legacyNewDec 24625000000000000)
  blocksPerYear := 60 * 60 * 8766 / 5

/-- `unicode.IsSpace`. -/
def isSpace (c : Char) : Bool :=
  let n := c.toNat
  (9 ≤ n && n ≤ 13) || n == 0x20 || n == 0x85 || n == 0xa0 || n == 0x1680 ||
    (0x2000 ≤ n && n ≤ 0x200a) || n == 0x2028 || n == 0x2029 || n == 0x202f || n == 0x205f ||
    n == 0x3000

/-- `strings.TrimSpace(v) == ""`. -/
def isBlank (v : String) : Bool := v.toList.all isSpace

variable (validateDenom : String → Except SdkError Unit)

def validateMintDenom (v : String) : Except GoError Unit :=
  if isBlank v then .error (.new "mint denom cannot be blank")
  else match validateDenom v with
    | .error e => .error ((GoError.ofSdk e).wrap "mint denom is invalid")
    | .ok () => .ok ()

def validateInflationsPerYear (v : Option Int) : Except GoError Unit :=
  match v with
  | none => .error (.new ("inflations per year cannot be nil: " ++ legacyDecString v))
  | some x =>
      if x < 0 then
        .error (.new ("inflations per year cannot be negative: " ++ legacyDecString v))
      else .ok ()

def validateBlocksPerYear (v : UInt64) : Except GoError Unit :=
  if v = 0 then .error (.new ("blocks per year must be positive: " ++ toString v)) else .ok ()

/-- `Params.Validate`. -/
def Params.validate (p : Params) : Except GoError Unit := do
  validateMintDenom validateDenom p.mintDenom
  validateInflationsPerYear p.inflationsPerYear
  validateBlocksPerYear p.blocksPerYear

theorem validate_eq_ok {p : Params} (h : p.validate validateDenom = .ok ()) :
    validateDenom p.mintDenom = .ok () ∧ (∃ x, p.inflationsPerYear = some x ∧ 0 ≤ x) ∧
      p.blocksPerYear ≠ 0 := by
  have hdenom : validateMintDenom validateDenom p.mintDenom = .ok () := by
    cases hd : validateMintDenom validateDenom p.mintDenom with
    | ok => rfl
    | error e => simp [Params.validate, hd, bind, Except.bind] at h
  have hinflations : validateInflationsPerYear p.inflationsPerYear = .ok () := by
    cases hi : validateInflationsPerYear p.inflationsPerYear with
    | ok => rfl
    | error e => simp [Params.validate, hdenom, hi, bind, Except.bind] at h
  have hblocks : validateBlocksPerYear p.blocksPerYear = .ok () := by
    simpa [Params.validate, hdenom, hinflations, bind, Except.bind] using h
  refine ⟨?_, ?_, ?_⟩
  · unfold validateMintDenom at hdenom
    split at hdenom
    · cases hdenom
    · split at hdenom
      · cases hdenom
      next hok => exact hok
  · unfold validateInflationsPerYear at hinflations
    split at hinflations
    · cases hinflations
    next x hx =>
      split at hinflations
      · cases hinflations
      next hle => exact ⟨x, hx, by omega⟩
  · unfold validateBlocksPerYear at hblocks
    split at hblocks
    · cases hblocks
    next hne => exact hne

/-! ## The keeper -/

/-- The keepers the module is wired to. -/
structure Keeper (W : Type) where
  getSingularityHeight : Ctx → SdkProg W UInt64
  bankMintCoins : Ctx → String → Coins → SdkProg W Unit
  sendCoinsFromModuleToModule : Ctx → String → String → Coins → SdkProg W Unit
  feeCollectorName : String
  /-- `sdk.ValidateDenom`. -/
  validateDenom : String → Except SdkError Unit

/-- The store of the module, the stores of the SDK modules, and the amounts of the events of
type `mint`. -/
structure Store (W : Type) where
  params : Option Params
  sdk : W
  events : List Int

variable {W : Type}

instance : HasSdk (Store W) W where
  lens :=
    { view := Store.sdk
      put := fun w s => { s with sdk := w }
      view_put := fun _ _ => rfl
      put_view := fun _ => rfl
      put_put := fun _ _ _ => rfl }

@[simp] theorem Store.view_sdk (s : Store W) : HasSdk.lens.view s = s.sdk := rfl

@[simp] theorem Store.put_sdk (w : W) (s : Store W) :
    HasSdk.lens.put w s = { s with sdk := w } := rfl

def getParams : Prog (Store W) Params := do
  match (← get).params with
  | none => fail ⟨"collections: not found", [.notFound "params"]⟩
  | some p => pure p

/-- `types.InflationCalculationFn`, without the arguments that are not used. -/
abbrev InflationCalculationFn (σ : Type) := Params → Prog σ Int

def defaultInflationCalculationFn {σ : Type} (quo : Quo) : InflationCalculationFn σ := fun params =>
  match params.inflationsPerYear with
  | none => goPanic "nil pointer dereference"
  | some x =>
      match quo x (legacyNewDec (toInt64 params.blocksPerYear)) with
      | .error why => goPanic why
      | .ok share => pure share

namespace Keeper

variable (M : Keeper W)

/-- `sdk.NewCoin`, which panics on a denomination that is not valid as well. -/
def newCoin {σ : Type} (denom : String) (amount : Int) : Prog σ Coin :=
  match M.validateDenom denom with
  | .error e => goPanic e.msg
  | .ok () => Sdk.newCoin denom amount

/-- `MintCoins`; `sdk.NewCoins` leaves out a coin of amount zero. -/
def mintCoins (ctx : Ctx) (coin : Coin) : Prog (Store W) Unit :=
  if coin.amount = 0 then pure () else call (M.bankMintCoins ctx moduleName (newCoins coin))

def addCollectedFees (ctx : Ctx) (coin : Coin) : Prog (Store W) Unit :=
  call (M.sendCoinsFromModuleToModule ctx moduleName M.feeCollectorName (newCoins coin))

def beginBlocker (ctx : Ctx) (ic : InflationCalculationFn (Store W)) : Prog (Store W) Unit := do
  let singularityHeight ← call (M.getSingularityHeight ctx)
  if ctx.blockHeight < toInt64 singularityHeight then
    -- nothing is minted during the singularity
    pure ()
  else
    let params ← getParams
    let mintedCoinAmt ← ic params
    let mintedCoin ← M.newCoin params.mintDenom (truncateInt mintedCoinAmt)
    M.mintCoins ctx mintedCoin
    M.addCollectedFees ctx mintedCoin
    modify fun s => { s with events := s.events ++ [mintedCoin.amount] }

end Keeper

end Story.Mint
