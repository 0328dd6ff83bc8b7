/-
# Story.Mint.Budget -- what is minted in a year

The share of a block is the yearly inflation divided by the number of blocks, rounded to
18 digits and cut off to a whole number. The shares of a year stay within the inflation
exactly when the rounding does not reach the next whole number and the number of blocks,
which goes through an `int64`, does not make the share negative. Below 2 * 10^18 blocks
neither can happen. Validation asks for no bound: from 2 * 10^18 blocks on a share may be
rounded up, and from 2^63 on it may be negative, at which the block panics.
-/
import Story.Mint.Keeper
import Story.Sdk.Ledger

namespace Story.Mint

open Story.Effect Story.Errors Story.Sdk Story.Numbers

variable {W : Type} {M : Keeper W} {ctx : Ctx} {p : Params}

/-! ## The share of a block -/

theorem toInt64_of_lt {u : UInt64} (h : u.toNat < 2 ^ 63) : toInt64 u = u.toNat := by
  unfold toInt64
  rw [if_pos h]

/-- The exact quotient of two decimals, rounded half to even, with its sign. -/
def roundedQuo (x y : Int) : Int := x.sign * y.sign * roundHalfEven (x.natAbs * decUnit) y.natAbs

/-- The rounded quotient of `i` by `n` blocks, cut off to a whole number. -/
def wholeShare (i n : Nat) : Nat := roundHalfEven (i * decUnit * decUnit) (n * decUnit) / decUnit

/-- The exact quotient is within the yearly inflation after rounding: it is not as close as half a
unit to the next whole number. -/
def NotRoundedUp (i n : Nat) : Prop := n < 2 * decUnit * (n - i % n)

/-- **The share** is the quotient of the whole numbers unless it is rounded up to the next one. -/
theorem wholeShare_eq (i : Nat) {n : Nat} (hn : 0 < n) :
    (NotRoundedUp i n → wholeShare i n = i / n) ∧
      (¬ NotRoundedUp i n → wholeShare i n = i / n + 1) := by
  have hunit : 0 < decUnit := by decide
  have hmod : i * decUnit * decUnit % (n * decUnit * decUnit) = i % n * decUnit * decUnit := by
    rw [Nat.mul_mod_mul_right, Nat.mul_mod_mul_right]
  have hdiv : i * decUnit * decUnit / (n * decUnit * decUnit) = i / n := by
    rw [Nat.mul_div_mul_right _ _ hunit, Nat.mul_div_mul_right _ _ hunit]
  obtain ⟨rest, hrest⟩ : ∃ rest, n = i % n + rest := ⟨n - i % n, by
    have := Nat.mod_lt i hn
    omega⟩
  have hsub : n - i % n = rest := by omega
  -- both conditions, multiplied out
  have hscale : 2 * (n * decUnit * decUnit) =
      2 * (i % n * decUnit * decUnit) + 2 * decUnit * rest * decUnit := by
    conv_lhs => rw [hrest]
    ring
  constructor
  · intro h
    have hlt : n * decUnit < 2 * decUnit * rest * decUnit := by
      rw [NotRoundedUp, hsub] at h
      gcongr
    rw [wholeShare, roundHalfEven_div (Nat.mul_pos hn hunit) hunit (by rw [hmod]; omega), hdiv]
  · intro h
    have hle : 2 * decUnit * rest * decUnit ≤ n * decUnit := by
      rw [NotRoundedUp, hsub, not_lt] at h
      gcongr
    rw [wholeShare, roundHalfEven_div_succ hunit (by decide) (Nat.mul_pos hn hunit)
      (by rw [hmod]; omega), hdiv]

/-- The share of a whole inflation has the sign of the number of blocks. -/
theorem truncateInt_roundedQuo (i : Nat) (blocks : Int) :
    truncateInt (roundedQuo (legacyNewDec i) (legacyNewDec blocks)) =
      blocks.sign * wholeShare i blocks.natAbs := by
  have hunit : (0 : Int) < decUnit := by decide
  have habs (x : Int) : (legacyNewDec x).natAbs = x.natAbs * decUnit := by
    rw [legacyNewDec, Int.natAbs_mul, Int.natAbs_natCast]
  have hsign (x : Int) : (legacyNewDec x).sign = x.sign := by
    rw [legacyNewDec, Int.sign_mul, Int.sign_eq_one_of_pos hunit, mul_one]
  rw [roundedQuo, habs, habs, hsign, hsign, Int.natAbs_natCast, truncateInt, wholeShare]
  rcases Nat.eq_zero_or_pos i with rfl | hi
  · simp [roundHalfEven]
  · have hone : (i : Int).sign = 1 := Int.sign_eq_one_of_pos (by omega)
    rw [hone, one_mul]
    rcases lt_trichotomy blocks 0 with hneg | rfl | hpos
    · rw [Int.sign_eq_neg_one_of_neg hneg, neg_one_mul, neg_one_mul, Int.neg_tdiv, Int.ofNat_tdiv]
    · simp
    · rw [Int.sign_eq_one_of_pos hpos, one_mul, one_mul, Int.ofNat_tdiv]

/-- **The condition** on the inflation `i` and the number `b` of blocks: the share is not rounded
up, and where the number of blocks is negative as an `int64`, it is zero. -/
def InBudget (i : Nat) (b : UInt64) : Prop :=
  NotRoundedUp i (toInt64 b).natAbs ∧ (toInt64 b < 0 → i < (toInt64 b).natAbs)

/-- Fewer than `2 * 10^18` blocks are always within the budget. -/
theorem inBudget_of_lt {b : UInt64} (hpos : 0 < b.toNat) (hlt : b.toNat < 2 * decUnit) (i : Nat) :
    InBudget i b := by
  have hblocks : toInt64 b = (b.toNat : Int) := toInt64_of_lt (hlt.trans (by decide))
  rw [InBudget, hblocks, Int.natAbs_natCast, NotRoundedUp]
  refine ⟨?_, by omega⟩
  have hrest : 1 ≤ b.toNat - i % b.toNat := by
    have := Nat.mod_lt i hpos
    omega
  calc b.toNat < 2 * decUnit * 1 := by omega
    _ ≤ 2 * decUnit * (b.toNat - i % b.toNat) := by gcongr

/-- **The share is within the budget** under this condition and no other. -/
theorem inBudget_iff {i : Nat} {b : UInt64} (hpos : 0 < b.toNat) :
    InBudget i b ↔ ∃ m : Nat,
      truncateInt (roundedQuo (legacyNewDec i) (legacyNewDec (toInt64 b))) = m ∧
        b.toNat * m ≤ i ∧ (b.toNat < 10 ^ 18 → m = i / b.toNat) := by
  rw [truncateInt_roundedQuo, InBudget]
  by_cases hlt : b.toNat < 2 ^ 63
  · -- the number of blocks is what it is
    have hblocks : toInt64 b = (b.toNat : Int) := toInt64_of_lt hlt
    have hsign : (b.toNat : Int).sign = 1 := Int.sign_eq_one_of_pos (by omega)
    obtain ⟨hdown, hup⟩ := wholeShare_eq i hpos
    rw [hblocks, Int.natAbs_natCast, hsign, one_mul]
    constructor
    · rintro ⟨h, _⟩
      rw [hdown h]
      exact ⟨_, rfl, Nat.mul_div_le i b.toNat, fun _ => rfl⟩
    · rintro ⟨m, hm, hle, _⟩
      refine ⟨?_, by omega⟩
      by_contra h
      obtain rfl : i / b.toNat + 1 = m := by
        rw [hup h] at hm
        exact_mod_cast hm
      exact absurd hle (not_le.mpr (Nat.lt_mul_div_succ i hpos))
  · -- it is negative, and so is a share that is not zero
    have hneg : toInt64 b < 0 := by
      have := b.toNat_lt
      unfold toInt64
      rw [if_neg hlt]
      omega
    have hn : 0 < (toInt64 b).natAbs := by omega
    obtain ⟨hdown, hup⟩ := wholeShare_eq i hn
    rw [Int.sign_eq_neg_one_of_neg hneg]
    constructor
    · rintro ⟨h, hless⟩
      rw [hdown h, Nat.div_eq_of_lt (hless hneg)]
      refine ⟨0, by simp, by omega, ?_⟩
      intro hsmall
      omega
    · rintro ⟨m, hm, _, _⟩
      have hzero : wholeShare i (toInt64 b).natAbs = 0 := by omega
      have hnot : NotRoundedUp i (toInt64 b).natAbs := by
        by_contra h
        rw [hup h] at hzero
        exact absurd hzero (Nat.succ_ne_zero _)
      rw [hdown hnot] at hzero
      exact ⟨hnot, fun _ => (Nat.div_eq_zero_iff_lt hn).mp hzero⟩

theorem returns_defaultInflationCalculationFn {σ : Type} (quo : Quo) {x q : Int}
    (hp : p.inflationsPerYear = some x)
    (hquo : quo x (legacyNewDec (toInt64 p.blocksPerYear)) = .ok q) (s : σ) :
    Returns (defaultInflationCalculationFn quo p) s q s := by
  simp [defaultInflationCalculationFn, hp, hquo]

/-! ## A block -/

/-- The block is not before the singularity height; `w` is left after reading that. -/
def AfterSingularity (M : Keeper W) (ctx : Ctx) (s : Store W) (w : W) : Prop :=
  ∃ height, Returns (M.getSingularityHeight ctx) s.sdk height w ∧
    toInt64 height ≤ ctx.blockHeight

/-- The calls of the bank for a coin that is not negative succeed in the stores `w`: it is minted,
unless it is zero, and sent. -/
def BankSucceeds (M : Keeper W) (ctx : Ctx) (w : W) (coin : Coin) : Prop :=
  0 ≤ coin.amount → ∃ minted sent,
    (if coin.amount = 0 then w = minted
      else Returns (M.bankMintCoins ctx moduleName (newCoins coin)) w () minted) ∧
    Returns (M.sendCoinsFromModuleToModule ctx moduleName M.feeCollectorName (newCoins coin))
      minted () sent

/-- A block mints `amount`, sends it to the fee collector and reports it. Nothing is minted of
the amount zero. -/
def Mints (M : Keeper W) (ctx : Ctx) (coin : Coin) (s t : Store W) (w : W) : Prop :=
  ∃ minted sent,
    (if coin.amount = 0 then w = minted
      else Returns (M.bankMintCoins ctx moduleName (newCoins coin)) w () minted) ∧
    Returns (M.sendCoinsFromModuleToModule ctx moduleName M.feeCollectorName (newCoins coin))
      minted () sent ∧
    t = { s with sdk := sent, events := s.events ++ [coin.amount] }

theorem returns_mintCoins {coin : Coin} {s t : Store W} {u : Unit} :
    Returns (M.mintCoins ctx coin) s u t ↔ ∃ minted,
      (if coin.amount = 0 then s.sdk = minted
        else Returns (M.bankMintCoins ctx moduleName (newCoins coin)) s.sdk () minted) ∧
      t = { s with sdk := minted } := by
  unfold Keeper.mintCoins
  split
  · simp [returns_pure, eq_comm (a := t)]
  · simp [returns_call, eq_comm (a := t)]

theorem returns_getParams {s : Store W} {w : W} (h : s.params = some p) :
    Returns getParams { s with sdk := w } p { s with sdk := w } := by
  simp [getParams, h, returns_bind, returns_get]

/-- **A block after the singularity** whose share is not negative. -/
theorem returns_beginBlocker {s : Store W} {w : W} {x : Int}
    {ic : InflationCalculationFn (Store W)} (hafter : AfterSingularity M ctx s w)
    (hparams : s.params = some p) (hdenom : M.validateDenom p.mintDenom = .ok ())
    (hic : ∀ s, Returns (ic p) s x s) (hx : 0 ≤ truncateInt x)
    (hbank : BankSucceeds M ctx w ⟨p.mintDenom, truncateInt x⟩) :
    ∃ t, Returns (M.beginBlocker ctx ic) s () t ∧
      Mints M ctx ⟨p.mintDenom, truncateInt x⟩ s t w := by
  obtain ⟨height, hheight, hle⟩ := hafter
  obtain ⟨minted, sent, hminted, hsent⟩ := hbank hx
  refine ⟨_, ?_, minted, sent, hminted, hsent, rfl⟩
  unfold Keeper.beginBlocker
  refine Returns.bind (returns_call.mpr ⟨w, hheight, rfl⟩) ?_
  rw [if_neg (by omega), Store.put_sdk]
  have hcoin : Returns (M.newCoin p.mintDenom (truncateInt x)) { s with sdk := w }
      ⟨p.mintDenom, truncateInt x⟩ { s with sdk := w } := by
    simp [Keeper.newCoin, hdenom, hx]
  refine (returns_getParams hparams).bind ((hic _).bind (hcoin.bind ?_))
  refine Returns.bind (a := ()) (returns_mintCoins.mpr ⟨minted, hminted, rfl⟩) ?_
  exact Returns.bind (returns_call.mpr ⟨sent, hsent, rfl⟩) (returns_modify.mpr rfl)

/-- **A block after the singularity** whose share is negative. -/
theorem fails_beginBlocker {s : Store W} {w : W} {x : Int}
    {ic : InflationCalculationFn (Store W)} (hafter : AfterSingularity M ctx s w)
    (hparams : s.params = some p) (hdenom : M.validateDenom p.mintDenom = .ok ())
    (hic : ∀ s, Returns (ic p) s x s) (hx : truncateInt x < 0) :
    Fails (M.beginBlocker ctx ic) s (.panic ("negative coin amount: " ++ toString (truncateInt x)))
      { s with sdk := w } := by
  obtain ⟨height, hheight, hle⟩ := hafter
  unfold Keeper.beginBlocker
  refine fails_bind.mpr (.inr ⟨_, _, returns_call.mpr ⟨w, hheight, rfl⟩, ?_⟩)
  rw [if_neg (by omega), Store.put_sdk]
  refine fails_bind.mpr (.inr ⟨p, _, returns_getParams hparams, ?_⟩)
  refine fails_bind.mpr (.inr ⟨x, _, hic _, fails_bind.mpr (.inl ?_)⟩)
  simp [Keeper.newCoin, hdenom, Sdk.newCoin, hx]

/-! ## A node -/

/-- The keepers of the sample ledger; every denomination is valid. -/
def ledgerKeeper : Keeper Ledger where
  getSingularityHeight := fun _ => pure 0
  bankMintCoins := Ledger.bank.mintCoins
  sendCoinsFromModuleToModule := fun _ sender recipient coins =>
    modify fun l => (l.payModule sender (-coins defaultBondDenom)).payModule recipient
      (coins defaultBondDenom)
  feeCollectorName := "fee_collector"
  validateDenom := fun _ => .ok ()

theorem ledgerKeeper_succeeds (l : Ledger) (coin : Coin) :
    BankSucceeds ledgerKeeper ctx l coin := by
  intro _
  by_cases hzero : coin.amount = 0
  · exact ⟨l, _, by rw [if_pos hzero], rfl⟩
  · exact ⟨_, _, by rw [if_neg hzero]; rfl, rfl⟩

/-- The division as it is assumed to be. -/
def exactQuo : Quo := fun x y =>
  if y = 0 then .error "division by zero" else .ok (roundedQuo x y)

def firstBlock : Ctx where
  chainID := "story-1"
  blockHeight := 1
  blockTime := 0
  appHash := []
  execMode := .finalize

/-! ## A year -/

/-- The coin that a block computes from the parameters and the yearly inflation `i`. -/
def blockCoin (p : Params) (i : Int) : Coin :=
  ⟨p.mintDenom,
    truncateInt (roundedQuo (legacyNewDec i) (legacyNewDec (toInt64 p.blocksPerYear)))⟩

/-- What a valid set of parameters with the yearly inflation `i` is meant to give: every block after
the singularity in which the bank does what it is asked for mints the same whole amount, the amounts
of a year are within the inflation, and the amount is the whole part of the share when there are
fewer than 10^18 blocks. -/
def RespectsBudget (M : Keeper W) (quo : Quo) (p : Params) (i : Int) : Prop :=
  ∃ m : Nat, (p.blocksPerYear.toNat * m : Int) ≤ i ∧
    (p.blocksPerYear.toNat < 10 ^ 18 → (m : Int) = i / p.blocksPerYear.toNat) ∧
    ∀ ctx s w, s.params = some p → AfterSingularity M ctx s w →
      BankSucceeds M ctx w (blockCoin p i) →
      ∃ t, Returns (M.beginBlocker ctx (defaultInflationCalculationFn quo)) s () t ∧
        Mints M ctx ⟨p.mintDenom, m⟩ s t w

/-- The report of a block tells what it has minted. -/
theorem Mints.amount_unique {coin coin' : Coin} {s t : Store W} {w w' : W}
    (h : Mints M ctx coin s t w) (h' : Mints M ctx coin' s t w') : coin.amount = coin'.amount := by
  obtain ⟨_, _, _, _, ht⟩ := h
  obtain ⟨_, _, _, _, ht'⟩ := h'
  have hevents := congrArg Store.events (ht.symm.trans ht')
  simpa using hevents

/-- **Minting respects the yearly budget** of valid parameters exactly when the share is not
rounded up to the next whole number and, where the number of blocks is negative as an `int64`, the
share is zero. Assumed are the rounding of the one quotient that is computed, and of the bank that
it mints and sends what it amounts to in the blocks in question, of which there is one. -/
theorem yearly_budget (quo : Quo) {i : Int} (hvalid : p.validate M.validateDenom = .ok ())
    (hwhole : p.inflationsPerYear = some (legacyNewDec i))
    (hquo : quo (legacyNewDec i) (legacyNewDec (toInt64 p.blocksPerYear)) =
      .ok (roundedQuo (legacyNewDec i) (legacyNewDec (toInt64 p.blocksPerYear))))
    (hblock : ∃ ctx s w, s.params = some p ∧ AfterSingularity M ctx s w ∧
      BankSucceeds M ctx w (blockCoin p i)) :
    RespectsBudget M quo p i ↔ InBudget i.toNat p.blocksPerYear := by
  obtain ⟨hdenom, ⟨x, hx, hnonneg⟩, hne⟩ := validate_eq_ok _ hvalid
  have hi : 0 ≤ i := by
    obtain rfl := Option.some.inj (hwhole.symm.trans hx)
    exact nonneg_of_mul_nonneg_left hnonneg (by decide)
  have hpos : 0 < p.blocksPerYear.toNat := by
    refine Nat.pos_of_ne_zero fun hzero => hne ?_
    exact UInt64.toNat_inj.mp hzero
  lift i to Nat using hi
  rw [Int.toNat_natCast, inBudget_iff hpos]
  have hic (s : Store W) := returns_defaultInflationCalculationFn quo hwhole hquo s
  constructor
  · rintro ⟨m, hle, hfloor, hblocks⟩
    obtain ⟨ctx, s, w, hparams, hafter, hbank⟩ := hblock
    obtain ⟨t, hreturns, hmints⟩ := hblocks ctx s w hparams hafter hbank
    rcases lt_or_ge (truncateInt (roundedQuo (legacyNewDec i)
      (legacyNewDec (toInt64 p.blocksPerYear)))) 0 with hneg | hge
    · exact absurd (fails_beginBlocker hafter hparams hdenom hic hneg) hreturns.not_fails
    · obtain ⟨t', hreturns', hmints'⟩ :=
        returns_beginBlocker hafter hparams hdenom hic hge hbank
      obtain ⟨_, rfl⟩ := hreturns.unique hreturns'
      exact ⟨m, (hmints.amount_unique hmints').symm, by exact_mod_cast hle,
        fun hsmall => by exact_mod_cast hfloor hsmall⟩
  · rintro ⟨m, hm, hle, hfloor⟩
    refine ⟨m, by exact_mod_cast hle, fun hsmall => by exact_mod_cast hfloor hsmall, ?_⟩
    intro ctx s w hparams hafter hbank
    rw [← hm]
    exact returns_beginBlocker hafter hparams hdenom hic (hm ▸ Int.natCast_nonneg m) hbank

/-- The default parameters mint 3901595812 in every block. -/
theorem default_budget :
    ∃ m : Nat, m = 3901595812 ∧ 6311520 * m ≤ 24625000000000000 ∧
      ∀ l : Ledger, ∃ t, Returns (ledgerKeeper.beginBlocker firstBlock
          (defaultInflationCalculationFn exactQuo)) ⟨some defaultParams, l, []⟩ () t ∧
        t.events = [(m : Int)] := by
  have hafter (l : Ledger) :
      AfterSingularity ledgerKeeper firstBlock ⟨some defaultParams, l, []⟩ l := ⟨0, rfl, by decide⟩
  obtain ⟨m, hle, hfloor, hblock⟩ := (yearly_budget (M := ledgerKeeper) (p := defaultParams)
    exactQuo (by decide +kernel) rfl (by decide +kernel)
    ⟨_, _, _, rfl, hafter Ledger.empty, ledgerKeeper_succeeds _ _⟩).mpr
    (inBudget_of_lt (by decide) (by decide) _)
  have hm : m = 3901595812 := by
    have : (24625000000000000 : Int) / 6311520 = 3901595812 := by decide
    exact_mod_cast (hfloor (by decide)).trans this
  refine ⟨m, hm, by exact_mod_cast hle, ?_⟩
  intro l
  obtain ⟨t, hret, _, _, _, _, rfl⟩ := hblock firstBlock ⟨some defaultParams, l, []⟩ l rfl
    (hafter l) (ledgerKeeper_succeeds _ _)
  exact ⟨_, hret, rfl⟩

/-- Parameters whose number of blocks is negative as an `int64`. -/
def negativeBlocks : Params := ⟨defaultBondDenom, some (legacyNewDec (2 ^ 63)), 2 ^ 63⟩

/-- Parameters whose share is rounded up to one, half a unit above what it is. -/
def roundedUp : Params :=
  ⟨defaultBondDenom, some (legacyNewDec (2 * 10 ^ 18 - 1)), 2 * 10 ^ 18⟩

/-- Validation accepts both. With the first every block panics; with the second a block mints
one, and the blocks of a year more than the inflation. -/
theorem valid_parameters_break_budget :
    (negativeBlocks.validate ledgerKeeper.validateDenom = .ok () ∧
      ∀ l : Ledger, Fails (ledgerKeeper.beginBlocker firstBlock
          (defaultInflationCalculationFn exactQuo))
        ⟨some negativeBlocks, l, []⟩ (.panic "negative coin amount: -1")
        ⟨some negativeBlocks, l, []⟩) ∧
    (roundedUp.validate ledgerKeeper.validateDenom = .ok () ∧
      (∀ l : Ledger, ∃ t, Returns (ledgerKeeper.beginBlocker firstBlock
        (defaultInflationCalculationFn exactQuo)) ⟨some roundedUp, l, []⟩ () t ∧ t.events = [1] ∧
        t.sdk.supply = l.supply + 1) ∧
      (2 * 10 ^ 18 - 1 : Int) < roundedUp.blocksPerYear.toNat * 1) := by
  have hnegative := returns_defaultInflationCalculationFn (σ := Store Ledger) exactQuo
    (p := negativeBlocks) (q := -10 ^ 18) rfl (by decide +kernel)
  have hrounded := returns_defaultInflationCalculationFn (σ := Store Ledger) exactQuo
    (p := roundedUp) (q := 10 ^ 18) rfl (by decide +kernel)
  refine ⟨⟨by decide +kernel, ?_⟩, by decide +kernel, ?_, by decide⟩
  · intro l
    have hafter : AfterSingularity ledgerKeeper firstBlock ⟨some negativeBlocks, l, []⟩ l :=
      ⟨0, rfl, by decide⟩
    exact fails_beginBlocker hafter rfl rfl hnegative (by decide)
  · intro l
    have hafter : AfterSingularity ledgerKeeper firstBlock ⟨some roundedUp, l, []⟩ l :=
      ⟨0, rfl, by decide⟩
    obtain ⟨t, hret, minted, sent, hminted, hsent, rfl⟩ :=
      returns_beginBlocker hafter rfl rfl hrounded (by decide) (ledgerKeeper_succeeds _ _)
    cases hminted
    cases hsent
    exact ⟨_, hret, rfl, rfl⟩

end Story.Mint
