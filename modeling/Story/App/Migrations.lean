/-
# Story.App.Migrations -- the upgrade handlers

An upgrade handler changes the stores once, at the height of its upgrade. Virgil gives the
staking periods new terms and moves the end of every short stake; v1.2.0 raises the size of a
block; Polybius raises the number of validators; Terence changes nothing. Each handler reads
back what it has written and stops the chain when the stores disagree.

`x/staking` and `x/consensus` are SDK modules, given by what their calls do to what can be read
of three records, `MigrationStore`. On this ground every handler is a function on the records.
The numbers are those that the stores can hold.
-/
import Story.App.PreBlocker
import Story.Sdk.Ledger

namespace Story.App

open Story.Effect Story.Errors Story.Sdk Story.Eth Story.Netconf Story.EvmEngine

variable {W ρ V : Type}

/-! ## Records of the SDK modules -/

/-- `math.LegacyDec`, in units of 10^-18: the decimals that can be read back from a store. -/
abbrev Dec := { i : Int // i.natAbs < 2 ^ 315 }

/-- `stypes.Period`. A `time.Duration` counts nanoseconds. -/
structure Period where
  periodType : Int32
  duration : Int64
  rewardsMultiplier : Dec
  deriving DecidableEq

/-- `stypes.Params`; `rest` holds the fields that no handler looks into. -/
structure StakingParams (ρ : Type) where
  maxValidators : UInt32
  periods : List Period
  rest : ρ
  deriving DecidableEq

/-- `stypes.PeriodDelegation`. `endTime` counts nanoseconds since 1970. -/
structure PeriodDelegation where
  delegatorAddress : String
  validatorAddress : String
  periodDelegationId : String
  periodType : Int32
  shares : Dec
  rewardsShares : Dec
  endTime : Int
  deriving DecidableEq

/-- The key a period delegation is stored under. -/
structure PeriodKey where
  delegator : Bytes
  validator : Bytes
  periodDelegationId : String
  deriving DecidableEq

structure BlockParams where
  maxBytes : Int64
  maxGas : Int64
  deriving DecidableEq

structure EvidenceParams where
  maxAgeNumBlocks : Int64
  maxAgeDuration : Int64
  maxBytes : Int64
  deriving DecidableEq

structure ValidatorParams where
  pubKeyTypes : List String
  deriving DecidableEq

structure VersionParams where
  app : UInt64
  deriving DecidableEq

structure ABCIParams where
  voteExtensionsEnableHeight : Int64
  deriving DecidableEq

/-- `cmtproto.ConsensusParams`, a record of pointers. -/
structure ConsensusParams where
  block : Option BlockParams
  evidence : Option EvidenceParams
  validator : Option ValidatorParams
  version : Option VersionParams
  abci : Option ABCIParams
  deriving DecidableEq

/-- `consensusparamtypes.MsgUpdateParams`, which has no version. -/
structure MsgUpdateParams where
  authority : String
  block : Option BlockParams
  evidence : Option EvidenceParams
  validator : Option ValidatorParams
  abci : Option ABCIParams
  deriving DecidableEq

/-- The calls of `StakingKeeper` and `ConsensusParamsKeeper` that the handlers make. -/
structure MigrationKeepers (W ρ : Type) where
  getParams : Ctx → SdkProg W (StakingParams ρ)
  setParams : Ctx → StakingParams ρ → SdkProg W Unit
  getAllPeriodDelegations : Ctx → SdkProg W (List PeriodDelegation)
  setPeriodDelegation : Ctx → Bytes → Bytes → PeriodDelegation → SdkProg W Unit
  getPeriodDelegation : Ctx → Bytes → Bytes → String → SdkProg W PeriodDelegation
  /-- `ConsensusParamsKeeper.ParamsStore.Get`. -/
  getConsensusParams : Ctx → SdkProg W ConsensusParams
  updateParams : Ctx → MsgUpdateParams → SdkProg W Unit
  getAuthority : String

/-- `upgradetypes.UpgradeHandler`, with the version map that is handed through. -/
abbrev UpgradeHandler (W V : Type) := Ctx → Plan → V → Prog W V

/-! ## Virgil -/

structure RewardsMultipliers where
  short : Dec
  medium : Dec
  long : Dec

/-- `math.LegacyNewDecWithPrec`. -/
def newDecWithPrec (i : Int64) (prec : Fin 19) : Dec where
  val := i.toInt * 10 ^ (18 - prec.val)
  property := by
    have hi : i.toInt.natAbs ≤ 2 ^ 63 := by
      have hlow := i.le_toInt
      have hhigh := i.toInt_lt
      omega
    have hle : (i.toInt * 10 ^ (18 - prec.val)).natAbs ≤ 2 ^ 126 := by
      calc (i.toInt * 10 ^ (18 - prec.val)).natAbs
          = i.toInt.natAbs * 10 ^ (18 - prec.val) := by rw [Int.natAbs_mul, Int.natAbs_pow]; rfl
        _ ≤ 2 ^ 63 * 10 ^ 18 :=
            Nat.mul_le_mul hi (Nat.pow_le_pow_right (by decide) (Nat.sub_le _ _))
        _ ≤ 2 ^ 126 := by decide
    exact hle.trans_lt (pow_lt_pow_right₀ one_lt_two (by decide))

def defaultRewardsMultiplier : RewardsMultipliers where
  short := newDecWithPrec 1051 3
  medium := newDecWithPrec 116 2
  long := newDecWithPrec 134 2

def getRewardsMultipliers (chainID : String) : RewardsMultipliers :=
  if chainID = storyChainID then
    { short := newDecWithPrec 11 1, medium := newDecWithPrec 15 1, long := newDecWithPrec 20 1 }
  else defaultRewardsMultiplier

/-- Ninety days. -/
def newShortPeriodDuration : Int64 := 1000000000 * 7776000

/-- One round of the loop over the periods, as far as it changes the period. -/
def updatePeriod (new : RewardsMultipliers) (p : Period) : Period :=
  if p.periodType = 1 then
    { p with duration := newShortPeriodDuration, rewardsMultiplier := new.short }
  else if p.periodType = 2 then { p with rewardsMultiplier := new.medium }
  else if p.periodType = 3 then { p with rewardsMultiplier := new.long }
  else p

/-- `oldShortPeriodDuration` after the same loop: the last short period counts, and without
one it is still zero. -/
def oldShortPeriodDuration (periods : List Period) : Int64 :=
  periods.foldl (fun old p => if p.periodType = 1 then p.duration else old) 0

/-- One round of the loop that checks the new parameters. -/
def checkPeriod (new : RewardsMultipliers) (p : Period) : Prog W Unit :=
  if p.periodType = 1 then do
    onlyIf (p.duration ≠ newShortPeriodDuration)
      (fail (.new "new short period duration is not correct"))
    onlyIf (p.rewardsMultiplier ≠ new.short)
      (fail (.new "new short period rewards multiplier is not correct"))
  else if p.periodType = 2 then
    onlyIf (p.rewardsMultiplier ≠ new.medium)
      (fail (.new "new medium period rewards multiplier is not correct"))
  else if p.periodType = 3 then
    onlyIf (p.rewardsMultiplier ≠ new.long)
      (fail (.new "new long period rewards multiplier is not correct"))
  else pure ()

/-- A period delegation that ends later by `d`. -/
def PeriodDelegation.extend (d : Int64) (pd : PeriodDelegation) : PeriodDelegation :=
  { pd with endTime := pd.endTime + d.toInt }

/-- One round of the loop over the period delegations. -/
def extendShort (C : Codec) (S : MigrationKeepers W ρ) (ctx : Ctx) (d : Int64)
    (pd : PeriodDelegation) : Prog W Unit :=
  onlyIf (pd.periodType = 1) do
    let newEndTime := pd.endTime + d.toInt
    let delAddr ← wrapErr "failed to get delegator address"
      (convert (C.accAddressFromBech32 pd.delegatorAddress))
    let valAddr ← wrapErr "failed to get validator address"
      (convert (C.valAddressFromBech32 pd.validatorAddress))
    wrapErr "failed to set period delegation"
      (sdk (S.setPeriodDelegation ctx delAddr valAddr (pd.extend d)))
    let newPeriodDelegation ← wrapErr "failed to get new period delegation"
      (sdk (S.getPeriodDelegation ctx delAddr valAddr pd.periodDelegationId))
    onlyIf (newPeriodDelegation.endTime ≠ newEndTime)
      (fail (.new "new period delegation end time is not correct"))

/-- `virgil.CreateUpgradeHandler`. -/
def virgilHandler (C : Codec) (S : MigrationKeepers W ρ) : UpgradeHandler W V :=
  fun ctx _ vm =>
    match virgilUpgradeHeight ctx.chainID with
    | none => pure vm
    | some _ => do
        let stakingParams ← wrapErr "failed to get staking params" (sdk (S.getParams ctx))
        let new := getRewardsMultipliers ctx.chainID
        let old := oldShortPeriodDuration stakingParams.periods
        wrapErr "failed to update staking params" (sdk (S.setParams ctx
          { stakingParams with periods := stakingParams.periods.map (updatePeriod new) }))
        let stakingParams ← wrapErr "failed to get staking params" (sdk (S.getParams ctx))
        stakingParams.periods.forM (checkPeriod new)
        let periodDelegations ← wrapErr "failed to get all period delegations"
          (sdk (S.getAllPeriodDelegations ctx))
        periodDelegations.forM (extendShort C S ctx (newShortPeriodDuration - old))
        pure vm

/-! ## v1.2.0, Polybius and Terence -/

/-- 20 MB. -/
def newMaxBytes : Int64 := 20971520

def nilPointer : String := "invalid memory address or nil pointer dereference"

/-- `v_1_2_0.CreateUpgradeHandler`. The message shares its block parameters with
`oldConsParams`, of which only the gas is read afterwards. -/
def v120Handler (S : MigrationKeepers W ρ) : UpgradeHandler W V :=
  fun ctx _ vm => do
    let oldConsParams ← wrapErr "failed to get consensus params" (sdk (S.getConsensusParams ctx))
    match oldConsParams.block with
    | none => goPanic nilPointer
    | some oldBlock => do
        wrapErr "failed to update consensus params" (sdk (S.updateParams ctx
          { authority := S.getAuthority
            block := some { oldBlock with maxBytes := newMaxBytes }
            evidence := oldConsParams.evidence
            validator := oldConsParams.validator
            abci := oldConsParams.abci }))
        let newConsParams ← wrapErr "failed to get updated consensus params"
          (sdk (S.getConsensusParams ctx))
        onlyIf (oldConsParams.evidence ≠ newConsParams.evidence)
          (fail (.new "mismatch evidence in consensus params"))
        onlyIf (oldConsParams.validator ≠ newConsParams.validator)
          (fail (.new "mismatch validator in consensus params"))
        onlyIf (oldConsParams.abci ≠ newConsParams.abci)
          (fail (.new "mismatch ABCI in consensus params"))
        match newConsParams.block with
        | none => goPanic nilPointer
        | some newBlock => do
            onlyIf (oldBlock.maxGas ≠ newBlock.maxGas)
              (fail (.new "mismatch Block in consensus params"))
            onlyIf (newBlock.maxBytes ≠ newMaxBytes)
              (fail (.new "wrong updated max bytes in consensus params"))
            match oldConsParams.version, newConsParams.version with
            | some oldVersion, some newVersion => do
                onlyIf (oldVersion.app ≠ newVersion.app)
                  (fail (.new "mismatch App version in consensus params"))
                pure vm
            | _, _ => goPanic nilPointer

def newMaxValidators : UInt32 := 80

/-- `polybius.CreateUpgradeHandler`. -/
def polybiusHandler [DecidableEq ρ] (S : MigrationKeepers W ρ) : UpgradeHandler W V :=
  fun ctx _ vm => do
    let params ← wrapErr "failed to get existing params of staking module" (sdk (S.getParams ctx))
    let params := { params with maxValidators := newMaxValidators }
    wrapErr "failed to set new params of staking module" (sdk (S.setParams ctx params))
    let newParams ← wrapErr "failed to get new params of staking module" (sdk (S.getParams ctx))
    onlyIf (newParams ≠ params) (fail (.new "new params mismatch"))
    pure vm

/-- `terence.CreateUpgradeHandler`. -/
def terenceHandler : UpgradeHandler W V := fun _ _ vm => pure vm

/-- `Upgrades`, by name. -/
def upgrades [DecidableEq ρ] (C : Codec) (S : MigrationKeepers W ρ) :
    List (String × UpgradeHandler W V) :=
  [(virgil, virgilHandler C S), (ovid, v120Handler S), (polybius, polybiusHandler S),
    (terence, terenceHandler)]

/-! ## The stores as records -/

/-- The fields of a record name the key it belongs under. -/
def PeriodDelegation.NamesKey (C : Codec) (k : PeriodKey) (pd : PeriodDelegation) : Prop :=
  C.accAddressFromBech32 pd.delegatorAddress = .ok k.delegator ∧
    C.valAddressFromBech32 pd.validatorAddress = .ok k.validator ∧
    pd.periodDelegationId = k.periodDelegationId

/-- A `Timestamp` lies in the years 1 to 9999; a record that ends at any other time has no
encoding. -/
def PeriodDelegation.Storable (pd : PeriodDelegation) : Prop :=
  -62135596800 * 1000000000 ≤ pd.endTime ∧ pd.endTime < 253402300800 * 1000000000

instance (C : Codec) (k : PeriodKey) (pd : PeriodDelegation) : Decidable (pd.NamesKey C k) :=
  inferInstanceAs (Decidable (_ ∧ _ ∧ _))

instance (pd : PeriodDelegation) : Decidable pd.Storable := inferInstanceAs (Decidable (_ ∧ _))

/-- The period delegations, in the order in which an iterator meets them. -/
@[ext] structure PeriodStore (C : Codec) where
  entries : List (PeriodKey × PeriodDelegation)
  nodup : (entries.map Prod.fst).Nodup
  named : ∀ e ∈ entries, e.2.NamesKey C e.1
  storable : ∀ e ∈ entries, e.2.Storable

namespace PeriodStore

variable {C : Codec}

/-- Change every record, each under its key, if all the new records can be stored. -/
def mapRecords (f : PeriodDelegation → PeriodDelegation)
    (hf : ∀ k pd, pd.NamesKey C k → (f pd).NamesKey C k) (p : PeriodStore C) :
    Option (PeriodStore C) :=
  if h : ∀ e ∈ p.entries, (f e.2).Storable then
    some
      { entries := p.entries.map fun e => (e.1, f e.2)
        nodup := by simpa [Function.comp_def] using p.nodup
        named := by
          intro e he
          obtain ⟨e₀, he₀, rfl⟩ := List.mem_map.mp he
          exact hf _ _ (p.named e₀ he₀)
        storable := by
          intro e he
          obtain ⟨e₀, he₀, rfl⟩ := List.mem_map.mp he
          exact h e₀ he₀ }
  else none

section MapRecords

variable {f : PeriodDelegation → PeriodDelegation}
  {hf : ∀ k pd, pd.NamesKey C k → (f pd).NamesKey C k} {p q : PeriodStore C}

theorem mapRecords_eq_some (h : q.entries = p.entries.map fun e => (e.1, f e.2)) :
    p.mapRecords f hf = some q := by
  have hall : ∀ e ∈ p.entries, (f e.2).Storable := by
    intro e he
    have hmem : (e.1, f e.2) ∈ q.entries := by
      rw [h]
      exact List.mem_map_of_mem he
    exact q.storable _ hmem
  rw [mapRecords, dif_pos hall]
  exact congrArg some (PeriodStore.ext h.symm)

theorem mapRecords_eq_none {e : PeriodKey × PeriodDelegation} (he : e ∈ p.entries)
    (h : ¬ (f e.2).Storable) : p.mapRecords f hf = none :=
  dif_neg fun hall => h (hall e he)

end MapRecords

/-- Write a record over the one under its key. -/
def replace (p : PeriodStore C) (k : PeriodKey) (pd : PeriodDelegation)
    (hk : pd.NamesKey C k) (hpd : pd.Storable) : PeriodStore C where
  entries := p.entries.map fun e => if e.1 = k then (k, pd) else e
  nodup := by
    have hkeys : (p.entries.map fun e => if e.1 = k then (k, pd) else e).map Prod.fst =
        p.entries.map Prod.fst := by
      rw [List.map_map]
      apply List.map_congr_left
      intro e _
      show (if e.1 = k then (k, pd) else e).1 = e.1
      split
      next heq => exact heq.symm
      next => rfl
    rw [hkeys]
    exact p.nodup
  named := by
    intro e he
    obtain ⟨e₀, he₀, rfl⟩ := List.mem_map.mp he
    show PeriodDelegation.NamesKey C _ _
    split
    · exact hk
    · exact p.named e₀ he₀
  storable := by
    intro e he
    obtain ⟨e₀, he₀, rfl⟩ := List.mem_map.mp he
    show PeriodDelegation.Storable _
    split
    · exact hpd
    · exact p.storable e₀ he₀

/-- The record in the middle is replaced, and nothing else. -/
theorem entries_replace {p : PeriodStore C} {A B : List (PeriodKey × PeriodDelegation)}
    {k : PeriodKey} {pd pd' : PeriodDelegation} (hp : p.entries = A ++ (k, pd) :: B)
    (hk : pd'.NamesKey C k) (hpd : pd'.Storable) :
    (p.replace k pd' hk hpd).entries = A ++ (k, pd') :: B := by
  have hn := p.nodup
  rw [hp, List.map_append, List.map_cons, List.nodup_append, List.nodup_cons] at hn
  obtain ⟨_, ⟨hB, _⟩, hA⟩ := hn
  have hkeep {L : List (PeriodKey × PeriodDelegation)} (hL : ∀ e ∈ L, e.1 ≠ k) :
      L.map (fun e => if e.1 = k then (k, pd') else e) = L := by
    calc L.map (fun e => if e.1 = k then (k, pd') else e)
        = L.map id := List.map_congr_left fun e he => if_neg (hL e he)
      _ = L := List.map_id L
  show p.entries.map _ = _
  rw [hp, List.map_append, List.map_cons, if_pos rfl, hkeep, hkeep]
  · intro e he heq
    have hmem : e.1 ∈ B.map Prod.fst := List.mem_map_of_mem he
    rw [heq] at hmem
    exact hB hmem
  · intro e he
    exact hA _ (List.mem_map_of_mem he) k (by simp)

end PeriodStore

/-- What the handlers can see of the stores. -/
structure MigrationState (C : Codec) (ρ : Type) where
  params : StakingParams ρ
  periodDelegations : PeriodStore C
  consensus : ConsensusParams

/-- The checks of the SDK modules: which staking parameters `SetParams` takes, and what
`UpdateParams` makes of the consensus parameters when it takes a message. -/
structure Checks (ρ : Type) where
  validParams : StakingParams ρ → Bool
  update : Ctx → ConsensusParams → MsgUpdateParams → Option ConsensusParams

/-- The stores `w` have become `w'`: `st` is now read of the records, and the same as before of
everything else. -/
structure Wrote {C : Codec} {R : Type} (view : W → MigrationState C ρ) (rest : W → R) (w : W)
    (st : MigrationState C ρ) (w' : W) : Prop where
  records : view w' = st
  rest : rest w' = rest w

/-- What the handlers rely on in `x/staking` and `x/consensus`: `view` is what can be read of
their records, `rest` what can be read of the other stores. -/
structure MigrationStore {C : Codec} {R : Type} (S : MigrationKeepers W ρ)
    (view : W → MigrationState C ρ) (rest : W → R) (checks : Checks ρ) : Prop where
  getParams : ∀ ctx w, Returns (S.getParams ctx) w (view w).params w
  setParams : ∀ ctx p w, checks.validParams p = true →
    ∃ w', Returns (S.setParams ctx p) w () w' ∧ Wrote view rest w { view w with params := p } w'
  refuseParams : ∀ ctx p w, checks.validParams p = false →
    ∃ f w', Fails (S.setParams ctx p) w f w'
  getAll : ∀ ctx w,
    Returns (S.getAllPeriodDelegations ctx) w ((view w).periodDelegations.entries.map Prod.snd) w
  get : ∀ ctx w k pd, (k, pd) ∈ (view w).periodDelegations.entries →
    Returns (S.getPeriodDelegation ctx k.delegator k.validator k.periodDelegationId) w pd w
  /-- Only records that are there are written. -/
  set : ∀ ctx w k pd (hk : pd.NamesKey C k) (hpd : pd.Storable),
    k ∈ (view w).periodDelegations.entries.map Prod.fst →
      ∃ w', Returns (S.setPeriodDelegation ctx k.delegator k.validator pd) w () w' ∧
        Wrote view rest w
          { view w with periodDelegations := (view w).periodDelegations.replace k pd hk hpd } w'
  refuseRecord : ∀ ctx w k pd, pd.NamesKey C k → ¬ pd.Storable →
    ∃ f w', Fails (S.setPeriodDelegation ctx k.delegator k.validator pd) w f w'
  getConsensus : ∀ ctx w, Returns (S.getConsensusParams ctx) w (view w).consensus w
  update : ∀ ctx msg w params, checks.update ctx (view w).consensus msg = some params →
    ∃ w', Returns (S.updateParams ctx msg) w () w' ∧
      Wrote view rest w { view w with consensus := params } w'
  refuseUpdate : ∀ ctx msg w, checks.update ctx (view w).consensus msg = none →
    ∃ f w', Fails (S.updateParams ctx msg) w f w'

/-! ## The migrations as functions -/

/-- A short stake ends later by `d`; any other stake stays as it is. -/
def PeriodDelegation.extendIfShort (d : Int64) (pd : PeriodDelegation) : PeriodDelegation :=
  if pd.periodType = 1 then pd.extend d else pd

theorem PeriodDelegation.NamesKey.extendIfShort {C : Codec} {k : PeriodKey}
    {pd : PeriodDelegation} (h : pd.NamesKey C k) (d : Int64) :
    (pd.extendIfShort d).NamesKey C k := by
  unfold PeriodDelegation.extendIfShort
  split
  · exact h
  · exact h

/-- The terms of the staking periods after Virgil. -/
def virgilParams (chainID : String) (params : StakingParams ρ) : StakingParams ρ :=
  { params with periods := params.periods.map (updatePeriod (getRewardsMultipliers chainID)) }

/-- How much later a short stake ends after Virgil. -/
def virgilDelay (params : StakingParams ρ) : Int64 :=
  newShortPeriodDuration - oldShortPeriodDuration params.periods

/-- The period delegations after Virgil. -/
def PeriodStore.extendShorts {C : Codec} (d : Int64) (p : PeriodStore C) : Option (PeriodStore C) :=
  p.mapRecords (PeriodDelegation.extendIfShort d) fun _ _ h => h.extendIfShort d

/-- The consensus parameters after v1.2.0. -/
def v120Params (params : ConsensusParams) (block : BlockParams) : ConsensusParams :=
  { params with block := some { block with maxBytes := newMaxBytes } }

section Migrations

variable {C : Codec} (checks : Checks ρ) (authority : String) (ctx : Ctx)

def virgilMigration (st : MigrationState C ρ) : Option (MigrationState C ρ) :=
  if virgilUpgradeHeight ctx.chainID = none then some st
  else if checks.validParams (virgilParams ctx.chainID st.params) then
    (st.periodDelegations.extendShorts (virgilDelay st.params)).map fun p =>
      { st with params := virgilParams ctx.chainID st.params, periodDelegations := p }
  else none

/-- The message of v1.2.0. -/
def v120Update (params : ConsensusParams) (block : BlockParams) : MsgUpdateParams where
  authority := authority
  block := some { block with maxBytes := newMaxBytes }
  evidence := params.evidence
  validator := params.validator
  abci := params.abci

/-- Defined if `x/consensus` makes of the message just a change of the size. -/
def v120Migration (st : MigrationState C ρ) : Option (MigrationState C ρ) :=
  match st.consensus.block, st.consensus.version with
  | some block, some _ =>
      if checks.update ctx st.consensus (v120Update authority st.consensus block) =
          some (v120Params st.consensus block) then
        some { st with consensus := v120Params st.consensus block }
      else none
  | _, _ => none

def polybiusMigration (st : MigrationState C ρ) : Option (MigrationState C ρ) :=
  if checks.validParams { st.params with maxValidators := newMaxValidators } then
    some { st with params := { st.params with maxValidators := newMaxValidators } }
  else none

/-- What the upgrade of a name is for. -/
def migration (name : String) (st : MigrationState C ρ) : Option (MigrationState C ρ) :=
  if name = virgil then virgilMigration checks ctx st
  else if name = ovid then v120Migration checks authority ctx st
  else if name = polybius then polybiusMigration checks st
  else if name = terence then some st
  else none

end Migrations

/-! ## The handlers compute the migrations -/

section Handlers

variable {C : Codec} {R : Type} {S : MigrationKeepers W ρ} {view : W → MigrationState C ρ}
  {rest : W → R} {checks : Checks ρ} {ctx : Ctx} {plan : Plan} {vm : V} {w w' : W}

/-- A check returns if there is nothing to report. -/
theorem returns_failIf {c : Prop} [Decidable c] {e : GoError} {a : Unit} :
    Returns (onlyIf c (fail e) : Prog W Unit) w a w' ↔ ¬ c ∧ w = w' := by
  rw [returns_onlyIf]
  constructor
  · rintro (⟨_, h⟩ | h)
    · exact absurd h returns_fail
    · exact h
  · exact .inr

theorem returns_failIf_bind {c : Prop} [Decidable c] {e : GoError} {x : Prog W V} {v : V} :
    Returns (onlyIf c (fail e) >>= fun _ => x) w v w' ↔ ¬ c ∧ Returns x w v w' := by
  simp only [returns_bind, returns_failIf]
  constructor
  · rintro ⟨_, _, ⟨hc, rfl⟩, hx⟩
    exact ⟨hc, hx⟩
  · rintro ⟨hc, hx⟩
    exact ⟨(), w, ⟨hc, rfl⟩, hx⟩

/-- A check of what has just been written. -/
theorem returns_failIfChanged {α : Type} (a : α) [DecidableEq α] (e : GoError) :
    Returns (onlyIf (a ≠ a) (fail e) : Prog W Unit) w () w :=
  returns_failIf.mpr ⟨fun h => h rfl, rfl⟩

/-- A call that the SDK answers. -/
theorem returns_answered {α : Type} {x : SdkProg W α} {msg : String} {a : α} {w' : W}
    (h : Returns x w a w') : Returns (wrapErr msg (sdk x)) w a w' :=
  returns_wrapErr.mpr (returns_sdk.mpr h)

/-- A program does what a function on the records says: it returns in stores in which the new
records are read, or it stops. -/
def Computes {α : Type} (view : W → MigrationState C ρ) (rest : W → R) (w : W) (a : α)
    (r : Option (MigrationState C ρ)) (x : Prog W α) : Prop :=
  match r with
  | some st => ∃ w', Returns x w a w' ∧ Wrote view rest w st w'
  | none => ∃ f w', Fails x w f w'

section Computes

variable {α β : Type} {a : α} {b : β} {x : Prog W α} {f : α → Prog W β}
  {r : Option (MigrationState C ρ)}

theorem computes_pure : Computes view rest w a (some (view w)) (pure a) :=
  ⟨w, returns_pure.mpr ⟨rfl, rfl⟩, rfl, rfl⟩

/-- A call that touches nothing but the records, and then what is computed from there. -/
theorem Computes.after (hx : Returns x w a w') (hrest : rest w' = rest w)
    (h : Computes view rest w' b r (f a)) : Computes view rest w b r (x >>= f) := by
  cases r with
  | none =>
      obtain ⟨e, v, hv⟩ := h
      exact ⟨e, v, hx.fails_bind_iff.mpr hv⟩
  | some st =>
      obtain ⟨v, hv, hst, hsame⟩ := h
      exact ⟨v, Returns.bind hx hv, hst, hsame.trans hrest⟩

theorem Computes.stopped {e : Fault} (hx : Fails x w e w') :
    Computes view rest w b none (x >>= f) := ⟨e, w', fails_bind.mpr (.inl hx)⟩

/-- A call that the SDK refuses stops the program. -/
theorem Computes.refused {y : SdkProg W α} {msg : String} (hy : ∃ e w', Fails y w e w') :
    Computes view rest w b none (wrapErr msg (sdk y) >>= f) := by
  obtain ⟨e, w', hy⟩ := hy
  exact Computes.stopped (fails_wrapErr.mpr ⟨_, fails_sdk.mpr ⟨e, hy, rfl⟩, rfl⟩)

theorem computes_none (h : ∀ a w', ¬ Returns x w a w') : Computes view rest w a none x := by
  rcases returns_or_fails x w with ⟨a, w', hx⟩ | hx
  · exact absurd hx (h a w')
  · exact hx

theorem Computes.then_pure (h : Computes view rest w a r x) (b : β) :
    Computes view rest w b r (x >>= fun _ => pure b) := by
  cases r with
  | none =>
      obtain ⟨e, v, hv⟩ := h
      exact .stopped hv
  | some st =>
      obtain ⟨v, hv, hst, hrest⟩ := h
      exact ⟨v, Returns.bind hv (returns_pure.mpr ⟨rfl, rfl⟩), hst, hrest⟩

theorem Computes.of_returns {a' : α} {v : W} (h : Computes view rest w a r x)
    (hx : Returns x w a' v) : a' = a ∧ r = some (view v) ∧ rest v = rest w := by
  cases r with
  | none =>
      obtain ⟨f, w', hf⟩ := h
      exact absurd hf hx.not_fails
  | some st =>
      obtain ⟨w', hw', hst, hrest⟩ := h
      obtain ⟨rfl, rfl⟩ := hx.unique hw'
      exact ⟨rfl, congrArg some hst.symm, hrest⟩

end Computes

/-- One round: the record of the round ends later if it is a short one. -/
theorem computes_extendShort (hS : MigrationStore S view rest checks) (ctx : Ctx) {d : Int64}
    {k : PeriodKey} {pd : PeriodDelegation} {A B : List (PeriodKey × PeriodDelegation)}
    (hw : (view w).periodDelegations.entries = A ++ (k, pd) :: B) :
    (∃ p : PeriodStore C, p.entries = A ++ (k, pd.extendIfShort d) :: B ∧
        Computes view rest w () (some { view w with periodDelegations := p })
          (extendShort C S ctx d pd)) ∨
      ¬ (pd.extendIfShort d).Storable ∧
        Computes view rest w () none (extendShort C S ctx d pd) := by
  by_cases hshort : pd.periodType = 1
  · have hmem : (k, pd) ∈ (view w).periodDelegations.entries := by rw [hw]; simp
    have hnamed : pd.NamesKey C k := (view w).periodDelegations.named _ hmem
    have hnew : (pd.extend d).NamesKey C k := hnamed
    obtain ⟨hdel, hval, hid⟩ := hnamed
    have hextend : pd.extendIfShort d = pd.extend d := if_pos hshort
    rw [extendShort, onlyIf, if_pos hshort, hextend]
    -- both addresses are those of the key, whether or not the record can be written
    have haddresses {r : Option (MigrationState C ρ)} {f : Bytes → Bytes → Prog W Unit}
        (h : Computes view rest w () r (f k.delegator k.validator)) :
        Computes view rest w () r (do
          let delAddr ← wrapErr "failed to get delegator address"
            (convert (C.accAddressFromBech32 pd.delegatorAddress))
          let valAddr ← wrapErr "failed to get validator address"
            (convert (C.valAddressFromBech32 pd.validatorAddress))
          f delAddr valAddr) :=
      .after (returns_wrapErr.mpr (returns_convert.mpr ⟨hdel, rfl⟩)) rfl
        (.after (returns_wrapErr.mpr (returns_convert.mpr ⟨hval, rfl⟩)) rfl h)
    by_cases hstorable : (pd.extend d).Storable
    · obtain ⟨w', hset, hview, hrest⟩ := hS.set ctx w k (pd.extend d) hnew hstorable
        (List.mem_map_of_mem hmem)
      have hentries := PeriodStore.entries_replace hw hnew hstorable
      have hget := hS.get ctx w' k (pd.extend d) (by rw [hview, hentries]; simp)
      refine .inl ⟨_, hentries, haddresses (.after (returns_answered hset) hrest ?_)⟩
      rw [hid, ← hview]
      exact .after (returns_answered hget) rfl ⟨w', returns_failIfChanged _ _, rfl, rfl⟩
    · exact .inr ⟨hstorable, haddresses (.refused (hS.refuseRecord ctx w k _ hnew hstorable))⟩
  · have hkeep : pd.extendIfShort d = pd := if_neg hshort
    refine .inl ⟨(view w).periodDelegations, by rw [hkeep]; exact hw, ?_⟩
    rw [extendShort, onlyIf, if_neg hshort]
    exact computes_pure

/-- **The loop over the period delegations**, from any place in the middle of it. -/
theorem computes_extendAll (hS : MigrationStore S view rest checks) (ctx : Ctx) {d : Int64}
    {A B : List (PeriodKey × PeriodDelegation)}
    (hw : (view w).periodDelegations.entries = A ++ B) :
    (∃ p : PeriodStore C, p.entries = A ++ B.map (fun e => (e.1, e.2.extendIfShort d)) ∧
        Computes view rest w () (some { view w with periodDelegations := p })
          ((B.map Prod.snd).forM (extendShort C S ctx d))) ∨
      (∃ e ∈ B, ¬ (e.2.extendIfShort d).Storable) ∧
        Computes view rest w () none ((B.map Prod.snd).forM (extendShort C S ctx d)) := by
  induction B generalizing A w with
  | nil => exact .inl ⟨(view w).periodDelegations, hw, computes_pure⟩
  | cons e B ih =>
      obtain ⟨k, pd⟩ := e
      rcases computes_extendShort (d := d) hS ctx hw with
        ⟨p, hp, w', hround, hview, hrest⟩ | ⟨hpd, e, w', hround⟩
      · -- the records behind this one are as they were read
        rcases ih (A := A ++ [(k, pd.extendIfShort d)]) (w := w')
          (by rw [hview, List.append_assoc]; exact hp) with ⟨q, hq, hloop⟩ | ⟨⟨e, he, hpd⟩, hloop⟩
        · refine .inl ⟨q, by rw [hq, List.append_assoc]; rfl, .after hround hrest ?_⟩
          rw [hview] at hloop
          exact hloop
        · exact .inr ⟨⟨e, List.mem_cons_of_mem _ he, hpd⟩, .after hround hrest hloop⟩
      · exact .inr ⟨⟨(k, pd), List.mem_cons_self, hpd⟩, .stopped hround⟩

/-- The whole loop: every short stake ends later, or one of them cannot be stored. -/
theorem computes_extendShorts (hS : MigrationStore S view rest checks) (ctx : Ctx) (d : Int64) :
    Computes view rest w ()
      (((view w).periodDelegations.extendShorts d).map fun p =>
        { view w with periodDelegations := p })
      (((view w).periodDelegations.entries.map Prod.snd).forM (extendShort C S ctx d)) := by
  rcases computes_extendAll (d := d) hS ctx (A := []) (w := w) rfl with
    ⟨p, hp, hloop⟩ | ⟨⟨e, he, hpd⟩, hloop⟩
  · rw [PeriodStore.extendShorts, PeriodStore.mapRecords_eq_some hp]
    exact hloop
  · rw [PeriodStore.extendShorts, PeriodStore.mapRecords_eq_none he hpd]
    exact hloop

/-- Parameters that `updatePeriod` has been over pass the checks. -/
theorem returns_checkPeriods (new : RewardsMultipliers) (periods : List Period) :
    Returns ((periods.map (updatePeriod new)).forM (checkPeriod new)) w () w := by
  induction periods with
  | nil => exact returns_forM_nil.mpr rfl
  | cons p periods ih =>
      refine returns_forM_cons.mpr ⟨w, ?_, ih⟩
      obtain ⟨type, duration, multiplier⟩ := p
      by_cases h₁ : type = 1
      · subst h₁
        exact Returns.bind (returns_failIfChanged _ _) (returns_failIfChanged _ _)
      by_cases h₂ : type = 2
      · subst h₂
        exact returns_failIfChanged _ _
      by_cases h₃ : type = 3
      · subst h₃
        exact returns_failIfChanged _ _
      · simp [checkPeriod, updatePeriod, h₁, h₂, h₃]

theorem computes_virgilHandler (hS : MigrationStore S view rest checks) :
    Computes view rest w vm (virgilMigration checks ctx (view w))
      (virgilHandler C S ctx plan vm) := by
  unfold virgilMigration virgilHandler
  cases hheight : virgilUpgradeHeight ctx.chainID with
  | none =>
      rw [if_pos rfl]
      exact computes_pure
  | some height =>
      rw [if_neg (by simp)]
      refine .after (returns_answered (hS.getParams ctx w)) rfl ?_
      cases hvalid : checks.validParams (virgilParams ctx.chainID (view w).params) with
      | false =>
          rw [if_neg (by simp)]
          exact .refused (hS.refuseParams ctx _ w hvalid)
      | true =>
          obtain ⟨w', hset, hview, hrest⟩ := hS.setParams ctx _ w hvalid
          rw [if_pos rfl]
          refine .after (returns_answered hset) hrest ?_
          refine .after (returns_answered (hS.getParams ctx w')) rfl ?_
          have hparams : (view w').params = virgilParams ctx.chainID (view w).params := by
            rw [hview]
          rw [hparams]
          refine .after (returns_checkPeriods _ _) rfl ?_
          refine .after (returns_answered (hS.getAll ctx w')) rfl ?_
          have hloop := computes_extendShorts hS (w := w') ctx (virgilDelay (view w).params)
          simp only [hview] at hloop ⊢
          exact hloop.then_pure vm

/-- **v1.2.0 returns exactly when `x/consensus` has changed the size and nothing else.** -/
theorem returns_v120Handler (hS : MigrationStore S view rest checks) {vm' : V} {w₁ : W}
    {block : BlockParams} (hblock : (view w).consensus.block = some block)
    (hupdate : Returns
      (S.updateParams ctx (v120Update S.getAuthority (view w).consensus block)) w () w₁) :
    Returns (v120Handler S ctx plan vm) w vm' w' ↔
      ((view w).consensus.version ≠ none ∧
        (view w₁).consensus = v120Params (view w).consensus block) ∧ vm = vm' ∧ w₁ = w' := by
  have hread := hS.getConsensus ctx w
  have hreread := hS.getConsensus ctx w₁
  generalize (view w).consensus = old at *
  generalize (view w₁).consensus = new at *
  obtain ⟨oldBlock, evidence, validator, version, abci⟩ := old
  obtain ⟨newBlock, evidence', validator', version', abci'⟩ := new
  obtain rfl : oldBlock = some block := hblock
  rw [v120Handler, (returns_answered hread).bind_iff]
  show Returns (wrapErr _ (sdk (S.updateParams ctx
    (v120Update S.getAuthority ⟨some block, evidence, validator, version, abci⟩ block))) >>= _)
    w vm' w' ↔ _
  rw [(returns_answered hupdate).bind_iff, (returns_answered hreread).bind_iff]
  obtain ⟨maxBytes, maxGas⟩ := block
  -- without a block, or without one of the versions, the handler follows a nil pointer
  rcases newBlock with _ | ⟨maxBytes', maxGas'⟩
  · simp [v120Params]
  rcases version with _ | ⟨⟨app⟩⟩
  · simp
  rcases version' with _ | ⟨⟨app'⟩⟩
  · simp [v120Params]
  simp only [returns_failIf_bind, not_not, returns_pure]
  constructor
  · rintro ⟨rfl, rfl, rfl, rfl, rfl, rfl, rfl, rfl⟩
    exact ⟨⟨nofun, rfl⟩, rfl, rfl⟩
  · rintro ⟨⟨_, hsame⟩, rfl, rfl⟩
    cases hsame
    exact ⟨rfl, rfl, rfl, rfl, rfl, rfl, rfl, rfl⟩

theorem computes_v120Handler (hS : MigrationStore S view rest checks) :
    Computes view rest w vm (v120Migration checks S.getAuthority ctx (view w))
      (v120Handler S ctx plan vm) := by
  have hread := hS.getConsensus ctx w
  unfold v120Migration
  cases hblock : (view w).consensus.block with
  | none =>
      rw [v120Handler]
      refine .after (returns_answered hread) rfl ?_
      rw [hblock]
      exact ⟨_, _, fails_goPanic.mpr ⟨rfl, rfl⟩⟩
  | some block =>
      cases hupdate : checks.update ctx (view w).consensus
          (v120Update S.getAuthority (view w).consensus block) with
      | none =>
          have hstops : Computes view rest w vm none (v120Handler S ctx plan vm) := by
            rw [v120Handler]
            refine .after (returns_answered hread) rfl ?_
            rw [hblock]
            exact .refused (hS.refuseUpdate ctx _ w hupdate)
          cases (view w).consensus.version with
          | none => exact hstops
          | some version =>
              simp only [hupdate]
              exact hstops
      | some params =>
          obtain ⟨w₁, hreturns, hview, hrest⟩ := hS.update ctx _ w params hupdate
          have hparams : (view w₁).consensus = params := by rw [hview]
          have hiff {vm' : V} {w' : W} : Returns (v120Handler S ctx plan vm) w vm' w' ↔
              ((view w).consensus.version ≠ none ∧
                params = v120Params (view w).consensus block) ∧ vm = vm' ∧ w₁ = w' := by
            rw [← hparams]
            exact returns_v120Handler hS hblock hreturns
          cases hversion : (view w).consensus.version with
          | none => exact computes_none fun vm' w' h => (hiff.mp h).1.1 hversion
          | some version =>
              simp only [hupdate, Option.some.injEq]
              by_cases hgood : params = v120Params (view w).consensus block
              · rw [if_pos hgood, ← hgood]
                exact ⟨w₁, hiff.mpr ⟨⟨by simp [hversion], hgood⟩, rfl, rfl⟩, hview, hrest⟩
              · rw [if_neg hgood]
                exact computes_none fun vm' w' h => hgood (hiff.mp h).1.2

theorem computes_polybiusHandler [DecidableEq ρ] (hS : MigrationStore S view rest checks) :
    Computes view rest w vm (polybiusMigration checks (view w))
      (polybiusHandler S ctx plan vm) := by
  unfold polybiusMigration polybiusHandler
  refine .after (returns_answered (hS.getParams ctx w)) rfl ?_
  cases hvalid : checks.validParams { (view w).params with maxValidators := newMaxValidators } with
  | false =>
      rw [if_neg (by simp)]
      exact .refused (hS.refuseParams ctx _ w hvalid)
  | true =>
      obtain ⟨w', hset, hview, hrest⟩ := hS.setParams ctx _ w hvalid
      rw [if_pos rfl, ← hview]
      refine .after (returns_answered hset) hrest ?_
      refine .after (returns_answered (hS.getParams ctx w')) rfl ?_
      have hparams : (view w').params =
          { (view w).params with maxValidators := newMaxValidators } := by rw [hview]
      rw [hparams]
      exact .after (returns_failIfChanged _ _) rfl computes_pure

/-- Every registered handler computes the migration of its name. -/
theorem computes_handler [DecidableEq ρ] (hS : MigrationStore S view rest checks) {name : String}
    {handler : UpgradeHandler W V} (h : (name, handler) ∈ upgrades C S) (ctx : Ctx) (p : Plan)
    (vm : V) (w : W) :
    Computes view rest w vm (migration checks S.getAuthority ctx name (view w))
      (handler ctx p vm) := by
  simp only [upgrades, List.mem_cons, Prod.mk.injEq, List.not_mem_nil, or_false] at h
  rcases h with ⟨rfl, rfl⟩ | ⟨rfl, rfl⟩ | ⟨rfl, rfl⟩ | ⟨rfl, rfl⟩
  · exact computes_virgilHandler hS
  · exact computes_v120Handler hS
  · exact computes_polybiusHandler hS
  · exact computes_pure

end Handlers

/-! ## A registry as an example -/

/-- The records, with the store of `x/upgrade` beside them. -/
structure Registry where
  plan : Option Plan
  done : List String
  state : MigrationState Ledger.codec Unit

namespace Registry

/-- What `x/upgrade` holds. -/
def upgradeStore (r : Registry) : Option Plan × List String := (r.plan, r.done)

/-- At least one validator, and a block that is not empty; the version is set to zero. -/
def checks : Checks Unit where
  validParams := fun params => decide (0 < params.maxValidators.toNat)
  update := fun _ _ msg =>
    if msg.authority = "gov" ∧ msg.block.any fun b => 0 < b.maxBytes then
      some ⟨msg.block, msg.evidence, msg.validator, some ⟨0⟩, msg.abci⟩
    else none

def migrations : MigrationKeepers Registry Unit where
  getParams := fun _ => do return (← get).state.params
  setParams := fun _ params => do
    if checks.validParams params then
      modify fun r => { r with state := { r.state with params := params } }
    else throw (.err ⟨"invalid params", []⟩)
  getAllPeriodDelegations := fun _ => do
    return (← get).state.periodDelegations.entries.map Prod.snd
  setPeriodDelegation := fun _ del val pd => do
    let r ← get
    if h : pd.NamesKey Ledger.codec ⟨del, val, pd.periodDelegationId⟩ ∧ pd.Storable then
      set { r with state := { r.state with
        periodDelegations := r.state.periodDelegations.replace _ pd h.1 h.2 } }
    else throw (.panic "no encoding")
  getPeriodDelegation := fun _ del val id => do
    match (← get).state.periodDelegations.entries.lookup ⟨del, val, id⟩ with
    | none => throw (.err ⟨"no period delegation", [.noPeriodDelegation]⟩)
    | some pd => pure pd
  getConsensusParams := fun _ => do return (← get).state.consensus
  updateParams := fun ctx msg => do
    let r ← get
    match checks.update ctx r.state.consensus msg with
    | none => throw (.err ⟨"invalid update", []⟩)
    | some params => set { r with state := { r.state with consensus := params } }
  getAuthority := "gov"

theorem lookup_of_mem {p : PeriodStore Ledger.codec} {k : PeriodKey} {pd : PeriodDelegation}
    (h : (k, pd) ∈ p.entries) : p.entries.lookup k = some pd := by
  obtain ⟨A, B, hp⟩ := List.append_of_mem h
  have hn := p.nodup
  rw [hp, List.map_append, List.map_cons, List.nodup_append] at hn
  refine List.lookup_eq_some_iff.mpr ⟨A, B, hp, ?_⟩
  intro e he
  have hne := hn.2.2 e.1 (List.mem_map_of_mem he) k (by simp)
  exact bne_iff_ne.mpr hne.symm

theorem migrationStore : MigrationStore migrations Registry.state upgradeStore checks where
  getParams := fun _ _ => rfl
  setParams := by
    intro ctx p r hvalid
    simp only [migrations, hvalid, if_true]
    exact ⟨_, rfl, rfl, rfl⟩
  refuseParams := by
    intro ctx p r hvalid
    simp only [migrations, hvalid]
    exact ⟨_, r, rfl⟩
  getAll := fun _ _ => rfl
  get := by
    intro ctx r k pd hmem
    refine Returns.bind (returns_get.mpr ⟨rfl, rfl⟩) ?_
    rw [show r.state.periodDelegations.entries.lookup
      ⟨k.delegator, k.validator, k.periodDelegationId⟩ = some pd from lookup_of_mem hmem]
    exact returns_pure.mpr ⟨rfl, rfl⟩
  set := by
    intro ctx r k pd hk hpd hmem
    obtain ⟨del, val, id⟩ := k
    obtain rfl : pd.periodDelegationId = id := hk.2.2
    refine ⟨{ r with state := { r.state with
        periodDelegations := r.state.periodDelegations.replace _ pd hk hpd } },
      Returns.bind (returns_get.mpr ⟨rfl, rfl⟩) ?_, rfl, rfl⟩
    rw [dif_pos ⟨hk, hpd⟩]
    exact returns_set.mpr rfl
  refuseRecord := by
    intro ctx r k pd hk hpd
    refine ⟨.panic "no encoding", r, ?_⟩
    refine (Returns.fails_bind_iff (returns_get.mpr ⟨rfl, rfl⟩)).mpr ?_
    rw [dif_neg fun h => hpd h.2]
    exact fails_throw.mpr ⟨rfl, rfl⟩
  getConsensus := fun _ _ => rfl
  update := by
    intro ctx msg r params hupdate
    refine ⟨{ r with state := { r.state with consensus := params } },
      Returns.bind (returns_get.mpr ⟨rfl, rfl⟩) ?_, rfl, rfl⟩
    rw [hupdate]
    exact returns_set.mpr rfl
  refuseUpdate := by
    intro ctx msg r hupdate
    refine ⟨.err ⟨"invalid update", []⟩, r, ?_⟩
    refine (Returns.fails_bind_iff (returns_get.mpr ⟨rfl, rfl⟩)).mpr ?_
    rw [hupdate]
    exact fails_throw.mpr ⟨rfl, rfl⟩

/-- A stake of type `type` that ends at `endTime`. -/
def stake (id : String) (type : Int32) (endTime : Int) : PeriodKey × PeriodDelegation :=
  (⟨[1], [2], id⟩, ⟨Ledger.encode [1], Ledger.encode [2], id, type, newDecWithPrec 100 0,
    newDecWithPrec 100 0, endTime⟩)

theorem stake_namesKey (id : String) (type : Int32) (endTime : Int) :
    (stake id type endTime).2.NamesKey Ledger.codec (stake id type endTime).1 :=
  ⟨congrArg Except.ok (Ledger.decode_encode _), congrArg Except.ok (Ledger.decode_encode _), rfl⟩

/-- The registry of a public chain in front of Virgil, with one stake without a period, one
short stake and one long stake. The short period is one day. -/
def atGenesis : Registry where
  plan := none
  done := []
  state :=
    { params :=
        { maxValidators := 64
          periods := [⟨0, 0, newDecWithPrec 1 0⟩, ⟨1, 86400000000000, newDecWithPrec 1 0⟩,
            ⟨2, 5, newDecWithPrec 1 0⟩, ⟨3, 6, newDecWithPrec 1 0⟩]
          rest := () }
      periodDelegations :=
        { entries := [stake "0" 0 0, stake "7" 1 1000, stake "8" 3 2000]
          nodup := by decide
          named := by
            intro e he
            simp only [List.mem_cons, List.not_mem_nil, or_false] at he
            rcases he with rfl | rfl | rfl <;> exact stake_namesKey _ _ _
          storable := by decide }
      consensus := ⟨some ⟨22020096, -1⟩, none, none, some ⟨0⟩, none⟩ }

end Registry

/-! ## Main result -/

/-- **The upgrade handlers are their migrations.** From every state of the stores, the handler
registered for a name returns exactly when the migration of that name is defined; the records
are then what the migration says, what is read of the other stores is as it was, and the version
map is handed through. So Virgil moves the end of every short stake by the same time and touches
no other stake, v1.2.0 changes the size of a block only, and Polybius the number of validators
only. -/
theorem upgrade_handlers_refine_migrations [DecidableEq ρ] {C : Codec} {R : Type}
    {S : MigrationKeepers W ρ} {view : W → MigrationState C ρ} {rest : W → R} {checks : Checks ρ}
    (hS : MigrationStore S view rest checks) {name : String} {handler : UpgradeHandler W V}
    (h : (name, handler) ∈ upgrades C S) (ctx : Ctx) (p : Plan) (vm : V) (w : W) :
    (∀ st, migration checks S.getAuthority ctx name (view w) = some st →
        ∃ v, Returns (handler ctx p vm) w vm v ∧ view v = st ∧ rest v = rest w) ∧
      ∀ vm' v, Returns (handler ctx p vm) w vm' v → vm' = vm ∧
        migration checks S.getAuthority ctx name (view w) = some (view v) ∧ rest v = rest w := by
  have hcomputes := computes_handler hS h ctx p vm w
  constructor
  · intro st hst
    rw [hst] at hcomputes
    obtain ⟨v, hv, hview, hrest⟩ := hcomputes
    exact ⟨v, hv, hview, hrest⟩
  · intro vm' v hreturns
    exact hcomputes.of_returns hreturns

/-- Virgil on the registry: of its three stakes the short one ends 89 days later. -/
theorem short_stake_ends_later : ∃ v : Registry,
    Returns (virgilHandler Ledger.codec Registry.migrations
      ⟨aeneidChainID, 345158, 0, [], .finalize⟩ ⟨virgil, 345158, ""⟩ ()) Registry.atGenesis () v ∧
    v.state.periodDelegations.entries =
      [Registry.stake "0" 0 0, Registry.stake "7" 1 (1000 + 89 * 86400000000000),
        Registry.stake "8" 3 2000] := by
  have hvirgil : (virgil, virgilHandler (V := Unit) Ledger.codec Registry.migrations) ∈
      upgrades Ledger.codec Registry.migrations := List.mem_cons_self
  have hmain := upgrade_handlers_refine_migrations Registry.migrationStore hvirgil
    ⟨aeneidChainID, 345158, 0, [], .finalize⟩ ⟨virgil, 345158, ""⟩ () Registry.atGenesis
  obtain ⟨v, hv, hview, _⟩ := hmain.1 _ rfl
  exact ⟨v, hv, by rw [hview]; rfl⟩

end Story.App
