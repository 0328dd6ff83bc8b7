/-
# Story.EvmStaking.Sweep -- what a reward sweep goes through

`ProcessRewardWithdrawals` goes around the validators once, from a stored cursor, and
processes delegations up to a bound. The cursor may be left over from other validators
and delegations than those the sweep finds.

Here the loop also reports its rounds: the cursor, the validator and the delegations a
round found, and those it processed. The reporting loop has no index that can fail, and
is the loop of the source otherwise. Its rounds are a bounded walk over the validators,
each a bucket of as many slots as it has delegations, and none when it is jailed.
-/
import Story.EvmStaking.Genesis
import Story.Collections.Walk
import Story.Sdk.Ledger

namespace Story.EvmStaking

open Story.Effect Story.Errors Story.Sdk Story.Collections

variable {W : Type}

/-! ## The reporting loop -/

/-- A round of the loop: the cursor and the count it started with, the validator and the
delegations it found, and those it processed. A jailed validator is not asked for any. -/
structure Round where
  nextValIndex : UInt64
  nextValDelIndex : UInt64
  swept : UInt32
  validator : Validator
  delegations : List Delegation
  processed : List Delegation

/-- `sweepLoop` with a report. -/
def sweepRounds (K : Keepers W) (ctx : Ctx) (validatorSet : List Validator) (sweepBound : UInt32)
    (minRewardWithdrawalAmount : UInt64) :
    (rounds : Nat) → Sweep → Prog (Store W) (Sweep × List Round)
  | 0, st => pure (st, [])
  | rounds + 1, st => do
      match validatorSet[st.nextValIndex.toNat]? with
      | none => pure (st, [])
      | some validator =>
          let next : Sweep :=
            { nextValIndex := (st.nextValIndex + 1) % UInt64.ofNat validatorSet.length
              nextValDelIndex := 0
              swept := st.swept }
          let round : List Delegation → List Delegation → Round :=
            fun delegations processed =>
              ⟨st.nextValIndex, st.nextValDelIndex, st.swept, validator, delegations, processed⟩
          if validator.jailed then
            let rest ←
              sweepRounds K ctx validatorSet sweepBound minRewardWithdrawalAmount rounds next
            pure (rest.1, round [] [] :: rest.2)
          else
            let valAddr ← wrapErr "convert validator address from string to bytes"
              (convert (K.codec.validatorStringToBytes validator.operator))
            let delegations ← wrapErr "get validator delegations"
              (call (K.staking.getValidatorDelegations ctx valAddr))
            if UInt64.ofNat delegations.length ≤ st.nextValDelIndex then
              let rest ← sweepRounds K ctx validatorSet sweepBound minRewardWithdrawalAmount rounds
                next
              pure (rest.1, round delegations [] :: rest.2)
            else
              let rest := delegations.drop st.nextValDelIndex.toNat
              let remainingSweep := sweepBound - st.swept
              let shouldStopPrematurely := decide (remainingSweep < UInt32.ofNat rest.length)
              let nextDelegations :=
                if shouldStopPrematurely then rest.take remainingSweep.toNat else rest
              nextDelegations.forM fun delegation =>
                wrapErr "process eligible reward withdrawal"
                  (processEligibleRewardWithdrawal K ctx delegation validator
                    minRewardWithdrawalAmount)
              if shouldStopPrematurely then
                pure ({ st with
                  nextValDelIndex := st.nextValDelIndex + UInt64.ofNat nextDelegations.length },
                  [round delegations nextDelegations])
              else
                let rest ← sweepRounds K ctx validatorSet sweepBound minRewardWithdrawalAmount
                  rounds { next with swept := st.swept + UInt32.ofNat nextDelegations.length }
                pure (rest.1, round delegations nextDelegations :: rest.2)

/-- What a sweep worked on, and its rounds. -/
structure SweepReport where
  validatorSet : List Validator
  sweepBound : UInt32
  rounds : List Round

/-- `processRewardWithdrawals` with a report. -/
def reportRewardWithdrawals (K : Keepers W) (ctx : Ctx) : Prog (Store W) SweepReport := do
  let validatorSweepIndex ← wrapErr "get validator sweep index" getValidatorSweepIndex
  let validatorSet ← wrapErr "get all validators" (call (K.staking.getAllValidators ctx))
  let overflow := UInt64.ofNat validatorSet.length ≤ validatorSweepIndex.nextValIndex
  let start : Sweep :=
    { nextValIndex := if overflow then 0 else validatorSweepIndex.nextValIndex
      nextValDelIndex := if overflow then 0 else validatorSweepIndex.nextValDelIndex
      swept := 0 }
  let sweepBound ← wrapErr "get max sweep per block" maxSweepPerBlock
  let minRewardWithdrawalAmount ← wrapErr "get minimum partial withdrawal amount"
    minPartialWithdrawalAmount
  let (st, rounds) ← sweepRounds K ctx validatorSet sweepBound minRewardWithdrawalAmount
    validatorSet.length start
  wrapErr "set validator sweep index"
    (setValidatorSweepIndex ⟨st.nextValIndex, st.nextValDelIndex⟩)
  pure ⟨validatorSet, sweepBound, rounds⟩

/-! ## The report changes nothing -/

section Report

variable {K : Keepers W} {ctx : Ctx} {validatorSet : List Validator} {sweepBound : UInt32}
  {minRewardWithdrawalAmount : UInt64}

/-- The next index, for a list that fits a slice. -/
theorem toNat_nextIndex {i : UInt64} {n : Nat} (hn : n < 2 ^ 63) (hi : i.toNat < n) :
    ((i + 1) % UInt64.ofNat n).toNat = (i.toNat + 1) % n := by
  have hsize : (UInt64.ofNat n).toNat = n := by
    rw [UInt64.toNat_ofNat']
    omega
  rw [UInt64.toNat_mod, hsize, UInt64.toNat_add, Nat.mod_eq_of_lt (a := i.toNat + _)]
  · rfl
  · have : (1 : UInt64).toNat = 1 := rfl
    omega

theorem nextIndex_lt {i : UInt64} {n : Nat} (hn : n < 2 ^ 63) (hi : i.toNat < n) :
    ((i + 1) % UInt64.ofNat n).toNat < n := by
  rw [toNat_nextIndex hn hi]
  exact Nat.mod_lt _ (by omega)

/-- **The loop never indexes out of range**: it is the reporting loop, which has no such end. -/
theorem sweepLoop_eq (hn : validatorSet.length < 2 ^ 63) (rounds : Nat) {st : Sweep}
    (hst : st.nextValIndex.toNat < validatorSet.length) :
    sweepLoop K ctx validatorSet sweepBound minRewardWithdrawalAmount rounds st =
      Prod.fst <$>
        sweepRounds K ctx validatorSet sweepBound minRewardWithdrawalAmount rounds st := by
  induction rounds generalizing st with
  | zero => rfl
  | succ rounds ih =>
      have hnext := nextIndex_lt hn hst
      unfold sweepLoop sweepRounds
      rw [List.getElem?_eq_getElem hst]
      dsimp only
      split
      · rw [ih hnext]
        simp only [map_eq_pure_bind, bind_assoc, pure_bind]
      simp only [map_bind]
      refine bind_congr fun valAddr => bind_congr fun delegations => ?_
      split
      · rw [ih hnext]
        simp only [map_eq_pure_bind, bind_assoc, pure_bind]
      simp only [map_bind]
      refine bind_congr fun _ => ?_
      split
      · simp only [map_pure]
      · rw [ih hnext]
        simp only [map_eq_pure_bind, bind_assoc, pure_bind]

/-- **A sweep is a sweep with a report**, whatever the stored cursor is. -/
theorem processRewardWithdrawals_eq {s : Store W}
    (hslice : ∀ vs w', Returns (K.staking.getAllValidators ctx) s.accounts.sdk vs w' →
      vs.length < 2 ^ 63) :
    (processRewardWithdrawals K ctx).run s = (do
      let _ ← reportRewardWithdrawals K ctx
      pure ()).run s := by
  unfold processRewardWithdrawals reportRewardWithdrawals
  simp only [bind_assoc, pure_bind]
  refine run_bind_congr fun validatorSweepIndex s₁ hindex => ?_
  refine run_bind_congr fun validatorSet s₂ hall => ?_
  obtain ⟨w, hw, _⟩ := returns_call.mp (returns_wrapErr.mp hall)
  have hsame : s = s₁ := by
    simp only [returns_wrapErr, getValidatorSweepIndex, returns_bind, returns_get,
      returns_pure] at hindex
    obtain ⟨_, _, ⟨_, rfl⟩, _, rfl⟩ := hindex
    rfl
  rw [← hsame] at hw
  have hn := hslice _ _ hw
  refine congrArg (fun x => EStateM.run x s₂) ?_
  refine bind_congr fun bound => bind_congr fun minimum => ?_
  cases hset : validatorSet with
  | nil => simp [sweepLoop, sweepRounds]
  | cons v vs =>
      rw [← hset, sweepLoop_eq hn]
      · simp only [map_eq_pure_bind, bind_assoc, pure_bind, bind_pure_unit]
      · have hsize : (UInt64.ofNat validatorSet.length).toNat = validatorSet.length := by
          rw [UInt64.toNat_ofNat']
          omega
        split
        · simp [hset]
        next hlt => simpa [UInt64.le_iff_toNat_le, hsize] using hlt

end Report

/-! ## The rounds as a walk -/

/-- The number of slots of the validator of a round. -/
def Round.size (r : Round) : ℕ := if r.validator.jailed then 0 else r.delegations.length

def Round.bucket (r : Round) : ℕ × ℕ := (r.nextValIndex.toNat, r.size)

/-- The slots a round has processed. -/
def Round.slots (r : Round) : List (ℕ × ℕ) :=
  (List.range' r.nextValDelIndex.toNat r.processed.length).map (r.nextValIndex.toNat, ·)

/-- The operations of a round that could go wrong: the index of the validator, the slice of its
delegations, and the subtraction of what has been swept. -/
structure Round.InRange (validatorSet : List Validator) (sweepBound : UInt32) (r : Round) :
    Prop where
  index : validatorSet[r.nextValIndex.toNat]? = some r.validator
  swept : r.swept ≤ sweepBound
  slice : r.processed ≠ [] →
    r.nextValDelIndex.toNat + r.processed.length ≤ r.delegations.length
  processed : r.processed =
    (r.delegations.drop r.nextValDelIndex.toNat).take r.processed.length
  jailed : r.validator.jailed = true → r.processed = []

/-- The round of a loop in state `st`. -/
def Sweep.round (st : Sweep) (validator : Validator) (delegations processed : List Delegation) :
    Round :=
  ⟨st.nextValIndex, st.nextValDelIndex, st.swept, validator, delegations, processed⟩

/-- The state with which the loop goes on to the next of `n` validators. -/
def Sweep.next (st : Sweep) (n : ℕ) (swept : UInt32) : Sweep :=
  ⟨(st.nextValIndex + 1) % UInt64.ofNat n, 0, swept⟩

/-- The rounds of a loop over `n` validators, from `st` to `st'`, with `k` rounds to go. -/
structure Rounds (validatorSet : List Validator) (sweepBound : UInt32) (k : ℕ) (st st' : Sweep)
    (rounds : List Round) : Prop where
  inRange : ∀ r ∈ rounds, r.InRange validatorSet sweepBound
  indices : rounds.map (fun r => r.nextValIndex.toNat) =
    (List.range rounds.length).map fun i =>
      (st.nextValIndex.toNat + i) % validatorSet.length
  length_le : rounds.length ≤ k
  taken : (walk (rounds.map Round.bucket) st.nextValDelIndex.toNat
    (sweepBound.toNat - st.swept.toNat)).taken = rounds.flatMap Round.slots
  stop : match (walk (rounds.map Round.bucket) st.nextValDelIndex.toNat
      (sweepBound.toNat - st.swept.toNat)).stop with
    | some c => c = (st'.nextValIndex.toNat, st'.nextValDelIndex.toNat)
    | none => rounds.length = k ∧
        st'.nextValIndex.toNat = (st.nextValIndex.toNat + k) % validatorSet.length ∧
        st'.nextValDelIndex = if k = 0 then st.nextValDelIndex else 0

section Rounds

variable {validatorSet : List Validator} {sweepBound : UInt32} {k : ℕ} {st st' : Sweep}

/-- A round at a validator that is not jailed, whose delegations are processed from the cursor
on. -/
theorem Sweep.inRange_slice {validator : Validator} {delegations part : List Delegation}
    (hget : validatorSet[st.nextValIndex.toNat]? = some validator)
    (hswept : st.swept ≤ sweepBound) (hjailed : validator.jailed = false)
    (hle : st.nextValDelIndex.toNat + part.length ≤ delegations.length)
    (hslice : part = (delegations.drop st.nextValDelIndex.toNat).take part.length) :
    (st.round validator delegations part).InRange validatorSet sweepBound :=
  ⟨hget, hswept, fun _ => hle, hslice, fun h => absurd (hjailed.symm.trans h) Bool.false_ne_true⟩

/-- A round that goes on to the next validator: it passes over its validator, or processes all
that is left there. -/
theorem Rounds.cons {validator : Validator} {delegations processed : List Delegation}
    {rounds : List Round} {swept : UInt32} (hn : validatorSet.length < 2 ^ 63)
    (hr : (st.round validator delegations processed).InRange validatorSet sweepBound)
    (hrest : Rounds validatorSet sweepBound k (st.next validatorSet.length swept) st' rounds)
    (hround :
      (processed = [] ∧
        (st.round validator delegations processed).size ≤ st.nextValDelIndex.toNat ∧
        swept = st.swept) ∨
      (st.nextValDelIndex.toNat < (st.round validator delegations processed).size ∧
        processed.length =
          (st.round validator delegations processed).size - st.nextValDelIndex.toNat ∧
        processed.length ≤ sweepBound.toNat - st.swept.toNat ∧
        swept.toNat = st.swept.toNat + processed.length)) :
    Rounds validatorSet sweepBound (k + 1) st st'
      (st.round validator delegations processed :: rounds) := by
  generalize hdef : st.round validator delegations processed = r at hr hround ⊢
  have hslots : r.slots =
      (List.range' st.nextValDelIndex.toNat processed.length).map (st.nextValIndex.toNat, ·) := by
    rw [← hdef]
    rfl
  have hbucket : r.bucket = (st.nextValIndex.toNat, r.size) := by
    rw [← hdef]
    rfl
  have hfirst : r.nextValIndex = st.nextValIndex := by
    rw [← hdef]
    rfl
  have hlt : st.nextValIndex.toNat < validatorSet.length :=
    hfirst ▸ (List.getElem?_eq_some_iff.mp hr.index).1
  have hindex : (st.next validatorSet.length swept).nextValIndex.toNat =
      (st.nextValIndex.toNat + 1) % validatorSet.length := toNat_nextIndex hn hlt
  have hshift (i : ℕ) : ((st.next validatorSet.length swept).nextValIndex.toNat + i) %
      validatorSet.length = (st.nextValIndex.toNat + (i + 1)) % validatorSet.length := by
    rw [hindex, Nat.mod_add_mod, Nat.add_right_comm, Nat.add_assoc]
  -- the walk from this round is its own slots, and then the walk of the other rounds
  have hwalk : walk ((r :: rounds).map Round.bucket) st.nextValDelIndex.toNat
      (sweepBound.toNat - st.swept.toNat) =
        ⟨r.slots ++ (walk (rounds.map Round.bucket) 0 (sweepBound.toNat - swept.toNat)).taken,
          (walk (rounds.map Round.bucket) 0 (sweepBound.toNat - swept.toNat)).stop⟩ := by
    rw [List.map_cons, hbucket, walk, hslots]
    rcases hround with ⟨rfl, hpassed, rfl⟩ | ⟨hinside, hall, hbound, hswept⟩
    · rw [if_pos hpassed]
      rfl
    · rw [if_neg (by omega), if_neg (by omega), hall,
        show sweepBound.toNat - st.swept.toNat - (r.size - st.nextValDelIndex.toNat) =
          sweepBound.toNat - swept.toNat by omega]
  refine ⟨?_, ?_, Nat.succ_le_succ hrest.length_le, ?_, ?_⟩
  · intro r' hr'
    rcases List.mem_cons.mp hr' with rfl | hr'
    · exact hr
    · exact hrest.inRange r' hr'
  · rw [List.map_cons, List.length_cons, List.range_succ_eq_map, List.map_cons, List.map_map,
      hrest.indices, hfirst]
    exact List.cons_eq_cons.mpr
      ⟨(Nat.mod_eq_of_lt hlt).symm, List.map_congr_left fun i _ => hshift i⟩
  · rw [hwalk, List.flatMap_cons, ← hrest.taken]
    rfl
  · rw [hwalk]
    have hstop := hrest.stop
    dsimp only [Sweep.next] at hstop ⊢
    rw [UInt64.toNat_zero] at hstop
    split at hstop
    next c hc => exact hstop
    next hc =>
      obtain ⟨hlen, hlast, hdel⟩ := hstop
      refine ⟨by rw [List.length_cons, hlen], hlast.trans (hshift k), ?_⟩
      simpa using hdel

theorem toNat_ofNat_length {α : Type} {l : List α} (h : l.length < 2 ^ 32) :
    (UInt64.ofNat l.length).toNat = l.length ∧ (UInt32.ofNat l.length).toNat = l.length := by
  rw [UInt64.toNat_ofNat', UInt32.toNat_ofNat']
  omega

/-- A round that stops: what is left at its validator is more than what may still be swept. -/
theorem Rounds.stopped {validator : Validator} {delegations processed : List Delegation}
    {del : UInt64}
    (hr : (st.round validator delegations processed).InRange validatorSet sweepBound)
    (hjailed : validator.jailed = false)
    (hlen : processed.length = sweepBound.toNat - st.swept.toNat)
    (hmore : sweepBound.toNat - st.swept.toNat < delegations.length - st.nextValDelIndex.toNat)
    (hdel : del.toNat = st.nextValDelIndex.toNat + processed.length) :
    Rounds validatorSet sweepBound (k + 1) st ⟨st.nextValIndex, del, st.swept⟩
      [st.round validator delegations processed] := by
  have hbucket : (st.round validator delegations processed).bucket =
      (st.nextValIndex.toNat, delegations.length) := by
    simp [Round.bucket, Round.size, Sweep.round, hjailed]
  have hwalk : walk ([st.round validator delegations processed].map Round.bucket)
      st.nextValDelIndex.toNat (sweepBound.toNat - st.swept.toNat) =
        ⟨(st.round validator delegations processed).slots,
          some (st.nextValIndex.toNat, del.toNat)⟩ := by
    rw [List.map_singleton, hbucket, walk, if_neg (by omega), if_pos (by omega), hdel, ← hlen]
    rfl
  have hlt : st.nextValIndex.toNat < validatorSet.length :=
    (List.getElem?_eq_some_iff.mp hr.index).1
  refine ⟨?_, ?_, Nat.succ_le_succ (Nat.zero_le k), ?_, ?_⟩
  · intro r hmem
    rw [List.mem_singleton.mp hmem]
    exact hr
  · simp [Sweep.round, Nat.mod_eq_of_lt hlt]
  · rw [hwalk]
    simp
  · rw [hwalk]

variable {K : Keepers W} {ctx : Ctx} {minRewardWithdrawalAmount : UInt64}

/-- What one round of the loop can do: pass over a validator, stop inside its delegations, or
process all that are left there. -/
theorem returns_sweepRounds_succ {rounds : List Round} {s t : Store W}
    (hst : st.nextValIndex.toNat < validatorSet.length)
    (h : Returns (sweepRounds K ctx validatorSet sweepBound minRewardWithdrawalAmount (k + 1) st) s
      (st', rounds) t) :
    ∃ validator delegations, validatorSet[st.nextValIndex.toNat]? = some validator ∧
      ((∃ rest s', (validator.jailed = true ∨ validator.jailed = false ∧
            UInt64.ofNat delegations.length ≤ st.nextValDelIndex) ∧
          rounds = st.round validator delegations [] :: rest ∧
          Returns (sweepRounds K ctx validatorSet sweepBound minRewardWithdrawalAmount k
            (st.next validatorSet.length st.swept)) s' (st', rest) t) ∨
        validator.jailed = false ∧ ¬ UInt64.ofNat delegations.length ≤ st.nextValDelIndex ∧
        ∃ left, left = delegations.drop st.nextValDelIndex.toNat ∧
          ((∃ part, part = left.take (sweepBound - st.swept).toNat ∧
            sweepBound - st.swept < UInt32.ofNat left.length ∧
            rounds = [st.round validator delegations part] ∧
            st' = ⟨st.nextValIndex, st.nextValDelIndex + UInt64.ofNat part.length, st.swept⟩) ∨
          ∃ rest s', ¬ sweepBound - st.swept < UInt32.ofNat left.length ∧
            rounds = st.round validator delegations left :: rest ∧
            Returns (sweepRounds K ctx validatorSet sweepBound minRewardWithdrawalAmount k
              (st.next validatorSet.length (st.swept + UInt32.ofNat left.length))) s'
              (st', rest) t)) := by
  unfold sweepRounds at h
  rw [List.getElem?_eq_getElem hst] at h ⊢
  dsimp only at h
  generalize validatorSet[st.nextValIndex.toNat] = validator at h ⊢
  rcases returns_ite.mp h with ⟨hjailed, h⟩ | ⟨hjailed, h⟩
  · obtain ⟨rest, t', hrest, h⟩ := returns_bind.mp h
    obtain ⟨hpair, rfl⟩ := returns_pure.mp h
    obtain ⟨rfl, rfl⟩ := Prod.mk.inj hpair
    exact ⟨validator, [], rfl, .inl ⟨_, s, .inl hjailed, rfl, hrest⟩⟩
  obtain ⟨valAddr, s₁, _, h⟩ := returns_bind.mp h
  obtain ⟨delegations, s₂, _, h⟩ := returns_bind.mp h
  refine ⟨validator, delegations, rfl, ?_⟩
  have hjailed : validator.jailed = false := by simpa using hjailed
  rcases returns_ite.mp h with ⟨hpassed, h⟩ | ⟨hinside, h⟩
  · obtain ⟨rest, t', hrest, h⟩ := returns_bind.mp h
    obtain ⟨hpair, rfl⟩ := returns_pure.mp h
    obtain ⟨rfl, rfl⟩ := Prod.mk.inj hpair
    exact .inl ⟨_, s₂, .inr ⟨hjailed, hpassed⟩, rfl, hrest⟩
  obtain ⟨_, s₃, _, h⟩ := returns_bind.mp h
  refine .inr ⟨hjailed, hinside, _, rfl, ?_⟩
  rcases returns_ite.mp h with ⟨hstop, h⟩ | ⟨hall, h⟩
  · obtain ⟨hpair, rfl⟩ := returns_pure.mp h
    rw [if_pos hstop] at hpair
    obtain ⟨rfl, rfl⟩ := Prod.mk.inj hpair
    exact .inl ⟨_, rfl, of_decide_eq_true hstop, rfl, rfl⟩
  · rw [if_neg hall] at h
    obtain ⟨rest, t', hrest, h⟩ := returns_bind.mp h
    obtain ⟨hpair, rfl⟩ := returns_pure.mp h
    obtain ⟨rfl, rfl⟩ := Prod.mk.inj hpair
    exact .inr ⟨_, s₃, by simpa using hall, rfl, hrest⟩

/-- **The rounds of the loop are a walk.** By induction on the rounds to go; the cursor stays in
the list and the count below the bound. -/
theorem rounds_of_returns (hn : validatorSet.length < 2 ^ 63) {rounds : List Round} {s t : Store W}
    (h : Returns (sweepRounds K ctx validatorSet sweepBound minRewardWithdrawalAmount k st) s
      (st', rounds) t)
    (hst : st.nextValIndex.toNat < validatorSet.length) (hswept : st.swept ≤ sweepBound)
    (hsmall : ∀ r ∈ rounds, r.validator.jailed = false → r.delegations.length < 2 ^ 32) :
    Rounds validatorSet sweepBound k st st' rounds := by
  induction k generalizing st rounds s with
  | zero =>
      obtain ⟨hpair, _⟩ := returns_pure.mp h
      obtain ⟨rfl, rfl⟩ := Prod.mk.inj hpair
      exact ⟨by simp, rfl, le_rfl, rfl, rfl, by simp [Nat.mod_eq_of_lt hst], rfl⟩
  | succ k ih =>
      have hnext : (st.next validatorSet.length st.swept).nextValIndex.toNat <
          validatorSet.length := nextIndex_lt hn hst
      have hremaining : (sweepBound - st.swept).toNat = sweepBound.toNat - st.swept.toNat :=
        UInt32.toNat_sub_of_le _ _ hswept
      obtain ⟨validator, delegations, hget, hround⟩ := returns_sweepRounds_succ hst h
      rcases hround with ⟨rest, s', hpassed, rfl, hrest⟩ | ⟨hjailed, hinside, left, hleft, hround⟩
      · -- a jailed validator, or a cursor behind the last delegation
        refine Rounds.cons hn ⟨hget, hswept, fun h => absurd rfl h, rfl, fun _ => rfl⟩
          (ih hrest hnext hswept fun r hr => hsmall r (List.mem_cons_of_mem _ hr))
          (.inl ⟨rfl, ?_, rfl⟩)
        rcases hpassed with hjailed | ⟨hjailed, hpassed⟩
        · simp [Round.size, Sweep.round, hjailed]
        · have hlen : delegations.length < 2 ^ 32 := hsmall _ List.mem_cons_self hjailed
          rw [UInt64.le_iff_toNat_le, (toNat_ofNat_length hlen).1] at hpassed
          unfold Round.size
          exact (ite_le_sup _ _ _).trans (max_le (Nat.zero_le _) hpassed)
      have hlen : delegations.length < 2 ^ 32 := by
        rcases hround with ⟨_, _, _, rfl, _⟩ | ⟨_, _, _, rfl, _⟩
        · exact hsmall _ List.mem_cons_self hjailed
        · exact hsmall _ List.mem_cons_self hjailed
      rw [UInt64.le_iff_toNat_le, (toNat_ofNat_length hlen).1] at hinside
      have hlength : left.length = delegations.length - st.nextValDelIndex.toNat := by
        rw [hleft, List.length_drop]
      have h32 := (toNat_ofNat_length (l := left) (by omega)).2
      rw [UInt32.lt_iff_toNat_lt, h32, hremaining] at hround
      rcases hround with ⟨part, hpart, hmore, rfl, rfl⟩ | ⟨rest, s', hall, rfl, hrest⟩
      · -- more is left than may be swept: the walk stops inside this bucket
        have htaken : part.length = sweepBound.toNat - st.swept.toNat := by
          rw [hpart, List.length_take]
          omega
        have hslice : part = (delegations.drop st.nextValDelIndex.toNat).take part.length := by
          rw [htaken, ← hleft, hpart]
        refine Rounds.stopped (Sweep.inRange_slice hget hswept hjailed (by omega) hslice) hjailed
          htaken (by rw [hlength] at hmore; exact hmore) ?_
        rw [UInt64.toNat_add, (toNat_ofNat_length (l := part) (by omega)).1]
        show (st.nextValDelIndex.toNat + part.length) % 2 ^ 64 =
          st.nextValDelIndex.toNat + part.length
        omega
      · -- all that is left fits under the bound, so the count does not overflow
        have hbound := UInt32.toNat_lt sweepBound
        have hle := UInt32.le_iff_toNat_le.mp hswept
        have hsum : (st.swept + UInt32.ofNat left.length).toNat = st.swept.toNat + left.length := by
          rw [UInt32.toNat_add, h32]
          omega
        have hsize : (st.round validator delegations left).size = delegations.length := by
          simp [Round.size, Sweep.round, hjailed]
        have hslice : left = (delegations.drop st.nextValDelIndex.toNat).take left.length := by
          rw [← hleft, List.take_length]
        have hrounds := ih hrest hnext
          (by rw [UInt32.le_iff_toNat_le]; exact hsum.trans_le (by omega))
          fun r hr => hsmall r (List.mem_cons_of_mem _ hr)
        refine Rounds.cons hn (Sweep.inRange_slice hget hswept hjailed (by omega) hslice) hrounds
          (.inr ⟨?_, ?_, ?_, hsum⟩)
        · rw [hsize]
          exact not_le.mp hinside
        · rw [hsize]
          exact hlength
        · show left.length ≤ sweepBound.toNat - st.swept.toNat
          omega

end Rounds

/-! ## A whole sweep -/

/-- The slots a sweep has processed, in order. -/
def SweepReport.slots (report : SweepReport) : List (ℕ × ℕ) := report.rounds.flatMap Round.slots

/-- The cursor of the next sweep. -/
def Store.sweepIndex (s : Store W) : ValidatorSweepIndex := s.validatorSweepIndex.getD ⟨0, 0⟩

/-- The state in which the loop starts, with `n` validators: an index beyond them starts over. -/
def ValidatorSweepIndex.start (index : ValidatorSweepIndex) (n : ℕ) : Sweep :=
  { nextValIndex := if UInt64.ofNat n ≤ index.nextValIndex then 0 else index.nextValIndex
    nextValDelIndex := if UInt64.ofNat n ≤ index.nextValIndex then 0 else index.nextValDelIndex
    swept := 0 }

theorem ValidatorSweepIndex.start_lt {n : ℕ} (hn : n < 2 ^ 63) (hpos : 0 < n)
    (index : ValidatorSweepIndex) : (index.start n).nextValIndex.toNat < n := by
  have hsize : (UInt64.ofNat n).toNat = n := by
    rw [UInt64.toNat_ofNat']
    omega
  unfold start
  dsimp only
  split
  · exact hpos
  next h => simpa [UInt64.le_iff_toNat_le, hsize] using h

section Sweep

variable {K : Keepers W} {ctx : Ctx} {s t : Store W} {report : SweepReport}

/-- A sweep reads the validators and the bound, runs the loop, and stores the cursor. -/
theorem returns_reportRewardWithdrawals
    (h : Returns (reportRewardWithdrawals K ctx) s report t) :
    (∃ w', Returns (K.staking.getAllValidators ctx) s.accounts.sdk report.validatorSet w') ∧
      report.sweepBound = s.currentParams.maxSweepPerBlock ∧
      ∃ st s' t', Returns (sweepRounds K ctx report.validatorSet report.sweepBound
          s.currentParams.minPartialWithdrawalAmount report.validatorSet.length
          (s.sweepIndex.start report.validatorSet.length)) s' (st, report.rounds) t' ∧
        t.sweepIndex = ⟨st.nextValIndex, st.nextValDelIndex⟩ := by
  simp only [reportRewardWithdrawals, returns_bind, returns_wrapErr, returns_call,
    returns_maxSweepPerBlock, returns_minPartialWithdrawalAmount, returns_pure,
    getValidatorSweepIndex, returns_get] at h
  obtain ⟨_, _, ⟨_, _, ⟨rfl, rfl⟩, rfl, rfl⟩, validatorSet, _, ⟨w', hall, rfl⟩, _, _, ⟨rfl, rfl⟩,
    _, _, ⟨rfl, rfl⟩, ⟨st, rounds⟩, t', hloop, _, _, hset, rfl, rfl⟩ := h
  obtain rfl := returns_modify.mp hset
  exact ⟨⟨w', hall⟩, rfl, st, _, t', hloop, rfl⟩

/-- The rounds of a sweep are those of a loop, in a list of validators that is not empty. -/
theorem rounds_of_report (h : Returns (reportRewardWithdrawals K ctx) s report t)
    (hn : report.validatorSet.length < 2 ^ 63) (hpos : 0 < report.validatorSet.length)
    (hsmall : ∀ r ∈ report.rounds, r.validator.jailed = false → r.delegations.length < 2 ^ 32) :
    ∃ swept, Rounds report.validatorSet report.sweepBound report.validatorSet.length
      (s.sweepIndex.start report.validatorSet.length)
      ⟨t.sweepIndex.nextValIndex, t.sweepIndex.nextValDelIndex, swept⟩ report.rounds := by
  obtain ⟨_, _, st, s', t', hloop, hindex⟩ := returns_reportRewardWithdrawals h
  rw [hindex]
  exact ⟨st.swept, rounds_of_returns hn hloop
    (ValidatorSweepIndex.start_lt hn hpos _) (UInt32.zero_le) hsmall⟩

/-- Once around the list no validator comes twice. -/
theorem Rounds.nodup_indices {validatorSet : List Validator} {sweepBound : UInt32} {st st' : Sweep}
    {rounds : List Round} (h : Rounds validatorSet sweepBound validatorSet.length st st' rounds) :
    ((rounds.map Round.bucket).map Prod.fst).Nodup := by
  rw [List.map_map]
  show (rounds.map fun r => r.nextValIndex.toNat).Nodup
  rw [h.indices]
  have hle := h.length_le
  refine List.nodup_range.map_on fun i hi j hj hmod => ?_
  rw [List.mem_range] at hi hj
  have hcongr : i ≡ j [MOD validatorSet.length] := Nat.ModEq.add_left_cancel' _ hmod
  exact hcongr.eq_of_lt_of_lt (by omega) (by omega)

/-- Where the next sweep starts: at the beginning of a validator, or at a delegation of one that
is not jailed. -/
theorem Rounds.stored {validatorSet : List Validator} {sweepBound : UInt32} {st st' : Sweep}
    {rounds : List Round} (hpos : 0 < validatorSet.length)
    (h : Rounds validatorSet sweepBound validatorSet.length st st' rounds) :
    st'.nextValIndex.toNat < validatorSet.length ∧
      (st'.nextValDelIndex = 0 ∨ ∃ r ∈ rounds, r.nextValIndex = st'.nextValIndex ∧
        r.validator.jailed = false ∧ st'.nextValDelIndex.toNat < r.delegations.length) := by
  have hstop := h.stop
  split at hstop
  next c hc =>
    rw [hstop] at hc
    obtain ⟨m, hmem, hlt⟩ := stop_mem hc
    obtain ⟨r, hr, hbucket⟩ := List.mem_map.mp hmem
    obtain ⟨hindex, hsize⟩ := Prod.mk.inj hbucket
    have hfound := (List.getElem?_eq_some_iff.mp (h.inRange r hr).index).1
    have hjailed : r.validator.jailed = false := by
      by_contra hjailed
      rw [← hsize, Round.size, if_pos (by simpa using hjailed)] at hlt
      exact absurd hlt (Nat.not_lt_zero _)
    refine ⟨hindex ▸ hfound, .inr ⟨r, hr, UInt64.toNat_inj.mp hindex, hjailed, ?_⟩⟩
    rwa [← hsize, Round.size, hjailed] at hlt
  next hc =>
    obtain ⟨_, hlast, hdel⟩ := hstop
    rw [if_neg (by omega)] at hdel
    exact ⟨hlast ▸ Nat.mod_lt _ hpos, .inl hdel⟩

/-- **The sweep is safe for any stored cursor.** It is the sweep with a report, so it never
indexes the validators out of range. In every call that returns, each round indexes, slices and
subtracts within bounds, and processes nothing of a jailed validator; at most the bound is
processed, nothing twice; and the stored cursor is at the beginning of a validator or at a
delegation of one that is not jailed, or (0, 0) when there are no validators.

A Go slice has fewer than `2 ^ 63` elements, which is what is asked of the validators. -/
theorem sweep_safe_for_any_cursor {K : Keepers W} {ctx : Ctx} {s : Store W}
    (hslice : ∀ vs w', Returns (K.staking.getAllValidators ctx) s.accounts.sdk vs w' →
      vs.length < 2 ^ 63) :
    (processRewardWithdrawals K ctx).run s = (do
        let _ ← reportRewardWithdrawals K ctx
        pure ()).run s ∧
      ∀ report t, Returns (reportRewardWithdrawals K ctx) s report t →
        (∀ r ∈ report.rounds, r.validator.jailed = false → r.delegations.length < 2 ^ 32) →
        report.sweepBound = s.currentParams.maxSweepPerBlock ∧
        (∀ r ∈ report.rounds, r.InRange report.validatorSet report.sweepBound) ∧
        report.slots.length ≤ report.sweepBound.toNat ∧ report.slots.Nodup ∧
        (report.validatorSet = [] → t.sweepIndex = ⟨0, 0⟩) ∧
        (report.validatorSet ≠ [] →
          t.sweepIndex.nextValIndex.toNat < report.validatorSet.length ∧
          (t.sweepIndex.nextValDelIndex = 0 ∨ ∃ r ∈ report.rounds,
            r.nextValIndex = t.sweepIndex.nextValIndex ∧ r.validator.jailed = false ∧
              t.sweepIndex.nextValDelIndex.toNat < r.delegations.length)) := by
  refine ⟨processRewardWithdrawals_eq hslice, fun report t h hsmall => ?_⟩
  obtain ⟨⟨w', hall⟩, hbound, st, s', t', hloop, hindex⟩ := returns_reportRewardWithdrawals h
  have hn := hslice _ _ hall
  refine ⟨hbound, ?_⟩
  rcases Nat.eq_zero_or_pos report.validatorSet.length with hempty | hpos
  · have hnil : report.validatorSet = [] := List.eq_nil_of_length_eq_zero hempty
    rw [hempty] at hloop
    obtain ⟨hpair, _⟩ := returns_pure.mp hloop
    obtain ⟨hst, hrounds⟩ := Prod.mk.inj hpair
    refine ⟨by simp [← hrounds], by simp [SweepReport.slots, ← hrounds],
      by simp [SweepReport.slots, ← hrounds], fun _ => ?_, fun hne => absurd hnil hne⟩
    rw [hindex, ← hst]
    simp [ValidatorSweepIndex.start]
  · obtain ⟨swept, hrounds⟩ := rounds_of_report h hn hpos hsmall
    refine ⟨hrounds.inRange, ?_, ?_, fun hnil => ?_, fun _ => hrounds.stored hpos⟩
    · rw [SweepReport.slots, ← hrounds.taken]
      exact (length_taken_le _ _ _).trans (Nat.sub_le _ _)
    · rw [SweepReport.slots, ← hrounds.taken]
      exact (nodup_slots hrounds.nodup_indices).sublist (taken_sublist _ _ _)
    · rw [hnil] at hpos
      exact absurd hpos (Nat.lt_irrefl 0)

end Sweep

/-- A validator of the ledger, named by one byte. -/
def sampleValidator (name : UInt8) (jailed : Bool) : Validator :=
  ⟨Ledger.encode [name], jailed, 0, 1, "", none⟩

/-- Three validators: a jailed one, one with two delegations, and one with one. -/
def threeValidators : Ledger :=
  { Ledger.empty with
    validators := [sampleValidator 1 true, sampleValidator 2 false, sampleValidator 3 false]
    delegations := [⟨Ledger.encode [7], Ledger.encode [2], 1⟩,
      ⟨Ledger.encode [8], Ledger.encode [2], 1⟩, ⟨Ledger.encode [9], Ledger.encode [3], 1⟩] }

/-- A store with these validators, a bound of two and some cursor. -/
def sweepStore (cursor : ValidatorSweepIndex) : Store Ledger :=
  { Store.fresh threeValidators with
    params := some ⟨32, 2, 8, ""⟩
    validatorSweepIndex := some cursor }

/-- A context; the ledger looks at none. -/
def sampleCtx : Ctx := ⟨"", 1, 0, [], .finalize⟩

theorem threeValidators_slice {cursor : ValidatorSweepIndex} (vs : List Validator) (w' : Ledger)
    (h : Returns (Ledger.keepers.staking.getAllValidators sampleCtx)
      (sweepStore cursor).accounts.sdk vs w') : vs.length < 2 ^ 63 := by
  obtain ⟨_, _, hget, h⟩ := returns_bind.mp h
  obtain ⟨rfl, rfl⟩ := returns_get.mp hget
  obtain ⟨rfl, _⟩ := returns_pure.mp h
  show threeValidators.validators.length < 2 ^ 63
  decide

/-- A cursor beyond the validators starts over: the jailed validator is passed over, and the
bound is reached with the second one. -/
theorem leftover_cursor_starts_over : ∃ report t,
    Returns (reportRewardWithdrawals Ledger.keepers sampleCtx) (sweepStore ⟨5, 7⟩) report t ∧
    report.slots = [(1, 0), (1, 1)] ∧ report.slots.Nodup ∧
    t.sweepIndex.nextValIndex.toNat < report.validatorSet.length := by
  have heval : (outcome (reportRewardWithdrawals Ledger.keepers sampleCtx)
      (sweepStore ⟨5, 7⟩)).map (fun o => (o.1.slots, o.1.rounds.map fun r => r.delegations.length,
        o.1.validatorSet.length)) = some ([(1, 0), (1, 1)], [0, 2, 1], 3) := by decide +kernel
  obtain ⟨report, t, h, hfields⟩ := returns_of_outcome heval
  simp only [Prod.mk.injEq] at hfields
  obtain ⟨hslots, hlens, hlen⟩ := hfields
  have hsmall : ∀ r ∈ report.rounds, r.validator.jailed = false →
      r.delegations.length < 2 ^ 32 := by
    intro r hr _
    have hmem : r.delegations.length ∈ [0, 2, 1] :=
      hlens ▸ List.mem_map_of_mem (f := fun r => r.delegations.length) hr
    have hall : ∀ n ∈ [0, 2, 1], n < 2 ^ 32 := by decide
    exact hall _ hmem
  obtain ⟨_, hsafe⟩ := sweep_safe_for_any_cursor (s := sweepStore ⟨5, 7⟩) threeValidators_slice
  obtain ⟨_, _, _, hnodup, _, hstored⟩ := hsafe report t h hsmall
  have hne : report.validatorSet ≠ [] := by
    rintro hnil
    rw [hnil] at hlen
    cases hlen
  exact ⟨report, t, h, hslots, hnodup, (hstored hne).1⟩

end Story.EvmStaking
