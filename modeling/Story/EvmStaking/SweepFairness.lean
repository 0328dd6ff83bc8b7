/-
# Story.EvmStaking.SweepFairness -- the reward sweep reaches everybody

As long as the validators and their delegations stay the same, a sweep is a turn around
a circle of buckets: the validators in their order, each with its delegations, and the
jailed ones empty. Sweep after sweep then takes a contiguous segment of the circle, and
one sweep more than the bound asks for reaches every delegation.
-/
import Story.EvmStaking.Sweep

namespace Story.EvmStaking

open Story.Effect Story.Errors Story.Sdk Story.Collections

variable {W : Type}

/-! ## Sweeps that find the same -/

/-- What every sweep finds: the validators, the delegations of each, and the bound. -/
structure Setting where
  validators : List Validator
  delegations : ℕ → List Delegation
  sweepBound : UInt32

/-- The number of delegations of a validator that can be swept: a jailed one has none. -/
def Setting.size (S : Setting) (i : ℕ) : ℕ :=
  match S.validators[i]? with
  | some validator => if validator.jailed then 0 else (S.delegations i).length
  | none => 0

/-- The pairs of an unjailed validator and a delegation to it, in the order of the sweep. -/
def Setting.pairs (S : Setting) : List (ℕ × ℕ) := circle S.validators.length S.size

/-- The delegation of a pair, and its validator. -/
def Setting.delegation (S : Setting) (pair : ℕ × ℕ) : Option (Validator × Delegation) := do
  let validator ← S.validators[pair.1]?
  let delegation ← (S.delegations pair.1)[pair.2]?
  return (validator, delegation)

/-- The sweep has found this. -/
structure Setting.Finds (S : Setting) (report : SweepReport) : Prop where
  validators : report.validatorSet = S.validators
  bound : report.sweepBound = S.sweepBound
  delegations : ∀ r ∈ report.rounds, r.validator.jailed = false →
    r.delegations = S.delegations r.nextValIndex.toNat

/-- What a sweep has processed, in order. -/
def SweepReport.processed (report : SweepReport) : List (Validator × Delegation) :=
  report.rounds.flatMap fun r => r.processed.map (r.validator, ·)

/-- The cursor as a position in the list of validators and a place among the delegations. -/
def Store.cursor (s : Store W) : ℕ × ℕ :=
  (s.sweepIndex.nextValIndex.toNat, s.sweepIndex.nextValDelIndex.toNat)

theorem Store.cursor_congr {s s' : Store W} (h : s'.sweepIndex = s.sweepIndex) :
    s'.cursor = s.cursor := by
  rw [cursor, cursor, h]

/-- A call of the sweep from `s` to `t`, after anything that has left the cursor alone. -/
def Setting.Sweeps (S : Setting) (K : Keepers W) (report : SweepReport) (s t : Store W) : Prop :=
  ∃ ctx s', s'.sweepIndex = s.sweepIndex ∧ Returns (processRewardWithdrawals K ctx) s' () t ∧
    Returns (reportRewardWithdrawals K ctx) s' report t ∧ S.Finds report

/-! ## A sweep is a turn -/

section Turn

variable {S : Setting} {K : Keepers W} {ctx : Ctx} {s t : Store W} {report : SweepReport}

theorem Setting.Finds.size_eq (hfinds : S.Finds report) {r : Round} (hr : r ∈ report.rounds)
    (hrange : r.InRange report.validatorSet report.sweepBound) :
    r.size = S.size r.nextValIndex.toNat := by
  have hindex := hrange.index
  rw [hfinds.validators] at hindex
  rw [Round.size, Setting.size, hindex]
  dsimp only
  cases hjailed : r.validator.jailed with
  | true => rfl
  | false => rw [hfinds.delegations r hr hjailed]

/-- The rounds are the first buckets of the circle, from the cursor on. -/
theorem Setting.Finds.buckets_eq (hfinds : S.Finds report) {st st' : Sweep}
    (h : Rounds report.validatorSet report.sweepBound report.validatorSet.length st st'
      report.rounds) :
    report.rounds.map Round.bucket =
      ((buckets S.validators.length S.size).rotate st.nextValIndex.toNat).take
        report.rounds.length := by
  have hle := h.length_le
  rw [hfinds.validators] at hle
  have hindices := h.indices
  rw [hfinds.validators] at hindices
  refine List.ext_getElem ?_ fun k hk _ => ?_
  · simp [length_buckets, hle]
  have hk' : k < report.rounds.length := by simpa using hk
  have hindex : (report.rounds[k]).nextValIndex.toNat =
      (st.nextValIndex.toNat + k) % S.validators.length := by
    have hmap := congrArg (fun l => l[k]?) hindices
    simpa [hk'] using hmap
  have hsize := hfinds.size_eq (List.getElem_mem hk') (h.inRange _ (List.getElem_mem hk'))
  rw [List.getElem_map, Round.bucket, hsize, hindex, List.getElem_take, List.getElem_rotate]
  simp [buckets, Nat.add_comm k]

/-- **A sweep is a turn around the circle.** -/
theorem turns_of_report (hn : S.validators.length < 2 ^ 63)
    (hsmall : ∀ i, (S.delegations i).length < 2 ^ 32) (hfinds : S.Finds report)
    (h : Returns (reportRewardWithdrawals K ctx) s report t)
    (hcursor : s.cursor.1 < S.validators.length) :
    Turns S.validators.length S.size S.sweepBound.toNat report.slots s.cursor t.cursor := by
  have hset := hfinds.validators
  have hpos : 0 < report.validatorSet.length := by rw [hset]; omega
  obtain ⟨swept, hrounds⟩ := rounds_of_report h (by rw [hset]; exact hn) hpos
    fun r hr hjailed => by rw [hfinds.delegations r hr hjailed]; exact hsmall _
  -- the stored cursor is one of the list, so the loop starts there
  have hstart : s.sweepIndex.start report.validatorSet.length =
      ⟨s.sweepIndex.nextValIndex, s.sweepIndex.nextValDelIndex, 0⟩ := by
    have hsize : (UInt64.ofNat S.validators.length).toNat = S.validators.length := by
      rw [UInt64.toNat_ofNat']
      omega
    have hinside : ¬ UInt64.ofNat S.validators.length ≤ s.sweepIndex.nextValIndex := by
      rw [UInt64.le_iff_toNat_le, hsize]
      exact not_le.mpr hcursor
    simp [ValidatorSweepIndex.start, hset, hinside]
  rw [hstart] at hrounds
  have hbuckets := hfinds.buckets_eq hrounds
  have htaken := hrounds.taken
  have hstop := hrounds.stop
  rw [UInt32.toNat_zero, Nat.sub_zero, hfinds.bound] at htaken hstop
  generalize hwalk : walk (report.rounds.map Round.bucket) s.sweepIndex.nextValDelIndex.toNat
    S.sweepBound.toNat = w at htaken hstop
  have hturn : turn S.validators.length S.size S.sweepBound.toNat s.cursor = w := by
    rw [← hwalk, hbuckets, turn]
    show walk ((buckets S.validators.length S.size).rotate s.sweepIndex.nextValIndex.toNat)
      s.sweepIndex.nextValDelIndex.toNat S.sweepBound.toNat = _
    cases hw : w.stop with
    | some c =>
        rw [← hwalk, hbuckets] at hw
        rw [← walk_append_of_stop hw, List.take_append_drop]
    | none =>
        rw [hw] at hstop
        rw [List.take_of_length_le]
        rw [List.length_rotate, length_buckets, hstop.1, hset]
  refine ⟨by rw [hturn, htaken]; rfl, ?_⟩
  rw [nextCursor, hturn]
  cases hw : w.stop with
  | some c =>
      rw [hw] at hstop
      exact hstop
  | none =>
      rw [hw] at hstop
      obtain ⟨_, hlast, hdel⟩ := hstop
      rw [if_neg (by omega)] at hdel
      rw [hset, Nat.add_mod_right] at hlast
      have hplace : t.sweepIndex.nextValDelIndex = 0 := hdel
      refine Prod.ext (hlast.trans (Nat.mod_eq_of_lt hcursor)).symm ?_
      show 0 = t.sweepIndex.nextValDelIndex.toNat
      rw [hplace]
      rfl

/-- The slots of a sweep stand for what it has processed. -/
theorem processed_eq (hn : S.validators.length < 2 ^ 63)
    (hsmall : ∀ i, (S.delegations i).length < 2 ^ 32) (hfinds : S.Finds report)
    (h : Returns (reportRewardWithdrawals K ctx) s report t)
    (hpos : 0 < S.validators.length) :
    report.processed.map some = report.slots.map S.delegation := by
  have hset := hfinds.validators
  obtain ⟨swept, hrounds⟩ := rounds_of_report h (by rw [hset]; exact hn) (by rw [hset]; exact hpos)
    fun r hr hjailed => by rw [hfinds.delegations r hr hjailed]; exact hsmall _
  rw [SweepReport.processed, SweepReport.slots, List.map_flatMap, List.map_flatMap]
  refine List.flatMap_congr fun r hr => ?_
  have hrange := hrounds.inRange r hr
  have hindex := hrange.index
  rw [hset] at hindex
  rw [Round.slots, List.map_map, List.map_map]
  refine List.ext_getElem (by simp) fun k hk _ => ?_
  have hk : k < r.processed.length := by simpa using hk
  have hjailed : r.validator.jailed = false := by
    by_contra hjailed
    rw [hrange.jailed (by simpa using hjailed)] at hk
    exact absurd hk (Nat.not_lt_zero k)
  have hget : (S.delegations r.nextValIndex.toNat)[r.nextValDelIndex.toNat + k]? =
      some r.processed[k] := by
    rw [← hfinds.delegations r hr hjailed, ← List.getElem?_drop,
      ← List.getElem?_take_of_lt hk, ← hrange.processed, List.getElem?_eq_getElem hk]
  simp [Setting.delegation, hindex, hget]

end Turn

/-! ## Sweep after sweep -/

/-- The calls are turns around the circle. -/
theorem turns_of_sweeps {S : Setting} {K : Keepers W} (hn : S.validators.length < 2 ^ 63)
    (hsmall : ∀ i, (S.delegations i).length < 2 ^ 32) {s t : Store W} {reports : List SweepReport}
    (hstart : OnCircle S.validators.length S.size s.cursor)
    (run : Trace (S.Sweeps K) s reports t) :
    Trace (Turns S.validators.length S.size S.sweepBound.toNat) s.cursor
      (reports.map SweepReport.slots) t.cursor := by
  induction run with
  | nil => exact .nil
  | snoc _ hsweep ih =>
      obtain ⟨ctx, s', hsame, _, hreport, hfinds⟩ := hsweep
      have hcursor := Store.cursor_congr hsame
      have hbucket := (swept hstart ih).onCircle.bucket
      rw [List.map_append]
      refine ih.snoc (a := SweepReport.slots _) ?_
      rw [← hcursor] at hbucket ⊢
      exact turns_of_report hn hsmall hfinds hreport hbucket

/-- A call with a report is a call. -/
theorem returns_of_report {K : Keepers W} {ctx : Ctx} {s t : Store W} {report : SweepReport}
    (h : Returns (reportRewardWithdrawals K ctx) s report t)
    (hn : report.validatorSet.length < 2 ^ 63) :
    Returns (processRewardWithdrawals K ctx) s () t := by
  obtain ⟨⟨w', hall⟩, _⟩ := returns_reportRewardWithdrawals h
  rw [returns_iff, processRewardWithdrawals_eq]
  · exact h.bind (returns_pure.mpr ⟨rfl, rfl⟩)
  · intro vs w hvs
    obtain ⟨rfl, _⟩ := hall.unique hvs
    exact hn

/-- **The sweep visits everybody, fairly.** From a cursor at the beginning of a validator or at a
pair, what consecutive calls process, taken together, is a contiguous segment of the circle of
pairs, from the cursor on; every call processes something, if there is anything; and one call
more than the bound asks for has processed every pair.

A Go slice has fewer than `2 ^ 63` elements, which is what is asked of the validators. -/
theorem sweep_visits_everybody {S : Setting} {K : Keepers W}
    (hn : S.validators.length < 2 ^ 63) (hsmall : ∀ i, (S.delegations i).length < 2 ^ 32)
    (hbound : 0 < S.sweepBound.toNat) {s t : Store W} {reports : List SweepReport}
    (hstart : OnCircle S.validators.length S.size s.cursor)
    (run : Trace (S.Sweeps K) s reports t) :
    (∀ report ∈ reports, report.processed.map some = report.slots.map S.delegation) ∧
      Segment S.pairs (rank S.validators.length S.size s.cursor)
        (reports.map SweepReport.slots).flatten ∧
      (S.pairs ≠ [] → ∀ report ∈ reports, report.slots ≠ []) ∧
      (S.pairs.length ⌈/⌉ S.sweepBound.toNat + 1 ≤ reports.length →
        ∀ pair ∈ S.pairs, pair ∈ (reports.map SweepReport.slots).flatten) := by
  have hswept := swept hstart (turns_of_sweeps hn hsmall hstart run)
  refine ⟨?_, hswept.segment, ?_, ?_⟩
  · refine run.invariant (I := fun reports _ => ∀ report ∈ reports,
      report.processed.map some = report.slots.map S.delegation) (by simp) ?_
    rintro reports report _ _ hreports ⟨ctx, s', _, _, hreport, hfinds⟩ report' hmem
    rcases List.mem_append.mp hmem with hmem | hmem
    · exact hreports report' hmem
    · rw [List.mem_singleton.mp hmem]
      exact processed_eq hn hsmall hfinds hreport (Nat.zero_lt_of_lt hstart.bucket)
  · intro hsome report hreport
    exact hswept.nonempty hbound hsome _ (List.mem_map_of_mem hreport)
  · intro hcalls pair hpair
    exact hswept.reaches_all hbound (by rw [List.length_map]; exact hcalls) hpair

instance (S : Setting) (report : SweepReport) : Decidable (S.Finds report) :=
  decidable_of_iff (report.validatorSet = S.validators ∧ report.sweepBound = S.sweepBound ∧
      ∀ r ∈ report.rounds, r.validator.jailed = false →
        r.delegations = S.delegations r.nextValIndex.toNat)
    ⟨fun h => ⟨h.1, h.2.1, h.2.2⟩, fun h => ⟨h.validators, h.bound, h.delegations⟩⟩

/-- What a sweep of `sweepStore` finds. -/
def sampleSetting : Setting where
  validators := threeValidators.validators
  delegations := fun i =>
    threeValidators.delegations.filter fun d =>
      d.validatorAddress = Ledger.encode [UInt8.ofNat (i + 1)]
  sweepBound := 2

/-- Three calls reach the three pairs, from the last delegation of the second validator on. The
first call comes around with its bound used up; the two others stop. -/
theorem three_calls_reach_all : ∃ reports t,
    Trace (sampleSetting.Sweeps Ledger.keepers) (sweepStore ⟨1, 1⟩) reports t ∧
    (reports.map SweepReport.slots).flatten =
      [(1, 1), (2, 0), (1, 0), (1, 1), (2, 0), (1, 0)] ∧
    ∀ pair ∈ sampleSetting.pairs, pair ∈ (reports.map SweepReport.slots).flatten := by
  have heval : (outcome (do
        let a ← reportRewardWithdrawals Ledger.keepers sampleCtx
        let b ← reportRewardWithdrawals Ledger.keepers sampleCtx
        let c ← reportRewardWithdrawals Ledger.keepers sampleCtx
        pure (a, b, c)) (sweepStore ⟨1, 1⟩)).map (fun o =>
          (([o.1.1, o.1.2.1, o.1.2.2].map SweepReport.slots).flatten,
            decide (sampleSetting.Finds o.1.1 ∧ sampleSetting.Finds o.1.2.1 ∧
              sampleSetting.Finds o.1.2.2))) =
      some ([(1, 1), (2, 0), (1, 0), (1, 1), (2, 0), (1, 0)], true) := by decide +kernel
  obtain ⟨⟨a, b, c⟩, t, h, hfields⟩ := returns_of_outcome heval
  obtain ⟨hslots, hfinds⟩ := Prod.mk.inj hfields
  obtain ⟨hfa, hfb, hfc⟩ := of_decide_eq_true hfinds
  simp only [returns_bind, returns_pure] at h
  obtain ⟨_, s₁, ha, _, s₂, hb, _, s₃, hc, habc, rfl⟩ := h
  simp only [Prod.mk.injEq] at habc
  obtain ⟨rfl, rfl, rfl⟩ := habc
  have hlen : sampleSetting.validators.length < 2 ^ 63 := by decide
  have hsweeps {s t : Store Ledger} {report : SweepReport}
      (h : Returns (reportRewardWithdrawals Ledger.keepers sampleCtx) s report t)
      (hf : sampleSetting.Finds report) :
      sampleSetting.Sweeps Ledger.keepers report s t :=
    ⟨sampleCtx, s, rfl, returns_of_report h (by rw [hf.validators]; exact hlen), h, hf⟩
  have run := ((Trace.nil.snoc (hsweeps ha hfa)).snoc (hsweeps hb hfb)).snoc (hsweeps hc hfc)
  have hsmall (i : ℕ) : (sampleSetting.delegations i).length < 2 ^ 32 :=
    (List.length_filter_le _ _).trans_lt (by decide)
  have hstart : OnCircle sampleSetting.validators.length sampleSetting.size
      (sweepStore ⟨1, 1⟩).cursor := ⟨by decide, .inr (by decide +kernel)⟩
  obtain ⟨_, _, _, hall⟩ := sweep_visits_everybody hlen hsmall (by decide) hstart run
  have hcalls : sampleSetting.pairs.length ⌈/⌉ sampleSetting.sweepBound.toNat + 1 ≤ 3 := by
    decide +kernel
  exact ⟨_, _, run, hslots, hall hcalls⟩

end Story.EvmStaking
