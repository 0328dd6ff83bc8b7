/-
# Story.Contracts.UBIPoolBooks -- the pool can pay what it owes, and pays it once

While a claim pays the caller, its entry is cleared and its amount has left the balance,
but it is still counted in the total. The books are therefore stated with an amount in
flight: what is owed and in flight is covered by the total, and the total by the balance
and what is in flight. Every function keeps that for every amount in flight, whatever
the code it pays does; between transactions nothing is in flight.
-/
import Story.Contracts.UBIPool

namespace Story.Contracts.UBIPool

open Story.Effect Story.Eth Story.Evm Story.Collections

variable {V : Crypto} {maxUBIPercentage : UInt32} {s t : UBIPool}

/-! ## Writing a distribution -/

theorem finite_writeAll {m : Entry → Nat} (h : m.support.Finite) (id : Nat)
    (pairs : List (Bytes × Nat)) : (writeAll id m pairs).support.Finite := by
  induction pairs generalizing m with
  | nil => exact h
  | cons p pairs ih => exact ih (finite_support_update h _ _)

/-- What is owed grows by no more than the sum of the amounts. -/
theorem total_writeAll_le {m : Entry → Nat} (h : m.support.Finite) (id : Nat)
    (pairs : List (Bytes × Nat)) :
    total (writeAll id m pairs) ≤ total m + (pairs.map Prod.snd).sum := by
  induction pairs generalizing m with
  | nil => simp [writeAll]
  | cons p pairs ih =>
      have hrest := ih (finite_support_update h (id, p.1) p.2)
      have hone := total_update h (id, p.1) p.2
      simp only [writeAll, List.foldl_cons, List.map_cons, List.sum_cons] at hrest ⊢
      omega

/-- It grows by the sum when the keys are distinct and have no entry yet. -/
theorem total_writeAll_eq {m : Entry → Nat} (h : m.support.Finite) {id : Nat}
    {pairs : List (Bytes × Nat)} (hnew : ∀ p ∈ pairs, m (id, p.1) = 0)
    (hdistinct : (pairs.map Prod.fst).Nodup) :
    total (writeAll id m pairs) = total m + (pairs.map Prod.snd).sum := by
  induction pairs generalizing m with
  | nil => simp [writeAll]
  | cons p pairs ih =>
      obtain ⟨hp, hdistinct⟩ := List.nodup_cons.mp hdistinct
      have hnew' : ∀ q ∈ pairs, Function.update m (id, p.1) p.2 (id, q.1) = 0 := by
        intro q hq
        -- a later key is another one, so the entry just written is not its own
        have hne : (id, q.1) ≠ (id, p.1) := by
          intro heq
          exact hp (List.mem_map.mpr ⟨q, hq, (Prod.mk.inj heq).2⟩)
        rw [Function.update_of_ne hne]
        exact hnew q (List.mem_cons_of_mem _ hq)
      have hrest := ih (finite_support_update h (id, p.1) p.2) hnew' hdistinct
      have hone := total_update h (id, p.1) p.2
      have hzero := hnew p List.mem_cons_self
      simp only [writeAll, List.foldl_cons, List.map_cons, List.sum_cons] at hrest ⊢
      omega

/-- Entries of other distributions are not written. -/
theorem writeAll_of_ne {id : Nat} {entry : Entry} (hne : entry.1 ≠ id) (m : Entry → Nat)
    (pairs : List (Bytes × Nat)) : writeAll id m pairs entry = m entry := by
  induction pairs generalizing m with
  | nil => rfl
  | cons p pairs ih =>
      have hentry : entry ≠ (id, p.1) := fun heq => hne (congrArg Prod.fst heq)
      exact (ih _).trans (Function.update_of_ne hentry _ _)

/-! ## The books -/

/-- What the pool owes. -/
noncomputable def owed (s : UBIPool) : Nat := total s.validatorUBIAmounts

/-- The books with `inFlight` on its way to a caller. -/
structure Solvent (inFlight : Nat) (s : UBIPool) : Prop where
  finite : s.validatorUBIAmounts.support.Finite
  owed_le : s.owed + inFlight ≤ s.totalPendingClaims
  le_balance : s.totalPendingClaims ≤ s.balance + inFlight

theorem Solvent.deployed (owner : Address) : Solvent 0 (deployed owner) where
  finite := by simp [UBIPool.deployed, Function.support]
  owed_le := by simp [owed, total_eq_zero, UBIPool.deployed]
  le_balance := by simp [UBIPool.deployed]

/-- An entry is never more than what is owed. -/
theorem Solvent.entry_le {inFlight : Nat} (h : Solvent inFlight s) (entry : Entry) :
    s.validatorUBIAmounts entry ≤ s.owed := by
  have hone := total_update h.finite entry 0
  unfold owed
  omega

theorem Solvent.setUBIDistribution {inFlight : Nat} (h : Solvent inFlight s) {sender : Address}
    {totalUBI : Nat} {keys : List Bytes} {amounts : List Nat} {u : Unit}
    (hset : Returns (UBIPool.setUBIDistribution V sender totalUBI keys amounts) s u t) :
    Solvent inFlight t := by
  obtain ⟨_, hbalance, hsum, _, rfl⟩ := returns_setUBIDistribution hset
  have howed := h.owed_le
  have hwrite := total_writeAll_le h.finite (s.currentDistributionId + 1) (keys.zip amounts)
  refine ⟨finite_writeAll h.finite _ _, ?_, ?_⟩
  · simp only [owed] at howed ⊢
    omega
  · simp only
    omega

/-- While the caller is paid, its amount is in flight as well. -/
theorem Solvent.paidOut {inFlight : Nat} (h : Solvent inFlight s) (entry : Entry) :
    Solvent (inFlight + s.validatorUBIAmounts entry) (s.paidOut entry) := by
  have hone := total_update h.finite entry 0
  have howed := h.owed_le
  have hbalance := h.le_balance
  refine ⟨finite_support_update h.finite entry 0, ?_, ?_⟩
  · simp only [owed, UBIPool.paidOut] at howed ⊢
    omega
  · simp only [UBIPool.paidOut]
    omega

theorem Solvent.settled {inFlight amount : Nat} (h : Solvent (inFlight + amount) s) :
    Solvent inFlight (s.settled amount) := by
  have howed := h.owed_le
  have hbalance := h.le_balance
  refine ⟨h.finite, ?_, ?_⟩
  · simp only [owed, UBIPool.settled] at howed ⊢
    omega
  · simp only [UBIPool.settled]
    omega

/-! ## From functions to scripts -/

/-- What a family of invariants must survive: credits, a change of the owner, a distribution,
and a claim, of which the two halves meet in another invariant of the family. -/
structure Kept {ι : Type} (V : Crypto) (I : ι → UBIPool → Prop) : Prop where
  credit : ∀ i s amount, I i s → I i { s with balance := s.balance + amount }
  owner : ∀ i s owner, I i s → I i { s with owner := owner }
  distribution : ∀ i s t sender totalUBI keys amounts, I i s →
    Returns (UBIPool.setUBIDistribution V sender totalUBI keys amounts) s () t → I i t
  claim : ∀ i s entry, s.entered = false → 0 < s.validatorUBIAmounts entry → I i s →
    ∃ j, I j (s.paidOut entry) ∧ ∀ q, I j q → I i (q.settled (s.validatorUBIAmounts entry))

variable {ι : Type} {I : ι → UBIPool → Prop}

/-- **One call** keeps such a family. -/
theorem Kept.exec (h : Kept V I) {sender : Address} {value : Nat} {fn : Fn}
    {recipient : Tx UBIPool Unit} (hrecipient : ∀ i, Keeps (I i) recipient) (i : ι) :
    Keeps (I i) (UBIPool.exec V maxUBIPercentage sender value fn recipient) := by
  intro s u t hs hret
  obtain ⟨_, _, hvalue, hret⟩ := returns_bind.mp hret
  obtain ⟨_, rfl⟩ := returns_require.mp hvalue
  cases fn with
  | setUBIPercentage percentage =>
      obtain ⟨_, _, hret⟩ := ReadOnly.returns_bind_iff.mp hret
      obtain ⟨_, rfl⟩ := returns_require.mp hret
      exact hs
  | setUBIDistribution totalUBI keys amounts => exact h.distribution _ _ _ _ _ _ _ hs hret
  | claimUBI distributionId key =>
      obtain ⟨hentered, _, hpos, _, q, hrun, _, rfl⟩ := returns_claimUBI.mp hret
      obtain ⟨j, hpaid, hsettled⟩ := h.claim i s (distributionId, key) hentered hpos hs
      exact hsettled q (hrecipient j _ _ _ hpaid hrun)
  | setOwner newOwner =>
      obtain rfl := returns_modify.mp hret
      exact h.owner _ _ _ hs

/-- **Every script** keeps such a family, and so does the code of every recipient. -/
theorem Kept.perform (h : Kept V I) (script : Script Address Fn) (batch : Option Address)
    (i : ι) : Keeps (I i) ((contract V maxUBIPercentage).perform batch script) :=
  (contract V maxUBIPercentage).perform_keeps (fun i n s => h.credit i s n)
    (fun _ _ _ _ hpay i => h.exec hpay i) script batch i

theorem solvent_kept : Kept V Solvent where
  credit := fun _ _ _ hs => ⟨hs.finite, hs.owed_le, by have := hs.le_balance; simp only; omega⟩
  owner := fun _ _ _ hs => ⟨hs.finite, hs.owed_le, hs.le_balance⟩
  distribution := fun _ _ _ _ _ _ _ hs hset => hs.setUBIDistribution hset
  claim := fun _ _ entry _ _ hs => ⟨_, hs.paidOut entry, fun _ hq => hq.settled⟩

/-- The guard is up while a caller is paid, and only then. -/
theorem entered_kept : Kept V fun b s => s.entered = b where
  credit := fun _ _ _ hs => hs
  owner := fun _ _ _ hs => hs
  distribution := by
    intro b s t sender totalUBI keys amounts hs hset
    obtain ⟨_, _, _, _, rfl⟩ := returns_setUBIDistribution hset
    exact hs
  claim := by
    rintro b s entry hentered _ rfl
    exact ⟨true, rfl, fun _ _ => hentered.symm⟩

/-! ## Payments -/

/-- The entries as the distributions recorded them, whether claimed or not. -/
def recorded (s : UBIPool) : Entry → Nat :=
  s.distributions.foldl
    (fun m d => writeAll d.distributionId m (d.validatorCmpPubKeys.zip d.amounts)) fun _ => 0

def paymentsFor (s : UBIPool) (entry : Entry) : List Payment :=
  s.payments.filter fun p => p.entry = entry

/-- An entry is unpaid and as recorded, or has been paid once, in full. -/
def PaidOnce (s : UBIPool) (entry : Entry) : Prop :=
  s.paymentsFor entry = [] ∧ s.validatorUBIAmounts entry = s.recorded entry ∨
    s.paymentsFor entry = [⟨entry, s.recorded entry⟩] ∧ s.validatorUBIAmounts entry = 0

/-- The payments so far, and no trace of distributions to come. -/
structure History (s : UBIPool) : Prop where
  paidOnce : ∀ entry, s.PaidOnce entry
  unused : ∀ entry, s.currentDistributionId < entry.1 →
    s.paymentsFor entry = [] ∧ s.validatorUBIAmounts entry = 0

/-- What is written under a key depends on that entry alone. -/
theorem writeAll_congr {id : Nat} {m m' : Entry → Nat} {entry : Entry} (h : m entry = m' entry)
    (pairs : List (Bytes × Nat)) : writeAll id m pairs entry = writeAll id m' pairs entry := by
  induction pairs generalizing m m' with
  | nil => exact h
  | cons p pairs ih =>
      refine ih ?_
      simp only [Function.update_apply, h]

theorem History.setUBIDistribution (h : History s) {sender : Address} {totalUBI : Nat}
    {keys : List Bytes} {amounts : List Nat} {u : Unit}
    (hset : Returns (UBIPool.setUBIDistribution V sender totalUBI keys amounts) s u t) :
    History t := by
  obtain ⟨_, _, _, _, rfl⟩ := returns_setUBIDistribution hset
  constructor
  · intro entry
    by_cases hid : entry.1 = s.currentDistributionId + 1
    · -- an entry of the new distribution: nothing was paid for it
      obtain ⟨hnone, hzero⟩ := h.unused entry (by omega)
      refine .inl ⟨hnone, ?_⟩
      have hsame : s.validatorUBIAmounts entry = s.recorded entry := by
        rcases h.paidOnce entry with ⟨_, hsame⟩ | ⟨hpaid, _⟩
        · exact hsame
        · rw [hnone] at hpaid
          cases hpaid
      simp only [recorded, List.foldl_append, List.foldl_cons, List.foldl_nil]
      exact writeAll_congr hsame _
    · simpa only [PaidOnce, paymentsFor, recorded, List.foldl_append, List.foldl_cons,
        List.foldl_nil, writeAll_of_ne hid] using h.paidOnce entry
  · intro entry hid
    simp only at hid
    obtain ⟨hnone, hzero⟩ := h.unused entry (by omega)
    exact ⟨hnone, (writeAll_of_ne (by omega) _ _).trans hzero⟩

theorem History.paidOut (h : History s) {entry : Entry} (hpos : 0 < s.validatorUBIAmounts entry) :
    History (s.paidOut entry) := by
  -- a positive entry has not been paid yet, and belongs to a distribution that was set
  obtain ⟨hnone, hsame⟩ : s.paymentsFor entry = [] ∧ s.validatorUBIAmounts entry
      = s.recorded entry := by
    rcases h.paidOnce entry with hunpaid | ⟨_, hzero⟩
    · exact hunpaid
    · omega
  have hid : ¬ s.currentDistributionId < entry.1 := by
    intro hlt
    have := (h.unused entry hlt).2
    omega
  have hother (e : Entry) (hne : e ≠ entry) :
      (s.paidOut entry).paymentsFor e = s.paymentsFor e ∧
        (s.paidOut entry).validatorUBIAmounts e = s.validatorUBIAmounts e := by
    refine ⟨?_, Function.update_of_ne hne _ _⟩
    simp [paymentsFor, UBIPool.paidOut, hne.symm]
  constructor
  · intro e
    rcases eq_or_ne e entry with rfl | hne
    · refine .inr ⟨?_, Function.update_self _ _ _⟩
      simp only [paymentsFor, UBIPool.paidOut, List.filter_append] at hnone ⊢
      simp [hnone, hsame, recorded]
    · obtain ⟨hpay, hamount⟩ := hother e hne
      unfold PaidOnce
      rw [hpay, hamount]
      exact h.paidOnce e
  · intro e hlt
    obtain ⟨hpay, hamount⟩ := hother e (by rintro rfl; exact hid hlt)
    rw [hpay, hamount]
    exact h.unused e hlt

theorem history_kept : Kept V fun (_ : Unit) s => History s where
  credit := fun _ _ _ hs => ⟨hs.paidOnce, hs.unused⟩
  owner := fun _ _ _ hs => ⟨hs.paidOnce, hs.unused⟩
  distribution := fun _ _ _ _ _ _ _ hs hset => hs.setUBIDistribution hset
  claim := fun _ _ _ _ hpos hs =>
    ⟨(), hs.paidOut hpos, fun _ hq => ⟨hq.paidOnce, hq.unused⟩⟩

theorem History.deployed (owner : Address) : History (deployed owner) :=
  ⟨fun _ => .inl ⟨rfl, rfl⟩, fun _ _ => ⟨rfl, rfl⟩⟩

/-! ## The pool over its lifetime -/

/-- The pool after everything the outside world does to it from its deployment on. -/
def Reached (V : Crypto) (maxUBIPercentage : UInt32) (owner : Address)
    (script : Script Address Fn) (s : UBIPool) : Prop :=
  Returns ((contract V maxUBIPercentage).perform none script) (deployed owner) () s

/-- **The pool is solvent and never pays twice**, whatever the code of its callers does while
they are paid. What it owes is covered by the pending total, and that by its balance; a claim
of the holder of a key for an amount that is not zero goes through if the holder takes the
payment; every entry is paid at most once, as it was recorded; and a new distribution leaves
the entries of the old ones alone. -/
theorem pool_solvent_and_pays_once {owner : Address} {script : Script Address Fn}
    (h : Reached V maxUBIPercentage owner script s) :
    s.owed ≤ s.totalPendingClaims ∧ s.totalPendingClaims ≤ s.balance ∧
      (∀ distributionId key reaction q, V.ValidKey key →
        s.validatorUBIAmounts (distributionId, key) ≠ 0 →
        Returns ((contract V maxUBIPercentage).perform none reaction)
          (s.paidOut (distributionId, key)) () q →
        ∃ t, Returns (exec V maxUBIPercentage (V.holder key) 0 (.claimUBI distributionId key)
          ((contract V maxUBIPercentage).perform none reaction)) s () t) ∧
      (∀ entry, s.PaidOnce entry) ∧
      ∀ sender totalUBI keys amounts t,
        Returns (setUBIDistribution V sender totalUBI keys amounts) s () t →
        ∀ entry : Entry, entry.1 ≤ s.currentDistributionId →
          t.validatorUBIAmounts entry = s.validatorUBIAmounts entry := by
  have hsolvent : Solvent 0 s :=
    solvent_kept.perform script none 0 _ _ _ (.deployed owner) h
  have hentered : s.entered = false :=
    entered_kept.perform script none false _ _ _ rfl h
  have hhistory : History s :=
    history_kept.perform script none () _ _ _ (.deployed owner) h
  refine ⟨hsolvent.owed_le, hsolvent.le_balance, ?_, hhistory.paidOnce, ?_⟩
  · intro distributionId key reaction q hkey hamount hrecipient
    have hentry := hsolvent.entry_le (distributionId, key)
    have howed := hsolvent.owed_le
    have hbalance := hsolvent.le_balance
    -- when the recipient is done its amount is in flight, and so part of the total
    have hq := (solvent_kept.perform reaction none _ _ _ _
      (hsolvent.paidOut (distributionId, key)) hrecipient).owed_le
    refine ⟨_, Returns.bind (a := ()) (returns_require.mpr ⟨rfl, rfl⟩) (returns_claimUBI.mpr
      ⟨hentered, ⟨hkey, rfl⟩, Nat.pos_of_ne_zero hamount, by omega, q, hrecipient, by omega, rfl⟩)⟩
  · intro sender totalUBI keys amounts t hset entry hold
    obtain ⟨_, _, _, _, rfl⟩ := returns_setUBIDistribution hset
    exact writeAll_of_ne (by omega) _ _

/-- A caller who tries to claim again while being paid, and who is the owner and sets another
distribution then: the first attempt at that is not covered, the second one is. -/
def greedyOwner : Script Address Fn :=
  let owner := sampleCrypto.holder evenKey
  let again : Fn := .setUBIDistribution 1 [evenKey] [1]
  .credit 3 <| .call owner 0 (.setUBIDistribution 3 [evenKey, oddKey] [1, 2]) .done <|
    .call owner 0 (.claimUBI 1 evenKey)
      (.call owner 0 (.claimUBI 1 evenKey) .done <| .call owner 0 again .done <|
        .credit 5 <| .call owner 0 again .done .done)
      .done

theorem greedy_owner_paid_once : ∃ s,
    Reached sampleCrypto 0 (sampleCrypto.holder evenKey) greedyOwner s ∧
    s.payments = [⟨(1, evenKey), 1⟩] ∧ s.totalPendingClaims = 3 ∧ s.balance = 7 ∧
    s.owed ≤ 3 ∧ s.PaidOnce (1, evenKey) := by
  have heval : (finalState ((contract sampleCrypto 0).perform none greedyOwner)
      (deployed (sampleCrypto.holder evenKey))).map
        (fun s => (s.payments, s.totalPendingClaims, s.balance))
      = some ([⟨(1, evenKey), 1⟩], 3, 7) := by decide +kernel
  obtain ⟨s, hs, hfields⟩ := Option.map_eq_some_iff.mp heval
  simp only [Prod.mk.injEq] at hfields
  obtain ⟨hpayments, htotal, hbalance⟩ := hfields
  have hreached : Reached sampleCrypto 0 (sampleCrypto.holder evenKey) greedyOwner s :=
    returns_of_finalState hs
  obtain ⟨howed, _, _, honce, _⟩ := pool_solvent_and_pays_once hreached
  exact ⟨s, hreached, hpayments, htotal, hbalance, htotal ▸ howed, honce _⟩

/-! ## Exact books -/

/-- None of the distributions that were set names a key twice. A call that reverts leaves none
behind. -/
def DistinctKeys (s : UBIPool) : Prop := ∀ d ∈ s.distributions, d.validatorCmpPubKeys.Nodup

/-- The books are exact, with `inFlight` on its way to a caller. -/
structure Balanced (inFlight : Nat) (s : UBIPool) : Prop where
  finite : s.validatorUBIAmounts.support.Finite
  owed_eq : s.owed + inFlight = s.totalPendingClaims
  unused : ∀ entry : Entry, s.currentDistributionId < entry.1 → s.validatorUBIAmounts entry = 0

theorem Balanced.setUBIDistribution {inFlight : Nat} (h : Balanced inFlight s) {sender : Address}
    {totalUBI : Nat} {keys : List Bytes} {amounts : List Nat} {u : Unit} (hdistinct : keys.Nodup)
    (hset : Returns (UBIPool.setUBIDistribution V sender totalUBI keys amounts) s u t) :
    Balanced inFlight t := by
  obtain ⟨hlen, _, hsum, _, rfl⟩ := returns_setUBIDistribution hset
  have hkeys : ((keys.zip amounts).map Prod.fst).Nodup := by
    rwa [List.map_fst_zip hlen.le]
  have hwrite := total_writeAll_eq h.finite
    (fun p _ => h.unused (s.currentDistributionId + 1, p.1) (Nat.lt_succ_self _)) hkeys
  have howed := h.owed_eq
  refine ⟨finite_writeAll h.finite _ _, ?_, ?_⟩
  · simp only [owed] at howed ⊢
    omega
  · intro entry hid
    simp only at hid
    exact (writeAll_of_ne (by omega) _ _).trans (h.unused entry (by omega))

theorem Balanced.paidOut {inFlight : Nat} (h : Balanced inFlight s) (entry : Entry) :
    Balanced (inFlight + s.validatorUBIAmounts entry) (s.paidOut entry) := by
  have hone := total_update h.finite entry 0
  have howed := h.owed_eq
  refine ⟨finite_support_update h.finite entry 0, ?_, ?_⟩
  · simp only [owed, UBIPool.paidOut] at howed ⊢
    omega
  · intro e hid
    simp only [UBIPool.paidOut, Function.update_apply]
    split
    · rfl
    · exact h.unused e hid

theorem Balanced.settled {inFlight amount : Nat} (h : Balanced (inFlight + amount) s) :
    Balanced inFlight (s.settled amount) := by
  have howed := h.owed_eq
  refine ⟨h.finite, ?_, h.unused⟩
  simp only [owed, UBIPool.settled] at howed ⊢
  omega

/-- The distributions are never forgotten, so the keys have been distinct at every point before. -/
theorem balanced_kept : Kept V fun inFlight s => s.DistinctKeys → Balanced inFlight s where
  credit := fun _ _ _ hs hd => ⟨(hs hd).finite, (hs hd).owed_eq, (hs hd).unused⟩
  owner := fun _ _ _ hs hd => ⟨(hs hd).finite, (hs hd).owed_eq, (hs hd).unused⟩
  distribution := by
    intro inFlight s t sender totalUBI keys amounts hs hset hd
    obtain ⟨_, _, _, _, rfl⟩ := returns_setUBIDistribution hset
    have hbefore : s.DistinctKeys := fun d hmem => hd d (List.mem_append_left _ hmem)
    have hkeys : keys.Nodup := hd _ (List.mem_append_right _ List.mem_cons_self)
    exact (hs hbefore).setUBIDistribution hkeys hset
  claim := fun inFlight s entry _ _ hs =>
    ⟨inFlight + s.validatorUBIAmounts entry, fun hd => (hs hd).paidOut entry,
      fun _ hq hd => (hq hd).settled⟩

/-- **The books balance exactly** when no distribution that was set names a key twice: the
pending total is what is owed, and nothing is pending when nothing is left to claim. -/
theorem books_balance_for_distinct_keys {owner : Address} {script : Script Address Fn}
    (hdistinct : s.DistinctKeys) (h : Reached V maxUBIPercentage owner script s) :
    s.totalPendingClaims = s.owed ∧
      ((∀ entry, s.validatorUBIAmounts entry = 0) → s.totalPendingClaims = 0) := by
  have hdeployed : Balanced 0 (deployed owner) :=
    ⟨(Solvent.deployed owner).finite, by simp [owed, total_eq_zero, UBIPool.deployed],
      fun _ _ => rfl⟩
  have hbooks : Balanced 0 s :=
    balanced_kept.perform script none 0 _ _ _ (fun _ => hdeployed) h hdistinct
  have hexact : s.totalPendingClaims = s.owed := hbooks.owed_eq.symm
  refine ⟨hexact, fun hclaimed => ?_⟩
  rw [hexact]
  exact total_eq_zero hclaimed

/-- Two keys, one of which has claimed. -/
def oneClaimed : Script Address Fn :=
  .credit 3 <| .call (sampleCrypto.holder oddKey) 0
    (.setUBIDistribution 3 [evenKey, oddKey] [1, 2]) .done <|
    .call (sampleCrypto.holder evenKey) 0 (.claimUBI 1 evenKey) .done .done

theorem two_remain_pending : ∃ s,
    Reached sampleCrypto 0 (sampleCrypto.holder oddKey) oneClaimed s ∧
    s.payments = [⟨(1, evenKey), 1⟩] ∧ s.totalPendingClaims = 2 ∧ s.owed = 2 := by
  have heval : (finalState ((contract sampleCrypto 0).perform none oneClaimed)
      (deployed (sampleCrypto.holder oddKey))).map
        (fun s => (s.distributions, s.payments, s.totalPendingClaims))
      = some ([⟨1, 3, [evenKey, oddKey], [1, 2]⟩], [⟨(1, evenKey), 1⟩], 2) := by decide +kernel
  obtain ⟨s, hs, hfields⟩ := Option.map_eq_some_iff.mp heval
  simp only [Prod.mk.injEq] at hfields
  obtain ⟨hdistributions, hpayments, htotal⟩ := hfields
  have hdistinct : s.DistinctKeys := by
    rw [DistinctKeys, hdistributions]
    decide
  have hreached : Reached sampleCrypto 0 (sampleCrypto.holder oddKey) oneClaimed s :=
    returns_of_finalState hs
  obtain ⟨hexact, _⟩ := books_balance_for_distinct_keys hdistinct hreached
  exact ⟨s, hreached, hpayments, htotal, hexact ▸ htotal⟩

/-- A distribution that names a key twice, and the claim of its holder. -/
def namedTwice : Script Address Fn :=
  .credit 2 <| .call (sampleCrypto.holder evenKey) 0
    (.setUBIDistribution 2 [evenKey, evenKey] [1, 1]) .done <|
    .call (sampleCrypto.holder evenKey) 0 (.claimUBI 1 evenKey) .done .done

/-- **A key that is named twice leaves something pending for ever**: both amounts are added
to the total, and the second one overwrites the first. Nothing is left to claim, and one unit
is pending still. -/
theorem repeated_key_stays_pending : ∃ s,
    Reached sampleCrypto 0 (sampleCrypto.holder evenKey) namedTwice s ∧
    (∀ entry, s.validatorUBIAmounts entry = 0) ∧ s.owed = 0 ∧ s.totalPendingClaims = 1 := by
  have heval : (finalState ((contract sampleCrypto 0).perform none namedTwice)
      (deployed (sampleCrypto.holder evenKey))).map
        (fun s => (s.distributions, s.payments, s.totalPendingClaims))
      = some ([⟨1, 2, [evenKey, evenKey], [1, 1]⟩], [⟨(1, evenKey), 1⟩], 1) := by decide +kernel
  obtain ⟨s, hs, hfields⟩ := Option.map_eq_some_iff.mp heval
  simp only [Prod.mk.injEq] at hfields
  obtain ⟨hdistributions, hpayments, htotal⟩ := hfields
  have hreached : Reached sampleCrypto 0 (sampleCrypto.holder evenKey) namedTwice s :=
    returns_of_finalState hs
  have hhistory : History s :=
    history_kept.perform namedTwice none () _ _ _ (.deployed _) hreached
  have hclaimed : ∀ entry, s.validatorUBIAmounts entry = 0 := by
    intro entry
    rcases hhistory.paidOnce entry with ⟨hunpaid, hsame⟩ | ⟨_, hzero⟩
    · have hne : entry ≠ (1, evenKey) := by
        rintro rfl
        simp [paymentsFor, hpayments] at hunpaid
      rw [hsame]
      simp [recorded, hdistributions, writeAll, Function.update_of_ne hne]
    · exact hzero
  exact ⟨s, hreached, hclaimed, total_eq_zero hclaimed, htotal⟩

end Story.Contracts.UBIPool
