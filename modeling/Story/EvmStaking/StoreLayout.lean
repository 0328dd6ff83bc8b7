/-
# Story.EvmStaking.StoreLayout -- the record of the module, in the bytes of a key-value store

What the rest of the development calls the store of the module is a record of parameters, a
sweep index, three maps and two queues. What there is in fact is one key-value store of bytes:
every entry of every collection has a key, the prefix of its collection and the encoding of its
own key behind it, and a value in one of three encodings. This module has the keeper's accesses
on the bytes and shows that they cannot be told from those on the record.

Everything rests on the keys. A `Slot` is one entry of one collection; `Slot.key` is where it
is kept, and no two slots are kept in the same place, whatever delegators are called. So a
write to one slot leaves all others alone, and the two stores stay in step, slot by slot.
-/
import Story.EvmEngine.Types
import Story.EvmStaking.StoreCodec
import Story.EvmStaking.Withdraw
import Story.Effect.Simulate

namespace Story.EvmStaking

open Story.Effect Story.Errors Story.Sdk Story.Collections Story.Proto
open Story.Eth (Bytes)
open Story.EvmEngine (toBytesBE ofBytesBE length_toBytesBE ofBytesBE_toBytesBE)

variable {W : Type}

/-! ## Values -/

def WireError.text : WireError → String
  | .intOverflow => "proto: integer overflow"
  | .unexpectedEOF => "unexpected EOF"
  | .invalidLength => "proto: negative length found during unmarshaling"
  | .unexpectedEndOfGroup => "proto: unexpected end of group"
  | .other msg => msg

/-- How the values of a collection are written: what fits is read back. -/
structure ValueCodec (α : Type) where
  marshal : α → Except String Bytes
  unmarshal : Bytes → Except WireError α
  Fits : α → Prop
  round_trip : ∀ a, Fits a → ∃ bz, marshal a = .ok bz ∧ unmarshal bz = .ok a

/-- `codec.CollValue[types.Withdrawal]`. -/
def withdrawalValue : ValueCodec RawWithdrawal where
  marshal m := marshal m.size m.marshalToSizedBuffer
  unmarshal := RawWithdrawal.schema.unmarshal .zero
  Fits m := m.size < 2 ^ 63
  round_trip m h := ⟨m.encode, m.writes_encode.marshal_eq m.length_encode,
    m.reads_encode.unmarshal_eq (by rwa [m.length_encode])⟩

def paramsValue : ValueCodec RawParams where
  marshal m := marshal m.size m.marshalToSizedBuffer
  unmarshal := RawParams.schema.unmarshal .zero
  Fits m := m.size < 2 ^ 63
  round_trip m h := ⟨m.encode, m.writes_encode.marshal_eq m.length_encode,
    m.reads_encode.unmarshal_eq (by rwa [m.length_encode])⟩

def sweepIndexValue : ValueCodec ValidatorSweepIndex where
  marshal m := marshal m.size m.marshalToSizedBuffer
  unmarshal := ValidatorSweepIndex.schema.unmarshal .zero
  Fits m := m.size < 2 ^ 63
  round_trip m h := ⟨m.encode, m.writes_encode.marshal_eq m.length_encode,
    m.reads_encode.unmarshal_eq (by rwa [m.length_encode])⟩

/-- The eight bytes of a number, the first byte first. -/
def be64 (v : UInt64) : Bytes := toBytesBE 8 v.toNat

def ofBE64 (bz : Bytes) : UInt64 := UInt64.ofNat (ofBytesBE bz)

theorem ofBE64_be64 (v : UInt64) : ofBE64 (be64 v) = v := by
  have hv := v.toNat_lt
  rw [ofBE64, be64, ofBytesBE_toBytesBE, Nat.mod_eq_of_lt (by omega), UInt64.ofNat_toNat]

theorem be64_injective : Function.Injective be64 := by
  intro v w h
  rw [← ofBE64_be64 v, h, ofBE64_be64]

/-- `collections.Uint64Value`. -/
def uint64Value : ValueCodec UInt64 where
  marshal v := .ok (be64 v)
  unmarshal bz := if bz.length ≠ 8 then .error (.other "invalid buffer size") else .ok (ofBE64 bz)
  Fits _ := True
  round_trip v _ := by
    refine ⟨be64 v, rfl, ?_⟩
    rw [if_neg (by simp [be64]), ofBE64_be64]

/-- `collections.StringValue`. -/
def stringValue : ValueCodec Bytes where
  marshal v := .ok v
  unmarshal bz := .ok bz
  Fits _ := True
  round_trip v _ := ⟨v, rfl, rfl⟩

/-! ## Keys -/

/-- The address maps. -/
inductive AddressKind
  | withdraw
  | reward
  | operator
  deriving DecidableEq

/-- The withdrawal queues. -/
inductive QueueKind
  | withdrawal
  | reward
  deriving DecidableEq

/-- The prefixes of `types/keys.go`. -/
def AddressKind.key : AddressKind → Bytes
  | .withdraw => [2]
  | .reward => [3]
  | .operator => [4]

def QueueKind.key : QueueKind → Bytes
  | .withdrawal => [5]
  | .reward => [6]

/-- An entry of a collection. -/
inductive Slot
  | params
  | sweepIndex
  | address (m : AddressKind) (delegator : String)
  | front (q : QueueKind)
  | rear (q : QueueKind)
  | element (q : QueueKind) (index : UInt64)
  deriving DecidableEq

namespace Slot

/-- Where an entry is kept. The suffixes of a queue are those of `collections.NewQueue`. -/
def key : Slot → Bytes
  | .params => [0]
  | .sweepIndex => [1]
  | .address m delegator => m.key ++ utf8 delegator
  | .front q => q.key ++ [0x1]
  | .rear q => q.key ++ [0x2]
  | .element q index => q.key ++ [0x0] ++ be64 index

/-- **No two entries are kept in the same place.** -/
theorem key_injective : Function.Injective key := by
  intro a b h
  rcases a with _ | _ | ⟨_ | _ | _, d⟩ | ⟨_ | _⟩ | ⟨_ | _⟩ | ⟨_ | _, i⟩ <;>
  rcases b with _ | _ | ⟨_ | _ | _, d'⟩ | ⟨_ | _⟩ | ⟨_ | _⟩ | ⟨_ | _, i'⟩ <;>
  simp_all [key, AddressKind.key, QueueKind.key, utf8_injective.eq_iff, be64_injective.eq_iff]

@[reducible] def Val : Slot → Type
  | .params => RawParams
  | .sweepIndex => ValidatorSweepIndex
  | .address _ _ => Bytes
  | .front _ => UInt64
  | .rear _ => UInt64
  | .element _ _ => RawWithdrawal

def codec : (slot : Slot) → ValueCodec slot.Val
  | .params => paramsValue
  | .sweepIndex => sweepIndexValue
  | .address _ _ => stringValue
  | .front _ => uint64Value
  | .rear _ => uint64Value
  | .element _ _ => withdrawalValue

end Slot

/-! ## The two stores -/

def WithdrawalType.raw : WithdrawalType → Int32
  | .unstake => 0
  | .reward => 1
  | .ubi => 2

def Withdrawal.raw (w : Withdrawal) : RawWithdrawal :=
  ⟨w.creationHeight, utf8 w.executionAddress, w.amount, w.withdrawalType.raw,
    utf8 w.validatorAddress⟩

def Params.raw (p : Params) : RawParams :=
  ⟨p.maxWithdrawalPerBlock, p.maxSweepPerBlock, p.minPartialWithdrawalAmount,
    utf8 p.ubiWithdrawAddress⟩

def AddressKind.map (m : AddressKind) (s : Store W) : AddressMap :=
  match m with
  | .withdraw => s.accounts.delegatorWithdrawAddress
  | .reward => s.accounts.delegatorRewardAddress
  | .operator => s.accounts.delegatorOperatorAddress

def QueueKind.queue (q : QueueKind) (s : Store W) : Queue Withdrawal :=
  match q with
  | .withdrawal => s.withdrawalQueue
  | .reward => s.rewardWithdrawalQueue

/-- What the record has for an entry. -/
def Slot.read (s : Store W) : (slot : Slot) → Option slot.Val
  | .params => s.params.map Params.raw
  | .sweepIndex => s.validatorSweepIndex
  | .address m delegator => (m.map s delegator).map utf8
  | .front q => (q.queue s).front
  | .rear q => (q.queue s).rear
  | .element q index => ((q.queue s).elements index).map Withdrawal.raw

abbrev ByteStore := Bytes → Option Bytes

/-- The value under `key` stands for `v`. -/
def Stores {α : Type} (c : ValueCodec α) (kv : ByteStore) (key : Bytes) : Option α → Prop
  | none => kv key = none
  | some a => ∃ bz, kv key = some bz ∧ c.unmarshal bz = .ok a

/-- **The bytes stand for the record**: every entry under its key, and nothing else. -/
structure Represents (kv : ByteStore) (s : Store W) : Prop where
  stored : ∀ slot : Slot, Stores slot.codec kv slot.key (slot.read s)
  only : ∀ key, kv key ≠ none → ∃ slot : Slot, slot.key = key

/-- A write to one entry of both. -/
theorem Represents.write {kv : ByteStore} {s t : Store W} (h : Represents kv s) (slot : Slot)
    {bz : Option Bytes} (hstored : Stores slot.codec (Function.update kv slot.key bz) slot.key
      (slot.read t)) (hothers : ∀ other : Slot, other ≠ slot → other.read t = other.read s) :
    Represents (Function.update kv slot.key bz) t := by
  constructor
  · intro other
    by_cases heq : other = slot
    · subst heq
      exact hstored
    · have hkey : other.key ≠ slot.key := fun hkey => heq (Slot.key_injective hkey)
      have hother := h.stored other
      rw [hothers other heq]
      cases hread : other.read s with
      | none =>
          rw [hread] at hother
          exact (Function.update_of_ne hkey _ _).trans hother
      | some v =>
          rw [hread] at hother
          obtain ⟨bz', hbz, hv⟩ := hother
          exact ⟨bz', (Function.update_of_ne hkey _ _).trans hbz, hv⟩
  · intro key hkey
    by_cases heq : key = slot.key
    · exact ⟨slot, heq.symm⟩
    · rw [Function.update_of_ne heq] at hkey
      exact h.only key hkey

/-! ## Accesses to the bytes -/

/-- `Get` of a collection, with absence as a value. -/
def getSlot (slot : Slot) : Prog ByteStore (Option slot.Val) := do
  match (← get) slot.key with
  | none => pure none
  | some bz =>
      match slot.codec.unmarshal bz with
      | .ok v => pure (some v)
      | .error e => fail (.new (WireError.text e))

/-- `Get` of a collection, with absence as an error. -/
def getSlotEntry (name : String) (slot : Slot) : Prog ByteStore slot.Val := do
  match ← getSlot slot with
  | some v => pure v
  | none => fail (errNotFound name)

/-- `Get` of a number, with zero for any error. -/
def getCounter (key : Bytes) (kv : ByteStore) : UInt64 :=
  match kv key with
  | none => 0
  | some bz =>
      match uint64Value.unmarshal bz with
      | .ok v => v
      | .error _ => 0

def setSlot (slot : Slot) (v : slot.Val) : Prog ByteStore Unit :=
  match slot.codec.marshal v with
  | .ok bz => modify fun kv => Function.update kv slot.key (some bz)
  | .error e => goPanic e

def removeSlot (slot : Slot) : Prog ByteStore Unit :=
  modify fun kv => Function.update kv slot.key none

section Accesses

variable {kv : ByteStore} {s : Store W}

theorem Represents.returns_getSlot (h : Represents kv s) (slot : Slot) :
    Returns (getSlot slot) kv (slot.read s) kv := by
  refine returns_bind.mpr ⟨_, _, returns_get.mpr ⟨rfl, rfl⟩, ?_⟩
  have hstored := h.stored slot
  cases hread : slot.read s with
  | none =>
      rw [hread] at hstored
      rw [show kv slot.key = none from hstored]
      exact returns_pure.mpr ⟨rfl, rfl⟩
  | some v =>
      rw [hread] at hstored
      obtain ⟨bz, hbz, hv⟩ := hstored
      simp only [hbz, hv]
      exact returns_pure.mpr ⟨rfl, rfl⟩

theorem getCounter_eq {key : Bytes} {v : Option UInt64} (h : Stores uint64Value kv key v) :
    getCounter key kv = v.getD 0 := by
  cases v with
  | none =>
      rw [getCounter, show kv key = none from h]
      rfl
  | some v =>
      obtain ⟨bz, hbz, hv⟩ := h
      simp only [getCounter, hbz, hv]
      rfl

theorem Represents.returns_setSlot (h : Represents kv s) (slot : Slot) (v : slot.Val)
    (hv : slot.codec.Fits v) {t : Store W} (hread : slot.read t = some v)
    (hothers : ∀ other : Slot, other ≠ slot → other.read t = other.read s) :
    ∃ kv', Returns (setSlot slot v) kv () kv' ∧ Represents kv' t := by
  obtain ⟨bz, hbz, hback⟩ := slot.codec.round_trip v hv
  refine ⟨Function.update kv slot.key (some bz), ?_, h.write slot ?_ hothers⟩
  · rw [setSlot, hbz]
    exact returns_modify.mpr rfl
  · rw [hread]
    exact ⟨bz, Function.update_self .., hback⟩

theorem Represents.returns_removeSlot (h : Represents kv s) (slot : Slot) {t : Store W}
    (hread : slot.read t = none)
    (hothers : ∀ other : Slot, other ≠ slot → other.read t = other.read s) :
    ∃ kv', Returns (removeSlot slot) kv () kv' ∧ Represents kv' t := by
  refine ⟨Function.update kv slot.key none, returns_modify.mpr rfl, h.write slot ?_ hothers⟩
  rw [hread]
  exact Function.update_self ..

end Accesses

/-! ## Queues in bytes -/

/-- `Initialize`. -/
def byteInit (q : QueueKind) : Prog ByteStore Unit := do
  wrapErr "initialize set front" (setSlot (.front q) 0)
  wrapErr "initialize set rear" (setSlot (.rear q) 0)

def byteEnqueue (q : QueueKind) (elem : RawWithdrawal) : Prog ByteStore Unit := do
  let rear ← wrapErr "enqueue rear get" (getSlot (.rear q))
  wrapErr "enqueue elements set" (setSlot (.element q (rear.getD 0)) elem)
  wrapErr "enqueue rear set" (setSlot (.rear q) (rear.getD 0 + 1))

def byteLen (q : QueueKind) (kv : ByteStore) : UInt64 :=
  getCounter (Slot.rear q).key kv - getCounter (Slot.front q).key kv

def byteDequeue (q : QueueKind) : Prog ByteStore RawWithdrawal := do
  let kv ← get
  if byteLen q kv == 0 then
    fail (errEmptyQueue.wrap "dequeue")
  else
    let front := getCounter (Slot.front q).key kv
    let elem ← wrapErr "dequeue elements get"
      (getSlotEntry queueElementsNameSuffix (.element q front))
    wrapErr "dequeue elements remove" (removeSlot (.element q front))
    wrapErr "dequeue front set" (setSlot (.front q) (front + 1))
    pure elem

def byteGetAt (q : QueueKind) (index : UInt64) : Prog ByteStore RawWithdrawal := do
  let kv ← get
  let front := getCounter (Slot.front q).key kv
  let rear := getCounter (Slot.rear q).key kv
  if rear ≤ front + index then
    fail (errOutOfBoundsQueue.wrap "get")
  else
    wrapErr "get elements" (getSlotEntry queueElementsNameSuffix (.element q (front + index)))

def bytePeek (q : QueueKind) : Prog ByteStore RawWithdrawal := do
  let kv ← get
  if byteLen q kv == 0 then
    fail (errEmptyQueue.wrap "peek")
  else
    let front ← wrapErr "peek front get" (getSlotEntry queueFrontNameSuffix (.front q))
    wrapErr "peek elements get" (getSlotEntry queueElementsNameSuffix (.element q front))

def QueueKind.lens (q : QueueKind) : Lens (Store W) (Queue Withdrawal) :=
  match q with
  | .withdrawal => withdrawalQueueLens
  | .reward => rewardWithdrawalQueueLens

section Queues

variable {q : QueueKind} {s : Store W} {kv : ByteStore} {t t' : Queue Withdrawal}

theorem QueueKind.queue_put (q q' : QueueKind) (t : Queue Withdrawal) (s : Store W) :
    q'.queue (q.lens.put t s) = if q' = q then t else q'.queue s := by
  cases q <;> cases q' <;> rfl

theorem QueueKind.map_put (q : QueueKind) (m : AddressKind) (t : Queue Withdrawal) (s : Store W) :
    m.map (q.lens.put t s) = m.map s := by
  cases q <;> cases m <;> rfl

/-- The bytes stand for the record with the queue `t` in it. -/
def OnQueue (q : QueueKind) (s : Store W) (kv : ByteStore) (t : Queue Withdrawal) : Prop :=
  Represents kv (q.lens.put t s)

/-- Two queues in the same place make no difference to an entry that they agree on. -/
theorem read_put_eq {slot : Slot} (hfront : slot = .front q → t.front = t'.front)
    (hrear : slot = .rear q → t.rear = t'.rear)
    (helem : ∀ i, slot = .element q i → t.elements i = t'.elements i) :
    slot.read (q.lens.put t s) = slot.read (q.lens.put t' s) := by
  cases slot with
  | params => cases q <;> rfl
  | sweepIndex => cases q <;> rfl
  | address m d => simp only [Slot.read, QueueKind.map_put]
  | front q' =>
      simp only [Slot.read, QueueKind.queue_put]
      split
      next h => exact hfront (by rw [h])
      · rfl
  | rear q' =>
      simp only [Slot.read, QueueKind.queue_put]
      split
      next h => exact hrear (by rw [h])
      · rfl
  | element q' i =>
      simp only [Slot.read, QueueKind.queue_put]
      split
      next h => rw [helem i (by rw [h])]
      · rfl

namespace OnQueue

theorem read_front (t : Queue Withdrawal) :
    (Slot.front q).read (q.lens.put t s) = t.front := by
  simp only [Slot.read, QueueKind.queue_put, if_true]

theorem read_rear (t : Queue Withdrawal) : (Slot.rear q).read (q.lens.put t s) = t.rear := by
  simp only [Slot.read, QueueKind.queue_put, if_true]

theorem read_element (t : Queue Withdrawal) (i : UInt64) :
    (Slot.element q i).read (q.lens.put t s) = (t.elements i).map Withdrawal.raw := by
  simp only [Slot.read, QueueKind.queue_put, if_true]

variable (h : OnQueue q s kv t)

include h

theorem counter_front : getCounter (Slot.front q).key kv = t.front.getD 0 := by
  refine getCounter_eq ?_
  rw [← read_front t]
  exact h.stored (.front q)

theorem counter_rear : getCounter (Slot.rear q).key kv = t.rear.getD 0 := by
  refine getCounter_eq ?_
  rw [← read_rear t]
  exact h.stored (.rear q)

theorem byteLen_eq : byteLen q kv = t.len := by
  rw [byteLen, h.counter_front, h.counter_rear, Queue.len]

theorem set_front (v : UInt64) : ∃ kv', Returns (setSlot (.front q) v) kv () kv' ∧
    OnQueue q s kv' { t with front := some v } := by
  refine Represents.returns_setSlot h (.front q) v trivial (read_front _) fun other hne => ?_
  exact read_put_eq (fun heq => absurd heq hne) (fun _ => rfl) fun _ _ => rfl

theorem set_rear (v : UInt64) : ∃ kv', Returns (setSlot (.rear q) v) kv () kv' ∧
    OnQueue q s kv' { t with rear := some v } := by
  refine Represents.returns_setSlot h (.rear q) v trivial (read_rear _) fun other hne => ?_
  exact read_put_eq (fun _ => rfl) (fun heq => absurd heq hne) fun _ _ => rfl

theorem set_element (i : UInt64) {w : Withdrawal} (hw : withdrawalValue.Fits w.raw) :
    ∃ kv', Returns (setSlot (.element q i) w.raw) kv () kv' ∧
      OnQueue q s kv' { t with elements := Function.update t.elements i (some w) } := by
  refine Represents.returns_setSlot h (.element q i) w.raw hw ?_ fun other hne => ?_
  · rw [read_element]
    simp
  · refine read_put_eq (fun _ => rfl) (fun _ => rfl) fun j hj => ?_
    refine Function.update_of_ne ?_ _ _
    rintro rfl
    exact hne hj

theorem remove_element (i : UInt64) :
    ∃ kv', Returns (removeSlot (.element q i)) kv () kv' ∧
      OnQueue q s kv' { t with elements := Function.update t.elements i none } := by
  refine Represents.returns_removeSlot h (.element q i) ?_ fun other hne => ?_
  · rw [read_element]
    simp
  · refine read_put_eq (fun _ => rfl) (fun _ => rfl) fun j hj => ?_
    refine Function.update_of_ne ?_ _ _
    rintro rfl
    exact hne hj

/-- An element is found, or found missing, in both. -/
theorem getSlotEntry_element (i : UInt64) :
    Simulates (OnQueue q s) (fun raw w => raw = w.raw)
      (getSlotEntry queueElementsNameSuffix (.element q i))
      (getEntry queueElementsNameSuffix fun t => t.elements i) kv t := by
  have hget := Represents.returns_getSlot h (.element q i)
  rw [read_element] at hget
  refine .left hget (.get_right ?_)
  cases ht : t.elements i with
  | none =>
      simp only [ht, Option.map_none]
      exact .throw _ h
  | some w =>
      simp only [ht, Option.map_some]
      exact .pure rfl h

theorem simulates_init : Simulates (OnQueue q s) Eq (byteInit q) Queue.init kv t := by
  obtain ⟨kv₁, hset₁, h₁⟩ := h.set_front 0
  obtain ⟨kv₂, hset₂, h₂⟩ := h₁.set_rear 0
  refine .left (returns_wrapErr.mpr hset₁) (.modify_right ?_)
  exact .of_returns (returns_wrapErr.mpr hset₂) (returns_modify.mpr rfl) rfl h₂

theorem simulates_enqueue {w : Withdrawal} (hw : withdrawalValue.Fits w.raw) :
    Simulates (OnQueue q s) Eq (byteEnqueue q w.raw) (Queue.enqueue w) kv t := by
  have hrear := Represents.returns_getSlot h (.rear q)
  rw [read_rear] at hrear
  obtain ⟨kv₁, hset₁, h₁⟩ := h.set_element (t.rear.getD 0) hw
  obtain ⟨kv₂, hset₂, h₂⟩ := h₁.set_rear (t.rear.getD 0 + 1)
  refine .left (returns_wrapErr.mpr hrear) (.get_right ?_)
  refine .left (returns_wrapErr.mpr hset₁) (.modify_right ?_)
  exact .of_returns (returns_wrapErr.mpr hset₂) (returns_modify.mpr rfl) rfl h₂

theorem simulates_dequeue : Simulates (OnQueue q s) (fun raw w => raw = w.raw) (byteDequeue q)
    Queue.dequeue kv t := by
  refine .left (returns_get.mpr ⟨rfl, rfl⟩) (.get_right ?_)
  rw [h.byteLen_eq, Queue.isEmpty]
  by_cases hempty : (t.len == 0) = true
  · rw [if_pos hempty, if_pos hempty]
    exact .throw _ h
  · rw [if_neg hempty, if_neg hempty, h.counter_front]
    refine .get_right (.bind (.mapError _ (h.getSlotEntry_element _)) ?_)
    rintro raw w kv₁ t₁ hraw h₁
    obtain ⟨kv₂, hremove, h₂⟩ := h₁.remove_element (t.front.getD 0)
    obtain ⟨kv₃, hset, h₃⟩ := h₂.set_front (t.front.getD 0 + 1)
    refine .left (returns_wrapErr.mpr hremove) (.modify_right ?_)
    refine .left (returns_wrapErr.mpr hset) (.modify_right ?_)
    exact .pure hraw h₃

theorem simulates_getAt (index : UInt64) : Simulates (OnQueue q s) (fun raw w => raw = w.raw)
    (byteGetAt q index) (Queue.getAt index) kv t := by
  refine .left (returns_get.mpr ⟨rfl, rfl⟩) (.get_right (.get_right ?_))
  dsimp only
  rw [h.counter_front, h.counter_rear]
  by_cases hle : t.rear.getD 0 ≤ t.front.getD 0 + index
  · rw [if_pos hle, if_pos hle]
    exact .throw _ h
  · rw [if_neg hle, if_neg hle]
    exact .mapError _ (h.getSlotEntry_element _)

theorem simulates_peek : Simulates (OnQueue q s) (fun raw w => raw = w.raw) (bytePeek q)
    Queue.peek kv t := by
  refine .left (returns_get.mpr ⟨rfl, rfl⟩) (.get_right ?_)
  rw [h.byteLen_eq, Queue.isEmpty]
  by_cases hempty : (t.len == 0) = true
  · rw [if_pos hempty, if_pos hempty]
    exact .throw _ h
  · rw [if_neg hempty, if_neg hempty]
    have hfront := Represents.returns_getSlot h (.front q)
    rw [read_front] at hfront
    have hget : Simulates (OnQueue q s) Eq (getSlotEntry queueFrontNameSuffix (.front q))
        (getEntry queueFrontNameSuffix Queue.front) kv t := by
      refine .left hfront (.get_right ?_)
      cases t.front with
      | none => exact .throw _ h
      | some v => exact .pure rfl h
    refine .bind (.mapError _ hget) ?_
    rintro front _ kv₁ t₁ rfl h₁
    exact .mapError _ (h₁.getSlotEntry_element _)

end OnQueue

end Queues

/-! ## The keeper's accesses -/

/-- An access of the keeper to its store. -/
inductive StoreCall
  | getParams
  | setParams (params : Params)
  | getValidatorSweepIndex
  | setValidatorSweepIndex (validatorSweepIndex : ValidatorSweepIndex)
  | getAddress (m : AddressKind) (delegator : String)
  | setAddress (m : AddressKind) (delegator address : String)
  | removeOperator (delegator : String)
  | init (q : QueueKind)
  | enqueue (q : QueueKind) (elem : Withdrawal)
  | dequeue (q : QueueKind)
  | getAt (q : QueueKind) (index : UInt64)
  | peek (q : QueueKind)
  | len (q : QueueKind)

/-- What an access comes back with. -/
inductive StoreReply
  | done
  | params (params : RawParams)
  | sweepIndex (validatorSweepIndex : ValidatorSweepIndex)
  | address (address : Bytes)
  | element (elem : RawWithdrawal)
  | count (n : UInt64)
  deriving DecidableEq

def AddressKind.name : AddressKind → String
  | .withdraw => withdrawAddressMapName
  | .reward => rewardAddressMapName
  | .operator => operatorAddressMapName

namespace StoreCall

/-- What the keeper runs. -/
def onBytes : StoreCall → Prog ByteStore StoreReply
  -- The store service's own `Get` and `Set` do not fail, so their wraps have nothing to wrap.
  | .getParams => do
      let params ← wrapErr "unmarshal params" (getSlot .params)
      return .params (params.getD RawParams.zero)
  | .setParams params => do
      wrapErr "marshal params" (setSlot .params params.raw)
      return .done
  | .getValidatorSweepIndex => do
      let sweepIndex ← wrapErr "unmarshal validator sweep index" (getSlot .sweepIndex)
      return .sweepIndex (sweepIndex.getD ValidatorSweepIndex.zero)
  | .setValidatorSweepIndex validatorSweepIndex => do
      wrapErr "marshal validator sweep index" (setSlot .sweepIndex validatorSweepIndex)
      return .done
  | .getAddress m delegator => return .address (← getSlotEntry m.name (.address m delegator))
  | .setAddress m delegator address => do
      setSlot (.address m delegator) (utf8 address)
      return .done
  | .removeOperator delegator => do
      removeSlot (.address .operator delegator)
      return .done
  | .init q => do
      byteInit q
      return .done
  | .enqueue q elem => do
      byteEnqueue q elem.raw
      return .done
  | .dequeue q => return .element (← byteDequeue q)
  | .getAt q index => return .element (← byteGetAt q index)
  | .peek q => return .element (← bytePeek q)
  | .len q => return .count (byteLen q (← get))

/-- What the rest of the development has for it. -/
def onStore : StoreCall → Prog (Store W) StoreReply
  | .getParams => return .params (← EvmStaking.getParams).raw
  | .setParams params => do
      EvmStaking.setParams params
      return .done
  | .getValidatorSweepIndex => return .sweepIndex (← EvmStaking.getValidatorSweepIndex)
  | .setValidatorSweepIndex validatorSweepIndex => do
      EvmStaking.setValidatorSweepIndex validatorSweepIndex
      return .done
  | .getAddress .withdraw delegator => return .address (utf8 (← getWithdrawAddress delegator))
  | .getAddress .reward delegator => return .address (utf8 (← getRewardAddress delegator))
  | .getAddress .operator delegator =>
      return .address (utf8 (← zoom accountsLens (getOperatorAddress delegator)))
  | .setAddress .withdraw delegator address => do
      zoom accountsLens (setWithdrawAddress delegator address)
      return .done
  | .setAddress .reward delegator address => do
      zoom accountsLens (setRewardAddress delegator address)
      return .done
  | .setAddress .operator delegator address => do
      zoom accountsLens (setOperatorAddress delegator (some address))
      return .done
  | .removeOperator delegator => do
      zoom accountsLens (setOperatorAddress delegator none)
      return .done
  | .init q => do
      zoom q.lens Queue.init
      return .done
  | .enqueue q elem => do
      zoom q.lens (Queue.enqueue elem)
      return .done
  | .dequeue q => return .element (← zoom q.lens Queue.dequeue).raw
  | .getAt q index => return .element (← zoom q.lens (Queue.getAt index)).raw
  | .peek q => return .element (← zoom q.lens Queue.peek).raw
  | .len q => return .count (q.lens.view (← get)).len

/-- What is written has a size that an `int` can say. -/
def Fits : StoreCall → Prop
  | .setParams params => paramsValue.Fits params.raw
  | .setValidatorSweepIndex validatorSweepIndex => sweepIndexValue.Fits validatorSweepIndex
  | .enqueue _ elem => withdrawalValue.Fits elem.raw
  | _ => True

instance : (c : StoreCall) → Decidable c.Fits
  | .setParams params => inferInstanceAs (Decidable (params.raw.size < 2 ^ 63))
  | .setValidatorSweepIndex i => inferInstanceAs (Decidable (i.size < 2 ^ 63))
  | .enqueue _ elem => inferInstanceAs (Decidable (elem.raw.size < 2 ^ 63))
  | .getParams | .getValidatorSweepIndex | .getAddress _ _ | .setAddress _ _ _
  | .removeOperator _ | .init _ | .dequeue _ | .getAt _ _ | .peek _ | .len _ => .isTrue trivial

end StoreCall

section Calls

variable {kv : ByteStore} {s : Store W}

/-- The record with another entry for a delegator. -/
def AddressKind.update (m : AddressKind) (delegator : String) (address : Option String)
    (s : Store W) : Store W :=
  match m with
  | .withdraw => { s with accounts := { s.accounts with
      delegatorWithdrawAddress :=
        Function.update s.accounts.delegatorWithdrawAddress delegator address } }
  | .reward => { s with accounts := { s.accounts with
      delegatorRewardAddress :=
        Function.update s.accounts.delegatorRewardAddress delegator address } }
  | .operator => { s with accounts := { s.accounts with
      delegatorOperatorAddress :=
        Function.update s.accounts.delegatorOperatorAddress delegator address } }

theorem AddressKind.map_update_self (m : AddressKind) (delegator : String)
    (address : Option String) : m.map (m.update delegator address s) delegator = address := by
  cases m <;> exact Function.update_self ..

theorem read_update_address {m : AddressKind} {delegator : String} {address : Option String}
    {other : Slot} (hne : other ≠ .address m delegator) :
    other.read (m.update delegator address s) = other.read s := by
  cases other with
  | address m' d' =>
      simp only [Slot.read]
      congr 1
      cases m <;> cases m' <;> try rfl
      all_goals
        refine Function.update_of_ne ?_ _ _
        rintro rfl
        exact hne rfl
  | params => cases m <;> rfl
  | sweepIndex => cases m <;> rfl
  | front q => cases m <;> cases q <;> rfl
  | rear q => cases m <;> cases q <;> rfl
  | element q i => cases m <;> cases q <;> rfl

theorem zoom_getEntry {σ τ T : Type} (l : Lens σ τ) (name : String) (entry : τ → Option T) :
    zoom l (getEntry name entry) = getEntry name fun s => entry (l.view s) := by
  funext s
  cases hentry : entry (l.view s) with
  | none =>
      have hpart : Fails (getEntry name entry) (l.view s) (.err (errNotFound name)) (l.view s) :=
        fails_getEntry.mpr ⟨hentry, rfl, rfl⟩
      have hwhole : Fails (getEntry name fun s => entry (l.view s)) s (.err (errNotFound name)) s :=
        fails_getEntry.mpr ⟨hentry, rfl, rfl⟩
      exact (fails_iff.mp (fails_zoom.mpr ⟨_, hpart, l.put_view s⟩)).trans
        (fails_iff.mp hwhole).symm
  | some v =>
      have hpart : Returns (getEntry name entry) (l.view s) v (l.view s) :=
        returns_getEntry.mpr ⟨hentry, rfl⟩
      have hwhole : Returns (getEntry name fun s => entry (l.view s)) s v s :=
        returns_getEntry.mpr ⟨hentry, rfl⟩
      exact (returns_iff.mp (returns_zoom.mpr ⟨_, hpart, l.put_view s⟩)).trans
        (returns_iff.mp hwhole).symm

/-- An entry of an address map is found, or found missing, in both. -/
theorem Represents.simulates_getAddress (h : Represents kv s) (m : AddressKind)
    (delegator : String) :
    Simulates Represents (fun raw a => raw = utf8 a) (getSlotEntry m.name (.address m delegator))
      (getEntry m.name fun s => m.map s delegator) kv s := by
  refine .left (h.returns_getSlot (.address m delegator)) (.get_right ?_)
  cases hm : m.map s delegator with
  | none =>
      simp only [Slot.read, hm, Option.map_none]
      exact .throw _ h
  | some a =>
      simp only [Slot.read, hm, Option.map_some]
      exact .pure rfl h

theorem Represents.onQueue (h : Represents kv s) (q : QueueKind) :
    OnQueue q s kv (q.lens.view s) := by
  rw [OnQueue, q.lens.put_view]
  exact h

/-- One access. -/
theorem StoreCall.simulates (h : Represents kv s) (c : StoreCall) (hc : c.Fits) :
    Simulates Represents Eq c.onBytes c.onStore kv s := by
  have done : ∀ (kv' : ByteStore) (s' : Store W), Represents kv' s' →
      Simulates Represents Eq (Pure.pure StoreReply.done : Prog ByteStore StoreReply)
        (Pure.pure StoreReply.done) kv' s' := fun _ _ h' => .pure rfl h'
  have element : ∀ (raw : RawWithdrawal) (w : Withdrawal) (kv' : ByteStore) (s' : Store W),
      raw = w.raw → Represents kv' s' →
      Simulates Represents Eq (Pure.pure (StoreReply.element raw) : Prog ByteStore StoreReply)
        (Pure.pure (StoreReply.element w.raw)) kv' s' := by
    rintro _ w kv' s' rfl h'
    exact .pure rfl h'
  cases c with
  | getParams =>
      refine .left (returns_wrapErr.mpr (h.returns_getSlot .params))
        (.right (returns_getParams.mpr ⟨rfl, rfl⟩) ?_)
      refine .pure ?_ h
      simp only [Slot.read, Store.currentParams]
      cases s.params <;> rfl
  | setParams params =>
      obtain ⟨kv', hset, h'⟩ := h.returns_setSlot (t := { s with params := some params })
        .params params.raw hc rfl (fun other hne => by
          cases other with
          | params => exact absurd rfl hne
          | _ => rfl)
      exact .left (returns_wrapErr.mpr hset) (.modify_right (done _ _ h'))
  | getValidatorSweepIndex =>
      exact .left (returns_wrapErr.mpr (h.returns_getSlot .sweepIndex)) (.get_right (.pure rfl h))
  | setValidatorSweepIndex i =>
      obtain ⟨kv', hset, h'⟩ := h.returns_setSlot (t := { s with validatorSweepIndex := some i })
        .sweepIndex i hc rfl (fun other hne => by
          cases other with
          | sweepIndex => exact absurd rfl hne
          | _ => rfl)
      exact .left (returns_wrapErr.mpr hset) (.modify_right (done _ _ h'))
  | getAddress m delegator =>
      have hget : Simulates Represents Eq
          (do return StoreReply.address (← getSlotEntry m.name (.address m delegator)))
          (do return StoreReply.address (utf8 (← getEntry m.name fun s => m.map s delegator)))
          kv s := by
        refine .bind (h.simulates_getAddress m delegator) ?_
        rintro _ a kv' s' rfl h'
        exact .pure rfl h'
      cases m with
      | withdraw => exact hget
      | reward => exact hget
      | operator =>
          rw [StoreCall.onStore, getOperatorAddress, zoom_getEntry]
          exact hget
  | setAddress m delegator address =>
      obtain ⟨kv', hset, h'⟩ := h.returns_setSlot (t := m.update delegator (some address) s)
        (.address m delegator) (utf8 address) trivial
        (by rw [Slot.read, m.map_update_self]; rfl) fun other hne => read_update_address hne
      refine .left hset ?_
      cases m <;> exact .right (returns_zoom.mpr ⟨_, rfl, rfl⟩) (done _ _ h')
  | removeOperator delegator =>
      obtain ⟨kv', hset, h'⟩ := h.returns_removeSlot
        (t := AddressKind.update .operator delegator none s) (.address .operator delegator)
        (by rw [Slot.read, AddressKind.map_update_self]; rfl)
        fun other hne => read_update_address hne
      exact .left hset (.right (returns_zoom.mpr ⟨_, rfl, rfl⟩) (done _ _ h'))
  | init q => exact .bind (.zoom (h.onQueue q).simulates_init) fun _ _ _ _ _ h' => done _ _ h'
  | enqueue q w =>
      exact .bind (.zoom ((h.onQueue q).simulates_enqueue hc)) fun _ _ _ _ _ h' => done _ _ h'
  | dequeue q => exact .bind (.zoom (h.onQueue q).simulates_dequeue) element
  | getAt q index => exact .bind (.zoom ((h.onQueue q).simulates_getAt index)) element
  | peek q => exact .bind (.zoom (h.onQueue q).simulates_peek) element
  | len q =>
      refine .left (returns_get.mpr ⟨rfl, rfl⟩) (.get_right (.pure ?_ h))
      rw [(h.onQueue q).byteLen_eq]

end Calls

/-! ## Runs -/

/-- The answers to accesses made one after the other, failed ones included. -/
def answers {σ : Type} (code : StoreCall → Prog σ StoreReply) :
    List StoreCall → σ → List (Except Fault StoreReply)
  | [], _ => []
  | c :: calls, s =>
      match (code c).run s with
      | .ok a t => .ok a :: answers code calls t
      | .error e t => .error e :: answers code calls t

/-- The store they leave behind. -/
def after {σ : Type} (code : StoreCall → Prog σ StoreReply) : List StoreCall → σ → σ
  | [], s => s
  | c :: calls, s =>
      match (code c).run s with
      | .ok _ t => after code calls t
      | .error _ t => after code calls t

theorem simulates_run {kv : ByteStore} {s : Store W} (h : Represents kv s)
    {calls : List StoreCall} (hcalls : ∀ c ∈ calls, c.Fits) :
    answers StoreCall.onBytes calls kv = answers StoreCall.onStore calls s ∧
      Represents (after StoreCall.onBytes calls kv) (after StoreCall.onStore calls s) := by
  induction calls generalizing kv s with
  | nil => exact ⟨rfl, h⟩
  | cons c calls ih =>
      obtain ⟨hc, hrest⟩ := List.forall_mem_cons.mp hcalls
      obtain ⟨a, _, kv', s', ha, hb, rfl, h'⟩ | ⟨e, kv', s', ha, hb, h'⟩ :=
        StoreCall.simulates h c hc
      · rw [returns_iff] at ha hb
        obtain ⟨hanswers, hafter⟩ := ih h' hrest
        simp only [answers, after, ha, hb, hanswers]
        exact ⟨trivial, hafter⟩
      · rw [fails_iff] at ha hb
        obtain ⟨hanswers, hafter⟩ := ih h' hrest
        simp only [answers, after, ha, hb, hanswers]
        exact ⟨trivial, hafter⟩

/-! ## Iterators -/

theorem append_lt_append {a b : Bytes} (x y : Bytes) (hlen : a.length = b.length) (h : a < b) :
    a ++ x < b ++ y := by
  induction a generalizing b with
  | nil =>
      obtain rfl := List.length_eq_zero_iff.mp hlen.symm
      exact absurd h (List.lt_irrefl _)
  | cons c a ih =>
      cases b with
      | nil => cases hlen
      | cons d b =>
          rw [List.cons_append, List.cons_append, List.cons_lt_cons_iff]
          rw [List.cons_lt_cons_iff] at h
          obtain hcd | ⟨rfl, hab⟩ := h
          · exact .inl hcd
          · exact .inr ⟨rfl, ih (Nat.succ.inj hlen) hab⟩

theorem append_lt_append_left (a : Bytes) {x y : Bytes} (h : x < y) : a ++ x < a ++ y := by
  induction a with
  | nil => exact h
  | cons c a ih => exact List.cons_lt_cons_iff.mpr (.inr ⟨rfl, ih⟩)

/-- The first byte counts most: the order of bytes is the order of numbers. -/
theorem toBytesBE_lt {k m n : Nat} (hmn : m < n) (hn : n < 256 ^ k) :
    toBytesBE k m < toBytesBE k n := by
  induction k generalizing m n with
  | zero => simp at hn; omega
  | succ k ih =>
      rw [toBytesBE, toBytesBE]
      by_cases hdiv : m / 256 < n / 256
      · refine append_lt_append _ _ (by simp) (ih hdiv ?_)
        rw [Nat.div_lt_iff_lt_mul (by decide)]
        rwa [Nat.pow_succ] at hn
      · have heq : m / 256 = n / 256 := by omega
        rw [heq]
        refine append_lt_append_left _ (List.cons_lt_cons_iff.mpr (.inl ?_))
        rw [UInt8.lt_iff_toNat_lt, UInt8.toNat_ofNat', UInt8.toNat_ofNat']
        omega

theorem key_element_lt {q : QueueKind} {i j : UInt64} :
    (Slot.element q i).key < (Slot.element q j).key ↔ i < j := by
  have hmono : ∀ {i j : UInt64}, i < j → (Slot.element q i).key < (Slot.element q j).key := by
    intro i j hij
    have hj := j.toNat_lt
    exact append_lt_append_left _ (toBytesBE_lt hij (by omega))
  refine ⟨fun h => ?_, hmono⟩
  by_contra hnot
  have hle : j.toNat ≤ i.toNat := by simpa [UInt64.lt_iff_toNat_lt] using hnot
  obtain heq | hlt := hle.eq_or_lt
  · rw [UInt64.toNat_inj.mp heq] at h
    exact List.lt_irrefl _ h
  · exact List.lt_asymm h (hmono (UInt64.lt_iff_toNat_lt.mpr hlt))

/-- What is not below `a ++ x` and below `a ++ y` starts with `a`. -/
theorem eq_append_of_between {a x y l : Bytes} (hlo : ¬ l < a ++ x) (hhi : l < a ++ y) :
    ∃ l', l = a ++ l' := by
  induction a generalizing l with
  | nil => exact ⟨l, rfl⟩
  | cons c a ih =>
      cases l with
      | nil => exact absurd (List.nil_lt_cons _ _) hlo
      | cons d l =>
          rw [List.cons_append, List.cons_lt_cons_iff, not_or, not_and] at hlo
          rw [List.cons_append, List.cons_lt_cons_iff] at hhi
          obtain hlt | ⟨rfl, hhi⟩ := hhi
          · exact absurd hlt hlo.1
          · obtain ⟨l', rfl⟩ := ih (hlo.2 rfl) hhi
            exact ⟨l', rfl⟩

/-- What lies between two elements of a queue is an element of it. -/
theorem slot_between {q : QueueKind} {i j : UInt64} {slot : Slot}
    (hlo : ¬ slot.key < (Slot.element q i).key) (hhi : slot.key < (Slot.element q j).key) :
    ∃ k, slot = .element q k ∧ ¬ k < i ∧ k < j := by
  obtain ⟨l, hl⟩ := eq_append_of_between hlo hhi
  obtain ⟨k, rfl⟩ : ∃ k, slot = .element q k := by
    rcases slot with _ | _ | ⟨_ | _ | _, d⟩ | ⟨_ | _⟩ | ⟨_ | _⟩ | ⟨_ | _, k⟩ <;> cases q <;>
      simp_all [Slot.key, AddressKind.key, QueueKind.key]
  exact ⟨k, rfl, fun h => hlo (key_element_lt.mpr h), key_element_lt.mp hhi⟩

/-- What an iterator from `lo` up to but not including `hi` runs through: the entries in
between, in the order of their keys. -/
def Iterates (kv : ByteStore) (lo hi : Bytes) (l : List (Bytes × Bytes)) : Prop :=
  l.Pairwise (fun a b => a.1 < b.1) ∧
    ∀ key v, (key, v) ∈ l ↔ ¬ key < lo ∧ key < hi ∧ kv key = some v

theorem Iterates.unique {kv : ByteStore} {lo hi : Bytes} {l l' : List (Bytes × Bytes)}
    (h : Iterates kv lo hi l) (h' : Iterates kv lo hi l') : l = l' := by
  have hnodup : ∀ {l : List (Bytes × Bytes)}, l.Pairwise (fun a b => a.1 < b.1) → l.Nodup := by
    intro l hl
    refine List.Pairwise.imp ?_ hl
    rintro a _ hab rfl
    exact List.lt_irrefl _ hab
  have hperm : l.Perm l' := by
    refine (List.perm_ext_iff_of_nodup (hnodup h.1) (hnodup h'.1)).mpr ?_
    rintro ⟨key, v⟩
    rw [h.2, h'.2]
  exact hperm.eq_of_pairwise (fun a b _ _ hab hba => absurd hba (List.lt_asymm hab)) h.1 h'.1

/-- The entries of the element map with the numbers `is`. -/
def byteEntries (kv : ByteStore) (q : QueueKind) (is : List Nat) : List (Bytes × Bytes) :=
  is.filterMap fun i =>
    (kv (Slot.element q (.ofNat i)).key).map (Prod.mk (Slot.element q (.ofNat i)).key)

theorem iterates_byteEntries {kv : ByteStore}
    (honly : ∀ key, kv key ≠ none → ∃ slot : Slot, slot.key = key) (q : QueueKind) (i j : UInt64) :
    Iterates kv (Slot.element q i).key (Slot.element q j).key
      (byteEntries kv q (List.range' i.toNat (j.toNat - i.toNat))) := by
  have hj := j.toNat_lt
  have hmem : ∀ {n : Nat},
      n ∈ List.range' i.toNat (j.toNat - i.toNat) ↔ i.toNat ≤ n ∧ n < j.toNat := by
    intro n
    rw [List.mem_range'_1]
    omega
  have hofNat : ∀ {n : Nat}, n < j.toNat → (UInt64.ofNat n).toNat = n := fun hn =>
    Queue.toNat_ofNat_of_lt (by omega)
  constructor
  · refine (List.pairwise_filterMap).mpr ?_
    refine List.Pairwise.imp_of_mem ?_
      (List.pairwise_lt_range' (s := i.toNat) (n := j.toNat - i.toNat))
    intro a b ha hb hab e he e' he'
    obtain ⟨v, _, rfl⟩ := Option.map_eq_some_iff.mp he
    obtain ⟨v', _, rfl⟩ := Option.map_eq_some_iff.mp he'
    refine key_element_lt.mpr (UInt64.lt_iff_toNat_lt.mpr ?_)
    rw [hofNat (hmem.mp ha).2, hofNat (hmem.mp hb).2]
    exact hab
  · intro key v
    rw [byteEntries, List.mem_filterMap]
    constructor
    · rintro ⟨n, hn, he⟩
      obtain ⟨v', hv, heq⟩ := Option.map_eq_some_iff.mp he
      obtain ⟨rfl, rfl⟩ := Prod.mk.inj heq
      obtain ⟨hlo, hhi⟩ := hmem.mp hn
      rw [key_element_lt, key_element_lt, UInt64.lt_iff_toNat_lt, UInt64.lt_iff_toNat_lt,
        hofNat hhi]
      exact ⟨by omega, hhi, hv⟩
    · rintro ⟨hlo, hhi, hv⟩
      obtain ⟨slot, rfl⟩ := honly key (by simp [hv])
      obtain ⟨k, rfl, hik, hkj⟩ := slot_between hlo hhi
      rw [UInt64.lt_iff_toNat_lt] at hik hkj
      refine ⟨k.toNat, hmem.mpr ⟨by omega, hkj⟩, ?_⟩
      rw [UInt64.ofNat_toNat, hv]
      rfl

/-- An entry as the iterator's client sees it. -/
def decodeEntry (e : Bytes × Bytes) : UInt64 × Except WireError RawWithdrawal :=
  (ofBE64 (e.1.drop 2), withdrawalValue.unmarshal e.2)

theorem map_decodeEntry {kv : ByteStore} {s : Store W} (h : Represents kv s) (q : QueueKind)
    (is : List Nat) :
    (byteEntries kv q is).map decodeEntry
      = (is.filterMap fun i => ((q.queue s).elements (UInt64.ofNat i)).map fun w =>
          (UInt64.ofNat i, w)).map fun e => (e.1, .ok e.2.raw) := by
  rw [byteEntries, List.map_filterMap, List.map_filterMap]
  congr 1
  funext i
  have hdrop : ofBE64 ((Slot.element q (UInt64.ofNat i)).key.drop 2) = UInt64.ofNat i := by
    cases q <;> exact ofBE64_be64 _
  have hstored := h.stored (.element q (UInt64.ofNat i))
  cases hread : (q.queue s).elements (UInt64.ofNat i) with
  | none =>
      rw [Slot.read, hread] at hstored
      rw [show kv (Slot.element q (UInt64.ofNat i)).key = none from hstored]
      rfl
  | some w =>
      rw [Slot.read, hread] at hstored
      obtain ⟨bz, hbz, hw⟩ := hstored
      rw [hbz]
      simp only [Option.map_some, decodeEntry, hdrop]
      rw [show withdrawalValue.unmarshal bz = .ok w.raw from hw]

/-! ## The layout -/

/-- The store of a chain that has not started. -/
def blankStore (sdk : W) : Store W where
  accounts := ⟨fun _ => none, fun _ => none, fun _ => none, sdk⟩
  params := none
  validatorSweepIndex := none
  withdrawalQueue := .unset
  rewardWithdrawalQueue := .unset
  journal := []

theorem represents_blank (sdk : W) : Represents (fun _ => none) (blankStore sdk) where
  stored := by
    rintro (_ | _ | ⟨_ | _ | _, d⟩ | ⟨_ | _⟩ | ⟨_ | _⟩ | ⟨_ | _, i⟩) <;> rfl
  only := fun _ h => absurd rfl h

/-- **The bytes refine the record.** Whatever accesses the keeper makes to a store that was
empty at first, the bytes answer as the record does, errors included; and an iterator over a
queue, which goes by the order of the bytes of the keys, then runs through exactly the entries
of the queue, in their order. -/
theorem byte_store_refines_record (sdk : W) (calls : List StoreCall)
    (hcalls : ∀ c ∈ calls, c.Fits) :
    answers StoreCall.onBytes calls (fun _ => none)
      = answers StoreCall.onStore calls (blankStore sdk) ∧
    ∀ q : QueueKind, ∃ l,
      let kv := after StoreCall.onBytes calls fun _ => none
      let queue := q.queue (after StoreCall.onStore calls (blankStore sdk))
      let lo := (Slot.element q (getCounter (Slot.front q).key kv)).key
      let hi := (Slot.element q (getCounter (Slot.rear q).key kv)).key
      Iterates kv lo hi l ∧ (∀ l', Iterates kv lo hi l' → l' = l) ∧
      l.map decodeEntry = queue.entries.map fun e => (e.1, .ok e.2.raw) := by
  obtain ⟨hanswers, h⟩ := simulates_run (represents_blank sdk) hcalls
  refine ⟨hanswers, fun q => ?_⟩
  dsimp only
  rw [getCounter_eq (h.stored (.front q)), getCounter_eq (h.stored (.rear q))]
  have hiter := iterates_byteEntries h.only q
    (((Slot.front q).read (after StoreCall.onStore calls (blankStore sdk))).getD 0)
    (((Slot.rear q).read (after StoreCall.onStore calls (blankStore sdk))).getD 0)
  exact ⟨_, hiter, fun l' h' => h'.unique hiter, map_decodeEntry h q _⟩

theorem two_withdrawals_in_bytes :
    ∃ w w' : Withdrawal, answers StoreCall.onBytes
      [.init .reward, .enqueue .reward w, .enqueue .reward w', .dequeue .reward, .len .reward,
        .dequeue .withdrawal] (fun _ => none)
      = [.ok .done, .ok .done, .ok .done, .ok (.element w.raw), .ok (.count 1),
        .error (.err (errEmptyQueue.wrap "dequeue"))] := by
  refine ⟨⟨7, "0x01", 100, .reward, "v"⟩, ⟨8, "0x02", 5, .ubi, ""⟩, ?_⟩
  refine (byte_store_refines_record () _ ?_).1.trans ?_
  · decide
  · decide

end Story.EvmStaking
