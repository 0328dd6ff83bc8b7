/-
# Story.Collections.Queue -- the persistent queue of `client/collections/queue.go`

A queue is two counters and a map from counter values to elements: `front` is the
key of the next element to leave, `rear` the key the next element to enter gets.
Both are `uint64` and wrap. An `Item` or a `Map` of the collections package is
modelled by what it holds (`Option`, a function to `Option`); a read of an absent
`Item` that ignores its error yields the zero value.

`Holds q n l` says what a queue is for: `q` keeps the list `l`, whose first element
has the key `n`. It is meant for queues whose counters have not wrapped; every
operation is then described by what it does to `n` and `l`, and nothing above this
module looks at the counters or the map again.
-/
import Story.Errors

namespace Story.Collections

open Story.Effect Story.Errors

/-! ## The code -/

/-- The stored state of a `Queue[T]`. -/
structure Queue (T : Type) where
  front : Option UInt64
  rear : Option UInt64
  elements : UInt64 → Option T

def queueElementsNameSuffix : String := "_elements"
def queueFrontNameSuffix : String := "_front"
def queueRearNameSuffix : String := "_rear"

def errEmptyQueue : GoError := ⟨"queue is empty", [.emptyQueue]⟩
def errOutOfBoundsQueue : GoError := ⟨"queue index is out of bounds", [.outOfBoundsQueue]⟩

/-- `collections.ErrNotFound`, raised by the collection `name`. -/
def errNotFound (name : String) : GoError := ⟨"collections: not found", [.notFound name]⟩

/-- `Get` of a collection entry, by what is stored there. -/
def getEntry {σ T : Type} (name : String) (entry : σ → Option T) : Prog σ T := do
  match entry (← get) with
  | some v => pure v
  | none => fail (errNotFound name)

namespace Queue

variable {T : Type}

/-- A queue nothing was ever written to. -/
def unset : Queue T := ⟨none, none, fun _ => none⟩

/-- `Initialize`. -/
def init : Prog (Queue T) Unit := do
  modify fun q => { q with front := some 0 }
  modify fun q => { q with rear := some 0 }

def enqueue (elem : T) : Prog (Queue T) Unit := do
  -- an absent rear is tolerated, and reads as zero
  let rear := (← get).rear.getD 0
  modify fun q => { q with elements := Function.update q.elements rear (some elem) }
  modify fun q => { q with rear := some (rear + 1) }

def len (q : Queue T) : UInt64 := q.rear.getD 0 - q.front.getD 0

def isEmpty (q : Queue T) : Bool := q.len == 0

def dequeue : Prog (Queue T) T := do
  if (← get).isEmpty then
    fail (errEmptyQueue.wrap "dequeue")
  else
    let front := (← get).front.getD 0
    let elem ← wrapErr "dequeue elements get"
      (getEntry queueElementsNameSuffix fun q => q.elements front)
    modify fun q => { q with elements := Function.update q.elements front none }
    modify fun q => { q with front := some (front + 1) }
    pure elem

/-- `Get`: the element at a position counted from the front. -/
def getAt (index : UInt64) : Prog (Queue T) T := do
  let front := (← get).front.getD 0
  let rear := (← get).rear.getD 0
  if rear ≤ front + index then
    fail (errOutOfBoundsQueue.wrap "get")
  else
    wrapErr "get elements" (getEntry queueElementsNameSuffix fun q => q.elements (front + index))

def peek : Prog (Queue T) T := do
  if (← get).isEmpty then
    fail (errEmptyQueue.wrap "peek")
  else
    let front ← wrapErr "peek front get" (getEntry queueFrontNameSuffix Queue.front)
    wrapErr "peek elements get" (getEntry queueElementsNameSuffix fun q => q.elements front)

/-- `Front`: the key of the next element to leave. -/
def readFront : Prog (Queue T) UInt64 :=
  wrapErr "front get" (getEntry queueFrontNameSuffix Queue.front)

/-- `Rear`: the key the next element to enter gets. -/
def readRear : Prog (Queue T) UInt64 :=
  wrapErr "rear get" (getEntry queueRearNameSuffix Queue.rear)

/-- The entries of the map with a key from `front` up to but not including `rear`, in the
order of their keys: what the iterator of `Iterate` runs through. -/
def entries (q : Queue T) : List (UInt64 × T) :=
  let front := (q.front.getD 0).toNat
  let rear := (q.rear.getD 0).toNat
  (List.range' front (rear - front)).filterMap fun k =>
    (q.elements (UInt64.ofNat k)).map fun v => (UInt64.ofNat k, v)

/-- The elements the queue keeps, front first. -/
def contents (q : Queue T) : List T := q.entries.map Prod.snd

/-! ## What the queue is for -/

/-- The elements in the order in which `Dequeue` hands them out. Keys are `uint64`s: behind
the last one comes zero. -/
def waiting (q : Queue T) : List T :=
  (List.range q.len.toNat).filterMap fun i => q.elements (q.front.getD 0 + UInt64.ofNat i)

/-- **`Ring q n l`**: the elements `l` wait in the queue, in this order, the first of them
under the key `n` up to wrapping around, and nothing else does. -/
structure Ring (q : Queue T) (n : Nat) (l : List T) : Prop where
  front_eq : q.front = some (UInt64.ofNat n)
  rear_eq : q.rear = some (UInt64.ofNat (n + l.length))
  elements_eq : ∀ k, q.elements k = l[(k - UInt64.ofNat n).toNat]?
  length_lt : l.length < 2 ^ 64

/-- **`Holds q n l`**: the queue keeps the elements `l`, in this order, the first of
them under the key `n`, keeps nothing else, and its counters have not wrapped around. -/
structure Holds (q : Queue T) (n : Nat) (l : List T) : Prop extends Ring q n l where
  bound : n + l.length < 2 ^ 64

end Queue

instance readOnly_getEntry {σ T : Type} (name : String) (entry : σ → Option T) :
    ReadOnly (getEntry name entry) := by
  refine @ReadOnly.bind _ _ _ _ _ _ inferInstance ?_
  intro s
  split
  · exact ReadOnly.pure _
  · exact readOnly_fail _

instance readOnly_getAt {T : Type} (index : UInt64) :
    ReadOnly (Queue.getAt index : Prog (Queue T) T) := by
  unfold Queue.getAt
  infer_instance

instance readOnly_readFront {T : Type} : ReadOnly (Queue.readFront : Prog (Queue T) UInt64) :=
  readOnly_wrapErr _ _

@[simp] theorem returns_getEntry {σ T : Type} {name : String} {entry : σ → Option T} {s t : σ}
    {v : T} : Returns (getEntry name entry) s v t ↔ entry s = some v ∧ s = t := by
  simp only [getEntry, returns_bind, returns_get]
  constructor
  · rintro ⟨_, _, ⟨rfl, rfl⟩, h⟩
    split at h
    · rename_i w hw
      obtain ⟨rfl, rfl⟩ := returns_pure.mp h
      exact ⟨hw, rfl⟩
    · exact absurd h returns_fail
  · rintro ⟨hv, rfl⟩
    exact ⟨s, s, ⟨rfl, rfl⟩, by simp [hv]⟩

@[simp] theorem fails_getEntry {σ T : Type} {name : String} {entry : σ → Option T} {s t : σ}
    {f : Fault} :
    Fails (getEntry name entry) s f t ↔
      entry s = none ∧ f = .err (errNotFound name) ∧ s = t := by
  simp only [getEntry, fails_bind, returns_get, fails_get, false_or]
  constructor
  · rintro ⟨_, _, ⟨rfl, rfl⟩, h⟩
    split at h
    · exact absurd h fails_pure
    · rename_i hn
      obtain ⟨rfl, rfl⟩ := fails_fail.mp h
      exact ⟨hn, rfl, rfl⟩
  · rintro ⟨hn, rfl, rfl⟩
    exact ⟨s, s, ⟨rfl, rfl⟩, by simp [hn]⟩

namespace Queue

variable {T : Type} {q q' : Queue T} {n : Nat} {l : List T}

/-! ### Keys -/

theorem toNat_ofNat_of_lt {m : Nat} (h : m < 2 ^ 64) : (UInt64.ofNat m).toNat = m := by
  rw [UInt64.toNat_ofNat']
  exact Nat.mod_eq_of_lt h

theorem ofNat_add_sub (n i : Nat) : UInt64.ofNat (n + i) - UInt64.ofNat n = UInt64.ofNat i := by
  rw [UInt64.ofNat_add, UInt64.add_comm, UInt64.add_sub_cancel]

/-- How far the key `i` places behind the front is from it. -/
theorem toNat_ofNat_add_sub (n : Nat) {i : Nat} (h : i < 2 ^ 64) :
    (UInt64.ofNat (n + i) - UInt64.ofNat n).toNat = i := by
  rw [ofNat_add_sub, toNat_ofNat_of_lt h]

/-- Every key is some number of places behind the front. -/
theorem eq_ofNat_add (n : Nat) (k : UInt64) :
    k = UInt64.ofNat (n + (k - UInt64.ofNat n).toNat) := by
  rw [UInt64.ofNat_add, UInt64.ofNat_toNat, UInt64.add_comm, UInt64.sub_add_cancel]

theorem Ring.len_eq (h : q.Ring n l) : q.len = UInt64.ofNat l.length := by
  rw [len, h.front_eq, h.rear_eq, Option.getD_some, Option.getD_some, ofNat_add_sub]

theorem Ring.toNat_len (h : q.Ring n l) : q.len.toNat = l.length := by
  rw [h.len_eq, toNat_ofNat_of_lt h.length_lt]

theorem Ring.isEmpty_iff (h : q.Ring n l) : q.isEmpty = true ↔ l = [] := by
  rw [isEmpty, beq_iff_eq, ← UInt64.toNat_inj, h.toNat_len, UInt64.toNat_zero,
    List.length_eq_zero_iff]

theorem Ring.elements_add (h : q.Ring n l) {i : Nat} (hi : i < 2 ^ 64) :
    q.elements (UInt64.ofNat (n + i)) = l[i]? := by
  rw [h.elements_eq, toNat_ofNat_add_sub n hi]

private theorem filterMap_range'_getElem? (n : Nat) (l : List T) :
    (List.range' n l.length).filterMap (fun k => l[k - n]?) = l := by
  induction l generalizing n with
  | nil => rfl
  | cons x l ih =>
      rw [List.length_cons, List.range'_succ, List.filterMap_cons]
      simp only [Nat.sub_self, List.getElem?_cons_zero]
      congr 1
      refine (List.filterMap_congr ?_).trans (ih (n + 1))
      intro k hk
      have hk' := (List.mem_range'_1.mp hk).1
      rw [show k - n = (k - (n + 1)) + 1 by omega, List.getElem?_cons_succ]

/-- What waits in the queue is the list. -/
theorem Ring.waiting_eq (h : q.Ring n l) : q.waiting = l := by
  rw [waiting, h.toNat_len, h.front_eq, Option.getD_some]
  conv_rhs => rw [← filterMap_range'_getElem? 0 l, ← List.range_eq_range']
  apply List.filterMap_congr
  intro i hi
  have hi' : i < 2 ^ 64 := lt_trans (List.mem_range.mp hi) h.length_lt
  rw [← UInt64.ofNat_add, h.elements_add hi', Nat.sub_zero]

theorem Holds.front_toNat (h : q.Holds n l) : (UInt64.ofNat n).toNat = n :=
  toNat_ofNat_of_lt (by have := h.bound; omega)

theorem Holds.rear_toNat (h : q.Holds n l) :
    (UInt64.ofNat (n + l.length)).toNat = n + l.length :=
  toNat_ofNat_of_lt h.bound

/-- What `Iterate` runs through is the list the queue holds. -/
theorem Holds.contents_eq (h : q.Holds n l) : q.contents = l := by
  have hlen : n + l.length - n = l.length := by omega
  rw [contents, entries, h.front_eq, h.rear_eq, Option.getD_some, Option.getD_some,
    h.front_toNat, h.rear_toNat, hlen, List.map_filterMap]
  conv_rhs => rw [← filterMap_range'_getElem? n l]
  apply List.filterMap_congr
  intro k hk
  obtain ⟨hn, hk⟩ := List.mem_range'_1.mp hk
  have hkn : k - n < 2 ^ 64 := by have := h.bound; omega
  conv_lhs => rw [show k = n + (k - n) by omega, h.elements_add hkn]
  cases l[k - n]? <;> rfl

/-! ### The operations -/

theorem returns_init {u : Unit} :
    Returns init q u q' ↔ ⟨some 0, some 0, q.elements⟩ = q' := by
  simp [init]

theorem holds_initial : (⟨some 0, some 0, unset.elements⟩ : Queue T).Holds 0 [] where
  front_eq := rfl
  rear_eq := rfl
  elements_eq := by
    intro k
    simp [unset]
  length_lt := by simp
  bound := by simp

/-- The queue after an enqueue. -/
def push (q : Queue T) (elem : T) : Queue T where
  front := q.front
  rear := some (q.rear.getD 0 + 1)
  elements := Function.update q.elements (q.rear.getD 0) (some elem)

/-- An enqueue changes the queue. -/
theorem push_ne (q : Queue T) (elem : T) : q.push elem ≠ q := by
  intro h
  have hrear : some (q.rear.getD 0 + 1) = q.rear := congrArg Queue.rear h
  rw [← hrear, Option.getD_some] at hrear
  exact absurd (Option.some.inj hrear) (by simp)

/-- An enqueue never fails. -/
theorem returns_enqueue {elem : T} {u : Unit} :
    Returns (enqueue elem) q u q' ↔ q.push elem = q' := by
  simp [enqueue, push]

theorem fails_enqueue {elem : T} {f : Fault} : ¬ Fails (enqueue elem) q f q' := by
  simp [enqueue]

theorem Ring.push (h : q.Ring n l) (elem : T) (hb : l.length + 1 < 2 ^ 64) :
    (q.push elem).Ring n (l ++ [elem]) where
  front_eq := h.front_eq
  rear_eq := by
    rw [Queue.push, h.rear_eq]
    simp [UInt64.ofNat_add, add_assoc]
  elements_eq := by
    intro k
    have hk : k = UInt64.ofNat (n + l.length) ↔ (k - UInt64.ofNat n).toNat = l.length := by
      constructor
      · rintro rfl
        exact toNat_ofNat_add_sub n h.length_lt
      · intro hk
        rw [eq_ofNat_add n k, hk]
    rw [Queue.push, h.rear_eq]
    simp only [Option.getD_some, Function.update_apply, h.elements_eq k, hk]
    grind
  length_lt := by simpa using hb

theorem Holds.push (h : q.Holds n l) (elem : T) (hb : n + l.length + 1 < 2 ^ 64) :
    (q.push elem).Holds n (l ++ [elem]) where
  toRing := h.toRing.push elem (by omega)
  bound := by
    simp only [List.length_append, List.length_cons, List.length_nil]
    omega

/-- The queue after the element under the front key has left. -/
def pop (q : Queue T) : Queue T where
  front := some (q.front.getD 0 + 1)
  rear := q.rear
  elements := Function.update q.elements (q.front.getD 0) none

theorem Ring.pop {x : T} (h : q.Ring n (x :: l)) : q.pop.Ring (n + 1) l where
  front_eq := by
    rw [Queue.pop, h.front_eq]
    simp [UInt64.ofNat_add]
  rear_eq := by
    rw [Queue.pop, h.rear_eq, List.length_cons]
    congr 2
    omega
  elements_eq := by
    intro k
    -- seen from the new front, the key is `i` places away; the old front is the last one
    obtain ⟨i, hi, rfl⟩ : ∃ i < 2 ^ 64, k = UInt64.ofNat (n + 1 + i) :=
      ⟨_, UInt64.toNat_lt _, eq_ofNat_add (n + 1) k⟩
    have hlen : l.length + 1 < 2 ^ 64 := h.length_lt
    rw [Queue.pop, h.front_eq, toNat_ofNat_add_sub _ hi]
    simp only [Option.getD_some, Function.update_apply]
    split
    next hk =>
      have := congrArg UInt64.toNat hk
      rw [UInt64.toNat_ofNat', UInt64.toNat_ofNat'] at this
      symm
      apply List.getElem?_eq_none
      omega
    next hk =>
      have hi' : i + 1 < 2 ^ 64 := by
        by_contra hge
        apply hk
        rw [show n + 1 + i = n + 2 ^ 64 by omega, UInt64.ofNat_add]
        simp
      rw [show n + 1 + i = n + (i + 1) by omega, h.elements_add hi', List.getElem?_cons_succ]
  length_lt := by
    have := h.length_lt
    rw [List.length_cons] at this
    omega

theorem Holds.pop {x : T} (h : q.Holds n (x :: l)) : q.pop.Holds (n + 1) l where
  toRing := h.toRing.pop
  bound := by
    have := h.bound
    rw [List.length_cons] at this
    omega

theorem Ring.elements_front {x : T} (h : q.Ring n (x :: l)) :
    q.elements (q.front.getD 0) = some x := by
  rw [h.front_eq, Option.getD_some]
  exact h.elements_add (i := 0) (by decide)

/-- Dequeuing from a non-empty queue hands out its first element. -/
theorem Ring.dequeue_cons {x : T} (h : q.Ring n (x :: l)) : Returns dequeue q x q.pop := by
  have hne : q.isEmpty = false := by
    rw [Bool.eq_false_iff, Ne, h.isEmpty_iff]
    simp
  simp [dequeue, hne, h.elements_front, Queue.pop]

/-- Dequeuing from an empty queue reports `ErrEmptyQueue` and changes nothing. -/
theorem dequeue_of_isEmpty (he : q.isEmpty = true) :
    Fails dequeue q (.err (errEmptyQueue.wrap "dequeue")) q := by
  simp [dequeue, he]

/-- `Get` at a position inside the queue. -/
theorem Holds.getAt_of_lt (h : q.Holds n l) {i : Nat} (hi : i < l.length) :
    Returns (getAt (UInt64.ofNat i)) q l[i] q := by
  have hk : UInt64.ofNat n + UInt64.ofNat i = UInt64.ofNat (n + i) := by
    rw [UInt64.ofNat_add]
  have hki : (UInt64.ofNat (n + i)).toNat = n + i :=
    toNat_ofNat_of_lt (by have := h.bound; omega)
  have hlt : ¬ UInt64.ofNat (n + l.length) ≤ UInt64.ofNat (n + i) := by
    rw [UInt64.le_iff_toNat_le, h.rear_toNat, hki]
    omega
  have he : q.elements (UInt64.ofNat (n + i)) = some l[i] := by
    rw [h.elements_add (lt_trans hi h.length_lt), List.getElem?_eq_getElem hi]
  simp only [getAt, returns_bind, returns_get]
  refine ⟨q, q, ⟨rfl, rfl⟩, q, q, ⟨rfl, rfl⟩, ?_⟩
  rw [h.front_eq, h.rear_eq, Option.getD_some, Option.getD_some, hk, if_neg hlt]
  exact returns_wrapErr.mpr (returns_getEntry.mpr ⟨he, rfl⟩)

/-- `Get` at a position behind the last element reports `ErrOutOfBoundsQueue`, as long as the
key it looks for does not wrap around. -/
theorem Holds.getAt_of_le (h : q.Holds n l) {i : Nat} (hi : l.length ≤ i) (hb : n + i < 2 ^ 64) :
    Fails (getAt (UInt64.ofNat i)) q (.err (errOutOfBoundsQueue.wrap "get")) q := by
  have hk : UInt64.ofNat n + UInt64.ofNat i = UInt64.ofNat (n + i) := by
    rw [UInt64.ofNat_add]
  have hle : UInt64.ofNat (n + l.length) ≤ UInt64.ofNat (n + i) := by
    rw [UInt64.le_iff_toNat_le, h.rear_toNat, toNat_ofNat_of_lt hb]
    omega
  simp only [getAt, fails_bind, returns_get, fails_get, false_or]
  refine ⟨q, q, ⟨rfl, rfl⟩, q, q, ⟨rfl, rfl⟩, ?_⟩
  rw [h.front_eq, h.rear_eq, Option.getD_some, Option.getD_some, hk, if_pos hle]
  exact fails_fail.mpr ⟨rfl, rfl⟩

theorem Ring.readFront (h : q.Ring n l) : Returns readFront q (UInt64.ofNat n) q := by
  simp [Queue.readFront, h.front_eq]

/-! ### The last key

The counters are `uint64`. On an empty queue whose next key is the largest one, the rear
wraps to zero with the next element: the length still counts it, but `Get` finds every
position behind the rear. -/

section LastKey

variable (h : q.Holds (2 ^ 64 - 1) []) (x : T)

include h

theorem Holds.push_last :
    q.push x = ⟨some (-1), some 0, Function.update q.elements (-1) (some x)⟩ := by
  have hlast : UInt64.ofNat (2 ^ 64 - 1) = -1 := by decide
  have hrear : q.rear = some (-1) := by rw [h.rear_eq, List.length_nil, Nat.add_zero, hlast]
  rw [Queue.push, hrear, h.front_eq, hlast]
  rfl

theorem Holds.push_last_getAt :
    Fails (getAt 0) (q.push x) (.err (errOutOfBoundsQueue.wrap "get")) (q.push x) := by
  rw [h.push_last]
  simp [getAt]

theorem Holds.push_last_dequeue : ∃ q', Returns dequeue (q.push x) x q' ∧ q'.isEmpty = true := by
  rw [h.push_last]
  refine ⟨⟨some 0, some 0, Function.update (Function.update q.elements (-1) (some x)) (-1) none⟩,
    ?_, by simp [isEmpty, len]⟩
  simp [dequeue, isEmpty, len]

end LastKey

/-! ### Many elements at once

As many elements as there are keys do not fit: the rear comes back to the front, and the queue
looks empty with every key taken. -/

/-- The queue after some enqueues. -/
def pushAll (q : Queue T) (l : List T) : Queue T := l.foldl push q

@[simp] theorem pushAll_nil : q.pushAll [] = q := rfl

theorem pushAll_append (l l' : List T) : q.pushAll (l ++ l') = (q.pushAll l).pushAll l' :=
  List.foldl_append

theorem pushAll_concat (l : List T) (x : T) : q.pushAll (l ++ [x]) = (q.pushAll l).push x :=
  pushAll_append l [x]

/-- Every key is taken. -/
def Full (q : Queue T) : Prop := ∀ k, q.elements k ≠ none

theorem Full.push (h : q.Full) (x : T) : (q.push x).Full := by
  intro k
  simp only [Queue.push, Function.update_apply]
  split
  · simp
  · exact h k

theorem Full.pushAll (h : q.Full) (l : List T) : (q.pushAll l).Full := by
  induction l generalizing q with
  | nil => exact h
  | cons x l ih => exact ih (h.push x)

theorem Full.not_ring (h : q.Full) : ¬ q.Ring n l := by
  intro hr
  apply h (UInt64.ofNat (n + l.length))
  rw [hr.elements_add hr.length_lt]
  exact List.getElem?_eq_none le_rfl

/-- The last key is taken. -/
theorem Ring.push_full (h : q.Ring n l) (x : T) (hlen : l.length + 1 = 2 ^ 64) :
    (q.push x).Full := by
  intro k
  obtain ⟨i, hi, rfl⟩ : ∃ i < 2 ^ 64, k = UInt64.ofNat (n + i) :=
    ⟨_, UInt64.toNat_lt _, eq_ofNat_add n k⟩
  simp only [Queue.push, h.rear_eq, Option.getD_some, Function.update_apply]
  split
  · simp
  next hk =>
    have hne : i ≠ l.length := by
      rintro rfl
      exact hk rfl
    rw [h.elements_add hi, List.getElem?_eq_getElem (by omega)]
    simp

theorem Ring.pushAll {l' : List T} (h : q.Ring n l) (hlen : l.length + l'.length < 2 ^ 64) :
    (q.pushAll l').Ring n (l ++ l') := by
  induction l' generalizing q l with
  | nil => simpa using h
  | cons x l' ih =>
      rw [List.length_cons] at hlen
      have := ih (h.push x (by omega)) (by simp; omega)
      rwa [List.append_assoc] at this

/-- With the last key taken, the queue looks empty. -/
theorem Ring.waiting_push_full (h : q.Ring n l) (x : T) (hlen : l.length + 1 = 2 ^ 64) :
    (q.push x).waiting = [] := by
  have hkey : UInt64.ofNat (n + l.length) + 1 = UInt64.ofNat n := by
    rw [show (1 : UInt64) = UInt64.ofNat 1 from rfl, ← UInt64.ofNat_add, add_assoc, hlen,
      UInt64.ofNat_add]
    simp
  have hempty : (q.push x).len = 0 := by
    rw [len, Queue.push, h.front_eq, h.rear_eq]
    simp only [Option.getD_some, hkey]
    exact UInt64.sub_self _
  rw [waiting, hempty]
  rfl

/-- **A queue that is a ring before and after some enqueues** has not overflowed in between, and
holds the new elements behind the old ones. -/
theorem Ring.of_pushAll {n' : Nat} {l' m : List T} (h : q.Ring n l)
    (h' : (q.pushAll l').Ring n' m) : (q.pushAll l').Ring n (l ++ l') := by
  induction l' generalizing q l with
  | nil => simpa using h
  | cons x l' ih =>
      by_cases hlen : l.length + 1 < 2 ^ 64
      · have := ih (h.push x hlen) h'
        rwa [List.append_assoc] at this
      · have hfull : (q.push x).Full := h.push_full x (by have := h.length_lt; omega)
        exact absurd h' (hfull.pushAll l').not_ring

theorem Ring.waiting_pushAll {n' : Nat} {l' m : List T} (h : q.Ring n l)
    (h' : (q.pushAll l').Ring n' m) : (q.pushAll l').waiting = q.waiting ++ l' := by
  rw [(h.of_pushAll h').waiting_eq, h.waiting_eq]

end Queue

end Story.Collections
