/-
# Story.Collections.QueueCalls -- the persistent queue refines a list

A client of `client/collections/queue.go` makes calls, one after another, and sees
their answers. `QueueCall` is the type of these calls, `code` what the package runs for
one, and `onList` what the same call means on a plain list: that is the whole
specification of a queue, and it knows no key and no counter.

One step lemma by cases on the call relates the two, as long as fewer elements were
ever enqueued than there are keys. Two things are said beyond the answers, because
other code relies on them: the keys in use are exactly those from `front` up to `rear`,
and so a scan of the whole element map, which looks at neither counter, finds the list.
-/
import Story.Collections.Queue

namespace Story.Collections

open Story.Effect Story.Errors

variable {T : Type}

/-! ## The code -/

namespace Queue

/-- `Iterate`, with the iterator run to its end. -/
def iterate : Prog (Queue T) (List (UInt64 × T)) := do
  return (← get).entries

/-- Every entry of the element map in the order of the keys, whatever the counters say: what
an iterator over the key prefix of the elements runs through. -/
def scan (q : Queue T) : List (UInt64 × T) :=
  (List.range (2 ^ 64)).filterMap fun k =>
    (q.elements (UInt64.ofNat k)).map fun v => (UInt64.ofNat k, v)

end Queue

/-- A call of a queue's client. -/
inductive QueueCall (T : Type)
  | enqueue (elem : T)
  | dequeue
  | getAt (index : UInt64)
  | peek
  | len
  | isEmpty
  | iterate

/-- What a call comes back with. -/
inductive QueueReply (T : Type)
  | done
  | elem (v : T)
  | count (n : Nat)
  | flag (b : Bool)
  | elems (l : List T)

namespace QueueCall

/-- What the package runs for a call. -/
def code : QueueCall T → Prog (Queue T) (QueueReply T)
  | .enqueue elem => do
      Queue.enqueue elem
      return .done
  | .dequeue => return .elem (← Queue.dequeue)
  | .getAt index => return .elem (← Queue.getAt index)
  | .peek => return .elem (← Queue.peek)
  | .len => return .count (← get).len.toNat
  | .isEmpty => return .flag (← get).isEmpty
  | .iterate => return .elems ((← Queue.iterate).map Prod.snd)

/-- The answer to a call, and the queue it leaves behind. -/
def perform (c : QueueCall T) (q : Queue T) : Except Fault (QueueReply T) × Queue T :=
  match c.code.run q with
  | .ok a q' => (.ok a, q')
  | .error e q' => (.error e, q')

/-- The queue after some calls. -/
def after (calls : List (QueueCall T)) (q : Queue T) : Queue T :=
  calls.foldl (fun q c => (c.perform q).2) q

/-! ## The specification -/

/-- What a call means on a list. -/
def onList : QueueCall T → List T → Except Fault (QueueReply T) × List T
  | .enqueue elem, l => (.ok .done, l ++ [elem])
  | .dequeue, [] => (.error (.err (errEmptyQueue.wrap "dequeue")), [])
  | .dequeue, x :: l => (.ok (.elem x), l)
  | .getAt index, l =>
      match l[index.toNat]? with
      | some x => (.ok (.elem x), l)
      | none => (.error (.err (errOutOfBoundsQueue.wrap "get")), l)
  | .peek, [] => (.error (.err (errEmptyQueue.wrap "peek")), [])
  | .peek, x :: l => (.ok (.elem x), x :: l)
  | .len, l => (.ok (.count l.length), l)
  | .isEmpty, l => (.ok (.flag l.isEmpty), l)
  | .iterate, l => (.ok (.elems l), l)

def listAfter (calls : List (QueueCall T)) (l : List T) : List T :=
  calls.foldl (fun l c => (c.onList l).2) l

/-- The elements some calls enqueue. -/
def enqueued (calls : List (QueueCall T)) : List T :=
  calls.filterMap fun
    | .enqueue elem => some elem
    | _ => none

/-- The calls that read. -/
def Reads : QueueCall T → Prop
  | .enqueue _ | .dequeue => False
  | _ => True

/-- A `Get` asks for a key, and not for one behind the last. -/
def InRange (front : UInt64) : QueueCall T → Prop
  | .getAt index => front.toNat + index.toNat < 2 ^ 64
  | _ => True

end QueueCall

/-- **`Interval q l`**: the keys in use are those from `front` up to but not including `rear`,
and the elements under them are the list. -/
structure Queue.Interval (q : Queue T) (front rear : UInt64) (l : List T) : Prop where
  front_eq : q.front = some front
  rear_eq : q.rear = some rear
  front_le_rear : front ≤ rear
  keys : ∀ k, (q.elements k).isSome ↔ front ≤ k ∧ k < rear
  length_eq : front.toNat + l.length = rear.toNat
  elements_eq : ∀ i, i < l.length → q.elements (front + UInt64.ofNat i) = l[i]?

namespace Queue

variable {q : Queue T} {n : Nat} {l : List T}

/-! ## The keys in use -/

/-- Behind the last element, and in front of the first one, no key is in use. -/
theorem Holds.elements_isSome (h : q.Holds n l) {k : Nat} (hk : k < 2 ^ 64) :
    (q.elements (UInt64.ofNat k)).isSome ↔ n ≤ k ∧ k < n + l.length := by
  have hb := h.bound
  by_cases hn : n ≤ k
  · obtain ⟨i, rfl⟩ := Nat.exists_eq_add_of_le hn
    rw [h.elements_add (by omega), isSome_getElem?]
    omega
  · -- seen from the front, a key in front of it is more than a full list away
    have hfar : (UInt64.ofNat k - UInt64.ofNat n).toNat = 2 ^ 64 - n + k := by
      rw [UInt64.toNat_sub, toNat_ofNat_of_lt hk, h.front_toNat]
      omega
    rw [h.elements_eq, hfar, isSome_getElem?]
    omega

theorem Holds.interval (h : q.Holds n l) :
    q.Interval (UInt64.ofNat n) (UInt64.ofNat (n + l.length)) l where
  front_eq := h.front_eq
  rear_eq := h.rear_eq
  front_le_rear := by
    rw [UInt64.le_iff_toNat_le, h.front_toNat, h.rear_toNat]
    omega
  keys := by
    intro k
    have hk := h.elements_isSome (UInt64.toNat_lt k)
    rw [UInt64.ofNat_toNat] at hk
    rw [hk, UInt64.le_iff_toNat_le, UInt64.lt_iff_toNat_lt, h.front_toNat, h.rear_toNat]
  length_eq := by rw [h.front_toNat, h.rear_toNat]
  elements_eq := by
    intro i hi
    rw [← UInt64.ofNat_add]
    exact h.elements_add (lt_trans hi h.length_lt)

/-- A scan of the whole element map finds what `Iterate` runs through. -/
theorem Holds.scan_eq (h : q.Holds n l) : q.scan = q.entries := by
  have hb := h.bound
  let entry := fun k => (q.elements (UInt64.ofNat k)).map fun v => (UInt64.ofNat k, v)
  have hnone : ∀ k < 2 ^ 64, ¬ (n ≤ k ∧ k < n + l.length) → entry k = none := by
    intro k hk hout
    rw [← h.elements_isSome hk, Bool.not_eq_true, Option.isSome_eq_false_iff,
      Option.isNone_iff_eq_none] at hout
    show Option.map _ _ = none
    rw [hout, Option.map_none]
  -- the keys: those in front of the queue, those in use, those behind it
  have hsplit : List.range (2 ^ 64) = List.range' 0 n ++ (List.range' (0 + n) l.length ++
      List.range' (0 + n + l.length) (2 ^ 64 - (n + l.length))) := by
    rw [List.range'_append_1, List.range'_append_1, List.range_eq_range']
    congr 1
    omega
  have hbefore : (List.range' 0 n).filterMap entry = [] := by
    rw [List.filterMap_eq_nil_iff]
    intro k hk
    have := List.mem_range'_1.mp hk
    apply hnone k <;> omega
  have hbehind :
      (List.range' (0 + n + l.length) (2 ^ 64 - (n + l.length))).filterMap entry = [] := by
    rw [List.filterMap_eq_nil_iff]
    intro k hk
    have := List.mem_range'_1.mp hk
    apply hnone k <;> omega
  have hlen : n + l.length - n = l.length := by omega
  rw [scan, entries, hsplit, List.filterMap_append, List.filterMap_append, hbefore, hbehind,
    List.nil_append, List.append_nil, h.front_eq, h.rear_eq, Option.getD_some, Option.getD_some,
    h.front_toNat, h.rear_toNat, hlen, Nat.zero_add]

end Queue

/-! ## Reading calls -/

instance readOnly_peek : ReadOnly (Queue.peek : Prog (Queue T) T) := by
  unfold Queue.peek
  infer_instance

namespace QueueCall

variable {c : QueueCall T} {q q' : Queue T} {n : Nat} {l : List T}

theorem perform_of_returns {a : QueueReply T} (h : Returns c.code q a q') :
    c.perform q = (.ok a, q') := by
  rw [returns_iff] at h
  rw [perform, h]

theorem perform_of_fails {f : Fault} (h : Fails c.code q f q') :
    c.perform q = (.error f, q') := by
  rw [fails_iff] at h
  rw [perform, h]

/-- A reading call leaves every queue as it is. -/
theorem perform_reads (h : c.Reads) (q : Queue T) : (c.perform q).2 = q := by
  have hread : ReadOnly c.code := by
    cases c with
    | enqueue elem => exact h.elim
    | dequeue => exact h.elim
    | getAt index => exact ReadOnly.bind _ _
    | peek => exact ReadOnly.bind _ _
    | len => exact ReadOnly.bind _ _
    | isEmpty => exact ReadOnly.bind _ _
    | iterate => exact @ReadOnly.bind _ _ _ _ _ _ (ReadOnly.bind _ _) inferInstance
  obtain ⟨a, q', hreturns⟩ | ⟨f, q', hfails⟩ := returns_or_fails c.code q
  · rw [perform_of_returns hreturns]
    exact hread.returns _ _ _ hreturns
  · rw [perform_of_fails hfails]
    exact hread.fails _ _ _ hfails

/-! ## One call -/

theorem perform_enqueue (elem : T) (q : Queue T) :
    (enqueue elem).perform q = (.ok .done, q.push elem) :=
  perform_of_returns (by simp [code, Queue.returns_enqueue])

theorem perform_dequeue_nil (h : q.Holds n []) :
    (dequeue : QueueCall T).perform q = (.error (.err (errEmptyQueue.wrap "dequeue")), q) := by
  apply perform_of_fails
  have hempty : q.isEmpty = true := h.isEmpty_iff.mpr rfl
  exact fails_bind.mpr (.inl (Queue.dequeue_of_isEmpty hempty))

theorem perform_dequeue_cons {x : T} (h : q.Holds n (x :: l)) :
    (dequeue : QueueCall T).perform q = (.ok (.elem x), q.pop) := by
  apply perform_of_returns
  exact h.dequeue_cons.bind (returns_pure.mpr ⟨rfl, rfl⟩)

theorem perform_peek_nil (h : q.Holds n []) :
    (peek : QueueCall T).perform q = (.error (.err (errEmptyQueue.wrap "peek")), q) := by
  apply perform_of_fails
  have hempty : q.isEmpty = true := h.isEmpty_iff.mpr rfl
  simp [code, Queue.peek, hempty]

theorem perform_peek_cons {x : T} (h : q.Holds n (x :: l)) :
    (peek : QueueCall T).perform q = (.ok (.elem x), q) := by
  apply perform_of_returns
  have hne : q.isEmpty = false := by
    rw [Bool.eq_false_iff, Ne, h.isEmpty_iff]
    simp
  have hfront := h.elements_front
  rw [h.front_eq, Option.getD_some] at hfront
  simp [code, Queue.peek, hne, h.front_eq, hfront]

/-- `Get`, at a key that does not wrap around. -/
theorem perform_getAt (h : q.Holds n l) {index : UInt64} (hkey : n + index.toNat < 2 ^ 64) :
    (getAt index : QueueCall T).perform q = (((getAt index).onList l).1, q) := by
  have hindex : UInt64.ofNat index.toNat = index := UInt64.ofNat_toNat
  by_cases hi : index.toNat < l.length
  · have hget := h.getAt_of_lt hi
    rw [hindex] at hget
    rw [onList, List.getElem?_eq_getElem hi]
    apply perform_of_returns
    exact hget.bind (returns_pure.mpr ⟨rfl, rfl⟩)
  · have hget := h.getAt_of_le (not_lt.mp hi) hkey
    rw [hindex] at hget
    rw [onList, List.getElem?_eq_none (not_lt.mp hi)]
    apply perform_of_fails
    exact fails_bind.mpr (.inl hget)

theorem perform_len (h : q.Holds n l) :
    (len : QueueCall T).perform q = (.ok (.count l.length), q) :=
  perform_of_returns (by simp [code, h.toNat_len])

theorem perform_isEmpty (h : q.Holds n l) :
    (isEmpty : QueueCall T).perform q = (.ok (.flag l.isEmpty), q) := by
  have hflag : q.isEmpty = l.isEmpty := by
    rw [Bool.eq_iff_iff, h.isEmpty_iff, List.isEmpty_iff]
  exact perform_of_returns (by simp [code, hflag])

theorem perform_iterate (h : q.Holds n l) :
    (iterate : QueueCall T).perform q = (.ok (.elems l), q) := by
  have hlist : q.entries.map Prod.snd = l := h.contents_eq
  exact perform_of_returns (by simp [code, Queue.iterate, hlist])

/-- **One call.** On a queue that holds a list a call answers as on the list, and leaves a queue
that holds the list the call leaves: what was there and what it enqueues, without the first
element if it has left. -/
theorem holds_perform (h : q.Holds n l) (c : QueueCall T)
    (hroom : n + l.length + (enqueued [c]).length < 2 ^ 64) :
    (c.InRange (UInt64.ofNat n) → (c.perform q).1 = (c.onList l).1) ∧
    ∃ d, (c.perform q).2.Holds (n + d) (c.onList l).2 ∧ d ≤ l.length ∧
      (c.onList l).2 = (l ++ enqueued [c]).drop d := by
  cases c with
  | enqueue elem =>
      rw [perform_enqueue]
      refine ⟨fun _ => rfl, 0, h.push elem ?_, Nat.zero_le _, rfl⟩
      show n + l.length + 1 < 2 ^ 64
      exact hroom
  | dequeue =>
      cases l with
      | nil =>
          rw [perform_dequeue_nil h]
          exact ⟨fun _ => rfl, 0, h, le_rfl, rfl⟩
      | cons x l =>
          rw [perform_dequeue_cons h]
          refine ⟨fun _ => rfl, 1, h.pop, by simp, ?_⟩
          show l = l ++ []
          exact (List.append_nil l).symm
  | peek =>
      cases l with
      | nil =>
          rw [perform_peek_nil h]
          exact ⟨fun _ => rfl, 0, h, le_rfl, rfl⟩
      | cons x l =>
          rw [perform_peek_cons h]
          exact ⟨fun _ => rfl, 0, h, Nat.zero_le _, (List.append_nil _).symm⟩
  | getAt index =>
      -- a `Get` that asks for a key behind the last one still leaves the queue as it is
      have hsame : ((getAt index).onList l).2 = l := by
        rw [onList]
        split <;> rfl
      refine ⟨fun hrange => ?_, 0, ?_, Nat.zero_le _, ?_⟩
      · have hkey : n + index.toNat < 2 ^ 64 := by
          have : (UInt64.ofNat n).toNat + index.toNat < 2 ^ 64 := hrange
          rwa [h.front_toNat] at this
        rw [perform_getAt h hkey]
      · rw [perform_reads (by exact trivial), hsame]
        exact h
      · rw [hsame]
        exact (List.append_nil _).symm
  | len =>
      rw [perform_len h]
      exact ⟨fun _ => rfl, 0, h, Nat.zero_le _, (List.append_nil _).symm⟩
  | isEmpty =>
      rw [perform_isEmpty h]
      exact ⟨fun _ => rfl, 0, h, Nat.zero_le _, (List.append_nil _).symm⟩
  | iterate =>
      rw [perform_iterate h]
      exact ⟨fun _ => rfl, 0, h, Nat.zero_le _, (List.append_nil _).symm⟩

/-! ## Every run -/

theorem after_concat (calls : List (QueueCall T)) (c : QueueCall T) (q : Queue T) :
    after (calls ++ [c]) q = (c.perform (after calls q)).2 := by
  simp [after]

theorem listAfter_concat (calls : List (QueueCall T)) (c : QueueCall T) (l : List T) :
    listAfter (calls ++ [c]) l = (c.onList (listAfter calls l)).2 := by
  simp [listAfter]

theorem enqueued_append (calls calls' : List (QueueCall T)) :
    enqueued (calls ++ calls') = enqueued calls ++ enqueued calls' :=
  List.filterMap_append

/-- The queue after some calls: `n` of the elements enqueued so far have left, the first of them
first, and the queue holds the rest. -/
structure Reached (calls : List (QueueCall T)) (q : Queue T) (n : Nat) : Prop where
  holds : q.Holds n (listAfter calls [])
  left : n ≤ (enqueued calls).length
  rest : listAfter calls [] = (enqueued calls).drop n

theorem Reached.length_eq {calls : List (QueueCall T)} (h : Reached calls q n) :
    n + (listAfter calls []).length = (enqueued calls).length := by
  have := h.left
  rw [h.rest, List.length_drop]
  omega

theorem Reached.perform {calls : List (QueueCall T)} (h : Reached calls q n) (c : QueueCall T)
    (hroom : (enqueued (calls ++ [c])).length < 2 ^ 64) :
    ∃ n', Reached (calls ++ [c]) (c.perform q).2 n' := by
  rw [enqueued_append, List.length_append, ← h.length_eq] at hroom
  obtain ⟨-, d, hholds, hd, hrest⟩ := holds_perform h.holds c hroom
  have hlength := h.length_eq
  refine ⟨n + d, ?_, ?_, ?_⟩
  · rw [listAfter_concat]
    exact hholds
  · rw [enqueued_append, List.length_append]
    omega
  · rw [listAfter_concat, hrest, enqueued_append, ← List.drop_drop,
      List.drop_append_of_le_length h.left, h.rest]

/-- Every run from an initialized queue. -/
theorem exists_reached (hinit : Returns Queue.init Queue.unset () q)
    (calls : List (QueueCall T)) (hroom : (enqueued calls).length < 2 ^ 64) :
    ∃ n, Reached calls (after calls q) n := by
  induction calls using List.reverseRecOn with
  | nil =>
      obtain rfl := Queue.returns_init.mp hinit
      exact ⟨0, Queue.holds_initial, le_rfl, rfl⟩
  | append_singleton calls c ih =>
      have hbefore : (enqueued calls).length < 2 ^ 64 := by
        rw [enqueued_append, List.length_append] at hroom
        omega
      obtain ⟨n, h⟩ := ih hbefore
      rw [after_concat]
      exact h.perform c hroom

/-- **`RefinesList calls q`**: after `calls` the queue `q` is, for every client, the list that
the same calls make of the empty list. -/
structure RefinesList (calls : List (QueueCall T)) (q : Queue T) : Prop where
  /-- The keys in use are an interval, and the elements under them the list: those enqueued
  and not yet dequeued, in the order in which they came. -/
  interval : ∃ front rear, q.Interval front rear (listAfter calls []) ∧
    listAfter calls [] = (enqueued calls).drop front.toNat
  /-- The next call answers as on the list. -/
  answers : ∀ c : QueueCall T, (enqueued (calls ++ [c])).length < 2 ^ 64 →
    (∀ front, q.front = some front → c.InRange front) →
      (c.perform q).1 = (c.onList (listAfter calls [])).1
  /-- A reading call changes nothing. -/
  reads : ∀ c : QueueCall T, c.Reads → (c.perform q).2 = q
  /-- A scan of every key in use finds the list. -/
  scan : q.scan.map Prod.snd = listAfter calls []

theorem Reached.refinesList {calls : List (QueueCall T)} (h : Reached calls q n) :
    RefinesList calls q where
  interval := by
    refine ⟨_, _, h.holds.interval, ?_⟩
    rw [h.holds.front_toNat]
    exact h.rest
  answers := by
    intro c hroom hrange
    rw [enqueued_append, List.length_append, ← h.length_eq] at hroom
    exact (holds_perform h.holds c hroom).1 (hrange _ h.holds.front_eq)
  reads := fun c hc => perform_reads hc q
  scan := by
    rw [h.holds.scan_eq]
    exact h.holds.contents_eq

end QueueCall

end Story.Collections
