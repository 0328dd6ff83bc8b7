/-
# Story.Collections.Walk -- a bounded walk over buckets, from a cursor

Buckets of different sizes stand in a row; a slot is a bucket and a place in it. A walk
starts at a place of the first bucket, takes slots in order up to a bound, and stops at
the first slot it may not take. What it takes is a sublist of the slots, and a contiguous
piece of them when it starts inside the first bucket.

When the buckets stand in a circle, and each walk goes once around it from where the one
before has stopped, the walks together take a contiguous segment of the circle. A walk
that does not use up its bound has gone around, but for the places of its first bucket
that were behind it; so one walk more than the bound asks for reaches every slot.
-/
import Story.Effect.Trace
import Mathlib.Data.List.Rotate
import Mathlib.Data.List.Nodup
import Mathlib.Algebra.Order.Floor.Div

namespace Story.Collections

open Story.Effect

variable {ι : Type*}

/-! ## Walks -/

/-- The slots of a row of buckets, each given by its name and its size. -/
def slots (l : List (ι × ℕ)) : List (ι × ℕ) := l.flatMap fun b => (List.range b.2).map (b.1, ·)

@[simp] theorem slots_nil : slots ([] : List (ι × ℕ)) = [] := rfl

@[simp] theorem slots_cons (i : ι) (m : ℕ) (l : List (ι × ℕ)) :
    slots ((i, m) :: l) = (List.range m).map (i, ·) ++ slots l := rfl

@[simp] theorem slots_append (l l' : List (ι × ℕ)) : slots (l ++ l') = slots l ++ slots l' :=
  List.flatMap_append

/-- What a walk has taken, and the slot it stopped at; none when it came to the end. -/
structure Walk (ι : Type*) where
  taken : List (ι × ℕ)
  stop : Option (ι × ℕ)

/-- The walk from place `j` of the first bucket. A bucket that is not larger than `j` is
passed over. -/
def walk : (l : List (ι × ℕ)) → (j bound : ℕ) → Walk ι
  | [], _, _ => ⟨[], none⟩
  | (i, m) :: l, j, bound =>
      if m ≤ j then walk l 0 bound
      else if bound < m - j then ⟨(List.range' j bound).map (i, ·), some (i, j + bound)⟩
      else
        let rest := walk l 0 (bound - (m - j))
        ⟨(List.range' j (m - j)).map (i, ·) ++ rest.taken, rest.stop⟩

theorem length_taken_le (l : List (ι × ℕ)) (j bound : ℕ) :
    (walk l j bound).taken.length ≤ bound := by
  induction l generalizing j bound with
  | nil => simp [walk]
  | cons b l ih =>
      obtain ⟨i, m⟩ := b
      unfold walk
      split
      · exact ih 0 bound
      split
      · simp
      · have := ih 0 (bound - (m - j))
        simp only [List.length_append, List.length_map, List.length_range']
        omega

/-- The places of a bucket from `j` on, at most `k` of them, in their order. -/
theorem range'_sublist {j k m : ℕ} (h : j + k ≤ m) : (List.range' j k).Sublist (List.range m) := by
  rw [List.range_eq_range', ← Nat.add_sub_cancel' h, ← List.range'_append_1,
    ← List.range'_append_1, Nat.zero_add]
  exact (List.sublist_append_right _ _).trans (List.sublist_append_left _ _)

theorem taken_sublist (l : List (ι × ℕ)) (j bound : ℕ) :
    (walk l j bound).taken.Sublist (slots l) := by
  induction l generalizing j bound with
  | nil => simp [walk]
  | cons b l ih =>
      obtain ⟨i, m⟩ := b
      unfold walk
      split
      · exact (ih 0 bound).trans (List.sublist_append_right _ _)
      split
      · exact ((range'_sublist (by omega)).map _).trans (List.sublist_append_left _ _)
      · exact ((range'_sublist (by omega)).map _).append (ih 0 _)

/-- A walk stops inside a bucket. -/
theorem stop_mem {l : List (ι × ℕ)} {j bound : ℕ} {i : ι} {k : ℕ}
    (h : (walk l j bound).stop = some (i, k)) : ∃ m, (i, m) ∈ l ∧ k < m := by
  induction l generalizing j bound with
  | nil => simp [walk] at h
  | cons b l ih =>
      obtain ⟨i', m⟩ := b
      unfold walk at h
      split at h
      · obtain ⟨m', hm', hk⟩ := ih h
        exact ⟨m', List.mem_cons_of_mem _ hm', hk⟩
      split at h
      · obtain ⟨rfl, rfl⟩ := Prod.mk.inj (Option.some.inj h)
        exact ⟨m, List.mem_cons_self, by omega⟩
      · obtain ⟨m', hm', hk⟩ := ih h
        exact ⟨m', List.mem_cons_of_mem _ hm', hk⟩

/-- A walk that stops does not depend on what comes after. -/
theorem walk_append_of_stop {l l' : List (ι × ℕ)} {j bound : ℕ} {c : ι × ℕ}
    (h : (walk l j bound).stop = some c) : walk (l ++ l') j bound = walk l j bound := by
  induction l generalizing j bound with
  | nil => simp [walk] at h
  | cons b l ih =>
      obtain ⟨i, m⟩ := b
      rw [List.cons_append]
      unfold walk at h ⊢
      split at h
      next hle => rw [if_pos hle, if_pos hle, ih h]
      next hle =>
        rw [if_neg hle, if_neg hle]
        split at h
        next hlt => rw [if_pos hlt, if_pos hlt]
        next hlt => rw [if_neg hlt, if_neg hlt, ih h]

theorem mem_slots {l : List (ι × ℕ)} {i : ι} {k : ℕ} :
    (i, k) ∈ slots l ↔ ∃ m, (i, m) ∈ l ∧ k < m := by
  simp only [slots, List.mem_flatMap, List.mem_map, List.mem_range, Prod.mk.injEq]
  constructor
  · rintro ⟨⟨i', m⟩, hb, k', hk, rfl, rfl⟩
    exact ⟨m, hb, hk⟩
  · rintro ⟨m, hb, hk⟩
    exact ⟨(i, m), hb, k, hk, rfl, rfl⟩

/-- Buckets with different names have different slots. -/
theorem nodup_slots {l : List (ι × ℕ)} (h : (l.map Prod.fst).Nodup) : (slots l).Nodup := by
  induction l with
  | nil => simp
  | cons b l ih =>
      obtain ⟨i, m⟩ := b
      rw [List.map_cons, List.nodup_cons] at h
      rw [slots_cons, List.nodup_append]
      refine ⟨(List.nodup_range).map fun _ _ h => (Prod.mk.inj h).2, ih h.2, ?_⟩
      rintro _ hx ⟨i', k⟩ hy rfl
      obtain ⟨k', _, hk'⟩ := List.mem_map.mp hx
      obtain ⟨rfl, rfl⟩ := Prod.mk.inj hk'
      obtain ⟨m', hm', _⟩ := mem_slots.mp hy
      exact h.1 (List.mem_map.mpr ⟨_, hm', rfl⟩)

/-- **From inside the first bucket** a walk takes the next slots, and stops at the one after
them. -/
theorem walk_eq {l : List (ι × ℕ)} {j : ℕ} (h : ∀ b ∈ l.head?, j ≤ b.2) (bound : ℕ) :
    walk l j bound = ⟨((slots l).drop j).take bound, (slots l)[j + bound]?⟩ := by
  induction l generalizing j bound with
  | nil => simp [walk]
  | cons b l ih =>
      obtain ⟨i, m⟩ := b
      have hj : j ≤ m := h (i, m) rfl
      have hlen : ((List.range m).map (i, ·)).length = m := by simp
      have hdrop : ((List.range m).map (i, ·)).drop j = (List.range' j (m - j)).map (i, ·) := by
        rw [← List.map_drop, List.range_eq_range', List.drop_range']
        simp
      have hrest (bound : ℕ) := ih (j := 0) (fun _ _ => Nat.zero_le _) bound
      rw [slots_cons, List.drop_append_of_le_length (by rw [hlen]; exact hj), hdrop]
      unfold walk
      split
      next hle =>
        -- nothing is left in this bucket
        obtain rfl : j = m := by omega
        rw [hrest bound, List.getElem?_append_right (by rw [hlen]; omega), hlen]
        simp
      split
      next hle hlt =>
        -- the walk ends in this bucket
        have htake : (List.range' j (m - j)).take bound = List.range' j bound := by
          rw [List.take_range'_of_length_ge hlt.le]
        rw [List.take_append_of_le_length (by simpa using hlt.le),
          List.getElem?_append_left (by rw [hlen]; omega), ← List.map_take, htake]
        simp [show j + bound < m by omega]
      next hle hlt =>
        -- the rest of this bucket is taken, and the walk goes on from the next one
        have hfull : ((List.range' j (m - j)).map (i, ·)).take bound =
            (List.range' j (m - j)).map (i, ·) :=
          List.take_of_length_le (by simpa using hlt)
        rw [hrest, List.take_append, hfull, List.getElem?_append_right (by rw [hlen]; omega), hlen]
        simp only [List.length_map, List.length_range', List.drop_zero, Nat.zero_add]
        rw [show j + bound - m = bound - (m - j) by omega]

/-- The place of a slot in its bucket is at most its position in the row. -/
theorem place_le {l : List (ι × ℕ)} {p k : ℕ} {i : ι} (h : (slots l)[p]? = some (i, k)) :
    k ≤ p := by
  induction l generalizing p with
  | nil => simp at h
  | cons b l ih =>
      obtain ⟨i', m⟩ := b
      rw [slots_cons, List.getElem?_append, List.length_map, List.length_range] at h
      split at h
      next hlt =>
        rw [List.getElem?_map, List.getElem?_range hlt] at h
        exact (Prod.mk.inj (Option.some.inj h)).2.ge
      next => exact (ih h).trans (Nat.sub_le p m)

/-! ## Segments of a circle -/

/-- `l` is what is found on the circle `E` from position `start` on, perhaps going around it
several times. -/
def Segment {α : Type*} (E : List α) (start : ℕ) (l : List α) : Prop :=
  ∀ k < l.length, l[k]? = E[(start + k) % E.length]?

section Segment

variable {α : Type*} {E l l' : List α} {start start' : ℕ}

theorem Segment.append (h : Segment E start l) (h' : Segment E start' l')
    (hmod : start' % E.length = (start + l.length) % E.length) : Segment E start (l ++ l') := by
  intro k hk
  rw [List.length_append] at hk
  rcases lt_or_ge k l.length with hlt | hge
  · rw [List.getElem?_append_left hlt]
    exact h k hlt
  · have hpos : (start' + (k - l.length)) % E.length = (start + k) % E.length := by
      rw [Nat.add_mod, hmod, ← Nat.add_mod, show start + l.length + (k - l.length) = start + k by
        omega]
    rw [List.getElem?_append_right hge, h' (k - l.length) (by omega), hpos]

/-- A segment as long as the circle meets everything on it. -/
theorem Segment.mem (h : Segment E start l) (hlen : E.length ≤ l.length) {x : α} (hx : x ∈ E) :
    x ∈ l := by
  obtain ⟨p, hp, rfl⟩ := List.getElem_of_mem hx
  -- the position of `x`, counted from the start of the segment
  obtain ⟨k, hk, hmod⟩ : ∃ k < E.length, (start + k) % E.length = p := by
    have hstart := Nat.mod_lt start (by omega : 0 < E.length)
    refine ⟨(p + (E.length - start % E.length)) % E.length, Nat.mod_lt _ (by omega), ?_⟩
    rw [Nat.add_mod_mod, Nat.add_mod,
      show p + (E.length - start % E.length) = p + E.length - start % E.length by omega]
    rcases le_or_gt (start % E.length) p with hle | hgt
    · rw [show p + E.length - start % E.length = p - start % E.length + E.length by omega,
        Nat.add_mod_right, Nat.mod_eq_of_lt (by omega : p - start % E.length < E.length),
        Nat.add_sub_cancel' hle, Nat.mod_eq_of_lt hp]
    · rw [Nat.mod_eq_of_lt (by omega : p + E.length - start % E.length < E.length),
        show start % E.length + (p + E.length - start % E.length) = p + E.length by omega,
        Nat.add_mod_right, Nat.mod_eq_of_lt hp]
  have hfound := h k (by omega)
  rw [hmod, List.getElem?_eq_getElem hp] at hfound
  exact List.mem_of_getElem? hfound

end Segment

/-! ## Buckets in a circle -/

section Circle

variable (n : ℕ) (sizes : ℕ → ℕ)

/-- `n` buckets, named by their numbers. -/
def buckets : List (ℕ × ℕ) := (List.range n).map fun i => (i, sizes i)

/-- The slots in their order, which is read as a circle. -/
def circle : List (ℕ × ℕ) := slots (buckets n sizes)

/-- The position of a cursor on the circle. -/
def rank (c : ℕ × ℕ) : ℕ := (slots ((buckets n sizes).take c.1)).length + c.2

/-- A walk once around the circle, from a cursor. -/
def turn (bound : ℕ) (c : ℕ × ℕ) : Walk ℕ := walk ((buckets n sizes).rotate c.1) c.2 bound

/-- Where the next walk starts: where this one stopped, or at the bucket it came back to. -/
def nextCursor (bound : ℕ) (c : ℕ × ℕ) : ℕ × ℕ := (turn n sizes bound c).stop.getD (c.1, 0)

/-- A cursor at the start of a bucket or at a slot. -/
structure OnCircle (c : ℕ × ℕ) : Prop where
  bucket : c.1 < n
  place : c.2 = 0 ∨ c.2 < sizes c.1

variable {n sizes} {bound : ℕ} {c : ℕ × ℕ}

theorem mem_buckets {i m : ℕ} : (i, m) ∈ buckets n sizes ↔ i < n ∧ m = sizes i := by
  simp only [buckets, List.mem_map, List.mem_range, Prod.mk.injEq]
  constructor
  · rintro ⟨i', hi, rfl, rfl⟩
    exact ⟨hi, rfl⟩
  · rintro ⟨hi, rfl⟩
    exact ⟨i, hi, rfl, rfl⟩

theorem length_buckets : (buckets n sizes).length = n := by simp [buckets]

theorem nodup_circle : (circle n sizes).Nodup := by
  refine nodup_slots ?_
  simp only [buckets, List.map_map, Function.comp_def, List.map_id']
  exact List.nodup_range

/-- Turning the row of buckets turns the circle. -/
theorem slots_rotate {i : ℕ} (hi : i ≤ n) :
    slots ((buckets n sizes).rotate i) = (circle n sizes).rotate (rank n sizes (i, 0)) := by
  have hle : i ≤ (buckets n sizes).length := by rwa [length_buckets]
  have hsplit : circle n sizes =
      slots ((buckets n sizes).take i) ++ slots ((buckets n sizes).drop i) := by
    rw [circle, ← slots_append, List.take_append_drop]
  rw [List.rotate_eq_drop_append_take hle, slots_append, hsplit]
  exact (List.rotate_append_length_eq _ _).symm

theorem head?_rotate_buckets {i : ℕ} (hi : i < n) :
    ((buckets n sizes).rotate i).head? = some (i, sizes i) := by
  rw [List.head?_rotate (by rwa [length_buckets])]
  simp [buckets, hi]

/-- The slot at a position is the one with that rank. -/
theorem getElem?_rank {i k : ℕ} (hi : i < n) (hk : k < sizes i) :
    (circle n sizes)[rank n sizes (i, k)]? = some (i, k) := by
  have hle : i < (buckets n sizes).length := by rwa [length_buckets]
  have hsplit : circle n sizes = slots ((buckets n sizes).take i) ++
      ((List.range (sizes i)).map (i, ·) ++ slots ((buckets n sizes).drop (i + 1))) := by
    have hbucket : (buckets n sizes)[i] = (i, sizes i) := by simp [buckets]
    rw [circle, ← slots_cons, ← hbucket, List.cons_getElem_drop_succ, ← slots_append,
      List.take_append_drop]
  rw [hsplit, rank, List.getElem?_append_right (Nat.le_add_right _ _), Nat.add_sub_cancel_left,
    List.getElem?_append_left (by simpa using hk)]
  simp [hk]

theorem rank_eq_add (c : ℕ × ℕ) : rank n sizes c = rank n sizes (c.1, 0) + c.2 := rfl

theorem OnCircle.place_le (hc : OnCircle n sizes c) : c.2 ≤ sizes c.1 := by
  rcases hc.place with h | h <;> omega

/-- **A turn** takes the next slots of the circle, and stops at the one after them. -/
theorem turn_eq (hc : OnCircle n sizes c) :
    turn n sizes bound c =
      ⟨(((circle n sizes).rotate (rank n sizes (c.1, 0))).drop c.2).take bound,
        ((circle n sizes).rotate (rank n sizes (c.1, 0)))[c.2 + bound]?⟩ := by
  rw [turn, walk_eq ?_ bound, slots_rotate hc.bucket.le]
  rw [head?_rotate_buckets hc.bucket]
  rintro b ⟨⟩
  exact hc.place_le

theorem length_turn (hc : OnCircle n sizes c) :
    (turn n sizes bound c).taken.length = min bound ((circle n sizes).length - c.2) := by
  simp [turn_eq hc]

theorem segment_turn (hc : OnCircle n sizes c) :
    Segment (circle n sizes) (rank n sizes c) (turn n sizes bound c).taken := by
  intro k hk
  rw [length_turn hc] at hk
  rw [turn_eq hc, List.getElem?_take_of_lt (by omega), List.getElem?_drop,
    List.getElem?_rotate (by omega)]
  rw [rank_eq_add c,
    show c.2 + k + rank n sizes (c.1, 0) = rank n sizes (c.1, 0) + c.2 + k by omega]

/-- A turn that stops has used up its bound, and stops at the slot with the next rank. -/
theorem turn_stop (hc : OnCircle n sizes c) {i k : ℕ}
    (h : (turn n sizes bound c).stop = some (i, k)) :
    (turn n sizes bound c).taken.length = bound ∧ k ≤ c.2 + bound ∧
      OnCircle n sizes (i, k) ∧
      rank n sizes (i, k) % (circle n sizes).length =
        (rank n sizes c + bound) % (circle n sizes).length := by
  obtain ⟨m, hmem, hk⟩ := stop_mem h
  obtain ⟨hi, rfl⟩ := mem_buckets.mp (List.mem_rotate.mp hmem)
  rw [turn_eq hc] at h
  have hlt : c.2 + bound < (circle n sizes).length := by
    have := (List.getElem?_eq_some_iff.mp h).1
    simpa using this
  refine ⟨by rw [length_turn hc]; omega, ?_, ⟨hi, .inr hk⟩, ?_⟩
  · rw [← slots_rotate hc.bucket.le] at h
    exact place_le h
  · -- no slot is on the circle twice, so its position is its rank
    rw [List.getElem?_rotate hlt] at h
    have hrank : (circle n sizes)[rank n sizes (i, k)]? = some (i, k) := getElem?_rank hi hk
    have hpos := (List.getElem?_inj (List.getElem?_eq_some_iff.mp hrank).1 nodup_circle).mp
      (hrank.trans h.symm)
    rw [hpos, Nat.mod_mod, rank_eq_add c,
      show c.2 + bound + rank n sizes (c.1, 0) = rank n sizes (c.1, 0) + c.2 + bound by omega]

/-- A turn that does not stop has gone around, but for the places that were behind it. -/
theorem turn_around (hc : OnCircle n sizes c) (h : (turn n sizes bound c).stop = none) :
    (turn n sizes bound c).taken.length = (circle n sizes).length - c.2 := by
  have hge : (circle n sizes).length ≤ c.2 + bound := by
    rw [turn_eq hc] at h
    simpa using h
  rw [length_turn hc]
  omega

/-- A cursor has fewer places behind it than there are slots, if there are any. -/
theorem OnCircle.place_lt_length (hc : OnCircle n sizes c) (hne : circle n sizes ≠ []) :
    c.2 < (circle n sizes).length := by
  rcases hc.place with h | h
  · rw [h]
    exact List.length_pos_iff_ne_nil.mpr hne
  · have hrank := (List.getElem?_eq_some_iff.mp (getElem?_rank hc.bucket h)).1
    exact (Nat.le_add_left _ _).trans_lt hrank

theorem OnCircle.place_le_length (hc : OnCircle n sizes c) : c.2 ≤ (circle n sizes).length := by
  by_cases hne : circle n sizes = []
  · rcases hc.place with h | h
    · omega
    · have hrank := getElem?_rank hc.bucket h
      rw [hne] at hrank
      cases hrank
  · exact (hc.place_lt_length hne).le

theorem onCircle_nextCursor (hc : OnCircle n sizes c) :
    OnCircle n sizes (nextCursor n sizes bound c) := by
  unfold nextCursor
  cases h : (turn n sizes bound c).stop with
  | none => exact ⟨hc.bucket, .inl rfl⟩
  | some d => exact (turn_stop hc h).2.2.1

/-- The next turn starts where this one has ended. -/
theorem rank_nextCursor (hc : OnCircle n sizes c) :
    rank n sizes (nextCursor n sizes bound c) % (circle n sizes).length =
      (rank n sizes c + (turn n sizes bound c).taken.length) % (circle n sizes).length := by
  unfold nextCursor
  cases h : (turn n sizes bound c).stop with
  | none =>
      have hle := hc.place_le_length
      rw [turn_around hc h, rank_eq_add c, show rank n sizes (c.1, 0) + c.2 +
        ((circle n sizes).length - c.2) = rank n sizes (c.1, 0) + (circle n sizes).length by omega,
        Nat.add_mod_right]
      rfl
  | some d =>
      obtain ⟨hlen, _, _, hrank⟩ := turn_stop hc h
      rw [hlen]
      exact hrank

/-! ## Turn after turn -/

variable (n sizes) in
/-- A turn as a step of a run. -/
def Turns (bound : ℕ) (taken : List (ℕ × ℕ)) (c c' : ℕ × ℕ) : Prop :=
  (turn n sizes bound c).taken = taken ∧ nextCursor n sizes bound c = c'

/-- How far some turns have got. All of them have used up their bound; or one has not, and what
is behind the cursor in its bucket has been taken since; or everything has been taken. -/
def Progress (P bound turns total place : ℕ) : Prop :=
  P ≤ total ∨ turns * bound ≤ total ∨ (turns - 1) * bound ≤ total ∧ place ≤ total

theorem progress_turn {turns total : ℕ} (hc : OnCircle n sizes c)
    (h : Progress (circle n sizes).length bound turns total c.2) :
    Progress (circle n sizes).length bound (turns + 1)
      (total + (turn n sizes bound c).taken.length) (nextCursor n sizes bound c).2 := by
  rcases h with hall | h
  · exact .inl (by omega)
  cases hstop : (turn n sizes bound c).stop with
  | some d =>
      obtain ⟨hlen, hplace, _, _⟩ := turn_stop hc hstop
      have hnext : nextCursor n sizes bound c = d := by rw [nextCursor, hstop]; rfl
      rw [hlen, hnext]
      have hmul : (turns + 1) * bound = turns * bound + bound := Nat.succ_mul turns bound
      rcases h with h | ⟨h, hbehind⟩
      · exact .inr (.inl (by omega))
      · refine .inr (.inr ⟨?_, by omega⟩)
        have hpred : (turns + 1 - 1) * bound ≤ (turns - 1) * bound + bound := by
          rw [Nat.add_sub_cancel, ← Nat.succ_mul]
          exact Nat.mul_le_mul_right bound (by omega)
        omega
  | none =>
      have hlen := turn_around hc hstop
      have hnext : nextCursor n sizes bound c = (c.1, 0) := by rw [nextCursor, hstop]; rfl
      rw [hlen, hnext]
      rcases h with h | ⟨_, hbehind⟩
      · exact .inr (.inr ⟨by rw [Nat.add_sub_cancel]; omega, Nat.zero_le _⟩)
      · exact .inl (by omega)

/-- What holds after some turns from `c`. -/
structure Swept (n : ℕ) (sizes : ℕ → ℕ) (bound : ℕ) (c : ℕ × ℕ) (turns : List (List (ℕ × ℕ)))
    (c' : ℕ × ℕ) : Prop where
  onCircle : OnCircle n sizes c'
  segment : Segment (circle n sizes) (rank n sizes c) turns.flatten
  rank_eq : rank n sizes c' % (circle n sizes).length =
    (rank n sizes c + turns.flatten.length) % (circle n sizes).length
  progress : Progress (circle n sizes).length bound turns.length turns.flatten.length c'.2
  nonempty : 0 < bound → circle n sizes ≠ [] → ∀ taken ∈ turns, taken ≠ []

theorem swept {c c' : ℕ × ℕ} {turns : List (List (ℕ × ℕ))} (hc : OnCircle n sizes c)
    (run : Trace (Turns n sizes bound) c turns c') : Swept n sizes bound c turns c' := by
  induction run with
  | nil =>
      exact ⟨hc, fun k hk => absurd hk (Nat.not_lt_zero k), rfl, .inr (.inl (by simp)), by simp⟩
  | snoc _ hturn ih =>
      obtain ⟨rfl, rfl⟩ := hturn
      have hcur := ih.onCircle
      refine ⟨onCircle_nextCursor hcur, ?_, ?_, ?_, ?_⟩
      · rw [List.flatten_append, List.flatten_singleton]
        exact ih.segment.append (segment_turn hcur) ih.rank_eq
      · rw [rank_nextCursor hcur, List.flatten_append, List.flatten_singleton, List.length_append,
          Nat.add_mod, ih.rank_eq, ← Nat.add_mod, Nat.add_assoc]
      · rw [List.flatten_append, List.flatten_singleton, List.length_append, List.length_append]
        exact progress_turn hcur ih.progress
      · intro hbound hsome taken htaken
        rcases List.mem_append.mp htaken with htaken | htaken
        · exact ih.nonempty hbound hsome taken htaken
        · rw [List.mem_singleton.mp htaken, ← List.length_pos_iff_ne_nil, length_turn hcur]
          have hplace := hcur.place_lt_length hsome
          omega

/-- **One turn more than the bound asks for** reaches every slot. -/
theorem Swept.reaches_all {c c' : ℕ × ℕ} {turns : List (List (ℕ × ℕ))}
    (h : Swept n sizes bound c turns c') (hbound : 0 < bound)
    (hturns : (circle n sizes).length ⌈/⌉ bound + 1 ≤ turns.length) {x : ℕ × ℕ}
    (hx : x ∈ circle n sizes) : x ∈ turns.flatten := by
  refine h.segment.mem ?_ hx
  have hceil : (circle n sizes).length ≤ (circle n sizes).length ⌈/⌉ bound * bound := by
    have := le_smul_ceilDiv (β := ℕ) (b := (circle n sizes).length) hbound
    rwa [smul_eq_mul, Nat.mul_comm] at this
  have hle : (circle n sizes).length ⌈/⌉ bound * bound ≤ (turns.length - 1) * bound :=
    Nat.mul_le_mul_right bound (by omega)
  rcases h.progress with hall | hfull | ⟨hmost, _⟩
  · exact hall
  · have := Nat.mul_le_mul_right bound (Nat.sub_le turns.length 1)
    omega
  · omega

end Circle

end Story.Collections
