/-
# Story.Collections.Segments -- lists cut at a separator

A list is cut at every occurrence of `x` by `List.splitOn x` and put together again by
`[x].intercalate`. The segments contain no `x`, and a list of such segments is what the cut
of its join gives back, also when more follows behind a further `x`.
-/
import Mathlib.Data.List.Basic
import Mathlib.Data.List.Infix

namespace Story.Collections.Segments

variable {α : Type} {x : α} {xs r : List α} {ls ls' : List (List α)}

/-! ## Joining -/

theorem intercalate_append (h : ls ≠ []) (h' : ls' ≠ []) :
    [x].intercalate (ls ++ ls') = [x].intercalate ls ++ x :: [x].intercalate ls' := by
  induction ls with
  | nil => exact absurd rfl h
  | cons l ls ih =>
      cases ls with
      | nil =>
          obtain ⟨l', rest, rfl⟩ := List.exists_cons_of_ne_nil h'
          simp [List.intercalate_cons_cons]
      | cons l₁ ls =>
          have hrest := ih (List.cons_ne_nil _ _)
          simp only [List.cons_append, List.intercalate_cons_cons] at hrest ⊢
          rw [hrest]
          simp

/-- Between any two segments there is a separator. -/
theorem length_le_length_intercalate (ls : List (List α)) :
    ls.length ≤ ([x].intercalate ls).length + 1 := by
  induction ls with
  | nil => simp
  | cons l ls ih =>
      cases ls with
      | nil => simp
      | cons l' ls =>
          rw [List.intercalate_cons_cons]
          simp only [List.length_append, List.length_cons, List.length_nil] at ih ⊢
          omega

/-- A suffix without the separator does not reach over one. -/
theorem suffix_append_cons_iff {p a : List α} (h : x ∉ p) :
    p <:+ a ++ x :: r ↔ p <:+ r := by
  constructor
  · intro hp
    rcases List.suffix_or_suffix_of_suffix hp (List.suffix_append a (x :: r)) with hle | hle
    · rcases List.suffix_cons_iff.mp hle with rfl | hle
      · exact absurd List.mem_cons_self h
      · exact hle
    · exact absurd (hle.subset List.mem_cons_self) h
  · intro hp
    exact (hp.trans (List.suffix_cons x r)).trans (List.suffix_append a (x :: r))

/-! ## Cutting -/

variable [DecidableEq α]

/-- No segment contains the separator. -/
theorem not_mem_of_mem_splitOn {l : List α} (h : l ∈ xs.splitOn x) : x ∉ l := by
  induction xs generalizing l with
  | nil =>
      have hl : l = [] := by simpa using h
      simp [hl]
  | cons a xs ih =>
      obtain ⟨first, rest, hsplit⟩ := List.exists_cons_of_ne_nil (List.splitOn_ne_nil x xs)
      rw [List.splitOn_cons_eq_if_modifyHead, hsplit] at h
      rw [hsplit] at ih
      split at h
      next =>
        rcases List.mem_cons.mp h with rfl | h
        · simp
        · exact ih h
      next hne =>
        rcases List.mem_cons.mp h with rfl | h
        · have hfirst : x ∉ first := ih List.mem_cons_self
          rw [List.mem_cons, not_or]
          exact ⟨fun heq => hne (by simp [heq]), hfirst⟩
        · exact ih (List.mem_cons_of_mem _ h)

/-- A list without the separator is one segment, and no other list is. -/
theorem splitOn_eq_singleton_iff : xs.splitOn x = [xs] ↔ x ∉ xs := by
  constructor
  · intro h
    exact not_mem_of_mem_splitOn (h ▸ List.mem_cons_self)
  · exact List.splitOn_eq_singleton

/-- A list is known by its segments. -/
theorem splitOn_inj {ys : List α} : xs.splitOn x = ys.splitOn x ↔ xs = ys := by
  constructor
  · intro h
    calc xs = [x].intercalate (xs.splitOn x) := (List.intercalate_splitOn x).symm
      _ = [x].intercalate (ys.splitOn x) := by rw [h]
      _ = ys := List.intercalate_splitOn x
  · rintro rfl
    rfl

/-- The cut of a join, with more behind it. -/
theorem splitOn_intercalate_append (hx : ∀ l ∈ ls, x ∉ l) (h : ls ≠ []) :
    ([x].intercalate ls ++ x :: r).splitOn x = ls ++ r.splitOn x := by
  rw [List.splitOn_append_cons_self, List.splitOn_intercalate x hx h]

/-- The first separator comes behind the first segment. -/
theorem idxOf?_append_cons {l : List α} (h : x ∉ l) : (l ++ x :: r).idxOf? x = some l.length := by
  induction l with
  | nil => simp [List.idxOf?_cons]
  | cons a l ih =>
      have hne : a ≠ x := fun heq => h (heq ▸ List.mem_cons_self)
      have hrest := ih fun hmem => h (List.mem_cons_of_mem _ hmem)
      simp [List.idxOf?_cons, hne, hrest]

end Story.Collections.Segments
