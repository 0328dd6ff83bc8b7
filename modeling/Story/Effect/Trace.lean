/-
# Story.Effect.Trace -- runs of a labelled step relation

A trace is the list of labels of a run from one state to another, in the order of
the steps. An invariant may speak about the labels so far, which is how the history
of a run enters a statement without being part of the state.
-/
import Story.Effect.Basic

namespace Story.Effect

variable {σ τ ℓ κ : Type}

/-- `Trace R s ls t`: steps labelled `ls` lead from `s` to `t`. -/
inductive Trace (R : ℓ → σ → σ → Prop) (s : σ) : List ℓ → σ → Prop
  | nil : Trace R s [] s
  | snoc {ls : List ℓ} {t u : σ} {a : ℓ} : Trace R s ls t → R a t u → Trace R s (ls ++ [a]) u

namespace Trace

variable {R : ℓ → σ → σ → Prop} {s t : σ} {ls : List ℓ}

/-- What holds at the start and is kept by every step holds after every run. -/
theorem invariant {I : List ℓ → σ → Prop} (start : I [] s)
    (step : ∀ ls a t u, I ls t → R a t u → I (ls ++ [a]) u) (h : Trace R s ls t) : I ls t := by
  induction h with
  | nil => exact start
  | snoc _ hR ih => exact step _ _ _ _ ih hR

/-- A run is a run of any relation that allows its steps. -/
theorem mono {Q : ℓ → σ → σ → Prop} (hQ : ∀ a t u, R a t u → Q a t u) (h : Trace R s ls t) :
    Trace Q s ls t := by
  induction h with
  | nil => exact .nil
  | snoc _ hR ih => exact ih.snoc (hQ _ _ _ hR)

/-- A run of runs is a run. -/
theorem append {u : σ} {ls' : List ℓ} (h : Trace R s ls t) (h' : Trace R t ls' u) :
    Trace R s (ls ++ ls') u := by
  induction h' with
  | nil => simpa using h
  | snoc _ hR ih =>
      rw [← List.append_assoc]
      exact ih.snoc hR

/-- **Refinement.** When every step is a run of another relation on the image of the
states, with labels `f a`, so is every run. -/
theorem refine {Q : κ → τ → τ → Prop} (abs : σ → τ) {f : ℓ → List κ}
    (step : ∀ a t u, R a t u → Trace Q (abs t) (f a) (abs u)) (h : Trace R s ls t) :
    Trace Q (abs s) (ls.flatMap f) (abs t) := by
  induction h with
  | nil => exact .nil
  | snoc _ hR ih =>
      rw [List.flatMap_append]
      simpa using ih.append (step _ _ _ hR)

/-- **Runs of a function.** When the `key` of a label and the state before a step settle the
label and the state after it, the keys of a run settle the run. -/
theorem functional {key : ℓ → κ}
    (step : ∀ a b s t u, key a = key b → R a s t → R b s u → a = b ∧ t = u)
    {ls' : List ℓ} {u : σ} (h : Trace R s ls t) (h' : Trace R s ls' u)
    (hkeys : ls.map key = ls'.map key) : ls = ls' ∧ t = u := by
  induction h generalizing ls' u with
  | nil =>
      cases h' with
      | nil => exact ⟨rfl, rfl⟩
      | snoc _ _ => simp at hkeys
  | @snoc ls t v a hrun hR ih =>
      cases h' with
      | nil => simp at hkeys
      | @snoc ls' t' _ b hrun' hR' =>
          rw [List.map_append, List.map_append] at hkeys
          obtain ⟨hinit, hlast⟩ := List.append_inj' hkeys rfl
          obtain ⟨rfl, rfl⟩ := ih hrun' hinit
          obtain ⟨rfl, rfl⟩ := step a b t v u (by simpa using hlast) hR hR'
          exact ⟨rfl, rfl⟩

end Trace

end Story.Effect
