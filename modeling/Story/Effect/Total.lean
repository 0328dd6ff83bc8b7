/-
# Story.Effect.Total -- programs that return

`Returns` and `Fails` read a program off; `Delivers x s Q` is a promise about it. Started in `s`
the program comes back, with a result and a state of which `Q` holds. The rules follow the way
a program is put together, so a promise about a `do` block is made of promises about its calls,
and none of them can be made about a program that stops.
-/
import Story.Effect.Branch

namespace Story.Effect

universe u

variable {ε ε' σ α β : Type u}

/-- `x`, started in `s`, returns, and `Q` holds of what it returns and of the state then. -/
def Delivers (x : EStateM ε σ α) (s : σ) (Q : α → σ → Prop) : Prop :=
  ∃ a t, Returns x s a t ∧ Q a t

namespace Delivers

variable {x : EStateM ε σ α} {s : σ} {Q Q' : α → σ → Prop}

theorem mono (h : Delivers x s Q) (hQ : ∀ a t, Q a t → Q' a t) : Delivers x s Q' := by
  obtain ⟨a, t, hx, h⟩ := h
  exact ⟨a, t, hx, hQ a t h⟩

theorem of_pure {a : α} (h : Q a s) : Delivers (pure a : EStateM ε σ α) s Q :=
  ⟨a, s, returns_pure.mpr ⟨rfl, rfl⟩, h⟩

/-- **The sequence rule.** -/
theorem bind {f : α → EStateM ε σ β} {R : β → σ → Prop} (hx : Delivers x s Q)
    (hf : ∀ a t, Q a t → Delivers (f a) t R) : Delivers (x >>= f) s R := by
  obtain ⟨a, t, hx, hQ⟩ := hx
  obtain ⟨b, t', hfa, hR⟩ := hf a t hQ
  exact ⟨b, t', hx.bind hfa, hR⟩

/-- The sequence rule where the first call is known. -/
theorem after {f : α → EStateM ε σ β} {a : α} {t : σ} {R : β → σ → Prop} (hx : Returns x s a t)
    (hf : Delivers (f a) t R) : Delivers (x >>= f) s R := by
  obtain ⟨b, t', hfa, hR⟩ := hf
  exact ⟨b, t', hx.bind hfa, hR⟩

theorem ite {c : Prop} [Decidable c] {y : EStateM ε σ α} (hx : c → Delivers x s Q)
    (hy : ¬ c → Delivers y s Q) : Delivers (if c then x else y) s Q := by
  split
  next hc => exact hx hc
  next hc => exact hy hc

theorem onlyIf {c : Prop} [Decidable c] {x : EStateM ε σ PUnit} {Q : PUnit → σ → Prop}
    (hx : c → Delivers x s Q) (hs : ¬ c → Q ⟨⟩ s) : Delivers (Effect.onlyIf c x) s Q :=
  ite hx fun hc => of_pure (hs hc)

theorem mapError {f : ε → ε'} (h : Delivers x s Q) : Delivers (Effect.mapError f x) s Q := by
  obtain ⟨a, t, hx, hQ⟩ := h
  exact ⟨a, t, returns_mapError.mpr hx, hQ⟩

/-- An error that is recognised is a result like any other. -/
theorem catching {ρ : Type u} {c : ε → Option ρ} {Q : Except ρ α → σ → Prop}
    (h : Delivers x s (fun a t => Q (.ok a) t) ∨
      ∃ e r t, Fails x s e t ∧ c e = some r ∧ Q (.error r) t) :
    Delivers (Effect.catching c x) s Q := by
  rcases h with ⟨a, t, hx, hQ⟩ | ⟨e, r, t, hx, hc, hQ⟩
  · exact ⟨_, t, returns_catching_ok.mpr hx, hQ⟩
  · exact ⟨_, t, returns_catching_error.mpr ⟨e, hx, hc⟩, hQ⟩

/-- **The loop rule.** `I done s` speaks about the items already handled. -/
theorem forM {f : α → EStateM ε σ PUnit} {I : List α → σ → Prop} {l : List α}
    (step : ∀ done a rest s, l = done ++ a :: rest → I done s →
      Delivers (f a) s fun _ t => I (done ++ [a]) t)
    (start : I [] s) : Delivers (l.forM f) s fun _ t => I l t := by
  -- generalised over the handled part, which grows as the list shrinks
  suffices H : ∀ (rest done : List α) (s : σ), l = done ++ rest → I done s →
      Delivers (rest.forM f) s fun _ t => I l t from H l [] s rfl start
  intro rest
  induction rest with
  | nil =>
      intro done s hl hI
      rw [List.append_nil] at hl
      exact ⟨⟨⟩, s, returns_forM_nil.mpr rfl, hl ▸ hI⟩
  | cons a rest ih =>
      intro done s hl hI
      obtain ⟨_, t, hf, hI'⟩ := step done a rest s hl hI
      obtain ⟨u, t', hrest, hI''⟩ := ih (done ++ [a]) t (by simpa using hl) hI'
      exact ⟨u, t', returns_forM_cons.mpr ⟨t, hf, hrest⟩, hI''⟩

end Delivers

end Story.Effect
