/-
# Story.Effect.Simulate -- a program on one kind of state does what another does on another

`Simulates R V x y k s` says of two programs and a state of each that they end in the same way:
either both come back, with results related by `V`, or both stop with the same error; and that
the states they end in are related by `R`. Two programs are compared by running both at once:
a step that only one of them has is taken on its side, and a step of both takes related states
to related states.
-/
import Story.Effect.Branch

namespace Story.Effect

variable {ε κ σ τ α α' β β' : Type}

def Simulates (R : κ → σ → Prop) (V : α → β → Prop) (x : EStateM ε κ α) (y : EStateM ε σ β)
    (k : κ) (s : σ) : Prop :=
  (∃ a b k' s', Returns x k a k' ∧ Returns y s b s' ∧ V a b ∧ R k' s') ∨
  (∃ e k' s', Fails x k e k' ∧ Fails y s e s' ∧ R k' s')

namespace Simulates

variable {R : κ → σ → Prop} {V : α → β → Prop} {V' : α' → β' → Prop}
  {x : EStateM ε κ α} {y : EStateM ε σ β} {k k' : κ} {s s' : σ}

theorem of_returns {a : α} {b : β} (hx : Returns x k a k') (hy : Returns y s b s') (hV : V a b)
    (hR : R k' s') : Simulates R V x y k s :=
  .inl ⟨a, b, k', s', hx, hy, hV, hR⟩

theorem pure {a : α} {b : β} (hV : V a b) (hR : R k s) :
    Simulates R V (pure a : EStateM ε κ α) (pure b) k s :=
  .of_returns rfl rfl hV hR

theorem throw (e : ε) (hR : R k s) :
    Simulates R V (throw e : EStateM ε κ α) (throw e) k s :=
  .inr ⟨e, k, s, rfl, rfl, hR⟩

theorem bind {f : α → EStateM ε κ α'} {g : β → EStateM ε σ β'} (hx : Simulates R V x y k s)
    (hf : ∀ a b k' s', V a b → R k' s' → Simulates R V' (f a) (g b) k' s') :
    Simulates R V' (x >>= f) (y >>= g) k s := by
  obtain ⟨a, b, k₁, s₁, ha, hb, hV, hR⟩ | ⟨e, k₁, s₁, ha, hb, hR⟩ := hx
  · obtain ⟨a', b', k₂, s₂, ha', hb', hV', hR'⟩ | ⟨e, k₂, s₂, ha', hb', hR'⟩ := hf a b k₁ s₁ hV hR
    · exact .inl ⟨a', b', k₂, s₂, ha.bind ha', hb.bind hb', hV', hR'⟩
    · exact .inr ⟨e, k₂, s₂, fails_bind.mpr (.inr ⟨a, k₁, ha, ha'⟩),
        fails_bind.mpr (.inr ⟨b, s₁, hb, hb'⟩), hR'⟩
  · exact .inr ⟨e, k₁, s₁, fails_bind.mpr (.inl ha), fails_bind.mpr (.inl hb), hR⟩

/-- A step on the left. -/
theorem left {c : α'} {z : EStateM ε κ α'} {f : α' → EStateM ε κ α} (hz : Returns z k c k')
    (h : Simulates R V (f c) y k' s) : Simulates R V (z >>= f) y k s := by
  obtain ⟨a, b, k₁, s₁, ha, hb, hV, hR⟩ | ⟨e, k₁, s₁, ha, hb, hR⟩ := h
  · exact .inl ⟨a, b, k₁, s₁, hz.bind ha, hb, hV, hR⟩
  · exact .inr ⟨e, k₁, s₁, fails_bind.mpr (.inr ⟨c, k', hz, ha⟩), hb, hR⟩

/-- A step on the right. -/
theorem right {c : β'} {z : EStateM ε σ β'} {g : β' → EStateM ε σ β} (hz : Returns z s c s')
    (h : Simulates R V x (g c) k s') : Simulates R V x (z >>= g) k s := by
  obtain ⟨a, b, k₁, s₁, ha, hb, hV, hR⟩ | ⟨e, k₁, s₁, ha, hb, hR⟩ := h
  · exact .inl ⟨a, b, k₁, s₁, ha, hz.bind hb, hV, hR⟩
  · exact .inr ⟨e, k₁, s₁, ha, fails_bind.mpr (.inr ⟨c, s', hz, hb⟩), hR⟩

/-- The right state is read. -/
theorem get_right {g : σ → EStateM ε σ β} (h : Simulates R V x (g s) k s) :
    Simulates R V x (get >>= g) k s :=
  right (returns_get.mpr ⟨rfl, rfl⟩) h

/-- The right state is changed. -/
theorem modify_right {f : σ → σ} {g : PUnit → EStateM ε σ β}
    (h : Simulates R V x (g ⟨⟩) k (f s)) : Simulates R V x (modify f >>= g) k s :=
  right (show Returns (modify f) s ⟨⟩ (f s) from rfl) h

theorem mapError {ε' : Type} (f : ε → ε') (h : Simulates R V x y k s) :
    Simulates R V (Effect.mapError f x) (Effect.mapError f y) k s := by
  obtain ⟨a, b, k₁, s₁, ha, hb, hV, hR⟩ | ⟨e, k₁, s₁, ha, hb, hR⟩ := h
  · exact .inl ⟨a, b, k₁, s₁, returns_mapError.mpr ha, returns_mapError.mpr hb, hV, hR⟩
  · exact .inr ⟨f e, k₁, s₁, fails_mapError.mpr ⟨e, ha, rfl⟩, fails_mapError.mpr ⟨e, hb, rfl⟩, hR⟩

/-- On the right, a program on a part of the state. -/
theorem zoom {l : Lens σ τ} {z : EStateM ε τ β}
    (h : Simulates (fun k t => R k (l.put t s)) V x z k (l.view s)) :
    Simulates R V x (Effect.zoom l z) k s := by
  obtain ⟨a, b, k₁, t, ha, hb, hV, hR⟩ | ⟨e, k₁, t, ha, hb, hR⟩ := h
  · exact .inl ⟨a, b, k₁, l.put t s, ha, returns_zoom.mpr ⟨t, hb, rfl⟩, hV, hR⟩
  · exact .inr ⟨e, k₁, l.put t s, ha, fails_zoom.mpr ⟨t, hb, rfl⟩, hR⟩

end Simulates

end Story.Effect
