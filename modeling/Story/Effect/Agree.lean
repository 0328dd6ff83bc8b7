/-
# Story.Effect.Agree -- two runs that cannot be told apart

Two programs agree on an observation of their states when, started in states that look
the same, they end the same way in states that look the same. Some ends are no ends at
all (a loop that is still going round); nothing is said about a pair of runs of which
one is stuck so. The rules follow the ways of composing programs, one for each.
-/
import Story.Effect.Branch

namespace Story.Effect

universe u v

variable {ε ε' σ τ α β : Type u} {ω : Type v}

/-! ## Ends of a run -/

/-- `x`, started in `s`, comes back or stops with `r`, in state `t`. -/
def Ends (x : EStateM ε σ α) (s : σ) (r : Except ε α) (t : σ) : Prop :=
  match r with
  | .ok a => Returns x s a t
  | .error e => Fails x s e t

theorem ends_unique {x : EStateM ε σ α} {s t t' : σ} {r r' : Except ε α} (h : Ends x s r t)
    (h' : Ends x s r' t') : r = r' ∧ t = t' := by
  cases r with
  | ok a =>
      cases r' with
      | ok a' =>
          obtain ⟨rfl, rfl⟩ := Returns.unique h h'
          exact ⟨rfl, rfl⟩
      | error e' => exact absurd h' (Returns.not_fails h)
  | error e =>
      cases r' with
      | ok a' => exact absurd h (Returns.not_fails h')
      | error e' =>
          have heq := (fails_iff.mp h).symm.trans (fails_iff.mp h')
          cases heq
          exact ⟨rfl, rfl⟩

theorem ends_bind {x : EStateM ε σ α} {f : α → EStateM ε σ β} {s t : σ} {r : Except ε β}
    (h : Ends (x >>= f) s r t) :
    (∃ a s', Returns x s a s' ∧ Ends (f a) s' r t) ∨ ∃ e, r = .error e ∧ Fails x s e t := by
  cases r with
  | ok b =>
      obtain ⟨a, s', hx, hf⟩ := returns_bind.mp h
      exact .inl ⟨a, s', hx, hf⟩
  | error e =>
      rcases fails_bind.mp h with hx | ⟨a, s', hx, hf⟩
      · exact .inr ⟨e, rfl, hx⟩
      · exact .inl ⟨a, s', hx, hf⟩

theorem ends_zoom {l : Lens σ τ} {x : EStateM ε τ α} {s s' : σ} {r : Except ε α} :
    Ends (zoom l x) s r s' ↔ ∃ t, Ends x (l.view s) r t ∧ l.put t s = s' := by
  cases r with
  | ok a => exact returns_zoom
  | error e => exact fails_zoom

/-! ## Agreement -/

/-- The run has come to an end. -/
def Finished (stuck : ε → Prop) (r : Except ε α) : Prop := ∀ e, r = .error e → ¬ stuck e

theorem Finished.ok (stuck : ε → Prop) (a : α) : Finished stuck (.ok a) := fun _ h => nomatch h

/-- **`x` and `y` agree on `obs`**: started in states that look the same they end the same
way, in states that look the same, unless one of them is stuck. -/
def Agrees (obs : σ → ω) (stuck : ε → Prop) (x y : EStateM ε σ α) : Prop :=
  ∀ ⦃s₁ s₂ r₁ r₂ t₁ t₂⦄, obs s₁ = obs s₂ → Ends x s₁ r₁ t₁ → Ends y s₂ r₂ t₂ →
    Finished stuck r₁ → Finished stuck r₂ → r₁ = r₂ ∧ obs t₁ = obs t₂

namespace Agrees

variable {obs : σ → ω} {stuck : ε → Prop}

theorem pure (a : α) : Agrees obs stuck (pure a : EStateM ε σ α) (pure a) := by
  intro s₁ s₂ r₁ r₂ t₁ t₂ hs h₁ h₂ _ _
  obtain ⟨rfl, rfl⟩ := ends_unique h₁ (show Ends (Pure.pure a) s₁ (.ok a) s₁ from rfl)
  obtain ⟨rfl, rfl⟩ := ends_unique h₂ (show Ends (Pure.pure a) s₂ (.ok a) s₂ from rfl)
  exact ⟨rfl, hs⟩

theorem throw (e : ε) : Agrees obs stuck (throw e : EStateM ε σ α) (throw e) := by
  intro s₁ s₂ r₁ r₂ t₁ t₂ hs h₁ h₂ _ _
  obtain ⟨rfl, rfl⟩ := ends_unique h₁
    (show Ends (MonadExcept.throw e : EStateM ε σ α) s₁ (.error e) s₁ from rfl)
  obtain ⟨rfl, rfl⟩ := ends_unique h₂
    (show Ends (MonadExcept.throw e : EStateM ε σ α) s₂ (.error e) s₂ from rfl)
  exact ⟨rfl, hs⟩

/-- The states themselves may be read, as long as what is done with them agrees. -/
theorem get_bind {f g : σ → EStateM ε σ α}
    (h : ∀ s₁ s₂, obs s₁ = obs s₂ → Agrees obs stuck (f s₁) (g s₂)) :
    Agrees obs stuck (get >>= f) (get >>= g) := by
  intro s₁ s₂ r₁ r₂ t₁ t₂ hs h₁ h₂ hr₁ hr₂
  have hget (s : σ) (k : σ → EStateM ε σ α) (r : Except ε α) (t : σ)
      (hk : Ends (get >>= k) s r t) : Ends (k s) s r t := by
    rcases ends_bind hk with ⟨_, _, hg, hk⟩ | ⟨e, _, hg⟩
    · obtain ⟨rfl, rfl⟩ := returns_get.mp hg
      exact hk
    · exact absurd hg fails_get
  exact h s₁ s₂ hs hs (hget _ _ _ _ h₁) (hget _ _ _ _ h₂) hr₁ hr₂

theorem bind {x y : EStateM ε σ α} {f g : α → EStateM ε σ β} (hx : Agrees obs stuck x y)
    (hf : ∀ a, Agrees obs stuck (f a) (g a)) : Agrees obs stuck (x >>= f) (y >>= g) := by
  intro s₁ s₂ r₁ r₂ t₁ t₂ hs h₁ h₂ hr₁ hr₂
  -- the first halves end the same way, so the two runs never part between the halves
  rcases ends_bind h₁ with ⟨a₁, m₁, hx₁, h₁⟩ | ⟨e₁, rfl, hx₁⟩
  · rcases ends_bind h₂ with ⟨a₂, m₂, hx₂, h₂⟩ | ⟨e₂, rfl, hx₂⟩
    · obtain ⟨ha, hm⟩ := @hx _ _ (.ok a₁) (.ok a₂) _ _ hs hx₁ hx₂ (.ok _ _) (.ok _ _)
      obtain rfl := Except.ok.inj ha
      exact hf a₁ hm h₁ h₂ hr₁ hr₂
    · have hend : Finished stuck (.error e₂ : Except ε α) := by
        rintro _ ⟨⟩
        exact hr₂ e₂ rfl
      cases (@hx _ _ (.ok a₁) (.error e₂) _ _ hs hx₁ hx₂ (.ok _ _) hend).1
  · have hend₁ : Finished stuck (.error e₁ : Except ε α) := by
      rintro _ ⟨⟩
      exact hr₁ e₁ rfl
    rcases ends_bind h₂ with ⟨a₂, m₂, hx₂, h₂⟩ | ⟨e₂, rfl, hx₂⟩
    · cases (@hx _ _ (.error e₁) (.ok a₂) _ _ hs hx₁ hx₂ hend₁ (.ok _ _)).1
    · have hend₂ : Finished stuck (.error e₂ : Except ε α) := by
        rintro _ ⟨⟩
        exact hr₂ e₂ rfl
      obtain ⟨he, ht⟩ := @hx _ _ (.error e₁) (.error e₂) _ _ hs hx₁ hx₂ hend₁ hend₂
      obtain rfl := Except.error.inj he
      exact ⟨rfl, ht⟩

theorem mapError {stuck' : ε' → Prop} {x y : EStateM ε σ α} {f : ε → ε'}
    (hf : ∀ e, stuck e → stuck' (f e)) (h : Agrees obs stuck x y) :
    Agrees obs stuck' (Effect.mapError f x) (Effect.mapError f y) := by
  have hinner (z : EStateM ε σ α) (s t : σ) (r : Except ε' α)
      (hz : Ends (Effect.mapError f z) s r t) (hr : Finished stuck' r) :
      ∃ r₀ : Except ε α, Ends z s r₀ t ∧ Finished stuck r₀ ∧ r₀.mapError f = r := by
    cases r with
    | ok a => exact ⟨.ok a, returns_mapError.mp hz, .ok _ _, rfl⟩
    | error e =>
        obtain ⟨e₀, he₀, rfl⟩ := fails_mapError.mp hz
        refine ⟨.error e₀, he₀, ?_, rfl⟩
        rintro _ ⟨⟩ hstuck
        exact hr _ rfl (hf e₀ hstuck)
  intro s₁ s₂ r₁ r₂ t₁ t₂ hs h₁ h₂ hr₁ hr₂
  obtain ⟨q₁, hq₁, hf₁, rfl⟩ := hinner x s₁ t₁ r₁ h₁ hr₁
  obtain ⟨q₂, hq₂, hf₂, rfl⟩ := hinner y s₂ t₂ r₂ h₂ hr₂
  obtain ⟨rfl, ht⟩ := h hs hq₁ hq₂ hf₁ hf₂
  exact ⟨rfl, ht⟩

/-- A program on a part of the state that is part of what is observed. -/
theorem zoom {l : Lens σ τ} (x : EStateM ε τ α)
    (hview : ∀ s₁ s₂, obs s₁ = obs s₂ → l.view s₁ = l.view s₂)
    (hput : ∀ s₁ s₂ t, obs s₁ = obs s₂ → obs (l.put t s₁) = obs (l.put t s₂)) :
    Agrees obs stuck (Effect.zoom l x) (Effect.zoom l x) := by
  intro s₁ s₂ r₁ r₂ t₁ t₂ hs h₁ h₂ _ _
  obtain ⟨p₁, hp₁, rfl⟩ := ends_zoom.mp h₁
  obtain ⟨p₂, hp₂, rfl⟩ := ends_zoom.mp h₂
  rw [hview s₁ s₂ hs] at hp₁
  obtain ⟨rfl, rfl⟩ := ends_unique hp₁ hp₂
  exact ⟨rfl, hput s₁ s₂ p₁ hs⟩

end Agrees

/-- Programs that can only come back with the same value, and leave what is observed as it
is, or be stuck. -/
theorem agrees_of_idle {obs : σ → ω} {stuck : ε → Prop} {x y : EStateM ε σ α} {a : α}
    (hx : ∀ s r t, Ends x s r t → Finished stuck r → r = .ok a ∧ obs t = obs s)
    (hy : ∀ s r t, Ends y s r t → Finished stuck r → r = .ok a ∧ obs t = obs s) :
    Agrees obs stuck x y := by
  intro s₁ s₂ r₁ r₂ t₁ t₂ hs h₁ h₂ hr₁ hr₂
  obtain ⟨rfl, ht₁⟩ := hx s₁ r₁ t₁ h₁ hr₁
  obtain ⟨rfl, ht₂⟩ := hy s₂ r₂ t₂ h₂ hr₂
  exact ⟨rfl, ht₁.trans (hs.trans ht₂.symm)⟩

/-! ## Rolling back -/

section Rollback

variable {δ : Type u}

/-- Run `x`; when it stops for a reason that `recover` knows, put the part of the state that `l`
selects back to what it was, and go on with the reason. The rest of the state stays as `x`
has left it. -/
def rollback (l : Lens σ τ) (recover : ε → Option δ) (x : EStateM ε σ α) :
    EStateM ε σ (Except δ α) := fun s =>
  match x.run s with
  | .ok a t => .ok (.ok a) t
  | .error e t =>
      match recover e with
      | some d => .ok (.error d) (l.put (l.view s) t)
      | none => .error e t

/-- The three ways in which it ends. -/
theorem ends_rollback {l : Lens σ τ} {recover : ε → Option δ} {x : EStateM ε σ α} {s t : σ}
    {r : Except ε (Except δ α)} (h : Ends (rollback l recover x) s r t) :
    (∃ a, Returns x s a t ∧ r = .ok (.ok a)) ∨
    (∃ e d t', Fails x s e t' ∧ recover e = some d ∧ r = .ok (.error d) ∧
      t = l.put (l.view s) t') ∨
    ∃ e, Fails x s e t ∧ recover e = none ∧ r = .error e := by
  have hr : (rollback l recover x).run s =
      match r with | .ok a => .ok a t | .error e => .error e t := by
    cases r <;> exact h
  rw [EStateM.run, rollback] at hr
  cases hx : x.run s with
  | ok a t' =>
      rw [hx] at hr
      cases r <;> cases hr
      exact .inl ⟨a, hx, rfl⟩
  | error e t' =>
      rw [hx] at hr
      cases hd : recover e with
      | some d =>
          simp only [hd] at hr
          cases r <;> cases hr
          exact .inr (.inl ⟨e, d, t', hx, hd, rfl, rfl⟩)
      | none =>
          simp only [hd] at hr
          cases r <;> cases hr
          exact .inr (.inr ⟨e, hx, hd, rfl⟩)

/-- Programs that agree on the part that is put back agree when it is put back. -/
theorem Agrees.rollback {l : Lens σ τ} {recover : ε → Option δ} {stuck : ε → Prop}
    (hstuck : ∀ e, stuck e → recover e = none) {x y : EStateM ε σ α}
    (h : Agrees l.view stuck x y) :
    Agrees l.view stuck (Effect.rollback l recover x) (Effect.rollback l recover y) := by
  -- a run of `x` that the rollback ends in, with what the rollback makes of its end
  have hinner (z : EStateM ε σ α) (s t : σ) (r : Except ε (Except δ α))
      (hz : Ends (Effect.rollback l recover z) s r t) (hr : Finished stuck r) :
      ∃ r₀ t₀, Ends z s r₀ t₀ ∧ Finished stuck r₀ ∧
        r = (match r₀ with
          | .ok a => .ok (.ok a)
          | .error e => (recover e).elim (.error e) fun d => .ok (.error d)) ∧
        l.view t = (match r₀ with
          | .ok _ => l.view t₀
          | .error e => (recover e).elim (l.view t₀) fun _ => l.view s) := by
    rcases ends_rollback hz with ⟨a, hx, rfl⟩ | ⟨e, d, t', hx, hd, rfl, rfl⟩ | ⟨e, hx, hd, rfl⟩
    · exact ⟨.ok a, t, hx, .ok _ _, rfl, rfl⟩
    · refine ⟨.error e, t', hx, ?_, by simp [hd], by simp [hd]⟩
      rintro _ ⟨⟩ hst
      rw [hstuck e hst] at hd
      cases hd
    · refine ⟨.error e, t, hx, ?_, by simp [hd], by simp [hd]⟩
      rintro _ ⟨⟩
      exact hr e rfl
  intro s₁ s₂ r₁ r₂ t₁ t₂ hs h₁ h₂ hr₁ hr₂
  obtain ⟨q₁, m₁, hq₁, hf₁, rfl, hv₁⟩ := hinner x s₁ t₁ r₁ h₁ hr₁
  obtain ⟨q₂, m₂, hq₂, hf₂, rfl, hv₂⟩ := hinner y s₂ t₂ r₂ h₂ hr₂
  obtain ⟨rfl, hm⟩ := h hs hq₁ hq₂ hf₁ hf₂
  refine ⟨rfl, ?_⟩
  rw [hv₁, hv₂, hs, hm]

end Rollback

end Story.Effect
