/-
# Story.Effect.Basic -- big-step rules for fallible stateful calls

A call that reads and writes a state and may fail is an `EStateM` program. A
failing call keeps the state it had reached: nothing here rolls back, because a
half-finished call leaves its half-finished writes behind. Two relations read
such a program off:

    Returns x s a t     x, started in s, comes back with a in state t
    Fails x s e t       x, started in s, stops with e in state t

Every way of composing programs has one inversion lemma for each relation, all
of them `simp` lemmas, so a hypothesis about a long `do` block falls apart into
facts about its calls. `Returns.bind` and friends go the other way.
-/
import Mathlib

namespace Story.Effect

universe u

variable {ε ε' σ α β : Type u}

/-! ## The two relations -/

/-- `x`, started in `s`, comes back with `a` in state `t`. -/
def Returns (x : EStateM ε σ α) (s : σ) (a : α) (t : σ) : Prop :=
  x.run s = .ok a t

/-- `x`, started in `s`, stops with `e` in state `t`. -/
def Fails (x : EStateM ε σ α) (s : σ) (e : ε) (t : σ) : Prop :=
  x.run s = .error e t

theorem returns_iff {x : EStateM ε σ α} {s t : σ} {a : α} :
    Returns x s a t ↔ x.run s = .ok a t := Iff.rfl

theorem fails_iff {x : EStateM ε σ α} {s t : σ} {e : ε} :
    Fails x s e t ↔ x.run s = .error e t := Iff.rfl

/-- A program does one of the two things. -/
theorem returns_or_fails (x : EStateM ε σ α) (s : σ) :
    (∃ a t, Returns x s a t) ∨ ∃ e t, Fails x s e t := by
  cases h : x.run s with
  | ok a t => exact Or.inl ⟨a, t, h⟩
  | error e t => exact Or.inr ⟨e, t, h⟩

theorem Returns.not_fails {x : EStateM ε σ α} {s t t' : σ} {a : α} {e : ε}
    (h : Returns x s a t) : ¬ Fails x s e t' := by
  intro hf
  rw [returns_iff] at h
  rw [fails_iff, h] at hf
  cases hf

theorem Returns.unique {x : EStateM ε σ α} {s t t' : σ} {a a' : α}
    (h : Returns x s a t) (h' : Returns x s a' t') : a = a' ∧ t = t' := by
  rw [returns_iff] at h h'
  rw [h] at h'
  cases h'
  exact ⟨rfl, rfl⟩

/-! ## Straight-line code -/

@[simp] theorem returns_pure {s t : σ} {a b : α} :
    Returns (pure a : EStateM ε σ α) s b t ↔ a = b ∧ s = t := by
  constructor
  · intro h
    cases h
    exact ⟨rfl, rfl⟩
  · rintro ⟨rfl, rfl⟩
    rfl

@[simp] theorem fails_pure {s t : σ} {a : α} {e : ε} :
    ¬ Fails (pure a : EStateM ε σ α) s e t := by
  intro h
  cases h

@[simp] theorem returns_throw {s t : σ} {e : ε} {a : α} :
    ¬ Returns (throw e : EStateM ε σ α) s a t := by
  intro h
  cases h

@[simp] theorem fails_throw {s t : σ} {e e' : ε} :
    Fails (throw e : EStateM ε σ α) s e' t ↔ e = e' ∧ s = t := by
  constructor
  · intro h
    cases h
    exact ⟨rfl, rfl⟩
  · rintro ⟨rfl, rfl⟩
    rfl

@[simp] theorem returns_get {s t a : σ} :
    Returns (get : EStateM ε σ σ) s a t ↔ s = a ∧ s = t := by
  constructor
  · intro h
    cases h
    exact ⟨rfl, rfl⟩
  · rintro ⟨rfl, rfl⟩
    rfl

@[simp] theorem fails_get {s t : σ} {e : ε} : ¬ Fails (get : EStateM ε σ σ) s e t := by
  intro h
  cases h

@[simp] theorem returns_set {s s' t : σ} {a : PUnit} :
    Returns (set s' : EStateM ε σ PUnit) s a t ↔ s' = t := by
  constructor
  · intro h
    cases h
    rfl
  · rintro rfl
    rfl

@[simp] theorem fails_set {s s' t : σ} {e : ε} :
    ¬ Fails (set s' : EStateM ε σ PUnit) s e t := by
  intro h
  cases h

@[simp] theorem returns_modify {s t : σ} {f : σ → σ} {a : PUnit} :
    Returns (modify f : EStateM ε σ PUnit) s a t ↔ f s = t := by
  constructor
  · intro h
    cases h
    rfl
  · rintro rfl
    rfl

@[simp] theorem fails_modify {s t : σ} {f : σ → σ} {e : ε} :
    ¬ Fails (modify f : EStateM ε σ PUnit) s e t := by
  intro h
  cases h

@[simp] theorem returns_bind {x : EStateM ε σ α} {f : α → EStateM ε σ β} {s t : σ} {b : β} :
    Returns (x >>= f) s b t ↔ ∃ a s', Returns x s a s' ∧ Returns (f a) s' b t := by
  simp only [returns_iff, EStateM.run_bind]
  cases h : x.run s with
  | ok a s' =>
      constructor
      · intro hb
        exact ⟨a, s', rfl, hb⟩
      · rintro ⟨a', t', hx, hf⟩
        cases hx
        exact hf
  | error e s' =>
      constructor
      · intro hb
        cases hb
      · rintro ⟨a', t', hx, _⟩
        cases hx

@[simp] theorem fails_bind {x : EStateM ε σ α} {f : α → EStateM ε σ β} {s t : σ} {e : ε} :
    Fails (x >>= f) s e t ↔
      Fails x s e t ∨ ∃ a s', Returns x s a s' ∧ Fails (f a) s' e t := by
  simp only [fails_iff, returns_iff, EStateM.run_bind]
  cases h : x.run s with
  | ok a s' =>
      constructor
      · intro hb
        exact Or.inr ⟨a, s', rfl, hb⟩
      · rintro (hx | ⟨a', t', hx, hf⟩)
        · cases hx
        · cases hx
          exact hf
  | error e' s' =>
      constructor
      · intro hb
        cases hb
        exact Or.inl rfl
      · rintro (hx | ⟨a', t', hx, _⟩)
        · cases hx
          rfl
        · cases hx

@[simp] theorem returns_map {x : EStateM ε σ α} {f : α → β} {s t : σ} {b : β} :
    Returns (f <$> x) s b t ↔ ∃ a, Returns x s a t ∧ f a = b := by
  rw [map_eq_pure_bind, returns_bind]
  constructor
  · rintro ⟨a, s', hx, hp⟩
    obtain ⟨hf, rfl⟩ := returns_pure.mp hp
    exact ⟨a, hx, hf⟩
  · rintro ⟨a, hx, hf⟩
    exact ⟨a, t, hx, returns_pure.mpr ⟨hf, rfl⟩⟩

@[simp] theorem fails_map {x : EStateM ε σ α} {f : α → β} {s t : σ} {e : ε} :
    Fails (f <$> x) s e t ↔ Fails x s e t := by
  rw [map_eq_pure_bind, fails_bind]
  simp

theorem returns_ite {c : Prop} [Decidable c] {x y : EStateM ε σ α} {s t : σ} {a : α} :
    Returns (if c then x else y) s a t ↔
      (c ∧ Returns x s a t) ∨ (¬ c ∧ Returns y s a t) := by
  by_cases hc : c <;> simp [hc]

theorem fails_ite {c : Prop} [Decidable c] {x y : EStateM ε σ α} {s t : σ} {e : ε} :
    Fails (if c then x else y) s e t ↔
      (c ∧ Fails x s e t) ∨ (¬ c ∧ Fails y s e t) := by
  by_cases hc : c <;> simp [hc]

/-- An `if` without an `else`. -/
def onlyIf (c : Prop) [Decidable c] (x : EStateM ε σ PUnit) : EStateM ε σ PUnit :=
  if c then x else pure ⟨⟩

@[simp] theorem returns_onlyIf {c : Prop} [Decidable c] {x : EStateM ε σ PUnit} {s t : σ}
    {u : PUnit} :
    Returns (onlyIf c x) s u t ↔ (c ∧ Returns x s u t) ∨ (¬ c ∧ s = t) := by
  by_cases hc : c <;> simp [onlyIf, hc]

@[simp] theorem fails_onlyIf {c : Prop} [Decidable c] {x : EStateM ε σ PUnit} {s t : σ} {e : ε} :
    Fails (onlyIf c x) s e t ↔ c ∧ Fails x s e t := by
  by_cases hc : c <;> simp [onlyIf, hc]

/-- Running a sequence whose first call is known to return. -/
theorem Returns.bind {x : EStateM ε σ α} {f : α → EStateM ε σ β} {s s' t : σ} {a : α} {b : β}
    (hx : Returns x s a s') (hf : Returns (f a) s' b t) : Returns (x >>= f) s b t :=
  returns_bind.mpr ⟨a, s', hx, hf⟩

/-- The rest of the sequence, once its first call is known to return. -/
theorem Returns.run_bind {x : EStateM ε σ α} {f : α → EStateM ε σ β} {s s' : σ} {a : α}
    (hx : Returns x s a s') : (x >>= f).run s = (f a).run s' := by
  rw [returns_iff] at hx
  simp only [EStateM.run, Bind.bind, EStateM.bind] at hx ⊢
  rw [hx]

theorem Returns.bind_iff {x : EStateM ε σ α} {f : α → EStateM ε σ β} {s s' t : σ} {a : α}
    {b : β} (hx : Returns x s a s') : Returns (x >>= f) s b t ↔ Returns (f a) s' b t := by
  rw [returns_iff, hx.run_bind, returns_iff]

theorem Returns.fails_bind_iff {x : EStateM ε σ α} {f : α → EStateM ε σ β} {s s' t : σ} {a : α}
    {e : ε} (hx : Returns x s a s') : Fails (x >>= f) s e t ↔ Fails (f a) s' e t := by
  rw [fails_iff, hx.run_bind, fails_iff]

/-! ## Errors: renaming them, and turning them into values -/

/-- Rename the error of a call. -/
def mapError (f : ε → ε') (x : EStateM ε σ α) : EStateM ε' σ α := fun s =>
  match x.run s with
  | .ok a t => .ok a t
  | .error e t => .error (f e) t

@[simp] theorem returns_mapError {f : ε → ε'} {x : EStateM ε σ α} {s t : σ} {a : α} :
    Returns (mapError f x) s a t ↔ Returns x s a t := by
  simp only [returns_iff, EStateM.run, mapError]
  cases h : x s <;> simp

@[simp] theorem fails_mapError {f : ε → ε'} {x : EStateM ε σ α} {s t : σ} {e : ε'} :
    Fails (mapError f x) s e t ↔ ∃ e₀, Fails x s e₀ t ∧ f e₀ = e := by
  simp only [fails_iff, EStateM.run, mapError]
  cases h : x s with
  | ok a s' => simp
  | error e₁ s' =>
      constructor
      · intro hb
        cases hb
        exact ⟨e₁, rfl, rfl⟩
      · rintro ⟨e₀, hx, rfl⟩
        cases hx
        rfl

/-- Run a call and hand its error back as a value when `c` recognises it; an
error `c` does not recognise goes on up. -/
def catching {ρ : Type u} (c : ε → Option ρ) (x : EStateM ε σ α) : EStateM ε σ (Except ρ α) :=
  fun s =>
    match x.run s with
    | .ok a t => .ok (.ok a) t
    | .error e t =>
        match c e with
        | some r => .ok (.error r) t
        | none => .error e t

@[simp] theorem returns_catching_ok {ρ : Type u} {c : ε → Option ρ} {x : EStateM ε σ α}
    {s t : σ} {a : α} :
    Returns (catching c x) s (.ok a) t ↔ Returns x s a t := by
  simp only [returns_iff, EStateM.run, catching]
  cases h : x s with
  | ok b s' => simp
  | error e s' => cases hc : c e <;> simp [hc]

@[simp] theorem returns_catching_error {ρ : Type u} {c : ε → Option ρ} {x : EStateM ε σ α}
    {s t : σ} {r : ρ} :
    Returns (catching c x) s (.error r) t ↔ ∃ e, Fails x s e t ∧ c e = some r := by
  simp only [returns_iff, fails_iff, EStateM.run, catching]
  cases h : x s with
  | ok b s' => simp
  | error e s' => cases hc : c e <;> grind

@[simp] theorem fails_catching {ρ : Type u} {c : ε → Option ρ} {x : EStateM ε σ α}
    {s t : σ} {e : ε} :
    Fails (catching c x) s e t ↔ Fails x s e t ∧ c e = none := by
  simp only [fails_iff, EStateM.run, catching]
  cases h : x s with
  | ok b s' => simp
  | error e₁ s' => cases hc : c e₁ <;> grind

/-! ## Loops -/

@[simp] theorem returns_forM_nil {f : α → EStateM ε σ PUnit} {s t : σ} {u : PUnit} :
    Returns (([] : List α).forM f) s u t ↔ s = t := by
  change Returns (pure PUnit.unit) s u t ↔ s = t
  simp

@[simp] theorem returns_forM_cons {a : α} {l : List α} {f : α → EStateM ε σ PUnit} {s t : σ}
    {u : PUnit} :
    Returns ((a :: l).forM f) s u t ↔
      ∃ s', Returns (f a) s ⟨⟩ s' ∧ Returns (l.forM f) s' u t := by
  change Returns (f a >>= fun _ => l.forM f) s u t ↔ _
  rw [returns_bind]
  exact ⟨fun ⟨_, s', hf, hl⟩ => ⟨s', hf, hl⟩, fun ⟨s', hf, hl⟩ => ⟨⟨⟩, s', hf, hl⟩⟩

@[simp] theorem fails_forM_nil {f : α → EStateM ε σ PUnit} {s t : σ} {e : ε} :
    ¬ Fails (([] : List α).forM f) s e t := by
  change ¬ Fails (pure PUnit.unit) s e t
  simp

@[simp] theorem fails_forM_cons {a : α} {l : List α} {f : α → EStateM ε σ PUnit} {s t : σ}
    {e : ε} :
    Fails ((a :: l).forM f) s e t ↔
      Fails (f a) s e t ∨ ∃ s', Returns (f a) s ⟨⟩ s' ∧ Fails (l.forM f) s' e t := by
  change Fails (f a >>= fun _ => l.forM f) s e t ↔ _
  rw [fails_bind]
  constructor
  · rintro (hf | ⟨_, s', hf, hl⟩)
    · exact Or.inl hf
    · exact Or.inr ⟨s', hf, hl⟩
  · rintro (hf | ⟨s', hf, hl⟩)
    · exact Or.inl hf
    · exact Or.inr ⟨⟨⟩, s', hf, hl⟩

/-- **The loop rule.** `I done s` speaks about the items already handled. -/
theorem Returns.forM_inv {f : α → EStateM ε σ PUnit} {I : List α → σ → Prop} {l : List α}
    {s t : σ} {u : PUnit}
    (step : ∀ done a s t, a ∈ l → I done s → Returns (f a) s ⟨⟩ t → I (done ++ [a]) t)
    (start : I [] s) (h : Returns (l.forM f) s u t) : I l t := by
  -- generalised over the handled prefix, which grows as the list shrinks
  suffices H : ∀ (l' done : List α) (s : σ), (∀ a ∈ l', a ∈ l) → I done s →
      Returns (l'.forM f) s u t → I (done ++ l') t by
    simpa using H l [] s (fun _ ha => ha) start h
  intro l'
  induction l' with
  | nil =>
      intro done s _ hI hr
      obtain rfl := returns_forM_nil.mp hr
      simpa using hI
  | cons a l' ih =>
      intro done s hsub hI hr
      obtain ⟨s', hf, hl⟩ := returns_forM_cons.mp hr
      have hI' := step done a s s' (hsub a (by simp)) hI hf
      have hrest := ih (done ++ [a]) s' (fun b hb => hsub b (by simp [hb])) hI' hl
      simpa using hrest

/-! ## Programs that only read -/

/-- The state is the same at every end of `x`. The instances follow the way a program is
put together. -/
class ReadOnly (x : EStateM ε σ α) : Prop where
  returns : ∀ s a t, Returns x s a t → t = s
  fails : ∀ s e t, Fails x s e t → t = s

namespace ReadOnly

instance pure (a : α) : ReadOnly (pure a : EStateM ε σ α) where
  returns := fun _ _ _ h => (returns_pure.mp h).2.symm
  fails := fun _ _ _ h => absurd h fails_pure

instance throw (e : ε) : ReadOnly (throw e : EStateM ε σ α) where
  returns := fun _ _ _ h => absurd h returns_throw
  fails := fun _ _ _ h => (fails_throw.mp h).2.symm

instance get : ReadOnly (get : EStateM ε σ σ) where
  returns := fun _ _ _ h => (returns_get.mp h).2.symm
  fails := fun _ _ _ h => absurd h fails_get

instance bind (x : EStateM ε σ α) (f : α → EStateM ε σ β) [hx : ReadOnly x]
    [hf : ∀ a, ReadOnly (f a)] : ReadOnly (x >>= f) where
  returns := by
    intro s b t h
    obtain ⟨a, s', h, h'⟩ := returns_bind.mp h
    rw [(hf a).returns _ _ _ h', hx.returns _ _ _ h]
  fails := by
    intro s e t h
    rcases fails_bind.mp h with h | ⟨a, s', h, h'⟩
    · exact hx.fails _ _ _ h
    · rw [(hf a).fails _ _ _ h', hx.returns _ _ _ h]

instance ite (c : Prop) [Decidable c] (x y : EStateM ε σ α) [hx : ReadOnly x]
    [hy : ReadOnly y] : ReadOnly (if c then x else y) := by
  split
  · exact hx
  · exact hy

instance mapError (f : ε → ε') (x : EStateM ε σ α) [hx : ReadOnly x] :
    ReadOnly (mapError f x) where
  returns := fun s a t h => hx.returns s a t (returns_mapError.mp h)
  fails := by
    intro s e t h
    obtain ⟨e₀, h, _⟩ := fails_mapError.mp h
    exact hx.fails _ _ _ h

instance catching {ρ : Type u} (c : ε → Option ρ) (x : EStateM ε σ α) [hx : ReadOnly x] :
    ReadOnly (catching c x) where
  returns := by
    intro s r t h
    cases r with
    | ok a => exact hx.returns s a t (returns_catching_ok.mp h)
    | error r =>
        obtain ⟨e, h, _⟩ := returns_catching_error.mp h
        exact hx.fails _ _ _ h
  fails := fun s e t h => hx.fails s e t (fails_catching.mp h).1

/-- After a program that only reads, the sequence goes on in the same state. -/
theorem returns_bind_iff {x : EStateM ε σ α} [hx : ReadOnly x] {f : α → EStateM ε σ β} {s t : σ}
    {b : β} : Returns (x >>= f) s b t ↔ ∃ a, Returns x s a s ∧ Returns (f a) s b t := by
  rw [returns_bind]
  constructor
  · rintro ⟨a, s', h, h'⟩
    obtain rfl := hx.returns _ _ _ h
    exact ⟨a, h, h'⟩
  · rintro ⟨a, h, h'⟩
    exact ⟨a, s, h, h'⟩

end ReadOnly

/-! ## How a program may stop -/

/-- Whenever `x` stops, it stops with an error in `E`. -/
def FailsWith (E : ε → Prop) (x : EStateM ε σ α) : Prop :=
  ∀ s e t, Fails x s e t → E e

namespace FailsWith

variable {E : ε → Prop} {E' : ε' → Prop}

theorem pure (a : α) : FailsWith E (pure a : EStateM ε σ α) :=
  fun _ _ _ h => absurd h fails_pure

theorem throw {e : ε} (he : E e) : FailsWith E (throw e : EStateM ε σ α) := by
  intro s e' t h
  obtain ⟨rfl, _⟩ := fails_throw.mp h
  exact he

theorem get : FailsWith E (get : EStateM ε σ σ) :=
  fun _ _ _ h => absurd h fails_get

theorem modify (f : σ → σ) : FailsWith E (modify f : EStateM ε σ PUnit) :=
  fun _ _ _ h => absurd h fails_modify

theorem bind {x : EStateM ε σ α} {f : α → EStateM ε σ β} (hx : FailsWith E x)
    (hf : ∀ a, FailsWith E (f a)) : FailsWith E (x >>= f) := by
  intro s e t h
  rcases fails_bind.mp h with h | ⟨a, s', _, h⟩
  · exact hx s e t h
  · exact hf a s' e t h

theorem ite {c : Prop} [Decidable c] {x y : EStateM ε σ α} (hx : FailsWith E x)
    (hy : FailsWith E y) : FailsWith E (if c then x else y) := by
  split
  · exact hx
  · exact hy

theorem onlyIf {c : Prop} [Decidable c] {x : EStateM ε σ PUnit} (hx : FailsWith E x) :
    FailsWith E (onlyIf c x) :=
  hx.ite (.pure _)

theorem mapError {f : ε → ε'} {x : EStateM ε σ α} (hx : FailsWith (fun e => E' (f e)) x) :
    FailsWith E' (mapError f x) := by
  intro s e t h
  obtain ⟨e₀, h₀, rfl⟩ := fails_mapError.mp h
  exact hx s e₀ t h₀

theorem catching {ρ : Type u} {c : ε → Option ρ} {x : EStateM ε σ α}
    (hx : FailsWith (fun e => c e = none → E e) x) : FailsWith E (catching c x) := by
  intro s e t h
  obtain ⟨h, hc⟩ := fails_catching.mp h
  exact hx s e t h hc

end FailsWith

/-- Two continuations that run the same from where the first part returns make programs that run
the same. -/
theorem run_bind_congr {x : EStateM ε σ α} {f g : α → EStateM ε σ β} {s : σ}
    (h : ∀ a t, Returns x s a t → (f a).run t = (g a).run t) :
    (x >>= f).run s = (x >>= g).run s := by
  show EStateM.bind x f s = EStateM.bind x g s
  unfold EStateM.bind
  cases hx : x s with
  | ok a t => exact h a t hx
  | error e t => rfl

/-- What a program returns, and the state it returns in, to be evaluated. -/
def outcome (x : EStateM ε σ α) (s : σ) : Option (α × σ) :=
  match x.run s with
  | .ok a t => some (a, t)
  | .error _ _ => none

theorem returns_of_outcome {x : EStateM ε σ α} {s : σ} {f : α × σ → β} {b : β}
    (h : (outcome x s).map f = some b) : ∃ a t, Returns x s a t ∧ f (a, t) = b := by
  unfold outcome at h
  split at h
  next a t hx => exact ⟨a, t, hx, Option.some.inj h⟩
  next => cases h

/-- The fault a program stops with, to be evaluated. -/
def fault (x : EStateM ε σ α) (s : σ) : Option ε :=
  match x.run s with
  | .ok _ _ => none
  | .error e _ => some e

theorem fails_of_fault {x : EStateM ε σ α} {s : σ} {f : ε → β} {b : β}
    (h : (fault x s).map f = some b) : ∃ e t, Fails x s e t ∧ f e = b := by
  unfold fault at h
  split at h
  next => cases h
  next e t hx => exact ⟨e, t, hx, Option.some.inj h⟩

end Story.Effect
