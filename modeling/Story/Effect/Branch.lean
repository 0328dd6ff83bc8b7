/-
# Story.Effect.Branch -- programs on a part of the state, and branched state

`zoom` runs a program on the part of the state a lens selects; what the lens does
not select cannot change, which is how a frame is obtained without proving one.

A branched state is a state together with a copy of it that a program may write.
`transact` runs a program on such a branch: when the program returns, the copy
takes the place of the state; when it stops, the copy is thrown away and the
error is handed to a handler. A program that only writes the copy is atomic.
-/
import Story.Effect.Basic

namespace Story.Effect

universe u

variable {ε ε' σ τ α : Type u}

/-! ## Programs on a part of the state -/

/-- A part `τ` of a state `σ`: read it, replace it. -/
structure Lens (σ τ : Type u) where
  view : σ → τ
  put : τ → σ → σ
  view_put : ∀ t s, view (put t s) = t
  put_view : ∀ s, put (view s) s = s
  put_put : ∀ t t' s, put t (put t' s) = put t s

attribute [simp] Lens.view_put Lens.put_view Lens.put_put

/-- A part of a part. -/
def Lens.comp {ρ : Type u} (l : Lens σ τ) (m : Lens τ ρ) : Lens σ ρ where
  view := fun s => m.view (l.view s)
  put := fun r s => l.put (m.put r (l.view s)) s
  view_put := by simp
  put_view := by simp
  put_put := by simp

/-- Run a program on the part of the state that `l` selects. -/
def zoom (l : Lens σ τ) (x : EStateM ε τ α) : EStateM ε σ α := fun s =>
  match x.run (l.view s) with
  | .ok a t => .ok a (l.put t s)
  | .error e t => .error e (l.put t s)

@[simp] theorem returns_zoom {l : Lens σ τ} {x : EStateM ε τ α} {s s' : σ} {a : α} :
    Returns (zoom l x) s a s' ↔ ∃ t, Returns x (l.view s) a t ∧ l.put t s = s' := by
  simp only [returns_iff, EStateM.run, zoom]
  cases h : x (l.view s) <;> grind

@[simp] theorem fails_zoom {l : Lens σ τ} {x : EStateM ε τ α} {s s' : σ} {e : ε} :
    Fails (zoom l x) s e s' ↔ ∃ t, Fails x (l.view s) e t ∧ l.put t s = s' := by
  simp only [fails_iff, EStateM.run, zoom]
  cases h : x (l.view s) <;> grind

theorem FailsWith.zoom {E : ε → Prop} {l : Lens σ τ} {x : EStateM ε τ α}
    (hx : FailsWith E x) : FailsWith E (zoom l x) := by
  intro s e t h
  obtain ⟨t', h, _⟩ := fails_zoom.mp h
  exact hx _ e t' h

instance ReadOnly.zoom (l : Lens σ τ) (x : EStateM ε τ α) [hx : ReadOnly x] :
    ReadOnly (zoom l x) where
  returns := by
    intro s a s' h
    obtain ⟨t, ht, rfl⟩ := returns_zoom.mp h
    rw [hx.returns _ _ _ ht, l.put_view]
  fails := by
    intro s e s' h
    obtain ⟨t, ht, rfl⟩ := fails_zoom.mp h
    rw [hx.fails _ _ _ ht, l.put_view]

/-! ## Branched state -/

/-- A state and the copy of it that is being written. -/
structure Branched (σ : Type u) where
  parent : σ
  copy : σ

/-- Run a program on the copy. -/
def onCopy (x : EStateM ε σ α) : EStateM ε (Branched σ) α :=
  zoom
    { view := Branched.copy
      put := fun t b => { b with copy := t }
      view_put := fun _ _ => rfl
      put_view := fun _ => rfl
      put_put := fun _ _ _ => rfl } x

@[simp] theorem returns_onCopy {x : EStateM ε σ α} {b b' : Branched σ} {a : α} :
    Returns (onCopy x) b a b' ↔ ∃ t, Returns x b.copy a t ∧ ⟨b.parent, t⟩ = b' := by
  rw [onCopy, returns_zoom]

@[simp] theorem fails_onCopy {x : EStateM ε σ α} {b b' : Branched σ} {e : ε} :
    Fails (onCopy x) b e b' ↔ ∃ t, Fails x b.copy e t ∧ ⟨b.parent, t⟩ = b' := by
  rw [onCopy, fails_zoom]

/-- Run `body` on a fresh branch. When it returns, the copy becomes the state;
when it stops, the copy is dropped and `handler` says what the error becomes. -/
def transact (handler : ε → ε') (body : EStateM ε (Branched σ) α) : EStateM ε' σ α := fun s =>
  match body.run ⟨s, s⟩ with
  | .ok a b => .ok a b.copy
  | .error e b => .error (handler e) b.parent

@[simp] theorem returns_transact {handler : ε → ε'} {body : EStateM ε (Branched σ) α}
    {s t : σ} {a : α} :
    Returns (transact handler body) s a t ↔ ∃ b, Returns body ⟨s, s⟩ a b ∧ b.copy = t := by
  simp only [returns_iff, EStateM.run, transact]
  cases h : body ⟨s, s⟩ <;> grind

@[simp] theorem fails_transact {handler : ε → ε'} {body : EStateM ε (Branched σ) α}
    {s t : σ} {e : ε'} :
    Fails (transact handler body) s e t ↔
      ∃ e₀ b, Fails body ⟨s, s⟩ e₀ b ∧ handler e₀ = e ∧ b.parent = t := by
  simp only [fails_iff, EStateM.run, transact]
  cases h : body ⟨s, s⟩ <;> grind

/-! ## Programs that leave the state alone -/

/-- `x` writes the copy only: the state it branched off is the same at every end. -/
structure CopyOnly (x : EStateM ε (Branched σ) α) : Prop where
  returns : ∀ b a b', Returns x b a b' → b'.parent = b.parent
  fails : ∀ b e b', Fails x b e b' → b'.parent = b.parent

namespace CopyOnly

variable {β : Type u}

theorem onCopy (x : EStateM ε σ α) : CopyOnly (onCopy x) where
  returns := by
    intro b a b' h
    obtain ⟨t, _, rfl⟩ := returns_onCopy.mp h
    rfl
  fails := by
    intro b e b' h
    obtain ⟨t, _, rfl⟩ := fails_onCopy.mp h
    rfl

theorem pure (a : α) : CopyOnly (pure a : EStateM ε (Branched σ) α) where
  returns := by
    intro b a' b' h
    rw [(returns_pure.mp h).2]
  fails := fun _ _ _ h => absurd h fails_pure

theorem throw (e : ε) : CopyOnly (throw e : EStateM ε (Branched σ) α) where
  returns := fun _ _ _ h => absurd h returns_throw
  fails := by
    intro b e' b' h
    rw [(fails_throw.mp h).2]

theorem bind {x : EStateM ε (Branched σ) α} {f : α → EStateM ε (Branched σ) β}
    (hx : CopyOnly x) (hf : ∀ a, CopyOnly (f a)) : CopyOnly (x >>= f) where
  returns := by
    intro b a b' h
    obtain ⟨a₁, b₁, h₁, h₂⟩ := returns_bind.mp h
    rw [(hf a₁).returns _ _ _ h₂, hx.returns _ _ _ h₁]
  fails := by
    intro b e b' h
    rcases fails_bind.mp h with h₁ | ⟨a₁, b₁, h₁, h₂⟩
    · exact hx.fails _ _ _ h₁
    · rw [(hf a₁).fails _ _ _ h₂, hx.returns _ _ _ h₁]

theorem ite {c : Prop} [Decidable c] {x y : EStateM ε (Branched σ) α}
    (hx : CopyOnly x) (hy : CopyOnly y) : CopyOnly (if c then x else y) := by
  split
  · exact hx
  · exact hy

theorem onlyIf {c : Prop} [Decidable c] {x : EStateM ε (Branched σ) PUnit} (hx : CopyOnly x) :
    CopyOnly (onlyIf c x) :=
  hx.ite (.pure _)

theorem mapError {f : ε → ε'} {x : EStateM ε (Branched σ) α} (hx : CopyOnly x) :
    CopyOnly (mapError f x) where
  returns := fun b a b' h => hx.returns b a b' (returns_mapError.mp h)
  fails := by
    intro b e b' h
    obtain ⟨e₀, h₀, _⟩ := fails_mapError.mp h
    exact hx.fails b e₀ b' h₀

theorem catching {ρ : Type u} {c : ε → Option ρ} {x : EStateM ε (Branched σ) α}
    (hx : CopyOnly x) : CopyOnly (catching c x) where
  returns := by
    intro b r b' h
    cases r with
    | ok a => exact hx.returns b a b' (returns_catching_ok.mp h)
    | error r =>
        obtain ⟨e, he, _⟩ := returns_catching_error.mp h
        exact hx.fails b e b' he
  fails := fun b e b' h => hx.fails b e b' (fails_catching.mp h).1

/-- **Atomicity.** A branch that only ever wrote its copy, and stops, changed nothing. -/
theorem fails_transact {handler : ε → ε'} {body : EStateM ε (Branched σ) α} {s t : σ} {e : ε'}
    (hb : CopyOnly body) (h : Fails (transact handler body) s e t) : t = s := by
  obtain ⟨e₀, b, h₀, _, rfl⟩ := Effect.fails_transact.mp h
  exact hb.fails _ _ _ h₀

end CopyOnly

end Story.Effect
