/-
# Story.Effect.Moves -- programs that move along a preorder

An invariant of two states, such as "this field is the same" or "this set has not
shrunk", is a preorder `R`. A program moves along `R` when every end of it, a return
or a stop, is related to its start. Since `R` is reflexive and transitive this follows
from the pieces a program is put together from, so the rules are instances: what has
to be shown by hand are the few calls that write.

`Ensures R` asks for the returns only. It is for code that may stop half way and
whose writes are then thrown away from outside. `Safe P E` speaks about a program that
starts under an invariant `P`: it returns under `P`, and stops with an error in `E`.
-/
import Story.Effect.Branch

namespace Story.Effect

universe u

variable {ε ε' σ τ α β : Type u}

/-! ## Relations on states -/

/-- What `obs` reads off the state is the same. -/
def Same {γ : Type*} (obs : σ → γ) (s t : σ) : Prop := obs t = obs s

instance {γ : Type*} (obs : σ → γ) : IsPreorder σ (Same obs) where
  refl := fun _ => rfl
  trans := fun _ _ _ h h' => Eq.trans h' h

/-- A relation on the written copies of two branched states. -/
def OnCopy (R : σ → σ → Prop) (b b' : Branched σ) : Prop := R b.copy b'.copy

instance (R : σ → σ → Prop) [IsPreorder σ R] : IsPreorder (Branched σ) (OnCopy R) where
  refl := fun b => refl_of R b.copy
  trans := fun _ _ _ h h' => trans_of R h h'

/-! ## At every end -/

/-- Every end of `x` is `R`-related to its start. -/
class Moves (R : σ → σ → Prop) (x : EStateM ε σ α) : Prop where
  returns : ∀ s a t, Returns x s a t → R s t
  fails : ∀ s e t, Fails x s e t → R s t

namespace Moves

variable {R : σ → σ → Prop}

section Preorder

variable [IsPreorder σ R]

instance (priority := low) of_readOnly (x : EStateM ε σ α) [hx : ReadOnly x] : Moves R x where
  returns := by
    intro s a t h
    rw [hx.returns s a t h]
    exact refl_of R s
  fails := by
    intro s e t h
    rw [hx.fails s e t h]
    exact refl_of R s

instance pure (a : α) : Moves R (pure a : EStateM ε σ α) := of_readOnly _

instance get : Moves R (get : EStateM ε σ σ) := of_readOnly _

instance bind (x : EStateM ε σ α) (f : α → EStateM ε σ β) [hx : Moves R x]
    [hf : ∀ a, Moves R (f a)] : Moves R (x >>= f) where
  returns := by
    intro s b t h
    obtain ⟨a, s', h, h'⟩ := returns_bind.mp h
    exact trans_of R (hx.returns _ _ _ h) ((hf a).returns _ _ _ h')
  fails := by
    intro s e t h
    rcases fails_bind.mp h with h | ⟨a, s', h, h'⟩
    · exact hx.fails _ _ _ h
    · exact trans_of R (hx.returns _ _ _ h) ((hf a).fails _ _ _ h')

instance onlyIf (c : Prop) [Decidable c] (x : EStateM ε σ PUnit) [hx : Moves R x] :
    Moves R (onlyIf c x) := by
  unfold Effect.onlyIf
  split
  · exact hx
  · exact pure _

end Preorder

theorem modify {f : σ → σ} (h : ∀ s, R s (f s)) : Moves R (modify f : EStateM ε σ PUnit) where
  returns := by
    intro s a t hr
    obtain rfl := returns_modify.mp hr
    exact h s
  fails := fun _ _ _ hf => absurd hf fails_modify

instance ite (c : Prop) [Decidable c] (x y : EStateM ε σ α) [hx : Moves R x]
    [hy : Moves R y] : Moves R (if c then x else y) := by
  split
  · exact hx
  · exact hy

instance mapError (f : ε → ε') (x : EStateM ε σ α) [hx : Moves R x] :
    Moves R (mapError f x) where
  returns := fun s a t h => hx.returns s a t (returns_mapError.mp h)
  fails := by
    intro s e t h
    obtain ⟨e₀, h, _⟩ := fails_mapError.mp h
    exact hx.fails _ _ _ h

/-- The first call of a sequence that returns. -/
theorem bind_inv {x : EStateM ε σ α} {f : α → EStateM ε σ β} {s t : σ} {b : β} [hx : Moves R x]
    (h : Returns (x >>= f) s b t) : ∃ a s', R s s' ∧ Returns x s a s' ∧ Returns (f a) s' b t := by
  obtain ⟨a, s', h, h'⟩ := returns_bind.mp h
  exact ⟨a, s', hx.returns _ _ _ h, h, h'⟩

/-- A program on a part of the state. -/
theorem zoom {Q : τ → τ → Prop} {l : Lens σ τ} {x : EStateM ε τ α}
    (h : ∀ s t, Q (l.view s) t → R s (l.put t s)) [hx : Moves Q x] : Moves R (zoom l x) where
  returns := by
    intro s a s' hr
    obtain ⟨t, ht, rfl⟩ := returns_zoom.mp hr
    exact h s t (hx.returns _ _ _ ht)
  fails := by
    intro s e s' hf
    obtain ⟨t, ht, rfl⟩ := fails_zoom.mp hf
    exact h s t (hx.fails _ _ _ ht)

/-- A part of the state that `R` does not look at. -/
theorem zoom_of_frame {l : Lens σ τ} (x : EStateM ε τ α) (h : ∀ s t, R s (l.put t s)) :
    Moves R (Effect.zoom l x) :=
  have : Moves (fun _ _ => True) x := ⟨fun _ _ _ _ => trivial, fun _ _ _ _ => trivial⟩
  zoom (Q := fun _ _ => True) fun s t _ => h s t

instance onCopy (x : EStateM ε σ α) [Moves R x] : Moves (OnCopy R) (onCopy x) :=
  zoom fun _ _ h => h

/-- A branch that is written back. -/
theorem returns_transact {handler : ε → ε'} {body : EStateM ε (Branched σ) α} {s t : σ} {a : α}
    [hb : Moves (OnCopy R) body] (h : Returns (transact handler body) s a t) : R s t := by
  obtain ⟨b, h', rfl⟩ := Effect.returns_transact.mp h
  exact hb.returns _ _ _ h'

end Moves

/-! ## When the program returns -/

/-- When `x` returns, it has moved along `R`. -/
def Ensures (R : σ → σ → Prop) (x : EStateM ε σ α) : Prop := ∀ s a t, Returns x s a t → R s t

namespace Ensures

variable {R : σ → σ → Prop}

theorem of_moves (x : EStateM ε σ α) [hx : Moves R x] : Ensures R x := hx.returns

theorem mapError {f : ε → ε'} {x : EStateM ε σ α} (hx : Ensures R x) : Ensures R (mapError f x) :=
  fun s a t h => hx s a t (returns_mapError.mp h)

theorem ite {c : Prop} [Decidable c] {x y : EStateM ε σ α} (hx : c → Ensures R x)
    (hy : ¬ c → Ensures R y) : Ensures R (if c then x else y) := by
  split
  next hc => exact hx hc
  next hc => exact hy hc

variable [IsPreorder σ R]

theorem pure (a : α) : Ensures R (pure a : EStateM ε σ α) := of_moves _

theorem bind {x : EStateM ε σ α} {f : α → EStateM ε σ β} (hx : Ensures R x)
    (hf : ∀ a, Ensures R (f a)) : Ensures R (x >>= f) := by
  intro s b t h
  obtain ⟨a, s', h, h'⟩ := returns_bind.mp h
  exact trans_of R (hx _ _ _ h) (hf a _ _ _ h')

/-- A loop whose every round moves along `R`. -/
theorem forM {l : List α} {f : α → EStateM ε σ PUnit} (hf : ∀ a ∈ l, Ensures R (f a)) :
    Ensures R (l.forM f) := by
  intro s u t h
  refine h.forM_inv (I := fun _ t' => R s t') ?_ (refl_of R s)
  intro done a s' t' ha hs h'
  exact trans_of R hs (hf a ha _ _ _ h')

end Ensures

/-! ## Under an invariant -/

/-- Started under `P`, the program returns under `P` and stops with an error in `E`. -/
class Safe (P : σ → Prop) (E : ε → Prop) (x : EStateM ε σ α) : Prop where
  returns : ∀ s a t, P s → Returns x s a t → P t
  fails : ∀ s e t, P s → Fails x s e t → E e

namespace Safe

variable {P : σ → Prop} {E : ε → Prop} {E' : ε' → Prop}

theorem of_readOnly {x : EStateM ε σ α} [hx : ReadOnly x] (hE : FailsWith E x) : Safe P E x where
  returns := fun s a t hs h => hx.returns s a t h ▸ hs
  fails := fun s e t _ h => hE s e t h

instance pure (a : α) : Safe P E (pure a : EStateM ε σ α) := of_readOnly (.pure a)

instance get : Safe P E (get : EStateM ε σ σ) := of_readOnly .get

theorem modify {f : σ → σ} (h : ∀ s, P s → P (f s)) : Safe P E (modify f : EStateM ε σ PUnit) where
  returns := by
    intro s u t hs hr
    obtain rfl := returns_modify.mp hr
    exact h s hs
  fails := fun _ _ _ _ hf => absurd hf fails_modify

instance bind (x : EStateM ε σ α) (f : α → EStateM ε σ β) [hx : Safe P E x]
    [hf : ∀ a, Safe P E (f a)] : Safe P E (x >>= f) where
  returns := by
    intro s b t hs h
    obtain ⟨a, s', h, h'⟩ := returns_bind.mp h
    exact (hf a).returns _ _ _ (hx.returns _ _ _ hs h) h'
  fails := by
    intro s e t hs h
    rcases fails_bind.mp h with h | ⟨a, s', h, h'⟩
    · exact hx.fails _ _ _ hs h
    · exact (hf a).fails _ _ _ (hx.returns _ _ _ hs h) h'

instance ite (c : Prop) [Decidable c] (x y : EStateM ε σ α) [hx : Safe P E x]
    [hy : Safe P E y] : Safe P E (if c then x else y) := by
  split
  · exact hx
  · exact hy

instance onlyIf (c : Prop) [Decidable c] (x : EStateM ε σ PUnit) [hx : Safe P E x] :
    Safe P E (onlyIf c x) := by
  unfold Effect.onlyIf
  infer_instance

theorem mapError {f : ε → ε'} {x : EStateM ε σ α} (hE : ∀ e, E e → E' (f e)) [hx : Safe P E x] :
    Safe P E' (mapError f x) where
  returns := fun s a t hs h => hx.returns s a t hs (returns_mapError.mp h)
  fails := by
    intro s e t hs h
    obtain ⟨e₀, h₀, rfl⟩ := fails_mapError.mp h
    exact hE _ (hx.fails _ _ _ hs h₀)

theorem forM {l : List α} {f : α → EStateM ε σ PUnit} (hf : ∀ a ∈ l, Safe P E (f a)) :
    Safe P E (l.forM f) := by
  induction l with
  | nil => exact pure _
  | cons a l ih =>
      have ha := hf a (by simp)
      have hl := ih fun b hb => hf b (by simp [hb])
      exact bind (f a) fun _ => l.forM f

end Safe

end Story.Effect
