/-
# Story.Effect.Ignore -- programs that do not notice a change of the state

A program ignores a change of the state when it makes no difference whether the change
comes before or after it: it ends the same way, and the state it ends in is the changed
one. Two things one wants to say about a program and a part of the state are of this
form. It neither reads nor writes the part, when it ignores every way of overwriting it;
it reads and writes nothing else, when it ignores every exchange of what surrounds the
part. Two programs that share no part of the state in this sense commute, and so does
any number of them, run over one list.
-/
import Story.Effect.Agree

namespace Story.Effect

universe u

variable {ε ε' σ τ ρ α β : Type u}

/-! ## Changes of a state -/

namespace Lens

/-- Change the part of the state that `l` selects. -/
def alter (l : Lens σ τ) (g : τ → τ) (s : σ) : σ := l.put (g (l.view s)) s

/-- Put the part of a state into other surroundings. -/
def graft (l : Lens σ τ) (surroundings s : σ) : σ := l.put (l.view s) surroundings

@[simp] theorem view_alter (l : Lens σ τ) (g : τ → τ) (s : σ) :
    l.view (l.alter g s) = g (l.view s) :=
  l.view_put _ _

@[simp] theorem put_alter (l : Lens σ τ) (g : τ → τ) (t : τ) (s : σ) :
    l.put t (l.alter g s) = l.put t s := l.put_put _ _ _

@[simp] theorem graft_self (l : Lens σ τ) (s : σ) : l.graft s s = s := l.put_view s

theorem alter_foldl {κ : Type u} (l : Lens σ τ) (g : τ → κ → τ) (ks : List κ) (s : σ) :
    l.put (ks.foldl g (l.view s)) s = ks.foldl (fun s k => l.alter (g · k) s) s := by
  induction ks generalizing s with
  | nil => exact l.put_view s
  | cons k ks ih =>
      rw [List.foldl_cons, List.foldl_cons, ← ih, view_alter, put_alter]

end Lens

/-- A change of both states of a branch. -/
def Branched.map (f : σ → σ) (b : Branched σ) : Branched σ := ⟨f b.parent, f b.copy⟩

/-! ## Programs -/

/-- **`x` ignores the change `f`**: after the change it ends as it would have before, in the
changed state. -/
class Ignores (f : σ → σ) (x : EStateM ε σ α) : Prop where
  ends : ∀ s r t, Ends x s r t → Ends x (f s) r (f t)

/-- `x` reads and writes nothing but the part `l`. -/
def Within (l : Lens σ τ) (x : EStateM ε σ α) : Prop := ∀ s, Ignores (l.graft s) x

/-- A change of the state a program has ended in. -/
def mapState (f : σ → σ) : EStateM.Result ε σ α → EStateM.Result ε σ α
  | .ok a t => .ok a (f t)
  | .error e t => .error e (f t)

namespace Ignores

variable {f : σ → σ}

theorem returns {x : EStateM ε σ α} (h : Ignores f x) {s t : σ} {a : α} (hx : Returns x s a t) :
    Returns x (f s) a (f t) := h.ends s (.ok a) t hx

theorem fails {x : EStateM ε σ α} (h : Ignores f x) {s t : σ} {e : ε} (hx : Fails x s e t) :
    Fails x (f s) e (f t) := h.ends s (.error e) t hx

theorem of_returns_of_fails {x : EStateM ε σ α}
    (hreturns : ∀ s a t, Returns x s a t → Returns x (f s) a (f t))
    (hfails : ∀ s e t, Fails x s e t → Fails x (f s) e (f t)) : Ignores f x where
  ends := by
    intro s r t h
    cases r with
    | ok a => exact hreturns s a t h
    | error e => exact hfails s e t h

/-- A program, by what it evaluates to. -/
theorem of_run {x : EStateM ε σ α} (h : ∀ s, x.run (f s) = mapState f (x.run s)) :
    Ignores f x := by
  apply of_returns_of_fails
  · intro s a t hx
    rw [returns_iff] at hx ⊢
    rw [h, hx, mapState]
  · intro s e t hx
    rw [fails_iff] at hx ⊢
    rw [h, hx, mapState]

/-- A program that looks at the state and refuses, or writes. -/
theorem guarded {c : σ → Prop} [DecidablePred c] {x : EStateM ε σ PUnit} [hx : Ignores f x]
    {g : σ → σ} (hc : ∀ s, c (f s) ↔ c s) (hg : ∀ s, g (f s) = f (g s)) :
    Ignores f (get >>= fun s => if c s then x else set (g s)) := by
  have hget (s : σ) : Returns (get : EStateM ε σ σ) s s s := returns_get.mpr ⟨rfl, rfl⟩
  apply of_returns_of_fails
  · intro s a t h
    rw [(hget _).bind_iff, returns_ite, returns_set] at h ⊢
    rw [hc, hg]
    exact h.imp (fun h => ⟨h.1, hx.returns h.2⟩) fun h => ⟨h.1, congrArg f h.2⟩
  · intro s e t h
    rw [(hget _).fails_bind_iff, fails_ite] at h ⊢
    rw [hc]
    exact h.imp (fun h => ⟨h.1, hx.fails h.2⟩) fun h => absurd h.2 fails_set

theorem id (x : EStateM ε σ α) : Ignores (fun s => s) x := ⟨fun _ _ _ h => h⟩

instance pure (a : α) : Ignores f (pure a : EStateM ε σ α) := by
  apply of_returns_of_fails
  · intro s b t h
    obtain ⟨rfl, rfl⟩ := returns_pure.mp h
    exact returns_pure.mpr ⟨rfl, rfl⟩
  · intro s e t h
    exact absurd h fails_pure

instance throw (e : ε) : Ignores f (throw e : EStateM ε σ α) := by
  apply of_returns_of_fails
  · intro s b t h
    exact absurd h returns_throw
  · intro s e' t h
    obtain ⟨rfl, rfl⟩ := fails_throw.mp h
    exact fails_throw.mpr ⟨rfl, rfl⟩

instance bind (x : EStateM ε σ α) (k : α → EStateM ε σ β) [hx : Ignores f x]
    [hk : ∀ a, Ignores f (k a)] : Ignores f (x >>= k) := by
  apply of_returns_of_fails
  · intro s b t h
    obtain ⟨a, s', h₁, h₂⟩ := returns_bind.mp h
    exact (hx.returns h₁).bind ((hk a).returns h₂)
  · intro s e t h
    rcases fails_bind.mp h with h₁ | ⟨a, s', h₁, h₂⟩
    · exact fails_bind.mpr (.inl (hx.fails h₁))
    · exact fails_bind.mpr (.inr ⟨a, f s', hx.returns h₁, (hk a).fails h₂⟩)

/-- Something may be read off the state, as long as what is done with it does not depend on the
change. -/
theorem read_bind {x : EStateM ε σ α} {v : σ → α} {k : α → EStateM ε σ β}
    (hx : ∀ s, Returns x s (v s) s) (hsame : ∀ s, k (v (f s)) = k (v s))
    (hk : ∀ s, Ignores f (k (v s))) : Ignores f (x >>= k) := by
  apply of_returns_of_fails
  · intro s b t h
    rw [(hx s).bind_iff] at h
    rw [(hx (f s)).bind_iff, hsame]
    exact (hk s).returns h
  · intro s e t h
    rw [(hx s).fails_bind_iff] at h
    rw [(hx (f s)).fails_bind_iff, hsame]
    exact (hk s).fails h

theorem modify {g : σ → σ} (h : ∀ s, g (f s) = f (g s)) :
    Ignores f (modify g : EStateM ε σ PUnit) := by
  apply of_returns_of_fails
  · intro s b t hs
    obtain rfl := returns_modify.mp hs
    exact returns_modify.mpr (h s)
  · intro s e t hs
    exact absurd hs fails_modify

instance ite (c : Prop) [Decidable c] (x y : EStateM ε σ α) [hx : Ignores f x]
    [hy : Ignores f y] : Ignores f (if c then x else y) := by
  split
  · exact hx
  · exact hy

instance onlyIf (c : Prop) [Decidable c] (x : EStateM ε σ PUnit) [Ignores f x] :
    Ignores f (onlyIf c x) := ite _ _ _

instance mapError (g : ε → ε') (x : EStateM ε σ α) [hx : Ignores f x] :
    Ignores f (mapError g x) := by
  apply of_returns_of_fails
  · intro s b t h
    exact returns_mapError.mpr (hx.returns (returns_mapError.mp h))
  · intro s e t h
    obtain ⟨e₀, h₀, rfl⟩ := fails_mapError.mp h
    exact fails_mapError.mpr ⟨e₀, hx.fails h₀, rfl⟩

instance catching {κ : Type u} (c : ε → Option κ) (x : EStateM ε σ α) [hx : Ignores f x] :
    Ignores f (catching c x) := by
  apply of_returns_of_fails
  · intro s b t h
    cases b with
    | ok a => exact returns_catching_ok.mpr (hx.returns (returns_catching_ok.mp h))
    | error k =>
        obtain ⟨e, he, hc⟩ := returns_catching_error.mp h
        exact returns_catching_error.mpr ⟨e, hx.fails he, hc⟩
  · intro s e t h
    obtain ⟨he, hc⟩ := fails_catching.mp h
    exact fails_catching.mpr ⟨hx.fails he, hc⟩

/-- A change of a part is ignored by the programs on the part that ignore it. -/
instance zoom (l : Lens σ τ) (g : τ → τ) (x : EStateM ε τ α) [hx : Ignores g x] :
    Ignores (l.alter g) (zoom l x) where
  ends := by
    intro s r t h
    obtain ⟨t', ht', rfl⟩ := ends_zoom.mp h
    refine ends_zoom.mpr ⟨g t', ?_, ?_⟩
    · rw [l.view_alter]
      exact hx.ends _ r t' ht'
    · rw [l.put_alter, Lens.alter, l.view_put, l.put_put]

instance onCopy (x : EStateM ε σ α) [hx : Ignores f x] : Ignores (Branched.map f) (onCopy x) where
  ends := by
    intro b r b' h
    obtain ⟨t, ht, rfl⟩ := ends_zoom.mp h
    exact ends_zoom.mpr ⟨f t, hx.ends _ r t ht, rfl⟩

instance transact (handler : ε → ε') (body : EStateM ε (Branched σ) α)
    [hb : Ignores (Branched.map f) body] : Ignores f (transact handler body) := by
  apply of_returns_of_fails
  · intro s a t h
    obtain ⟨b, hbody, rfl⟩ := returns_transact.mp h
    exact returns_transact.mpr ⟨b.map f, hb.returns hbody, rfl⟩
  · intro s e t h
    obtain ⟨e₀, b, hbody, rfl, rfl⟩ := fails_transact.mp h
    exact fails_transact.mpr ⟨e₀, b.map f, hb.fails hbody, rfl, rfl⟩

end Ignores

/-! ## Changes that commute -/

section Commute

variable {l : Lens σ τ} {A B : σ → σ}

/-- **What is blind to a part commutes with what stays within it.** -/
theorem commute_of_blind_of_within (hA : ∀ t, Function.Commute A (l.put t))
    (hB : ∀ s, Function.Commute B (l.graft s)) : Function.Commute A B := by
  intro s
  have hwrites : B s = l.put (l.view (B s)) s := by
    have := hB s s
    rwa [l.graft_self] at this
  have hview : l.view (A s) = l.view s := by
    have := hA (l.view s) s
    rw [l.put_view] at this
    rw [this, l.view_put]
  have hgraft : A s = l.graft (A s) s := by
    rw [Lens.graft, ← hview, l.put_view]
  calc A (B s) = l.put (l.view (B s)) (A s) := by
        rw [hwrites, hA, l.view_put]
    _ = l.graft (A s) (B s) := rfl
    _ = B (A s) := by rw [← hB (A s) s, ← hgraft]

/-- What stays within a part is blind to a part beside it. -/
theorem blind_of_within {m : Lens σ ρ}
    (hbeside : ∀ t r s, l.put t (m.put r s) = m.put r (l.put t s))
    (hB : ∀ s, Function.Commute B (l.graft s)) (r : ρ) : Function.Commute B (m.put r) := by
  intro s
  have hview : l.view (m.put r s) = l.view s := by
    have := hbeside (l.view s) r s
    rw [l.put_view] at this
    rw [← this, l.view_put]
  have hgraft : m.put r s = l.graft (m.put r s) s := by
    rw [Lens.graft, ← hview, l.put_view]
  have hwrites : B s = l.put (l.view (B s)) s := by
    have := hB s s
    rwa [l.graft_self] at this
  calc B (m.put r s) = l.graft (m.put r s) (B s) := by rw [← hB, ← hgraft]
    _ = m.put r (l.put (l.view (B s)) s) := hbeside _ r s
    _ = m.put r (B s) := by rw [← hwrites]

end Commute

section Fold

variable {κ : Type u} {A B : σ → κ → σ}

theorem foldl_commute {f : σ → σ} (h : ∀ k, Function.Commute f (A · k)) (ks : List κ) (s : σ) :
    f (ks.foldl A s) = ks.foldl A (f s) := by
  induction ks generalizing s with
  | nil => rfl
  | cons k ks ih => rw [List.foldl_cons, List.foldl_cons, ih, h k]

/-- **Two passes are one**, when the steps of the first commute with those of the second. -/
theorem foldl_foldl_of_commute (h : ∀ k k', Function.Commute (B · k) (A · k')) (ks : List κ)
    (s : σ) : ks.foldl B (ks.foldl A s) = ks.foldl (fun s k => B (A s k) k) s := by
  induction ks generalizing s with
  | nil => rfl
  | cons k ks ih =>
      rw [List.foldl_cons, List.foldl_cons, List.foldl_cons, ← ih, ← foldl_commute (h k)]

end Fold

end Story.Effect
