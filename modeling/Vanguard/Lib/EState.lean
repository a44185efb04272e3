import Mathlib

/-!
Rules for computations in `EStateM`: how a sequence behaves once the outcome
of its first part is known, and what the state primitives do.
-/

namespace Vanguard.EState

variable {ε σ α β : Type} {x : EStateM ε σ α} {f : α → EStateM ε σ β} {s s' : σ} {a : α} {e : ε}
  {R : σ → σ → Prop} {I : σ → Prop} {Q : α → Prop} {Q' : β → Prop}

theorem bind_ok (h : x s = .ok a s') : (x >>= f) s = f a s' := by
  simp [bind, EStateM.bind, h]

theorem bind_error (h : x s = .error e s') : (x >>= f) s = .error e s' := by
  simp [bind, EStateM.bind, h]

theorem bind_eq_ok {b : β} :
    (x >>= f) s = .ok b s' ↔ ∃ a s₁, x s = .ok a s₁ ∧ f a s₁ = .ok b s' := by
  cases h : x s with
  | ok a s₁ => simp [bind_ok h]
  | error e s₁ => simp [bind_error h]

@[simp] theorem get_bind (f : σ → EStateM ε σ β) (s : σ) :
    ((get : EStateM ε σ σ) >>= f) s = f s s := rfl

@[simp] theorem set_bind (s' : σ) (f : PUnit → EStateM ε σ β) (s : σ) :
    ((set s' : EStateM ε σ PUnit) >>= f) s = f ⟨⟩ s' := rfl

@[simp] theorem modify_bind (g : σ → σ) (f : PUnit → EStateM ε σ β) (s : σ) :
    ((modify g : EStateM ε σ PUnit) >>= f) s = f ⟨⟩ (g s) := rfl

@[simp] theorem pure_apply (a : α) (s : σ) : (pure a : EStateM ε σ α) s = .ok a s := rfl

@[simp] theorem throw_apply (e : ε) (s : σ) : (throw e : EStateM ε σ α) s = .error e s := rfl

/-! ### Relations kept by a computation -/

/-- The state a computation leaves, whether it fails or not. -/
def final (x : EStateM ε σ α) (s : σ) : σ :=
  match x s with
  | .ok _ s' => s'
  | .error _ s' => s'

theorem final_of_ok (h : x s = .ok a s') : final x s = s' := by
  rw [final, h]

theorem final_of_error (h : x s = .error e s') : final x s = s' := by
  rw [final, h]

theorem final_bind_pure (x : EStateM ε σ α) (g : α → β) (s : σ) :
    final (x >>= fun a => pure (g a)) s = final x s := by
  cases h : x s with
  | ok a s' => rw [final_of_ok h, final, bind_ok h, pure_apply]
  | error e s' => rw [final_of_error h, final, bind_error h]

theorem view_final_bind {τ : Type} (v : σ → τ)
    (hf : ∀ a s', x s = .ok a s' → v (final (f a) s') = v s') :
    v (final (x >>= f) s) = v (final x s) := by
  cases h : x s with
  | ok a s' =>
    rw [final_of_ok h, ← hf a s' h, final, bind_ok h]
    rfl
  | error e s' => rw [final_of_error h, final, bind_error h]

/-- The computation moves the state along `R`, also where it fails. The rules
below follow the structure of a computation; `grind` applies them and splits
its branches. -/
def Keeps (R : σ → σ → Prop) (x : EStateM ε σ α) : Prop := ∀ s, R s (final x s)

theorem Keeps.ok (h : Keeps R x) (hx : x s = .ok a s') : R s s' :=
  final_of_ok hx ▸ h s

theorem Keeps.error (h : Keeps R x) (hx : x s = .error e s') : R s s' :=
  final_of_error hx ▸ h s

theorem Keeps.mono {R' : σ → σ → Prop} (h : Keeps R x) (hR : ∀ s s', R s s' → R' s s') :
    Keeps R' x :=
  fun s => hR s _ (h s)

theorem keeps_modify {g : σ → σ} (h : ∀ s, R s (g s)) : Keeps R (modify g : EStateM ε σ PUnit) := h

section Preorder

variable [IsPreorder σ R]

@[grind ←] theorem keeps_pure (a : α) : Keeps R (pure a : EStateM ε σ α) := refl_of R

@[grind ←] theorem keeps_throw (e : ε) : Keeps R (throw e : EStateM ε σ α) := refl_of R

@[grind ←] theorem keeps_get : Keeps R (get : EStateM ε σ σ) := refl_of R

theorem final_bind {x : EStateM ε σ α} {f : α → EStateM ε σ β} {s : σ} (hx : R s (final x s))
    (hf : ∀ a s', x s = .ok a s' → R s' (final (f a) s')) : R s (final (x >>= f) s) := by
  cases h : x s with
  | ok a s' =>
    rw [final_of_ok h] at hx
    have hrest := hf a s' h
    rw [final, bind_ok h]
    exact trans_of R hx hrest
  | error e s' =>
    rw [final, bind_error h]
    rwa [final_of_error h] at hx

@[grind ←] theorem Keeps.bind {x : EStateM ε σ α} {f : α → EStateM ε σ β} (hx : Keeps R x)
    (hf : ∀ a, Keeps R (f a)) : Keeps R (x >>= f) :=
  fun s => final_bind (hx s) fun a s' _ => hf a s'

end Preorder

/-! ### Properties of the state and of the result -/

/-- The computation keeps `I`, also where it fails, and what it returns has the
property `Q`. -/
def Ensures (I : σ → Prop) (Q : α → Prop) (x : EStateM ε σ α) : Prop :=
  ∀ s, I s → I (final x s) ∧ ∀ a s', x s = .ok a s' → Q a

theorem Ensures.mono {P : α → Prop} (h : Ensures I P x) (hQ : ∀ a, P a → Q a) : Ensures I Q x :=
  fun s hs => ⟨(h s hs).1, fun a s' hx => hQ a ((h s hs).2 a s' hx)⟩

theorem ensures_from {J : σ → σ → Prop} (hself : ∀ s, I s → J s s) (hI : ∀ s s', J s s' → I s')
    (h : ∀ s, I s → Ensures (J s) Q x) : Ensures I Q x := by
  intro s hs
  obtain ⟨hfinal, hresult⟩ := h s hs s (hself s hs)
  exact ⟨hI s _ hfinal, hresult⟩

theorem ensures_pure (h : Q a) : Ensures I Q (pure a : EStateM ε σ α) :=
  fun _ hs => ⟨hs, fun _ _ hx => by cases hx; exact h⟩

theorem ensures_throw (e : ε) : Ensures I Q (throw e : EStateM ε σ α) :=
  fun _ hs => ⟨hs, fun _ _ hx => nomatch hx⟩

theorem ensures_get : Ensures I I (get : EStateM ε σ σ) :=
  fun _ hs => ⟨hs, fun _ _ hx => by cases hx; exact hs⟩

theorem ensures_set (h : I s') : Ensures I (fun _ => True) (set s' : EStateM ε σ PUnit) :=
  fun _ _ => ⟨h, fun _ _ _ => trivial⟩

theorem ensures_modify {g : σ → σ} (h : ∀ s, I s → I (g s)) :
    Ensures I (fun _ => True) (modify g : EStateM ε σ PUnit) :=
  fun s hs => ⟨h s hs, fun _ _ _ => trivial⟩

theorem Ensures.bind (hx : Ensures I Q x) (hf : ∀ a, Q a → Ensures I Q' (f a)) :
    Ensures I Q' (x >>= f) := by
  intro s hs
  obtain ⟨hfinal, hresult⟩ := hx s hs
  cases h : x s with
  | ok a s' =>
    rw [final_of_ok h] at hfinal
    have hrest := hf a (hresult a s' h) s' hfinal
    rw [final, bind_ok h]
    exact hrest
  | error e s' =>
    rw [final_of_error h] at hfinal
    rw [final, bind_error h]
    exact ⟨hfinal, fun b s'' hb => nomatch hb⟩

theorem Ensures.map {f : α → β} (hx : Ensures I Q x) (hf : ∀ a, Q a → Q' (f a)) :
    Ensures I Q' (f <$> x) := by
  rw [map_eq_pure_bind]
  exact hx.bind fun a ha => ensures_pure (hf a ha)

end Vanguard.EState
