import Mathlib

/-!
Rules for computations in `Except`: when a sequence or a loop ends with an error,
and what a loop returns if none of its rounds fails.
-/

namespace Vanguard.Fallible

open List

variable {ε α β σ : Type} {x : Except ε α} {f : α → Except ε β} {l : List α}
  {b : β} {bs : List β} {g : α → Except ε β}

/-! ### Errors -/

theorem exists_foldlM_error {f : σ → α → Except ε σ} {a : α} (ha : a ∈ l)
    (hf : ∀ s, ∃ e, f s a = .error e) (s : σ) : ∃ e, l.foldlM f s = .error e := by
  induction l generalizing s with
  | nil => exact (not_mem_nil ha).elim
  | cons b l ih =>
    rw [foldlM_cons]
    cases hb : f s b with
    | error e => exact ⟨e, rfl⟩
    | ok s' =>
      rcases mem_cons.mp ha with rfl | ha
      · obtain ⟨e, he⟩ := hf s
        rw [hb] at he
        cases he
      · exact ih ha s'

theorem bind_eq_ok : x >>= f = .ok b ↔ ∃ a, x = .ok a ∧ f a = .ok b := by
  cases x <;> simp [bind, Except.bind]

theorem check_eq_ok {p : Prop} [Decidable p] {e : ε} {a : α} :
    (if p then .error e else x) = .ok a ↔ ¬ p ∧ x = .ok a := by
  by_cases hp : p <;> simp [hp]

theorem bind_congr_ok (h : ∀ a, x = .ok a → f a = g a) : x >>= f = x >>= g := by
  cases x with
  | error e => rfl
  | ok a => exact h a rfl

theorem map_eq_ok {f : α → β} : x.map f = .ok b ↔ ∃ a, x = .ok a ∧ f a = b := by
  cases x <;> simp [Except.map]

/-! ### Loops that succeed -/

theorem foldlM_rel {f : σ → α → Except ε σ} {R : σ → σ → Prop} (hrefl : ∀ s, R s s)
    (htrans : ∀ {s t u}, R s t → R t u → R s u) (hstep : ∀ {s a t}, f s a = .ok t → R s t) {s t : σ}
    (h : l.foldlM f s = .ok t) : R s t := by
  induction l generalizing s with
  | nil =>
    cases h
    exact hrefl _
  | cons a l ih =>
    rw [foldlM_cons] at h
    obtain ⟨u, hu, h⟩ := bind_eq_ok.mp h
    exact htrans (hstep hu) (ih h)

theorem foldlM_eq_ok {f : σ → α → Except ε σ} {g : σ → α → σ}
    (h : ∀ s, ∀ a ∈ l, f s a = .ok (g s a)) (s : σ) : l.foldlM f s = .ok (l.foldl g s) := by
  induction l generalizing s with
  | nil => rfl
  | cons a l ih =>
    rw [foldlM_cons, h s a mem_cons_self]
    exact ih (fun s' b hb => h s' b (mem_cons_of_mem _ hb)) _

theorem exists_foldlM_ok {f : σ → α → Except ε σ} (h : ∀ s, ∀ a ∈ l, ∃ t, f s a = .ok t) (s : σ) :
    ∃ t, l.foldlM f s = .ok t := by
  induction l generalizing s with
  | nil => exact ⟨s, rfl⟩
  | cons a l ih =>
    obtain ⟨t, ht⟩ := h s a mem_cons_self
    rw [foldlM_cons, ht]
    exact ih (fun s' b hb => h s' b (mem_cons_of_mem _ hb)) t

theorem foldlM_congr_ok {f g : σ → α → Except ε σ}
    (h : ∀ s, ∀ a ∈ l, ∀ t, f s a = .ok t ↔ g s a = .ok t) {s t : σ} :
    l.foldlM f s = .ok t ↔ l.foldlM g s = .ok t := by
  induction l generalizing s with
  | nil => rfl
  | cons a l ih =>
    have htail : ∀ u, l.foldlM f u = .ok t ↔ l.foldlM g u = .ok t := fun u =>
      ih fun s b hb => h s b (mem_cons_of_mem _ hb)
    simp only [foldlM_cons, bind_eq_ok, h s a mem_cons_self, htail]

theorem exists_mapM_iff {P : β → Prop} :
    (∃ bs, l.mapM f = .ok bs ∧ ∀ b ∈ bs, P b) ↔ ∀ a ∈ l, ∃ b, f a = .ok b ∧ P b := by
  induction l with
  | nil => simp [pure, Except.pure]
  | cons a l ih =>
    rw [forall_mem_cons, ← ih, mapM_cons]
    constructor
    · rintro ⟨bs, hbs, hP⟩
      obtain ⟨b, hb, hbs⟩ := bind_eq_ok.mp hbs
      obtain ⟨bs', hbs', hbs⟩ := bind_eq_ok.mp hbs
      cases hbs
      obtain ⟨hPb, hPbs⟩ := forall_mem_cons.mp hP
      exact ⟨⟨b, hb, hPb⟩, bs', hbs', hPbs⟩
    · rintro ⟨⟨b, hb, hPb⟩, bs, hbs, hPbs⟩
      exact ⟨b :: bs, bind_eq_ok.mpr ⟨b, hb, bind_eq_ok.mpr ⟨bs, hbs, rfl⟩⟩,
        forall_mem_cons.mpr ⟨hPb, hPbs⟩⟩

theorem length_of_mapM (h : l.mapM f = .ok bs) : bs.length = l.length := by
  induction l generalizing bs with
  | nil =>
    cases h
    rfl
  | cons a l ih =>
    rw [mapM_cons] at h
    obtain ⟨b, -, h⟩ := bind_eq_ok.mp h
    obtain ⟨bs', hbs', h⟩ := bind_eq_ok.mp h
    cases h
    rw [length_cons, length_cons, ih hbs']

theorem mapM_congr_ok (h : ∀ a b, f a = .ok b ↔ g a = .ok b) :
    l.mapM f = .ok bs ↔ l.mapM g = .ok bs := by
  induction l generalizing bs with
  | nil => rfl
  | cons a l ih =>
    rw [mapM_cons, mapM_cons, bind_eq_ok, bind_eq_ok]
    refine exists_congr fun b => and_congr (h a b) ?_
    rw [bind_eq_ok, bind_eq_ok]
    exact exists_congr fun bs' => and_congr ih Iff.rfl

theorem mapM_eq_ok {g : α → β} (h : ∀ a ∈ l, f a = .ok (g a)) : l.mapM f = .ok (l.map g) := by
  induction l with
  | nil => rfl
  | cons a l ih =>
    rw [mapM_cons, h a mem_cons_self, ih fun b hb => h b (mem_cons_of_mem _ hb)]
    rfl

end Vanguard.Fallible
