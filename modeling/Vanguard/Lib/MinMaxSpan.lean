import Mathlib

/-!
Min-max detection of surround votes.

A vote is a pair of a source and a target. For every epoch, the min span is the
distance to the first target of a vote with a later source, and the max span is the
distance to the last target of a vote with an earlier source; 0 says that there is
none. Votes are looked back on from their source for a bounded number of epochs.
-/

namespace Vanguard.MinMaxSpan

/-- A vote whose source comes after an epoch, within the lookback. -/
def Ahead (look e : ℕ) (vote : ℕ × ℕ) : Prop := e < vote.1 ∧ vote.1 ≤ e + look

/-- A vote that is open at an epoch. -/
def Around (e : ℕ) (vote : ℕ × ℕ) : Prop := vote.1 < e ∧ e < vote.2

instance (look e : ℕ) (vote : ℕ × ℕ) : Decidable (Ahead look e vote) :=
  inferInstanceAs (Decidable (_ ∧ _))

instance (e : ℕ) (vote : ℕ × ℕ) : Decidable (Around e vote) :=
  inferInstanceAs (Decidable (_ ∧ _))

/-- The distance from an epoch to the first target of the votes ahead. -/
structure IsMinSpan (look : ℕ) (V : Set (ℕ × ℕ)) (e m : ℕ) : Prop where
  attained : m ≠ 0 → ∃ vote ∈ V, Ahead look e vote ∧ e + m = vote.2
  least : ∀ vote ∈ V, Ahead look e vote → m ≠ 0 ∧ e + m ≤ vote.2

/-- The distance from an epoch to the last target of the votes around it. -/
structure IsMaxSpan (V : Set (ℕ × ℕ)) (e m : ℕ) : Prop where
  attained : m ≠ 0 → ∃ vote ∈ V, Around e vote ∧ e + m = vote.2
  greatest : ∀ vote ∈ V, Around e vote → vote.2 ≤ e + m

variable {look : ℕ} {V : Set (ℕ × ℕ)} {e m s t : ℕ}

theorem isMinSpan_empty (look e : ℕ) : IsMinSpan look ∅ e 0 := ⟨by simp, by simp⟩

theorem isMaxSpan_empty (e : ℕ) : IsMaxSpan ∅ e 0 := ⟨by simp, by simp⟩

/-! ### A further vote -/

theorem IsMinSpan.insert_of_keep (h : IsMinSpan look V e m)
    (hkeep : Ahead look e (s, t) → m ≠ 0 ∧ e + m ≤ t) : IsMinSpan look (insert (s, t) V) e m where
  attained hm := by
    obtain ⟨vote, hvote, hahead⟩ := h.attained hm
    exact ⟨vote, .inr hvote, hahead⟩
  least vote hvote hahead := by
    rcases hvote with rfl | hvote
    · exact hkeep hahead
    · exact h.least vote hvote hahead

theorem IsMinSpan.insert_of_ahead (h : IsMinSpan look V e m) (hahead : Ahead look e (s, t))
    (hst : s < t) :
    IsMinSpan look (insert (s, t) V) e (if m = 0 ∨ t - e < m then t - e else m) := by
  have hes : e < s := hahead.1
  by_cases hlow : m = 0 ∨ t - e < m
  · rw [if_pos hlow]
    refine ⟨fun _ => ⟨(s, t), .inl rfl, hahead, by dsimp only; omega⟩, fun vote hvote hv => ?_⟩
    refine ⟨by omega, ?_⟩
    rcases hvote with rfl | hvote
    · dsimp only
      omega
    · have hle := h.least vote hvote hv
      omega
  · rw [if_neg hlow]
    exact h.insert_of_keep fun _ => by omega

/-- A vote that is not around the epoch, or has no farther target, leaves the span as it is. -/
theorem IsMaxSpan.insert_of_keep (h : IsMaxSpan V e m)
    (hkeep : Around e (s, t) → t ≤ e + m) : IsMaxSpan (insert (s, t) V) e m where
  attained hm := by
    obtain ⟨vote, hvote, haround⟩ := h.attained hm
    exact ⟨vote, .inr hvote, haround⟩
  greatest vote hvote haround := by
    rcases hvote with rfl | hvote
    · exact hkeep haround
    · exact h.greatest vote hvote haround

/-- The span after a vote around an epoch, which is raised if that brings a farther
target. -/
theorem IsMaxSpan.insert_of_around (h : IsMaxSpan V e m) (haround : Around e (s, t)) :
    IsMaxSpan (insert (s, t) V) e (if m < t - e then t - e else m) := by
  have het : e < t := haround.2
  by_cases hup : m < t - e
  · rw [if_pos hup]
    refine ⟨fun _ => ⟨(s, t), .inl rfl, haround, by dsimp only; omega⟩, fun vote hvote hv => ?_⟩
    rcases hvote with rfl | hvote
    · dsimp only
      omega
    · have hle := h.greatest vote hvote hv
      omega
  · rw [if_neg hup]
    exact h.insert_of_keep fun _ => by omega

/-- If a vote does not lower the span of an epoch, then it lowers none before it either,
as far as it looks back: the vote with the closer target has no later source. -/
theorem IsMinSpan.not_lower_of_le {e₁ e₂ m₁ m₂ : ℕ} (h₁ : IsMinSpan look V e₁ m₁)
    (h₂ : IsMinSpan look V e₂ m₂) (hV : ∀ vote ∈ V, s < vote.1 → t < vote.2) (hle : e₂ ≤ e₁)
    (hlook : s ≤ e₂ + look) (hkeep : ¬ (m₁ = 0 ∨ t - e₁ < m₁)) : ¬ (m₂ = 0 ∨ t - e₂ < m₂) := by
  obtain ⟨vote, hvote, hahead, htarget⟩ := h₁.attained (fun h => hkeep (.inl h))
  have hfirst : e₁ < vote.1 := hahead.1
  have hsource : vote.1 ≤ s := by
    by_contra hlater
    have := hV vote hvote (by omega)
    omega
  have hleast := h₂.least vote hvote ⟨by omega, by omega⟩
  omega

theorem IsMaxSpan.not_raise_of_le {e₁ e₂ m₁ m₂ : ℕ} (h₁ : IsMaxSpan V e₁ m₁)
    (h₂ : IsMaxSpan V e₂ m₂) (hle : e₁ ≤ e₂) (het : e₂ < t) (hkeep : ¬ m₁ < t - e₁) :
    ¬ m₂ < t - e₂ := by
  obtain ⟨vote, hvote, haround, htarget⟩ := h₁.attained (by omega)
  have hfirst : vote.1 < e₁ := haround.1
  have hgreatest := h₂.greatest vote hvote ⟨by omega, by omega⟩
  omega

/-- A min span below the distance of a vote points to a vote that it surrounds. -/
theorem IsMinSpan.surrounds_iff (h : IsMinSpan look V s m) :
    (0 < m ∧ m < t - s) ↔ ∃ vote ∈ V, Ahead look s vote ∧ vote.2 < t := by
  constructor
  · rintro ⟨hpos, hlt⟩
    obtain ⟨vote, hvote, hahead, htarget⟩ := h.attained (by omega)
    exact ⟨vote, hvote, hahead, by omega⟩
  · rintro ⟨vote, hvote, hahead, hlt⟩
    have hleast := h.least vote hvote hahead
    omega

/-- A max span above the distance of a vote points to a vote that surrounds it. -/
theorem IsMaxSpan.surrounded_iff (h : IsMaxSpan V s m) (hst : s < t) :
    t - s < m ↔ ∃ vote ∈ V, vote.1 < s ∧ t < vote.2 := by
  constructor
  · intro hlt
    obtain ⟨vote, hvote, haround, htarget⟩ := h.attained (by omega)
    exact ⟨vote, hvote, haround.1, by omega⟩
  · rintro ⟨vote, hvote, hsource, htarget⟩
    have hgreatest := h.greatest vote hvote ⟨hsource, by omega⟩
    omega

end Vanguard.MinMaxSpan
