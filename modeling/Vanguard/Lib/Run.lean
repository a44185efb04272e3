import Mathlib

/-!
Runs of a state machine given by a step function.

A condition on the calls of a run may depend on the state in which a call is
made, so it is checked along the run (`Admits`). Invariants and simulations of
whole runs follow from their step lemmas.
-/

namespace Vanguard.Run

variable {σ ι : Type*} {step : σ → ι → σ} {ok : σ → ι → Prop} {s : σ} {is : List ι} {I : σ → Prop}

/-- Every input of the run is fine in the state it is given in. -/
def Admits (step : σ → ι → σ) (ok : σ → ι → Prop) : σ → List ι → Prop
  | _, [] => True
  | s, i :: is => ok s i ∧ Admits step ok (step s i) is

@[simp] theorem admits_nil (s : σ) : Admits step ok s [] := trivial

@[simp] theorem admits_cons {i : ι} :
    Admits step ok s (i :: is) ↔ ok s i ∧ Admits step ok (step s i) is := Iff.rfl

theorem admits_append {js : List ι} : Admits step ok s (is ++ js) ↔
      Admits step ok s is ∧ Admits step ok (is.foldl step s) js := by
  induction is generalizing s with
  | nil => simp
  | cons i is ih => simp [ih, and_assoc]

instance decidableAdmits [∀ s i, Decidable (ok s i)] :
    ∀ (s : σ) (is : List ι), Decidable (Admits step ok s is)
  | _, [] => .isTrue trivial
  | s, i :: is =>
    have := decidableAdmits (step s i) is
    inferInstanceAs (Decidable (ok s i ∧ Admits step ok (step s i) is))

theorem invariant (hstep : ∀ s i, I s → ok s i → I (step s i)) (hs : I s)
    (hok : Admits step ok s is) : I (is.foldl step s) := by
  induction is generalizing s with
  | nil => exact hs
  | cons i is ih => exact ih (hstep s i hs hok.1) hok.2

theorem admits_of_forall {P : ι → Prop} (h : ∀ i ∈ is, P i) :
    Admits step (fun _ i => P i) s is := by
  induction is generalizing s with
  | nil => trivial
  | cons i is ih =>
    obtain ⟨hi, his⟩ := List.forall_mem_cons.mp h
    exact ⟨hi, ih his⟩

theorem admits_and {ok' : σ → ι → Prop} : Admits step (fun s i => ok s i ∧ ok' s i) s is ↔
      Admits step ok s is ∧ Admits step ok' s is := by
  induction is generalizing s with
  | nil => simp
  | cons i is ih => simp [ih, and_and_and_comm]

theorem admits_of_invariant {P : σ → ι → Prop} (hstep : ∀ s i, I s → ok s i → I (step s i) ∧ P s i)
    (hs : I s) (hok : Admits step ok s is) : Admits step P s is := by
  induction is generalizing s with
  | nil => trivial
  | cons i is ih =>
    obtain ⟨hi, hp⟩ := hstep s i hs hok.1
    exact ⟨hp, ih hi hok.2⟩

theorem invariant_of_step (hstep : ∀ s i, I s → I (step s i)) (hs : I s) (is : List ι) :
    I (is.foldl step s) := by
  induction is generalizing s with
  | nil => exact hs
  | cons i is ih => exact ih (hstep s i hs)

/-- The machine that also records its inputs. -/
def withHistory (step : σ → ι → σ) (x : σ × List ι) (i : ι) : σ × List ι :=
  (step x.1 i, x.2 ++ [i])

theorem foldl_withHistory (s : σ) (past is : List ι) :
    is.foldl (withHistory step) (s, past) = (is.foldl step s, past ++ is) := by
  induction is generalizing s past with
  | nil => simp
  | cons i is ih => simp [withHistory, ih]

end Vanguard.Run
