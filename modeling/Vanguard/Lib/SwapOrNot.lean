import Vanguard.Lib.Swaps

/-!
The swap-or-not shuffle.

A round pairs the positions below `n` that lie symmetrically around a pivot, modulo `n`,
and exchanges the members of a pair or not by one bit of the pair. Every round is its
own inverse, so that the rounds in the opposite order undo the shuffle.
-/

namespace Vanguard.SwapOrNot

/-- The position that is paired with `i`. -/
def mirror (n pivot i : ℕ) : ℕ := (pivot + n - i) % n

/-- Where a round takes a position. The bit is the one of the larger position. -/
def turn (n pivot : ℕ) (bit : ℕ → Bool) (i : ℕ) : ℕ :=
  if bit (max i (mirror n pivot i)) then mirror n pivot i else i

section Round

variable {n pivot i : ℕ} {bit : ℕ → Bool}

theorem mirror_of_le (hpivot : pivot < n) (hi : i ≤ pivot) : mirror n pivot i = pivot - i := by
  have hsum : pivot + n - i = pivot - i + n := by omega
  rw [mirror, hsum, Nat.add_mod_right, Nat.mod_eq_of_lt (by omega)]

theorem mirror_of_lt (hpivot : pivot < i) (hi : i < n) : mirror n pivot i = pivot + n - i := by
  rw [mirror, Nat.mod_eq_of_lt (by omega)]

theorem mirror_lt (hn : 0 < n) : mirror n pivot i < n := Nat.mod_lt _ hn

theorem mirror_mirror (hpivot : pivot < n) (hi : i < n) :
    mirror n pivot (mirror n pivot i) = i := by
  rcases Nat.lt_or_ge pivot i with hlt | hle
  · rw [mirror_of_lt hlt hi, mirror_of_lt (by omega) (by omega)]
    omega
  · rw [mirror_of_le hpivot hle, mirror_of_le hpivot (by omega)]
    omega

theorem turn_lt (hi : i < n) : turn n pivot bit i < n := by
  rw [turn]
  split
  · exact mirror_lt (by omega)
  · exact hi

theorem turn_turn (hpivot : pivot < n) (hi : i < n) :
    turn n pivot bit (turn n pivot bit i) = i := by
  by_cases hbit : bit (max i (mirror n pivot i)) = true
  · have hturn : turn n pivot bit i = mirror n pivot i := if_pos hbit
    rw [hturn, turn, mirror_mirror hpivot hi, Nat.max_comm, if_pos hbit]
  · have hturn : turn n pivot bit i = i := if_neg hbit
    rw [hturn, hturn]

end Round

/-! ### Several rounds -/

section Rounds

variable {ρ : Type*} {n : ℕ} {f : ℕ → ρ → ℕ}

theorem foldl_lt (hlt : ∀ r, ∀ i < n, f i r < n) (rounds : List ρ) {i : ℕ} (hi : i < n) :
    rounds.foldl f i < n := by
  induction rounds generalizing i with
  | nil => exact hi
  | cons r rounds ih => exact ih (hlt r i hi)

theorem foldl_reverse_foldl (hlt : ∀ r, ∀ i < n, f i r < n)
    (hinv : ∀ r, ∀ i < n, f (f i r) r = i) (rounds : List ρ) {i : ℕ} (hi : i < n) :
    rounds.reverse.foldl f (rounds.foldl f i) = i := by
  induction rounds generalizing i with
  | nil => rfl
  | cons r rounds ih =>
    rw [List.reverse_cons, List.foldl_append]
    change f (rounds.reverse.foldl f (rounds.foldl f (f i r))) r = i
    rw [ih (hlt r i hi)]
    exact hinv r i hi

end Rounds

/-- A list whose elements are taken from the positions of another one. -/
structure Gathers {α : Type*} (σ : ℕ → ℕ) (l l' : List α) : Prop where
  length_eq : l'.length = l.length
  getElem?_eq : ∀ i < l.length, l'[i]? = l[σ i]?

theorem Gathers.trans {α : Type*} {σ τ : ℕ → ℕ} {l l₁ l₂ : List α} (h₁ : Gathers σ l l₁)
    (h₂ : Gathers τ l₁ l₂) (hτ : ∀ i < l.length, τ i < l.length) :
    Gathers (fun i => σ (τ i)) l l₂ where
  length_eq := h₂.length_eq.trans h₁.length_eq
  getElem?_eq i hi := by
    rw [h₂.getElem?_eq i (by rw [h₁.length_eq]; exact hi), h₁.getElem?_eq _ (hτ i hi)]

theorem Gathers.perm {α : Type*} {l l' : List α} {σ : ℕ → ℕ} (h : Gathers σ l l')
    (p : Equiv.Perm (Fin l.length)) (hp : ∀ i : Fin l.length, σ i = p i) : l'.Perm l := by
  have hl' : l' = List.ofFn (l.get ∘ p) := by
    refine List.ext_getElem? fun i => ?_
    rw [List.getElem?_ofFn]
    split
    · next hi =>
      rw [h.getElem?_eq i hi, hp ⟨i, hi⟩, List.getElem?_eq_getElem (p _).isLt]
      rfl
    · next hi => exact List.getElem?_eq_none (h.length_eq.trans_le (Nat.not_lt.mp hi))
  have hperm := Equiv.Perm.ofFn_comp_perm p l.get
  rwa [List.ofFn_get, ← hl'] at hperm

end Vanguard.SwapOrNot
