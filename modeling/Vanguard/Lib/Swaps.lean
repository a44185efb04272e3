import Mathlib

/-!
Exchanging elements of a list in place. However many elements are exchanged, the
list is a permutation of what it was.
-/

namespace Vanguard.Swaps

variable {α : Type*} {l l' : List α} {i j : ℕ}

/-- Exchanges the elements at two positions; there is no result if one of them does not exist. -/
def swap (l : List α) (i j : ℕ) : Option (List α) :=
  match l[i]?, l[j]? with
  | some a, some b => some ((l.set i b).set j a)
  | _, _ => none

theorem exists_swap (hi : i < l.length) (hj : j < l.length) : ∃ l', swap l i j = some l' := by
  rw [swap, List.getElem?_eq_getElem hi, List.getElem?_eq_getElem hj]
  exact ⟨_, rfl⟩

theorem swap_perm (h : swap l i j = some l') : l'.Perm l := by
  rw [swap] at h
  split at h
  · next a b ha hb =>
    obtain rfl := Option.some.inj h
    obtain ⟨hi, rfl⟩ := List.getElem?_eq_some_iff.mp ha
    obtain ⟨hj, rfl⟩ := List.getElem?_eq_some_iff.mp hb
    exact List.set_set_perm hi hj
  · cases h

theorem getElem?_swap (h : swap l i j = some l') (x : ℕ) :
    l'[x]? = if x = i then l[j]? else if x = j then l[i]? else l[x]? := by
  rw [swap] at h
  split at h
  · next a b ha hb =>
    obtain rfl := Option.some.inj h
    obtain ⟨hi, -⟩ := List.getElem?_eq_some_iff.mp ha
    obtain ⟨hj, -⟩ := List.getElem?_eq_some_iff.mp hb
    rw [List.getElem?_set, List.getElem?_set, List.length_set, ha, hb]
    by_cases hxj : j = x
    · subst hxj
      by_cases hij : j = i
      · subst hij
        rw [ha] at hb
        rw [if_pos rfl, if_pos hj, if_pos rfl, hb]
      · rw [if_pos rfl, if_pos hj, if_neg hij, if_pos rfl]
    · rw [if_neg hxj, if_neg (fun h => hxj h.symm : ¬ x = j)]
      by_cases hxi : i = x
      · rw [if_pos hxi, if_pos hi, if_pos hxi.symm]
      · rw [if_neg hxi, if_neg fun h => hxi h.symm]
  · cases h

end Vanguard.Swaps
