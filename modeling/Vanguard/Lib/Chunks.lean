import Vanguard.Lib.Slices

/-!
Cutting a list into pieces of almost equal length.

Of `m` pieces, piece `k` of a list of length `n` goes from position `n * k / m` up to
`n * (k + 1) / m`. The pieces partition the list, and their lengths are `n / m` or one more.
-/

namespace Vanguard.Chunks

open Slices List Nat

variable {α : Type*} {l : List α} {m k : ℕ} (n : ℕ)

/-- Where piece `k` of `m` starts. -/
def offset (n m k : ℕ) : ℕ := n * k / m

/-- Piece `k` of `m`. -/
def chunk (l : List α) (m k : ℕ) : List α :=
  slice l (offset l.length m k) (offset l.length m (k + 1) - offset l.length m k)

theorem offset_mono (m : ℕ) {k k' : ℕ} (h : k ≤ k') : offset n m k ≤ offset n m k' :=
  Nat.div_le_div_right (Nat.mul_le_mul_left n h)

theorem offset_le (hk : k ≤ m) : offset n m k ≤ n := by
  rcases Nat.eq_zero_or_pos m with rfl | hm
  · rw [offset, Nat.div_zero]
    exact Nat.zero_le n
  · calc n * k / m ≤ n * m / m := Nat.div_le_div_right (Nat.mul_le_mul_left n hk)
      _ = n := Nat.mul_div_cancel n hm

theorem offset_zero (m : ℕ) : offset n m 0 = 0 := by
  rw [offset, Nat.mul_zero, Nat.zero_div]

theorem offset_self (hm : 0 < m) : offset n m m = n := Nat.mul_div_cancel n hm

/-- A piece has `n / m` elements, or one more. -/
theorem offset_succ (hm : 0 < m) (k : ℕ) :
    offset n m k + n / m ≤ offset n m (k + 1) ∧ offset n m (k + 1) ≤ offset n m k + n / m + 1 := by
  have hsum : n * (k + 1) = n * k + n := mul_succ n k
  rw [offset, offset, hsum]
  constructor
  · exact div_add_div_le_add_div
  · have := Nat.add_div (a := n * k) (b := n) hm
    rw [this]
    split <;> omega

/-- A piece has at most `n / m` elements, rounded up. -/
theorem offset_succ_le (hm : 0 < m) (k : ℕ) :
    offset n m (k + 1) ≤ offset n m k + (n + m - 1) / m := by
  have hrest := div_add_mod (n * k) m
  have hlt := mod_lt (n * k) hm
  have hsum : n * (k + 1) ≤ m * (n * k / m) + (n + m - 1) := by
    rw [mul_succ]
    omega
  calc n * (k + 1) / m ≤ (m * (n * k / m) + (n + m - 1)) / m := Nat.div_le_div_right hsum
    _ = n * k / m + (n + m - 1) / m := mul_add_div hm _ _

theorem length_chunk (hk : k < m) :
    (chunk l m k).length = offset l.length m (k + 1) - offset l.length m k := by
  have := offset_le l.length (show k + 1 ≤ m by omega)
  have := offset_mono l.length m (show k ≤ k + 1 by omega)
  exact length_slice (by omega)

theorem length_chunk_bounds (hk : k < m) :
    l.length / m ≤ (chunk l m k).length ∧ (chunk l m k).length ≤ l.length / m + 1 := by
  have hbounds := offset_succ l.length (show 0 < m by omega) k
  rw [length_chunk hk]
  generalize l.length / m = q at hbounds ⊢
  omega

theorem length_chunk_le (hk : k < m) : (chunk l m k).length ≤ (l.length + m - 1) / m := by
  have hbound := offset_succ_le l.length (show 0 < m by omega) k
  rw [length_chunk hk]
  exact Nat.sub_le_iff_le_add'.mpr hbound

theorem mem_chunk {a : α} : a ∈ chunk l m k ↔
    ∃ p, offset l.length m k ≤ p ∧ p < offset l.length m (k + 1) ∧ l[p]? = some a := by
  rw [mem_iff_getElem?]
  constructor
  · rintro ⟨j, hj⟩
    rw [chunk, getElem?_slice] at hj
    split at hj
    · exact ⟨_, Nat.le_add_right _ j, by omega, hj⟩
    · cases hj
  · rintro ⟨p, hle, hlt, hp⟩
    refine ⟨p - offset l.length m k, ?_⟩
    rw [chunk, getElem?_slice, if_pos (by omega), Nat.add_sub_cancel' hle]
    exact hp

theorem exists_offset {p n : ℕ} (hp : p < offset n m k) :
    ∃ i < k, offset n m i ≤ p ∧ p < offset n m (i + 1) := by
  induction k with
  | zero =>
    rw [offset_zero] at hp
    omega
  | succ k ih =>
    by_cases h : p < offset n m k
    · obtain ⟨i, hi, hrange⟩ := ih h
      exact ⟨i, by omega, hrange⟩
    · exact ⟨k, by omega, by omega, hp⟩

theorem mem_iff_exists_chunk (hm : 0 < m) {a : α} : a ∈ l ↔ ∃ k < m, a ∈ chunk l m k := by
  constructor
  · intro ha
    obtain ⟨p, hp⟩ := mem_iff_getElem?.mp ha
    have hlt : p < offset l.length m m := by
      rw [offset_self l.length hm]
      exact (List.getElem?_eq_some_iff.mp hp).1
    obtain ⟨k, hk, hle, hlt⟩ := exists_offset hlt
    exact ⟨k, hk, mem_chunk.mpr ⟨p, hle, hlt, hp⟩⟩
  · rintro ⟨k, -, ha⟩
    obtain ⟨p, -, -, hp⟩ := mem_chunk.mp ha
    exact mem_of_getElem? hp

theorem disjoint_chunk (hl : l.Nodup) {k k' : ℕ} (hne : k ≠ k') :
    (chunk l m k).Disjoint (chunk l m k') := by
  intro a ha ha'
  obtain ⟨p, hle, hlt, hp⟩ := mem_chunk.mp ha
  obtain ⟨q, hle', hlt', hq⟩ := mem_chunk.mp ha'
  obtain ⟨hp_lt, hp_eq⟩ := List.getElem?_eq_some_iff.mp hp
  obtain ⟨hq_lt, hq_eq⟩ := List.getElem?_eq_some_iff.mp hq
  have hpq : p = q := (hl.getElem_inj_iff).mp (hp_eq.trans hq_eq.symm)
  rcases Nat.lt_or_gt_of_ne hne with h | h
  · have := offset_mono l.length m (show k + 1 ≤ k' by omega)
    omega
  · have := offset_mono l.length m (show k' + 1 ≤ k by omega)
    omega

theorem nodup_chunk (hl : l.Nodup) : (chunk l m k).Nodup :=
  (hl.sublist (drop_sublist _ l)).sublist (take_sublist _ _)

end Vanguard.Chunks
