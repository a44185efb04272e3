import Mathlib

/-!
Reading and overwriting a part of a list.

A part that was written reads back, and a part that does not meet it is as it was
before.
-/

namespace Vanguard.Slices

open List

variable {α : Type*} {l xs : List α} {i n : ℕ}

/-- The `n` elements from position `i` on. -/
def slice (l : List α) (i n : ℕ) : List α := (l.drop i).take n

/-- Overwrites the elements from position `i` on. -/
def put (l : List α) (i : ℕ) (xs : List α) : List α := l.take i ++ xs ++ l.drop (i + xs.length)

/-- Appends copies of an element up to a length. -/
def grow (l : List α) (n : ℕ) (a : α) : List α := l ++ replicate (n - l.length) a

theorem set_self {a : α} (h : l[i]? = some a) : l.set i a = l := by
  obtain ⟨hlt, rfl⟩ := List.getElem?_eq_some_iff.mp h
  exact set_getElem_self hlt

theorem length_put (h : i + xs.length ≤ l.length) : (put l i xs).length = l.length := by
  simp only [put, length_append, length_take, length_drop]
  omega

theorem length_slice (h : i + n ≤ l.length) : (slice l i n).length = n := by
  simp only [slice, length_take, length_drop]
  omega

theorem length_grow (l : List α) (n : ℕ) (a : α) : (grow l n a).length = max l.length n := by
  simp only [grow, length_append, length_replicate]
  omega

theorem getElem?_slice (l : List α) (i n j : ℕ) :
    (slice l i n)[j]? = if j < n then l[i + j]? else none := by
  rw [slice, getElem?_take, getElem?_drop]

theorem getElem?_put (h : i + xs.length ≤ l.length) (j : ℕ) :
    (put l i xs)[j]? = if i ≤ j ∧ j < i + xs.length then xs[j - i]? else l[j]? := by
  have hlen : (l.take i).length = i := by
    rw [length_take]
    omega
  rw [put, append_assoc, getElem?_append, getElem?_append, hlen]
  by_cases h₁ : j < i
  · rw [if_pos h₁, if_neg (by omega), getElem?_take, if_pos h₁]
  · by_cases h₂ : j - i < xs.length
    · rw [if_neg h₁, if_pos h₂, if_pos (by omega)]
    · rw [if_neg h₁, if_neg h₂, if_neg (by omega), getElem?_drop]
      congr 1
      omega

theorem getElem?_grow (l : List α) (n : ℕ) (a : α) (j : ℕ) :
    (grow l n a)[j]? = if j < l.length then l[j]? else if j < n then some a else none := by
  rw [grow, getElem?_append, getElem?_replicate]
  by_cases h : j < l.length
  · rw [if_pos h, if_pos h]
  · rw [if_neg h, if_neg h]
    by_cases hn : j < n
    · rw [if_pos (by omega), if_pos hn]
    · rw [if_neg (by omega), if_neg hn]

theorem getD_grow (l : List α) (n : ℕ) (a : α) (j : ℕ) : (grow l n a).getD j a = l.getD j a := by
  rw [getD_eq_getElem?_getD, getElem?_grow, getD_eq_getElem?_getD]
  split
  · rfl
  · rw [getElem?_eq_none (by omega)]
    split <;> rfl

theorem slice_put_same (h : i + xs.length ≤ l.length) : slice (put l i xs) i xs.length = xs := by
  ext1 j
  rw [getElem?_slice, getElem?_put h]
  by_cases hj : j < xs.length
  · rw [if_pos hj, if_pos (by omega), Nat.add_sub_cancel_left]
  · rw [if_neg hj, getElem?_eq_none (by omega)]

theorem slice_put_disjoint (h : i + xs.length ≤ l.length) {j : ℕ}
    (hd : j + n ≤ i ∨ i + xs.length ≤ j) : slice (put l i xs) j n = slice l j n := by
  ext1 m
  rw [getElem?_slice, getElem?_slice, getElem?_put h]
  by_cases hm : m < n
  · rw [if_pos hm, if_pos hm, if_neg (by omega)]
  · rw [if_neg hm, if_neg hm]

theorem slice_grow_of_le (h : i + n ≤ l.length) (m : ℕ) (a : α) :
    slice (grow l m a) i n = slice l i n := by
  ext1 j
  rw [getElem?_slice, getElem?_slice, getElem?_grow]
  by_cases hj : j < n
  · rw [if_pos hj, if_pos hj, if_pos (by omega)]
  · rw [if_neg hj, if_neg hj]

theorem slice_grow_new {m : ℕ} (hi : l.length ≤ i) (hm : i + n ≤ m) (a : α) :
    slice (grow l m a) i n = replicate n a := by
  ext1 j
  rw [getElem?_slice, getElem?_grow, getElem?_replicate]
  by_cases hj : j < n
  · rw [if_pos hj, if_pos hj, if_neg (by omega), if_pos (by omega)]
  · rw [if_neg hj, if_neg hj]

end Vanguard.Slices
