import Mathlib

/-!
Binary search, and lists that are kept sorted by a key.

The search finds where a predicate on positions begins to hold, if it holds from some position
on. In a list that is sorted by a key it finds the element with a key.
-/

namespace Vanguard.Search

open List

/-- The loop between the bounds `i` and `j`. -/
def searchLoop (f : ℕ → Bool) : ℕ → ℕ → ℕ → ℕ
  | 0, i, _ => i
  | fuel + 1, i, j =>
    if i < j then
      let h := (i + j) / 2
      if f h then searchLoop f fuel i h else searchLoop f fuel (h + 1) j
    else i

/-- The first of `n` positions where `f` holds, or `n`. -/
def search (n : ℕ) (f : ℕ → Bool) : ℕ := searchLoop f n 0 n

/-- What the search has found out when its bounds have met in `r`. -/
structure Found (n : ℕ) (f : ℕ → Bool) (r : ℕ) : Prop where
  le : r ≤ n
  below : ∀ k < r, f k = false
  above : ∀ k, r ≤ k → k < n → f k = true

variable {n : ℕ} {f : ℕ → Bool} {i : ℕ}

theorem searchLoop_found (hf : ∀ i j, i ≤ j → j < n → f i = true → f j = true) (fuel : ℕ) {j : ℕ}
    (hij : i ≤ j) (hjn : j ≤ n) (hfuel : j ≤ i + fuel) (hlow : ∀ k < i, f k = false)
    (hhigh : ∀ k, j ≤ k → k < n → f k = true) : Found n f (searchLoop f fuel i j) := by
  induction fuel generalizing i j with
  | zero =>
    obtain rfl : i = j := by omega
    exact ⟨hjn, hlow, hhigh⟩
  | succ fuel ih =>
    rw [searchLoop]
    split
    next hlt =>
      have hmid : (i + j) / 2 < j := by omega
      simp only
      split
      next htrue =>
        exact ih (by omega) (by omega) (by omega) hlow fun k hk hkn =>
          hf _ k hk hkn htrue
      next hfalse =>
        refine ih (by omega) hjn (by omega) (fun k hk => ?_) hhigh
        by_contra htrue
        rw [Bool.not_eq_false] at htrue
        exact hfalse (hf k _ (by omega) (by omega) htrue)
    next hge =>
      obtain rfl : i = j := by omega
      exact ⟨hjn, hlow, hhigh⟩

theorem search_found (hf : ∀ i j, i ≤ j → j < n → f i = true → f j = true) :
    Found n f (search n f) :=
  searchLoop_found hf n (Nat.zero_le n) le_rfl (by omega) (by omega) (by omega)

theorem search_of_false (hf : ∀ i < n, f i = false) : search n f = n := by
  have hfound := search_found (n := n) (f := f) fun i j hij hj hi => by
    rw [hf i (by omega)] at hi
    cases hi
  rcases Nat.lt_or_ge (search n f) n with hlt | hge
  · have htrue := hfound.above _ le_rfl hlt
    rw [hf _ hlt] at htrue
    cases htrue
  · exact le_antisymm hfound.le hge

section Keys

variable {α κ : Type} [LinearOrder κ] (key : α → κ)

/-- The search for the first element whose key is not below `x`. -/
def searchKey (l : List α) (x : κ) : ℕ :=
  search l.length fun i =>
    match l[i]? with
    | some a => decide (x ≤ key a)
    | none => false

variable {key}

variable {l : List α} {a : α}

theorem getElem?_searchKey (hl : l.Pairwise fun a b => key a ≤ key b) (ha : a ∈ l) :
    ∃ b, l[searchKey key l (key a)]? = some b ∧ key b = key a := by
  obtain ⟨i, hi, rfl⟩ := mem_iff_getElem.mp ha
  have hsorted : ∀ i j, (hij : i ≤ j) → (hj : j < l.length) → key l[i] ≤ key l[j] := by
    intro i j hij hj
    rcases Nat.lt_or_ge i j with hlt | hge
    · exact pairwise_iff_getElem.mp hl i j _ hj hlt
    · obtain rfl : i = j := by omega
      exact le_rfl
  have hfound := search_found (n := l.length) (f := fun k => match l[k]? with
    | some b => decide (key l[i] ≤ key b)
    | none => false) (by
      intro j k hjk hk hj
      rw [getElem?_eq_getElem (by omega)] at hj
      rw [getElem?_eq_getElem hk]
      simp only [decide_eq_true_eq] at hj ⊢
      exact hj.trans (hsorted j k hjk hk))
  have hle : searchKey key l (key l[i]) ≤ i := by
    by_contra hlt
    have hfalse := hfound.below i (not_le.mp hlt)
    simp [getElem?_eq_getElem hi] at hfalse
  have hlt : searchKey key l (key l[i]) < l.length := by omega
  have habove := hfound.above _ le_rfl hlt
  change (match l[searchKey key l (key l[i])]? with
    | some b => decide (key l[i] ≤ key b)
    | none => false) = true at habove
  rw [getElem?_eq_getElem hlt, decide_eq_true_eq] at habove
  exact ⟨_, getElem?_eq_getElem hlt, le_antisymm (hsorted _ _ hle hi) habove⟩

variable (key)

/-- The position of the element with a key, in a sorted list. -/
def find (l : List α) (x : κ) : Option ℕ :=
  match l[searchKey key l x]? with
  | some a => if key a = x then some (searchKey key l x) else none
  | none => none

/-- A new element, put where it belongs. -/
def addSorted (l : List α) (a : α) : List α := (l ++ [a]).insertionSort fun a b => key a ≤ key b

variable {key}

theorem find_eq_some {x : κ} (h : find key l x = some i) : ∃ a, l[i]? = some a ∧ key a = x := by
  unfold find at h
  split at h
  next a ha =>
    split at h
    next hx =>
      obtain rfl := Option.some.inj h
      exact ⟨a, ha, hx⟩
    next => cases h
  next => cases h

theorem ne_of_find_eq_none (hl : l.Pairwise fun a b => key a < key b) {x : κ}
    (h : find key l x = none) (ha : a ∈ l) : key a ≠ x := by
  rintro rfl
  obtain ⟨b, hb, heq⟩ := getElem?_searchKey (hl.imp le_of_lt) ha
  rw [find, hb] at h
  exact absurd h (by simp [heq])

theorem mem_addSorted {b : α} : b ∈ addSorted key l a ↔ b ∈ l ∨ b = a := by
  rw [addSorted, mem_insertionSort, mem_append, mem_singleton]

theorem forall_mem_addSorted {P : α → Prop} (hl : ∀ b ∈ l, P b) (ha : P a) :
    ∀ b ∈ addSorted key l a, P b := by
  intro b hb
  rcases mem_addSorted.mp hb with hb | rfl
  · exact hl b hb
  · exact ha

theorem pairwise_addSorted (hl : l.Pairwise fun a b => key a < key b)
    (hnone : find key l (key a) = none) :
    (addSorted key l a).Pairwise fun a b => key a < key b := by
  have hsorted : (addSorted key l a).Pairwise fun a b => key a ≤ key b :=
    letI : IsTrans α fun a b => key a ≤ key b := ⟨fun _ _ _ => le_trans⟩
    letI : Std.Total fun a b : α => key a ≤ key b := ⟨fun a b => le_total (key a) (key b)⟩
    pairwise_insertionSort _ _
  have hne : (addSorted key l a).Pairwise fun a b => key a ≠ key b := by
    refine (perm_insertionSort _ _).symm.pairwise ?_ fun h => h.symm
    refine pairwise_append.mpr ⟨hl.imp ne_of_lt, pairwise_singleton _ _, ?_⟩
    rintro b hb c hc
    rw [mem_singleton.mp hc]
    exact ne_of_find_eq_none hl hnone hb
  exact (pairwise_and_iff.mpr ⟨hsorted, hne⟩).imp fun h => lt_of_le_of_ne h.1 h.2

theorem pairwise_set (hl : l.Pairwise fun a b => key a < key b) {b : α}
    (ha : l[i]? = some a) (hb : key b = key a) : (l.set i b).Pairwise fun a b => key a < key b := by
  have hmap : (l.set i b).map key = l.map key := by
    obtain ⟨hlt, rfl⟩ := List.getElem?_eq_some_iff.mp ha
    rw [map_set, hb, ← getElem_map key (h := by simpa using hlt), set_getElem_self]
  rw [← pairwise_map (f := key) (R := (· < ·)), hmap, pairwise_map]
  exact hl

end Keys

theorem nodup_eraseDups {α : Type} [DecidableEq α] (l : List α) : l.eraseDups.Nodup := by
  induction hn : l.length using Nat.strong_induction_on generalizing l with
  | _ n ih =>
    cases l with
    | nil => simp
    | cons a l =>
      rw [eraseDups_cons, nodup_cons, mem_eraseDups, mem_filter]
      refine ⟨by simp, ih _ ?_ _ rfl⟩
      rw [← hn, length_cons]
      exact Nat.lt_succ_of_le (length_filter_le ..)

end Vanguard.Search
