import Mathlib

/-!
Lists of records of one length, stored one after the other.

A record is found by a search for its elements. The search may stop at a place across two records
before it comes to the record itself. Where it stops at the start of a record, cutting the record
out is erasing it from the list of records.
-/

namespace Vanguard.Records

open List Nat

variable {α : Type*} {n : ℕ}

/-- Cuts off `n` elements at a time. -/
def splitLoop (n : ℕ) : ℕ → List α → List (List α)
  | 0, _ => []
  | fuel + 1, l => if l.isEmpty then [] else l.take n :: splitLoop n fuel (l.drop n)

/-- The records of a list. A round takes something away, so that the length is fuel enough. -/
def split (n : ℕ) (l : List α) : List (List α) := splitLoop n l.length l

theorem splitLoop_flatten (hn : 0 < n) {rs : List (List α)} (hrs : ∀ r ∈ rs, r.length = n)
    {fuel : ℕ} (hfuel : rs.length ≤ fuel) : splitLoop n fuel rs.flatten = rs := by
  induction rs generalizing fuel with
  | nil =>
    cases fuel with
    | zero => rfl
    | succ fuel => rfl
  | cons r rs ih =>
    obtain ⟨hr, hrs⟩ := forall_mem_cons.mp hrs
    obtain ⟨fuel, rfl⟩ : ∃ k, fuel = k + 1 :=
      exists_eq_succ_of_ne_zero (Nat.ne_of_gt (Nat.lt_of_lt_of_le (succ_pos _) hfuel))
    have hne : (r ++ rs.flatten).isEmpty = false := by
      cases r with
      | nil => exact absurd hr (by simpa using hn.ne)
      | cons a r => rfl
    rw [splitLoop, flatten_cons, hne, if_neg Bool.false_ne_true, ← hr, take_left,
      drop_left, hr, ih hrs (le_of_succ_le_succ hfuel)]

theorem length_le_length_flatten (hn : 0 < n) {rs : List (List α)}
    (hrs : ∀ r ∈ rs, r.length = n) : rs.length ≤ rs.flatten.length := by
  induction rs with
  | nil => exact le_rfl
  | cons r rs ih =>
    obtain ⟨hr, hrs⟩ := forall_mem_cons.mp hrs
    have := ih hrs
    rw [length_cons, flatten_cons, length_append, hr]
    omega

theorem split_flatten (hn : 0 < n) {rs : List (List α)} (hrs : ∀ r ∈ rs, r.length = n) :
    split n rs.flatten = rs :=
  splitLoop_flatten hn hrs (length_le_length_flatten hn hrs)

/-! ### Places of records -/

theorem drop_mul_flatten {rs : List (List α)} (hrs : ∀ r ∈ rs, r.length = n) (k : ℕ) :
    rs.flatten.drop (k * n) = (rs.drop k).flatten := by
  induction k generalizing rs with
  | zero => simp
  | succ k ih =>
    cases rs with
    | nil => simp
    | cons r rs =>
      obtain ⟨hr, hrs⟩ := forall_mem_cons.mp hrs
      rw [drop_succ_cons, ← ih hrs, flatten_cons, succ_mul, add_comm, ← drop_drop, ← hr, drop_left]

theorem take_mul_flatten {rs : List (List α)} (hrs : ∀ r ∈ rs, r.length = n) (k : ℕ) :
    rs.flatten.take (k * n) = (rs.take k).flatten := by
  induction k generalizing rs with
  | zero => simp
  | succ k ih =>
    cases rs with
    | nil => simp
    | cons r rs =>
      obtain ⟨hr, hrs⟩ := forall_mem_cons.mp hrs
      rw [take_succ_cons, flatten_cons, flatten_cons, ← ih hrs, succ_mul,
        add_comm, take_append, hr, take_of_length_le (by omega),
        Nat.add_sub_cancel_left]

theorem starts_iff (hn : 0 < n) {rs : List (List α)} (hrs : ∀ r ∈ rs, r.length = n) {p : List α}
    (hp : p.length = n) (k : ℕ) : p <+: rs.flatten.drop (k * n) ↔ rs[k]? = some p := by
  rw [drop_mul_flatten hrs]
  cases hk : rs.drop k with
  | nil =>
    have hget : rs[k]? = none := getElem?_eq_none (drop_eq_nil_iff.mp hk)
    rw [flatten_nil, prefix_nil, hget]
    constructor
    · rintro rfl
      exact absurd hp hn.ne
    · exact fun h => (nomatch h)
  | cons r rest =>
    have hget : rs[k]? = some r := by
      rw [← Nat.add_zero k, ← getElem?_drop, hk, getElem?_cons_zero]
    have hr : r.length = n := hrs r (mem_of_getElem? hget)
    rw [flatten_cons, hget, Option.some_inj]
    constructor
    · intro h
      have htake := prefix_iff_eq_take.mp h
      rw [hp, ← hr, take_left] at htake
      exact htake.symm
    · rintro rfl
      exact prefix_append r rest.flatten

/-! ### Searching -/

variable [DecidableEq α]

/-- The first place where `p` starts. -/
def indexOf (p l : List α) : Option ℕ :=
  (range (l.length + 1)).find? fun i => p.isPrefixOf (l.drop i)

variable {i : ℕ}

theorem indexOf_eq_some {p l : List α} : indexOf p l = some i ↔
    i ≤ l.length ∧ p <+: l.drop i ∧ ∀ j < i, ¬ p <+: l.drop j := by
  rw [indexOf, find?_range_eq_some]
  simp only [mem_range, Nat.lt_succ_iff, Bool.not_eq_true', isPrefixOf_iff_prefix,
    ← Bool.not_eq_true]
  tauto

theorem indexOf_eq_none {p l : List α} (h : indexOf p l = none) (hi : i ≤ l.length) :
    ¬ p <+: l.drop i := by
  rw [indexOf, find?_eq_none] at h
  intro hp
  exact h i (mem_range.mpr (lt_succ_of_le hi)) (List.isPrefixOf_iff_prefix.mpr hp)

/-- Cuts out `p` where it is found, if this is the place of a record. -/
def cut (p l : List α) : List α :=
  match indexOf p l with
  | none => l
  | some i => if i % p.length = 0 then l.take i ++ l.drop (i + p.length) else l

section Cut

variable (hn : 0 < n) {rs : List (List α)} (hrs : ∀ r ∈ rs, r.length = n) {p : List α}
  (hp : p.length = n)
include hn hrs hp

theorem getElem?_of_indexOf (h : indexOf p rs.flatten = some i) (hi : i % n = 0) :
    rs[i / n]? = some p := by
  obtain ⟨-, hstart, -⟩ := indexOf_eq_some.mp h
  rw [← Nat.div_mul_cancel (dvd_of_mod_eq_zero hi)] at hstart
  exact (starts_iff hn hrs hp _).mp hstart

theorem cut_of_not_mem (hmem : p ∉ rs) : cut p rs.flatten = rs.flatten := by
  rw [cut]
  split
  · rfl
  next i hi =>
    rw [hp, if_neg]
    exact fun hzero => hmem (mem_of_getElem? (getElem?_of_indexOf hn hrs hp hi hzero))

/-- Where the search stops at the place of a record, the record is erased. -/
theorem cut_eq_erase (haligned : ∀ i, indexOf p rs.flatten = some i → i % n = 0) :
    cut p rs.flatten = (rs.erase p).flatten := by
  by_cases hmem : p ∈ rs
  · rw [cut]
    split
    next hnone =>
      obtain ⟨k, hk⟩ := getElem?_of_mem hmem
      have hstart := (starts_iff hn hrs hp k).mpr hk
      have hle : k * n ≤ rs.flatten.length := by
        have hlen := hstart.length_le
        rw [hp, length_drop] at hlen
        omega
      exact absurd hstart (indexOf_eq_none hnone hle)
    next i hi =>
      have hzero := haligned i hi
      have hget := getElem?_of_indexOf hn hrs hp hi hzero
      obtain ⟨k, rfl⟩ : ∃ k, i = k * n :=
        ⟨i / n, (Nat.div_mul_cancel (dvd_of_mod_eq_zero hzero)).symm⟩
      rw [Nat.mul_div_cancel _ hn] at hget
      obtain ⟨-, -, hfirst⟩ := indexOf_eq_some.mp hi
      have hbefore : p ∉ rs.take k := by
        intro hp'
        obtain ⟨j, hj⟩ := getElem?_of_mem hp'
        rw [getElem?_take] at hj
        split at hj
        next hlt =>
          exact hfirst (j * n) ((Nat.mul_lt_mul_right hn).mpr hlt) ((starts_iff hn hrs hp j).mpr hj)
        · exact (nomatch hj)
      have hsplit : rs = rs.take k ++ p :: rs.drop (k + 1) := by
        obtain ⟨hlt, heq⟩ := List.getElem?_eq_some_iff.mp hget
        rw [← heq, getElem_cons_drop, take_append_drop]
      have herase : rs.erase p = rs.take k ++ rs.drop (k + 1) := by
        conv_lhs => rw [hsplit]
        rw [erase_append_right _ hbefore, erase_cons_head]
      rw [hp, if_pos hzero, herase, flatten_append, take_mul_flatten hrs,
        ← drop_mul_flatten hrs, succ_mul]
  · rw [cut_of_not_mem hn hrs hp hmem, erase_of_not_mem hmem]

end Cut

end Vanguard.Records
