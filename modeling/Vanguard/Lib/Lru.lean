import Mathlib

/-!
Least-recently-used caches.

Adding an entry to a full cache evicts the oldest one, which is handed back. What a
cache holds is described by `peek`; reading an entry only changes the order.
-/

namespace Vanguard

open List Prod

/-- A cache for at most `size` entries, with the most recently used entry first. -/
structure Lru (K V : Type) where
  size : ℕ
  entries : List (K × V)
  nodup : (entries.map fst).Nodup
  bounded : entries.length ≤ size

namespace Lru

/-! ### Lists of entries with different keys -/

section Entries

variable {K V : Type} [DecidableEq K]

theorem lookup_cons_ite (x : K × V) (l : List (K × V)) (a : K) :
    (x :: l).lookup a = if a = x.1 then some x.2 else l.lookup a := by
  obtain ⟨k, v⟩ := x
  by_cases h : a = k
  · rw [h, lookup_cons_self, if_pos rfl]
  · rw [lookup_cons, beq_eq_false_iff_ne.mpr h, if_neg h]

variable (l : List (K × V))

theorem lookup_eq_none_iff (k : K) : l.lookup k = none ↔ k ∉ l.map fst := by
  induction l with
  | nil => simp
  | cons a l ih =>
    rw [lookup_cons_ite, map_cons, mem_cons]
    by_cases h : k = a.1
    · simp [h]
    · rw [if_neg h, ih, or_iff_right h]

theorem mem_of_lookup {l : List (K × V)} {k : K} {v : V} (h : l.lookup k = some v) :
    (k, v) ∈ l := by
  induction l with
  | nil => cases h
  | cons a l ih =>
    rw [lookup_cons_ite] at h
    split at h
    · rename_i hk
      cases h
      exact hk ▸ mem_cons_self
    · exact mem_cons_of_mem _ (ih h)

theorem lookup_of_mem {l : List (K × V)} (h : (l.map fst).Nodup) {k : K} {v : V}
    (hmem : (k, v) ∈ l) : l.lookup k = some v := by
  induction l with
  | nil => cases hmem
  | cons x l ih =>
    rw [map_cons, nodup_cons] at h
    rw [lookup_cons_ite]
    rcases mem_cons.mp hmem with rfl | hmem
    · rw [if_pos rfl]
    · rw [if_neg (ne_of_mem_of_not_mem (mem_map_of_mem hmem) h.1), ih h.2 hmem]

theorem lookup_filter_ne (k a : K) :
    (l.filter fun x => x.1 ≠ k).lookup a = if a = k then none else l.lookup a := by
  induction l with
  | nil => simp
  | cons x l ih =>
    rw [lookup_cons_ite]
    by_cases hx : x.1 = k
    · rw [filter_cons_of_neg (by simpa using hx), ih, hx]
      split <;> rfl
    · rw [filter_cons_of_pos (by simpa using hx), lookup_cons_ite, ih]
      by_cases ha : a = x.1
      · rw [if_pos ha, if_neg (ha ▸ hx), if_pos ha]
      · rw [if_neg ha, if_neg ha]

theorem lookup_concat (x : K × V) (h : ((l ++ [x]).map fst).Nodup) (a : K) :
    (l ++ [x]).lookup x.1 = some x.2 ∧
      l.lookup a = if a = x.1 then none else (l ++ [x]).lookup a := by
  have hx : l.lookup x.1 = none := by
    rw [lookup_eq_none_iff]
    rw [map_append, nodup_append] at h
    exact fun hmem => h.2.2 _ hmem x.1 (by simp) rfl
  rw [lookup_append, lookup_append, lookup_cons_ite, lookup_cons_ite, hx, if_pos rfl]
  refine ⟨rfl, ?_⟩
  by_cases ha : a = x.1
  · rw [if_pos ha, ha, hx]
  · rw [if_neg ha, if_neg ha, lookup_nil, Option.or_none]

end Entries

/-! ### Operations -/

variable {K V : Type} [DecidableEq K]

def new (n : ℕ) : Lru K V := ⟨n, [], by simp, by simp⟩

/-- The value of a key, if it is in the cache. -/
def peek (c : Lru K V) (k : K) : Option V := c.entries.lookup k

/-- The entries without a key. -/
def others (c : Lru K V) (k : K) : List (K × V) := c.entries.filter fun x => x.1 ≠ k

variable (c : Lru K V)

theorem not_mem_others (k : K) : k ∉ (c.others k).map fst := by
  simp [others]

theorem nodup_others (k : K) : ((c.others k).map fst).Nodup :=
  c.nodup.sublist (filter_sublist.map _)

theorem length_others_le (k : K) : (c.others k).length ≤ c.size :=
  Nat.le_trans (length_filter_le _ _) c.bounded

theorem length_others_lt {c : Lru K V} {k : K} {v : V} (h : c.peek k = some v) :
    (c.others k).length < c.size := by
  refine Nat.lt_of_lt_of_le (length_filter_lt_length_iff_exists.mpr ?_) c.bounded
  by_contra hne
  have hnone : c.peek k = none := by
    rw [peek, lookup_eq_none_iff, mem_map]
    rintro ⟨x, hx, hk⟩
    exact hne ⟨x, hx, by simp [hk]⟩
  rw [h] at hnone
  cases hnone

/-- Puts the value of a key that is in the cache, and makes it the most recent one. -/
def putFront (c : Lru K V) (k : K) (v : V) (h : (c.others k).length < c.size) : Lru K V where
  size := c.size
  entries := (k, v) :: c.others k
  nodup := nodup_cons.mpr ⟨c.not_mem_others k, c.nodup_others k⟩
  bounded := h

def get (c : Lru K V) (k : K) : Option V × Lru K V :=
  match h : c.peek k with
  | none => (none, c)
  | some v => (some v, c.putFront k v (length_others_lt h))

/-- Adds an entry, and returns the entry that is evicted for it. -/
def add (c : Lru K V) (k : K) (v : V) : Lru K V × Option (K × V) :=
  if h : (c.others k).length < c.size then (c.putFront k v h, none)
  else
    let l := (k, v) :: c.others k
    ({ size := c.size
       entries := l.dropLast
       nodup := (nodup_cons.mpr ⟨c.not_mem_others k, c.nodup_others k⟩).sublist
         ((dropLast_sublist l).map _)
       bounded := by
         have := c.length_others_le k
         simp only [l, length_dropLast, length_cons]
         omega }, l.getLast?)

/-- Removes a key, and returns its value. -/
def remove (c : Lru K V) (k : K) : Lru K V × Option V :=
  ({ size := c.size
     entries := c.others k
     nodup := c.nodup_others k
     bounded := c.length_others_le k }, c.peek k)

@[simp] theorem peek_new (n : ℕ) (k : K) : (new n : Lru K V).peek k = none := rfl

theorem peek_putFront (k : K) (v : V) (h : (c.others k).length < c.size) (a : K) :
    (c.putFront k v h).peek a = if a = k then some v else c.peek a := by
  rw [peek, putFront, lookup_cons_ite, others, lookup_filter_ne]
  by_cases ha : a = k
  · rw [if_pos ha, if_pos ha]
  · rw [if_neg ha, if_neg ha, if_neg ha, peek]

@[simp] theorem fst_get (c : Lru K V) (k : K) : (c.get k).1 = c.peek k := by
  unfold get
  split <;> simp_all

@[simp] theorem peek_get (c : Lru K V) (k a : K) : (c.get k).2.peek a = c.peek a := by
  unfold get
  split
  · rfl
  · next v h =>
    rw [peek_putFront]
    split
    · next ha => rw [ha, h]
    · rfl

/-- A cache holds what `base` says, up to the entry that has been evicted. -/
def Evicts (base : K → Option V) (c : Lru K V) (evicted : Option (K × V)) : Prop :=
  (evicted = none ∧ ∀ a, c.peek a = base a) ∨
    ∃ x, evicted = some x ∧ base x.1 = some x.2 ∧ ∀ a, c.peek a = if a = x.1 then none else base a

theorem evicts_add (k : K) (v : V) :
    Evicts (fun a => if a = k then some v else c.peek a) (c.add k v).1 (c.add k v).2 := by
  have hall : ∀ a, ((k, v) :: c.others k).lookup a = if a = k then some v else c.peek a := by
    intro a
    rw [lookup_cons_ite, others, lookup_filter_ne]
    by_cases ha : a = k
    · rw [if_pos ha, if_pos ha]
    · rw [if_neg ha, if_neg ha, if_neg ha, peek]
  unfold add
  split
  · next h => exact .inl ⟨rfl, fun a => peek_putFront c k v h a⟩
  · refine .inr ?_
    have hne : (k, v) :: c.others k ≠ [] := cons_ne_nil _ _
    have hnodup : ((((k, v) :: c.others k).dropLast ++ [((k, v) :: c.others k).getLast hne]).map
        fst).Nodup := by
      rw [dropLast_append_getLast hne]
      exact nodup_cons.mpr ⟨c.not_mem_others k, c.nodup_others k⟩
    have hlookup := lookup_concat _ _ hnodup
    rw [dropLast_append_getLast hne] at hlookup
    refine ⟨_, getLast?_eq_some_getLast hne, ?_, fun a => ?_⟩
    · beta_reduce
      rw [← hall]
      exact (hlookup k).1
    · beta_reduce
      rw [← hall]
      exact (hlookup a).2

theorem peek_add_eq_some {c : Lru K V} {k a : K} {v x : V} (h : (c.add k v).1.peek a = some x) :
    (a = k ∧ x = v) ∨ c.peek a = some x := by
  have hbase : (if a = k then some v else c.peek a) = some x := by
    rcases evicts_add c k v with ⟨-, hpeek⟩ | ⟨y, -, -, hpeek⟩
    · exact (hpeek a).symm.trans h
    · rw [hpeek] at h
      split at h
      · cases h
      · exact h
  split at hbase
  · rename_i ha
    exact .inl ⟨ha, (Option.some.inj hbase).symm⟩
  · exact .inr hbase

theorem peek_remove (k a : K) :
    (c.remove k).1.peek a = if a = k then none else c.peek a := lookup_filter_ne c.entries k a

theorem evicts_remove (k : K) : Evicts c.peek (c.remove k).1 ((c.remove k).2.map (k, ·)) := by
  have hsnd : (c.remove k).2 = c.peek k := rfl
  rw [hsnd]
  cases hk : c.peek k with
  | none =>
    refine .inl ⟨rfl, fun a => ?_⟩
    rw [peek_remove]
    split
    · next ha => rw [ha, hk]
    · rfl
  | some v => exact .inr ⟨(k, v), rfl, hk, fun a => peek_remove c k a⟩

end Lru

end Vanguard
