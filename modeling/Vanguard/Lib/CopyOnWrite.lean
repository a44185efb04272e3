import Mathlib

/-!
Slices that are shared until they are written.

A holder has a slice, which is a part of an array of the heap, and a reference counter. A
copy of a holder shares both. Before a holder writes it looks at the counter: if it is above
one, the holder moves to an array and a counter of its own.

This is sound as long as the counters are at least the numbers of their holders, and holders
of one array have one counter (`WF`). Then the holders behave like independent values
(`values`): each operation changes the value of one holder, as if nothing were shared.
-/

namespace Vanguard.CopyOnWrite

open List Option Function Nat

/-- The first `length` elements of an array. -/
structure Slice where
  array : ℕ
  length : ℕ
  deriving DecidableEq, Repr

structure Holder where
  slice : Slice
  ref : ℕ
  deriving DecidableEq, Repr

/-- Arrays, and reference counters. -/
structure Heap (α : Type) where
  arrays : ℕ → List α
  nextArray : ℕ
  refs : ℕ → ℕ
  nextRef : ℕ

namespace Heap

variable {α : Type}

def read (heap : Heap α) (s : Slice) : List α := (heap.arrays s.array).take s.length

def alloc (heap : Heap α) (l : List α) : Slice × Heap α :=
  (⟨heap.nextArray, l.length⟩,
    { heap with
      arrays := update heap.arrays heap.nextArray l
      nextArray := heap.nextArray + 1 })

def newRef (heap : Heap α) : ℕ × Heap α :=
  (heap.nextRef,
    { heap with
      refs := update heap.refs heap.nextRef 1
      nextRef := heap.nextRef + 1 })

def addRef (heap : Heap α) (ref : ℕ) : Heap α :=
  { heap with refs := update heap.refs ref (heap.refs ref + 1) }

/-- Counters do not go below zero. -/
def minusRef (heap : Heap α) (ref : ℕ) : Heap α :=
  { heap with refs := update heap.refs ref (heap.refs ref - 1) }

/-- Writes elements to the start of an array. -/
def overwrite (heap : Heap α) (array : ℕ) (l : List α) : Heap α :=
  { heap with
    arrays := update heap.arrays array (l ++ (heap.arrays array).drop l.length) }

end Heap

/-- A heap and the holders, of which some have been dropped. -/
structure World (α : Type) where
  heap : Heap α
  holders : List (Option Holder)

namespace World

variable {α : Type} {w : World α} {k : ℕ} {h : Holder} {l : List α} {h' : Holder} {k' : ℕ}
  {heap : Heap α}

def initial (l : List α) : World α :=
  let heap : Heap α := ⟨fun _ => [], 0, fun _ => 0, 0⟩
  let (slice, heap) := heap.alloc l
  let (ref, heap) := heap.newRef
  ⟨heap, [some ⟨slice, ref⟩]⟩

def holder? (w : World α) (k : ℕ) : Option Holder := (w.holders[k]?).join

def values (w : World α) : List (Option (List α)) :=
  w.holders.map fun h => h.map fun h => w.heap.read h.slice

def setHolder (w : World α) (heap : Heap α) (k : ℕ) (h : Holder) : World α :=
  ⟨heap, w.holders.set k (some h)⟩

/-- A new holder that shares slice and counter. -/
def share (w : World α) (h : Holder) : World α :=
  ⟨w.heap.addRef h.ref, w.holders ++ [some h]⟩

/-- A new holder that is a copy of an old one, if that is still there. -/
def duplicate (w : World α) (k : ℕ) : World α :=
  match w.holder? k with
  | some h => w.share h
  | none => ⟨w.heap, w.holders ++ [none]⟩

/-- The holder moves to an array and a counter of its own, whatever the counter says. -/
def move (w : World α) (k : ℕ) (h : Holder) (l : List α) : World α :=
  let heap := w.heap.minusRef h.ref
  let (ref, heap) := heap.newRef
  let (slice, heap) := heap.alloc l
  w.setHolder heap k ⟨slice, ref⟩

def write (w : World α) (k : ℕ) (h : Holder) (l : List α) : World α :=
  w.setHolder (w.heap.overwrite h.slice.array l) k ⟨⟨h.slice.array, l.length⟩, h.ref⟩

/-- The holder's slice is copied to a new array, while its counter stays. -/
def regrow (w : World α) (k : ℕ) (h : Holder) (l : List α) : World α :=
  let (slice, heap) := w.heap.alloc l
  w.setHolder heap k ⟨slice, h.ref⟩

/-- The holder gets a counter of its own and keeps its slice. -/
def detach (w : World α) (k : ℕ) (h : Holder) : World α :=
  let heap := w.heap.minusRef h.ref
  let (ref, heap) := heap.newRef
  w.setHolder heap k ⟨h.slice, ref⟩

def drop (w : World α) (k : ℕ) : World α :=
  match w.holder? k with
  | some h => ⟨w.heap.minusRef h.ref, w.holders.set k none⟩
  | none => w

/-! ### Invariant -/

/-- The number of holders of a counter. -/
def sharers (holders : List (Option Holder)) (r : ℕ) : ℕ :=
  holders.countP fun h => h.map (·.ref) = some r

structure WF (w : World α) : Prop where
  array_lt : ∀ k h, w.holder? k = some h → h.slice.array < w.heap.nextArray
  length_le : ∀ k h, w.holder? k = some h →
    h.slice.length ≤ (w.heap.arrays h.slice.array).length
  ref_lt : ∀ k h, w.holder? k = some h → h.ref < w.heap.nextRef
  sharers_le : ∀ r, sharers w.holders r ≤ w.heap.refs r
  same_ref : ∀ k k' h h', w.holder? k = some h → w.holder? k' = some h' →
    h.slice.array = h'.slice.array → h.ref = h'.ref

theorem holder?_eq_some : w.holder? k = some h ↔ w.holders[k]? = some (some h) := by
  rw [holder?, join_eq_some_iff]

theorem holder?_setHolder (hk : k < w.holders.length) (heap : Heap α) (h : Holder) (k' : ℕ) :
    (w.setHolder heap k h).holder? k' = if k = k' then some h else w.holder? k' := by
  rw [holder?, setHolder, getElem?_set]
  split <;> rfl

section

variable (hk : w.holder? k = some h)

include hk

theorem lt_of_holder? : k < w.holders.length :=
  (List.getElem?_eq_some_iff.mp (holder?_eq_some.mp hk)).1

theorem sharers_set_some (h' : Holder) (r : ℕ) :
    sharers (w.holders.set k (some h')) r =
      sharers w.holders r - (if h.ref = r then 1 else 0) + (if h'.ref = r then 1 else 0) := by
  obtain ⟨hlt, heq⟩ := List.getElem?_eq_some_iff.mp (holder?_eq_some.mp hk)
  rw [sharers, countP_set hlt, heq]
  simp [sharers]

theorem sharers_set_none (r : ℕ) :
    sharers (w.holders.set k none) r = sharers w.holders r - (if h.ref = r then 1 else 0) := by
  obtain ⟨hlt, heq⟩ := List.getElem?_eq_some_iff.mp (holder?_eq_some.mp hk)
  rw [sharers, countP_set hlt, heq]
  simp [sharers]

theorem sharers_pos : 0 < sharers w.holders h.ref := by
  refine countP_pos_iff.mpr ⟨some h, mem_of_getElem? (holder?_eq_some.mp hk), ?_⟩
  simp

end

theorem WF.eq_of_ref_eq (hw : WF w) (hk : w.holder? k = some h) (hone : w.heap.refs h.ref ≤ 1)
    (hk' : w.holder? k' = some h') (href : h'.ref = h.ref) : k' = k := by
  by_contra hne
  have hset := sharers_set_none hk h.ref
  have hpos : 0 < sharers (w.holders.set k none) h.ref := by
    refine countP_pos_iff.mpr ⟨some h', mem_of_getElem? (i := k') ?_, by simp [href]⟩
    rw [getElem?_set_ne (Ne.symm hne)]
    exact holder?_eq_some.mp hk'
  have hle := hw.sharers_le h.ref
  rw [if_pos rfl] at hset
  omega

theorem values_getElem? (hk : w.holder? k = some h) :
    w.values[k]? = some (some (w.heap.read h.slice)) := by
  rw [values, getElem?_map, holder?_eq_some.mp hk]
  rfl

theorem values_setHolder (hk : k < w.holders.length)
    (hothers : ∀ k' h₂, k' ≠ k → w.holder? k' = some h₂ →
      heap.read h₂.slice = w.heap.read h₂.slice) :
    (w.setHolder heap k h').values = w.values.set k (some (heap.read h'.slice)) := by
  apply ext_getElem?
  intro k'
  rw [values, setHolder, getElem?_map, getElem?_set, getElem?_set, values, length_map, getElem?_map]
  split
  · rfl
  · next hne =>
    cases ho : w.holders[k']? with
    | none => rfl
    | some o =>
      cases o with
      | none => rfl
      | some h₂ =>
        have := hothers k' h₂ (Ne.symm hne) (holder?_eq_some.mpr ho)
        simp [this]

theorem WF.setHolder (hw : WF w) (hk : w.holder? k = some h)
    (hnext : w.heap.nextArray ≤ heap.nextArray) (hnextRef : w.heap.nextRef ≤ heap.nextRef)
    (harray : h'.slice.array < heap.nextArray)
    (hlength : h'.slice.length ≤ (heap.arrays h'.slice.array).length)
    (href : h'.ref < heap.nextRef)
    (hothers : ∀ k' h₂, k' ≠ k → w.holder? k' = some h₂ →
      heap.arrays h₂.slice.array = w.heap.arrays h₂.slice.array ∧
        h₂.slice.array ≠ h'.slice.array)
    (hsharers : ∀ r, sharers (w.holders.set k (some h')) r ≤ heap.refs r) :
    WF (w.setHolder heap k h') := by
  have hlt := lt_of_holder? hk
  have hcases : ∀ k' h₂, (w.setHolder heap k h').holder? k' = some h₂ →
      (k' = k ∧ h₂ = h') ∨ (k' ≠ k ∧ w.holder? k' = some h₂) := by
    intro k' h₂ hk'
    rw [holder?_setHolder hlt] at hk'
    split at hk'
    · next heq => exact .inl ⟨heq.symm, (some.inj hk').symm⟩
    · next hne => exact .inr ⟨Ne.symm hne, hk'⟩
  refine ⟨?_, ?_, ?_, hsharers, ?_⟩
  · intro k' h₂ hk'
    rcases hcases k' h₂ hk' with ⟨-, rfl⟩ | ⟨-, hk'⟩
    · exact harray
    · exact (hw.array_lt k' h₂ hk').trans_le hnext
  · intro k' h₂ hk'
    rcases hcases k' h₂ hk' with ⟨-, rfl⟩ | ⟨hne, hk'⟩
    · exact hlength
    · show _ ≤ (heap.arrays h₂.slice.array).length
      rw [(hothers k' h₂ hne hk').1]
      exact hw.length_le k' h₂ hk'
  · intro k' h₂ hk'
    rcases hcases k' h₂ hk' with ⟨-, rfl⟩ | ⟨-, hk'⟩
    · exact href
    · exact (hw.ref_lt k' h₂ hk').trans_le hnextRef
  · intro k₁ k₂ h₁ h₂ hk₁ hk₂ heq
    rcases hcases k₁ h₁ hk₁ with ⟨-, rfl⟩ | ⟨hne₁, hold₁⟩
    · rcases hcases k₂ h₂ hk₂ with ⟨-, rfl⟩ | ⟨hne₂, hold₂⟩
      · rfl
      · exact absurd heq.symm (hothers k₂ h₂ hne₂ hold₂).2
    · rcases hcases k₂ h₂ hk₂ with ⟨-, rfl⟩ | ⟨-, hold₂⟩
      · exact absurd heq (hothers k₁ h₁ hne₁ hold₁).2
      · exact hw.same_ref k₁ k₂ h₁ h₂ hold₁ hold₂ heq

theorem read_congr {heap' : Heap α} {s : Slice}
    (heq : heap.arrays s.array = heap'.arrays s.array) : heap.read s = heap'.read s := by
  rw [Heap.read, Heap.read, heq]

/-! ### Operations -/

theorem initial_wf (l : List α) : WF (initial l) := by
  have hcases : ∀ k h, (initial l).holder? k = some h → h = ⟨⟨0, l.length⟩, 0⟩ := by
    intro k h hk
    have hmem := mem_of_getElem? (holder?_eq_some.mp hk)
    exact some.inj (mem_singleton.mp hmem)
  refine ⟨?_, ?_, ?_, ?_, ?_⟩
  · intro k h hk
    rw [hcases k h hk]
    exact Nat.zero_lt_one
  · intro k h hk
    rw [hcases k h hk]
    exact le_rfl
  · intro k h hk
    rw [hcases k h hk]
    exact Nat.zero_lt_one
  · intro r
    by_cases hr : r = 0
    · subst hr
      exact le_rfl
    · have hzero : sharers [some ⟨⟨0, l.length⟩, 0⟩] r = 0 := by
        simp [sharers, Ne.symm hr]
      exact hzero.le.trans (Nat.zero_le _)
  · intro k k' h h' hk hk' _
    rw [hcases k h hk, hcases k' h' hk']

theorem values_initial (l : List α) : (initial l).values = [some l] := by
  simp [initial, values, Heap.read, Heap.alloc, Heap.newRef]

theorem WF.of_holders (hw : WF w) {refs : ℕ → ℕ} {holders : List (Option Holder)}
    (hsub : ∀ h, some h ∈ holders → some h ∈ w.holders)
    (hle : ∀ r, sharers holders r ≤ refs r) : WF ⟨{ w.heap with refs := refs }, holders⟩ := by
  have hcases : ∀ k h, holder? ⟨{ w.heap with refs := refs }, holders⟩ k = some h →
      ∃ k₀, w.holder? k₀ = some h := by
    intro k h hk
    have hmem := hsub h (mem_of_getElem? (holder?_eq_some.mp hk))
    obtain ⟨k₀, hk₀⟩ := mem_iff_getElem?.mp hmem
    exact ⟨k₀, holder?_eq_some.mpr hk₀⟩
  refine ⟨fun k h hk => ?_, fun k h hk => ?_, fun k h hk => ?_, hle, ?_⟩
  · obtain ⟨k₀, hk₀⟩ := hcases k h hk
    exact hw.array_lt k₀ h hk₀
  · obtain ⟨k₀, hk₀⟩ := hcases k h hk
    exact hw.length_le k₀ h hk₀
  · obtain ⟨k₀, hk₀⟩ := hcases k h hk
    exact hw.ref_lt k₀ h hk₀
  · intro k₁ k₂ h₁ h₂ hk₁ hk₂ heq
    obtain ⟨k₁', hk₁'⟩ := hcases k₁ h₁ hk₁
    obtain ⟨k₂', hk₂'⟩ := hcases k₂ h₂ hk₂
    exact hw.same_ref k₁' k₂' h₁ h₂ hk₁' hk₂' heq

theorem share_wf (hw : WF w) (hk : w.holder? k = some h) : WF (w.share h) := by
  apply hw.of_holders
  · intro h' hmem
    rcases mem_append.mp hmem with hmem | hmem
    · exact hmem
    · rw [mem_singleton.mp hmem]
      exact mem_of_getElem? (holder?_eq_some.mp hk)
  · intro r
    have hle := hw.sharers_le r
    rw [sharers, countP_append, update_apply]
    by_cases hr : r = h.ref
    · subst hr
      simpa [sharers] using hle
    · simpa [sharers, hr, Ne.symm hr] using hle

theorem values_share (w : World α) (h : Holder) :
    (w.share h).values = w.values ++ [some (w.heap.read h.slice)] := by
  simp [values, share, Heap.addRef, Heap.read]

theorem append_none_wf (hw : WF w) : WF ⟨w.heap, w.holders ++ [none]⟩ :=
  hw.of_holders (by simp) fun r => by simpa [sharers] using hw.sharers_le r

theorem duplicate_wf (hw : WF w) (k : ℕ) : WF (w.duplicate k) := by
  rw [duplicate]
  split
  · next hk => exact share_wf hw hk
  · exact append_none_wf hw

theorem values_duplicate (w : World α) (k : ℕ) :
    (w.duplicate k).values = w.values ++ [(w.values[k]?).join] := by
  rw [duplicate]
  cases hk : w.holder? k with
  | some h => rw [values_share, values_getElem? hk, join_some]
  | none =>
    have hnone : (w.values[k]?).join = none := by
      rw [holder?] at hk
      rw [values, getElem?_map]
      cases ho : w.holders[k]? with
      | none => rfl
      | some o =>
        rw [ho, join_some] at hk
        rw [hk]
        rfl
    rw [hnone]
    simp [values]

theorem move_eq (w : World α) (k : ℕ) (h : Holder) (l : List α) :
    w.move k h l = w.setHolder
      ⟨update w.heap.arrays w.heap.nextArray l, w.heap.nextArray + 1,
        update (update w.heap.refs h.ref (w.heap.refs h.ref - 1))
          w.heap.nextRef 1, w.heap.nextRef + 1⟩
      k ⟨⟨w.heap.nextArray, l.length⟩, w.heap.nextRef⟩ := rfl

theorem WF.sharers_nextRef (hw : WF w) : sharers w.holders w.heap.nextRef = 0 := by
  refine countP_eq_zero.mpr fun o ho hcon => ?_
  obtain ⟨k₀, hk₀⟩ := mem_iff_getElem?.mp ho
  cases o with
  | none => simp at hcon
  | some h₀ =>
    have hlt := hw.ref_lt k₀ h₀ (holder?_eq_some.mpr hk₀)
    simp at hcon
    omega

theorem move_wf (hw : WF w) (hk : w.holder? k = some h) (l : List α) : WF (w.move k h l) := by
  have href := hw.ref_lt k h hk
  rw [move_eq]
  refine hw.setHolder hk (le_succ _) (le_succ _) (lt_succ_self _) ?_ (lt_succ_self _) ?_ ?_
  · show l.length ≤ (update w.heap.arrays w.heap.nextArray l w.heap.nextArray).length
    rw [update_self]
  · intro k' h₂ _ hk'
    have hne : h₂.slice.array ≠ w.heap.nextArray := (hw.array_lt k' h₂ hk').ne
    exact ⟨update_of_ne hne _ _, hne⟩
  · intro r
    have hle := hw.sharers_le r
    rw [sharers_set_some hk]
    by_cases hr : w.heap.nextRef = r
    · subst hr
      simp [hw.sharers_nextRef]
    · rw [if_neg hr]
      show _ ≤ update (update w.heap.refs h.ref _) w.heap.nextRef 1 r
      rw [update_of_ne (Ne.symm hr), update_apply]
      by_cases hr' : h.ref = r
      · subst hr'
        simp only [if_true]
        omega
      · rw [if_neg hr', if_neg (Ne.symm hr')]
        omega

theorem values_move (hw : WF w) (hk : w.holder? k = some h) (l : List α) :
    (w.move k h l).values = w.values.set k (some l) := by
  rw [move_eq, values_setHolder (lt_of_holder? hk)]
  · simp [Heap.read]
  · intro k' h₂ _ hk'
    exact read_congr (update_of_ne (hw.array_lt k' h₂ hk').ne _ _)

theorem regrow_eq (w : World α) (k : ℕ) (h : Holder) (l : List α) :
    w.regrow k h l = w.setHolder
      { w.heap with
        arrays := update w.heap.arrays w.heap.nextArray l
        nextArray := w.heap.nextArray + 1 }
      k ⟨⟨w.heap.nextArray, l.length⟩, h.ref⟩ := rfl

section

variable (hw : WF w) (hk : w.holder? k = some h)

include hw hk

theorem WF.sharers_keep (s : Slice) (r : ℕ) :
    sharers (w.holders.set k (some ⟨s, h.ref⟩)) r ≤ w.heap.refs r := by
  have hle := hw.sharers_le r
  rw [sharers_set_some hk]
  by_cases hr : h.ref = r
  · subst hr
    have hpos := sharers_pos hk
    simp only [if_true]
    omega
  · rw [if_neg hr]
    omega

theorem regrow_wf (l : List α) : WF (w.regrow k h l) := by
  rw [regrow_eq]
  refine hw.setHolder hk (le_succ _) le_rfl (lt_succ_self _) ?_ (hw.ref_lt k h hk) ?_
    (hw.sharers_keep hk _)
  · show l.length ≤ (update w.heap.arrays w.heap.nextArray l w.heap.nextArray).length
    rw [update_self]
  · intro k' h₂ _ hk'
    have hne : h₂.slice.array ≠ w.heap.nextArray := (hw.array_lt k' h₂ hk').ne
    exact ⟨update_of_ne hne _ _, hne⟩

theorem values_regrow (l : List α) : (w.regrow k h l).values = w.values.set k (some l) := by
  rw [regrow_eq, values_setHolder (lt_of_holder? hk)]
  · simp [Heap.read]
  · intro k' h₂ _ hk'
    exact read_congr (update_of_ne (hw.array_lt k' h₂ hk').ne _ _)

variable (hone : w.heap.refs h.ref ≤ 1)

include hone

theorem WF.array_ne
    {h₂ : Holder} (hne : k' ≠ k) (hk' : w.holder? k' = some h₂) :
    h₂.slice.array ≠ h.slice.array := fun heq =>
  hne (hw.eq_of_ref_eq hk hone hk' (hw.same_ref k' k h₂ h hk' hk heq))

theorem write_wf (l : List α) : WF (w.write k h l) := by
  refine hw.setHolder hk le_rfl le_rfl (hw.array_lt k h hk) ?_ (hw.ref_lt k h hk) ?_
    (hw.sharers_keep hk _)
  · show l.length ≤ (update w.heap.arrays h.slice.array _ h.slice.array).length
    rw [update_self, length_append]
    omega
  · intro k' h₂ hne hk'
    have hne := hw.array_ne hk hone hne hk'
    exact ⟨update_of_ne hne _ _, hne⟩

theorem values_write
    (l : List α) : (w.write k h l).values = w.values.set k (some l) := by
  rw [write, values_setHolder (lt_of_holder? hk)]
  · simp [Heap.read, Heap.overwrite]
  · intro k' h₂ hne hk'
    exact read_congr (update_of_ne (hw.array_ne hk hone hne hk') _ _)

end

theorem drop_wf (hw : WF w) (k : ℕ) : WF (w.drop k) := by
  rw [drop]
  cases hk : w.holder? k with
  | none => exact hw
  | some h =>
    apply hw.of_holders
    · intro h' hmem
      exact (mem_or_eq_of_mem_set hmem).resolve_right (by simp)
    · intro r
      have hle := hw.sharers_le r
      rw [sharers_set_none hk, update_apply]
      by_cases hr : h.ref = r
      · subst hr
        simp only [if_true]
        omega
      · rw [if_neg hr, if_neg (Ne.symm hr)]
        omega

theorem values_drop_of_ne (hne : k' ≠ k) (w : World α) :
    (w.drop k).values[k']? = w.values[k']? := by
  rw [drop]
  split
  · rw [values, values, map_set, getElem?_set_ne (Ne.symm hne)]
    rfl
  · rfl

/-! ### Copy on write -/

/-- The holder moves if its counter says that it is not alone. -/
def own (w : World α) (k : ℕ) (h : Holder) : World α × Holder :=
  if 1 < w.heap.refs h.ref then
    (w.move k h (w.heap.read h.slice),
      ⟨⟨w.heap.nextArray, (w.heap.read h.slice).length⟩, w.heap.nextRef⟩)
  else (w, h)

structure Owns (w : World α) (k : ℕ) (h : Holder) : Prop where
  wf : WF w
  holder : w.holder? k = some h
  alone : w.heap.refs h.ref ≤ 1

theorem own_spec (hw : WF w) (hk : w.holder? k = some h) :
    Owns (w.own k h).1 k (w.own k h).2 ∧ (w.own k h).1.values = w.values ∧
      (w.own k h).1.heap.read (w.own k h).2.slice = w.heap.read h.slice := by
  rw [own]
  split
  · refine ⟨⟨move_wf hw hk _, ?_, ?_⟩, ?_, ?_⟩
    · rw [move_eq, holder?_setHolder (lt_of_holder? hk), if_pos rfl]
    · show update (update w.heap.refs h.ref _) w.heap.nextRef 1 w.heap.nextRef ≤ 1
      rw [update_self]
    · obtain ⟨hlt, heq⟩ := List.getElem?_eq_some_iff.mp (values_getElem? hk)
      rw [values_move hw hk, ← heq, set_getElem_self]
    · simp [move_eq, setHolder, Heap.read]
  · next h' => exact ⟨⟨hw, hk, not_lt.mp h'⟩, rfl, rfl⟩

/-- The holder changes its value: on its own slice, or on a larger copy of it if there is no
room (`inPlace`). -/
def modify (w : World α) (k : ℕ) (h : Holder) (inPlace : Bool) (f : List α → List α) : World α :=
  let own := w.own k h
  let l := f (own.1.heap.read own.2.slice)
  if inPlace then own.1.write k own.2 l else own.1.regrow k own.2 l

theorem modify_wf (hw : WF w) (hk : w.holder? k = some h) (inPlace : Bool)
    (f : List α → List α) : WF (w.modify k h inPlace f) := by
  obtain ⟨hown, -, -⟩ := own_spec hw hk
  rw [modify]
  split
  · exact write_wf hown.wf hown.holder hown.alone _
  · exact regrow_wf hown.wf hown.holder _

theorem values_modify (hw : WF w) (hk : w.holder? k = some h) (inPlace : Bool)
    (f : List α → List α) :
    (w.modify k h inPlace f).values = w.values.set k (some (f (w.heap.read h.slice))) := by
  obtain ⟨hown, hvalues, hread⟩ := own_spec hw hk
  rw [modify, ← hvalues, ← hread]
  split
  · exact values_write hown.wf hown.holder hown.alone _
  · exact values_regrow hown.wf hown.holder _

end World

end Vanguard.CopyOnWrite
