import Vanguard.ProtoArray.Effects

/-!
What `prune` does to a well-formed store: the nodes before the finalized one
go, with their roots, and every index that is left is shifted.
-/

namespace Vanguard.ProtoArray

open Forest BestChild EState List Function Node
open Option hiding get_bind pure_apply

/-- A surviving node with its indices shifted. A parent that was dropped
becomes `NonExistentNode`. -/
def Node.renumber (k : ℕ) (n : Node) : Node :=
  { n with
    parent := n.parent.bind fun p => if k ≤ p then some (p - k) else none
    bestChild := n.bestChild.map (· - k)
    bestDescendant := n.bestDescendant.map (· - k) }

namespace Store

variable {s : Store} {i : ℕ} {r : Root}

/-- The store without its first `k` nodes. -/
def pruned (s : Store) (k : ℕ) : Store :=
  { s with
    nodes := (s.nodes.drop k).map (renumber k)
    nodesIndices :=
      (((s.nodes.take k).map root).foldl (fun m r => m.erase r) s.nodesIndices).map
        fun _ v => v - k }

theorem deleteRoots_eq (k i : ℕ) (s : Store) (h : i + k ≤ s.nodes.length) :
    deleteRoots k i s = .ok () { s with
      nodesIndices := (((s.nodes.drop i).take k).map root).foldl
        (fun m r => m.erase r) s.nodesIndices } := by
  induction k generalizing i s with
  | zero => simp [deleteRoots]
  | succ k ih =>
    have hi : i < s.nodes.length := by omega
    have hrest := ih (i + 1)
      { s with nodesIndices := s.nodesIndices.erase s.nodes[i].root } (by simp only; omega)
    simp only [deleteRoots, getElem?_eq_getElem hi, drop_eq_getElem_cons hi]
    exact hrest

theorem renumberNode_eq {k : ℕ} {n : Node} (hn : s.nodes[i]? = some n)
    (hchild : ∀ c, n.bestChild = some c → k ≤ c)
    (hdesc : ∀ d, n.bestDescendant = some d → k ≤ d) :
    renumberNode k i s = .ok () { s with nodes := s.nodes.set i (n.renumber k) } := by
  rw [renumberNode, bind_ok (nodeAt_of_getElem? hn)]
  cases hc : n.bestChild with
  | none =>
    cases hd : n.bestDescendant with
    | none => simp [setNode, bind, EStateM.bind, renumber, hc, hd]
    | some d =>
      have hk := hdesc d hd
      simp [setNode, bind, EStateM.bind, renumber, hc, hd, Nat.not_lt.mpr hk]
  | some c =>
    have hkc := hchild c hc
    cases hd : n.bestDescendant with
    | none => simp [setNode, bind, EStateM.bind, renumber, hc, hd, Nat.not_lt.mpr hkc]
    | some d =>
      have hk := hdesc d hd
      simp [setNode, bind, EStateM.bind, renumber, hc, hd, Nat.not_lt.mpr hkc, Nat.not_lt.mpr hk]

theorem renumberNodes_eq {k : ℕ} (todo : List Node) (done : List Node) (s : Store)
    (hs : s.nodes = done ++ todo)
    (hchild : ∀ n ∈ todo, ∀ c, n.bestChild = some c → k ≤ c)
    (hdesc : ∀ n ∈ todo, ∀ d, n.bestDescendant = some d → k ≤ d) :
    renumberNodes k todo.length done.length s =
      .ok () { s with nodes := done ++ todo.map (renumber k) } := by
  induction todo generalizing done s with
  | nil => simp [renumberNodes, ← hs]
  | cons n todo ih =>
    have hn : s.nodes[done.length]? = some n := by simp [hs]
    have hstep := renumberNode_eq hn (hchild n (by simp)) (hdesc n (by simp))
    rw [length_cons, renumberNodes, bind_ok hstep]
    have hrest := ih (done ++ [n.renumber k])
      { s with nodes := s.nodes.set done.length (n.renumber k) } (by simp [hs])
      (fun m hm => hchild m (by simp [hm])) (fun m hm => hdesc m (by simp [hm]))
    simpa using hrest

theorem getElem?_pruned (s : Store) (k i : ℕ) :
    (s.pruned k).nodes[i]? = s.nodes[i + k]?.map (renumber k) := by
  simp [pruned, getElem?_map, getElem?_drop, Nat.add_comm]

theorem parentOf_pruned {k p : ℕ} :
    (s.pruned k).parentOf i = some p ↔ s.parentOf (i + k) = some (p + k) := by
  simp only [parentOf, getElem?_pruned]
  cases hn : s.nodes[i + k]? with
  | none => simp
  | some n =>
    cases hp : n.parent with
    | none => simp [renumber, hp]
    | some q =>
      simp only [map_some, bind_some, renumber, hp]
      split <;> simp <;> omega

theorem rootAt_pruned (s : Store) (k i : ℕ) : (s.pruned k).rootAt i = s.rootAt (i + k) := by
  simp [rootAt, getElem?_pruned, comp_def, renumber]

theorem epochsAt_pruned (s : Store) (k i : ℕ) : (s.pruned k).epochsAt i = s.epochsAt (i + k) := by
  simp [epochsAt, getElem?_pruned, comp_def, renumber]

theorem weightAt_pruned (s : Store) (k i : ℕ) : (s.pruned k).weightAt i = s.weightAt (i + k) := by
  simp [weightAt, getElem?_pruned, comp_def, renumber]

namespace WellFormed

variable (h : s.WellFormed)

include h

theorem link_ge {n : Node} (hn : s.nodes[i]? = some n) :
    (∀ c, n.bestChild = some c → i ≤ c) ∧ (∀ d, n.bestDescendant = some d → i ≤ d) := by
  have hboth : ∀ c d, n.bestChild = some c → n.bestDescendant = some d → i ≤ c ∧ i ≤ d := by
    intro c d hc hd
    obtain ⟨hpc, hbelow⟩ := h.best i n c d hn hc hd
    have h₁ := h.parentOf_lt hpc
    have h₂ : c ≤ d := h.ranked.rank_le_of_below hbelow
    omega
  have hpaired := h.paired i n hn
  constructor
  · intro c hc
    cases hd : n.bestDescendant with
    | none => simp [hc, hd] at hpaired
    | some d => exact (hboth c d hc hd).1
  · intro d hd
    cases hc : n.bestChild with
    | none => simp [hc, hd] at hpaired
    | some c => exact (hboth c d hc hd).2

theorem below_pruned {k d a : ℕ} :
    Below (s.pruned k).parentOf d a ↔ Below s.parentOf (d + k) (a + k) :=
  below_shift (fun _ _ => parentOf_pruned) fun _ _ hc => h.parentOf_lt hc

theorem getElem?_nodesIndices_pruned {k : ℕ} :
    (s.pruned k).nodesIndices[r]? = some i ↔ s.nodesIndices[r]? = some (i + k) := by
  simp only [pruned, Std.ExtTreeMap.getElem?_map, TreeMap.getElem?_foldl_erase]
  have hmem : r ∈ (s.nodes.take k).map root ↔ ∃ j < k, s.nodesIndices[r]? = some j := by
    rw [List.mem_map]
    constructor
    · rintro ⟨n, hn, rfl⟩
      obtain ⟨j, hj⟩ := getElem?_of_mem hn
      rw [getElem?_take] at hj
      split at hj
      · exact ⟨j, ‹_›, (h.indices n.root j).mpr ⟨n, hj, rfl⟩⟩
      · exact absurd hj (by simp)
    · rintro ⟨j, hjk, hj⟩
      obtain ⟨n, hn, rfl⟩ := (h.indices r j).mp hj
      have hjn : (s.nodes.take k)[j]? = some n := by rw [getElem?_take_of_lt hjk, hn]
      exact ⟨n, mem_of_getElem? hjn, rfl⟩
  cases hr : s.nodesIndices[r]? with
  | none => simp
  | some j =>
    rw [hr] at hmem
    split
    · rename_i hin
      obtain ⟨j', hj', hjj⟩ := hmem.mp hin
      obtain rfl := some.inj hjj
      simp
      omega
    · rename_i hout
      have hkj : k ≤ j := by
        by_contra hlt
        exact hout (hmem.mpr ⟨j, by omega, rfl⟩)
      simp
      omega

theorem pruned (k : ℕ) : (s.pruned k).WellFormed where
  indices r i := by
    rw [h.getElem?_nodesIndices_pruned, h.indices, getElem?_pruned]
    simp [renumber]
  parent_lt i n p hn hp := by
    have hparent : (s.pruned k).parentOf i = some p := parentOf_eq_some.mpr ⟨n, hn, hp⟩
    have hlt := h.parentOf_lt (parentOf_pruned.mp hparent)
    omega
  paired i n' hn' := by
    rw [getElem?_pruned] at hn'
    obtain ⟨n, hn, rfl⟩ := map_eq_some_iff.mp hn'
    simpa [renumber] using h.paired _ n hn
  best i n' c' d' hn' hc' hd' := by
    rw [getElem?_pruned] at hn'
    obtain ⟨n, hn, rfl⟩ := map_eq_some_iff.mp hn'
    obtain ⟨c, hc, rfl⟩ := map_eq_some_iff.mp hc'
    obtain ⟨d, hd, rfl⟩ := map_eq_some_iff.mp hd'
    have hkc := (h.link_ge hn).1 c hc
    have hkd := (h.link_ge hn).2 d hd
    rw [parentOf_pruned, h.below_pruned, Nat.sub_add_cancel (by omega),
      Nat.sub_add_cancel (by omega)]
    exact h.best _ n c d hn hc hd

end WellFormed

/-! ### Cut stores -/

section Cut

variable {k : ℕ} {u p : Store}

/-- The nodes of `p` are those of `u` from index `k` on, with their indices
shifted. -/
structure CutFrom (k : ℕ) (u p : Store) : Prop where
  length : u.nodes.length = p.nodes.length + k
  justifiedEpoch : p.justifiedEpoch = u.justifiedEpoch
  finalizedEpoch : p.finalizedEpoch = u.finalizedEpoch
  parentOf : ∀ c q, p.parentOf c = some q ↔ u.parentOf (c + k) = some (q + k)
  rootAt : ∀ i, p.rootAt i = u.rootAt (i + k)
  epochsAt : ∀ i, p.epochsAt i = u.epochsAt (i + k)
  weightAt : ∀ i, p.weightAt i = u.weightAt (i + k)
  links : Embeds (· + k) u.links p.links

theorem links_pruned (h : u.WellFormed) (k : ℕ) : Embeds (· + k) u.links (u.pruned k).links := by
  intro i
  simp only [Store.links, getElem?_pruned]
  cases hn : u.nodes[i + k]? with
  | none => rfl
  | some n =>
    obtain ⟨hc, hd⟩ := h.link_ge hn
    simp only [map_some, bind_some, link, renumber]
    cases hbc : n.bestChild with
    | none => rfl
    | some c =>
      cases hbd : n.bestDescendant with
      | none => rfl
      | some d =>
        have hkc := hc c hbc
        have hkd := hd d hbd
        simp only [map_some, Prod.map_apply, some.injEq, Prod.mk.injEq]
        omega

theorem WellFormed.cutFrom_pruned (h : u.WellFormed) (hk : k ≤ u.nodes.length) :
    CutFrom k u (u.pruned k) where
  length := by
    simp only [Store.pruned, length_map, length_drop]
    omega
  justifiedEpoch := rfl
  finalizedEpoch := rfl
  parentOf _ _ := parentOf_pruned
  rootAt := rootAt_pruned u k
  epochsAt := epochsAt_pruned u k
  weightAt := weightAt_pruned u k
  links := links_pruned h k

namespace CutFrom

variable (h : CutFrom k u p)

include h

theorem viableAt : p.viableAt = u.viableAt ∘ (· + k) := by
  funext i
  rw [comp_apply, viableAt_eq, viableAt_eq, h.epochsAt, h.justifiedEpoch, h.finalizedEpoch]

theorem keyAt : p.keyAt = u.keyAt ∘ (· + k) := by
  funext i
  rw [comp_apply, keyAt_eq, keyAt_eq, h.weightAt, h.rootAt]

theorem embedding (hu : u.WellFormed) :
    Embedding (· + k) u.parentOf p.parentOf where
  inj := add_left_injective k
  parent_iff := h.parentOf
  closed c q hc := by
    have hlt := hu.parentOf_lt hc
    exact ⟨c - k, by omega⟩

theorem below (hu : u.WellFormed) {d a : ℕ} :
    Below p.parentOf d a ↔ Below u.parentOf (d + k) (a + k) :=
  below_shift h.parentOf fun _ _ hc => hu.parentOf_lt hc

end CutFrom

end Cut

theorem prune_of_lt {k : ℕ} (hr : s.nodesIndices[r]? = some k)
    (hk : k < s.pruneThreshold) : prune r s = .ok () s := by
  simp only [prune, get_bind, hr, hk, if_true, pure_apply]

theorem prune_of_none (hr : s.nodesIndices[r]? = none) :
    prune r s = .error .unknownFinalizedRoot s := by
  simp only [prune, get_bind, hr, throw_apply]

theorem prune_eq (h : s.WellFormed) {k : ℕ} (hr : s.nodesIndices[r]? = some k)
    (hk : s.pruneThreshold ≤ k) : prune r s = .ok () (s.pruned k) := by
  have hlen := h.lt_length_of_nodesIndices hr
  have hdelete := deleteRoots_eq k 0 s (by omega)
  simp only [prune, get_bind, hr, hk.not_gt, if_false]
  rw [bind_ok hdelete]
  simp only [get_bind, hlen.not_ge, if_false, set_bind, List.drop_zero]
  have hge : ∀ m ∈ s.nodes.drop k,
      (∀ c, m.bestChild = some c → k ≤ c) ∧ (∀ d, m.bestDescendant = some d → k ≤ d) := by
    intro m hm
    obtain ⟨i, hi⟩ := getElem?_of_mem hm
    rw [getElem?_drop] at hi
    have hlink := h.link_ge hi
    exact ⟨fun c hc => by have := hlink.1 c hc; omega, fun d hd => by have := hlink.2 d hd; omega⟩
  have hrenumber := renumberNodes_eq (s.nodes.drop k) [] { s with
      nodes := s.nodes.drop k
      nodesIndices := (((s.nodes.take k).map root).foldl
        (fun m r => m.erase r) s.nodesIndices).map fun _ v => v - k }
    rfl (fun m hm => (hge m hm).1) (fun m hm => (hge m hm).2)
  rw [length_drop] at hrenumber
  exact hrenumber

end Store

end Vanguard.ProtoArray
