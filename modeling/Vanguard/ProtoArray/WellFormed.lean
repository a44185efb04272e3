import Vanguard.Lib.BestChild
import Vanguard.Lib.TreeMap
import Vanguard.ProtoArray.ForkChoice

/-!
The representation invariant of the proto-array, and views of the array as a
forest with best-child links.

The array fixes a forest on the node indices (`parentOf`), best-child links
on it (`links`), which nodes are viable (`viableAt`) and how siblings are
compared (`keyAt`). Operations that touch nothing but links are described by
`relink`, those that touch nothing but weights by `reweigh`.
-/

namespace Vanguard.ProtoArray

open Forest BestChild List Option Std.ExtTreeMap Node

/-- The two link fields of a node, where both are set. -/
def Node.link (n : Node) : Option (ℕ × ℕ) :=
  match n.bestChild, n.bestDescendant with
  | some c, some d => some (c, d)
  | _, _ => none

def Node.withLink (n : Node) (l : Option (ℕ × ℕ)) : Node :=
  { n with bestChild := l.map Prod.fst, bestDescendant := l.map Prod.snd }

variable (n : Node)

section

variable (l : Option (ℕ × ℕ))

@[simp] theorem Node.link_withLink : (n.withLink l).link = l := by
  cases l <;> rfl

@[simp] theorem Node.parent_withLink : (n.withLink l).parent = n.parent := rfl

@[simp] theorem Node.root_withLink : (n.withLink l).root = n.root := rfl

@[simp] theorem Node.weight_withLink : (n.withLink l).weight = n.weight := rfl

end

theorem Node.withLink_link {n : Node} (h : n.bestChild = none ↔ n.bestDescendant = none) :
    n.withLink n.link = n := by
  obtain ⟨_, _, _, _, _, _, bestChild, bestDescendant, _⟩ := n
  cases bestChild <;> cases bestDescendant <;> simp_all [withLink, link]

namespace Store

def parentOf (s : Store) (i : ℕ) : Option ℕ := s.nodes[i]?.bind parent

/-- The best child and best descendant of the node at an index. -/
def links (s : Store) : Links ℕ := fun i => s.nodes[i]?.bind link

/-- Whether there is a node at an index that is viable for head. -/
def viableAt (s : Store) (i : ℕ) : Bool := (s.nodes[i]?.map s.viableForHead).getD false

/-- What siblings are compared by: the weight, and then the root. -/
def keyAt (s : Store) (i : ℕ) : ℕ ×ₗ ℕ :=
  toLex ((s.nodes[i]?.map fun n => (n.weight.toNat, n.root.toNat)).getD (0, 0))

def weightAt (s : Store) (i : ℕ) : Gwei := (s.nodes[i]?.map Node.weight).getD 0

def rootAt (s : Store) (i : ℕ) : Option Root := s.nodes[i]?.map root

def epochsAt (s : Store) (i : ℕ) : Option (Epoch × Epoch) :=
  s.nodes[i]?.map fun n => (n.justifiedEpoch, n.finalizedEpoch)

/-- Where the delta of the node at an index is propagated to: nowhere from
the alias of the genesis block. -/
def carriesTo (s : Store) (i : ℕ) : Option ℕ :=
  s.nodes[i]?.bind fun n => if n.root = zeroHash then none else n.parent

/-- The representation invariant: the index map lists exactly the positions
of the roots, parents come before their children, and the two links are set
together, to a child and into that child's subtree. -/
structure WellFormed (s : Store) : Prop where
  indices : ∀ r i, s.nodesIndices[r]? = some i ↔ ∃ n : Node, s.nodes[i]? = some n ∧ n.root = r
  parent_lt : ∀ (i : ℕ) (n : Node) (p : ℕ), s.nodes[i]? = some n → n.parent = some p → p < i
  paired : ∀ (i : ℕ) (n : Node), s.nodes[i]? = some n →
    (n.bestChild = none ↔ n.bestDescendant = none)
  best : ∀ (i : ℕ) (n : Node) (c d : ℕ), s.nodes[i]? = some n →
    n.bestChild = some c → n.bestDescendant = some d →
    s.parentOf c = some i ∧ Below s.parentOf d c

def relink (s : Store) (best : Links ℕ) : Store :=
  { s with nodes := s.nodes.mapIdx fun i n => n.withLink (best i) }

def reweigh (s : Store) (weight : ℕ → Gwei) : Store :=
  { s with nodes := s.nodes.mapIdx fun i n => { n with weight := weight i } }

theorem viableAt_eq (s : Store) (i : ℕ) :
    s.viableAt i = ((s.epochsAt i).map fun e =>
      (s.justifiedEpoch == e.1 || s.justifiedEpoch == 0) &&
        (s.finalizedEpoch == e.2 || s.finalizedEpoch == 0)).getD false := by
  rw [viableAt, epochsAt]
  cases s.nodes[i]? <;> rfl

theorem keyAt_eq (s : Store) (i : ℕ) :
    s.keyAt i = toLex ((s.weightAt i).toNat, ((s.rootAt i).map BitVec.toNat).getD 0) := by
  rw [keyAt, weightAt, rootAt]
  cases s.nodes[i]? <;> rfl

variable {c p : ℕ} {best : Links ℕ} {i : ℕ}

theorem parentOf_eq_some {s : Store} :
    s.parentOf c = some p ↔ ∃ n, s.nodes[c]? = some n ∧ n.parent = some p := by
  simp [parentOf, bind_eq_some_iff]

theorem parentOf_of_carriesTo {s : Store} (h : s.carriesTo c = some p) : s.parentOf c = some p := by
  simp only [carriesTo, bind_eq_some_iff] at h
  obtain ⟨n, hn, hp⟩ := h
  split at hp
  · exact absurd hp (by simp)
  · exact parentOf_eq_some.mpr ⟨n, hn, hp⟩

theorem lt_length_of_parentOf {s : Store} (h : s.parentOf c = some p) : c < s.nodes.length := by
  obtain ⟨n, hn, -⟩ := parentOf_eq_some.mp h
  exact (List.getElem?_eq_some_iff.mp hn).1

theorem lt_length_of_below {s : Store} {d a : ℕ} (h : Below s.parentOf d a)
    (ha : a < s.nodes.length) : d < s.nodes.length := by
  rcases below_iff_parent.mp h with rfl | ⟨p, hp, -⟩
  · exact ha
  · exact lt_length_of_parentOf hp

/-! ### Reading a relinked or reweighed store -/

section

variable (s : Store) (best : Links ℕ)

@[simp] theorem length_relink : (s.relink best).nodes.length = s.nodes.length := by
  simp [relink]

@[simp] theorem getElem?_relink (i : ℕ) :
    (s.relink best).nodes[i]? = s.nodes[i]?.map fun n => n.withLink (best i) := by
  simp [relink]

@[simp] theorem nodesIndices_relink : (s.relink best).nodesIndices = s.nodesIndices := rfl

@[simp] theorem parentOf_relink : (s.relink best).parentOf = s.parentOf := by
  funext i
  cases h : s.nodes[i]? <;> simp [parentOf, h]

theorem viableForHead_relink : (s.relink best).viableForHead = s.viableForHead := rfl

@[simp] theorem viableAt_relink : (s.relink best).viableAt = s.viableAt := by
  funext i
  cases h : s.nodes[i]? <;> simp [viableAt, h, viableForHead_relink]
  rfl

@[simp] theorem keyAt_relink : (s.relink best).keyAt = s.keyAt := by
  funext i
  cases h : s.nodes[i]? <;> simp [keyAt, h]

@[simp] theorem rootAt_relink : (s.relink best).rootAt = s.rootAt := by
  funext i
  cases h : s.nodes[i]? <;> simp [rootAt, h]

@[simp] theorem epochsAt_relink : (s.relink best).epochsAt = s.epochsAt := by
  funext i
  cases h : s.nodes[i]? <;> simp [epochsAt, h, withLink]

@[simp] theorem weightAt_relink : (s.relink best).weightAt = s.weightAt := by
  funext i
  cases h : s.nodes[i]? <;> simp [weightAt, h]

end

theorem links_relink {s : Store} (hs : Sound s.parentOf best)
    (hlt : ∀ (i : ℕ) (n : Node) (p : ℕ), s.nodes[i]? = some n → n.parent = some p → p < i) :
    (s.relink best).links = best := by
  funext i
  cases h : s.nodes[i]? with
  | some n => simp [links, h]
  | none =>
    -- no node at `i`, so nothing has `i` as its parent
    cases hb : best i with
    | none => simp [links, h]
    | some bd =>
      obtain ⟨b, d⟩ := bd
      have hbi := (hs i b d hb).1
      obtain ⟨n, hn, hp⟩ := parentOf_eq_some.mp hbi
      have hlt' := hlt b n i hn hp
      have hlen := lt_length_of_parentOf hbi
      rw [List.getElem?_eq_none_iff] at h
      omega

section

variable (s : Store) (weight : ℕ → Gwei)

@[simp] theorem length_reweigh : (s.reweigh weight).nodes.length = s.nodes.length := by
  simp [reweigh]

@[simp] theorem getElem?_reweigh (i : ℕ) :
    (s.reweigh weight).nodes[i]? = s.nodes[i]?.map fun n => { n with weight := weight i } := by
  simp [reweigh]

@[simp] theorem nodesIndices_reweigh : (s.reweigh weight).nodesIndices = s.nodesIndices := rfl

@[simp] theorem parentOf_reweigh : (s.reweigh weight).parentOf = s.parentOf := by
  funext i
  cases h : s.nodes[i]? <;> simp [parentOf, h]

@[simp] theorem links_reweigh : (s.reweigh weight).links = s.links := by
  funext i
  cases h : s.nodes[i]? <;> simp [links, h, link]

@[simp] theorem rootAt_reweigh : (s.reweigh weight).rootAt = s.rootAt := by
  funext i
  cases h : s.nodes[i]? <;> simp [rootAt, h]

@[simp] theorem epochsAt_reweigh : (s.reweigh weight).epochsAt = s.epochsAt := by
  funext i
  cases h : s.nodes[i]? <;> simp [epochsAt, h]

end

theorem weightAt_reweigh {s : Store} (weight : ℕ → Gwei) (hi : i < s.nodes.length) :
    (s.reweigh weight).weightAt i = weight i := by
  rw [weightAt, getElem?_reweigh, getElem?_eq_getElem hi]
  rfl

theorem reweigh_weightAt (s : Store) : s.reweigh s.weightAt = s := by
  have hnodes : s.nodes.mapIdx (fun i n => { n with weight := s.weightAt i }) = s.nodes := by
    apply List.ext_getElem?
    intro i
    cases h : s.nodes[i]? <;> simp [h, weightAt]
  simp [reweigh, hnodes]

theorem reweigh_congr {s : Store} {weight weight' : ℕ → Gwei}
    (h : ∀ i < s.nodes.length, weight i = weight' i) : s.reweigh weight = s.reweigh weight' := by
  simp only [reweigh, Store.mk.injEq, true_and, and_true]
  apply List.ext_getElem?
  intro i
  simp only [getElem?_mapIdx]
  cases hi : s.nodes[i]? with
  | none => rfl
  | some n => simp [h i (List.getElem?_eq_some_iff.mp hi).1]

/-! ### Consequences of the invariant -/

namespace WellFormed

variable {s : Store}

variable (h : s.WellFormed)

include h

theorem parentOf_lt (hc : s.parentOf c = some p) : p < c := by
  obtain ⟨n, hn, hp⟩ := parentOf_eq_some.mp hc
  exact h.parent_lt c n p hn hp

theorem ranked_carriesTo : Ranked s.carriesTo id s.nodes.length where
  rank_lt hc := h.parentOf_lt (parentOf_of_carriesTo hc)
  rank_le hc := (lt_length_of_parentOf (parentOf_of_carriesTo hc)).le

theorem ranked : Ranked s.parentOf id s.nodes.length where
  rank_lt hc := h.parentOf_lt hc
  rank_le hc := (lt_length_of_parentOf hc).le

theorem sound : Sound s.parentOf s.links := by
  intro i b d hi
  simp only [links, bind_eq_some_iff] at hi
  obtain ⟨n, hn, hlink⟩ := hi
  unfold link at hlink
  split at hlink
  · rename_i c d' hc hd
    obtain ⟨rfl, rfl⟩ := Prod.mk.inj (some.inj hlink)
    exact h.best i n _ _ hn hc hd
  · exact absurd hlink (by simp)

theorem congr {s' : Store} (hn : s'.nodes = s.nodes)
    (hi : s'.nodesIndices = s.nodesIndices) : s'.WellFormed := by
  have hp : s'.parentOf = s.parentOf := by
    funext i
    simp [parentOf, hn]
  constructor
  · simpa [hn, hi] using h.indices
  · simpa [hn] using h.parent_lt
  · simpa [hn] using h.paired
  · simpa [hn, hp] using h.best

theorem relink_links : s.relink s.links = s := by
  have hnodes : s.nodes.mapIdx (fun i n => n.withLink (s.links i)) = s.nodes := by
    apply List.ext_getElem?
    intro i
    simp only [getElem?_mapIdx]
    cases hi : s.nodes[i]? with
    | none => rfl
    | some n => simp [links, hi, withLink_link (h.paired i n hi)]
  simp [relink, hnodes]

theorem relink (hb : Sound s.parentOf best) :
    (s.relink best).WellFormed where
  indices r i := by
    rw [nodesIndices_relink, h.indices, getElem?_relink]
    simp [withLink]
  parent_lt i n' p hn' hp := by
    rw [getElem?_relink] at hn'
    obtain ⟨n, hn, rfl⟩ := map_eq_some_iff.mp hn'
    exact h.parent_lt i n p hn hp
  paired i n' hn' := by
    rw [getElem?_relink] at hn'
    obtain ⟨n, hn, rfl⟩ := map_eq_some_iff.mp hn'
    simp [withLink]
  best i n' c d hn' hc hd := by
    rw [getElem?_relink] at hn'
    obtain ⟨n, hn, rfl⟩ := map_eq_some_iff.mp hn'
    rw [parentOf_relink]
    obtain ⟨⟨b, d₁⟩, hbi, rfl⟩ := map_eq_some_iff.mp hc
    obtain ⟨⟨b', d₂⟩, hbi', rfl⟩ := map_eq_some_iff.mp hd
    obtain ⟨rfl, rfl⟩ := Prod.mk.inj (some.inj (hbi.symm.trans hbi'))
    exact hb i _ _ hbi

theorem reweigh (weight : ℕ → Gwei) : (s.reweigh weight).WellFormed where
  indices r i := by
    rw [nodesIndices_reweigh, h.indices, getElem?_reweigh]
    simp
  parent_lt i n' p hn' hp := by
    rw [getElem?_reweigh] at hn'
    obtain ⟨n, hn, rfl⟩ := map_eq_some_iff.mp hn'
    exact h.parent_lt i n p hn hp
  paired i n' hn' := by
    rw [getElem?_reweigh] at hn'
    obtain ⟨n, hn, rfl⟩ := map_eq_some_iff.mp hn'
    exact h.paired i n hn
  best i n' c d hn' hc hd := by
    rw [getElem?_reweigh] at hn'
    obtain ⟨n, hn, rfl⟩ := map_eq_some_iff.mp hn'
    rw [parentOf_reweigh]
    exact h.best i n c d hn hc hd

theorem index_unique {j : ℕ} {n m : Node} (hi : s.nodes[i]? = some n)
    (hj : s.nodes[j]? = some m) (hr : n.root = m.root) : i = j := by
  have h₁ := (h.indices n.root i).mpr ⟨n, hi, rfl⟩
  have h₂ := (h.indices n.root j).mpr ⟨m, hj, hr.symm⟩
  exact some.inj (h₁.symm.trans h₂)

theorem contains_iff {r : Root} :
    s.nodesIndices.contains r = true ↔ ∃ (i : ℕ) (n : Node), s.nodes[i]? = some n ∧ n.root = r := by
  rw [TreeMap.contains_iff]
  exact exists_congr fun i => h.indices r i

theorem nodup_roots : (s.nodes.map root).Nodup := by
  rw [nodup_iff_injective_getElem]
  intro ⟨i, hi⟩ ⟨j, hj⟩ heq
  simp only [length_map] at hi hj
  simp only [List.getElem_map] at heq
  have := h.index_unique (getElem?_eq_getElem hi) (getElem?_eq_getElem hj) heq
  simpa using this

theorem lt_length_of_nodesIndices {r : Root}
    (hi : s.nodesIndices[r]? = some i) : i < s.nodes.length := by
  obtain ⟨n, hn, -⟩ := (h.indices r i).mp hi
  exact (List.getElem?_eq_some_iff.mp hn).1

theorem size_nodesIndices : s.nodesIndices.size = s.nodes.length := by
  have hperm : s.nodesIndices.keys.Perm (s.nodes.map root) := by
    rw [perm_ext_iff_of_nodup nodup_keys h.nodup_roots]
    intro r
    rw [Std.ExtTreeMap.mem_keys, ← Std.ExtTreeMap.contains_iff_mem, h.contains_iff]
    rw [List.mem_map]
    constructor
    · rintro ⟨i, n, hn, hr⟩
      exact ⟨n, mem_of_getElem? hn, hr⟩
    · rintro ⟨n, hn, hr⟩
      obtain ⟨i, hi⟩ := getElem?_of_mem hn
      exact ⟨i, n, hi, hr⟩
  rw [← length_keys, hperm.length_eq, length_map]

end WellFormed

end Store

end Vanguard.ProtoArray
