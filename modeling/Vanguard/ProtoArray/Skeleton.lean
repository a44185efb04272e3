import Vanguard.ProtoArray.Accounting

/-!
The blocks of a store without their weights and links.

Which blocks a store holds, and in which order, does not depend on calls of
`Head`: a well-formed store is determined by its blocks, its weights, its
links and its marks, and only insertion and pruning change the blocks.
-/

namespace Vanguard.ProtoArray

open Forest BestChild

/-- A node as it is inserted: without weight and links. -/
def Node.bare (n : Node) : Node :=
  { n with weight := 0, bestChild := none, bestDescendant := none }

namespace Store

variable {s s' : Store}

def blocks (s : Store) : List Node := s.nodes.map Node.bare

section

variable (s)

@[simp] theorem length_blocks : s.blocks.length = s.nodes.length := by
  simp [blocks]

theorem getElem?_blocks (i : ℕ) : s.blocks[i]? = s.nodes[i]?.map Node.bare := by
  simp [blocks]

@[simp] theorem blocks_relink (best : Links ℕ) : (s.relink best).blocks = s.blocks := by
  apply List.ext_getElem?
  intro i
  cases h : s.nodes[i]? <;> simp [getElem?_blocks, h]
  rfl

@[simp] theorem blocks_reweigh (weight : ℕ → Gwei) : (s.reweigh weight).blocks = s.blocks := by
  apply List.ext_getElem?
  intro i
  cases h : s.nodes[i]? <;> simp [getElem?_blocks, h]
  rfl

theorem blocks_inserted (n : Node) : (s.inserted n).blocks = s.blocks ++ [n.bare] := by
  rw [inserted, blocks_relink]
  simp [blocks, append]

theorem blocks_pruned (k : ℕ) : (s.pruned k).blocks = (s.blocks.drop k).map (Node.renumber k) := by
  simp only [blocks, pruned, List.map_map, List.map_drop]
  rfl

/-! ### Views of a store that depend on its blocks only -/

theorem parentOf_eq_blocks (i : ℕ) : s.parentOf i = s.blocks[i]?.bind Node.parent := by
  rw [getElem?_blocks, parentOf]
  cases s.nodes[i]? <;> rfl

theorem rootAt_eq_blocks (i : ℕ) : s.rootAt i = s.blocks[i]?.map Node.root := by
  rw [getElem?_blocks, rootAt]
  cases s.nodes[i]? <;> rfl

theorem epochsAt_eq_blocks (i : ℕ) :
    s.epochsAt i = s.blocks[i]?.map fun n => (n.justifiedEpoch, n.finalizedEpoch) := by
  rw [getElem?_blocks, epochsAt]
  cases s.nodes[i]? <;> rfl

end

section

variable (h : s'.blocks = s.blocks)

include h

theorem length_congr : s'.nodes.length = s.nodes.length := by
  rw [← length_blocks, ← length_blocks, h]

theorem parentOf_congr : s'.parentOf = s.parentOf := by
  funext i
  rw [parentOf_eq_blocks, parentOf_eq_blocks, h]

theorem rootAt_congr : s'.rootAt = s.rootAt := by
  funext i
  rw [rootAt_eq_blocks, rootAt_eq_blocks, h]

theorem epochsAt_congr : s'.epochsAt = s.epochsAt := by
  funext i
  rw [epochsAt_eq_blocks, epochsAt_eq_blocks, h]

theorem carriesTo_congr : s'.carriesTo = s.carriesTo := by
  funext i
  have hr := congrFun (rootAt_congr h) i
  by_cases hz : s.rootAt i = some zeroHash
  · rw [carriesTo_eq_none_of_rootAt hz, carriesTo_eq_none_of_rootAt (hr.trans hz)]
  · rw [carriesTo_eq_parentOf hz, carriesTo_eq_parentOf (hr ▸ hz), parentOf_congr h]

end

theorem WellFormed.nodesIndices_congr (hs : s.WellFormed) (hs' : s'.WellFormed)
    (h : s'.blocks = s.blocks) : s'.nodesIndices = s.nodesIndices := by
  apply Std.ExtTreeMap.ext_getElem?
  intro r
  apply Option.ext
  intro i
  rw [hs'.rootAt_iff, hs.rootAt_iff, rootAt_congr h]

theorem WellFormed.countsFor_of_blocks (hs : s.WellFormed) (hs' : s'.WellFormed)
    (h : s'.blocks = s.blocks) : s'.CountsFor = s.CountsFor :=
  countsFor_congr (hs.nodesIndices_congr hs' h) (carriesTo_congr h)

end Store

namespace ForkChoice

variable {f g : ForkChoice}

/-! ### How calls change the blocks -/

@[simp] theorem blocks_headed (f : ForkChoice) (je fe : Epoch) (balances : List Gwei) :
    (f.headed je fe balances).store.blocks = f.store.blocks := by
  simp only [headed, Store.swept, Store.reweighed, Store.blocks_relink, Store.blocks_reweigh]
  rfl

theorem blocks_head (h : f.store.WellFormed) (ctx : Ctx) (je : Epoch) (r : Root)
    (balances : List Gwei) (fe : Epoch) :
    (f.step (.head ctx je r balances fe)).store.blocks = f.store.blocks := by
  obtain ⟨m, hm⟩ := step_head h ctx je r balances fe
  rw [hm]
  exact blocks_headed f je fe balances

theorem pruneThreshold_step (h : f.store.WellFormed) (op : Op) :
    (f.step op).store.pruneThreshold = f.store.pruneThreshold := by
  cases op with
  | processBlock slot r p g je fe =>
    rw [step_processBlock h]
    dsimp only
    split <;> rfl
  | processAttestation vs r target => rfl
  | prune r =>
    rw [step_prune h]
    dsimp only [prunedAt]
    split
    · rfl
    · split <;> rfl
  | head ctx je r balances fe =>
    obtain ⟨m, hm⟩ := step_head h ctx je r balances fe
    rw [hm]
    rfl

theorem blocks_step_congr (hf : f.store.WellFormed) (hg : g.store.WellFormed)
    (hb : g.store.blocks = f.store.blocks)
    (ht : g.store.pruneThreshold = f.store.pruneThreshold) (op : Op) :
    (g.step op).store.blocks = (f.step op).store.blocks := by
  have hi := hf.nodesIndices_congr hg hb
  cases op with
  | processBlock slot r p g' je fe =>
    have hn : g.store.newNode slot r p g' je fe = f.store.newNode slot r p g' je fe := by
      simp [Store.newNode, hi]
    rw [step_processBlock hf, step_processBlock hg, hi, hn]
    dsimp only
    split
    · exact hb
    · rw [Store.blocks_inserted, Store.blocks_inserted, hb]
  | processAttestation vs r target => exact hb
  | prune r =>
    rw [step_prune hf, step_prune hg]
    dsimp only [prunedAt]
    rw [hi, ht]
    split
    · exact hb
    · split
      · exact hb
      · rw [Store.blocks_pruned, Store.blocks_pruned, hb]
  | head ctx je r balances fe => rw [blocks_head hf, blocks_head hg, hb]

end ForkChoice

end Vanguard.ProtoArray
