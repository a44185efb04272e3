import Vanguard.ProtoArray.Skeleton

/-!
Votes that arrive before their block.

`computeDeltas` ignores a vote for an unknown block, but rotates it as if it
had been counted. When the block arrives later, the vote is taken for one that
is already in the weights, and it is never added. So it matters whether the
block or the vote comes first, unless the vote would have changed nothing.
-/

namespace Vanguard.ProtoArray

open Forest List Finset Option

variable {i : ℕ}

namespace Store

theorem adjustWeight_zero (w : Gwei) : adjustWeight w 0 = w := by
  simp [adjustWeight]

theorem adjustWeight_zero_eq_zero_iff (delta : SInt) :
    adjustWeight 0 delta = 0 ↔ delta.toInt ≤ 0 := by
  by_cases hneg : delta.toInt < 0
  · have hclamp : adjustWeight 0 delta = 0 := by
      rw [adjustWeight, if_pos hneg, zero_add, if_pos hneg]
    exact iff_of_true hclamp hneg.le
  · rw [adjustWeight, if_neg hneg, zero_add]
    constructor
    · rintro rfl
      exact le_refl (0 : ℤ)
    · intro hle
      have hzero : delta.toInt = 0 := by omega
      exact BitVec.eq_of_toInt_eq hzero

variable {s : Store}

theorem WellFormed.countsFor_newNode (h : s.WellFormed) {b : Root} (hb : b ≠ zeroHash)
    (hnew : s.nodesIndices[b]? = none) (slot : Slot) (parent g : Root) (je fe : Epoch) :
    (s.inserted (s.newNode slot b parent g je fe)).CountsFor b i ↔
      i = s.nodes.length ∨ s.CountsFor parent i := by
  let n := s.newNode slot b parent g je fe
  have hwf : (s.append n).WellFormed := h.append_newNode slot hnew parent g je fe
  have hcounts : (s.inserted n).CountsFor = (s.append n).CountsFor :=
    countsFor_congr rfl (carriesTo_relink _ _)
  have hlookup : (s.append n).nodesIndices[b]? = some s.nodes.length := by
    rw [Store.append, TreeMap.getElem?_insert]
    exact if_pos rfl
  have hroot : (s.append n).rootAt s.nodes.length ≠ some zeroHash := by
    rw [hwf.rootAt_iff.mp hlookup]
    simpa using hb
  have hcarry : (s.append n).carriesTo s.nodes.length = s.nodesIndices[parent]? := by
    rw [carriesTo_eq_parentOf hroot, parentOf_append_length]
    rfl
  have hbelow : ∀ p, s.nodesIndices[parent]? = some p →
      (Below (s.append n).carriesTo p i ↔ Below s.carriesTo p i) := by
    intro p hp
    have hlen := h.lt_length_of_nodesIndices hp
    apply below_congr_of_leaf (n := s.nodes.length)
    · intro x hx
      simp [carriesTo, getElem?_append_of_ne hx]
    · intro x hx
      have h₁ := h.parentOf_lt (parentOf_of_carriesTo hx)
      have h₂ := lt_length_of_parentOf (parentOf_of_carriesTo hx)
      omega
    · omega
  rw [hcounts, CountsFor, hlookup]
  simp only [some.injEq, exists_eq_left']
  rw [below_iff_parent, hcarry, CountsFor]
  refine or_congr eq_comm (exists_congr fun p => and_congr_right fun hp => hbelow p hp)

end Store

namespace ForkChoice

variable {f g : ForkChoice}

/-! ### What later calls depend on -/

/-- Everything that decides the weights from now on. -/
structure SameLedger (f g : ForkChoice) : Prop where
  blocks : g.store.blocks = f.store.blocks
  pruneThreshold : g.store.pruneThreshold = f.store.pruneThreshold
  weightAt : g.store.weightAt = f.store.weightAt
  votes : g.votes = f.votes
  balances : g.balances = f.balances

theorem netDelta_congr (hf : f.store.WellFormed) (hg : g.store.WellFormed)
    (hb : g.store.blocks = f.store.blocks) (hv : g.votes = f.votes)
    (hbal : g.balances = f.balances) (balances : List Gwei) :
    g.netDelta balances = f.netDelta balances := by
  funext i
  have hi := hf.nodesIndices_congr hg hb
  have hd : g.voteDelta balances = f.voteDelta balances := by
    funext j
    simp only [voteDelta, hi, hv, hbal]
  rw [netDelta, netDelta, hd, Store.pushed, Store.pushed, Store.carriesTo_congr hb,
    Store.length_congr hb]

theorem weightAt_step_head (h : f.store.WellFormed) (ctx : Ctx) (je : Epoch) (r : Root)
    (balances : List Gwei) (fe : Epoch) :
    (f.step (.head ctx je r balances fe)).store.weightAt =
      (f.headed je fe balances).store.weightAt := by
  obtain ⟨m, hm⟩ := step_head h ctx je r balances fe
  rw [hm]
  rfl

theorem weightAt_of_length_le {s : Store} (h : s.nodes.length ≤ i) : s.weightAt i = 0 := by
  simp [Store.weightAt, getElem?_eq_none h]

theorem votes_step_head (h : f.store.WellFormed) (ctx : Ctx) (je : Epoch) (r : Root)
    (balances : List Gwei) (fe : Epoch) :
    (f.step (.head ctx je r balances fe)).votes = f.votes.map Vote.rotate ∧
      (f.step (.head ctx je r balances fe)).balances = balances := by
  obtain ⟨m, hm⟩ := step_head h ctx je r balances fe
  rw [hm]
  exact ⟨rfl, rfl⟩

theorem SameLedger.step (hf : f.store.WellFormed) (hg : g.store.WellFormed) (h : SameLedger f g)
    (op : Op) : SameLedger (f.step op) (g.step op) := by
  have hblocks := blocks_step_congr hf hg h.blocks h.pruneThreshold op
  have hthreshold : (g.step op).store.pruneThreshold = (f.step op).store.pruneThreshold := by
    rw [pruneThreshold_step hf, pruneThreshold_step hg, h.pruneThreshold]
  have hi := hf.nodesIndices_congr hg h.blocks
  have hlen := Store.length_congr h.blocks
  cases op with
  | processBlock slot b p g' je fe =>
    rw [step_processBlock hf, step_processBlock hg] at hblocks hthreshold ⊢
    refine ⟨hblocks, hthreshold, ?_, h.votes, h.balances⟩
    have hn : g.store.newNode slot b p g' je fe = f.store.newNode slot b p g' je fe := by
      simp [Store.newNode, hi]
    dsimp only
    rw [hi, hn]
    split
    · exact h.weightAt
    · funext i
      rw [Store.weightAt_inserted, Store.weightAt_inserted, hlen, h.weightAt]
  | processAttestation vs r target =>
    refine ⟨hblocks, hthreshold, h.weightAt, ?_, h.balances⟩
    change recordVotes vs r target g.votes = recordVotes vs r target f.votes
    rw [h.votes]
  | prune r =>
    rw [step_prune hf, step_prune hg] at hblocks hthreshold ⊢
    refine ⟨hblocks, hthreshold, ?_, h.votes, h.balances⟩
    dsimp only [prunedAt]
    rw [hi, h.pruneThreshold]
    split
    · exact h.weightAt
    · split
      · exact h.weightAt
      · funext i
        rw [Store.weightAt_pruned, Store.weightAt_pruned, h.weightAt]
  | head ctx je r balances fe =>
    obtain ⟨hvf, hbf⟩ := votes_step_head hf ctx je r balances fe
    obtain ⟨hvg, hbg⟩ := votes_step_head hg ctx je r balances fe
    refine ⟨hblocks, hthreshold, ?_, by rw [hvf, hvg, h.votes], by rw [hbf, hbg]⟩
    rw [weightAt_step_head hf, weightAt_step_head hg]
    funext i
    by_cases hilen : i < f.store.nodes.length
    · rw [weightAt_headed f je fe balances hilen,
        weightAt_headed g je fe balances (hlen ▸ hilen), Store.rootAt_congr h.blocks, h.weightAt,
        netDelta_congr hf hg h.blocks h.votes h.balances]
    · rw [weightAt_of_length_le (by rw [length_headed]; omega),
        weightAt_of_length_le (by rw [length_headed]; omega)]

theorem SameLedger.run (hf : f.store.WellFormed) (hg : g.store.WellFormed) (h : SameLedger f g)
    (ops : List Op) : SameLedger (f.run ops) (g.run ops) := by
  induction ops generalizing f g with
  | nil => exact h
  | cons op ops ih => exact ih (step_wellFormed hf op) (step_wellFormed hg op) (h.step hf hg op)

/-- Blocks with their weights, in the order of the array. -/
def weighedRoots (f : ForkChoice) : List (Root × Gwei) :=
  f.store.nodes.map fun n => (n.root, n.weight)

theorem getElem?_weighedRoots (f : ForkChoice) (i : ℕ) :
    f.weighedRoots[i]? = (f.store.rootAt i).map fun r => (r, f.store.weightAt i) := by
  rw [weighedRoots, getElem?_map, Store.rootAt, Store.weightAt]
  cases f.store.nodes[i]? <;> rfl

theorem weighedRoots_congr (hb : g.store.blocks = f.store.blocks) :
    g.weighedRoots = f.weighedRoots ↔ ∀ i, g.store.weightAt i = f.store.weightAt i := by
  have hroot := Store.rootAt_congr hb
  constructor
  · intro h i
    have hi := congrArg (fun l => l[i]?) h
    simp only [getElem?_weighedRoots, hroot] at hi
    cases hr : f.store.rootAt i with
    | none =>
      have hnone : ∀ t : Store, t.rootAt i = none → t.weightAt i = 0 := by
        intro t ht
        simp [Store.weightAt, Option.map_eq_none_iff.mp ht]
      rw [hnone _ hr, hnone _ (by rw [hroot]; exact hr)]
    | some r =>
      rw [hr] at hi
      exact (Prod.mk.inj (some.inj hi)).2
  · intro h
    apply ext_getElem?
    intro i
    rw [getElem?_weighedRoots, getElem?_weighedRoots, hroot, h i]

/-! ### The late block -/

/-- What the votes for the block `b` would add to it: the new balances of
those that are for it now, without the old balances of those that were. -/
def deltaFor (f : ForkChoice) (balances : List Gwei) (b : Root) : SInt :=
  ∑ v ∈ Finset.range f.votes.length,
    ((if (f.voteAt v).nextRoot = b then balanceAt balances v else 0) -
      (if (f.voteAt v).currentRoot = b then balanceAt f.balances v else 0))

section Insertion

variable {slot : Slot} {b parent graffiti : Root} {je fe : Epoch} {block : Op}
  (hblock : block = .processBlock slot b parent graffiti je fe)

include hblock

section

variable (h : f.store.WellFormed) (hnew : f.store.nodesIndices[b]? = none)

include h hnew

theorem step_processBlock_new :
    f.step block =
      { f with store := f.store.inserted (f.store.newNode slot b parent graffiti je fe) } := by
  subst hblock
  have hcontains : f.store.nodesIndices.contains b = false := TreeMap.contains_eq_false_iff.mpr hnew
  rw [step_processBlock h, hcontains]
  rfl

theorem length_step_block : (f.step block).store.nodes.length = f.store.nodes.length + 1 := by
  rw [step_processBlock_new hblock h hnew]
  simp [Store.inserted, Store.append]

theorem rootAt_step_block
    (i : ℕ) : (f.step block).store.rootAt i =
      if i = f.store.nodes.length then some b else f.store.rootAt i := by
  rw [step_processBlock_new hblock h hnew]
  dsimp only
  rw [Store.rootAt_inserted]
  rfl

end

open Classical in
theorem netDelta_processBlock (h : f.store.WellFormed)
    (hnew : f.store.nodesIndices[b]? = none) (balances : List Gwei)
    (hi : i < f.store.nodes.length) (hz : f.store.rootAt i ≠ some zeroHash) :
    (f.step block).netDelta balances i =
      f.netDelta balances i +
        if b ≠ zeroHash ∧ f.store.CountsFor parent i then f.deltaFor balances b else 0 := by
  have hwf := step_wellFormed h block
  have hlen := length_step_block hblock h hnew
  have hroot := rootAt_step_block hblock h hnew i
  rw [if_neg (by omega)] at hroot
  rw [step_processBlock_new hblock h hnew] at hwf hlen hroot ⊢
  have hnot : ¬ f.store.CountsFor b i := by simp [Store.CountsFor, hnew]
  -- a vote counts as before, or it is for the new block
  have hsplit : ∀ (r : Root) (x : SInt),
      (if (f.store.inserted (f.store.newNode slot b parent graffiti je fe)).CountsFor r i
        then x else 0) =
      (if f.store.CountsFor r i then x else 0) +
        if b ≠ zeroHash ∧ f.store.CountsFor parent i then (if r = b then x else 0) else 0 := by
    intro r x
    by_cases hr : r = b
    · subst hr
      rw [if_neg hnot, zero_add, if_pos rfl]
      refine if_congr ?_ rfl rfl
      by_cases hr : r = zeroHash
      · have hzero := hwf.not_countsFor_zeroHash (show _ ≠ _ by rw [hroot]; exact hz)
        rw [← hr] at hzero
        exact iff_of_false hzero fun hc => hc.1 hr
      · rw [h.countsFor_newNode hr hnew]
        simp [hr, Nat.ne_of_lt hi]
    · rw [if_neg hr, ite_self, add_zero]
      exact if_congr (h.countsFor_inserted hr) rfl rfl
  rw [netDelta_eq hwf balances (by omega) (by rw [hroot]; exact hz), netDelta_eq h balances hi hz]
  simp only [hsplit, deltaFor, voteAt]
  split
  · rw [← sum_add_distrib]
    apply sum_congr rfl
    intro v _
    exact add_sub_add_comm _ _ _ _
  · simp only [add_zero]

theorem netDelta_newNode (h : f.store.WellFormed) (hb : b ≠ zeroHash)
    (hnew : f.store.nodesIndices[b]? = none) (balances : List Gwei) :
    (f.step block).netDelta balances f.store.nodes.length =
      f.deltaFor balances b := by
  classical
  have hwf := step_wellFormed h block
  have hlen := length_step_block hblock h hnew
  have hroot := rootAt_step_block hblock h hnew f.store.nodes.length
  rw [if_pos rfl] at hroot
  rw [step_processBlock_new hblock h hnew] at hwf hlen hroot ⊢
  have hcounts : ∀ r, (f.store.inserted
      (f.store.newNode slot b parent graffiti je fe)).CountsFor r f.store.nodes.length ↔ r = b := by
    intro r
    by_cases hr : r = b
    · subst hr
      rw [h.countsFor_newNode hb hnew]
      simp
    · rw [h.countsFor_inserted hr]
      refine iff_of_false (fun hc => ?_) hr
      exact absurd (h.lt_length_of_countsFor hc) (lt_irrefl _)
  rw [netDelta_eq hwf balances (by omega) (by rw [hroot]; simpa using hb)]
  apply sum_congr rfl
  intro v _
  congr 1 <;> exact if_congr (hcounts _) rfl rfl

/-- `Head` first: the new block has no weight, the others are adjusted
without its votes. -/
theorem weightAt_late (h : f.store.WellFormed) (hnew : f.store.nodesIndices[b]? = none)
    (ctx : Ctx) (j : Epoch) (r : Root) (balances : List Gwei) (fin : Epoch) (i : ℕ) :
    ((f.step (.head ctx j r balances fin)).step
        block).store.weightAt i =
      if i = f.store.nodes.length then 0
      else if i < f.store.nodes.length ∧ f.store.rootAt i ≠ some zeroHash then
        Store.adjustWeight (f.store.weightAt i) (f.netDelta balances i)
      else f.store.weightAt i := by
  have hwf := step_wellFormed h (.head ctx j r balances fin)
  have hblocks := blocks_head h ctx j r balances fin
  have hnew' : (f.step (.head ctx j r balances fin)).store.nodesIndices[b]? = none := by
    rw [h.nodesIndices_congr hwf hblocks]
    exact hnew
  rw [step_processBlock_new hblock hwf hnew']
  dsimp only
  rw [Store.weightAt_inserted, Store.length_congr hblocks, weightAt_step_head h]
  split
  · rfl
  · by_cases hi : i < f.store.nodes.length
    · rw [weightAt_headed f j fin balances hi]
      by_cases hz : f.store.rootAt i = some zeroHash <;> simp [hi, hz]
    · rw [weightAt_of_length_le (by rw [length_headed]; omega), if_neg fun hc => hi hc.1,
        weightAt_of_length_le (by omega)]

open Classical in
theorem weightAt_early (h : f.store.WellFormed) (hnew : f.store.nodesIndices[b]? = none)
    (ctx : Ctx) (j : Epoch) (r : Root) (balances : List Gwei) (fin : Epoch) (i : ℕ) :
    ((f.step block).step
        (.head ctx j r balances fin)).store.weightAt i =
      if i = f.store.nodes.length then
        if b = zeroHash then 0 else Store.adjustWeight 0 (f.deltaFor balances b)
      else if i < f.store.nodes.length ∧ f.store.rootAt i ≠ some zeroHash then
        Store.adjustWeight (f.store.weightAt i) (f.netDelta balances i +
          if b ≠ zeroHash ∧ f.store.CountsFor parent i then f.deltaFor balances b else 0)
      else f.store.weightAt i := by
  have hwf := step_wellFormed h block
  have hlen := length_step_block hblock h hnew
  have hroot := rootAt_step_block hblock h hnew i
  have hweight : (f.step block).store.weightAt i =
      if i = f.store.nodes.length then 0 else f.store.weightAt i := by
    rw [step_processBlock_new hblock h hnew]
    exact Store.weightAt_inserted _ _ _
  rw [weightAt_step_head hwf]
  by_cases hi : i = f.store.nodes.length
  · rw [weightAt_headed _ j fin balances (by omega), hroot, hweight]
    simp only [if_pos hi, some.injEq]
    split
    · rfl
    · rename_i hb
      rw [hi, netDelta_newNode hblock h hb hnew]
  · by_cases hlt : i < f.store.nodes.length
    · rw [weightAt_headed _ j fin balances (by omega), hroot, hweight]
      simp only [if_neg hi]
      by_cases hz : f.store.rootAt i = some zeroHash
      · simp [hz]
      · rw [if_neg hz, if_pos ⟨hlt, hz⟩, netDelta_processBlock hblock h hnew balances hlt hz]
    · rw [weightAt_of_length_le (by rw [length_headed]; omega), if_neg hi,
        if_neg fun hc => hlt hc.1, weightAt_of_length_le (by omega)]

end Insertion

/-- A second `Head` with the same balances changes no weight. -/
theorem weightAt_head_idle (h : f.store.WellFormed)
    (hvotes : ∀ v, (f.voteAt v).currentRoot = (f.voteAt v).nextRoot) (ctx : Ctx) (j : Epoch)
    (r : Root) (fin : Epoch) :
    (f.step (.head ctx j r f.balances fin)).store.weightAt = f.store.weightAt := by
  have hdelta : f.voteDelta f.balances = fun _ => 0 := by
    funext i
    apply Finset.sum_eq_zero
    intro v _
    have hv : (f.votes.getD v Vote.fresh).currentRoot = (f.votes.getD v Vote.fresh).nextRoot :=
      hvotes v
    unfold contribution
    split
    · rfl
    · rw [hv, sub_self]
  rw [weightAt_step_head h]
  funext i
  by_cases hi : i < f.store.nodes.length
  · have hnet : f.netDelta f.balances i = 0 := by
      rw [netDelta, hdelta, h.pushed_eq _ hi, sum_const_zero]
    rw [weightAt_headed f j fin f.balances hi, hnet, Store.adjustWeight_zero, ite_self]
  · rw [weightAt_of_length_le (by rw [length_headed]; omega), weightAt_of_length_le (by omega)]

section Order

variable {slot : Slot} {b parent graffiti : Root} {je fe : Epoch} {balances : List Gwei}
  {ctx₁ ctx₂ : Ctx} {j₁ j₂ fin₁ fin₂ : Epoch} {r₁ r₂ : Root} {block head₁ head₂ : Op}
  (hblock : block = .processBlock slot b parent graffiti je fe)
  (hhead₁ : head₁ = .head ctx₁ j₁ r₁ balances fin₁)
  (hhead₂ : head₂ = .head ctx₂ j₂ r₂ balances fin₂)

include hhead₁ hhead₂

theorem weightAt_head_head (h : f.store.WellFormed) :
    ((f.step head₁).step head₂).store.weightAt = (f.step head₁).store.weightAt := by
  subst hhead₁ hhead₂
  have hbal := (votes_step_head h ctx₁ j₁ r₁ balances fin₁).2
  have hidle := weightAt_head_idle (step_wellFormed h (.head ctx₁ j₁ r₁ balances fin₁))
    (fun v => by rw [voteAt_head h]; rfl) ctx₂ j₂ r₂ fin₂
  rwa [hbal] at hidle

include hblock

section

variable (h : f.store.WellFormed)

include h

theorem weightAt_head_block_head :
    (((f.step head₁).step block).step head₂).store.weightAt =
      ((f.step head₁).step block).store.weightAt := by
  have hwf := step_wellFormed h head₁
  have hadded := step_wellFormed hwf block
  have hbal : ((f.step head₁).step block).balances = balances := by
    rw [hblock, step_processBlock hwf, hhead₁]
    exact (votes_step_head h ctx₁ j₁ r₁ balances fin₁).2
  subst hblock hhead₁ hhead₂
  have hidle := weightAt_head_idle hadded
    (fun v => by rw [voteAt_processBlock hwf, voteAt_head h]; rfl) ctx₂ j₂ r₂ fin₂
  rwa [hbal] at hidle

theorem blocks_orders :
    (f.run [head₁, block, head₂]).store.blocks =
      ((f.step block).run [head₁, head₂]).store.blocks := by
  have hhead := step_wellFormed h head₁
  have hadded := step_wellFormed h block
  subst hblock hhead₁ hhead₂
  simp only [run, foldl_cons, foldl_nil]
  rw [blocks_head (step_wellFormed hhead _), blocks_head (step_wellFormed hadded _),
    blocks_head hadded]
  exact blocks_step_congr h hhead (blocks_head h ctx₁ j₁ r₁ balances fin₁)
    (pruneThreshold_step h _) _

/-- In both orders the same blocks, votes and balances are left, so only
the weights can differ. -/
theorem sameLedger_orders
    (hweights : (f.run [head₁, block, head₂]).store.weightAt =
      ((f.step block).run [head₁, head₂]).store.weightAt) :
    SameLedger ((f.step block).run [head₁, head₂]) (f.run [head₁, block, head₂]) := by
  have hhead := step_wellFormed h head₁
  have hadded := step_wellFormed h block
  have hlate := step_wellFormed hhead block
  have hearly := step_wellFormed hadded head₁
  refine ⟨blocks_orders hblock hhead₁ hhead₂ h, ?_, hweights, ?_, ?_⟩
  · simp only [run, foldl_cons, foldl_nil]
    rw [pruneThreshold_step hlate, pruneThreshold_step hhead, pruneThreshold_step h,
      pruneThreshold_step hearly, pruneThreshold_step hadded, pruneThreshold_step h]
  all_goals
    subst hblock hhead₁ hhead₂
    simp only [run, foldl_cons, foldl_nil]
  · rw [(votes_step_head hlate ctx₂ j₂ r₂ balances fin₂).1,
      (votes_step_head hearly ctx₂ j₂ r₂ balances fin₂).1,
      (votes_step_head hadded ctx₁ j₁ r₁ balances fin₁).1,
      step_processBlock hhead, step_processBlock h]
    exact congrArg _ (votes_step_head h ctx₁ j₁ r₁ balances fin₁).1
  · rw [(votes_step_head hlate ctx₂ j₂ r₂ balances fin₂).2,
      (votes_step_head hearly ctx₂ j₂ r₂ balances fin₂).2]

/-- The second `Head` plays no part in a difference of the weights. -/
theorem weightAt_orders (i : ℕ) :
    (f.run [head₁, block, head₂]).store.weightAt i =
      ((f.step block).run [head₁, head₂]).store.weightAt i ↔
    ((f.step head₁).step block).store.weightAt i =
      ((f.step block).step head₁).store.weightAt i := by
  simp only [run, foldl_cons, foldl_nil]
  rw [weightAt_head_block_head hblock hhead₁ hhead₂ h,
    weightAt_head_head hhead₁ hhead₂ (step_wellFormed h _)]

end

omit hhead₂ in
theorem weights_agree_iff (h : f.store.WellFormed) (hnew : f.store.nodesIndices[b]? = none) :
    (∀ i, ((f.step head₁).step block).store.weightAt i =
        ((f.step block).step head₁).store.weightAt i) ↔
      b = zeroHash ∨ (f.deltaFor balances b).toInt ≤ 0 ∧
        ∀ i, f.store.CountsFor parent i → f.store.rootAt i ≠ some zeroHash →
          Store.adjustWeight (f.store.weightAt i)
              (f.netDelta balances i + f.deltaFor balances b) =
            Store.adjustWeight (f.store.weightAt i) (f.netDelta balances i) := by
  classical
  subst hblock hhead₁
  simp only [weightAt_late rfl h hnew, weightAt_early rfl h hnew]
  constructor
  · intro hall
    by_cases hb : b = zeroHash
    · exact Or.inl hb
    refine Or.inr ⟨?_, ?_⟩
    · have hlen := hall f.store.nodes.length
      rw [if_pos rfl, if_pos rfl, if_neg hb] at hlen
      exact (Store.adjustWeight_zero_eq_zero_iff _).mp hlen.symm
    · intro i hcounts hz
      have hlt := h.lt_length_of_countsFor hcounts
      have hi := hall i
      rw [if_neg (Nat.ne_of_lt hlt), if_neg (Nat.ne_of_lt hlt), if_pos ⟨hlt, hz⟩, if_pos ⟨hlt, hz⟩,
        if_pos ⟨hb, hcounts⟩] at hi
      exact hi.symm
  · intro hcond i
    by_cases hi : i = f.store.nodes.length
    · rw [if_pos hi, if_pos hi]
      split
      · rfl
      · rename_i hb
        exact ((Store.adjustWeight_zero_eq_zero_iff _).mpr (hcond.resolve_left hb).1).symm
    · rw [if_neg hi, if_neg hi]
      split
      · rename_i hlt
        split
        · rename_i hcounts
          exact ((hcond.resolve_left hcounts.1).2 i hcounts.2 hlt.2).symm
        · rw [add_zero]
      · rfl

end Order

/-- A vote and its block commute with `Head` in between exactly if the block
has the zero hash as its root, or the votes for the block add nothing to it
(their net balance is not positive) and change no weight above it. -/
theorem vote_before_block_iff (je₀ fe₀ : Epoch) (finalizedRoot : Root) (ops : List Op)
    (slot : Slot) (b parent graffiti : Root) (je fe : Epoch) (vs : List ℕ) (target : Epoch)
    (balances : List Gwei) (ctx₁ ctx₂ : Ctx) (j₁ j₂ fin₁ fin₂ : Epoch) (r₁ r₂ : Root)
    (hnew : ((ForkChoice.new je₀ fe₀ finalizedRoot).run ops).hasNode b = false) :
    let f := (ForkChoice.new je₀ fe₀ finalizedRoot).run ops
    let voted := f.step (.processAttestation vs b target)
    let late := f.run [.processAttestation vs b target, .head ctx₁ j₁ r₁ balances fin₁,
      .processBlock slot b parent graffiti je fe, .head ctx₂ j₂ r₂ balances fin₂]
    let early := f.run [.processBlock slot b parent graffiti je fe,
      .processAttestation vs b target, .head ctx₁ j₁ r₁ balances fin₁,
      .head ctx₂ j₂ r₂ balances fin₂]
    (late.votes = early.votes ∧
      ∀ later, (late.run later).weighedRoots = (early.run later).weighedRoots) ↔
    b = zeroHash ∨ (voted.deltaFor balances b).toInt ≤ 0 ∧
      ∀ i, f.store.CountsFor parent i → f.store.rootAt i ≠ some zeroHash →
        Store.adjustWeight (f.store.weightAt i)
            (voted.netDelta balances i + voted.deltaFor balances b) =
          Store.adjustWeight (f.store.weightAt i) (voted.netDelta balances i) := by
  intro f voted late early
  have hwf : f.store.WellFormed := run_wellFormed (new_wellFormed je₀ fe₀ finalizedRoot) ops
  have hvoted : voted.store.WellFormed := step_wellFormed hwf _
  have hnone : voted.store.nodesIndices[b]? = none := by
    change f.hasNode b = false at hnew
    rwa [hasNode, TreeMap.contains_eq_false_iff] at hnew
  -- the block and the attestation touch different parts of the object
  have hearly : early = (voted.step (.processBlock slot b parent graffiti je fe)).run
      [.head ctx₁ j₁ r₁ balances fin₁, .head ctx₂ j₂ r₂ balances fin₂] := by
    have hcomm : (f.step (.processBlock slot b parent graffiti je fe)).step
        (.processAttestation vs b target) =
        voted.step (.processBlock slot b parent graffiti je fe) := by
      rw [step_processBlock hvoted, step_processBlock hwf]
      rfl
    change ((f.step (.processBlock slot b parent graffiti je fe)).step
      (.processAttestation vs b target)).run _ = _
    rw [hcomm]
  have hlate : late = voted.run [.head ctx₁ j₁ r₁ balances fin₁,
      .processBlock slot b parent graffiti je fe, .head ctx₂ j₂ r₂ balances fin₂] := rfl
  have hblocks : late.store.blocks = early.store.blocks := by
    rw [hearly, hlate]
    exact blocks_orders rfl rfl rfl hvoted
  have hlwf : late.store.WellFormed := run_wellFormed hwf _
  have hewf : early.store.WellFormed := run_wellFormed hwf _
  have hcond : (∀ i, late.store.weightAt i = early.store.weightAt i) ↔
      ∀ i, ((voted.step (.head ctx₁ j₁ r₁ balances fin₁)).step
          (.processBlock slot b parent graffiti je fe)).store.weightAt i =
        ((voted.step (.processBlock slot b parent graffiti je fe)).step
          (.head ctx₁ j₁ r₁ balances fin₁)).store.weightAt i := by
    rw [hearly, hlate]
    exact forall_congr' fun i => weightAt_orders rfl rfl rfl hvoted i
  refine Iff.trans ?_ (hcond.trans (weights_agree_iff rfl rfl hvoted hnone))
  constructor
  · rintro ⟨-, hall⟩
    exact (weighedRoots_congr hblocks).mp (hall [])
  · intro hweights
    have hsame : SameLedger early late := by
      have hfun := funext hweights
      rw [hearly, hlate] at hfun ⊢
      exact sameLedger_orders rfl rfl rfl hvoted hfun
    refine ⟨hsame.votes, fun later => ?_⟩
    have hrun := hsame.run hewf hlwf later
    exact (weighedRoots_congr hrun.blocks).mpr (congrFun hrun.weightAt)

/-- The balances of the votes are all zero, so the order does not matter. -/
theorem vote_before_block_at_zero_balance :
    let f := (ForkChoice.new 1 1 0).run [.processBlock 0 1 0 0 1 1]
    let late := f.run [.processAttestation [0] 2 1, .head .background 1 1 [0] 1,
      .processBlock 1 2 1 0 1 1, .head .background 1 1 [0] 1]
    let early := f.run [.processBlock 1 2 1 0 1 1, .processAttestation [0] 2 1,
      .head .background 1 1 [0] 1, .head .background 1 1 [0] 1]
    late.votes = early.votes ∧
      ∀ later, (late.run later).weighedRoots = (early.run later).weighedRoots := by
  refine (vote_before_block_iff 1 1 0 [.processBlock 0 1 0 0 1 1] 1 2 1 0 1 1 [0] 1 [0]
    .background .background 1 1 1 1 1 1 (by decide +kernel)).mpr (Or.inr ⟨by decide +kernel, ?_⟩)
  have hzero : (((ForkChoice.new 1 1 0).run [.processBlock 0 1 0 0 1 1]).step
      (.processAttestation [0] 2 1)).deltaFor [0] 2 = 0 := by decide +kernel
  intro i _ _
  rw [hzero, add_zero]

/-- The vote comes before its block and is lost: with the block first, the
block and its parent weigh 32 ETH. -/
theorem vote_before_block_lost :
    let f := (ForkChoice.new 1 1 0).run [.processBlock 0 1 0 0 1 1]
    (f.run [.processAttestation [0] 2 1, .head .background 1 1 [32000000000] 1,
      .processBlock 1 2 1 0 1 1, .head .background 1 1 [32000000000] 1]).weighedRoots =
        [(1, 0), (2, 0)] ∧
    (f.run [.processBlock 1 2 1 0 1 1, .processAttestation [0] 2 1,
      .head .background 1 1 [32000000000] 1,
      .head .background 1 1 [32000000000] 1]).weighedRoots =
        [(1, 32000000000), (2, 32000000000)] := by
  decide +kernel

end ForkChoice

end Vanguard.ProtoArray
