import Vanguard.ProtoArray.PruneEffect

/-!
What each public call does to a fork choice object whose store is well
formed.

A call of `Head` rotates the votes, adds up the changes of the validators'
balances at the voted blocks, reweighs the store, sweeps the best children
and looks up the best descendant of the justified block. Only the last part
can fail.
-/

namespace Vanguard.ProtoArray

open Forest BestChild EState Vote

/-! ### Vote changes -/

/-- A vote once `computeDeltas` has accounted for it. -/
def Vote.rotate (vote : Vote) : Vote := { vote with currentRoot := vote.nextRoot }

/-- What the vote of a validator adds to the delta of the node at `i`. -/
def contribution (indices : RootMap ℕ) (oldBalances newBalances : List Gwei) (v : ℕ)
    (vote : Vote) (i : ℕ) : SInt :=
  if vote.currentRoot = zeroHash ∧ vote.nextRoot = zeroHash then 0
  else
    (if indices[vote.nextRoot]? = some i then balanceAt newBalances v else 0) -
      (if indices[vote.currentRoot]? = some i then balanceAt oldBalances v else 0)

variable {indices : RootMap ℕ}

theorem addDelta_eq {n : ℕ} (hn : ∀ (r : Root) (i : ℕ), indices[r]? = some i → i < n)
    (r : Root) (amount : SInt) (delta : ℕ → SInt) :
    addDelta indices r amount ((List.range n).map delta) =
      .ok ((List.range n).map fun i =>
        delta i + if indices[r]? = some i then amount else 0) := by
  unfold addDelta
  cases hr : indices[r]? with
  | none => simp
  | some j =>
    have hj := hn r j hr
    simp only [List.length_map, List.length_range, hj.not_ge, if_false, Store.modify_map_range]
    congr 2
    funext i
    by_cases hij : i = j
    · subst hij; simp
    · simp [hij, Ne.symm hij]

/-- The loop of `computeDeltas` cannot fail, rotates every vote and adds up
the contributions. -/
theorem computeDeltasFrom_eq {n : ℕ}
    (hn : ∀ (r : Root) (i : ℕ), indices[r]? = some i → i < n) (oldBalances newBalances : List Gwei)
    (votes : List Vote) (v : ℕ) (delta : ℕ → SInt) :
    computeDeltasFrom indices oldBalances newBalances v votes ((List.range n).map delta) =
      (.ok ((List.range n).map fun i => delta i + ∑ k ∈ Finset.range votes.length,
        contribution indices oldBalances newBalances (v + k) (votes.getD k fresh) i),
       votes.map rotate) := by
  induction votes generalizing v delta with
  | nil => simp [computeDeltasFrom]
  | cons vote votes ih =>
    have hsum : ∀ i, ∑ k ∈ Finset.range (vote :: votes).length,
        contribution indices oldBalances newBalances (v + k)
          ((vote :: votes).getD k fresh) i =
        contribution indices oldBalances newBalances v vote i +
          ∑ k ∈ Finset.range votes.length, contribution indices oldBalances newBalances
            (v + 1 + k) (votes.getD k fresh) i := by
      intro i
      rw [List.length_cons, Finset.sum_range_succ', add_comm]
      simp [Nat.add_assoc, Nat.add_comm 1]
    unfold computeDeltasFrom
    split
    · rename_i hzero
      have hrot : vote.rotate = vote := by
        obtain ⟨current, next, epoch⟩ := vote
        simp only [rotate, mk.injEq, and_true]
        exact hzero.2.trans hzero.1.symm
      have hcontrib : ∀ i, contribution indices oldBalances newBalances v vote i = 0 := by
        intro i
        rw [contribution, if_pos hzero]
      rw [ih]
      simp only [hsum, hcontrib, zero_add, List.map_cons, hrot]
    · rename_i hzero
      have hcontrib : ∀ i, contribution indices oldBalances newBalances v vote i =
          (if indices[vote.nextRoot]? = some i then balanceAt newBalances v else 0) -
            (if indices[vote.currentRoot]? = some i then balanceAt oldBalances v else 0) := by
        intro i
        rw [contribution, if_neg hzero]
      by_cases hchange : vote.currentRoot ≠ vote.nextRoot ∨
          balanceAt oldBalances v ≠ balanceAt newBalances v
      · simp only [hchange, if_true, addDelta_eq hn, bind, Except.bind]
        rw [ih]
        simp only [hsum, hcontrib, List.map_cons, rotate, Prod.mk.injEq, and_true]
        congr 2
        funext i
        split <;> split <;> ring
      · simp only [hchange, if_false, pure, Except.pure]
        -- an unchanged vote with an unchanged balance cancels itself
        push Not at hchange
        obtain ⟨hroot, hbalance⟩ := hchange
        have hcancel : ∀ i, contribution indices oldBalances newBalances v vote i = 0 := by
          intro i
          rw [hcontrib, hroot, hbalance, sub_self]
        rw [ih]
        simp only [hsum, hcancel, zero_add, List.map_cons, rotate]

namespace ForkChoice

variable {f : ForkChoice}

/-- The delta that `Head` computes for the node at `i`. -/
def voteDelta (f : ForkChoice) (newBalances : List Gwei) (i : ℕ) : SInt :=
  ∑ v ∈ Finset.range f.votes.length,
    contribution f.store.nodesIndices f.balances newBalances v (f.votes.getD v fresh) i

/-- The object when `Head` has finished with the weights and the links. -/
def headed (f : ForkChoice) (justifiedEpoch finalizedEpoch : Epoch) (newBalances : List Gwei) :
    ForkChoice where
  store := (f.store.reweighed justifiedEpoch finalizedEpoch (f.voteDelta newBalances)).swept
  votes := f.votes.map rotate
  balances := newBalances

theorem rotateVotes_eq (h : f.store.WellFormed) (newBalances : List Gwei) :
    rotateVotes newBalances f =
      .ok ((List.range f.store.nodes.length).map (f.voteDelta newBalances))
        { f with votes := f.votes.map rotate } := by
  have hn : ∀ (r : Root) (i : ℕ), f.store.nodesIndices[r]? = some i →
      i < f.store.nodes.length := by
    intro r i hi
    obtain ⟨n, hn, -⟩ := (h.indices r i).mp hi
    exact (List.getElem?_eq_some_iff.mp hn).1
  have hzero : List.replicate f.store.nodesIndices.size (0 : SInt) =
      (List.range f.store.nodes.length).map fun _ => 0 := by
    simp [h.size_nodesIndices]
  simp only [rotateVotes, computeDeltas, hzero,
    computeDeltasFrom_eq hn f.balances newBalances f.votes 0 fun _ => 0]
  simp [voteDelta]

theorem head_eq (h : f.store.WellFormed) (ctx : Ctx) (je : Epoch) (r : Root)
    (balances : List Gwei) (fe : Epoch) :
    head ctx je r balances fe f = onStore (Store.head ctx r) (f.headed je fe balances) := by
  have hweights := Store.applyWeightChanges_eq h je fe (f.voteDelta balances)
  rw [head, bind_ok (rotateVotes_eq h balances)]
  have happly : onStore (Store.applyWeightChanges je fe
      ((List.range f.store.nodes.length).map (f.voteDelta balances)))
      { f with votes := f.votes.map rotate } =
      .ok () { f with
        store := (f.store.reweighed je fe (f.voteDelta balances)).swept
        votes := f.votes.map rotate } := by
    simp [onStore, hweights]
  rw [bind_ok happly, modify_bind]
  rfl

end ForkChoice

/-! ### Marking and looking up -/

namespace Store

variable {s : Store} {i : ℕ} {n : Node}

theorem markAncestors_cases (h : s.WellFormed) (ctx : Ctx) (fuel poll : ℕ) (p : Option ℕ)
    (hp : ∀ i, p = some i → i < fuel ∧ i < s.nodes.length) :
    ∃ m, markAncestors ctx fuel poll p s = .ok () { s with canonicalNodes := m } ∨
      (ctx ≠ Ctx.background ∧
        markAncestors ctx fuel poll p s =
          .error .contextCancelled { s with canonicalNodes := m }) := by
  induction fuel generalizing s poll p with
  | zero =>
    cases p with
    | none => exact ⟨s.canonicalNodes, Or.inl rfl⟩
    | some i => exact absurd (hp i rfl).1 (by omega)
  | succ fuel ih =>
    cases p with
    | none => exact ⟨s.canonicalNodes, Or.inl rfl⟩
    | some i =>
      obtain ⟨hfuel, hlen⟩ := hp i rfl
      have hn := List.getElem?_eq_getElem hlen
      by_cases hctx : ctx.err poll = true
      · refine ⟨s.canonicalNodes, Or.inr ⟨?_, ?_⟩⟩
        · rintro rfl
          simp at hctx
        · simp [markAncestors, hctx]
      · simp only [markAncestors, hctx, Bool.false_eq_true, if_false]
        rw [bind_ok (nodeAt_of_getElem? hn), get_bind]
        split
        · exact ⟨s.canonicalNodes, Or.inl rfl⟩
        · rw [set_bind]
          let s₁ : Store :=
            { s with canonicalNodes := s.canonicalNodes.insert s.nodes[i].root true }
          have h₁ : s₁.WellFormed := h.congr rfl rfl
          refine ih h₁ (poll + 1) _ ?_
          intro j hj
          have hlt := h.parent_lt i _ j hn hj
          constructor
          · omega
          · change j < s.nodes.length
            omega

theorem updateCanonicalNodes_eq_markAncestors (h : s.WellFormed) (ctx : Ctx)
    (hn : s.nodes[i]? = some n) :
    updateCanonicalNodes ctx n.root s = markAncestors ctx (s.nodes.length + 1) 0 n.parent
      { s with canonicalNodes := s.canonicalNodes.insert n.root true } := by
  have hi : s.nodesIndices.getD n.root 0 = i := by
    rw [Std.ExtTreeMap.getD_eq_getD_getElem?, (h.indices n.root i).mpr ⟨n, hn, rfl⟩]
    rfl
  simp only [updateCanonicalNodes, get_bind, set_bind, hi]
  exact bind_ok (nodeAt_of_getElem? hn)

theorem updateCanonicalNodes_cases (h : s.WellFormed) (ctx : Ctx)
    (hn : s.nodes[i]? = some n) :
    ∃ m, updateCanonicalNodes ctx n.root s = .ok () { s with canonicalNodes := m } ∨
      (ctx ≠ Ctx.background ∧ updateCanonicalNodes ctx n.root s =
        .error .contextCancelled { s with canonicalNodes := m }) := by
  have hlen := (List.getElem?_eq_some_iff.mp hn).1
  have hparent : ∀ j, n.parent = some j → j < s.nodes.length + 1 ∧ j < s.nodes.length := by
    intro j hj
    have hlt := h.parent_lt i n j hn hj
    omega
  have h₁ : WellFormed { s with canonicalNodes := s.canonicalNodes.insert n.root true } :=
    h.congr rfl rfl
  rw [updateCanonicalNodes_eq_markAncestors h ctx hn]
  exact markAncestors_cases h₁ ctx (s.nodes.length + 1) 0 n.parent hparent

theorem head_of_none (ctx : Ctx) {r : Root} (hr : s.nodesIndices[r]? = none) :
    head ctx r s = .error .unknownJustifiedRoot s := by
  simp only [head, get_bind, hr, throw_apply]

/-- `head` reads the tip of the justified block's links. -/
theorem head_of_some (h : s.WellFormed) (ctx : Ctx) {r : Root}
    (hr : s.nodesIndices[r]? = some i) (hn : s.nodes[tip s.links i]? = some n) :
    head ctx r s =
      if s.viableForHead n then
        (do updateCanonicalNodes ctx n.root; pure n.root : StoreM Root) s
      else
        .error (.headNotEligible n.slot (n.weight / 10000000000) n.finalizedEpoch
          s.finalizedEpoch n.justifiedEpoch s.justifiedEpoch) s := by
  obtain ⟨j, hj, -⟩ := (h.indices r i).mp hr
  have hdesc : j.bestDescendant.getD i = tip s.links i := by
    have hpaired := h.paired i j hj
    cases hc : j.bestChild <;> cases hd : j.bestDescendant <;>
      simp_all [tip, links, Node.link]
  simp only [head, get_bind, hr, hj, hdesc, hn]
  split <;> rfl

theorem WellFormed.getElem?_tip (h : s.WellFormed) (hi : i < s.nodes.length) :
    ∃ n, s.nodes[tip s.links i]? = some n :=
  ⟨_, List.getElem?_eq_getElem (lt_length_of_below (h.sound.below_tip i) hi)⟩

end Store

end Vanguard.ProtoArray
