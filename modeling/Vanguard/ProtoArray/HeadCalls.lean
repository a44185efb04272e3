import Vanguard.ProtoArray.Ghost
import Vanguard.ProtoArray.Skeleton

/-!
Whether earlier calls of `Head` can be noticed.

A call of `Head` rewrites weights, votes and links. Weights and votes are
accounted for exactly, so at the next call nothing is left of them. Links are
another matter: `updateBestChildAndDescendant` compares two children by weight
when neither leads to a viable node, so it can keep or install a best child
that is not viable. A later call clears such a leftover only if it meets a
child that does lead to a viable node, or the leftover itself while it still
is the best child. A viable node with several children, none of which leads to
a viable node, may keep it, and `Head` then fails instead of returning the
node.
-/

namespace Vanguard.ProtoArray

open Forest BestChild Run

namespace Store

variable {s s' : Store}

def withEpochs (s : Store) (justifiedEpoch finalizedEpoch : Epoch) : Store :=
  { s with justifiedEpoch := justifiedEpoch, finalizedEpoch := finalizedEpoch }

theorem viableAt_congr (he : s'.epochsAt = s.epochsAt) (hj : s'.justifiedEpoch = s.justifiedEpoch)
    (hf : s'.finalizedEpoch = s.finalizedEpoch) : s'.viableAt = s.viableAt := by
  funext i
  rw [viableAt_eq, viableAt_eq, he, hj, hf]

theorem keyAt_congr (hr : s'.rootAt = s.rootAt) (hw : s'.weightAt = s.weightAt) :
    s'.keyAt = s.keyAt := by
  funext i
  rw [keyAt_eq, keyAt_eq, hr, hw]

end Store

namespace ForkChoice

variable {f g : ForkChoice} {op : Op} {e : ℕ} {balances : List Gwei} {known known' : Root → Prop}

theorem viableAt_headed (f : ForkChoice) (je fe : Epoch) (balances : List Gwei) :
    (f.headed je fe balances).store.viableAt = (f.store.withEpochs je fe).viableAt :=
  Store.viableAt_congr (epochsAt_headed f je fe balances) rfl rfl

/-- The block sequence and the votes that later calls will count. -/
structure SameInput (f g : ForkChoice) : Prop where
  blocks : g.store.blocks = f.store.blocks
  pruneThreshold : g.store.pruneThreshold = f.store.pruneThreshold
  next : ∀ v, (g.voteAt v).nextRoot = (f.voteAt v).nextRoot ∧
    (g.voteAt v).nextEpoch = (f.voteAt v).nextEpoch

/-- Votes are for blocks in the store other than the zero hash, nothing is
pruned, and `Head` is always called with the same balances. -/
def VotesInserted (balances : List Gwei) (f : ForkChoice) : Op → Prop
  | .processBlock _ _ _ _ _ _ => True
  | .processAttestation _ root _ => root ≠ zeroHash ∧ f.hasNode root = true
  | .prune _ => False
  | .head _ _ _ balances' _ => balances' = balances

instance (balances : List Gwei) (f : ForkChoice) (op : Op) :
    Decidable (VotesInserted balances f op) :=
  match op with
  | .processBlock .. | .processAttestation .. | .prune .. | .head .. => by
    unfold VotesInserted
    infer_instance

/-- Only `Prune` removes blocks. -/
theorem hasNode_step (h : f.store.WellFormed) (hop : ∀ F, op ≠ .prune F) {r : Root}
    (hr : f.hasNode r = true) : (f.step op).hasNode r = true := by
  cases op with
  | processBlock slot b p g je fe =>
    rw [step_processBlock h]
    dsimp only [hasNode]
    split
    · exact hr
    · change (f.store.nodesIndices.insert b f.store.nodes.length).contains r = true
      rw [Std.ExtTreeMap.contains_insert]
      exact Bool.or_eq_true_iff.mpr (Or.inr hr)
  | processAttestation vs r target => exact hr
  | prune F => exact absurd rfl (hop F)
  | head ctx je r' balances' fe =>
    obtain ⟨m, hm⟩ := step_head h ctx je r' balances' fe
    rw [hm]
    exact hr

theorem accounted_step (h : Accounted e (fun r => f.hasNode r = true) f)
    (hb : ExactBalances e balances) (hok : VotesInserted balances f op) :
    Accounted e (fun r => (f.step op).hasNode r = true) (f.step op) := by
  have hstep : Accounted e (fun r => f.hasNode r = true) (f.step op) := by
    cases op with
    | processBlock slot b p g je fe =>
      refine h.processBlock slot p g je fe fun hnew hold => ?_
      exact absurd (hnew.symm.trans hold) (by simp)
    | processAttestation vs r target => exact h.processAttestation vs hok.1 hok.2 target
    | prune r => exact h.prune r
    | head ctx je r balances' fe =>
      obtain rfl : balances' = balances := hok
      exact h.head ctx je r hb fe
  have hprune : ∀ F, op ≠ .prune F := by
    rintro F rfl
    exact hok
  exact hstep.mono fun r hr => hasNode_step h.wellFormed hprune hr

theorem updateVote_congr {vote vote' : Vote} (hroot : vote'.nextRoot = vote.nextRoot)
    (hepoch : vote'.nextEpoch = vote.nextEpoch)
    (hfresh : vote.nextRoot = zeroHash → vote.currentRoot = zeroHash)
    (hfresh' : vote'.nextRoot = zeroHash → vote'.currentRoot = zeroHash)
    (r : Root) (target : Epoch) :
    (updateVote r target vote').nextRoot = (updateVote r target vote).nextRoot ∧
      (updateVote r target vote').nextEpoch = (updateVote r target vote).nextEpoch := by
  have hread : ∀ w : Vote, (w.nextRoot = zeroHash → w.currentRoot = zeroHash) →
      updateVote r target w = if w.nextRoot = zeroHash ∨ w.nextEpoch < target
        then { w with nextEpoch := target, nextRoot := r } else w := by
    intro w hw
    have hiff : w.nextRoot = zeroHash ∧ w.currentRoot = zeroHash ↔ w.nextRoot = zeroHash :=
      and_iff_left_of_imp hw
    simp only [updateVote, hiff]
  rw [hread vote hfresh, hread vote' hfresh', hroot, hepoch]
  split
  · exact ⟨rfl, rfl⟩
  · exact ⟨hroot, hepoch⟩

theorem sameInput_step (hf : Accounted e known f) (hg : Accounted e known' g) (h : SameInput f g)
    (hop : op.isHead = false) : SameInput (f.step op) (g.step op) := by
  have hblocks := blocks_step_congr hf.wellFormed hg.wellFormed h.blocks h.pruneThreshold op
  have hthreshold : (g.step op).store.pruneThreshold = (f.step op).store.pruneThreshold := by
    rw [pruneThreshold_step hf.wellFormed, pruneThreshold_step hg.wellFormed, h.pruneThreshold]
  refine ⟨hblocks, hthreshold, fun v => ?_⟩
  cases op with
  | processBlock slot b p g' je fe =>
    rw [voteAt_processBlock hf.wellFormed, voteAt_processBlock hg.wellFormed]
    exact h.next v
  | processAttestation vs r target =>
    rw [voteAt_processAttestation, voteAt_processAttestation]
    split
    · exact updateVote_congr (h.next v).1 (h.next v).2 (hf.fresh v) (hg.fresh v) r target
    · exact h.next v
  | prune r =>
    rw [voteAt_prune hf.wellFormed, voteAt_prune hg.wellFormed]
    exact h.next v
  | head ctx je r balances fe => exact absurd hop (by simp [Op.isHead])

theorem sameInput_head (hf : Accounted e known f) (h : SameInput f g) (ctx : Ctx) (je : Epoch)
    (r : Root) (balances : List Gwei) (fe : Epoch) :
    SameInput (f.step (.head ctx je r balances fe)) g where
  blocks := h.blocks.trans (blocks_head hf.wellFormed ctx je r balances fe).symm
  pruneThreshold := h.pruneThreshold.trans (pruneThreshold_step hf.wellFormed _).symm
  next v := by
    rw [voteAt_head hf.wellFormed]
    exact h.next v

/-- A run and the same run without its calls of `Head` reach objects that
will count the same votes on the same blocks. -/
theorem sameInput_run (hb : ExactBalances e balances)
    (hf : Accounted e (fun r => f.hasNode r = true) f)
    (hg : Accounted e (fun r => g.hasNode r = true) g) (h : SameInput f g) {ops : List Op}
    (hok : Admits step (VotesInserted balances) f ops) :
    Accounted e (fun r => (f.run ops).hasNode r = true) (f.run ops) ∧
      SameInput (f.run ops) (g.run (ops.filter fun op => !op.isHead)) := by
  induction ops generalizing f g with
  | nil => exact ⟨hf, h⟩
  | cons op ops ih =>
    obtain ⟨hop, hops⟩ := hok
    have hf' := accounted_step hf hb hop
    cases op with
    | head ctx je r balances' fe => exact ih hf' hg (sameInput_head hf h ctx je r balances' fe) hops
    | processBlock | prune =>
      exact ih hf' (accounted_step hg hb hop) (sameInput_step hf hg h rfl) hops
    | processAttestation vs r target =>
      have hi := hf.wellFormed.nodesIndices_congr hg.wellFormed h.blocks
      have hgop : VotesInserted balances g (.processAttestation vs r target) :=
        ⟨hop.1, by rw [hasNode, hi]; exact hop.2⟩
      exact ih hf' (accounted_step hg hb hgop) (sameInput_step hf hg h rfl) hops

theorem SameInput.refl (f : ForkChoice) : SameInput f f := ⟨rfl, rfl, fun _ => ⟨rfl, rfl⟩⟩

/-- On the same input `Head` leaves the same weights. -/
theorem weightAt_headed_congr (hf : Accounted e known f) (hg : Accounted e known' g)
    (h : SameInput f g) (hb : ExactBalances e balances) (je fe : Epoch) :
    (g.headed je fe balances).store.weightAt = (f.headed je fe balances).store.weightAt := by
  funext i
  rw [hf.weightAt_headed hb, hg.weightAt_headed hb, Store.rootAt_congr h.blocks]
  have hsupport : g.store.support (fun v => (g.voteAt v).nextRoot) balances i =
      f.store.support (fun v => (f.voteAt v).nextRoot) balances i := by
    apply Store.support_congr
    intro v
    rw [(h.next v).1, hf.wellFormed.countsFor_of_blocks hg.wellFormed h.blocks]
  rw [hsupport]

/-- On the same input, and where viability is settled, `Head` returns the
same root or fails on both sides. -/
theorem outcome_head_congr (hf : Accounted e known f) (hg : Accounted e known' g)
    (h : SameInput f g) (hb : ExactBalances e balances) {je fe : Epoch}
    (hsettled : Settled f.store.parentOf (f.store.withEpochs je fe).viableAt) (r : Root) :
    (g.outcome (.head .background je r balances fe)).toOption =
      (f.outcome (.head .background je r balances fe)).toOption := by
  have hi := hf.wellFormed.nodesIndices_congr hg.wellFormed h.blocks
  cases hr : f.store.nodesIndices[r]? with
  | none =>
    rw [outcome_head_unknown hf.wellFormed _ _ _ _ hr,
      outcome_head_unknown hg.wellFormed _ _ _ _ (by rw [hi]; exact hr)]
  | some i =>
    have hparent := Store.parentOf_congr h.blocks
    have hroot : (g.headed je fe balances).store.rootAt =
        (f.headed je fe balances).store.rootAt := by
      rw [rootAt_headed, rootAt_headed, Store.rootAt_congr h.blocks]
    have hviable : (g.headed je fe balances).store.viableAt =
        (f.headed je fe balances).store.viableAt := by
      rw [viableAt_headed, viableAt_headed]
      exact Store.viableAt_congr (Store.epochsAt_congr h.blocks) rfl rfl
    have hkey : (g.headed je fe balances).store.keyAt = (f.headed je fe balances).store.keyAt :=
      Store.keyAt_congr hroot (weightAt_headed_congr hf hg h hb je fe)
    rw [← viableAt_headed f je fe balances] at hsettled
    obtain ⟨t, n, hwalk, hn, hres⟩ := head_walk hf.wellFormed hsettled hr
    obtain ⟨t', n', hwalk', hn', hres'⟩ := head_walk hg.wellFormed
      (by rw [hviable, hparent]; exact hsettled) (show _ = some i by rw [hi]; exact hr)
    rw [hviable, hkey, hparent] at hwalk'
    rw [← parentOf_headed f je fe balances] at hwalk hwalk'
    obtain rfl : t' = t := Walk.unique (fun x y p hx hy hxy =>
      (headed_wellFormed hf.wellFormed je fe balances).keyAt_injective hx hy hxy) hwalk' hwalk
    have hnroot : n'.root = n.root := by
      have := congrFun hroot t'
      simpa [Store.rootAt, hn, hn'] using this
    have hnviable : (g.headed je fe balances).store.viableForHead n' =
        (f.headed je fe balances).store.viableForHead n := by
      rw [← Store.viableAt_of_getElem? hn, ← Store.viableAt_of_getElem? hn', hviable]
    rw [hnviable] at hres'
    cases hv : (f.headed je fe balances).store.viableForHead n with
    | true =>
      rw [hv, if_pos rfl] at hres hres'
      rw [hres, hres', hnroot]
    | false =>
      rw [hv] at hres hres'
      obtain ⟨e₁, h₁⟩ := hres
      obtain ⟨e₂, h₂⟩ := hres'
      rw [h₁, h₂]
      rfl

/-- `Head` does not notice earlier calls of `Head`. Take two runs of the same
insertions and attestations with different calls of `Head` in between, all
with the same exact balances, where votes are for blocks in the store. If
every viable node with several children has a child that leads to a viable
node, a final `Head` returns the same root or fails in both. -/
theorem head_independent_of_earlier_heads (je₀ fe₀ : Epoch) (finalizedRoot : Root)
    (ops₁ ops₂ : List Op) {e : ℕ} (balances : List Gwei) (j fin : Epoch) (r : Root)
    (hsame : (ops₁.filter fun op => !op.isHead) = ops₂.filter fun op => !op.isHead)
    (hok₁ : Admits step (VotesInserted balances) (ForkChoice.new je₀ fe₀ finalizedRoot) ops₁)
    (hok₂ : Admits step (VotesInserted balances) (ForkChoice.new je₀ fe₀ finalizedRoot) ops₂)
    (hb : ExactBalances e balances)
    (hsettled : Settled ((ForkChoice.new je₀ fe₀ finalizedRoot).run ops₁).store.parentOf
      (((ForkChoice.new je₀ fe₀ finalizedRoot).run ops₁).store.withEpochs j fin).viableAt) :
    (((ForkChoice.new je₀ fe₀ finalizedRoot).run ops₁).outcome
        (.head .background j r balances fin)).toOption =
      (((ForkChoice.new je₀ fe₀ finalizedRoot).run ops₂).outcome
        (.head .background j r balances fin)).toOption := by
  have hnew : ∀ known, Accounted e known (ForkChoice.new je₀ fe₀ finalizedRoot) :=
    fun _ => Accounted.new je₀ fe₀ finalizedRoot
  obtain ⟨hacc₁, h₁⟩ := sameInput_run hb (hnew _) (hnew _) (SameInput.refl _) hok₁
  obtain ⟨hacc₂, h₂⟩ := sameInput_run hb (hnew _) (hnew _) (SameInput.refl _) hok₂
  rw [← hsame] at h₂
  have hnext := fun v => And.intro ((h₂.next v).1.symm.trans (h₁.next v).1)
    ((h₂.next v).2.symm.trans (h₁.next v).2)
  have h : SameInput _ _ := ⟨h₂.blocks.symm.trans h₁.blocks,
    h₂.pruneThreshold.symm.trans h₁.pruneThreshold, hnext⟩
  exact (outcome_head_congr hacc₁ hacc₂ h hb hsettled r).symm

theorem settled_of_epochsRespected {je₀ fe₀ : Epoch} {finalizedRoot : Root} {ops : List Op}
    (hok : Admits step EpochsRespected (ForkChoice.new je₀ fe₀ finalizedRoot) ops) {j fin : Epoch} :
    let s := ((ForkChoice.new je₀ fe₀ finalizedRoot).run ops).store
    s.EpochsBounded j fin → Settled s.parentOf (s.withEpochs j fin).viableAt := by
  intro s hbound
  have hnew := new_wellFormed je₀ fe₀ finalizedRoot
  have hmono := run_epochsMonotone hnew (new_epochsMonotone je₀ fe₀ finalizedRoot) hok
  have hwf := run_wellFormed hnew ops
  exact Store.settled_of_epochs (s := s.withEpochs j fin) (hwf.congr rfl rfl)
    (hmono.congr rfl rfl) hbound

/-- Two runs that differ in a call of `Head` for other epochs. -/
theorem head_independent_of_earlier_heads_at_fork :
    let blocks : List Op := [.processBlock 0 1 0 0 1 1, .processBlock 1 3 1 0 2 1,
      .processBlock 1 2 1 0 2 1]
    let vote : List Op := [.processAttestation [0] 2 1]
    let extra : List Op := [.head .background 2 1 [32000000000] 1]
    (((ForkChoice.new 1 1 0).run (blocks ++ vote)).outcome
      (.head .background 2 1 [32000000000] 1)).toOption =
    (((ForkChoice.new 1 1 0).run (blocks ++ extra ++ vote)).outcome
      (.head .background 2 1 [32000000000] 1)).toOption :=
  head_independent_of_earlier_heads 1 1 0 _ _ [32000000000] 2 1 1 rfl (by decide +kernel)
    (by decide +kernel) (e := 9) ⟨by simp, by decide +kernel, by decide +kernel⟩
    (settled_of_epochsRespected (by decide +kernel) (by decide +kernel))

/-- The leftover of a `Head` for other epochs. Block 1 is viable for epochs
`(1, 1)` and its children 3 and 2 are not. The extra call, for epochs
`(2, 1)`, makes 3 the best child of 1; the vote then makes 2 heavier, and the
comparison of the two children installs 2, which is visited before 3. -/
theorem head_notices_earlier_head :
    let blocks : List Op := [.processBlock 0 1 0 0 1 1, .processBlock 1 3 1 0 2 1,
      .processBlock 1 2 1 0 2 1]
    let vote : List Op := [.processAttestation [0] 2 1]
    let extra : List Op := [.head .background 2 1 [32000000000] 1]
    Admits step (VotesInserted [32000000000]) (ForkChoice.new 1 1 0) (blocks ++ vote) ∧
    Admits step (VotesInserted [32000000000]) (ForkChoice.new 1 1 0) (blocks ++ extra ++ vote) ∧
    (((ForkChoice.new 1 1 0).run (blocks ++ vote)).outcome
      (.head .background 1 1 [32000000000] 1)).toOption = some (some 1) ∧
    (((ForkChoice.new 1 1 0).run (blocks ++ extra ++ vote)).outcome
      (.head .background 1 1 [32000000000] 1)).toOption = none := by
  decide +kernel

end ForkChoice

end Vanguard.ProtoArray
