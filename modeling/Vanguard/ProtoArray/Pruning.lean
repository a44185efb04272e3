import Vanguard.ProtoArray.Canonical
import Vanguard.ProtoArray.HeadCalls

/-!
What later calls can tell about an earlier `Prune`.

A pruned store is the part of the other that starts at the finalized block,
renumbered. Later calls keep this relation (`CutFrom`), because a best child
always lies after its parent and because a vote counts for ancestors only:
nothing that was cut off has a say in what is left. What pruning does lose is
the knowledge of the roots it dropped. Such a root can be inserted again,
even as a descendant of the finalized block.
-/

namespace Vanguard.ProtoArray

open Forest BestChild Run List Option Node

variable {r F : Root}

namespace Store

variable {k : ℕ} {u p : Store}

namespace CutFrom

/-! ### The operations keep the relation -/

variable (h : CutFrom k u p)

include h

theorem relink {best best' : Links ℕ} (hb : Embeds (· + k) best best') :
    CutFrom k (u.relink best) (p.relink best') where
  length := by simpa using h.length
  justifiedEpoch := h.justifiedEpoch
  finalizedEpoch := h.finalizedEpoch
  parentOf := by simpa using h.parentOf
  rootAt := by simpa using h.rootAt
  epochsAt := by simpa using h.epochsAt
  weightAt := by simpa using h.weightAt
  links i := by
    have hnode : (p.nodes[i]?).isSome = (u.nodes[i + k]?).isSome := by
      rw [← isSome_map (f := root), ← isSome_map (f := root)]
      exact congrArg isSome (h.rootAt i)
    simp only [Store.links, getElem?_relink]
    cases hp : p.nodes[i]? with
    | none => simp_all
    | some n =>
      obtain ⟨m, hm⟩ : ∃ m, u.nodes[i + k]? = some m := by
        rw [← isSome_iff_exists, ← hnode, hp]
        rfl
      simpa [hm] using hb i

theorem reweigh {weight weight' : ℕ → Gwei}
    (hw : ∀ i < p.nodes.length, weight' i = weight (i + k)) :
    CutFrom k (u.reweigh weight) (p.reweigh weight') where
  length := by simpa using h.length
  justifiedEpoch := h.justifiedEpoch
  finalizedEpoch := h.finalizedEpoch
  parentOf := by simpa using h.parentOf
  rootAt := by simpa using h.rootAt
  epochsAt := by simpa using h.epochsAt
  weightAt i := by
    have hlen := h.length
    by_cases hi : i < p.nodes.length
    · rw [weightAt_reweigh _ hi, weightAt_reweigh _ (by omega), hw i hi]
    · have h₁ : p.nodes[i]? = none := List.getElem?_eq_none_iff.mpr (by omega)
      have h₂ : u.nodes[i + k]? = none := List.getElem?_eq_none_iff.mpr (by omega)
      simp [Store.weightAt, h₁, h₂]
  links := by simpa using h.links

theorem withEpochs (je fe : Epoch) : CutFrom k (u.withEpochs je fe) (p.withEpochs je fe) :=
  ⟨h.length, rfl, rfl, h.parentOf, h.rootAt, h.epochsAt, h.weightAt, h.links⟩

theorem swept (hu : u.WellFormed) : CutFrom k u.swept p.swept := by
  apply h.relink
  have horder : (range u.nodes.length).reverse =
      (range p.nodes.length).reverse.map (· + k) ++ (range k).reverse := by
    have hcomm : (fun x => k + x) = (· + k) := by
      funext x
      exact add_comm k x
    rw [h.length, add_comm, range_add, reverse_append, map_reverse, hcomm]
  rw [horder, h.viableAt, h.keyAt]
  apply h.links.sweep (h.embedding hu)
  intro c hc c'
  simp only [mem_reverse, mem_range] at hc
  omega

theorem append {n n' : Node} (hroot : n'.root = n.root)
    (hweight : n'.weight = n.weight) (hj : n'.justifiedEpoch = n.justifiedEpoch)
    (hf : n'.finalizedEpoch = n.finalizedEpoch) (hlink : n.link = none) (hlink' : n'.link = none)
    (hparent : ∀ q, n'.parent = some q ↔ n.parent = some (q + k)) :
    CutFrom k (u.append n) (p.append n') := by
  have hlen := h.length
  have hcases : ∀ {motive : ℕ → Prop}, motive p.nodes.length →
      (∀ i, i ≠ p.nodes.length → i + k ≠ u.nodes.length → motive i) → ∀ i, motive i := by
    intro motive hnew hold i
    by_cases hi : i = p.nodes.length
    · exact hi ▸ hnew
    · exact hold i hi (by omega)
  refine ⟨?_, h.justifiedEpoch, h.finalizedEpoch, ?_, ?_, ?_, ?_, ?_⟩
  · simp only [Store.append, length_append, length_singleton]
    omega
  · refine hcases ?_ ?_
    · intro q
      rw [parentOf_append_length, ← hlen, parentOf_append_length]
      exact hparent q
    · intro i hi hik q
      rw [parentOf_append_of_ne hi, parentOf_append_of_ne hik]
      exact h.parentOf i q
  · refine hcases ?_ ?_
    · simp [Store.rootAt, ← hlen, hroot]
    · intro i hi hik
      rw [rootAt_append_of_ne hi, rootAt_append_of_ne hik]
      exact h.rootAt i
  · refine hcases ?_ ?_
    · simp [Store.epochsAt, ← hlen, hj, hf]
    · intro i hi hik
      rw [epochsAt_append_of_ne hi, epochsAt_append_of_ne hik]
      exact h.epochsAt i
  · refine hcases ?_ ?_
    · simp [Store.weightAt, ← hlen, hweight]
    · intro i hi hik
      rw [weightAt_append_of_ne hi, weightAt_append_of_ne hik]
      exact h.weightAt i
  · rw [links_append hlink, links_append hlink']
    exact h.links

theorem inserted (hu : u.WellFormed) (hp : p.WellFormed) (slot : Slot)
    (hr : u.nodesIndices[r]? = none) (q g : Root) (je fe : Epoch) :
    CutFrom k (u.inserted (u.newNode slot r q g je fe))
      (p.inserted (p.newNode slot r q g je fe)) := by
  have hparent : ∀ i, (p.newNode slot r q g je fe).parent = some i ↔
      (u.newNode slot r q g je fe).parent = some (i + k) := fun i => h.nodesIndices hu hp
  have happend : CutFrom k (u.append (u.newNode slot r q g je fe))
      (p.append (p.newNode slot r q g je fe)) := h.append rfl rfl rfl rfl rfl rfl hparent
  have hu' := hu.append_newNode slot hr q g je fe
  apply happend.relink
  rw [happend.viableAt, happend.keyAt, h.length]
  exact h.links.refresh (happend.embedding hu') p.nodes.length

end CutFrom

/-! ### Blocks as the roots name them -/

def weightOf (s : Store) (x : Root) : Option Gwei := s.nodesIndices[x]?.map s.weightAt

def parentRoot (s : Store) (x : Root) : Option Root :=
  s.nodesIndices[x]?.bind fun i => (s.parentOf i).bind s.rootAt

def bestChildRoot (s : Store) (x : Root) : Option Root :=
  s.nodesIndices[x]?.bind fun i => (s.nodes[i]?.bind bestChild).bind s.rootAt

def bestDescendantRoot (s : Store) (x : Root) : Option Root :=
  s.nodesIndices[x]?.bind fun i => (s.nodes[i]?.bind bestDescendant).bind s.rootAt

/-- Above `F` the two stores show the same blocks with the same weights and
links. The parent of `F` itself may be missing in one of them. -/
def SameAbove (F : Root) (s s' : Store) : Prop :=
  ∀ x, (s'.OnChainOf x F ↔ s.OnChainOf x F) ∧ (s.OnChainOf x F →
    s'.weightOf x = s.weightOf x ∧ (x ≠ F → s'.parentRoot x = s.parentRoot x) ∧
      s'.bestChildRoot x = s.bestChildRoot x ∧ s'.bestDescendantRoot x = s.bestDescendantRoot x)

theorem WellFormed.bestChild_eq (h : u.WellFormed) (i : ℕ) :
    u.nodes[i]?.bind bestChild = (u.links i).map Prod.fst ∧
      u.nodes[i]?.bind bestDescendant = (u.links i).map Prod.snd := by
  cases hn : u.nodes[i]? with
  | none => simp [links, hn]
  | some n =>
    have hpaired := h.paired i n hn
    simp only [links, hn, bind_some, link]
    cases hc : n.bestChild <;> cases hd : n.bestDescendant <;> simp_all

namespace CutFrom

theorem bind_rootAt (h : CutFrom k u p) (o : Option ℕ) :
    (o.map (· + k)).bind u.rootAt = o.bind p.rootAt := by
  cases o with
  | none => rfl
  | some i => exact (h.rootAt i).symm

theorem sameAbove (h : CutFrom k u p) (hu : u.WellFormed) (hp : p.WellFormed)
    (hF : p.nodesIndices.contains F = true) : SameAbove F u p := by
  intro x
  have hiff := h.onChainOf hu hp (b := x) hF
  refine ⟨hiff, fun hx => ?_⟩
  obtain ⟨t, a, ht, ha, hbelow⟩ := hiff.mpr hx
  have ht' := (h.nodesIndices hu hp).mp ht
  have hlinks : u.links (t + k) = (p.links t).map (Prod.map (· + k) (· + k)) := h.links t
  refine ⟨?_, ?_, ?_, ?_⟩
  · simp only [weightOf, ht, ht', map_some, h.weightAt]
  · intro hne
    -- a descendant other than `F` has its parent at or above `F`
    rcases below_iff_parent.mp hbelow with rfl | ⟨q, hq, -⟩
    · exact absurd ((hp.rootAt_iff.mp ht).symm.trans (hp.rootAt_iff.mp ha)) (by simpa using hne)
    · have hq' := (h.parentOf t q).mp hq
      simp only [parentRoot, ht, ht', bind_some, hq, hq', h.rootAt]
  · simp only [bestChildRoot, ht, ht', bind_some, (hu.bestChild_eq _).1,
      (hp.bestChild_eq _).1, hlinks]
    rw [← h.bind_rootAt, Option.map_map, Option.map_map]
    rfl
  · simp only [bestDescendantRoot, ht, ht', bind_some, (hu.bestChild_eq _).2,
      (hp.bestChild_eq _).2, hlinks]
    rw [← h.bind_rootAt, Option.map_map, Option.map_map]
    rfl

theorem refl (s : Store) : CutFrom 0 s s :=
  ⟨rfl, rfl, rfl, fun _ _ => Iff.rfl, fun _ => rfl, fun _ => rfl, fun _ => rfl,
    fun i => by cases s.links i <;> rfl⟩

end CutFrom

end Store

namespace ForkChoice

variable {k : ℕ} {removed : Root → Prop} {u p : ForkChoice}

/-- The object `p` differs from `u` by blocks that were removed. -/
structure PrunedCopy (k : ℕ) (removed : Root → Prop) (u p : ForkChoice) : Prop where
  full : u.store.WellFormed
  rest : p.store.WellFormed
  cut : Store.CutFrom k u.store p.store
  votes : p.votes = u.votes
  balances : p.balances = u.balances
  dropped : ∀ i < k, ∀ r, u.store.rootAt i = some r → removed r

namespace PrunedCopy

variable (h : PrunedCopy k removed u p)

include h

theorem contains (hr : ¬ removed r) :
    p.store.nodesIndices.contains r = u.store.nodesIndices.contains r := by
  rw [Bool.eq_iff_iff]
  constructor
  · exact h.cut.contains h.full h.rest
  · intro hu
    rw [TreeMap.contains_iff] at hu ⊢
    obtain ⟨i, hi⟩ := hu
    have hk : k ≤ i := by
      by_contra hlt
      exact hr (h.dropped i (by omega) r (h.full.rootAt_iff.mp hi))
    exact ⟨i - k, (h.cut.nodesIndices h.full h.rest).mpr (by rwa [Nat.sub_add_cancel hk])⟩

theorem netDelta (balances : List Gwei) {i : ℕ}
    (hi : i < p.store.nodes.length) (hz : p.store.rootAt i ≠ some zeroHash) :
    p.netDelta balances i = u.netDelta balances (i + k) := by
  have hlen := h.cut.length
  rw [netDelta_eq h.rest balances hi hz,
    netDelta_eq h.full balances (by omega) (by rwa [← h.cut.rootAt]), h.votes, h.balances]
  classical
  simp only [h.cut.countsFor h.full h.rest]

/-- `Head` computes the same weights and links. -/
theorem headed (je fe : Epoch) (balances : List Gwei) :
    Store.CutFrom k (u.headed je fe balances).store (p.headed je fe balances).store := by
  have hweights : Store.CutFrom k (u.store.reweighed je fe (u.voteDelta balances))
      (p.store.reweighed je fe (p.voteDelta balances)) := by
    apply (h.cut.withEpochs je fe).reweigh
    intro i hi
    by_cases hz : p.store.rootAt i = some zeroHash
    · have hz' : u.store.rootAt (i + k) = some zeroHash := (h.cut.rootAt i).symm.trans hz
      exact (if_pos hz).trans ((h.cut.weightAt i).trans (if_pos hz').symm)
    · have hz' : u.store.rootAt (i + k) ≠ some zeroHash := by rwa [← h.cut.rootAt]
      have hdelta : p.store.pushed (p.voteDelta balances) i =
          u.store.pushed (u.voteDelta balances) (i + k) := h.netDelta balances hi hz
      refine (if_neg hz).trans (Eq.trans ?_ (if_neg hz').symm)
      rw [h.cut.weightAt, hdelta]
  exact hweights.swept (h.full.reweighed je fe _)

/-- `Head` returns the same root for a block both have, or fails on both. -/
theorem outcome_head (je : Epoch) (balances : List Gwei) (fe : Epoch) (hr : p.hasNode r = true) :
    (p.outcome (.head .background je r balances fe)).toOption =
      (u.outcome (.head .background je r balances fe)).toOption := by
  have hcut := h.headed je fe balances
  have hp := headed_wellFormed h.rest je fe balances
  obtain ⟨i, hi⟩ := TreeMap.contains_iff.mp hr
  have hlen : i < (p.headed je fe balances).store.nodes.length := hp.lt_length_of_nodesIndices hi
  obtain ⟨n, hn⟩ := hp.getElem?_tip hlen
  have htip := hcut.links.tip i
  have hroot := hcut.rootAt (tip (p.headed je fe balances).store.links i)
  have hviable := congrFun hcut.viableAt (tip (p.headed je fe balances).store.links i)
  have hnroot : (p.headed je fe balances).store.rootAt
      (tip (p.headed je fe balances).store.links i) = some n.root :=
    Store.rootAt_eq_some.mpr ⟨n, hn, rfl⟩
  obtain ⟨m, hm, hmroot⟩ := Store.rootAt_eq_some.mp (hroot.symm.trans hnroot)
  rw [Function.comp_apply, Store.viableAt_of_getElem? hn, Store.viableAt_of_getElem? hm] at hviable
  rw [← htip] at hm
  rw [outcome_head_known h.rest je balances fe hi hn, outcome_head_known h.full je balances fe
    ((h.cut.nodesIndices h.full h.rest).mp hi) hm, hviable, hmroot]
  split <;> rfl

end PrunedCopy

/-- Calls other than `Prune` that insert none of the removed roots. -/
def Spares (removed : Root → Prop) : Op → Prop
  | .processBlock _ r _ _ _ _ => ¬ removed r
  | .processAttestation _ _ _ => True
  | .prune _ => False
  | .head _ _ _ _ _ => True

namespace PrunedCopy

theorem step (h : PrunedCopy k removed u p) {op : Op} (hop : Spares removed op) :
    PrunedCopy k removed (u.step op) (p.step op) := by
  have hu := step_wellFormed h.full op
  have hp := step_wellFormed h.rest op
  cases op with
  | processBlock slot r q g je fe =>
    rw [step_processBlock h.full] at hu ⊢
    rw [step_processBlock h.rest] at hp ⊢
    refine ⟨hu, hp, ?_, h.votes, h.balances, ?_⟩
    · rw [h.contains hop]
      cases hr : u.store.nodesIndices.contains r with
      | true => exact h.cut
      | false =>
        exact h.cut.inserted h.full h.rest slot (TreeMap.contains_eq_false_iff.mp hr) q g je fe
    · intro i hi
      have hlen := h.cut.length
      split
      · exact h.dropped i hi
      · rw [Store.inserted, Store.rootAt_relink, Store.rootAt_append_of_ne (by omega)]
        exact h.dropped i hi
  | processAttestation vs r target =>
    exact ⟨hu, hp, h.cut, congrArg (recordVotes vs r target) h.votes, h.balances, h.dropped⟩
  | prune F => exact absurd hop (by simp [Spares])
  | head ctx je r balances fe =>
    obtain ⟨m, hm⟩ := step_head h.full ctx je r balances fe
    obtain ⟨m', hm'⟩ := step_head h.rest ctx je r balances fe
    have hcut := h.headed je fe balances
    rw [hm] at hu ⊢
    rw [hm'] at hp ⊢
    refine ⟨hu, hp, ?_, congrArg (map Vote.rotate) h.votes, rfl, ?_⟩
    · exact ⟨hcut.length, rfl, rfl, hcut.parentOf, hcut.rootAt, hcut.epochsAt, hcut.weightAt,
        hcut.links⟩
    · intro i hi r hr
      refine h.dropped i hi r ?_
      rw [← hr]
      exact (congrFun (rootAt_headed u je fe balances) i).symm

theorem run (h : PrunedCopy k removed u p) (hF : p.hasNode F = true) {later : List Op}
    (hlater : ∀ op ∈ later, Spares removed op) :
    PrunedCopy k removed (u.run later) (p.run later) ∧ (p.run later).hasNode F = true := by
  induction later generalizing u p with
  | nil => exact ⟨h, hF⟩
  | cons op later ih =>
    have hop := hlater op mem_cons_self
    have hprune : ∀ F', op ≠ .prune F' := by
      rintro F' rfl
      exact hop
    exact ih (h.step hop) (hasNode_step h.rest hprune hF)
      fun op' hop' => hlater op' (mem_cons_of_mem _ hop')

end PrunedCopy

/-- The root was in the store and is removed by `Prune`. -/
def RemovedBy (u : ForkChoice) (F r : Root) : Prop :=
  u.hasNode r = true ∧ (u.step (.prune F)).hasNode r = false

/-- After `Prune` for a root in the store the relation holds, with that block
among those that are left. -/
theorem prunedCopy_prune (h : u.store.WellFormed) (hF : u.hasNode F = true) :
    ∃ k, PrunedCopy k (RemovedBy u F) u (u.step (.prune F)) ∧
      (u.step (.prune F)).hasNode F = true := by
  have hp := step_wellFormed h (.prune F)
  obtain ⟨k, hk⟩ := TreeMap.contains_iff.mp hF
  by_cases hlt : k < u.store.pruneThreshold
  · have hstep : u.step (.prune F) = u := by
      simp only [step_prune h, prunedAt, hk, if_pos hlt]
    rw [hstep] at hp ⊢
    exact ⟨0, ⟨h, hp, Store.CutFrom.refl _, rfl, rfl, by omega⟩, hF⟩
  · have hstep : u.step (.prune F) = { u with store := u.store.pruned k } := by
      simp only [step_prune h, prunedAt, hk, if_neg hlt]
    have hcut := h.cutFrom_pruned (h.lt_length_of_nodesIndices hk).le
    refine ⟨k, ⟨h, hp, ?_, ?_, ?_, ?_⟩, ?_⟩
    · rw [hstep]
      exact hcut
    · rw [hstep]
    · rw [hstep]
    · intro i hi r hr
      refine ⟨?_, ?_⟩
      · exact TreeMap.contains_iff.mpr ⟨i, h.rootAt_iff.mpr hr⟩
      · rw [hstep, hasNode, TreeMap.contains_eq_false_iff]
        by_contra hsome
        obtain ⟨j, hj⟩ := ne_none_iff_exists'.mp hsome
        have hj' := (hcut.nodesIndices h (h.pruned k)).mp hj
        have hij := Option.some.inj ((h.rootAt_iff.mpr hr).symm.trans hj')
        omega
    · have hzero : (u.store.pruned k).nodesIndices[F]? = some 0 :=
        (hcut.nodesIndices h (h.pruned k)).mpr (by rwa [zero_add])
      rw [hstep]
      exact TreeMap.contains_iff.mpr ⟨0, hzero⟩

/-- Pruning is invisible above the finalized block. After any run, let one
copy call `Prune` for a root `F` in the store and the other not, and let both
take the same further calls of `ProcessBlock`, `ProcessAttestation` and
`Head`, where none of the roots that were removed is inserted again. Then the
copies have the same descendants of `F` with the same weights, parents, best
children and best descendants, and a `Head` from `F` or a descendant of `F`
returns the same root or fails in both. -/
theorem pruning_invisible_above_finalized (je fe : Epoch) (finalizedRoot F : Root)
    (ops later : List Op) (hF : ((ForkChoice.new je fe finalizedRoot).run ops).hasNode F = true)
    (hlater : ∀ op ∈ later,
      Spares (RemovedBy ((ForkChoice.new je fe finalizedRoot).run ops) F) op) :
    let u := ((ForkChoice.new je fe finalizedRoot).run ops).run later
    let p := (((ForkChoice.new je fe finalizedRoot).run ops).step (.prune F)).run later
    Store.SameAbove F u.store p.store ∧
      ∀ (j : Epoch) (r : Root) (balances : List Gwei) (fin : Epoch), u.store.OnChainOf r F →
        (p.outcome (.head .background j r balances fin)).toOption =
          (u.outcome (.head .background j r balances fin)).toOption := by
  have h := run_wellFormed (new_wellFormed je fe finalizedRoot) ops
  obtain ⟨k, hcopy, hnode⟩ := prunedCopy_prune h hF
  obtain ⟨hcopy', hnode'⟩ := hcopy.run hnode hlater
  have hsame := hcopy'.cut.sameAbove hcopy'.full hcopy'.rest hnode'
  refine ⟨hsame, fun j r balances fin hr => hcopy'.outcome_head j balances fin ?_⟩
  obtain ⟨t, -, ht, -⟩ := (hsame r).1.mpr hr
  exact TreeMap.contains_iff.mpr ⟨_, ht⟩

/-- Block 1000, more blocks than the prune threshold, and then their parent, block 2000, which is
a child of block 1000. -/
def wideOps : List Op :=
  .processBlock 0 1000 0 0 1 1 ::
    ((range 256).map (fun i => .processBlock 2 (BitVec.ofNat 256 (i + 1)) 2000 0 1 1) ++
      [.processBlock 1 2000 1000 0 1 1])

set_option maxRecDepth 10000 in
theorem pruning_invisible_above_last_block :
    let u := (ForkChoice.new 1 1 0).run wideOps
    let later : List Op := [.processBlock 2 3000 2000 0 1 1]
    Store.SameAbove 2000 (u.run later).store ((u.step (.prune 2000)).run later).store := by
  obtain ⟨hnew, hlast⟩ : ((ForkChoice.new 1 1 0).run wideOps).hasNode 3000 = false ∧
      ((ForkChoice.new 1 1 0).run wideOps).hasNode 2000 = true := by decide +kernel
  refine (pruning_invisible_above_finalized 1 1 0 2000 wideOps [.processBlock 2 3000 2000 0 1 1]
    hlast fun op hop => ?_).1
  rw [mem_singleton.mp hop]
  exact fun hremoved => absurd (hremoved.1.symm.trans hnew) (by simp)

theorem run_processBlock_known (h : u.store.WellFormed) (slot : Slot) {q g : Root}
    {je fe : Epoch} (hr : u.hasNode r = true) : u.run [.processBlock slot r q g je fe] = u := by
  have hr' : u.store.nodesIndices.contains r = true := hr
  change u.step (.processBlock slot r q g je fe) = u
  rw [step_processBlock h, if_pos hr']

/-- From the block that was inserted last `Head` leads nowhere else. -/
theorem outcome_head_last (h : u.store.WellFormed) {je fe : Epoch} {i : ℕ}
    (balances : List Gwei) (hr : u.store.nodesIndices[r]? = some i)
    (hlen : u.store.nodes.length = i + 1)
    (hviable : (u.store.withEpochs je fe).viableAt i = true) :
    u.outcome (.head .background je r balances fe) = .ok (some r) := by
  have hwf := headed_wellFormed h je fe balances
  have hlen' := (length_headed u je fe balances).trans hlen
  have hbelow := hwf.sound.below_tip i
  have hlt := Store.lt_length_of_below hbelow (by omega)
  have hle : i ≤ tip (u.headed je fe balances).store.links i := hwf.ranked.rank_le_of_below hbelow
  have htip : tip (u.headed je fe balances).store.links i = i := by omega
  obtain ⟨n, hn, hroot⟩ := (hwf.indices r i).mp hr
  rw [← viableAt_headed u je fe balances, Store.viableAt_of_getElem? hn] at hviable
  rw [outcome_head_known h je balances fe hr (by rw [htip]; exact hn), hviable, if_pos rfl, hroot]

set_option maxRecDepth 10000 in
/-- Block 1 was inserted before its parent, is removed by `Prune` and inserted again, now
as a child of the finalized block 2000. The copy that still knows it ignores the second
insertion. And a cancelled context only stops the copy that still has ancestors to mark. -/
theorem pruning_visible_by_removed_root :
    let u := (ForkChoice.new 1 1 0).run wideOps
    let later : List Op := [.processBlock 2 1 2000 0 1 1]
    u.hasNode 2000 = true ∧
    ((u.run later).outcome (.head .background 1 2000 [] 1)).toOption = some (some 2000) ∧
    (((u.step (.prune 2000)).run later).outcome (.head .background 1 2000 [] 1)).toOption =
      some (some 1) ∧
    (u.outcome (.head ⟨some 0⟩ 1 2000 [] 1)).toOption = none ∧
    ((u.step (.prune 2000)).outcome (.head ⟨some 0⟩ 1 2000 [] 1)).toOption = some (some 2000) := by
  have hwf := run_wellFormed (new_wellFormed 1 1 0) wideOps
  have hknown : ((ForkChoice.new 1 1 0).run wideOps).hasNode 1 = true ∧
      ((ForkChoice.new 1 1 0).run wideOps).store.nodesIndices[(2000 : Root)]? = some 257 ∧
      ((ForkChoice.new 1 1 0).run wideOps).store.nodes.length = 258 ∧
      (((ForkChoice.new 1 1 0).run wideOps).store.withEpochs 1 1).viableAt 257 = true := by
    decide +kernel
  obtain ⟨hone, hlast, hlen, hviable⟩ := hknown
  refine ⟨?_, ?_, by decide +kernel, by decide +kernel, by decide +kernel⟩
  · exact TreeMap.contains_iff.mpr ⟨_, hlast⟩
  · rw [run_processBlock_known hwf 2 hone, outcome_head_last hwf [] hlast hlen hviable]
    rfl

end ForkChoice

end Vanguard.ProtoArray
