import Vanguard.ProtoArray.Invariant

/-!
`Head` is LMD-GHOST.

The links that `applyWeightChanges` starts from are those left by earlier
insertions and earlier calls of `Head`, made for other epochs. They are
repaired by one sweep over the array if no viable node has several children
none of which leads to a viable node. This is so when epochs never decrease
along a branch and the epochs asked for are at least those of all nodes: then
a child of a viable node is viable itself.
-/

namespace Vanguard.ProtoArray

open Forest BestChild EState Run

namespace Store

variable {s : Store}

/-- After a sweep the best descendant is the end of the walk, or neither of
the two is viable. -/
theorem WellFormed.tip_swept (h : s.WellFormed) (hsettled : Settled s.parentOf s.viableAt)
    (i : ℕ) :
    ∃ t, Walk s.parentOf s.viableAt s.keyAt i t ∧
      s.viableAt (tip s.swept.links i) = s.viableAt t ∧
      (s.viableAt t = true → tip s.swept.links i = t) := by
  have hlinks : s.swept.links =
      sweep s.parentOf s.viableAt s.keyAt (List.range s.nodes.length).reverse s.links :=
    links_relink (h.sound.sweep _) h.parent_lt
  have hord : ChildrenFirst s.parentOf (List.range s.nodes.length).reverse :=
    childrenFirst_reverse_range fun c p hc => ⟨h.parentOf_lt hc, lt_length_of_parentOf hc⟩
  have hall : ∀ x p, s.parentOf x = some p → x ∈ (List.range s.nodes.length).reverse := by
    intro x p hx
    simpa using lt_length_of_parentOf hx
  rw [hlinks]
  exact tip_sweep h.ranked h.sound hsettled _ hord hall i

theorem WellFormed.keyAt_injective (h : s.WellFormed) {x y p : ℕ} (hx : s.parentOf x = some p)
    (hy : s.parentOf y = some p) (hkey : s.keyAt x = s.keyAt y) : x = y := by
  obtain ⟨n, hn, -⟩ := parentOf_eq_some.mp hx
  obtain ⟨m, hm, -⟩ := parentOf_eq_some.mp hy
  rw [keyAt_of_getElem? hn, keyAt_of_getElem? hm] at hkey
  have hroot : n.root.toNat = m.root.toNat := (Prod.mk.inj (toLex.injective hkey)).2
  exact h.index_unique hn hm (BitVec.eq_of_toNat_eq hroot)

/-- Epochs never decrease from a node to its children. -/
def EpochsMonotone (s : Store) : Prop :=
  ∀ c p e e', s.parentOf c = some p → s.epochsAt p = some e → s.epochsAt c = some e' →
    e.1 ≤ e'.1 ∧ e.2 ≤ e'.2

def EpochsBounded (s : Store) (justifiedEpoch finalizedEpoch : Epoch) : Prop :=
  ∀ n ∈ s.nodes, n.justifiedEpoch ≤ justifiedEpoch ∧ n.finalizedEpoch ≤ finalizedEpoch

instance (s : Store) (je fe : Epoch) : Decidable (s.EpochsBounded je fe) :=
  inferInstanceAs (Decidable (∀ n ∈ s.nodes, _))

theorem epoch_inherited {wanted parent child : Epoch} (hle : parent ≤ child)
    (hbound : child ≤ wanted) (h : (wanted == parent || wanted == 0) = true) :
    (wanted == child || wanted == 0) = true := by
  simp only [Bool.or_eq_true, beq_iff_eq] at h ⊢
  rcases h with rfl | h
  · exact Or.inl (BitVec.le_antisymm hle hbound)
  · exact Or.inr h

theorem viableAt_child (h : s.WellFormed) (hmono : s.EpochsMonotone)
    (hbound : s.EpochsBounded s.justifiedEpoch s.finalizedEpoch) {c p : ℕ}
    (hc : s.parentOf c = some p) (hp : s.viableAt p = true) : s.viableAt c = true := by
  obtain ⟨n, hn, -⟩ := parentOf_eq_some.mp hc
  have hplen : p < s.nodes.length := (h.parentOf_lt hc).trans (lt_length_of_parentOf hc)
  have hm := List.getElem?_eq_getElem hplen
  have hpe : s.epochsAt p = some (s.nodes[p].justifiedEpoch, s.nodes[p].finalizedEpoch) := by
    rw [epochsAt, hm]
    rfl
  have hce : s.epochsAt c = some (n.justifiedEpoch, n.finalizedEpoch) := by simp [epochsAt, hn]
  obtain ⟨hj, hf⟩ := hmono c p _ _ hc hpe hce
  obtain ⟨hjb, hfb⟩ := hbound n (List.mem_of_getElem? hn)
  rw [viableAt_of_getElem? hm, viableForHead, Bool.and_eq_true] at hp
  rw [viableAt_of_getElem? hn, viableForHead, Bool.and_eq_true]
  exact ⟨epoch_inherited hj hjb hp.1, epoch_inherited hf hfb hp.2⟩

theorem settled_of_epochs (h : s.WellFormed) (hmono : s.EpochsMonotone)
    (hbound : s.EpochsBounded s.justifiedEpoch s.finalizedEpoch) :
    Settled s.parentOf s.viableAt := by
  intro p c _ hp hc _ _
  exact ⟨c, hc, LeadsTo.of_viable (viableAt_child h hmono hbound hc hp)⟩

/-! ### Epochs stay monotone -/

theorem EpochsMonotone.congr (hmono : s.EpochsMonotone) {s' : Store}
    (hp : s'.parentOf = s.parentOf) (he : s'.epochsAt = s.epochsAt) : s'.EpochsMonotone := by
  intro c p e e'
  rw [hp, he]
  exact hmono c p e e'

theorem EpochsMonotone.pruned (hmono : s.EpochsMonotone) (k : ℕ) : (s.pruned k).EpochsMonotone := by
  intro c p e e' hc
  rw [epochsAt_pruned, epochsAt_pruned]
  exact hmono _ _ e e' (parentOf_pruned.mp hc)

theorem EpochsMonotone.inserted (h : s.WellFormed) (hmono : s.EpochsMonotone) {n : Node}
    (hparent : ∀ p m, n.parent = some p → s.nodes[p]? = some m →
      m.justifiedEpoch ≤ n.justifiedEpoch ∧ m.finalizedEpoch ≤ n.finalizedEpoch) :
    (s.inserted n).EpochsMonotone := by
  have happend : (s.append n).EpochsMonotone := by
    intro c p e e' hc he he'
    by_cases hnew : c = s.nodes.length
    · subst hnew
      rw [parentOf_append_length] at hc
      by_cases hp : p = s.nodes.length
      · -- the new node is not its own parent: compare it with itself
        subst hp
        obtain rfl := Option.some.inj (he.symm.trans he')
        exact ⟨BitVec.le_refl _, BitVec.le_refl _⟩
      · rw [epochsAt_append_of_ne hp] at he
        obtain ⟨m, hm, rfl⟩ := Option.map_eq_some_iff.mp he
        simp only [epochsAt, getElem?_append_length, Option.map_some, Option.some.injEq] at he'
        subst he'
        exact hparent p m hc hm
    · rw [parentOf_append_of_ne hnew] at hc
      have hlt := h.parentOf_lt hc
      have hlen := lt_length_of_parentOf hc
      rw [epochsAt_append_of_ne (by omega)] at he he'
      exact hmono c p e e' hc he he'
  exact happend.congr (parentOf_relink _ _) (epochsAt_relink _ _)

end Store

namespace ForkChoice

variable {f : ForkChoice} {r : Root}

theorem outcome_head_unknown (h : f.store.WellFormed) (ctx : Ctx) (je : Epoch)
    (balances : List Gwei) (fe : Epoch) (hr : f.store.nodesIndices[r]? = none) :
    f.outcome (.head ctx je r balances fe) = .error .unknownJustifiedRoot := by
  have hhead : ForkChoice.head ctx je r balances fe f =
      .error .unknownJustifiedRoot (f.headed je fe balances) := by
    have hlookup : Store.head ctx r (f.headed je fe balances).store =
        .error .unknownJustifiedRoot (f.headed je fe balances).store := Store.head_of_none ctx hr
    rw [head_eq h, onStore, hlookup]
  rw [outcome, Op.call, bind_error hhead]

/-- `Head` returns the root of the best descendant of the justified block, if
it is viable, and fails otherwise. -/
theorem outcome_head_known (h : f.store.WellFormed) (je : Epoch)
    (balances : List Gwei) (fe : Epoch) {i : ℕ} (hr : f.store.nodesIndices[r]? = some i) {n : Node}
    (hn : (f.headed je fe balances).store.nodes[tip (f.headed je fe balances).store.links i]? =
      some n) :
    f.outcome (.head .background je r balances fe) =
      if (f.headed je fe balances).store.viableForHead n then .ok (some n.root)
      else .error (.headNotEligible n.slot (n.weight / 10000000000) n.finalizedEpoch fe
        n.justifiedEpoch je) := by
  have hwf := headed_wellFormed h je fe balances
  have hlookup := Store.head_of_some hwf .background hr hn
  cases hv : (f.headed je fe balances).store.viableForHead n with
  | true =>
    rw [hv, if_pos rfl] at hlookup
    obtain ⟨m, hok | ⟨hctx, -⟩⟩ := Store.updateCanonicalNodes_cases hwf .background hn
    · rw [bind_ok hok, pure_apply] at hlookup
      have hhead : ForkChoice.head .background je r balances fe f =
          .ok n.root ((f.headed je fe balances).withMarks m) := by
        rw [head_eq h, onStore, hlookup]
        rfl
      rw [outcome, Op.call, bind_ok hhead]
      rfl
    · exact absurd rfl hctx
  | false =>
    rw [hv] at hlookup
    have hhead : ForkChoice.head .background je r balances fe f =
        .error (.headNotEligible n.slot (n.weight / 10000000000) n.finalizedEpoch fe
          n.justifiedEpoch je) (f.headed je fe balances) := by
      rw [head_eq h, onStore, hlookup]
      rfl
    rw [outcome, Op.call, bind_error hhead]
    rfl

/-! ### Runs -/

/-- Blocks are inserted with epochs at least those of their parent, and
`Head` is asked, with a live context, for epochs at least those of all
nodes. -/
def EpochsRespected (f : ForkChoice) : Op → Prop
  | .processBlock _ root parent _ je fe => f.store.nodesIndices.contains root = false →
      ∀ n ∈ f.store.nodes, n.root = parent → n.justifiedEpoch ≤ je ∧ n.finalizedEpoch ≤ fe
  | .head ctx je _ _ fe => ctx = .background ∧ f.store.EpochsBounded je fe
  | .processAttestation _ _ _ => True
  | .prune _ => True

instance (f : ForkChoice) (op : Op) : Decidable (f.EpochsRespected op) :=
  match op with
  | .processBlock .. | .processAttestation .. | .prune .. | .head .. => by
    unfold EpochsRespected
    infer_instance

theorem step_epochsMonotone (h : f.store.WellFormed) (hmono : f.store.EpochsMonotone) {op : Op}
    (hok : f.EpochsRespected op) : (f.step op).store.EpochsMonotone := by
  cases op with
  | processBlock slot r p g je fe =>
    rw [step_processBlock h]
    cases hr : f.store.nodesIndices.contains r with
    | true => simpa using hmono
    | false =>
      refine Store.EpochsMonotone.inserted h hmono ?_
      intro k m hk hm
      obtain ⟨m', hm', hroot⟩ := (h.indices p k).mp hk
      obtain rfl := Option.some.inj (hm.symm.trans hm')
      exact hok hr m (List.mem_of_getElem? hm) hroot
  | processAttestation vs r target => exact hmono
  | prune r =>
    rw [step_prune h]
    unfold prunedAt
    split
    · exact hmono
    · split
      · exact hmono
      · exact hmono.pruned _
  | head ctx je r balances fe =>
    obtain ⟨m, hm⟩ := step_head h ctx je r balances fe
    rw [hm]
    exact hmono.congr (parentOf_headed f je fe balances) (epochsAt_headed f je fe balances)

theorem new_epochsMonotone (je fe : Epoch) (r : Root) :
    (ForkChoice.new je fe r).store.EpochsMonotone := by
  intro c p e e' hc
  simp [Store.parentOf, ForkChoice.new] at hc

theorem run_epochsMonotone (h : f.store.WellFormed) (hmono : f.store.EpochsMonotone)
    {ops : List Op} (hok : Admits step EpochsRespected f ops) : (f.run ops).store.EpochsMonotone :=
  (invariant (I := fun f : ForkChoice => f.store.WellFormed ∧ f.store.EpochsMonotone)
    (fun _ op hf hop => ⟨step_wellFormed hf.1 op, step_epochsMonotone hf.1 hf.2 hop⟩)
    ⟨h, hmono⟩ hok).2

theorem epochsBounded_headed {je fe : Epoch} (hbound : f.store.EpochsBounded je fe)
    (balances : List Gwei) : (f.headed je fe balances).store.EpochsBounded je fe := by
  intro n hn
  obtain ⟨i, hi⟩ := List.getElem?_of_mem hn
  have he : f.store.epochsAt i = some (n.justifiedEpoch, n.finalizedEpoch) := by
    rw [← epochsAt_headed f je fe balances, Store.epochsAt, hi]
    rfl
  obtain ⟨m, hm, heq⟩ := Option.map_eq_some_iff.mp he
  obtain ⟨hj, hf⟩ := Prod.mk.inj heq
  rw [← hj, ← hf]
  exact hbound m (List.mem_of_getElem? hm)

/-- One call of `Head` on a store whose viability is settled: it fails or
returns according to the walk from the justified block. -/
theorem head_walk (h : f.store.WellFormed) {je fe : Epoch} {balances : List Gwei}
    (hsettled : Settled f.store.parentOf (f.headed je fe balances).store.viableAt) {i : ℕ}
    (hr : f.store.nodesIndices[r]? = some i) :
    ∃ t, ∃ n : Node, Walk f.store.parentOf (f.headed je fe balances).store.viableAt
        (f.headed je fe balances).store.keyAt i t ∧
      (f.headed je fe balances).store.nodes[t]? = some n ∧
      if (f.headed je fe balances).store.viableForHead n then
        f.outcome (.head .background je r balances fe) = .ok (some n.root)
      else ∃ e, f.outcome (.head .background je r balances fe) = .error e := by
  let s₁ := f.store.reweighed je fe (f.voteDelta balances)
  have h₁ : s₁.WellFormed := h.reweighed je fe _
  have hwf := headed_wellFormed h je fe balances
  have hparent : s₁.parentOf = f.store.parentOf := by
    rw [← parentOf_headed f je fe balances]
    exact (Store.parentOf_relink _ _).symm
  have hviable : (f.headed je fe balances).store.viableAt = s₁.viableAt := Store.viableAt_relink _ _
  have hkey : (f.headed je fe balances).store.keyAt = s₁.keyAt := Store.keyAt_relink _ _
  rw [hviable, ← hparent] at hsettled
  obtain ⟨t, hwalk, hsame, htip⟩ := h₁.tip_swept hsettled i
  have hilen := hwf.lt_length_of_nodesIndices hr
  obtain ⟨m, hm⟩ := hwf.getElem?_tip hilen
  have hbelow : Below s₁.parentOf t i := hwalk.end_below
  have htlen : t < (f.headed je fe balances).store.nodes.length := by
    apply Store.lt_length_of_below _ hilen
    rw [parentOf_headed, ← hparent]
    exact hbelow
  have hn := List.getElem?_eq_getElem htlen
  have houtcome := outcome_head_known h je balances fe hr hm
  have hvt := Store.viableAt_of_getElem? hn
  have hvm := Store.viableAt_of_getElem? hm
  rw [hviable] at hvt hvm
  refine ⟨t, _, ?_, hn, ?_⟩
  · rw [hviable, hkey, ← hparent]
    exact hwalk
  · cases hv : s₁.viableAt t with
    | true =>
      rw [← hvt, hv, if_pos rfl]
      have heq : tip (f.headed je fe balances).store.links i = t := htip hv
      rw [heq] at hm
      obtain rfl := Option.some.inj (hn.symm.trans hm)
      rw [houtcome, ← hvt, hv, if_pos rfl]
    | false =>
      rw [← hvt, hv]
      have hvm' : (f.headed je fe balances).store.viableForHead m = false := by
        rw [← hvm]
        exact hsame.trans hv
      rw [houtcome, hvm']
      exact ⟨_, rfl⟩

/-- The answer of LMD-GHOST to a call of `Head`. The call fails if the
justified root is unknown. Otherwise the walk from its node, to the child with
the largest weight and then root among those whose subtree holds a viable
node, ends in exactly one node. The call returns the root of that node or, if
the node is not viable, fails. Weights are those that the call leaves. -/
def AnswersGhost (f : ForkChoice) (j : Epoch) (r : Root) (balances : List Gwei) (fin : Epoch) :
    Prop :=
  let result := f.outcome (.head .background j r balances fin)
  let s := (f.step (.head .background j r balances fin)).store
  (s.justifiedEpoch = j ∧ s.finalizedEpoch = fin) ∧
    match s.nodesIndices[r]? with
    | none => ∃ e, result = .error e
    | some i => ∃ h, ∃ n : Node, s.nodes[h]? = some n ∧
        (∀ h', Walk s.parentOf s.viableAt s.keyAt i h' ↔ h' = h) ∧
        if s.viableForHead n then result = .ok (some n.root) else ∃ e, result = .error e

/-- Fork choice `Head` is LMD-GHOST in every run from `New` that respects
epochs. -/
theorem head_is_lmd_ghost (je₀ fe₀ : Epoch) (finalizedRoot : Root) (ops : List Op)
    (j fin : Epoch) (r : Root) (balances : List Gwei)
    (hok : Admits step EpochsRespected (ForkChoice.new je₀ fe₀ finalizedRoot)
      (ops ++ [.head .background j r balances fin])) :
    ((ForkChoice.new je₀ fe₀ finalizedRoot).run ops).AnswersGhost j r balances fin := by
  obtain ⟨hops, ⟨-, hbound⟩, -⟩ := admits_append.mp hok
  have hnew := new_wellFormed je₀ fe₀ finalizedRoot
  have hwf := run_wellFormed hnew ops
  have hmono := run_epochsMonotone hnew (new_epochsMonotone je₀ fe₀ finalizedRoot) hops
  change ((ForkChoice.new je₀ fe₀ finalizedRoot).run ops).store.EpochsBounded j fin at hbound
  generalize (ForkChoice.new je₀ fe₀ finalizedRoot).run ops = f at hwf hmono hbound ⊢
  obtain ⟨m, hm⟩ := step_head hwf .background j r balances fin
  have hsettled : Settled f.store.parentOf (f.headed j fin balances).store.viableAt := by
    rw [← parentOf_headed f j fin balances]
    exact Store.settled_of_epochs (headed_wellFormed hwf j fin balances)
      (hmono.congr (parentOf_headed _ _ _ _) (epochsAt_headed _ _ _ _))
      (epochsBounded_headed hbound balances)
  rw [AnswersGhost, hm]
  refine ⟨⟨rfl, rfl⟩, ?_⟩
  change match f.store.nodesIndices[r]? with
    | none => _
    | some i => _
  cases hr : f.store.nodesIndices[r]? with
  | none => exact ⟨_, outcome_head_unknown hwf .background j balances fin hr⟩
  | some i =>
    obtain ⟨t, n, hwalk, hn, hres⟩ := head_walk hwf hsettled hr
    rw [← parentOf_headed f j fin balances] at hwalk
    refine ⟨t, n, hn, fun h' => ⟨fun hw => ?_, ?_⟩, hres⟩
    · exact Walk.unique (fun x y p hx hy hxy =>
        (headed_wellFormed hwf j fin balances).keyAt_injective hx hy hxy) hw hwalk
    · rintro rfl
      exact hwalk

/-- A fork of two blocks, where the vote is for the one that is not viable. -/
theorem head_is_lmd_ghost_at_fork :
    let f := (ForkChoice.new 1 1 0).run
      [.processBlock 0 1 0 0 1 1, .processBlock 1 2 1 0 1 1, .processBlock 1 3 1 0 2 1,
        .processAttestation [0] 2 1]
    f.AnswersGhost 2 1 [10] 1 ∧ f.outcome (.head .background 2 1 [10] 1) = .ok (some 3) :=
  ⟨head_is_lmd_ghost 1 1 0 _ 2 1 1 [10] (by decide +kernel), by decide +kernel⟩

end ForkChoice

end Vanguard.ProtoArray
