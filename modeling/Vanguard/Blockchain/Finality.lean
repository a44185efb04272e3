import Vanguard.Blockchain.Justification

/-!
The two ways of `onBlock` to handle a newer finalized checkpoint.

Without `UpdateHeadTimely` the finalized checkpoint is assigned first, and the
justified block is then tested against it, as the specification asks. With
`UpdateHeadTimely` the test comes before the assignment, so that it is against
the old finalized checkpoint, and `updateHead` may promote the best justified
checkpoint afterwards. If nothing outside fails, these are the only differences.
-/

namespace Vanguard.Blockchain

open Forest EState
open ProtoArray (ForkChoice)

variable {r : Root} {c : Checkpoint}

namespace Service

variable {s : Service}

/-! ### The specification -/

/-- The block of `c` is in chain with the checkpoint `f`. -/
def InChainWith (cfg : Config) (s : Service) (c f : Checkpoint) : Prop :=
  s.getAncestor (s.ensureRootNotZeros c.root) (cfg.slotsPerEpoch * f.epoch) = some f.root

instance (cfg : Config) (s : Service) (c f : Checkpoint) : Decidable (s.InChainWith cfg c f) :=
  inferInstanceAs (Decidable (_ = _))

/-- The justified and the finalized checkpoint after `on_block` of the
specification, as the comment of `onBlock` quotes it. The outcome of
`should_update_justified_checkpoint` is left open. -/
def specCheckpoints (cfg : Config) (s : Service) (shouldUpdate : Bool) (st : BeaconState) :
    Checkpoint × Checkpoint :=
  let new := st.currentJustifiedCheckpoint
  let justified :=
    if s.justifiedCheckpt.epoch < new.epoch ∧ shouldUpdate = true then new
    else s.justifiedCheckpt
  if s.finalizedCheckpt.epoch < st.finalizedCheckpoint.epoch then
    let finalized := st.finalizedCheckpoint
    if justified ≠ new then
      if justified.epoch < new.epoch then (new, finalized)
      else if ¬ s.InChainWith cfg justified finalized then (new, finalized)
      else (justified, finalized)
    else (justified, finalized)
  else (justified, s.finalizedCheckpt)

/-- The justified checkpoint after a test against the finalized checkpoint `f`. -/
def impliedJustified (cfg : Config) (s : Service) (f new : Checkpoint) : Checkpoint :=
  if s.justifiedCheckpt.epoch < new.epoch ∨
      s.justifiedCheckpt ≠ new ∧ ¬ s.InChainWith cfg s.justifiedCheckpt f
  then new else s.justifiedCheckpt

/-- With a newer finalized checkpoint it does not matter whether the justified
checkpoint could be updated before. -/
theorem specCheckpoints_eq (cfg : Config) (shouldUpdate : Bool) {st : BeaconState}
    (hnew : s.finalizedCheckpt.epoch < st.finalizedCheckpoint.epoch) :
    s.specCheckpoints cfg shouldUpdate st =
      (s.impliedJustified cfg st.finalizedCheckpoint st.currentJustifiedCheckpoint,
        st.finalizedCheckpoint) := by
  rw [specCheckpoints, impliedJustified]
  dsimp only
  rw [if_pos hnew]
  by_cases hlater : s.justifiedCheckpt.epoch < st.currentJustifiedCheckpoint.epoch
  · cases shouldUpdate with
    | true => simp [hlater]
    | false =>
      have hne : s.justifiedCheckpt ≠ st.currentJustifiedCheckpoint := by
        intro heq
        rw [heq] at hlater
        exact BitVec.lt_irrefl _ hlater
      simp [hlater, hne]
  · simp only [hlater, false_and, if_false, false_or]
    by_cases hne : s.justifiedCheckpt = st.currentJustifiedCheckpoint
    · simp [hne]
    · by_cases hchain : s.InChainWith cfg s.justifiedCheckpt st.finalizedCheckpoint <;>
        simp [hne, hchain]

/-- `updateHead` prefers a later best justified checkpoint. -/
def promoted (best j : Checkpoint) : Checkpoint := if j.epoch < best.epoch then best else j

/-! ### When the two ways agree -/

/-- The test has the same outcome for the old and the new finalized checkpoint
and no later best justified checkpoint is waiting; or `updateHead` undoes the
wrong outcome. -/
def PathsAgree (cfg : Config) (s : Service) (st : BeaconState) : Prop :=
  let j := s.justifiedCheckpt
  let new := st.currentJustifiedCheckpoint
  let wanted := s.impliedJustified cfg st.finalizedCheckpoint new
  (s.bestJustifiedCheckpt.epoch ≤ wanted.epoch ∧
    (j.epoch < new.epoch ∨ j = new ∨
      (s.InChainWith cfg j s.finalizedCheckpt ↔ s.InChainWith cfg j st.finalizedCheckpoint))) ∨
  (new.epoch < j.epoch ∧ s.bestJustifiedCheckpt = j ∧
    ¬ s.InChainWith cfg j s.finalizedCheckpt ∧ s.InChainWith cfg j st.finalizedCheckpoint)

instance (cfg : Config) (s : Service) (st : BeaconState) : Decidable (s.PathsAgree cfg st) :=
  inferInstanceAs (Decidable (_ ∨ _))

theorem promoted_eq_iff {best j wanted : Checkpoint} :
    promoted best j = wanted ↔
      j = wanted ∧ best.epoch ≤ wanted.epoch ∨ best = wanted ∧ j.epoch < wanted.epoch := by
  rw [promoted]
  constructor
  · intro h
    split at h
    · rename_i hlt
      exact .inr ⟨h, h ▸ hlt⟩
    · rename_i hlt
      exact .inl ⟨h, h ▸ BitVec.not_lt.mp hlt⟩
  · rintro (⟨rfl, hle⟩ | ⟨rfl, hlt⟩)
    · exact if_neg (BitVec.not_lt.mpr hle)
    · exact if_pos hlt

/-- The condition says that promoting after the test against the old finalized
checkpoint gives what the test against the new one does. -/
theorem promoted_impliedJustified_iff (cfg : Config) (st : BeaconState) :
    promoted s.bestJustifiedCheckpt
        (s.impliedJustified cfg s.finalizedCheckpt st.currentJustifiedCheckpoint) =
      s.impliedJustified cfg st.finalizedCheckpoint st.currentJustifiedCheckpoint ↔
    s.PathsAgree cfg st := by
  rw [promoted_eq_iff, PathsAgree]
  generalize st.currentJustifiedCheckpoint = new
  by_cases hlater : s.justifiedCheckpt.epoch < new.epoch
  · have hnot : ¬ new.epoch < s.justifiedCheckpt.epoch := BitVec.not_lt.mpr (BitVec.le_of_lt hlater)
    simp [impliedJustified, hlater, hnot]
  by_cases heq : s.justifiedCheckpt = new
  · simp [impliedJustified, heq]
  by_cases hold : s.InChainWith cfg s.justifiedCheckpt s.finalizedCheckpt <;>
    by_cases hnew : s.InChainWith cfg s.justifiedCheckpt st.finalizedCheckpoint
  · simp [impliedJustified, hlater, heq, hold, hnew]
  · simp [impliedJustified, hlater, heq, hold, hnew]
  · simp [impliedJustified, hlater, heq, hold, hnew, Ne.symm heq, and_comm]
  · simp [impliedJustified, hlater, heq, hold, hnew]

/-! ### Undisturbed calls -/

/-- Slots grow along the chain, and chains are complete down to slot 0. -/
structure Rooted (s : Service) : Prop where
  slots : s.SlotsIncrease
  complete : ∀ r b, s.known r = some b → b.slot ≠ 0 → ∃ b', s.known b.parentRoot = some b'

theorem Rooted.exists_ancestorAt (h : s.Rooted) (slot : Slot) {b : Block}
    (hb : s.known r = some b) : ∃ a, AncestorAt s.tree slot r a := by
  induction hn : b.slot.toNat using Nat.strong_induction_on generalizing r b with
  | _ n ih =>
    have hblock : s.tree r = some (b.slot, b.parentRoot) := tree_eq_some.mpr ⟨b, hb, rfl, rfl⟩
    by_cases hslot : slot < b.slot
    · have hpos : b.slot ≠ 0 := by
        rintro hzero
        rw [hzero] at hslot
        exact absurd hslot (BitVec.not_lt_zero)
      obtain ⟨b', hb'⟩ := h.complete r b hb hpos
      have hlt := BitVec.lt_def.mp (h.slots r b b' hb hb')
      obtain ⟨a, ha⟩ := ih b'.slot.toNat (hn ▸ hlt) hb' rfl
      exact ⟨a, .up hblock hslot ha⟩
    · exact ⟨r, .here hblock hslot⟩

/-- The check of one known block. -/
def rootedAt (s : Service) (r : Root) : Bool :=
  match s.known r with
  | none => true
  | some b =>
    match s.known b.parentRoot with
    | none => b.slot = 0
    | some b' => b'.slot < b.slot

theorem rooted_of_rootedAt (h : (s.initSyncBlocks.keys ++ s.blocks.keys).all s.rootedAt = true) :
    s.Rooted := by
  have hat : ∀ r b, s.known r = some b → s.rootedAt r = true := fun r b hb =>
    List.all_eq_true.mp h r (List.mem_toFinset.mp (mem_roots hb))
  refine ⟨fun r b b' hb hb' => ?_, fun r b hb hslot => ?_⟩
  · have hr := hat r b hb
    simpa [rootedAt, hb, hb'] using hr
  · have hr := hat r b hb
    cases hb' : s.known b.parentRoot with
    | none => exact absurd (by simpa [rootedAt, hb, hb'] using hr) hslot
    | some b' => exact ⟨b', rfl⟩

theorem Rooted.congr {s' : Service} (h : s.Rooted) (hknown : s'.known = s.known) : s'.Rooted := by
  refine ⟨?_, ?_⟩
  · rw [SlotsIncrease, hknown]
    exact h.slots
  · rw [hknown]
    exact h.complete

end Service

/-- The balances `cacheJustifiedStateBalances` reads. -/
def Env.justifiedBalances (env : Env) (genesisRoot r : Root) : Option (List Gwei) :=
  if r = genesisRoot then env.genesisBalances else env.stateBalances r

/-- No consultation fails, the blocks and states that are asked for are there
and no start slot overflows. -/
structure Undisturbed (cfg : Config) (env : Env) (st : BeaconState) (w : World) : Prop where
  consistent : w.Consistent
  rooted : w.Rooted
  calm : w.answers = []
  justified : ∃ b, w.known (w.ensureRootNotZeros w.justifiedCheckpt.root) = some b
  newJustified :
    ∃ b, w.known (w.ensureRootNotZeros st.currentJustifiedCheckpoint.root) = some b
  balances :
    ∃ l, env.justifiedBalances w.genesisRoot st.currentJustifiedCheckpoint.root = some l
  finalizedNode : w.forkChoice.hasNode st.finalizedCheckpoint.root = true
  justifiedSlot : cfg.slotsPerEpoch.toNat * w.justifiedCheckpt.epoch.toNat < 2 ^ 64
  finalizedSlot : cfg.slotsPerEpoch.toNat * w.finalizedCheckpt.epoch.toNat < 2 ^ 64
  newFinalizedSlot : cfg.slotsPerEpoch.toNat * st.finalizedCheckpoint.epoch.toNat < 2 ^ 64

theorem startSlot_calm {cfg : Config} {e : Epoch}
    (h : cfg.slotsPerEpoch.toNat * e.toNat < 2 ^ 64) (w : World) :
    ofExcept (startSlot cfg e) w = .ok (cfg.slotsPerEpoch * e) w := by
  rw [startSlot, if_pos h]
  rfl

theorem cacheJustifiedStateBalances_calm {env : Env} {w : World} {l : List Gwei}
    (hcalm : w.answers = []) (hl : env.justifiedBalances w.genesisRoot r = some l) :
    ∃ w', cacheJustifiedStateBalances env r w = .ok () w' ∧ w'.answers = [] ∧
      w'.forkChoice = w.forkChoice := by
  let w₁ : World := { w with blocks := w.initSyncBlocks ∪ w.blocks, initSyncBlocks := ∅ }
  have hflush : flushInitSyncBlocks w = .ok () w₁ := by
    rw [flushInitSyncBlocks, bind_ok (external_calm hcalm)]
    rfl
  refine ⟨{ w₁ with justifiedBalances := l }, ?_, hcalm, rfl⟩
  rw [cacheJustifiedStateBalances, bind_ok hflush,
    bind_ok (external_calm (w := w₁) hcalm), get_bind]
  rw [Env.justifiedBalances] at hl
  rw [show w₁.genesisRoot = w.genesisRoot from rfl, hl]
  rfl

/-! ### The stages -/

theorem shouldUpdateCurrentJustified_calm {cfg : Config} {env : Env} {w : World}
    (hw : w.Consistent) (hrooted : w.Rooted) (hcalm : w.answers = [])
    (hjustified : ∃ b, w.known (w.ensureRootNotZeros w.justifiedCheckpt.root) = some b)
    (hnew : ∃ b, w.known (w.ensureRootNotZeros c.root) = some b)
    (hslot : cfg.slotsPerEpoch.toNat * w.justifiedCheckpt.epoch.toNat < 2 ^ 64) :
    ∃ canUpdate, shouldUpdateCurrentJustified cfg env c w = .ok canUpdate w := by
  obtain ⟨newBlock, hnewBlock⟩ := hnew
  obtain ⟨justifiedBlock, hjustifiedBlock⟩ := hjustified
  obtain ⟨a, ha⟩ := hrooted.exists_ancestorAt justifiedBlock.slot hnewBlock
  unfold shouldUpdateCurrentJustified
  by_cases hearly : slotsSinceEpochStarts cfg env.currentSlot < cfg.safeSlotsToUpdateJustified
  · exact ⟨true, by rw [if_pos hearly, pure_apply]⟩
  rw [if_neg hearly, get_bind, bind_ok (initSyncOrDBBlock_calm hcalm _), hnewBlock]
  dsimp only
  rw [bind_ok (startSlot_calm hslot w)]
  by_cases hold : newBlock.slot ≤ cfg.slotsPerEpoch * w.justifiedCheckpt.epoch
  · exact ⟨false, by rw [if_pos hold, pure_apply]⟩
  rw [if_neg hold, bind_ok (initSyncOrDBBlock_calm hcalm _), hjustifiedBlock]
  dsimp only
  rw [bind_ok (ancestor_calm hw.wellFormed hw.linked hcalm hrooted.slots ha)]
  exact ⟨_, rfl⟩

theorem updateJustifiedIfLater_calm {cfg : Config} {env : Env} {st : BeaconState} {w : World}
    (h : Undisturbed cfg env st w) :
    ∃ w₁, updateJustifiedIfLater cfg env st w = .ok () w₁ ∧ w₁.answers = [] ∧
      w₁.forkChoice = w.forkChoice ∧ w₁.finalizedCheckpt = w.finalizedCheckpt ∧
      (w₁.justifiedCheckpt = w.justifiedCheckpt ∧
          w₁.bestJustifiedCheckpt = w.bestJustifiedCheckpt ∨
        w.justifiedCheckpt.epoch < st.currentJustifiedCheckpoint.epoch ∧
          (w₁.justifiedCheckpt = w.justifiedCheckpt ∨
            w₁.justifiedCheckpt = st.currentJustifiedCheckpoint) ∧
          w₁.bestJustifiedCheckpt = Service.promoted st.currentJustifiedCheckpoint
            w.bestJustifiedCheckpt) := by
  rw [updateJustifiedIfLater, get_bind]
  by_cases hlater : w.justifiedCheckpt.epoch < st.currentJustifiedCheckpoint.epoch
  swap
  · rw [if_neg hlater]
    exact ⟨w, rfl, h.calm, rfl, rfl, .inl ⟨rfl, rfl⟩⟩
  rw [if_pos hlater]
  generalize hc : st.currentJustifiedCheckpoint = c at hlater ⊢
  let w₁ : World :=
    { w with bestJustifiedCheckpt := Service.promoted c w.bestJustifiedCheckpt }
  have htrack : trackBestJustified c w = .ok () w₁ := by
    rw [trackBestJustified_eq]
    dsimp only [w₁, Service.promoted]
    split <;> rfl
  have htree := ((sameTree_trackBestJustified c).ok htrack).tree h.consistent
  have hguard : ∃ canUpdate, shouldUpdateCurrentJustified cfg env c w₁ = .ok canUpdate w₁ := by
    refine shouldUpdateCurrentJustified_calm htree.1 (h.rooted.congr htree.2) h.calm ?_ ?_
      h.justifiedSlot
    · rw [htree.2]
      exact h.justified
    · rw [htree.2, ← hc]
      exact h.newJustified
  obtain ⟨canUpdate, hguard⟩ := hguard
  rw [updateJustified, hc, bind_ok htrack, bind_ok hguard]
  cases canUpdate with
  | false =>
    simp only [Bool.false_eq_true, if_false]
    exact ⟨w₁, external_calm h.calm, h.calm, rfl, rfl, .inr ⟨hlater, .inl rfl, rfl⟩⟩
  | true =>
    obtain ⟨l, hl⟩ := h.balances
    rw [hc] at hl
    let w₂ : World :=
      { w₁ with prevJustifiedCheckpt := w₁.justifiedCheckpt, justifiedCheckpt := c }
    obtain ⟨w₃, hcache, hcalm, hstore⟩ := cacheJustifiedStateBalances_calm (w := w₂) h.calm hl
    have hquiet := (quiet_cacheJustifiedStateBalances env c.root).ok hcache
    have hreplace : replaceJustified env c w₁ = .ok () w₃ := hcache
    simp only [if_true]
    rw [bind_ok hreplace, external_calm hcalm]
    exact ⟨w₃, rfl, hcalm, hstore, hquiet.finalized,
      .inr ⟨hlater, .inr hquiet.justified, hquiet.best⟩⟩

theorem finalizedImpliesNewJustified_calm {cfg : Config} {env : Env} {st : BeaconState}
    {w : World} {a : Root} (hw : w.Consistent) (hslots : w.SlotsIncrease) (hcalm : w.answers = [])
    (hbalances :
      ∃ l, env.justifiedBalances w.genesisRoot st.currentJustifiedCheckpoint.root = some l)
    (hslot : cfg.slotsPerEpoch.toNat * w.finalizedCheckpt.epoch.toNat < 2 ^ 64)
    (ha : AncestorAt w.tree (cfg.slotsPerEpoch * w.finalizedCheckpt.epoch)
      (w.ensureRootNotZeros w.justifiedCheckpt.root) a) :
    ∃ w', finalizedImpliesNewJustified cfg env st w = .ok () w' ∧
      w'.bestJustifiedCheckpt = w.bestJustifiedCheckpt ∧
      w'.finalizedCheckpt = w.finalizedCheckpt ∧
      w'.justifiedCheckpt = w.impliedJustified cfg w.finalizedCheckpt
        st.currentJustifiedCheckpoint := by
  have hchain : w.InChainWith cfg w.justifiedCheckpt w.finalizedCheckpt ↔
      a = w.finalizedCheckpt.root := by
    rw [Service.InChainWith, Service.getAncestor_of_ancestorAt hslots ha, Option.some.injEq]
  obtain ⟨l, hl⟩ := hbalances
  rw [finalizedImpliesNewJustified, get_bind, Service.impliedJustified]
  simp only [hchain]
  generalize st.currentJustifiedCheckpoint = c at hl ⊢
  obtain ⟨w₂, hcache, -, -⟩ :=
    cacheJustifiedStateBalances_calm (w := { w with justifiedCheckpt := c }) hcalm hl
  have hquiet := (quiet_cacheJustifiedStateBalances env c.root).ok hcache
  by_cases heq : w.justifiedCheckpt = c
  · simp [heq, BitVec.lt_irrefl]
  by_cases hlater : w.justifiedCheckpt.epoch < c.epoch
  · refine ⟨w₂, ?_, hquiet.best, hquiet.finalized, ?_⟩
    · simp only [ne_eq, heq, not_false_eq_true, if_true, hlater]
      exact hcache
    · rw [if_pos (.inl hlater)]
      exact hquiet.justified
  simp only [ne_eq, heq, not_false_eq_true, if_true, hlater, if_false, false_or, true_and]
  rw [bind_ok (startSlot_calm hslot w),
    bind_ok (ancestor_calm hw.wellFormed hw.linked hcalm hslots ha)]
  by_cases hroot : a = w.finalizedCheckpt.root
  · simp [hroot]
  · refine ⟨w₂, ?_, hquiet.best, hquiet.finalized, ?_⟩
    · simp only [hroot, not_false_eq_true, if_true]
      exact hcache
    · rw [if_pos hroot]
      exact hquiet.justified

theorem Service.Rooted.inChainWith_congr {s s' : Service} (h : s.Rooted)
    (hknown : s'.known = s.known) (hgenesis : s'.genesisRoot = s.genesisRoot)
    (hc : ∃ b, s.known (s.ensureRootNotZeros c.root) = some b) (cfg : Config) (f : Checkpoint) :
    s'.InChainWith cfg c f ↔ s.InChainWith cfg c f := by
  obtain ⟨b, hb⟩ := hc
  obtain ⟨a, ha⟩ := h.exists_ancestorAt (cfg.slotsPerEpoch * f.epoch) hb
  have hroot : s'.ensureRootNotZeros c.root = s.ensureRootNotZeros c.root := by
    rw [ensureRootNotZeros, ensureRootNotZeros, hgenesis]
  have ha' : AncestorAt s'.tree (cfg.slotsPerEpoch * f.epoch) (s.ensureRootNotZeros c.root) a := by
    rw [tree_congr hknown]
    exact ha
  rw [InChainWith, InChainWith, hroot, getAncestor_of_ancestorAt h.slots ha,
    getAncestor_of_ancestorAt (h.congr hknown).slots ha']

theorem prune_calm {w : World} (hw : w.forkChoice.store.WellFormed)
    (hr : w.forkChoice.hasNode r = true) :
    ∃ w', onForkChoice (ForkChoice.prune r) w = .ok () w' ∧ w'.answers = w.answers := by
  have hcall := ForkChoice.call_prune hw r
  rw [ForkChoice.hasNode] at hr
  rw [if_pos hr] at hcall
  obtain ⟨u, f, hprune, -⟩ := bind_eq_ok.mp hcall
  exact ⟨{ w with forkChoice := f }, by rw [onForkChoice, hprune], rfl⟩

theorem updateFinalized_calm {cfg : Config} (hflag : cfg.updateHeadTimely = false) {w : World}
    (hcalm : w.answers = []) (c : Checkpoint) :
    ∃ w', updateFinalized cfg c w = .ok () w' ∧ w'.answers = [] ∧
      w'.forkChoice = w.forkChoice ∧ w'.finalizedCheckpt = c ∧
      w'.justifiedCheckpt = w.justifiedCheckpt := by
  let w₁ : World := { w with blocks := w.initSyncBlocks ∪ w.blocks, initSyncBlocks := ∅ }
  have hflush : flushInitSyncBlocks w = .ok () w₁ := by
    rw [flushInitSyncBlocks, bind_ok (external_calm hcalm)]
    rfl
  let w₂ : World := { w₁ with prevFinalizedCheckpt := w.finalizedCheckpt, finalizedCheckpt := c }
  refine ⟨w₂, ?_, hcalm, rfl, rfl, rfl⟩
  rw [updateFinalized, bind_ok hflush, bind_ok (external_calm (w := w₁) hcalm), hflag]
  exact external_calm (w := w₂) hcalm

def Service.checkpoints (s : Service) : Checkpoint × Checkpoint :=
  (s.justifiedCheckpt, s.finalizedCheckpt)

variable {cfg : Config} {env : Env} {st : BeaconState} {w w' : World}

/-- The test comes out the same after the first stage, which may have replaced the justified
checkpoint. -/
theorem Undisturbed.finalizedImpliesNewJustified (h : Undisturbed cfg env st w)
    (htree : SameTree w w') (hcalm : w'.answers = [])
    (hslot : cfg.slotsPerEpoch.toNat * w'.finalizedCheckpt.epoch.toNat < 2 ^ 64)
    (hj : w'.justifiedCheckpt = w.justifiedCheckpt ∨
      w.justifiedCheckpt.epoch < st.currentJustifiedCheckpoint.epoch ∧
        w'.justifiedCheckpt = st.currentJustifiedCheckpoint) :
    ∃ w₂, finalizedImpliesNewJustified cfg env st w' = .ok () w₂ ∧
      w₂.bestJustifiedCheckpt = w'.bestJustifiedCheckpt ∧
      w₂.finalizedCheckpt = w'.finalizedCheckpt ∧
      w₂.justifiedCheckpt = w.impliedJustified cfg w'.finalizedCheckpt
        st.currentJustifiedCheckpoint := by
  obtain ⟨hw', hknown⟩ := htree.tree h.consistent
  have hrooted := h.rooted.congr hknown
  have hb : ∃ b, w'.known (w'.ensureRootNotZeros w'.justifiedCheckpt.root) = some b := by
    rw [hknown, Service.ensureRootNotZeros, htree.genesisRoot]
    rcases hj with hj | ⟨-, hj⟩
    · rw [hj]
      exact h.justified
    · rw [hj]
      exact h.newJustified
  obtain ⟨b, hb⟩ := hb
  obtain ⟨a, ha⟩ := hrooted.exists_ancestorAt (cfg.slotsPerEpoch * w'.finalizedCheckpt.epoch) hb
  obtain ⟨w₂, htest, hbest, hf, hj₂⟩ := finalizedImpliesNewJustified_calm hw' hrooted.slots hcalm
    (htree.genesisRoot ▸ h.balances) hslot ha
  refine ⟨w₂, htest, hbest, hf, hj₂.trans ?_⟩
  rw [Service.impliedJustified, Service.impliedJustified]
  rcases hj with hsame | ⟨hlater, hc⟩
  · simp only [hsame, h.rooted.inChainWith_congr hknown htree.genesisRoot h.justified]
  · simp [hc, hlater, BitVec.lt_irrefl]

theorem checkpoints_updateFinalizedFirst (hflag : cfg.updateHeadTimely = false)
    (h : Undisturbed cfg env st w)
    (hnew : w.finalizedCheckpt.epoch < st.finalizedCheckpoint.epoch) :
    (final (handleCheckpoints cfg env st) w).checkpoints =
      (w.impliedJustified cfg st.finalizedCheckpoint st.currentJustifiedCheckpoint,
        st.finalizedCheckpoint) := by
  obtain ⟨w₁, hstage, hcalm₁, hstore₁, hf₁, hj₁⟩ := updateJustifiedIfLater_calm h
  have htree₁ := (sameTree_updateJustifiedIfLater cfg env st).ok hstage
  obtain ⟨w₂, hupdate, hcalm₂, hstore₂, hf₂, hj₂⟩ :=
    updateFinalized_calm hflag hcalm₁ st.finalizedCheckpoint
  have htree₂ := trans_of SameTree htree₁ ((sameTree_updateFinalized cfg _).ok hupdate)
  have hnode : w₂.forkChoice.hasNode st.finalizedCheckpoint.root = true := by
    rw [hstore₂, hstore₁]
    exact h.finalizedNode
  obtain ⟨w₃, hprune, hcalm₃⟩ := prune_calm (htree₂.tree h.consistent).1.wellFormed hnode
  have hquiet := (quiet_prune _).ok hprune
  have htree := trans_of SameTree htree₂ hquiet.toSameTree
  have hf₃ : w₃.finalizedCheckpt = st.finalizedCheckpoint := hquiet.finalized.trans hf₂
  obtain ⟨w₄, htest, -, hf₄, hj₄⟩ := h.finalizedImpliesNewJustified htree
    (hcalm₃.trans hcalm₂) (hf₃ ▸ h.newFinalizedSlot) (by rw [hquiet.justified, hj₂]; tauto)
  have hall : handleCheckpoints cfg env st w = .ok () w₄ := by
    rw [handleCheckpoints, bind_ok hstage, get_bind, hf₁]
    simp only [hflag, hnew, decide_true, updateFinalizedIfNew, if_true, Bool.false_eq_true,
      if_false, Bool.not_false]
    rw [bind_ok hupdate, bind_ok hprune]
    exact htest
  rw [final_of_ok hall, Service.checkpoints, hj₄, hf₄, hf₃]

theorem promoted_promoted (best c : Checkpoint) :
    Service.promoted (Service.promoted c best) c = Service.promoted best c := by
  unfold Service.promoted
  by_cases hlt : best.epoch < c.epoch
  · have hnot : ¬ c.epoch < best.epoch := BitVec.not_lt.mpr (BitVec.le_of_lt hlt)
    simp [hlt, hnot, BitVec.lt_irrefl]
  · simp [hlt]

theorem sameFinalized_updateHead (cfg : Config) (env : Env) (balances : List Gwei) :
    Keeps SameFinalized (updateHead cfg env balances) := by
  unfold updateHead promoteBestJustified
  grind

section

variable (hflag : cfg.updateHeadTimely = true)

include hflag

theorem quiet_updateFinalized (c : Checkpoint) : Keeps Quiet (updateFinalized cfg c) := by
  unfold updateFinalized
  simp only [hflag, Bool.not_true, Bool.false_eq_true, if_false]
  grind

theorem quiet_updateFinalizedIfNew (env : Env) (st : BeaconState) (newFinalized : Bool) :
    Keeps Quiet (updateFinalizedIfNew cfg env st newFinalized) := by
  have hupdate := quiet_updateFinalized hflag st.finalizedCheckpoint
  unfold updateFinalizedIfNew
  grind

/-- With the flag the test is against the old finalized checkpoint, and then
the best justified checkpoint is promoted. -/
theorem checkpoints_updateHeadTimely
    (h : Undisturbed cfg env st w)
    (hnew : w.finalizedCheckpt.epoch < st.finalizedCheckpoint.epoch) :
    (final (handleCheckpoints cfg env st) w).checkpoints =
      (Service.promoted w.bestJustifiedCheckpt
        (w.impliedJustified cfg w.finalizedCheckpt st.currentJustifiedCheckpoint),
        st.finalizedCheckpoint) := by
  obtain ⟨w₁, hstage, hcalm₁, -, hf₁, hj₁⟩ := updateJustifiedIfLater_calm h
  have htree := (sameTree_updateJustifiedIfLater cfg env st).ok hstage
  obtain ⟨w₂, htest, hbest₂, -, hj₂⟩ := h.finalizedImpliesNewJustified htree hcalm₁
    (hf₁ ▸ h.finalizedSlot) (by tauto)
  rw [hf₁] at hj₂
  let w₃ : World := { w₂ with
    prevFinalizedCheckpt := w₂.finalizedCheckpt
    finalizedCheckpt := st.finalizedCheckpoint }
  have hhead : (final (updateHead cfg env w₃.justifiedBalances) w₃).checkpoints =
      (Service.promoted w.bestJustifiedCheckpt
        (w.impliedJustified cfg w.finalizedCheckpt st.currentJustifiedCheckpoint),
        st.finalizedCheckpoint) := by
    have hfinalized := sameFinalized_updateHead cfg env w₃.justifiedBalances w₃
    have hpromoted := updateHead_justified cfg env w₃.justifiedBalances w₃
    change _ = Service.promoted w₂.bestJustifiedCheckpt w₂.justifiedCheckpt at hpromoted
    rw [hbest₂, hj₂] at hpromoted
    refine Prod.ext (hpromoted.trans ?_) hfinalized
    rcases hj₁ with ⟨-, hbest⟩ | ⟨hlater, -, hbest⟩
    · rw [hbest]
    · rw [hbest, Service.impliedJustified, if_pos (.inl hlater), promoted_promoted]
  have hall : final (handleCheckpoints cfg env st) w = final (do
      logged (updateHead cfg env w₃.justifiedBalances)
      updateFinalizedIfNew cfg env st true) w₃ := by
    rw [final, handleCheckpoints, bind_ok hstage, get_bind, hf₁]
    simp only [hflag, hnew, decide_true, updateHeadTimely, if_true, bind_assoc]
    rw [bind_ok htest]
    rfl
  rw [hall, ← hhead, ← final_logged (updateHead cfg env w₃.justifiedBalances)]
  refine view_final_bind (fun w : World => w.checkpoints) fun _ w₄ _ => ?_
  have hquiet := quiet_updateFinalizedIfNew hflag env st true w₄
  exact Prod.ext hquiet.justified hquiet.finalized

end

theorem Undisturbed.withFlag (h : Undisturbed cfg env st w) (flag : Bool) :
    Undisturbed { cfg with updateHeadTimely := flag } env st w :=
  ⟨h.consistent, h.rooted, h.calm, h.justified, h.newJustified, h.balances, h.finalizedNode,
    h.justifiedSlot, h.finalizedSlot, h.newFinalizedSlot⟩

/-- Without `UpdateHeadTimely` a newer finalized checkpoint is handled as the
specification says. With it, the same checkpoints come out exactly if the two
ways agree. -/
theorem finality_paths_agree_iff (cfg : Config) (env : Env) (st : BeaconState) (w : World)
    (shouldUpdate : Bool) (h : Undisturbed cfg env st w)
    (hnew : w.finalizedCheckpt.epoch < st.finalizedCheckpoint.epoch) :
    let off := final (handleCheckpoints { cfg with updateHeadTimely := false } env st) w
    let on := final (handleCheckpoints { cfg with updateHeadTimely := true } env st) w
    off.checkpoints = w.specCheckpoints cfg shouldUpdate st ∧
      (on.checkpoints = w.specCheckpoints cfg shouldUpdate st ↔ w.PathsAgree cfg st) := by
  have hoff := checkpoints_updateFinalizedFirst rfl (h.withFlag false) hnew
  have hon := checkpoints_updateHeadTimely rfl (h.withFlag true) hnew
  rw [Service.specCheckpoints_eq cfg shouldUpdate hnew]
  refine ⟨hoff, ?_⟩
  rw [hon, ← Service.promoted_impliedJustified_iff, Prod.mk.injEq]
  exact and_iff_left rfl

/-! ### A justified block that conflicts with the finalized one -/

namespace Service

/-- A block that arrives in its own slot, with the checkpoints of its post
state. -/
def brings (slot : Slot) (root parent : Root) (justified finalized : Checkpoint) : Op :=
  .onBlock (calm slot) (some ⟨slot, parent, 0, []⟩) root (some ⟨slot, justified, finalized⟩)

/-- After block 2 the chain forks into 3, 4, 6 and into 5. The checkpoint at 2 is
finalized and the one at 4 is justified. -/
def contested : Service :=
  fresh.run (.mainnet false)
    [brings 32 2 1 ⟨0, zeroHash⟩ ⟨0, zeroHash⟩, brings 64 3 2 ⟨1, 2⟩ ⟨0, zeroHash⟩,
      brings 65 5 2 ⟨1, 2⟩ ⟨0, zeroHash⟩, brings 96 4 3 ⟨2, 3⟩ ⟨1, 2⟩,
      brings 128 6 4 ⟨3, 4⟩ ⟨1, 2⟩]

theorem contested_consistent : contested.Consistent :=
  run_consistent fresh_consistent (by decide +kernel)

theorem contested_rooted : contested.Rooted := rooted_of_rootedAt (by decide +kernel)

end Service

theorem contested_undisturbed :
    Undisturbed (.mainnet true) (Service.calm 160) ⟨160, ⟨4, 6⟩, ⟨3, 4⟩⟩
      (Service.contested.enter (Service.calm 160)) where
  consistent := Service.contested_consistent
  rooted := Service.contested_rooted
  calm := rfl
  justified := Option.isSome_iff_exists.mp (by decide +kernel)
  newJustified := Option.isSome_iff_exists.mp (by decide +kernel)
  balances := Option.isSome_iff_exists.mp (by decide +kernel)
  finalizedNode := by decide +kernel
  justifiedSlot := by decide +kernel
  finalizedSlot := by decide +kernel
  newFinalizedSlot := by decide +kernel

theorem finality_paths_agree_along_chain :
    (final (handleCheckpoints (.mainnet true) (Service.calm 160) ⟨160, ⟨4, 6⟩, ⟨3, 4⟩⟩)
      (Service.contested.enter (Service.calm 160))).checkpoints =
    Service.contested.specCheckpoints (.mainnet true) true ⟨160, ⟨4, 6⟩, ⟨3, 4⟩⟩ :=
  (finality_paths_agree_iff (.mainnet true) (Service.calm 160) _ _ true contested_undisturbed
    (by decide +kernel)).2.mpr (by decide +kernel)

/-- A block on the branch of 5 finalizes a checkpoint that conflicts with the
justified block 4. With `UpdateHeadTimely` block 4 stays justified. -/
theorem conflicting_checkpoint_stays_justified :
    let op := Service.brings 160 7 5 ⟨3, 5⟩ ⟨2, 5⟩
    Service.contested.Consistent ∧ Service.contested.RootsName op ∧
    Service.contested.specCheckpoints (.mainnet false) false ⟨160, ⟨3, 5⟩, ⟨2, 5⟩⟩ =
      (⟨3, 5⟩, ⟨2, 5⟩) ∧
    (Service.contested.step (.mainnet false) op).checkpoints = (⟨3, 5⟩, ⟨2, 5⟩) ∧
    (Service.contested.step (.mainnet true) op).checkpoints = (⟨3, 4⟩, ⟨2, 5⟩) := by
  refine ⟨Service.contested_consistent, ?_, ?_, ?_, ?_⟩ <;> decide +kernel

end Vanguard.Blockchain
