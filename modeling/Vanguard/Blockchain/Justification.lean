import Vanguard.Blockchain.Frames

/-!
Protection against bouncing between justified checkpoints.

Late in an epoch `shouldUpdateCurrentJustified` lets a new checkpoint replace
the justified one only if its block descends from the justified block. A
refused checkpoint is kept as the best justified one, though, and `updateHead`
makes that the justified checkpoint at any slot, without such a test. The
protection holds for as long as no conflicting checkpoint is waiting when
`updateHead` runs.
-/

namespace Vanguard.Blockchain

open Forest EState Run

/-! ### The guard -/

variable {new old : Checkpoint} {cfg : Config} {env : Env} {w w' : World} (c : Checkpoint)
  (st : BeaconState) {signed : Option Block} {blockRoot : Root} {transition : Option BeaconState}

namespace Service

variable {s s' : Service}

/-- The block of the checkpoint `new` is that of `old` or descends from it. -/
def Follows (s : Service) (new old : Checkpoint) : Prop :=
  s.Descends (s.ensureRootNotZeros new.root) (s.ensureRootNotZeros old.root)

theorem Follows.refl (s : Service) (c : Checkpoint) : s.Follows c c := Below.refl _

theorem Follows.mono (h : s.Follows new old) (hgenesis : s'.genesisRoot = s.genesisRoot)
    (hknown : ∀ r b, s.known r = some b → s'.known r = some b) : s'.Follows new old := by
  have hroot : ∀ r, s'.ensureRootNotZeros r = s.ensureRootNotZeros r := by
    intro r
    rw [ensureRootNotZeros, ensureRootNotZeros, hgenesis]
  rw [Follows, hroot, hroot]
  refine Below.mono (fun r q hq => ?_) h
  obtain ⟨b, hb, hq⟩ := parentRoot_eq_some.mp hq
  exact parentRoot_eq_some.mpr ⟨b, hknown r b hb, hq⟩

end Service

theorem shouldUpdateCurrentJustified_sound {c : Checkpoint} (hw : w.Consistent)
    (hlate : cfg.safeSlotsToUpdateJustified ≤ slotsSinceEpochStarts cfg env.currentSlot)
    (h : shouldUpdateCurrentJustified cfg env c w = .ok true w') :
    w.Follows c w.justifiedCheckpt := by
  unfold shouldUpdateCurrentJustified at h
  rw [if_neg (BitVec.not_lt.mpr hlate), get_bind] at h
  obtain ⟨newJustified, w₁, h₁, h⟩ := bind_eq_ok.mp h
  cases newJustified with
  | none => cases h
  | some newJustifiedBlock =>
    obtain ⟨jSlot, w₂, h₂, h⟩ := bind_eq_ok.mp h
    split at h
    · cases h
    · obtain ⟨justified, w₃, h₃, h⟩ := bind_eq_ok.mp h
      cases justified with
      | none => cases h
      | some justifiedBlock =>
        obtain ⟨a, w₄, h₄, h⟩ := bind_eq_ok.mp h
        have hservice : w₃.toService = w.toService := by
          rw [(initSyncOrDBBlock_ok h₃).2, (ofExcept_ok h₂).2, (initSyncOrDBBlock_ok h₁).2]
        have hcons : w₃.Consistent := by rw [hservice]; exact hw
        have hsound := ancestor_sound hcons h₄
        rw [hservice] at hsound
        obtain ⟨slot, q, hq⟩ := hsound.exists_node
        obtain ⟨b, hb, -⟩ := Service.tree_eq_some.mp hq
        have hdesc := hsound.isBelow
        rw [Service.parentIn_tree] at hdesc
        -- the ancestor that was found is the justified root, which is then not zero
        rw [pure_apply] at h
        have ha : a = w.justifiedCheckpt.root := of_decide_eq_true (EStateM.Result.ok.inj h).1
        subst ha
        rw [Service.Follows, Service.ensureRootNotZeros.eq_def w.toService w.justifiedCheckpt.root,
          if_neg (hw.nonzero _ b hb)]
        exact hdesc

/-! ### Who writes the justified checkpoint -/

theorem promoteBestJustified_justified (env : Env) (w : World) :
    (final (promoteBestJustified env) w).justifiedCheckpt =
      if w.justifiedCheckpt.epoch < w.bestJustifiedCheckpt.epoch then w.bestJustifiedCheckpt
      else w.justifiedCheckpt := by
  rw [promoteBestJustified, final, get_bind, ← final]
  split
  · exact (quiet_cacheJustifiedStateBalances env _ _).justified
  · rfl

/-- `updateHead` makes a later best justified checkpoint the justified one,
whatever the slot. -/
theorem updateHead_justified (cfg : Config) (env : Env) (balances : List Gwei) (w : World) :
    (final (updateHead cfg env balances) w).justifiedCheckpt =
      if w.justifiedCheckpt.epoch < w.bestJustifiedCheckpt.epoch then w.bestJustifiedCheckpt
      else w.justifiedCheckpt := by
  rw [← promoteBestJustified_justified env w]
  refine view_final_bind (fun w : World => w.justifiedCheckpt) fun _ w₁ _ => ?_
  refine Quiet.justified ((?_ : Keeps Quiet _) w₁)
  grind

theorem trackBestJustified_eq (w : World) :
    trackBestJustified c w = .ok () (if w.bestJustifiedCheckpt.epoch < c.epoch
      then { w with bestJustifiedCheckpt := c } else w) := by
  rw [trackBestJustified, get_bind]
  split <;> rfl

theorem replaceJustified_justified (env : Env) (c : Checkpoint) (w : World) :
    (final (replaceJustified env c) w).justifiedCheckpt = c :=
  (quiet_cacheJustifiedStateBalances env c.root
    { w with prevJustifiedCheckpt := w.justifiedCheckpt, justifiedCheckpt := c }).justified

/-- The guarded update leaves the justified checkpoint or replaces it, late in
an epoch, by one that follows it. -/
theorem updateJustified_follows (hw : w.Consistent)
    (hlate : cfg.safeSlotsToUpdateJustified ≤ slotsSinceEpochStarts cfg env.currentSlot) :
    w.Follows (final (updateJustified cfg env st) w).justifiedCheckpt w.justifiedCheckpt := by
  let c := st.currentJustifiedCheckpoint
  let w₁ : World := if w.bestJustifiedCheckpt.epoch < c.epoch
    then { w with bestJustifiedCheckpt := c } else w
  have htrack : trackBestJustified c w = .ok () w₁ := trackBestJustified_eq c w
  have hjustified : w₁.justifiedCheckpt = w.justifiedCheckpt := by
    dsimp only [w₁]
    split <;> rfl
  have htree := (sameTree_trackBestJustified c).ok htrack
  rw [updateJustified, final, bind_ok htrack, ← final]
  cases hguard : shouldUpdateCurrentJustified cfg env c w₁ with
  | error e w₂ =>
    have hkept := ((quiet_shouldUpdateCurrentJustified cfg env c).error hguard).justified
    rw [final, bind_error hguard, hkept.trans hjustified]
    exact Service.Follows.refl _ _
  | ok canUpdate w₂ =>
    have hkept := ((quiet_shouldUpdateCurrentJustified cfg env c).ok hguard).justified
    rw [final, bind_ok hguard, ← final]
    cases canUpdate with
    | false =>
      have hend : (final external w₂).justifiedCheckpt = w.justifiedCheckpt :=
        (quiet_external w₂).justified.trans (hkept.trans hjustified)
      simp only [Bool.false_eq_true, if_false, hend]
      exact Service.Follows.refl _ _
    | true =>
      have hend : (final (replaceJustified env c >>= fun _ => external) w₂).justifiedCheckpt =
          c :=
        (view_final_bind (fun w : World => w.justifiedCheckpt)
          fun _ w₃ _ => (quiet_external w₃).justified).trans
          (replaceJustified_justified env c w₂)
      have hfollows := shouldUpdateCurrentJustified_sound (htree.tree hw).1 hlate hguard
      rw [hjustified] at hfollows
      simp only [if_true, c] at hend ⊢
      rw [hend]
      exact hfollows.mono htree.genesisRoot.symm fun r b hb => by
        rw [← (htree.tree hw).2]
        exact hb

theorem updateJustifiedIfLater_follows (hw : w.Consistent)
    (hlate : cfg.safeSlotsToUpdateJustified ≤ slotsSinceEpochStarts cfg env.currentSlot) :
    w.Follows (final (updateJustifiedIfLater cfg env st) w).justifiedCheckpt
      w.justifiedCheckpt := by
  rw [updateJustifiedIfLater, final, get_bind, ← final]
  split
  · exact updateJustified_follows st hw hlate
  · exact Service.Follows.refl _ _

/-! ### Calls without a newer finalized checkpoint -/

def SameFinalized (w w' : World) : Prop := w'.finalizedCheckpt = w.finalizedCheckpt

instance : IsPreorder World SameFinalized where
  refl _ := rfl
  trans _ _ _ h h' := h'.trans h

@[grind ←] theorem Quiet.keeps_sameFinalized {α : Type} {x : ServiceM α} (h : Keeps Quiet x) :
    Keeps SameFinalized x :=
  h.mono fun _ _ hq => hq.finalized

@[grind ←] theorem sameFinalized_setJustifiedCheckpt :
    Keeps SameFinalized (setJustifiedCheckpt c) := fun _ => rfl

@[grind ←] theorem sameFinalized_setBestJustifiedCheckpt :
    Keeps SameFinalized (setBestJustifiedCheckpt c) := fun _ => rfl

@[grind ←] theorem sameFinalized_replaceJustified (env : Env) (c : Checkpoint) :
    Keeps SameFinalized (replaceJustified env c) := by
  unfold replaceJustified
  grind

theorem sameFinalized_updateJustifiedIfLater (cfg : Config) (env : Env) (st : BeaconState) :
    Keeps SameFinalized (updateJustifiedIfLater cfg env st) := by
  unfold updateJustifiedIfLater updateJustified trackBestJustified
  grind

/-- The part of `onBlock` before the head or a finalized checkpoint is
updated. -/
def justifyBlock (cfg : Config) (env : Env) (signed : Option Block) (blockRoot : Root)
    (transition : Option BeaconState) : ServiceM BeaconState := do
  let st ← acceptBlock cfg env signed blockRoot transition
  updateJustifiedIfLater cfg env st
  pure st

/-- The rest of `onBlock`. -/
def finishBlock (cfg : Config) (env : Env) (st : BeaconState) : ServiceM Unit := do
  let w ← get
  let newFinalized := decide (w.finalizedCheckpt.epoch < st.finalizedCheckpoint.epoch)
  if cfg.updateHeadTimely then updateHeadTimely cfg env st newFinalized
  updateFinalizedIfNew cfg env st newFinalized
  handleEpochBoundary cfg st

theorem sameTree_finishBlock (cfg : Config) (env : Env) (st : BeaconState) :
    Keeps SameTree (finishBlock cfg env st) := by
  unfold finishBlock
  grind

theorem onBlock_eq (cfg : Config) (env : Env) (signed : Option Block) (blockRoot : Root)
    (transition : Option BeaconState) :
    onBlock cfg env signed blockRoot transition =
      justifyBlock cfg env signed blockRoot transition >>= finishBlock cfg env := by
  simp only [onBlock, justifyBlock, handleCheckpoints, bind_assoc, pure_bind]
  congr 1
  funext st
  congr 1
  funext _
  unfold finishBlock
  congr 1
  funext w
  split <;> simp only [bind_assoc]

/-- With no newer finalized checkpoint the rest of `onBlock` writes the
justified checkpoint only through `updateHead`. -/
theorem finishBlock_justified {st : BeaconState}
    (hfinal : st.finalizedCheckpoint.epoch ≤ w.finalizedCheckpt.epoch) :
    (final (finishBlock cfg env st) w).justifiedCheckpt =
      if cfg.updateHeadTimely ∧ w.justifiedCheckpt.epoch < w.bestJustifiedCheckpt.epoch
      then w.bestJustifiedCheckpt else w.justifiedCheckpt := by
  have hnot : decide (w.finalizedCheckpt.epoch < st.finalizedCheckpoint.epoch) = false :=
    decide_eq_false (BitVec.not_lt.mpr hfinal)
  have htail : ∀ w₁ : World, (final (do
      updateFinalizedIfNew cfg env st false
      handleEpochBoundary cfg st) w₁).justifiedCheckpt = w₁.justifiedCheckpt :=
    fun w₁ => (quiet_handleEpochBoundary cfg st w₁).justified
  rw [finishBlock, final, get_bind, ← final]
  simp only [hnot]
  cases hflag : cfg.updateHeadTimely with
  | false => simpa using htail w
  | true =>
    have hhead : (final (updateHeadTimely cfg env st false) w).justifiedCheckpt =
        if w.justifiedCheckpt.epoch < w.bestJustifiedCheckpt.epoch then w.bestJustifiedCheckpt
        else w.justifiedCheckpt := by
      rw [← updateHead_justified cfg env w.justifiedBalances w,
        ← final_logged (updateHead cfg env w.justifiedBalances)]
      rfl
    simp only [if_true, true_and]
    rw [← hhead]
    exact view_final_bind (fun w : World => w.justifiedCheckpt) fun _ w₁ _ => htail w₁

theorem Service.Follows.treeGrows (h : w.Follows new old) (hw : w.Consistent)
    (hgrows : TreeGrows w w') : w'.Follows new old :=
  h.mono hgrows.genesisRoot (hgrows.tree hw).2

/-- Up to the head update `onBlock` moves the justified checkpoint, late in an
epoch, only to one that follows it. -/
theorem justifyBlock_follows
    (transition : Option BeaconState) (hw : w.Consistent)
    (hnames : ∀ b, signed = some b → w.NamesBlock blockRoot b)
    (hlate : cfg.safeSlotsToUpdateJustified ≤ slotsSinceEpochStarts cfg env.currentSlot) :
    let w' := final (justifyBlock cfg env signed blockRoot transition) w
    TreeGrows w w' ∧ w'.finalizedCheckpt = w.finalizedCheckpt ∧
      w'.Follows w'.justifiedCheckpt w.justifiedCheckpt := by
  have haccept := grows_acceptBlock cfg env transition hw hnames
  intro w'
  cases h : acceptBlock cfg env signed blockRoot transition w with
  | error e w₁ =>
    have hend : w' = w₁ := final_of_error (bind_error h)
    rw [final_of_error h] at haccept
    rw [hend, haccept.justified]
    exact ⟨haccept.toTreeGrows, haccept.finalized, Service.Follows.refl _ _⟩
  | ok st w₁ =>
    have hend : w' = final (updateJustifiedIfLater cfg env st) w₁ := by
      rw [← final_bind_pure _ fun _ => st]
      simp only [w', justifyBlock, final, bind_ok h]
    rw [final_of_ok h] at haccept
    have hw₁ := (haccept.tree hw).1
    have htree := (sameTree_updateJustifiedIfLater cfg env st w₁).treeGrows
    have hfollows := updateJustifiedIfLater_follows st hw₁ hlate
    rw [hend]
    refine ⟨haccept.toTreeGrows.trans htree, ?_, ?_⟩
    · exact (sameFinalized_updateJustifiedIfLater cfg env st w₁).trans haccept.finalized
    · rw [haccept.justified] at hfollows
      exact hfollows.treeGrows hw₁ htree

theorem justifyBlock_ok
    {st : BeaconState} (h : justifyBlock cfg env signed blockRoot transition w = .ok st w') :
    transition = some st := by
  obtain ⟨st', w₁, haccept, h⟩ := bind_eq_ok.mp h
  obtain ⟨u, w₂, -, h⟩ := bind_eq_ok.mp h
  cases h
  cases signed with
  | none => cases haccept
  | some b =>
    obtain ⟨u, w₃, -, haccept⟩ := bind_eq_ok.mp haccept
    cases transition with
    | none => cases haccept
    | some st'' =>
      obtain ⟨u, w₄, -, haccept⟩ := bind_eq_ok.mp haccept
      cases haccept
      rfl

/-! ### Runs -/

namespace Service

variable {s : Service} {cfg : Config}

/-- The values of the justified checkpoint during a call. In `onBlock` the
guarded update comes before `updateHead`. -/
def justifiedTrail (cfg : Config) (s : Service) : Op → List Checkpoint
  | .onBlock env signed blockRoot transition =>
    [s.justifiedCheckpt,
      (final (justifyBlock cfg env signed blockRoot transition) (s.enter env)).justifiedCheckpt,
      (s.step cfg (.onBlock env signed blockRoot transition)).justifiedCheckpt]
  | .updateHead env =>
    [s.justifiedCheckpt, (s.step cfg (.updateHead env)).justifiedCheckpt]

/-- During the call the justified checkpoint is only replaced by one whose
block descends from the block of the one it replaces. -/
def MovesToDescendants (cfg : Config) (s : Service) (op : Op) : Prop :=
  (s.justifiedTrail cfg op).IsChain fun old new => (s.step cfg op).Follows new old

/-- The call takes place late in an epoch, and its block brings no newer
finalized checkpoint. -/
def LateCall (cfg : Config) (s : Service) (op : Op) : Prop :=
  cfg.safeSlotsToUpdateJustified ≤ slotsSinceEpochStarts cfg op.env.currentSlot ∧
    match op with
    | .onBlock _ _ _ transition => ∀ st ∈ transition,
        st.finalizedCheckpoint.epoch ≤ s.finalizedCheckpt.epoch
    | .updateHead _ => True

instance (cfg : Config) (s : Service) (op : Op) : Decidable (s.LateCall cfg op) := by
  unfold LateCall
  cases op <;> infer_instance

/-- No checkpoint that conflicts with the justified one waits to replace it. -/
def NoConflictWaiting (s : Service) : Prop :=
  s.bestJustifiedCheckpt.epoch ≤ s.justifiedCheckpt.epoch ∨
    s.Follows s.bestJustifiedCheckpt s.justifiedCheckpt

/-- No conflicting checkpoint is waiting when `updateHead` runs. -/
def NoConflictPromoted (cfg : Config) (s : Service) : Op → Prop
  | .onBlock env signed blockRoot transition => cfg.updateHeadTimely = true →
      ∀ st w, justifyBlock cfg env signed blockRoot transition (s.enter env) = .ok st w →
        w.NoConflictWaiting
  | .updateHead _ => s.NoConflictWaiting

theorem step_updateHead_justified (cfg : Config) (s : Service) (env : Env) :
    (s.step cfg (.updateHead env)).justifiedCheckpt =
      if s.justifiedCheckpt.epoch < s.bestJustifiedCheckpt.epoch then s.bestJustifiedCheckpt
      else s.justifiedCheckpt :=
  updateHead_justified cfg env s.justifiedBalances (s.enter env)

theorem NoConflictWaiting.follows (h : s.NoConflictWaiting) :
    s.Follows (if s.justifiedCheckpt.epoch < s.bestJustifiedCheckpt.epoch
      then s.bestJustifiedCheckpt else s.justifiedCheckpt) s.justifiedCheckpt := by
  split
  · rename_i hlt
    exact h.resolve_left (BitVec.not_le.mpr hlt)
  · exact Follows.refl _ _

theorem updateHead_movesToDescendants {env : Env} (hs : s.Consistent)
    (hwaiting : s.NoConflictWaiting) : s.MovesToDescendants cfg (.updateHead env) := by
  have hgrows := step_treeGrows cfg hs (show s.RootsName (.updateHead env) from trivial)
  have hfollows : s.Follows (s.step cfg (.updateHead env)).justifiedCheckpt s.justifiedCheckpt := by
    rw [step_updateHead_justified]
    exact hwaiting.follows
  have hafter : (s.step cfg (.updateHead env)).Follows
      (s.step cfg (.updateHead env)).justifiedCheckpt s.justifiedCheckpt :=
    hfollows.mono hgrows.genesisRoot (hgrows.tree hs).2
  exact List.isChain_pair.mpr hafter

theorem onBlock_movesToDescendants {env : Env} (hs : s.Consistent)
    (hnames : ∀ b, signed = some b → s.NamesBlock blockRoot b)
    (hlate : cfg.safeSlotsToUpdateJustified ≤ slotsSinceEpochStarts cfg env.currentSlot)
    (hfinal : ∀ st ∈ transition, st.finalizedCheckpoint.epoch ≤ s.finalizedCheckpt.epoch)
    (hwaiting : cfg.updateHeadTimely = true → ∀ st w,
      justifyBlock cfg env signed blockRoot transition (s.enter env) = .ok st w →
        w.NoConflictWaiting) :
    s.MovesToDescendants cfg (.onBlock env signed blockRoot transition) := by
  obtain ⟨hgrows₁, hfinalized, hfirst⟩ :=
    justifyBlock_follows transition (w := s.enter env) hs hnames hlate
  have hs₁ := (hgrows₁.tree hs).1
  have hstep : s.step cfg (.onBlock env signed blockRoot transition) =
      (final (justifyBlock cfg env signed blockRoot transition >>= finishBlock cfg env)
        (s.enter env)).toService := by
    rw [← onBlock_eq]
    rfl
  rw [MovesToDescendants, justifiedTrail, hstep, List.isChain_cons_cons, List.isChain_pair]
  cases h : justifyBlock cfg env signed blockRoot transition (s.enter env) with
  | error e w₁ =>
    rw [final_of_error h] at hfirst ⊢
    rw [final_of_error (bind_error h)]
    exact ⟨hfirst, Follows.refl _ _⟩
  | ok st w₁ =>
    rw [final_of_ok h] at hs₁ hfinalized hfirst ⊢
    have hend : final (justifyBlock cfg env signed blockRoot transition >>=
        finishBlock cfg env) (s.enter env) = final (finishBlock cfg env st) w₁ := by
      rw [final, bind_ok h]
      rfl
    have hnofinal : st.finalizedCheckpoint.epoch ≤ w₁.finalizedCheckpt.epoch := by
      rw [hfinalized]
      exact hfinal st (justifyBlock_ok h)
    have hsecond : w₁.Follows (final (finishBlock cfg env st) w₁).justifiedCheckpt
        w₁.justifiedCheckpt := by
      rw [finishBlock_justified hnofinal]
      split
      · rename_i hpromotes
        have hfollows := (hwaiting hpromotes.1 st w₁ h).follows
        rwa [if_pos hpromotes.2] at hfollows
      · exact Follows.refl _ _
    have hgrows₂ := (sameTree_finishBlock cfg env st w₁).treeGrows
    rw [hend]
    exact ⟨hfirst.treeGrows hs₁ hgrows₂, hsecond.treeGrows hs₁ hgrows₂⟩

theorem step_movesToDescendants (hs : s.Consistent) {op : Op} (hnames : s.RootsName op)
    (hlate : s.LateCall cfg op) (hpromoted : s.NoConflictPromoted cfg op) :
    s.MovesToDescendants cfg op := by
  cases op with
  | updateHead env => exact updateHead_movesToDescendants hs hpromoted
  | onBlock env signed blockRoot transition =>
    exact onBlock_movesToDescendants hs hnames hlate.1 hlate.2 hpromoted

/-- Late in an epoch the justified checkpoint only moves to descendants, as
long as no conflicting checkpoint is waiting whenever `updateHead` runs. -/
theorem justified_moves_to_descendants (cfg : Config) (s : Service) (ops : List Op)
    (hs : s.Consistent) (hnames : Admits (step cfg) RootsName s ops)
    (hlate : Admits (step cfg) (LateCall cfg) s ops)
    (hpromoted : Admits (step cfg) (NoConflictPromoted cfg) s ops) :
    Admits (step cfg) (MovesToDescendants cfg) s ops := by
  have hall := admits_and.mpr ⟨hnames, admits_and.mpr ⟨hlate, hpromoted⟩⟩
  refine admits_of_invariant (I := Consistent) (fun t op ht hok => ?_) hs hall
  exact ⟨step_consistent cfg ht hok.1, step_movesToDescendants ht hok.1 hok.2.1 hok.2.2⟩

/-! ### A conflicting checkpoint -/

/-- An outside world where nothing fails. -/
def calm (slot : Slot) : Env where
  currentSlot := slot
  slotTimeVerified := true
  hasStateSummary _ := true
  hasState _ := true
  genesisBalances := some []
  stateBalances _ := some []
  answers := []

/-- A block that arrives in its own slot, with the justified checkpoint of its
post state. -/
def arrives (slot : Slot) (root parent : Root) (justified : Checkpoint) : Op :=
  .onBlock (calm slot) (some ⟨slot, parent, 0, []⟩) root (some ⟨slot, justified, ⟨0, zeroHash⟩⟩)

/-- The genesis block has root 1. -/
def fresh : Service := genesis 1 ⟨0, zeroHash, 0, []⟩ []

theorem fresh_consistent : fresh.Consistent := genesis_consistent (by decide) _ rfl []

/-- Blocks 2 and 4 are on different branches, and the checkpoint at 2 is
justified. -/
def forked : Service :=
  fresh.run (.mainnet false)
    [arrives 32 2 1 ⟨0, zeroHash⟩, arrives 64 3 2 ⟨1, 2⟩, arrives 65 4 1 ⟨0, zeroHash⟩]

/-- Late in epoch 3 the guard accepts the checkpoint at 3, the child of 2. -/
theorem justified_moves_to_descendants_at_quiet_slots :
    let ops := [arrives 104 5 3 ⟨2, 3⟩, .updateHead (calm 105)]
    (forked.run (.mainnet false) ops).justifiedCheckpt = ⟨2, 3⟩ ∧
    Admits (step (.mainnet false)) (MovesToDescendants (.mainnet false)) forked ops :=
  ⟨by decide +kernel, justified_moves_to_descendants (.mainnet false) forked _
    (run_consistent fresh_consistent (by decide +kernel)) (by decide +kernel) (by decide +kernel)
    ⟨fun hflag => absurd hflag (by decide), Or.inl (by decide +kernel), trivial⟩⟩

/-- Late in epoch 3 a block brings the checkpoint at 4, which the guard
refuses. The next `updateHead`, in the same epoch, installs it. -/
theorem refused_checkpoint_promoted :
    let ops := [arrives 104 5 4 ⟨2, 4⟩, .updateHead (calm 105)]
    (∀ op ∈ ops, slotToEpoch (.mainnet false) op.env.currentSlot = 3) ∧
    forked.Consistent ∧
    Admits (step (.mainnet false)) RootsName forked ops ∧
    Admits (step (.mainnet false)) (LateCall (.mainnet false)) forked ops ∧
    ¬ Admits (step (.mainnet false)) (MovesToDescendants (.mainnet false)) forked ops := by
  refine ⟨by decide, run_consistent fresh_consistent (by decide +kernel), by decide +kernel,
    by decide +kernel, ?_⟩
  rintro ⟨-, hmoves, -⟩
  have hfollows := List.isChain_pair.mp hmoves
  generalize hlast : (forked.step (.mainnet false) (arrives 104 5 4 ⟨2, 4⟩)).step (.mainnet false)
    (.updateHead (calm 105)) = last at hfollows
  have hbefore : (forked.step (.mainnet false) (arrives 104 5 4 ⟨2, 4⟩)).justifiedCheckpt =
      ⟨1, 2⟩ := by decide +kernel
  have hafter : last.justifiedCheckpt = ⟨2, 4⟩ ∧
      [(4 : Root), 1, 0].IsChain (fun x y => last.parentRoot x = some y) ∧
      last.parentRoot 0 = none := by
    subst hlast
    decide +kernel
  obtain ⟨hjustified, hpath, htop⟩ := hafter
  rw [hbefore, hjustified] at hfollows
  have hbelow : Below last.parentRoot 4 2 := hfollows
  rw [below_iff_mem_path hpath htop] at hbelow
  exact absurd hbelow (by decide)

end Service

end Vanguard.Blockchain
