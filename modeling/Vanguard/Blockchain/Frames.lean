import Vanguard.Blockchain.BlockTree

/-!
What the functions of the service leave alone.

No call forgets a block or changes one, and every call keeps the fork choice
store built from known blocks. Most functions change neither the tree nor a
checkpoint; those that move a checkpoint keep the tree, and only a new block
adds to it.
-/

namespace Vanguard.Blockchain

open EState
open ProtoArray (ForkChoice)

/-! ### Calls of the fork choice object -/

variable {α : Type} {w w' : World} {r : Root} {b : Block} {l : List (Root × Block)} (cfg : Config)
  (env : Env) (c : Checkpoint) {signed : Option Block} {blockRoot : Root}

theorem final_onForkChoice (x : ProtoArray.ForkChoiceM α) (w : World) :
    final (onForkChoice x) w = { w with forkChoice := final x w.forkChoice } := by
  rw [final, final, onForkChoice]
  cases x w.forkChoice <;> rfl

theorem quiet_onForkChoice {x : ProtoArray.ForkChoiceM α} (op : ProtoArray.Op) {g : α → Option Root}
    (hx : op.call = x >>= fun a => pure (g a))
    (hop : ∀ slot r q graffiti je fe, op = .processBlock slot r q graffiti je fe →
      ∃ b, w.blocks[r]? = some b ∧ b.slot = slot ∧ b.parentRoot = q) :
    Quiet w (final (onForkChoice x) w) := by
  have hstep : final x w.forkChoice = w.forkChoice.step op := by
    rw [← final_bind_pure x g, ← hx, final, ForkChoice.step]
    cases op.call w.forkChoice <;> rfl
  rw [final_onForkChoice, hstep]
  refine ⟨⟨rfl, fun _ _ h => h, fun h => ⟨⟨h.agree, h.nonzero, ?_, ?_⟩, rfl⟩⟩, rfl, rfl, rfl⟩
  · exact ForkChoice.step_wellFormed h.wellFormed op
  · refine ForkChoice.step_linkedAs h.wellFormed h.linked fun slot r q graffiti je fe heq => ?_
    obtain ⟨b, hb, hslot, hq⟩ := hop slot r q graffiti je fe heq
    exact Service.tree_eq_some.mpr ⟨b, h.known_of_blocks hb, hslot, hq⟩

@[grind ←] theorem quiet_head (ctx : Ctx) (je : Epoch) (r : Root) (balances : List Gwei)
    (fe : Epoch) : Keeps Quiet (onForkChoice (ForkChoice.head ctx je r balances fe)) :=
  fun _ => quiet_onForkChoice (.head ctx je r balances fe) rfl
    fun _ _ _ _ _ _ h => by cases h

@[grind ←] theorem quiet_prune (r : Root) : Keeps Quiet (onForkChoice (ForkChoice.prune r)) :=
  fun _ => quiet_onForkChoice (.prune r) rfl fun _ _ _ _ _ _ h => by cases h

@[grind ←] theorem quiet_processAttestation (indices : List ℕ) (r : Root) (target : Epoch) :
    Keeps Quiet (onForkChoice (ForkChoice.processAttestation indices r target)) :=
  fun _ => quiet_onForkChoice (.processAttestation indices r target) rfl
    fun _ _ _ _ _ _ h => by cases h

@[grind ←] theorem quiet_processAttestations (atts : List Attestation) :
    Keeps Quiet (processAttestations atts) := by
  induction atts with
  | nil => exact keeps_pure ()
  | cons a atts ih =>
    unfold processAttestations
    grind

theorem quiet_processBlock (f j : Checkpoint) (hb : w.blocks[r]? = some b) :
    Quiet w (final (processBlock r b f j) w) := by
  refine quiet_onForkChoice (.processBlock b.slot r b.parentRoot b.graffiti j.epoch f.epoch) rfl ?_
  intro slot r' q g je fe h
  cases h
  exact ⟨b, hb, rfl, rfl⟩

theorem quiet_processBlocks (f j : Checkpoint)
    (hl : ∀ x ∈ l, w.blocks[x.1]? = some x.2) : Quiet w (final (processBlocks f j l) w) := by
  induction l generalizing w with
  | nil => exact refl_of Quiet w
  | cons x l ih =>
    have hfirst := quiet_processBlock f j (hl x List.mem_cons_self)
    refine final_bind hfirst fun u w' hok => ih fun y hy => ?_
    rw [final_of_ok hok] at hfirst
    exact hfirst.blocks _ _ (hl y (List.mem_cons_of_mem _ hy))

@[grind ←] theorem quiet_missingBlocks (fSlot : Slot) (fuel : ℕ) (r : Root) (slot : Slot)
    (pending : List (Root × Block)) : Keeps Quiet (missingBlocks fSlot fuel r slot pending) := by
  induction fuel generalizing r slot pending with
  | zero => exact keeps_throw _
  | succ fuel ih =>
    unfold missingBlocks
    grind

theorem missingBlocks_ok {fSlot : Slot} {fuel : ℕ} {slot : Slot} {pending : List (Root × Block)}
    (h : missingBlocks fSlot fuel r slot pending w = .ok l w')
    (hpending : ∀ x ∈ pending, w.blocks[x.1]? = some x.2) :
    w'.toService = w.toService ∧ ∀ x ∈ l, w.blocks[x.1]? = some x.2 := by
  induction fuel generalizing r slot pending w with
  | zero => cases h
  | succ fuel ih =>
    rw [missingBlocks, get_bind] at h
    split at h
    · obtain ⟨o, w₁, hdb, h⟩ := bind_eq_ok.mp h
      obtain ⟨rfl, h₁⟩ := dbBlock_ok hdb
      cases hb : w.blocks[r]? with
      | none =>
        rw [hb] at h
        cases h
      | some b =>
        rw [hb] at h
        have hrest := ih h (by rw [h₁]; simpa [hb] using hpending)
        rwa [h₁] at hrest
    · cases h
      exact ⟨rfl, hpending⟩

@[grind ←] theorem quiet_fillInForkChoiceMissingBlocks (blk : Block)
    (f j : Checkpoint) : Keeps Quiet (fillInForkChoiceMissingBlocks cfg blk f j) := by
  refine keeps_get.bind fun w₀ => (quiet_ofExcept _).bind fun fSlot => ?_
  intro w
  refine final_bind (quiet_missingBlocks _ _ _ _ _ w) fun l w' hok => ?_
  obtain ⟨hservice, hl⟩ := missingBlocks_ok hok (by simp)
  rw [← hservice] at hl
  exact quiet_processBlocks f j hl

theorem quiet_insertBlockToForkChoiceStore (f j : Checkpoint) (hb : w.blocks[r]? = some b) :
    Quiet w (final (insertBlockToForkChoiceStore cfg b r f j) w) := by
  have hfill := quiet_fillInForkChoiceMissingBlocks cfg b f j
  exact final_bind (hfill w) fun _ _ hok => quiet_processBlock f j ((hfill.ok hok).blocks r b hb)

/-! ### Bookkeeping -/

@[grind ←] theorem quiet_verifyBlkDescendant (r : Root) : Keeps Quiet (verifyBlkDescendant r) := by
  unfold verifyBlkDescendant
  grind

@[grind ←] theorem quiet_getBlockPreState (env : Env) (b : Block) :
    Keeps Quiet (getBlockPreState cfg env b) := by
  unfold getBlockPreState verifyBlkPreState verifyBlkFinalizedSlot
  grind

@[grind ←] theorem quiet_setJustifiedBalances (balances : List Gwei) :
    Keeps Quiet (setJustifiedBalances balances) :=
  keeps_modify fun _ => quiet_of_fields rfl rfl rfl rfl rfl rfl rfl

@[grind ←] theorem quiet_setNextEpochBoundarySlot (slot : Slot) :
    Keeps Quiet (setNextEpochBoundarySlot slot) :=
  keeps_modify fun _ => quiet_of_fields rfl rfl rfl rfl rfl rfl rfl

@[grind ←] theorem quiet_setHead (slot : Slot) (r : Root) : Keeps Quiet (setHead slot r) :=
  keeps_modify fun _ => quiet_of_fields rfl rfl rfl rfl rfl rfl rfl

@[grind ←] theorem quiet_saveHeadBlockRoot (r : Root) : Keeps Quiet (saveHeadBlockRoot r) :=
  quiet_external.bind fun _ => keeps_modify fun _ => quiet_of_fields rfl rfl rfl rfl rfl rfl rfl

@[grind ←] theorem quiet_cacheJustifiedStateBalances (r : Root) :
    Keeps Quiet (cacheJustifiedStateBalances env r) := by
  unfold cacheJustifiedStateBalances
  grind

@[grind ←] theorem quiet_shouldUpdateCurrentJustified (env : Env)
    (c : Checkpoint) : Keeps Quiet (shouldUpdateCurrentJustified cfg env c) := by
  unfold shouldUpdateCurrentJustified
  split
  · exact keeps_pure true
  · refine keeps_get.bind fun w => (quiet_initSyncOrDBBlock _).bind fun newJustified => ?_
    cases newJustified with
    | none => exact keeps_throw _
    | some newJustifiedBlock =>
      refine (quiet_ofExcept _).bind fun jSlot => ?_
      grind

theorem quiet_headRoot : Keeps Quiet headRoot := by
  unfold headRoot headRoot.savedHeadRoot
  grind

@[grind ←] theorem quiet_saveHead (r : Root) : Keeps Quiet (saveHead env r) := by
  refine quiet_headRoot.bind fun current => ?_
  split
  · exact keeps_pure _
  · split
    · exact keeps_pure _
    · refine (quiet_dbBlock r).bind fun newHead => ?_
      cases newHead with
      | none => exact keeps_throw _
      | some newHeadBlock =>
        refine quiet_external.bind fun _ => ?_
        grind

@[grind ←] theorem quiet_handleEpochBoundary (st : BeaconState) :
    Keeps Quiet (handleEpochBoundary cfg st) := by
  unfold handleEpochBoundary
  grind

@[grind ←] theorem quiet_reinitForkChoice (r : Root) : Keeps Quiet (reinitForkChoice cfg r) := by
  intro w
  rw [reinitForkChoice, final, get_bind, ← final]
  split
  · refine final_bind (quiet_dbBlock r w) fun o w₁ hok => ?_
    obtain ⟨rfl, h₁⟩ := dbBlock_ok hok
    cases hb : w.blocks[r]? with
    | none => exact keeps_throw _ _
    | some b =>
      refine final_bind (keeps_modify (fun w => ?_) w₁) fun u w₂ hok₂ => ?_
      · exact ⟨⟨rfl, fun _ _ h => h, fun h => ⟨⟨h.agree, h.nonzero,
          ForkChoice.new_wellFormed _ _ _, ForkChoice.new_linkedAs _ _ _⟩, rfl⟩⟩, rfl, rfl, rfl⟩
      · cases hok₂
        refine quiet_insertBlockToForkChoiceStore cfg _ _ ?_
        change w₁.blocks[r]? = some b
        rw [h₁]
        exact hb
  · exact refl_of Quiet w

/-! ### Calls that move checkpoints -/

@[grind ←] theorem Quiet.keeps_sameTree {x : ServiceM α} (h : Keeps Quiet x) : Keeps SameTree x :=
  h.mono fun _ _ hq => hq.toSameTree

@[grind ←] theorem sameTree_setJustifiedCheckpt : Keeps SameTree (setJustifiedCheckpt c) :=
  keeps_modify fun _ => sameTree_of_fields rfl rfl rfl rfl

@[grind ←] theorem sameTree_setBestJustifiedCheckpt : Keeps SameTree (setBestJustifiedCheckpt c) :=
  keeps_modify fun _ => sameTree_of_fields rfl rfl rfl rfl

@[grind ←] theorem quiet_setPrevJustifiedCheckpt : Keeps Quiet (setPrevJustifiedCheckpt c) :=
  keeps_modify fun _ => quiet_of_fields rfl rfl rfl rfl rfl rfl rfl

@[grind ←] theorem sameTree_setFinalizedCheckpt : Keeps SameTree (setFinalizedCheckpt c) :=
  keeps_modify fun _ => sameTree_of_fields rfl rfl rfl rfl

@[grind ←] theorem quiet_setPrevFinalizedCheckpt : Keeps Quiet (setPrevFinalizedCheckpt c) :=
  keeps_modify fun _ => quiet_of_fields rfl rfl rfl rfl rfl rfl rfl

theorem final_logged (x : ServiceM Unit) (w : World) : final (logged x) w = final x w := by
  rw [final, final, logged]
  cases x w with
  | ok u w' => rfl
  | error e w' => cases he : e.isPanic <;> simp [he]

@[grind ←] theorem Keeps.logged {R : World → World → Prop} {x : ServiceM Unit} (h : Keeps R x) :
    Keeps R (logged x) := by
  intro w
  rw [final_logged]
  exact h w

@[grind ←] theorem sameTree_trackBestJustified : Keeps SameTree (trackBestJustified c) := by
  unfold trackBestJustified
  grind

@[grind ←] theorem sameTree_replaceJustified (c : Checkpoint) :
    Keeps SameTree (replaceJustified env c) := by
  unfold replaceJustified
  grind

@[grind ←] theorem sameTree_updateJustified (env : Env) (st : BeaconState) :
    Keeps SameTree (updateJustified cfg env st) := by
  unfold updateJustified
  grind

@[grind ←] theorem sameTree_updateFinalized (c : Checkpoint) :
    Keeps SameTree (updateFinalized cfg c) := by
  unfold updateFinalized
  grind

@[grind ←] theorem sameTree_finalizedImpliesNewJustified (env : Env)
    (st : BeaconState) : Keeps SameTree (finalizedImpliesNewJustified cfg env st) := by
  unfold finalizedImpliesNewJustified
  grind

@[grind ←] theorem sameTree_promoteBestJustified : Keeps SameTree (promoteBestJustified env) := by
  unfold promoteBestJustified
  grind

@[grind ←] theorem sameTree_updateHead (env : Env) (balances : List Gwei) :
    Keeps SameTree (updateHead cfg env balances) := by
  unfold updateHead
  grind

@[grind ←] theorem sameTree_updateJustifiedIfLater (env : Env) (st : BeaconState) :
    Keeps SameTree (updateJustifiedIfLater cfg env st) := by
  unfold updateJustifiedIfLater
  grind

@[grind ←] theorem sameTree_updateHeadTimely (env : Env) (st : BeaconState)
    (newFinalized : Bool) : Keeps SameTree (updateHeadTimely cfg env st newFinalized) := by
  unfold updateHeadTimely
  grind

@[grind ←] theorem sameTree_updateFinalizedIfNew (env : Env) (st : BeaconState)
    (newFinalized : Bool) : Keeps SameTree (updateFinalizedIfNew cfg env st newFinalized) := by
  unfold updateFinalizedIfNew
  grind

@[grind ←] theorem sameTree_handleCheckpoints (env : Env) (st : BeaconState) :
    Keeps SameTree (handleCheckpoints cfg env st) := by
  unfold handleCheckpoints
  grind

/-! ### Calls that add a block -/

structure TreeGrows (w w' : World) : Prop where
  genesisRoot : w'.genesisRoot = w.genesisRoot
  tree : w.Consistent → w'.Consistent ∧ ∀ r b, w.known r = some b → w'.known r = some b

/-- The tree may have grown, and no checkpoint has changed. -/
structure Grows (w w' : World) : Prop extends TreeGrows w w' where
  justified : w'.justifiedCheckpt = w.justifiedCheckpt
  best : w'.bestJustifiedCheckpt = w.bestJustifiedCheckpt
  finalized : w'.finalizedCheckpt = w.finalizedCheckpt

theorem TreeGrows.refl (w : World) : TreeGrows w w := ⟨rfl, fun h => ⟨h, fun _ _ hb => hb⟩⟩

theorem TreeGrows.trans {w'' : World} (h : TreeGrows w w') (h' : TreeGrows w' w'') :
    TreeGrows w w'' where
  genesisRoot := h'.genesisRoot.trans h.genesisRoot
  tree hw :=
    have hw' := h.tree hw
    have hw'' := h'.tree hw'.1
    ⟨hw''.1, fun r b hb => hw''.2 r b (hw'.2 r b hb)⟩

instance : IsPreorder World TreeGrows where
  refl := TreeGrows.refl
  trans _ _ _ h h' := h.trans h'

instance : IsPreorder World Grows where
  refl w := ⟨TreeGrows.refl w, rfl, rfl, rfl⟩
  trans _ _ _ h h' := ⟨h.toTreeGrows.trans h'.toTreeGrows, h'.justified.trans h.justified,
    h'.best.trans h.best, h'.finalized.trans h.finalized⟩

theorem SameTree.treeGrows (h : SameTree w w') : TreeGrows w w' where
  genesisRoot := h.genesisRoot
  tree hw :=
    have hw' := h.tree hw
    ⟨hw'.1, fun r b hb => by rw [hw'.2]; exact hb⟩

theorem Quiet.grows (h : Quiet w w') : Grows w w' :=
  ⟨h.toSameTree.treeGrows, h.justified, h.best, h.finalized⟩

/-- The root names no other block so far. -/
def Service.NamesBlock (s : Service) (r : Root) (b : Block) : Prop :=
  r ≠ zeroHash ∧ ∀ b', s.known r = some b' → b' = b

instance (s : Service) (r : Root) (b : Block) : Decidable (s.NamesBlock r b) :=
  decidable_of_iff (r ≠ zeroHash ∧ (s.known r).all (· = b) = true) (by
    rw [Service.NamesBlock, Option.all_eq_true]
    simp)

theorem Service.getElem?_insertIfNew {s : Service} (h : s.NamesBlock r b) (hw : s.Consistent)
    (a : Root) : (s.blocks.insertIfNew r b)[a]? = if a = r then some b else s.blocks[a]? := by
  rw [Std.ExtTreeMap.getElem?_insertIfNew]
  simp only [Std.compare_eq_iff_eq, @eq_comm _ r]
  by_cases ha : a = r
  · subst ha
    by_cases hin : a ∈ s.blocks
    · have hb := Std.ExtTreeMap.getElem?_eq_some_getElem hin
      rw [if_neg (by simp [hin]), if_pos rfl, hb, h.2 _ (hw.known_of_blocks hb)]
    · simp [hin]
  · simp [ha]

theorem grows_saveBlock (hw : w.Consistent) (hnames : w.NamesBlock r b) :
    Grows w (final (saveBlock r b) w) := by
  refine final_bind (quiet_external w).grows fun u w₁ hok => ?_
  have hservice := external_ok hok
  rw [← hservice] at hw hnames
  have hlookup := Service.getElem?_insertIfNew hnames hw
  have hinit : ∀ b', w₁.initSyncBlocks[r]? = some b' → b' = b := by
    intro b' hb'
    exact hnames.2 b' (by rw [Service.known, hb', Option.some_or])
  let w₂ : World := { w₁ with blocks := w₁.blocks.insertIfNew r b }
  have hknown : ∀ a, w₂.known a = if a = r then some b else w₁.known a := by
    intro a
    change w₁.initSyncBlocks[a]?.or (w₁.blocks.insertIfNew r b)[a]? = _
    rw [hlookup]
    by_cases ha : a = r
    · subst ha
      rw [if_pos rfl, if_pos rfl]
      cases hi : w₁.initSyncBlocks[a]? with
      | none => rfl
      | some b' => rw [Option.some_or, hinit b' hi]
    · rw [if_neg ha, if_neg ha, Service.known]
  have hgrow : ∀ a x, w₁.known a = some x → w₂.known a = some x := by
    intro a x hx
    rw [hknown]
    split
    · rename_i ha
      rw [hnames.2 x (ha ▸ hx)]
    · exact hx
  have hcons : w₂.Consistent := by
    refine ⟨?_, ?_, hw.wellFormed, ?_⟩
    · intro a x y hx hy
      change (w₁.blocks.insertIfNew r b)[a]? = some y at hy
      rw [hlookup] at hy
      split at hy
      · rename_i ha
        rw [hinit x (ha ▸ hx), Option.some.inj hy]
      · exact hw.agree a x y hx hy
    · intro a x hx
      rw [hknown] at hx
      split at hx
      · rename_i ha
        rw [ha]
        exact hnames.1
      · exact hw.nonzero a x hx
    · exact hw.linked.mono (Service.tree_mono hgrow)
  exact ⟨⟨rfl, fun _ => ⟨hcons, hgrow⟩⟩, rfl, rfl, rfl⟩

theorem saveBlock_ok {u : Unit} (hw : w.Consistent) (hnames : w.NamesBlock r b)
    (h : saveBlock r b w = .ok u w') : w'.blocks[r]? = some b := by
  obtain ⟨v, w₁, hx, h⟩ := bind_eq_ok.mp h
  have hservice := external_ok hx
  rw [← hservice] at hw hnames
  cases h
  change (w₁.blocks.insertIfNew r b)[r]? = some b
  rw [Service.getElem?_insertIfNew hnames hw, if_pos rfl]

theorem grows_savePostStateInfo (st : BeaconState) (hw : w.Consistent)
    (hnames : w.NamesBlock r b) : Grows w (final (savePostStateInfo cfg r b st false) w) := by
  refine final_bind (grows_saveBlock hw hnames) fun u w₁ hsave => ?_
  have hblock := saveBlock_ok hw hnames hsave
  refine final_bind (quiet_external w₁).grows fun u w₂ hx => ?_
  rw [← external_ok hx] at hblock
  refine final_bind ?_ fun u w₃ _ => (quiet_processAttestations _ w₃).grows
  exact (quiet_insertBlockToForkChoiceStore cfg _ _ hblock).grows

theorem grows_acceptBlock (env : Env) (transition : Option BeaconState) (hw : w.Consistent)
    (hnames : ∀ b, signed = some b → w.NamesBlock blockRoot b) :
    Grows w (final (acceptBlock cfg env signed blockRoot transition) w) := by
  cases signed with
  | none => exact refl_of Grows w
  | some b =>
    have hpre := quiet_getBlockPreState cfg env b
    refine final_bind (hpre w).grows fun u w₁ hok => ?_
    have htree := (hpre.ok hok).tree hw
    have hnames₁ : w₁.NamesBlock blockRoot b := by
      obtain ⟨hr, hb⟩ := hnames b rfl
      exact ⟨hr, by rw [htree.2]; exact hb⟩
    cases transition with
    | none => exact refl_of Grows w₁
    | some st =>
      exact final_bind (grows_savePostStateInfo cfg st htree.1 hnames₁)
        fun _ w₂ _ => refl_of Grows w₂

/-! ### Whole calls -/

theorem treeGrows_onBlock (env : Env) (transition : Option BeaconState) (hw : w.Consistent)
    (hnames : ∀ b, signed = some b → w.NamesBlock blockRoot b) :
    TreeGrows w (final (onBlock cfg env signed blockRoot transition) w) := by
  refine final_bind (grows_acceptBlock cfg env transition hw hnames).toTreeGrows fun st w₁ _ => ?_
  refine final_bind (sameTree_handleCheckpoints cfg env st w₁).treeGrows fun _ w₂ _ => ?_
  exact (quiet_handleEpochBoundary cfg st w₂).toSameTree.treeGrows

namespace Service

variable {s : Service}

/-- A block arrives under a root of its own. -/
def RootsName (s : Service) : Op → Prop
  | .onBlock _ signed blockRoot _ => ∀ b, signed = some b → s.NamesBlock blockRoot b
  | .updateHead _ => True

instance (s : Service) (op : Op) : Decidable (s.RootsName op) :=
  match op with
  | .onBlock _ none _ _ => .isTrue (by simp [RootsName])
  | .onBlock _ (some b) blockRoot _ =>
    decidable_of_iff (s.NamesBlock blockRoot b) (by simp [RootsName])
  | .updateHead _ => .isTrue trivial

theorem step_treeGrows (hs : s.Consistent) {op : Op} (hop : s.RootsName op) :
    TreeGrows (s.enter op.env) (final (op.call cfg) (s.enter op.env)) := by
  cases op with
  | updateHead env =>
    have hkeeps := keeps_get.bind fun w : World =>
      sameTree_updateHead cfg env w.justifiedBalances
    exact (hkeeps (s.enter env)).treeGrows
  | onBlock env signed blockRoot transition =>
    exact treeGrows_onBlock cfg env transition hs hop

theorem step_consistent (hs : s.Consistent) {op : Op} (hop : s.RootsName op) :
    (s.step cfg op).Consistent :=
  ((step_treeGrows cfg hs hop).tree hs).1

theorem run_consistent {cfg : Config} (hs : s.Consistent) {ops : List Op}
    (hops : Run.Admits (step cfg) RootsName s ops) : (s.run cfg ops).Consistent :=
  Run.invariant (I := Consistent) (fun _ _ ht hop => step_consistent cfg ht hop) hs hops

theorem genesis_consistent {genesisRoot : Root} (hroot : genesisRoot ≠ zeroHash)
    (genesisBlk : Block) (hparent : genesisBlk.parentRoot = zeroHash) (balances : List Gwei) :
    (genesis genesisRoot genesisBlk balances).Consistent := by
  have hblocks : ∀ r : Root, (genesis genesisRoot genesisBlk balances).known r =
      if r = genesisRoot then some genesisBlk else none := by
    intro r
    change (∅ : ProtoArray.RootMap Block)[r]?.or
      ((∅ : ProtoArray.RootMap Block).insert genesisRoot genesisBlk)[r]? = _
    rw [TreeMap.getElem?_insert]
    simp
  have hnew := ForkChoice.new_wellFormed 0 0 zeroHash
  refine ⟨?_, ?_, ?_, ?_⟩
  · intro r b b' hb
    simp [genesis] at hb
  · intro r b hb
    rw [hblocks] at hb
    split at hb
    · rename_i hr
      rw [hr]
      exact hroot
    · cases hb
  · exact ForkChoice.step_wellFormed hnew _
  · refine ForkChoice.step_linkedAs hnew (ForkChoice.new_linkedAs 0 0 zeroHash) ?_
    intro slot r q g je fe h
    cases h
    exact tree_eq_some.mpr ⟨genesisBlk, by rw [hblocks, if_pos rfl], rfl, hparent⟩

end Service

end Vanguard.Blockchain
