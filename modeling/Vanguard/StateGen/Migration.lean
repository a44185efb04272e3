import Vanguard.StateGen.Regeneration

/-!
Which states `MigrateToCold` archives.

For an archived point the state is looked up by its slot alone: in the boundary
cache, which keeps the first root that was saved for a slot, and else as that of
the first block saved in the last slot below. Neither looks at the branch of the
finalized block. What is archived lies on that branch if nothing else is stored
at the archived points and in the last slots below them.
-/

namespace Vanguard.StateGen

open List Option

open Blockchain (Block)
open EState Run

variable {σ : Type} {T : Transition σ} {tree : BlockTree T} {r : Root} {b : Block} {slot : Slot}
  {w : Manager σ}

/-- `r` is the block `f` or an ancestor of it. -/
def OnChain (tree : BlockTree T) (r f : Root) : Prop := ∃ l, Chain tree r f l

/-! ### What the lookups find -/

/-- The block is in the last slot below `slot` that has a stored block. -/
def LastBelow (db : DB σ) (slot : Slot) (b : Block) : Prop :=
  b.slot < slot ∧ ∀ r' b', db.block r' = some b' → b'.slot < slot → b'.slot ≤ b.slot

theorem Stored.onChain_genesis {db : DB σ} (h : Stored tree db) (hb : db.block r = some b) :
    OnChain tree tree.genesisRoot r := by
  induction hn : b.slot.toNat using Nat.strong_induction_on generalizing r b with
  | h n ih =>
    rcases h.parent hb with rfl | ⟨p, hp, hlt⟩
    · exact ⟨[], .refl⟩
    · obtain ⟨l, hl⟩ := ih p.slot.toNat (hn ▸ hlt) hp rfl
      exact ⟨b :: l, .block (h.block_eq hb) hl⟩

theorem mem_takeWhile_of_sorted {index : List (Slot × List Root)}
    (h : index.Pairwise fun x y => x.1 < y.1) {y : Slot × List Root} (hy : y ∈ index)
    (hlt : y.1 < slot) : y ∈ index.takeWhile fun x => decide (x.1 < slot) := by
  induction index with
  | nil => cases hy
  | cons x index ih =>
    obtain ⟨hx, hindex⟩ := pairwise_cons.mp h
    rcases mem_cons.mp hy with rfl | hy
    · rw [takeWhile_cons, if_pos (decide_eq_true hlt)]
      exact mem_cons_self
    · rw [takeWhile_cons, if_pos (decide_eq_true (BitVec.lt_trans (hx y hy) hlt))]
      exact mem_cons_of_mem _ (ih hindex hy)

theorem Stored.highestSlotBlocksBelow_spec {db : DB σ} (h : Stored tree db)
    (hbelow : db.highestSlotBlocksBelow slot = some (r, b)) :
    r = tree.genesisRoot ∨ LastBelow db slot b := by
  have hblock := block_of_highestSlotBlocksBelow hbelow
  rcases or_eq_some_iff.mp hbelow with hbest | ⟨-, hgenesis⟩
  · refine .inr ?_
    obtain ⟨r', hr', hget⟩ := bind_eq_some_iff.mp hbest
    obtain ⟨b', -, hrb⟩ := map_eq_some_iff.mp hget
    cases hrb
    obtain ⟨x, hx, hhead⟩ := bind_eq_some_iff.mp hr'
    obtain ⟨front, hfront⟩ := getLast?_eq_some_iff.mp hx
    have hsub := takeWhile_sublist (l := db.blockSlotIndices) fun x => decide (x.1 < slot)
    have hxmem : x ∈ db.blockSlotIndices.takeWhile fun x => decide (x.1 < slot) := by
      rw [hfront]
      exact mem_append_right _ (mem_singleton_self x)
    have hxlt : x.1 < slot := by simpa using mem_takeWhile_imp hxmem
    obtain ⟨c, hc, hslot⟩ := h.listed x (hsub.subset hxmem) r (mem_of_head? hhead)
    rw [hblock] at hc
    cases hc
    refine ⟨hslot ▸ hxlt, fun r'' b'' hb'' hlt => ?_⟩
    obtain ⟨y, hy, hyslot, -⟩ := h.complete hb''
    have hymem := mem_takeWhile_of_sorted h.sorted hy (hyslot ▸ hlt)
    have hsorted := h.sorted.sublist hsub
    rw [hfront] at hymem hsorted
    rw [← hyslot, hslot]
    rcases mem_append.mp hymem with hy | hy
    · exact BitVec.le_of_lt ((pairwise_append.mp hsorted).2.2 y hy x (mem_singleton_self x))
    · rw [mem_singleton.mp hy]
      exact BitVec.le_refl _
  · obtain ⟨b', -, hrb⟩ := map_eq_some_iff.mp hgenesis
    cases hrb
    exact .inl h.genesisBlockRoot_eq

/-- The boundary cache files stored blocks under their slots. -/
def Filed (w : Manager σ) : Prop :=
  ∀ x ∈ w.epochBoundaryStateCache.slotRootCache, ∃ b, w.beaconDB.block x.2 = some b ∧ b.slot = x.1

theorem Filed.getBySlot (h : Filed w) {st : σ}
    (hget : w.epochBoundaryStateCache.getBySlot slot = some (r, st)) :
    ∃ b, w.beaconDB.block r = some b ∧ b.slot = slot := by
  obtain ⟨r', hr', hget⟩ := bind_eq_some_iff.mp hget
  obtain ⟨st', -, hrst⟩ := map_eq_some_iff.mp hget
  cases hrst
  exact h (slot, r) (Lru.mem_of_lookup hr')

/-! ### Runs -/

def SavesStored (w : Manager σ) : Op σ → Prop
  | .saveState r _ => (w.beaconDB.block r).isSome
  | _ => True

theorem Filed.of_eq {w' : Manager σ} (h : Filed w)
    (hslots : w'.epochBoundaryStateCache.slotRootCache = w.epochBoundaryStateCache.slotRootCache)
    (hblocks : w'.beaconDB.blocks = w.beaconDB.blocks) : Filed w' := by
  unfold Filed DB.block
  rw [hslots, hblocks]
  exact h

theorem filed_saveState (h : Filed w) {st : σ} (hb : w.beaconDB.block r = some b)
    (hslot : T.slot st = b.slot) : Filed (step tree w (.saveState r st)) := by
  have hsave : Ensures
      (fun w' => w'.heap[w.heap.length]? = some st ∧ w'.beaconDB.blocks = w.beaconDB.blocks ∧
        Filed w')
      (fun _ => True) (saveState T r w.heap.length : StateGenM σ Unit) := by
    refine ensures_saveState_of (fun _ hw => hw.1)
      (fun _ _ hw => ⟨hw.1, hw.2.1, hw.2.2.of_eq rfl rfl⟩) (fun w' hw => ⟨hw.1, hw.2.1, ?_⟩)
      (fun _ hw => ⟨hw.1, hw.2.1, hw.2.2.of_eq rfl rfl⟩)
      fun _ hw => ⟨hw.1, hw.2.1, hw.2.2.of_eq rfl rfl⟩
    intro x hx
    have hx := mem_of_mem_drop hx
    unfold addIfNotPresent at hx
    split at hx
    · exact hw.2.2 x hx
    · rcases mem_append.mp hx with hx | hx
      · exact hw.2.2 x hx
      · rw [mem_singleton.mp hx]
        refine ⟨b, ?_, hslot.symm⟩
        rw [DB.block, hw.2.1]
        exact hb
  exact (hsave { w with heap := w.heap ++ [st] }
    ⟨getElem?_concat_length, rfl, h.of_eq rfl rfl⟩).1.2.2

theorem filed_saveBlock (h : Filed w) (r : Root) (b : Block) :
    Filed { w with beaconDB := w.beaconDB.saveBlock r b } := by
  intro x hx
  obtain ⟨c, hc, hslot⟩ := h x hx
  refine ⟨c, ?_, hslot⟩
  cases hnew : w.beaconDB.block r with
  | some b' =>
    rw [DB.saveBlock, hnew]
    exact hc
  | none =>
    change (w.beaconDB.saveBlock r b).block x.2 = some c
    rw [block_saveBlock hnew, if_neg, hc]
    rintro hr
    rw [hr, hnew] at hc
    cases hc

theorem filed_step {op : Op σ} (hsound : Sound tree w) (h : Filed w) (hvalid : Valid tree w op)
    (hstored : SavesStored w op) : Filed (step tree w op) := by
  cases op with
  | saveBlock r =>
    obtain ⟨b, hb, -⟩ := hvalid
    simp only [step, hb]
    exact filed_saveBlock h r b
  | saveState r st =>
    obtain ⟨b, hb⟩ := isSome_iff_exists.mp hstored
    exact filed_saveState h hb (PostState.slot_eq hvalid (hsound.stored.block_eq hb))
  | stateByRoot r =>
    obtain ⟨b, hb⟩ := isSome_iff_exists.mp hvalid
    have hsame := (ensures_stateByRoot hsound hb w ⟨hsound, .refl w⟩).1.2
    exact h.of_eq (congrArg (·.slotRootCache) hsame.boundary) hsame.blocks
  | migrateToCold ctx fRoot =>
    have hmig := migrating_migrateToCold (P := fun _ => True) hsound ctx fRoot
      fun _ _ _ _ _ _ _ _ _ => trivial
    exact h.of_eq (congrArg (·.slotRootCache) hmig.boundary) hmig.blocks
  | evictBoundarySlot s => exact fun x hx => h x (mem_of_mem_filter hx)
  | _ => exact h.of_eq rfl rfl

theorem sound_filed_run (tree : BlockTree T) (slotsPerArchivedPoint : Slot) (ops : List (Op σ))
    (hops : Admits (step tree) (fun w op => Valid tree w op ∧ SavesStored w op)
      (start tree slotsPerArchivedPoint) ops) :
    Sound tree (ops.foldl (step tree) (start tree slotsPerArchivedPoint)) ∧
      Filed (ops.foldl (step tree) (start tree slotsPerArchivedPoint)) := by
  refine Run.invariant (I := fun w => Sound tree w ∧ Filed w) (fun w op h hop => ?_)
    ⟨sound_start tree _, fun x hx => absurd hx not_mem_nil⟩ hops
  exact ⟨sound_step h.1 hop.1, filed_step h.1 h.2 hop.1 hop.2⟩

/-- If all blocks stored at the archived points below the finalized block, and in
the last slots below these points, are its ancestors, then every state that
`MigrateToCold` writes is the post state of the finalized block or of an
ancestor. -/
theorem migrateToCold_archives_finalized_chain (tree : BlockTree T) (slotsPerArchivedPoint : Slot)
    (ops : List (Op σ))
    (hops : Admits (step tree) (fun w op => Valid tree w op ∧ SavesStored w op)
      (start tree slotsPerArchivedPoint) ops)
    (ctx : Ctx) (f : Root) (fBlock : Block) (w : Manager σ)
    (hw : ops.foldl (step tree) (start tree slotsPerArchivedPoint) = w)
    (hf : w.beaconDB.block f = some fBlock)
    (hclean : ∀ s, w.finalizedInfo.slot ≤ s → s < fBlock.slot → s % w.slotsPerArchivedPoint = 0 →
      s ≠ 0 → ∀ r b, w.beaconDB.block r = some b → b.slot = s ∨ LastBelow w.beaconDB s b →
      OnChain tree r f) :
    ∀ x ∈ (final (migrateToCold T ctx f) w).beaconDB.states,
      x ∈ w.beaconDB.states ∨ (PostState tree x.1 x.2 ∧ OnChain tree x.1 f) := by
  obtain ⟨hsound, hfiled⟩ := sound_filed_run tree slotsPerArchivedPoint ops hops
  rw [hw] at hsound hfiled
  have hmig := migrating_migrateToCold (P := fun r => OnChain tree r f) hsound ctx f ?_
  · intro x hx
    exact (hmig.written x hx).imp id fun hchain => ⟨hmig.sound.states x hx, hchain⟩
  · intro fb hfb s hge hlt hpoint hs r hr
    rw [hf] at hfb
    cases hfb
    rcases hr with ⟨st, hget⟩ | ⟨b, hbelow⟩
    · obtain ⟨b, hb, hslot⟩ := hfiled.getBySlot hget
      exact hclean s hge hlt hpoint hs r b hb (.inl hslot)
    · rcases hsound.stored.highestSlotBlocksBelow_spec hbelow with rfl | hlast
      · exact hsound.stored.onChain_genesis hf
      · exact hclean s hge hlt hpoint hs r b (block_of_highestSlotBlocksBelow hbelow) (.inr hlast)

/-! ### Small trees -/

theorem onChain_iff {f : Root} :
    OnChain tree r f ↔ r = f ∨ ∃ b, tree.block f = some b ∧ OnChain tree r b.parentRoot := by
  constructor
  · rintro ⟨l, h⟩
    cases h with
    | refl => exact .inl rfl
    | block hb hparent => exact .inr ⟨_, hb, _, hparent⟩
  · rintro (rfl | ⟨b, hb, l, h⟩)
    · exact ⟨[], .refl⟩
    · exact ⟨b :: l, .block hb h⟩

/-- The block of slot 32 has an orphaned child in slot 33 and a child in slot 64. -/
def lateOrphanTree : BlockTree recordTransition where
  block r :=
    if r = 1 then some ⟨0, 0, 1, []⟩
    else if r = 2 then some ⟨32, 1, 2, []⟩
    else if r = 3 then some ⟨33, 2, 3, []⟩
    else if r = 4 then some ⟨64, 2, 4, []⟩
    else none
  genesisRoot := 1
  genesisState := (0, [])
  block_zeroHash := rfl
  genesis := ⟨_, rfl, rfl, rfl⟩

/-- The manager after the blocks of the tree were saved, with the state of block 2. -/
def lateOrphanManager : Manager (Slot × List Root) :=
  [Op.saveBlock 2, .saveState 2 (32, [2]), .saveBlock 3, .saveBlock 4].foldl (step lateOrphanTree)
    (start lateOrphanTree 32)

theorem archivedPoint_eq {s : Slot} (hlt : s < 64) (hpoint : s % 32 = 0) (hne : s ≠ 0) :
    s = 32 := by
  have hmod : s.toNat % 32 = 0 := congrArg BitVec.toNat hpoint
  have hpos : s.toNat ≠ 0 := fun h => hne (BitVec.eq_of_toNat_eq h)
  have hbound : s.toNat < 64 := hlt
  refine BitVec.eq_of_toNat_eq ?_
  change s.toNat = 32
  omega

/-- The state of block 2 is archived and not that of the orphaned block 3. -/
theorem migrateToCold_archives_finalized_chain_late_orphan :
    (2, (32, [2])) ∈
        (final (migrateToCold recordTransition .background 4) lateOrphanManager).beaconDB.states ∧
      (2, (32, [2])) ∉ lateOrphanManager.beaconDB.states ∧
      PostState lateOrphanTree 2 (32, [2]) ∧ OnChain lateOrphanTree 2 4 := by
  have harchived : (2, (32, [2])) ∈
      (final (migrateToCold recordTransition .background 4) lateOrphanManager).beaconDB.states := by
    decide +kernel
  have hnew : (2, (32, [2])) ∉ lateOrphanManager.beaconDB.states := by decide +kernel
  refine ⟨harchived, hnew, (migrateToCold_archives_finalized_chain lateOrphanTree 32
    [.saveBlock 2, .saveState 2 (32, [2]), .saveBlock 3, .saveBlock 4]
    ⟨⟨⟨_, rfl, _, rfl, by decide⟩, trivial⟩, ⟨.block rfl .genesis rfl, rfl⟩,
      ⟨⟨_, rfl, _, rfl, by decide⟩, trivial⟩, ⟨⟨_, rfl, _, rfl, by decide⟩, trivial⟩, trivial⟩
    .background 4 ⟨64, 2, 4, []⟩ lateOrphanManager rfl rfl ?_ _ harchived).resolve_left hnew⟩
  have hfour : OnChain lateOrphanTree 4 4 := ⟨[], .refl⟩
  have htwo : OnChain lateOrphanTree 2 4 := onChain_iff.mpr (.inr ⟨_, rfl, [], .refl⟩)
  have hone : OnChain lateOrphanTree 1 4 :=
    onChain_iff.mpr (.inr ⟨_, rfl, onChain_iff.mpr (.inr ⟨_, rfl, [], .refl⟩)⟩)
  intro s _ hlt hpoint hne r b hb hslot
  obtain rfl : s = 32 := archivedPoint_eq hlt hpoint hne
  have hmem : (r, b) ∈ lateOrphanManager.beaconDB.blocks := Lru.mem_of_lookup hb
  have hblocks : lateOrphanManager.beaconDB.blocks =
      [(1, ⟨0, 0, 1, []⟩), (2, ⟨32, 1, 2, []⟩), (3, ⟨33, 2, 3, []⟩), (4, ⟨64, 2, 4, []⟩)] := rfl
  rw [hblocks] at hmem
  simp only [mem_cons, not_mem_nil, or_false, Prod.mk.injEq] at hmem
  rcases hmem with ⟨rfl, rfl⟩ | ⟨rfl, rfl⟩ | ⟨rfl, rfl⟩ | ⟨rfl, rfl⟩
  · exact hone
  · exact htwo
  · rcases hslot with hslot | ⟨hlt, -⟩
    · exact absurd hslot (by decide)
    · exact absurd hlt (by decide)
  · exact hfour

/-- Two blocks in slot 32, of which the first one is orphaned. -/
def orphanTree : BlockTree recordTransition where
  block r :=
    if r = 1 then some ⟨0, 0, 1, []⟩
    else if r = 2 then some ⟨32, 1, 2, []⟩
    else if r = 3 then some ⟨32, 1, 3, []⟩
    else if r = 4 then some ⟨64, 3, 4, []⟩
    else none
  genesisRoot := 1
  genesisState := (0, [])
  block_zeroHash := rfl
  genesis := ⟨_, rfl, rfl, rfl⟩

/-- The orphaned block of slot 32 comes first; the finalized block 4 descends from
the other one, and `MigrateToCold` archives the state of the orphaned block. -/
theorem migrateToCold_archives_orphan :
    ∃ (ops : List (Op (Slot × List Root))) (f : Root),
      Admits (step orphanTree) (fun w op => Valid orphanTree w op ∧ SavesStored w op)
        (start orphanTree 32) ops ∧
      ((ops.foldl (step orphanTree) (start orphanTree 32)).beaconDB.block f).isSome ∧
      OnChain orphanTree orphanTree.genesisRoot f ∧
      ∃ x ∈ (final (migrateToCold recordTransition .background f)
          (ops.foldl (step orphanTree) (start orphanTree 32))).beaconDB.states,
        x ∉ (ops.foldl (step orphanTree) (start orphanTree 32)).beaconDB.states ∧
          ¬ OnChain orphanTree x.1 f := by
  refine ⟨[.saveBlock 2, .saveState 2 (32, [2]), .saveBlock 3, .saveState 3 (32, [3]),
    .saveBlock 4, .saveState 4 (64, [3, 4])], 4, ?_, rfl, ?_, (2, (32, [2])), ?_, by decide, ?_⟩
  · exact ⟨⟨⟨_, rfl, _, rfl, by decide⟩, trivial⟩, ⟨.block rfl .genesis rfl, rfl⟩,
      ⟨⟨_, rfl, _, rfl, by decide⟩, trivial⟩, ⟨.block rfl .genesis rfl, rfl⟩,
      ⟨⟨_, rfl, _, rfl, by decide⟩, trivial⟩,
      ⟨.block rfl (.block rfl .genesis rfl) rfl, rfl⟩, trivial⟩
  · exact onChain_iff.mpr (.inr ⟨_, rfl, onChain_iff.mpr (.inr ⟨_, rfl, [], .refl⟩)⟩)
  · decide
  · have hblock : ∀ {f b}, orphanTree.block f = some b → OnChain orphanTree 2 f → 2 = f ∨
        OnChain orphanTree 2 b.parentRoot := by
      intro f b hb h
      refine (onChain_iff.mp h).imp id fun ⟨b', hb', h'⟩ => ?_
      rw [hb] at hb'
      cases hb'
      exact h'
    intro h
    have h := (hblock rfl h).resolve_left (by decide)
    have h := (hblock rfl h).resolve_left (by decide)
    have h := (hblock rfl h).resolve_left (by decide)
    rcases onChain_iff.mp h with h | ⟨b, hb, -⟩
    · exact absurd h (by decide)
    · cases hb

end Vanguard.StateGen
