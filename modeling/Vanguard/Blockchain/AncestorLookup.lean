import Vanguard.Blockchain.BlockTree

/-!
The two lookups of an ancestor.

A fork choice store that is built from some of the known blocks, and pruned, may lack any of their
ancestors. Its parent links are still those of the blocks, so that an answer of the store is the
answer of the walk through the database, and where the store has none the database is asked.
-/

namespace Vanguard.Blockchain

open Forest EState
open ProtoArray (ForkChoice)

/-- The call inserts a block of the tree with its own slot and parent. -/
def InsertsFrom (tree : Root → Option (Slot × Root)) : ProtoArray.Op → Prop
  | .processBlock slot r q _ _ _ => tree r = some (slot, q)
  | _ => True

theorem linkedAs_run {tree : Root → Option (Slot × Root)} {f : ForkChoice}
    (hwellFormed : f.store.WellFormed) (hlinked : f.store.LinkedAs tree) {ops : List ProtoArray.Op}
    (hops : ∀ op ∈ ops, InsertsFrom tree op) : (f.run ops).store.LinkedAs tree := by
  have hrun : (f.run ops).store.WellFormed ∧ (f.run ops).store.LinkedAs tree := by
    refine Run.invariant (I := fun f : ForkChoice => f.store.WellFormed ∧ f.store.LinkedAs tree)
      (fun g op hg hop => ⟨ForkChoice.step_wellFormed hg.1 op, ?_⟩) ⟨hwellFormed, hlinked⟩
      (Run.admits_of_forall hops)
    refine ForkChoice.step_linkedAs hg.1 hg.2 fun slot r q g je fe heq => ?_
    subst heq
    exact hop
  exact hrun.2

/-- For a store that is built from known blocks by any calls, whose consultations do not fail:
where the store has an answer the database has the same, and an ancestor that is in the database
is found. -/
theorem ancestor_lookups_agree (w : World) (je fe : Epoch) (finalizedRoot : Root)
    (ops : List ProtoArray.Op) (hslots : w.SlotsIncrease)
    (hops : ∀ op ∈ ops, InsertsFrom w.tree op)
    (hstore : w.forkChoice = (ForkChoice.new je fe finalizedRoot).run ops)
    (hcalm : w.answers = []) (r : Root) (slot : Slot) :
    (∀ a w', ancestorByForkChoiceStore r slot w = .ok a w' →
      ancestorByDB (w.blocks.size + w.initSyncBlocks.size + 1) r slot w = .ok a w) ∧
    ∀ a, AncestorAt w.tree slot r a → ancestor r slot w = .ok a w := by
  have hwellFormed : w.forkChoice.store.WellFormed := by
    rw [hstore]
    exact ForkChoice.run_wellFormed (ForkChoice.new_wellFormed je fe finalizedRoot) ops
  have hlinked : w.forkChoice.store.LinkedAs w.tree := by
    rw [hstore]
    exact linkedAs_run (ForkChoice.new_wellFormed je fe finalizedRoot)
      (ForkChoice.new_linkedAs je fe finalizedRoot) hops
  refine ⟨fun a w' h => ?_, fun a ha => ancestor_calm hwellFormed hlinked hcalm hslots ha⟩
  have ha := ancestorByForkChoiceStore_sound hwellFormed hlinked h
  exact ancestorByDB_calm hcalm (Service.getAncestor_of_ancestorAt hslots ha)

/-- A chain of three blocks, of which the store has the last two. -/
def partialStore : World where
  genesisRoot := 1
  justifiedCheckpt := ⟨0, 1⟩
  prevJustifiedCheckpt := ⟨0, 1⟩
  bestJustifiedCheckpt := ⟨0, 1⟩
  finalizedCheckpt := ⟨0, 1⟩
  prevFinalizedCheckpt := ⟨0, 1⟩
  nextEpochBoundarySlot := 0
  justifiedBalances := []
  head := none
  initSyncBlocks := ∅
  blocks := (((∅ : ProtoArray.RootMap Block).insert 1 ⟨0, 0, 0, []⟩).insert 2
    ⟨1, 1, 0, []⟩).insert 3 ⟨2, 2, 0, []⟩
  headBlockRoot := none
  forkChoice := (ForkChoice.new 0 0 1).run [.processBlock 1 2 1 0 0 0, .processBlock 2 3 2 0 0 0]
  answers := []

theorem known_partialStore {r : Root} {b : Block} (h : partialStore.known r = some b) :
    r = 1 ∧ b = ⟨0, 0, 0, []⟩ ∨ r = 2 ∧ b = ⟨1, 1, 0, []⟩ ∨ r = 3 ∧ b = ⟨2, 2, 0, []⟩ := by
  have hempty : ∀ q : Root, (∅ : ProtoArray.RootMap Block)[q]? = none := fun _ =>
    Std.ExtTreeMap.getElem?_empty
  have hknown : partialStore.known r = if r = 3 then some ⟨2, 2, 0, []⟩
      else if r = 2 then some ⟨1, 1, 0, []⟩ else if r = 1 then some ⟨0, 0, 0, []⟩ else none := by
    rw [Service.known, partialStore]
    dsimp only
    rw [hempty, Option.none_or, TreeMap.getElem?_insert, TreeMap.getElem?_insert,
      TreeMap.getElem?_insert, hempty]
  rw [hknown] at h
  split at h
  next hr => exact .inr (.inr ⟨hr, (Option.some.inj h).symm⟩)
  split at h
  next hr => exact .inr (.inl ⟨hr, (Option.some.inj h).symm⟩)
  split at h
  next hr => exact .inl ⟨hr, (Option.some.inj h).symm⟩
  · cases h

/-- The store knows the ancestor at slot 1, and only the database the one at slot 0. -/
theorem ancestor_lookups_agree_partial :
    ancestorByDB 4 3 1 partialStore = .ok 2 partialStore ∧
      ancestor 3 0 partialStore = .ok 1 partialStore := by
  have hslots : partialStore.SlotsIncrease := by
    intro r b b' hb hb'
    rcases known_partialStore hb with ⟨-, rfl⟩ | ⟨-, rfl⟩ | ⟨-, rfl⟩ <;>
      rcases known_partialStore hb' with ⟨h, rfl⟩ | ⟨h, rfl⟩ | ⟨h, rfl⟩ <;>
      revert h <;> decide
  have hone : partialStore.tree 1 = some (0, 0) := by decide +kernel
  have htwo : partialStore.tree 2 = some (1, 1) := by decide +kernel
  have hthree : partialStore.tree 3 = some (2, 2) := by decide +kernel
  have hops : ∀ op ∈ [ProtoArray.Op.processBlock 1 2 1 0 0 0, .processBlock 2 3 2 0 0 0],
      InsertsFrom partialStore.tree op := by
    intro op hop
    rcases List.mem_pair.mp hop with rfl | rfl
    · exact htwo
    · exact hthree
  have hagree := ancestor_lookups_agree partialStore 0 0 1
    [.processBlock 1 2 1 0 0 0, .processBlock 2 3 2 0 0 0] hslots hops rfl rfl 3
  refine ⟨(hagree 1).1 2 partialStore ?_, (hagree 0).2 1 ?_⟩
  · have hparent : partialStore.forkChoice.hasParent 3 = true := by decide +kernel
    have hroot : ForkChoice.ancestorRoot Ctx.background partialStore.forkChoice 3 1 = .ok 2 := by
      decide +kernel
    rw [ancestorByForkChoiceStore, get_bind, if_pos hparent, bind_ok (nextCtx_calm rfl), hroot]
    rfl
  · exact .up hthree (by decide) (.up htwo (by decide) (.here hone (by decide)))

end Vanguard.Blockchain
