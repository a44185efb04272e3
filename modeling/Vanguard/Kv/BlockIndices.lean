import Vanguard.Kv.Blocks

/-!
What the block indices list along a run of the database.

Saving keeps the indices exact. A deletion does where the searches for the root stop at the root
itself and not across two other roots. A batch deletes all of its roots if none that is stored comes
after one that is not, or that the batch has deleted already.
-/

namespace Vanguard.Kv

open Run List Store

variable {β : Type} (V : BlockView β)

/-- The searches for the root of a block are aligned once the given roots are deleted. -/
def Found (s : Store β) (deleted : List Root) (r : Root) (b : β) : Prop :=
  Aligned ((rootsUnder s.blockSlotIndices (V.slot b)).filter fun a => decide (a ∉ deleted)) r ∧
    Aligned ((rootsUnder s.blockParentRootIndices (V.parentRoot b)).filter
      fun a => decide (a ∉ deleted)) r

/-- After the deletions so far a batch takes the rest of its roots out of the store. -/
def DeletesAll (s : Store β) : List Root → List Root → Prop
  | _, [] => True
  | deleted, r :: rest =>
    if r ∈ deleted then ∀ a ∈ rest, a ∉ deleted → s.blocks[a]? = none
    else
      match s.blocks[r]? with
      | none => ∀ a ∈ rest, a ∉ deleted → s.blocks[a]? = none
      | some b => Found V s deleted r b ∧ DeletesAll s (r :: deleted) rest

/-- The condition on the calls of a run. -/
def BlockCall.Fits (s : Store β) : BlockCall β → Prop
  | .deleteBlock r => DeletesAll V s [] [r]
  | .deleteBlocks rs => DeletesAll V s [] rs
  | _ => True

/-! ### Batches -/

section Deletes

variable {V} {s s' : Store β}

/-- The store without some of its blocks. -/
structure Deleted (V : BlockView β) (s : Store β) (deleted : List Root) (s' : Store β) : Prop where
  indexed : Indexed V s'
  blocks : ∀ r : Root, s'.blocks[r]? = if r ∈ deleted then none else s.blocks[r]?
  slots : ∀ slot, rootsUnder s'.blockSlotIndices slot =
    (rootsUnder s.blockSlotIndices slot).filter fun a => decide (a ∉ deleted)
  parents : ∀ r, rootsUnder s'.blockParentRootIndices r =
    (rootsUnder s.blockParentRootIndices r).filter fun a => decide (a ∉ deleted)

theorem Deleted.nil (h : Indexed V s) : Deleted V s [] s where
  indexed := h
  blocks r := (if_neg not_mem_nil).symm
  slots slot := by simp
  parents r := by simp

theorem filter_not_mem_cons (l deleted : List Root) (r : Root) :
    (l.filter fun a => decide (a ∉ deleted)).filter (fun a => decide (a ≠ r)) =
      l.filter fun a => decide (a ∉ r :: deleted) := by
  rw [filter_filter]
  refine filter_congr fun a _ => Bool.eq_iff_iff.mpr ?_
  simp

variable {deleted : List Root}

theorem Deleted.removeBlock (h : Deleted V s deleted s') {r : Root} {b : β}
    (hr : r ∉ deleted) (hb : s.blocks[r]? = some b) (hfound : Found V s deleted r b) :
    Deleted V s (r :: deleted) (s'.removeBlock V r b) := by
  have hb' : s'.blocks[r]? = some b := by rw [h.blocks, if_neg hr, hb]
  obtain ⟨hslot, hparent⟩ := hfound
  rw [← h.slots] at hslot
  rw [← h.parents] at hparent
  obtain ⟨hslots, hslots'⟩ := h.indexed.slots.delete hb' hslot
  obtain ⟨hparents, hparents'⟩ := h.indexed.parents.delete hb' hparent
  refine ⟨⟨fun a c hc => ?_, hslots, hparents, fun a c hc => ?_⟩, fun a => ?_, fun k => ?_,
    fun k => ?_⟩
  · change (s'.blocks.erase r)[a]? = some c at hc
    rw [TreeMap.getElem?_erase] at hc
    split at hc
    · exact (nomatch hc)
    · exact h.indexed.root_eq a c hc
  · change (s'.blockCache.erase r)[a]? = some c at hc
    change (s'.blocks.erase r)[a]? = some c
    rw [TreeMap.getElem?_erase] at hc ⊢
    split at hc
    · exact (nomatch hc)
    next ha => rw [if_neg ha, h.indexed.cached a c hc]
  · change (s'.blocks.erase r)[a]? = _
    rw [TreeMap.getElem?_erase, h.blocks]
    by_cases ha : a = r
    · rw [if_pos ha, if_pos (mem_cons.mpr (.inl ha))]
    · rw [if_neg ha]
      exact if_congr (by simp [ha]) rfl rfl
  · rw [← filter_not_mem_cons, ← h.slots]
    exact hslots' k
  · rw [← filter_not_mem_cons, ← h.parents]
    exact hparents' k

theorem Deleted.deleteBlocks {rs : List Root} {s' : Store β} (h : Deleted V s deleted s')
    (hrs : DeletesAll V s deleted rs) :
    Indexed V (s'.deleteBlocks V rs) ∧ ∀ r, r ∈ deleted ∨ r ∈ rs →
      (s'.deleteBlocks V rs).blocks[r]? = none := by
  induction rs generalizing deleted s' with
  | nil =>
    refine ⟨h.indexed, fun r hr => ?_⟩
    rw [Store.deleteBlocks, h.blocks, if_pos (hr.resolve_right not_mem_nil)]
  | cons r rs ih =>
    -- The batch stops here, and what is left of it is not in the store.
    have hstop : s'.blocks[r]? = none → (∀ a ∈ rs, a ∉ deleted → s.blocks[a]? = none) →
        Indexed V (s'.deleteBlocks V (r :: rs)) ∧ ∀ a, a ∈ deleted ∨ a ∈ r :: rs →
          (s'.deleteBlocks V (r :: rs)).blocks[a]? = none := by
      intro hnone hrest
      rw [Store.deleteBlocks, hnone]
      refine ⟨h.indexed, fun a ha => ?_⟩
      rcases ha with ha | ha
      · rw [h.blocks, if_pos ha]
      · rcases mem_cons.mp ha with rfl | ha
        · exact hnone
        · rw [h.blocks]
          split
          · rfl
          next hnot => exact hrest a ha hnot
    rw [DeletesAll] at hrs
    split at hrs
    next hr =>
      exact hstop (by rw [h.blocks, if_pos hr]) hrs
    next hr =>
      split at hrs
      next hnone => exact hstop (by rw [h.blocks, if_neg hr, hnone]) hrs
      next b hb =>
        obtain ⟨hfound, hrest⟩ := hrs
        have hb' : s'.blocks[r]? = some b := by rw [h.blocks, if_neg hr, hb]
        obtain ⟨hindexed, hgone⟩ := ih (h.removeBlock hr hb hfound) hrest
        rw [Store.deleteBlocks, hb']
        refine ⟨hindexed, fun a ha => hgone a ?_⟩
        rcases ha with ha | ha
        · exact .inl (mem_cons_of_mem r ha)
        · rcases mem_cons.mp ha with rfl | ha
          · exact .inl mem_cons_self
          · exact .inr ha

theorem deleteBlock_eq (s : Store β) (r : Root) : s.deleteBlock V r = s.deleteBlocks V [r] := by
  rw [Store.deleteBlock, Store.deleteBlocks]
  cases s.blocks[r]? with
  | none => rfl
  | some b => rfl

theorem Indexed.call (h : Indexed V s) {c : BlockCall β} (hfits : c.Fits V s) :
    Indexed V (s.call V c) := by
  cases c with
  | saveBlock b order => exact h.saveBlock b order
  | saveBlocks blocks => exact h.saveBlocks blocks
  | deleteBlock r =>
    rw [Store.call, deleteBlock_eq]
    exact ((Deleted.nil h).deleteBlocks hfits).1
  | deleteBlocks rs => exact ((Deleted.nil h).deleteBlocks hfits).1
  | evict r => exact h.evict r

end Deletes

/-! ### Runs -/

/-- In a run that keeps to the condition, the roots under a slot or under a parent root are those of
the stored blocks with that slot or parent root, each listed once. Of the roots of a batch that was
deleted last none is stored. -/
theorem block_indices_exact (calls : List (BlockCall β))
    (hfits : Admits (Store.call V) (BlockCall.Fits V) new calls) :
    let s := calls.foldl (Store.call V) new
    (∀ slot, (rootsUnder s.blockSlotIndices slot).Nodup ∧ ∀ r,
      r ∈ rootsUnder s.blockSlotIndices slot ↔
        ∃ b, s.blocks[r]? = some b ∧ V.root b = r ∧ V.slot b = slot) ∧
    (∀ parentRoot, (rootsUnder s.blockParentRootIndices parentRoot).Nodup ∧ ∀ r,
      r ∈ rootsUnder s.blockParentRootIndices parentRoot ↔
        ∃ b, s.blocks[r]? = some b ∧ V.root b = r ∧ V.parentRoot b = parentRoot) ∧
    ∀ blockRoots, calls.getLast? = some (.deleteBlocks blockRoots) →
      ∀ r ∈ blockRoots, s.blocks[r]? = none := by
  intro s
  have hs : Indexed V s := invariant (fun _ _ h hc => h.call hc) .new hfits
  refine ⟨fun slot => ⟨hs.slots.nodup slot, fun r => ?_⟩,
    fun parentRoot => ⟨hs.parents.nodup parentRoot, fun r => ?_⟩, fun blockRoots hlast r hr => ?_⟩
  · rw [hs.slots.mem_iff]
    exact ⟨fun ⟨b, hb, hslot⟩ => ⟨b, hb, hs.root_eq r b hb, hslot⟩,
      fun ⟨b, hb, _, hslot⟩ => ⟨b, hb, hslot⟩⟩
  · rw [hs.parents.mem_iff]
    exact ⟨fun ⟨b, hb, hparent⟩ => ⟨b, hb, hs.root_eq r b hb, hparent⟩,
      fun ⟨b, hb, _, hparent⟩ => ⟨b, hb, hparent⟩⟩
  · obtain ⟨calls', rfl⟩ := getLast?_eq_some_iff.mp hlast
    obtain ⟨hcalls', hlast', -⟩ := admits_append.mp hfits
    have hs' : Indexed V (calls'.foldl (Store.call V) new) :=
      invariant (fun _ _ h hc => h.call hc) .new hcalls'
    have hgone := ((Deleted.nil hs').deleteBlocks hlast').2 r (.inr hr)
    change ((calls' ++ [BlockCall.deleteBlocks blockRoots]).foldl (Store.call V)
      new).blocks[r]? = none
    rw [foldl_append]
    exact hgone

/-- Blocks that are their roots, all of one slot and with one parent. -/
def siblings : BlockView Root where
  slot _ := 5
  parentRoot _ := 0
  root r := r
  root_injective _ _ h := h

/-- Three blocks are saved and two of them deleted. -/
theorem block_indices_exact_batch :
    let s := [BlockCall.saveBlocks [(1, .slotFirst), (2, .parentRootFirst), (3, .slotFirst)],
      .deleteBlocks [1, 2]].foldl (Store.call siblings) new
    rootsUnder s.blockSlotIndices 5 = [3] ∧
      (∃ b, s.blocks[(3 : Root)]? = some b ∧ siblings.root b = 3 ∧ siblings.slot b = 5) ∧
      s.blocks[(1 : Root)]? = none ∧ s.blocks[(2 : Root)]? = none := by
  intro s
  have hfits : Admits (Store.call siblings) (BlockCall.Fits siblings) new
      [.saveBlocks [(1, .slotFirst), (2, .parentRootFirst), (3, .slotFirst)],
        .deleteBlocks [1, 2]] := by
    refine ⟨trivial, ?_, trivial⟩
    have hone : (new.call siblings (.saveBlocks [(1, .slotFirst), (2, .parentRootFirst),
        (3, .slotFirst)])).blocks[(1 : Root)]? = some 1 := by decide +kernel
    have htwo : (new.call siblings (.saveBlocks [(1, .slotFirst), (2, .parentRootFirst),
        (3, .slotFirst)])).blocks[(2 : Root)]? = some 2 := by decide +kernel
    simp only [BlockCall.Fits, DeletesAll, hone, htwo]
    rw [if_neg (by decide), if_neg (by decide)]
    exact ⟨⟨by decide +kernel, by decide +kernel⟩, ⟨by decide +kernel, by decide +kernel⟩, trivial⟩
  obtain ⟨hslots, -, hdeleted⟩ := block_indices_exact siblings _ hfits
  have hlisted : rootsUnder s.blockSlotIndices 5 = [3] := by decide +kernel
  refine ⟨hlisted, ((hslots 5).2 3).mp ?_, hdeleted [1, 2] rfl 1 (by decide),
    hdeleted [1, 2] rfl 2 (by decide)⟩
  rw [hlisted]
  exact mem_singleton_self 3

/-- The bytes of the third root stand across the first two. It stays listed when its block is
deleted. A batch that starts with a root that is not stored deletes nothing. -/
theorem block_indices_inexact :
    (let calls := [BlockCall.saveBlocks [(1, .slotFirst), (2, .slotFirst), (2 ^ 248, .slotFirst)],
        .deleteBlock (2 ^ 248)]
      let s := calls.foldl (Store.call siblings) new
      s.blocks[(2 ^ 248 : Root)]? = none ∧ 2 ^ 248 ∈ rootsUnder s.blockSlotIndices 5 ∧
        2 ^ 248 ∈ rootsUnder s.blockParentRootIndices 0) ∧
    (let calls := [BlockCall.saveBlock 1 .slotFirst, .deleteBlocks [2, 1]]
      let s := calls.foldl (Store.call siblings) new
      s.blocks[(1 : Root)]? = some 1) := by
  decide +kernel

end Vanguard.Kv
