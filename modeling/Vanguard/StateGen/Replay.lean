import Vanguard.StateGen.Manager

/-!
Replaying the blocks of one branch.

The blocks that ever occur form a tree, in which a root stands for one block.
The post state of a block is what slot and block processing make of the post
state of its parent. `LoadBlocks` picks the blocks of a range of slots that lie
between an ancestor and its descendant, although the range holds the blocks of
all branches, and `ReplayBlocks` takes the state of the ancestor to that of the
descendant.
-/

namespace Vanguard.StateGen

open List Prod

open Blockchain (Block)
open Fallible

variable {σ : Type} {T : Transition σ}

structure BlockTree (T : Transition σ) where
  block : Root → Option Block
  genesisRoot : Root
  genesisState : σ
  block_zeroHash : block zeroHash = none
  genesis : ∃ b, block genesisRoot = some b ∧ b.parentRoot = zeroHash ∧
    b.slot = T.slot genesisState

variable {tree : BlockTree T} {st st' : σ} {b : Block} {startSlot : Slot} {r parentRoot a : Root}
  {l : List Block} {endSlot : Slot} {index : List (Slot × List Root)}
  {blocks rest : List (Root × Block)} {blks : List Block} {targetSlot : Slot}

/-- The state is what slot and block processing along the ancestors of a block
make of the genesis state. -/
inductive PostState (tree : BlockTree T) : Root → σ → Prop where
  | genesis : PostState tree tree.genesisRoot tree.genesisState
  | block {r : Root} {b : Block} {st st' : σ} (hb : tree.block r = some b)
      (hparent : PostState tree b.parentRoot st)
      (hexec : executeStateTransitionStateGen T st b = .ok st') : PostState tree r st'

/-- `a` is `r` or an ancestor of it, with the blocks above `a` up to `r`, the last
one first. -/
inductive Chain (tree : BlockTree T) (a : Root) : Root → List Block → Prop where
  | refl : Chain tree a a []
  | block {r : Root} {b : Block} {l : List Block} (hb : tree.block r = some b)
      (hparent : Chain tree a b.parentRoot l) : Chain tree a r (b :: l)

/-! ### Slots -/

theorem slot_processNextSlot (h : processNextSlot T st = .ok st') : T.slot st' = T.slot st + 1 := by
  obtain ⟨st₁, h₁, h⟩ := bind_eq_ok.mp h
  obtain ⟨st₂, h₂, h⟩ := bind_eq_ok.mp h
  cases h
  have hslot : T.slot st₂ = T.slot st₁ := by
    unfold processEpochEnd at h₂
    split at h₂
    · exact T.slot_processEpochPrecompute (errorsWrap_eq_ok.mp h₂)
    · cases h₂
      rfl
  rw [T.slot_setSlot, hslot, T.slot_processSlot (errorsWrap_eq_ok.mp h₁)]

theorem slot_processSlotsLoop {slot : Slot} {fuel : ℕ}
    (hfuel : (T.slot st).toNat + fuel = slot.toNat)
    (h : processSlotsLoop T slot fuel st = .ok st') : T.slot st' = slot := by
  induction fuel generalizing st with
  | zero =>
    cases h
    exact BitVec.eq_of_toNat_eq hfuel
  | succ fuel ih =>
    have hlt : T.slot st < slot := by
      rw [BitVec.lt_def]
      omega
    rw [processSlotsLoop, if_pos hlt] at h
    obtain ⟨st₁, h₁, h⟩ := bind_eq_ok.mp h
    refine ih ?_ h
    have hnext : (T.slot st + 1).toNat = (T.slot st).toNat + 1 := by bv_omega
    rw [slot_processNextSlot h₁, hnext]
    omega

theorem slot_processSlotsStateGen {slot : Slot} (h : processSlotsStateGen T st slot = .ok st') :
    T.slot st' = slot := by
  unfold processSlotsStateGen at h
  split at h
  · cases h
  · rename_i hle
    refine slot_processSlotsLoop ?_ h
    rw [BitVec.lt_def] at hle
    omega

theorem slot_executeStateTransitionStateGen (h : executeStateTransitionStateGen T st b = .ok st') :
    T.slot st' = b.slot := by
  obtain ⟨st₁, h₁, h⟩ := bind_eq_ok.mp h
  rw [T.slot_processBlockForStateRoot (errorsWrap_eq_ok.mp h),
    slot_processSlotsStateGen (errorsWrap_eq_ok.mp h₁)]

namespace PostState

variable {r : Root} {st : σ}

variable (h : PostState tree r st)

include h

theorem exists_block : ∃ b, tree.block r = some b ∧ T.slot st = b.slot := by
  cases h with
  | genesis =>
    obtain ⟨b, hb, -, hslot⟩ := tree.genesis
    exact ⟨b, hb, hslot.symm⟩
  | block hb hparent hexec => exact ⟨_, hb, slot_executeStateTransitionStateGen hexec⟩

theorem slot_eq {b : Block} (hb : tree.block r = some b) : T.slot st = b.slot := by
  obtain ⟨b', hb', hslot⟩ := h.exists_block
  rw [hb] at hb'
  cases hb'
  exact hslot

theorem ne_zeroHash : r ≠ zeroHash := by
  rintro rfl
  obtain ⟨b, hb, -⟩ := h.exists_block
  rw [tree.block_zeroHash] at hb
  cases hb

theorem unique {st' : σ} (h' : PostState tree r st') : st = st' := by
  induction h generalizing st' with
  | genesis =>
    obtain ⟨g, hg, hzero, -⟩ := tree.genesis
    cases h' with
    | genesis => rfl
    | block hb hparent _ =>
      rw [hg] at hb
      cases hb
      exact absurd hzero hparent.ne_zeroHash
  | block hb hparent hexec ih =>
    cases h' with
    | genesis =>
      obtain ⟨g, hg, hzero, -⟩ := tree.genesis
      rw [hg] at hb
      cases hb
      exact absurd hzero hparent.ne_zeroHash
    | block hb' hparent' hexec' =>
      rw [hb] at hb'
      cases hb'
      rw [ih hparent', hexec'] at hexec
      exact (Except.ok.inj hexec).symm

end PostState

/-! ### The stored blocks -/

/-- The stored blocks are blocks of the tree, a block was saved after its parent
and has a greater slot, and the bucket of slots lists each of them once. -/
structure Stored (tree : BlockTree T) (db : DB σ) : Prop where
  block_eq : ∀ {r b}, db.block r = some b → tree.block r = some b
  parent : ∀ {r b}, db.block r = some b → r = tree.genesisRoot ∨
    ∃ p, db.block b.parentRoot = some p ∧ p.slot < b.slot
  genesis : (db.block tree.genesisRoot).isSome
  genesisBlockRoot_eq : db.genesisBlockRoot = tree.genesisRoot
  sorted : db.blockSlotIndices.Pairwise fun x y => x.1 < y.1
  listed : ∀ x ∈ db.blockSlotIndices, ∀ r ∈ x.2, ∃ b, db.block r = some b ∧ b.slot = x.1
  nodup : ∀ x ∈ db.blockSlotIndices, x.2.Nodup
  complete : ∀ {r b}, db.block r = some b → ∃ x ∈ db.blockSlotIndices, x.1 = b.slot ∧ r ∈ x.2

namespace Stored

variable {db : DB σ} {b : Block} {r : Root}

variable (h : Stored tree db)

include h

theorem parentRoot_eq_zeroHash (hb : db.block tree.genesisRoot = some b) :
    b.parentRoot = zeroHash := by
  obtain ⟨g, hg, hzero, -⟩ := tree.genesis
  rw [h.block_eq hb] at hg
  cases hg
  exact hzero

theorem block_zeroHash : db.block zeroHash = none := by
  cases hb : db.block zeroHash with
  | none => rfl
  | some b =>
    have := h.block_eq hb
    rw [tree.block_zeroHash] at this
    cases this

theorem eq_genesisRoot (hb : db.block r = some b)
    (hzero : b.parentRoot = zeroHash) : r = tree.genesisRoot := by
  rcases h.parent hb with hr | ⟨p, hp, -⟩
  · exact hr
  · rw [hzero, h.block_zeroHash] at hp
    cases hp

theorem parent_of_chain {a : Root} {l : List Block} (hb : db.block r = some b)
    (hchain : Chain tree a b.parentRoot l) (ha : (tree.block a).isSome) :
    ∃ p, db.block b.parentRoot = some p ∧ p.slot < b.slot := by
  rcases h.parent hb with rfl | hparent
  · -- there is nothing below the genesis block
    rw [h.parentRoot_eq_zeroHash hb] at hchain
    cases hchain with
    | refl =>
      rw [tree.block_zeroHash] at ha
      cases ha
    | block hz _ =>
      rw [tree.block_zeroHash] at hz
      cases hz
  · exact hparent

theorem chain {a : Root} {l : List Block} (hchain : Chain tree a r l)
    (hb : db.block r = some b) (ha : (tree.block a).isSome) :
    ∃ p, db.block a = some p ∧ (l = [] ∨ p.slot < b.slot) := by
  induction hchain generalizing b with
  | refl => exact ⟨b, hb, .inl rfl⟩
  | @block r b' l hb' hparent ih =>
    rw [h.block_eq hb] at hb'
    cases hb'
    obtain ⟨p, hp, hlt⟩ := h.parent_of_chain hb hparent ha
    obtain ⟨q, hq, hlow⟩ := ih hp
    refine ⟨q, hq, .inr ?_⟩
    rcases hlow with rfl | hlow
    · cases hparent
      rw [hp] at hq
      cases hq
      exact hlt
    · exact BitVec.lt_trans hlow hlt

end Stored

/-! ### Ranges of slots -/

/-- The bucket of slots lists each stored block once. -/
structure SlotIndex (db : DB σ) : Prop where
  sorted : db.blockSlotIndices.Pairwise fun x y => x.1 < y.1
  listed : ∀ x ∈ db.blockSlotIndices, ∀ r ∈ x.2, ∃ b, db.block r = some b ∧ b.slot = x.1
  nodup : ∀ x ∈ db.blockSlotIndices, x.2.Nodup
  complete : ∀ {r b}, db.block r = some b → ∃ x ∈ db.blockSlotIndices, x.1 = b.slot ∧ r ∈ x.2

theorem Stored.slotIndex {db : DB σ} (h : Stored tree db) : SlotIndex db :=
  ⟨h.sorted, h.listed, h.nodup, h.complete⟩

/-- Blocks of the database in the order of their slots. -/
structure InRange (db : DB σ) (startSlot endSlot : Slot) (blocks : List (Root × Block)) :
    Prop where
  mem_iff : ∀ x, x ∈ blocks ↔ db.block x.1 = some x.2 ∧ startSlot ≤ x.2.slot ∧ x.2.slot ≤ endSlot
  nodup : (blocks.map fst).Nodup
  sorted : blocks.Pairwise fun x y => x.2.slot ≤ y.2.slot

theorem SlotIndex.mem_blockRootsBySlotRange {db : DB σ} (h : SlotIndex db) :
    r ∈ db.blockRootsBySlotRange startSlot endSlot ↔
      ∃ b, db.block r = some b ∧ startSlot ≤ b.slot ∧ b.slot ≤ endSlot := by
  simp only [DB.blockRootsBySlotRange, mem_flatten, mem_map, mem_filter, decide_eq_true_eq]
  constructor
  · rintro ⟨roots, ⟨x, ⟨hx, hrange⟩, rfl⟩, hr⟩
    obtain ⟨b, hb, hslot⟩ := h.listed x hx r hr
    exact ⟨b, hb, hslot ▸ hrange⟩
  · rintro ⟨b, hb, hrange⟩
    obtain ⟨x, hx, hslot, hr⟩ := h.complete hb
    exact ⟨x.2, ⟨x, ⟨hx, hslot ▸ hrange⟩, rfl⟩, hr⟩

theorem SlotIndex.slot_eq {db : DB σ} (h : SlotIndex db) {x : Slot × List Root}
    (hx : x ∈ db.blockSlotIndices) {r : Root} (hr : r ∈ x.2) {b : Block}
    (hb : db.block r = some b) : b.slot = x.1 := by
  obtain ⟨c, hc, hslot⟩ := h.listed x hx r hr
  rw [Option.some.inj (hb.symm.trans hc)]
  exact hslot

theorem SlotIndex.nodup_roots {db : DB σ} (h : SlotIndex db)
    (hsub : index.Sublist db.blockSlotIndices) : ((index.map snd).flatten).Nodup := by
  rw [nodup_flatten]
  refine ⟨fun roots hroots => ?_, ?_⟩
  · obtain ⟨x, hx, rfl⟩ := mem_map.mp hroots
    exact h.nodup x (hsub.subset hx)
  · refine List.Pairwise.map _ ?_ (List.Pairwise.and_mem.mp (h.sorted.sublist hsub))
    rintro x y ⟨hx, hy, hlt⟩ r hrx hry
    obtain ⟨b, hb, hbx⟩ := h.listed x (hsub.subset hx) r hrx
    rw [← hbx, ← h.slot_eq (hsub.subset hy) hry hb] at hlt
    exact absurd hlt (BitVec.lt_irrefl _)

theorem SlotIndex.sorted_roots {db : DB σ} (h : SlotIndex db)
    (hsub : index.Sublist db.blockSlotIndices) :
    ((index.map snd).flatten).Pairwise fun r r' => ∀ b b', db.block r = some b →
      db.block r' = some b' → b.slot ≤ b'.slot := by
  rw [pairwise_flatten]
  refine ⟨fun roots hroots => ?_, ?_⟩
  · obtain ⟨x, hx, rfl⟩ := mem_map.mp hroots
    refine pairwise_of_forall_mem_list fun r hr r' hr' b b' hb hb' => ?_
    rw [h.slot_eq (hsub.subset hx) hr hb, h.slot_eq (hsub.subset hx) hr' hb']
    exact BitVec.le_refl _
  · refine List.Pairwise.map _ ?_ (List.Pairwise.and_mem.mp (h.sorted.sublist hsub))
    rintro x y ⟨hx, hy, hlt⟩ r hr r' hr' b b' hb hb'
    rw [h.slot_eq (hsub.subset hx) hr hb, h.slot_eq (hsub.subset hy) hr' hb']
    exact BitVec.le_of_lt hlt

theorem blocksInRange_eq_ok {db : DB σ}
    (h : db.blocksInRange startSlot endSlot = .ok blocks) :
    blocks.map fst = db.blockRootsBySlotRange startSlot endSlot ∧
      ∀ x ∈ blocks, db.block x.1 = some x.2 := by
  rw [DB.blocksInRange] at h
  generalize db.blockRootsBySlotRange startSlot endSlot = roots at h ⊢
  induction roots generalizing blocks with
  | nil =>
    cases h
    exact ⟨rfl, fun x hx => absurd hx not_mem_nil⟩
  | cons r roots ih =>
    rw [mapM_cons] at h
    obtain ⟨x, hx, h⟩ := bind_eq_ok.mp h
    obtain ⟨xs, hxs, h⟩ := bind_eq_ok.mp h
    cases h
    obtain ⟨hroots, hall⟩ := ih hxs
    split at hx
    · cases hx
    · rename_i b hget
      cases hx
      exact ⟨by rw [List.map_cons, hroots], forall_mem_cons.mpr ⟨hget, hall⟩⟩

theorem SlotIndex.inRange {db : DB σ} (h : SlotIndex db)
    (hblocks : db.blocksInRange startSlot endSlot = .ok blocks) :
    InRange db startSlot endSlot blocks := by
  obtain ⟨hroots, hall⟩ := blocksInRange_eq_ok hblocks
  have hsub : (db.blockSlotIndices.filter fun x =>
      decide (startSlot ≤ x.1 ∧ x.1 ≤ endSlot)).Sublist db.blockSlotIndices :=
    filter_sublist
  refine ⟨fun x => ⟨fun hx => ?_, fun ⟨hb, hrange⟩ => ?_⟩, ?_, ?_⟩
  · have hr : x.1 ∈ db.blockRootsBySlotRange startSlot endSlot := by
      rw [← hroots]
      exact mem_map_of_mem hx
    obtain ⟨b, hb, hrange⟩ := h.mem_blockRootsBySlotRange.mp hr
    rw [hall x hx] at hb
    cases hb
    exact ⟨hall x hx, hrange⟩
  · have hr := h.mem_blockRootsBySlotRange.mpr ⟨x.2, hb, hrange⟩
    rw [← hroots] at hr
    obtain ⟨y, hy, hyx⟩ := mem_map.mp hr
    have hyb := hall y hy
    rw [hyx, hb] at hyb
    have : x = y := Prod.ext hyx.symm (Option.some.inj hyb)
    exact this ▸ hy
  · rw [hroots]
    exact h.nodup_roots hsub
  · have hsorted := h.sorted_roots hsub
    rw [show ((db.blockSlotIndices.filter fun x =>
      decide (startSlot ≤ x.1 ∧ x.1 ≤ endSlot)).map snd).flatten =
      blocks.map fst from hroots.symm, pairwise_map] at hsorted
    refine (List.Pairwise.and_mem.mp hsorted).imp ?_
    rintro x y ⟨hx, hy, hxy⟩
    exact hxy x.2 y.2 (hall x hx) (hall y hy)

/-! ### Picking the ancestors -/

theorem filterAncestors_of_not_mem
    (h : parentRoot ∉ rest.map fst) : filterAncestors parentRoot rest = [] := by
  induction rest with
  | nil => rfl
  | cons x rest ih =>
    rw [List.map_cons, List.mem_cons, not_or] at h
    rw [filterAncestors, if_pos h.1]
    exact ih h.2

theorem filterAncestors_append {l₁ l₂ : List (Root × Block)} (h : parentRoot ∉ l₁.map fst) :
    filterAncestors parentRoot (l₁ ++ (parentRoot, b) :: l₂) =
      b :: filterAncestors b.parentRoot l₂ := by
  induction l₁ with
  | nil => rw [nil_append, filterAncestors, if_neg (not_not.mpr rfl)]
  | cons x l₁ ih =>
    rw [List.map_cons, List.mem_cons, not_or] at h
    rw [cons_append, filterAncestors, if_pos h.1]
    exact ih h.2

/-- Downwards from a block at slot `bound`, among blocks of the database with
decreasing slots that include all those from `startSlot` up to `bound`, exactly
the chain above an earlier ancestor is picked. -/
theorem Stored.filterAncestors_eq {db : DB σ} (h : Stored tree db)
    (hchain : Chain tree a parentRoot l) {p : Block} (ha : db.block a = some p) {bound : Slot}
    (hstart : p.slot < startSlot) (habove : ∀ s, p.slot < s → startSlot ≤ s) {q : Block}
    (hparent : db.block parentRoot = some q) (hbound : q.slot < bound)
    (hmem : ∀ x ∈ rest, db.block x.1 = some x.2 ∧ startSlot ≤ x.2.slot)
    (hnodup : (rest.map fst).Nodup) (hsorted : rest.Pairwise fun x y => y.2.slot ≤ x.2.slot)
    (hcomplete : ∀ r b, db.block r = some b → startSlot ≤ b.slot → b.slot < bound → (r, b) ∈ rest) :
    filterAncestors parentRoot rest = l := by
  induction hchain generalizing bound q rest with
  | refl =>
    refine filterAncestors_of_not_mem fun hr => ?_
    obtain ⟨x, hx, rfl⟩ := mem_map.mp hr
    obtain ⟨hb, hle⟩ := hmem x hx
    rw [ha] at hb
    cases hb
    exact absurd hstart (BitVec.not_lt.mpr hle)
  | @block r b l hb hup ih =>
    rw [h.block_eq hparent] at hb
    cases hb
    -- the parent lies above `a`, so that it is among the blocks
    obtain ⟨p', hp', hlow⟩ := h.chain (Chain.block (h.block_eq hparent) hup) hparent
      (by rw [h.block_eq ha]; rfl)
    rw [ha] at hp'
    cases hp'
    have hlow : p.slot < b.slot := hlow.resolve_left (cons_ne_nil _ _)
    obtain ⟨l₁, l₂, rfl⟩ := append_of_mem (hcomplete r b hparent (habove _ hlow) hbound)
    rw [map_append, List.map_cons, nodup_append] at hnodup
    have hnot : r ∉ l₁.map fst := fun hr => hnodup.2.2 r hr r mem_cons_self rfl
    rw [filterAncestors_append hnot]
    congr 1
    rw [pairwise_append] at hsorted
    obtain ⟨-, hsorted₂, hcross⟩ := hsorted
    obtain ⟨hfirst, hsorted₂⟩ := pairwise_cons.mp hsorted₂
    obtain ⟨pp, hpp, hpplt⟩ := h.parent_of_chain hparent hup (by rw [h.block_eq ha]; rfl)
    refine ih hpp hpplt (fun x hx => hmem x (mem_append_right _ (mem_cons_of_mem _ hx)))
      (nodup_cons.mp hnodup.2.1).2 hsorted₂ fun r' b' hb' hge hlt => ?_
    rcases mem_append.mp (hcomplete r' b' hb' hge (BitVec.lt_trans hlt hbound)) with hx | hx
    · exact absurd hlt (BitVec.not_lt.mpr (hcross _ hx _ mem_cons_self))
    · rcases List.mem_cons.mp hx with hx | hx
      · cases hx
        exact absurd hlt (BitVec.lt_irrefl _)
      · exact hx

theorem endLength_pos (blocks : List (Root × Block)) (r : Root) :
    ∀ n, 0 < n → 0 < endLength blocks r n
  | 0, h => h
  | 1, h => h
  | 2, h => h
  | n + 3, _ => by
    rw [endLength]
    split
    · split
      · exact Nat.succ_pos n
      · exact endLength_pos blocks r (n + 2) (Nat.succ_pos _)
    · exact Nat.succ_pos _

theorem branchOf_eq_ok (hne : blocks ≠ []) (h : branchOf blocks r = .ok blks) :
    ∃ b rest dropped, blocks = rest.reverse ++ (r, b) :: dropped ∧
      blks = b :: filterAncestors b.parentRoot rest := by
  unfold branchOf at h
  split at h
  · rename_i hnil
    have hpos := endLength_pos blocks r blocks.length (length_pos_of_ne_nil hne)
    rw [reverse_eq_nil_iff, take_eq_nil_iff] at hnil
    exact absurd hnil (not_or.mpr ⟨hpos.ne', hne⟩)
  · rename_i r' b rest hkept
    split at h
    · cases h
    · rename_i hr
      rw [not_not] at hr
      subst hr
      refine ⟨b, rest, blocks.drop (endLength blocks r' blocks.length), ?_, (Except.ok.inj h).symm⟩
      have htake := congrArg reverse hkept
      rw [reverse_reverse, reverse_cons] at htake
      calc
        blocks = blocks.take (endLength blocks r' blocks.length) ++ _ :=
          (take_append_drop _ _).symm
        _ = _ := by rw [htake, append_assoc, singleton_append]

/-- `LoadBlocks` returns the blocks above an ancestor, up to the given block and
the last one first. -/
theorem Stored.loadBlocks_eq {db : DB σ} (h : Stored tree db) (hchain : Chain tree a r l)
    {p : Block} (ha : db.block a = some p) (hb : db.block r = some b) (hlt : p.slot < b.slot)
    (hload : loadBlocks db (p.slot + 1) b.slot r = .ok blks) : blks = l := by
  have hnext : (p.slot + 1).toNat = p.slot.toNat + 1 := by bv_omega
  have hstart : p.slot < p.slot + 1 := by bv_omega
  have habove : ∀ s, p.slot < s → p.slot + 1 ≤ s := by
    intro s hs
    rw [BitVec.le_def, hnext]
    exact hs
  unfold loadBlocks at hload
  rw [if_neg (BitVec.not_lt.mpr (habove _ hlt))] at hload
  obtain ⟨blocks, hblocks, hbranch⟩ := bind_eq_ok.mp hload
  have hrange := h.slotIndex.inRange hblocks
  have hmem : (r, b) ∈ blocks := (hrange.mem_iff _).mpr ⟨hb, habove _ hlt, BitVec.le_refl _⟩
  obtain ⟨b', rest, dropped, rfl, rfl⟩ := branchOf_eq_ok (ne_nil_of_mem hmem) hbranch
  obtain rfl : b' = b := by
    have hb' := ((hrange.mem_iff (r, b')).mp (mem_append_right _ mem_cons_self)).1
    exact Option.some.inj (hb'.symm.trans hb)
  cases hchain with
  | refl =>
    rw [ha] at hb
    cases hb
    exact absurd hlt (BitVec.lt_irrefl _)
  | block hb' hparent =>
    rw [h.block_eq hb] at hb'
    cases hb'
    obtain ⟨q, hq, hqlt⟩ := h.parent_of_chain hb hparent (by rw [h.block_eq ha]; rfl)
    have hnodup := hrange.nodup
    have hsorted := hrange.sorted
    rw [map_append, nodup_append] at hnodup
    rw [pairwise_append] at hsorted
    congr 1
    refine h.filterAncestors_eq hparent ha hstart habove hq hqlt (fun x hx => ?_) ?_ ?_ ?_
    · obtain ⟨hget, hle, -⟩ := (hrange.mem_iff x).mp (mem_append_left _ (mem_reverse.mpr hx))
      exact ⟨hget, hle⟩
    · rw [← nodup_reverse, ← map_reverse]
      exact hnodup.1
    · rw [← pairwise_reverse]
      exact hsorted.1
    · -- a block below the slot of `r` stands before it
      intro r' c hc hge hclt
      have hx := (hrange.mem_iff (r', c)).mpr ⟨hc, hge, BitVec.le_of_lt hclt⟩
      rcases mem_append.mp hx with hx | hx
      · exact mem_reverse.mp hx
      · rcases List.mem_cons.mp hx with hx | hx
        · cases hx
          exact absurd hclt (BitVec.lt_irrefl _)
        · exact absurd hclt (BitVec.not_lt.mpr ((pairwise_cons.mp hsorted.2.1).1 _ hx))

theorem replayLoop_append {l₁ l₂ : List Block} :
    replayLoop T targetSlot st (l₁ ++ l₂) =
      replayLoop T targetSlot st l₁ >>= fun st' => replayLoop T targetSlot st' l₂ := by
  induction l₁ generalizing st with
  | nil => rfl
  | cons b l₁ ih =>
    rw [cons_append, replayLoop, replayLoop]
    split
    · -- past the target the rest is not looked at
      rename_i htarget
      cases l₂ with
      | nil => rfl
      | cons c l₂ =>
        change _ = replayLoop T targetSlot st (c :: l₂)
        rw [replayLoop, if_pos htarget]
    · split
      · exact ih
      · rw [bind_assoc]
        exact bind_congr_ok fun st' _ => ih

theorem Stored.replayLoop_post {db : DB σ} (h : Stored tree db) (hchain : Chain tree a r l)
    (hst : PostState tree a st) (hb : db.block r = some b)
    (htarget : b.slot ≤ targetSlot) (hloop : replayLoop T targetSlot st l.reverse = .ok st') :
    PostState tree r st' := by
  induction hchain generalizing b st' with
  | refl =>
    cases hloop
    exact hst
  | @block r c l hc hparent ih =>
    rw [h.block_eq hb] at hc
    cases hc
    obtain ⟨q, hq, hqlt⟩ := h.parent_of_chain hb hparent (by
      obtain ⟨c, hc, -⟩ := hst.exists_block
      rw [hc]
      rfl)
    rw [reverse_cons, replayLoop_append] at hloop
    obtain ⟨st₁, hst₁, hloop⟩ := bind_eq_ok.mp hloop
    have hbelow : q.slot < targetSlot := Nat.lt_of_lt_of_le hqlt htarget
    have hpost := ih hq (BitVec.le_of_lt hbelow) hst₁
    have hslot := hpost.slot_eq (h.block_eq hq)
    rw [replayLoop, hslot, if_neg (BitVec.not_le.mpr hbelow),
      if_neg (BitVec.not_le.mpr hqlt)] at hloop
    obtain ⟨st₂, hexec, hloop⟩ := bind_eq_ok.mp hloop
    cases hloop
    exact .block (h.block_eq hb) hpost hexec

theorem Stored.replayBlocks_post {db : DB σ} (h : Stored tree db) (hchain : Chain tree a r l)
    (hst : PostState tree a st) (hb : db.block r = some b)
    (hreplay : replayBlocks T st l b.slot = .ok st') : PostState tree r st' := by
  obtain ⟨st₁, hloop, hreplay⟩ := bind_eq_ok.mp hreplay
  have hpost := h.replayLoop_post hchain hst hb (BitVec.le_refl _) hloop
  rw [hpost.slot_eq (h.block_eq hb), if_neg (BitVec.lt_irrefl _)] at hreplay
  cases hreplay
  exact hpost

end Vanguard.StateGen
