import Vanguard.Blockchain.Service
import Vanguard.ProtoArray.Ancestors

/-!
The tree of the blocks a service knows.

A known block is in the initial sync cache or in the database, and the nodes
and parent links of the fork choice store are those of known blocks. So what
`ancestor` returns, from whichever source, is the ancestor in this tree, and
if no consultation fails it is found.
-/

namespace Vanguard.Blockchain

open Forest EState Std.ExtTreeMap Finset
open ProtoArray (ForkChoice)

variable {b : Block} {w' : World} {r a : Root} {slot : Slot}

namespace Service

variable {s : Service} {r : Root}

/-- The block known under a root. -/
def known (s : Service) (r : Root) : Option Block := s.initSyncBlocks[r]?.or s.blocks[r]?

/-- The tree of the known blocks, with the slots as levels. -/
def tree (s : Service) (r : Root) : Option (Slot × Root) :=
  (s.known r).map fun b => (b.slot, b.parentRoot)

def parentRoot (s : Service) (r : Root) : Option Root := (s.known r).map Block.parentRoot

/-- The block `r` is the block `a` or descends from it. -/
def Descends (s : Service) (r a : Root) : Prop := Below s.parentRoot r a

/-- A root names one block and is not the zero hash, and the fork choice store
is built from known blocks. -/
structure Consistent (s : Service) : Prop where
  agree : ∀ (r : Root) (b b' : Block), s.initSyncBlocks[r]? = some b → s.blocks[r]? = some b' →
    b = b'
  nonzero : ∀ r b, s.known r = some b → r ≠ zeroHash
  wellFormed : s.forkChoice.store.WellFormed
  linked : s.forkChoice.store.LinkedAs s.tree

theorem tree_eq_some {q : Root} {slot : Slot} :
    s.tree r = some (slot, q) ↔ ∃ b, s.known r = some b ∧ b.slot = slot ∧ b.parentRoot = q := by
  rw [tree, Option.map_eq_some_iff]
  simp only [Prod.mk.injEq]

theorem tree_congr {s' : Service} (h : s'.known = s.known) : s'.tree = s.tree := by
  funext r
  rw [tree, tree, h]

theorem tree_mono {s' : Service} (h : ∀ r b, s.known r = some b → s'.known r = some b) (r : Root)
    (x : Slot × Root) (hx : s.tree r = some x) : s'.tree r = some x := by
  obtain ⟨b, hb, rfl⟩ := Option.map_eq_some_iff.mp hx
  exact Option.map_eq_some_iff.mpr ⟨b, h r b hb, rfl⟩

theorem parentIn_tree (s : Service) : parentIn s.tree = s.parentRoot := by
  funext r
  rw [parentIn, tree, parentRoot, Option.map_map]
  rfl

theorem parentRoot_eq_some {q : Root} :
    s.parentRoot r = some q ↔ ∃ b, s.known r = some b ∧ b.parentRoot = q :=
  Option.map_eq_some_iff

theorem Consistent.known_of_blocks (h : s.Consistent) (hb : s.blocks[r]? = some b) :
    s.known r = some b := by
  rw [known]
  cases hi : s.initSyncBlocks[r]? with
  | none => exact hb
  | some b' => rw [Option.some_or, h.agree r b' b hi hb]

theorem Consistent.known_flush (h : s.Consistent) (r : Root) :
    (s.initSyncBlocks ∪ s.blocks)[r]? = s.known r := by
  rw [getElem?_union, known]
  cases hi : s.initSyncBlocks[r]? with
  | none => simp
  | some b =>
    cases hb : s.blocks[r]? with
    | none => rfl
    | some b' => simp [h.agree r b b' hi hb]

end Service

/-! ### Calls that keep the tree and the checkpoints -/

/-- The same tree of blocks, still consistent, with nothing lost from the
database. -/
structure SameTree (w w' : World) : Prop where
  genesisRoot : w'.genesisRoot = w.genesisRoot
  blocks : ∀ (r : Root) (b : Block), w.blocks[r]? = some b → w'.blocks[r]? = some b
  tree : w.Consistent → w'.Consistent ∧ w'.known = w.known

/-- Neither the tree nor a checkpoint has changed. -/
structure Quiet (w w' : World) : Prop extends SameTree w w' where
  justified : w'.justifiedCheckpt = w.justifiedCheckpt
  best : w'.bestJustifiedCheckpt = w.bestJustifiedCheckpt
  finalized : w'.finalizedCheckpt = w.finalizedCheckpt

theorem SameTree.refl (w : World) : SameTree w w := ⟨rfl, fun _ _ h => h, fun h => ⟨h, rfl⟩⟩

theorem SameTree.trans {w w'' : World} (h : SameTree w w') (h' : SameTree w' w'') :
    SameTree w w'' where
  genesisRoot := h'.genesisRoot.trans h.genesisRoot
  blocks r b hb := h'.blocks r b (h.blocks r b hb)
  tree hw :=
    have hw' := h.tree hw
    have hw'' := h'.tree hw'.1
    ⟨hw''.1, hw''.2.trans hw'.2⟩

instance : IsPreorder World SameTree where
  refl := SameTree.refl
  trans _ _ _ h h' := h.trans h'

instance : IsPreorder World Quiet where
  refl w := ⟨SameTree.refl w, rfl, rfl, rfl⟩
  trans _ _ _ h h' := ⟨h.toSameTree.trans h'.toSameTree, h'.justified.trans h.justified,
    h'.best.trans h.best, h'.finalized.trans h.finalized⟩

@[grind ←] theorem quiet_nextCtx : Keeps Quiet nextCtx := by
  intro w
  rw [final, nextCtx]
  cases w.answers with
  | nil => exact refl_of Quiet w
  | cons ctx rest => exact ⟨⟨rfl, fun _ _ h => h,
      fun h => ⟨⟨h.agree, h.nonzero, h.wellFormed, h.linked⟩, rfl⟩⟩, rfl, rfl, rfl⟩

@[grind ←] theorem quiet_external : Keeps Quiet external := by
  unfold external
  grind

@[grind ←] theorem quiet_ofExcept {α : Type} (x : Except Err α) : Keeps Quiet (ofExcept x) := by
  cases x with
  | ok a => exact keeps_pure a
  | error e => exact keeps_throw e

@[grind ←] theorem quiet_dbBlock (r : Root) : Keeps Quiet (dbBlock r) := by
  unfold dbBlock
  grind

@[grind ←] theorem quiet_initSyncOrDBBlock (r : Root) : Keeps Quiet (initSyncOrDBBlock r) := by
  unfold initSyncOrDBBlock
  grind

@[grind ←] theorem quiet_flushInitSyncBlocks : Keeps Quiet flushInitSyncBlocks := by
  refine quiet_external.bind fun _ => keeps_modify fun w =>
    ⟨⟨rfl, fun r b hb => ?_, fun h => ?_⟩, rfl, rfl, rfl⟩
  · rw [getElem?_union, hb]
    rfl
  have hknown : ∀ w' : Service, w'.initSyncBlocks = ∅ → w'.blocks = w.initSyncBlocks ∪ w.blocks →
      w'.known = w.known := by
    intro w' hi hb
    funext r
    rw [Service.known, hi, hb, h.known_flush]
    simp
  refine ⟨⟨?_, ?_, h.wellFormed, ?_⟩, hknown _ rfl rfl⟩
  · intro r b b' hb
    simp at hb
  · intro r b hb
    rw [hknown _ rfl rfl] at hb
    exact h.nonzero r b hb
  · rw [Service.tree_congr (hknown _ rfl rfl)]
    exact h.linked

theorem sameTree_of_fields {w : World} (hg : w'.genesisRoot = w.genesisRoot)
    (hi : w'.initSyncBlocks = w.initSyncBlocks) (hb : w'.blocks = w.blocks)
    (hc : w'.forkChoice = w.forkChoice) : SameTree w w' := by
  have hknown : w'.known = w.known := by
    funext r
    rw [Service.known, Service.known, hi, hb]
  refine ⟨hg, fun r b => by rw [hb]; exact id, fun h => ⟨⟨?_, ?_, ?_, ?_⟩, hknown⟩⟩
  · rw [hi, hb]
    exact h.agree
  · rw [hknown]
    exact h.nonzero
  · rw [hc]
    exact h.wellFormed
  · rw [hc, Service.tree_congr hknown]
    exact h.linked

theorem quiet_of_fields {w : World} (hg : w'.genesisRoot = w.genesisRoot)
    (hj : w'.justifiedCheckpt = w.justifiedCheckpt)
    (hbest : w'.bestJustifiedCheckpt = w.bestJustifiedCheckpt)
    (hf : w'.finalizedCheckpt = w.finalizedCheckpt) (hi : w'.initSyncBlocks = w.initSyncBlocks)
    (hb : w'.blocks = w.blocks) (hc : w'.forkChoice = w.forkChoice) : Quiet w w' :=
  ⟨sameTree_of_fields hg hi hb hc, hj, hbest, hf⟩

/-! ### Consultations leave the service alone -/

theorem nextCtx_ok {w : World} {ctx : Ctx} (h : nextCtx w = .ok ctx w') :
    w'.toService = w.toService := by
  unfold nextCtx at h
  split at h <;> cases h <;> rfl

theorem external_ok {w : World} {u : Unit} (h : external w = .ok u w') :
    w'.toService = w.toService := by
  obtain ⟨ctx, w₁, hctx, h⟩ := bind_eq_ok.mp h
  split at h <;> cases h
  exact nextCtx_ok hctx

theorem dbBlock_ok {w : World} {o : Option Block} (h : dbBlock r w = .ok o w') :
    o = w.blocks[r]? ∧ w'.toService = w.toService := by
  obtain ⟨u, w₁, hx, h⟩ := bind_eq_ok.mp h
  cases h
  exact ⟨by rw [external_ok hx], external_ok hx⟩

theorem initSyncOrDBBlock_ok {w : World} {o : Option Block} (h : initSyncOrDBBlock r w = .ok o w') :
    o = w.known r ∧ w'.toService = w.toService := by
  rw [initSyncOrDBBlock, get_bind] at h
  rw [Service.known]
  cases hi : w.initSyncBlocks[r]? with
  | some b =>
    rw [hi] at h
    cases h
    exact ⟨rfl, rfl⟩
  | none =>
    rw [hi] at h
    exact dbBlock_ok h

theorem ofExcept_ok {α : Type} {x : Except Err α} {a : α} {w : World}
    (h : ofExcept x w = .ok a w') : x = .ok a ∧ w' = w := by
  cases x with
  | error e => cases h
  | ok b =>
    cases h
    exact ⟨rfl, rfl⟩

/-! ### Ancestors -/

@[grind ←] theorem quiet_ancestorByForkChoiceStore (r : Root) (slot : Slot) :
    Keeps Quiet (ancestorByForkChoiceStore r slot) := by
  unfold ancestorByForkChoiceStore
  grind

@[grind ←] theorem quiet_ancestorByDB (fuel : ℕ) (r : Root) (slot : Slot) :
    Keeps Quiet (ancestorByDB fuel r slot) := by
  induction fuel generalizing r with
  | zero => exact keeps_throw _
  | succ fuel ih =>
    unfold ancestorByDB
    grind

@[grind ←] theorem quiet_ancestor (r : Root) (slot : Slot) : Keeps Quiet (ancestor r slot) := by
  intro w
  rw [final, ancestor]
  cases h : ancestorByForkChoiceStore r slot w with
  | ok a w₁ => exact (quiet_ancestorByForkChoiceStore r slot).ok h
  | error e w₁ =>
    exact trans_of Quiet ((quiet_ancestorByForkChoiceStore r slot).error h)
      (quiet_ancestorByDB _ r slot w₁)

theorem ancestorByForkChoiceStore_sound {w : World} (hwellFormed : w.forkChoice.store.WellFormed)
    (hlinked : w.forkChoice.store.LinkedAs w.tree)
    (h : ancestorByForkChoiceStore r slot w = .ok a w') : AncestorAt w.tree slot r a := by
  rw [ancestorByForkChoiceStore, get_bind] at h
  split at h
  · obtain ⟨ctx, w₁, hctx, h⟩ := bind_eq_ok.mp h
    cases ha : ForkChoice.ancestorRoot ctx w.forkChoice r slot with
    | error e =>
      rw [ha] at h
      cases h
    | ok a' =>
      rw [ha] at h
      cases h
      exact ForkChoice.ancestorRoot_sound hwellFormed hlinked ha
  · cases h

theorem ancestorByDB_sound {fuel : ℕ} {w : World} (h : ancestorByDB fuel r slot w = .ok a w') :
    AncestorAt w.tree slot r a := by
  induction fuel generalizing w r with
  | zero => cases h
  | succ fuel ih =>
    obtain ⟨u, w₁, hx, h⟩ := bind_eq_ok.mp h
    obtain ⟨signed, w₂, hdb, h⟩ := bind_eq_ok.mp h
    obtain ⟨rfl, h₂⟩ := dbBlock_ok hdb
    have hservice : w₂.toService = w.toService := h₂.trans (external_ok hx)
    have hknown : w₂.initSyncBlocks[r]?.or w₁.blocks[r]? = w.known r := by
      rw [Service.known, hservice, external_ok hx]
    rw [get_bind, hknown] at h
    cases hb : w.known r with
    | none =>
      rw [hb] at h
      cases h
    | some b =>
      rw [hb] at h
      dsimp only at h
      have hblock : w.tree r = some (b.slot, b.parentRoot) :=
        Service.tree_eq_some.mpr ⟨b, hb, rfl, rfl⟩
      split at h
      · rename_i hslot
        cases h
        exact .here hblock (BitVec.not_lt.mpr hslot)
      · rename_i hslot
        have hrest := ih h
        rw [hservice] at hrest
        exact .up hblock (BitVec.not_le.mp hslot) hrest

/-- What `ancestor` returns is the ancestor at the slot, wherever it was found. -/
theorem ancestor_sound {w : World} (hw : w.Consistent) (h : ancestor r slot w = .ok a w') :
    AncestorAt w.tree slot r a := by
  unfold ancestor at h
  cases hfc : ancestorByForkChoiceStore r slot w with
  | ok a' w₁ =>
    rw [hfc] at h
    cases h
    exact ancestorByForkChoiceStore_sound hw.wellFormed hw.linked hfc
  | error e w₁ =>
    rw [hfc] at h
    have htree := ((quiet_ancestorByForkChoiceStore r slot).error hfc).tree hw
    have hsound := ancestorByDB_sound h
    rwa [Service.tree_congr htree.2] at hsound

/-! ### Calls in which no consultation fails -/

section Calm

variable {w : World}

section

variable (hcalm : w.answers = [])

include hcalm

theorem nextCtx_calm : nextCtx w = .ok Ctx.background w := by
  rw [nextCtx, hcalm]

theorem external_calm : external w = .ok () w := by
  rw [external, bind_ok (nextCtx_calm hcalm)]
  rfl

theorem dbBlock_calm (r : Root) : dbBlock r w = .ok w.blocks[r]? w := by
  rw [dbBlock, bind_ok (external_calm hcalm)]
  rfl

theorem initSyncOrDBBlock_calm (r : Root) : initSyncOrDBBlock r w = .ok (w.known r) w := by
  rw [initSyncOrDBBlock, get_bind, Service.known]
  cases w.initSyncBlocks[r]? with
  | some b => rfl
  | none => exact dbBlock_calm hcalm r

theorem ancestorByForkChoiceStore_calm (r : Root) (slot : Slot) :
    final (ancestorByForkChoiceStore r slot) w = w := by
  rw [ancestorByForkChoiceStore, final, get_bind]
  by_cases hp : w.forkChoice.hasParent r = true
  · rw [if_pos hp, bind_ok (nextCtx_calm hcalm)]
    cases ForkChoice.ancestorRoot Ctx.background w.forkChoice r slot <;> rfl
  · rw [if_neg hp, throw_apply]

end

/-- Slots grow along the chain. -/
def Service.SlotsIncrease (s : Service) : Prop :=
  ∀ r b b', s.known r = some b → s.known b.parentRoot = some b' → b'.slot < b.slot

def Service.roots (s : Service) : Finset Root :=
  (s.initSyncBlocks.keys ++ s.blocks.keys).toFinset

variable {s : Service} {r a : Root} {slot : Slot}

theorem Service.mem_roots (h : s.known r = some b) : r ∈ s.roots := by
  rw [roots, List.mem_toFinset, List.mem_append, mem_keys, mem_keys]
  rw [known] at h
  rcases Option.or_eq_some_iff.mp h with hi | ⟨-, hb⟩
  · exact .inl (mem_iff_isSome_getElem?.mpr (by rw [hi]; rfl))
  · exact .inr (mem_iff_isSome_getElem?.mpr (by rw [hb]; rfl))

def Service.before (s : Service) (slot : Slot) : Finset Root :=
  s.roots.filter fun r => (s.known r).any (·.slot < slot)

theorem Service.mem_before : r ∈ s.before slot ↔ ∃ b, s.known r = some b ∧ b.slot < slot := by
  rw [before, Finset.mem_filter]
  constructor
  · rintro ⟨-, h⟩
    cases hb : s.known r with
    | none => simp [hb] at h
    | some b => exact ⟨b, rfl, by simpa [hb] using h⟩
  · rintro ⟨b, hb, hslot⟩
    exact ⟨mem_roots hb, by simpa [hb] using hslot⟩

theorem Service.card_before_le (s : Service) (slot : Slot) :
    (s.before slot).card ≤ s.blocks.size + s.initSyncBlocks.size :=
  calc (s.before slot).card
      ≤ s.roots.card := card_filter_le _ _
    _ ≤ (s.initSyncBlocks.keys ++ s.blocks.keys).length := List.toFinset_card_le _
    _ = s.blocks.size + s.initSyncBlocks.size := by
        rw [List.length_append, length_keys, length_keys, Nat.add_comm]

theorem Service.card_before_lt (hb : s.known r = some b) (hslot : b.slot < slot) :
    (s.before b.slot).card < (s.before slot).card := by
  refine card_lt_card ((ssubset_iff_of_subset ?_).mpr ⟨r, ?_, ?_⟩)
  · intro q hq
    obtain ⟨x, hx, hlt⟩ := mem_before.mp hq
    exact mem_before.mpr ⟨x, hx, BitVec.lt_trans hlt hslot⟩
  · exact mem_before.mpr ⟨b, hb, hslot⟩
  · rw [mem_before]
    rintro ⟨x, hx, hlt⟩
    obtain rfl := Option.some.inj (hb.symm.trans hx)
    exact BitVec.lt_irrefl _ hlt

/-- `get_ancestor` of the specification, over the known blocks. -/
def Service.getAncestorFrom (s : Service) (slot : Slot) : ℕ → Root → Option Root
  | 0, _ => none
  | fuel + 1, r =>
    match s.known r with
    | none => none
    | some b => if slot < b.slot then s.getAncestorFrom slot fuel b.parentRoot else some r

/-- A chain has at most as many blocks as are known. -/
def Service.getAncestor (s : Service) (r : Root) (slot : Slot) : Option Root :=
  s.getAncestorFrom slot (s.blocks.size + s.initSyncBlocks.size + 1) r

/-- The walk finds the ancestor: the blocks it passes have falling slots, so
there are at most as many as are known. -/
theorem Service.getAncestorFrom_of_ancestorAt (hslots : s.SlotsIncrease)
    (h : AncestorAt s.tree slot r a) {fuel : ℕ}
    (hfuel : ∀ b, s.known r = some b → (s.before b.slot).card < fuel) :
    s.getAncestorFrom slot fuel r = some a := by
  induction h generalizing fuel with
  | here hr hx =>
    obtain ⟨b, hb, rfl, rfl⟩ := tree_eq_some.mp hr
    have hpos := hfuel b hb
    cases fuel with
    | zero => omega
    | succ fuel =>
      rw [getAncestorFrom, hb]
      exact if_neg hx
  | up hr hx hrest ih =>
    obtain ⟨b, hb, rfl, rfl⟩ := tree_eq_some.mp hr
    have hpos := hfuel b hb
    cases fuel with
    | zero => omega
    | succ fuel =>
      rw [getAncestorFrom, hb]
      dsimp only
      rw [if_pos hx]
      refine ih fun b' hb' => ?_
      have hlt := card_before_lt hb' (hslots _ b b' hb hb')
      omega

theorem Service.getAncestor_of_ancestorAt (hslots : s.SlotsIncrease)
    (h : AncestorAt s.tree slot r a) : s.getAncestor r slot = some a :=
  getAncestorFrom_of_ancestorAt hslots h fun b _ =>
    Nat.lt_succ_of_le (s.card_before_le b.slot)

theorem ancestorByDB_calm (hcalm : w.answers = []) {fuel : ℕ}
    (h : w.getAncestorFrom slot fuel r = some a) : ancestorByDB fuel r slot w = .ok a w := by
  induction fuel generalizing r with
  | zero => cases h
  | succ fuel ih =>
    rw [ancestorByDB, bind_ok (external_calm hcalm), bind_ok (dbBlock_calm hcalm _), get_bind,
      ← Service.known]
    rw [Service.getAncestorFrom] at h
    cases hb : w.known r with
    | none =>
      rw [hb] at h
      cases h
    | some b =>
      rw [hb] at h
      dsimp only at h ⊢
      by_cases hslot : slot < b.slot
      · rw [if_pos hslot] at h
        rw [if_neg (BitVec.not_le.mpr hslot)]
        exact ih h
      · rw [if_neg hslot] at h
        rw [if_pos (BitVec.not_lt.mp hslot), pure_apply, Option.some.inj h]

/-- If no consultation fails, `ancestor` finds the ancestor. -/
theorem ancestor_calm (hwellFormed : w.forkChoice.store.WellFormed)
    (hlinked : w.forkChoice.store.LinkedAs w.tree) (hcalm : w.answers = [])
    (hslots : w.SlotsIncrease) (h : AncestorAt w.tree slot r a) : ancestor r slot w = .ok a w := by
  have hsame := ancestorByForkChoiceStore_calm hcalm r slot
  rw [ancestor]
  cases hfc : ancestorByForkChoiceStore r slot w with
  | ok a' w₁ =>
    rw [final_of_ok hfc] at hsame
    rw [hsame, (ancestorByForkChoiceStore_sound hwellFormed hlinked hfc).unique h]
  | error e w₁ =>
    rw [final_of_error hfc] at hsame
    subst hsame
    exact ancestorByDB_calm hcalm (Service.getAncestor_of_ancestorAt hslots h)

end Calm

end Vanguard.Blockchain
