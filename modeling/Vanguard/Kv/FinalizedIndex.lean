import Vanguard.Kv.Blocks
import Vanguard.Lib.Fallible
import Vanguard.Lib.Forest

/-!
The index of finalized block roots.

A new finalized checkpoint takes the blocks since the previous one out of the index, walks up from
the finalized block to a block that is indexed or to genesis, and adds the blocks of the finalized
epoch. The range of slots that is added ends one epoch later.
-/

namespace Vanguard.Kv

open Forest Run Option Std.ExtTreeMap TreeMap Relation.ReflTransGen
open BitVec hiding and_comm

structure Checkpoint where
  epoch : Epoch
  root : Root
  deriving DecidableEq, Repr

/-- A value of the index: a `FinalizedBlockRootContainer`, or
`containerFinalizedButNotCanonical`, which does not decode. -/
inductive Container where
  | canonical (parentRoot : Root) (childRoot : Option Root)
  | finalizedButNotCanonical
  deriving DecidableEq, Repr

/-- The buckets that finality uses besides those of the blocks. -/
structure FinalityStore (β : Type) extends Store β where
  genesisBlockRoot : Option Root
  stateSummaries : List Root
  states : List Root
  finalizedBlockRootsIndex : Std.ExtTreeMap Root Container
  previousFinalizedCheckpoint : Option Checkpoint
  finalizedCheckpoint : Option Checkpoint

open FinalityStore

inductive FinalizeErr where
  /-- "missing state summary for finalized root" -/
  | missingStateForCheckpoint
  /-- "start slot calculation overflows" -/
  | startSlotOverflows
  /-- "invalid end slot and start slot provided" -/
  | invalidSlotRange
  /-- "missing block in database" -/
  | missingBlock (root : Root)
  /-- A placeholder is decoded. -/
  | decode
  /-- The walk is in a cycle of parents. -/
  | cycle
  deriving DecidableEq, Repr

def slotsPerEpoch : ℕ := 32

def startSlot (epoch : Epoch) : Except FinalizeErr Slot :=
  if slotsPerEpoch * epoch.toNat < 2 ^ 64 then .ok (BitVec.ofNat 64 (slotsPerEpoch * epoch.toNat))
  else .error .startSlotOverflows

/-- The cursor of `blockRootsBySlotRange`, from the first slot on. -/
def rootsInSlots (bkt : IndexBucket Slot) (startSlot endSlot : Slot) : List Root :=
  ((bkt.keys.dropWhile fun k => decide (k < startSlot)).takeWhile
    fun k => decide (k ≤ endSlot)).flatMap (rootsUnder bkt)

/-- `blockRootsBySlotRange` for a filter with a start and an end epoch. -/
def blockRootsBySlotRange (bkt : IndexBucket Slot) (startEpoch endEpoch : Epoch) :
    Except FinalizeErr (List Root) := do
  let first ← startSlot startEpoch
  let last ← startSlot endEpoch
  let endSlot := last + BitVec.ofNat 64 slotsPerEpoch - 1
  if endSlot < first then .error .invalidSlotRange
  else .ok (rootsInSlots bkt first endSlot)

section Store

variable {β : Type} (V : BlockView β)

def Store.block (s : Store β) (blockRoot : Root) : Option β :=
  s.blockCache[blockRoot]?.or s.blocks[blockRoot]?

/-- The walk up the ancestry chain in `updateFinalizedBlockRoots`. -/
def FinalityStore.indexAncestors (s : FinalityStore β) :
    ℕ → Std.ExtTreeMap Root Container → Root → Option Root →
      Except FinalizeErr (Std.ExtTreeMap Root Container)
  | 0, _, _, _ => .error .cycle
  | fuel + 1, bkt, root, previousRoot =>
    if s.genesisBlockRoot = some root then .ok bkt
    else
      match s.block root with
      | none => .error (.missingBlock root)
      | some b =>
        let bkt := bkt.insert root (.canonical (V.parentRoot b) previousRoot)
        match bkt[V.parentRoot b]? with
        | some (.canonical parentRoot _) =>
          .ok (bkt.insert (V.parentRoot b) (.canonical parentRoot (some root)))
        | some .finalizedButNotCanonical => .error .decode
        | none => indexAncestors s fuel bkt (V.parentRoot b) (some root)

/-- The loop that adds the blocks of the finalized epoch. -/
def upsert (checkpoint : Checkpoint) (bkt : Std.ExtTreeMap Root Container) (roots : List Root) :
    Std.ExtTreeMap Root Container :=
  roots.foldl (fun bkt root =>
    if root = checkpoint.root ∨ bkt.contains root then bkt
    else bkt.insert root .finalizedButNotCanonical) bkt

/-- The rounds that the walk may take: where parents have smaller slots it goes down to slot 0. -/
def FinalityStore.walkFuel (s : FinalityStore β) (root : Root) : ℕ :=
  match s.block root with
  | none => 1
  | some b => (V.slot b).toNat + 1

def FinalityStore.updateFinalizedBlockRoots (s : FinalityStore β) (checkpoint : Checkpoint) :
    Except FinalizeErr (FinalityStore β) := do
  let previousEpoch := (s.previousFinalizedCheckpoint.map Checkpoint.epoch).getD 0
  let blockRoots ←
    blockRootsBySlotRange s.blockSlotIndices previousEpoch (checkpoint.epoch + 1)
  let bkt := blockRoots.foldl (fun bkt root => bkt.erase root) s.finalizedBlockRootsIndex
  let bkt ← s.indexAncestors V (s.walkFuel V checkpoint.root) bkt checkpoint.root none
  let roots ← blockRootsBySlotRange s.blockSlotIndices checkpoint.epoch (checkpoint.epoch + 1)
  .ok { s with
    finalizedBlockRootsIndex := upsert checkpoint bkt roots
    previousFinalizedCheckpoint := some checkpoint }

def FinalityStore.saveFinalizedCheckpoint (s : FinalityStore β) (checkpoint : Checkpoint) :
    Except FinalizeErr (FinalityStore β) :=
  if ¬ (checkpoint.root ∈ s.states ∨ checkpoint.root ∈ s.stateSummaries) then
    .error .missingStateForCheckpoint
  else
    updateFinalizedBlockRoots V { s with finalizedCheckpoint := some checkpoint }
      checkpoint

def FinalityStore.isFinalizedBlock (s : FinalityStore β) (blockRoot : Root) : Bool :=
  s.finalizedBlockRootsIndex.contains blockRoot ||
    decide (s.genesisBlockRoot.getD zeroHash = blockRoot)

end Store

/-! ### Ranges of slots -/

variable {r : Root}

theorem mem_rootsInSlots {bkt : IndexBucket Slot} {first last : Slot} :
    r ∈ rootsInSlots bkt first last ↔
      ∃ slot, first ≤ slot ∧ slot ≤ last ∧ r ∈ rootsUnder bkt slot := by
  have hlt : ∀ a b : Slot, compare a b = .lt → a < b := fun a b h => compareOfLessAndEq_eq_lt.mp h
  have hsorted : bkt.keys.Pairwise fun a b => a < b := ordered_keys.imp fun {a b} hab => hlt a b hab
  have hdrop : bkt.keys.Pairwise fun a b : Slot =>
      decide (b < first) = true → decide (a < first) = true := by
    refine hsorted.imp fun {a b} hab hb => decide_eq_true ?_
    exact BitVec.lt_trans hab (of_decide_eq_true hb)
  have htake : (bkt.keys.dropWhile fun k => decide (k < first)).Pairwise fun a b : Slot =>
      decide (b ≤ last) = true → decide (a ≤ last) = true := by
    refine (hsorted.sublist (List.dropWhile_sublist _)).imp fun {a b} hab hb => decide_eq_true ?_
    exact BitVec.le_trans (BitVec.le_of_lt hab) (of_decide_eq_true hb)
  have hkey : ∀ slot, r ∈ rootsUnder bkt slot → slot ∈ bkt.keys := by
    intro slot hr
    rw [mem_keys_iff]
    intro hnone
    rw [rootsUnder, hnone] at hr
    exact List.not_mem_nil hr
  rw [rootsInSlots, List.mem_flatMap]
  simp only [mem_takeWhile_of_downward htake, mem_dropWhile_of_downward hdrop,
    decide_eq_true_eq, decide_eq_false_iff_not, BitVec.not_lt]
  constructor
  · rintro ⟨slot, ⟨⟨-, hfirst⟩, hlast⟩, hr⟩
    exact ⟨slot, hfirst, hlast, hr⟩
  · rintro ⟨slot, hfirst, hlast, hr⟩
    exact ⟨slot, ⟨⟨hkey slot hr, hfirst⟩, hlast⟩, hr⟩

theorem blockRootsBySlotRange_ok {β : Type} {V : BlockView β} {s : Store β} (h : Indexed V s)
    (startEpoch endEpoch : Epoch) (hle : startEpoch.toNat ≤ endEpoch.toNat)
    (hend : 32 * endEpoch.toNat < 2 ^ 64) :
    ∃ roots, blockRootsBySlotRange s.blockSlotIndices startEpoch endEpoch = .ok roots ∧
      ∀ r, r ∈ roots ↔ ∃ b, s.blocks[r]? = some b ∧ 32 * startEpoch.toNat ≤ (V.slot b).toNat ∧
        (V.slot b).toNat < 32 * (endEpoch.toNat + 1) := by
  have hstartSlot : startSlot startEpoch = .ok (BitVec.ofNat 64 (32 * startEpoch.toNat)) :=
    if_pos (by rw [slotsPerEpoch]; omega)
  have hendSlot : startSlot endEpoch = .ok (BitVec.ofNat 64 (32 * endEpoch.toNat)) :=
    if_pos (by rw [slotsPerEpoch]; omega)
  have hfirst : (BitVec.ofNat 64 (32 * startEpoch.toNat)).toNat = 32 * startEpoch.toNat := by
    rw [toNat_ofNat]
    omega
  have hlast : (BitVec.ofNat 64 (32 * endEpoch.toNat) + BitVec.ofNat 64 slotsPerEpoch - 1).toNat =
      32 * endEpoch.toNat + 31 := by
    rw [slotsPerEpoch]
    bv_omega
  refine ⟨rootsInSlots s.blockSlotIndices (BitVec.ofNat 64 (32 * startEpoch.toNat))
    (BitVec.ofNat 64 (32 * endEpoch.toNat) + BitVec.ofNat 64 slotsPerEpoch - 1), ?_, fun r => ?_⟩
  · rw [blockRootsBySlotRange, hstartSlot, hendSlot]
    refine if_neg ?_
    rw [lt_def, hfirst, hlast]
    omega
  · rw [mem_rootsInSlots]
    simp only [h.slots.mem_iff, le_def, hfirst, hlast]
    constructor
    · rintro ⟨slot, hge, hle, b, hb, rfl⟩
      exact ⟨b, hb, hge, by omega⟩
    · rintro ⟨b, hb, hge, hlt⟩
      exact ⟨V.slot b, hge, by omega, b, hb, rfl⟩

/-! ### Ancestors -/

/-- Blocks whose parents have smaller slots, with a genesis block. -/
structure BlockTree (β : Type) extends BlockView β where
  genesis : β
  slot_genesis : slot genesis = 0
  parent_slot : ∀ b p, root p = parentRoot b → slot p < slot b

def parentOf {β : Type} (V : BlockView β) (s : Store β) (r : Root) : Option Root :=
  s.blocks[r]?.map V.parentRoot

section Ancestors

variable {β : Type} {T : BlockTree β} {s : Store β}

theorem parentOf_of_stored {r : Root} {b : β} (hb : s.blocks[r]? = some b) :
    parentOf T.toBlockView s r = some (T.parentRoot b) := by
  rw [parentOf, hb]
  rfl

theorem stored_of_below {a : Root} {c : β} (h : Below (parentOf T.toBlockView s) r a)
    (hc : s.blocks[a]? = some c) : ∃ b, s.blocks[r]? = some b := by
  rcases below_iff_parent.mp h with rfl | ⟨p, hp, -⟩
  · exact ⟨c, hc⟩
  · obtain ⟨b, hb, -⟩ := map_eq_some_iff.mp hp
    exact ⟨b, hb⟩

variable (h : Indexed T.toBlockView s)

include h

theorem slot_lt_of_parent {b p : β}
    (hp : s.blocks[T.parentRoot b]? = some p) : T.slot p < T.slot b :=
  T.parent_slot b p (h.root_eq _ p hp)

theorem slot_le_of_below {r a : Root} {b c : β}
    (hra : Below (parentOf T.toBlockView s) r a) (hb : s.blocks[r]? = some b)
    (hc : s.blocks[a]? = some c) : T.slot c ≤ T.slot b := by
  induction hra using head_induction_on generalizing b with
  | refl =>
    obtain rfl := some.inj (hb.symm.trans hc)
    exact BitVec.le_refl _
  | head hp hpa ih =>
    rw [parentOf_of_stored hb] at hp
    obtain rfl := some.inj hp
    obtain ⟨q, hq⟩ := stored_of_below hpa hc
    exact BitVec.le_trans (ih hq) (BitVec.le_of_lt (slot_lt_of_parent h hq))

theorem eq_of_genesis_below
    (hgenesis : s.blocks[T.root T.genesis]? = some T.genesis) {a : Root} {c : β}
    (ha : Below (parentOf T.toBlockView s) (T.root T.genesis) a) (hc : s.blocks[a]? = some c) :
    a = T.root T.genesis := by
  rcases below_iff_parent.mp ha with rfl | ⟨p, hp, hpa⟩
  · rfl
  · rw [parentOf_of_stored hgenesis] at hp
    obtain rfl := some.inj hp
    obtain ⟨q, hq⟩ := stored_of_below hpa hc
    have hlt := slot_lt_of_parent h hq
    rw [T.slot_genesis] at hlt
    exact absurd hlt (BitVec.not_lt_zero)

theorem block_eq (r : Root) : s.block r = s.blocks[r]? := by
  rw [Store.block]
  cases hcached : s.blockCache[r]? with
  | none => rw [none_or]
  | some b => rw [some_or, h.cached r b hcached]

end Ancestors

/-! ### The walk -/

section Walk

variable {β : Type} {T : BlockTree β} {s : FinalityStore β}

/-- An entry that the walk can stop at. -/
def Container.IsCanonical : Container → Prop
  | .canonical _ _ => True
  | .finalizedButNotCanonical => False

/-- The entries below a slot are canonical, and the ancestors of each are indexed. -/
def ClosedBelow (T : BlockTree β) (s : Store β) (slot : Slot)
    (bkt : Std.ExtTreeMap Root Container) : Prop :=
  ∀ (r : Root) (c : Container), bkt[r]? = some c → ∀ x, s.blocks[r]? = some x → T.slot x < slot →
    c.IsCanonical ∧ ∀ a y, Below (parentOf T.toBlockView s) r a → s.blocks[a]? = some y →
      a ≠ T.root T.genesis → a ∈ bkt

theorem ClosedBelow.insert {st : Store β} {bkt : Std.ExtTreeMap Root Container} {root : Root}
    {b q : β} (h : ClosedBelow T st (T.slot b) bkt) (hb : st.blocks[root]? = some b)
    (hlt : T.slot q < T.slot b) (d : Container) :
    ClosedBelow T st (T.slot q) (bkt.insert root d) := by
  intro r c hc x hx hxq
  rw [TreeMap.getElem?_insert] at hc
  split at hc
  next heq =>
    rw [heq, hb] at hx
    rw [← some.inj hx] at hxq
    exact absurd hxq (BitVec.not_lt.mpr (BitVec.le_of_lt hlt))
  · obtain ⟨hcanonical, hancestors⟩ := h r c hc x hx (BitVec.lt_trans hxq hlt)
    exact ⟨hcanonical, fun a y ha hy hne =>
      mem_insert_iff.mpr (.inr (hancestors a y ha hy hne))⟩

theorem isCanonical_or_of_insert {bkt : Std.ExtTreeMap Root Container} {root p : Root}
    {q : Option Root} {c : Container} (hc : (bkt.insert root (.canonical p q))[r]? = some c) :
    c.IsCanonical ∨ bkt[r]? = some c := by
  rw [TreeMap.getElem?_insert] at hc
  split at hc
  · obtain rfl := some.inj hc
    exact .inl trivial
  · exact .inr hc

theorem indexAncestors_ok (hs : Indexed T.toBlockView s.toStore)
    (hroot : s.genesisBlockRoot = some (T.root T.genesis))
    (hgenesis : s.blocks[T.root T.genesis]? = some T.genesis) {fuel : ℕ}
    {bkt : Std.ExtTreeMap Root Container} {root : Root} (previousRoot : Option Root) {b : β}
    (hb : s.blocks[root]? = some b) (hfuel : (T.slot b).toNat < fuel)
    (hbelow : Below (parentOf T.toBlockView s.toStore) root (T.root T.genesis))
    (hclosed : ClosedBelow T s.toStore (T.slot b) bkt) :
    ∃ bkt', s.indexAncestors T.toBlockView fuel bkt root previousRoot = .ok bkt' ∧
      (∀ r, r ∈ bkt' ↔ r ∈ bkt ∨ (Below (parentOf T.toBlockView s.toStore) root r ∧
        (∃ x, s.blocks[r]? = some x) ∧ r ≠ T.root T.genesis)) ∧
      ∀ (r : Root) (c : Container), bkt'[r]? = some c → c.IsCanonical ∨ bkt[r]? = some c := by
  induction fuel generalizing bkt root previousRoot b with
  | zero => exact absurd hfuel (Nat.not_lt_zero _)
  | succ fuel ih =>
    rw [FinalityStore.indexAncestors]
    by_cases hg : root = T.root T.genesis
    · rw [if_pos (hg ▸ hroot)]
      refine ⟨bkt, rfl, fun r => ⟨.inl, ?_⟩, fun r c hc => .inr hc⟩
      rintro (hr | ⟨hr, ⟨x, hx⟩, hne⟩)
      · exact hr
      · subst hg
        exact absurd (eq_of_genesis_below hs hgenesis hr hx) hne
    have hnot : ¬ s.genesisBlockRoot = some root := by
      rw [hroot]
      exact fun heq => hg (some.inj heq).symm
    have hup : Below (parentOf T.toBlockView s.toStore) (T.parentRoot b) (T.root T.genesis) := by
      rcases below_iff_parent.mp hbelow with heq | ⟨p, hp, hpg⟩
      · exact absurd heq hg
      · rw [parentOf_of_stored hb] at hp
        rwa [some.inj hp]
    obtain ⟨q, hq⟩ := stored_of_below hup hgenesis
    have hlt : T.slot q < T.slot b := slot_lt_of_parent hs hq
    have hne : T.parentRoot b ≠ root := by
      intro heq
      rw [heq, hb] at hq
      rw [some.inj hq] at hlt
      exact BitVec.lt_irrefl _ hlt
    have hget : ∀ c, (bkt.insert root c)[T.parentRoot b]? = bkt[T.parentRoot b]? := by
      intro c
      rw [TreeMap.getElem?_insert, if_neg hne]
    have habove : ∀ r, Below (parentOf T.toBlockView s.toStore) root r ↔
        r = root ∨ Below (parentOf T.toBlockView s.toStore) (T.parentRoot b) r := by
      intro r
      rw [below_iff_parent, parentOf_of_stored hb]
      simp [eq_comm]
    rw [if_neg hnot, block_eq hs, hb]
    dsimp only
    rw [hget]
    cases hparent : bkt[T.parentRoot b]? with
    | none =>
      have hfuel' : (T.slot q).toNat < fuel := by
        rw [lt_def] at hlt
        omega
      obtain ⟨bkt', hrun, hmem, hcanonical⟩ := ih (some root) hq hfuel' hup
        (hclosed.insert hb hlt (.canonical (T.parentRoot b) previousRoot))
      refine ⟨bkt', hrun, fun r => ?_, fun r c hc => ?_⟩
      · rw [hmem, mem_insert_iff, habove]
        constructor
        · rintro ((rfl | hr) | ⟨hr, hx, hne⟩)
          · exact .inr ⟨.inl rfl, ⟨b, hb⟩, hg⟩
          · exact .inl hr
          · exact .inr ⟨.inr hr, hx, hne⟩
        · rintro (hr | ⟨rfl | hr, hx, hne⟩)
          · exact .inl (.inr hr)
          · exact .inl (.inl rfl)
          · exact .inr ⟨hr, hx, hne⟩
      · exact (hcanonical r c hc).elim .inl isCanonical_or_of_insert
    | some c =>
      obtain ⟨hcanonical, hancestors⟩ := hclosed _ c hparent q hq hlt
      cases c with
      | finalizedButNotCanonical => exact hcanonical.elim
      | canonical parentRoot childRoot =>
        refine ⟨_, rfl, fun r => ?_, fun r c hc => ?_⟩
        · rw [mem_insert_iff, mem_insert_iff, habove]
          constructor
          · rintro (rfl | rfl | hr)
            · exact .inl (mem_of_getElem? hparent)
            · exact .inr ⟨.inl rfl, ⟨b, hb⟩, hg⟩
            · exact .inl hr
          · rintro (hr | ⟨rfl | hr, ⟨x, hx⟩, hne⟩)
            · exact .inr (.inr hr)
            · exact .inr (.inl rfl)
            · exact .inr (.inr (hancestors r x hr hx hne))
        · exact (isCanonical_or_of_insert hc).elim .inl isCanonical_or_of_insert

theorem getElem?_upsert (checkpoint : Checkpoint) (bkt : Std.ExtTreeMap Root Container)
    (roots : List Root) (r : Root) : (upsert checkpoint bkt roots)[r]? =
      bkt[r]?.or (if r ∈ roots ∧ r ≠ checkpoint.root then some .finalizedButNotCanonical
        else none) := by
  induction roots generalizing bkt with
  | nil => simp [upsert]
  | cons a roots ih =>
    rw [upsert, List.foldl_cons]
    refine (ih _).trans ?_
    by_cases ha : a = checkpoint.root ∨ bkt.contains a
    · rw [if_pos ha]
      rcases ha with rfl | ha
      · by_cases hr : r = checkpoint.root
        · simp [hr]
        · simp [hr]
      · obtain ⟨c, hc⟩ := contains_iff.mp ha
        by_cases hr : r = a
        · rw [hr, hc, some_or, some_or]
        · simp [hr]
    · rw [if_neg ha, TreeMap.getElem?_insert]
      obtain ⟨hne, hnot⟩ := not_or.mp ha
      have hnone := contains_eq_false_iff.mp (Bool.eq_false_iff.mpr hnot)
      by_cases hr : r = a
      · rw [if_pos hr, hr, hnone]
        simp [hne]
      · rw [if_neg hr]
        simp [hr]

end Walk

/-! ### Runs -/

/-- A call, or the loss of a block from the cache. -/
inductive FinalityCall (β : Type) where
  | saveBlock (b : β) (order : IndexOrder)
  | saveStateSummary (r : Root)
  | saveFinalizedCheckpoint (checkpoint : Checkpoint)
  | evict (r : Root)

section Runs

variable {β : Type} (T : BlockTree β)

/-- The store after a call. A checkpoint is saved in one transaction. -/
def FinalityStore.call (s : FinalityStore β) : FinalityCall β → FinalityStore β
  | .saveBlock b order => { s with toStore := s.toStore.saveBlock T.toBlockView b order }
  | .saveStateSummary r => { s with stateSummaries := r :: s.stateSummaries }
  | .saveFinalizedCheckpoint checkpoint =>
    match s.saveFinalizedCheckpoint T.toBlockView checkpoint with
    | .ok s' => s'
    | .error _ => s
  | .evict r => { s with blockCache := s.blockCache.erase r }

def FinalityStore.atGenesis : FinalityStore β where
  toStore := Store.new.saveBlock T.toBlockView T.genesis .slotFirst
  genesisBlockRoot := some (T.root T.genesis)
  stateSummaries := []
  states := []
  finalizedBlockRootsIndex := ∅
  previousFinalizedCheckpoint := none
  finalizedCheckpoint := none

/-- The root of the previous checkpoint; before the first one it is the genesis block. -/
def FinalityStore.lastRoot (s : FinalityStore β) : Root :=
  (s.previousFinalizedCheckpoint.map Checkpoint.root).getD (T.root T.genesis)

def FinalityStore.lastEpoch (s : FinalityStore β) : Epoch :=
  (s.previousFinalizedCheckpoint.map Checkpoint.epoch).getD 0

/-- A checkpoint with a stored root that has a state summary, is not after the start of its epoch
and descends from the previous one, for a later epoch. The next epoch has a start slot. -/
structure Follows (s : FinalityStore β) (checkpoint : Checkpoint) : Prop where
  summary : checkpoint.root ∈ s.stateSummaries
  stored : ∃ b, s.blocks[checkpoint.root]? = some b ∧
    (T.slot b).toNat ≤ 32 * checkpoint.epoch.toNat
  later : ∀ previous, s.previousFinalizedCheckpoint = some previous →
    previous.epoch < checkpoint.epoch
  descends : Below (parentOf T.toBlockView s.toStore) checkpoint.root (s.lastRoot T)
  next : 32 * (checkpoint.epoch.toNat + 1) < 2 ^ 64

/-- The condition on the calls of a run. -/
def FinalityCall.Valid (s : FinalityStore β) : FinalityCall β → Prop
  | .saveFinalizedCheckpoint checkpoint => Follows T s checkpoint
  | _ => True

/-- What the index has: the ancestors of the last finalized block, and only stored blocks that are
such ancestors or have slots in the last finalized epoch or the next one. -/
structure IndexesFinalized (s : FinalityStore β) : Prop where
  indexed : Indexed T.toBlockView s.toStore
  genesisRoot : s.genesisBlockRoot = some (T.root T.genesis)
  genesis : s.blocks[T.root T.genesis]? = some T.genesis
  last : ∃ b, s.blocks[s.lastRoot T]? = some b ∧ (T.slot b).toNat ≤ 32 * s.lastEpoch.toNat
  chain : Below (parentOf T.toBlockView s.toStore) (s.lastRoot T) (T.root T.genesis)
  ancestors : ∀ (r : Root) (b : β), Below (parentOf T.toBlockView s.toStore) (s.lastRoot T) r →
    s.blocks[r]? = some b → r ≠ T.root T.genesis → r ∈ s.finalizedBlockRootsIndex
  entries : ∀ (r : Root) (c : Container), s.finalizedBlockRootsIndex[r]? = some c →
    r ≠ T.root T.genesis ∧ ∃ b, s.blocks[r]? = some b ∧
      (c.IsCanonical ∧ Below (parentOf T.toBlockView s.toStore) (s.lastRoot T) r ∨
        32 * s.lastEpoch.toNat ≤ (T.slot b).toNat ∧ (T.slot b).toNat < 32 * (s.lastEpoch.toNat + 2))

variable {T} {s : FinalityStore β} {checkpoint : Checkpoint}

/-- The blocks from the previous finalized epoch on are taken out. What is left are ancestors of the
last finalized block. -/
theorem IndexesFinalized.deindex (h : IndexesFinalized T s)
    (hle : s.lastEpoch.toNat ≤ checkpoint.epoch.toNat)
    (hnext : 32 * (checkpoint.epoch.toNat + 1) < 2 ^ 64) :
    ∃ roots, blockRootsBySlotRange s.blockSlotIndices s.lastEpoch (checkpoint.epoch + 1) =
        .ok roots ∧
      ∀ (r : Root) (c : Container),
        (roots.foldl (fun bkt root => bkt.erase root) s.finalizedBlockRootsIndex)[r]? = some c ↔
          s.finalizedBlockRootsIndex[r]? = some c ∧ c.IsCanonical ∧
            Below (parentOf T.toBlockView s.toStore) (s.lastRoot T) r ∧
            ∃ b, s.blocks[r]? = some b ∧ (T.slot b).toNat < 32 * s.lastEpoch.toNat := by
  have hsucc : (checkpoint.epoch + 1).toNat = checkpoint.epoch.toNat + 1 := by bv_omega
  obtain ⟨roots, hroots, hmem⟩ := blockRootsBySlotRange_ok h.indexed s.lastEpoch
    (checkpoint.epoch + 1) (by omega) (by omega)
  refine ⟨roots, hroots, fun r c => ?_⟩
  rw [getElem?_foldl_erase]
  constructor
  · intro hc
    split at hc
    · exact (nomatch hc)
    next hnot =>
      obtain ⟨-, b, hb, hb'⟩ := h.entries r c hc
      have hsmall : (T.slot b).toNat < 32 * s.lastEpoch.toNat := by
        by_contra hge
        refine hnot ((hmem r).mpr ⟨b, hb, not_lt.mp hge, ?_⟩)
        rcases hb' with ⟨-, hbelow⟩ | ⟨-, hlt⟩
        · obtain ⟨l, hl, hlast⟩ := h.last
          have hslot := slot_le_of_below h.indexed hbelow hl hb
          rw [le_def] at hslot
          omega
        · omega
      rcases hb' with ⟨hcanonical, hbelow⟩ | ⟨hge, -⟩
      · exact ⟨hc, hcanonical, hbelow, b, hb, hsmall⟩
      · omega
  · rintro ⟨hc, -, -, b, hb, hlt⟩
    rw [if_neg, hc]
    intro hr
    obtain ⟨b', hb', hge, -⟩ := (hmem r).mp hr
    rw [some.inj (hb'.symm.trans hb)] at hge
    omega

theorem saveFinalizedCheckpoint_ok (h : IndexesFinalized T s) (hcp : Follows T s checkpoint) :
    ∃ index, s.saveFinalizedCheckpoint T.toBlockView checkpoint = .ok { s with
        finalizedCheckpoint := some checkpoint
        previousFinalizedCheckpoint := some checkpoint
        finalizedBlockRootsIndex := index } ∧
      (∀ r, r ∈ index ↔
        (Below (parentOf T.toBlockView s.toStore) checkpoint.root r ∧
          (∃ b, s.blocks[r]? = some b) ∧ r ≠ T.root T.genesis) ∨
        r ≠ checkpoint.root ∧ ∃ b, s.blocks[r]? = some b ∧
          32 * checkpoint.epoch.toNat ≤ (T.slot b).toNat ∧
          (T.slot b).toNat < 32 * (checkpoint.epoch.toNat + 2)) ∧
      ∀ (r : Root) (c : Container), index[r]? = some c → ∃ b, s.blocks[r]? = some b ∧
        (c.IsCanonical ∧ Below (parentOf T.toBlockView s.toStore) checkpoint.root r ∨
          32 * checkpoint.epoch.toNat ≤ (T.slot b).toNat ∧
            (T.slot b).toNat < 32 * (checkpoint.epoch.toNat + 2)) := by
  have hnext := hcp.next
  have hsucc : (checkpoint.epoch + 1).toNat = checkpoint.epoch.toNat + 1 := by bv_omega
  have hle : s.lastEpoch.toNat ≤ checkpoint.epoch.toNat := by
    rw [lastEpoch]
    cases hprevious : s.previousFinalizedCheckpoint with
    | none => exact Nat.zero_le _
    | some previous => exact Nat.le_of_lt (lt_def.mp (hcp.later previous hprevious))
  obtain ⟨old, hold, hleft⟩ := h.deindex hle hnext
  obtain ⟨b, hb, hslot⟩ := hcp.stored
  -- What is left is closed under ancestors, since those have smaller slots.
  have hclosed : ClosedBelow T s.toStore (T.slot b)
      (old.foldl (fun bkt root => bkt.erase root) s.finalizedBlockRootsIndex) := by
    intro r c hc x hx _
    obtain ⟨-, hcanonical, hbelow, x', hx', hsmall⟩ := (hleft r c).mp hc
    obtain rfl := some.inj (hx.symm.trans hx')
    refine ⟨hcanonical, fun a y ha hy hne => ?_⟩
    have hslot' := slot_le_of_below h.indexed ha hx hy
    rw [le_def] at hslot'
    have hentry := h.ancestors a y (hbelow.trans ha) hy hne
    obtain ⟨c', hc'⟩ := contains_iff.mp hentry
    obtain ⟨-, y', hy', hcases⟩ := h.entries a c' hc'
    obtain rfl := some.inj (hy.symm.trans hy')
    refine mem_of_getElem? ((hleft a c').mpr ⟨hc', ?_, hbelow.trans ha, y, hy, by omega⟩)
    rcases hcases with ⟨hcanonical', -⟩ | ⟨hge, -⟩
    · exact hcanonical'
    · omega
  obtain ⟨bkt, hwalk, hmem, hcanonical⟩ := indexAncestors_ok
    (s := { s with finalizedCheckpoint := some checkpoint }) h.indexed h.genesisRoot h.genesis none
    hb (Nat.lt_succ_self _) (hcp.descends.trans h.chain) hclosed
  obtain ⟨new, hnew, hnewmem⟩ := blockRootsBySlotRange_ok h.indexed checkpoint.epoch
    (checkpoint.epoch + 1) (by omega) (by omega)
  have hbkt : ∀ r, r ∈ bkt ↔ Below (parentOf T.toBlockView s.toStore) checkpoint.root r ∧
      (∃ x, s.blocks[r]? = some x) ∧ r ≠ T.root T.genesis := by
    intro r
    rw [hmem]
    refine or_iff_right_of_imp fun hr => ?_
    obtain ⟨c, hc⟩ := contains_iff.mp hr
    obtain ⟨hc', -, hbelow, x, hx, -⟩ := (hleft r c).mp hc
    exact ⟨hcp.descends.trans hbelow, ⟨x, hx⟩, (h.entries r c hc').1⟩
  refine ⟨upsert checkpoint bkt new, ?_, fun r => ?_, fun r c hc => ?_⟩
  · have hfuel : walkFuel T.toBlockView
        { s with finalizedCheckpoint := some checkpoint } checkpoint.root =
        (T.slot b).toNat + 1 := by
      rw [walkFuel, block_eq h.indexed, hb]
    rw [FinalityStore.saveFinalizedCheckpoint, if_neg (not_not.mpr (.inr hcp.summary)),
      updateFinalizedBlockRoots, hfuel]
    refine Fallible.bind_eq_ok.mpr ⟨old, hold, Fallible.bind_eq_ok.mpr ⟨bkt, hwalk, ?_⟩⟩
    exact Fallible.bind_eq_ok.mpr ⟨new, hnew, rfl⟩
  · rw [← isSome_getElem?_iff_mem, getElem?_upsert, isSome_or,
      Bool.or_eq_true, isSome_getElem?_iff_mem, hbkt]
    refine or_congr Iff.rfl ?_
    rw [isSome_ite, hnewmem, hsucc, and_comm]
  · rw [getElem?_upsert] at hc
    cases hbefore : bkt[r]? with
    | some c' =>
      rw [hbefore, some_or] at hc
      obtain rfl := some.inj hc
      obtain ⟨hbelow, ⟨x, hx⟩, -⟩ := (hbkt r).mp (mem_of_getElem? hbefore)
      refine ⟨x, hx, .inl ⟨?_, hbelow⟩⟩
      rcases hcanonical r c' hbefore with hc' | hc'
      · exact hc'
      · exact ((hleft r c').mp hc').2.1
    | none =>
      rw [hbefore, none_or] at hc
      split at hc
      next hr =>
        obtain ⟨x, hx, hrange⟩ := (hnewmem r).mp hr.1
        rw [hsucc] at hrange
        exact ⟨x, hx, .inr hrange⟩
      · exact (nomatch hc)

/-! ### The invariant -/

theorem IndexesFinalized.atGenesis : IndexesFinalized T (FinalityStore.atGenesis T) := by
  have hnew : Indexed T.toBlockView (Store.new : Store β) := .new
  have hgenesis : (FinalityStore.atGenesis T).blocks[T.root T.genesis]? = some T.genesis := by
    change (Store.new.saveBlock T.toBlockView T.genesis .slotFirst).blocks[T.root T.genesis]? = _
    rw [hnew.blocks_saveBlock, if_pos rfl]
  refine ⟨hnew.saveBlock _ _, rfl, hgenesis, ⟨T.genesis, hgenesis, ?_⟩, Below.refl _, ?_, ?_⟩
  · rw [T.slot_genesis]
    exact Nat.zero_le _
  · intro r b hr hb hne
    exact absurd (eq_of_genesis_below (hnew.saveBlock _ _) hgenesis hr hb) hne
  · intro r c hc
    change (∅ : Std.ExtTreeMap Root Container)[r]? = some c at hc
    rw [getElem?_empty] at hc
    exact (nomatch hc)

theorem below_of_saved {st st' : Store β} (hst' : Indexed T.toBlockView st')
    (hsub : ∀ (r : Root) (b : β), st.blocks[r]? = some b → st'.blocks[r]? = some b)
    (hgenesis : st.blocks[T.root T.genesis]? = some T.genesis) {d : Root} {x : β}
    (hd : Below (parentOf T.toBlockView st) d (T.root T.genesis))
    (hr : Below (parentOf T.toBlockView st') d r) (hx : st'.blocks[r]? = some x)
    (hne : r ≠ T.root T.genesis) :
    Below (parentOf T.toBlockView st) d r ∧ ∃ y, st.blocks[r]? = some y := by
  induction hd using head_induction_on with
  | refl => exact absurd (eq_of_genesis_below hst' (hsub _ _ hgenesis) hr hx) hne
  | @head d p hp hpg ih =>
    obtain ⟨b, hb, hpb⟩ := map_eq_some_iff.mp hp
    rcases below_iff_parent.mp hr with rfl | ⟨p', hp', hpr⟩
    · exact ⟨Below.refl _, b, hb⟩
    · rw [parentOf_of_stored (hsub d b hb), hpb] at hp'
      obtain rfl := some.inj hp'
      obtain ⟨hbelow, hy⟩ := ih hpr
      exact ⟨Below.of_parent_below hp hbelow, hy⟩

variable (h : IndexesFinalized T s)

include h

theorem IndexesFinalized.saveBlock (b : β) (order : IndexOrder) :
    IndexesFinalized T { s with toStore := s.toStore.saveBlock T.toBlockView b order } := by
  have hindexed := h.indexed.saveBlock b order
  have hsub : ∀ (r : Root) (x : β), s.blocks[r]? = some x →
      (s.toStore.saveBlock T.toBlockView b order).blocks[r]? = some x := by
    intro r x hx
    rw [h.indexed.blocks_saveBlock]
    split
    next hr =>
      rw [T.root_injective ((h.indexed.root_eq r x hx).trans hr)]
    · exact hx
  have hbelow : ∀ {d r : Root}, Below (parentOf T.toBlockView s.toStore) d r →
      Below (parentOf T.toBlockView (s.toStore.saveBlock T.toBlockView b order)) d r := by
    refine Below.mono fun d p hp => ?_
    obtain ⟨x, hx, rfl⟩ := map_eq_some_iff.mp hp
    exact parentOf_of_stored (hsub d x hx)
  obtain ⟨l, hl, hlast⟩ := h.last
  refine ⟨hindexed, h.genesisRoot, hsub _ _ h.genesis, ⟨l, hsub _ l hl, hlast⟩, hbelow h.chain,
    fun r x hr hx hne => ?_, fun r c hc => ?_⟩
  · obtain ⟨hr', y, hy⟩ := below_of_saved hindexed hsub h.genesis h.chain hr hx hne
    exact h.ancestors r y hr' hy hne
  · obtain ⟨hne, x, hx, hcases⟩ := h.entries r c hc
    exact ⟨hne, x, hsub r x hx,
      hcases.imp_left fun hcanonical => ⟨hcanonical.1, hbelow hcanonical.2⟩⟩

theorem IndexesFinalized.saveFinalizedCheckpoint
    (hcp : Follows T s checkpoint) :
    IndexesFinalized T (s.call T (.saveFinalizedCheckpoint checkpoint)) := by
  obtain ⟨index, hrun, hmem, hentries⟩ := saveFinalizedCheckpoint_ok h hcp
  have hcall : s.call T (.saveFinalizedCheckpoint checkpoint) = { s with
      finalizedCheckpoint := some checkpoint
      previousFinalizedCheckpoint := some checkpoint
      finalizedBlockRootsIndex := index } := by
    rw [call, hrun]
  have hchain := hcp.descends.trans h.chain
  obtain ⟨b, hb, hslot⟩ := hcp.stored
  rw [hcall]
  refine ⟨h.indexed, h.genesisRoot, h.genesis, ⟨b, hb, hslot⟩, hchain, fun r x hr hx hne => ?_,
    fun r c hc => ?_⟩
  · exact (hmem r).mpr (.inl ⟨hr, ⟨x, hx⟩, hne⟩)
  · refine ⟨?_, hentries r c hc⟩
    -- The genesis block has slot 0, so that it is in the range only as the finalized block.
    rcases (hmem r).mp (mem_of_getElem? hc) with ⟨-, -, hne⟩ | ⟨hne, x, hx, hge, -⟩
    · exact hne
    · rintro rfl
      obtain rfl := some.inj (h.genesis.symm.trans hx)
      rw [T.slot_genesis] at hge
      rcases below_iff_parent.mp hchain with heq | ⟨p, hp, hpg⟩
      · exact hne heq.symm
      · rw [parentOf_of_stored hb] at hp
        obtain rfl := some.inj hp
        obtain ⟨q, hq⟩ := stored_of_below hpg h.genesis
        have hlt := lt_def.mp (slot_lt_of_parent h.indexed hq)
        have hzero : (0 : Slot).toNat = 0 := rfl
        omega

theorem IndexesFinalized.call {c : FinalityCall β}
    (hvalid : c.Valid T s) : IndexesFinalized T (s.call T c) := by
  cases c with
  | saveBlock b order => exact h.saveBlock b order
  | saveStateSummary r =>
    exact ⟨h.indexed, h.genesisRoot, h.genesis, h.last, h.chain, h.ancestors, h.entries⟩
  | saveFinalizedCheckpoint checkpoint => exact h.saveFinalizedCheckpoint hvalid
  | evict r =>
    exact ⟨h.indexed.evict r, h.genesisRoot, h.genesis, h.last, h.chain, h.ancestors, h.entries⟩

end Runs

/-! ### Finalized blocks -/

theorem isFinalizedBlock_of_follows {β : Type} {T : BlockTree β} {s : FinalityStore β}
    {checkpoint : Checkpoint} (h : IndexesFinalized T s) (hcp : Follows T s checkpoint) :
    ∃ s', s.saveFinalizedCheckpoint T.toBlockView checkpoint = .ok s' ∧ s'.toStore = s.toStore ∧
      ∀ (r : Root) (b : β), s.blocks[r]? = some b →
        (s'.isFinalizedBlock r = true ↔ r = T.root T.genesis ∨
          Below (parentOf T.toBlockView s.toStore) checkpoint.root r ∨
          (T.slot b).toNat / slotsPerEpoch = checkpoint.epoch.toNat ∨
          (T.slot b).toNat / slotsPerEpoch = checkpoint.epoch.toNat + 1) := by
  obtain ⟨index, hrun, hmem, -⟩ := saveFinalizedCheckpoint_ok h hcp
  refine ⟨_, hrun, rfl, fun r b hb => ?_⟩
  have hfinalized : isFinalizedBlock { s with
      finalizedCheckpoint := some checkpoint
      previousFinalizedCheckpoint := some checkpoint
      finalizedBlockRootsIndex := index } r = true ↔ r ∈ index ∨ r = T.root T.genesis := by
    rw [isFinalizedBlock, Bool.or_eq_true, contains_iff_mem, decide_eq_true_eq]
    dsimp only
    rw [h.genesisRoot, getD_some, @eq_comm _ r]
  have hrange : 32 * checkpoint.epoch.toNat ≤ (T.slot b).toNat ∧
      (T.slot b).toNat < 32 * (checkpoint.epoch.toNat + 2) ↔
      (T.slot b).toNat / slotsPerEpoch = checkpoint.epoch.toNat ∨
        (T.slot b).toNat / slotsPerEpoch = checkpoint.epoch.toNat + 1 := by
    rw [slotsPerEpoch]
    omega
  rw [hfinalized, hmem, ← hrange]
  by_cases hgenesis : r = T.root T.genesis
  · exact iff_of_true (.inr hgenesis) (.inl hgenesis)
  constructor
  · rintro ((⟨hbelow, -⟩ | ⟨-, b', hb', hslots⟩) | hr)
    · exact .inr (.inl hbelow)
    · rw [some.inj (hb'.symm.trans hb)] at hslots
      exact .inr (.inr hslots)
    · exact .inl hr
  · rintro (hr | hbelow | hslots)
    · exact .inr hr
    · exact .inl (.inl ⟨hbelow, ⟨b, hb⟩, hgenesis⟩)
    · by_cases hroot : r = checkpoint.root
      · exact .inl (.inl ⟨hroot ▸ Below.refl _, ⟨b, hb⟩, hgenesis⟩)
      · exact .inl (.inr ⟨hroot, b, hb, hslots⟩)

/-- After a valid run a checkpoint is saved. Then the finalized blocks among the stored ones are the
genesis block, the finalized block with its ancestors and the blocks of the finalized epoch, exactly
if no block of the next epoch is stored. -/
theorem isFinalizedBlock_iff {β : Type} (T : BlockTree β) (calls : List (FinalityCall β))
    (checkpoint : Checkpoint)
    (hvalid : Admits (call T) (FinalityCall.Valid T) (FinalityStore.atGenesis T)
      (calls ++ [.saveFinalizedCheckpoint checkpoint])) :
    let s := calls.foldl (call T) (FinalityStore.atGenesis T)
    ∃ s', s.saveFinalizedCheckpoint T.toBlockView checkpoint = .ok s' ∧
      ((∀ (r : Root) (b : β), s'.blocks[r]? = some b →
        (s'.isFinalizedBlock r = true ↔ r = T.root T.genesis ∨
          Below (parentOf T.toBlockView s'.toStore) checkpoint.root r ∨
          (T.slot b).toNat / slotsPerEpoch = checkpoint.epoch.toNat)) ↔
      ∀ (r : Root) (b : β), s.blocks[r]? = some b →
        (T.slot b).toNat / slotsPerEpoch ≠ checkpoint.epoch.toNat + 1) := by
  intro s
  obtain ⟨hcalls, hlast, -⟩ := admits_append.mp hvalid
  have hs : IndexesFinalized T s := invariant (fun _ _ h hc => h.call hc) .atGenesis hcalls
  obtain ⟨s', hrun, hstore, hfinalized⟩ := isFinalizedBlock_of_follows hs hlast
  refine ⟨s', hrun, ?_⟩
  rw [hstore]
  constructor
  · intro hexact r b hb hslot
    rcases (hexact r b hb).mp ((hfinalized r b hb).mpr (.inr (.inr (.inr hslot)))) with
      rfl | hbelow | hepoch
    · obtain rfl := some.inj (hs.genesis.symm.trans hb)
      rw [T.slot_genesis] at hslot
      exact absurd hslot.symm (Nat.succ_ne_zero _)
    · -- An ancestor is not after the start of the finalized epoch.
      obtain ⟨c, hc, hle⟩ := hlast.stored
      have hslots := le_def.mp (slot_le_of_below hs.indexed hbelow hc hb)
      rw [slotsPerEpoch] at hslot
      omega
    · omega
  · intro hnext r b hb
    rw [hfinalized r b hb]
    have hnot := hnext r b hb
    tauto

/-- Four blocks: a chain over the slots 0, 32 and 64, and a block of slot 33 beside it. -/
def epochTree : BlockTree (Fin 4) where
  slot := ![0, 32, 64, 33]
  parentRoot := ![0, 1, 2, 1]
  root b := BitVec.ofNat 256 (b.val + 1)
  root_injective := by decide
  genesis := 0
  slot_genesis := rfl
  parent_slot := by decide

/-- The first epoch is finalized while it has a block that is not an ancestor. -/
theorem isFinalizedBlock_iff_fork :
    let calls := [FinalityCall.saveBlock 1 .slotFirst, .saveBlock 3 .slotFirst, .saveStateSummary 2]
    let s := calls.foldl (call epochTree) (FinalityStore.atGenesis epochTree)
    ∃ s', s.saveFinalizedCheckpoint epochTree.toBlockView ⟨1, 2⟩ = .ok s' ∧
      s'.isFinalizedBlock 4 = true := by
  intro calls s
  have hfollows : Follows epochTree s ⟨1, 2⟩ := by
    refine ⟨by decide, ⟨1, by decide +kernel, by decide⟩, fun previous h => (nomatch h),
      Below.of_parent ?_, by decide⟩
    decide +kernel
  have hvalid : Admits (call epochTree) (FinalityCall.Valid epochTree)
      (FinalityStore.atGenesis epochTree) (calls ++ [.saveFinalizedCheckpoint ⟨1, 2⟩]) :=
    ⟨trivial, trivial, trivial, hfollows, trivial⟩
  obtain ⟨s', hrun, -⟩ := isFinalizedBlock_iff epochTree calls ⟨1, 2⟩ hvalid
  have hcall : s.call epochTree (.saveFinalizedCheckpoint ⟨1, 2⟩) = s' := by
    rw [call, hrun]
  refine ⟨s', hrun, ?_⟩
  rw [← hcall]
  decide +kernel

/-- The first epoch is finalized while a block of the second one is stored: the block counts as
finalized. -/
theorem next_epoch_is_finalized :
    let calls := [FinalityCall.saveBlock 1 .slotFirst, .saveBlock 2 .slotFirst, .saveStateSummary 2]
    let s := calls.foldl (call epochTree) (FinalityStore.atGenesis epochTree)
    let s' := s.call epochTree (.saveFinalizedCheckpoint ⟨1, 2⟩)
    Follows epochTree s ⟨1, 2⟩ ∧ s'.blocks[(3 : Root)]? = some 2 ∧
      s'.isFinalizedBlock 3 = true ∧ 3 ≠ epochTree.root epochTree.genesis ∧
      ¬ Below (parentOf epochTree.toBlockView s'.toStore) 2 3 ∧
      (epochTree.slot 2).toNat / slotsPerEpoch ≠ 1 := by
  intro calls s s'
  refine ⟨⟨by decide, ⟨1, by decide +kernel, by decide⟩, fun previous h => (nomatch h),
    Below.of_parent (by decide +kernel), by decide⟩, by decide +kernel, by decide +kernel,
    by decide, ?_, by decide⟩
  -- the chain of block 2 is 2, 1, 0
  rw [below_iff_mem_path (l := [1, 0]) (by decide +kernel) (by decide +kernel)]
  decide

end Vanguard.Kv
