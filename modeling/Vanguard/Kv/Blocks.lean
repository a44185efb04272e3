import Vanguard.Basic
import Vanguard.Lib.Bytes
import Vanguard.Lib.Records
import Vanguard.Lib.Run
import Vanguard.Lib.TreeMap

/-!
The blocks of the beacon database and their indices.

A block is stored under its root. The roots of the blocks of a slot, and those of the children of a
block, are listed in index buckets as one byte string each. Saving a block adds its root at the end
of two such strings. Deleting it searches for the root in them.
-/

namespace Vanguard.Kv

open Run List Bytes Records TreeMap

/-- What the database reads of a block; different blocks have different roots. -/
structure BlockView (β : Type) where
  slot : β → Slot
  parentRoot : β → Root
  root : β → Root
  root_injective : Function.Injective root

/-- A root as the bytes of a key or of a listed value. -/
def rootBytes (r : Root) : Bytes := bigEndian 32 r.toNat

/-- `bytesutil.ToBytes32` of 32 bytes. -/
def toBytes32 (l : Bytes) : Root := BitVec.ofNat 256 (value l)

/-- The loops that cut the values at an index into roots. -/
def splitRoots (values : Bytes) : List Root := (Records.split 32 values).map toBytes32

/-- An index bucket. The keys are written with the most significant byte first, so that they are
in the order of the numbers. -/
abbrev IndexBucket (κ : Type) [Ord κ] := Std.ExtTreeMap κ Bytes

/-- The buckets of `Store` for blocks, and its cache of blocks. -/
structure Store (β : Type) where
  blocks : Std.ExtTreeMap Root β
  blockSlotIndices : IndexBucket Slot
  blockParentRootIndices : IndexBucket Root
  blockCache : Std.ExtTreeMap Root β

def Store.new {β : Type} : Store β := ⟨∅, ∅, ∅, ∅⟩

/-! ### Indices -/

section Indices

variable {κ : Type} [Ord κ] [Std.TransOrd κ] [Std.LawfulEqOrd κ]

/-- A round of `updateValueForIndices`, which returns if the root is listed already. -/
def updateValueForIndex (bkt : IndexBucket κ) (idx : κ) (root : Root) : Option (IndexBucket κ) :=
  match bkt[idx]? with
  | none => some (bkt.insert idx (rootBytes root))
  | some valuesAtIndex =>
    if rootBytes root ∈ Records.split 32 valuesAtIndex then none
    else some (bkt.insert idx (valuesAtIndex ++ rootBytes root))

/-- A round of `deleteValueForIndices`. -/
def deleteValueForIndex (bkt : IndexBucket κ) (idx : κ) (root : Root) : IndexBucket κ :=
  match bkt[idx]? with
  | none => bkt
  | some valuesAtIndex =>
    match indexOf (rootBytes root) valuesAtIndex with
    | none => bkt
    | some start =>
      if start % (rootBytes root).length ≠ 0 then bkt
      else
        let values := valuesAtIndex.take start ++
          valuesAtIndex.drop (start + (rootBytes root).length)
        if values.length = 0 then bkt.erase idx else bkt.insert idx values

def rootsUnder (bkt : IndexBucket κ) (idx : κ) : List Root :=
  match bkt[idx]? with
  | none => []
  | some valuesAtIndex => splitRoots valuesAtIndex

end Indices

/-- The order in which a loop passes the two entries of `indicesByBucket`. -/
inductive IndexOrder where
  | slotFirst
  | parentRootFirst
  deriving DecidableEq, Repr

section Store

variable {β : Type} (V : BlockView β)

/-- `updateValueForIndices` on the indices of a block. -/
def Store.updateValueForIndices (s : Store β) (order : IndexOrder) (b : β) : Store β :=
  let slots := updateValueForIndex s.blockSlotIndices (V.slot b) (V.root b)
  let parents := updateValueForIndex s.blockParentRootIndices (V.parentRoot b) (V.root b)
  match order, slots, parents with
  | .slotFirst, none, _ => s
  | .slotFirst, some bkt, none => { s with blockSlotIndices := bkt }
  | .parentRootFirst, _, none => s
  | .parentRootFirst, none, some bkt => { s with blockParentRootIndices := bkt }
  | _, some bkt, some bkt' => { s with blockSlotIndices := bkt, blockParentRootIndices := bkt' }

/-- `deleteValueForIndices` on the indices of a block; a round does not end the loop. -/
def Store.deleteValueForIndices (s : Store β) (b : β) (root : Root) : Store β :=
  { s with
    blockSlotIndices := deleteValueForIndex s.blockSlotIndices (V.slot b) root
    blockParentRootIndices := deleteValueForIndex s.blockParentRootIndices (V.parentRoot b) root }

/-! ### Saving and deleting -/

/-- A round of `SaveBlocks`. -/
def Store.saveNext (s : Store β) (x : β × IndexOrder) : Store β :=
  if s.blocks.contains (V.root x.1) then s
  else
    let s := s.updateValueForIndices V x.2 x.1
    { s with
      blockCache := s.blockCache.insert (V.root x.1) x.1
      blocks := s.blocks.insert (V.root x.1) x.1 }

/-- `SaveBlocks`, with the order of the indices for each block. -/
def Store.saveBlocks (s : Store β) (blocks : List (β × IndexOrder)) : Store β :=
  blocks.foldl (Store.saveNext V) s

def Store.saveBlock (s : Store β) (signed : β) (order : IndexOrder) : Store β :=
  if s.blockCache.contains (V.root signed) then s else s.saveBlocks V [(signed, order)]

/-- A stored block is removed from the indices, the cache and its bucket. -/
def Store.removeBlock (s : Store β) (blockRoot : Root) (b : β) : Store β :=
  let s := s.deleteValueForIndices V b blockRoot
  { s with
    blockCache := s.blockCache.erase blockRoot
    blocks := s.blocks.erase blockRoot }

def Store.deleteBlock (s : Store β) (blockRoot : Root) : Store β :=
  match s.blocks[blockRoot]? with
  | none => s
  | some b => s.removeBlock V blockRoot b

/-- `deleteBlocks`, which returns at a root that is not stored. -/
def Store.deleteBlocks : Store β → List Root → Store β
  | s, [] => s
  | s, blockRoot :: blockRoots =>
    match s.blocks[blockRoot]? with
    | none => s
    | some b => Store.deleteBlocks (s.removeBlock V blockRoot b) blockRoots

/-- A call, or the loss of a block from the cache. -/
inductive BlockCall (β : Type) where
  | saveBlock (b : β) (order : IndexOrder)
  | saveBlocks (blocks : List (β × IndexOrder))
  | deleteBlock (blockRoot : Root)
  | deleteBlocks (blockRoots : List Root)
  | evict (r : Root)

def Store.call (s : Store β) : BlockCall β → Store β
  | .saveBlock b order => s.saveBlock V b order
  | .saveBlocks blocks => s.saveBlocks V blocks
  | .deleteBlock blockRoot => s.deleteBlock V blockRoot
  | .deleteBlocks blockRoots => s.deleteBlocks V blockRoots
  | .evict r => { s with blockCache := s.blockCache.erase r }

end Store

/-! ### Lists of roots as byte strings -/

def packRoots (l : List Root) : Bytes := (l.map rootBytes).flatten

@[simp] theorem length_rootBytes (r : Root) : (rootBytes r).length = 32 :=
  length_bigEndian 32 _

@[simp] theorem toBytes32_rootBytes (r : Root) : toBytes32 (rootBytes r) = r := by
  have hlt := r.isLt
  rw [toBytes32, rootBytes, value_bigEndian, Nat.mod_eq_of_lt (by omega),
    BitVec.ofNat_toNat, BitVec.setWidth_eq]

theorem rootBytes_injective : Function.Injective rootBytes := fun r r' h => by
  rw [← toBytes32_rootBytes r, h, toBytes32_rootBytes]

variable {l : List Root} {r : Root}

theorem length_of_mem_rootBytes : ∀ x ∈ l.map rootBytes, x.length = 32 := by
  intro x hx
  obtain ⟨r, -, rfl⟩ := mem_map.mp hx
  exact length_rootBytes r

theorem split_packRoots (l : List Root) : Records.split 32 (packRoots l) = l.map rootBytes :=
  split_flatten (by omega) length_of_mem_rootBytes

@[simp] theorem splitRoots_packRoots (l : List Root) : splitRoots (packRoots l) = l := by
  rw [splitRoots, split_packRoots, map_map]
  exact map_id'' (fun r => toBytes32_rootBytes r) l

theorem packRoots_append (l l' : List Root) :
    packRoots (l ++ l') = packRoots l ++ packRoots l' := by
  rw [packRoots, map_append, flatten_append, packRoots, packRoots]

theorem packRoots_singleton (r : Root) : packRoots [r] = rootBytes r := by
  rw [packRoots, map_singleton, flatten_singleton]

theorem packRoots_eq_nil : packRoots l = [] ↔ l = [] := by
  constructor
  · intro h
    rw [← splitRoots_packRoots l, h]
    rfl
  · rintro rfl
    rfl

/-- A search for the root in the list stops at the place of a root. -/
def Aligned (l : List Root) (r : Root) : Prop :=
  ∀ i, indexOf (rootBytes r) (packRoots l) = some i → i % 32 = 0

instance (l : List Root) (r : Root) : Decidable (Aligned l r) :=
  match h : indexOf (rootBytes r) (packRoots l) with
  | none => .isTrue fun _ hi => nomatch h.symm.trans hi
  | some i =>
    if hi : i % 32 = 0 then .isTrue fun _ hj => Option.some.inj (h.symm.trans hj) ▸ hi
    else .isFalse fun hall => hi (hall i h)

theorem cut_packRoots (h : Aligned l r) :
    cut (rootBytes r) (packRoots l) = packRoots (l.erase r) := by
  rw [packRoots, cut_eq_erase (by omega) length_of_mem_rootBytes (length_rootBytes r) h,
    packRoots, map_erase rootBytes_injective]

/-! ### Buckets -/

section Buckets

variable {κ : Type} [Ord κ] [Std.TransOrd κ] [Std.LawfulEqOrd κ] {bkt : IndexBucket κ}

/-- Every key has the bytes of a list of roots that is not empty. -/
def Packed (bkt : IndexBucket κ) : Prop :=
  ∀ k, bkt[k]? = if rootsUnder bkt k = [] then none else some (packRoots (rootsUnder bkt k))

omit [Std.LawfulEqOrd κ] in
theorem rootsUnder_of_getElem? {k : κ}
    (h : bkt[k]? = if l = [] then none else some (packRoots l)) : rootsUnder bkt k = l := by
  rw [rootsUnder, h]
  by_cases hl : l = []
  · rw [if_pos hl, hl]
  · rw [if_neg hl]
    exact splitRoots_packRoots l

omit [Std.LawfulEqOrd κ] in
theorem packed_of_lists {l : κ → List Root}
    (h : ∀ k, bkt[k]? = if l k = [] then none else some (packRoots (l k))) :
    Packed bkt ∧ ∀ k, rootsUnder bkt k = l k := by
  have hroots : ∀ k, rootsUnder bkt k = l k := fun k => rootsUnder_of_getElem? (h k)
  refine ⟨fun k => ?_, hroots⟩
  rw [hroots]
  exact h k

omit [Std.LawfulEqOrd κ] in
theorem packed_empty : Packed (∅ : IndexBucket κ) ∧
    ∀ k : κ, rootsUnder (∅ : IndexBucket κ) k = [] :=
  packed_of_lists fun _ => Std.ExtTreeMap.getElem?_empty

variable [DecidableEq κ]

variable {idx : κ}

theorem Packed.update (h : Packed bkt) (hr : r ∉ rootsUnder bkt idx) :
    ∃ bkt', updateValueForIndex bkt idx r = some bkt' ∧ Packed bkt' ∧
      ∀ k, rootsUnder bkt' k = if k = idx then rootsUnder bkt idx ++ [r] else rootsUnder bkt k := by
  have hupdate : updateValueForIndex bkt idx r =
      some (bkt.insert idx (packRoots (rootsUnder bkt idx ++ [r]))) := by
    rw [updateValueForIndex, h idx]
    by_cases hnil : rootsUnder bkt idx = []
    · rw [if_pos hnil, hnil, nil_append, packRoots_singleton]
    · rw [if_neg hnil]
      dsimp only
      rw [split_packRoots, if_neg, packRoots_append, packRoots_singleton]
      exact fun hmem => hr ((mem_map_of_injective rootBytes_injective).mp hmem)
  refine ⟨_, hupdate, packed_of_lists fun k => ?_⟩
  rw [TreeMap.getElem?_insert]
  by_cases hk : k = idx
  · rw [if_pos hk, if_pos hk, if_neg (by simp)]
  · rw [if_neg hk, if_neg hk]
    exact h k

theorem getElem?_deleteValueForIndex {values : Bytes} (hidx : bkt[idx]? = some values)
    (hne : values ≠ []) (r : Root) (k : κ) :
    (deleteValueForIndex bkt idx r)[k]? =
      if k = idx then
        if cut (rootBytes r) values = [] then none
        else some (cut (rootBytes r) values)
      else bkt[k]? := by
  have hsame : bkt[k]? =
      if k = idx then if values = [] then none else some values else bkt[k]? := by
    by_cases hk : k = idx
    · rw [if_pos hk, if_neg hne, hk, hidx]
    · rw [if_neg hk]
  rw [deleteValueForIndex, hidx]
  dsimp only
  cases hfound : indexOf (rootBytes r) values with
  | none =>
    have hcut : cut (rootBytes r) values = values := by rw [cut, hfound]
    rw [hcut]
    exact hsame
  | some start =>
    dsimp only
    by_cases hstart : start % (rootBytes r).length = 0
    · have hcut : cut (rootBytes r) values =
          values.take start ++ values.drop (start + (rootBytes r).length) := by
        rw [cut, hfound]
        exact if_pos hstart
      rw [hcut, if_neg (not_not.mpr hstart)]
      by_cases hnil : values.take start ++ values.drop (start + (rootBytes r).length) = []
      · rw [if_pos hnil, if_pos (length_eq_zero_iff.mpr hnil), getElem?_erase]
      · rw [if_neg hnil, if_neg (mt length_eq_zero_iff.mp hnil), TreeMap.getElem?_insert]
    · have hcut : cut (rootBytes r) values = values := by
        rw [cut, hfound]
        exact if_neg hstart
      rw [hcut, if_pos hstart]
      exact hsame

theorem Packed.delete (h : Packed bkt) (hr : Aligned (rootsUnder bkt idx) r) :
    Packed (deleteValueForIndex bkt idx r) ∧
      ∀ k, rootsUnder (deleteValueForIndex bkt idx r) k =
        if k = idx then (rootsUnder bkt idx).erase r else rootsUnder bkt k := by
  refine packed_of_lists fun k => ?_
  by_cases hnil : rootsUnder bkt idx = []
  · have hnone : bkt[idx]? = none := by rw [h idx, if_pos hnil]
    rw [deleteValueForIndex, hnone, hnil, erase_nil]
    by_cases hk : k = idx
    · rw [if_pos hk, if_pos rfl, hk, hnone]
    · rw [if_neg hk]
      exact h k
  · have hsome : bkt[idx]? = some (packRoots (rootsUnder bkt idx)) := by rw [h idx, if_neg hnil]
    rw [getElem?_deleteValueForIndex hsome (mt packRoots_eq_nil.mp hnil), cut_packRoots hr]
    by_cases hk : k = idx
    · rw [if_pos hk, if_pos hk]
      exact if_congr packRoots_eq_nil rfl rfl
    · rw [if_neg hk, if_neg hk]
      exact h k

end Buckets

/-! ### Indices of the stored blocks -/

section Lists

variable {β κ : Type} [Ord κ] [Std.TransOrd κ] [Std.LawfulEqOrd κ] [DecidableEq κ]

/-- The index lists the roots of the stored blocks once each, under the given key of the block. -/
structure Lists (blocks : Std.ExtTreeMap Root β) (key : β → κ) (bkt : IndexBucket κ) : Prop where
  packed : Packed bkt
  nodup : ∀ k, (rootsUnder bkt k).Nodup
  mem_iff : ∀ k r, r ∈ rootsUnder bkt k ↔ ∃ b, blocks[r]? = some b ∧ key b = k

variable {blocks : Std.ExtTreeMap Root β} {key : β → κ} {bkt : IndexBucket κ}

omit [Std.LawfulEqOrd κ] [DecidableEq κ] in
theorem Lists.empty : Lists (∅ : Std.ExtTreeMap Root β) key ∅ where
  packed := packed_empty.1
  nodup k := by
    rw [packed_empty.2]
    exact nodup_nil
  mem_iff k r := by
    rw [packed_empty.2]
    simp

omit [Std.LawfulEqOrd κ] [DecidableEq κ] in
theorem Lists.not_mem (h : Lists blocks key bkt) (hr : blocks[r]? = none) (k : κ) :
    r ∉ rootsUnder bkt k := by
  intro hmem
  obtain ⟨b, hb, -⟩ := (h.mem_iff k r).mp hmem
  exact (nomatch hr.symm.trans hb)

theorem Lists.update (h : Lists blocks key bkt) {b : β} (hr : blocks[r]? = none) :
    ∃ bkt', updateValueForIndex bkt (key b) r = some bkt' ∧
      Lists (blocks.insert r b) key bkt' := by
  obtain ⟨bkt', hupdate, hpacked, hroots⟩ := h.packed.update (h.not_mem hr (key b))
  refine ⟨bkt', hupdate, hpacked, fun k => ?_, fun k a => ?_⟩
  · rw [hroots]
    split
    · rw [← concat_eq_append]
      exact Nodup.concat (h.not_mem hr _) (h.nodup _)
    · exact h.nodup k
  · rw [hroots, TreeMap.getElem?_insert]
    by_cases ha : a = r
    · rw [if_pos ha, ha]
      have hnot := h.not_mem hr k
      by_cases hk : k = key b
      · simp [hk]
      · rw [if_neg hk]
        simp [hnot, Ne.symm hk]
    · rw [if_neg ha, ← h.mem_iff]
      by_cases hk : k = key b
      · simp [hk, ha]
      · rw [if_neg hk]

theorem Lists.delete (h : Lists blocks key bkt) {b : β} (hr : blocks[r]? = some b)
    (haligned : Aligned (rootsUnder bkt (key b)) r) :
    Lists (blocks.erase r) key (deleteValueForIndex bkt (key b) r) ∧
      ∀ k, rootsUnder (deleteValueForIndex bkt (key b) r) k =
        (rootsUnder bkt k).filter fun a => decide (a ≠ r) := by
  obtain ⟨hpacked, hroots⟩ := h.packed.delete haligned
  have hfilter : ∀ k, rootsUnder (deleteValueForIndex bkt (key b) r) k =
      (rootsUnder bkt k).filter fun a => decide (a ≠ r) := by
    intro k
    rw [hroots]
    by_cases hk : k = key b
    · rw [if_pos hk, hk, (h.nodup _).erase_eq_filter]
      exact filter_congr fun a _ => Bool.eq_iff_iff.mpr (by simp)
    · rw [if_neg hk]
      refine (filter_eq_self.mpr fun a ha => decide_eq_true ?_).symm
      rintro rfl
      obtain ⟨b', hb', hkey⟩ := (h.mem_iff k a).mp ha
      exact hk (hkey ▸ congrArg key (Option.some.inj (hb'.symm.trans hr)))
  refine ⟨⟨hpacked, fun k => ?_, fun k a => ?_⟩, hfilter⟩
  · rw [hfilter]
    exact (h.nodup k).filter _
  · rw [hfilter, mem_filter, h.mem_iff, getElem?_erase]
    by_cases ha : a = r
    · simp [ha]
    · simp [ha]

end Lists

section Indexed

variable {β : Type} {V : BlockView β} {s : Store β}

/-- Both indices list the stored blocks, which stand under their roots, and the cache has only
stored blocks. -/
structure Indexed (V : BlockView β) (s : Store β) : Prop where
  root_eq : ∀ (r : Root) (b : β), s.blocks[r]? = some b → V.root b = r
  slots : Lists s.blocks V.slot s.blockSlotIndices
  parents : Lists s.blocks V.parentRoot s.blockParentRootIndices
  cached : ∀ (r : Root) (b : β), s.blockCache[r]? = some b → s.blocks[r]? = some b

theorem Indexed.new : Indexed V Store.new where
  root_eq r b h := by simp [Store.new] at h
  slots := .empty
  parents := .empty
  cached r b h := by simp [Store.new] at h

theorem Indexed.saveNext (h : Indexed V s) (x : β × IndexOrder) : Indexed V (s.saveNext V x) := by
  obtain ⟨b, order⟩ := x
  rw [Store.saveNext]
  split
  · exact h
  next hnew =>
    have hnone : s.blocks[V.root b]? = none := contains_eq_false_iff.mp (Bool.eq_false_iff.mpr hnew)
    obtain ⟨slots, hslots, hslots'⟩ := h.slots.update (b := b) hnone
    obtain ⟨parents, hparents, hparents'⟩ := h.parents.update (b := b) hnone
    have hboth : s.updateValueForIndices V order b =
        { s with blockSlotIndices := slots, blockParentRootIndices := parents } := by
      unfold Store.updateValueForIndices
      rw [hslots, hparents]
      cases order with
      | slotFirst => rfl
      | parentRootFirst => rfl
    dsimp only
    rw [hboth]
    refine ⟨fun r b' hb' => ?_, hslots', hparents', fun r b' hb' => ?_⟩
    · dsimp only at hb'
      rw [TreeMap.getElem?_insert] at hb'
      split at hb'
      next hr => rw [hr, Option.some.inj hb']
      · exact h.root_eq r b' hb'
    · dsimp only at hb' ⊢
      rw [TreeMap.getElem?_insert] at hb' ⊢
      split at hb'
      next hr => rw [if_pos hr, hb']
      next hr => rw [if_neg hr, h.cached r b' hb']

theorem Indexed.saveBlocks (h : Indexed V s) (blocks : List (β × IndexOrder)) :
    Indexed V (s.saveBlocks V blocks) :=
  invariant_of_step (fun _ x hs => hs.saveNext x) h blocks

theorem Indexed.saveBlock (h : Indexed V s) (b : β) (order : IndexOrder) :
    Indexed V (s.saveBlock V b order) := by
  rw [Store.saveBlock]
  split
  · exact h
  · exact h.saveBlocks _

theorem Indexed.evict (h : Indexed V s) (r : Root) :
    Indexed V { s with blockCache := s.blockCache.erase r } := by
  refine ⟨h.root_eq, h.slots, h.parents, fun a b hb => h.cached a b ?_⟩
  dsimp only at hb
  rw [getElem?_erase] at hb
  split at hb
  · exact (nomatch hb)
  · exact hb

theorem Indexed.blocks_saveBlock (h : Indexed V s) (b : β) (order : IndexOrder) (r : Root) :
    (s.saveBlock V b order).blocks[r]? = if r = V.root b then some b else s.blocks[r]? := by
  have hstored : s.blocks.contains (V.root b) = true →
      s.blocks[r]? = if r = V.root b then some b else s.blocks[r]? := by
    intro hcontains
    obtain ⟨b', hb'⟩ := TreeMap.contains_iff.mp hcontains
    obtain rfl := V.root_injective (h.root_eq _ b' hb')
    split
    next hr => rw [hr, hb']
    · rfl
  rw [Store.saveBlock]
  split
  next hcached =>
    obtain ⟨b', hb'⟩ := TreeMap.contains_iff.mp hcached
    exact hstored (TreeMap.contains_iff.mpr ⟨b', h.cached _ b' hb'⟩)
  · rw [Store.saveBlocks, foldl_cons, foldl_nil, Store.saveNext]
    split
    next hcontains => exact hstored hcontains
    · have hblocks : (s.updateValueForIndices V order b).blocks = s.blocks := by
        unfold Store.updateValueForIndices
        dsimp only
        split <;> rfl
      dsimp only
      rw [TreeMap.getElem?_insert, hblocks]

end Indexed

end Vanguard.Kv
