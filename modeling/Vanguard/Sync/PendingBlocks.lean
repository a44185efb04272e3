import Vanguard.Basic
import Vanguard.Lib.Run

/-!
The queue of blocks whose parents are missing.

Blocks wait by slot in one structure, and the roots of waiting blocks are marked in another. A
marked block is not queued again, and as a parent it is not requested from peers.
-/

namespace Vanguard.Sync

def maxBlocksPerSlot : ℕ := 3

/-- What the queue reads of a block; different blocks have different roots. -/
structure BlockView (β : Type) where
  slot : β → Slot
  root : β → Root
  root_injective : Function.Injective root

/-- The fields of `sync.Service` that make up the queue. -/
structure PendingQueue (β : Type) where
  slotToPendingBlocks : Slot → Option (List β)
  seenPendingBlocks : Root → Bool

open PendingQueue

variable {β : Type}

def newPendingQueue : PendingQueue β := ⟨fun _ => none, fun _ => false⟩

def PendingQueue.pendingBlocksInCache (q : PendingQueue β) (slot : Slot) : List β :=
  (q.slotToPendingBlocks slot).getD []

def PendingQueue.addPendingBlockToCache (V : BlockView β) (q : PendingQueue β) (b : β) :
    PendingQueue β :=
  let blks := q.pendingBlocksInCache (V.slot b)
  if maxBlocksPerSlot ≤ blks.length then q
  else { q with
    slotToPendingBlocks := Function.update q.slotToPendingBlocks (V.slot b) (some (blks ++ [b])) }

/-- `insertBlockToPendingQueue`; the slot is not read. -/
def PendingQueue.insertBlockToPendingQueue (V : BlockView β) (q : PendingQueue β) (_slot : Slot)
    (b : β) (r : Root) : PendingQueue β :=
  if q.seenPendingBlocks r then q
  else
    let q := q.addPendingBlockToCache V b
    { q with seenPendingBlocks := Function.update q.seenPendingBlocks r true }

/-- `sszutil.DeepEqual` on two queued blocks, where a block is its pointer. Behind other pointers it
compares unexported fields of the messages: first the pointer to the message info, which is nil
(`info` is false) until a message is reflected on, then the size cache, where it panics. -/
def deepEqual [DecidableEq β] (info : β → Bool) (x y : β) : Option Bool :=
  if x = y then some true else if info x = info y then none else some false

/-- `deleteBlockFromPendingQueue`, or none if it panics. -/
def PendingQueue.deleteBlockFromPendingQueue [DecidableEq β] (info : β → Bool) (q : PendingQueue β)
    (slot : Slot) (b : β) (r : Root) : Option (PendingQueue β) := do
  let blks := q.pendingBlocksInCache slot
  if blks.length = 0 then return q
  let newBlks ← blks.foldlM (fun newBlks blk => do
    if ← deepEqual info blk b then return newBlks
    return newBlks ++ [blk]) []
  if newBlks.length = 0 then
    return { q with slotToPendingBlocks := Function.update q.slotToPendingBlocks slot none }
  return {
    slotToPendingBlocks := Function.update q.slotToPendingBlocks slot (some newBlks)
    seenPendingBlocks := Function.update q.seenPendingBlocks r false }

def PendingQueue.clearPendingSlots (_q : PendingQueue β) : PendingQueue β := newPendingQueue

inductive QueueCall (β : Type) where
  | insert (b : β)
  | delete (b : β) (info : β → Bool)
  | clear

/-- The queue after a call, or none once a call has panicked; the slot and the root are those of the
block. -/
def call [DecidableEq β] (V : BlockView β) (q : Option (PendingQueue β)) :
    QueueCall β → Option (PendingQueue β)
  | .insert b => q.map (·.insertBlockToPendingQueue V (V.slot b) b (V.root b))
  | .delete b info => q.bind (·.deleteBlockFromPendingQueue info (V.slot b) b (V.root b))
  | .clear => q.map clearPendingSlots

/-! ### Marks and queued blocks -/

/-- A root is marked if the block with that root is queued, and a block is queued under its own
slot. -/
structure Marked (V : BlockView β) (q : PendingQueue β) : Prop where
  seen_iff : ∀ b, q.seenPendingBlocks (V.root b) = true ↔ b ∈ q.pendingBlocksInCache (V.slot b)
  seen_root : ∀ r, q.seenPendingBlocks r = true → ∃ b, V.root b = r
  slot_eq : ∀ slot, ∀ b ∈ q.pendingBlocksInCache slot, V.slot b = slot

/-- The call adds no unmarked block to a full slot. It deletes from a slot without queued blocks, or
from one with another block, and then every other block has a message info iff the deleted one has
none. -/
def Fits (V : BlockView β) : Option (PendingQueue β) → QueueCall β → Prop
  | none, _ => False
  | some q, .insert b => q.seenPendingBlocks (V.root b) = true ∨
      (q.pendingBlocksInCache (V.slot b)).length < maxBlocksPerSlot
  | some q, .delete b info => q.pendingBlocksInCache (V.slot b) = [] ∨
      (∃ b' ∈ q.pendingBlocksInCache (V.slot b), b' ≠ b) ∧
        ∀ b' ∈ q.pendingBlocksInCache (V.slot b), b' ≠ b → info b' ≠ info b
  | some _, .clear => True

section Steps

variable {V : BlockView β} {q : PendingQueue β} {b : β}

theorem pendingBlocksInCache_update (m : Slot → Option (List β)) (seen : Root → Bool)
    (slot slot' : Slot) (l : Option (List β)) :
    pendingBlocksInCache ⟨Function.update m slot l, seen⟩ slot' =
      if slot' = slot then l.getD [] else pendingBlocksInCache ⟨m, seen⟩ slot' := by
  change (Function.update m slot l slot').getD [] = _
  rw [Function.update_apply]
  split
  · rfl
  · rfl

theorem marked_new (V : BlockView β) : Marked V newPendingQueue where
  seen_iff b := by simp [newPendingQueue, pendingBlocksInCache]
  seen_root r h := by cases h
  slot_eq slot b hb := by simp [newPendingQueue, pendingBlocksInCache] at hb

variable (h : Marked V q)

include h

theorem Marked.update {l : Option (List β)} {mark : Bool} (hmark : mark = true ↔ b ∈ l.getD [])
    (hothers : ∀ b', V.slot b' = V.slot b → b' ≠ b →
      (b' ∈ l.getD [] ↔ b' ∈ q.pendingBlocksInCache (V.slot b)))
    (hslot : ∀ b' ∈ l.getD [], V.slot b' = V.slot b) :
    Marked V ⟨Function.update q.slotToPendingBlocks (V.slot b) l,
      Function.update q.seenPendingBlocks (V.root b) mark⟩ where
  seen_iff b' := by
    rw [pendingBlocksInCache_update]
    change Function.update q.seenPendingBlocks (V.root b) mark (V.root b') = true ↔ _
    rw [Function.update_apply]
    rcases eq_or_ne b' b with rfl | hne
    · rw [if_pos rfl, if_pos rfl, hmark]
    rw [if_neg (V.root_injective.ne hne), h.seen_iff]
    split
    next heq => rw [hothers b' heq hne, heq]
    next => rfl
  seen_root r hr := by
    change Function.update q.seenPendingBlocks (V.root b) mark r = true at hr
    rw [Function.update_apply] at hr
    split at hr
    next heq => exact ⟨b, heq.symm⟩
    next => exact h.seen_root r hr
  slot_eq slot b' hb' := by
    rw [pendingBlocksInCache_update] at hb'
    split at hb'
    next heq => rw [heq, hslot b' hb']
    next => exact h.slot_eq slot b' hb'

theorem Marked.insert (hfits : Fits V (some q) (.insert b)) :
    Marked V (q.insertBlockToPendingQueue V (V.slot b) b (V.root b)) := by
  rw [insertBlockToPendingQueue]
  split
  · exact h
  next hunseen =>
    have hroom := not_le.mpr (hfits.resolve_left hunseen)
    rw [addPendingBlockToCache, if_neg hroom]
    refine h.update ?_ ?_ ?_
    · simp
    · intro b' _ hne
      simp [hne]
    · intro b' hb'
      rcases List.mem_append.mp hb' with hb' | hb'
      · exact h.slot_eq _ b' hb'
      · rw [List.mem_singleton.mp hb']

omit h in
theorem newBlks_eq [DecidableEq β] {info : β → Bool} {blks : List β}
    (happart : ∀ b' ∈ blks, b' ≠ b → info b' ≠ info b) (acc : List β) :
    blks.foldlM (fun newBlks blk => do
      if ← deepEqual info blk b then return newBlks
      return newBlks ++ [blk]) acc = some (acc ++ blks.filter (· ≠ b)) := by
  induction blks generalizing acc with
  | nil => simp
  | cons blk blks ih =>
    obtain ⟨hblk, happart⟩ := List.forall_mem_cons.mp happart
    rw [List.foldlM_cons]
    rcases eq_or_ne blk b with rfl | hne
    · rw [deepEqual, if_pos rfl, List.filter_cons_of_neg (by simp)]
      exact ih happart acc
    · rw [deepEqual, if_neg hne, if_neg (hblk hne), List.filter_cons_of_pos (by simp [hne])]
      exact (ih happart (acc ++ [blk])).trans (congrArg some (List.append_assoc ..))

theorem Marked.delete [DecidableEq β] {info : β → Bool} (hfits : Fits V (some q) (.delete b info)) :
    ∃ q', q.deleteBlockFromPendingQueue info (V.slot b) b (V.root b) = some q' ∧ Marked V q' := by
  rw [deleteBlockFromPendingQueue]
  rcases hfits with hempty | ⟨⟨b', hb', hne⟩, happart⟩
  · exact ⟨q, by simp [hempty], h⟩
  have hleft : b' ∈ (q.pendingBlocksInCache (V.slot b)).filter (· ≠ b) :=
    List.mem_filter.mpr ⟨hb', decide_eq_true hne⟩
  rw [if_neg (List.length_pos_of_mem hb').ne', newBlks_eq happart]
  refine ⟨_, if_neg (List.length_pos_of_mem hleft).ne', h.update ?_ ?_ ?_⟩
  · simp
  · intro b'' _ hne'
    simp [hne']
  · intro b'' hb''
    exact h.slot_eq _ b'' (List.mem_of_mem_filter hb'')

theorem Marked.call [DecidableEq β] {c : QueueCall β} (hfits : Fits V (some q) c) :
    ∃ q', Sync.call V (some q) c = some q' ∧ Marked V q' := by
  cases c with
  | insert b => exact ⟨_, rfl, h.insert hfits⟩
  | delete b info => exact h.delete hfits
  | clear => exact ⟨_, rfl, marked_new V⟩

end Steps

/-- After any calls that fit none has panicked, and a root is marked iff the block with that root is
among the queued blocks of its slot. -/
theorem seen_iff_pending [DecidableEq β] (V : BlockView β) (calls : List (QueueCall β))
    (hfits : Run.Admits (call V) (Fits V) (some newPendingQueue) calls) :
    ∃ q, calls.foldl (call V) (some newPendingQueue) = some q ∧ ∀ r,
      q.seenPendingBlocks r = true ↔
        ∃ b, V.root b = r ∧ b ∈ q.pendingBlocksInCache (V.slot b) := by
  have hstep : ∀ o c, (∃ q, o = some q ∧ Marked V q) → Fits V o c →
      ∃ q, call V o c = some q ∧ Marked V q := by
    rintro _ c ⟨q, rfl, hq⟩ hc
    exact hq.call hc
  obtain ⟨q, hq, hmarked⟩ := Run.invariant hstep ⟨_, rfl, marked_new V⟩ hfits
  refine ⟨q, hq, fun r => ⟨fun hr => ?_, ?_⟩⟩
  · obtain ⟨b, rfl⟩ := hmarked.seen_root r hr
    exact ⟨b, rfl, (hmarked.seen_iff b).mp hr⟩
  · rintro ⟨b, rfl, hb⟩
    exact (hmarked.seen_iff b).mpr hb

/-- Four blocks of one slot. -/
def fourBlocks : BlockView (Fin 4) where
  slot _ := 7
  root b := BitVec.ofNat 256 b
  root_injective := by decide

theorem seen_iff_pending_two :
    ∃ q, ([.insert 0, .insert 1, .delete 0 (· = 0), .insert 2] : List (QueueCall (Fin 4))).foldl
        (call fourBlocks) (some newPendingQueue) = some q ∧ ∀ r,
      q.seenPendingBlocks r = true ↔
        ∃ b, fourBlocks.root b = r ∧ b ∈ q.pendingBlocksInCache (fourBlocks.slot b) :=
  seen_iff_pending fourBlocks [.insert 0, .insert 1, .delete 0 (· = 0), .insert 2]
    ⟨Or.inr (by decide), Or.inr (by decide), Or.inr ⟨⟨1, by decide, by decide⟩, by decide⟩,
      Or.inr (by decide), trivial⟩

/-- The mark of the only block of a slot stays when the block is deleted, so that the block cannot
be queued again; a fourth block of a slot is marked without being queued; and the deletion of one of
two blocks panics. -/
theorem mark_outlives_block :
    let after (calls : List (QueueCall (Fin 4))) :=
      (calls.foldl (call fourBlocks) (some newPendingQueue)).map fun q =>
        (q.pendingBlocksInCache 7, q.seenPendingBlocks 0, q.seenPendingBlocks 3)
    after [.insert 0, .delete 0 fun _ => false] = some ([], true, false) ∧
    after [.insert 0, .delete 0 fun _ => false, .insert 0] = some ([], true, false) ∧
    after [.insert 0, .insert 1, .insert 2, .insert 3] = some ([0, 1, 2], true, true) ∧
    after [.insert 0, .insert 1, .delete 0 fun _ => false] = none := by
  decide

end Vanguard.Sync
