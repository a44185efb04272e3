import Vanguard.Blockchain.Types
import Vanguard.Lib.EState
import Vanguard.Lib.Fallible
import Vanguard.Lib.Lru

/-!
The state manager: where post states are kept, and how a state that is not kept
is regenerated from the last available state of an ancestor.

Beacon states are mutable objects. The hot-state cache holds references to
them, all other places hold copies of their own. An object is a number, and
`heap` has its contents.

Slot, epoch and block processing are taken as given (`Transition`); of a state
the manager itself reads only the slot. Contexts are never cancelled except in
the loop of `migrateToCold`, and the database does not fail.
-/

namespace Vanguard.StateGen

open Blockchain (Block)

/-- What can go wrong. `nilPointer` stands for a runtime panic and `outOfFuel`
for a walk over parents that does not end. -/
inductive Err where
  | unknownState
  | unknownBoundaryState
  | unknownBlock
  /-- "could not find block in DB" -/
  | blockNotInDB
  /-- "start slot %d >= end slot %d" -/
  | invalidRange (startSlot endSlot : Slot)
  /-- "end block roots don't match" -/
  | endRootsDiffer
  /-- "expected state.slot %d < slot %d" -/
  | stateAfterSlot (stateSlot slot : Slot)
  /-- An error of slot, epoch or block processing. -/
  | transition (message : String)
  | cancelled
  | nilPointer
  | outOfFuel
  | wrapped (message : String) (cause : Err)
  deriving DecidableEq, Repr

/-- The state transition as the manager uses it. Only `setSlot` moves the slot
of a state. -/
structure Transition (σ : Type) where
  slot : σ → Slot
  setSlot : σ → Slot → σ
  processSlot : σ → Except Err σ
  canProcessEpoch : σ → Bool
  processEpochPrecompute : σ → Except Err σ
  processBlockForStateRoot : σ → Block → Except Err σ
  slot_setSlot : ∀ st n, slot (setSlot st n) = n
  slot_processSlot : ∀ {st st'}, processSlot st = .ok st' → slot st' = slot st
  slot_processEpochPrecompute : ∀ {st st'}, processEpochPrecompute st = .ok st' →
    slot st' = slot st
  slot_processBlockForStateRoot : ∀ {st b st'}, processBlockForStateRoot st b = .ok st' →
    slot st' = slot st

abbrev Ref := ℕ

/-! ### The database -/

/-- The buckets of the database that the manager uses. -/
structure DB (σ : Type) where
  blocks : List (Root × Block)
  /-- `blockSlotIndicesBucket`: the roots of each slot, in the order of slots and
  in a slot in the order they were saved. -/
  blockSlotIndices : List (Slot × List Root)
  states : List (Root × σ)
  stateSummaries : List (Root × Slot)
  genesisBlockRoot : Root
  deriving DecidableEq, Repr

namespace DB

variable {σ : Type}

def block (db : DB σ) (r : Root) : Option Block := db.blocks.lookup r

def state (db : DB σ) (r : Root) : Option σ := db.states.lookup r

def genesisState (db : DB σ) : Option σ := db.state db.genesisBlockRoot

/-- `StateSummary`, of which only the slot differs from the key. -/
def stateSummary (db : DB σ) (r : Root) : Option Slot := db.stateSummaries.lookup r

/-- `updateValueForIndices` on the bucket of slots. -/
def updateValueForIndices (slot : Slot) (root : Root) :
    List (Slot × List Root) → List (Slot × List Root)
  | [] => [(slot, [root])]
  | (s, roots) :: rest =>
    if slot < s then (slot, [root]) :: (s, roots) :: rest
    else if slot = s then
      if root ∈ roots then (s, roots) :: rest else (s, roots ++ [root]) :: rest
    else (s, roots) :: updateValueForIndices slot root rest

/-- `SaveBlock` of a block with the given hash tree root. -/
def saveBlock (db : DB σ) (root : Root) (b : Block) : DB σ :=
  if (db.block root).isSome then db
  else
    { db with
      blocks := db.blocks ++ [(root, b)]
      blockSlotIndices := updateValueForIndices b.slot root db.blockSlotIndices }

def saveState (db : DB σ) (st : σ) (root : Root) : DB σ :=
  { db with states := (root, st) :: db.states.filter fun x => decide (x.1 ≠ root) }

def saveStateSummary (db : DB σ) (slot : Slot) (root : Root) : DB σ :=
  { db with
    stateSummaries := (root, slot) :: db.stateSummaries.filter fun x => decide (x.1 ≠ root) }

def blockRootsBySlotRange (db : DB σ) (startSlot endSlot : Slot) : List Root :=
  ((db.blockSlotIndices.filter fun x => decide (startSlot ≤ x.1 ∧ x.1 ≤ endSlot)).map
    Prod.snd).flatten

/-- `Blocks` for a range of slots. -/
def blocksInRange (db : DB σ) (startSlot endSlot : Slot) : Except Err (List (Root × Block)) :=
  (db.blockRootsBySlotRange startSlot endSlot).mapM fun r =>
    match db.block r with
    | none => .error .unknownBlock
    | some b => .ok (r, b)

/-- `HighestSlotBlocksBelow`, which returns one block: the one saved first in the
last slot below the given one that has any, or the genesis block. -/
def highestSlotBlocksBelow (db : DB σ) (slot : Slot) : Option (Root × Block) :=
  let best := ((db.blockSlotIndices.takeWhile fun x => decide (x.1 < slot)).getLast?).bind
    fun x => x.2.head?
  let stored := best.bind fun r => (db.block r).map (r, ·)
  stored.or ((db.block db.genesisBlockRoot).map (db.genesisBlockRoot, ·))

end DB

/-! ### Replaying blocks -/

section Replay

variable {σ : Type} (T : Transition σ)

/-- `errors.Wrap` -/
def errorsWrap {α : Type} (x : Except Err α) (message : String) : Except Err α :=
  match x with
  | .ok a => .ok a
  | .error e => .error (.wrapped message e)

@[simp] theorem errorsWrap_eq_ok {α : Type} {x : Except Err α} {message : String} {a : α} :
    errorsWrap x message = .ok a ↔ x = .ok a := by
  cases x <;> simp [errorsWrap]

/-- The end of an epoch in `processSlotsStateGen`. -/
def processEpochEnd (st : σ) : Except Err σ :=
  if T.canProcessEpoch st then
    errorsWrap (T.processEpochPrecompute st) "could not process epoch with optimizations"
  else .ok st

/-- A round of the loop of `processSlotsStateGen`. -/
def processNextSlot (st : σ) : Except Err σ := do
  let st ← errorsWrap (T.processSlot st) "could not process slot"
  let st ← processEpochEnd T st
  .ok (T.setSlot st (T.slot st + 1))

/-- The loop of `processSlotsStateGen`. A round moves the slot on by one, so that
the difference of the slots is fuel enough. -/
def processSlotsLoop (slot : Slot) : ℕ → σ → Except Err σ
  | 0, st => .ok st
  | fuel + 1, st =>
    if T.slot st < slot then do
      let st ← processNextSlot T st
      processSlotsLoop slot fuel st
    else .ok st

def processSlotsStateGen (st : σ) (slot : Slot) : Except Err σ :=
  if slot < T.slot st then .error (.stateAfterSlot (T.slot st) slot)
  else processSlotsLoop T slot (slot.toNat - (T.slot st).toNat) st

def executeStateTransitionStateGen (st : σ) (b : Block) : Except Err σ := do
  let st ← errorsWrap (processSlotsStateGen T st b.slot) "could not process slot"
  errorsWrap (T.processBlockForStateRoot st b) "could not process block"

/-- The loop of `ReplayBlocks`, over the blocks with the lowest slot first. -/
def replayLoop (targetSlot : Slot) : σ → List Block → Except Err σ
  | st, [] => .ok st
  | st, b :: rest =>
    if targetSlot ≤ T.slot st then .ok st
    else if b.slot ≤ T.slot st then replayLoop targetSlot st rest
    else do
      let st ← executeStateTransitionStateGen T st b
      replayLoop targetSlot st rest

/-- `ReplayBlocks`: the given blocks are sorted by decreasing slots. -/
def replayBlocks (st : σ) (signed : List Block) (targetSlot : Slot) : Except Err σ := do
  let st ← replayLoop T targetSlot st signed.reverse
  if T.slot st < targetSlot then processSlotsStateGen T st targetSlot else .ok st

/-- The first loop of `LoadBlocks`: how many of the blocks are left when those of
the last slot after the end block are dropped. -/
def endLength (blocks : List (Root × Block)) (endBlockRoot : Root) : ℕ → ℕ
  | n + 3 =>
    if blocks[n + 2]?.map (fun x => x.2.slot) = blocks[n + 1]?.map (fun x => x.2.slot) ∧
        blocks[n + 2]?.map Prod.fst ≠ some endBlockRoot then
      if blocks[n]?.map Prod.fst = some endBlockRoot then n + 1
      else endLength blocks endBlockRoot (n + 2)
    else n + 3
  | n => n

/-- The second loop of `LoadBlocks`, downwards from the end block: the blocks that
are the parent of the last one taken. -/
def filterAncestors : Root → List (Root × Block) → List Block
  | _, [] => []
  | parentRoot, (r, b) :: rest =>
    if parentRoot ≠ r then filterAncestors parentRoot rest
    else b :: filterAncestors b.parentRoot rest

/-- `LoadBlocks` once the blocks of the range are read. -/
def branchOf (blocks : List (Root × Block)) (endBlockRoot : Root) : Except Err (List Block) :=
  match (blocks.take (endLength blocks endBlockRoot blocks.length)).reverse with
  | [] => .ok []
  | (r, b) :: rest =>
    if r ≠ endBlockRoot then .error .endRootsDiffer
    else .ok (b :: filterAncestors b.parentRoot rest)

def loadBlocks (db : DB σ) (startSlot endSlot : Slot) (endBlockRoot : Root) :
    Except Err (List Block) :=
  if endSlot < startSlot then .error (.invalidRange startSlot endSlot)
  else do
    let blocks ← db.blocksInRange startSlot endSlot
    branchOf blocks endBlockRoot

end Replay

/-! ### The caches -/

/-- `epochBoundaryState`: two queues with the oldest entry first. -/
structure EpochBoundaryState (σ : Type) where
  rootStateCache : List (Root × σ)
  slotRootCache : List (Slot × Root)
  deriving DecidableEq, Repr

def maxCacheSize : ℕ := 8

/-- `AddIfNotPresent` of a queue. -/
def addIfNotPresent {κ ν : Type} [DecidableEq κ] (queue : List (κ × ν)) (k : κ) (v : ν) :
    List (κ × ν) :=
  if (queue.lookup k).isSome then queue else queue ++ [(k, v)]

def trim {α : Type} (queue : List α) (maxSize : ℕ) : List α := queue.drop (queue.length - maxSize)

namespace EpochBoundaryState

variable {σ : Type}

def getByRoot (e : EpochBoundaryState σ) (r : Root) : Option σ := e.rootStateCache.lookup r

def getBySlot (e : EpochBoundaryState σ) (s : Slot) : Option (Root × σ) :=
  (e.slotRootCache.lookup s).bind fun r => (e.getByRoot r).map (r, ·)

def put (e : EpochBoundaryState σ) (r : Root) (slot : Slot) (st : σ) : EpochBoundaryState σ where
  rootStateCache := trim (addIfNotPresent e.rootStateCache r st) maxCacheSize
  slotRootCache := trim (addIfNotPresent e.slotRootCache slot r) maxCacheSize

end EpochBoundaryState

structure FinalizedInfo (σ : Type) where
  slot : Slot
  root : Root
  state : Option σ
  deriving DecidableEq, Repr

structure SaveHotStateDbConfig where
  enabled : Bool
  duration : Slot
  savedStateRoots : List Root
  deriving DecidableEq, Repr

/-- `State`, with its database and the contents of all state objects. -/
structure Manager (σ : Type) where
  beaconDB : DB σ
  slotsPerArchivedPoint : Slot
  hotStateCache : Lru Root Ref
  finalizedInfo : FinalizedInfo σ
  epochBoundaryStateCache : EpochBoundaryState σ
  saveHotStateDB : SaveHotStateDbConfig
  heap : List σ

abbrev StateGenM (σ : Type) := EStateM Err (Manager σ)

def hotStateCacheSize : ℕ := 32

def defaultHotStateDBInterval : Slot := 128

def new {σ : Type} (beaconDB : DB σ) (slotsPerArchivedPoint : Slot) : Manager σ where
  beaconDB := beaconDB
  slotsPerArchivedPoint := slotsPerArchivedPoint
  hotStateCache := Lru.new hotStateCacheSize
  finalizedInfo := ⟨0, zeroHash, none⟩
  epochBoundaryStateCache := ⟨[], []⟩
  saveHotStateDB := ⟨false, defaultHotStateDBInterval, []⟩
  heap := []

def isEpochStart (slot : Slot) : Bool := slot % 32 = 0

section Manager

variable {σ : Type} (T : Transition σ)

/-- An error value of a called function. -/
def ofExcept {α : Type} : Except Err α → StateGenM σ α
  | .ok a => pure a
  | .error e => throw e

def wrap {α : Type} (x : StateGenM σ α) (message : String) : StateGenM σ α := fun w =>
  match x w with
  | .ok a w' => .ok a w'
  | .error e w' => .error (.wrapped message e) w'

/-- A new object with the given contents. -/
def alloc (st : σ) : StateGenM σ Ref := do
  let w ← get
  set { w with heap := w.heap ++ [st] }
  pure w.heap.length

def contents (ref : Ref) : StateGenM σ σ := do
  let w ← get
  match w.heap[ref]? with
  | none => throw .nilPointer
  | some st => pure st

/-- `has` of the hot-state cache. -/
def Manager.hasHotState (w : Manager σ) (r : Root) : Bool := (w.hotStateCache.peek r).isSome

/-- `getWithoutCopy` of the hot-state cache. -/
def getHotStateWithoutCopy (r : Root) : StateGenM σ (Option Ref) := do
  let w ← get
  set { w with hotStateCache := (w.hotStateCache.get r).2 }
  pure (w.hotStateCache.get r).1

/-- `get` of the hot-state cache, which copies the state. -/
def getHotState (r : Root) : StateGenM σ (Option σ) := do
  match ← getHotStateWithoutCopy r with
  | none => pure none
  | some ref => some <$> contents ref

/-- `put` of the hot-state cache. -/
def putHotState (r : Root) (ref : Ref) : StateGenM σ Unit :=
  modify fun w => { w with hotStateCache := (w.hotStateCache.add r ref).1 }

/-- `delete` of the hot-state cache. -/
def deleteHotState (r : Root) : StateGenM σ Unit :=
  modify fun w => { w with hotStateCache := (w.hotStateCache.remove r).1 }

/-- `finalizedState` calls a method of the state, so that there has to be one. -/
def finalizedState : StateGenM σ (Option σ) := do
  let w ← get
  match w.finalizedInfo.state with
  | none => throw .nilPointer
  | some st => pure (some st)

/-- The loop of `lastAncestorState` over the parents. -/
def lastAncestorLoop : ℕ → Block → StateGenM σ (Option σ)
  | 0, _ => throw .outOfFuel
  | fuel + 1, b => do
    let w ← get
    if b.parentRoot = zeroHash then pure w.beaconDB.genesisState
    else if w.hasHotState b.parentRoot then getHotState b.parentRoot
    else if b.parentRoot = w.finalizedInfo.root then finalizedState
    else
      match w.epochBoundaryStateCache.getByRoot b.parentRoot with
      | some st => pure (some st)
      | none =>
        match w.beaconDB.state b.parentRoot with
        | some st => pure (some st)
        | none =>
          match w.beaconDB.block b.parentRoot with
          | none => throw .unknownBlock
          | some parent => lastAncestorLoop fuel parent

def lastAncestorState (root : Root) : StateGenM σ (Option σ) := do
  let w ← get
  if root = w.finalizedInfo.root then finalizedState
  else
    match w.beaconDB.block root with
    | none => throw .unknownBlock
    | some b => lastAncestorLoop (w.beaconDB.blocks.length + 1) b

def recoverStateSummary (r : Root) : StateGenM σ Slot := do
  let w ← get
  match w.beaconDB.block r with
  | none => throw .blockNotInDB
  | some b =>
    set { w with beaconDB := w.beaconDB.saveStateSummary b.slot r }
    pure b.slot

/-- `stateSummary`, of which the slot is used. -/
def stateSummary (r : Root) : StateGenM σ Slot := do
  let w ← get
  match w.beaconDB.stateSummary r with
  | none => recoverStateSummary r
  | some slot => pure slot

/-- The end of `loadStateByRoot` and of `StateByRootInitialSync`: the blocks from
a state of an ancestor up to the target. -/
def replayFrom (startState : σ) (targetSlot : Slot) (root : Root) (loadMessage : String)
    (replayMessage : Option String) : StateGenM σ σ := do
  let w ← get
  if T.slot startState = targetSlot then pure startState
  else do
    let blks ← wrap (ofExcept (loadBlocks w.beaconDB (T.slot startState + 1) targetSlot root))
      loadMessage
    let replayed := ofExcept (replayBlocks T startState blks targetSlot)
    match replayMessage with
    | none => replayed
    | some message => wrap replayed message

/-- `loadStateByRoot` past the hot-state cache. -/
def loadColdStateByRoot (r : Root) : StateGenM σ (Option σ) := do
  let w ← get
  match w.epochBoundaryStateCache.getByRoot r with
  | some st => pure (some st)
  | none =>
    match w.beaconDB.state r with
    | some st => pure (some st)
    | none => do
      let targetSlot ← wrap (stateSummary r) "could not get state summary"
      match ← wrap (lastAncestorState r) "could not get ancestor state" with
      | none => throw .unknownBoundaryState
      | some startState =>
        some <$> replayFrom T startState targetSlot r
          "could not load blocks for hot state using root" none

def loadStateByRoot (r : Root) : StateGenM σ (Option σ) := do
  match ← getHotState r with
  | some st => pure (some st)
  | none => loadColdStateByRoot T r

def stateByRoot (r : Root) : StateGenM σ (Option σ) := do
  let w ← get
  if r = zeroHash then pure (w.beaconDB.state r) else loadStateByRoot T r

/-- `StateByRootInitialSync` for a state that is not in the hot-state cache. -/
def regenerateInitialSync (r : Root) : StateGenM σ σ := do
  let w ← get
  match w.epochBoundaryStateCache.getByRoot r with
  | some st => pure st
  | none =>
    match ← wrap (lastAncestorState r) "could not get ancestor state" with
    | none => throw .unknownState
    | some startState => do
      let targetSlot ← wrap (stateSummary r) "could not get state summary"
      replayFrom T startState targetSlot r "could not load blocks" "could not replay blocks"

/-- `defer` -/
def deferred {α : Type} (x : StateGenM σ α) (cleanUp : StateGenM σ Unit) : StateGenM σ α := fun w =>
  match x w with
  | .ok a w' => (do cleanUp; pure a : StateGenM σ α) w'
  | .error e w' => (do cleanUp; throw e : StateGenM σ α) w'

/-- `StateByRootInitialSync`, which hands out the object of the hot-state cache
itself. Any other state it returns is a new object. -/
def stateByRootInitialSync (r : Root) : StateGenM σ (Option Ref) := do
  let w ← get
  if r = zeroHash then
    match w.beaconDB.state r with
    | none => pure none
    | some st => some <$> alloc st
  else
    deferred
      (if w.hasHotState r then getHotStateWithoutCopy r
      else do
        let st ← regenerateInitialSync T r
        some <$> alloc st)
      (deleteHotState r)

def Manager.hasState (w : Manager σ) (r : Root) : Bool :=
  w.hasHotState r || (w.epochBoundaryStateCache.getByRoot r).isSome || (w.beaconDB.state r).isSome

/-- The part of `saveStateByRoot` that saves hot states to the database when
finality is late. -/
def saveHotStateToDB (r : Root) (st : σ) : StateGenM σ Unit := do
  let w ← get
  if w.saveHotStateDB.enabled ∧ (T.slot st).toNat % max w.saveHotStateDB.duration.toNat 1 = 0 then
    set { w with
      beaconDB := w.beaconDB.saveState st r
      saveHotStateDB := { w.saveHotStateDB with
        savedStateRoots := w.saveHotStateDB.savedStateRoots ++ [r] } }
  else pure ()

def saveState (r : Root) (ref : Ref) : StateGenM σ Unit := do
  let st ← contents ref
  saveHotStateToDB T r st
  let w ← get
  if w.hasHotState r then pure ()
  else do
    if isEpochStart (T.slot st) then
      modify fun w => { w with
        epochBoundaryStateCache := w.epochBoundaryStateCache.put r (T.slot st) st }
    modify fun w => { w with beaconDB := w.beaconDB.saveStateSummary (T.slot st) r }
    putHotState r ref

def saveFinalizedState (fSlot : Slot) (fRoot : Root) (fState : σ) : StateGenM σ Unit :=
  modify fun w => { w with finalizedInfo := ⟨fSlot, fRoot, some fState⟩ }

def enableSaveHotStateToDB : StateGenM σ Unit :=
  modify fun w => { w with saveHotStateDB := { w.saveHotStateDB with enabled := true } }

/-! ### Migration -/

/-- The state that `MigrateToCold` archives for a slot. A state that is in the
database is not generated again. -/
def archivedState (slot : Slot) : StateGenM σ (Root × Option σ) := do
  let w ← get
  match w.epochBoundaryStateCache.getBySlot slot with
  | some (r, st) => pure (r, some st)
  | none =>
    match w.beaconDB.highestSlotBlocksBelow slot with
    | none => throw .nilPointer
    | some (r, _) =>
      if (w.beaconDB.state r).isSome then pure (r, none)
      else do
        let st ← stateByRoot T r
        pure (r, st)

/-- The body of the loop of `MigrateToCold` at an archived point. -/
def archive (slot : Slot) : StateGenM σ Unit := do
  let (aRoot, aState) ← archivedState T slot
  let w ← get
  if (w.beaconDB.state aRoot).isSome then
    set { w with saveHotStateDB := { w.saveHotStateDB with
      savedStateRoots := w.saveHotStateDB.savedStateRoots.erase aRoot } }
  else
    match aState with
    | none => throw .nilPointer
    | some st => set { w with beaconDB := w.beaconDB.saveState st aRoot }

/-- The loop of `MigrateToCold`, over the slots that are left. -/
def migrateLoop (ctx : Ctx) (slotsPerArchivedPoint : Slot) : ℕ → Slot → ℕ → StateGenM σ Unit
  | 0, _, _ => pure ()
  | n + 1, slot, poll => do
    if ctx.err poll then throw .cancelled
    -- the remainder panics
    else if slotsPerArchivedPoint = 0 then throw .nilPointer
    else do
      if slot % slotsPerArchivedPoint = 0 ∧ slot ≠ 0 then archive T slot
      migrateLoop ctx slotsPerArchivedPoint n (slot + 1) (poll + 1)

def migrateToCold (ctx : Ctx) (fRoot : Root) : StateGenM σ Unit := do
  let w ← get
  match w.beaconDB.block fRoot with
  | none => throw .nilPointer
  | some fBlock =>
    if fBlock.slot < w.finalizedInfo.slot then pure ()
    else do
      migrateLoop T ctx w.slotsPerArchivedPoint (fBlock.slot.toNat - w.finalizedInfo.slot.toNat)
        w.finalizedInfo.slot 0
      let w ← get
      match w.epochBoundaryStateCache.getByRoot fRoot with
      | none => pure ()
      | some st => saveFinalizedState fBlock.slot fRoot st

end Manager

end Vanguard.StateGen
