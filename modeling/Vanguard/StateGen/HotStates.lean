import Vanguard.StateGen.Regeneration

/-!
The mode that saves hot states to the database while finality is late.

The roots of the states it saves are listed, and leaving the mode deletes the states in the list.
The migration takes the first occurrence of an archived root out of the list. So the mode leaves
nothing behind and takes no archived state with it as long as a root is listed once and not archived
before, and none of the listed roots is protected when the mode ends.
-/

namespace Vanguard.StateGen

open List

open Blockchain (Block)
open EState Run

variable {σ : Type}

/-! ### Deleting states -/

inductive DeleteErr where
  /-- "cannot delete genesis, finalized, or head state" -/
  | protectedState
  /-- "state enc can't be nil" -/
  | noState
  deriving DecidableEq, Repr

/-- What the database has under `finalizedCheckpointKey` and `headBlockRootKey`. -/
structure ChainRoots where
  finalized : Option Root
  head : Option Root
  deriving DecidableEq, Repr

namespace DB

/-- The safe guard of `DeleteState`. Without a finalized checkpoint it is the genesis block. -/
def protects (db : DB σ) (roots : ChainRoots) (r : Root) : Bool :=
  decide (r = roots.finalized.getD db.genesisBlockRoot) || decide (r = db.genesisBlockRoot) ||
    decide (roots.head = some r)

/-- `slotByBlockRoot` finds a slot. -/
def hasSlot (db : DB σ) (r : Root) : Bool :=
  (db.stateSummary r).isSome || (db.block r).isSome || (db.state r).isSome

def withoutState (db : DB σ) (r : Root) : DB σ :=
  { db with states := db.states.filter fun x => decide (x.1 ≠ r) }

theorem state_withoutState (db : DB σ) (r a : Root) :
    (db.withoutState r).state a = if a = r then none else db.state a := by
  rw [state, state, withoutState, Lru.lookup_filter_ne]

def deleteState (roots : ChainRoots) (db : DB σ) (r : Root) : Except DeleteErr (DB σ) :=
  if db.protects roots r then .error .protectedState
  else if db.hasSlot r then .ok (db.withoutState r)
  else .error .noState

/-- `DeleteStates`, one transaction for each root. -/
def deleteStates (roots : ChainRoots) : List Root → EStateM DeleteErr (DB σ) Unit
  | [] => pure ()
  | r :: rest => fun db =>
    match db.deleteState roots r with
    | .error e => .error e db
    | .ok db' => deleteStates roots rest db'

end DB

def disableSaveHotStateToDB (roots : ChainRoots) : EStateM DeleteErr (Manager σ) Unit := fun w =>
  if w.saveHotStateDB.enabled then
    match DB.deleteStates roots w.saveHotStateDB.savedStateRoots w.beaconDB with
    | .error e db => .error e { w with
        beaconDB := db
        saveHotStateDB := { w.saveHotStateDB with enabled := false } }
    | .ok () db => .ok () { w with
        beaconDB := db
        saveHotStateDB := { w.saveHotStateDB with enabled := false, savedStateRoots := [] } }
  else .ok () w

/-! ### Runs -/

/-- A call, with the head and the finalized root where it reads them. -/
inductive ModeCall (σ : Type) where
  | enableSaveHotStateToDB
  | saveState (r : Root) (st : σ)
  | migrateToCold (ctx : Ctx) (fRoot : Root)
  | disableSaveHotStateToDB (roots : ChainRoots)
  | saveBlock (r : Root) (b : Block)

section Runs

variable (T : Transition σ)

/-- `archive` with the root that it finds in the database or saves. -/
def archivePoint (slot : Slot) : StateGenM σ Root := do
  let (aRoot, aState) ← archivedState T slot
  let w ← get
  if (w.beaconDB.state aRoot).isSome then
    set { w with saveHotStateDB := { w.saveHotStateDB with
      savedStateRoots := w.saveHotStateDB.savedStateRoots.erase aRoot } }
    pure aRoot
  else
    match aState with
    | none => throw .nilPointer
    | some st =>
      set { w with beaconDB := w.beaconDB.saveState st aRoot }
      pure aRoot

/-- The roots of the rounds of `migrateLoop` that return. -/
def archivedInLoop (ctx : Ctx) (slotsPerArchivedPoint : Slot) : ℕ → Slot → ℕ → Manager σ → List Root
  | 0, _, _, _ => []
  | n + 1, slot, poll, w =>
    if ctx.err poll then []
    else if slotsPerArchivedPoint = 0 then []
    else if slot % slotsPerArchivedPoint = 0 ∧ slot ≠ 0 then
      match archivePoint T slot w with
      | .ok r w' => r :: archivedInLoop ctx slotsPerArchivedPoint n (slot + 1) (poll + 1) w'
      | .error _ _ => []
    else archivedInLoop ctx slotsPerArchivedPoint n (slot + 1) (poll + 1) w

/-- The roots of the archived points that a call of `MigrateToCold` finds or saves. -/
def archivedBy (ctx : Ctx) (fRoot : Root) (w : Manager σ) : List Root :=
  match w.beaconDB.block fRoot with
  | none => []
  | some fBlock =>
    if fBlock.slot < w.finalizedInfo.slot then []
    else archivedInLoop T ctx w.slotsPerArchivedPoint
      (fBlock.slot.toNat - w.finalizedInfo.slot.toNat) w.finalizedInfo.slot 0 w

/-- `SaveState` writes the state to the database because of the mode. -/
def Manager.savesHot (w : Manager σ) (st : σ) : Prop :=
  w.saveHotStateDB.enabled ∧ (T.slot st).toNat % max w.saveHotStateDB.duration.toNat 1 = 0

instance (w : Manager σ) (st : σ) : Decidable (w.savesHot T st) :=
  inferInstanceAs (Decidable (_ ∧ _))

/-- A manager with the roots under which the mode has written states so far, and those of the
archived points that were found or saved. -/
structure Tracked (σ : Type) where
  manager : Manager σ
  hot : List Root
  archived : List Root

def Tracked.call (t : Tracked σ) : ModeCall σ → Tracked σ
  | .enableSaveHotStateToDB => { t with manager := final enableSaveHotStateToDB t.manager }
  | .saveState r st =>
    { t with
      manager := final (do
        let ref ← alloc st
        saveState T r ref) t.manager
      hot := if t.manager.savesHot T st then t.hot ++ [r] else t.hot }
  | .migrateToCold ctx fRoot =>
    { t with
      manager := final (migrateToCold T ctx fRoot) t.manager
      archived := t.archived ++ archivedBy T ctx fRoot t.manager }
  | .disableSaveHotStateToDB roots =>
    { t with manager := final (disableSaveHotStateToDB roots) t.manager }
  | .saveBlock r b =>
    { t with manager := { t.manager with beaconDB := t.manager.beaconDB.saveBlock r b } }

/-- The mode does not save a root that is listed or archived already, and no listed root is
protected when it ends. -/
def Fits (t : Tracked σ) : ModeCall σ → Prop
  | .saveState r st => t.manager.savesHot T st →
      r ∉ t.manager.saveHotStateDB.savedStateRoots ∧ r ∉ t.archived
  | .disableSaveHotStateToDB roots => t.manager.saveHotStateDB.enabled →
      ∀ r ∈ t.manager.saveHotStateDB.savedStateRoots,
        t.manager.beaconDB.protects roots r = false
  | _ => True

instance (t : Tracked σ) (op : ModeCall σ) : Decidable (Fits T t op) :=
  match op with
  | .saveState _ _ => inferInstanceAs (Decidable (_ → _))
  | .disableSaveHotStateToDB roots =>
    have : Decidable (∀ r ∈ t.manager.saveHotStateDB.savedStateRoots,
        t.manager.beaconDB.protects roots r = false) := decidableBAll _ _
    inferInstanceAs (Decidable (_ → _))
  | .enableSaveHotStateToDB => instDecidableTrue
  | .migrateToCold _ _ => instDecidableTrue
  | .saveBlock _ _ => instDecidableTrue

end Runs

/-! ### Frames -/

/-- Reading states changes neither the states of the database nor the mode. -/
def SameStates (w w' : Manager σ) : Prop :=
  w'.beaconDB.states = w.beaconDB.states ∧ w'.saveHotStateDB = w.saveHotStateDB

instance : IsPreorder (Manager σ) SameStates where
  refl _ := ⟨rfl, rfl⟩
  trans _ _ _ h h' := ⟨h'.1.trans h.1, h'.2.trans h.2⟩

theorem keeps_wrap {α : Type} {x : StateGenM σ α} {message : String} (h : Keeps SameStates x) :
    Keeps SameStates (wrap x message) := by
  intro w
  have hw := h w
  unfold EState.final wrap
  unfold EState.final at hw
  cases hx : x w with
  | ok a w' =>
    rw [hx] at hw
    exact hw
  | error e w' =>
    rw [hx] at hw
    exact hw

theorem keeps_ofExcept {α : Type} (x : Except Err α) :
    Keeps SameStates (ofExcept x : StateGenM σ α) := by
  cases x with
  | ok a => exact keeps_pure a
  | error e => exact keeps_throw e

theorem keeps_getHotState (r : Root) :
    Keeps SameStates (getHotState r : StateGenM σ (Option σ)) := by
  refine Keeps.bind (fun w => ⟨rfl, rfl⟩) fun o => ?_
  cases o with
  | none => exact keeps_pure none
  | some ref =>
    refine Keeps.bind (keeps_get.bind fun w => ?_) fun st => keeps_pure _
    split
    · exact keeps_throw _
    · exact keeps_pure _

theorem keeps_finalizedState : Keeps SameStates (finalizedState : StateGenM σ (Option σ)) := by
  refine keeps_get.bind fun w => ?_
  split
  · exact keeps_throw _
  · exact keeps_pure _

theorem keeps_lastAncestorLoop (fuel : ℕ) (b : Block) :
    Keeps SameStates (lastAncestorLoop fuel b : StateGenM σ (Option σ)) := by
  induction fuel generalizing b with
  | zero => exact keeps_throw _
  | succ fuel ih =>
    refine keeps_get.bind fun w => ?_
    split
    · exact keeps_pure _
    split
    · exact keeps_getHotState _
    split
    · exact keeps_finalizedState
    split
    · exact keeps_pure _
    split
    · exact keeps_pure _
    split
    · exact keeps_throw _
    · exact ih _

theorem keeps_lastAncestorState (r : Root) :
    Keeps SameStates (lastAncestorState r : StateGenM σ (Option σ)) := by
  refine keeps_get.bind fun w => ?_
  split
  · exact keeps_finalizedState
  split
  · exact keeps_throw _
  · exact keeps_lastAncestorLoop _ _

theorem keeps_stateSummary (r : Root) : Keeps SameStates (stateSummary r : StateGenM σ Slot) := by
  intro w
  have hrecover : SameStates w (final (recoverStateSummary r) w) := by
    rw [recoverStateSummary, final, get_bind]
    cases w.beaconDB.block r with
    | none => exact ⟨rfl, rfl⟩
    | some b => exact ⟨rfl, rfl⟩
  rw [stateSummary, final, get_bind]
  cases w.beaconDB.stateSummary r with
  | none => exact hrecover
  | some slot => exact ⟨rfl, rfl⟩

section Frames

variable (T : Transition σ)

theorem keeps_replayFrom (st : σ) (targetSlot : Slot) (r : Root) (message : String)
    (replayMessage : Option String) :
    Keeps SameStates (replayFrom T st targetSlot r message replayMessage) := by
  refine keeps_get.bind fun w => ?_
  split
  · exact keeps_pure _
  · refine (keeps_wrap (keeps_ofExcept _)).bind fun _ => ?_
    cases replayMessage with
    | none => exact keeps_ofExcept _
    | some _ => exact keeps_wrap (keeps_ofExcept _)

theorem keeps_stateByRoot (r : Root) : Keeps SameStates (stateByRoot T r) := by
  refine keeps_get.bind fun w => ?_
  split
  · exact keeps_pure _
  refine (keeps_getHotState r).bind fun o => ?_
  split
  · exact keeps_pure _
  refine keeps_get.bind fun w => ?_
  split
  · exact keeps_pure _
  split
  · exact keeps_pure _
  refine (keeps_wrap (keeps_stateSummary r)).bind fun slot => ?_
  refine (keeps_wrap (keeps_lastAncestorState r)).bind fun o => ?_
  split
  · exact keeps_throw _
  · exact (keeps_replayFrom T _ _ _ _ _).bind fun _ => keeps_pure _

theorem keeps_archivedState (slot : Slot) : Keeps SameStates (archivedState T slot) := by
  refine keeps_get.bind fun w => ?_
  split
  · exact keeps_pure _
  split
  · exact keeps_throw _
  split
  · exact keeps_pure _
  · exact (keeps_stateByRoot T _).bind fun _ => keeps_pure _

end Frames

/-! ### The invariant -/

theorem DB.isSome_saveState (db : DB σ) (st : σ) (root r : Root) :
    ((db.saveState st root).state r).isSome ↔ r = root ∨ (db.state r).isSome := by
  rw [DB.state_saveState]
  rcases eq_or_ne r root with rfl | hne
  · simp
  · rw [if_neg hne]
    simp [hne]

/-- The listed roots are those of the states that the mode has left in the database. -/
structure Listed (hot archived : List Root) (w : Manager σ) : Prop where
  nodup : w.saveHotStateDB.savedStateRoots.Nodup
  stored : ∀ r ∈ w.saveHotStateDB.savedStateRoots, (w.beaconDB.state r).isSome
  kept : ∀ r ∈ archived, (w.beaconDB.state r).isSome ∧ r ∉ w.saveHotStateDB.savedStateRoots
  temporary : ∀ r ∈ hot, (w.beaconDB.state r).isSome →
    r ∈ w.saveHotStateDB.savedStateRoots ∨ r ∈ archived

section Listed

variable {hot archived : List Root} {w w' : Manager σ} {T : Transition σ}

section

variable (h : Listed hot archived w)

include h

theorem Listed.of_sameStates (hsame : SameStates w w') : Listed hot archived w' := by
  have hstate : ∀ r, w'.beaconDB.state r = w.beaconDB.state r := fun r => by
    rw [DB.state, DB.state, hsame.1]
  obtain ⟨hnodup, hstored, harchived, hhot⟩ := h
  rw [← hsame.2] at hnodup hstored harchived hhot
  simp only [← hstate] at hstored harchived hhot
  exact ⟨hnodup, hstored, harchived, hhot⟩

theorem Listed.found {r : Root} (hr : (w.beaconDB.state r).isSome) :
    Listed hot (archived ++ [r]) { w with saveHotStateDB := { w.saveHotStateDB with
      savedStateRoots := w.saveHotStateDB.savedStateRoots.erase r } } where
  nodup := h.nodup.erase r
  stored a ha := h.stored a (mem_of_mem_erase ha)
  kept a ha := by
    rcases mem_append.mp ha with ha | ha
    · obtain ⟨hstate, hlisted⟩ := h.kept a ha
      exact ⟨hstate, fun hmem => hlisted (mem_of_mem_erase hmem)⟩
    · obtain rfl := mem_singleton.mp ha
      exact ⟨hr, h.nodup.not_mem_erase⟩
  temporary a ha hstate := by
    rcases eq_or_ne a r with rfl | hne
    · exact .inr (mem_append_right _ (mem_singleton_self a))
    · exact (h.temporary a ha hstate).imp (fun hmem => (mem_erase_of_ne hne).mpr hmem)
        fun hmem => mem_append_left _ hmem

theorem Listed.saved {r : Root} (st : σ) (hr : ¬ (w.beaconDB.state r).isSome) :
    Listed hot (archived ++ [r]) { w with beaconDB := w.beaconDB.saveState st r } := by
  have hstate := DB.isSome_saveState w.beaconDB st r
  refine ⟨h.nodup, fun a ha => (hstate a).mpr (.inr (h.stored a ha)), fun a ha => ?_,
    fun a ha hsome => ?_⟩
  · rcases mem_append.mp ha with ha | ha
    · obtain ⟨hsome, hlisted⟩ := h.kept a ha
      exact ⟨(hstate a).mpr (.inr hsome), hlisted⟩
    · obtain rfl := mem_singleton.mp ha
      exact ⟨(hstate a).mpr (.inl rfl), fun hmem => hr (h.stored a hmem)⟩
  · rcases (hstate a).mp hsome with rfl | hsome
    · exact .inr (mem_append_right _ (mem_singleton_self a))
    · exact (h.temporary a ha hsome).imp_right (mem_append_left _)

theorem Listed.savedHot {r : Root} (st : σ)
    (hlisted : r ∉ w.saveHotStateDB.savedStateRoots) (harchived : r ∉ archived) :
    Listed (hot ++ [r]) archived { w with
      beaconDB := w.beaconDB.saveState st r
      saveHotStateDB := { w.saveHotStateDB with
        savedStateRoots := w.saveHotStateDB.savedStateRoots ++ [r] } } := by
  have hstate := DB.isSome_saveState w.beaconDB st r
  refine ⟨?_, fun a ha => ?_, fun a ha => ?_, fun a ha hsome => ?_⟩
  · exact concat_eq_append ▸ h.nodup.concat hlisted
  · refine (hstate a).mpr ?_
    rcases mem_append.mp ha with ha | ha
    · exact .inr (h.stored a ha)
    · exact .inl (mem_singleton.mp ha)
  · obtain ⟨hsome, hnot⟩ := h.kept a ha
    refine ⟨(hstate a).mpr (.inr hsome), fun hmem => ?_⟩
    rcases mem_append.mp hmem with hmem | hmem
    · exact hnot hmem
    · exact harchived (mem_singleton.mp hmem ▸ ha)
  · rcases mem_append.mp ha with ha | ha
    · rcases (hstate a).mp hsome with rfl | hsome
      · exact .inl (mem_append_right _ (mem_singleton_self a))
      · exact (h.temporary a ha hsome).imp_left (mem_append_left _)
    · exact .inl (mem_append_right _ ha)

end

/-! ### The calls -/

theorem archive_eq (slot : Slot) (w : Manager σ) : archive T slot w =
    match archivePoint T slot w with
    | .ok _ w' => .ok () w'
    | .error e w' => .error e w' := by
  rw [archive, archivePoint]
  cases hstate : archivedState T slot w with
  | error e w' => rw [bind_error hstate, bind_error hstate]
  | ok x w' =>
    obtain ⟨aRoot, aState⟩ := x
    rw [bind_ok hstate, bind_ok hstate]
    dsimp only
    rw [get_bind, get_bind]
    split
    · rfl
    · cases aState with
      | none => rfl
      | some st => rfl

theorem Listed.archivePoint (h : Listed hot archived w) (slot : Slot) :
    (∀ r w', archivePoint T slot w = .ok r w' → Listed hot (archived ++ [r]) w') ∧
      ∀ e w', archivePoint T slot w = .error e w' → Listed hot archived w' := by
  rw [StateGen.archivePoint]
  cases hstate : archivedState T slot w with
  | error e w₁ =>
    rw [bind_error hstate]
    refine ⟨fun r w' hok => (nomatch hok), fun e' w' herror => ?_⟩
    cases herror
    exact h.of_sameStates ((keeps_archivedState T slot).error hstate)
  | ok x w₁ =>
    obtain ⟨aRoot, aState⟩ := x
    have h₁ := h.of_sameStates ((keeps_archivedState T slot).ok hstate)
    rw [bind_ok hstate]
    dsimp only
    rw [get_bind]
    split
    next hfound =>
      refine ⟨fun r w' hok => ?_, fun e w' herror => nomatch herror⟩
      cases hok
      exact h₁.found hfound
    next hnot =>
      cases aState with
      | none =>
        refine ⟨fun r w' hok => (nomatch hok), fun e w' herror => ?_⟩
        cases herror
        exact h₁
      | some st =>
        refine ⟨fun r w' hok => ?_, fun e w' herror => nomatch herror⟩
        cases hok
        exact h₁.saved st hnot

theorem Listed.migrateLoop (ctx : Ctx) (slotsPerArchivedPoint : Slot) (n : ℕ) (slot : Slot)
    (poll : ℕ) {archived : List Root} {w : Manager σ} (h : Listed hot archived w) :
    Listed hot (archived ++ archivedInLoop T ctx slotsPerArchivedPoint n slot poll w)
      (final (migrateLoop T ctx slotsPerArchivedPoint n slot poll) w) := by
  induction n generalizing slot poll archived w with
  | zero =>
    rw [archivedInLoop, append_nil]
    exact h
  | succ n ih =>
    rw [StateGen.migrateLoop, archivedInLoop]
    split
    · rw [append_nil]
      exact h
    split
    · rw [append_nil]
      exact h
    split
    · obtain ⟨hok, herror⟩ := h.archivePoint (T := T) slot
      cases hpoint : StateGen.archivePoint T slot w with
      | error e w' =>
        have harchive : archive T slot w = .error e w' := by rw [archive_eq, hpoint]
        rw [final, bind_error harchive]
        rw [append_nil]
        exact herror e w' hpoint
      | ok r w' =>
        have harchive : archive T slot w = .ok () w' := by rw [archive_eq, hpoint]
        rw [final, bind_ok harchive]
        have hrest := ih (slot + 1) (poll + 1) (hok r w' hpoint)
        rw [append_assoc, singleton_append] at hrest
        exact hrest
    · exact ih (slot + 1) (poll + 1) h

theorem Listed.migrateToCold (h : Listed hot archived w) (ctx : Ctx) (fRoot : Root) :
    Listed hot (archived ++ archivedBy T ctx fRoot w) (final (migrateToCold T ctx fRoot) w) := by
  rw [StateGen.migrateToCold, archivedBy, final, get_bind]
  cases w.beaconDB.block fRoot with
  | none =>
    rw [append_nil]
    exact h
  | some fBlock =>
    dsimp only
    split
    · rw [append_nil]
      exact h
    · have hloop := h.migrateLoop (T := T) ctx w.slotsPerArchivedPoint
        (fBlock.slot.toNat - w.finalizedInfo.slot.toNat) w.finalizedInfo.slot 0
      cases hrun : StateGen.migrateLoop T ctx w.slotsPerArchivedPoint
          (fBlock.slot.toNat - w.finalizedInfo.slot.toNat) w.finalizedInfo.slot 0 w with
      | error e w' =>
        rw [bind_error hrun]
        rw [final_of_error hrun] at hloop
        exact hloop
      | ok x w' =>
        rw [bind_ok hrun, get_bind]
        rw [final_of_ok hrun] at hloop
        cases w'.epochBoundaryStateCache.getByRoot fRoot with
        | none => exact hloop
        | some st => exact hloop.of_sameStates ⟨rfl, rfl⟩

theorem saveHotStateToDB_eq (r : Root) (st : σ) (w : Manager σ) :
    saveHotStateToDB T r st w = .ok () (if w.savesHot T st then
        { w with
          beaconDB := w.beaconDB.saveState st r
          saveHotStateDB := { w.saveHotStateDB with
            savedStateRoots := w.saveHotStateDB.savedStateRoots ++ [r] } }
      else w) := by
  rw [saveHotStateToDB, get_bind]
  split
  next h => rw [if_pos (show w.savesHot T st from h)]; rfl
  next h => rw [if_neg (show ¬ w.savesHot T st from h)]; rfl

/-- What `SaveState` does to the states of the database and to the list. -/
theorem sameStates_saveState (w : Manager σ) (r : Root) (st : σ) :
    SameStates (if w.savesHot T st then
        { w with
          beaconDB := w.beaconDB.saveState st r
          saveHotStateDB := { w.saveHotStateDB with
            savedStateRoots := w.saveHotStateDB.savedStateRoots ++ [r] } }
      else w)
      (final (do
        let ref ← alloc st
        saveState T r ref) w) := by
  have halloc : alloc st w = .ok w.heap.length { w with heap := w.heap ++ [st] } := rfl
  have hcontents : contents w.heap.length { w with heap := w.heap ++ [st] } =
      .ok st { w with heap := w.heap ++ [st] } := by
    rw [contents, get_bind, getElem?_concat_length]
    rfl
  -- After the hot state the call only writes to the caches and the summaries.
  have hrest : Keeps SameStates (do
      let w' ← get
      if w'.hasHotState r then pure ()
      else do
        if isEpochStart (T.slot st) then
          modify fun w => { w with
            epochBoundaryStateCache := w.epochBoundaryStateCache.put r (T.slot st) st }
        modify fun w => { w with beaconDB := w.beaconDB.saveStateSummary (T.slot st) r }
        putHotState r w.heap.length : StateGenM σ Unit) := by
    refine keeps_get.bind fun w' => ?_
    split
    · exact keeps_pure ()
    · intro w''
      cases isEpochStart (T.slot st) with
      | true => exact ⟨rfl, rfl⟩
      | false => exact ⟨rfl, rfl⟩
  rw [final, bind_ok halloc, saveState, bind_ok hcontents, bind_ok (saveHotStateToDB_eq r st _)]
  refine trans_of SameStates ?_ (hrest _)
  by_cases hhot : w.savesHot T st
  · rw [if_pos hhot,
      if_pos (show Manager.savesHot T { w with heap := w.heap ++ [st] } st from hhot)]
    exact ⟨rfl, rfl⟩
  · rw [if_neg hhot,
      if_neg (show ¬ Manager.savesHot T { w with heap := w.heap ++ [st] } st from hhot)]
    exact ⟨rfl, rfl⟩

theorem DB.deleteStates_ok (roots : ChainRoots) {l : List Root} {db : DB σ} (hnodup : l.Nodup)
    (hprotects : ∀ r ∈ l, db.protects roots r = false) (hstates : ∀ r ∈ l, (db.state r).isSome) :
    ∃ db', deleteStates roots l db = .ok () db' ∧
      ∀ a, db'.state a = if a ∈ l then none else db.state a := by
  induction l generalizing db with
  | nil => exact ⟨db, rfl, fun a => (if_neg not_mem_nil).symm⟩
  | cons r l ih =>
    obtain ⟨hr, hnodup⟩ := nodup_cons.mp hnodup
    obtain ⟨hprotect, hprotects⟩ := forall_mem_cons.mp hprotects
    obtain ⟨hstate, hstates⟩ := forall_mem_cons.mp hstates
    have hslot : db.hasSlot r = true := by
      rw [hasSlot, hstate, Bool.or_true]
    have hdelete : db.deleteState roots r = .ok (db.withoutState r) := by
      rw [deleteState, hprotect, if_neg Bool.false_ne_true, if_pos hslot]
    have hleft : ∀ a ∈ l, ((db.withoutState r).state a).isSome := by
      intro a ha
      rw [state_withoutState, if_neg fun heq : a = r => hr (heq ▸ ha)]
      exact hstates a ha
    have hfree : ∀ a ∈ l, (db.withoutState r).protects roots a = false := hprotects
    obtain ⟨db', hrun, hdb'⟩ := ih hnodup hfree hleft
    refine ⟨db', ?_, fun a => ?_⟩
    · simp only [deleteStates, hdelete]
      exact hrun
    · rw [hdb', state_withoutState]
      rcases eq_or_ne a r with rfl | hne
      · rw [if_neg hr, if_pos rfl, if_pos mem_cons_self]
      · rw [if_neg hne]
        exact if_congr (by simp [hne]) rfl rfl

theorem disable_of_fits (h : Listed hot archived w) {roots : ChainRoots}
    (henabled : w.saveHotStateDB.enabled)
    (hfree : ∀ r ∈ w.saveHotStateDB.savedStateRoots, w.beaconDB.protects roots r = false) :
    ∃ db, disableSaveHotStateToDB roots w = .ok () { w with
        beaconDB := db
        saveHotStateDB := { w.saveHotStateDB with enabled := false, savedStateRoots := [] } } ∧
      ∀ a, db.state a =
        if a ∈ w.saveHotStateDB.savedStateRoots then none else w.beaconDB.state a := by
  obtain ⟨db, hrun, hdb⟩ := DB.deleteStates_ok roots h.nodup hfree h.stored
  refine ⟨db, ?_, hdb⟩
  rw [disableSaveHotStateToDB, if_pos henabled, hrun]

theorem Listed.disable (h : Listed hot archived w) {roots : ChainRoots}
    (hfree : w.saveHotStateDB.enabled →
      ∀ r ∈ w.saveHotStateDB.savedStateRoots, w.beaconDB.protects roots r = false) :
    Listed hot archived (final (disableSaveHotStateToDB roots) w) := by
  by_cases henabled : w.saveHotStateDB.enabled = true
  · obtain ⟨db, hrun, hdb⟩ := disable_of_fits h henabled (hfree henabled)
    rw [final_of_ok hrun]
    refine ⟨nodup_nil, fun r hr => (nomatch hr), fun r hr => ?_, fun r hr hsome => ?_⟩
    · obtain ⟨hsome, hlisted⟩ := h.kept r hr
      refine ⟨?_, not_mem_nil⟩
      rw [hdb, if_neg hlisted]
      exact hsome
    · dsimp only at hsome
      rw [hdb] at hsome
      split at hsome
      · exact (nomatch hsome)
      next hlisted => exact .inr ((h.temporary r hr hsome).resolve_left hlisted)
  · have hrun : disableSaveHotStateToDB roots w = .ok () w := by
      rw [disableSaveHotStateToDB, if_neg henabled]
    rw [final_of_ok hrun]
    exact h

/-- The invariant along runs. -/
def Tracked.Consistent (t : Tracked σ) : Prop := Listed t.hot t.archived t.manager

theorem Tracked.Consistent.call {t : Tracked σ} (h : t.Consistent) {op : ModeCall σ}
    (hfits : Fits T t op) : (t.call T op).Consistent := by
  cases op with
  | enableSaveHotStateToDB =>
    obtain ⟨hnodup, hstored, hkept, htemporary⟩ := h
    exact ⟨hnodup, hstored, hkept, htemporary⟩
  | saveState r st =>
    refine Listed.of_sameStates ?_ (sameStates_saveState t.manager r st)
    change Listed (if t.manager.savesHot T st then t.hot ++ [r] else t.hot) t.archived _
    by_cases hhot : t.manager.savesHot T st
    · rw [if_pos hhot, if_pos hhot]
      obtain ⟨hlisted, harchived⟩ := hfits hhot
      exact Listed.savedHot h st hlisted harchived
    · rw [if_neg hhot, if_neg hhot]
      exact h
  | migrateToCold ctx fRoot => exact Listed.migrateToCold h ctx fRoot
  | disableSaveHotStateToDB roots => exact Listed.disable h hfits
  | saveBlock r b =>
    refine Listed.of_sameStates h ⟨?_, rfl⟩
    change (t.manager.beaconDB.saveBlock r b).states = t.manager.beaconDB.states
    rw [DB.saveBlock]
    split
    · rfl
    · rfl

end Listed

/-! ### Leaving the mode -/

/-- In a run that keeps to the condition, a call that leaves the mode returns without an error. It
leaves no state that only the mode has written, and every archived point. -/
theorem disable_removes_temporary (T : Transition σ) {w₀ : Manager σ}
    (hstart : w₀.saveHotStateDB.savedStateRoots = []) (ops : List (ModeCall σ)) (roots : ChainRoots)
    (hfits : Admits (Tracked.call T) (Fits T) ⟨w₀, [], []⟩
      (ops ++ [.disableSaveHotStateToDB roots])) :
    let t := ops.foldl (Tracked.call T) ⟨w₀, [], []⟩
    t.manager.saveHotStateDB.enabled →
      (∃ w, disableSaveHotStateToDB roots t.manager = .ok () w) ∧
      (∀ r ∈ t.hot, r ∉ t.archived →
        (t.call T (.disableSaveHotStateToDB roots)).manager.beaconDB.state r = none) ∧
      ∀ r ∈ t.archived,
        ((t.call T (.disableSaveHotStateToDB roots)).manager.beaconDB.state r).isSome := by
  intro t henabled
  obtain ⟨hops, hlast, -⟩ := admits_append.mp hfits
  have hinit : (⟨w₀, [], []⟩ : Tracked σ).Consistent :=
    ⟨hstart ▸ nodup_nil, fun r hr => (nomatch hstart ▸ hr), fun r hr => (nomatch hr),
      fun r hr => (nomatch hr)⟩
  have ht : t.Consistent := invariant (fun s op hs hok => hs.call hok) hinit hops
  have hnext : (t.call T (.disableSaveHotStateToDB roots)).Consistent := ht.call hlast
  obtain ⟨db, hrun, hdb⟩ := disable_of_fits ht henabled (hlast henabled)
  have hlisted : (t.call T (.disableSaveHotStateToDB roots)).manager.saveHotStateDB.savedStateRoots
      = [] := by
    change (final (disableSaveHotStateToDB roots) t.manager).saveHotStateDB.savedStateRoots = []
    rw [final_of_ok hrun]
  refine ⟨⟨_, hrun⟩, fun r hr harchived => ?_, fun r hr => (hnext.kept r hr).1⟩
  refine Option.not_isSome_iff_eq_none.mp fun hsome => ?_
  rcases hnext.temporary r hr hsome with hmem | hmem
  · exact not_mem_nil (hlisted ▸ hmem)
  · exact harchived hmem

/-- A manager with an empty database, where the genesis block has the root 1. -/
def emptyManager : Manager (Slot × List Root) := new ⟨[], [], [], [], 1⟩ 128

/-- The mode saves the states of two slots, and the first is archived before the mode ends. -/
def lateFinality : List (ModeCall (Slot × List Root)) :=
  [.enableSaveHotStateToDB, .saveState 2 (128, []), .saveState 3 (256, []),
    .saveBlock 4 ⟨257, 3, 4, []⟩, .saveBlock 5 ⟨129, 2, 5, []⟩, .migrateToCold ⟨none⟩ 5]

theorem disable_removes_temporary_late :
    let t := lateFinality.foldl (Tracked.call recordTransition) ⟨emptyManager, [], []⟩
    let t' := t.call recordTransition (.disableSaveHotStateToDB ⟨some 5, some 4⟩)
    t'.manager.beaconDB.state 3 = none ∧ (t'.manager.beaconDB.state 2).isSome := by
  have hstart : emptyManager.saveHotStateDB.savedStateRoots = [] := rfl
  have hrun := disable_removes_temporary recordTransition hstart lateFinality
    ⟨some 5, some 4⟩ (by decide +kernel) (by decide +kernel)
  exact ⟨hrun.2.1 3 (by decide +kernel) (by decide +kernel), hrun.2.2 2 (by decide +kernel)⟩

/-- Two runs that leave the mode. In the first the head is listed before another state, which stays
in the database. In the second a root is saved twice and archived, and its state is deleted. -/
theorem disable_misses_states :
    (let ops := [.enableSaveHotStateToDB, .saveState 2 (128, []), .saveState 3 (256, [])]
      let t := ops.foldl (Tracked.call recordTransition) ⟨emptyManager, [], []⟩
      let t' := t.call recordTransition (.disableSaveHotStateToDB ⟨none, some 2⟩)
      t.manager.saveHotStateDB.enabled ∧ 3 ∈ t.hot ∧ 3 ∉ t.archived ∧
        t.manager.beaconDB.protects ⟨none, some 2⟩ 3 = false ∧
        t'.manager.saveHotStateDB.enabled = false ∧ (t'.manager.beaconDB.state 3).isSome) ∧
    (let ops := [.enableSaveHotStateToDB, .saveState 2 (128, []), .saveState 2 (128, []),
        .saveBlock 3 ⟨129, 2, 3, []⟩, .migrateToCold ⟨none⟩ 3]
      let t := ops.foldl (Tracked.call recordTransition) ⟨emptyManager, [], []⟩
      let t' := t.call recordTransition (.disableSaveHotStateToDB ⟨none, some 3⟩)
      t.manager.saveHotStateDB.enabled ∧ 2 ∈ t.archived ∧ t'.manager.beaconDB.state 2 = none) := by
  decide +kernel

end Vanguard.StateGen
