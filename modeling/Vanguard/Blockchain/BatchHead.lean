import Vanguard.StateGen.Regeneration

/-!
The head state during initial sync.

`onBlockBatch` takes the state object of the parent block out of the hot-state
cache without a copy, processes the blocks of the batch on it in place, puts it
back under the root of the last block and makes it the head state, again without
a copy. So the object that the head holds may be the one that the next batch
works on. The head state is right as long as no batch that starts from the
head's own block fails.
-/

namespace Vanguard.Blockchain.Batch

open StateGen EState Run List Nat

/-! ### The service -/

/-- A block of a batch, with what the environment decides about it. -/
structure BatchBlock (σ : Type) where
  root : Root
  block : Block
  /-- Whether the checks of the transition that slot and block processing leave
  open pass, such as that of the state root. -/
  accepted : Bool
  /-- What the state object holds if the transition fails part way. -/
  left : σ
  /-- Whether `handleEpochBoundary` succeeds. -/
  boundaryHandled : Bool

/-- The arguments of `onBlockBatch`, with the outcomes of `verifyBlkPreState` and
of the signature check. -/
structure BlockBatch (σ : Type) where
  blocks : List (BatchBlock σ)
  preStateVerified : Bool
  signaturesVerify : Bool

/-- The service as far as `onBlockBatch` uses it: the state manager and the head
with its state object. -/
structure Service (σ : Type) where
  manager : Manager σ
  headRoot : Root
  headState : Ref

section

variable {σ : Type} (T : Transition σ)

/-- What the transition makes of a state, if it succeeds. `ProcessSlots` asks for a
slot after that of the state. -/
def BatchBlock.postState (x : BatchBlock σ) (st : σ) : Option σ :=
  if T.slot st < x.block.slot ∧ x.accepted then
    (executeStateTransitionStateGen T st x.block).toOption
  else none

/-- Changes an object in place. -/
def write (ref : Ref) (st : σ) : StateGenM σ Unit :=
  modify fun w => { w with heap := w.heap.set ref st }

/-- `ExecuteStateTransitionNoVerifyAnySig` on an object. -/
def executeInPlace (ref : Ref) (x : BatchBlock σ) : StateGenM σ Unit := do
  let st ← contents ref
  match x.postState T st with
  | none => do
    write ref x.left
    throw (.transition "could not execute state transition")
  | some st' => write ref st'

def boundaryState (ref : Ref) (x : BatchBlock σ) : StateGenM σ (List (Root × σ)) := do
  let st ← contents ref
  if isEpochStart (T.slot st) then
    if x.boundaryHandled then pure [(x.root, st)]
    else throw (.transition "could not handle epoch boundary state")
  else pure []

/-- The loop of `onBlockBatch`, which returns the copies for `boundaries`. -/
def executeBatch (ref : Ref) : List (BatchBlock σ) → StateGenM σ (List (Root × σ))
  | [] => pure []
  | x :: rest => do
    executeInPlace T ref x
    let boundary ← boundaryState T ref x
    let boundaries ← executeBatch ref rest
    pure (boundary ++ boundaries)

def saveBoundaries : List (Root × σ) → StateGenM σ Unit
  | [] => pure ()
  | (r, st) :: rest => do
    let ref ← alloc st
    saveState T r ref
    saveBoundaries rest

/-- The root of the last block of a batch, or of its parent. -/
def lastRoot (parentRoot : Root) : List (BatchBlock σ) → Root
  | [] => parentRoot
  | x :: rest => lastRoot x.root rest

/-- `onBlockBatch` once it has the state object to work on. -/
def processBatch (batch : BlockBatch σ) (parentRoot : Root) (ref : Ref) :
    StateGenM σ (Root × Ref) := do
  let boundaries ← executeBatch T ref batch.blocks
  if batch.signaturesVerify then do
    saveBoundaries T boundaries
    saveState T (lastRoot parentRoot batch.blocks) ref
    pure (lastRoot parentRoot batch.blocks, ref)
  else throw (.transition "batch block signature verification failed")

/-- `onBlockBatch` up to `saveHeadNoDB`. It returns the root of the last block with
the object that has its post state. -/
def runBatch (batch : BlockBatch σ) : StateGenM σ (Root × Ref) := do
  match batch.blocks with
  | [] => throw (.transition "no blocks provided")
  | x :: _ =>
    if batch.preStateVerified then
      match ← stateByRootInitialSync T x.block.parentRoot with
      | none => throw (.transition "nil pre state")
      | some ref => processBatch T batch x.block.parentRoot ref
    else throw (.transition "could not reconstruct parent state")

def Service.saveHeadNoDB (s : Service σ) (r : Root) (ref : Ref) : Service σ :=
  if r = s.headRoot then s else { s with headRoot := r, headState := ref }

def onBlockBatch (batch : BlockBatch σ) (s : Service σ) :
    Service σ × Option StateGen.Err :=
  match runBatch T batch s.manager with
  | .ok (r, ref) w => (Service.saveHeadNoDB { s with manager := w } r ref, none)
  | .error e w => ({ s with manager := w }, some e)

end

/-! ### Objects -/

variable {σ : Type} {T : Transition σ} {tree : BlockTree T} {w w' : Manager σ} {x : BatchBlock σ}
  {st : σ} {parentRoot r : Root} {ref : Ref} {batch : BlockBatch σ} {w₀ : Manager σ} {o : Ref}
  {boundaries : List (Root × σ)} {op : StateGen.Op σ}

/-- The hot-state cache does not hold an object under two roots. -/
def Distinct (w : Manager σ) : Prop :=
  ∀ r r' ref, w.hotStateCache.peek r = some ref → w.hotStateCache.peek r' = some ref → r = r'

/-- While a batch works on the object `o`, nobody else reads it, and all other
objects are as they were. -/
structure During (tree : BlockTree T) (w₀ : Manager σ) (o : Ref) (w : Manager σ) : Prop where
  sound : Sound tree w
  distinct : Distinct w
  unshared : ∀ r, w.hotStateCache.peek r ≠ some o
  others : ∀ i st, i ≠ o → w₀.heap[i]? = some st → w.heap[i]? = some st
  hot : ∀ r ref, w.hotStateCache.peek r = some ref →
    w₀.hotStateCache.peek r = some ref ∨ w₀.heap.length ≤ ref
  bound : o < w.heap.length ∧ w₀.heap.length ≤ w.heap.length

theorem sound_write (h : Sound tree w) {o : Ref} (hunshared : ∀ r, w.hotStateCache.peek r ≠ some o)
    (st : σ) : Sound tree { w with heap := w.heap.set o st } :=
  { h with
    hot := fun {r ref} hr => by
      obtain ⟨st', hst', hpost⟩ := h.hot hr
      have hne : o ≠ ref := fun heq => hunshared r (heq ▸ hr)
      exact ⟨st', by rw [getElem?_set_ne hne, hst'], hpost⟩ }

theorem During.write (h : During tree w₀ o w) (st : σ) :
    During tree w₀ o { w with heap := w.heap.set o st } :=
  { h with
    sound := sound_write h.sound h.unshared st
    others := fun i st' hi hst' => by
      rw [getElem?_set_ne (Ne.symm hi)]
      exact h.others i st' hi hst'
    bound := by
      rw [length_set]
      exact h.bound }

theorem ensures_contents_any {I : Manager σ → Prop} (ref : Ref) :
    Ensures I (fun _ => True) (contents ref : StateGenM σ σ) := by
  refine ensures_get.bind fun w _ => ?_
  split
  · exact ensures_throw _
  · exact ensures_pure trivial

theorem ensures_executeBatch (xs : List (BatchBlock σ)) :
    Ensures (During tree w₀ o) (fun _ => True)
      (executeBatch T o xs : StateGenM σ (List (Root × σ))) := by
  have hwrite : ∀ st : σ, Ensures (During tree w₀ o) (fun _ => True) (write o st) :=
    fun st => ensures_modify fun w hw => hw.write st
  induction xs with
  | nil => exact ensures_pure trivial
  | cons x xs ih =>
    have hexec : Ensures (During tree w₀ o) (fun _ => True) (executeInPlace T o x) := by
      refine (ensures_contents_any o).bind fun st _ => ?_
      split
      · exact (hwrite _).bind fun _ _ => ensures_throw _
      · exact hwrite _
    have hboundary : Ensures (During tree w₀ o) (fun _ => True) (boundaryState T o x) := by
      refine (ensures_contents_any o).bind fun st _ => ?_
      split
      · split
        · exact ensures_pure trivial
        · exact ensures_throw _
      · exact ensures_pure trivial
    exact hexec.bind fun _ _ => hboundary.bind fun _ _ => ih.bind fun _ _ => ensures_pure trivial

/-! ### What a batch computes -/

/-- Each block is a block of the tree whose parent is the one before. -/
def Linear (tree : BlockTree T) : Root → List (BatchBlock σ) → Prop
  | _, [] => True
  | parentRoot, x :: rest =>
    tree.block x.root = some x.block ∧ x.block.parentRoot = parentRoot ∧ Linear tree x.root rest

theorem postState_eq_some {st' : σ} (h : x.postState T st = some st') :
    T.slot st < x.block.slot ∧ executeStateTransitionStateGen T st x.block = .ok st' := by
  unfold BatchBlock.postState at h
  split at h
  · rename_i hlt
    refine ⟨hlt.1, ?_⟩
    cases hx : executeStateTransitionStateGen T st x.block with
    | error e =>
      rw [hx] at h
      cases h
    | ok st₁ =>
      rw [hx] at h
      cases h
      rfl
  · cases h

theorem executeInPlace_eq_ok {u : Unit} (hst : w.heap[o]? = some st)
    (h : executeInPlace T o x w = .ok u w') :
    ∃ st', x.postState T st = some st' ∧ w' = { w with heap := w.heap.set o st' } := by
  have hcontents : contents o w = .ok st w := by
    rw [contents, EState.get_bind, hst]
    rfl
  rw [executeInPlace, EState.bind_ok hcontents] at h
  cases hx : x.postState T st with
  | none =>
    rw [hx] at h
    cases h
  | some st' =>
    rw [hx] at h
    cases h
    exact ⟨st', rfl, rfl⟩

/-- A batch that succeeds takes the object from the post state of the parent to
that of the last block. -/
theorem executeBatch_post {xs : List (BatchBlock σ)}
    (hlinear : Linear tree parentRoot xs) (hst : w.heap[o]? = some st)
    (hpost : PostState tree parentRoot st) (h : executeBatch T o xs w = .ok boundaries w') :
    ∃ st', w'.heap[o]? = some st' ∧ PostState tree (lastRoot parentRoot xs) st' ∧
      (∀ x ∈ boundaries, PostState tree x.1 x.2) ∧ (xs = [] ∨ T.slot st < T.slot st') := by
  induction xs generalizing parentRoot w boundaries st with
  | nil =>
    cases h
    exact ⟨st, hst, hpost, fun x hx => absurd hx not_mem_nil, .inl rfl⟩
  | cons x xs ih =>
    obtain ⟨hblock, rfl, hrest⟩ := hlinear
    obtain ⟨u, w₁, hexec, h⟩ := EState.bind_eq_ok.mp h
    obtain ⟨boundary, w₂, hboundary, h⟩ := EState.bind_eq_ok.mp h
    obtain ⟨bs, w₃, hloop, h⟩ := EState.bind_eq_ok.mp h
    cases h
    obtain ⟨st₁, hst₁, rfl⟩ := executeInPlace_eq_ok hst hexec
    obtain ⟨hlt, htrans⟩ := postState_eq_some hst₁
    have hpost₁ : PostState tree x.root st₁ := .block hblock hpost htrans
    have hget : (w.heap.set o st₁)[o]? = some st₁ :=
      getElem?_set_self (List.getElem?_eq_some_iff.mp hst).1
    -- reading the boundary state changes nothing
    have hread : w₂ = { w with heap := w.heap.set o st₁ } ∧
        ∀ y ∈ boundary, PostState tree y.1 y.2 := by
      rw [boundaryState, contents, bind_assoc, EState.get_bind, hget] at hboundary
      simp only [pure_bind] at hboundary
      split at hboundary
      · split at hboundary
        · cases hboundary
          exact ⟨rfl, fun y hy => by rw [mem_singleton.mp hy]; exact hpost₁⟩
        · cases hboundary
      · cases hboundary
        exact ⟨rfl, fun y hy => absurd hy not_mem_nil⟩
    obtain ⟨rfl, hbs⟩ := hread
    obtain ⟨st', hst', hpost', hbs', hslot⟩ := ih hrest hget hpost₁ hloop
    refine ⟨st', hst', hpost', fun y hy => ?_, .inr ?_⟩
    · exact (mem_append.mp hy).elim (hbs y) (hbs' y)
    · have hstep : T.slot st < T.slot st₁ := by
        rw [slot_executeStateTransitionStateGen htrans]
        exact hlt
      rcases hslot with rfl | hslot
      · cases hloop
        rw [hget] at hst'
        cases hst'
        exact hstep
      · exact BitVec.lt_trans hstep hslot

/-! ### Saving states -/

theorem saveState_eq_ok (hst : w.heap[ref]? = some st) : ∃ w', saveState T r ref w = .ok () w' := by
  have hcontents : contents ref w = .ok st w := by
    rw [contents, EState.get_bind, hst]
    rfl
  have hhot : ∃ w₁, saveHotStateToDB T r st w = .ok () w₁ := by
    rw [saveHotStateToDB, EState.get_bind]
    split
    · exact ⟨_, rfl⟩
    · exact ⟨_, rfl⟩
  obtain ⟨w₁, hw₁⟩ := hhot
  rw [saveState, EState.bind_ok hcontents, EState.bind_ok hw₁, EState.get_bind]
  split
  · exact ⟨_, rfl⟩
  · split
    · exact ⟨_, rfl⟩
    · exact ⟨_, rfl⟩

/-- The references after `SaveState` of an object. -/
theorem saveState_refs (hst : w.heap[ref]? = some st) :
    (final (saveState T r ref) w).heap = w.heap ∧ ∀ r' ref',
      (final (saveState T r ref) w).hotStateCache.peek r' = some ref' →
        w.hotStateCache.peek r' = some ref' ∨ (r' = r ∧ ref' = ref) := by
  have hkeeps : Ensures
      (fun w' => w'.heap = w.heap ∧ ∀ r' ref', w'.hotStateCache.peek r' = some ref' →
        w.hotStateCache.peek r' = some ref' ∨ (r' = r ∧ ref' = ref))
      (fun _ => True) (saveState T r ref : StateGenM σ Unit) := by
    refine ensures_saveState_of (fun w' hw => by rw [hw.1, hst]) (fun w' _ hw => hw)
      (fun w' hw => hw) (fun w' hw => hw) fun w' hw => ⟨hw.1, fun r' ref' hr' => ?_⟩
    rcases Lru.peek_add_eq_some hr' with h | h
    · exact .inr h
    · exact hw.2 r' ref' h
  exact (hkeeps w ⟨rfl, fun _ _ h => .inl h⟩).1

theorem Distinct.add (h : Distinct w) (hnew : ∀ r', w.hotStateCache.peek r' ≠ some ref)
    (hhot : ∀ r' ref', w'.hotStateCache.peek r' = some ref' →
      w.hotStateCache.peek r' = some ref' ∨ (r' = r ∧ ref' = ref)) : Distinct w' := by
  intro r₁ r₂ ref' h₁ h₂
  rcases hhot r₁ ref' h₁ with k₁ | ⟨hr₁, rfl⟩
  · rcases hhot r₂ ref' h₂ with k₂ | ⟨-, rfl⟩
    · exact h r₁ r₂ ref' k₁ k₂
    · exact absurd k₁ (hnew r₁)
  · rcases hhot r₂ ref' h₂ with k₂ | ⟨hr₂, -⟩
    · exact absurd k₂ (hnew r₂)
    · exact hr₁.trans hr₂.symm

theorem saveNew_refs (h : Sound tree w) (hdistinct : Distinct w) (r : Root) (st : σ)
    (w' : Manager σ)
    (hw' : final (saveState T r w.heap.length) { w with heap := w.heap ++ [st] } = w') :
    w'.heap = w.heap ++ [st] ∧ Distinct w' ∧ ∀ r' ref', w'.hotStateCache.peek r' = some ref' →
      w.hotStateCache.peek r' = some ref' ∨ ref' = w.heap.length := by
  obtain ⟨hheap, hhot⟩ := saveState_refs (T := T) (r := r)
    (w := { w with heap := w.heap ++ [st] }) getElem?_concat_length
  rw [hw'] at hheap hhot
  refine ⟨hheap, hdistinct.add (fun r' hr' => ?_) hhot, fun r' ref' hr' =>
    (hhot r' ref' hr').imp id (·.2)⟩
  exact Nat.lt_irrefl _ (h.lt_length hr')

theorem During.saveNew (h : During tree w₀ o w) (hst : PostState tree r st) :
    During tree w₀ o (final (saveState T r w.heap.length) { w with heap := w.heap ++ [st] }) := by
  obtain ⟨hheap, hdistinct, hhot⟩ := saveNew_refs (T := T) h.sound h.distinct r st _ rfl
  have hsound := (ensures_saveState hst _ (⟨h.sound.alloc st, getElem?_concat_length⟩ :
    Holding tree w.heap.length st { w with heap := w.heap ++ [st] })).1.1
  refine ⟨hsound, hdistinct, fun r' hr' => ?_, fun i st' hi hst' => ?_, fun r' ref' hr' => ?_, ?_⟩
  · rcases hhot r' o hr' with hr' | ho
    · exact h.unshared r' hr'
    · exact Nat.ne_of_lt h.bound.1 ho
  · have hold := h.others i st' hi hst'
    rw [hheap]
    exact (getElem?_append_left (List.getElem?_eq_some_iff.mp hold).1).trans hold
  · rcases hhot r' ref' hr' with hr' | rfl
    · exact h.hot r' ref' hr'
    · exact .inr h.bound.2
  · have hlength : (w.heap ++ [st]).length = w.heap.length + 1 := length_append
    rw [hheap]
    exact ⟨(lt_succ_of_lt h.bound.1).trans_eq hlength.symm,
      (le_succ_of_le h.bound.2).trans_eq hlength.symm⟩

theorem ensures_saveBoundaries
    (h : ∀ x ∈ boundaries, PostState tree x.1 x.2) :
    Ensures (fun w => During tree w₀ o w ∧ w.heap[o]? = some st) (fun _ => True)
      (saveBoundaries T boundaries : StateGenM σ Unit) := by
  induction boundaries with
  | nil => exact ensures_pure trivial
  | cons x boundaries ih =>
    obtain ⟨hx, hrest⟩ := forall_mem_cons.mp h
    have hsave : Ensures (fun w => During tree w₀ o w ∧ w.heap[o]? = some st) (fun _ => True) (do
          let ref ← alloc x.2
          saveState T x.1 ref : StateGenM σ Unit) := by
      refine fun w hw => ⟨⟨hw.1.saveNew hx, ?_⟩, fun _ _ _ => trivial⟩
      change (final (saveState T x.1 w.heap.length) { w with heap := w.heap ++ [x.2] }).heap[o]? = _
      rw [(saveState_refs getElem?_concat_length).1]
      exact (getElem?_append_left hw.1.bound.1).trans hw.2
    have hrun : saveBoundaries T (x :: boundaries) = (do
        (do
          let ref ← alloc x.2
          saveState T x.1 ref : StateGenM σ Unit)
        saveBoundaries T boundaries : StateGenM σ Unit) := by
      rw [bind_assoc]
      rfl
    rw [hrun]
    exact hsave.bind fun _ _ => ih hrest

/-! ### The object to work on -/

/-- What reading states leaves of the hot-state cache and of the objects. -/
structure Narrowed (tree : BlockTree T) (w₀ w : Manager σ) : Prop where
  sound : Sound tree w
  distinct : Distinct w
  hot : ∀ r ref, w.hotStateCache.peek r = some ref → w₀.hotStateCache.peek r = some ref
  heap : ∀ (i : ℕ) st, w₀.heap[i]? = some st → w.heap[i]? = some st

theorem Distinct.of_hot (h : Distinct w)
    (hhot : ∀ r ref, w'.hotStateCache.peek r = some ref → w.hotStateCache.peek r = some ref) :
    Distinct w' :=
  fun r r' ref hr hr' => h r r' ref (hhot r ref hr) (hhot r' ref hr')

theorem peek_of_remove {c : Lru Root Ref} {r' : Root} (h : (c.remove r).1.peek r' = some ref) :
    r' ≠ r ∧ c.peek r' = some ref := by
  rw [Lru.peek_remove] at h
  split at h
  · cases h
  · rename_i hne
    exact ⟨hne, h⟩

theorem Narrowed.of_reading (hdistinct : Distinct w₀) (h : Reading tree w₀ w) :
    Narrowed tree w₀ w where
  sound := h.1
  distinct := hdistinct.of_hot fun r ref hr => (h.2.hot r) ▸ hr
  hot := fun r ref hr => (h.2.hot r) ▸ hr
  heap := fun i st hst => by rw [h.2.heap, hst]

theorem Narrowed.delete (h : Narrowed tree w₀ w) (r : Root) :
    Narrowed tree w₀ { w with hotStateCache := (w.hotStateCache.remove r).1 } where
  sound := h.sound.of_hot fun _ _ hr => (peek_of_remove hr).2
  distinct := h.distinct.of_hot fun _ _ hr => (peek_of_remove hr).2
  hot := fun r' ref hr => h.hot r' ref (peek_of_remove hr).2
  heap := h.heap

/-- A state of the manager that belongs to a root which is not stored can only be
the finalized one. -/
theorem ensures_lastAncestorState_unstored (hnone : w₀.beaconDB.block r = none) :
    Ensures (Reading tree w₀) (Yields (PostState tree r))
      (lastAncestorState r : StateGenM σ (Option σ)) := by
  refine ensures_get.bind fun w hw => ?_
  split
  · rename_i hfin
    refine ensures_finalizedState.mono fun o ho st hst => ?_
    rw [hfin, hw.2.finalizedInfo]
    exact ho st hst
  · rw [hw.2.block_eq, hnone]
    exact ensures_throw _

theorem ensures_regenerateInitialSync (h₀ : Sound tree w₀) (r : Root) :
    Ensures (Reading tree w₀) (PostState tree r) (regenerateInitialSync T r : StateGenM σ σ) := by
  refine ensures_get.bind fun w hw => ?_
  split
  · rename_i st hst
    exact ensures_pure (hw.1.getByRoot hst)
  · cases hb : w₀.beaconDB.block r with
    | some b =>
      refine (ensures_wrap (ensures_lastAncestorState h₀ r)).bind fun o ho => ?_
      cases o with
      | none => exact ensures_throw _
      | some st =>
        refine (ensures_wrap (ensures_stateSummary (h₀.stored.block_eq hb))).bind ?_
        rintro slot rfl
        exact ensures_replayFrom h₀ hb (ho st rfl) _ _
    | none =>
      refine (ensures_wrap (ensures_lastAncestorState_unstored hb)).bind fun o ho => ?_
      cases o with
      | none => exact ensures_throw _
      | some st =>
        have hpost := ho st rfl
        obtain ⟨b, hb, hslot⟩ := hpost.exists_block
        refine (ensures_wrap (ensures_stateSummary hb)).bind ?_
        rintro slot rfl
        refine ensures_get.bind fun w hw => ?_
        rw [if_pos hslot]
        exact ensures_pure hpost

/-- What `StateByRootInitialSync` returns is an object that nobody else reads, except
a head that holds the object of the same root. -/
structure Taken (tree : BlockTree T) (w₀ : Manager σ) (r : Root) (o : Ref) (w : Manager σ) :
    Prop where
  during : During tree w₀ o w
  post : ∃ st, w.heap[o]? = some st ∧ PostState tree r st
  source : w₀.hotStateCache.peek r = some o ∨ w₀.heap.length ≤ o
  kept : ∀ (i : ℕ) st, w₀.heap[i]? = some st → w.heap[i]? = some st

theorem deferred_ok {α : Type} {x : StateGenM σ α} {a : α} (h : x w = .ok a w') :
    deferred x (deleteHotState r) w =
      .ok a { w' with hotStateCache := (w'.hotStateCache.remove r).1 } := by
  rw [deferred, h]
  rfl

theorem deferred_error {α : Type} {x : StateGenM σ α} {e : StateGen.Err} (h : x w = .error e w') :
    deferred x (deleteHotState r) w =
      .error e { w' with hotStateCache := (w'.hotStateCache.remove r).1 } := by
  rw [deferred, h]
  rfl

theorem taken_hot (h : Sound tree w) (hdistinct : Distinct w) {o : Ref}
    (ho : w.hotStateCache.peek r = some o) : Taken tree w r o
      { w with hotStateCache := ((w.hotStateCache.get r).2.remove r).1 } := by
  have hpeek : ∀ {r' ref}, ((w.hotStateCache.get r).2.remove r).1.peek r' = some ref →
      r' ≠ r ∧ w.hotStateCache.peek r' = some ref := by
    intro r' ref hr'
    obtain ⟨hne, hr'⟩ := peek_of_remove hr'
    rw [Lru.peek_get] at hr'
    exact ⟨hne, hr'⟩
  refine ⟨⟨h.of_hot fun r' ref hr' => (hpeek hr').2,
    hdistinct.of_hot fun r' ref hr' => (hpeek hr').2, fun r' hr' => ?_,
    fun i st _ hst => hst, fun r' ref hr' => .inl (hpeek hr').2, h.lt_length ho, Nat.le_refl _⟩,
    h.hot ho, .inl ho, fun i st hst => hst⟩
  exact (hpeek hr').1 (hdistinct r' r o (hpeek hr').2 ho)

theorem taken_new {w₁ : Manager σ} (hdistinct : Distinct w) (hread : Reading tree w w₁)
    (hst : PostState tree r st) : Taken tree w r w₁.heap.length
      { w₁ with
        heap := w₁.heap ++ [st]
        hotStateCache := (w₁.hotStateCache.remove r).1 } := by
  have hpeek : ∀ {r' ref}, (w₁.hotStateCache.remove r).1.peek r' = some ref →
      w₁.hotStateCache.peek r' = some ref := fun hr' => (peek_of_remove hr').2
  have hold : ∀ (i : ℕ) st', w.heap[i]? = some st' → (w₁.heap ++ [st])[i]? = some st' := by
    intro i st' hst'
    rw [← hread.2.heap] at hst'
    exact (getElem?_append_left (List.getElem?_eq_some_iff.mp hst').1).trans hst'
  have hlength : (w₁.heap ++ [st]).length = w₁.heap.length + 1 := length_append
  refine ⟨⟨(hread.1.alloc st).of_hot fun r' ref hr' => hpeek hr',
    hdistinct.of_hot fun r' ref hr' => (hread.2.hot r') ▸ hpeek hr', fun r' hr' => ?_,
    fun i st' _ hst' => hold i st' hst', fun r' ref hr' => .inl ((hread.2.hot r') ▸ hpeek hr'), ?_⟩,
    ⟨st, getElem?_concat_length, hst⟩, .inr (by rw [hread.2.heap]), hold⟩
  · exact absurd (hread.1.lt_length (hpeek hr')) (Nat.lt_irrefl _)
  · refine ⟨(lt_succ_self _).trans_eq hlength.symm, ?_⟩
    rw [← hread.2.heap]
    exact (le_succ _).trans_eq hlength.symm

theorem stateByRootInitialSync_spec (h : Sound tree w) (hdistinct : Distinct w) (r : Root) :
    match stateByRootInitialSync T r w with
    | .ok (some o) w' => Taken tree w r o w'
    | .ok none w' => Narrowed tree w w'
    | .error _ w' => Narrowed tree w w' := by
  have hself : Narrowed tree w w := ⟨h, hdistinct, fun _ _ hr => hr, fun _ _ hst => hst⟩
  rw [stateByRootInitialSync, EState.get_bind]
  by_cases hzero : r = zeroHash
  · -- no state is saved under the zero hash
    rw [if_pos hzero]
    cases hst : w.beaconDB.state r with
    | none => exact hself
    | some st => exact absurd hzero (h.state hst).ne_zeroHash
  · rw [if_neg hzero]
    cases ho : w.hotStateCache.peek r with
    | some o =>
      have hget : getHotStateWithoutCopy r w =
          .ok (some o) { w with hotStateCache := (w.hotStateCache.get r).2 } := by
        rw [getHotStateWithoutCopy, EState.get_bind, EState.set_bind, Lru.fst_get, ho]
        rfl
      rw [if_pos (by rw [Manager.hasHotState, ho]; rfl), deferred_ok hget]
      exact taken_hot h hdistinct ho
    | none =>
      rw [if_neg (by rw [Manager.hasHotState, ho]; simp)]
      have hens := ensures_regenerateInitialSync h r w ⟨h, .refl w⟩
      cases hreg : regenerateInitialSync T r w with
      | error e w₁ =>
        rw [EState.final_of_error hreg] at hens
        rw [deferred_error (EState.bind_error hreg)]
        exact (Narrowed.of_reading hdistinct hens.1).delete r
      | ok st w₁ =>
        rw [EState.final_of_ok hreg] at hens
        have halloc : (do
            let st ← regenerateInitialSync T r
            some <$> alloc st : StateGenM σ (Option Ref)) w =
            .ok (some w₁.heap.length) { w₁ with heap := w₁.heap ++ [st] } := by
          rw [EState.bind_ok hreg]
          rfl
        rw [deferred_ok halloc]
        exact taken_new hdistinct hens.1 (hens.2 st w₁ hreg)

/-! ### Batches -/

/-- After a batch that failed, only an object of the parent's root in the hot-state
cache may have changed. -/
structure Failed (tree : BlockTree T) (w₀ : Manager σ) (parentRoot : Root) (w : Manager σ) :
    Prop where
  sound : Sound tree w
  distinct : Distinct w
  hot : ∀ r ref, w.hotStateCache.peek r = some ref →
    w₀.hotStateCache.peek r = some ref ∨ w₀.heap.length ≤ ref
  heap : ∀ (i : ℕ) st, w₀.heap[i]? = some st → w₀.hotStateCache.peek parentRoot ≠ some i →
    w.heap[i]? = some st

/-- After a batch that succeeded, its object has the post state of its last block
and is read by nobody else. -/
structure Processed (tree : BlockTree T) (w₀ : Manager σ) (parentRoot r : Root) (o : Ref)
    (w : Manager σ) : Prop where
  sound : Sound tree w
  distinct : Distinct w
  hot : ∀ r' ref, w.hotStateCache.peek r' = some ref →
    w₀.hotStateCache.peek r' = some ref ∨ w₀.heap.length ≤ ref ∨ (r' = r ∧ ref = o)
  own : ∀ r', w.hotStateCache.peek r' = some o → r' = r
  heap : ∀ (i : ℕ) st, i ≠ o → w₀.heap[i]? = some st → w.heap[i]? = some st
  post : ∃ st, w.heap[o]? = some st ∧ PostState tree r st
  source : w₀.hotStateCache.peek parentRoot = some o ∨ w₀.heap.length ≤ o
  ne : r ≠ parentRoot

theorem Failed.of_during (h : During tree w₀ o w)
    (hsource : w₀.hotStateCache.peek r = some o ∨ w₀.heap.length ≤ o) : Failed tree w₀ r w where
  sound := h.sound
  distinct := h.distinct
  hot := h.hot
  heap := fun i st hst hne => by
    refine h.others i st ?_ hst
    rintro rfl
    rcases hsource with hsource | hsource
    · exact hne hsource
    · exact absurd (List.getElem?_eq_some_iff.mp hst).1 (Nat.not_lt.mpr hsource)

theorem Failed.of_narrowed (h : Narrowed tree w₀ w) : Failed tree w₀ r w :=
  ⟨h.sound, h.distinct, fun r ref hr => .inl (h.hot r ref hr), fun i st hst _ => h.heap i st hst⟩

theorem processed_saveState (h : During tree w₀ o w) (hst : w.heap[o]? = some st)
    (hpost : PostState tree r st)
    (hsource : w₀.hotStateCache.peek parentRoot = some o ∨ w₀.heap.length ≤ o)
    (hne : r ≠ parentRoot) : Processed tree w₀ parentRoot r o (final (saveState T r o) w) := by
  obtain ⟨hheap, hhot⟩ := saveState_refs (T := T) (r := r) hst
  have hsound := (ensures_saveState hpost w (⟨h.sound, hst⟩ : Holding tree o st w)).1.1
  refine ⟨hsound, h.distinct.add h.unshared hhot, fun r' ref hr' => ?_, fun r' hr' => ?_,
    fun i st' hi hst' => ?_, ⟨st, by rw [hheap, hst], hpost⟩, hsource, hne⟩
  · rcases hhot r' ref hr' with hr' | hnew
    · exact (h.hot r' ref hr').imp id .inl
    · exact .inr (.inr hnew)
  · rcases hhot r' o hr' with hr' | ⟨hr', -⟩
    · exact absurd hr' (h.unshared r')
    · exact hr'
  · rw [hheap]
    exact h.others i st' hi hst'

theorem processBatch_spec (htaken : Taken tree w₀ parentRoot o w)
    (hlinear : Linear tree parentRoot batch.blocks) (hne : batch.blocks ≠ []) :
    match processBatch T batch parentRoot o w with
    | .ok (r, o') w' => Processed tree w₀ parentRoot r o' w'
    | .error _ w' => Failed tree w₀ parentRoot w' := by
  obtain ⟨st, hst, hpost⟩ := htaken.post
  have hexec := ensures_executeBatch (T := T) batch.blocks w htaken.during
  rw [processBatch]
  cases hbatch : executeBatch T o batch.blocks w with
  | error e w₁ =>
    rw [EState.final_of_error hbatch] at hexec
    rw [EState.bind_error hbatch]
    exact .of_during hexec.1 htaken.source
  | ok boundaries w₁ =>
    rw [EState.final_of_ok hbatch] at hexec
    rw [EState.bind_ok hbatch]
    obtain ⟨st₁, hst₁, hpost₁, hbs, hslot⟩ := executeBatch_post hlinear hst hpost hbatch
    have hroot : lastRoot parentRoot batch.blocks ≠ parentRoot := by
      intro heq
      rw [heq] at hpost₁
      rw [hpost.unique hpost₁] at hslot
      exact BitVec.lt_irrefl _ (hslot.resolve_left hne)
    cases hsig : batch.signaturesVerify with
    | false => exact .of_during hexec.1 htaken.source
    | true =>
      have hsave := ensures_saveBoundaries (T := T) hbs w₁ ⟨hexec.1, hst₁⟩
      cases hbound : saveBoundaries T boundaries w₁ with
      | error e w₂ =>
        rw [EState.final_of_error hbound] at hsave
        rw [if_pos rfl, EState.bind_error hbound]
        exact .of_during hsave.1.1 htaken.source
      | ok u w₂ =>
        rw [EState.final_of_ok hbound] at hsave
        obtain ⟨w₃, hw₃⟩ := saveState_eq_ok (T := T) (r := lastRoot parentRoot batch.blocks)
          hsave.1.2
        have hprocessed := processed_saveState hsave.1.1 hsave.1.2 hpost₁ htaken.source hroot
        rw [EState.final_of_ok hw₃] at hprocessed
        rw [if_pos rfl, EState.bind_ok hbound, EState.bind_ok hw₃]
        exact hprocessed

theorem runBatch_spec {rest : List (BatchBlock σ)} (h : Sound tree w) (hdistinct : Distinct w)
    (hblocks : batch.blocks = x :: rest) (hlinear : Linear tree x.block.parentRoot batch.blocks) :
    match runBatch T batch w with
    | .ok (r, o) w' => Processed tree w x.block.parentRoot r o w'
    | .error _ w' => Failed tree w x.block.parentRoot w' := by
  have hself : Narrowed tree w w := ⟨h, hdistinct, fun _ _ hr => hr, fun _ _ hst => hst⟩
  simp only [runBatch, hblocks]
  cases hverified : batch.preStateVerified with
  | false => exact .of_narrowed hself
  | true =>
    have hspec := stateByRootInitialSync_spec (T := T) h hdistinct x.block.parentRoot
    rw [if_pos rfl]
    cases hget : stateByRootInitialSync T x.block.parentRoot w with
    | error e w₁ =>
      rw [hget] at hspec
      rw [EState.bind_error hget]
      exact .of_narrowed hspec
    | ok o w₁ =>
      rw [hget] at hspec
      rw [EState.bind_ok hget]
      cases o with
      | none => exact .of_narrowed hspec
      | some o =>
        exact processBatch_spec hspec hlinear (by rw [hblocks]; exact cons_ne_nil _ _)

/-! ### Runs -/

/-- The head's object has the contents of the post state of the head's block. -/
def HeadRight (tree : BlockTree T) (s : Service σ) : Prop :=
  ∃ st, s.manager.heap[s.headState]? = some st ∧ PostState tree s.headRoot st

/-- The head is right, and the hot-state cache holds its object at most under its
root. -/
structure Intact (tree : BlockTree T) (s : Service σ) : Prop where
  sound : Sound tree s.manager
  distinct : Distinct s.manager
  own : ∀ r, s.manager.hotStateCache.peek r = some s.headState → r = s.headRoot
  head : HeadRight tree s

/-- Batches, and the other calls of the state manager between them. -/
inductive Event (σ : Type) where
  | onBlockBatch (batch : BlockBatch σ)
  | manager (op : StateGen.Op σ)

def step (tree : BlockTree T) (s : Service σ) : Event σ → Service σ
  | .onBlockBatch batch => (onBlockBatch T batch s).1
  | .manager op => { s with manager := StateGen.step tree s.manager op }

/-- The batches are linear and not empty, and one that starts from the head's own
block does not fail. -/
def Allowed (tree : BlockTree T) (s : Service σ) : Event σ → Prop
  | .onBlockBatch batch =>
    ∃ x rest, batch.blocks = x :: rest ∧ Linear tree x.block.parentRoot batch.blocks ∧
      (x.block.parentRoot = s.headRoot → (onBlockBatch T batch s).2 = none)
  | .manager op => Valid tree s.manager op

def startService (tree : BlockTree T) (slotsPerArchivedPoint : Slot) : Service σ where
  manager := { start tree slotsPerArchivedPoint with heap := [tree.genesisState] }
  headRoot := tree.genesisRoot
  headState := 0

theorem intact_startService (tree : BlockTree T) (slotsPerArchivedPoint : Slot) :
    Intact tree (startService tree slotsPerArchivedPoint) where
  sound := { sound_start tree slotsPerArchivedPoint with hot := fun hr => nomatch hr }
  distinct := fun _ _ _ hr => nomatch hr
  own := fun _ hr => nomatch hr
  head := ⟨tree.genesisState, rfl, .genesis⟩

theorem refs_step (h : Sound tree w) (hdistinct : Distinct w)
    (hop : Valid tree w op) (w' : Manager σ) (hw' : StateGen.step tree w op = w') :
    Distinct w' ∧ (∀ (i : ℕ) st, w.heap[i]? = some st → w'.heap[i]? = some st) ∧
      ∀ r ref, w'.hotStateCache.peek r = some ref →
        w.hotStateCache.peek r = some ref ∨ w.heap.length ≤ ref := by
  have hsame : (∀ r ref, w'.hotStateCache.peek r = some ref → w.hotStateCache.peek r = some ref) →
      w'.heap = w.heap → Distinct w' ∧
      (∀ (i : ℕ) st, w.heap[i]? = some st → w'.heap[i]? = some st) ∧
      ∀ r ref, w'.hotStateCache.peek r = some ref →
        w.hotStateCache.peek r = some ref ∨ w.heap.length ≤ ref := by
    intro hhot hheap
    refine ⟨hdistinct.of_hot hhot, fun i st hst => ?_, fun r ref hr => .inl (hhot r ref hr)⟩
    rw [hheap, hst]
  cases op with
  | saveBlock r =>
    obtain ⟨b, hb, -⟩ := hop
    simp only [StateGen.step, hb] at hw'
    subst hw'
    exact hsame (fun _ _ hr => hr) rfl
  | saveState r st =>
    obtain ⟨hheap, hdistinct', hhot⟩ := saveNew_refs (T := T) h hdistinct r st w' hw'
    refine ⟨hdistinct', fun i st' hst' => ?_, fun r' ref hr' => ?_⟩
    · rw [hheap]
      exact (getElem?_append_left (List.getElem?_eq_some_iff.mp hst').1).trans hst'
    · exact (hhot r' ref hr').imp id fun hnew => Nat.le_of_eq hnew.symm
  | stateByRoot r =>
    obtain ⟨b, hb⟩ := Option.isSome_iff_exists.mp hop
    have hread := (ensures_stateByRoot h hb w ⟨h, .refl w⟩).1.2
    subst hw'
    exact hsame (fun r' ref hr' => (hread.hot r') ▸ hr') hread.heap
  | migrateToCold ctx fRoot =>
    have hmig := migrating_migrateToCold (P := fun _ => True) h ctx fRoot
      fun _ _ _ _ _ _ _ _ _ => trivial
    subst hw'
    exact hsame (fun r' ref hr' => (hmig.hot r') ▸ hr') hmig.heap
  | evictHotState r =>
    subst hw'
    exact hsame (fun r' ref hr' => (peek_of_remove hr').2) rfl
  | _ =>
    subst hw'
    exact hsame (fun _ _ hr => hr) rfl

theorem intact_manager {s : Service σ} (h : Intact tree s)
    (hop : Valid tree s.manager op) : Intact tree (step tree s (.manager op)) := by
  obtain ⟨hdistinct, hheap, hhot⟩ := refs_step h.sound h.distinct hop _ rfl
  obtain ⟨st, hst, hpost⟩ := h.head
  refine ⟨sound_step h.sound hop, hdistinct, fun r hr => ?_, st, hheap _ st hst, hpost⟩
  rcases hhot r _ hr with hr | hle
  · exact h.own r hr
  · exact absurd (List.getElem?_eq_some_iff.mp hst).1 (Nat.not_lt.mpr hle)

theorem intact_onBlockBatch {s : Service σ} (h : Intact tree s)
    (hallowed : Allowed tree s (.onBlockBatch batch)) :
    Intact tree (step tree s (.onBlockBatch batch)) := by
  obtain ⟨x, rest, hblocks, hlinear, hfail⟩ := hallowed
  obtain ⟨st, hst, hpost⟩ := h.head
  have hlength : s.headState < s.manager.heap.length := (List.getElem?_eq_some_iff.mp hst).1
  have hspec := runBatch_spec (T := T) h.sound h.distinct hblocks hlinear
  unfold step
  cases hrun : runBatch T batch s.manager with
  | error e w =>
    rw [hrun] at hspec
    simp only [onBlockBatch, hrun] at hfail ⊢
    have hne : s.manager.hotStateCache.peek x.block.parentRoot ≠ some s.headState :=
      fun hr => nomatch hfail (h.own _ hr)
    refine ⟨hspec.sound, hspec.distinct, fun r hr => ?_, st, hspec.heap _ st hst hne, hpost⟩
    rcases hspec.hot r _ hr with hr | hle
    · exact h.own r hr
    · exact absurd hlength (Nat.not_lt.mpr hle)
  | ok result w =>
    obtain ⟨r, o⟩ := result
    rw [hrun] at hspec
    simp only [onBlockBatch, hrun, Service.saveHeadNoDB]
    split
    · -- the head stays; its object is not the one the batch worked on
      rename_i hr
      have hne : s.headState ≠ o := by
        rintro rfl
        rcases hspec.source with hsource | hle
        · exact hspec.ne (hr.trans (h.own _ hsource).symm)
        · exact absurd hlength (Nat.not_lt.mpr hle)
      refine ⟨hspec.sound, hspec.distinct, fun r' hr' => ?_, st, hspec.heap _ st hne hst, hpost⟩
      rcases hspec.hot r' _ hr' with hr' | hle | ⟨-, heq⟩
      · exact h.own r' hr'
      · exact absurd hlength (Nat.not_lt.mpr hle)
      · exact absurd heq hne
    · exact ⟨hspec.sound, hspec.distinct, hspec.own, hspec.post⟩

/-- If no batch that starts from the head's own block fails, the object held by the
head always has the contents of the post state of the head's block. -/
theorem head_state_of_head_block (tree : BlockTree T) (slotsPerArchivedPoint : Slot)
    (es : List (Event σ))
    (hes : Admits (step tree) (Allowed tree) (startService tree slotsPerArchivedPoint) es) :
    HeadRight tree (es.foldl (step tree) (startService tree slotsPerArchivedPoint)) := by
  refine (Run.invariant (I := Intact tree) (fun s e h he => ?_)
    (intact_startService tree slotsPerArchivedPoint) hes).head
  cases e with
  | onBlockBatch batch => exact intact_onBlockBatch h he
  | manager op => exact intact_manager h he

def passing (root : Root) (b : Block) : BatchBlock (Slot × List Root) :=
  ⟨root, b, true, (0, []), true⟩

/-- A batch from the head's block that succeeds, and one from an earlier block whose
signatures are wrong. -/
theorem head_state_of_head_block_fork :
    HeadRight forkTree
      ([Event.onBlockBatch ⟨[passing 2 ⟨1, 1, 2, []⟩, passing 4 ⟨3, 2, 4, []⟩], true, true⟩,
        .onBlockBatch ⟨[passing 3 ⟨1, 1, 3, []⟩], true, false⟩].foldl (step forkTree)
          (startService forkTree 2048)) :=
  head_state_of_head_block forkTree 2048 _
    ⟨⟨_, _, rfl, ⟨rfl, rfl, rfl, rfl, trivial⟩, fun _ => rfl⟩,
      ⟨_, _, rfl, ⟨rfl, rfl, trivial⟩, fun h => absurd h (by decide)⟩, trivial⟩

/-- The second batch starts from the head's block and fails in the signature check:
the head is still block 2, and its state object has the post state of block 4. -/
theorem failed_batch_changes_head_state :
    ∃ es : List (Event (Slot × List Root)),
      Admits (step forkTree)
        (fun s e => match e with
          | .onBlockBatch batch => ∃ x rest, batch.blocks = x :: rest ∧
              Linear forkTree x.block.parentRoot batch.blocks
          | .manager op => Valid forkTree s.manager op)
        (startService forkTree 2048) es ∧
      ¬ HeadRight forkTree (es.foldl (step forkTree) (startService forkTree 2048)) := by
  refine ⟨[.onBlockBatch ⟨[passing 2 ⟨1, 1, 2, []⟩], true, true⟩,
    .onBlockBatch ⟨[passing 4 ⟨3, 2, 4, []⟩], true, false⟩],
    ⟨⟨_, _, rfl, rfl, rfl, trivial⟩, ⟨_, _, rfl, rfl, rfl, trivial⟩, trivial⟩, ?_⟩
  rintro ⟨st, hst, hpost⟩
  have hright : PostState forkTree 2 (1, [2]) := .block rfl .genesis rfl
  have hst' : (some (3, [2, 4]) : Option (Slot × List Root)) = some st := hst
  cases hst'
  exact absurd (hpost.unique hright) (by decide)

end Vanguard.Blockchain.Batch
