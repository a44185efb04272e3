import Vanguard.Blockchain.Types
import Vanguard.Lib.EState

/-!
The functions of the blockchain service around `onBlock` and `updateHead`.
-/

namespace Vanguard.Blockchain

open ProtoArray (ForkChoice RootMap)

/-! ### Assignments to the fields of the service -/

def setJustifiedCheckpt (c : Checkpoint) : ServiceM Unit :=
  modify fun w => { w with justifiedCheckpt := c }

def setBestJustifiedCheckpt (c : Checkpoint) : ServiceM Unit :=
  modify fun w => { w with bestJustifiedCheckpt := c }

def setPrevJustifiedCheckpt (c : Checkpoint) : ServiceM Unit :=
  modify fun w => { w with prevJustifiedCheckpt := c }

def setFinalizedCheckpt (c : Checkpoint) : ServiceM Unit :=
  modify fun w => { w with finalizedCheckpt := c }

def setPrevFinalizedCheckpt (c : Checkpoint) : ServiceM Unit :=
  modify fun w => { w with prevFinalizedCheckpt := c }

def setJustifiedBalances (balances : List Gwei) : ServiceM Unit :=
  modify fun w => { w with justifiedBalances := balances }

def setNextEpochBoundarySlot (slot : Slot) : ServiceM Unit :=
  modify fun w => { w with nextEpochBoundarySlot := slot }

def setForkChoice (f : ForkChoice) : ServiceM Unit := modify fun w => { w with forkChoice := f }

def setHead (slot : Slot) (root : Root) : ServiceM Unit :=
  modify fun w => { w with head := some ⟨slot, root⟩ }

def saveHeadBlockRoot (root : Root) : ServiceM Unit := do
  external
  modify fun w => { w with headBlockRoot := some root }

def saveInitSyncBlock (r : Root) (b : Block) : ServiceM Unit :=
  modify fun w => { w with initSyncBlocks := w.initSyncBlocks.insert r b }

/-! ### Blocks and ancestors -/

/-- `BeaconDB.Block` -/
def dbBlock (r : Root) : ServiceM (Option Block) := do
  external
  let w ← get
  pure w.blocks[r]?

/-- `BeaconDB.SaveBlock`: a block that is there already is kept. -/
def saveBlock (r : Root) (b : Block) : ServiceM Unit := do
  external
  modify fun w => { w with blocks := w.blocks.insertIfNew r b }

/-- `BeaconDB.SaveBlocks` of the initial sync blocks, and then
`clearInitSyncBlocks`. -/
def flushInitSyncBlocks : ServiceM Unit := do
  external
  modify fun w => { w with blocks := w.initSyncBlocks ∪ w.blocks, initSyncBlocks := ∅ }

/-- A block from the initial sync cache or else from the database. -/
def initSyncOrDBBlock (r : Root) : ServiceM (Option Block) := do
  let w ← get
  match w.initSyncBlocks[r]? with
  | some b => pure (some b)
  | none => dbBlock r

def Service.ensureRootNotZeros (s : Service) (root : Root) : Root :=
  if root = zeroHash then s.genesisRoot else root

def ancestorByForkChoiceStore (r : Root) (slot : Slot) : ServiceM Root := do
  let w ← get
  if w.forkChoice.hasParent r then
    let ctx ← nextCtx
    match ForkChoice.ancestorRoot ctx w.forkChoice r slot with
    | .ok a => pure a
    | .error e => throw (.forkChoice e)
  else throw .rootNotInForkChoice

/-- `ancestorByDB`. A chain of known blocks has at most as many blocks as are
known, which bounds the recursion. -/
def ancestorByDB : ℕ → Root → Slot → ServiceM Root
  | 0, _, _ => throw .diverged
  | fuel + 1, r, slot => do
    -- the poll of the context
    external
    let signed ← dbBlock r
    let w ← get
    match w.initSyncBlocks[r]?.or signed with
    | none => throw .nilBlock
    | some b => if b.slot ≤ slot then pure r else ancestorByDB fuel b.parentRoot slot

/-- `ancestor` asks the fork choice store first and then the database. -/
def ancestor (r : Root) (slot : Slot) : ServiceM Root := fun w =>
  match ancestorByForkChoiceStore r slot w with
  | .ok a w' => .ok a w'
  | .error _ w' => ancestorByDB (w'.blocks.size + w'.initSyncBlocks.size + 1) r slot w'

/-! ### The pre state -/

def verifyBlkDescendant (root : Root) : ServiceM Unit := do
  let w ← get
  let fRoot := w.ensureRootNotZeros w.finalizedCheckpt.root
  match ← dbBlock fRoot with
  | none => throw .nilFinalizedBlock
  | some finalizedBlk =>
    let bFinalizedRoot ← ancestor root finalizedBlk.slot
    if bFinalizedRoot ≠ fRoot then throw (.notDescendantOfFinalized finalizedBlk.slot)

def verifyBlkPreState (env : Env) (b : Block) : ServiceM Unit := do
  let w ← get
  if !env.hasStateSummary b.parentRoot && !w.blocks.contains b.parentRoot then
    throw .noParentState
  verifyBlkDescendant b.parentRoot
  external
  if !env.hasState b.parentRoot then flushInitSyncBlocks

def verifyBlkFinalizedSlot (cfg : Config) (b : Block) : ServiceM Unit := do
  let w ← get
  let finalizedSlot ← ofExcept (startSlot cfg w.finalizedCheckpt.epoch)
  if b.slot ≤ finalizedSlot then throw (.notAfterFinalized b.slot finalizedSlot)

/-- `getBlockPreState`. A nil state is returned together with a nil error, as
`errors.Wrapf` of a nil error is nil, and the checks after it are skipped. -/
def getBlockPreState (cfg : Config) (env : Env) (b : Block) : ServiceM Unit := do
  verifyBlkPreState env b
  external
  if (env.stateBalances b.parentRoot).isSome then
    if !env.slotTimeVerified then throw .slotFromFuture
    verifyBlkFinalizedSlot cfg b

/-! ### Feeding the fork choice store -/

/-- The first loop of `fillInForkChoiceMissingBlocks`, which collects the
missing ancestors, the lowest in front. -/
def missingBlocks (finalizedSlot : Slot) :
    ℕ → Root → Slot → List (Root × Block) → ServiceM (List (Root × Block))
  | 0, _, _, _ => throw .diverged
  | fuel + 1, parentRoot, slot, pending => do
    let w ← get
    if !w.forkChoice.hasNode parentRoot && w.blocks.contains parentRoot &&
        decide (finalizedSlot < slot) then
      match ← dbBlock parentRoot with
      | none => throw .nilPointer
      | some b =>
        missingBlocks finalizedSlot fuel b.parentRoot b.slot ((parentRoot, b) :: pending)
    else pure pending

/-- `ForkChoiceStore.ProcessBlock` for a block of the chain. -/
def processBlock (root : Root) (b : Block) (fCheckpoint jCheckpoint : Checkpoint) :
    ServiceM Unit :=
  onForkChoice (ForkChoice.processBlock b.slot root b.parentRoot b.graffiti jCheckpoint.epoch
    fCheckpoint.epoch)

/-- The second loop of `fillInForkChoiceMissingBlocks`. -/
def processBlocks (fCheckpoint jCheckpoint : Checkpoint) :
    List (Root × Block) → ServiceM Unit
  | [] => pure ()
  | (r, b) :: rest => do
    processBlock r b fCheckpoint jCheckpoint
    processBlocks fCheckpoint jCheckpoint rest

def fillInForkChoiceMissingBlocks (cfg : Config) (blk : Block)
    (fCheckpoint jCheckpoint : Checkpoint) : ServiceM Unit := do
  let w ← get
  let fSlot ← ofExcept (startSlot cfg w.finalizedCheckpt.epoch)
  let pending ← missingBlocks fSlot (w.blocks.size + 1) blk.parentRoot blk.slot []
  processBlocks fCheckpoint jCheckpoint pending

def insertBlockToForkChoiceStore (cfg : Config) (blk : Block) (root : Root)
    (fCheckpoint jCheckpoint : Checkpoint) : ServiceM Unit := do
  fillInForkChoiceMissingBlocks cfg blk fCheckpoint jCheckpoint
  processBlock root blk fCheckpoint jCheckpoint

def processAttestations : List Attestation → ServiceM Unit
  | [] => pure ()
  | a :: rest =>
    match a.attestingIndices with
    | none => throw .noAttestingIndices
    | some indices => do
      onForkChoice (ForkChoice.processAttestation indices a.beaconBlockRoot a.targetEpoch)
      processAttestations rest

def insertBlockAndAttestationsToForkChoiceStore (cfg : Config) (blk : Block) (root : Root)
    (st : BeaconState) : ServiceM Unit := do
  insertBlockToForkChoiceStore cfg blk root st.finalizedCheckpoint st.currentJustifiedCheckpoint
  processAttestations blk.attestations

def savePostStateInfo (cfg : Config) (r : Root) (b : Block) (st : BeaconState)
    (initSync : Bool) : ServiceM Unit := do
  if initSync then saveInitSyncBlock r b
  else saveBlock r b
  external
  insertBlockAndAttestationsToForkChoiceStore cfg b r st

/-! ### Checkpoints -/

def cacheJustifiedStateBalances (env : Env) (justifiedRoot : Root) : ServiceM Unit := do
  flushInitSyncBlocks
  external
  let w ← get
  let balances := if justifiedRoot = w.genesisRoot then env.genesisBalances
    else env.stateBalances justifiedRoot
  match balances with
  | none => throw .nilJustifiedState
  | some justifiedBalances => setJustifiedBalances justifiedBalances

/-- `shouldUpdateCurrentJustified` prevents the bouncing attack: late in an
epoch only a descendant of the justified block is accepted. -/
def shouldUpdateCurrentJustified (cfg : Config) (env : Env) (newJustifiedCheckpt : Checkpoint) :
    ServiceM Bool := do
  if slotsSinceEpochStarts cfg env.currentSlot < cfg.safeSlotsToUpdateJustified then pure true
  else
    let w ← get
    let justifiedRoot := w.ensureRootNotZeros newJustifiedCheckpt.root
    match ← initSyncOrDBBlock justifiedRoot with
    | none => throw .nilNewJustifiedBlock
    | some newJustifiedBlock =>
      let jSlot ← ofExcept (startSlot cfg w.justifiedCheckpt.epoch)
      if newJustifiedBlock.slot ≤ jSlot then pure false
      else
        match ← initSyncOrDBBlock (w.ensureRootNotZeros w.justifiedCheckpt.root) with
        | none => throw .nilJustifiedBlock
        | some justifiedBlock =>
          let b ← ancestor justifiedRoot justifiedBlock.slot
          pure (decide (b = w.justifiedCheckpt.root))

/-- The part of `updateJustified` that keeps the latest justified checkpoint
seen so far. -/
def trackBestJustified (cpt : Checkpoint) : ServiceM Unit := do
  let w ← get
  if w.bestJustifiedCheckpt.epoch < cpt.epoch then setBestJustifiedCheckpt cpt

/-- The part of `updateJustified` that replaces the justified checkpoint. -/
def replaceJustified (env : Env) (cpt : Checkpoint) : ServiceM Unit := do
  let w ← get
  setPrevJustifiedCheckpt w.justifiedCheckpt
  setJustifiedCheckpt cpt
  cacheJustifiedStateBalances env cpt.root

def updateJustified (cfg : Config) (env : Env) (st : BeaconState) : ServiceM Unit := do
  let cpt := st.currentJustifiedCheckpoint
  trackBestJustified cpt
  let canUpdate ← shouldUpdateCurrentJustified cfg env cpt
  if canUpdate then replaceJustified env cpt
  -- `SaveJustifiedCheckpoint`
  external

def updateFinalized (cfg : Config) (cp : Checkpoint) : ServiceM Unit := do
  flushInitSyncBlocks
  -- `SaveFinalizedCheckpoint`
  external
  if !cfg.updateHeadTimely then
    let w ← get
    setPrevFinalizedCheckpt w.finalizedCheckpt
    setFinalizedCheckpt cp
  -- `MigrateToCold`
  external

def finalizedImpliesNewJustified (cfg : Config) (env : Env) (st : BeaconState) :
    ServiceM Unit := do
  let w ← get
  let cpt := st.currentJustifiedCheckpoint
  if w.justifiedCheckpt ≠ cpt then
    if w.justifiedCheckpt.epoch < cpt.epoch then
      setJustifiedCheckpt cpt
      cacheJustifiedStateBalances env cpt.root
    else
      let finalizedSlot ← ofExcept (startSlot cfg w.finalizedCheckpt.epoch)
      let anc ← ancestor (w.ensureRootNotZeros w.justifiedCheckpt.root) finalizedSlot
      if anc ≠ w.finalizedCheckpt.root then
        setJustifiedCheckpt cpt
        cacheJustifiedStateBalances env cpt.root

/-! ### The head -/

def headRoot : ServiceM Root := do
  let w ← get
  match w.head with
  | some h => if h.root ≠ zeroHash then pure h.root else savedHeadRoot
  | none => savedHeadRoot
where
  /-- The root of `BeaconDB.HeadBlock`. -/
  savedHeadRoot : ServiceM Root := do
    external
    let w ← get
    pure ((w.headBlockRoot.filter fun r => w.blocks.contains r).getD zeroHash)

def saveHead (env : Env) (newHeadRoot : Root) : ServiceM Unit := do
  let r ← headRoot
  if newHeadRoot = r then pure ()
  else if !env.hasStateSummary newHeadRoot then pure ()
  else
    match ← dbBlock newHeadRoot with
    | none => throw .nilHeadBlock
    | some newHeadBlock =>
      external
      if (env.stateBalances newHeadRoot).isNone then throw .nilHeadState
      let w ← get
      -- the state root of the old head is read for the re-org event
      if w.head.isNone then throw .nilPointer
      setHead newHeadBlock.slot newHeadRoot
      saveHeadBlockRoot newHeadRoot

/-- The part of `updateHead` that makes the best justified checkpoint the
justified one. -/
def promoteBestJustified (env : Env) : ServiceM Unit := do
  let w ← get
  if w.justifiedCheckpt.epoch < w.bestJustifiedCheckpt.epoch then
    setJustifiedCheckpt w.bestJustifiedCheckpt
    cacheJustifiedStateBalances env w.bestJustifiedCheckpt.root

/-- The part of `updateHead` that starts a new fork choice store if the
justified block is missing from it. -/
def reinitForkChoice (cfg : Config) (headStartRoot : Root) : ServiceM Unit := do
  let w ← get
  if !w.forkChoice.hasNode headStartRoot then
    match ← dbBlock headStartRoot with
    | none => throw .nilPointer
    | some jb =>
      let j := w.justifiedCheckpt
      let f := w.finalizedCheckpt
      setForkChoice (ForkChoice.new j.epoch f.epoch f.root)
      insertBlockToForkChoiceStore cfg jb headStartRoot f j

def updateHead (cfg : Config) (env : Env) (balances : List Gwei) : ServiceM Unit := do
  promoteBestJustified env
  let w ← get
  let f := w.finalizedCheckpt
  let j := w.justifiedCheckpt
  let headStartRoot := if j.root = zeroHash then w.genesisRoot else j.root
  reinitForkChoice cfg headStartRoot
  let ctx ← nextCtx
  let newHeadRoot ← onForkChoice (ForkChoice.head ctx j.epoch headStartRoot balances f.epoch)
  saveHead env newHeadRoot

/-! ### `onBlock` -/

def handleEpochBoundary (cfg : Config) (postState : BeaconState) : ServiceM Unit := do
  let w ← get
  if postState.slot + 1 = w.nextEpochBoundarySlot then
    -- committee cache, slot processing and proposer indices
    external
    external
    external
  else if w.nextEpochBoundarySlot ≤ postState.slot then
    external
    match startSlot cfg (slotToEpoch cfg postState.slot + 1) with
    | .ok slot => setNextEpochBoundarySlot slot
    | .error e =>
      setNextEpochBoundarySlot 0
      throw e
    external
    external

/-- `onBlock` up to the point where the block is in the database and in the
fork choice store. `transition` is what `ExecuteStateTransition` returns. -/
def acceptBlock (cfg : Config) (env : Env) (signed : Option Block) (blockRoot : Root)
    (transition : Option BeaconState) : ServiceM BeaconState :=
  match signed with
  | none => throw .nilBlock
  | some b => do
    getBlockPreState cfg env b
    match transition with
    | none => throw .stateTransition
    | some postState =>
      savePostStateInfo cfg blockRoot b postState false
      pure postState

/-- The update of the justified checkpoint in `onBlock`. -/
def updateJustifiedIfLater (cfg : Config) (env : Env) (postState : BeaconState) :
    ServiceM Unit := do
  let w ← get
  if w.justifiedCheckpt.epoch < postState.currentJustifiedCheckpoint.epoch then
    updateJustified cfg env postState

/-- The part of `onBlock` that runs only with `UpdateHeadTimely`. -/
def updateHeadTimely (cfg : Config) (env : Env) (postState : BeaconState) (newFinalized : Bool) :
    ServiceM Unit := do
  if newFinalized then
    finalizedImpliesNewJustified cfg env postState
    let w ← get
    setPrevFinalizedCheckpt w.finalizedCheckpt
    setFinalizedCheckpt postState.finalizedCheckpoint
  let w ← get
  logged (updateHead cfg env w.justifiedBalances)

/-- The update of the finalized checkpoint in `onBlock`. -/
def updateFinalizedIfNew (cfg : Config) (env : Env) (postState : BeaconState)
    (newFinalized : Bool) : ServiceM Unit := do
  if newFinalized then
    updateFinalized cfg postState.finalizedCheckpoint
    onForkChoice (ForkChoice.prune postState.finalizedCheckpoint.root)
    if !cfg.updateHeadTimely then finalizedImpliesNewJustified cfg env postState

/-- The checkpoint handling of `onBlock`: everything between
`savePostStateInfo` and `handleEpochBoundary`. -/
def handleCheckpoints (cfg : Config) (env : Env) (postState : BeaconState) : ServiceM Unit := do
  updateJustifiedIfLater cfg env postState
  let w ← get
  let newFinalized := decide (w.finalizedCheckpt.epoch < postState.finalizedCheckpoint.epoch)
  if cfg.updateHeadTimely then updateHeadTimely cfg env postState newFinalized
  updateFinalizedIfNew cfg env postState newFinalized

def onBlock (cfg : Config) (env : Env) (signed : Option Block) (blockRoot : Root)
    (transition : Option BeaconState) : ServiceM Unit := do
  let postState ← acceptBlock cfg env signed blockRoot transition
  handleCheckpoints cfg env postState
  handleEpochBoundary cfg postState

/-! ### Runs -/

inductive Op where
  | onBlock (env : Env) (signed : Option Block) (blockRoot : Root)
      (transition : Option BeaconState)
  | updateHead (env : Env)

/-- The call itself. The head is updated with the cached balances. -/
def Op.call (cfg : Config) : Op → ServiceM Unit
  | .onBlock env signed blockRoot transition =>
    Blockchain.onBlock cfg env signed blockRoot transition
  | .updateHead env => do
    let w ← get
    Blockchain.updateHead cfg env w.justifiedBalances

/-- The outside world during the call. -/
def Op.env : Op → Env
  | .onBlock env _ _ _ => env
  | .updateHead env => env

namespace Service

/-- The service at the start of a call. -/
def enter (s : Service) (env : Env) : World := { s with answers := env.answers }

/-- The service a call leaves behind, whether it failed or not. -/
def step (cfg : Config) (s : Service) (op : Op) : Service :=
  (EState.final (op.call cfg) (s.enter op.env)).toService

def run (cfg : Config) (s : Service) (ops : List Op) : Service := ops.foldl (step cfg) s

/-- The service that `saveGenesisData` sets up. -/
def genesis (genesisRoot : Root) (genesisBlk : Block) (balances : List Gwei) : Service where
  genesisRoot := genesisRoot
  justifiedCheckpt := ⟨0, zeroHash⟩
  prevJustifiedCheckpt := ⟨0, zeroHash⟩
  bestJustifiedCheckpt := ⟨0, zeroHash⟩
  finalizedCheckpt := ⟨0, zeroHash⟩
  prevFinalizedCheckpt := ⟨0, zeroHash⟩
  nextEpochBoundarySlot := 0
  justifiedBalances := balances
  head := some ⟨genesisBlk.slot, genesisRoot⟩
  initSyncBlocks := ∅
  blocks := (∅ : RootMap Block).insert genesisRoot genesisBlk
  headBlockRoot := some genesisRoot
  forkChoice := (ForkChoice.new 0 0 zeroHash).step
    (.processBlock genesisBlk.slot genesisRoot zeroHash 0 0 0)

end Service

end Vanguard.Blockchain
