import Vanguard.ProtoArray.ForkChoice

/-!
The data of the blockchain service: blocks and states as far as checkpoint
handling reads them, the service itself, and the outside world it runs in.

The database, the state generator and the context are consulted at many
points of a call, and any of these may fail. A call is given a list of
answers for them: each consultation takes the next one, and past the end of
the list nothing fails. What a consultation returns when it succeeds is fixed
for the call.
-/

namespace Vanguard.Blockchain

open ProtoArray (RootMap ForkChoice)

structure Checkpoint where
  epoch : Epoch
  root : Root
  deriving DecidableEq, Repr

/-- An attestation in a block. The attesting indices are missing where the
committee or the aggregation bits cannot be read. -/
structure Attestation where
  attestingIndices : Option (List ℕ)
  beaconBlockRoot : Root
  targetEpoch : Epoch
  deriving DecidableEq, Repr

/-- `interfaces.BeaconBlock` -/
structure Block where
  slot : Slot
  parentRoot : Root
  graffiti : Root
  attestations : List Attestation
  deriving DecidableEq, Repr

/-- A post state, as far as the service reads it. -/
structure BeaconState where
  slot : Slot
  currentJustifiedCheckpoint : Checkpoint
  finalizedCheckpoint : Checkpoint
  deriving DecidableEq, Repr

/-- The parameters of the network and the feature flag that reorders
`onBlock`. -/
structure Config where
  slotsPerEpoch : Slot
  safeSlotsToUpdateJustified : Slot
  updateHeadTimely : Bool
  deriving DecidableEq, Repr

def Config.mainnet (updateHeadTimely : Bool) : Config := ⟨32, 8, updateHeadTimely⟩

/-- The outside world during a call. A state is read for the balances of its
active validators; `none` is the nil state. -/
structure Env where
  currentSlot : Slot
  slotTimeVerified : Bool
  hasStateSummary : Root → Bool
  hasState : Root → Bool
  genesisBalances : Option (List Gwei)
  stateBalances : Root → Option (List Gwei)
  answers : List Ctx

/-- The errors of the package. The last two stand for a runtime panic and for
a recursion that never returns. -/
inductive Err where
  | nilBlock
  | noParentState
  | nilFinalizedBlock
  | notDescendantOfFinalized (slot : Slot)
  | notAfterFinalized (slot finalizedSlot : Slot)
  | slotFromFuture
  | stateTransition
  | noAttestingIndices
  | nilNewJustifiedBlock
  | nilJustifiedBlock
  | nilJustifiedState
  | nilHeadBlock
  | nilHeadState
  | startSlotOverflow
  | rootNotInForkChoice
  | forkChoice (e : ProtoArray.Err)
  | external
  | nilPointer
  | diverged
  deriving DecidableEq, Repr

/-- What Go does not report as an error value. -/
def Err.isPanic : Err → Bool
  | .nilPointer => true
  | .diverged => true
  | .forkChoice .indexOutOfRange => true
  | .forkChoice .diverged => true
  | _ => false

structure Head where
  slot : Slot
  root : Root
  deriving DecidableEq, Repr

structure Service where
  genesisRoot : Root
  justifiedCheckpt : Checkpoint
  prevJustifiedCheckpt : Checkpoint
  bestJustifiedCheckpt : Checkpoint
  finalizedCheckpt : Checkpoint
  prevFinalizedCheckpt : Checkpoint
  nextEpochBoundarySlot : Slot
  justifiedBalances : List Gwei
  head : Option Head
  initSyncBlocks : RootMap Block
  /-- The blocks bucket of the database. -/
  blocks : RootMap Block
  /-- The head root in the database. -/
  headBlockRoot : Option Root
  forkChoice : ForkChoice

/-- A service in the middle of a call, with the answers of the outside world
that are still to come. -/
structure World extends Service where
  answers : List Ctx

/-- Computations of the service that may fail part way. -/
abbrev ServiceM := EStateM Err World

def startSlot (cfg : Config) (epoch : Epoch) : Except Err Slot :=
  if cfg.slotsPerEpoch.toNat * epoch.toNat < 2 ^ 64 then .ok (cfg.slotsPerEpoch * epoch)
  else .error .startSlotOverflow

def slotsSinceEpochStarts (cfg : Config) (slot : Slot) : Slot := slot % cfg.slotsPerEpoch

def slotToEpoch (cfg : Config) (slot : Slot) : Epoch := slot / cfg.slotsPerEpoch

/-- The next answer of the outside world. -/
def nextCtx : ServiceM Ctx := fun w =>
  match w.answers with
  | [] => .ok .background w
  | ctx :: rest => .ok ctx { w with answers := rest }

/-- A consultation that either fails or returns. -/
def external : ServiceM Unit := do
  let ctx ← nextCtx
  if ctx.err 0 then throw .external

/-- A pure computation inside the service. -/
def ofExcept {α : Type} : Except Err α → ServiceM α
  | .ok a => pure a
  | .error e => throw e

def onForkChoice {α : Type} (x : ProtoArray.ForkChoiceM α) : ServiceM α := fun w =>
  match x w.forkChoice with
  | .ok a f => .ok a { w with forkChoice := f }
  | .error e f => .error (.forkChoice e) { w with forkChoice := f }

/-- The failure of `x` is logged and the call goes on. -/
def logged (x : ServiceM Unit) : ServiceM Unit := fun w =>
  match x w with
  | .ok _ w' => .ok () w'
  | .error e w' => if e.isPanic then .error e w' else .ok () w'

end Vanguard.Blockchain
