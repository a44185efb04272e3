import Vanguard.Beacon.Committees

/-!
Seeds, active validators and proposers.

The proposers of an epoch are drawn by effective balance from the active validators, and kept
in a cache under a state root of an earlier epoch. Calls are modelled with the contents of that
cache; the committee cache is off, so that what it would store is computed and dropped.

The search for a proposer has no bound in the source. The model gives up after `fuel` rounds.
-/

namespace Vanguard.Beacon

open Shuffle

def domainBeaconProposer : Bytes := [0, 0, 0, 0]

def domainBeaconAttester : Bytes := [1, 0, 0, 0]

def genesisEpoch : Epoch := 0

def maxProposerIndicesCacheSize : ℕ := 8

def rootBytes (r : Root) : Bytes := Bytes.bigEndian 32 r.toNat

def randaoMix (state : BeaconState) (epoch : Epoch) : Except BeaconErr Root :=
  atIndex state.randaoMixes (epoch % epochsPerHistoricalVector)

def activeIndices (validators : List Validator) (epoch : Epoch) : List ValidatorIndex :=
  ((List.range validators.length).filter fun i =>
    validators[i]?.any (isActiveValidator · epoch)).map (BitVec.ofNat 64)

section

variable (hash : Bytes → Root) (fuel : ℕ)

def seed (state : BeaconState) (epoch : Epoch) (domain : Bytes) : Except BeaconErr Root :=
  let lookAheadEpoch := epoch + epochsPerHistoricalVector - minSeedLookahead - 1
  (randaoMix state lookAheadEpoch).map fun mix =>
    hash (domain ++ Bytes.ofUint64LE epoch ++ rootBytes mix)

/-! ### Active validators -/

def shuffledIndices (state : BeaconState) (epoch : Epoch) :
    Except BeaconErr (List ValidatorIndex) := do
  let s ← errorsWrap (seed hash state epoch domainBeaconAttester)
    s!"could not get seed for epoch {epoch.toNat}"
  unshuffleList hash shuffleRoundCount (activeIndices state.validators epoch) s

/-- `UpdateCommitteeCache`: what it would add for the epoch and the next one. -/
def updateCommitteeCache (state : BeaconState) (epoch : Epoch) :
    Except BeaconErr (List (Root × List ValidatorIndex)) :=
  [epoch, epoch + 1].mapM fun e => do
    let s ← seed hash state e domainBeaconAttester
    let indices ← shuffledIndices hash state e
    return (s, indices)

def activeValidatorIndices (state : BeaconState) (epoch : Epoch) :
    Except BeaconErr (List ValidatorIndex) := do
  let _ ← errorsWrap (seed hash state epoch domainBeaconAttester) "could not get seed"
  let _ ← errorsWrap (updateCommitteeCache hash state epoch) "could not update committee cache"
  return activeIndices state.validators epoch

/-- `ActiveValidatorCount`, with its errors. -/
def countActiveValidators (state : BeaconState) (epoch : Epoch) : Except BeaconErr (BitVec 64) := do
  let _ ← errorsWrap (seed hash state epoch domainBeaconAttester) "could not get seed"
  let _ ← errorsWrap (updateCommitteeCache hash state epoch) "could not update committee cache"
  return activeValidatorCount state epoch

/-! ### The proposer of a slot -/

/-- Whether a validator is drawn, given a random byte. -/
def drawn (effectiveBal : Gwei) (randomByte : BitVec 8) : Bool :=
  decide (maxEffectiveBalance * randomByte.setWidth 64 ≤ effectiveBal * 255)

def randomByteAt (seed : Root) (i : BitVec 64) : BitVec 8 :=
  hashByte (hash (rootBytes seed ++ Bytes.ofUint64LE (i / 32))) (i % 32).toNat

def candidateAt (validators : List Validator) (activeIndices : List ValidatorIndex) (seed : Root)
    (i : BitVec 64) : Except BeaconErr ValidatorIndex := do
  let length := BitVec.ofNat 64 activeIndices.length
  let k ← computeShuffledIndex hash shuffleRoundCount (i % length) length seed true
  match activeIndices[k.toNat]? with
  | none => .error .indexPanic
  | some candidateIndex =>
    if validators.length ≤ candidateIndex.toNat then .error .activeIndexOutOfRange
    else .ok candidateIndex

/-- The loop of `ComputeProposerIndex`. -/
def searchProposer (validators : List Validator) (activeIndices : List ValidatorIndex)
    (seed : Root) : ℕ → BitVec 64 → Except BeaconErr ValidatorIndex
  | 0, _ => .error .outOfFuel
  | fuel + 1, i => do
    let candidateIndex ← candidateAt hash validators activeIndices seed i
    let v ← atIndex validators candidateIndex
    if drawn v.effectiveBalance (randomByteAt hash seed i) then return candidateIndex
    else searchProposer validators activeIndices seed fuel (i + 1)

def computeProposerIndex (validators : List Validator) (activeIndices : List ValidatorIndex)
    (seed : Root) : Except BeaconErr ValidatorIndex :=
  if activeIndices.length = 0 then .error .emptyActiveIndices
  else searchProposer hash validators activeIndices seed fuel 0

def proposerOfSlot (validators : List Validator) (activeIndices : List ValidatorIndex)
    (seed : Root) (slot : Slot) : Except BeaconErr ValidatorIndex :=
  computeProposerIndex hash fuel validators activeIndices
    (hash (rootBytes seed ++ Bytes.ofUint64LE slot))

/-- `ComputeProposerIndex` for the slot, the active validators and the seed of a state. -/
def directProposerIndex (state : BeaconState) : Except BeaconErr ValidatorIndex := do
  let s ← errorsWrap (seed hash state (currentEpoch state) domainBeaconProposer)
    "could not generate seed"
  let indices ← errorsWrap (activeValidatorIndices hash state (currentEpoch state))
    "could not get active indices"
  proposerOfSlot hash fuel state.validators indices s state.slot

/-! ### The cache of proposers -/

/-- `ProposerIndicesCache`, the oldest entry first. -/
abbrev ProposerIndicesCache := List (Root × List ValidatorIndex)

def addProposerIndices (cache : ProposerIndicesCache) (blockRoot : Root)
    (proposerIndices : List ValidatorIndex) : ProposerIndicesCache :=
  let added := if (cache.lookup blockRoot).isSome then cache
    else cache ++ [(blockRoot, proposerIndices)]
  added.drop (added.length - maxProposerIndicesCacheSize)

/-- The key for the proposers of an epoch, given the epoch before it. -/
def proposerIndicesKey (state : BeaconState) (prevEpoch : Epoch) : Except BeaconErr Root :=
  let wantedEpoch := if minSeedLookahead ≤ prevEpoch then prevEpoch - minSeedLookahead
    else prevEpoch
  (endSlot wantedEpoch).bind (stateRootAtSlot state)

def precomputeProposerIndices (state : BeaconState) (activeIndices : List ValidatorIndex) :
    Except BeaconErr (List ValidatorIndex) := do
  let s ← errorsWrap (seed hash state (currentEpoch state) domainBeaconProposer)
    "could not generate seed"
  let slot ← startSlot (currentEpoch state)
  (List.range slotsPerEpoch.toNat).mapM fun i =>
    proposerOfSlot hash fuel state.validators activeIndices s (slot + BitVec.ofNat 64 i)

def proposersOfEpoch (state : BeaconState) : Except BeaconErr (List ValidatorIndex) := do
  let indices ← activeValidatorIndices hash state (currentEpoch state)
  precomputeProposerIndices hash fuel state indices

def updateProposerIndicesInCache (cache : ProposerIndicesCache) (state : BeaconState) :
    Except BeaconErr ProposerIndicesCache :=
  if currentEpoch state ≤ genesisEpoch + minSeedLookahead then .ok cache
  else do
    let r ← proposerIndicesKey state (currentEpoch state - 1)
    if r = zeroHash ∨ (cache.lookup r).isSome then return cache
    else
      let proposerIndices ← proposersOfEpoch hash fuel state
      return addProposerIndices cache r proposerIndices

/-- The part of `BeaconProposerIndex` that asks the cache: what it found and what the cache
holds then. -/
def askProposerCache (cache : ProposerIndicesCache) (state : BeaconState) :
    Except BeaconErr (Option (List ValidatorIndex) × ProposerIndicesCache) :=
  if genesisEpoch + minSeedLookahead < currentEpoch state then do
    let r ← proposerIndicesKey state (prevEpoch state)
    if r = zeroHash then return (none, cache)
    else
      match cache.lookup r with
      | some proposerIndices => return (some proposerIndices, cache)
      | none =>
        let cache' ← errorsWrap (updateProposerIndicesInCache hash fuel cache state)
          "could not update committee cache"
        return (none, cache')
  else .ok (none, cache)

def cachedProposer (proposerIndices : List ValidatorIndex) (slot : Slot) :
    Except BeaconErr ValidatorIndex :=
  if proposerIndices.length ≠ slotsPerEpoch.toNat then
    .error (.proposerIndicesLength proposerIndices.length)
  else
    match proposerIndices[(slot % slotsPerEpoch).toNat]? with
    | some index => .ok index
    | none => .error .indexPanic

/-- `BeaconProposerIndex`, with the cache after the call. -/
def beaconProposerIndex (cache : ProposerIndicesCache) (state : BeaconState) :
    ProposerIndicesCache × Except BeaconErr ValidatorIndex :=
  match askProposerCache hash fuel cache state with
  | .error e => (cache, .error e)
  | .ok (some proposerIndices, cache') => (cache', cachedProposer proposerIndices state.slot)
  | .ok (none, cache') => (cache', directProposerIndex hash fuel state)

/-- `BeaconProposerIndex` with the cache off: nothing is found in it. -/
def proposerIndex (state : BeaconState) : Except BeaconErr ValidatorIndex :=
  (beaconProposerIndex hash fuel [] state).2

end

end Vanguard.Beacon
