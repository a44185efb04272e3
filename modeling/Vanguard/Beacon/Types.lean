import Vanguard.Basic
import Vanguard.Lib.Bytes

/-!
The beacon state and its parameters.

Parameters have their mainnet values. A `[]byte` that always holds 32 bytes is a
`Root`. The state is the value that the getters return; how copies of a state share
their slices is modelled separately.
-/

namespace Vanguard.Beacon

open BitVec

abbrev ValidatorIndex := BitVec 64

abbrev CommitteeIndex := BitVec 64

/-- A public key, `[48]byte`. -/
abbrev PubKey := BitVec 384

/-! ### Parameters -/

def farFutureEpoch : Epoch := 18446744073709551615

def slotsPerEpoch : Slot := 32

def slotsPerHistoricalRoot : Slot := 8192

def epochsPerHistoricalVector : Epoch := 65536

def minSeedLookahead : Epoch := 1

def maxSeedLookahead : Epoch := 4

def minPerEpochChurnLimit : BitVec 64 := 4

def churnLimitQuotient : BitVec 64 := 65536

def minValidatorWithdrawabilityDelay : Epoch := 256

def maxEffectiveBalance : Gwei := 32000000000

def ejectionBalance : Gwei := 16000000000

/-! ### Messages -/

structure Checkpoint where
  epoch : Epoch
  root : Root
  deriving DecidableEq, Repr, Inhabited

structure Validator where
  publicKey : PubKey
  withdrawalCredentials : Root
  effectiveBalance : Gwei
  slashed : Bool
  activationEligibilityEpoch : Epoch
  activationEpoch : Epoch
  exitEpoch : Epoch
  withdrawableEpoch : Epoch
  deriving DecidableEq, Repr, Inhabited

structure Fork where
  previousVersion : Bytes
  currentVersion : Bytes
  epoch : Epoch
  deriving DecidableEq, Repr, Inhabited

structure BeaconBlockHeader where
  slot : Slot
  proposerIndex : ValidatorIndex
  parentRoot : Root
  stateRoot : Root
  bodyRoot : Root
  deriving DecidableEq, Repr, Inhabited

structure Eth1Data where
  depositRoot : Root
  depositCount : BitVec 64
  blockHash : Root
  deriving DecidableEq, Repr, Inhabited

structure AttestationData where
  slot : Slot
  committeeIndex : CommitteeIndex
  beaconBlockRoot : Root
  source : Checkpoint
  target : Checkpoint
  deriving DecidableEq, Repr, Inhabited

/-- `pb.PendingAttestation`; the aggregation bits are a bitlist. -/
structure PendingAttestation where
  aggregationBits : List Bool
  data : AttestationData
  inclusionDelay : Slot
  proposerIndex : ValidatorIndex
  deriving DecidableEq, Repr, Inhabited

structure BeaconState where
  genesisTime : BitVec 64
  genesisValidatorsRoot : Root
  slot : Slot
  fork : Fork
  latestBlockHeader : BeaconBlockHeader
  blockRoots : List Root
  stateRoots : List Root
  historicalRoots : List Root
  eth1Data : Eth1Data
  eth1DataVotes : List Eth1Data
  eth1DepositIndex : BitVec 64
  validators : List Validator
  balances : List Gwei
  randaoMixes : List Root
  slashings : List Gwei
  previousEpochAttestations : List PendingAttestation
  currentEpochAttestations : List PendingAttestation
  justificationBits : BitVec 4
  previousJustifiedCheckpoint : Checkpoint
  currentJustifiedCheckpoint : Checkpoint
  finalizedCheckpoint : Checkpoint
  deriving DecidableEq, Repr, Inhabited

structure Balance where
  activeCurrentEpoch : Gwei
  activePrevEpoch : Gwei
  currentEpochAttested : Gwei
  currentEpochTargetAttested : Gwei
  prevEpochAttested : Gwei
  prevEpochTargetAttested : Gwei
  prevEpochHeadAttested : Gwei
  deriving DecidableEq, Repr, Inhabited

inductive BeaconErr where
  /-- `start slot calculation overflows` -/
  | startSlotOverflows
  /-- `slot overflows uint64` -/
  | slotOverflows
  /-- `slot %d out of bounds` -/
  | slotOutOfBounds (slot : Slot)
  /-- `index %d out of range`, of a slice of the state. -/
  | indexOutOfRange (index : BitVec 64)
  /-- `invalid index provided %d` -/
  | invalidIndex (index : BitVec 64)
  /-- `list size %d out of bounds` -/
  | listSizeOutOfBounds (size : ℕ)
  /-- `index out of range` -/
  | committeeOutOfRange
  /-- The run time error of an index that a slice does not have. -/
  | indexPanic
  /-- `input index %d out of bounds: %d` -/
  | inputIndexOutOfBounds (index indexCount : ℕ)
  /-- `empty active indices list` -/
  | emptyActiveIndices
  /-- `active index out of range` -/
  | activeIndexOutOfRange
  /-- `length of proposer indices is not equal %d to slots per epoch` -/
  | proposerIndicesLength (length : ℕ)
  /-- No result after the given number of rounds of a loop without a bound. -/
  | outOfFuel
  /-- `fork version length is not 4 byte` -/
  | forkVersionLength
  /-- An error of `PublicKeyFromBytes`. -/
  | publicKeyBytes
  /-- `nil or empty public keys` -/
  | emptyPublicKeys
  /-- An error of `SignatureFromBytes`. -/
  | signatureBytes
  /-- `signature did not verify` -/
  | sigFailedToVerify
  /-- `some attestations were not verified from previous fork before genesis` -/
  | unverifiedPreForkAttestations
  /-- `state slot: %d is different than block slot: %d` -/
  | blockSlot (stateSlot blockSlot : Slot)
  /-- `proposer index: %d is different than calculated: %d` -/
  | proposerIndex (proposerIndex calculated : ValidatorIndex)
  /-- `block.Slot %d must be greater than state.LatestBlockHeader.Slot %d` -/
  | blockNotNewer (slot headerSlot : Slot)
  /-- `parent root %#x does not match the latest block header signing root in state %#x` -/
  | parentRoot (parentRoot headerRoot : Root)
  /-- `proposer at index %d was previously slashed` -/
  | proposerSlashed (index : ValidatorIndex)
  /-- `number of %s (%d) in block body exceeds allowed threshold of %d` -/
  | tooManyOperations (operation : String) (count threshold : ℕ)
  /-- `expected state.deposit_index %d <= eth1data.deposit_count %d` -/
  | depositIndex (depositIndex depositCount : BitVec 64)
  /-- `incorrect outstanding deposits in block body, wanted: %d, got: %d` -/
  | outstandingDeposits (wanted : BitVec 64) (got : ℕ)
  /-- `mismatched header slots, received %d == %d` -/
  | headerSlots (slot₁ slot₂ : Slot)
  /-- `mismatched indices, received %d == %d` -/
  | headerIndices (index₁ index₂ : ValidatorIndex)
  /-- `expected slashing headers to differ` -/
  | sameHeaders
  /-- `validator with key %#x is not slashable` -/
  | notSlashable (publicKey : PubKey)
  /-- `unable to slash any validator despite confirmed attester slashing` -/
  | nobodySlashed
  /-- `attestations are not slashable` -/
  | attestationsNotSlashable
  /-- `expected non-empty attesting indices` -/
  | noAttestingIndices
  /-- `validator indices count exceeds MAX_VALIDATORS_PER_COMMITTEE, %d > %d` -/
  | tooManyAttestingIndices (count limit : ℕ)
  /-- `attesting indices is not uniquely sorted` -/
  | indicesNotSorted
  /-- `bitfield length %d is not equal to committee length %d` -/
  | bitfieldLength (length committeeLength : ℕ)
  /-- `wanted participants bitfield length %d, got: %d` -/
  | participantsLength (wanted got : ℕ)
  /-- `expected target epoch (%d) to be the previous epoch (%d) or the current epoch (%d)` -/
  | targetEpoch (target prevEpoch currEpoch : Epoch)
  /-- `source check point not equal to current justified checkpoint` -/
  | currentSource
  /-- `source check point not equal to previous justified checkpoint` -/
  | previousSource
  /-- `slot %d does not match target epoch %d` -/
  | slotTargetEpoch (slot : Slot) (target : Epoch)
  /-- `attestation slot %d + inclusion delay %d > state slot %d` -/
  | includedEarly (slot delay stateSlot : Slot)
  /-- `state slot %d > attestation slot %d + SLOTS_PER_EPOCH %d` -/
  | includedLate (stateSlot slot slotsPerEpoch : Slot)
  /-- `committee index %d >= committee count %d` -/
  | committeeIndex (index : CommitteeIndex) (count : BitVec 64)
  /-- `%s pending attestation exceeds max length %d` -/
  | pendingAttestations (list : String) (max : ℕ)
  /-- `deposit merkle branch of deposit root did not verify for root: %#x` -/
  | depositBranch (root : Root)
  /-- `index of %d does not exist` -/
  | balanceIndex (index : ValidatorIndex)
  /-- `non-active validator cannot exit` -/
  | inactiveExit
  /-- `validator with index %d has already submitted an exit, which will take place at epoch: %v` -/
  | alreadyExited (index : ValidatorIndex) (exitEpoch : Epoch)
  /-- `expected current epoch >= exit epoch, received %d < %d` -/
  | exitTooEarly (currentEpoch exitEpoch : Epoch)
  /-- `validator has not been active long enough to exit: %d of %d epochs. Validator will be
  eligible for exit at epoch %d` -/
  | cannotExitYet (active period eligible : Epoch)
  /-- `attestation with inclusion delay of 0` -/
  | inclusionDelayZero
  /-- `precomputed registries not the same length as state registries` -/
  | precomputedLength
  /-- `proposer index out of range` -/
  | proposerIndexOutOfRange
  /-- `validator index exceeds validator length in state %d >= %d` -/
  | validatorIndexExceeds (index length : ℕ)
  /-- `state slashing length %d different than EpochsPerHistoricalVector %d` -/
  | slashingsLength (length expected : ℕ)
  /-- `state randao length %d different than EpochsPerHistoricalVector %d` -/
  | randaoLength (length expected : ℕ)
  /-- `expected state.slot %d < slot %d` -/
  | slotNotAhead (stateSlot slot : Slot)
  /-- An error of `GenerateTrieFromItems`. -/
  | depositTrie
  /-- The run time error of a division by zero. -/
  | divisionPanic
  /-- `requested index out of bound` -/
  | requestedIndexOutOfBound
  /-- `errors.Wrap` -/
  | wrapped (message : String) (cause : BeaconErr)
  deriving DecidableEq, Repr

/-- `errors.Wrap` for the error of a call. -/
def errorsWrap {α : Type} (x : Except BeaconErr α) (message : String) : Except BeaconErr α :=
  x.mapError (.wrapped message)

@[simp] theorem errorsWrap_eq_ok {α : Type} {x : Except BeaconErr α} {message : String} {a : α} :
    errorsWrap x message = .ok a ↔ x = .ok a := by
  cases x <;> simp [errorsWrap, Except.mapError]

/-! ### Slots and epochs -/

def slotToEpoch (slot : Slot) : Epoch := slot / slotsPerEpoch

def currentEpoch (state : BeaconState) : Epoch := slotToEpoch state.slot

def prevEpoch (state : BeaconState) : Epoch :=
  if currentEpoch state = 0 then 0 else currentEpoch state - 1

/-- `StartSlot`; the product is checked for overflow. -/
def startSlot (epoch : Epoch) : Except BeaconErr Slot :=
  if slotsPerEpoch.toNat * epoch.toNat < 2 ^ 64 then .ok (slotsPerEpoch * epoch)
  else .error .startSlotOverflows

def endSlot (epoch : Epoch) : Except BeaconErr Slot :=
  if epoch = 18446744073709551615 then .error .startSlotOverflows
  else (startSlot (epoch + 1)).map (· - 1)

/-- An element of a slice of the state, by index. -/
def atIndex {α : Type} (l : List α) (index : BitVec 64) : Except BeaconErr α :=
  match l[index.toNat]? with
  | some a => .ok a
  | none => .error (.indexOutOfRange index)

def blockRootAtSlot (state : BeaconState) (slot : Slot) : Except BeaconErr Root :=
  if 18446744073709551615 - slot < slotsPerHistoricalRoot then .error .slotOverflows
  else if state.slot ≤ slot ∨ slot + slotsPerHistoricalRoot < state.slot then
    .error (.slotOutOfBounds slot)
  else atIndex state.blockRoots (slot % slotsPerHistoricalRoot)

def stateRootAtSlot (state : BeaconState) (slot : Slot) : Except BeaconErr Root :=
  if state.slot ≤ slot ∨ slot + slotsPerHistoricalRoot < state.slot then
    .error (.slotOutOfBounds slot)
  else atIndex state.stateRoots (slot % slotsPerHistoricalRoot)

def blockRoot (state : BeaconState) (epoch : Epoch) : Except BeaconErr Root :=
  (startSlot epoch).bind (blockRootAtSlot state)

/-! ### Validators -/

def updateValidatorAtIndex (state : BeaconState) (idx : ValidatorIndex) (val : Validator) :
    Except BeaconErr BeaconState :=
  if state.validators.length ≤ idx.toNat then .error (.invalidIndex idx)
  else .ok { state with validators := state.validators.set idx.toNat val }

def isActiveValidator (validator : Validator) (epoch : Epoch) : Bool :=
  decide (validator.activationEpoch ≤ epoch ∧ epoch < validator.exitEpoch)

/-- `ActiveValidatorCount`, without the committee cache. -/
def activeValidatorCount (state : BeaconState) (epoch : Epoch) : BitVec 64 :=
  BitVec.ofNat 64 (state.validators.countP (isActiveValidator · epoch))

def activationExitEpoch (epoch : Epoch) : Epoch := epoch + 1 + maxSeedLookahead

def validatorChurnLimit (activeValidatorCount : BitVec 64) : BitVec 64 :=
  let churnLimit := activeValidatorCount / churnLimitQuotient
  if churnLimit < minPerEpochChurnLimit then minPerEpochChurnLimit else churnLimit

theorem toNat_slotToEpoch (slot : Slot) : (slotToEpoch slot).toNat = slot.toNat / 32 := by
  rw [slotToEpoch, toNat_udiv]
  rfl

variable (state : BeaconState)

theorem currentEpoch_lt : (currentEpoch state).toNat < 2 ^ 59 := by
  rw [currentEpoch, toNat_slotToEpoch]
  have := state.slot.isLt
  omega

theorem toNat_prevEpoch : (prevEpoch state).toNat = (currentEpoch state).toNat - 1 := by
  rw [prevEpoch]
  split
  · next h =>
    rw [h]
    rfl
  · next h =>
    have hpos : 0 < (currentEpoch state).toNat :=
      Nat.pos_of_ne_zero fun hzero => h (eq_of_toNat_eq hzero)
    exact toNat_sub_of_le (le_def.mpr hpos)

theorem atIndex_eq_ok {α : Type} {l : List α} {index : BitVec 64} {a : α} :
    atIndex l index = .ok a ↔ l[index.toNat]? = some a := by
  rw [atIndex]
  split
  · next b hb => rw [hb, Except.ok.injEq, Option.some.injEq]
  · next hb => simp [hb]

theorem validatorChurnLimit_pos (n : BitVec 64) : 0 < (validatorChurnLimit n).toNat := by
  rw [validatorChurnLimit]
  split
  · decide
  · next h =>
    rw [BitVec.not_lt, le_def] at h
    exact lt_of_lt_of_le (by decide) h

end Vanguard.Beacon
