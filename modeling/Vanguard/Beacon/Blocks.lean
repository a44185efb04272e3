import Vanguard.Lib.Text
import Vanguard.Beacon.Signing
import Vanguard.Beacon.ExitQueue

/-!
Block processing.

`processBlock` runs the pipeline that verifies each signature where it is used.
`processBlockNoVerifyAnySig` changes the state in the same way and collects the signatures of
the proposer, the randao reveal and the attestations from the state it ends with. Slashings,
exits and deposits are verified by both.

Blocks and their parts are not nil. A public key belongs to the last validator that has it, as
in a map that is built from the registry.
-/

namespace Vanguard.Beacon

/-! ### Parameters -/

def maxProposerSlashings : ℕ := 16

def maxAttesterSlashings : ℕ := 2

def maxAttestations : ℕ := 128

def maxVoluntaryExits : ℕ := 16

def maxDeposits : BitVec 64 := 16

def epochsPerEth1VotingPeriod : BitVec 64 := 64

def epochsPerSlashingsVector : Epoch := 8192

def minSlashingPenaltyQuotient : BitVec 64 := 128

def whistleBlowerRewardQuotient : BitVec 64 := 512

def proposerRewardQuotient : BitVec 64 := 8

def minAttestationInclusionDelay : Slot := 1

def effectiveBalanceIncrement : Gwei := 1000000000

def shardCommitteePeriod : Epoch := 256

def depositContractTreeDepth : ℕ := 32

/-! ### Balances, keys and slashings of a state -/

def balanceAtIndex (state : BeaconState) (idx : ValidatorIndex) : Except BeaconErr Gwei :=
  match state.balances[idx.toNat]? with
  | some bal => .ok bal
  | none => .error (.balanceIndex idx)

def updateBalancesAtIndex (state : BeaconState) (idx : ValidatorIndex) (val : Gwei) :
    Except BeaconErr BeaconState :=
  if state.balances.length ≤ idx.toNat then .error (.invalidIndex idx)
  else .ok { state with balances := state.balances.set idx.toNat val }

def increaseBalance (state : BeaconState) (idx : ValidatorIndex) (delta : Gwei) :
    Except BeaconErr BeaconState := do
  let balAtIdx ← balanceAtIndex state idx
  updateBalancesAtIndex state idx (balAtIdx + delta)

def decreaseBalanceWithVal (currBalance delta : Gwei) : Gwei :=
  if currBalance < delta then 0 else currBalance - delta

def decreaseBalance (state : BeaconState) (idx : ValidatorIndex) (delta : Gwei) :
    Except BeaconErr BeaconState := do
  let balAtIdx ← balanceAtIndex state idx
  updateBalancesAtIndex state idx (decreaseBalanceWithVal balAtIdx delta)

def updateSlashingsAtIndex (state : BeaconState) (idx : BitVec 64) (val : Gwei) :
    Except BeaconErr BeaconState :=
  if state.slashings.length ≤ idx.toNat then .error (.invalidIndex idx)
  else .ok { state with slashings := state.slashings.set idx.toNat val }

def updateRandaoMixesAtIndex (state : BeaconState) (idx : BitVec 64) (val : Root) :
    Except BeaconErr BeaconState :=
  if state.randaoMixes.length ≤ idx.toNat then .error (.invalidIndex idx)
  else .ok { state with randaoMixes := state.randaoMixes.set idx.toNat val }

def pubkeyAtIndex (state : BeaconState) (idx : ValidatorIndex) : PubKey :=
  match state.validators[idx.toNat]? with
  | some v => v.publicKey
  | none => 0

def validatorIndexByPubkey (state : BeaconState) (key : PubKey) : Option ValidatorIndex :=
  (state.validators.zipIdx.reverse.find? fun p => p.1.publicKey = key).map fun p =>
    BitVec.ofNat 64 p.2

def isSlashableValidator (validator : Validator) (epoch : Epoch) : Bool :=
  decide (epoch < validator.withdrawableEpoch) && decide (validator.activationEpoch ≤ epoch) &&
    !validator.slashed

section

variable {κ σ : Type} (c : Crypto κ σ) (fuel : ℕ)

/-- `InitiateValidatorExit`; the active validators are counted unless the validator exits. -/
def initiateExit (state : BeaconState) (idx : ValidatorIndex) : Except BeaconErr BeaconState := do
  let validator ← atIndex state.validators idx
  if validator.exitEpoch ≠ farFutureEpoch then return state
  else
    let activeCount ← errorsWrap (countActiveValidators c.hash state (currentEpoch state))
      "could not get active validator count"
    initiateValidatorExit activeCount state idx

def Validator.slashedIn (validator : Validator) (epoch : Epoch) : Validator :=
  let withdrawable := epoch + epochsPerSlashingsVector
  { validator with
    slashed := true
    withdrawableEpoch :=
      if withdrawable < validator.withdrawableEpoch then validator.withdrawableEpoch
      else withdrawable }

/-- The element of a slice, without a check of the index. -/
def sliceAt (l : List Gwei) (idx : BitVec 64) : Except BeaconErr Gwei :=
  match l[idx.toNat]? with
  | some a => .ok a
  | none => .error .indexPanic

def slashValidator (state : BeaconState) (slashedIdx : ValidatorIndex) :
    Except BeaconErr BeaconState := do
  let state ← errorsWrap (initiateExit c state slashedIdx)
    s!"could not initiate validator {slashedIdx.toNat} exit"
  let epoch := currentEpoch state
  let validator ← atIndex state.validators slashedIdx
  let state ← updateValidatorAtIndex state slashedIdx (validator.slashedIn epoch)
  let currentSlashing ← sliceAt state.slashings (epoch % epochsPerSlashingsVector)
  let state ← updateSlashingsAtIndex state (epoch % epochsPerSlashingsVector)
    (currentSlashing + validator.effectiveBalance)
  let state ← decreaseBalance state slashedIdx
    (validator.effectiveBalance / minSlashingPenaltyQuotient)
  let proposerIdx ← errorsWrap (proposerIndex c.hash fuel state) "could not get proposer idx"
  let whistleblowerReward := validator.effectiveBalance / whistleBlowerRewardQuotient
  let proposerReward := whistleblowerReward / proposerRewardQuotient
  let state ← increaseBalance state proposerIdx proposerReward
  increaseBalance state proposerIdx (whistleblowerReward - proposerReward)

/-! ### Header, randao and eth1 data -/

def processBlockHeaderNoVerify (state : BeaconState) (slot : Slot) (proposerIdx : ValidatorIndex)
    (parentRoot bodyRoot : Root) : Except BeaconErr BeaconState :=
  if state.slot ≠ slot then .error (.blockSlot state.slot slot)
  else do
    let idx ← proposerIndex c.hash fuel state
    if proposerIdx ≠ idx then .error (.proposerIndex proposerIdx idx)
    else if slot ≤ state.latestBlockHeader.slot then
      .error (.blockNotNewer slot state.latestBlockHeader.slot)
    else if parentRoot ≠ c.headerRoot state.latestBlockHeader then
      .error (.parentRoot parentRoot (c.headerRoot state.latestBlockHeader))
    else
      let proposer ← atIndex state.validators idx
      if proposer.slashed then .error (.proposerSlashed idx)
      else
        return { state with
          latestBlockHeader := ⟨slot, proposerIdx, parentRoot, zeroHash, bodyRoot⟩ }

/-- What the signature of a block is verified for: the key and the domain. -/
def blockSigningData (state : BeaconState) (proposerIdx : ValidatorIndex) :
    Except BeaconErr (PubKey × Bytes) := do
  let d ← domain c state.fork (slotToEpoch state.slot) domainBeaconProposer
    state.genesisValidatorsRoot
  let proposer ← atIndex state.validators proposerIdx
  return (proposer.publicKey, d)

def verifyBlockSignature (state : BeaconState) (signed : SignedBeaconBlock) :
    Except BeaconErr Unit := do
  let data ← blockSigningData c state signed.block.proposerIndex
  verifySignature c (c.blockRoot signed.block) data.1 signed.signature data.2

def blockSignatureSet (state : BeaconState) (signed : SignedBeaconBlock) :
    Except BeaconErr (SignatureSetMember κ) := do
  let data ← blockSigningData c state signed.block.proposerIndex
  signatureSet c (c.blockRoot signed.block) data.1 signed.signature data.2

def processBlockHeader (state : BeaconState) (signed : SignedBeaconBlock) :
    Except BeaconErr BeaconState := do
  let block := signed.block
  let state ← processBlockHeaderNoVerify c fuel state block.slot block.proposerIndex
    block.parentRoot (c.bodyRoot block.body)
  verifyBlockSignature c state signed
  return state

/-- The epoch as 32 bytes, in little-endian order. -/
def epochObject (epoch : Epoch) : Root :=
  BitVec.ofNat 256 (Bytes.value (Bytes.ofUint64LE epoch ++ List.replicate 24 0))

def randaoSigningData (state : BeaconState) : Except BeaconErr (Root × PubKey × Bytes) := do
  let proposerIdx ← errorsWrap (proposerIndex c.hash fuel state)
    "could not get beacon proposer index"
  let proposerPub := pubkeyAtIndex state proposerIdx
  let epoch := slotToEpoch state.slot
  let d ← domain c state.fork epoch domainRandao state.genesisValidatorsRoot
  return (epochObject epoch, proposerPub, d)

def randaoSignatureSet (state : BeaconState) (reveal : Bytes) :
    Except BeaconErr (SignatureSetMember κ) := do
  let data ← randaoSigningData c fuel state
  signatureSet c data.1 data.2.1 reveal data.2.2

def processRandaoNoVerify (state : BeaconState) (randaoReveal : Bytes) :
    Except BeaconErr BeaconState := do
  let idx := slotToEpoch state.slot % epochsPerHistoricalVector
  let latestMix ← atIndex state.randaoMixes idx
  updateRandaoMixesAtIndex state idx (latestMix ^^^ c.hash randaoReveal)

def processRandao (state : BeaconState) (signed : SignedBeaconBlock) :
    Except BeaconErr BeaconState := do
  let reveal := signed.block.body.randaoReveal
  let data ← randaoSigningData c fuel state
  errorsWrap (verifySignature c data.1 data.2.1 reveal data.2.2) "could not verify block randao"
  errorsWrap (processRandaoNoVerify c state reveal) "could not process randao"

def eth1DataHasEnoughSupport (state : BeaconState) (data : Eth1Data) : Bool :=
  let voteCount := BitVec.ofNat 64 (state.eth1DataVotes.count data)
  decide (slotsPerEpoch * epochsPerEth1VotingPeriod < voteCount * 2)

def processEth1DataInBlock (state : BeaconState) (eth1Data : Eth1Data) : BeaconState :=
  let state := { state with eth1DataVotes := state.eth1DataVotes ++ [eth1Data] }
  if eth1DataHasEnoughSupport state eth1Data then { state with eth1Data := eth1Data } else state

/-- A limit on the number of operations of a kind. -/
def verifyLength (operation : String) (count threshold : ℕ) : Except BeaconErr Unit :=
  if threshold < count then .error (.tooManyOperations operation count threshold) else .ok ()

def verifyOperationLengths (state : BeaconState) (body : BeaconBlockBody) :
    Except BeaconErr Unit := do
  verifyLength "proposer slashings" body.proposerSlashings.length maxProposerSlashings
  verifyLength "attester slashings" body.attesterSlashings.length maxAttesterSlashings
  verifyLength "attestations" body.attestations.length maxAttestations
  verifyLength "voluntary exits" body.voluntaryExits.length maxVoluntaryExits
  if state.eth1Data.depositCount < state.eth1DepositIndex then
    .error (.depositIndex state.eth1DepositIndex state.eth1Data.depositCount)
  else
    let outstanding := state.eth1Data.depositCount - state.eth1DepositIndex
    let wanted := if maxDeposits < outstanding then maxDeposits else outstanding
    if body.deposits.length ≠ wanted.toNat then
      .error (.outstandingDeposits wanted body.deposits.length)
    else .ok ()

/-! ### Slashings -/

def verifyProposerSlashing (state : BeaconState) (slashing : ProposerSlashing) :
    Except BeaconErr Unit := do
  let header₁ := slashing.header1.header
  let header₂ := slashing.header2.header
  if header₁.slot ≠ header₂.slot then .error (.headerSlots header₁.slot header₂.slot)
  else if header₁.proposerIndex ≠ header₂.proposerIndex then
    .error (.headerIndices header₁.proposerIndex header₂.proposerIndex)
  else if header₁ = header₂ then .error .sameHeaders
  else
    let proposer ← atIndex state.validators header₁.proposerIndex
    if ¬ isSlashableValidator proposer (currentEpoch state) then
      .error (.notSlashable proposer.publicKey)
    else
      [slashing.header1, slashing.header2].forM fun signed => do
        let v ← atIndex state.validators header₁.proposerIndex
        let d ← domain c state.fork (slotToEpoch header₁.slot) domainBeaconProposer
          state.genesisValidatorsRoot
        errorsWrap (verifySigningRoot c (c.headerRoot signed.header) v.publicKey signed.signature d)
          "could not verify beacon block header"

def processProposerSlashing (state : BeaconState) (slashing : ProposerSlashing) (idx : ℕ) :
    Except BeaconErr BeaconState := do
  errorsWrap (verifyProposerSlashing c state slashing) s!"could not verify proposer slashing {idx}"
  let proposer := slashing.header1.header.proposerIndex
  errorsWrap (slashValidator c fuel state proposer)
    s!"could not slash proposer index {proposer.toNat}"

def processProposerSlashings (state : BeaconState) (slashings : List ProposerSlashing) :
    Except BeaconErr BeaconState :=
  slashings.zipIdx.foldlM (fun state p => processProposerSlashing c fuel state p.1 p.2) state

def isSlashableAttestationData (data₁ data₂ : AttestationData) : Bool :=
  let isDoubleVote := decide (data₁ ≠ data₂) && decide (data₁.target.epoch = data₂.target.epoch)
  let isSurroundVote := decide (data₁.source.epoch < data₂.source.epoch) &&
    decide (data₂.target.epoch < data₁.target.epoch)
  isDoubleVote || isSurroundVote

def isValidAttestationIndices (indices : List (BitVec 64)) : Except BeaconErr Unit :=
  if indices = [] then .error .noAttestingIndices
  else if maxValidatorsPerCommittee < indices.length then
    .error (.tooManyAttestingIndices indices.length maxValidatorsPerCommittee)
  else if (indices.zip indices.tail).any fun p => decide (p.2 ≤ p.1) then
    .error .indicesNotSorted
  else .ok ()

def verifyIndexedAttestationSig (att : IndexedAttestation) (pubKeys : List κ) (domain : Bytes) :
    Except BeaconErr Unit := do
  let messageHash := c.signingDataRoot (c.attestationDataRoot att.data) domain
  let sig ← errorsWrap (decodeSignature c att.signature) "could not convert bytes to signature"
  if 0 < att.attestingIndices.length ∧ ¬ fastAggregateVerify c sig pubKeys messageHash then
    .error .sigFailedToVerify
  else return ()

def verifyIndexedAttestation (state : BeaconState) (att : IndexedAttestation) :
    Except BeaconErr Unit := do
  isValidAttestationIndices att.attestingIndices
  let d ← domain c state.fork att.data.target.epoch domainBeaconAttester
    state.genesisValidatorsRoot
  let pubkeys ← (att.attestingIndices.map (pubkeyAtIndex state)).mapM fun pub =>
    errorsWrap (decodePublicKey c pub) "could not deserialize validator public key"
  verifyIndexedAttestationSig c att pubkeys d

def verifyAttesterSlashing (state : BeaconState) (slashing : AttesterSlashing) :
    Except BeaconErr Unit :=
  if ¬ isSlashableAttestationData slashing.attestation1.data slashing.attestation2.data then
    .error .attestationsNotSlashable
  else do
    errorsWrap (verifyIndexedAttestation c state slashing.attestation1)
      "could not validate indexed attestation"
    errorsWrap (verifyIndexedAttestation c state slashing.attestation2)
      "could not validate indexed attestation"

/-- `slashableAttesterIndices`, sorted. -/
def slashableAttesterIndices (slashing : AttesterSlashing) : List (BitVec 64) :=
  let indices₁ := slashing.attestation1.attestingIndices
  let indices₂ := slashing.attestation2.attestingIndices
  (indices₂.filter fun k => decide (k ∈ indices₁)).eraseDups.insertionSort (· ≤ ·)

/-- An attester that may be slashed; `slashedAny` says whether one was. -/
def slashAttester (acc : BeaconState × Bool) (validatorIndex : ValidatorIndex) :
    Except BeaconErr (BeaconState × Bool) := do
  let val ← atIndex acc.1.validators validatorIndex
  if isSlashableValidator val (currentEpoch acc.1) then
    let state ← errorsWrap (slashValidator c fuel acc.1 validatorIndex)
      s!"could not slash validator index {validatorIndex.toNat}"
    return (state, true)
  else return acc

def processAttesterSlashing (state : BeaconState) (slashing : AttesterSlashing) (idx : ℕ) :
    Except BeaconErr BeaconState := do
  errorsWrap (verifyAttesterSlashing c state slashing) s!"could not verify attester slashing {idx}"
  let acc ← (slashableAttesterIndices slashing).foldlM (slashAttester c fuel) (state, false)
  if acc.2 then return acc.1 else .error .nobodySlashed

def processAttesterSlashings (state : BeaconState) (slashings : List AttesterSlashing) :
    Except BeaconErr BeaconState :=
  slashings.zipIdx.foldlM (fun state p => processAttesterSlashing c fuel state p.1 p.2) state

/-! ### Attestations -/

def beaconCommitteeFromState (state : BeaconState) (slot : Slot) (committeeIndex : CommitteeIndex) :
    Except BeaconErr (List ValidatorIndex) := do
  let epoch := slotToEpoch slot
  let s ← errorsWrap (seed c.hash state epoch domainBeaconAttester) "could not get seed"
  let indices ← errorsWrap (activeValidatorIndices c.hash state epoch)
    "could not get active indices"
  beaconCommittee c.hash indices s slot committeeIndex

def attestingIndices (bits : List Bool) (committee : List ValidatorIndex) :
    Except BeaconErr (List (BitVec 64)) :=
  if bits.length ≠ committee.length then .error (.bitfieldLength bits.length committee.length)
  else .ok (((bits.zip committee).filter (·.1)).map (·.2))

def convertToIndexed (att : Attestation) (committee : List ValidatorIndex) :
    Except BeaconErr IndexedAttestation :=
  (attestingIndices att.aggregationBits committee).map fun indices =>
    ⟨indices.insertionSort (· ≤ ·), att.data, att.signature⟩

def indexedAttestation (state : BeaconState) (att : Attestation) :
    Except BeaconErr IndexedAttestation := do
  let committee ← beaconCommitteeFromState c state att.data.slot att.data.committeeIndex
  convertToIndexed att committee

/-- `VerifyAttestationBitfieldLengths`; a committee may be empty, but is never nil. -/
def verifyAttestationBitfieldLengths (state : BeaconState) (att : Attestation) :
    Except BeaconErr Unit := do
  let committee ← errorsWrap
    (beaconCommitteeFromState c state att.data.slot att.data.committeeIndex)
    "could not retrieve beacon committees"
  if att.aggregationBits.length ≠ committee.length then
    .error (.wrapped "failed to verify aggregation bitfield"
      (.participantsLength committee.length att.aggregationBits.length))
  else return ()

/-- The checks of an attestation that come before its committee is looked up. -/
def verifyAttestationTiming (state : BeaconState) (data : AttestationData) :
    Except BeaconErr Unit :=
  let currEpoch := currentEpoch state
  if data.target.epoch ≠ prevEpoch state ∧ data.target.epoch ≠ currEpoch then
    .error (.targetEpoch data.target.epoch (prevEpoch state) currEpoch)
  else if data.target.epoch = currEpoch ∧ data.source ≠ state.currentJustifiedCheckpoint then
    .error .currentSource
  else if data.target.epoch ≠ currEpoch ∧ data.source ≠ state.previousJustifiedCheckpoint then
    .error .previousSource
  else if slotToEpoch data.slot ≠ data.target.epoch then
    .error (.slotTargetEpoch data.slot data.target.epoch)
  else if ¬ data.slot + minAttestationInclusionDelay ≤ state.slot then
    .error (.includedEarly data.slot minAttestationInclusionDelay state.slot)
  else if ¬ state.slot ≤ data.slot + slotsPerEpoch then
    .error (.includedLate state.slot data.slot slotsPerEpoch)
  else .ok ()

def verifyAttestationNoVerifySignature (state : BeaconState) (att : Attestation) :
    Except BeaconErr Unit := do
  verifyAttestationTiming state att.data
  let activeCount ← countActiveValidators c.hash state att.data.target.epoch
  let count := slotCommitteeCount activeCount
  if count ≤ att.data.committeeIndex then .error (.committeeIndex att.data.committeeIndex count)
  else
    errorsWrap (verifyAttestationBitfieldLengths c state att)
      "could not verify attestation bitfields"
    let indexedAtt ← indexedAttestation c state att
    isValidAttestationIndices indexedAtt.attestingIndices

def appendCurrentEpochAttestations (state : BeaconState) (att : PendingAttestation) :
    Except BeaconErr BeaconState :=
  let max := slotsPerEpoch.toNat * maxAttestations
  if max ≤ state.currentEpochAttestations.length then .error (.pendingAttestations "current" max)
  else .ok { state with currentEpochAttestations := state.currentEpochAttestations ++ [att] }

def appendPreviousEpochAttestations (state : BeaconState) (att : PendingAttestation) :
    Except BeaconErr BeaconState :=
  let max := slotsPerEpoch.toNat * maxAttestations
  if max ≤ state.previousEpochAttestations.length then .error (.pendingAttestations "previous" max)
  else .ok { state with previousEpochAttestations := state.previousEpochAttestations ++ [att] }

def processAttestationNoVerifySignature (state : BeaconState) (att : Attestation) :
    Except BeaconErr BeaconState := do
  verifyAttestationNoVerifySignature c state att
  let proposerIdx ← proposerIndex c.hash fuel state
  let pendingAtt : PendingAttestation :=
    ⟨att.aggregationBits, att.data, state.slot - att.data.slot, proposerIdx⟩
  if att.data.target.epoch = currentEpoch state then
    appendCurrentEpochAttestations state pendingAtt
  else appendPreviousEpochAttestations state pendingAtt

def verifyAttestationSignature (state : BeaconState) (att : Attestation) :
    Except BeaconErr Unit := do
  let indexedAtt ← indexedAttestation c state att
  verifyIndexedAttestation c state indexedAtt

def processAttestation (state : BeaconState) (att : Attestation) :
    Except BeaconErr BeaconState := do
  let state ← processAttestationNoVerifySignature c fuel state att
  verifyAttestationSignature c state att
  return state

def processAttestations (state : BeaconState) (atts : List Attestation) :
    Except BeaconErr BeaconState :=
  atts.zipIdx.foldlM (fun state p => errorsWrap (processAttestation c fuel state p.1)
    s!"could not verify attestation at index {p.2} in block") state

def processAttestationsNoVerifySignature (state : BeaconState) (atts : List Attestation) :
    Except BeaconErr BeaconState :=
  atts.zipIdx.foldlM (fun state p =>
    errorsWrap (processAttestationNoVerifySignature c fuel state p.1)
    s!"could not verify attestation at index {p.2} in block") state

/-! ### Deposits and exits -/

def verifyMerkleBranch (root item : Root) (merkleIndex : BitVec 64) (proof : List Root)
    (depth : ℕ) : Bool :=
  if proof.length ≠ depth + 1 then false
  else
    let node := proof.zipIdx.foldl (fun node p =>
      if merkleIndex.toNat / 2 ^ p.2 % 2 ≠ 0 then c.hash (rootBytes p.1 ++ rootBytes node)
      else c.hash (rootBytes node ++ rootBytes p.1)) item
    decide (root = node)

def verifyDeposit (state : BeaconState) (deposit : Deposit) : Except BeaconErr Unit :=
  let receiptRoot := state.eth1Data.depositRoot
  if verifyMerkleBranch c receiptRoot (c.depositDataRoot deposit.data) state.eth1DepositIndex
      deposit.proof depositContractTreeDepth then .ok ()
  else .error (.depositBranch receiptRoot)

def verifyDepositDataSigningRoot (data : DepositData) : Except BeaconErr Unit :=
  verifySigningRoot c (c.depositMessageRoot data.toDepositMessage) data.publicKey data.signature
    (depositDomain c)

/-- `BatchVerifyDepositsSignatures`: whether the deposits have to be verified one by one. -/
def batchVerifyDepositsSignatures (deposits : List Deposit) : Bool :=
  if deposits = [] then false
  else
    match deposits.mapM fun deposit => signatureSet c
        (c.depositMessageRoot deposit.data.toDepositMessage) deposit.data.publicKey
        deposit.data.signature (depositDomain c) with
    | .ok set => !verifyMultipleSignatures c set
    | .error _ => true

def Validator.ofDeposit (data : DepositData) : Validator :=
  let effectiveBalance := data.amount - data.amount % effectiveBalanceIncrement
  { publicKey := data.publicKey
    withdrawalCredentials := data.withdrawalCredentials
    effectiveBalance := if maxEffectiveBalance < effectiveBalance then maxEffectiveBalance
      else effectiveBalance
    slashed := false
    activationEligibilityEpoch := farFutureEpoch
    activationEpoch := farFutureEpoch
    exitEpoch := farFutureEpoch
    withdrawableEpoch := farFutureEpoch }

/-- A deposit that has been verified, for a new or a known public key. -/
def applyDeposit (state : BeaconState) (data : DepositData) (verifySignature : Bool) :
    Except BeaconErr BeaconState :=
  match validatorIndexByPubkey state data.publicKey with
  | some index => increaseBalance state index data.amount
  | none =>
    if verifySignature ∧ verifyDepositDataSigningRoot c data ≠ .ok () then .ok state
    else .ok { state with
      validators := state.validators ++ [Validator.ofDeposit data]
      balances := state.balances ++ [data.amount] }

/-- The first bytes of a public key, as the errors for a deposit show them. -/
def truncatedKey (pubKey : PubKey) : String :=
  String.ofList (Text.hexString ((Bytes.bigEndian 48 pubKey.toNat).take 6))

def processDeposit (state : BeaconState) (deposit : Deposit) (verifySignature : Bool) :
    Except BeaconErr BeaconState := do
  errorsWrap (verifyDeposit c state deposit)
    ("could not verify deposit from " ++ truncatedKey deposit.data.publicKey)
  applyDeposit c { state with eth1DepositIndex := state.eth1DepositIndex + 1 } deposit.data
    verifySignature

def processDeposits (state : BeaconState) (deposits : List Deposit) :
    Except BeaconErr BeaconState :=
  let batchVerified := batchVerifyDepositsSignatures c deposits
  deposits.foldlM (fun state deposit => errorsWrap (processDeposit c state deposit batchVerified)
    ("could not process deposit from " ++ truncatedKey deposit.data.publicKey)) state

def verifyExitConditions (validator : Validator) (currentSlot : Slot) (exit : VoluntaryExit) :
    Except BeaconErr Unit :=
  let epoch := slotToEpoch currentSlot
  if ¬ isActiveValidator validator epoch then .error .inactiveExit
  else if validator.exitEpoch ≠ farFutureEpoch then
    .error (.alreadyExited exit.validatorIndex validator.exitEpoch)
  else if epoch < exit.epoch then .error (.exitTooEarly epoch exit.epoch)
  else if epoch < validator.activationEpoch + shardCommitteePeriod then
    .error (.cannotExitYet (epoch - validator.activationEpoch) shardCommitteePeriod
      (validator.activationEpoch + shardCommitteePeriod))
  else .ok ()

def verifyExitAndSignature (validator : Validator) (state : BeaconState)
    (signed : SignedVoluntaryExit) : Except BeaconErr Unit := do
  verifyExitConditions validator state.slot signed.exit
  let d ← domain c state.fork signed.exit.epoch domainVoluntaryExit state.genesisValidatorsRoot
  (verifySigningRoot c (c.voluntaryExitRoot signed.exit) validator.publicKey signed.signature
    d).mapError fun _ => .sigFailedToVerify

def processVoluntaryExit (state : BeaconState) (signed : SignedVoluntaryExit) (idx : ℕ) :
    Except BeaconErr BeaconState := do
  let val ← atIndex state.validators signed.exit.validatorIndex
  errorsWrap (verifyExitAndSignature c val state signed) s!"could not verify exit {idx}"
  initiateExit c state signed.exit.validatorIndex

def processVoluntaryExits (state : BeaconState) (exits : List SignedVoluntaryExit) :
    Except BeaconErr BeaconState :=
  exits.zipIdx.foldlM (fun state p => processVoluntaryExit c state p.1 p.2) state

def processingPipeline (signed : SignedBeaconBlock) :
    List (BeaconState → Except BeaconErr BeaconState) :=
  let body := signed.block.body
  [fun state => processBlockHeader c fuel state signed,
    fun state => processRandao c fuel state signed,
    fun state => .ok (processEth1DataInBlock state body.eth1Data),
    fun state => (verifyOperationLengths state body).map fun _ => state,
    fun state => processProposerSlashings c fuel state body.proposerSlashings,
    fun state => processAttesterSlashings c fuel state body.attesterSlashings,
    fun state => processAttestations c fuel state body.attestations,
    fun state => processDeposits c state body.deposits,
    fun state => processVoluntaryExits c state body.voluntaryExits]

def processBlock (state : BeaconState) (signed : SignedBeaconBlock) :
    Except BeaconErr BeaconState :=
  (processingPipeline c fuel signed).foldlM (fun state p =>
    errorsWrap (p state) "Could not process block") state

/-! ### Without signatures -/

def processOperationsNoVerifyAttsSigs (state : BeaconState) (body : BeaconBlockBody) :
    Except BeaconErr BeaconState := do
  errorsWrap (verifyOperationLengths state body) "could not verify operation lengths"
  let state ← errorsWrap (processProposerSlashings c fuel state body.proposerSlashings)
    "could not process block proposer slashings"
  let state ← errorsWrap (processAttesterSlashings c fuel state body.attesterSlashings)
    "could not process block attester slashings"
  let state ← errorsWrap (processAttestationsNoVerifySignature c fuel state body.attestations)
    "could not process block attestations"
  let state ← errorsWrap (processDeposits c state body.deposits)
    "could not process block validator deposits"
  errorsWrap (processVoluntaryExits c state body.voluntaryExits)
    "could not process validator exits"

def processBlockForStateRoot (state : BeaconState) (signed : SignedBeaconBlock) :
    Except BeaconErr BeaconState := do
  let block := signed.block
  let state ← errorsWrap (processBlockHeaderNoVerify c fuel state block.slot block.proposerIndex
    block.parentRoot (c.bodyRoot block.body)) "could not process block header"
  let state ← errorsWrap (processRandaoNoVerify c state block.body.randaoReveal)
    "could not verify and process randao"
  let state := processEth1DataInBlock state block.body.eth1Data
  errorsWrap (processOperationsNoVerifyAttsSigs c fuel state block.body)
    "could not process block operation"

/-- The member of the signature set for an attestation; see `createAttestationSignatureSet`. -/
def attestationSetMember (state : BeaconState) (domain : Bytes) (att : Attestation) :
    Except BeaconErr (SignatureSetMember κ) := do
  let indexedAtt ← indexedAttestation c state att
  isValidAttestationIndices indexedAtt.attestingIndices
  let aggP ← aggregatePublicKeys c (indexedAtt.attestingIndices.map (pubkeyAtIndex state))
  return ⟨att.signature, aggP, c.signingDataRoot (c.attestationDataRoot indexedAtt.data) domain⟩

def createAttestationSignatureSet (state : BeaconState) (atts : List Attestation)
    (domain : Bytes) : Except BeaconErr (SignatureSet κ) :=
  atts.mapM (attestationSetMember c state domain)

def preForkSignatureSet (state : BeaconState) (atts : List Attestation) :
    Except BeaconErr (SignatureSet κ) :=
  if 0 < state.fork.epoch ∧ atts ≠ [] then do
    let prevDomain ← domain c state.fork (state.fork.epoch - 1) domainBeaconAttester
      state.genesisValidatorsRoot
    createAttestationSignatureSet c state atts prevDomain
  else if atts ≠ [] then .error .unverifiedPreForkAttestations
  else .ok []

def postForkSignatureSet (state : BeaconState) (atts : List Attestation) :
    Except BeaconErr (SignatureSet κ) :=
  if atts ≠ [] then do
    let currDomain ← domain c state.fork state.fork.epoch domainBeaconAttester
      state.genesisValidatorsRoot
    createAttestationSignatureSet c state atts currDomain
  else .ok []

def attestationSignatureSet (state : BeaconState) (atts : List Attestation) :
    Except BeaconErr (SignatureSet κ) := do
  let preFork := fun att : Attestation => decide (slotToEpoch att.data.slot < state.fork.epoch)
  let preSet ← preForkSignatureSet c state (atts.filter preFork)
  let postSet ← postForkSignatureSet c state (atts.filter fun att => !preFork att)
  return preSet ++ postSet

def processBlockNoVerifyAnySig (state : BeaconState) (signed : SignedBeaconBlock) :
    Except BeaconErr (SignatureSet κ × BeaconState) := do
  let state ← processBlockForStateRoot c fuel state signed
  let bSet ← errorsWrap (blockSignatureSet c state signed)
    "could not retrieve block signature set"
  let rSet ← errorsWrap (randaoSignatureSet c fuel state signed.block.body.randaoReveal)
    "could not retrieve randao signature set"
  let aSet ← errorsWrap (attestationSignatureSet c state signed.block.body.attestations)
    "could not retrieve attestation signature set"
  return (bSet :: rSet :: aSet, state)

end

/-! ### A plain instance -/

/-- All hashes are zero and every signature verifies. -/
def plainCrypto : Crypto Unit Unit where
  hash _ := 0
  stateRoot _ := 0
  headerRoot _ := 0
  bodyRoot _ := 0
  blockRoot _ := 0
  attestationDataRoot _ := 0
  depositDataRoot _ := 0
  depositMessageRoot _ := 0
  voluntaryExitRoot _ := 0
  forkDataRoot _ _ := 0
  signingDataRoot _ _ := 0
  publicKeyFromBytes _ := some ()
  signatureFromBytes _ := some ()
  aggregate _ := ()
  verify _ _ _ := true

end Vanguard.Beacon
