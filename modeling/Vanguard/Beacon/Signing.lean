import Vanguard.Beacon.Proposer

/-!
Blocks, what is signed in them, and signature sets.

The hash tree roots and the BLS operations are those of libraries. They are parameters, and
nothing is assumed about them. A signature set has one member for each signature; it verifies
if each member does.
-/

namespace Vanguard.Beacon

/-! ### Blocks -/

structure Attestation where
  aggregationBits : List Bool
  data : AttestationData
  signature : Bytes
  deriving DecidableEq, Repr, Inhabited

structure IndexedAttestation where
  attestingIndices : List (BitVec 64)
  data : AttestationData
  signature : Bytes
  deriving DecidableEq, Repr, Inhabited

structure SignedBeaconBlockHeader where
  header : BeaconBlockHeader
  signature : Bytes
  deriving DecidableEq, Repr, Inhabited

structure ProposerSlashing where
  header1 : SignedBeaconBlockHeader
  header2 : SignedBeaconBlockHeader
  deriving DecidableEq, Repr, Inhabited

structure AttesterSlashing where
  attestation1 : IndexedAttestation
  attestation2 : IndexedAttestation
  deriving DecidableEq, Repr, Inhabited

structure DepositMessage where
  publicKey : PubKey
  withdrawalCredentials : Root
  amount : Gwei
  deriving DecidableEq, Repr, Inhabited

/-- `ethpb.Deposit_Data`: the message and its signature. -/
structure DepositData extends DepositMessage where
  signature : Bytes
  deriving DecidableEq, Repr, Inhabited

structure Deposit where
  proof : List Root
  data : DepositData
  deriving DecidableEq, Repr, Inhabited

structure VoluntaryExit where
  epoch : Epoch
  validatorIndex : ValidatorIndex
  deriving DecidableEq, Repr, Inhabited

structure SignedVoluntaryExit where
  exit : VoluntaryExit
  signature : Bytes
  deriving DecidableEq, Repr, Inhabited

structure BeaconBlockBody where
  randaoReveal : Bytes
  eth1Data : Eth1Data
  graffiti : Root
  proposerSlashings : List ProposerSlashing
  attesterSlashings : List AttesterSlashing
  attestations : List Attestation
  deposits : List Deposit
  voluntaryExits : List SignedVoluntaryExit
  deriving DecidableEq, Repr, Inhabited

structure BeaconBlock where
  slot : Slot
  proposerIndex : ValidatorIndex
  parentRoot : Root
  stateRoot : Root
  body : BeaconBlockBody
  deriving DecidableEq, Repr, Inhabited

structure SignedBeaconBlock where
  block : BeaconBlock
  signature : Bytes
  deriving DecidableEq, Repr, Inhabited

/-- The functions of the hashing and BLS libraries. `κ` and `σ` are the types of decoded public
keys and signatures. -/
structure Crypto (κ σ : Type) where
  /-- `hashutil.Hash` -/
  hash : Bytes → Root
  stateRoot : BeaconState → Root
  headerRoot : BeaconBlockHeader → Root
  bodyRoot : BeaconBlockBody → Root
  blockRoot : BeaconBlock → Root
  attestationDataRoot : AttestationData → Root
  depositDataRoot : DepositData → Root
  depositMessageRoot : DepositMessage → Root
  voluntaryExitRoot : VoluntaryExit → Root
  /-- The root of `pb.ForkData`. -/
  forkDataRoot : Bytes → Root → Root
  /-- The root of `pb.SigningData`. -/
  signingDataRoot : Root → Bytes → Root
  publicKeyFromBytes : PubKey → Option κ
  signatureFromBytes : Bytes → Option σ
  aggregate : List κ → κ
  verify : σ → κ → Root → Bool

/-- A signature with the key and the message to verify it for. -/
structure SignatureSetMember (κ : Type) where
  signature : Bytes
  publicKey : κ
  message : Root

/-- `bls.SignatureSet`; `Join` is concatenation. -/
abbrev SignatureSet (κ : Type) := List (SignatureSetMember κ)

/-! ### Domains -/

def domainRandao : Bytes := [2, 0, 0, 0]

def domainDeposit : Bytes := [3, 0, 0, 0]

def domainVoluntaryExit : Bytes := [4, 0, 0, 0]

def genesisForkVersion : Bytes := [0, 0, 0, 0]

section

variable {κ σ : Type} (c : Crypto κ σ)

def computeDomain (domainType forkVersion : Bytes) (genesisValidatorsRoot : Root) : Bytes :=
  domainType ++ (rootBytes (c.forkDataRoot forkVersion genesisValidatorsRoot)).take 28

def domain (fork : Fork) (epoch : Epoch) (domainType : Bytes) (genesisRoot : Root) :
    Except BeaconErr Bytes :=
  let forkVersion := if epoch < fork.epoch then fork.previousVersion else fork.currentVersion
  if forkVersion.length ≠ 4 then .error .forkVersionLength
  else .ok (computeDomain c domainType forkVersion genesisRoot)

/-- The domain of a deposit, `ComputeDomain(DomainDeposit, nil, nil)`. -/
def depositDomain : Bytes := computeDomain c domainDeposit genesisForkVersion zeroHash

/-! ### Single signatures -/

/-- `PublicKeyFromBytes` -/
def decodePublicKey (pub : PubKey) : Except BeaconErr κ :=
  match c.publicKeyFromBytes pub with
  | some publicKey => .ok publicKey
  | none => .error .publicKeyBytes

/-- `SignatureFromBytes` -/
def decodeSignature (signature : Bytes) : Except BeaconErr σ :=
  match c.signatureFromBytes signature with
  | some sig => .ok sig
  | none => .error .signatureBytes

/-- The check of a member of a signature set on its own. -/
def verifyMember (m : SignatureSetMember κ) : Except BeaconErr Unit := do
  let sig ← decodeSignature c m.signature
  if c.verify sig m.publicKey m.message then return ()
  else .error .sigFailedToVerify

def SignatureSetMember.Verifies (m : SignatureSetMember κ) : Prop := verifyMember c m = .ok ()

instance (m : SignatureSetMember κ) : Decidable (m.Verifies c) :=
  inferInstanceAs (Decidable (_ = _))

/-- `VerifyMultipleSignatures`, a batch verification. -/
def verifyMultipleSignatures (set : SignatureSet κ) : Bool :=
  decide (set ≠ []) && set.all fun m => decide (m.Verifies c)

/-- `VerifySigningRoot`, for an object with the given root. -/
def verifySigningRoot (objectRoot : Root) (pub : PubKey) (signature domain : Bytes) :
    Except BeaconErr Unit := do
  let publicKey ← errorsWrap (decodePublicKey c pub) "could not convert bytes to public key"
  let sig ← errorsWrap (decodeSignature c signature) "could not convert bytes to signature"
  if c.verify sig publicKey (c.signingDataRoot objectRoot domain) then return ()
  else .error .sigFailedToVerify

/-- `signatureSet`, and `BlockSignatureSet` for the root of a block. -/
def signatureSet (signedData : Root) (pub : PubKey) (signature domain : Bytes) :
    Except BeaconErr (SignatureSetMember κ) := do
  let publicKey ← errorsWrap (decodePublicKey c pub) "could not convert bytes to public key"
  return ⟨signature, publicKey, c.signingDataRoot signedData domain⟩

/-- `verifySignature`, and `VerifyBlockSigningRoot` for the root of a block. -/
def verifySignature (signedData : Root) (pub : PubKey) (signature domain : Bytes) :
    Except BeaconErr Unit := do
  let m ← signatureSet c signedData pub signature domain
  verifyMember c m

def fastAggregateVerify (sig : σ) (pubKeys : List κ) (msg : Root) : Bool :=
  decide (pubKeys.length ≠ 0) && c.verify sig (c.aggregate pubKeys) msg

def aggregatePublicKeys (pubs : List PubKey) : Except BeaconErr κ :=
  if pubs = [] then .error .emptyPublicKeys
  else (pubs.mapM (decodePublicKey c)).map c.aggregate

end

section

variable {κ σ : Type} {c : Crypto κ σ}

theorem verifySignature_eq_ok {signedData : Root} {pub : PubKey} {signature domain : Bytes} :
    verifySignature c signedData pub signature domain = .ok () ↔
      ∃ m, signatureSet c signedData pub signature domain = .ok m ∧ m.Verifies c :=
  Fallible.bind_eq_ok

end

end Vanguard.Beacon
