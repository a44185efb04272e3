import Vanguard.Lib.Fallible
import Vanguard.Validator.AttesterProtection
import Vanguard.Validator.ProposerProtection

/-!
Import and export of slashing protection data in the interchange format.

A file is taken after it was decoded, and a nil pointer in a list is `none`. The
order in which a map is ranged over is not fixed, so the import is given one for
each of its loops.
-/

namespace Vanguard.Validator

open Text (hexString decimal decodeHex trim0x parseUint)

/-! ### The format -/

namespace Interchange

structure SignedBlock where
  slot : Text
  signingRoot : Text
  deriving DecidableEq, Repr

structure SignedAttestation where
  sourceEpoch : Text
  targetEpoch : Text
  signingRoot : Text
  deriving DecidableEq, Repr

structure ProtectionData where
  pubkey : Text
  signedBlocks : List (Option SignedBlock)
  signedAttestations : List (Option SignedAttestation)
  deriving DecidableEq, Repr

/-- `format.EIPSlashingProtectionFormat` -/
structure File where
  interchangeFormatVersion : Text
  genesisValidatorsRoot : Text
  data : Option (List (Option ProtectionData))
  deriving DecidableEq, Repr

def interchangeFormatVersion : Text := ['5']

/-! ### Texts of keys, roots and numbers -/

inductive ParseErr where
  /-- The error of `hex.DecodeString`. -/
  | hex
  /-- The number of bytes is not the one wanted. -/
  | length (text : Text)
  /-- The error of `strconv.ParseUint`. -/
  | number
  deriving DecidableEq, Repr

/-- Decodes a hexadecimal text, with or without `0x`, of a fixed number of bytes. -/
def fixedFromHex (n : ℕ) (str : Text) : Except ParseErr Bytes :=
  match decodeHex (trim0x str) with
  | none => .error .hex
  | some bytes => if bytes.length ≠ n then .error (.length str) else .ok bytes

def pubKeyFromHex (str : Text) : Except ParseErr PubKey :=
  (fixedFromHex 48 str).map fun bytes => BitVec.ofNat 384 (Bytes.value bytes)

def rootFromHex (str : Text) : Except ParseErr Root :=
  (fixedFromHex 32 str).map fun bytes => BitVec.ofNat 256 (Bytes.value bytes)

/-- `SlotFromString` and `EpochFromString` -/
def numberFromString (str : Text) : Except ParseErr (BitVec 64) :=
  match parseUint str with
  | none => .error .number
  | some x => .ok x

/-- `rootToHexString`, with nothing for a root of the wrong length. -/
def rootToHexString (root : Bytes) : Option Text :=
  if root.length = 0 then some []
  else if root.length ≠ 32 then none
  else some (hexString root)

def pubKeyToHexString (pubKey : PubKey) : Text := hexString (pubKeyBytes pubKey)

/-! ### Export -/

inductive ExportErr where
  /-- `wanted length 32, received %d` -/
  | rootLength (length : ℕ)
  /-- `cannot get attestation history for public key` -/
  | history (e : Err)
  /-- `max must be greater than 0`, by `Add` of a progress bar. -/
  | progress
  deriving DecidableEq, Repr

/-- The first entry of a history is skipped if its source is 0 and its target is
after that of the next entry. -/
def skipsFirst : List AttestationRecord → Bool
  | att :: next :: _ => decide (next.target < att.target) && decide (att.source = 0)
  | _ => false

/-- A record in the format. The zero root is left out. -/
def exportAttestation (att : AttestationRecord) : SignedAttestation where
  targetEpoch := decimal att.target
  sourceEpoch := decimal att.source
  signingRoot := if att.signingRoot = zeroHash then [] else hexString (rootBytes att.signingRoot)

def signedAttestationsByPubKey (db : DB) (pubKey : PubKey) :
    Except ExportErr (List SignedAttestation) :=
  match db.attestationHistoryForPubKey pubKey with
  | .error e => .error (.history e)
  | .ok history =>
    let kept := if skipsFirst history then history.tail else history
    .ok (kept.map exportAttestation)

def signedBlocksByPubKey (db : DB) (pubKey : PubKey) : List SignedBlock :=
  (db.proposalHistoryForPubKey pubKey).map fun proposal =>
    ⟨decimal proposal.slot, hexString (rootBytes proposal.signingRoot)⟩

/-- The first loop of the export: the signed blocks by public key. -/
def exportBlocks (db : DB) : PubKeyMap ProtectionData :=
  db.proposedPublicKeys.foldl (fun dataByPubKey pubKey => dataByPubKey.insert pubKey
    ⟨pubKeyToHexString pubKey, (signedBlocksByPubKey db pubKey).map some, []⟩) ∅

/-- One round of the second loop: the signed attestations of a public key. Its progress bar has the
number of keys that have proposed as its maximum. -/
def exportAttestations (db : DB) (dataByPubKey : PubKeyMap ProtectionData) (pubKey : PubKey) :
    Except ExportErr (PubKeyMap ProtectionData) :=
  match signedAttestationsByPubKey db pubKey with
  | .error e => .error e
  | .ok signedAttestations =>
    let item := dataByPubKey[pubKey]?.getD ⟨pubKeyToHexString pubKey, [], []⟩
    if db.proposedPublicKeys.length = 0 then .error .progress
    else .ok (dataByPubKey.insert pubKey { item with
      signedAttestations := signedAttestations.map some })

/-- The items in the order of their public keys as texts. -/
def sortedItems (dataByPubKey : PubKeyMap ProtectionData) : List (PubKey × ProtectionData) :=
  dataByPubKey.toList.insertionSort fun a b => (compare a.2.pubkey b.2.pubkey).isLE

def exportStandardProtectionJSON (db : DB) : Except ExportErr File :=
  match rootToHexString db.genesisValidatorsRoot with
  | none => .error (.rootLength db.genesisValidatorsRoot.length)
  | some genesisRootHex =>
    match db.attestedPublicKeys.foldlM (exportAttestations db) (exportBlocks db) with
    | .error e => .error e
    | .ok dataByPubKey =>
      .ok ⟨interchangeFormatVersion, genesisRootHex,
        some ((sortedItems dataByPubKey).map fun item => some item.2)⟩

/-! ### Import -/

inductive ImportErr where
  /-- `slashing protection JSON version '%s' is not supported, wanted '%s'` -/
  | version (version : Text)
  /-- `%#x is not a valid root` -/
  | genesisRoot (text : Text) (e : ParseErr)
  /-- `genesis validator root doesnt match the one that is stored` -/
  | genesisMismatch
  /-- `could not parse unique entries for blocks by public key` -/
  | blocksPublicKey (text : Text) (e : ParseErr)
  /-- `could not parse unique entries for attestations by public key` -/
  | attestationsPublicKey (text : Text) (e : ParseErr)
  /-- A nil entry in the list of data is dereferenced. -/
  | nilData
  /-- `could not parse signed blocks in JSON file for key %#x` -/
  | signedBlocks (pubKey : PubKey) (e : ParseErr)
  /-- `could not parse signed attestations in JSON file for key %#x` -/
  | signedAttestations (pubKey : PubKey) (e : ParseErr)
  /-- `could not filter slashable attester public keys from JSON data` -/
  | slashable (e : Err)
  deriving DecidableEq, Repr

def validateMetadata (file : File) : EStateM ImportErr DB Unit := fun db =>
  if file.interchangeFormatVersion ≠ interchangeFormatVersion then
    .error (.version file.interchangeFormatVersion) db
  else
    match rootFromHex file.genesisValidatorsRoot with
    | .error e => .error (.genesisRoot file.genesisValidatorsRoot e) db
    | .ok gvr =>
      if db.genesisValidatorsRoot = [] then
        .ok () { db with genesisValidatorsRoot := rootBytes gvr }
      else if db.genesisValidatorsRoot ≠ rootBytes gvr then .error .genesisMismatch db
      else .ok () db

section Parse

variable {α : Type}

/-- Appends the entries that are not nil to the list of a public key. -/
def appendEntries (m : PubKeyMap (List α)) (pubKey : PubKey) (entries : List (Option α)) :
    PubKeyMap (List α) :=
  entries.foldl (fun m entry =>
    match entry with
    | none => m
    | some x => m.insert pubKey (m[pubKey]?.getD [] ++ [x])) m

/-- One round of `parseBlocksForUniquePublicKeys` or
`parseAttestationsForUniquePublicKeys`. -/
def parseItem (err : Text → ParseErr → ImportErr) (entries : ProtectionData → List (Option α))
    (m : PubKeyMap (List α)) (item : Option ProtectionData) :
    Except ImportErr (PubKeyMap (List α)) :=
  match item with
  | none => .error .nilData
  | some validatorData =>
    match pubKeyFromHex validatorData.pubkey with
    | .error e => .error (err validatorData.pubkey e)
    | .ok pubKey => .ok (appendEntries m pubKey (entries validatorData))

def parseUnique (err : Text → ParseErr → ImportErr) (entries : ProtectionData → List (Option α))
    (data : List (Option ProtectionData)) : Except ImportErr (PubKeyMap (List α)) :=
  data.foldlM (parseItem err entries) ∅

end Parse

def parseBlocksForUniquePublicKeys :
    List (Option ProtectionData) → Except ImportErr (PubKeyMap (List SignedBlock)) :=
  parseUnique .blocksPublicKey ProtectionData.signedBlocks

def parseAttestationsForUniquePublicKeys :
    List (Option ProtectionData) → Except ImportErr (PubKeyMap (List SignedAttestation)) :=
  parseUnique .attestationsPublicKey ProtectionData.signedAttestations

def optionalRoot (str : Text) : Except ParseErr Root :=
  if str = [] then .ok zeroHash else rootFromHex str

/-- The loop body of `transformSignedBlocks`. -/
def transformSignedBlock (b : SignedBlock) : Except ParseErr Proposal := do
  let slot ← numberFromString b.slot
  let signingRoot ← optionalRoot b.signingRoot
  return ⟨slot, signingRoot⟩

def transformSignedBlocks (signedBlocks : List SignedBlock) : Except ParseErr (List Proposal) :=
  signedBlocks.mapM transformSignedBlock

/-- The loop body of `transformSignedAttestations`. -/
def transformSignedAttestation (pubKey : PubKey) (att : SignedAttestation) :
    Except ParseErr AttestationRecord := do
  let target ← numberFromString att.targetEpoch
  let source ← numberFromString att.sourceEpoch
  let signingRoot ← optionalRoot att.signingRoot
  return ⟨pubKey, source, target, signingRoot⟩

def transformSignedAttestations (pubKey : PubKey) (atts : List SignedAttestation) :
    Except ParseErr (List AttestationRecord) :=
  atts.mapM (transformSignedAttestation pubKey)

/-- An order in which the public keys of a map are ranged over. -/
structure MapOrder where
  order : List PubKey → List PubKey
  perm : ∀ l, (order l).Perm l

def transformAll {α β : Type} (o : MapOrder) (f : PubKey → α → Except ImportErr β)
    (m : PubKeyMap α) : Except ImportErr (PubKeyMap β) :=
  (o.order m.keys).foldlM (fun acc pubKey =>
    match m[pubKey]? with
    | none => .ok acc
    | some a => (f pubKey a).map fun b => acc.insert pubKey b) ∅

/-- The loop of `filterSlashablePubKeysFromBlocks` over the proposals of a key: two
proposals for one slot have different roots. -/
def hasDoubleProposal (seenSigningRootsBySlot : Std.ExtTreeMap Slot Root) :
    List Proposal → Bool
  | [] => false
  | blk :: rest =>
    if seenSigningRootsBySlot[blk.slot]?.any (fun root => decide (root ≠ blk.signingRoot)) then true
    else hasDoubleProposal (seenSigningRootsBySlot.insert blk.slot blk.signingRoot) rest

def filterSlashablePubKeysFromBlocks (o : MapOrder)
    (historyByPubKey : PubKeyMap (List Proposal)) : List PubKey :=
  (o.order historyByPubKey.keys).filter fun pubKey =>
    hasDoubleProposal ∅ (historyByPubKey[pubKey]?.getD [])

/-- The first loop of `filterSlashablePubKeysFromAttestations` over the records of a
key: one of them is a double vote or a surround vote with respect to an earlier one.
`targetEpochsBySource` is the list of the pairs it holds. -/
def hasSlashableVotes (signingRootsByTarget : Std.ExtTreeMap Epoch Root)
    (targetEpochsBySource : List Attestation) : List AttestationRecord → Bool
  | [] => false
  | att :: rest =>
    let b : Attestation := ⟨att.source, att.target⟩
    if signingRootsByTarget[att.target]?.any (fun sr => signingRootsDiffer sr att.signingRoot) then
      true
    else if targetEpochsBySource.any (fun a => isSurround a b || isSurround b a) then true
    else
      hasSlashableVotes (signingRootsByTarget.insert att.target att.signingRoot)
        (targetEpochsBySource ++ [b]) rest

/-- The second loop over the records of a key: whether one of them is slashable with
respect to the database. -/
def slashableInDB (db : DB) (pubKey : PubKey) : List AttestationRecord → Except Err Bool
  | [] => .ok false
  | att :: rest =>
    match db.checkSlashableAttestation false pubKey att.signingRoot ⟨att.source, att.target⟩ with
    | (_, some e) => .error e
    | (kind, none) => if kind ≠ .notSlashable then .ok true else slashableInDB db pubKey rest

def filterSlashablePubKeysFromAttestations (o₁ o₂ : MapOrder) (db : DB)
    (signedAttsByPubKey : PubKeyMap (List AttestationRecord)) : Except Err (List PubKey) :=
  let inFile := (o₁.order signedAttsByPubKey.keys).filter fun pubKey =>
    hasSlashableVotes ∅ [] (signedAttsByPubKey[pubKey]?.getD [])
  (o₂.order signedAttsByPubKey.keys).foldlM (fun slashablePubKeys pubKey =>
    (slashableInDB db pubKey (signedAttsByPubKey[pubKey]?.getD [])).map fun slashable =>
      if slashable then slashablePubKeys ++ [pubKey] else slashablePubKeys) inFile

/-- What is written once the whole file was checked. -/
structure Histories where
  proposalHistoryByPubKey : PubKeyMap (List Proposal)
  attestingHistoryByPubKey : PubKeyMap (List AttestationRecord)
  slashablePublicKeys : List PubKey

structure Orders where
  blocks : MapOrder
  attestations : MapOrder
  slashableBlocks : MapOrder
  slashableVotes : MapOrder
  slashableInDB : MapOrder
  saveProposals : MapOrder
  saveAttestations : MapOrder

/-- The part of the import that reads the file and filters public keys. -/
def readHistories (o : Orders) (data : List (Option ProtectionData)) (db : DB) :
    Except ImportErr Histories := do
  let signedBlocksByPubKey ← parseBlocksForUniquePublicKeys data
  let signedAttsByPubKey ← parseAttestationsForUniquePublicKeys data
  let proposalHistoryByPubKey ← transformAll o.blocks (fun pubKey signedBlocks =>
    (transformSignedBlocks signedBlocks).mapError (.signedBlocks pubKey)) signedBlocksByPubKey
  let attestingHistoryByPubKey ← transformAll o.attestations (fun pubKey signedAtts =>
    (transformSignedAttestations pubKey signedAtts).mapError (.signedAttestations pubKey))
    signedAttsByPubKey
  let slashableProposerKeys :=
    filterSlashablePubKeysFromBlocks o.slashableBlocks proposalHistoryByPubKey
  let slashableAttesterKeys ← (filterSlashablePubKeysFromAttestations o.slashableVotes
    o.slashableInDB db attestingHistoryByPubKey).mapError .slashable
  return {
    proposalHistoryByPubKey :=
      slashableProposerKeys.foldl (fun m k => m.erase k) proposalHistoryByPubKey
    attestingHistoryByPubKey :=
      slashableAttesterKeys.foldl (fun m k => m.erase k) attestingHistoryByPubKey
    slashablePublicKeys := slashableProposerKeys ++ slashableAttesterKeys }

def saveEIPImportBlacklistedPublicKeys (publicKeys : List PubKey) (db : DB) : DB :=
  { db with slashablePublicKeys :=
      publicKeys.foldl (fun m k => m.insert k ()) db.slashablePublicKeys }

def saveProposals (o : MapOrder) (m : PubKeyMap (List Proposal)) (db : DB) : DB :=
  (o.order m.keys).foldl (fun db pubKey => (m[pubKey]?.getD []).foldl (fun db proposal =>
    db.saveProposalHistoryForSlot pubKey proposal.slot proposal.signingRoot) db) db

/-- The attestations of all public keys are saved, those of one key with
`SaveAttestationsForPubKey`. -/
def saveAttestations (o : MapOrder) (m : PubKeyMap (List AttestationRecord)) (db : DB) : DB :=
  (o.order m.keys).foldl (fun db pubKey => db.saveAttestationRecords (m[pubKey]?.getD [])) db

/-- The part of the import that writes. -/
def saveHistories (o : Orders) (h : Histories) (db : DB) : DB :=
  saveAttestations o.saveAttestations h.attestingHistoryByPubKey
    (saveProposals o.saveProposals h.proposalHistoryByPubKey
      (saveEIPImportBlacklistedPublicKeys h.slashablePublicKeys db))

def importStandardProtectionJSON (o : Orders) (file : File) : EStateM ImportErr DB Unit :=
  match file.data with
  | none => pure ()
  | some data => do
    validateMetadata file
    let db ← get
    match readHistories o data db with
    | .error e => throw e
    | .ok histories => set (saveHistories o histories db)

/-! ### A failed import -/

section Failure

/-- The version is the supported one, and the genesis validators root can be read. -/
def MetadataRead (file : File) : Prop :=
  file.interchangeFormatVersion = interchangeFormatVersion ∧
    ∃ gvr, rootFromHex file.genesisValidatorsRoot = .ok gvr

theorem validateMetadata_cases (file : File) (db : DB) :
    (∃ e, (db.genesisValidatorsRoot ≠ [] ∨ ¬ MetadataRead file) ∧
        validateMetadata file db = .error e db) ∨
      (db.genesisValidatorsRoot = [] ∧ MetadataRead file ∧ ∃ gvr, validateMetadata file db =
        .ok () { db with genesisValidatorsRoot := rootBytes gvr }) ∨
      db.genesisValidatorsRoot ≠ [] ∧ validateMetadata file db = .ok () db := by
  rw [validateMetadata]
  split
  · next hversion => exact .inl ⟨_, .inr fun hread => hversion hread.1, rfl⟩
  · next hversion =>
    cases hroot : rootFromHex file.genesisValidatorsRoot with
    | error e =>
      refine .inl ⟨_, .inr fun ⟨_, gvr, hgvr⟩ => ?_, rfl⟩
      cases hroot.symm.trans hgvr
    | ok gvr =>
      dsimp only
      split
      · next hnone =>
        exact .inr (.inl ⟨hnone, ⟨Classical.not_not.mp hversion, gvr, hroot⟩, gvr, rfl⟩)
      · next hsome =>
        split
        · exact .inl ⟨_, .inl hsome, rfl⟩
        · exact .inr (.inr ⟨hsome, rfl⟩)

theorem rootBytes_ne_nil (r : Root) : rootBytes r ≠ [] := by
  intro h
  have hlen : (rootBytes r).length = 32 := Bytes.length_bigEndian 32 _
  rw [h] at hlen
  cases hlen

/-- After the metadata, the import either writes everything or stops before it has
written anything. -/
theorem import_of_validateMetadata (o : Orders) {file : File} {data : List (Option ProtectionData)}
    (hdata : file.data = some data) {db db₁ : DB} (hmeta : validateMetadata file db = .ok () db₁) :
    importStandardProtectionJSON o file db =
      match readHistories o data db₁ with
      | .error e => .error e db₁
      | .ok histories => .ok () (saveHistories o histories db₁) := by
  rw [importStandardProtectionJSON, hdata]
  dsimp only
  rw [EState.bind_ok hmeta, EState.get_bind]
  cases readHistories o data db₁ with
  | error e => rfl
  | ok histories => rfl

/-- A failed import leaves the database as it was exactly if a genesis validators
root was already stored or if the version or the root of the file cannot be read. -/
theorem failed_import_unchanged_iff (o : Orders) (file : File) (db db' : DB) (e : ImportErr)
    (h : importStandardProtectionJSON o file db = .error e db') :
    db' = db ↔ db.genesisValidatorsRoot ≠ [] ∨ ¬ MetadataRead file := by
  cases hdata : file.data with
  | none =>
    rw [importStandardProtectionJSON, hdata] at h
    cases h
  | some data =>
    rcases validateMetadata_cases file db with
      ⟨e', he', hmeta⟩ | ⟨hnone, hread, gvr, hmeta⟩ | ⟨hsome, hmeta⟩
    · rw [importStandardProtectionJSON, hdata] at h
      dsimp only at h
      rw [EState.bind_error hmeta] at h
      cases h
      exact iff_of_true rfl he'
    · rw [import_of_validateMetadata o hdata hmeta] at h
      cases hcontent : readHistories o data { db with genesisValidatorsRoot := rootBytes gvr } with
      | ok histories =>
        rw [hcontent] at h
        cases h
      | error e' =>
        rw [hcontent] at h
        cases h
        refine iff_of_false (fun heq => ?_) (not_or.mpr ⟨not_not_intro hnone, not_not_intro hread⟩)
        exact rootBytes_ne_nil gvr ((congrArg DB.genesisValidatorsRoot heq).trans hnone)
    · rw [import_of_validateMetadata o hdata hmeta] at h
      cases hread : readHistories o data db with
      | ok histories =>
        rw [hread] at h
        cases h
      | error e' =>
        rw [hread] at h
        cases h
        exact iff_of_true rfl (.inl hsome)

end Failure

/-- Every loop takes the public keys as they come. -/
def Orders.plain : Orders :=
  have o : MapOrder := ⟨id, fun _ => .rfl⟩
  ⟨o, o, o, o, o, o, o⟩

/-- The text of a root that repeats one digit. -/
def sampleRoot (d : Char) : Text := '0' :: 'x' :: List.replicate 64 d

/-- A file whose metadata is fine and whose public key is too short. -/
def badPublicKey : File :=
  ⟨['5'], sampleRoot '1', some [some ⟨['0', 'x', '1', '2'], [], []⟩]⟩

def rootedDB : DB := { DB.empty with genesisValidatorsRoot := List.replicate 32 17 }

/-- With a stored root, a file with a bad public key changes nothing. -/
theorem failed_import_unchanged_of_badPublicKey :
    ∃ db', importStandardProtectionJSON .plain badPublicKey rootedDB =
        .error (.blocksPublicKey ['0', 'x', '1', '2'] (.length ['0', 'x', '1', '2'])) db' ∧
      db' = rootedDB := by
  have herror : importStandardProtectionJSON .plain badPublicKey rootedDB =
      .error (.blocksPublicKey ['0', 'x', '1', '2'] (.length ['0', 'x', '1', '2'])) rootedDB := rfl
  exact ⟨_, herror, (failed_import_unchanged_iff .plain badPublicKey rootedDB _ _ herror).mpr
    (.inl (by decide))⟩

/-- Without one, the root of the file is stored although the import fails. -/
theorem failed_import_stores_root :
    importStandardProtectionJSON .plain badPublicKey .empty =
        .error (.blocksPublicKey ['0', 'x', '1', '2'] (.length ['0', 'x', '1', '2'])) rootedDB ∧
      rootedDB ≠ .empty := by
  refine ⟨rfl, fun heq => ?_⟩
  have hroot := congrArg DB.genesisValidatorsRoot heq
  exact absurd hroot (by decide)

end Interchange

end Vanguard.Validator
