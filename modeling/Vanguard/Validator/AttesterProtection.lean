import Vanguard.Lib.EState
import Vanguard.Validator.Database

/-!
Slashing protection of attestations: the checks against the database, the
records it keeps and `slashableAttestationCheck`.
-/

namespace Vanguard.Validator

open PackedIndex (backwards search)

inductive SlashingKind where
  | notSlashable
  | doubleVote
  | surroundingVote
  | surroundedVote
  deriving DecidableEq, Repr

/-! ### The database -/

/-- `checkSurroundedVote` looks from the back for a vote with a later target. -/
def checkSurroundedVote (targetEpochsBucket : Bucket Bytes) (att : Attestation) :
    SlashingKind × Option Err :=
  let stop := fun existingTargetEpoch : Epoch => decide (existingTargetEpoch ≤ att.target)
  let hit := fun existingTargetEpoch existingSourceEpoch : Epoch =>
    isSurround ⟨existingSourceEpoch, existingTargetEpoch⟩ att
  match search Err.panic stop hit (backwards targetEpochsBucket) with
  | .error e => (.notSlashable, some e)
  | .ok none => (.notSlashable, none)
  | .ok (some (target, source)) => (.surroundedVote, some (.surroundedVote att ⟨source, target⟩))

/-- `checkSurroundingVote` looks from the back for a vote with a later source. -/
def checkSurroundingVote (sourceEpochsBucket : Bucket Bytes) (att : Attestation) :
    SlashingKind × Option Err :=
  let stop := fun existingSourceEpoch : Epoch => decide (existingSourceEpoch ≤ att.source)
  let hit := fun existingSourceEpoch existingTargetEpoch : Epoch =>
    isSurround att ⟨existingSourceEpoch, existingTargetEpoch⟩
  match search Err.panic stop hit (backwards sourceEpochsBucket) with
  | .error e => (.notSlashable, some e)
  | .ok none => (.notSlashable, none)
  | .ok (some (source, target)) => (.surroundingVote, some (.surroundingVote att ⟨source, target⟩))

def checkDoubleVote (signingRootsBucket : Option (Bucket Root)) (signingRoot : Root)
    (target : Epoch) : Option Err :=
  match signingRootsBucket.bind (·[Bytes.ofUint64 target]?) with
  | some existing =>
    if signingRootsDiffer existing signingRoot then some (.doubleVote target existing) else none
  | none => none

namespace DB

/-- `CheckSlashableAttestation`. The context is polled once. -/
def checkSlashableAttestation (db : DB) (ctxDone : Bool) (pubKey : PubKey) (signingRoot : Root)
    (att : Attestation) : SlashingKind × Option Err :=
  if ctxDone then (.notSlashable, some .contextDone)
  else
    match db.pubKeys[pubKey]? with
    | none => (.notSlashable, none)
    | some pkBucket =>
      match checkDoubleVote pkBucket.signingRoots signingRoot att.target with
      | some e => (.doubleVote, some e)
      | none =>
        match pkBucket.sourceEpochs with
        | none => (.notSlashable, none)
        | some sourceEpochsBucket =>
          match checkSurroundingVote sourceEpochsBucket att with
          | (kind, some e) => (kind, some e)
          | (kind, none) =>
            match pkBucket.targetEpochs with
            | none => (kind, none)
            | some targetEpochsBucket => checkSurroundedVote targetEpochsBucket att

def signingRootAtTargetEpoch (db : DB) (pubKey : PubKey) (target : Epoch) : Root :=
  ((db.pubKeys[pubKey]?.bind (·.signingRoots)).bind (·[Bytes.ofUint64 target]?)).getD zeroHash

def attestedPublicKeys (db : DB) : List PubKey := db.pubKeys.keys

/-- `AttestationHistoryForPubKey`. A record whose target has no root gets the zero
root. -/
def attestationHistoryForPubKey (db : DB) (pubKey : PubKey) :
    Except Err (List AttestationRecord) :=
  match db.pubKeys[pubKey]? with
  | none => .ok []
  | some pkBucket =>
    match pkBucket.sourceEpochs.bind PackedIndex.readAll with
    | none => .error .panic
    | some votes =>
      match pkBucket.signingRoots with
      | none => if votes = [] then .ok [] else .error .panic
      | some signingRootsBucket =>
        .ok (votes.map fun vote =>
          ⟨pubKey, vote.1, vote.2, signingRootsBucket[Bytes.ofUint64 vote.2]?.getD zeroHash⟩)

def lowestSignedSourceEpoch (db : DB) : PubKey → Option Epoch := storedNumber db.lowestSignedSource

def lowestSignedTargetEpoch (db : DB) : PubKey → Option Epoch := storedNumber db.lowestSignedTarget

end DB

/-- The buckets of a public key after `CreateBucketIfNotExists`. -/
def PkBucket.created (b : Option PkBucket) : PkBucket := b.getD ⟨none, none, none⟩

def PkBucket.save (b : PkBucket) (att : AttestationRecord) : PkBucket where
  signingRoots := some ((b.signingRoots.getD ∅).insert (Bytes.ofUint64 att.target) att.signingRoot)
  sourceEpochs := some (PackedIndex.add (b.sourceEpochs.getD ∅) att.source att.target)
  targetEpochs := some (PackedIndex.add (b.targetEpochs.getD ∅) att.target att.source)

namespace DB

/-- The loop body of `saveAttestationRecords`. -/
def saveAttestationRecord (db : DB) (att : AttestationRecord) : DB :=
  let lower := fun x y : Epoch => decide (x < y)
  { db with
    pubKeys := db.pubKeys.insert att.pubKey ((PkBucket.created db.pubKeys[att.pubKey]?).save att)
    lowestSignedSource := storeIfBetter lower db.lowestSignedSource att.pubKey att.source
    lowestSignedTarget := storeIfBetter lower db.lowestSignedTarget att.pubKey att.target }

/-- `saveAttestationRecords`, in one transaction. -/
def saveAttestationRecords (db : DB) (atts : List AttestationRecord) : DB :=
  atts.foldl saveAttestationRecord db

end DB

/-! ### The client -/

/-- What a call of the client meets: whether the context is done when the
database is asked, whether the transaction fails, and the answer of the external
protector, if there is one. -/
structure ClientEnv where
  ctxDone : Bool
  saveFails : Bool
  protector : Option Bool
  deriving DecidableEq, Repr

abbrev ValidatorM := EStateM Err DB

/-- `SaveAttestationForPubKey`, where the record has been committed when the
call returns. -/
def saveAttestationForPubKey (env : ClientEnv) (att : AttestationRecord) : ValidatorM Unit :=
  fun db =>
    if env.saveFails then .error .transaction db else .ok () (db.saveAttestationRecords [att])

namespace DB

/-- A source epoch below the lowest one that was signed is refused. -/
def checkLowestSource (db : DB) (att : AttestationRecord) : Option Err :=
  match db.lowestSignedSourceEpoch att.pubKey with
  | some lowestSourceEpoch =>
    if att.source < lowestSourceEpoch then some (.belowLowestSource att.source lowestSourceEpoch)
    else none
  | none => none

/-- A target epoch that is not above the lowest one is refused, unless the same
vote is repeated. -/
def checkLowestTarget (db : DB) (att : AttestationRecord) : Option Err :=
  let existingSigningRoot := db.signingRootAtTargetEpoch att.pubKey att.target
  match db.lowestSignedTargetEpoch att.pubKey with
  | some lowestTargetEpoch =>
    if signingRootsDiffer existingSigningRoot att.signingRoot ∧ att.target ≤ lowestTargetEpoch then
      some (.notAboveLowestTarget att.target lowestTargetEpoch)
    else none
  | none => none

/-- The reason, if any, for which `slashableAttestationCheck` refuses an
attestation before it is saved. -/
def refusal (db : DB) (ctxDone : Bool) (att : AttestationRecord) : Option Err :=
  (db.checkLowestSource att).or <| (db.checkLowestTarget att).or <|
    (db.checkSlashableAttestation ctxDone att.pubKey att.signingRoot
      ⟨att.source, att.target⟩).2.map .localProtection

end DB

def slashableAttestationCheck (env : ClientEnv) (att : AttestationRecord) : ValidatorM Unit :=
  fun db =>
    match db.refusal env.ctxDone att with
    | some e => .error e db
    | none =>
      match saveAttestationForPubKey env att db with
      | .error e db' => .error (.saveHistory e) db'
      | .ok () db' =>
        if env.protector = some false then .error .externalSlasher db' else .ok () db'

/-! ### Runs -/

structure Request where
  env : ClientEnv
  att : AttestationRecord

/-- The database and the attestations that were accepted so far. -/
structure Client where
  db : DB
  accepted : List AttestationRecord

def Client.step (c : Client) (req : Request) : Client :=
  match slashableAttestationCheck req.env req.att c.db with
  | .ok () db => ⟨db, c.accepted ++ [req.att]⟩
  | .error _ db => ⟨db, c.accepted⟩

def Client.run (c : Client) (reqs : List Request) : Client := reqs.foldl step c

def Client.fresh : Client := ⟨.empty, []⟩

end Vanguard.Validator
