import Vanguard.Validator.Database

/-!
Slashing protection of block proposals: the proposal history in the database,
`preBlockSignValidations` and `postBlockSignUpdate`.
-/

namespace Vanguard.Validator

def slotsPerEpoch : Slot := 32

def weakSubjectivityPeriod : Epoch := 54000

def slotToEpoch (slot : Slot) : Epoch := slot / slotsPerEpoch

/-! ### The database -/

structure Proposal where
  slot : Slot
  signingRoot : Root
  deriving DecidableEq, Repr

/-- The test of `pruneProposalHistoryBySlot`. -/
def prunable (newestSlot slot : Slot) : Bool :=
  decide (slotToEpoch slot + weakSubjectivityPeriod ≤ slotToEpoch newestSlot)

/-- `pruneProposalHistoryBySlot` looks at the first key until it finds one that is
not prunable. -/
def pruneProposalHistoryBySlot (valBucket : Bucket Root) (newestSlot : Slot) : Bucket Root :=
  TreeMap.deleteWhile (fun k => prunable newestSlot (Bytes.toUint64 k)) valBucket

namespace DB

def proposedPublicKeys (db : DB) : List PubKey := db.historicProposals.keys

/-- `ProposalHistoryForSlot`, with nothing for no proposal. -/
def proposalHistoryForSlot (db : DB) (publicKey : PubKey) (slot : Slot) : Option Root :=
  db.historicProposals[publicKey]?.bind (·[Bytes.ofUint64 slot]?)

def proposalHistoryForPubKey (db : DB) (publicKey : PubKey) : List Proposal :=
  match db.historicProposals[publicKey]? with
  | none => []
  | some valBucket => valBucket.toList.map fun e => ⟨Bytes.toUint64 e.1, e.2⟩

def saveProposalHistoryForSlot (db : DB) (pubKey : PubKey) (slot : Slot) (signingRoot : Root) :
    DB :=
  let valBucket := db.historicProposals[pubKey]?.getD ∅
  { db with
    lowestSignedProposals :=
      storeIfBetter (fun x y => decide (x < y)) db.lowestSignedProposals pubKey slot
    highestSignedProposals :=
      storeIfBetter (fun x y => decide (y < x)) db.highestSignedProposals pubKey slot
    historicProposals := db.historicProposals.insert pubKey
      (pruneProposalHistoryBySlot (valBucket.insert (Bytes.ofUint64 slot) signingRoot) slot) }

def lowestSignedProposal (db : DB) : PubKey → Option Slot := storedNumber db.lowestSignedProposals

def highestSignedProposal (db : DB) : PubKey → Option Slot := storedNumber db.highestSignedProposals

end DB

/-! ### The client -/

inductive ProposalErr where
  | doubleProposal
  | notAboveLowest (lowest slot : Slot)
  | blockHeader
  | rejectedBySlasher
  | commitBlock
  | slashableForSlasher
  | saveHistory
  deriving DecidableEq, Repr

open Text in
def ProposalErr.text : ProposalErr → Text
  | .doubleProposal =>
    "attempted to sign a double proposal, block rejected by local protection".toList
  | .notAboveLowest lowest slot =>
    "could not sign block with slot <= lowest signed slot in db, lowest signed slot: ".toList ++
      decimal lowest ++ " >= block slot: ".toList ++ decimal slot
  | .blockHeader => "failed to get block header from block".toList
  | .rejectedBySlasher =>
    "attempted a double proposal, block rejected by remote slashing protection".toList
  | .commitBlock => "could not commit block".toList
  | .slashableForSlasher =>
    "made a double proposal, considered slashable by remote slashing protection".toList
  | .saveHistory => "failed to save updated proposal history".toList

structure Protector where
  headerFails : Bool
  /-- `CheckBlockSafety` -/
  safe : Bool
  /-- `CommitBlock`, with nothing for an error. -/
  commit : Option Bool
  deriving DecidableEq, Repr

/-- What a proposal meets: the external protector, if it is on, and whether the
transaction fails. -/
structure ProposerEnv where
  protector : Option Protector
  saveFails : Bool
  deriving DecidableEq, Repr

/-- The check of the local database. -/
def DB.proposalRefusal (db : DB) (pubKey : PubKey) (slot : Slot) (signingRoot : Root) :
    Option ProposalErr :=
  let previous := db.proposalHistoryForSlot pubKey slot
  let prevSigningRoot := previous.getD zeroHash
  let signingRootIsDifferent := prevSigningRoot = zeroHash ∨ prevSigningRoot ≠ signingRoot
  if previous.isSome ∧ signingRootIsDifferent then some .doubleProposal
  else
    match db.lowestSignedProposal pubKey with
    | some lowest =>
      if signingRootIsDifferent ∧ slot ≤ lowest then some (.notAboveLowest lowest slot) else none
    | none => none

/-- The check of the external protector before a block is signed. -/
def Protector.refusal (p : Protector) : Option ProposalErr :=
  if p.headerFails then some .blockHeader
  else if p.safe then none
  else some .rejectedBySlasher

def preBlockSignValidations (env : ProposerEnv) (db : DB) (pubKey : PubKey) (slot : Slot)
    (signingRoot : Root) : Option ProposalErr :=
  (db.proposalRefusal pubKey slot signingRoot).or (env.protector.bind Protector.refusal)

/-- The answer of the external protector to a block that was signed. -/
def Protector.postRefusal (p : Protector) : Option ProposalErr :=
  if p.headerFails then some .blockHeader
  else
    match p.commit with
    | none => some .commitBlock
    | some valid => if valid then none else some .slashableForSlasher

def postBlockSignUpdate (env : ProposerEnv) (db : DB) (pubKey : PubKey) (slot : Slot)
    (signingRoot : Root) : Except ProposalErr DB :=
  match env.protector.bind Protector.postRefusal with
  | some e => .error e
  | none =>
    if env.saveFails then .error .saveHistory
    else .ok (db.saveProposalHistoryForSlot pubKey slot signingRoot)

/-! ### Runs -/

structure SignedBlock where
  pubKey : PubKey
  slot : Slot
  signingRoot : Root
  deriving DecidableEq, Repr

structure ProposalRequest where
  env : ProposerEnv
  block : SignedBlock
  deriving DecidableEq, Repr

/-- The database and the blocks that passed both steps so far. -/
structure Proposer where
  db : DB
  signed : List SignedBlock

/-- One request: `postBlockSignUpdate` follows if `preBlockSignValidations`
succeeds. -/
def Proposer.step (c : Proposer) (req : ProposalRequest) : Proposer :=
  let b := req.block
  match preBlockSignValidations req.env c.db b.pubKey b.slot b.signingRoot with
  | some _ => c
  | none =>
    match postBlockSignUpdate req.env c.db b.pubKey b.slot b.signingRoot with
    | .error _ => c
    | .ok db => ⟨db, c.signed ++ [b]⟩

def Proposer.run (c : Proposer) (reqs : List ProposalRequest) : Proposer := reqs.foldl step c

def Proposer.fresh : Proposer := ⟨.empty, []⟩

end Vanguard.Validator
