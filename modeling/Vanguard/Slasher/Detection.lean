import Vanguard.Slasher.Spanner

/-!
Detection of slashable attestations.

A detection names an epoch and two bytes of a signature, by which the attestations are
looked up in the database. The hash functions are parameters: `sum` is that of encoded slashings.
-/

namespace Vanguard.Slasher

open Bytes

structure AttesterSlashing where
  attestation1 : IndexedAttestation
  attestation2 : IndexedAttestation
  deriving DecidableEq, Repr

def isSurround (a b : IndexedAttestation) : Bool :=
  decide (a.data.source.epoch < b.data.source.epoch ∧ b.data.target.epoch < a.data.target.epoch)

def attDataIsEqual (attData1 attData2 : AttestationData) : Bool :=
  if attData1.slot ≠ attData2.slot then false
  else if attData1.committeeIndex ≠ attData2.committeeIndex then false
  else if attData1.beaconBlockRoot ≠ attData2.beaconBlockRoot then false
  else if attData1.source.epoch ≠ attData2.source.epoch then false
  else if attData1.source.root ≠ attData2.source.root then false
  else if attData1.target.epoch ≠ attData2.target.epoch then false
  else if attData1.target.root ≠ attData2.target.root then false
  else true

def isDoubleVote (incomingAtt prevAtt : IndexedAttestation) : Bool :=
  !attDataIsEqual incomingAtt.data prevAtt.data &&
    decide (incomingAtt.data.target.epoch = prevAtt.data.target.epoch)

def detectDoubleVote (possibleAtts : List IndexedAttestation) (incomingAtt : IndexedAttestation)
    (detectionResult : DetectionResult) : Option AttesterSlashing :=
  (possibleAtts.find? fun att => isDoubleVote incomingAtt att &&
    att.attestingIndices.contains detectionResult.validatorIndex).map fun att => ⟨incomingAtt, att⟩

def detectSurroundVotes (possibleAtts : List IndexedAttestation)
    (incomingAtt : IndexedAttestation) (detectionResult : DetectionResult) :
    Except SlasherErr AttesterSlashing :=
  match possibleAtts.find? fun att =>
      (isSurround incomingAtt att || isSurround att incomingAtt) &&
        att.attestingIndices.contains detectionResult.validatorIndex with
  | none => .error .falsePositive
  | some att => .ok (if isSurround incomingAtt att then ⟨incomingAtt, att⟩ else ⟨att, incomingAtt⟩)

section Hash

variable (hash : Bytes → Root) (sum : AttesterSlashing → Root)

def resultHash (result : DetectionResult) : Root :=
  hash (ofUint64LE result.slashableEpoch ++ [result.sigBytes.1, result.sigBytes.2])

def mapResultsToAtts (s : Store) :
    List DetectionResult → Std.ExtTreeMap Root (List IndexedAttestation) →
      Except SlasherErr (Std.ExtTreeMap Root (List IndexedAttestation))
  | [], resultsToAtts => .ok resultsToAtts
  | result :: rest, resultsToAtts =>
    let resultKey := resultHash hash result
    match resultsToAtts[resultKey]? with
    | some _ => mapResultsToAtts s rest resultsToAtts
    | none =>
      match s.indexedAttestationsWithPrefix result.slashableEpoch
          [result.sigBytes.1, result.sigBytes.2] with
      | .error e => .error e
      | .ok matchingAtts =>
        mapResultsToAtts s rest (resultsToAtts.insert resultKey matchingAtts)

def slashingsOf (resultsToAtts : Std.ExtTreeMap Root (List IndexedAttestation))
    (att : IndexedAttestation) : List DetectionResult → Except SlasherErr (List AttesterSlashing)
  | [] => .ok []
  | result :: rest =>
    let possibleAtts := resultsToAtts[resultHash hash result]?.getD []
    match result.kind with
    | .doubleVote =>
      (slashingsOf resultsToAtts att rest).map
        ((detectDoubleVote possibleAtts att result).toList ++ ·)
    | .surroundVote =>
      match detectSurroundVotes possibleAtts att result with
      | .error e => .error e
      | .ok slashing => (slashingsOf resultsToAtts att rest).map (slashing :: ·)

def hashProto (ss : AttesterSlashing) : Except SlasherErr Root :=
  if ss.attestation1.Marshals ∧ ss.attestation2.Marshals then .ok (sum ss)
  else .error .hashSlashing

/-- The slashings without those whose hash has been seen. -/
def clearDuplicates : List AttesterSlashing → List Root → Except SlasherErr (List AttesterSlashing)
  | [], _ => .ok []
  | ss :: rest, keys =>
    match hashProto sum ss with
    | .error e => .error e
    | .ok key =>
      if key ∈ keys then clearDuplicates rest keys
      else (clearDuplicates rest (key :: keys)).map (ss :: ·)

def detectAttesterSlashings (att : IndexedAttestation) :
    EStateM SlasherErr Store (List AttesterSlashing) := do
  let results ← detectSlashingsForAttestation att
  if results = [] then return []
  else fun s =>
    match mapResultsToAtts hash s results ∅ with
    | .error e => .error e s
    | .ok resultsToAtts =>
      match slashingsOf hash resultsToAtts att results with
      | .error e => .error e s
      | .ok slashings =>
        match clearDuplicates sum slashings [] with
        | .error e => .error e s
        | .ok slashingList => .ok slashingList s

def updateHighestAttestation (s : Store) (att : IndexedAttestation) : Store :=
  att.attestingIndices.foldl (fun s idx =>
    let (h, s) := s.highestAttestationOf idx
    let h := h.getD ⟨idx, 0, 0⟩
    let source := att.data.source.epoch
    let target := att.data.target.epoch
    let update := decide (h.highestSourceEpoch < source) || decide (h.highestTargetEpoch < target)
    let h := if h.highestSourceEpoch < source then { h with highestSourceEpoch := source } else h
    let h := if h.highestTargetEpoch < target then { h with highestTargetEpoch := target } else h
    if update then s.saveHighestAttestation h else s) s

/-- The database, and the attestations on which `UpdateSpans` was run. -/
structure Service where
  store : Store
  updated : List IndexedAttestation

/-- An attestation is stored, and then `detectIncomingAttestations` receives it. -/
def Service.receive (disableLookback : Bool) (x : Service) (att : IndexedAttestation) : Service :=
  match detectAttesterSlashings hash sum att (x.store.saveIndexedAttestation att) with
  | .error _ s => { x with store := s }
  | .ok slashings s =>
    if slashings = [] then
      { store := updateHighestAttestation (EState.final (updateSpans disableLookback att) s) att
        updated := x.updated ++ [att] }
    else { x with store := updateHighestAttestation s att }

def Service.after (disableLookback : Bool) (spanCacheSize : ℕ) (atts : List IndexedAttestation) :
    Service :=
  atts.foldl (Service.receive hash sum disableLookback)
    ⟨Store.new spanCacheSize highestAttCacheSize, []⟩

end Hash

end Vanguard.Slasher
