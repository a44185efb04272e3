import Vanguard.Lib.EState
import Vanguard.Slasher.Database

/-!
Detection with min-max spans.

A store that comes from the cache is changed in place, also if it is not saved
afterwards. The loops over epochs filter the list of validators in place without
shortening it: the validators that were updated come first, and behind them is what
was there before.
-/

namespace Vanguard.Slasher

open Bytes

inductive DetectionKind where
  | doubleVote
  | surroundVote
  deriving DecidableEq, Repr

structure DetectionResult where
  validatorIndex : ValidatorIndex
  slashableEpoch : Epoch
  kind : DetectionKind
  sigBytes : UInt8 × UInt8
  deriving DecidableEq, Repr

def epochLookback : Epoch := 128

/-- The result of an operation on an epoch store. -/
def ofSpan {α : Type} : Except SpanErr α → EStateM SlasherErr Store α
  | .ok a => pure a
  | .error e => throw (.span e)

/-- What is written to a store from the cache stays there. -/
def Store.writeThrough (s : Store) (epoch : Epoch) (es : EpochStore) : Store :=
  if s.hasSpans epoch then s.cacheSpans epoch es else s

/-! ### `DetectSlashingsForAttestation` -/

/-- A surround vote with the attestation that a span of the validator points to. -/
def surroundResult (sourceEpoch : Epoch) (idx : ValidatorIndex) (span : BitVec 16) :
    EStateM SlasherErr Store (Option DetectionResult) := do
  let slashableEpoch := sourceEpoch + span.setWidth 64
  let targetSpans ← epochSpans slashableEpoch true
  let valSpan ← ofSpan (targetSpans.getValidatorSpan idx)
  return some ⟨idx, slashableEpoch, .surroundVote, valSpan.sigBytes⟩

def detectForIndex (spanMap targetSpanMap : EpochStore) (sourceEpoch targetEpoch : Epoch)
    (distance : BitVec 16) (idx : ValidatorIndex) :
    EStateM SlasherErr Store (Option DetectionResult) := do
  let span ← ofSpan (spanMap.getValidatorSpan idx)
  if 0 < span.minSpan ∧ span.minSpan < distance then
    surroundResult sourceEpoch idx span.minSpan
  else if distance < span.maxSpan then
    surroundResult sourceEpoch idx span.maxSpan
  else
    let targetSpan ← ofSpan (targetSpanMap.getValidatorSpan idx)
    if targetSpan.hasAttested then
      return some ⟨idx, targetEpoch, .doubleVote, targetSpan.sigBytes⟩
    else return none

def detectForIndices (f : ValidatorIndex → EStateM SlasherErr Store (Option DetectionResult)) :
    List ValidatorIndex → EStateM SlasherErr Store (List DetectionResult)
  | [] => pure []
  | idx :: rest => do
    let result ← f idx
    let detections ← detectForIndices f rest
    return result.toList ++ detections

def detectSlashingsForAttestation (att : IndexedAttestation) :
    EStateM SlasherErr Store (List DetectionResult) := do
  let source := att.data.source.epoch
  let target := att.data.target.epoch
  let sourceEpoch := if target < source then target else source
  let targetEpoch := if target < source then source else target
  let dis := targetEpoch - sourceEpoch
  if weakSubjectivityPeriod < dis then throw (.distance dis)
  else
    let spanMap ← epochSpans sourceEpoch true
    let targetSpanMap ← epochSpans targetEpoch true
    let distance := dis.setWidth 16
    detectForIndices (detectForIndex spanMap targetSpanMap sourceEpoch targetEpoch distance)
      att.attestingIndices

/-! ### `UpdateSpans` -/

def sigBytesOf (signature : Bytes) : UInt8 × UInt8 :=
  match signature with
  | b₀ :: b₁ :: _ => (b₀, b₁)
  | _ => (0, 0)

/-- The loop of `saveSigBytes` over validators: the store that it leaves, and whether
it stopped at a validator that has already attested. -/
def markIndices (sigBytes : UInt8 × UInt8) :
    List ValidatorIndex → EpochStore → EpochStore × Except SpanErr Bool
  | [], spanMap => (spanMap, .ok false)
  | idx :: rest, spanMap =>
    match spanMap.getValidatorSpan idx with
    | .error e => (spanMap, .error e)
    | .ok span =>
      if span.hasAttested then (spanMap, .ok true)
      else
        match spanMap.setValidatorSpan idx { span with hasAttested := true, sigBytes } with
        | .error e => (spanMap, .error e)
        | .ok spanMap => markIndices sigBytes rest spanMap

def saveSigBytes (att : IndexedAttestation) : EStateM SlasherErr Store Unit := do
  let source := att.data.source.epoch
  let target := if att.data.target.epoch < source then source else att.data.target.epoch
  let spanMap ← epochSpans target true
  let marked := markIndices (sigBytesOf att.signature) att.attestingIndices spanMap
  modify fun s => s.writeThrough target marked.1
  let stopped ← ofSpan marked.2
  if stopped then return ()
  else saveEpochSpans target marked.1 true

/-- The loop over validators for an epoch: the store that it leaves, and the validators
whose span was improved. -/
def improveIndices (improve : Span → Option Span) :
    List ValidatorIndex → EpochStore → EpochStore × Except SpanErr (List ValidatorIndex)
  | [], spanMap => (spanMap, .ok [])
  | idx :: rest, spanMap =>
    match spanMap.getValidatorSpan idx with
    | .error e => (spanMap, .error e)
    | .ok span =>
      match improve span with
      | none => improveIndices improve rest spanMap
      | some span =>
        match spanMap.setValidatorSpan idx span with
        | .error e => (spanMap, .error e)
        | .ok spanMap =>
          let (spanMap, indices) := improveIndices improve rest spanMap
          (spanMap, indices.map (idx :: ·))

/-- The loop body for an epoch, which returns the validators whose span was improved. -/
def sweepEpoch (improve : Span → Option Span) (epoch : Epoch) (toCache : Bool)
    (valIndices : List ValidatorIndex) : EStateM SlasherErr Store (List ValidatorIndex) := do
  let spanMap ← epochSpans epoch true
  let improved := improveIndices improve valIndices spanMap
  modify fun s => s.writeThrough epoch improved.1
  let indices ← ofSpan improved.2
  saveEpochSpans epoch improved.1 toCache
  return indices

/-- The loop over epochs, until no span is improved. -/
def sweep (improve : Epoch → Span → Option Span) :
    List (Epoch × Bool) → List ValidatorIndex → EStateM SlasherErr Store Unit
  | [], _ => pure ()
  | (epoch, toCache) :: rest, valIndices => do
    let indices ← sweepEpoch (improve epoch) epoch toCache valIndices
    if indices = [] then return ()
    else sweep improve rest (indices ++ valIndices.drop indices.length)

/-- A shorter distance to a target, or the first one. -/
def lowerMinSpan (target epoch : Epoch) (span : Span) : Option Span :=
  let newMinSpan := (target - epoch).setWidth 16
  if span.minSpan = 0 ∨ newMinSpan < span.minSpan then some { span with minSpan := newMinSpan }
  else none

/-- A longer distance to a target. -/
def raiseMaxSpan (target epoch : Epoch) (span : Span) : Option Span :=
  let newMaxSpan := (target - epoch).setWidth 16
  if span.maxSpan < newMaxSpan then some { span with maxSpan := newMaxSpan } else none

/-- The epochs that `updateMinSpan` visits, and where it saves them. The loop ends
after epoch 0. -/
def minSpanEpochs (disableLookback : Bool) (source : Epoch) : List (Epoch × Bool) :=
  let epoch := source - 1
  let lookbackEpoch := if epoch < epochLookback then 0 else epoch - epochLookback
  let untilEpoch := if disableLookback then 0 else lookbackEpoch
  (List.range ((epoch - untilEpoch).toNat + 1)).map fun i =>
    let e := epoch - BitVec.ofNat 64 i
    (e, decide (lookbackEpoch < e))

def updateMinSpan (disableLookback : Bool) (att : IndexedAttestation) :
    EStateM SlasherErr Store Unit := do
  let source := att.data.source.epoch
  let target := att.data.target.epoch
  if source < 1 then return ()
  else
    let low := if target < source then target else source
    let high := if target < source then source else target
    sweep (lowerMinSpan high) (minSpanEpochs disableLookback low) att.attestingIndices

/-- The epochs that `updateMaxSpan` visits. -/
def maxSpanEpochs (source target : Epoch) : List (Epoch × Bool) :=
  let first := source + 1
  if first < target then
    (List.range (target - first).toNat).map fun i => (first + BitVec.ofNat 64 i, true)
  else []

def updateMaxSpan (att : IndexedAttestation) : EStateM SlasherErr Store Unit :=
  let source := att.data.source.epoch
  let target := att.data.target.epoch
  let low := if target < source then target else source
  let high := if target < source then source else target
  sweep (raiseMaxSpan high) (maxSpanEpochs low high) att.attestingIndices

def updateSpans (disableLookback : Bool) (att : IndexedAttestation) :
    EStateM SlasherErr Store Unit := do
  saveSigBytes att
  updateMinSpan disableLookback att
  updateMaxSpan att

end Vanguard.Slasher
