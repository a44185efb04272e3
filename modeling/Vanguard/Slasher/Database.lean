import Vanguard.Lib.Lru
import Vanguard.Lib.TreeMap
import Vanguard.Slasher.EpochStore

/-!
The slasher database.

Bolt is taken to be an atomic map that is ordered by the bytes of its keys, and the
encodings of attestations and of sets of highest attestations to be exact. Epochs are
written with the least significant byte first. A store in the span cache is the one
that was saved: what is written to it later is seen by every reader.
-/

namespace Vanguard.Slasher

open Bytes

abbrev Bucket (V : Type) := Std.ExtTreeMap Bytes V

/-! ### Messages -/

structure Checkpoint where
  epoch : Epoch
  root : Bytes
  deriving DecidableEq, Repr

structure AttestationData where
  slot : Slot
  committeeIndex : BitVec 64
  beaconBlockRoot : Bytes
  source : Checkpoint
  target : Checkpoint
  deriving DecidableEq, Repr

structure IndexedAttestation where
  attestingIndices : List ValidatorIndex
  data : AttestationData
  signature : Bytes
  deriving DecidableEq, Repr

/-- `MarshalSSZ` of an attestation gives no error. -/
def IndexedAttestation.Marshals (att : IndexedAttestation) : Prop :=
  att.attestingIndices.length ≤ 2048 ∧ att.data.beaconBlockRoot.length = 32 ∧
    att.data.source.root.length = 32 ∧ att.data.target.root.length = 32 ∧ att.signature.length = 96

instance (att : IndexedAttestation) : Decidable att.Marshals := inferInstanceAs (Decidable (_ ∧ _))

structure HighestAttestation where
  validatorId : ValidatorIndex
  highestSourceEpoch : Epoch
  highestTargetEpoch : Epoch
  deriving DecidableEq, Repr

abbrev HighestSet := Std.ExtTreeMap ValidatorIndex HighestAttestation

inductive SlasherErr where
  | span (e : SpanErr)
  /-- `attestation span was greater than weak subjectivity period %d, received: %d` -/
  | distance (received : Epoch)
  /-- `unexpected false positive in surround vote detection` -/
  | falsePositive
  /-- `could not hash slashing` -/
  | hashSlashing
  /-- A key that is shorter than the one that is looked for. -/
  | panic
  deriving DecidableEq, Repr

/-- `Store`, with the epoch that the package keeps in memory. -/
structure Store where
  highestAttCacheEnabled : Bool
  highestAttestationCache : Lru (BitVec 64) HighestSet
  flatSpanCache : Lru Epoch EpochStore
  historicIndexedAttestations : Bucket IndexedAttestation
  validatorsMinMaxSpan : Bucket Bytes
  highestAttestation : Bucket HighestSet
  highestObservedEpoch : Epoch

def epochSpansCacheSize : ℕ := 256

/-- The default size of the cache of highest attestations. -/
def highestAttCacheSize : ℕ := 3000

/-- `NewKVStore` on an empty directory, with the sizes of the caches. -/
def Store.new (spanCacheSize highestAttestationCacheSize : ℕ) : Store where
  highestAttCacheEnabled := true
  highestAttestationCache := Lru.new highestAttestationCacheSize
  flatSpanCache := Lru.new spanCacheSize
  historicIndexedAttestations := ∅
  validatorsMinMaxSpan := ∅
  highestAttestation := ∅
  highestObservedEpoch := 0

/-! ### Indexed attestations -/

def weakSubjectivityPeriod : Epoch := 54000

def pruneSlasherStoragePeriod : Epoch := 10

def encodeEpochSig (targetEpoch : Epoch) (sig : Bytes) : Bytes := ofUint64LE targetEpoch ++ sig

def IndexedAttestation.key (att : IndexedAttestation) : Bytes :=
  encodeEpochSig att.data.target.epoch att.signature

def Store.saveIndexedAttestation (s : Store) (att : IndexedAttestation) : Store :=
  match s.historicIndexedAttestations[att.key]? with
  | some _ => s
  | none =>
    { s with
      historicIndexedAttestations := s.historicIndexedAttestations.insert att.key att }

/-- The loop of a cursor over the keys that start with `key`. -/
def readPrefixed (key : Bytes) :
    List (Bytes × IndexedAttestation) → Except SlasherErr (List IndexedAttestation)
  | [] => .ok []
  | (k, att) :: rest =>
    if k.length < key.length then .error .panic
    else if k.take key.length = key then
      match readPrefixed key rest with
      | .error e => .error e
      | .ok idxAtts => .ok (att :: idxAtts)
    else .ok []

/-- `IndexedAttestationsWithPrefix`, with a cursor that seeks the key. -/
def Store.indexedAttestationsWithPrefix (s : Store) (targetEpoch : Epoch) (sigBytes : Bytes) :
    Except SlasherErr (List IndexedAttestation) :=
  let key := encodeEpochSig targetEpoch sigBytes
  readPrefixed key
    (s.historicIndexedAttestations.toList.dropWhile fun e => compare e.1 key == .lt)

def Store.pruneAttHistory (s : Store) (currentEpoch pruningEpochAge : Epoch) : Store :=
  let pruneFromEpoch := currentEpoch - pruningEpochAge
  if pruneFromEpoch.toInt ≤ 0 then s
  else
    { s with
      historicIndexedAttestations :=
        TreeMap.deleteWhile (fun k => compare (k.take 8) (ofUint64LE pruneFromEpoch) != .gt)
          s.historicIndexedAttestations }

/-! ### Spans -/

/-- `persistFlatSpanMapsOnEviction`, for the entry that the cache evicts. -/
def Store.persistFlatSpanMaps (s : Store) : Option (Epoch × EpochStore) → Store
  | none => s
  | some (epoch, epochStore) =>
    { s with
      validatorsMinMaxSpan := s.validatorsMinMaxSpan.insert (ofUint64LE epoch) epochStore.spans }

/-- `Set` of the span cache. -/
def Store.cacheSpans (s : Store) (epoch : Epoch) (es : EpochStore) : Store :=
  let (cache, evicted) := s.flatSpanCache.add epoch es
  Store.persistFlatSpanMaps { s with flatSpanCache := cache } evicted

/-- `Delete` of the span cache. -/
def Store.evictSpans (s : Store) (epoch : Epoch) : Store :=
  let (cache, evicted) := s.flatSpanCache.remove epoch
  Store.persistFlatSpanMaps { s with flatSpanCache := cache } (evicted.map (epoch, ·))

/-- `Has` of the span cache. -/
def Store.hasSpans (s : Store) (epoch : Epoch) : Bool := (s.flatSpanCache.peek epoch).isSome

def epochSpans (epoch : Epoch) (fromCache : Bool) : EStateM SlasherErr Store EpochStore := fun s =>
  if fromCache && s.hasSpans epoch || s.hasSpans epoch then
    match s.flatSpanCache.get epoch with
    | (some spans, cache) => .ok spans { s with flatSpanCache := cache }
    | (none, _) => .error .panic s
  else
    match EpochStore.new (s.validatorsMinMaxSpan[ofUint64LE epoch]?.getD []) with
    | .error e => .error (.span e) s
    | .ok spans => .ok spans s

def Store.setObservedEpochs (s : Store) (epoch : Epoch) : Store :=
  if s.highestObservedEpoch < epoch then
    let s := { s with highestObservedEpoch := epoch }
    if s.highestObservedEpoch % pruneSlasherStoragePeriod = 0 then
      s.pruneAttHistory epoch weakSubjectivityPeriod
    else s
  else s

def saveEpochSpans (epoch : Epoch) (es : EpochStore) (toCache : Bool) :
    EStateM SlasherErr Store Unit := fun s =>
  if es.spans.length % spannerEncodedLength ≠ 0 then .error (.span .wrongSize) s
  else
    let s := s.setObservedEpochs epoch
    let s := if toCache || s.hasSpans epoch then s.cacheSpans epoch es else s
    if toCache then .ok () s
    else
      .ok () { s with
        validatorsMinMaxSpan := s.validatorsMinMaxSpan.insert (ofUint64LE epoch) es.spans }

/-! ### Highest attestations -/

/-- Validators are divided by id into groups of a thousand. -/
def highestAttSetkey (validatorID : ValidatorIndex) : BitVec 64 := validatorID / 1000

def highestAttSetkeyBytes (validatorID : ValidatorIndex) : Bytes :=
  ofUint64 (highestAttSetkey validatorID)

/-- `persistHighestAttestationCacheOnEviction`, for the entry that the cache evicts. Its key is that
of a set already, and is divided once more. -/
def Store.persistHighestAttestations (s : Store) : Option (BitVec 64 × HighestSet) → Store
  | none => s
  | some (key, set) =>
    { s with highestAttestation := s.highestAttestation.insert (highestAttSetkeyBytes key) set }

/-- The set that `Set` of the cache of highest attestations puts under a key. -/
def Store.setWith (s : Store) (setKey : BitVec 64) (highest : HighestAttestation) : HighestSet :=
  match s.highestAttestationCache.peek setKey with
  | some set => set.insert highest.validatorId highest
  | none => Std.ExtTreeMap.empty.insert highest.validatorId highest

/-- `Set` of the cache of highest attestations. A set that is in the cache is changed
in place. -/
def Store.cacheHighest (s : Store) (setKey : BitVec 64) (highest : HighestAttestation) : Store :=
  let (cache, evicted) := s.highestAttestationCache.add setKey (s.setWith setKey highest)
  Store.persistHighestAttestations { s with highestAttestationCache := cache } evicted

/-- `Delete` of the cache of highest attestations. -/
def Store.evictHighest (s : Store) (setKey : BitVec 64) : Store :=
  let (cache, evicted) := s.highestAttestationCache.remove setKey
  Store.persistHighestAttestations { s with highestAttestationCache := cache }
    (evicted.map (setKey, ·))

/-- `HighestAttestation`, with nothing for nil. -/
def Store.highestAttestationOf (s : Store) (validatorID : ValidatorIndex) :
    Option HighestAttestation × Store :=
  let stored := s.highestAttestation[highestAttSetkeyBytes validatorID]?.bind (·[validatorID]?)
  if s.highestAttCacheEnabled then
    let (h, cache) := s.highestAttestationCache.get (highestAttSetkey validatorID)
    let s := { s with highestAttestationCache := cache }
    match h.bind (·[validatorID]?) with
    | some highest => (some highest, s)
    | none => (stored, s)
  else (stored, s)

def Store.saveHighestAttestation (s : Store) (highest : HighestAttestation) : Store :=
  if s.highestAttCacheEnabled then s.cacheHighest (highestAttSetkey highest.validatorId) highest
  else
    let key := highestAttSetkeyBytes highest.validatorId
    let set := s.highestAttestation[key]?.getD ∅
    { s with
      highestAttestation := s.highestAttestation.insert key
        (set.insert highest.validatorId highest) }

end Vanguard.Slasher
