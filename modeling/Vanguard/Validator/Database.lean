import Vanguard.Basic
import Vanguard.Lib.PackedIndex
import Vanguard.Lib.Text

/-!
The validator database.

Bolt is taken to be an atomic map that is ordered by the bytes of its keys. Public
keys and roots have a fixed length and stand for their bytes; epochs and slots are
written with the most significant byte first.
-/

namespace Vanguard.Validator

open Bytes

export PackedIndex (Bucket)

abbrev PubKey := BitVec 384

abbrev PubKeyMap (V : Type) := Std.ExtTreeMap PubKey V

/-- The bucket of a public key in `pubKeysBucket`, with the nested buckets that
have been created. -/
structure PkBucket where
  signingRoots : Option (Bucket Root)
  sourceEpochs : Option (Bucket Bytes)
  targetEpochs : Option (Bucket Bytes)

structure DB where
  /-- The value under `genesisValidatorsRootKey`, empty if there is none. -/
  genesisValidatorsRoot : Bytes
  historicProposals : PubKeyMap (Bucket Root)
  deprecatedAttestationHistory : PubKeyMap Bytes
  lowestSignedSource : PubKeyMap Bytes
  lowestSignedTarget : PubKeyMap Bytes
  lowestSignedProposals : PubKeyMap Bytes
  highestSignedProposals : PubKeyMap Bytes
  slashablePublicKeys : PubKeyMap Unit
  pubKeys : PubKeyMap PkBucket

/-- The database that `NewKVStore` creates. -/
def DB.empty : DB where
  genesisValidatorsRoot := []
  historicProposals := ∅
  deprecatedAttestationHistory := ∅
  lowestSignedSource := ∅
  lowestSignedTarget := ∅
  lowestSignedProposals := ∅
  highestSignedProposals := ∅
  slashablePublicKeys := ∅
  pubKeys := ∅

structure AttestationRecord where
  pubKey : PubKey
  source : Epoch
  target : Epoch
  signingRoot : Root
  deriving DecidableEq, Repr

structure Attestation where
  source : Epoch
  target : Epoch
  deriving DecidableEq, Repr

def isSurround (a b : Attestation) : Bool :=
  decide (a.source < b.source) && decide (b.target < a.target)

def signingRootsDiffer (existingSigningRoot incomingSigningRoot : Root) : Bool :=
  if existingSigningRoot = zeroHash then true
  else decide (existingSigningRoot ≠ incomingSigningRoot)

inductive Err where
  | contextDone
  | belowLowestSource (source lowest : Epoch)
  | notAboveLowestTarget (target lowest : Epoch)
  | doubleVote (target : Epoch) (existing : Root)
  | surroundingVote (att existing : Attestation)
  | surroundedVote (att existing : Attestation)
  | localProtection (e : Err)
  | saveHistory (e : Err)
  | externalSlasher
  | transaction
  /-- An index out of range. -/
  | panic
  deriving DecidableEq, Repr

def rootBytes (r : Root) : Bytes := bigEndian 32 r.toNat

def pubKeyBytes (k : PubKey) : Bytes := bigEndian 48 k.toNat

open Text in
def Err.text : Err → Text
  | .contextDone => "context canceled".toList
  | .belowLowestSource source lowest =>
    "could not sign attestation lower than lowest source epoch in db, ".toList ++
      decimal source ++ " < ".toList ++ decimal lowest
  | .notAboveLowestTarget target lowest =>
    "could not sign attestation lower than or equal to lowest target epoch in db, ".toList ++
      decimal target ++ " <= ".toList ++ decimal lowest
  | .doubleVote target existing =>
    "double vote found, existing attestation at target epoch ".toList ++ decimal target ++
      " with conflicting signing root ".toList ++ hexString (rootBytes existing)
  | .surroundingVote att existing =>
    "attestation with ".toList ++ epochs att ++ " surrounds another with ".toList ++
      epochs existing
  | .surroundedVote att existing =>
    "attestation with ".toList ++ epochs att ++ " is surrounded by another with ".toList ++
      epochs existing
  | .localProtection e =>
    "attempted to make slashable attestation, rejected by local slashing protection".toList ++
      ": ".toList ++ e.text
  | .saveHistory e =>
    "could not save attestation history for validator public key".toList ++ ": ".toList ++ e.text
  | .externalSlasher =>
    "attempted to make slashable attestation, rejected by external slasher service".toList
  | .transaction => "could not commit".toList
  | .panic => "slice bounds out of range".toList
where
  epochs (a : Attestation) : Text :=
    "(source ".toList ++ decimal a.source ++ ", target ".toList ++ decimal a.target ++ ")".toList

/-- The number stored for a public key; nothing if there are fewer than eight
bytes. -/
def storedNumber (bucket : PubKeyMap Bytes) (k : PubKey) : Option (BitVec 64) :=
  let bytes := bucket[k]?.getD []
  if bytes.length < 8 then none else some (toUint64 bytes)

/-- Stores a number for a public key if none is there or if it is better than
the one that is. -/
def storeIfBetter (better : BitVec 64 → BitVec 64 → Bool) (bucket : PubKeyMap Bytes) (k : PubKey)
    (x : BitVec 64) : PubKeyMap Bytes :=
  let bytes := bucket[k]?.getD []
  let stored := if 8 ≤ bytes.length then toUint64 bytes else 0
  if bytes.length = 0 || better x stored then bucket.insert k (ofUint64 x) else bucket

/-! ### Watermarks -/

def Numbers (bucket : PubKeyMap Bytes) : Prop :=
  ∀ (k : PubKey) v, bucket[k]? = some v → ∃ x, v = ofUint64 x

theorem numbers_empty : Numbers ∅ := by
  intro k v hv
  simp at hv

section Watermarks

variable {bucket : PubKeyMap Bytes} {better : BitVec 64 → BitVec 64 → Bool} {o : Option (BitVec 64)}
  {l : List (BitVec 64)}

theorem storeIfBetter_eq_or (k : PubKey) (x : BitVec 64) :
    storeIfBetter better bucket k x = bucket.insert k (ofUint64 x) ∨
      storeIfBetter better bucket k x = bucket :=
  ite_eq_or_eq _ _ _

theorem Numbers.storeIfBetter (h : Numbers bucket) (k : PubKey) (x : BitVec 64) :
    Numbers (storeIfBetter better bucket k x) := by
  rcases storeIfBetter_eq_or k x with heq | heq
  · intro k' v hv
    rw [heq, TreeMap.getElem?_insert] at hv
    split at hv
    · exact ⟨x, (Option.some.inj hv).symm⟩
    · exact h k' v hv
  · rw [heq]
    exact h

theorem storedNumber_insert (k k' : PubKey) (x : BitVec 64) :
    storedNumber (bucket.insert k (ofUint64 x)) k' =
      if k' = k then some x else storedNumber bucket k' := by
  rw [storedNumber, TreeMap.getElem?_insert]
  split
  · simp
  · rfl

/-- The better of a number and the one before it, if there is one. -/
def keepBetter (better : BitVec 64 → BitVec 64 → Bool) (o : Option (BitVec 64)) (x : BitVec 64) :
    Option (BitVec 64) :=
  match o with
  | none => some x
  | some y => if better x y then some x else some y

theorem storedNumber_storeIfBetter (h : Numbers bucket) (k k' : PubKey) (x : BitVec 64) :
    storedNumber (storeIfBetter better bucket k x) k' =
      if k' = k then keepBetter better (storedNumber bucket k) x else storedNumber bucket k' := by
  cases hb : bucket[k]? with
  | none =>
    have hnone : storedNumber bucket k = none := by simp [storedNumber, hb]
    rw [storeIfBetter, hb, hnone]
    simp [storedNumber_insert, keepBetter]
  | some v =>
    obtain ⟨y, rfl⟩ := h k v hb
    have hsome : storedNumber bucket k = some y := by simp [storedNumber, hb]
    rw [storeIfBetter, hb, hsome]
    by_cases hxy : better x y = true
    · simp [hxy, storedNumber_insert, keepBetter]
    · by_cases hk : k' = k
      · simp [hxy, hk, hsome, keepBetter]
      · simp [hxy, hk]

/-- A watermark is the least of the numbers in a list. -/
def IsLowest (o : Option (BitVec 64)) (l : List (BitVec 64)) : Prop :=
  match o with
  | none => l = []
  | some m => m ∈ l ∧ ∀ x ∈ l, m ≤ x

theorem IsLowest.append (h : IsLowest o l) (x : BitVec 64) :
    IsLowest (keepBetter (fun x y => decide (x < y)) o x) (l ++ [x]) := by
  cases o with
  | none =>
    obtain rfl : l = [] := h
    simp [IsLowest, keepBetter]
  | some y =>
    obtain ⟨hy, hle⟩ := h
    by_cases hxy : x < y
    · simp only [keepBetter, hxy, decide_true, if_true]
      refine ⟨by simp, fun z hz => ?_⟩
      rcases List.mem_append.mp hz with hz | hz
      · exact BitVec.le_trans (BitVec.le_of_lt hxy) (hle z hz)
      · rw [List.mem_singleton.mp hz]
        exact BitVec.le_refl x
    · simp only [keepBetter, hxy, decide_false, Bool.false_eq_true, if_false]
      refine ⟨List.mem_append_left _ hy, fun z hz => ?_⟩
      rcases List.mem_append.mp hz with hz | hz
      · exact hle z hz
      · rw [List.mem_singleton.mp hz]
        exact BitVec.not_lt.mp hxy

theorem IsLowest.exists_le (h : IsLowest o l)
    {x : BitVec 64} (hx : x ∈ l) : ∃ m, o = some m ∧ m ∈ l ∧ m ≤ x := by
  cases o with
  | none =>
    obtain rfl : l = [] := h
    cases hx
  | some m => exact ⟨m, rfl, h.1, h.2 x hx⟩

end Watermarks

end Vanguard.Validator
