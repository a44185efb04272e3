import Vanguard.Basic
import Vanguard.Lib.Bytes
import Vanguard.Lib.Slices

/-!
Spans of validators in a flat byte array.

The array of an epoch has seven bytes for every validator. A store that is written
back and read again returns the same spans: the highest index that is computed from
the length of the array is never below the last validator it has bytes for.
-/

namespace Vanguard.Slasher

open Slices List BitVec

abbrev ValidatorIndex := BitVec 64

/-! ### Spans -/

structure Span where
  minSpan : BitVec 16
  maxSpan : BitVec 16
  sigBytes : UInt8 × UInt8
  hasAttested : Bool
  deriving DecidableEq, Repr

/-- `Span{}` -/
def Span.zero : Span := ⟨0, 0, (0, 0), false⟩

abbrev spannerEncodedLength : ℕ := 7

inductive SpanErr where
  /-- `wrong data length for min max span byte array` -/
  | wrongSize
  /-- `wrong data length for min max span` -/
  | wrongSpanSize
  /-- A slice that is out of range. -/
  | panic
  deriving DecidableEq, Repr

def unmarshalSpan : Bytes → Except SpanErr Span
  | [b₀, b₁, b₂, b₃, b₄, b₅, b₆] =>
    .ok
      { minSpan := BitVec.ofNat 16 (b₀.toNat + 256 * b₁.toNat)
        maxSpan := BitVec.ofNat 16 (b₂.toNat + 256 * b₃.toNat)
        sigBytes := (b₄, b₅)
        hasAttested := b₆ &&& 1 == 1 }
  | _ => .error .wrongSpanSize

def Span.marshal (s : Span) : Bytes :=
  let attested : UInt8 := if s.hasAttested then 1 else 0
  [UInt8.ofNat s.minSpan.toNat, UInt8.ofNat (s.minSpan.toNat / 256), UInt8.ofNat s.maxSpan.toNat,
    UInt8.ofNat (s.maxSpan.toNat / 256), s.sigBytes.1, s.sigBytes.2, attested]

@[simp] theorem Span.length_marshal (s : Span) : s.marshal.length = 7 := rfl

theorem ofNat_bytes (x : BitVec 16) :
    BitVec.ofNat 16
      ((UInt8.ofNat x.toNat).toNat + 256 * (UInt8.ofNat (x.toNat / 256)).toNat) = x := by
  have hx := x.isLt
  rw [UInt8.toNat_ofNat', UInt8.toNat_ofNat']
  refine eq_of_toNat_eq ?_
  rw [toNat_ofNat]
  omega

theorem unmarshalSpan_marshal (s : Span) : unmarshalSpan s.marshal = .ok s := by
  obtain ⟨minSpan, maxSpan, sigBytes, hasAttested⟩ := s
  simp only [Span.marshal, unmarshalSpan, ofNat_bytes]
  cases hasAttested with
  | false => simp
  | true => simp

theorem unmarshalSpan_zero : unmarshalSpan (List.replicate 7 0) = .ok Span.zero := by decide

/-! ### Epoch stores -/

/-- `EpochStore`. A Go slice has fewer than `2 ^ 63` bytes. -/
structure EpochStore where
  spans : Bytes
  highestObservedIdx : ValidatorIndex
  short : spans.length < 2 ^ 63
  observed : spans.length / 7 ≤ highestObservedIdx.toNat + 1
  inRange : highestObservedIdx.toNat + 1 < 2 ^ 64
  fresh : spans = [] → highestObservedIdx = 0
  deriving DecidableEq

namespace EpochStore

/-- `NewEpochStore`. A slice that is too long does not exist. -/
def new (spans : Bytes) : Except SpanErr EpochStore :=
  if h : 2 ^ 63 ≤ spans.length then .error .panic
  else if spans.length % spannerEncodedLength ≠ 0 then .error .wrongSize
  else
    .ok
      { spans := spans
        highestObservedIdx := BitVec.ofNat 64 (spans.length / spannerEncodedLength - 1)
        short := by omega
        observed := by
          rw [toNat_ofNat, spannerEncodedLength]
          omega
        inRange := by
          rw [toNat_ofNat, spannerEncodedLength]
          omega
        fresh := by
          rintro rfl
          rfl }

def getValidatorSpan (es : EpochStore) (idx : ValidatorIndex) : Except SpanErr Span :=
  if es.spans.length % spannerEncodedLength ≠ 0 then .error .wrongSize
  else if es.highestObservedIdx < idx then .ok Span.zero
  else
    let requestedLength := idx + 1
    if es.spans.length / spannerEncodedLength < requestedLength.toNat then .ok Span.zero
    else
      let cursor := idx * 7
      unmarshalSpan (slice es.spans cursor.toNat spannerEncodedLength)

/-- The array after it has been allocated and extended by `SetValidatorSpan`. -/
def extended (es : EpochStore) (idx highest : ValidatorIndex) : Bytes :=
  let spans :=
    if es.spans.length = 0 then List.replicate (highest * 7 + 7).toNat 0 else es.spans
  let endCursor := idx * 7 + 7
  grow spans endCursor.toNat 0

/-- The highest index that has been used. -/
def highestWith (es : EpochStore) (idx : ValidatorIndex) : ValidatorIndex :=
  if es.highestObservedIdx < idx then idx else es.highestObservedIdx

variable (idx : ValidatorIndex) {es es' : EpochStore}

theorem toNat_cursor : (idx * 7).toNat = 7 * idx.toNat % 2 ^ 64 := by
  rw [toNat_mul, Nat.mul_comm]
  rfl

theorem toNat_endCursor : (idx * 7 + 7).toNat = (7 * idx.toNat + 7) % 2 ^ 64 := by
  rw [toNat_add, toNat_cursor, Nat.mod_add_mod]
  rfl

theorem le_highestWith (es : EpochStore) (idx : ValidatorIndex) :
    es.highestObservedIdx.toNat ≤ (es.highestWith idx).toNat ∧
      idx.toNat ≤ (es.highestWith idx).toNat := by
  rw [highestWith]
  split
  · next h => exact ⟨BitVec.le_of_lt h, Nat.le_refl _⟩
  · next h => exact ⟨Nat.le_refl _, BitVec.not_lt.mp h⟩

theorem length_extended_le (es : EpochStore) (idx : ValidatorIndex) :
    (es.extended idx (es.highestWith idx)).length / 7 ≤ (es.highestWith idx).toNat + 1 := by
  obtain ⟨hhigh, hidx⟩ := es.le_highestWith idx
  have hend := toNat_endCursor idx
  have hall := toNat_endCursor (es.highestWith idx)
  have hobs := es.observed
  rw [extended, length_grow]
  split
  · rw [length_replicate]
    omega
  · omega

/-- `SetValidatorSpan`. An index whose position does not fit a word is out of range of
the array, and so is a slice that is too long. -/
def setValidatorSpan (es : EpochStore) (idx : ValidatorIndex) (newSpan : Span) :
    Except SpanErr EpochStore :=
  if es.spans.length % spannerEncodedLength ≠ 0 then .error .wrongSize
  else
    let spans := es.extended idx (es.highestWith idx)
    let cursor := idx * 7
    if h : 2 ^ 63 ≤ spans.length ∨ spans.length < cursor.toNat + 7 then .error .panic
    else
      .ok
        { spans := put spans cursor.toNat newSpan.marshal
          highestObservedIdx := es.highestWith idx
          short := by
            rw [length_put (by rw [Span.length_marshal]; omega)]
            omega
          observed := by
            rw [length_put (by rw [Span.length_marshal]; omega)]
            exact es.length_extended_le idx
          inRange := by
            have hidx := idx.isLt
            have hcursor : cursor.toNat = 7 * idx.toNat % 2 ^ 64 := toNat_cursor idx
            rw [highestWith]
            split
            · omega
            · exact es.inRange
          fresh := by
            intro hnil
            have hlen := congrArg length hnil
            rw [length_put (by rw [Span.length_marshal]; omega), length_nil] at hlen
            omega }

/-! ### What a store holds -/

/-- The store has whole spans only. -/
def Flat (es : EpochStore) : Prop := es.spans.length % spannerEncodedLength = 0

instance : Decidable es.Flat := inferInstanceAs (Decidable (_ = _))

def spanIn (spans : Bytes) (idx : ValidatorIndex) : Span :=
  if spans.length / 7 < idx.toNat + 1 then Span.zero
  else ((unmarshalSpan (slice spans (7 * idx.toNat) 7)).toOption).getD Span.zero

def span (es : EpochStore) (idx : ValidatorIndex) : Span := spanIn es.spans idx

theorem unmarshalSpan_of_length {l : Bytes} (h : l.length = 7) : ∃ s, unmarshalSpan l = .ok s := by
  match l, h with
  | [_, _, _, _, _, _, _], _ => exact ⟨_, rfl⟩

theorem getValidatorSpan_eq (h : es.Flat) (idx : ValidatorIndex) :
    es.getValidatorSpan idx = .ok (es.span idx) := by
  have hobs := es.observed
  have hrange := es.inRange
  have hshort := es.short
  have hflat : ¬ es.spans.length % spannerEncodedLength ≠ 0 := not_not.mpr h
  rw [getValidatorSpan, if_neg hflat, span, spanIn]
  dsimp only
  by_cases hhigh : es.highestObservedIdx < idx
  · rw [if_pos hhigh, if_pos (by rw [lt_def] at hhigh; omega)]
  · have hle := BitVec.not_lt.mp hhigh
    rw [le_def] at hle
    have hnext : (idx + 1).toNat = idx.toNat + 1 := by
      rw [toNat_add, show (1 : BitVec 64).toNat = 1 from rfl, Nat.mod_eq_of_lt (by omega)]
    rw [if_neg hhigh, hnext]
    by_cases hlen : es.spans.length / 7 < idx.toNat + 1
    · rw [if_pos hlen, if_pos hlen]
    · have hcursor : (idx * 7).toNat = 7 * idx.toNat := by
        rw [toNat_cursor]
        omega
      rw [if_neg hlen, if_neg hlen, hcursor]
      obtain ⟨s, hs⟩ := unmarshalSpan_of_length (l := slice es.spans (7 * idx.toNat) 7)
        (length_slice (by omega))
      rw [hs]
      rfl

theorem getValidatorSpan_of_not_flat (h : ¬ es.Flat) (idx : ValidatorIndex) :
    es.getValidatorSpan idx = .error .wrongSize := by
  have hlen : es.spans.length % spannerEncodedLength ≠ 0 := h
  rw [getValidatorSpan, if_pos hlen]

theorem getValidatorSpan_congr (h : es'.spans = es.spans) (idx : ValidatorIndex) :
    es'.getValidatorSpan idx = es.getValidatorSpan idx := by
  by_cases hflat : es.Flat
  · have hflat' : es'.Flat := by
      rw [Flat, h]
      exact hflat
    rw [getValidatorSpan_eq hflat, getValidatorSpan_eq hflat', span, span, h]
  · have hflat' : ¬ es'.Flat := by
      rw [Flat, h]
      exact hflat
    rw [getValidatorSpan_of_not_flat hflat, getValidatorSpan_of_not_flat hflat']

theorem new_eq_ok {bytes : Bytes} (hflat : bytes.length % spannerEncodedLength = 0)
    (hshort : bytes.length < 2 ^ 63) : ∃ es, new bytes = .ok es ∧ es.spans = bytes := by
  unfold new
  rw [dif_neg (Nat.not_le.mpr hshort), if_neg (not_not.mpr hflat)]
  exact ⟨_, rfl, rfl⟩

theorem spanIn_nil : spanIn [] idx = Span.zero := by
  rw [spanIn, if_pos (by simp)]

theorem spanIn_grow {spans : Bytes} (hflat : spans.length % 7 = 0) (n : ℕ)
    (idx : ValidatorIndex) : spanIn (grow spans n 0) idx = spanIn spans idx := by
  rw [spanIn, spanIn, length_grow]
  by_cases hold : spans.length / 7 < idx.toNat + 1
  · rw [if_pos hold]
    by_cases hnew : max spans.length n / 7 < idx.toNat + 1
    · rw [if_pos hnew]
    · rw [if_neg hnew, slice_grow_new (by omega) (by omega), unmarshalSpan_zero]
      rfl
  · rw [if_neg hold, if_neg (by omega), slice_grow_of_le (by omega)]

/-- A validator whose position fits a slice. -/
def Fits (idx : ValidatorIndex) : Prop := 7 * (idx.toNat + 1) < 2 ^ 63

instance (idx : ValidatorIndex) : Decidable (Fits idx) := inferInstanceAs (Decidable (_ < _))

theorem extended_eq (es : EpochStore) {idx : ValidatorIndex} (hidx : Fits idx) :
    es.extended idx (es.highestWith idx) = grow es.spans (7 * idx.toNat + 7) 0 := by
  have hfits : 7 * (idx.toNat + 1) < 2 ^ 63 := hidx
  have hend : (idx * 7 + 7).toNat = 7 * idx.toNat + 7 := by
    rw [toNat_endCursor]
    omega
  rw [extended, hend]
  by_cases hnil : es.spans = []
  · have hhighest : es.highestWith idx = idx := by
      rw [highestWith, es.fresh hnil]
      split
      · rfl
      · next h => exact eq_of_toNat_eq (Nat.le_antisymm (Nat.zero_le _) (BitVec.not_lt.mp h))
    rw [hhighest, hend, hnil, if_pos length_nil, grow, grow]
    simp
  · rw [if_neg (mt length_eq_zero_iff.mp hnil)]

theorem setValidatorSpan_eq_ok (h : es.Flat) {idx : ValidatorIndex} (hidx : Fits idx)
    (newSpan : Span) :
    ∃ es', es.setValidatorSpan idx newSpan = .ok es' ∧ es'.Flat ∧
      ∀ v, es'.span v = if v = idx then newSpan else es.span v := by
  have hfits : 7 * (idx.toNat + 1) < 2 ^ 63 := hidx
  have hshort := es.short
  have hflat : es.spans.length % 7 = 0 := h
  have hlen := length_grow es.spans (7 * idx.toNat + 7) 0
  have hcursor : (idx * 7).toNat = 7 * idx.toNat := by
    rw [toNat_cursor]
    omega
  have hput : 7 * idx.toNat + newSpan.marshal.length ≤
      (grow es.spans (7 * idx.toNat + 7) (0 : UInt8)).length := by
    rw [Span.length_marshal]
    omega
  have hspans : ∃ es', es.setValidatorSpan idx newSpan = .ok es' ∧
      es'.spans = put (grow es.spans (7 * idx.toNat + 7) 0) (7 * idx.toNat) newSpan.marshal := by
    rw [setValidatorSpan, if_neg (not_not.mpr hflat)]
    dsimp only
    rw [dif_neg (by rw [extended_eq es hidx, hcursor]; omega)]
    refine ⟨_, rfl, ?_⟩
    dsimp only
    rw [extended_eq es hidx, hcursor]
  obtain ⟨es', hset, hes'⟩ := hspans
  refine ⟨es', hset, ?_, fun v => ?_⟩
  · rw [Flat, spannerEncodedLength, hes', length_put hput]
    omega
  · rw [span, hes', span, spanIn, length_put hput]
    by_cases hv : v = idx
    · have hsame := slice_put_same hput
      rw [Span.length_marshal] at hsame
      rw [if_pos hv, hv, if_neg (by omega), hsame, unmarshalSpan_marshal]
      rfl
    · have hne : v.toNat ≠ idx.toNat := fun heq => hv (eq_of_toNat_eq heq)
      rw [if_neg hv, slice_put_disjoint hput (by rw [Span.length_marshal]; omega),
        ← spanIn_grow hflat (7 * idx.toNat + 7), spanIn]

end EpochStore

end Vanguard.Slasher
