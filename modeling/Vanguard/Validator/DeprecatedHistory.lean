import Vanguard.Lib.Slices
import Vanguard.Validator.ProposerProtection

/-!
The deprecated encoding of attesting histories.

A history is a byte array: the latest epoch written, and then an entry of fixed
size for every target epoch modulo the weak subjectivity period. It stands for a
list of entries, and writing an entry past the end of the list fills the gap with
entries of zero bytes, which are not marked as empty.
-/

namespace Vanguard.Validator

open Bytes Slices List BitVec Option

/-! ### The format -/

def latestEpochWrittenSize : ℕ := 8

def sourceSize : ℕ := 8

def signingRootSize : ℕ := 32

def historySize : ℕ := 8 + sourceSize + signingRootSize

def minimalSize : ℕ := latestEpochWrittenSize

def farFutureEpoch : Epoch := allOnes 64

/-- `deprecatedHistoryData` -/
structure HistoryData where
  source : Epoch
  signingRoot : Root
  deriving DecidableEq, Repr

/-- `isEmpty` of data that is not nil. -/
def HistoryData.isEmpty (d : HistoryData) : Bool := decide (d.source = farFutureEpoch)

def emptyHistoryData : HistoryData := ⟨farFutureEpoch, zeroHash⟩

inductive HistoryErr where
  /-- `encapsulated data size: %d is smaller then minimal size: %d` -/
  | tooSmall (size : ℕ)
  /-- `encapsulated data size: %d is not a multiple of entry size: %d` -/
  | notMultiple (size : ℕ)
  deriving DecidableEq, Repr

def assertSize (dh : Bytes) : Except HistoryErr Unit :=
  if dh.length < minimalSize then .error (.tooSmall dh.length)
  else if (dh.length - minimalSize) % historySize ≠ 0 then .error (.notMultiple dh.length)
  else .ok ()

/-- Where the entry of a target epoch starts. -/
def cursor (target : Epoch) : ℕ :=
  latestEpochWrittenSize + (target % weakSubjectivityPeriod).toNat * historySize

def getLatestEpochWritten (dh : Bytes) : Except HistoryErr Epoch :=
  match assertSize dh with
  | .error e => .error e
  | .ok () => .ok (toUint64LE (slice dh 0 latestEpochWrittenSize))

def setLatestEpochWritten (dh : Bytes) (latestEpochWritten : Epoch) : Except HistoryErr Bytes :=
  match assertSize dh with
  | .error e => .error e
  | .ok () => .ok (put dh 0 (ofUint64LE latestEpochWritten))

def readData (dh : Bytes) (c : ℕ) : HistoryData where
  source := toUint64LE (slice dh c sourceSize)
  signingRoot := BitVec.ofNat 256 (value (slice dh (c + sourceSize) signingRootSize))

/-- `getTargetData`, with nothing for nil. -/
def getTargetData (dh : Bytes) (target : Epoch) : Except HistoryErr (Option HistoryData) :=
  match assertSize dh with
  | .error e => .error e
  | .ok () =>
    if dh.length < cursor target + historySize then .ok none
    else .ok (some (readData dh (cursor target)))

def setTargetData (dh : Bytes) (target : Epoch) (historyData : HistoryData) :
    Except HistoryErr Bytes :=
  match assertSize dh with
  | .error e => .error e
  | .ok () =>
    let c := cursor target
    let dh := grow dh (c + historySize) 0
    let dh := put dh c (ofUint64LE historyData.source)
    .ok (put dh (c + sourceSize) (rootBytes historyData.signingRoot))

/-- `newDeprecatedAttestingHistory`. A round that fails leaves nil. -/
def newDeprecatedAttestingHistory (target : Epoch) : Bytes :=
  let relativeTarget := (target % weakSubjectivityPeriod).toNat
  let en : Bytes := List.replicate (latestEpochWrittenSize + (relativeTarget + 1) * historySize) 0
  (range (relativeTarget + 1)).foldl (fun enc i =>
    match setTargetData enc (BitVec.ofNat 64 i) emptyHistoryData with
    | .error _ => []
    | .ok enc => enc) en

/-! ### The entries of a history -/

/-- The entry that zero bytes stand for. -/
def zeroData : HistoryData := ⟨0, zeroHash⟩

/-- A byte array stands for a latest epoch and a list of entries. -/
structure Represents (dh : Bytes) (latest : Epoch) (cells : List HistoryData) : Prop where
  length : dh.length = 8 + 48 * cells.length
  latest : toUint64LE (slice dh 0 8) = latest
  cell : ∀ i d, cells[i]? = some d → readData dh (8 + 48 * i) = d

/-- Writes an entry, with zero bytes before it if it is past the end. -/
def setCell (cells : List HistoryData) (i : ℕ) (d : HistoryData) : List HistoryData :=
  (grow cells (i + 1) zeroData).set i d

theorem length_setCell (cells : List HistoryData) (i : ℕ) (d : HistoryData) :
    (setCell cells i d).length = max cells.length (i + 1) := by
  rw [setCell, length_set, length_grow]

theorem getElem?_setCell (cells : List HistoryData) (i j : ℕ) (d : HistoryData) :
    (setCell cells i d)[j]? =
      if j = i then some d
      else if j < cells.length then cells[j]? else if j < i then some zeroData else none := by
  rw [setCell, getElem?_set, length_grow, getElem?_grow]
  by_cases hj : j = i
  · subst hj
    simp
  · rw [if_neg (Ne.symm hj), if_neg hj]
    by_cases hlen : j < cells.length
    · rw [if_pos hlen, if_pos hlen]
    · rw [if_neg hlen, if_neg hlen]
      by_cases hi : j < i
      · rw [if_pos (by omega), if_pos hi]
      · rw [if_neg (by omega), if_neg hi]

section Represents

variable {dh : Bytes} {latest : Epoch} {cells : List HistoryData} {c : ℕ}

theorem Represents.assertSize (h : Represents dh latest cells) : assertSize dh = .ok () := by
  have hlen := h.length
  have hmin : ¬ dh.length < minimalSize := by
    rw [minimalSize, latestEpochWrittenSize]
    omega
  have hmul : ¬ (dh.length - minimalSize) % historySize ≠ 0 := by
    rw [minimalSize, latestEpochWrittenSize, historySize, sourceSize, signingRootSize]
    omega
  rw [Validator.assertSize, if_neg hmin, if_neg hmul]

theorem Represents.getLatestEpochWritten (h : Represents dh latest cells) :
    getLatestEpochWritten dh = .ok latest := by
  rw [Validator.getLatestEpochWritten, h.assertSize]
  exact congrArg _ h.latest

theorem cursor_eq (target : Epoch) :
    cursor target = 8 + 48 * (target % weakSubjectivityPeriod).toNat := by
  rw [cursor, latestEpochWrittenSize, historySize, sourceSize, signingRootSize]
  omega

theorem Represents.getTargetData (h : Represents dh latest cells) (target : Epoch) :
    getTargetData dh target = .ok cells[(target % weakSubjectivityPeriod).toNat]? := by
  have hlen := h.length
  rw [Validator.getTargetData, h.assertSize, cursor_eq]
  dsimp only
  cases hcell : cells[(target % weakSubjectivityPeriod).toNat]? with
  | none =>
    have hout := List.getElem?_eq_none_iff.mp hcell
    rw [if_pos (by rw [historySize, sourceSize, signingRootSize]; omega)]
  | some d =>
    have hin := (List.getElem?_eq_some_iff.mp hcell).1
    rw [if_neg (by rw [historySize, sourceSize, signingRootSize]; omega), h.cell _ d hcell]

theorem readData_zero (h₁ : slice dh c 8 = List.replicate 8 0)
    (h₂ : slice dh (c + 8) 32 = List.replicate 32 0) : readData dh c = zeroData := by
  rw [readData, sourceSize, signingRootSize, h₁, h₂, toUint64LE_replicate_zero,
    value_replicate_zero]
  rfl

theorem readData_eq {d : HistoryData} (h₁ : slice dh c 8 = ofUint64LE d.source)
    (h₂ : slice dh (c + 8) 32 = rootBytes d.signingRoot) : readData dh c = d := by
  have hlt := d.signingRoot.isLt
  rw [readData, sourceSize, signingRootSize, h₁, h₂, toUint64LE_ofUint64LE, rootBytes,
    value_bigEndian, Nat.mod_eq_of_lt (by omega), ofNat_toNat, setWidth_eq]

theorem readData_congr {dh' : Bytes} (h : ∀ i n, c ≤ i → i + n ≤ c + 40 →
    slice dh' i n = slice dh i n) : readData dh' c = readData dh c := by
  rw [readData, readData, sourceSize, signingRootSize, h c 8 (by omega) (by omega),
    h (c + 8) 32 (by omega) (by omega)]

theorem slice_setTargetData {source root : Bytes} (hsource : source.length = 8)
    (hroot : root.length = 32) {i n : ℕ} (hd : i + n ≤ c ∨ c + 40 ≤ i) :
    slice (put (put (grow dh (c + 48) 0) c source) (c + 8) root) i n =
      slice (grow dh (c + 48) 0) i n := by
  have hlen := length_grow dh (c + 48) 0
  rw [slice_put_disjoint (by rw [length_put (by omega)]; omega) (by omega),
    slice_put_disjoint (by omega) (by omega)]

theorem Represents.setTargetData (h : Represents dh latest cells) (target : Epoch)
    (d : HistoryData) :
    ∃ dh', setTargetData dh target d = .ok dh' ∧
      Represents dh' latest (setCell cells (target % weakSubjectivityPeriod).toNat d) := by
  have hlen := h.length
  rw [Validator.setTargetData, h.assertSize, cursor_eq]
  generalize (target % weakSubjectivityPeriod).toNat = i
  have hsource : (ofUint64LE d.source).length = 8 := length_ofUint64LE _
  have hroot : (rootBytes d.signingRoot).length = 32 := length_bigEndian 32 _
  have hgrow := length_grow dh (8 + 48 * i + 48) (0 : UInt8)
  have hfit₁ : 8 + 48 * i + (ofUint64LE d.source).length ≤
      (grow dh (8 + 48 * i + 48) (0 : UInt8)).length := by omega
  have hfit₂ : 8 + 48 * i + 8 + (rootBytes d.signingRoot).length ≤
      (put (grow dh (8 + 48 * i + 48) 0) (8 + 48 * i) (ofUint64LE d.source)).length := by
    rw [length_put hfit₁]
    omega
  refine ⟨_, rfl, ?_, ?_, fun j d' hj => ?_⟩
  · rw [historySize, sourceSize, signingRootSize, length_put hfit₂, length_put hfit₁, hgrow,
      length_setCell]
    omega
  · rw [historySize, sourceSize, signingRootSize, slice_setTargetData hsource hroot (by omega),
      slice_grow_of_le (by omega)]
    exact h.latest
  · rw [historySize, sourceSize, signingRootSize]
    rw [getElem?_setCell] at hj
    by_cases hji : j = i
    · rw [if_pos hji] at hj
      obtain rfl : d = d' := some.inj hj
      subst hji
      have h₁ := slice_put_same hfit₁
      have h₂ := slice_put_same hfit₂
      rw [hsource] at h₁
      rw [hroot] at h₂
      refine readData_eq ?_ h₂
      rw [slice_put_disjoint hfit₂ (by omega)]
      exact h₁
    · rw [if_neg hji] at hj
      have hd : ∀ k n, 8 + 48 * j ≤ k → k + n ≤ 8 + 48 * j + 40 →
          k + n ≤ 8 + 48 * i ∨ 8 + 48 * i + 40 ≤ k := by omega
      by_cases hold : j < cells.length
      · rw [if_pos hold] at hj
        rw [← h.cell j d' hj]
        refine readData_congr fun k n hk hn => ?_
        rw [slice_setTargetData hsource hroot (hd k n hk hn), slice_grow_of_le (by omega)]
      · rw [if_neg hold] at hj
        split at hj
        · obtain rfl : zeroData = d' := some.inj hj
          refine readData_zero ?_ ?_
          · rw [slice_setTargetData hsource hroot (by omega), slice_grow_new (by omega) (by omega)]
          · rw [slice_setTargetData hsource hroot (by omega), slice_grow_new (by omega) (by omega)]
        · cases hj

theorem Represents.setLatestEpochWritten (h : Represents dh latest cells) (latest' : Epoch) :
    ∃ dh', setLatestEpochWritten dh latest' = .ok dh' ∧ Represents dh' latest' cells := by
  have hlen := h.length
  have hword : (ofUint64LE latest').length = 8 := length_ofUint64LE _
  have hfit : 0 + (ofUint64LE latest').length ≤ dh.length := by omega
  rw [Validator.setLatestEpochWritten, h.assertSize]
  refine ⟨_, rfl, ?_, ?_, fun i d hi => ?_⟩
  · rw [length_put hfit]
    exact hlen
  · have hsame := slice_put_same hfit
    rw [hword] at hsame
    rw [hsame, toUint64LE_ofUint64LE]
  · rw [← h.cell i d hi]
    refine readData_congr fun k n hk _ => ?_
    rw [slice_put_disjoint hfit (by omega)]

end Represents

theorem represents_zeros (n : ℕ) :
    Represents (List.replicate (8 + 48 * n) 0) 0 (List.replicate n zeroData) where
  length := by simp
  latest := by
    have hslice : slice (List.replicate (8 + 48 * n) (0 : UInt8)) 0 8 = List.replicate 8 0 := by
      simp [slice, take_replicate]
    rw [hslice, toUint64LE_replicate_zero]
  cell i d hd := by
    rw [getElem?_replicate] at hd
    split at hd
    · obtain rfl : zeroData = d := some.inj hd
      refine readData_zero ?_ ?_
      · simp only [slice, drop_replicate, take_replicate]
        congr 1
        omega
      · simp only [slice, drop_replicate, take_replicate]
        congr 1
        omega
    · cases hd

theorem relative_toNat {i : ℕ} (hi : i < 54000) :
    ((BitVec.ofNat 64 i : Epoch) % weakSubjectivityPeriod).toNat = i := by
  have hperiod : weakSubjectivityPeriod.toNat = 54000 := rfl
  rw [toNat_umod, hperiod, toNat_ofNat]
  omega

theorem setCell_marked {n k : ℕ} (hk : k < n) :
    setCell (List.replicate k emptyHistoryData ++ List.replicate (n - k) zeroData) k
        emptyHistoryData =
      List.replicate (k + 1) emptyHistoryData ++ List.replicate (n - (k + 1)) zeroData := by
  ext1 j
  rw [getElem?_setCell]
  simp only [length_append, length_replicate, getElem?_append, getElem?_replicate]
  by_cases hj : j = k
  · rw [if_pos hj, if_pos (by omega), if_pos (by omega)]
  · rw [if_neg hj]
    by_cases hlt : j < k
    · rw [if_pos (by omega), if_pos hlt, if_pos hlt, if_pos (by omega), if_pos (by omega)]
    · by_cases hn : j < n
      · rw [if_pos (by omega), if_neg hlt, if_pos (by omega), if_neg (by omega), if_pos (by omega)]
      · rw [if_neg (by omega), if_neg hlt, if_neg (by omega), if_neg (by omega)]

theorem represents_new (target : Epoch) :
    Represents (newDeprecatedAttestingHistory target) 0
      (List.replicate ((target % weakSubjectivityPeriod).toNat + 1) emptyHistoryData) := by
  have hperiod : weakSubjectivityPeriod.toNat = 54000 := rfl
  have hlt : (target % weakSubjectivityPeriod).toNat < 54000 := by
    rw [toNat_umod, hperiod]
    omega
  rw [newDeprecatedAttestingHistory, latestEpochWrittenSize, historySize, sourceSize,
    signingRootSize]
  generalize (target % weakSubjectivityPeriod).toNat = r at hlt ⊢
  -- after `k` rounds the first `k` entries are marked
  have hloop : ∀ k ≤ r + 1, Represents ((range k).foldl (fun enc i =>
      match setTargetData enc (BitVec.ofNat 64 i) emptyHistoryData with
      | .error _ => []
      | .ok enc => enc) (List.replicate (8 + (r + 1) * (8 + 8 + 32)) 0)) 0
      (List.replicate k emptyHistoryData ++ List.replicate (r + 1 - k) zeroData) := by
    intro k
    induction k with
    | zero =>
      intro _
      have hzeros := represents_zeros (r + 1)
      rw [show 8 + (r + 1) * (8 + 8 + 32) = 8 + 48 * (r + 1) by omega]
      simpa using hzeros
    | succ k ih =>
      intro hk
      obtain ⟨enc, henc, hrep⟩ := (ih (by omega)).setTargetData (BitVec.ofNat 64 k) emptyHistoryData
      rw [relative_toNat (by omega), setCell_marked (by omega)] at hrep
      rw [range_succ, foldl_append, foldl_cons, foldl_nil, henc]
      exact hrep
  simpa using hloop (r + 1) (Nat.le_refl _)

end Vanguard.Validator
