import Vanguard.Lib.SwapOrNot
import Vanguard.Beacon.Types

/-!
Shuffling of single indices.

The number of rounds is a parameter, and the arithmetic is that of the source. The
counter of rounds has eight bits: with a number of rounds that is a multiple of 256
both loops make 256 rounds.
-/

namespace Vanguard.Beacon.Shuffle

open SwapOrNot List BitVec Except Bytes

def maxShuffleListSize : ℕ := 2 ^ 40

/-- Byte `k` of a hash. -/
def hashByte (source : Root) (k : ℕ) : BitVec 8 := source.extractLsb' (8 * (31 - k)) 8

/-- The seed and the round, `buf[:pivotViewSize]`. -/
def pivotView (seed : Root) (round : ℕ) : Bytes :=
  bigEndian 32 seed.toNat ++ [UInt8.ofNat round]

/-- The whole buffer, with the position window. -/
def shuffleBuffer (seed : Root) (round window : ℕ) : Bytes :=
  pivotView seed round ++ (bigEndian 4 window).reverse

/-! ### `ComputeShuffledIndex` -/

/-- The rounds that the loop visits from a round on: up to `rounds` or down to 0. -/
def visitedRounds (shuffle : Bool) (rounds : BitVec 8) :
    (fuel : ℕ) → BitVec 8 → Option (List (BitVec 8))
  | 0, _ => none
  | fuel + 1, round =>
    if shuffle then
      if round + 1 = rounds then some [round]
      else (visitedRounds shuffle rounds fuel (round + 1)).map (round :: ·)
    else if round = 0 then some [round]
    else (visitedRounds shuffle rounds fuel (round - 1)).map (round :: ·)

def firstRound (shuffle : Bool) (rounds : BitVec 8) : BitVec 8 := if shuffle then 0 else rounds - 1

section

variable (hash : Bytes → Root) (roundCount : BitVec 64)

def swapIndex (seed : Root) (indexCount index : BitVec 64) (round : BitVec 8) : BitVec 64 :=
  let buf := bigEndian 32 seed.toNat ++ [UInt8.ofNat round.toNat]
  let hash8 := (bigEndian 32 (hash buf).toNat).take 8
  let pivot := toUint64LE hash8 % indexCount
  let flip := (pivot + indexCount - index) % indexCount
  let position := if index < flip then flip else index
  let source := hash (buf ++ (ofUint64LE (position >>> 8)).take 4)
  let byteV := hashByte source ((position &&& 0xff) >>> 3).toNat
  let bitV := (byteV >>> (position &&& 0x7).toNat) &&& 1
  if bitV = 1 then flip else index

def computeShuffledIndex (index indexCount : BitVec 64) (seed : Root) (shuffle : Bool) :
    Except BeaconErr (BitVec 64) :=
  if roundCount = 0 then .ok index
  else if indexCount ≤ index then .error (.inputIndexOutOfBounds index.toNat indexCount.toNat)
  else if BitVec.ofNat 64 maxShuffleListSize < indexCount then
    .error (.listSizeOutOfBounds indexCount.toNat)
  else
    let rounds := roundCount.setWidth 8
    match visitedRounds shuffle rounds 256 (firstRound shuffle rounds) with
    | none => .error .outOfFuel
    | some visited => .ok (visited.foldl (swapIndex hash seed indexCount) index)

def shuffledIndex (index indexCount : BitVec 64) (seed : Root) : Except BeaconErr (BitVec 64) :=
  computeShuffledIndex hash roundCount index indexCount seed true

def unShuffledIndex (index indexCount : BitVec 64) (seed : Root) : Except BeaconErr (BitVec 64) :=
  computeShuffledIndex hash roundCount index indexCount seed false

end

theorem toNat_ofNat_of_le {n k : ℕ} (h : n ≤ k) (hk : k < 2 ^ 64) :
    (BitVec.ofNat 64 n).toNat = n := by
  rw [toNat_ofNat, Nat.mod_eq_of_lt (by omega)]

/-! ### The rounds of a shuffle -/

/-- How many rounds a counter of eight bits makes. -/
def roundsMade (rounds : BitVec 8) : ℕ := if rounds.toNat = 0 then 256 else rounds.toNat

variable (rounds : BitVec 8)

theorem roundsMade_pos : 0 < roundsMade rounds := by
  rw [roundsMade]
  split <;> omega

theorem roundsMade_le : roundsMade rounds ≤ 256 := by
  have := rounds.isLt
  rw [roundsMade]
  split <;> omega

def roundList (rounds : BitVec 8) : List (BitVec 8) :=
  (range (roundsMade rounds)).map (BitVec.ofNat 8)

/-- The rounds of a shuffle, given the number in the configuration. -/
def shuffleRounds (roundCount : BitVec 64) : List (BitVec 8) :=
  if roundCount = 0 then [] else roundList (roundCount.setWidth 8)

def roundOrder (roundCount : BitVec 64) (shuffle : Bool) : List (BitVec 8) :=
  if shuffle then shuffleRounds roundCount else (shuffleRounds roundCount).reverse

theorem roundOrder_reverse (roundCount : BitVec 64) (shuffle : Bool) :
    (roundOrder roundCount shuffle).reverse = roundOrder roundCount !shuffle := by
  cases shuffle with
  | true => rfl
  | false => exact reverse_reverse _

theorem ofNat_toNat_round (round : BitVec 8) : BitVec.ofNat 8 round.toNat = round := by
  rw [ofNat_toNat, setWidth_eq]

theorem visitedRounds_up {rounds round : BitVec 8} (hlt : round.toNat < roundsMade rounds)
    {fuel : ℕ} (hfuel : roundsMade rounds ≤ round.toNat + fuel) :
    visitedRounds true rounds fuel round = some ((range' round.toNat
      (roundsMade rounds - round.toNat)).map (BitVec.ofNat 8)) := by
  have hmax := roundsMade_le rounds
  have hone : (1 : BitVec 8).toNat = 1 := rfl
  induction fuel generalizing round with
  | zero => omega
  | succ fuel ih =>
    -- the counter meets the bound in the last round, also if it wraps around
    have hend : round + 1 = rounds ↔ round.toNat + 1 = roundsMade rounds := by
      have hrounds := rounds.isLt
      rw [← toNat_inj, toNat_add, hone]
      rw [roundsMade] at hlt ⊢
      split at hlt <;> rename_i hzero
      · rw [if_pos hzero]
        omega
      · rw [if_neg hzero]
        omega
    rw [visitedRounds, if_pos rfl]
    by_cases hlast : round.toNat + 1 = roundsMade rounds
    · rw [if_pos (hend.mpr hlast), show roundsMade rounds - round.toNat = 1 by omega,
        range'_one, map_singleton, ofNat_toNat_round]
    · have hnext : (round + 1).toNat = round.toNat + 1 := by
        rw [toNat_add, hone, Nat.mod_eq_of_lt (by omega)]
      rw [if_neg (mt hend.mp hlast), ih (by omega) (by omega), hnext, Option.map_some,
        show roundsMade rounds - round.toNat = roundsMade rounds - (round.toNat + 1) + 1 by omega,
        range'_succ, map_cons, ofNat_toNat_round]

theorem visitedRounds_down {round : BitVec 8} {fuel : ℕ} (hfuel : round.toNat < fuel) :
    visitedRounds false rounds fuel round =
      some ((range (round.toNat + 1)).map (BitVec.ofNat 8)).reverse := by
  induction fuel generalizing round with
  | zero => omega
  | succ fuel ih =>
    rw [visitedRounds, if_neg Bool.false_ne_true, range_succ, map_append,
      List.reverse_append, map_singleton, ofNat_toNat_round]
    by_cases hzero : round = 0
    · rw [if_pos hzero, hzero]
      rfl
    · have hpos : round.toNat ≠ 0 := fun heq => hzero (eq_of_toNat_eq heq)
      have hprev : (round - 1).toNat = round.toNat - 1 :=
        toNat_sub_of_le (Nat.one_le_iff_ne_zero.mpr hpos)
      rw [if_neg hzero, ih (by omega), hprev, Nat.sub_add_cancel (by omega)]
      rfl

theorem visitedRounds_eq (shuffle : Bool) (rounds : BitVec 8) :
    visitedRounds shuffle rounds 256 (firstRound shuffle rounds) =
      some (if shuffle then roundList rounds else (roundList rounds).reverse) := by
  have hpos := roundsMade_pos rounds
  cases shuffle with
  | true =>
    have hle := roundsMade_le rounds
    rw [firstRound, if_pos rfl, if_pos rfl, @visitedRounds_up rounds 0 hpos 256 (by omega),
      roundList, range_eq_range']
    rfl
  | false =>
    have hfirst : (rounds - 1).toNat + 1 = roundsMade rounds := by
      rw [roundsMade]
      split
      · next hzero =>
        rw [eq_of_toNat_eq (y := 0) hzero]
        rfl
      · next hne =>
        rw [toNat_sub_of_le (Nat.one_le_iff_ne_zero.mpr hne)]
        exact Nat.sub_add_cancel (Nat.one_le_iff_ne_zero.mpr hne)
    rw [firstRound, if_neg Bool.false_ne_true, if_neg Bool.false_ne_true,
      visitedRounds_down rounds (by have := (rounds - 1).isLt; omega), hfirst, roundList]

/-! ### A round on natural numbers -/

section Round

variable {hash : Bytes → Root} {seed : Root} {n i : ℕ} {indexCount index : BitVec 64}

def shufflePivot (hash : Bytes → Root) (seed : Root) (round listSize : ℕ) : ℕ :=
  let ph := hash (pivotView seed round)
  (toUint64LE ((bigEndian 32 ph.toNat).take 8)).toNat % listSize

def shuffledIndexRound (hash : Bytes → Root) (seed : Root) (indexCount index round : ℕ) : ℕ :=
  let pivot := shufflePivot hash seed round indexCount
  let flip := (pivot + indexCount - index) % indexCount
  let position := if index < flip then flip else index
  let source := hash (shuffleBuffer seed round (position / 256))
  let byteV := hashByte source (position % 256 / 8)
  if (byteV >>> (position % 8)) &&& 1 = 1 then flip else index

def bitAt (hash : Bytes → Root) (seed : Root) (round position : ℕ) : Bool :=
  let byteV := hashByte (hash (shuffleBuffer seed round (position / 256))) (position % 256 / 8)
  decide ((byteV >>> (position % 8)) &&& 1 = 1)

theorem shuffledIndexRound_eq (n i round : ℕ) :
    shuffledIndexRound hash seed n i round =
      turn n (shufflePivot hash seed round n) (bitAt hash seed round) i := by
  have hposition : (if i < mirror n (shufflePivot hash seed round n) i then
      mirror n (shufflePivot hash seed round n) i else i) =
      max i (mirror n (shufflePivot hash seed round n) i) := by
    rw [Nat.max_def]
    split <;> split <;> omega
  rw [shuffledIndexRound, turn, ← hposition, bitAt]
  simp only [decide_eq_true_eq]
  rfl

theorem shuffledIndexRound_lt (hi : i < n) (round : ℕ) :
    shuffledIndexRound hash seed n i round < n := by
  rw [shuffledIndexRound_eq]
  exact turn_lt hi

theorem shuffledIndexRound_involutive (hi : i < n) (round : ℕ) :
    shuffledIndexRound hash seed n (shuffledIndexRound hash seed n i round) round = i := by
  rw [shuffledIndexRound_eq, shuffledIndexRound_eq]
  exact turn_turn (Nat.mod_lt _ (by omega)) hi

def runRounds (hash : Bytes → Root) (seed : Root) (n : ℕ) (rounds : List (BitVec 8)) (i : ℕ) : ℕ :=
  rounds.foldl (fun i round => shuffledIndexRound hash seed n i round.toNat) i

theorem runRounds_lt (hi : i < n) (rounds : List (BitVec 8)) : runRounds hash seed n rounds i < n :=
  foldl_lt (fun round _ hi => shuffledIndexRound_lt hi round.toNat) rounds hi

theorem runRounds_reverse (hi : i < n) (rounds : List (BitVec 8)) :
    runRounds hash seed n rounds.reverse (runRounds hash seed n rounds i) = i :=
  foldl_reverse_foldl (fun round _ hi => shuffledIndexRound_lt hi round.toNat)
    (fun round _ hi => shuffledIndexRound_involutive hi round.toNat) rounds hi

/-- The rounds of a shuffle as a permutation of the indices. -/
def roundPerm (hash : Bytes → Root) (seed : Root) (n : ℕ) (rounds : List (BitVec 8)) :
    Equiv.Perm (Fin n) where
  toFun i := ⟨runRounds hash seed n rounds i, runRounds_lt i.isLt rounds⟩
  invFun i := ⟨runRounds hash seed n rounds.reverse i, runRounds_lt i.isLt rounds.reverse⟩
  left_inv i := Fin.ext (runRounds_reverse i.isLt rounds)
  right_inv i := Fin.ext (by
    have hback := @runRounds_reverse hash seed n i i.isLt rounds.reverse
    rwa [reverse_reverse] at hback)

/-! ### The arithmetic of the source -/

theorem take_ofUint64LE (x : BitVec 64) :
    (ofUint64LE x).take 4 = (bigEndian 4 x.toNat).reverse := rfl

theorem toNat_swapIndex (hcount : indexCount.toNat ≤ 2 ^ 40)
    (hindex : index.toNat < indexCount.toNat) (round : BitVec 8) :
    (swapIndex hash seed indexCount index round).toNat =
      shuffledIndexRound hash seed indexCount.toNat index.toNat round.toNat := by
  rw [swapIndex, shuffledIndexRound]
  set hash8 := (bigEndian 32 (hash (bigEndian 32 seed.toNat ++
    [UInt8.ofNat round.toNat])).toNat).take 8
  set pivot := toUint64LE hash8 % indexCount with hpivot
  have hpivotNat : pivot.toNat = shufflePivot hash seed round.toNat indexCount.toNat := toNat_umod
  have hpivotLt : pivot.toNat < indexCount.toNat := by
    rw [hpivotNat]
    exact Nat.mod_lt _ (by omega)
  set flip := (pivot + indexCount - index) % indexCount with hflip
  -- no sum of positions overflows
  have hflipNat : flip.toNat = (shufflePivot hash seed round.toNat indexCount.toNat +
      indexCount.toNat - index.toNat) % indexCount.toNat := by
    have hsum : (pivot + indexCount).toNat = pivot.toNat + indexCount.toNat := by
      rw [toNat_add, Nat.mod_eq_of_lt (by omega)]
    rw [hflip, toNat_umod, toNat_sub_of_le (by rw [le_def, hsum]; omega), hsum, hpivotNat]
  rw [← hflipNat]
  set position := if index < flip then flip else index with hposition
  have hpositionNat : position.toNat = if index.toNat < flip.toNat then flip.toNat
      else index.toNat := by
    rw [hposition]
    split
    · next h => rw [if_pos (lt_def.mp h)]
    · next h => rw [if_neg (mt lt_def.mpr h)]
  rw [← hpositionNat]
  have hwindow : (position >>> 8).toNat = position.toNat / 256 := by
    rw [toNat_ushiftRight, Nat.shiftRight_eq_div_pow]
  have hlow : ((position &&& 0xff) >>> 3).toNat = position.toNat % 256 / 8 := by
    rw [toNat_ushiftRight, Nat.shiftRight_eq_div_pow, toNat_and,
      show (0xff : BitVec 64).toNat = 2 ^ 8 - 1 from rfl, Nat.and_two_pow_sub_one_eq_mod]
  have hbit : (position &&& 0x7).toNat = position.toNat % 8 := by
    rw [toNat_and, show (0x7 : BitVec 64).toNat = 2 ^ 3 - 1 from rfl,
      Nat.and_two_pow_sub_one_eq_mod]
  rw [take_ofUint64LE, hwindow, hlow, hbit]
  change BitVec.toNat (if _ then _ else _) = _
  split
  · next h => exact (if_pos h).symm
  · next h => exact (if_neg h).symm

theorem foldl_swapIndex (hcount : indexCount.toNat ≤ 2 ^ 40)
    (hindex : index.toNat < indexCount.toNat) (rounds : List (BitVec 8)) :
    rounds.foldl (swapIndex hash seed indexCount) index =
      BitVec.ofNat 64 (runRounds hash seed indexCount.toNat rounds index.toNat) := by
  induction rounds generalizing index with
  | nil => rw [runRounds, foldl_nil, foldl_nil, ofNat_toNat, setWidth_eq]
  | cons round rounds ih =>
    have hround := @toNat_swapIndex hash seed indexCount index hcount hindex round
    have hlt : (swapIndex hash seed indexCount index round).toNat < indexCount.toNat := by
      rw [hround]
      exact shuffledIndexRound_lt hindex round.toNat
    rw [foldl_cons, ih hlt, hround, runRounds, runRounds, foldl_cons]

/-- What `ComputeShuffledIndex` returns for an index in range. -/
theorem computeShuffledIndex_eq (roundCount : BitVec 64) (hcount : indexCount.toNat ≤ 2 ^ 40)
    (hindex : index.toNat < indexCount.toNat) (shuffle : Bool) :
    computeShuffledIndex hash roundCount index indexCount seed shuffle =
      .ok (BitVec.ofNat 64 (runRounds hash seed indexCount.toNat (roundOrder roundCount shuffle)
        index.toNat)) := by
  rw [computeShuffledIndex, roundOrder, shuffleRounds]
  split
  · rw [reverse_nil, ite_self, runRounds, foldl_nil, ofNat_toNat, setWidth_eq]
  · have hin : ¬ indexCount ≤ index := BitVec.not_le.mpr hindex
    have hsize : ¬ BitVec.ofNat 64 maxShuffleListSize < indexCount := by
      rw [lt_def]
      exact Nat.not_lt.mpr hcount
    rw [if_neg hin, if_neg hsize]
    dsimp only
    rw [visitedRounds_eq]
    exact congrArg ok (foldl_swapIndex hcount hindex _)

end Round

/-- Shuffling maps the indices one-to-one onto themselves, and unshuffling is its inverse,
for every number of rounds. -/
theorem shuffledIndex_bijective (hash : Bytes → Root) (roundCount indexCount : BitVec 64)
    (hcount : indexCount.toNat ≤ 2 ^ 40) (seed : Root) :
    ∃ p : Equiv.Perm (Fin indexCount.toNat), ∀ i : Fin indexCount.toNat,
      shuffledIndex hash roundCount (BitVec.ofNat 64 i) indexCount seed =
        .ok (BitVec.ofNat 64 (p i)) ∧
      unShuffledIndex hash roundCount (BitVec.ofNat 64 (p i)) indexCount seed =
        .ok (BitVec.ofNat 64 i) := by
  have htoNat : ∀ i : Fin indexCount.toNat, (BitVec.ofNat 64 i).toNat = i := fun i =>
    toNat_ofNat_of_le i.isLt.le indexCount.isLt
  refine ⟨roundPerm hash seed indexCount.toNat (roundOrder roundCount true),
    fun i => ⟨?_, ?_⟩⟩
  · rw [shuffledIndex, computeShuffledIndex_eq roundCount hcount (by rw [htoNat]; exact i.isLt),
      htoNat]
    rfl
  · rw [unShuffledIndex, computeShuffledIndex_eq roundCount hcount
      (by rw [htoNat]; exact Fin.isLt _), htoNat]
    exact congrArg (fun k => ok (BitVec.ofNat 64 k)) (runRounds_reverse i.isLt _)

theorem index_of_five_unshuffled :
    ∃ k, shuffledIndex (fun _ => 0) 90 3 5 0 = .ok k ∧
      unShuffledIndex (fun _ => 0) 90 k 5 0 = .ok 3 := by
  obtain ⟨p, hp⟩ := shuffledIndex_bijective (fun _ => 0) 90 5 (by decide) 0
  exact ⟨_, hp ⟨3, by decide⟩⟩

end Vanguard.Beacon.Shuffle
