import Vanguard.Lib.Chunks
import Vanguard.Lib.Swaps
import Vanguard.Lib.Fallible
import Vanguard.Beacon.ShuffledIndex

/-!
Shuffling of lists.

A round of the list shuffle swaps every pair of positions once, from the outside in, and
reads a hash after 256 positions and a byte after eight. What it reads is what the shuffle
of single indices reads for the larger position of a pair, so the list is rearranged by
the involution of that round.
-/

namespace Vanguard.Beacon.Shuffle

open SwapOrNot Fallible List Except

structure Shuffling where
  input : List ValidatorIndex
  byteV : BitVec 8
  source : Root
  deriving DecidableEq, Repr

section

variable (hash : Bytes → Root) (roundCount : BitVec 64)

/-- The hash for position `j`: a new one after 256 positions. -/
def sourceAt (seed : Root) (round j : ℕ) (st : Shuffling) : Root :=
  if j % 256 = 255 then hash (shuffleBuffer seed round (j / 256)) else st.source

/-- The byte for position `j`: a new one after eight positions. -/
def byteAt (source : Root) (j : ℕ) (st : Shuffling) : BitVec 8 :=
  if j % 8 = 7 then hashByte source (j % 256 / 8) else st.byteV

def swapOrNot (seed : Root) (round i j : ℕ) (st : Shuffling) : Except BeaconErr Shuffling :=
  let source := sourceAt hash seed round j st
  let byteV := byteAt source j st
  if (byteV >>> (j % 8)) &&& 1 = 1 then
    match Swaps.swap st.input i j with
    | some input => .ok ⟨input, byteV, source⟩
    | none => .error .indexPanic
  else .ok ⟨st.input, byteV, source⟩

/-- The loop from two positions towards the middle, with `i` below `mirror`. -/
def swapLoop (seed : Root) (round start last mirror : ℕ) (input : List ValidatorIndex) :
    Except BeaconErr Shuffling :=
  let source := hash (shuffleBuffer seed round (last / 256))
  (range (mirror - start)).foldlM
    (fun st k => swapOrNot hash seed round (start + k) (last - k) st)
    ⟨input, hashByte source (last % 256 / 8), source⟩

/-- A round: the part up to the pivot, then the part after it. -/
def shuffleRound (seed : Root) (input : List ValidatorIndex) (round : ℕ) :
    Except BeaconErr (List ValidatorIndex) := do
  let listSize := input.length
  let pivot := shufflePivot hash seed round listSize
  let st ← swapLoop hash seed round 0 pivot ((pivot + 1) / 2) input
  let st ← swapLoop hash seed round (pivot + 1) (listSize - 1) ((pivot + listSize + 1) / 2) st.input
  return st.input

def innerShuffleList (input : List ValidatorIndex) (seed : Root) (shuffle : Bool) :
    Except BeaconErr (List ValidatorIndex) :=
  if input.length ≤ 1 then .ok input
  else if maxShuffleListSize < input.length then .error (.listSizeOutOfBounds input.length)
  else
    let rounds := roundCount.setWidth 8
    if rounds = 0 then .ok input
    else
      match visitedRounds shuffle rounds 256 (firstRound shuffle rounds) with
      | none => .error .outOfFuel
      | some visited => visited.foldlM (fun input r => shuffleRound hash seed input r.toNat) input

def shuffleList (input : List ValidatorIndex) (seed : Root) :
    Except BeaconErr (List ValidatorIndex) := innerShuffleList hash roundCount input seed true

def unshuffleList (input : List ValidatorIndex) (seed : Root) :
    Except BeaconErr (List ValidatorIndex) := innerShuffleList hash roundCount input seed false

def splitOffset (listSize chunks index : BitVec 64) : BitVec 64 := listSize * index / chunks

/-- `l[start:last]` -/
def subslice (l : List ValidatorIndex) (start last : BitVec 64) :
    Except BeaconErr (List ValidatorIndex) :=
  if last < start ∨ l.length < last.toNat then .error .indexPanic
  else .ok (Slices.slice l start.toNat (last.toNat - start.toNat))

def computeCommittee (indices : List ValidatorIndex) (seed : Root) (index count : BitVec 64) :
    Except BeaconErr (List ValidatorIndex) :=
  let validatorCount := BitVec.ofNat 64 indices.length
  let start := splitOffset validatorCount count index
  let last := splitOffset validatorCount count (index + 1)
  if validatorCount < start ∨ validatorCount < last then .error .committeeOutOfRange
  else do
    let shuffledList ← unshuffleList hash roundCount indices seed
    subslice shuffledList start last

/-- The committee of the specification: the shuffled index of every position is computed
on its own. -/
def specCommittee (indices : List ValidatorIndex) (seed : Root) (index count : BitVec 64) :
    Except BeaconErr (List ValidatorIndex) :=
  let validatorCount := BitVec.ofNat 64 indices.length
  let start := (splitOffset validatorCount count index).toNat
  let last := (splitOffset validatorCount count (index + 1)).toNat
  (range' start (last - start)).mapM fun i => do
    let k ← shuffledIndex hash roundCount (BitVec.ofNat 64 i) validatorCount seed
    atIndex indices k

end

/-! ### A loop of a round -/

section Loop

variable {hash : Bytes → Root} {seed : Root} {round : ℕ} {st : Shuffling} {j : ℕ}

/-- The hash and the byte that were read last are those of a position. -/
structure Fresh (hash : Bytes → Root) (seed : Root) (round j : ℕ) (st : Shuffling) : Prop where
  source : st.source = hash (shuffleBuffer seed round (j / 256))
  byteV : st.byteV = hashByte (hash (shuffleBuffer seed round (j / 256))) (j % 256 / 8)

/-- The hash and the byte that are read next are those of a position. -/
structure Reads (hash : Bytes → Root) (seed : Root) (round j : ℕ) (st : Shuffling) : Prop where
  source : sourceAt hash seed round j st = hash (shuffleBuffer seed round (j / 256))
  byteV : byteAt (hash (shuffleBuffer seed round (j / 256))) j st =
    hashByte (hash (shuffleBuffer seed round (j / 256))) (j % 256 / 8)

theorem Fresh.reads (h : Fresh hash seed round j st) : Reads hash seed round j st := by
  refine ⟨?_, ?_⟩
  · rw [sourceAt]
    split
    · rfl
    · exact h.source
  · rw [byteAt]
    split
    · rfl
    · exact h.byteV

theorem Fresh.reads_pred (h : Fresh hash seed round (j + 1) st) : Reads hash seed round j st := by
  refine ⟨?_, ?_⟩
  · rw [sourceAt]
    split
    · rfl
    · next hne => rw [h.source, show (j + 1) / 256 = j / 256 by omega]
  · rw [byteAt]
    split
    · rfl
    · next hne =>
      rw [h.byteV, show (j + 1) / 256 = j / 256 by omega,
        show (j + 1) % 256 / 8 = j % 256 / 8 by omega]

theorem swapOrNot_spec {i : ℕ} (h : Reads hash seed round j st)
    (hi : i < st.input.length) (hj : j < st.input.length) :
    ∃ st', swapOrNot hash seed round i j st = .ok st' ∧ Fresh hash seed round j st' ∧
      st'.input.length = st.input.length ∧ ∀ x, st'.input[x]? =
        if bitAt hash seed round j = true then
          if x = i then st.input[j]? else if x = j then st.input[i]? else st.input[x]?
        else st.input[x]? := by
  have hfresh : ∀ input, Fresh hash seed round j
      ⟨input, byteAt (sourceAt hash seed round j st) j st, sourceAt hash seed round j st⟩ := by
    intro input
    refine ⟨h.source, ?_⟩
    dsimp only
    rw [h.source, h.byteV]
  rw [swapOrNot]
  have hbit : (byteAt (sourceAt hash seed round j st) j st >>> (j % 8)) &&& 1 = 1 ↔
      bitAt hash seed round j = true := by
    rw [h.source, h.byteV, bitAt, decide_eq_true_eq]
  by_cases hset : bitAt hash seed round j = true
  · obtain ⟨l, hl⟩ := Swaps.exists_swap hi hj
    rw [if_pos (hbit.mpr hset), hl]
    refine ⟨_, rfl, hfresh l, (Swaps.swap_perm hl).length_eq, fun x => ?_⟩
    rw [if_pos hset]
    exact Swaps.getElem?_swap hl x
  · rw [if_neg (mt hbit.mp hset)]
    refine ⟨_, rfl, hfresh st.input, rfl, fun x => ?_⟩
    rw [if_neg hset]

/-- Where a loop over pairs with the sum `c` takes a position. -/
def pairTurn (bit : ℕ → Bool) (c x : ℕ) : ℕ := if bit (max x (c - x)) then c - x else x

/-- The list after the first `k` pairs have been treated. -/
theorem swapPairs_spec {start last m : ℕ} {input : List ValidatorIndex}
    (hpair : ∀ k < m, start + k < last - k) (hlast : last < input.length) {st₀ : Shuffling}
    (h₀ : Reads hash seed round last st₀) (hinput : st₀.input = input) {k : ℕ} (hk : k ≤ m) :
    ∃ st, (range k).foldlM
        (fun st k => swapOrNot hash seed round (start + k) (last - k) st) st₀ = .ok st ∧
      Reads hash seed round (last - k) st ∧ st.input.length = input.length ∧
      ∀ x, st.input[x]? = if (start ≤ x ∧ x < start + k) ∨ (last < x + k ∧ x ≤ last) then
        input[pairTurn (bitAt hash seed round) (start + last) x]? else input[x]? := by
  induction k with
  | zero =>
    refine ⟨st₀, rfl, h₀, by rw [hinput], fun x => ?_⟩
    rw [if_neg (by omega), hinput]
  | succ k ih =>
    obtain ⟨st, hrun, hreads, hlen, hget⟩ := ih (by omega)
    have hlt := hpair k (by omega)
    obtain ⟨st', hswap, hfresh, hlen', hget'⟩ := swapOrNot_spec hreads
      (i := start + k) (by omega) (by omega)
    have hpred : last - k = last - (k + 1) + 1 := by omega
    refine ⟨st', ?_, (hpred ▸ hfresh).reads_pred, hlen'.trans hlen, fun x => ?_⟩
    · rw [range_succ, foldlM_append]
      refine bind_eq_ok.mpr ⟨st, hrun, ?_⟩
      rw [foldlM_cons]
      exact bind_eq_ok.mpr ⟨st', hswap, rfl⟩
    · -- the pair of this step was not touched before
      have hleft : st.input[start + k]? = input[start + k]? := by
        rw [hget, if_neg (by omega)]
      have hright : st.input[last - k]? = input[last - k]? := by
        rw [hget, if_neg (by omega)]
      have hturnLeft : pairTurn (bitAt hash seed round) (start + last) (start + k) =
          if bitAt hash seed round (last - k) = true then last - k else start + k := by
        rw [pairTurn, show start + last - (start + k) = last - k by omega,
          Nat.max_eq_right (by omega)]
      have hturnRight : pairTurn (bitAt hash seed round) (start + last) (last - k) =
          if bitAt hash seed round (last - k) = true then start + k else last - k := by
        rw [pairTurn, show start + last - (last - k) = start + k by omega,
          Nat.max_eq_left (by omega)]
      rw [hget', hleft, hright]
      by_cases hx : x = start + k
      · rw [if_pos (show (start ≤ x ∧ x < start + (k + 1)) ∨ (last < x + (k + 1) ∧ x ≤ last) by
          omega), hx, hturnLeft, if_pos rfl, hleft]
        split <;> rfl
      · by_cases hx' : x = last - k
        · rw [if_pos (show (start ≤ x ∧ x < start + (k + 1)) ∨
            (last < x + (k + 1) ∧ x ≤ last) by omega), if_neg hx, if_pos hx', hx', hturnRight,
            hright]
          split <;> rfl
        · rw [if_neg hx, if_neg hx', ite_self, hget]
          exact if_congr (by omega) rfl rfl

theorem swapLoop_spec {start last last' : ℕ} {input : List ValidatorIndex}
    (hpair : ∀ k < last' - start, start + k < last - k)
    (hcover : last ≤ start + 2 * (last' - start)) (hlast : last < input.length) :
    ∃ st, swapLoop hash seed round start last last' input = .ok st ∧
      st.input.length = input.length ∧ ∀ x, st.input[x]? = if start ≤ x ∧ x ≤ last then
        input[pairTurn (bitAt hash seed round) (start + last) x]? else input[x]? := by
  have hfresh : Fresh hash seed round last ⟨input,
      hashByte (hash (shuffleBuffer seed round (last / 256))) (last % 256 / 8),
      hash (shuffleBuffer seed round (last / 256))⟩ := ⟨rfl, rfl⟩
  obtain ⟨st, hrun, -, hlen, hget⟩ := swapPairs_spec hpair hlast hfresh.reads rfl (le_refl _)
  refine ⟨st, hrun, hlen, fun x => ?_⟩
  rw [hget]
  by_cases hin : start ≤ x ∧ x ≤ last
  · rw [if_pos hin]
    split
    · rfl
    · next hmiddle =>
      -- only a position in the middle is left, which is its own partner
      have hself : pairTurn (bitAt hash seed round) (start + last) x = x := by
        have hmid : start + last - x = x := by
          by_contra hne
          have := hpair (last' - start - 1)
          omega
        rw [pairTurn, hmid, ite_self]
      rw [hself]
  · rw [if_neg hin, if_neg]
    intro hcon
    refine hin ?_
    by_cases hpos : 0 < last' - start
    · have := hpair (last' - start - 1) (by omega)
      omega
    · omega

end Loop

/-! ### Rounds -/

section Rounds

variable {hash : Bytes → Root} {seed : Root} {input : List ValidatorIndex} {roundCount : BitVec 64}

theorem shuffleRound_gathers (hpos : 0 < input.length) (round : ℕ) :
    ∃ l, shuffleRound hash seed input round = .ok l ∧
      Gathers (fun i => shuffledIndexRound hash seed input.length i round) input l := by
  set n := input.length with hn
  set pivot := shufflePivot hash seed round n with hpivot
  have hlt : pivot < n := Nat.mod_lt _ hpos
  obtain ⟨st₁, hrun₁, hlen₁, hget₁⟩ := @swapLoop_spec hash seed round 0 pivot ((pivot + 1) / 2)
    input (fun k hk => by omega) (by omega) (by omega)
  obtain ⟨st₂, hrun₂, hlen₂, hget₂⟩ := @swapLoop_spec hash seed round (pivot + 1) (n - 1)
    ((pivot + n + 1) / 2) st₁.input (fun k hk => by omega) (by omega) (by omega)
  refine ⟨st₂.input, bind_eq_ok.mpr ⟨st₁, hrun₁, bind_eq_ok.mpr
    ⟨st₂, hrun₂, rfl⟩⟩, hlen₂.trans hlen₁, fun i hi => ?_⟩
  rw [shuffledIndexRound_eq, hget₂, turn, ← hpivot]
  rcases lt_or_ge pivot i with hafter | hbefore
  · have hsum : pivot + 1 + (n - 1) - i = pivot + n - i := by omega
    have hturn : pivot < pairTurn (bitAt hash seed round) (pivot + 1 + (n - 1)) i := by
      rw [pairTurn, hsum]
      split <;> omega
    rw [if_pos (by omega), hget₁, if_neg (by omega), mirror_of_lt hafter hi, pairTurn, hsum]
  · rw [if_neg (by omega), hget₁, if_pos (by omega), mirror_of_le hlt hbefore, pairTurn, zero_add]

theorem foldlM_shuffleRound (hpos : 0 < input.length) (rounds : List (BitVec 8)) :
    ∃ l, rounds.foldlM (fun input r => shuffleRound hash seed input r.toNat) input = .ok l ∧
      Gathers (runRounds hash seed input.length rounds.reverse) input l := by
  induction rounds generalizing input with
  | nil =>
    refine ⟨input, rfl, rfl, fun i _ => ?_⟩
    rw [reverse_nil, runRounds, foldl_nil]
  | cons r rounds ih =>
    obtain ⟨l₁, hrun₁, h₁⟩ := @shuffleRound_gathers hash seed input hpos r.toNat
    obtain ⟨l, hrun, h⟩ := @ih l₁ (by rw [h₁.length_eq]; exact hpos)
    rw [h₁.length_eq] at h
    have hall := h₁.trans h fun i hi => runRounds_lt hi rounds.reverse
    refine ⟨l, ?_, ?_⟩
    · rw [foldlM_cons]
      exact bind_eq_ok.mpr ⟨l₁, hrun₁, hrun⟩
    · -- the first round is the last one to be applied to a position
      have hcomp : runRounds hash seed input.length (r :: rounds).reverse = fun i =>
          shuffledIndexRound hash seed input.length
            (runRounds hash seed input.length rounds.reverse i) r.toNat := by
        funext i
        rw [runRounds, runRounds, reverse_cons, foldl_append, foldl_cons, foldl_nil]
      rw [hcomp]
      exact hall

theorem innerShuffleList_gathers {roundCount : BitVec 64} (hrounds : roundCount.toNat < 256)
    (hlen : input.length ≤ 2 ^ 40) (shuffle : Bool) :
    ∃ l, innerShuffleList hash roundCount input seed shuffle = .ok l ∧
      Gathers (runRounds hash seed input.length (roundOrder roundCount !shuffle)) input l := by
  rw [innerShuffleList]
  split
  · next hshort =>
    refine ⟨input, rfl, rfl, fun i hi => ?_⟩
    have hone := @runRounds_lt hash seed input.length i hi (roundOrder roundCount !shuffle)
    have hsame : runRounds hash seed input.length (roundOrder roundCount !shuffle) i = i := by
      omega
    rw [hsame]
  · next hlong =>
    have hsize : ¬ maxShuffleListSize < input.length := Nat.not_lt.mpr hlen
    have hwidth : (roundCount.setWidth 8).toNat = roundCount.toNat := by
      rw [BitVec.toNat_setWidth, Nat.mod_eq_of_lt hrounds]
    rw [if_neg hsize, ← roundOrder_reverse, roundOrder, shuffleRounds]
    dsimp only
    by_cases hzero : roundCount = 0
    · rw [if_pos (by rw [hzero]; rfl), if_pos hzero, reverse_nil, ite_self]
      exact foldlM_shuffleRound (by omega) []
    · have hwide : roundCount.setWidth 8 ≠ 0 := by
        intro hcon
        rw [hcon] at hwidth
        exact hzero (BitVec.eq_of_toNat_eq hwidth.symm)
      rw [if_neg hwide, if_neg hzero, visitedRounds_eq]
      exact foldlM_shuffleRound (by omega) _

/-- Shuffling a list in one direction and then in the other gives it back. -/
theorem innerShuffleList_undone (hrounds : roundCount.toNat < 256)
    (hlen : input.length ≤ 2 ^ 40) (shuffle : Bool) :
    (innerShuffleList hash roundCount input seed shuffle >>=
      (innerShuffleList hash roundCount · seed !shuffle)) = .ok input := by
  obtain ⟨l, hl, hg⟩ := @innerShuffleList_gathers hash seed input _ hrounds hlen shuffle
  obtain ⟨m, hm, hg'⟩ := @innerShuffleList_gathers hash seed l _ hrounds
    (hg.length_eq.trans_le hlen) !shuffle
  rw [hg.length_eq, Bool.not_not] at hg'
  have h := hg.trans hg' fun i hi => runRounds_lt hi _
  refine bind_eq_ok.mpr ⟨l, hl, hm.trans (congrArg ok (ext_getElem? fun i => ?_))⟩
  rcases Nat.lt_or_ge i input.length with hi | hi
  -- the rounds of the two directions are each other's reverse
  · rw [h.getElem?_eq i hi, ← roundOrder_reverse, runRounds_reverse hi]
  · rw [getElem?_eq_none hi, getElem?_eq_none (h.length_eq.trans_le hi)]

theorem three_indices_restored :
    (innerShuffleList (fun _ => 0) 90 [7, 8, 9] 0 true >>=
      (innerShuffleList (fun _ => 0) 90 · 0 false)) = .ok [7, 8, 9] :=
  innerShuffleList_undone (by decide) (by decide) true

theorem innerShuffleList_perm (hrounds : roundCount.toNat < 256) (hlen : input.length ≤ 2 ^ 40)
    (shuffle : Bool) :
    ∃ l, innerShuffleList hash roundCount input seed shuffle = .ok l ∧ l.Perm input := by
  obtain ⟨l, hl, hg⟩ := @innerShuffleList_gathers hash seed input _ hrounds hlen shuffle
  exact ⟨l, hl, hg.perm (roundPerm hash seed _ (roundOrder roundCount !shuffle)) fun _ => rfl⟩

/-! ### Committees -/

theorem getElem?_of_gathers (hlen : input.length ≤ 2 ^ 40) {u : List ValidatorIndex}
    (hu : Gathers (runRounds hash seed input.length (roundOrder roundCount true)) input u) {i : ℕ}
    (hi : i < input.length) :
    ∃ k < input.length, shuffledIndex hash roundCount (BitVec.ofNat 64 i)
        (BitVec.ofNat 64 input.length) seed = .ok (BitVec.ofNat 64 k) ∧ u[i]? = input[k]? ∧
      runRounds hash seed input.length (roundOrder roundCount false) k = i := by
  have hcount : (BitVec.ofNat 64 input.length).toNat = input.length :=
    toNat_ofNat_of_le hlen (by norm_num)
  have hindex : (BitVec.ofNat 64 i).toNat = i := toNat_ofNat_of_le (hi.le.trans hlen) (by norm_num)
  refine ⟨_, runRounds_lt hi (roundOrder roundCount true), ?_, hu.getElem?_eq i hi, ?_⟩
  · rw [shuffledIndex, computeShuffledIndex_eq roundCount (by omega) (by omega), hcount, hindex]
  · exact runRounds_reverse hi (roundOrder roundCount true)

theorem specCommittee_of_computeCommittee
    (hrounds : roundCount.toNat < 256) (hlen : input.length ≤ 2 ^ 40) {index count : BitVec 64}
    {committee : List ValidatorIndex}
    (h : computeCommittee hash roundCount input seed index count = .ok committee) :
    specCommittee hash roundCount input seed index count = .ok committee := by
  rw [computeCommittee] at h
  split at h
  · cases h
  · obtain ⟨u, hu, hslice⟩ := bind_eq_ok.mp h
    obtain ⟨u', hu', hgathers⟩ := @innerShuffleList_gathers hash seed input roundCount hrounds
      hlen false
    obtain rfl : u' = u := ok.inj (hu'.symm.trans hu)
    rw [subslice] at hslice
    split at hslice
    · cases hslice
    · next hbounds =>
      obtain rfl := ok.inj hslice
      rw [not_or, BitVec.lt_def, Nat.not_lt, Nat.not_lt, hgathers.length_eq] at hbounds
      rw [specCommittee]
      set start := (splitOffset (BitVec.ofNat 64 input.length) count index).toNat
      set last := (splitOffset (BitVec.ofNat 64 input.length) count (index + 1)).toNat
      rw [mapM_eq_ok (g := fun i => u'.getD i 0) fun i hi => ?_]
      · refine congrArg ok (ext_getElem? fun j => ?_)
        rw [Slices.getElem?_slice, getElem?_map]
        by_cases hj : j < last - start
        · have hin : start + j < u'.length := by
            rw [hgathers.length_eq]
            omega
          rw [getElem?_range' hj, if_pos hj, Option.map_some, Nat.one_mul,
            getD_eq_getElem?_getD, getElem?_eq_getElem hin, Option.getD_some]
        · rw [if_neg hj, getElem?_eq_none (by rw [length_range']; omega)]
          rfl
      · have hrange := mem_range'_1.mp hi
        have hilt : i < input.length := by omega
        obtain ⟨k, hk, hindex, hget, -⟩ := getElem?_of_gathers hlen hgathers hilt
        refine bind_eq_ok.mpr ⟨_, hindex, ?_⟩
        rw [atIndex, toNat_ofNat_of_le (hk.le.trans hlen) (by norm_num), ← hget,
          getD_eq_getElem?_getD, getElem?_eq_getElem (by rw [hgathers.length_eq]; omega)]
        rfl

end Rounds

/-- Unshuffling a list puts at every position the element of the shuffled index, shuffling it
is the inverse rearrangement, and committees are those of the specification. -/
theorem shuffleList_agrees (hash : Bytes → Root) (roundCount : BitVec 64)
    (hrounds : roundCount.toNat < 256) (list : List ValidatorIndex) (hlen : list.length ≤ 2 ^ 40)
    (seed : Root) :
    (∃ unshuffled shuffled, unshuffleList hash roundCount list seed = .ok unshuffled ∧
      shuffleList hash roundCount list seed = .ok shuffled ∧
      unshuffled.length = list.length ∧ shuffled.length = list.length ∧
      ∀ i < list.length, ∃ k < list.length,
        shuffledIndex hash roundCount (BitVec.ofNat 64 i) (BitVec.ofNat 64 list.length) seed =
          .ok (BitVec.ofNat 64 k) ∧
        unshuffled[i]? = list[k]? ∧ shuffled[k]? = list[i]?) ∧
    ∀ index count committee,
      computeCommittee hash roundCount list seed index count = .ok committee →
        specCommittee hash roundCount list seed index count = .ok committee := by
  refine ⟨?_, fun index count committee h => specCommittee_of_computeCommittee hrounds hlen h⟩
  obtain ⟨u, hu, hgathers⟩ := @innerShuffleList_gathers hash seed list roundCount hrounds hlen false
  obtain ⟨s, hs, hgathers'⟩ := @innerShuffleList_gathers hash seed list roundCount hrounds hlen true
  refine ⟨u, s, hu, hs, hgathers.length_eq, hgathers'.length_eq, fun i hi => ?_⟩
  obtain ⟨k, hk, hindex, hget, hback⟩ := getElem?_of_gathers hlen hgathers hi
  refine ⟨k, hk, hindex, hget, ?_⟩
  rw [hgathers'.getElem?_eq k hk]
  exact congrArg (list[·]?) hback

theorem three_indices_agree : ∃ unshuffled shuffled,
    unshuffleList (fun _ => 0) 90 [7, 8, 9] 0 = .ok unshuffled ∧
    shuffleList (fun _ => 0) 90 [7, 8, 9] 0 = .ok shuffled ∧
    unshuffled.length = 3 ∧ shuffled.length = 3 := by
  obtain ⟨⟨u, s, hu, hs, hlen, hlen', -⟩, -⟩ :=
    shuffleList_agrees (fun _ => 0) 90 (by decide) [7, 8, 9] (by decide) 0
  exact ⟨u, s, hu, hs, hlen, hlen'⟩

end Vanguard.Beacon.Shuffle
