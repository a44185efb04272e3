import Vanguard.Basic

/-!
The search for an eth1 block by its time.

The search jumps by an estimated number of blocks and then walks block by block. Whatever the
spacing of the blocks is, the estimate and the cursor are the same block not above the head when the
walk starts, and the time of that block decides in which direction it goes.
-/

namespace Vanguard.Powchain

open BitVec Nat

/-- An eth1 chain up to its head, with times that increase. The code takes numbers through
`int64`. -/
structure Eth1Chain where
  /-- `BlockHeight` of the latest eth1 data -/
  blockHeight : ℕ
  time : ℕ → BitVec 64
  hash : ℕ → Root
  blockHeight_lt : blockHeight < 2 ^ 63
  time_lt : ∀ {i j}, i < j → j ≤ blockHeight → time i < time j

structure HeaderInfo where
  number : ℕ
  hash : Root
  time : BitVec 64
  deriving DecidableEq, Repr

inductive ReadErr
  | laterThanHead
  | noHeader
  deriving DecidableEq, Repr

def secondsPerETH1Block : BitVec 64 := 14

def searchThreshold : BitVec 64 := 5

def repeatedSearches : ℕ := 10

def maxTimeBuffer : BitVec 64 := searchThreshold * secondsPerETH1Block

namespace Eth1Chain

variable (c : Eth1Chain)

def header (n : ℕ) : HeaderInfo := ⟨n, c.hash n, c.time n⟩

/-- `retrieveHeaderInfo`, from the cache or the node; a number above the head ends the search. -/
def retrieveHeaderInfo (n : ℕ) : Except ReadErr HeaderInfo :=
  if n ≤ c.blockHeight then .ok (c.header n) else .error .noHeader

end Eth1Chain

structure Cursor where
  estimatedBlk : ℕ
  cursorNum : ℕ
  cursorTime : BitVec 64

/-- The block to look at next, if the search goes on. -/
def nextEstimate (latestBlkHeight : ℕ) (time : BitVec 64) (s : Cursor) : Option ℕ :=
  if s.cursorTime + maxTimeBuffer < time then
    let numOfBlocks := (time - s.cursorTime) / secondsPerETH1Block
    let estimated := (s.cursorNum + numOfBlocks.toNat) % 2 ^ 64
    if latestBlkHeight < estimated then none else some estimated
  else if time + maxTimeBuffer < s.cursorTime then
    let numOfBlocks := (s.cursorTime - time) / secondsPerETH1Block
    if s.cursorNum ≤ numOfBlocks.toNat then none else some (s.cursorNum - numOfBlocks.toNat)
  else none

namespace Eth1Chain

variable (c : Eth1Chain) (time : BitVec 64)

/-- The first loop of `BlockByTimestamp`. -/
def searchLoop : ℕ → Cursor → Except ReadErr Cursor
  | 0, s => .ok s
  | n + 1, s =>
    match nextEstimate c.blockHeight time s with
    | none => .ok s
    | some estimatedBlk => do
      let info ← c.retrieveHeaderInfo estimatedBlk
      searchLoop n ⟨estimatedBlk, info.number, info.time⟩

/-- `findLessTargetEth1Block`; there is no block below the first one. -/
def findLessTargetEth1Block : ℕ → Except ReadErr HeaderInfo
  | 0 => do
    let info ← c.retrieveHeaderInfo 0
    if info.time ≤ time then .ok info else .error .noHeader
  | bn + 1 => do
    let info ← c.retrieveHeaderInfo (bn + 1)
    if info.time ≤ time then .ok info else findLessTargetEth1Block bn

/-- `findMoreTargetEth1Block`, with the number of blocks that are left up to the head. -/
def findMoreTargetEth1Block : ℕ → ℕ → Except ReadErr HeaderInfo
  | 0, _ => .error .noHeader
  | left + 1, bn => do
    let info ← c.retrieveHeaderInfo bn
    if time < info.time then c.retrieveHeaderInfo (info.number - 1)
    else if info.time = time then .ok info
    else findMoreTargetEth1Block left (bn + 1)

def blockByTimestamp : Except ReadErr HeaderInfo :=
  if c.time c.blockHeight < time then .error .laterThanHead
  else do
    let s ← c.searchLoop time repeatedSearches
      ⟨c.blockHeight, c.blockHeight, c.time c.blockHeight⟩
    if s.cursorTime = time then c.retrieveHeaderInfo s.cursorNum
    else if time < s.cursorTime then c.findLessTargetEth1Block time s.estimatedBlk
    else c.findMoreTargetEth1Block time (c.blockHeight + 1 - s.estimatedBlk) s.estimatedBlk

end Eth1Chain

/-! ### The result of the search -/

section

variable {c : Eth1Chain} {time : BitVec 64} {n : ℕ} {s : Cursor}

/-- The last block whose time is at most the given one. -/
structure LastUpTo (c : Eth1Chain) (time : BitVec 64) (n : ℕ) : Prop where
  le : n ≤ c.blockHeight
  time_le : c.time n ≤ time
  last : ∀ m ≤ c.blockHeight, c.time m ≤ time → m ≤ n

section

variable (hn : n ≤ c.blockHeight)

include hn

theorem LastUpTo.of_lt (htime : c.time n ≤ time)
    (hnext : n < c.blockHeight → time < c.time (n + 1)) : LastUpTo c time n := by
  refine ⟨hn, htime, fun m hm hle => ?_⟩
  by_contra! hlt
  have habove := hnext (by omega)
  rcases Nat.eq_or_lt_of_le hlt with rfl | hlt
  · exact absurd habove (BitVec.not_lt.mpr hle)
  · exact absurd (BitVec.lt_trans habove (c.time_lt hlt hm)) (BitVec.not_lt.mpr hle)

theorem LastUpTo.of_eq (htime : c.time n = time) : LastUpTo c time n :=
  .of_lt hn (htime ▸ BitVec.le_refl _) fun hlt => htime ▸ c.time_lt (lt_succ_self n) hlt

theorem Eth1Chain.retrieveHeaderInfo_eq : c.retrieveHeaderInfo n = .ok (c.header n) := if_pos hn

end

theorem nextEstimate_le {latestBlkHeight estimated : ℕ} (hs : s.cursorNum ≤ latestBlkHeight)
    (h : nextEstimate latestBlkHeight time s = some estimated) : estimated ≤ latestBlkHeight := by
  simp only [nextEstimate] at h
  split_ifs at h
  · cases h
    omega
  · cases h
    omega

/-- The estimate is the cursor, a block of the chain with its time. -/
structure Cursor.Valid (c : Eth1Chain) (s : Cursor) : Prop where
  estimated : s.estimatedBlk = s.cursorNum
  le : s.cursorNum ≤ c.blockHeight
  time : s.cursorTime = c.time s.cursorNum

theorem searchLoop_ok (hs : s.Valid c) (rounds : ℕ) :
    ∃ s', c.searchLoop time rounds s = .ok s' ∧ s'.Valid c := by
  induction rounds generalizing s with
  | zero => exact ⟨s, rfl, hs⟩
  | succ rounds ih =>
    rw [Eth1Chain.searchLoop]
    split
    next => exact ⟨s, rfl, hs⟩
    next estimated hestimated =>
      have hle := nextEstimate_le hs.le hestimated
      rw [Eth1Chain.retrieveHeaderInfo_eq hle]
      exact ih ⟨rfl, hle, rfl⟩

theorem findLessTargetEth1Block_ok (hn : n ≤ c.blockHeight) (hfirst : c.time 0 ≤ time)
    (hnext : n < c.blockHeight → time < c.time (n + 1)) :
    ∃ m, c.findLessTargetEth1Block time n = .ok (c.header m) ∧ LastUpTo c time m := by
  induction n with
  | zero =>
    refine ⟨0, ?_, .of_lt hn hfirst hnext⟩
    rw [Eth1Chain.findLessTargetEth1Block, Eth1Chain.retrieveHeaderInfo_eq hn]
    exact if_pos hfirst
  | succ n ih =>
    rw [Eth1Chain.findLessTargetEth1Block, Eth1Chain.retrieveHeaderInfo_eq hn]
    by_cases hle : c.time (n + 1) ≤ time
    · exact ⟨n + 1, if_pos hle, .of_lt hn hle hnext⟩
    · obtain ⟨m, hm, hlast⟩ := ih (by omega) fun _ => BitVec.not_le.mp hle
      exact ⟨m, (if_neg hle).trans hm, hlast⟩

theorem findMoreTargetEth1Block_ok (hhead : time ≤ c.time c.blockHeight) {left : ℕ}
    (hleft : n + left = c.blockHeight + 1) (hn : n ≤ c.blockHeight)
    (hbelow : c.time (n - 1) ≤ time) (hpos : n = 0 → c.time 0 ≤ time) :
    ∃ m, c.findMoreTargetEth1Block time left n = .ok (c.header m) ∧ LastUpTo c time m := by
  induction left generalizing n with
  | zero => omega
  | succ left ih =>
    rw [Eth1Chain.findMoreTargetEth1Block, Eth1Chain.retrieveHeaderInfo_eq hn]
    by_cases habove : time < c.time n
    · have hn0 : n ≠ 0 := fun h => absurd (hpos h) (BitVec.not_le.mpr (h ▸ habove))
      refine ⟨n - 1, (if_pos habove).trans ?_, .of_lt (by omega) hbelow fun _ => ?_⟩
      · exact Eth1Chain.retrieveHeaderInfo_eq (show n - 1 ≤ _ by omega)
      · rwa [Nat.sub_add_cancel (Nat.pos_of_ne_zero hn0)]
    · by_cases heq : c.time n = time
      · exact ⟨n, (if_neg habove).trans (if_pos heq), .of_eq hn heq⟩
      · have hle := BitVec.not_lt.mp habove
        have hlt : n < c.blockHeight := by
          refine lt_of_le_of_ne hn fun h => heq (BitVec.le_antisymm hle ?_)
          rw [h]
          exact hhead
        obtain ⟨m, hm, hlast⟩ := @ih (n + 1) (by omega) hlt hle (by omega)
        exact ⟨m, (if_neg habove).trans ((if_neg heq).trans hm), hlast⟩

theorem blockByTimestamp_ok (hfirst : c.time 0 ≤ time) (hhead : time ≤ c.time c.blockHeight) :
    ∃ n, c.blockByTimestamp time = .ok (c.header n) ∧ LastUpTo c time n := by
  have hstart : Cursor.Valid c ⟨c.blockHeight, c.blockHeight, c.time c.blockHeight⟩ :=
    ⟨rfl, le_rfl, rfl⟩
  obtain ⟨s, hs, hestimated, hle, htime⟩ := @searchLoop_ok c time _ hstart repeatedSearches
  rw [Eth1Chain.blockByTimestamp, if_neg (BitVec.not_lt.mpr hhead), hs]
  simp only [bind, Except.bind]
  rw [htime, hestimated]
  split
  next heq => exact ⟨_, Eth1Chain.retrieveHeaderInfo_eq hle, .of_eq hle heq⟩
  next hne =>
    split
    next hless =>
      refine findLessTargetEth1Block_ok hle hfirst fun hlt => ?_
      exact BitVec.lt_trans hless (c.time_lt (lt_succ_self _) hlt)
    next hmore =>
      have hbelow := BitVec.not_lt.mp hmore
      refine findMoreTargetEth1Block_ok hhead (by omega) hle ?_ fun _ => hfirst
      rcases Nat.eq_zero_or_pos s.cursorNum with hzero | hpos
      · rw [hzero]
        exact hfirst
      · exact BitVec.le_of_lt (Nat.lt_of_lt_of_le (c.time_lt (sub_lt hpos Nat.one_pos) hle) hbelow)

end

/-- For every time between those of the first block and the head, `BlockByTimestamp` returns the
last block up to that time, without asking for a header above the head. -/
theorem blockByTimestamp_returns_last (c : Eth1Chain) (time : BitVec 64) (hfirst : c.time 0 ≤ time)
    (hhead : time ≤ c.time c.blockHeight) :
    ∃ n, c.blockByTimestamp time = .ok (c.header n) ∧ LastUpTo c time n :=
  blockByTimestamp_ok hfirst hhead

/-- Six thousand blocks, one in ten seconds. -/
def sampleChain : Eth1Chain where
  blockHeight := 6000
  time n := BitVec.ofNat 64 (10 * n)
  hash n := BitVec.ofNat 256 n
  blockHeight_lt := by decide
  time_lt {i j} hij hj := by
    rw [lt_def, toNat_ofNat, toNat_ofNat, mod_eq_of_lt (by omega),
      mod_eq_of_lt (by omega)]
    omega

theorem blockByTimestamp_returns_last_sample :
    ∃ n, sampleChain.blockByTimestamp 500 = .ok (sampleChain.header n) ∧
      LastUpTo sampleChain 500 n :=
  blockByTimestamp_returns_last sampleChain 500 (by decide) (by decide)

end Vanguard.Powchain
