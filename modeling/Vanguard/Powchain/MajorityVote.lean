import Vanguard.Beacon.Types
import Vanguard.Powchain.BlockSearch

/-!
The eth1 data a proposer votes for, and the majority rule that is documented for it.
-/

namespace Vanguard.Powchain

open Beacon (Eth1Data)

def eth1FollowDistance : BitVec 64 := 2048

/-- `helpers.VotingPeriodStartTime`: 64 epochs of 32 slots of 12 seconds -/
def votingPeriodStartTime (genesis : BitVec 64) (slot : Slot) : BitVec 64 :=
  genesis + (slot - slot % (32 * 64)) * 12

/-- What `eth1DataMajorityVote` asks the node for. -/
structure Eth1Node where
  chain : Eth1Chain
  mockEth1Votes : Bool
  isConnectedToETH1 : Bool
  eth2GenesisTime : BitVec 64
  /-- `DepositsNumberAndRootAtHeight` -/
  deposits : ℕ → BitVec 64 × Root
  headETH1Data : Eth1Data
  chainStartEth1Data : Eth1Data

/-- The data that is proposed, or how it is made up without the eth1 chain. -/
inductive Proposed
  | data (d : Eth1Data)
  | mock
  | random
  /-- `Slot.Mul` overflows -/
  | panic
  deriving DecidableEq, Repr

namespace Eth1Node

variable (node : Eth1Node) (slot : Slot)

def latestValidTime : BitVec 64 :=
  votingPeriodStartTime node.eth2GenesisTime slot - secondsPerETH1Block * eth1FollowDistance

def earliestValidTime : BitVec 64 :=
  votingPeriodStartTime node.eth2GenesisTime slot - 2 * secondsPerETH1Block * eth1FollowDistance

/-- The eth1 data of a block. -/
def dataAt (n : ℕ) : Eth1Data := ⟨(node.deposits n).2, (node.deposits n).1, node.chain.hash n⟩

/-- `eth1DataMajorityVote`; the votes of the state are not read, and the number of the earliest
block is not used. -/
def eth1DataMajorityVote : Proposed :=
  if node.mockEth1Votes then .mock
  else if ¬ node.isConnectedToETH1 then .random
  else if 2 ^ 64 ≤ (slot - slot % (32 * 64)).toNat * 12 then .panic
  else
    match node.chain.blockByTimestamp (node.earliestValidTime slot),
        node.chain.blockByTimestamp (node.latestValidTime slot) with
    | .ok _, .ok last =>
      if last.time < node.earliestValidTime slot then .data node.headETH1Data
      else if (node.deposits last.number).1 = 0 then .data node.chainStartEth1Data
      else if node.headETH1Data.depositCount ≤ (node.deposits last.number).1 then
        match node.chain.retrieveHeaderInfo last.number with
        | .ok info => .data { node.dataAt last.number with blockHash := info.hash }
        | .error _ => .random
      else .data node.headETH1Data
    | _, _ => .random

end Eth1Node

/-! ### The rule -/

section

variable (node : Eth1Node) (slot : Slot) (known : Root → Option ℕ) (votes : List Eth1Data)
  (last : ℕ)

/-- The votes on known blocks from the earliest valid time up to the last valid block that do not
undo deposit progress. -/
def validVotes : List Eth1Data :=
  votes.filter fun v => decide (node.headETH1Data.depositCount ≤ v.depositCount) &&
    (known v.blockHash).any fun h =>
      decide (node.earliestValidTime slot ≤ node.chain.time h ∧ h ≤ last)

/-- A vote with the highest count among valid votes, the highest block if there are several. -/
def IsMajority (valid : List Eth1Data) (v : Eth1Data) : Prop :=
  v ∈ valid ∧ ∀ w ∈ valid, valid.count w < valid.count v ∨
    valid.count w = valid.count v ∧ known w.blockHash ≤ known v.blockHash

/-- The data of the last valid block, unless it undoes deposit progress. -/
def lastValidData : Eth1Data :=
  if node.headETH1Data.depositCount ≤ (node.deposits last).1 then node.dataAt last
  else node.headETH1Data

/-- The documented rule, for the last block that is not after the latest valid time. -/
def MajorityRule (d : Eth1Data) : Prop :=
  if node.chain.time last < node.earliestValidTime slot then d = node.headETH1Data
  else if validVotes node slot known votes last = [] then d = lastValidData node last
  else IsMajority known (validVotes node slot known votes last) d

end

/-- The vote follows the rule if and only if the last valid block is too early, or there is no valid
vote, or the votes are won by the data of the last valid block anyway. While there are no deposits
the data of the chain start stands in for that of the last valid block. -/
theorem eth1DataMajorityVote_rule_iff (node : Eth1Node) (slot : Slot) (known : Root → Option ℕ)
    (votes : List Eth1Data) {last : ℕ} (hmock : node.mockEth1Votes = false)
    (hconnected : node.isConnectedToETH1 = true) (hslot : slot.toNat * 12 < 2 ^ 64)
    (hearliest : node.chain.time 0 ≤ node.earliestValidTime slot ∧
      node.earliestValidTime slot ≤ node.chain.time node.chain.blockHeight)
    (hlatest : node.chain.time 0 ≤ node.latestValidTime slot ∧
      node.latestValidTime slot ≤ node.chain.time node.chain.blockHeight)
    (hlast : LastUpTo node.chain (node.latestValidTime slot) last) :
    (∃ d, node.eth1DataMajorityVote slot = .data d ∧ MajorityRule node slot known votes last d) ↔
      node.chain.time last < node.earliestValidTime slot ∨
      (validVotes node slot known votes last = [] ∧
        ((node.deposits last).1 ≠ 0 ∨ node.chainStartEth1Data = lastValidData node last)) ∨
      IsMajority known (validVotes node slot known votes last)
        (if (node.deposits last).1 = 0 then node.chainStartEth1Data
          else lastValidData node last) := by
  obtain ⟨n, hn, hlast'⟩ := blockByTimestamp_ok hlatest.1 hlatest.2
  obtain ⟨m, hm, -⟩ := blockByTimestamp_ok hearliest.1 hearliest.2
  obtain rfl : n = last := le_antisymm (hlast.last n hlast'.le hlast'.time_le)
    (hlast'.last last hlast.le hlast.time_le)
  have hmul : ¬ 2 ^ 64 ≤ (slot - slot % (32 * 64)).toNat * 12 := by
    have hmod : slot % (32 * 64) ≤ slot := by
      rw [BitVec.le_def, BitVec.toNat_umod]
      exact Nat.mod_le _ _
    rw [BitVec.toNat_sub_of_le hmod]
    omega
  have hvote : node.eth1DataMajorityVote slot = .data
      (if node.chain.time n < node.earliestValidTime slot then node.headETH1Data
        else if (node.deposits n).1 = 0 then node.chainStartEth1Data
        else lastValidData node n) := by
    simp only [Eth1Node.eth1DataMajorityVote, hmock, hconnected, hmul, hn, hm, Eth1Chain.header,
      Eth1Chain.retrieveHeaderInfo_eq hlast.le, lastValidData, Eth1Node.dataAt]
    split_ifs <;> simp_all
  simp only [hvote, Proposed.data.injEq, exists_eq_left', MajorityRule]
  by_cases hearly : node.chain.time n < node.earliestValidTime slot
  · simp [hearly]
  by_cases hnone : validVotes node slot known votes n = []
  · simp only [hearly, hnone, IsMajority, List.not_mem_nil, false_and, or_false, false_or, true_and,
      if_false, if_true]
    by_cases hzero : (node.deposits n).1 = 0
    · simp only [hzero, if_true, ne_eq, not_true, false_or]
    · simp only [hzero, if_false, ne_eq, not_false_eq_true, true_or]
  · simp [hearly, hnone]

/-- A deposit in every block. -/
def sampleNode : Eth1Node where
  chain := sampleChain
  mockEth1Votes := false
  isConnectedToETH1 := true
  eth2GenesisTime := 60000
  deposits n := (BitVec.ofNat 64 n, 0)
  headETH1Data := default
  chainStartEth1Data := default

theorem lastUpTo_sampleNode : LastUpTo sampleNode.chain (sampleNode.latestValidTime 0) 3132 :=
  .of_lt (show 3132 ≤ 6000 by decide) (by decide) fun _ => by decide

/-- Two votes for the last valid block, and one for an earlier one. -/
theorem eth1DataMajorityVote_rule_iff_voted : ∃ d,
    sampleNode.eth1DataMajorityVote 0 = .data d ∧
      MajorityRule sampleNode 0 (fun h => some h.toNat)
        [⟨0, 3132, 3132⟩, ⟨0, 1000, 1000⟩, ⟨0, 3132, 3132⟩] 3132 d := by
  refine (eth1DataMajorityVote_rule_iff sampleNode 0 _ _ rfl rfl (by decide) (by decide) (by decide)
    lastUpTo_sampleNode).mpr (.inr (.inr ?_))
  have hvalid : validVotes sampleNode 0 (fun h => some h.toNat)
      [⟨0, 3132, 3132⟩, ⟨0, 1000, 1000⟩, ⟨0, 3132, 3132⟩] 3132 =
        [⟨0, 3132, 3132⟩, ⟨0, 1000, 1000⟩, ⟨0, 3132, 3132⟩] := by decide
  rw [hvalid, if_neg (by decide)]
  refine ⟨by decide, fun w hw => ?_⟩
  rcases hw with _ | ⟨_, _ | ⟨_, _ | ⟨_, ⟨⟩⟩⟩⟩
  · exact .inr ⟨by decide, Nat.le_refl 3132⟩
  · exact .inl (by decide)
  · exact .inr ⟨by decide, Nat.le_refl 3132⟩

/-- Two votes for one block, which the node ignores. -/
theorem votes_not_followed : ∃ d, sampleNode.eth1DataMajorityVote 0 = .data d ∧
    ¬ MajorityRule sampleNode 0 (fun _ => some 1000) [⟨0, 1000, 1000⟩, ⟨0, 1000, 1000⟩]
      3132 d := by
  have hvalid : validVotes sampleNode 0 (fun _ => some 1000)
      [⟨0, 1000, 1000⟩, ⟨0, 1000, 1000⟩] 3132 = [⟨0, 1000, 1000⟩, ⟨0, 1000, 1000⟩] := by decide
  refine ⟨⟨0, 3132, 3132⟩, by decide +kernel, ?_⟩
  rw [MajorityRule, if_neg (by decide), hvalid, if_neg (by decide)]
  exact fun hmajority => absurd hmajority.1 (by decide)

end Vanguard.Powchain
