import Mathlib

/-!
The batches of `processPastLogs`.

A batch of size `n` asks for the logs of `n + 1` blocks, and the next batch starts at the last one
of them. A refused batch is halved, down to a single block, from which the loop does not move on.
So the loop passes a block only if the logs of that block and the next one fit a request.
-/

namespace Vanguard.Powchain

open Nat Finset

/-- `depositlogRequestLimit`, with which the provider also refuses a request -/
def depositlogRequestLimit : ℕ := 10000

/-- The block where the next batch starts, and the size of a batch. -/
structure LogSync where
  currentBlockNum : ℕ
  batchSize : ℕ
  deriving DecidableEq, Repr

inductive LogSyncErr
  | batchSizeZero
  deriving DecidableEq, Repr

section

variable (limit latestFollowHeight : ℕ) (logs : ℕ → ℕ)

/-- Whether the provider refuses the blocks of a range. -/
def TooMuchData (start last : ℕ) : Prop :=
  depositlogRequestLimit < ∑ b ∈ Icc start last, logs b

instance (start last : ℕ) : Decidable (TooMuchData logs start last) :=
  inferInstanceAs (Decidable (_ < _))

/-- The last block of a batch. The code sets it once more, to the follow height, where it is the
follow height. -/
def batchEnd (s : LogSync) : ℕ :=
  min ((s.currentBlockNum + s.batchSize) % 2 ^ 64) latestFollowHeight

/-- The additive increase after a batch, with `Eth1HeaderReqLimit` as the limit. -/
def increased (batchSize : ℕ) : ℕ :=
  if batchSize < limit then min ((batchSize + limit / 10) % 2 ^ 64) limit else batchSize

/-- One round of the loop of `processPastLogs`. -/
def logRound (s : LogSync) : Except LogSyncErr LogSync :=
  if TooMuchData logs s.currentBlockNum (batchEnd latestFollowHeight s) then
    if s.batchSize = 0 then .error .batchSizeZero
    else .ok { s with batchSize := s.batchSize / 2 }
  else .ok ⟨batchEnd latestFollowHeight s, increased limit s.batchSize⟩

/-- The loop with at most the given number of queries. -/
def logRounds : ℕ → LogSync → Option (Except LogSyncErr LogSync)
  | fuel, s =>
    if latestFollowHeight ≤ s.currentBlockNum then some (.ok s)
    else
      match fuel with
      | 0 => none
      | fuel + 1 =>
        match logRound limit latestFollowHeight logs s with
        | .error e => some (.error e)
        | .ok s' => logRounds fuel s'

/-- The loop of `processPastLogs`, from the last requested block or the deployment block. -/
def processPastLogsEnds (lastRequestedBlock deploymentBlock : ℕ) : Prop :=
  ∃ queries, (logRounds limit latestFollowHeight logs queries
    ⟨max lastRequestedBlock deploymentBlock, limit⟩).isSome

end

section

variable {limit latestFollowHeight : ℕ} {logs : ℕ → ℕ} {s : LogSync}

theorem tooMuchData_of_pair {start last b : ℕ}
    (hb : depositlogRequestLimit < logs b + logs (b + 1)) (hstart : start ≤ b) (hlast : b < last) :
    TooMuchData logs start last := by
  refine hb.trans_le ?_
  rw [← sum_pair (lt_succ_self b).ne]
  refine sum_le_sum_of_subset fun x hx => ?_
  rw [mem_insert, mem_singleton] at hx
  rw [mem_Icc]
  omega

section Stuck

variable {b : ℕ} (hblock : ∀ b, logs b ≤ depositlogRequestLimit)
  (hb : depositlogRequestLimit < logs b + logs (b + 1)) (hlt : b < latestFollowHeight)
  (hfollow : latestFollowHeight < 2 ^ 64)
include hblock hb hlt hfollow

theorem logRound_of_pair (hs : s.currentBlockNum ≤ b) :
    ∃ s', logRound limit latestFollowHeight logs s = .ok s' ∧ s'.currentBlockNum ≤ b := by
  rw [logRound]
  split
  next hrefused =>
    refine ⟨_, if_neg fun hzero => ?_, hs⟩
    have hend : batchEnd latestFollowHeight s = s.currentBlockNum := by
      rw [batchEnd, hzero, Nat.add_zero, mod_eq_of_lt (by omega), min_eq_left (by omega)]
    rw [hend, TooMuchData, Icc_self, sum_singleton] at hrefused
    exact absurd hrefused (hblock _).not_gt
  next haccepted =>
    refine ⟨_, rfl, ?_⟩
    by_contra! hpast
    exact haccepted (tooMuchData_of_pair hb hs hpast)

theorem logRounds_of_pair (queries : ℕ) (hs : s.currentBlockNum ≤ b) :
    logRounds limit latestFollowHeight logs queries s = none := by
  induction queries generalizing s with
  | zero => rw [logRounds, if_neg (by omega)]
  | succ queries ih =>
    obtain ⟨s', hround, hs'⟩ := logRound_of_pair hblock hb hlt hfollow hs
    rw [logRounds, if_neg (by omega), hround]
    exact ih hs'

end Stuck

theorem logRound_progress (hlt : s.currentBlockNum < latestFollowHeight)
    (hpairs : ∀ b, s.currentBlockNum ≤ b → b < latestFollowHeight →
      logs b + logs (b + 1) ≤ depositlogRequestLimit)
    (hfit : 2 * limit + latestFollowHeight < 2 ^ 64) (hpos : 1 ≤ s.batchSize)
    (hle : s.batchSize ≤ limit) :
    ∃ s', logRound limit latestFollowHeight logs s = .ok s' ∧ 1 ≤ s'.batchSize ∧
      s'.batchSize ≤ limit ∧ (s.currentBlockNum < s'.currentBlockNum ∨
        s'.currentBlockNum = s.currentBlockNum ∧ s'.batchSize < s.batchSize) := by
  have hend : batchEnd latestFollowHeight s =
      min (s.currentBlockNum + s.batchSize) latestFollowHeight := by
    rw [batchEnd, mod_eq_of_lt (by omega)]
  rw [logRound, hend]
  split
  next hrefused =>
    have htwo : 2 ≤ s.batchSize := by
      by_contra! hone
      obtain hone : s.batchSize = 1 := by omega
      have hrange : Icc s.currentBlockNum (s.currentBlockNum + 1) =
          {s.currentBlockNum, s.currentBlockNum + 1} := by
        ext b
        simp
        omega
      rw [hone, min_eq_left (by omega), TooMuchData, hrange,
        sum_pair (lt_succ_self _).ne] at hrefused
      exact absurd hrefused (hpairs _ le_rfl hlt).not_gt
    exact ⟨_, if_neg (by omega), by dsimp only; omega, by dsimp only; omega,
      .inr ⟨rfl, by dsimp only; omega⟩⟩
  next =>
    refine ⟨_, rfl, ?_, ?_, .inl (by dsimp only; omega)⟩ <;>
    · simp only [increased]
      rw [mod_eq_of_lt (by omega)]
      split <;> omega

theorem isSome_logRounds (hfit : 2 * limit + latestFollowHeight < 2 ^ 64) (queries : ℕ)
    (hpairs : ∀ b, s.currentBlockNum ≤ b → b < latestFollowHeight →
      logs b + logs (b + 1) ≤ depositlogRequestLimit)
    (hpos : 1 ≤ s.batchSize) (hle : s.batchSize ≤ limit)
    (hfuel : (latestFollowHeight - s.currentBlockNum) * (limit + 1) + s.batchSize ≤ queries) :
    (logRounds limit latestFollowHeight logs queries s).isSome := by
  induction queries generalizing s with
  | zero => omega
  | succ queries ih =>
    rw [logRounds]
    split
    next => rfl
    next hlt =>
      obtain ⟨s', hround, hpos', hle', hmove⟩ :=
        logRound_progress (not_le.mp hlt) hpairs hfit hpos hle
      rw [hround]
      refine ih (fun b hb => hpairs b (by omega)) hpos' hle' ?_
      rcases hmove with hmove | ⟨hsame, hless⟩
      · obtain ⟨n, hn⟩ := Nat.exists_eq_add_of_lt (not_le.mp hlt)
        have hrest : latestFollowHeight - s'.currentBlockNum ≤ n := by omega
        have hmul := Nat.mul_le_mul_right (limit + 1) hrest
        rw [show latestFollowHeight - s.currentBlockNum = n + 1 by omega, succ_mul] at hfuel
        omega
      · rw [hsame]
        omega

/-- The loop ends if and only if every block from its start on fits a request together with the
next one. -/
theorem processPastLogs_ends_iff {lastRequestedBlock deploymentBlock : ℕ} (hlimit : 1 ≤ limit)
    (hfit : 2 * limit + latestFollowHeight < 2 ^ 64)
    (hblock : ∀ b, logs b ≤ depositlogRequestLimit) :
    processPastLogsEnds limit latestFollowHeight logs lastRequestedBlock deploymentBlock ↔
      ∀ b, max lastRequestedBlock deploymentBlock ≤ b → b < latestFollowHeight →
        logs b + logs (b + 1) ≤ depositlogRequestLimit := by
  constructor
  · rintro ⟨queries, hsome⟩ b hstart hlt
    by_contra! hb
    rw [logRounds_of_pair hblock hb hlt (by omega) queries hstart] at hsome
    cases hsome
  · intro hpairs
    exact ⟨_, isSome_logRounds hfit _ hpairs hlimit le_rfl le_rfl⟩

end

/-- A log in every block. -/
theorem processPastLogs_ends_iff_sparse : processPastLogsEnds 1 3 (fun _ => 1) 0 1 :=
  (processPastLogs_ends_iff (by decide) (by decide) fun _ => by decide).mpr fun _ _ _ => by decide

/-- Two blocks with six thousand logs each, under the default limit. -/
theorem dense_blocks_not_passed : 6000 ≤ depositlogRequestLimit ∧
    ¬ processPastLogsEnds 1000 5 (fun _ => 6000) 0 0 := by
  refine ⟨by decide, fun ⟨queries, hsome⟩ => ?_⟩
  rw [logRounds_of_pair (b := 0) (fun _ => by decide) (by decide) (by decide) (by decide) queries
    le_rfl] at hsome
  cases hsome

end Vanguard.Powchain
