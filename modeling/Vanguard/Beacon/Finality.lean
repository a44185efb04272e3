import Vanguard.Lib.Fallible
import Vanguard.Beacon.Types

/-!
Justification and finalization.

Bit `k` of the justification bits stands for the epoch `k` before the current one. The
four finalization rules compare the bits with the justified checkpoints from before the
step, so the invariant ties the bits to the epochs that were justified so far.
-/

namespace Vanguard.Beacon

open List Nat
open BitVec hiding and_assoc

/-- The checkpoint that is finalized after the four rules, in the order in which they are
tried. -/
def finalizedAfter (justification : BitVec 4) (oldPrevJustified oldCurrJustified : Checkpoint)
    (currentEpoch : Epoch) (finalized : Checkpoint) : Checkpoint :=
  -- the 2nd, 3rd and 4th most recent epochs are justified, the 2nd using the 4th as source
  let finalized := if justification &&& 0x0E = 0x0E ∧ oldPrevJustified.epoch + 3 = currentEpoch
    then oldPrevJustified else finalized
  -- the 2nd and 3rd are justified, the 2nd using the 3rd as source
  let finalized := if justification &&& 0x06 = 0x06 ∧ oldPrevJustified.epoch + 2 = currentEpoch
    then oldPrevJustified else finalized
  -- the 1st, 2nd and 3rd are justified, the 1st using the 3rd as source
  let finalized := if justification &&& 0x07 = 0x07 ∧ oldCurrJustified.epoch + 2 = currentEpoch
    then oldCurrJustified else finalized
  -- the 1st and 2nd are justified, the 1st using the 2nd as source
  if justification &&& 0x03 = 0x03 ∧ oldCurrJustified.epoch + 1 = currentEpoch
    then oldCurrJustified else finalized

/-- An epoch is justified if two thirds of the active balance attested to its target. -/
def justify (state : BeaconState) (totalActiveBalance targetBalance : Gwei) (epoch : Epoch)
    (bit : BitVec 4) : Except BeaconErr BeaconState :=
  if 2 * totalActiveBalance ≤ 3 * targetBalance then
    (blockRoot state epoch).map fun root =>
      { state with
        currentJustifiedCheckpoint := ⟨epoch, root⟩
        justificationBits := state.justificationBits ||| bit }
  else .ok state

def weighJustificationAndFinalization (state : BeaconState)
    (totalActiveBalance prevEpochTargetBalance currEpochTargetBalance : Gwei) :
    Except BeaconErr BeaconState := do
  let oldPrevJustified := state.previousJustifiedCheckpoint
  let oldCurrJustified := state.currentJustifiedCheckpoint
  let shifted := { state with
    previousJustifiedCheckpoint := oldCurrJustified
    justificationBits := state.justificationBits <<< 1 }
  let state₁ ← justify shifted totalActiveBalance prevEpochTargetBalance (prevEpoch state) 2
  let state₂ ← justify state₁ totalActiveBalance currEpochTargetBalance (currentEpoch state) 1
  return { state₂ with
    finalizedCheckpoint := finalizedAfter state₂.justificationBits oldPrevJustified
      oldCurrJustified (currentEpoch state) state₂.finalizedCheckpoint }

def processJustificationAndFinalizationPreCompute (state : BeaconState) (pBal : Balance) :
    Except BeaconErr BeaconState := do
  let canProcessSlot ← startSlot 2
  if state.slot ≤ canProcessSlot then return state
  else
    weighJustificationAndFinalization state pBal.activeCurrentEpoch pBal.prevEpochTargetAttested
      pBal.currentEpochTargetAttested

/-- What an epoch brings: the block roots at its end and the attested balances. -/
structure EpochInput where
  blockRoots : List Root
  balance : Balance

/-- The last slot of an epoch is processed, and the state goes on to that of the next one. -/
def stepEpoch (state : BeaconState) (input : EpochInput) : Except BeaconErr BeaconState :=
  (processJustificationAndFinalizationPreCompute { state with blockRoots := input.blockRoots }
    input.balance).map fun state => { state with slot := state.slot + slotsPerEpoch }

/-- The states before the epochs of a run, and the one after it. -/
def IsTrace (genesis : BeaconState) (inputs : List EpochInput) (states : ℕ → BeaconState) : Prop :=
  states 0 = genesis ∧
    ∀ n (h : n < inputs.length), stepEpoch (states n) inputs[n] = .ok (states (n + 1))

/-- The state before epoch `n`, if nothing fails. -/
def stateBefore (genesis : BeaconState) (inputs : List EpochInput) : ℕ → BeaconState
  | 0 => genesis
  | n + 1 =>
    let state := stateBefore genesis inputs n
    match inputs[n]?.map (stepEpoch state) with
    | some (.ok state') => state'
    | _ => state

/-! ### One step -/

section Step

/-- Two thirds of the active balance attested to a target. -/
def Supermajority (totalActiveBalance targetBalance : Gwei) : Prop :=
  2 * totalActiveBalance.toNat ≤ 3 * targetBalance.toNat

instance (total target : Gwei) : Decidable (Supermajority total target) :=
  inferInstanceAs (Decidable (_ ≤ _))

/-- Balances of an epoch: attested ones are at most the active one. -/
structure EpochInput.Valid (input : EpochInput) : Prop where
  roots : input.blockRoots.length = 8192
  active : input.balance.activeCurrentEpoch.toNat < 2 ^ 61
  prev : input.balance.prevEpochTargetAttested ≤ input.balance.activeCurrentEpoch
  curr : input.balance.currentEpochTargetAttested ≤ input.balance.activeCurrentEpoch

theorem supermajority_iff {total target : Gwei} (htotal : total.toNat < 2 ^ 61)
    (htarget : target ≤ total) : 2 * total ≤ 3 * target ↔ Supermajority total target := by
  have hle : target.toNat ≤ total.toNat := htarget
  rw [le_def, toNat_mul, toNat_mul, Supermajority]
  rw [show (2 : Gwei).toNat = 2 from rfl, show (3 : Gwei).toNat = 3 from rfl,
    mod_eq_of_lt (by omega), mod_eq_of_lt (by omega)]

variable {state s : BeaconState} {c : ℕ}

theorem blockRoot_eq_ok {e : Epoch} (hc : 32 * c + 8223 ≤ 2 ^ 64)
    (hslot : state.slot.toNat = 32 * c + 31) (hroots : state.blockRoots.length = 8192)
    (hle : e.toNat ≤ c) (hge : c ≤ e.toNat + 1) : ∃ root, blockRoot state e = .ok root := by
  have hstart : (slotsPerEpoch * e).toNat = 32 * e.toNat := by
    rw [toNat_mul, show slotsPerEpoch.toNat = 32 from rfl, mod_eq_of_lt (by omega)]
  have hnoOverflow : ¬ 18446744073709551615 - slotsPerEpoch * e < slotsPerHistoricalRoot := by
    rw [BitVec.not_lt, le_def, toNat_sub_of_le, hstart]
    · show 8192 ≤ 18446744073709551615 - 32 * e.toNat
      omega
    · rw [le_def, hstart]
      show _ ≤ 18446744073709551615
      omega
  have hend : (slotsPerEpoch * e + slotsPerHistoricalRoot).toNat = 32 * e.toNat + 8192 := by
    rw [toNat_add, hstart, show slotsPerHistoricalRoot.toNat = 8192 from rfl,
      mod_eq_of_lt (by omega)]
  have hbounds : ¬ (state.slot ≤ slotsPerEpoch * e ∨
      slotsPerEpoch * e + slotsPerHistoricalRoot < state.slot) := by
    rw [le_def, lt_def, hstart, hend, hslot]
    omega
  have hindex : (slotsPerEpoch * e % slotsPerHistoricalRoot).toNat < state.blockRoots.length := by
    rw [toNat_umod, hroots]
    exact mod_lt _ (by decide)
  refine ⟨state.blockRoots[(slotsPerEpoch * e % slotsPerHistoricalRoot).toNat], ?_⟩
  rw [blockRoot, startSlot, if_pos (by rw [show slotsPerEpoch.toNat = 32 from rfl]; omega),
    Except.bind, blockRootAtSlot, if_neg hnoOverflow, if_neg hbounds, atIndex,
    List.getElem?_eq_getElem hindex]

/-- What `justify` does to a state, if `p` says whether there is a supermajority. -/
structure Justifies (e : Epoch) (bit : BitVec 4) (p : Bool) (s s' : BeaconState) : Prop where
  slot : s'.slot = s.slot
  blockRoots : s'.blockRoots = s.blockRoots
  prevJustified : s'.previousJustifiedCheckpoint = s.previousJustifiedCheckpoint
  finalized : s'.finalizedCheckpoint = s.finalizedCheckpoint
  bits : s'.justificationBits = if p then s.justificationBits ||| bit else s.justificationBits
  yes : p = true → s'.currentJustifiedCheckpoint.epoch = e
  no : p = false → s'.currentJustifiedCheckpoint = s.currentJustifiedCheckpoint

theorem justify_spec {s' : BeaconState} {total target : Gwei} {e : Epoch} {bit : BitVec 4}
    (htotal : total.toNat < 2 ^ 61) (htarget : target ≤ total)
    (hrun : justify state total target e bit = .ok s') :
    Justifies e bit (decide (Supermajority total target)) state s' := by
  rw [justify] at hrun
  by_cases h : Supermajority total target
  · rw [if_pos ((supermajority_iff htotal htarget).mpr h)] at hrun
    rw [decide_eq_true h]
    cases hroot : blockRoot state e with
    | error err =>
      rw [hroot] at hrun
      cases hrun
    | ok root =>
      rw [hroot] at hrun
      cases hrun
      exact ⟨rfl, rfl, rfl, rfl, rfl, fun _ => rfl, fun hcon => by cases hcon⟩
  · rw [if_neg (fun hcon => h ((supermajority_iff htotal htarget).mp hcon))] at hrun
    rw [decide_eq_false h]
    cases hrun
    exact ⟨rfl, rfl, rfl, rfl, rfl, fun hcon => (by cases hcon), fun _ => rfl⟩

theorem justify_succeeds {c : ℕ} {e : Epoch} (hc : 32 * c + 8223 ≤ 2 ^ 64)
    (hslot : state.slot.toNat = 32 * c + 31) (hroots : state.blockRoots.length = 8192)
    (hle : e.toNat ≤ c) (hge : c ≤ e.toNat + 1) (total target : Gwei) (bit : BitVec 4) :
    ∃ s', justify state total target e bit = .ok s' ∧ s'.slot = state.slot ∧
      s'.blockRoots = state.blockRoots := by
  obtain ⟨root, hroot⟩ := blockRoot_eq_ok hc hslot hroots hle hge
  rw [justify, hroot]
  split
  · exact ⟨_, rfl, rfl, rfl⟩
  · exact ⟨state, rfl, rfl, rfl⟩

/-- Bit `k` is set in the justification bits. -/
def BeaconState.bit (state : BeaconState) (k : ℕ) : Bool := state.justificationBits.getLsbD k

/-- What one step does, in an epoch `c` in which epochs can be justified. -/
structure Weighed (c : ℕ) (balance : Balance) (s s' : BeaconState) : Prop where
  slot : s'.slot = s.slot
  bit_zero : s'.bit 0 = true ↔
    Supermajority balance.activeCurrentEpoch balance.currentEpochTargetAttested
  bit_one : s'.bit 1 = true ↔ s.bit 0 = true ∨
    Supermajority balance.activeCurrentEpoch balance.prevEpochTargetAttested
  bit_two : s'.bit 2 = s.bit 1
  bit_three : s'.bit 3 = s.bit 2
  prevJustified : s'.previousJustifiedCheckpoint = s.currentJustifiedCheckpoint
  currJustified :
    (s'.currentJustifiedCheckpoint = s.currentJustifiedCheckpoint) ∨
    (s'.currentJustifiedCheckpoint.epoch.toNat + 1 = c ∧ s'.bit 1 = true) ∨
    (s'.currentJustifiedCheckpoint.epoch.toNat = c ∧ s'.bit 0 = true)
  finalized : s'.finalizedCheckpoint =
    if s'.bit 0 = true ∧ s'.bit 1 = true ∧ s.currentJustifiedCheckpoint.epoch.toNat + 1 = c then
      s.currentJustifiedCheckpoint
    else if s'.bit 0 = true ∧ s'.bit 1 = true ∧ s'.bit 2 = true ∧
        s.currentJustifiedCheckpoint.epoch.toNat + 2 = c then s.currentJustifiedCheckpoint
    else if s'.bit 1 = true ∧ s'.bit 2 = true ∧
        s.previousJustifiedCheckpoint.epoch.toNat + 2 = c then s.previousJustifiedCheckpoint
    else if s'.bit 1 = true ∧ s'.bit 2 = true ∧ s'.bit 3 = true ∧
        s.previousJustifiedCheckpoint.epoch.toNat + 3 = c then s.previousJustifiedCheckpoint
    else s.finalizedCheckpoint

theorem masks (b : BitVec 4) :
    (b &&& 0x0E = 0x0E ↔ b.getLsbD 1 = true ∧ b.getLsbD 2 = true ∧ b.getLsbD 3 = true) ∧
    (b &&& 0x06 = 0x06 ↔ b.getLsbD 1 = true ∧ b.getLsbD 2 = true) ∧
    (b &&& 0x07 = 0x07 ↔ b.getLsbD 0 = true ∧ b.getLsbD 1 = true ∧ b.getLsbD 2 = true) ∧
    (b &&& 0x03 = 0x03 ↔ b.getLsbD 0 = true ∧ b.getLsbD 1 = true) := by
  revert b
  decide

theorem shifted_bits (b : BitVec 4) (p q : Bool) : let b₁ := if p then (b <<< 1) ||| 2 else b <<< 1
    let b₂ := if q then b₁ ||| 1 else b₁
    b₂.getLsbD 0 = q ∧ b₂.getLsbD 1 = (b.getLsbD 0 || p) ∧ b₂.getLsbD 2 = b.getLsbD 1 ∧
      b₂.getLsbD 3 = b.getLsbD 2 := by
  revert b p q
  decide

theorem finalizedAfter_eq {bits : BitVec 4} {oldPrev oldCurr finalized : Checkpoint}
    {epoch : Epoch} (hepoch : epoch.toNat = c) (hc : c + 3 < 2 ^ 64)
    (hprev : oldPrev.epoch.toNat ≤ c) (hcurr : oldCurr.epoch.toNat ≤ c) :
    finalizedAfter bits oldPrev oldCurr epoch finalized =
      if bits.getLsbD 0 = true ∧ bits.getLsbD 1 = true ∧ oldCurr.epoch.toNat + 1 = c then oldCurr
      else if bits.getLsbD 0 = true ∧ bits.getLsbD 1 = true ∧ bits.getLsbD 2 = true ∧
          oldCurr.epoch.toNat + 2 = c then oldCurr
      else if bits.getLsbD 1 = true ∧ bits.getLsbD 2 = true ∧ oldPrev.epoch.toNat + 2 = c then
        oldPrev
      else if bits.getLsbD 1 = true ∧ bits.getLsbD 2 = true ∧ bits.getLsbD 3 = true ∧
          oldPrev.epoch.toNat + 3 = c then oldPrev
      else finalized := by
  obtain ⟨h14, h6, h7, h3⟩ := masks bits
  have hadd : ∀ (e k : Epoch), e.toNat ≤ c → k.toNat ≤ 3 →
      (e + k = epoch ↔ e.toNat + k.toNat = c) := by
    intro e k he hk
    rw [← toNat_inj, toNat_add, mod_eq_of_lt (by omega), hepoch]
  have hprev2 : oldPrev.epoch + 2 = epoch ↔ oldPrev.epoch.toNat + 2 = c :=
    hadd oldPrev.epoch 2 hprev (by decide)
  have hprev3 : oldPrev.epoch + 3 = epoch ↔ oldPrev.epoch.toNat + 3 = c :=
    hadd oldPrev.epoch 3 hprev (by decide)
  have hcurr1 : oldCurr.epoch + 1 = epoch ↔ oldCurr.epoch.toNat + 1 = c :=
    hadd oldCurr.epoch 1 hcurr (by decide)
  have hcurr2 : oldCurr.epoch + 2 = epoch ↔ oldCurr.epoch.toNat + 2 = c :=
    hadd oldCurr.epoch 2 hcurr (by decide)
  simp only [finalizedAfter, h14, h6, h7, h3, hprev2, hprev3, hcurr1, hcurr2, and_assoc]

theorem toNat_currentEpoch (hslot : s.slot.toNat = 32 * c + 31) : (currentEpoch s).toNat = c := by
  rw [currentEpoch, toNat_slotToEpoch]
  omega

theorem weigh_spec {s' : BeaconState} {c : ℕ} {input : EpochInput} (hpos : 1 ≤ c)
    (hslot : s.slot.toNat = 32 * c + 31) (hvalid : input.Valid)
    (hprev : s.previousJustifiedCheckpoint.epoch.toNat ≤ c)
    (hcurr : s.currentJustifiedCheckpoint.epoch.toNat ≤ c)
    (hrun : weighJustificationAndFinalization s input.balance.activeCurrentEpoch
      input.balance.prevEpochTargetAttested input.balance.currentEpochTargetAttested = .ok s') :
    Weighed c input.balance s s' := by
  have hcurrent := toNat_currentEpoch hslot
  have hprevious := toNat_prevEpoch s
  have hlt := s.slot.isLt
  obtain ⟨s₁, hrun₁, hrun⟩ := Fallible.bind_eq_ok.mp hrun
  obtain ⟨s₂, hrun₂, hrun⟩ := Fallible.bind_eq_ok.mp hrun
  have h₁ := justify_spec hvalid.active hvalid.prev hrun₁
  have h₂ := justify_spec hvalid.active hvalid.curr hrun₂
  cases hrun
  obtain ⟨hb0, hb1, hb2, hb3⟩ := shifted_bits s.justificationBits
    (decide (Supermajority input.balance.activeCurrentEpoch input.balance.prevEpochTargetAttested))
    (decide (Supermajority input.balance.activeCurrentEpoch
      input.balance.currentEpochTargetAttested))
  rw [← h₁.bits, ← h₂.bits] at hb0 hb1 hb2 hb3
  refine ⟨h₂.slot.trans h₁.slot, ?_, ?_, hb2, hb3, h₂.prevJustified.trans h₁.prevJustified, ?_, ?_⟩
  · rw [BeaconState.bit, hb0, decide_eq_true_iff]
  · rw [BeaconState.bit, hb1, Bool.or_eq_true, decide_eq_true_iff]
    rfl
  · by_cases h : Supermajority input.balance.activeCurrentEpoch
      input.balance.currentEpochTargetAttested
    · refine .inr (.inr ⟨?_, ?_⟩)
      · rw [h₂.yes (decide_eq_true h), hcurrent]
      · rw [BeaconState.bit, hb0, decide_eq_true h]
    · by_cases h' : Supermajority input.balance.activeCurrentEpoch
        input.balance.prevEpochTargetAttested
      · refine .inr (.inl ⟨?_, ?_⟩)
        · rw [h₂.no (decide_eq_false h), h₁.yes (decide_eq_true h'), hprevious]
          omega
        · rw [BeaconState.bit, hb1, decide_eq_true h', Bool.or_true]
      · exact .inl ((h₂.no (decide_eq_false h)).trans (h₁.no (decide_eq_false h')))
  · rw [finalizedAfter_eq hcurrent (by omega) hprev hcurr, h₂.finalized, h₁.finalized]
    rfl

theorem weigh_succeeds {c : ℕ} (hpos : 1 ≤ c) (hc : 32 * c + 8223 ≤ 2 ^ 64)
    (hslot : s.slot.toNat = 32 * c + 31) (hroots : s.blockRoots.length = 8192)
    (active prev curr : Gwei) :
    ∃ s', weighJustificationAndFinalization s active prev curr = .ok s' := by
  have hcurrent := toNat_currentEpoch hslot
  have hprevious := toNat_prevEpoch s
  obtain ⟨s₁, hrun₁, hslot₁, hroots₁⟩ := @justify_succeeds { s with
    previousJustifiedCheckpoint := s.currentJustifiedCheckpoint
    justificationBits := s.justificationBits <<< 1 } c (prevEpoch s) hc hslot hroots (by omega)
    (by omega) active prev 2
  obtain ⟨s₂, hrun₂, -, -⟩ := @justify_succeeds s₁ c (currentEpoch s) hc (hslot₁ ▸ hslot)
    (hroots₁ ▸ hroots) (by omega) (by omega) active curr 1
  rw [weighJustificationAndFinalization]
  simp only [bind, Except.bind, hrun₁, hrun₂]
  exact ⟨_, rfl⟩

end Step

/-! ### Runs -/

section Runs

variable {inputs : List EpochInput} {n : ℕ} {s s' : BeaconState} {balance : Balance}

/-- Epoch `k` is justified when epoch `m` is processed. -/
def JustifiedAt (inputs : List EpochInput) (k m : ℕ) : Prop :=
  2 ≤ m ∧ ∃ h : m < inputs.length,
    (k = m ∧ Supermajority inputs[m].balance.activeCurrentEpoch
      inputs[m].balance.currentEpochTargetAttested) ∨
    (k + 1 = m ∧ Supermajority inputs[m].balance.activeCurrentEpoch
      inputs[m].balance.prevEpochTargetAttested)

structure IsGenesis (s : BeaconState) : Prop where
  slot : s.slot = 31
  bits : s.justificationBits = 0
  prevJustified : s.previousJustifiedCheckpoint.epoch = 0
  currJustified : s.currentJustifiedCheckpoint.epoch = 0
  finalized : s.finalizedCheckpoint.epoch = 0

structure Ordered (s : BeaconState) : Prop where
  finalized_le : s.finalizedCheckpoint.epoch ≤ s.previousJustifiedCheckpoint.epoch
  prevJustified_le : s.previousJustifiedCheckpoint.epoch ≤ s.currentJustifiedCheckpoint.epoch

/-- What holds before epoch `n` is processed. -/
structure Inv (inputs : List EpochInput) (n : ℕ) (s : BeaconState) : Prop where
  slot : s.slot = BitVec.ofNat 64 (32 * n + 31)
  ordered : Ordered s
  currJustified_le : s.currentJustifiedCheckpoint.epoch.toNat ≤ n - 1
  bits : ∀ k, s.bit k = true → k < n ∧ ∃ m < n, JustifiedAt inputs (n - 1 - k) m
  /-- Two justified epochs in a row finalize the first, if the second used it as source. -/
  two : s.bit 0 = true → s.bit 1 = true → s.previousJustifiedCheckpoint.epoch.toNat + 2 = n →
    s.finalizedCheckpoint = s.previousJustifiedCheckpoint
  /-- Three justified epochs in a row finalize the first, if the third used it as source. -/
  three : s.bit 0 = true → s.bit 1 = true → s.bit 2 = true →
    s.previousJustifiedCheckpoint.epoch.toNat + 3 = n →
    s.finalizedCheckpoint = s.previousJustifiedCheckpoint

/-- A checkpoint that is finalized when epoch `n` is processed: an epoch at most two later is
justified by the same step, and so are or were all epochs from one to the other. -/
def FinalizedWith (inputs : List EpochInput) (n : ℕ) (f : Checkpoint) : Prop :=
  ∃ j, JustifiedAt inputs j n ∧ f.epoch.toNat < j ∧ j ≤ f.epoch.toNat + 2 ∧
    ∀ k, f.epoch.toNat ≤ k → k ≤ j → ∃ m ≤ n, JustifiedAt inputs k m

/-- What processing an epoch does to the checkpoints. -/
structure Advances (inputs : List EpochInput) (n : ℕ) (s s' : BeaconState) : Prop where
  finalized_mono : s.finalizedCheckpoint.epoch ≤ s'.finalizedCheckpoint.epoch
  prevJustified_mono : s.previousJustifiedCheckpoint.epoch ≤ s'.previousJustifiedCheckpoint.epoch
  currJustified_mono : s.currentJustifiedCheckpoint.epoch ≤ s'.currentJustifiedCheckpoint.epoch
  shifts : 2 ≤ n → s'.previousJustifiedCheckpoint = s.currentJustifiedCheckpoint
  finalizes : s'.finalizedCheckpoint ≠ s.finalizedCheckpoint →
    FinalizedWith inputs n s'.finalizedCheckpoint ∧
      (s'.finalizedCheckpoint = s.currentJustifiedCheckpoint ∨
        3 ≤ n ∧ s'.finalizedCheckpoint = s.previousJustifiedCheckpoint)

theorem next_slot (n : ℕ) :
    BitVec.ofNat 64 (32 * n + 31) + slotsPerEpoch = BitVec.ofNat 64 (32 * (n + 1) + 31) := by
  rw [show 32 * (n + 1) + 31 = 32 * n + 31 + 32 by omega, ofNat_add (32 * n + 31) 32]
  rfl

theorem IsGenesis.inv {genesis : BeaconState} (h : IsGenesis genesis) : Inv inputs 0 genesis := by
  have hbit : ∀ k, genesis.bit k ≠ true := by
    intro k
    rw [BeaconState.bit, h.bits]
    simp
  refine ⟨h.slot, ⟨?_, ?_⟩, ?_, fun k hk => absurd hk (hbit k), fun hk => absurd hk (hbit 0),
    fun hk => absurd hk (hbit 0)⟩
  · rw [h.finalized]
    exact le_def.mpr (zero_le _)
  · rw [h.prevJustified]
    exact le_def.mpr (zero_le _)
  · rw [h.currJustified]
    exact le_refl 0

theorem Weighed.finalized_cases (hw : Weighed n balance s s') :
    s'.finalizedCheckpoint = s.currentJustifiedCheckpoint ∨
      s'.finalizedCheckpoint = s.previousJustifiedCheckpoint ∨
      s'.finalizedCheckpoint = s.finalizedCheckpoint := by
  rw [hw.finalized]
  split_ifs <;> simp

theorem Weighed.currJustified_mono (hw : Weighed n balance s s')
    (hle : s.currentJustifiedCheckpoint.epoch.toNat ≤ n - 1) :
    s.currentJustifiedCheckpoint.epoch ≤ s'.currentJustifiedCheckpoint.epoch := by
  rcases hw.currJustified with h | ⟨h, -⟩ | ⟨h, -⟩
  · rw [h]
    exact BitVec.le_refl _
  · exact le_def.mpr (by omega)
  · exact le_def.mpr (by omega)

namespace Inv

variable (hinv : Inv inputs n s)

include hinv

theorem with_blockRoots (roots : List Root) : Inv inputs n { s with blockRoots := roots } :=
  ⟨hinv.slot, ⟨hinv.ordered.finalized_le, hinv.ordered.prevJustified_le⟩, hinv.currJustified_le,
    hinv.bits, hinv.two, hinv.three⟩

section

variable (hn : n < inputs.length) (htwo : 2 ≤ n) (hw : Weighed n inputs[n].balance s s')

include hn htwo hw

theorem bits_step (k : ℕ) (hk : s'.bit k = true) :
    k < n + 1 ∧ ∃ m ≤ n, JustifiedAt inputs (n - k) m := by
  have hold : ∀ k, s.bit k = true →
      k + 1 < n + 1 ∧ ∃ m ≤ n, JustifiedAt inputs (n - (k + 1)) m := by
    intro k hk
    obtain ⟨hlt, m, hm, hjust⟩ := hinv.bits k hk
    rw [show n - 1 - k = n - (k + 1) by omega] at hjust
    exact ⟨by omega, m, hm.le, hjust⟩
  match k with
  | 0 => exact ⟨by omega, n, le_rfl, htwo, hn, .inl ⟨rfl, hw.bit_zero.mp hk⟩⟩
  | 1 =>
    rcases hw.bit_one.mp hk with hk | hk
    · exact hold 0 hk
    · exact ⟨by omega, n, le_rfl, htwo, hn, .inr ⟨by omega, hk⟩⟩
  | 2 => exact hold 1 (hw.bit_two ▸ hk)
  | 3 => exact hold 2 (hw.bit_three ▸ hk)
  | k + 4 =>
    rw [BeaconState.bit, getLsbD_of_ge _ _ (by omega)] at hk
    cases hk

theorem finalized_step
    (hne : s'.finalizedCheckpoint ≠ s.finalizedCheckpoint) :
    FinalizedWith inputs n s'.finalizedCheckpoint ∧
      (s'.finalizedCheckpoint = s.currentJustifiedCheckpoint ∨
        3 ≤ n ∧ s'.finalizedCheckpoint = s.previousJustifiedCheckpoint) := by
  have hbits := hinv.bits_step hn htwo hw
  have hfin := hw.finalized
  have hzero : s'.bit 0 = true → JustifiedAt inputs n n := fun h =>
    ⟨htwo, hn, .inl ⟨rfl, hw.bit_zero.mp h⟩⟩
  split at hfin
  · next h =>
    obtain ⟨h0, h1, hepoch⟩ := h
    refine ⟨⟨n, hzero h0, by rw [hfin]; omega, by rw [hfin]; omega, fun k hk hkn => ?_⟩, .inl hfin⟩
    rw [hfin] at hk
    obtain rfl | rfl : n - 0 = k ∨ n - 1 = k := by omega
    exacts [(hbits 0 h0).2, (hbits 1 h1).2]
  split at hfin
  · next h =>
    obtain ⟨h0, h1, h2, hepoch⟩ := h
    refine ⟨⟨n, hzero h0, by rw [hfin]; omega, by rw [hfin]; omega, fun k hk hkn => ?_⟩, .inl hfin⟩
    rw [hfin] at hk
    obtain rfl | rfl | rfl : n - 0 = k ∨ n - 1 = k ∨ n - 2 = k := by omega
    exacts [(hbits 0 h0).2, (hbits 1 h1).2, (hbits 2 h2).2]
  -- the last two rules need the previous epoch to be justified now: otherwise the step before
  -- has finalized the checkpoint already
  split at hfin
  · next h =>
    obtain ⟨h1, h2, hepoch⟩ := h
    have hold : s.bit 1 = true := hw.bit_two ▸ h2
    have hnow : JustifiedAt inputs (n - 1) n := by
      rcases hw.bit_one.mp h1 with h | h
      · exact absurd (hfin.trans (hinv.two h hold hepoch).symm) hne
      · exact ⟨htwo, hn, .inr ⟨by omega, h⟩⟩
    obtain ⟨-, m, hm, hjust⟩ := hinv.bits 1 hold
    refine ⟨⟨n - 1, hnow, by rw [hfin]; omega, by rw [hfin]; omega, fun k hk hkn => ?_⟩,
      .inr ⟨by have := hjust.1; omega, hfin⟩⟩
    rw [hfin] at hk
    obtain rfl | rfl : n - 1 = k ∨ n - 2 = k := by omega
    exacts [(hbits 1 h1).2, (hbits 2 h2).2]
  split at hfin
  · next h =>
    obtain ⟨h1, h2, h3, hepoch⟩ := h
    have hnow : JustifiedAt inputs (n - 1) n := by
      rcases hw.bit_one.mp h1 with h | h
      · exact absurd (hfin.trans
          (hinv.three h (hw.bit_two ▸ h2) (hw.bit_three ▸ h3) hepoch).symm) hne
      · exact ⟨htwo, hn, .inr ⟨by omega, h⟩⟩
    refine ⟨⟨n - 1, hnow, by rw [hfin]; omega, by rw [hfin]; omega, fun k hk hkn => ?_⟩,
      .inr ⟨by omega, hfin⟩⟩
    rw [hfin] at hk
    obtain rfl | rfl | rfl : n - 1 = k ∨ n - 2 = k ∨ n - 3 = k := by omega
    exacts [(hbits 1 h1).2, (hbits 2 h2).2, (hbits 3 h3).2]
  exact absurd hfin hne

theorem weighed : Inv inputs (n + 1) { s' with slot := s'.slot + slotsPerEpoch } := by
  have hle := hinv.ordered
  have hcurr := hinv.currJustified_le
  refine ⟨?_, ⟨?_, ?_⟩, ?_, fun k hk => ?_, fun h0 h1 hepoch => ?_, fun h0 h1 h2 hepoch => ?_⟩
  · exact (congrArg (· + slotsPerEpoch) (hw.slot.trans hinv.slot)).trans (next_slot n)
  · show s'.finalizedCheckpoint.epoch ≤ s'.previousJustifiedCheckpoint.epoch
    rw [hw.prevJustified]
    rcases hw.finalized_cases with h | h | h <;> rw [h]
    exacts [BitVec.le_refl _, hle.prevJustified_le,
      BitVec.le_trans hle.finalized_le hle.prevJustified_le]
  · show s'.previousJustifiedCheckpoint.epoch ≤ s'.currentJustifiedCheckpoint.epoch
    rw [hw.prevJustified]
    exact hw.currJustified_mono hcurr
  · show s'.currentJustifiedCheckpoint.epoch.toNat ≤ n
    rcases hw.currJustified with h | ⟨h, -⟩ | ⟨h, -⟩
    · rw [h]
      omega
    · omega
    · omega
  · obtain ⟨hlt, m, hm, hjust⟩ := hinv.bits_step hn htwo hw k hk
    exact ⟨hlt, m, lt_succ_of_le hm, hjust⟩
  · have hepoch : s'.previousJustifiedCheckpoint.epoch.toNat + 2 = n + 1 := hepoch
    show s'.finalizedCheckpoint = s'.previousJustifiedCheckpoint
    rw [hw.prevJustified] at hepoch ⊢
    rw [hw.finalized, if_pos ⟨h0, h1, by omega⟩]
  · have hepoch : s'.previousJustifiedCheckpoint.epoch.toNat + 3 = n + 1 := hepoch
    show s'.finalizedCheckpoint = s'.previousJustifiedCheckpoint
    rw [hw.prevJustified] at hepoch ⊢
    rw [hw.finalized, if_neg (by omega), if_pos ⟨h0, h1, h2, by omega⟩]

end

theorem skipped (hn : n < 2) : Inv inputs (n + 1) { s with slot := s.slot + slotsPerEpoch } := by
  have hbit : ∀ k, s.bit k ≠ true := by
    intro k hk
    obtain ⟨-, m, hm, hjust⟩ := hinv.bits k hk
    have := hjust.1
    omega
  refine ⟨(congrArg (· + slotsPerEpoch) hinv.slot).trans (next_slot n), ⟨hinv.ordered.finalized_le,
    hinv.ordered.prevJustified_le⟩, ?_, fun k hk => absurd hk (hbit k),
    fun hk => absurd hk (hbit 0), fun hk => absurd hk (hbit 0)⟩
  exact hinv.currJustified_le.trans (by omega)

theorem advances (hn : n < inputs.length) (htwo : 2 ≤ n) (hw : Weighed n inputs[n].balance s s') :
    Advances inputs n s { s' with slot := s'.slot + slotsPerEpoch } := by
  have hle := hinv.ordered
  have hfinalizes := hinv.finalized_step hn htwo hw
  refine ⟨?_, ?_, hw.currJustified_mono hinv.currJustified_le, fun _ => hw.prevJustified,
    hfinalizes⟩
  · show s.finalizedCheckpoint.epoch ≤ s'.finalizedCheckpoint.epoch
    rcases hw.finalized_cases with h | h | h <;> rw [h]
    exacts [BitVec.le_trans hle.finalized_le hle.prevJustified_le, hle.finalized_le,
      BitVec.le_refl _]
  · show s.previousJustifiedCheckpoint.epoch ≤ s'.previousJustifiedCheckpoint.epoch
    rw [hw.prevJustified]
    exact hle.prevJustified_le

end Inv

theorem process_eq (state : BeaconState) (balance : Balance) :
    processJustificationAndFinalizationPreCompute state balance =
      if state.slot ≤ 64 then .ok state
      else weighJustificationAndFinalization state balance.activeCurrentEpoch
        balance.prevEpochTargetAttested balance.currentEpochTargetAttested := rfl

theorem Inv.slot_toNat (hinv : Inv inputs n s) (hlast : 32 * n + 31 < 2 ^ 64) :
    s.slot.toNat = 32 * n + 31 := by
  rw [hinv.slot, toNat_ofNat, mod_eq_of_lt hlast]

theorem stepEpoch_spec (hinv : Inv inputs n s) (hn : n < inputs.length)
    (hvalid : inputs[n].Valid) (hlast : 32 * n + 31 < 2 ^ 64)
    (hrun : stepEpoch s inputs[n] = .ok s') : Inv inputs (n + 1) s' ∧ Advances inputs n s s' := by
  have hslot := hinv.slot_toNat hlast
  have hcurr := hinv.currJustified_le
  have hprev := le_def.mp hinv.ordered.prevJustified_le
  have hinv' := hinv.with_blockRoots inputs[n].blockRoots
  obtain ⟨t, ht, rfl⟩ := Fallible.map_eq_ok.mp hrun
  rw [process_eq] at ht
  split at ht
  · next hle =>
    have hle : s.slot.toNat ≤ 64 := le_def.mp hle
    cases ht
    exact ⟨hinv'.skipped (by omega), BitVec.le_refl _, BitVec.le_refl _, BitVec.le_refl _,
      fun htwo => by omega, fun hne => absurd rfl hne⟩
  · next hlt =>
    have htwo : 2 ≤ n := by
      have hlt : 64 < s.slot.toNat := lt_def.mp (BitVec.not_le.mp hlt)
      omega
    have hw := @weigh_spec { s with blockRoots := inputs[n].blockRoots } t n inputs[n] (by omega)
      hslot hvalid (hprev.trans (by omega)) (hcurr.trans (by omega)) ht
    obtain ⟨hf, hp, hc, hshifts, hfinalizes⟩ := hinv'.advances hn htwo hw
    exact ⟨hinv'.weighed hn htwo hw, hf, hp, hc, hshifts, hfinalizes⟩

theorem stepEpoch_succeeds (hinv : Inv inputs n s) (hlast : 32 * n + 8223 ≤ 2 ^ 64)
    {input : EpochInput} (hroots : input.blockRoots.length = 8192) :
    ∃ s', stepEpoch s input = .ok s' := by
  have hslot := hinv.slot_toNat (by omega)
  rw [stepEpoch, process_eq]
  split
  · exact ⟨_, rfl⟩
  · next hlt =>
    have hlt : 64 < s.slot.toNat := lt_def.mp (BitVec.not_le.mp hlt)
    obtain ⟨t, ht⟩ := @weigh_succeeds { s with blockRoots := input.blockRoots } n (by omega) hlast
      hslot hroots input.balance.activeCurrentEpoch input.balance.prevEpochTargetAttested
      input.balance.currentEpochTargetAttested
    rw [ht]
    exact ⟨_, rfl⟩

section Trace

variable {genesis : BeaconState} {states : ℕ → BeaconState}

section

variable (htrace : IsTrace genesis inputs states) (hgenesis : IsGenesis genesis)
  (hvalid : ∀ input ∈ inputs, input.Valid)

include htrace hgenesis hvalid

variable (hlast : 32 * inputs.length ≤ 2 ^ 64)

include hlast

theorem IsTrace.inv : ∀ n ≤ inputs.length, Inv inputs n (states n) := by
  intro n
  induction n with
  | zero =>
    intro _
    rw [htrace.1]
    exact hgenesis.inv
  | succ n ih =>
    intro hn
    exact (stepEpoch_spec (ih (by omega)) hn (hvalid _ (getElem_mem hn)) (by omega)
      (htrace.2 n hn)).1

theorem IsTrace.advances
    (hn : n < inputs.length) : Advances inputs n (states n) (states (n + 1)) :=
  (stepEpoch_spec (htrace.inv hgenesis hvalid hlast n hn.le) hn (hvalid _ (getElem_mem hn))
    (by omega) (htrace.2 n hn)).2

theorem IsTrace.was_justified (hn : n < inputs.length)
    (hne : (states (n + 1)).finalizedCheckpoint ≠ (states n).finalizedCheckpoint) :
    ∃ m ≤ n, (states m).currentJustifiedCheckpoint = (states (n + 1)).finalizedCheckpoint := by
  obtain ⟨-, hcurr | ⟨hthree, hprev⟩⟩ := (htrace.advances hgenesis hvalid hlast hn).finalizes hne
  · exact ⟨n, le_rfl, hcurr.symm⟩
  · obtain ⟨m, rfl⟩ : ∃ m, n = m + 1 := ⟨n - 1, by omega⟩
    have hshifts := (htrace.advances hgenesis hvalid hlast (show m < inputs.length by omega)).shifts
    exact ⟨m, by omega, (hprev.trans (hshifts (by omega))).symm⟩

end

theorem isTrace_stateBefore (hgenesis : IsGenesis genesis)
    (hvalid : ∀ input ∈ inputs, input.Valid) (hlast : 32 * inputs.length + 8192 ≤ 2 ^ 64) :
    IsTrace genesis inputs (stateBefore genesis inputs) := by
  have hstep : ∀ n (hn : n < inputs.length), Inv inputs n (stateBefore genesis inputs n) →
      stepEpoch (stateBefore genesis inputs n) inputs[n] =
        .ok (stateBefore genesis inputs (n + 1)) := by
    intro n hn hinv
    obtain ⟨s', hs'⟩ := stepEpoch_succeeds hinv (by omega) (hvalid _ (getElem_mem hn)).roots
    rw [stateBefore, List.getElem?_eq_getElem hn, Option.map_some, hs']
  refine ⟨rfl, fun n hn => hstep n hn ?_⟩
  induction n with
  | zero => exact hgenesis.inv
  | succ n ih =>
    have hn : n < inputs.length := by omega
    exact (stepEpoch_spec (ih hn) hn (hvalid _ (getElem_mem hn)) (by omega) (hstep n hn (ih hn))).1

/-- Checkpoints stay in order and only move forward, and what is finalized was justified. -/
theorem checkpoints_ordered (hgenesis : IsGenesis genesis)
    (hvalid : ∀ input ∈ inputs, input.Valid) (hlast : 32 * inputs.length ≤ 2 ^ 64) :
    (32 * inputs.length + 8192 ≤ 2 ^ 64 →
      IsTrace genesis inputs (stateBefore genesis inputs)) ∧
    ∀ states, IsTrace genesis inputs states →
      (∀ n ≤ inputs.length, Ordered (states n) ∧
        (states n).currentJustifiedCheckpoint.epoch.toNat ≤ n - 1) ∧
      ∀ n < inputs.length,
        (states n).finalizedCheckpoint.epoch ≤ (states (n + 1)).finalizedCheckpoint.epoch ∧
        (states n).previousJustifiedCheckpoint.epoch ≤
          (states (n + 1)).previousJustifiedCheckpoint.epoch ∧
        (states n).currentJustifiedCheckpoint.epoch ≤
          (states (n + 1)).currentJustifiedCheckpoint.epoch ∧
        ((states (n + 1)).finalizedCheckpoint ≠ (states n).finalizedCheckpoint →
          FinalizedWith inputs n (states (n + 1)).finalizedCheckpoint ∧
          ∃ m ≤ n, (states m).currentJustifiedCheckpoint =
            (states (n + 1)).finalizedCheckpoint) := by
  refine ⟨isTrace_stateBefore hgenesis hvalid,
    fun states htrace => ⟨fun n hn => ?_, fun n hn => ?_⟩⟩
  · have hinv := htrace.inv hgenesis hvalid hlast n hn
    exact ⟨hinv.ordered, hinv.currJustified_le⟩
  · have hadv := htrace.advances hgenesis hvalid hlast hn
    exact ⟨hadv.finalized_mono, hadv.prevJustified_mono, hadv.currJustified_mono, fun hne =>
      ⟨(hadv.finalizes hne).1, htrace.was_justified hgenesis hvalid hlast hn hne⟩⟩

/-- A state at genesis and four epochs in which everybody attests. -/
def idleGenesis : BeaconState :=
  { (default : BeaconState) with slot := 31 }

def busyEpochs : List EpochInput :=
  List.replicate 4 ⟨List.replicate 8192 7, { (default : Balance) with
    activeCurrentEpoch := 32, prevEpochTargetAttested := 32, currentEpochTargetAttested := 30 }⟩

theorem busy_epochs_finalize :
    IsTrace idleGenesis busyEpochs (stateBefore idleGenesis busyEpochs) ∧
    (stateBefore idleGenesis busyEpochs 4).finalizedCheckpoint = ⟨2, 7⟩ ∧
    FinalizedWith busyEpochs 3 (stateBefore idleGenesis busyEpochs 4).finalizedCheckpoint := by
  have hgenesis : IsGenesis idleGenesis := ⟨rfl, rfl, rfl, rfl, rfl⟩
  have hvalid : ∀ input ∈ busyEpochs, input.Valid := by
    intro input hinput
    rw [eq_of_mem_replicate hinput]
    exact ⟨length_replicate, by decide, by decide, by decide⟩
  obtain ⟨htrace, hall⟩ := checkpoints_ordered hgenesis hvalid (by decide)
  refine ⟨htrace (by decide), by decide +kernel, ?_⟩
  exact ((hall _ (htrace (by decide))).2 3 (by decide)).2.2.2 (by decide +kernel) |>.1

end Trace

end Runs

end Vanguard.Beacon
