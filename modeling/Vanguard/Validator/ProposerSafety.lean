import Vanguard.Lib.Run
import Vanguard.Validator.ProposerProtection

/-!
Slashing protection of proposals.

The history keeps the root of every slot that is not the weak subjectivity
period behind a later save, and the watermark is the lowest slot ever signed. A
slot in between whose proposal was pruned is not protected, so a run is safe if
it does not go back that far.
-/

namespace Vanguard.Validator

open PackedIndex Run List DB
open Bytes (ofUint64 toUint64)

/-! ### Saving a proposal -/

def DB.proposals (db : DB) (k : PubKey) : Bucket Root := db.historicProposals[k]?.getD ∅

theorem proposalHistoryForSlot_eq (db : DB) (k : PubKey) (slot : Slot) :
    db.proposalHistoryForSlot k slot = (db.proposals k)[ofUint64 slot]? := by
  rw [proposalHistoryForSlot, proposals]
  cases db.historicProposals[k]? <;> simp

theorem slotToEpoch_toNat (slot : Slot) : (slotToEpoch slot).toNat = slot.toNat / 32 := by
  simp [slotToEpoch, slotsPerEpoch]

variable {slot : Slot} {db : DB} {signed : List SignedBlock} {b : SignedBlock}

theorem prunable_iff {newest : Slot} :
    prunable newest slot = true ↔ slot.toNat / 32 + 54000 ≤ newest.toNat / 32 := by
  have hslot := slot.isLt
  have hperiod : weakSubjectivityPeriod.toNat = 54000 := rfl
  rw [prunable, decide_eq_true_eq, BitVec.le_def, BitVec.toNat_add, slotToEpoch_toNat,
    slotToEpoch_toNat, hperiod, Nat.mod_eq_of_lt (by omega)]

theorem prunable_of_lt (newest : Slot) {slot' : Slot} (hlt : slot.toNat < slot'.toNat)
    (h : prunable newest slot' = true) : prunable newest slot = true := by
  rw [prunable_iff] at h ⊢
  omega

theorem prunable_self (slot : Slot) : prunable slot slot = false := by
  rw [← Bool.not_eq_true, prunable_iff]
  omega

theorem proposals_save (db : DB) (k k' : PubKey) (slot : Slot) (root : Root) :
    (db.saveProposalHistoryForSlot k slot root).proposals k' =
      if k' = k then pruneProposalHistoryBySlot ((db.proposals k).insert (ofUint64 slot) root) slot
      else db.proposals k' := by
  rw [proposals, saveProposalHistoryForSlot]
  simp only [TreeMap.getElem?_insert]
  split
  · rfl
  · rfl

theorem numbered_save (h : ∀ k, Numbered (db.proposals k)) (k k' : PubKey) (slot : Slot)
    (root : Root) : Numbered ((db.saveProposalHistoryForSlot k slot root).proposals k') := by
  rw [proposals_save]
  split
  · exact ((h k).insert slot root).deleteWhile fun _ _ => prunable_of_lt slot
  · exact h k'

theorem getElem?_proposals_save (h : ∀ k, Numbered (db.proposals k)) (k k' : PubKey)
    (slot slot' : Slot) (root : Root) :
    ((db.saveProposalHistoryForSlot k slot root).proposals k')[ofUint64 slot']? =
      if k' = k then
        if prunable slot slot' = true then none
        else if slot' = slot then some root else (db.proposals k)[ofUint64 slot']?
      else (db.proposals k')[ofUint64 slot']? := by
  rw [proposals_save]
  split
  · rw [pruneProposalHistoryBySlot,
      ((h k).insert slot root).getElem?_deleteWhile fun _ _ => prunable_of_lt slot]
    simp only [Bytes.toUint64_ofUint64, TreeMap.getElem?_insert, Bytes.ofUint64_inj]
  · rfl

/-! ### What the database knows -/

/-- The slot is not the weak subjectivity period behind a slot that was signed. -/
def Recent (signed : List SignedBlock) (k : PubKey) (slot : Slot) : Prop :=
  ∀ b ∈ signed, b.pubKey = k → prunable b.slot slot = false

def slotsOf (k : PubKey) (signed : List SignedBlock) : List Slot :=
  (signed.filter (·.pubKey = k)).map (·.slot)

theorem mem_slotsOf {k : PubKey} :
    slot ∈ slotsOf k signed ↔ ∃ b ∈ signed, b.pubKey = k ∧ b.slot = slot := by
  simp [slotsOf, and_assoc]

/-- The database has the recent ones of the blocks that were signed, at least one
for every key, and no others. -/
structure Proposed (db : DB) (signed : List SignedBlock) : Prop where
  numbered : ∀ k, Numbered (db.proposals k)
  stored : ∀ k slot root, (db.proposals k)[ofUint64 slot]? = some root → ⟨k, slot, root⟩ ∈ signed
  kept : ∀ b ∈ signed, Recent signed b.pubKey b.slot →
    ∃ root, (db.proposals b.pubKey)[ofUint64 b.slot]? = some root
  alive : ∀ b ∈ signed, ∃ slot root, (db.proposals b.pubKey)[ofUint64 slot]? = some root
  numbers : Numbers db.lowestSignedProposals
  lowest : ∀ k, IsLowest (db.lowestSignedProposal k) (slotsOf k signed)

theorem proposed_empty : Proposed .empty [] where
  numbered k key v hv := by simp [proposals, empty] at hv
  stored k slot root h := by simp [proposals, empty] at h
  kept b hb := by cases hb
  alive b hb := by cases hb
  numbers := numbers_empty
  lowest k := rfl

theorem Proposed.save (h : Proposed db signed) (b : SignedBlock) :
    Proposed (db.saveProposalHistoryForSlot b.pubKey b.slot b.signingRoot) (signed ++ [b]) where
  numbered k := numbered_save h.numbered b.pubKey k b.slot b.signingRoot
  stored k slot root hget := by
    rw [getElem?_proposals_save h.numbered] at hget
    split_ifs at hget with hk hprune hslot
    · subst hk hslot
      obtain rfl : b.signingRoot = root := Option.some.inj hget
      exact mem_append_right _ (mem_singleton.mpr rfl)
    · subst hk
      exact mem_append_left _ (h.stored _ slot root hget)
    · exact mem_append_left _ (h.stored k slot root hget)
  kept b' hb' hrecent := by
    rw [getElem?_proposals_save h.numbered]
    by_cases hk : b'.pubKey = b.pubKey
    · have hkeep : prunable b.slot b'.slot = false :=
        hrecent b (mem_append_right _ (mem_singleton.mpr rfl)) hk.symm
      rw [if_pos hk, hkeep, if_neg (by simp)]
      by_cases hslot : b'.slot = b.slot
      · exact ⟨_, if_pos hslot⟩
      · rcases mem_append.mp hb' with hold | hnew
        · obtain ⟨root, hroot⟩ := h.kept b' hold fun b'' hb'' => hrecent b''
            (mem_append_left _ hb'')
          exact ⟨root, by rw [if_neg hslot, ← hk, hroot]⟩
        · exact absurd (congrArg SignedBlock.slot (mem_singleton.mp hnew)) hslot
    · rw [if_neg hk]
      rcases mem_append.mp hb' with hold | hnew
      · exact h.kept b' hold fun b'' hb'' => hrecent b'' (mem_append_left _ hb'')
      · exact absurd (congrArg SignedBlock.pubKey (mem_singleton.mp hnew)) hk
  alive b' hb' := by
    by_cases hk : b'.pubKey = b.pubKey
    · refine ⟨b.slot, b.signingRoot, ?_⟩
      rw [getElem?_proposals_save h.numbered, if_pos hk, prunable_self]
      simp
    · rcases mem_append.mp hb' with hold | hnew
      · obtain ⟨slot, root, hroot⟩ := h.alive b' hold
        exact ⟨slot, root, by rw [getElem?_proposals_save h.numbered, if_neg hk, hroot]⟩
      · exact absurd (congrArg SignedBlock.pubKey (mem_singleton.mp hnew)) hk
  numbers := h.numbers.storeIfBetter _ _
  lowest k := by
    rw [lowestSignedProposal, saveProposalHistoryForSlot]
    dsimp only
    rw [storedNumber_storeIfBetter h.numbers]
    by_cases hk : k = b.pubKey
    · subst hk
      have hslots : slotsOf b.pubKey (signed ++ [b]) = slotsOf b.pubKey signed ++ [b.slot] := by
        simp [slotsOf]
      rw [if_pos rfl, hslots]
      exact (h.lowest b.pubKey).append b.slot
    · have hslots : slotsOf k (signed ++ [b]) = slotsOf k signed := by
        simp [slotsOf, Ne.symm hk]
      rw [if_neg hk, hslots]
      exact h.lowest k

/-- A proposal passes if it repeats the one for its slot, or if there is none and
the slot is above the lowest one. -/
theorem proposalRefusal_eq_none_iff {k : PubKey} {root : Root} :
    db.proposalRefusal k slot root = none ↔
      (db.proposals k)[ofUint64 slot]? = some root ∧ root ≠ zeroHash ∨
        (db.proposals k)[ofUint64 slot]? = none ∧
          ∀ lowest, db.lowestSignedProposal k = some lowest → lowest < slot := by
  rw [proposalRefusal, proposalHistoryForSlot_eq]
  cases (db.proposals k)[ofUint64 slot]? with
  | none =>
    cases db.lowestSignedProposal k with
    | none => simp
    | some lowest => simp
  | some prev =>
    by_cases hprev : prev = zeroHash ∨ prev ≠ root
    · have hnot : ¬ (prev = root ∧ root ≠ zeroHash) := by
        rintro ⟨rfl, hne⟩
        exact hprev.elim hne fun h => h rfl
      simp [hprev, hnot]
    · obtain ⟨hne, heq⟩ := not_or.mp hprev
      obtain rfl : prev = root := not_not.mp heq
      cases db.lowestSignedProposal k <;> simp [hne]

/-! ### Safety -/

/-- No two blocks of one key have the same slot and different roots. -/
def NoDoubleProposal (signed : List SignedBlock) : Prop :=
  ∀ a ∈ signed, ∀ b ∈ signed, a.pubKey = b.pubKey → a.slot = b.slot → a.signingRoot = b.signingRoot

/-- The slot is not the weak subjectivity period behind a slot that was signed
with the same key, or it is not above the lowest one. -/
def Timely (c : Proposer) (req : ProposalRequest) : Prop :=
  Recent c.signed req.block.pubKey req.block.slot ∨
    ∀ b ∈ c.signed, b.pubKey = req.block.pubKey → req.block.slot ≤ b.slot

instance (signed : List SignedBlock) (k : PubKey) (slot : Slot) :
    Decidable (Recent signed k slot) := by
  unfold Recent
  infer_instance

instance (c : Proposer) (req : ProposalRequest) : Decidable (Timely c req) := by
  unfold Timely
  infer_instance

/-- What passes the checks in time repeats the proposal that was signed for its
slot, if there is one. -/
theorem Proposed.same_root (h : Proposed db signed) (hsafe : NoDoubleProposal signed)
    (htimely : Recent signed b.pubKey b.slot ∨ ∀ a ∈ signed, a.pubKey = b.pubKey → b.slot ≤ a.slot)
    (hpass : db.proposalRefusal b.pubKey b.slot b.signingRoot = none) {a : SignedBlock}
    (ha : a ∈ signed) (hk : a.pubKey = b.pubKey) (hslot : a.slot = b.slot) :
    a.signingRoot = b.signingRoot := by
  rcases proposalRefusal_eq_none_iff.mp hpass with ⟨hget, -⟩ | ⟨hnone, hlowest⟩
  · exact hsafe a ha _ (h.stored _ _ _ hget) hk hslot
  · rcases htimely with hrecent | hlow
    · obtain ⟨root, hroot⟩ := h.kept a ha (by rw [hk, hslot]; exact hrecent)
      rw [hk, hslot, hnone] at hroot
      cases hroot
    · obtain ⟨lowest, hsome, hmem, -⟩ :=
        (h.lowest b.pubKey).exists_le (mem_slotsOf.mpr ⟨a, ha, hk, hslot⟩)
      obtain ⟨a', ha', hk', rfl⟩ := mem_slotsOf.mp hmem
      exact absurd (hlowest _ hsome) (BitVec.not_lt.mpr (hlow a' ha' hk'))

theorem NoDoubleProposal.append (hsafe : NoDoubleProposal signed)
    (hnew : ∀ a ∈ signed, a.pubKey = b.pubKey → a.slot = b.slot → a.signingRoot = b.signingRoot) :
    NoDoubleProposal (signed ++ [b]) := by
  intro x hx y hy hk hslot
  rw [mem_append, mem_singleton] at hx hy
  rcases hx with hx | rfl <;> rcases hy with hy | rfl
  · exact hsafe x hx y hy hk hslot
  · exact hnew x hx hk hslot
  · exact (hnew y hy hk.symm hslot.symm).symm
  · rfl

theorem Proposer.step_cases (c : Proposer) (req : ProposalRequest) :
    c.db.proposalRefusal req.block.pubKey req.block.slot req.block.signingRoot = none ∧
        c.step req = ⟨c.db.saveProposalHistoryForSlot req.block.pubKey req.block.slot
          req.block.signingRoot, c.signed ++ [req.block]⟩ ∨
      c.step req = c := by
  rw [step, preBlockSignValidations, postBlockSignUpdate]
  cases c.db.proposalRefusal req.block.pubKey req.block.slot req.block.signingRoot with
  | some e => exact .inr rfl
  | none =>
    cases req.env.protector.bind Protector.refusal with
    | some e => exact .inr rfl
    | none =>
      cases req.env.protector.bind Protector.postRefusal with
      | some e => exact .inr rfl
      | none =>
        cases req.env.saveFails with
        | true => exact .inr rfl
        | false => exact .inl ⟨rfl, rfl⟩

/-- Whatever the client is asked, its database records the proposals that it signed. -/
theorem proposals_recorded (reqs : List ProposalRequest) :
    Proposed (Proposer.fresh.run reqs).db (Proposer.fresh.run reqs).signed := by
  refine invariant_of_step (I := fun c : Proposer => Proposed c.db c.signed) (fun c req h => ?_)
    proposed_empty reqs
  rcases c.step_cases req with ⟨-, heq⟩ | heq <;> rw [heq]
  exacts [h.save req.block, h]

/-- The database tracks the blocks that were signed, and they are safe. -/
def Proposer.Sound (c : Proposer) : Prop := Proposed c.db c.signed ∧ NoDoubleProposal c.signed

theorem Proposer.fresh_sound : Proposer.fresh.Sound :=
  ⟨proposed_empty, by simp [NoDoubleProposal, fresh]⟩

theorem Proposer.step_sound {c : Proposer} (h : c.Sound) {req : ProposalRequest}
    (htimely : Timely c req) : (c.step req).Sound := by
  rcases c.step_cases req with ⟨hpass, heq⟩ | heq
  · rw [heq]
    exact ⟨h.1.save req.block, h.2.append fun a ha hk hslot =>
      h.1.same_root h.2 htimely hpass ha hk hslot⟩
  · rw [heq]
    exact h

/-- If no request goes the weak subjectivity period back behind a slot that was
signed with its key, other than to the lowest slot or below it, then no two blocks
of one key that passed both steps have the same slot and different roots. -/
theorem signed_blocks_not_slashable (reqs : List ProposalRequest)
    (hreqs : Admits Proposer.step Timely .fresh reqs) (a b : SignedBlock)
    (ha : a ∈ (Proposer.fresh.run reqs).signed) (hb : b ∈ (Proposer.fresh.run reqs).signed)
    (hk : a.pubKey = b.pubKey) (hslot : a.slot = b.slot) : a.signingRoot = b.signingRoot := by
  have hsound : (Proposer.fresh.run reqs).Sound :=
    Run.invariant (I := Proposer.Sound) (fun _ _ hc hok => Proposer.step_sound hc hok)
      Proposer.fresh_sound hreqs
  exact hsound.2 a ha b hb hk hslot

/-- A request that nothing gets in the way of. -/
def ProposalRequest.of (slot : Slot) (root : Root) : ProposalRequest :=
  ⟨⟨none, false⟩, ⟨7, slot, root⟩⟩

/-- The second block for slot 20 is refused, and so is one for slot 10, the
lowest one, after it was pruned. -/
def timelyProposals : List ProposalRequest :=
  [.of 10 1, .of 20 2, .of 20 3, .of 1728010 4, .of 10 5]

theorem signed_blocks_not_slashable_of_timelyProposals :
    (Proposer.fresh.run timelyProposals).signed = [⟨7, 10, 1⟩, ⟨7, 20, 2⟩, ⟨7, 1728010, 4⟩] ∧
      ∀ a ∈ (Proposer.fresh.run timelyProposals).signed,
        ∀ b ∈ (Proposer.fresh.run timelyProposals).signed,
          a.pubKey = b.pubKey → a.slot = b.slot → a.signingRoot = b.signingRoot :=
  ⟨by decide +kernel, fun a ha b hb =>
    signed_blocks_not_slashable timelyProposals (by decide +kernel) a b ha hb⟩

/-- The block for slot 1728020 prunes the one for slot 20. -/
def lateProposals : List ProposalRequest :=
  [.of 10 1, .of 20 2, .of 1728020 3, .of 20 4]

/-- Two blocks for slot 20 are signed. -/
theorem late_proposal_is_double :
    (⟨7, 20, 2⟩ : SignedBlock) ∈ (Proposer.fresh.run lateProposals).signed ∧
      (⟨7, 20, 4⟩ : SignedBlock) ∈ (Proposer.fresh.run lateProposals).signed := by
  decide +kernel

end Vanguard.Validator
