import Vanguard.Beacon.SignatureSets
import Vanguard.Lib.Search

/-!
Slashings and exits of different validators.

A slashing or an exit changes the record of one validator. For another validator it changes
nothing that its own slashing or exit depends on, so an operation that is valid on a state is
still valid after operations on other validators.
-/

namespace Vanguard.Beacon

open Fallible List Except

variable {κ σ : Type} {c : Crypto κ σ} {fuel : ℕ} {s t u : BeaconState} {idx : ValidatorIndex}

/-- The second state comes from the first by operations on the validators in `D`. -/
structure Touched (D : Set ℕ) (s t : BeaconState) : Prop where
  duties : SameDuties s t
  length : t.validators.length = s.validators.length
  others : ∀ i ∉ D, t.validators[i]? = s.validators[i]?
  balances : t.balances.length = s.balances.length
  slashings : t.slashings.length = s.slashings.length

section Touched

variable {D D' : Set ℕ}

theorem Touched.refl (D : Set ℕ) (s : BeaconState) : Touched D s s :=
  ⟨SameDuties.refl s, rfl, fun _ _ => rfl, rfl, rfl⟩

theorem Touched.trans (h : Touched D s t) (h' : Touched D t u) : Touched D s u where
  duties := h.duties.trans h'.duties
  length := h'.length.trans h.length
  others i hi := (h'.others i hi).trans (h.others i hi)
  balances := h'.balances.trans h.balances
  slashings := h'.slashings.trans h.slashings

theorem Touched.mono (h : Touched D s t) (hsub : D ⊆ D') : Touched D' s t :=
  { h with others := fun i hi => h.others i fun hD => hi (hsub hD) }

theorem Touched.trans_empty (h : Touched D s t) (h' : Touched ∅ t u) : Touched D s u :=
  h.trans (h'.mono (Set.empty_subset D))

theorem Touched.of_eq (hduties : SameDuties s t) (hvalidators : t.validators = s.validators)
    (hbalances : t.balances.length = s.balances.length)
    (hslashings : t.slashings.length = s.slashings.length) : Touched ∅ s t :=
  ⟨hduties, by rw [hvalidators], fun _ _ => by rw [hvalidators], hbalances, hslashings⟩

theorem Touched.pubkeyAtIndex_eq (h : Touched D s t) (idx : ValidatorIndex) :
    pubkeyAtIndex t idx = pubkeyAtIndex s idx := by
  rcases Nat.lt_or_ge idx.toNat s.validators.length with hlt | hge
  · exact h.duties.pubkeyAtIndex_eq hlt
  · have hge' : t.validators.length ≤ idx.toNat := h.length.symm ▸ hge
    simp only [pubkeyAtIndex, getElem?_eq_none hge, getElem?_eq_none hge']

end Touched

/-! ### Exits -/

theorem SameDuties.countActiveValidators_eq (h : SameDuties s t) {hash : Bytes → Root} :
    countActiveValidators hash t (currentEpoch t) =
      countActiveValidators hash s (currentEpoch s) := by
  have hn := nearby_currentEpoch s
  have hcount : activeValidatorCount t (currentEpoch s) =
      activeValidatorCount s (currentEpoch s) := by
    rw [activeValidatorCount, activeValidatorCount, ← length_activeIndices, ← length_activeIndices,
      h.activeIndices_eq (Nat.le_add_right _ 4)]
  rw [countActiveValidators, countActiveValidators, h.currentEpoch_eq, h.seed_eq hn,
    h.updateCommitteeCache_eq hn le_rfl, hcount]

/-- What an exit of a validator needs. -/
def CanExit (c : Crypto κ σ) (s : BeaconState) (idx : ValidatorIndex) : Prop :=
  ∃ v, s.validators[idx.toNat]? = some v ∧
    (v.exitEpoch = farFutureEpoch → ∃ n, countActiveValidators c.hash s (currentEpoch s) = .ok n)

theorem touched_set {v w : Validator} (hv : s.validators[idx.toNat]? = some v)
    (hduty : SameDuty (currentEpoch s) v w) :
    Touched {idx.toNat} s { s with validators := s.validators.set idx.toNat w } where
  duties := SameDuties.withValidators (SameRegistry.set hv hduty)
  length := length_set ..
  others _ hi := getElem?_set_ne fun heq => hi heq.symm
  balances := rfl
  slashings := rfl

theorem initiateExit_ok (h : CanExit c s idx) :
    ∃ t, initiateExit c s idx = .ok t ∧ Touched {idx.toNat} s t := by
  obtain ⟨v, hv, hcount⟩ := h
  rw [initiateExit]
  rcases Classical.em (v.exitEpoch = farFutureEpoch) with hfar | hfar
  · obtain ⟨n, hn⟩ := hcount hfar
    have hexit : initiateValidatorExit n s idx = _ := initiateValidatorExit_eq hv
    rw [if_neg (not_not.mpr hfar)] at hexit
    refine ⟨_, bind_eq_ok.mpr ⟨v, atIndex_eq_ok.mpr hv, ?_⟩,
      touched_set hv (sameDuty_exiting hfar n s)⟩
    rw [if_neg (not_not.mpr hfar)]
    exact bind_eq_ok.mpr ⟨n, errorsWrap_eq_ok.mpr hn, hexit⟩
  · refine ⟨s, bind_eq_ok.mpr ⟨v, atIndex_eq_ok.mpr hv, ?_⟩, Touched.refl _ s⟩
    rw [if_pos hfar]
    rfl

theorem canExit_of_initiateExit (h : initiateExit c s idx = .ok t) :
    CanExit c s idx ∧ Touched {idx.toNat} s t := by
  have hcan : CanExit c s idx := by
    rw [initiateExit] at h
    obtain ⟨v, hv, h⟩ := bind_eq_ok.mp h
    refine ⟨v, atIndex_eq_ok.mp hv, fun hfar => ?_⟩
    rw [if_neg (not_not.mpr hfar)] at h
    obtain ⟨n, hn, -⟩ := bind_eq_ok.mp h
    exact ⟨n, errorsWrap_eq_ok.mp hn⟩
  obtain ⟨t', ht', htouched⟩ := initiateExit_ok hcan
  obtain rfl : t' = t := ok.inj (ht'.symm.trans h)
  exact ⟨hcan, htouched⟩

theorem Touched.canExit_iff {D : Set ℕ} (h : Touched D s t) (hidx : idx.toNat ∉ D) :
    CanExit c t idx ↔ CanExit c s idx := by
  rw [CanExit, CanExit, h.others _ hidx, h.duties.countActiveValidators_eq]

/-! ### Slashings -/

section

variable (hidx : idx.toNat < s.balances.length)

include hidx

theorem updateBalancesAtIndex_ok (val : Gwei) :
    ∃ t, updateBalancesAtIndex s idx val = .ok t ∧ Touched ∅ s t :=
  ⟨_, if_neg (not_le.mpr hidx), .of_eq (.of_eq rfl rfl rfl rfl rfl rfl) rfl (length_set ..)
    rfl⟩

theorem increaseBalance_ok (delta : Gwei) :
    ∃ t, increaseBalance s idx delta = .ok t ∧ Touched ∅ s t := by
  obtain ⟨t, ht, htouched⟩ := updateBalancesAtIndex_ok hidx (s.balances[idx.toNat] + delta)
  refine ⟨t, bind_eq_ok.mpr ⟨s.balances[idx.toNat], ?_, ht⟩, htouched⟩
  rw [balanceAtIndex, getElem?_eq_getElem hidx]

theorem decreaseBalance_ok (delta : Gwei) :
    ∃ t, decreaseBalance s idx delta = .ok t ∧ Touched ∅ s t := by
  obtain ⟨t, ht, htouched⟩ := updateBalancesAtIndex_ok hidx
    (decreaseBalanceWithVal s.balances[idx.toNat] delta)
  refine ⟨t, bind_eq_ok.mpr ⟨s.balances[idx.toNat], ?_, ht⟩, htouched⟩
  rw [balanceAtIndex, getElem?_eq_getElem hidx]

end

theorem lt_of_balanceAtIndex {bal : Gwei} (h : balanceAtIndex s idx = .ok bal) :
    idx.toNat < s.balances.length := by
  rw [balanceAtIndex] at h
  split at h
  next hget => exact (List.getElem?_eq_some_iff.mp hget).1
  next => cases h

theorem lt_of_increaseBalance {delta : Gwei} (h : increaseBalance s idx delta = .ok t) :
    idx.toNat < s.balances.length := by
  obtain ⟨bal, hbal, -⟩ := bind_eq_ok.mp h
  exact lt_of_balanceAtIndex hbal

theorem lt_of_decreaseBalance {delta : Gwei} (h : decreaseBalance s idx delta = .ok t) :
    idx.toNat < s.balances.length := by
  obtain ⟨bal, hbal, -⟩ := bind_eq_ok.mp h
  exact lt_of_balanceAtIndex hbal

structure CanSlash (c : Crypto κ σ) (fuel : ℕ) (s : BeaconState) (idx : ValidatorIndex) : Prop where
  exit : CanExit c s idx
  slashings : (currentEpoch s % epochsPerSlashingsVector).toNat < s.slashings.length
  balance : idx.toNat < s.balances.length
  proposer : ∃ p, proposerIndex c.hash fuel s = .ok p ∧ p.toNat < s.balances.length

theorem Touched.canSlash_iff {D : Set ℕ} (h : Touched D s t) (hidx : idx.toNat ∉ D) :
    CanSlash c fuel t idx ↔ CanSlash c fuel s idx := by
  have hexit := h.canExit_iff (c := c) hidx
  have hepoch := h.duties.currentEpoch_eq
  have hproposer : proposerIndex c.hash fuel t = proposerIndex c.hash fuel s :=
    h.duties.proposerIndex_eq
  constructor
  · rintro ⟨h₁, h₂, h₃, h₄⟩
    rw [h.slashings, hepoch] at h₂
    rw [h.balances] at h₃
    rw [h.balances, hproposer] at h₄
    exact ⟨hexit.mp h₁, h₂, h₃, h₄⟩
  · rintro ⟨h₁, h₂, h₃, h₄⟩
    refine ⟨hexit.mpr h₁, ?_, ?_, ?_⟩
    · rwa [h.slashings, hepoch]
    · rwa [h.balances]
    · rwa [h.balances, hproposer]

theorem updateValidatorAtIndex_ok {v w : Validator} (hv : s.validators[idx.toNat]? = some v)
    (hduty : SameDuty (currentEpoch s) v w) :
    ∃ t, updateValidatorAtIndex s idx w = .ok t ∧ Touched {idx.toNat} s t ∧
      t.validators[idx.toNat]? = some w := by
  have hlt := (List.getElem?_eq_some_iff.mp hv).1
  exact ⟨_, if_neg (not_le.mpr hlt), touched_set hv hduty, getElem?_set_self hlt⟩

theorem updateSlashingsAtIndex_ok {i : BitVec 64} (hi : i.toNat < s.slashings.length)
    (val : Gwei) :
    ∃ t, updateSlashingsAtIndex s i val = .ok t ∧ Touched ∅ s t ∧ t.validators = s.validators :=
  ⟨_, if_neg (not_le.mpr hi), .of_eq (.of_eq rfl rfl rfl rfl rfl rfl) rfl rfl
    (length_set ..), rfl⟩

theorem slashValidator_ok (h : CanSlash c fuel s idx) :
    ∃ t, slashValidator c fuel s idx = .ok t ∧ Touched {idx.toNat} s t ∧
      ∃ w, t.validators[idx.toNat]? = some w ∧ w.slashed = true := by
  obtain ⟨v₀, hv₀, -⟩ := h.exit
  obtain ⟨p, hp, hpbal⟩ := h.proposer
  obtain ⟨s₁, h₁, t₁⟩ := initiateExit_ok h.exit
  have hlt : idx.toNat < s₁.validators.length := by
    rw [t₁.length]
    exact (List.getElem?_eq_some_iff.mp hv₀).1
  obtain ⟨v, hv⟩ : ∃ v, s₁.validators[idx.toNat]? = some v := ⟨_, getElem?_eq_getElem hlt⟩
  obtain ⟨s₂, h₂, t₂, hv₂⟩ := updateValidatorAtIndex_ok hv
    (show SameDuty _ v (v.slashedIn (currentEpoch s₁)) from ⟨rfl, rfl, fun _ _ => rfl⟩)
  have hepoch := t₁.duties.currentEpoch_eq
  have hsl : (currentEpoch s₁ % epochsPerSlashingsVector).toNat < s₂.slashings.length := by
    rw [hepoch, t₂.slashings, t₁.slashings]
    exact h.slashings
  obtain ⟨s₃, h₃, t₃, hv₃⟩ := updateSlashingsAtIndex_ok hsl
    (s₂.slashings[(currentEpoch s₁ % epochsPerSlashingsVector).toNat] + v.effectiveBalance)
  have t₁₃ := (t₁.trans t₂).trans_empty t₃
  have hbal : idx.toNat < s₃.balances.length := t₁₃.balances.symm ▸ h.balance
  obtain ⟨s₄, h₄, t₄⟩ := decreaseBalance_ok hbal (v.effectiveBalance / minSlashingPenaltyQuotient)
  have t₁₄ := t₁₃.trans_empty t₄
  obtain ⟨s₅, h₅, t₅⟩ := increaseBalance_ok (show p.toNat < s₄.balances.length from
    t₁₄.balances.symm ▸ hpbal) (v.effectiveBalance / whistleBlowerRewardQuotient /
      proposerRewardQuotient)
  have t₁₅ := t₁₄.trans_empty t₅
  obtain ⟨s₆, h₆, t₆⟩ := increaseBalance_ok (show p.toNat < s₅.balances.length from
    t₁₅.balances.symm ▸ hpbal) (v.effectiveBalance / whistleBlowerRewardQuotient -
      v.effectiveBalance / whistleBlowerRewardQuotient / proposerRewardQuotient)
  refine ⟨s₆, ?_, t₁₅.trans_empty t₆, v.slashedIn (currentEpoch s₁), ?_, rfl⟩
  · simp only [slashValidator, bind_eq_ok, errorsWrap_eq_ok, atIndex_eq_ok]
    refine ⟨s₁, h₁, v, hv, s₂, h₂, _, ?_, s₃, h₃, s₄, h₄, p, ?_, s₅, h₅, h₆⟩
    · rw [sliceAt, getElem?_eq_getElem hsl]
    · rw [t₁₄.duties.proposerIndex_eq, hp]
  · rw [t₆.others _ (Set.notMem_empty _), t₅.others _ (Set.notMem_empty _),
      t₄.others _ (Set.notMem_empty _), t₃.others _ (Set.notMem_empty _), hv₂]

theorem canSlash_of_slashValidator (h : slashValidator c fuel s idx = .ok t) :
    CanSlash c fuel s idx := by
  simp only [slashValidator, bind_eq_ok, errorsWrap_eq_ok, atIndex_eq_ok] at h
  obtain ⟨s₁, h₁, v, hv, s₂, h₂, slashing, hsl, s₃, h₃, s₄, h₄, p, hp, s₅, h₅, -⟩ := h
  obtain ⟨hexit, t₁⟩ := canExit_of_initiateExit h₁
  obtain ⟨s₂', h₂', t₂, -⟩ := updateValidatorAtIndex_ok hv
    (show SameDuty _ v (v.slashedIn (currentEpoch s₁)) from ⟨rfl, rfl, fun _ _ => rfl⟩)
  obtain rfl : s₂' = s₂ := ok.inj (h₂'.symm.trans h₂)
  have hlen : (currentEpoch s₁ % epochsPerSlashingsVector).toNat < s₂'.slashings.length := by
    rw [sliceAt] at hsl
    split at hsl
    next hget => exact (List.getElem?_eq_some_iff.mp hget).1
    next => cases hsl
  obtain ⟨s₃', h₃', t₃, -⟩ := updateSlashingsAtIndex_ok hlen (slashing + v.effectiveBalance)
  obtain rfl : s₃' = s₃ := ok.inj (h₃'.symm.trans h₃)
  have t₁₃ := (t₁.trans t₂).trans_empty t₃
  have hbal := lt_of_decreaseBalance h₄
  obtain ⟨s₄', h₄', t₄⟩ := decreaseBalance_ok hbal (v.effectiveBalance / minSlashingPenaltyQuotient)
  obtain rfl : s₄' = s₄ := ok.inj (h₄'.symm.trans h₄)
  have t₁₄ := t₁₃.trans_empty t₄
  refine ⟨hexit, ?_, t₁₃.balances ▸ hbal, p, ?_, t₁₄.balances ▸ lt_of_increaseBalance h₅⟩
  · rwa [t₁.duties.currentEpoch_eq, t₂.slashings, t₁.slashings] at hlen
  · rw [← t₁₄.duties.proposerIndex_eq, hp]

/-! ### Operations on other validators -/

/-- The second state comes from the first by slashing the validators in `D`. -/
structure Slashed (D : Set ℕ) (s t : BeaconState) : Prop extends Touched D s t where
  slashed : ∀ i ∈ D, ∃ w, t.validators[i]? = some w ∧ w.slashed = true

section Operations

variable {D : Set ℕ} {slashing : ProposerSlashing} {k : ℕ} {l : List ValidatorIndex}

theorem Slashed.refl (s : BeaconState) : Slashed ∅ s s :=
  ⟨Touched.refl ∅ s, fun _ hi => hi.elim⟩

theorem Touched.atIndex_eq (h : Touched D s t) (hidx : idx.toNat ∉ D) :
    atIndex t.validators idx = atIndex s.validators idx := by
  rw [atIndex, atIndex, h.others _ hidx]

theorem Touched.add (h : Touched D s t) (h' : Touched {idx.toNat} t u) :
    Touched (insert idx.toNat D) s u :=
  (h.mono (Set.subset_insert _ D)).trans
    (h'.mono (Set.singleton_subset_iff.mpr (Set.mem_insert _ D)))

theorem Slashed.add (h : Slashed D s t) (h' : Touched {idx.toNat} t u)
    (hslashed : ∃ w, u.validators[idx.toNat]? = some w ∧ w.slashed = true) :
    Slashed (insert idx.toNat D) s u := by
  refine ⟨h.toTouched.add h', fun i hi => ?_⟩
  rcases eq_or_ne i idx.toNat with rfl | hne
  · exact hslashed
  · rw [h'.others i hne]
    exact h.slashed i (Set.mem_of_mem_insert_of_ne hi hne)

theorem Touched.verifyProposerSlashing_eq (h : Touched D s t)
    (hidx : slashing.header1.header.proposerIndex.toNat ∉ D) :
    verifyProposerSlashing c t slashing = verifyProposerSlashing c s slashing := by
  simp only [verifyProposerSlashing, h.atIndex_eq hidx, h.duties.domain_eq,
    h.duties.currentEpoch_eq]

theorem Slashed.processProposerSlashing (h : Slashed D s t)
    (hvalid : Beacon.processProposerSlashing c fuel s slashing k = .ok u)
    (hidx : slashing.header1.header.proposerIndex.toNat ∉ D) (k' : ℕ) :
    ∃ t', Beacon.processProposerSlashing c fuel t slashing k' = .ok t' ∧
      Slashed (insert slashing.header1.header.proposerIndex.toNat D) s t' := by
  obtain ⟨⟨⟩, hverify, hslash⟩ := bind_eq_ok.mp hvalid
  have hcan := canSlash_of_slashValidator (errorsWrap_eq_ok.mp hslash)
  obtain ⟨t', ht', htouched, hslashed⟩ := slashValidator_ok ((h.canSlash_iff hidx).mpr hcan)
  refine ⟨t', bind_eq_ok.mpr ⟨(), ?_, errorsWrap_eq_ok.mpr ht'⟩, h.add htouched hslashed⟩
  rw [errorsWrap_eq_ok, h.verifyProposerSlashing_eq hidx]
  exact errorsWrap_eq_ok.mp hverify

theorem Touched.verifyAttesterSlashing_eq (h : Touched D s t) (slashing : AttesterSlashing) :
    verifyAttesterSlashing c t slashing = verifyAttesterSlashing c s slashing := by
  have hkeys : pubkeyAtIndex t = pubkeyAtIndex s := funext h.pubkeyAtIndex_eq
  simp only [verifyAttesterSlashing, verifyIndexedAttestation, hkeys, h.duties.domain_eq]

/-- A validator is known, and can be slashed if it is slashable. -/
def CanAttest (c : Crypto κ σ) (fuel : ℕ) (s : BeaconState) (idx : ValidatorIndex) : Prop :=
  ∃ v, s.validators[idx.toNat]? = some v ∧
    (isSlashableValidator v (currentEpoch s) = true → CanSlash c fuel s idx)

theorem Touched.canAttest (h : Touched D s t) (hnodup : l.Nodup)
    (hl : ∀ i ∈ l, i.toNat ∉ D) {b : Bool} {acc : BeaconState × Bool}
    (hrun : l.foldlM (slashAttester c fuel) (t, b) = .ok acc) : ∀ i ∈ l, CanAttest c fuel s i := by
  induction l generalizing D t b with
  | nil => exact fun _ hi => (not_mem_nil hi).elim
  | cons i l ih =>
    rw [foldlM_cons] at hrun
    obtain ⟨⟨t', b'⟩, hstep, hrun⟩ := bind_eq_ok.mp hrun
    obtain ⟨v, hv, hstep⟩ := bind_eq_ok.mp hstep
    have hi := hl i mem_cons_self
    rw [h.atIndex_eq hi, atIndex_eq_ok] at hv
    obtain ⟨hnotMem, hnodup⟩ := nodup_cons.mp hnodup
    have hfirst : CanAttest c fuel s i ∧ Touched (insert i.toNat D) s t' := by
      split at hstep
      next hslashable =>
        obtain ⟨t₁, ht₁, hstep⟩ := bind_eq_ok.mp hstep
        obtain rfl : t₁ = t' := congrArg Prod.fst (ok.inj hstep)
        have hcan := canSlash_of_slashValidator (errorsWrap_eq_ok.mp ht₁)
        obtain ⟨t₂, ht₂, htouched, -⟩ := slashValidator_ok hcan
        obtain rfl : t₂ = t₁ := ok.inj (ht₂.symm.trans (errorsWrap_eq_ok.mp ht₁))
        exact ⟨⟨v, hv, fun _ => (h.canSlash_iff hi).mp hcan⟩, h.add htouched⟩
      next hnot =>
        obtain rfl : t = t' := congrArg Prod.fst (ok.inj hstep)
        rw [h.duties.currentEpoch_eq] at hnot
        exact ⟨⟨v, hv, fun hs => (hnot hs).elim⟩, h.mono (Set.subset_insert _ D)⟩
    refine forall_mem_cons.mpr ⟨hfirst.1, ih hfirst.2 hnodup (fun j hj => ?_) hrun⟩
    rw [Set.mem_insert_iff, not_or]
    refine ⟨fun heq => hnotMem ?_, hl j (mem_cons_of_mem _ hj)⟩
    rwa [← BitVec.eq_of_toNat_eq heq]

def SlashableAt (s : BeaconState) (idx : ValidatorIndex) : Prop :=
  ∃ v, s.validators[idx.toNat]? = some v ∧ isSlashableValidator v (currentEpoch s) = true

theorem Slashed.slashAttester (h : Slashed D s t) (hcan : CanAttest c fuel s idx) (b : Bool) :
    ∃ t' b' D', Beacon.slashAttester c fuel (t, b) idx = .ok (t', b') ∧ Slashed D' s t' ∧
      D' ⊆ insert idx.toNat D ∧ (b = true → b' = true) ∧
      (idx.toNat ∉ D → SlashableAt s idx → b' = true) := by
  obtain ⟨v, hv, hcan⟩ := hcan
  rcases Classical.em (idx.toNat ∈ D) with hD | hD
  · obtain ⟨w, hw, hslashed⟩ := h.slashed _ hD
    refine ⟨t, b, D, bind_eq_ok.mpr ⟨w, atIndex_eq_ok.mpr hw, ?_⟩, h,
      Set.subset_insert _ D, id, fun hnot => (hnot hD).elim⟩
    rw [if_neg (by simp [isSlashableValidator, hslashed])]
    rfl
  have hat : atIndex t.validators idx = .ok v := by
    rw [h.atIndex_eq hD, atIndex_eq_ok, hv]
  rcases Classical.em (isSlashableValidator v (currentEpoch s) = true) with hs | hs
  · obtain ⟨t', ht', htouched, hslashed⟩ := slashValidator_ok ((h.canSlash_iff hD).mpr (hcan hs))
    refine ⟨t', true, _, bind_eq_ok.mpr ⟨v, hat, ?_⟩, h.add htouched hslashed, le_rfl,
      fun _ => rfl, fun _ _ => rfl⟩
    rw [h.duties.currentEpoch_eq, if_pos hs]
    exact bind_eq_ok.mpr ⟨t', errorsWrap_eq_ok.mpr ht', rfl⟩
  · refine ⟨t, b, D, bind_eq_ok.mpr ⟨v, hat, ?_⟩, h, Set.subset_insert _ D, id, ?_⟩
    · rw [h.duties.currentEpoch_eq, if_neg hs]
      rfl
    · rintro - ⟨w, hw, hslashable⟩
      obtain rfl : v = w := Option.some.inj (hv.symm.trans hw)
      exact (hs hslashable).elim

theorem Slashed.slashAttesters (h : Slashed D s t)
    (hl : ∀ i ∈ l, CanAttest c fuel s i) (b : Bool) :
    ∃ t' b' D', l.foldlM (Beacon.slashAttester c fuel) (t, b) = .ok (t', b') ∧ Slashed D' s t' ∧
      D' ⊆ D ∪ {i | ∃ idx ∈ l, idx.toNat = i} ∧ (b = true → b' = true) ∧
      ∀ i ∈ l, i.toNat ∉ D → SlashableAt s i → b' = true := by
  induction l generalizing D t b with
  | nil =>
    exact ⟨t, b, D, rfl, h, Set.subset_union_left, id, fun _ hi => (not_mem_nil hi).elim⟩
  | cons i l ih =>
    obtain ⟨hcan, hl⟩ := forall_mem_cons.mp hl
    obtain ⟨t₁, b₁, D₁, hstep, h₁, hsub₁, hb₁, hi₁⟩ := h.slashAttester hcan b
    obtain ⟨t', b', D', hrun, h', hsub', hb', hi'⟩ := ih h₁ hl b₁
    refine ⟨t', b', D', ?_, h', fun j hj => ?_, fun hb => hb' (hb₁ hb), ?_⟩
    · rw [foldlM_cons]
      exact bind_eq_ok.mpr ⟨_, hstep, hrun⟩
    · rcases hsub' hj with hj | ⟨idx, hidx, rfl⟩
      · rcases hsub₁ hj with rfl | hj
        · exact Or.inr ⟨i, mem_cons_self, rfl⟩
        · exact Or.inl hj
      · exact Or.inr ⟨idx, mem_cons_of_mem _ hidx, rfl⟩
    · intro j hj hD hslashable
      rcases Classical.em (j.toNat ∈ D₁) with hj₁ | hj₁
      · -- The step slashed `j`, so `j` is the first validator.
        rcases hsub₁ hj₁ with heq | hmem
        · obtain rfl := BitVec.eq_of_toNat_eq heq
          exact hb' (hi₁ hD hslashable)
        · exact (hD hmem).elim
      · rcases mem_cons.mp hj with rfl | hj
        · exact hb' (hi₁ hD hslashable)
        · exact hi' j hj hj₁ hslashable

theorem nodup_slashableAttesterIndices (slashing : AttesterSlashing) :
    (slashableAttesterIndices slashing).Nodup :=
  (perm_insertionSort _ _).nodup_iff.mpr (Search.nodup_eraseDups _)

/-- An attester slashing that is valid on a state is valid after slashings of others, if there is
a validator left that it slashes. -/
theorem Slashed.processAttesterSlashing (h : Slashed D s t) {slashing : AttesterSlashing}
    (hvalid : Beacon.processAttesterSlashing c fuel s slashing k = .ok u)
    (hidx : idx ∈ slashableAttesterIndices slashing) (hD : idx.toNat ∉ D)
    (hslashable : SlashableAt s idx) (k' : ℕ) :
    ∃ t' D', Beacon.processAttesterSlashing c fuel t slashing k' = .ok t' ∧ Slashed D' s t' ∧
      D' ⊆ D ∪ {i | ∃ idx ∈ slashableAttesterIndices slashing, idx.toNat = i} := by
  obtain ⟨⟨⟩, hverify, hrun⟩ := bind_eq_ok.mp hvalid
  obtain ⟨acc, hacc, -⟩ := bind_eq_ok.mp hrun
  have hcan := (Touched.refl ∅ s).canAttest (nodup_slashableAttesterIndices slashing)
    (fun i _ => Set.notMem_empty _) hacc
  obtain ⟨t', b', D', hrun', h', hsub, -, hb⟩ := h.slashAttesters hcan false
  refine ⟨t', D', bind_eq_ok.mpr ⟨(), ?_, bind_eq_ok.mpr ⟨_, hrun', ?_⟩⟩, h', hsub⟩
  · rw [errorsWrap_eq_ok, h.verifyAttesterSlashing_eq]
    exact errorsWrap_eq_ok.mp hverify
  · rw [hb idx hidx hD hslashable]
    rfl

theorem Touched.processVoluntaryExit (h : Touched D s t) {signed : SignedVoluntaryExit}
    (hvalid : Beacon.processVoluntaryExit c s signed k = .ok u)
    (hidx : signed.exit.validatorIndex.toNat ∉ D) (k' : ℕ) :
    ∃ t', Beacon.processVoluntaryExit c t signed k' = .ok t' ∧
      Touched (insert signed.exit.validatorIndex.toNat D) s t' := by
  obtain ⟨v, hv, hrest⟩ := bind_eq_ok.mp hvalid
  obtain ⟨⟨⟩, hverify, hexit⟩ := bind_eq_ok.mp hrest
  obtain ⟨hcan, -⟩ := canExit_of_initiateExit hexit
  obtain ⟨t', ht', htouched⟩ := initiateExit_ok ((h.canExit_iff hidx).mpr hcan)
  refine ⟨t', bind_eq_ok.mpr ⟨v, (h.atIndex_eq hidx).trans hv,
    bind_eq_ok.mpr ⟨(), ?_, ht'⟩⟩, h.add htouched⟩
  rw [errorsWrap_eq_ok] at hverify ⊢
  rw [← hverify, verifyExitAndSignature, verifyExitAndSignature, h.duties.slot, h.duties.domain_eq]

end Operations

end Vanguard.Beacon
