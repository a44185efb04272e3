import Vanguard.Beacon.Blocks

/-!
What the operations of a block leave as it is.

Committees, proposers, public keys and domains depend on a part of the state only. An exit takes
effect after `MaxSeedLookahead` epochs, a new validator is not active yet, the mix that a block
changes is not used for a seed of this epoch or the ones next to it, and effective balances are
changed between epochs. So the operations of a block keep every duty of the current and the
previous epoch.
-/

namespace Vanguard.Beacon

open Shuffle Fallible List Option
open BitVec hiding not_not

/-! ### Registries -/

/-- Two validators have the same key, effective balance and activity up to the last epoch for
which `e` is too late to change it. -/
structure SameDuty (e : Epoch) (v w : Validator) : Prop where
  publicKey : w.publicKey = v.publicKey
  effectiveBalance : w.effectiveBalance = v.effectiveBalance
  active : ∀ epoch : Epoch, epoch.toNat ≤ e.toNat + 4 →
    isActiveValidator w epoch = isActiveValidator v epoch

/-- The validators of one registry keep their duties in the other one, and the validators that
it does not have are not active up to the same epoch. -/
structure SameRegistry (e : Epoch) (l m : List Validator) : Prop where
  old : ∀ (i : ℕ) (v : Validator), l[i]? = some v → ∃ w, m[i]? = some w ∧ SameDuty e v w
  new : ∀ (i : ℕ) (w : Validator), l.length ≤ i → m[i]? = some w →
    ∀ epoch : Epoch, epoch.toNat ≤ e.toNat + 4 → isActiveValidator w epoch = false

/-- The same validators are active up to that epoch. -/
structure SameActivity (e : Epoch) (l m : List Validator) : Prop where
  length_le : l.length ≤ m.length
  active : ∀ epoch : Epoch, epoch.toNat ≤ e.toNat + 4 → ∀ i : ℕ,
    m[i]?.any (isActiveValidator · epoch) = l[i]?.any (isActiveValidator · epoch)

section Registry

variable {e : Epoch} {l m n : List Validator} {v w : Validator}

theorem SameDuty.refl (e : Epoch) (v : Validator) : SameDuty e v v := ⟨rfl, rfl, fun _ _ => rfl⟩

theorem SameDuty.trans {u : Validator} (h₁ : SameDuty e u v) (h₂ : SameDuty e v w) :
    SameDuty e u w where
  publicKey := h₂.publicKey.trans h₁.publicKey
  effectiveBalance := h₂.effectiveBalance.trans h₁.effectiveBalance
  active epoch he := (h₂.active epoch he).trans (h₁.active epoch he)

theorem SameRegistry.refl (e : Epoch) (l : List Validator) : SameRegistry e l l where
  old _ v hv := ⟨v, hv, SameDuty.refl e v⟩
  new i w hi hw := by
    rw [List.getElem?_eq_none hi] at hw
    cases hw

theorem SameRegistry.trans (h₁ : SameRegistry e l m) (h₂ : SameRegistry e m n) :
    SameRegistry e l n where
  old i v hv := by
    obtain ⟨w, hw, hvw⟩ := h₁.old i v hv
    obtain ⟨u, hu, hwu⟩ := h₂.old i w hw
    exact ⟨u, hu, hvw.trans hwu⟩
  new i u hi hu epoch he := by
    rcases lt_or_ge i m.length with hlt | hge
    · obtain ⟨u', hu', hduty⟩ := h₂.old i _ (List.getElem?_eq_getElem hlt)
      obtain rfl : u' = u := some.inj (hu'.symm.trans hu)
      rw [hduty.active epoch he]
      exact h₁.new i _ hi (List.getElem?_eq_getElem hlt) epoch he
    · exact h₂.new i u hge hu epoch he

theorem SameRegistry.length_le (h : SameRegistry e l m) : l.length ≤ m.length := by
  by_contra hlt
  obtain ⟨w, hw, -⟩ := h.old m.length _ (List.getElem?_eq_getElem (not_le.mp hlt))
  rw [List.getElem?_eq_none le_rfl] at hw
  cases hw

theorem SameRegistry.set {i : ℕ} (hv : l[i]? = some v) (h : SameDuty e v w) :
    SameRegistry e l (l.set i w) where
  old k u hu := by
    rw [getElem?_set]
    split
    · next hik =>
      subst hik
      rw [if_pos (List.getElem?_eq_some_iff.mp hv).1]
      obtain rfl : v = u := some.inj (hv.symm.trans hu)
      exact ⟨w, rfl, h⟩
    · exact ⟨u, hu, SameDuty.refl e u⟩
  new k u hk hu := by
    rw [List.getElem?_eq_none (by rw [length_set]; exact hk)] at hu
    cases hu

theorem SameRegistry.append
    (h : ∀ epoch : Epoch, epoch.toNat ≤ e.toNat + 4 → isActiveValidator w epoch = false) :
    SameRegistry e l (l ++ [w]) where
  old i v hv := ⟨v, by rw [getElem?_append_left (List.getElem?_eq_some_iff.mp hv).1, hv],
    SameDuty.refl e v⟩
  new i u hi hu := by
    rw [getElem?_append_right hi, getElem?_singleton] at hu
    split at hu
    · cases hu
      exact h
    · cases hu

variable {epoch : Epoch}

theorem lt_of_mem_activeIndices {idx : ValidatorIndex} (h : idx ∈ activeIndices l epoch) :
    idx.toNat < l.length := by
  obtain ⟨i, hi, rfl⟩ := List.mem_map.mp h
  have hlt := mem_range.mp (mem_filter.mp hi).1
  rw [toNat_ofNat]
  exact lt_of_le_of_lt (Nat.mod_le i _) hlt

theorem SameRegistry.sameActivity (h : SameRegistry e l m) : SameActivity e l m where
  length_le := h.length_le
  active epoch he i := by
    rcases lt_or_ge i l.length with hi | hi
    · have hv := List.getElem?_eq_getElem hi
      obtain ⟨w, hw, hduty⟩ := h.old i _ hv
      rw [hv, hw, any_some, any_some, hduty.active epoch he]
    · rw [List.getElem?_eq_none hi, any_none]
      cases hw : m[i]? with
      | none => rfl
      | some w => exact h.new i w hi hw epoch he

theorem SameActivity.activeIndices_eq (h : SameActivity e l m) (he : epoch.toNat ≤ e.toNat + 4) :
    activeIndices m epoch = activeIndices l epoch := by
  have hlen : m.length = l.length + (m.length - l.length) := (Nat.add_sub_cancel' h.length_le).symm
  rw [activeIndices, activeIndices, hlen, range_add, filter_append]
  have hold : (range l.length).filter (fun i => m[i]?.any (isActiveValidator · epoch)) =
      (range l.length).filter fun i => l[i]?.any (isActiveValidator · epoch) :=
    filter_congr fun i _ => h.active epoch he i
  have hnew : ((range (m.length - l.length)).map (l.length + ·)).filter
      (fun i => m[i]?.any (isActiveValidator · epoch)) = [] := by
    refine filter_eq_nil_iff.mpr fun i hi => ?_
    obtain ⟨k, -, rfl⟩ := List.mem_map.mp hi
    rw [h.active epoch he, List.getElem?_eq_none (Nat.le_add_right _ _)]
    exact Bool.false_ne_true
  rw [hold, hnew, append_nil]

theorem SameRegistry.activeIndices_eq (h : SameRegistry e l m) (he : epoch.toNat ≤ e.toNat + 4) :
    activeIndices m epoch = activeIndices l epoch :=
  h.sameActivity.activeIndices_eq he

theorem length_activeIndices (l : List Validator) (epoch : Epoch) :
    (activeIndices l epoch).length = l.countP (isActiveValidator · epoch) := by
  rw [activeIndices, length_map]
  induction l with
  | nil => rfl
  | cons v l ih =>
    rw [length_cons, range_succ_eq_map, countP_cons, ← ih, filter_cons,
      List.filter_map, getElem?_cons_zero, any_some]
    have htail : ((range l.length).filter ((fun i =>
        (v :: l)[i]?.any (isActiveValidator · epoch)) ∘ Nat.succ)).map Nat.succ =
        ((range l.length).filter fun i => l[i]?.any (isActiveValidator · epoch)).map
          Nat.succ := by
      simp [Function.comp_def]
    rw [htail]
    split <;> simp

end Registry

/-! ### States -/

/-- The parts of a state that committees, proposers, public keys and domains depend on. -/
structure SameDuties (s t : BeaconState) : Prop where
  slot : t.slot = s.slot
  fork : t.fork = s.fork
  genesisValidatorsRoot : t.genesisValidatorsRoot = s.genesisValidatorsRoot
  stateRoots : t.stateRoots = s.stateRoots
  mixes : ∀ k : ℕ, k ≠ (currentEpoch s % epochsPerHistoricalVector).toNat →
    t.randaoMixes[k]? = s.randaoMixes[k]?
  registry : SameRegistry (currentEpoch s) s.validators t.validators

/-- The current epoch and the ones next to it. -/
def Nearby (s : BeaconState) (epoch : Epoch) : Prop :=
  epoch.toNat ≤ (currentEpoch s).toNat + 1 ∧ (currentEpoch s).toNat ≤ epoch.toNat + 1

variable {att : Attestation}

section States

variable {s t u : BeaconState} {epoch : Epoch}

theorem SameDuties.of_eq (hslot : t.slot = s.slot) (hfork : t.fork = s.fork)
    (hgenesis : t.genesisValidatorsRoot = s.genesisValidatorsRoot)
    (hroots : t.stateRoots = s.stateRoots) (hmixes : t.randaoMixes = s.randaoMixes)
    (hvalidators : t.validators = s.validators) : SameDuties s t :=
  ⟨hslot, hfork, hgenesis, hroots, fun _ _ => by rw [hmixes],
    hvalidators ▸ SameRegistry.refl _ _⟩

theorem SameDuties.refl (s : BeaconState) : SameDuties s s := .of_eq rfl rfl rfl rfl rfl rfl

theorem SameDuties.currentEpoch_eq (h : SameDuties s t) : currentEpoch t = currentEpoch s := by
  rw [currentEpoch, currentEpoch, h.slot]

theorem SameDuties.prevEpoch_eq (h : SameDuties s t) : prevEpoch t = prevEpoch s := by
  rw [prevEpoch, prevEpoch, h.currentEpoch_eq]

theorem SameDuties.trans (h₁ : SameDuties s t) (h₂ : SameDuties t u) : SameDuties s u where
  slot := h₂.slot.trans h₁.slot
  fork := h₂.fork.trans h₁.fork
  genesisValidatorsRoot := h₂.genesisValidatorsRoot.trans h₁.genesisValidatorsRoot
  stateRoots := h₂.stateRoots.trans h₁.stateRoots
  mixes k hk := (h₂.mixes k (h₁.currentEpoch_eq ▸ hk)).trans (h₁.mixes k hk)
  registry := h₁.registry.trans (h₁.currentEpoch_eq ▸ h₂.registry)

variable {l : List Validator} {indices committee : List ValidatorIndex} {idx : ValidatorIndex}
  {slot : Slot}

theorem SameDuties.withValidators (h : SameRegistry (currentEpoch s) s.validators l) :
    SameDuties s { s with validators := l } :=
  ⟨rfl, rfl, rfl, rfl, fun _ _ => rfl, h⟩

theorem nearby_currentEpoch (s : BeaconState) : Nearby s (currentEpoch s) :=
  ⟨Nat.le_succ _, Nat.le_succ _⟩

theorem nearby_prevEpoch (s : BeaconState) : Nearby s (prevEpoch s) := by
  have := toNat_prevEpoch s
  constructor <;> omega

theorem toNat_lookAhead (hlt : epoch.toNat < 2 ^ 60) :
    ((epoch + epochsPerHistoricalVector - minSeedLookahead - 1) %
      epochsPerHistoricalVector).toNat = (epoch.toNat + 65534) % 65536 := by
  have hsum : epoch + epochsPerHistoricalVector - minSeedLookahead - 1 = epoch + 65534#64 := by
    rw [epochsPerHistoricalVector, minSeedLookahead]
    bv_omega
  rw [hsum, toNat_umod, toNat_add_of_lt (by rw [toNat_ofNat]; omega)]
  rfl

theorem Nearby.le_add_four (h : Nearby s epoch) : epoch.toNat ≤ (currentEpoch s).toNat + 4 :=
  h.1.trans (Nat.add_le_add_left (by decide) _)

theorem Nearby.lookAhead_ne (h : Nearby s epoch) :
    ((epoch + epochsPerHistoricalVector - minSeedLookahead - 1) %
      epochsPerHistoricalVector).toNat ≠ (currentEpoch s % epochsPerHistoricalVector).toNat := by
  obtain ⟨hle, hge⟩ := h
  have hlt := currentEpoch_lt s
  rw [toNat_lookAhead (by omega), toNat_umod,
    show epochsPerHistoricalVector.toNat = 65536 from rfl]
  omega

variable {hash : Bytes → Root} {fuel : ℕ}

section

variable (h : SameDuties s t)

include h

theorem SameDuties.seed_eq (hn : Nearby s epoch) (domain : Bytes) :
    seed hash t epoch domain = seed hash s epoch domain := by
  rw [seed, seed, randaoMix, randaoMix, atIndex, atIndex, h.mixes _ hn.lookAhead_ne]

theorem SameDuties.activeIndices_eq
    (he : epoch.toNat ≤ (currentEpoch s).toNat + 4) :
    activeIndices t.validators epoch = activeIndices s.validators epoch :=
  h.registry.activeIndices_eq he

theorem SameDuties.shuffledIndices_eq (hn : Nearby s epoch) :
    shuffledIndices hash t epoch = shuffledIndices hash s epoch := by
  rw [shuffledIndices, shuffledIndices, h.seed_eq hn, h.activeIndices_eq hn.le_add_four]

theorem SameDuties.updateCommitteeCache_eq (hn : Nearby s epoch)
    (hle : epoch.toNat ≤ (currentEpoch s).toNat) :
    updateCommitteeCache hash t epoch = updateCommitteeCache hash s epoch := by
  have hsucc : (epoch + 1).toNat = epoch.toNat + 1 := by
    have hlt := currentEpoch_lt s
    rw [toNat_add, show (1 : Epoch).toNat = 1 from rfl]
    omega
  have hn' : Nearby s (epoch + 1) := by
    have := hn.2
    constructor <;> omega
  simp only [updateCommitteeCache, mapM_cons, mapM_nil, h.seed_eq hn, h.seed_eq hn',
    h.shuffledIndices_eq hn, h.shuffledIndices_eq hn']

theorem SameDuties.activeValidatorIndices_eq (hn : Nearby s epoch)
    (hle : epoch.toNat ≤ (currentEpoch s).toNat) :
    activeValidatorIndices hash t epoch = activeValidatorIndices hash s epoch := by
  rw [activeValidatorIndices, activeValidatorIndices, h.seed_eq hn,
    h.updateCommitteeCache_eq hn hle, h.activeIndices_eq hn.le_add_four]

theorem SameDuties.proposerIndicesKey_eq (prev : Epoch) :
    proposerIndicesKey t prev = proposerIndicesKey s prev := by
  have hroot : stateRootAtSlot t = stateRootAtSlot s := by
    funext slot
    rw [stateRootAtSlot, stateRootAtSlot, h.slot, h.stateRoots]
  rw [proposerIndicesKey, proposerIndicesKey, hroot]

end

/-! ### Proposers -/

variable {seed : Root}

theorem candidateAt_spec {i : BitVec 64}
    (h : candidateAt hash l indices seed i = .ok idx) : idx ∈ indices ∧ idx.toNat < l.length := by
  obtain ⟨k, -, hk⟩ := bind_eq_ok.mp h
  split at hk
  · cases hk
  · next idx' hidx =>
    obtain ⟨hlt, ⟨⟩⟩ := check_eq_ok.mp hk
    exact ⟨mem_of_getElem? hidx, not_le.mp hlt⟩

theorem searchProposer_congr {e : Epoch} {m : List Validator} (h : SameRegistry e l m)
    (hmem : ∀ idx ∈ indices, idx.toNat < l.length) (seed : Root) (fuel : ℕ) (i : BitVec 64) :
    searchProposer hash m indices seed fuel i = searchProposer hash l indices seed fuel i := by
  have hcand : ∀ i, candidateAt hash m indices seed i = candidateAt hash l indices seed i := by
    intro i
    rw [candidateAt, candidateAt]
    congr 1
    funext k
    split
    · rfl
    · next idx hidx =>
      have hlt := hmem idx (mem_of_getElem? hidx)
      have hle := h.length_le
      rw [if_neg (by omega), if_neg (by omega)]
  induction fuel generalizing i with
  | zero => rfl
  | succ fuel ih =>
    rw [searchProposer, searchProposer, hcand i]
    cases hc : candidateAt hash l indices seed i with
    | error e => rfl
    | ok idx =>
      have hv := List.getElem?_eq_getElem (candidateAt_spec hc).2
      obtain ⟨w, hw, hduty⟩ := h.old _ _ hv
      have hl : atIndex l idx = .ok _ := atIndex_eq_ok.mpr hv
      have hm : atIndex m idx = .ok w := atIndex_eq_ok.mpr hw
      simp only [bind, Except.bind, hl, hm, hduty.effectiveBalance, ih]

theorem activeValidatorIndices_eq_ok (h : activeValidatorIndices hash s epoch = .ok indices) :
    indices = activeIndices s.validators epoch := by
  simp only [activeValidatorIndices, bind_eq_ok] at h
  obtain ⟨-, -, -, -, ⟨⟩⟩ := h
  rfl

section

variable (h : SameDuties s t)

include h

theorem SameDuties.proposerOfSlot_eq (seed : Root) (slot : Slot) :
    proposerOfSlot hash fuel t.validators (activeIndices s.validators epoch) seed slot =
      proposerOfSlot hash fuel s.validators (activeIndices s.validators epoch) seed slot := by
  rw [proposerOfSlot, proposerOfSlot, computeProposerIndex, computeProposerIndex,
    searchProposer_congr h.registry fun idx hidx => lt_of_mem_activeIndices hidx]

theorem SameDuties.directProposerIndex_eq :
    directProposerIndex hash fuel t = directProposerIndex hash fuel s := by
  have hn := nearby_currentEpoch s
  rw [directProposerIndex, directProposerIndex, h.currentEpoch_eq, h.seed_eq hn,
    h.activeValidatorIndices_eq hn le_rfl, h.slot]
  refine bind_congr_ok fun _ _ => bind_congr_ok fun indices hi => ?_
  rw [activeValidatorIndices_eq_ok (errorsWrap_eq_ok.mp hi)]
  exact h.proposerOfSlot_eq _ _

theorem SameDuties.proposersOfEpoch_eq :
    proposersOfEpoch hash fuel t = proposersOfEpoch hash fuel s := by
  have hn := nearby_currentEpoch s
  rw [proposersOfEpoch, proposersOfEpoch, h.currentEpoch_eq, h.activeValidatorIndices_eq hn le_rfl]
  refine bind_congr_ok fun indices hi => ?_
  rw [activeValidatorIndices_eq_ok hi, precomputeProposerIndices, precomputeProposerIndices,
    h.currentEpoch_eq, h.seed_eq hn]
  refine bind_congr_ok fun _ _ => bind_congr_ok fun _ _ => ?_
  congr 1
  funext i
  exact h.proposerOfSlot_eq _ _

theorem SameDuties.beaconProposerIndex_eq (cache : ProposerIndicesCache) :
    beaconProposerIndex hash fuel cache t = beaconProposerIndex hash fuel cache s := by
  have hask : askProposerCache hash fuel cache t = askProposerCache hash fuel cache s := by
    rw [askProposerCache, askProposerCache, h.currentEpoch_eq, h.prevEpoch_eq,
      h.proposerIndicesKey_eq, updateProposerIndicesInCache, updateProposerIndicesInCache,
      h.currentEpoch_eq, h.proposerIndicesKey_eq, h.proposersOfEpoch_eq]
  rw [beaconProposerIndex, beaconProposerIndex, hask, h.slot, h.directProposerIndex_eq]

theorem SameDuties.proposerIndex_eq : proposerIndex hash fuel t = proposerIndex hash fuel s := by
  rw [proposerIndex, proposerIndex, h.beaconProposerIndex_eq]

end

theorem searchProposer_lt {i : BitVec 64}
    (h : searchProposer hash l indices seed fuel i = .ok idx) : idx.toNat < l.length := by
  induction fuel generalizing i with
  | zero => cases h
  | succ fuel ih =>
    rw [searchProposer] at h
    obtain ⟨k, hk, h⟩ := bind_eq_ok.mp h
    obtain ⟨v, -, h⟩ := bind_eq_ok.mp h
    split at h
    · cases h
      exact (candidateAt_spec hk).2
    · exact ih h

theorem directProposerIndex_of_proposerIndex (h : proposerIndex hash fuel s = .ok idx) :
    directProposerIndex hash fuel s = .ok idx := by
  have hnone : ∀ {o cache}, askProposerCache hash fuel [] s = .ok (o, cache) → o = none := by
    intro o cache hask
    rw [askProposerCache] at hask
    split at hask
    · obtain ⟨r, -, hask⟩ := bind_eq_ok.mp hask
      split at hask
      · cases hask
        rfl
      · obtain ⟨cache', -, hask⟩ := bind_eq_ok.mp hask
        cases hask
        rfl
    · cases hask
      rfl
  rw [proposerIndex, beaconProposerIndex] at h
  split at h
  · cases h
  · next hask => cases hnone hask
  · exact h

theorem proposerIndex_lt (h : proposerIndex hash fuel s = .ok idx) :
    idx.toNat < s.validators.length := by
  have hdirect := directProposerIndex_of_proposerIndex h
  simp only [directProposerIndex, proposerOfSlot, computeProposerIndex, bind_eq_ok,
    check_eq_ok] at hdirect
  obtain ⟨s', -, indices, -, -, hdirect⟩ := hdirect
  exact searchProposer_lt hdirect

/-! ### Keys and committees -/

theorem SameDuties.validator_eq (h : SameDuties s t) {v : Validator}
    (hv : atIndex s.validators idx = .ok v) :
    ∃ w, atIndex t.validators idx = .ok w ∧ w.publicKey = v.publicKey := by
  obtain ⟨w, hw, hduty⟩ := h.registry.old _ _ (atIndex_eq_ok.mp hv)
  exact ⟨w, atIndex_eq_ok.mpr hw, hduty.publicKey⟩

theorem SameDuties.pubkeyAtIndex_eq (h : SameDuties s t) (hlt : idx.toNat < s.validators.length) :
    pubkeyAtIndex t idx = pubkeyAtIndex s idx := by
  have hv := List.getElem?_eq_getElem hlt
  obtain ⟨w, hw, hduty⟩ := h.registry.old _ _ hv
  simp only [pubkeyAtIndex, hv, hw, hduty.publicKey]

variable {κ σ : Type} {c : Crypto κ σ}

theorem SameDuties.beaconCommitteeFromState_eq (h : SameDuties s t)
    (hn : Nearby s (slotToEpoch slot)) (hle : (slotToEpoch slot).toNat ≤ (currentEpoch s).toNat)
    (index : CommitteeIndex) :
    beaconCommitteeFromState c t slot index = beaconCommitteeFromState c s slot index := by
  rw [beaconCommitteeFromState, beaconCommitteeFromState, h.seed_eq hn,
    h.activeValidatorIndices_eq hn hle]

theorem SameDuties.indexedAttestation_eq (h : SameDuties s t)
    (hn : Nearby s (slotToEpoch att.data.slot))
    (hle : (slotToEpoch att.data.slot).toNat ≤ (currentEpoch s).toNat) :
    indexedAttestation c t att = indexedAttestation c s att := by
  rw [indexedAttestation, indexedAttestation, h.beaconCommitteeFromState_eq hn hle]

theorem unshuffleList_perm {input l : List ValidatorIndex}
    (h : unshuffleList hash shuffleRoundCount input seed = .ok l) : l.Perm input := by
  have hlen : input.length ≤ maxShuffleListSize := by
    rw [unshuffleList, innerShuffleList] at h
    split at h
    · next hle => exact hle.trans (by decide)
    · split at h
      · cases h
      · next hle => exact not_lt.mp hle
  obtain ⟨l', hl', hperm⟩ :=
    @innerShuffleList_perm hash seed input shuffleRoundCount (by decide) hlen false
  obtain rfl : l' = l := Except.ok.inj (hl'.symm.trans h)
  exact hperm

variable {index : CommitteeIndex}

theorem mem_of_beaconCommittee
    (h : beaconCommittee hash indices seed slot index = .ok committee) :
    ∀ idx ∈ committee, idx ∈ indices := by
  intro idx hidx
  simp only [beaconCommittee, computeCommittee, subslice, check_eq_ok, bind_eq_ok] at h
  obtain ⟨-, l, hl, -, ⟨⟩⟩ := h
  exact (unshuffleList_perm hl).mem_iff.mp (mem_of_mem_drop (mem_of_mem_take hidx))

theorem lt_of_mem_committee
    (h : beaconCommitteeFromState c s slot index = .ok committee) :
    ∀ idx ∈ committee, idx.toNat < s.validators.length := by
  intro idx hidx
  simp only [beaconCommitteeFromState, bind_eq_ok, errorsWrap_eq_ok] at h
  obtain ⟨s', -, active, ha, h⟩ := h
  have hactive := mem_of_beaconCommittee h idx hidx
  rw [activeValidatorIndices_eq_ok ha] at hactive
  exact lt_of_mem_activeIndices hactive

theorem mem_of_attestingIndices {bits : List Bool} {indices : List (BitVec 64)}
    (h : attestingIndices bits committee = .ok indices) : ∀ idx ∈ indices, idx ∈ committee := by
  intro idx hidx
  obtain ⟨-, ⟨⟩⟩ := check_eq_ok.mp h
  obtain ⟨p, hp, rfl⟩ := List.mem_map.mp hidx
  exact (of_mem_zip (mem_filter.mp hp).1).2

theorem attestingIndices_lt {ia : IndexedAttestation} (h : indexedAttestation c s att = .ok ia) :
    ∀ idx ∈ ia.attestingIndices, idx.toNat < s.validators.length := by
  intro idx hidx
  simp only [indexedAttestation, convertToIndexed, bind_eq_ok, map_eq_ok] at h
  obtain ⟨committee, hc, indices, hi, rfl⟩ := h
  have hmem := mem_of_attestingIndices hi idx ((mem_insertionSort _).mp hidx)
  exact lt_of_mem_committee hc idx hmem

end States

/-! ### Operations -/

section Operations

variable {κ σ : Type} {c : Crypto κ σ} {fuel : ℕ} {s t : BeaconState} {idx : ValidatorIndex}

theorem sameDuties_of_updateBalancesAtIndex {val : Gwei}
    (h : updateBalancesAtIndex s idx val = .ok t) : SameDuties s t := by
  obtain ⟨-, ⟨⟩⟩ := check_eq_ok.mp h
  exact .of_eq rfl rfl rfl rfl rfl rfl

theorem sameDuties_of_increaseBalance {delta : Gwei} (h : increaseBalance s idx delta = .ok t) :
    SameDuties s t := by
  obtain ⟨bal, -, h⟩ := bind_eq_ok.mp h
  exact sameDuties_of_updateBalancesAtIndex h

theorem sameDuties_of_decreaseBalance {delta : Gwei} (h : decreaseBalance s idx delta = .ok t) :
    SameDuties s t := by
  obtain ⟨bal, -, h⟩ := bind_eq_ok.mp h
  exact sameDuties_of_updateBalancesAtIndex h

theorem sameDuties_of_updateSlashingsAtIndex {val : Gwei}
    (h : updateSlashingsAtIndex s idx val = .ok t) : SameDuties s t := by
  obtain ⟨-, ⟨⟩⟩ := check_eq_ok.mp h
  exact .of_eq rfl rfl rfl rfl rfl rfl

theorem sameDuties_of_updateValidatorAtIndex {v w : Validator}
    (hv : atIndex s.validators idx = .ok v) (hduty : SameDuty (currentEpoch s) v w)
    (h : updateValidatorAtIndex s idx w = .ok t) : SameDuties s t := by
  obtain ⟨-, ⟨⟩⟩ := check_eq_ok.mp h
  exact SameDuties.withValidators (SameRegistry.set (atIndex_eq_ok.mp hv) hduty)

theorem sameDuty_exiting {v : Validator} (hfar : v.exitEpoch = farFutureEpoch)
    (activeCount : BitVec 64) (s : BeaconState) :
    SameDuty (currentEpoch s) v (v.exiting (nextExitEpoch activeCount s)) := by
  refine ⟨rfl, rfl, fun epoch he => ?_⟩
  have hexit := le_def.mp (exitQueueEpoch_le_nextExitEpoch activeCount s)
  have hqueue := le_exitQueueEpoch s
  have hlt := currentEpoch_lt s
  have hfar' : farFutureEpoch.toNat = 2 ^ 64 - 1 := rfl
  have hnew : epoch < nextExitEpoch activeCount s := lt_def.mpr (by omega)
  have hold : epoch < v.exitEpoch := by
    rw [hfar, lt_def]
    omega
  simp only [isActiveValidator, Validator.exiting, hnew, hold]

theorem sameDuties_of_initiateExit (h : initiateExit c s idx = .ok t) : SameDuties s t := by
  rw [initiateExit] at h
  obtain ⟨v, hv, h⟩ := bind_eq_ok.mp h
  split at h
  · cases h
    exact SameDuties.refl s
  · next hfar =>
    rw [not_not] at hfar
    obtain ⟨activeCount, -, h⟩ := bind_eq_ok.mp h
    rw [initiateValidatorExit] at h
    obtain ⟨v', hv', h⟩ := bind_eq_ok.mp h
    obtain rfl : v = v' := Except.ok.inj (hv.symm.trans hv')
    rw [if_neg (not_not.mpr hfar)] at h
    exact sameDuties_of_updateValidatorAtIndex hv (sameDuty_exiting hfar activeCount s) h

theorem sameDuties_of_slashValidator (h : slashValidator c fuel s idx = .ok t) :
    SameDuties s t := by
  rw [slashValidator] at h
  simp only [bind_eq_ok] at h
  obtain ⟨s₁, h₁, v, hv, s₂, h₂, slashing, -, s₃, h₃, s₄, h₄, proposer, -, s₅, h₅, h⟩ := h
  have hslashed : SameDuty (currentEpoch s₁) v (v.slashedIn (currentEpoch s₁)) :=
    ⟨rfl, rfl, fun _ _ => rfl⟩
  exact (sameDuties_of_initiateExit (errorsWrap_eq_ok.mp h₁)).trans
    ((sameDuties_of_updateValidatorAtIndex hv hslashed h₂).trans
    ((sameDuties_of_updateSlashingsAtIndex h₃).trans
    ((sameDuties_of_decreaseBalance h₄).trans
    ((sameDuties_of_increaseBalance h₅).trans (sameDuties_of_increaseBalance h)))))

theorem sameDuties_of_processBlockHeaderNoVerify {slot : Slot} {parentRoot bodyRoot : Root}
    (h : processBlockHeaderNoVerify c fuel s slot idx parentRoot bodyRoot = .ok t) :
    SameDuties s t ∧ proposerIndex c.hash fuel s = .ok idx := by
  simp only [processBlockHeaderNoVerify, check_eq_ok, bind_eq_ok, not_not] at h
  obtain ⟨-, idx', hidx, rfl, -, -, v, -, -, ⟨⟩⟩ := h
  exact ⟨.of_eq rfl rfl rfl rfl rfl rfl, hidx⟩

theorem sameDuties_of_processRandaoNoVerify {reveal : Bytes}
    (h : processRandaoNoVerify c s reveal = .ok t) : SameDuties s t := by
  simp only [processRandaoNoVerify, updateRandaoMixesAtIndex, bind_eq_ok, check_eq_ok] at h
  obtain ⟨mix, -, -, ⟨⟩⟩ := h
  refine ⟨rfl, rfl, rfl, rfl, fun k hk => ?_, SameRegistry.refl _ _⟩
  exact getElem?_set_ne hk.symm

theorem sameDuties_processEth1DataInBlock (s : BeaconState) (eth1Data : Eth1Data) :
    SameDuties s (processEth1DataInBlock s eth1Data) := by
  rw [processEth1DataInBlock]
  split <;> exact .of_eq rfl rfl rfl rfl rfl rfl

theorem sameDuties_of_processProposerSlashings {slashings : List ProposerSlashing}
    (h : processProposerSlashings c fuel s slashings = .ok t) : SameDuties s t := by
  refine foldlM_rel SameDuties.refl SameDuties.trans (fun {s p t} hstep => ?_) h
  obtain ⟨-, -, hstep⟩ := bind_eq_ok.mp hstep
  exact sameDuties_of_slashValidator (errorsWrap_eq_ok.mp hstep)

theorem sameDuties_of_slashAttester {acc acc' : BeaconState × Bool}
    (h : slashAttester c fuel acc idx = .ok acc') : SameDuties acc.1 acc'.1 := by
  rw [slashAttester] at h
  obtain ⟨v, -, h⟩ := bind_eq_ok.mp h
  split at h
  · obtain ⟨s', hs', h⟩ := bind_eq_ok.mp h
    cases h
    exact sameDuties_of_slashValidator (errorsWrap_eq_ok.mp hs')
  · cases h
    exact SameDuties.refl _

theorem sameDuties_of_processAttesterSlashings {slashings : List AttesterSlashing}
    (h : processAttesterSlashings c fuel s slashings = .ok t) : SameDuties s t := by
  refine foldlM_rel SameDuties.refl SameDuties.trans (fun {s p t} hstep => ?_) h
  simp only [processAttesterSlashing, bind_eq_ok] at hstep
  obtain ⟨-, -, acc, hacc, hstep⟩ := hstep
  have hduties : SameDuties s acc.1 := @foldlM_rel _ _ _ _ _
    (fun acc acc' : BeaconState × Bool => SameDuties acc.1 acc'.1) (fun _ => SameDuties.refl _)
    (fun h₁ h₂ => h₁.trans h₂) (fun h => sameDuties_of_slashAttester h) _ _ hacc
  split at hstep
  · cases hstep
    exact hduties
  · cases hstep

theorem sameDuties_of_processAttestationNoVerifySignature
    (h : processAttestationNoVerifySignature c fuel s att = .ok t) : SameDuties s t := by
  simp only [processAttestationNoVerifySignature, bind_eq_ok] at h
  obtain ⟨-, -, proposer, -, h⟩ := h
  split at h
  · obtain ⟨-, ⟨⟩⟩ := check_eq_ok.mp h
    exact .of_eq rfl rfl rfl rfl rfl rfl
  · obtain ⟨-, ⟨⟩⟩ := check_eq_ok.mp h
    exact .of_eq rfl rfl rfl rfl rfl rfl

theorem isActiveValidator_ofDeposit (data : DepositData) {e epoch : Epoch}
    (he : e.toNat < 2 ^ 59) (h : epoch.toNat ≤ e.toNat + 4) :
    isActiveValidator (Validator.ofDeposit data) epoch = false := by
  have hfar : farFutureEpoch.toNat = 2 ^ 64 - 1 := rfl
  refine decide_eq_false fun hact => ?_
  have hle : farFutureEpoch ≤ epoch := hact.1
  have := le_def.mp hle
  omega

theorem sameDuties_of_processDeposit {deposit : Deposit} {verify : Bool}
    (h : processDeposit c s deposit verify = .ok t) : SameDuties s t := by
  rw [processDeposit] at h
  obtain ⟨-, -, h⟩ := bind_eq_ok.mp h
  refine SameDuties.trans (t := { s with eth1DepositIndex := s.eth1DepositIndex + 1 })
    (.of_eq rfl rfl rfl rfl rfl rfl) ?_
  generalize ({ s with eth1DepositIndex := s.eth1DepositIndex + 1 } : BeaconState) = s' at h ⊢
  rw [applyDeposit] at h
  split at h
  · exact sameDuties_of_increaseBalance h
  · split at h
    · cases h
      exact SameDuties.refl _
    · cases h
      exact ⟨rfl, rfl, rfl, rfl, fun _ _ => rfl,
        SameRegistry.append fun _ => isActiveValidator_ofDeposit _ (currentEpoch_lt s')⟩

theorem sameDuties_of_processDeposits {deposits : List Deposit}
    (h : processDeposits c s deposits = .ok t) : SameDuties s t :=
  foldlM_rel SameDuties.refl SameDuties.trans
    (fun hstep => sameDuties_of_processDeposit (errorsWrap_eq_ok.mp hstep)) h

theorem sameDuties_of_processVoluntaryExits {exits : List SignedVoluntaryExit}
    (h : processVoluntaryExits c s exits = .ok t) : SameDuties s t := by
  refine foldlM_rel SameDuties.refl SameDuties.trans (fun {s p t} hstep => ?_) h
  simp only [processVoluntaryExit, bind_eq_ok] at hstep
  obtain ⟨v, -, -, -, hstep⟩ := hstep
  exact sameDuties_of_initiateExit hstep

end Operations

end Vanguard.Beacon
