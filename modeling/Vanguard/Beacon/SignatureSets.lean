import Vanguard.Beacon.BlockFrame

/-!
Batched signature verification.

The pipeline verifies a signature against the state at that point of the block; the batched
path collects all signatures from the state after the block. Both see the same keys, domains and
committees, since the operations in between keep all duties.
-/

namespace Vanguard.Beacon

open Fallible List
open BitVec hiding not_not

variable {κ σ : Type} {c : Crypto κ σ} {fuel : ℕ} {s t : BeaconState} {data : AttestationData}
  {att : Attestation} {ia : IndexedAttestation} {deposit : Deposit}

/-! ### The proposer's signatures -/

theorem SameDuties.domain_eq (h : SameDuties s t) (epoch : Epoch) (domainType : Bytes) :
    domain c t.fork epoch domainType t.genesisValidatorsRoot =
      domain c s.fork epoch domainType s.genesisValidatorsRoot := by
  rw [h.fork, h.genesisValidatorsRoot]

theorem SameDuties.blockSigningData_eq (h : SameDuties s t) {idx : ValidatorIndex}
    (hlt : idx.toNat < s.validators.length) :
    blockSigningData c t idx = blockSigningData c s idx := by
  have hv : atIndex s.validators idx = .ok _ := atIndex_eq_ok.mpr (List.getElem?_eq_getElem hlt)
  obtain ⟨w, hw, hkey⟩ := h.validator_eq hv
  rw [blockSigningData, blockSigningData, h.slot, h.domain_eq, hv, hw]
  refine bind_congr_ok fun d _ => ?_
  change Except.ok (w.publicKey, d) = Except.ok _
  rw [hkey]

theorem SameDuties.randaoSigningData_eq (h : SameDuties s t) :
    randaoSigningData c fuel t = randaoSigningData c fuel s := by
  rw [randaoSigningData, randaoSigningData, h.proposerIndex_eq, h.slot]
  refine bind_congr_ok fun idx hidx => ?_
  simp only [h.domain_eq, h.pubkeyAtIndex_eq (proposerIndex_lt (errorsWrap_eq_ok.mp hidx))]

theorem verifyBlockSignature_eq_ok {signed : SignedBeaconBlock} :
    verifyBlockSignature c s signed = .ok () ↔
      ∃ m, blockSignatureSet c s signed = .ok m ∧ m.Verifies c := by
  simp only [verifyBlockSignature, blockSignatureSet, bind_eq_ok, verifySignature_eq_ok]
  constructor
  · rintro ⟨data, hdata, m, hm, hver⟩
    exact ⟨m, ⟨data, hdata, hm⟩, hver⟩
  · rintro ⟨m, ⟨data, hdata, hm⟩, hver⟩
    exact ⟨data, hdata, m, hm, hver⟩

theorem processRandao_eq_ok {signed : SignedBeaconBlock} :
    processRandao c fuel s signed = .ok t ↔
      (∃ m, randaoSignatureSet c fuel s signed.block.body.randaoReveal = .ok m ∧ m.Verifies c) ∧
        processRandaoNoVerify c s signed.block.body.randaoReveal = .ok t := by
  simp only [processRandao, randaoSignatureSet, bind_eq_ok, errorsWrap_eq_ok]
  constructor
  · rintro ⟨data, hdata, ⟨⟩, hverify, h⟩
    obtain ⟨m, hm, hver⟩ := verifySignature_eq_ok.mp hverify
    exact ⟨⟨m, ⟨data, hdata, hm⟩, hver⟩, h⟩
  · rintro ⟨⟨m, ⟨data, hdata, hm⟩, hver⟩, h⟩
    exact ⟨data, hdata, (), verifySignature_eq_ok.mpr ⟨m, hm, hver⟩, h⟩

theorem processBlockHeader_eq_ok {signed : SignedBeaconBlock} :
    processBlockHeader c fuel s signed = .ok t ↔
      processBlockHeaderNoVerify c fuel s signed.block.slot signed.block.proposerIndex
        signed.block.parentRoot (c.bodyRoot signed.block.body) = .ok t ∧
      verifyBlockSignature c t signed = .ok () := by
  simp only [processBlockHeader, bind_eq_ok]
  constructor
  · rintro ⟨t', ht', ⟨⟩, hverify, ⟨⟩⟩
    exact ⟨ht', hverify⟩
  · rintro ⟨ht, hverify⟩
    exact ⟨t, ht, (), hverify, rfl⟩

/-! ### Attestations -/

/-- An attestation for a slot of the current or the previous epoch. -/
structure Recent (s : BeaconState) (data : AttestationData) : Prop where
  nearby : Nearby s (slotToEpoch data.slot)
  not_ahead : (slotToEpoch data.slot).toNat ≤ (currentEpoch s).toNat
  target : data.target.epoch = slotToEpoch data.slot

theorem recent_of_verifyAttestationTiming
    (h : verifyAttestationTiming s data = .ok ()) : Recent s data := by
  have hprev := nearby_prevEpoch s
  have htoNat := toNat_prevEpoch s
  simp only [verifyAttestationTiming, check_eq_ok, not_and_or, not_not] at h
  obtain ⟨hepoch, -, -, htarget, -⟩ := h
  rcases hepoch with hepoch | hepoch
  · exact ⟨by rwa [htarget, hepoch], by rw [htarget, hepoch]; omega, htarget.symm⟩
  · exact ⟨by rw [htarget, hepoch]; exact nearby_currentEpoch s, by rw [htarget, hepoch],
      htarget.symm⟩

theorem recent_of_processAttestationNoVerifySignature
    (h : processAttestationNoVerifySignature c fuel s att = .ok t) : Recent s att.data := by
  obtain ⟨⟨⟩, h, -⟩ := bind_eq_ok.mp h
  obtain ⟨⟨⟩, h, -⟩ := bind_eq_ok.mp h
  exact recent_of_verifyAttestationTiming h

theorem SameDuties.recent_iff (h : SameDuties s t) : Recent t data ↔ Recent s data := by
  constructor <;> intro hr <;>
    exact ⟨by simpa [Nearby, h.currentEpoch_eq] using hr.nearby, h.currentEpoch_eq ▸ hr.not_ahead,
      hr.target⟩

theorem SameDuties.verifyAttestationSignature_eq (h : SameDuties s t)
    (hr : Recent s att.data) :
    verifyAttestationSignature c t att = verifyAttestationSignature c s att := by
  rw [verifyAttestationSignature, verifyAttestationSignature,
    h.indexedAttestation_eq hr.nearby hr.not_ahead]
  refine bind_congr_ok fun ia hia => ?_
  have hkeys : ia.attestingIndices.map (pubkeyAtIndex t) =
      ia.attestingIndices.map (pubkeyAtIndex s) :=
    map_congr_left fun idx hidx => h.pubkeyAtIndex_eq (attestingIndices_lt hia idx hidx)
  rw [verifyIndexedAttestation, verifyIndexedAttestation, h.domain_eq, hkeys]

theorem processAttestations_eq_ok {atts : List Attestation} :
    processAttestations c fuel s atts = .ok t ↔
      processAttestationsNoVerifySignature c fuel s atts = .ok t ∧
        ∀ att ∈ atts, verifyAttestationSignature c t att = .ok () := by
  rw [processAttestations, processAttestationsNoVerifySignature]
  generalize 0 = k
  induction atts generalizing s k with
  | nil => simp
  | cons att atts ih =>
    simp only [zipIdx_cons, foldlM_cons, processAttestation, bind_eq_ok, errorsWrap_eq_ok,
      forall_mem_cons]
    -- The state after the first attestation has the duties of the one after the last.
    have hframe : ∀ {s₁ : BeaconState}, processAttestationNoVerifySignature c fuel s att = .ok s₁ →
        (atts.zipIdx (k + 1)).foldlM (fun state p => errorsWrap
          (processAttestationNoVerifySignature c fuel state p.1)
          s!"could not verify attestation at index {p.2} in block") s₁ = .ok t →
        verifyAttestationSignature c t att = verifyAttestationSignature c s₁ att := by
      intro s₁ hs₁ hrest
      have hduties : SameDuties s₁ t := foldlM_rel SameDuties.refl SameDuties.trans
        (fun h => sameDuties_of_processAttestationNoVerifySignature (errorsWrap_eq_ok.mp h)) hrest
      have hrecent := recent_of_processAttestationNoVerifySignature hs₁
      exact hduties.verifyAttestationSignature_eq
        ((sameDuties_of_processAttestationNoVerifySignature hs₁).recent_iff.mpr hrecent)
    constructor
    · rintro ⟨s₁, ⟨s₁', hs₁, ⟨⟩, hverify, ⟨⟩⟩, hrest⟩
      obtain ⟨hrest, hall⟩ := (ih _).mp hrest
      exact ⟨⟨s₁, hs₁, hrest⟩, (hframe hs₁ hrest).trans hverify, hall⟩
    · rintro ⟨⟨s₁, hs₁, hrest⟩, hverify, hall⟩
      have hverify := (hframe hs₁ hrest).symm.trans hverify
      exact ⟨s₁, ⟨s₁, hs₁, (), hverify, rfl⟩, (ih _).mpr ⟨hrest, hall⟩⟩

theorem verifyIndexedAttestation_eq_ok :
    verifyIndexedAttestation c s ia = .ok () ↔
      isValidAttestationIndices ia.attestingIndices = .ok () ∧
      ∃ d, domain c s.fork ia.data.target.epoch domainBeaconAttester s.genesisValidatorsRoot =
          .ok d ∧
        ∃ keys, (ia.attestingIndices.map (pubkeyAtIndex s)).mapM (decodePublicKey c) = .ok keys ∧
          SignatureSetMember.Verifies c ⟨ia.signature, c.aggregate keys,
            c.signingDataRoot (c.attestationDataRoot ia.data) d⟩ := by
  have hsig : ∀ {d : Bytes} {keys : List κ},
      isValidAttestationIndices ia.attestingIndices = .ok () →
      (ia.attestingIndices.map (pubkeyAtIndex s)).mapM (decodePublicKey c) = .ok keys →
      (verifyIndexedAttestationSig c ia keys d = .ok () ↔
        SignatureSetMember.Verifies c ⟨ia.signature, c.aggregate keys,
          c.signingDataRoot (c.attestationDataRoot ia.data) d⟩) := by
    intro d keys hvalid hkeys
    have hpos := length_pos_iff.mpr (check_eq_ok.mp hvalid).1
    have hlen : keys.length ≠ 0 := by
      rw [length_of_mapM hkeys, length_map]
      omega
    rw [verifyIndexedAttestationSig, SignatureSetMember.Verifies, verifyMember,
      bind_eq_ok, bind_eq_ok]
    refine exists_congr fun sig => and_congr errorsWrap_eq_ok ?_
    cases hver : c.verify sig (c.aggregate keys)
      (c.signingDataRoot (c.attestationDataRoot ia.data) d) <;>
      simp [fastAggregateVerify, hver, hpos, hlen, pure, Except.pure]
  simp only [verifyIndexedAttestation, bind_eq_ok, mapM_congr_ok fun _ _ => errorsWrap_eq_ok]
  constructor
  · rintro ⟨⟨⟩, hvalid, d, hd, keys, hkeys, h⟩
    exact ⟨hvalid, d, hd, keys, hkeys, (hsig hvalid hkeys).mp h⟩
  · rintro ⟨hvalid, d, hd, keys, hkeys, h⟩
    exact ⟨(), hvalid, d, hd, keys, hkeys, (hsig hvalid hkeys).mpr h⟩

theorem indexedAttestation_data
    (h : indexedAttestation c s att = .ok ia) :
    ia.data = att.data ∧ ia.signature = att.signature := by
  simp only [indexedAttestation, convertToIndexed, bind_eq_ok, map_eq_ok] at h
  obtain ⟨committee, -, indices, -, rfl⟩ := h
  exact ⟨rfl, rfl⟩

theorem attestationSetMember_verifies_iff {d : Bytes}
    (hd : domain c s.fork att.data.target.epoch domainBeaconAttester s.genesisValidatorsRoot =
      .ok d) :
    (∃ m, attestationSetMember c s d att = .ok m ∧ m.Verifies c) ↔
      verifyAttestationSignature c s att = .ok () := by
  simp only [verifyAttestationSignature, attestationSetMember, aggregatePublicKeys, bind_eq_ok,
    check_eq_ok, map_eq_ok]
  constructor
  · rintro ⟨m, ⟨ia, hia, ⟨⟩, hvalid, key, ⟨-, keys, hkeys, rfl⟩, ⟨⟩⟩, hver⟩
    obtain ⟨hdata, hsignature⟩ := indexedAttestation_data hia
    refine ⟨ia, hia, verifyIndexedAttestation_eq_ok.mpr ⟨hvalid, d, ?_, keys, hkeys, ?_⟩⟩
    · rw [hdata]
      exact hd
    · rw [hsignature]
      exact hver
  · rintro ⟨ia, hia, h⟩
    obtain ⟨hvalid, d', hd', keys, hkeys, hver⟩ := verifyIndexedAttestation_eq_ok.mp h
    obtain ⟨hdata, hsignature⟩ := indexedAttestation_data hia
    rw [hdata] at hd'
    obtain rfl : d = d' := Except.ok.inj (hd.symm.trans hd')
    have hne : ia.attestingIndices.map (pubkeyAtIndex s) ≠ [] :=
      mt map_eq_nil_iff.mp (check_eq_ok.mp hvalid).1
    rw [hsignature] at hver
    exact ⟨_, ⟨ia, hia, (), hvalid, _, ⟨hne, keys, hkeys, rfl⟩, rfl⟩, hver⟩

theorem createAttestationSignatureSet_iff {atts : List Attestation} {D : Except BeaconErr Bytes}
    (hne : atts ≠ []) (hD : ∀ att ∈ atts, domain c s.fork att.data.target.epoch
      domainBeaconAttester s.genesisValidatorsRoot = D) :
    (∃ set, D >>= createAttestationSignatureSet c s atts = .ok set ∧ ∀ m ∈ set, m.Verifies c) ↔
      ∀ att ∈ atts, verifyAttestationSignature c s att = .ok () := by
  cases D with
  | error e =>
    constructor
    · rintro ⟨set, h, -⟩
      cases h
    · intro h
      obtain ⟨att, hatt⟩ := exists_mem_of_ne_nil atts hne
      obtain ⟨ia, hia, hverify⟩ := bind_eq_ok.mp (h att hatt)
      obtain ⟨-, d, hd, -⟩ := verifyIndexedAttestation_eq_ok.mp hverify
      rw [(indexedAttestation_data hia).1, hD att hatt] at hd
      cases hd
  | ok d =>
    change (∃ set, atts.mapM (attestationSetMember c s d) = .ok set ∧ _) ↔ _
    rw [exists_mapM_iff]
    exact forall₂_congr fun att hatt => attestationSetMember_verifies_iff (hD att hatt)

theorem domain_of_lt {fork : Fork} {epoch : Epoch} (h : epoch < fork.epoch) (domainType : Bytes)
    (root : Root) : domain c fork epoch domainType root =
      domain c fork (fork.epoch - 1) domainType root := by
  have hpos : 1 ≤ fork.epoch := by
    rw [le_def, show (1 : Epoch).toNat = 1 from rfl]
    have := lt_def.mp h
    omega
  have hlt : fork.epoch - 1 < fork.epoch := by
    rw [lt_def, toNat_sub_of_le hpos, show (1 : Epoch).toNat = 1 from rfl]
    have := le_def.mp hpos
    rw [show (1 : Epoch).toNat = 1 from rfl] at this
    omega
  rw [domain, domain, if_pos h, if_pos hlt]

theorem domain_of_not_lt {fork : Fork} {epoch : Epoch} (h : ¬ epoch < fork.epoch)
    (domainType : Bytes) (root : Root) :
    domain c fork epoch domainType root = domain c fork fork.epoch domainType root := by
  rw [domain, domain, if_neg h, if_neg (BitVec.lt_irrefl _)]

section Split

variable {atts : List Attestation}
  (htarget : ∀ att ∈ atts, att.data.target.epoch = slotToEpoch att.data.slot)
include htarget

theorem preForkSignatureSet_iff (hpre : ∀ att ∈ atts, slotToEpoch att.data.slot < s.fork.epoch) :
    (∃ set, preForkSignatureSet c s atts = .ok set ∧ ∀ m ∈ set, m.Verifies c) ↔
      ∀ att ∈ atts, verifyAttestationSignature c s att = .ok () := by
  rw [preForkSignatureSet]
  by_cases hne : atts = []
  · subst hne
    simp
  · obtain ⟨att, hatt⟩ := exists_mem_of_ne_nil atts hne
    have hpos : 0 < s.fork.epoch := by
      have hlt := lt_def.mp (hpre att hatt)
      exact lt_def.mpr (Nat.zero_lt_of_lt hlt)
    rw [if_pos ⟨hpos, hne⟩]
    refine createAttestationSignatureSet_iff hne fun a ha => ?_
    rw [htarget a ha]
    exact domain_of_lt (hpre a ha) _ _

theorem postForkSignatureSet_iff
    (hpost : ∀ att ∈ atts, ¬ slotToEpoch att.data.slot < s.fork.epoch) :
    (∃ set, postForkSignatureSet c s atts = .ok set ∧ ∀ m ∈ set, m.Verifies c) ↔
      ∀ att ∈ atts, verifyAttestationSignature c s att = .ok () := by
  rw [postForkSignatureSet]
  by_cases hne : atts = []
  · subst hne
    simp
  · rw [if_pos hne]
    refine createAttestationSignatureSet_iff hne fun a ha => ?_
    rw [htarget a ha]
    exact domain_of_not_lt (hpost a ha) _ _

theorem attestationSignatureSet_iff :
    (∃ set, attestationSignatureSet c s atts = .ok set ∧ ∀ m ∈ set, m.Verifies c) ↔
      ∀ att ∈ atts, verifyAttestationSignature c s att = .ok () := by
  have hpre := @preForkSignatureSet_iff κ σ c s
    (atts.filter fun att => decide (slotToEpoch att.data.slot < s.fork.epoch))
    (fun att hatt => htarget att (mem_filter.mp hatt).1)
    (fun att hatt => of_decide_eq_true (mem_filter.mp hatt).2)
  have hpost := @postForkSignatureSet_iff κ σ c s
    (atts.filter fun att => !decide (slotToEpoch att.data.slot < s.fork.epoch))
    (fun att hatt => htarget att (mem_filter.mp hatt).1)
    (fun att hatt => by simpa using (mem_filter.mp hatt).2)
  have hsplit : (∀ att ∈ atts, verifyAttestationSignature c s att = .ok ()) ↔
      (∀ att ∈ atts.filter fun att => decide (slotToEpoch att.data.slot < s.fork.epoch),
        verifyAttestationSignature c s att = .ok ()) ∧
      ∀ att ∈ atts.filter fun att => !decide (slotToEpoch att.data.slot < s.fork.epoch),
        verifyAttestationSignature c s att = .ok () := by
    constructor
    · exact fun h => ⟨fun att hatt => h att (mem_filter.mp hatt).1,
        fun att hatt => h att (mem_filter.mp hatt).1⟩
    · rintro ⟨h₁, h₂⟩ att hatt
      by_cases hlt : slotToEpoch att.data.slot < s.fork.epoch
      · exact h₁ att (mem_filter.mpr ⟨hatt, decide_eq_true hlt⟩)
      · exact h₂ att (mem_filter.mpr ⟨hatt, by simpa using hlt⟩)
  rw [hsplit, ← hpre, ← hpost]
  simp only [attestationSignatureSet, bind_eq_ok]
  constructor
  · rintro ⟨set, ⟨preSet, hpreSet, postSet, hpostSet, ⟨⟩⟩, hall⟩
    obtain ⟨h₁, h₂⟩ := forall_mem_append.mp hall
    exact ⟨⟨preSet, hpreSet, h₁⟩, postSet, hpostSet, h₂⟩
  · rintro ⟨⟨preSet, hpreSet, h₁⟩, postSet, hpostSet, h₂⟩
    exact ⟨_, ⟨preSet, hpreSet, postSet, hpostSet, rfl⟩, forall_mem_append.mpr ⟨h₁, h₂⟩⟩

end Split

theorem recent_of_processAttestationsNoVerifySignature {atts : List Attestation}
    (h : processAttestationsNoVerifySignature c fuel s atts = .ok t) :
    ∀ att ∈ atts, Recent s att.data := by
  rw [processAttestationsNoVerifySignature] at h
  generalize 0 = k at h
  induction atts generalizing s k with
  | nil => simp
  | cons att atts ih =>
    rw [zipIdx_cons, foldlM_cons] at h
    obtain ⟨s₁, hs₁, h⟩ := bind_eq_ok.mp h
    have hs₁ := errorsWrap_eq_ok.mp hs₁
    have hduties := sameDuties_of_processAttestationNoVerifySignature hs₁
    exact forall_mem_cons.mpr ⟨recent_of_processAttestationNoVerifySignature hs₁,
      fun a ha => hduties.recent_iff.mp (ih _ h a ha)⟩

/-! ### Blocks -/

/-- The states that a block goes through, without the checks of signatures. -/
structure BlockStates where
  header : BeaconState
  randao : BeaconState
  proposerSlashings : BeaconState
  attesterSlashings : BeaconState
  attestations : BeaconState
  deposits : BeaconState

structure BlockSteps (c : Crypto κ σ) (fuel : ℕ) (signed : SignedBeaconBlock) (pre : BeaconState)
    (b : BlockStates) (post : BeaconState) : Prop where
  header : processBlockHeaderNoVerify c fuel pre signed.block.slot signed.block.proposerIndex
    signed.block.parentRoot (c.bodyRoot signed.block.body) = .ok b.header
  randao : processRandaoNoVerify c b.header signed.block.body.randaoReveal = .ok b.randao
  lengths : verifyOperationLengths (processEth1DataInBlock b.randao signed.block.body.eth1Data)
    signed.block.body = .ok ()
  proposerSlashings : processProposerSlashings c fuel
    (processEth1DataInBlock b.randao signed.block.body.eth1Data)
    signed.block.body.proposerSlashings = .ok b.proposerSlashings
  attesterSlashings : processAttesterSlashings c fuel b.proposerSlashings
    signed.block.body.attesterSlashings = .ok b.attesterSlashings
  attestations : processAttestationsNoVerifySignature c fuel b.attesterSlashings
    signed.block.body.attestations = .ok b.attestations
  deposits : processDeposits c b.attestations signed.block.body.deposits = .ok b.deposits
  exits : processVoluntaryExits c b.deposits signed.block.body.voluntaryExits = .ok post

section Blocks

variable {signed : SignedBeaconBlock} {b : BlockStates}

section

variable (h : BlockSteps c fuel signed s b t)

include h

theorem BlockSteps.attestations_post : SameDuties b.attestations t :=
  (sameDuties_of_processDeposits h.deposits).trans (sameDuties_of_processVoluntaryExits h.exits)

theorem BlockSteps.attesterSlashings_attestations : SameDuties b.attesterSlashings b.attestations :=
  foldlM_rel SameDuties.refl SameDuties.trans
    (fun h => sameDuties_of_processAttestationNoVerifySignature (errorsWrap_eq_ok.mp h))
    h.attestations

theorem BlockSteps.header_post : SameDuties b.header t :=
  (sameDuties_of_processRandaoNoVerify h.randao).trans
    ((sameDuties_processEth1DataInBlock _ _).trans
    ((sameDuties_of_processProposerSlashings h.proposerSlashings).trans
    ((sameDuties_of_processAttesterSlashings h.attesterSlashings).trans
    (h.attesterSlashings_attestations.trans h.attestations_post))))

theorem BlockSteps.recent :
    ∀ att ∈ signed.block.body.attestations, Recent b.attestations att.data := fun att hatt =>
  h.attesterSlashings_attestations.recent_iff.mpr
    (recent_of_processAttestationsNoVerifySignature h.attestations att hatt)

theorem BlockSteps.proposer_lt : signed.block.proposerIndex.toNat < b.header.validators.length := by
  obtain ⟨hduties, hproposer⟩ := sameDuties_of_processBlockHeaderNoVerify h.header
  exact lt_of_lt_of_le (proposerIndex_lt hproposer) hduties.registry.length_le

end

theorem processBlockForStateRoot_eq_ok :
    processBlockForStateRoot c fuel s signed = .ok t ↔ ∃ b, BlockSteps c fuel signed s b t := by
  simp only [processBlockForStateRoot, processOperationsNoVerifyAttsSigs, bind_eq_ok,
    errorsWrap_eq_ok]
  constructor
  · rintro ⟨s₁, h₁, s₂, h₂, ⟨⟩, hlen, s₄, h₄, s₅, h₅, s₆, h₆, s₇, h₇, h⟩
    exact ⟨⟨s₁, s₂, s₄, s₅, s₆, s₇⟩, h₁, h₂, hlen, h₄, h₅, h₆, h₇, h⟩
  · rintro ⟨b, h⟩
    exact ⟨_, h.header, _, h.randao, (), h.lengths, _, h.proposerSlashings, _, h.attesterSlashings,
      _, h.attestations, _, h.deposits, h.exits⟩

theorem processBlock_eq_ok :
    processBlock c fuel s signed = .ok t ↔ ∃ b, BlockSteps c fuel signed s b t ∧
      verifyBlockSignature c b.header signed = .ok () ∧
      (∃ m, randaoSignatureSet c fuel b.header signed.block.body.randaoReveal = .ok m ∧
        m.Verifies c) ∧
      ∀ att ∈ signed.block.body.attestations,
        verifyAttestationSignature c b.attestations att = .ok () := by
  simp only [processBlock, processingPipeline, foldlM_cons, foldlM_nil, bind_eq_ok, map_eq_ok,
    errorsWrap_eq_ok, processBlockHeader_eq_ok, processRandao_eq_ok, processAttestations_eq_ok]
  constructor
  · rintro ⟨s₁, ⟨h₁, hblock⟩, s₂, ⟨hrandao, h₂⟩, s₃, ⟨⟩, s₃', ⟨⟨⟩, hlen, rfl⟩, s₄, h₄, s₅, h₅,
      s₆, ⟨h₆, hatts⟩, s₇, h₇, s₈, h₈, ⟨⟩⟩
    exact ⟨⟨s₁, s₂, s₄, s₅, s₆, s₇⟩, ⟨h₁, h₂, hlen, h₄, h₅, h₆, h₇, h₈⟩, hblock, hrandao, hatts⟩
  · rintro ⟨b, h, hblock, hrandao, hatts⟩
    exact ⟨_, ⟨h.header, hblock⟩, _, ⟨hrandao, h.randao⟩, _, rfl, _, ⟨(), h.lengths, rfl⟩,
      _, h.proposerSlashings, _, h.attesterSlashings, _, ⟨h.attestations, hatts⟩, _, h.deposits,
      _, h.exits, rfl⟩

/-- A block is accepted from the proposer whom its post state names, and keeps the committees
of the current and the previous epoch. -/
theorem duties_of_processBlock : let run := processBlock c fuel s signed
    (run >>= proposerIndex c.hash fuel) = (run >>= fun _ => .ok signed.block.proposerIndex) ∧
      ∀ slot index, Nearby s (slotToEpoch slot) → slotToEpoch slot ≤ currentEpoch s →
        (run >>= (beaconCommitteeFromState c · slot index)) =
          run >>= fun _ => beaconCommitteeFromState c s slot index := by
  intro run
  have hduties {t} (ht : run = .ok t) :
      SameDuties s t ∧ proposerIndex c.hash fuel s = .ok signed.block.proposerIndex := by
    obtain ⟨b, h, -⟩ := processBlock_eq_ok.mp ht
    exact (sameDuties_of_processBlockHeaderNoVerify h.header).imp_left (·.trans h.header_post)
  refine ⟨bind_congr_ok fun t ht => ?_, fun slot index hnear hle => bind_congr_ok fun t ht =>
    (hduties ht).1.beaconCommitteeFromState_eq hnear hle index⟩
  rw [(hduties ht).1.proposerIndex_eq, (hduties ht).2]

theorem processBlockNoVerifyAnySig_verifies_iff :
    (∃ set, processBlockNoVerifyAnySig c fuel s signed = .ok (set, t) ∧ ∀ m ∈ set, m.Verifies c) ↔
      ∃ b, BlockSteps c fuel signed s b t ∧
        (∃ m, blockSignatureSet c t signed = .ok m ∧ m.Verifies c) ∧
        (∃ m, randaoSignatureSet c fuel t signed.block.body.randaoReveal = .ok m ∧
          m.Verifies c) ∧
        ∃ set, attestationSignatureSet c t signed.block.body.attestations = .ok set ∧
          ∀ m ∈ set, m.Verifies c := by
  simp only [processBlockNoVerifyAnySig, bind_eq_ok, errorsWrap_eq_ok,
    processBlockForStateRoot_eq_ok]
  constructor
  · rintro ⟨set, ⟨t', ⟨b, hsteps⟩, bSet, hb, rSet, hr, aSet, ha, ⟨⟩⟩, hall⟩
    obtain ⟨hbv, hall⟩ := forall_mem_cons.mp hall
    obtain ⟨hrv, hav⟩ := forall_mem_cons.mp hall
    exact ⟨b, hsteps, ⟨bSet, hb, hbv⟩, ⟨rSet, hr, hrv⟩, aSet, ha, hav⟩
  · rintro ⟨b, hsteps, ⟨bSet, hb, hbv⟩, ⟨rSet, hr, hrv⟩, aSet, ha, hav⟩
    exact ⟨_, ⟨t, ⟨b, hsteps⟩, bSet, hb, rSet, hr, aSet, ha, rfl⟩,
      forall_mem_cons.mpr ⟨hbv, forall_mem_cons.mpr ⟨hrv, hav⟩⟩⟩

end Blocks

/-- A block is accepted by the pipeline, with a certain post state, if and only if the batched
path accepts it with that post state and every signature that it returns verifies. -/
theorem processBlock_iff_batched (c : Crypto κ σ) (fuel : ℕ) (pre post : BeaconState)
    (signed : SignedBeaconBlock) :
    processBlock c fuel pre signed = .ok post ↔
      ∃ set, processBlockNoVerifyAnySig c fuel pre signed = .ok (set, post) ∧
        ∀ m ∈ set, m.Verifies c := by
  rw [processBlock_eq_ok, processBlockNoVerifyAnySig_verifies_iff]
  refine exists_congr fun b => and_congr_right fun h => and_congr ?_ (and_congr ?_ ?_)
  · rw [verifyBlockSignature_eq_ok, blockSignatureSet, blockSignatureSet,
      h.header_post.blockSigningData_eq h.proposer_lt]
  · rw [randaoSignatureSet, randaoSignatureSet, h.header_post.randaoSigningData_eq]
  · rw [attestationSignatureSet_iff fun att hatt => (h.recent att hatt).target]
    exact forall₂_congr fun att hatt => by
      rw [h.attestations_post.verifyAttestationSignature_eq (h.recent att hatt)]

/-! ### Deposits -/

section

variable (c)

/-- `BatchVerifyDepositsSignatures` under a context, which is polled before each deposit. -/
def batchVerifyDepositsUnder (ctx : Ctx) (deposits : List Deposit) : Bool :=
  (range deposits.length).any ctx.err || batchVerifyDepositsSignatures c deposits

/-- `ProcessDeposits` under a context; a cancellation costs the batch only. -/
def processDepositsUnder (ctx : Ctx) (state : BeaconState) (deposits : List Deposit) :
    Except BeaconErr BeaconState :=
  let batchVerified := batchVerifyDepositsUnder c ctx deposits
  deposits.foldlM (fun state deposit => errorsWrap (processDeposit c state deposit batchVerified)
    ("could not process deposit from " ++ truncatedKey deposit.data.publicKey)) state

end

theorem verifyDepositDataSigningRoot_eq_ok {data : DepositData} :
    verifyDepositDataSigningRoot c data = .ok () ↔
      ∃ m, signatureSet c (c.depositMessageRoot data.toDepositMessage) data.publicKey
        data.signature (depositDomain c) = .ok m ∧ m.Verifies c := by
  rw [verifyDepositDataSigningRoot, verifySigningRoot, signatureSet]
  cases hkey : decodePublicKey c data.publicKey with
  | error e => simp [errorsWrap, Except.mapError, bind, Except.bind]
  | ok key =>
    cases hsig : decodeSignature c data.signature with
    | error e => simp [errorsWrap, Except.mapError, bind, Except.bind, pure, Except.pure,
        SignatureSetMember.Verifies, verifyMember, hsig]
    | ok sig => simp [errorsWrap, Except.mapError, bind, Except.bind, pure, Except.pure,
        SignatureSetMember.Verifies, verifyMember, hsig]

theorem verifyDepositDataSigningRoot_of_batch {deposits : List Deposit}
    (hbatch : batchVerifyDepositsSignatures c deposits = false)
    (hmem : deposit ∈ deposits) : verifyDepositDataSigningRoot c deposit.data = .ok () := by
  rw [batchVerifyDepositsSignatures, if_neg (ne_nil_of_mem hmem)] at hbatch
  split at hbatch
  next set hset =>
    simp only [verifyMultipleSignatures, Bool.not_eq_false', Bool.and_eq_true, all_eq_true,
      decide_eq_true_eq] at hbatch
    exact verifyDepositDataSigningRoot_eq_ok.mpr
      (exists_mapM_iff.mp ⟨set, hset, hbatch.2⟩ deposit hmem)
  next => simp at hbatch

theorem processDeposit_verified {verifySignature : Bool}
    (h : verifySignature = true ∨ verifyDepositDataSigningRoot c deposit.data = .ok ()) :
    processDeposit c s deposit verifySignature = processDeposit c s deposit true := by
  rcases h with rfl | h
  · rfl
  · simp [processDeposit, applyDeposit, h]

/-- Verifying deposits in a batch first changes nothing: they are processed, with a certain post
state, if and only if they are one by one with every signature verified. -/
theorem processDeposits_iff_one_by_one (c : Crypto κ σ) (ctx : Ctx) (pre post : BeaconState)
    (deposits : List Deposit) :
    processDepositsUnder c ctx pre deposits = .ok post ↔
      deposits.foldlM (fun state deposit => processDeposit c state deposit true) pre =
        .ok post := by
  have hflag : ∀ deposit ∈ deposits, batchVerifyDepositsUnder c ctx deposits = true ∨
      verifyDepositDataSigningRoot c deposit.data = .ok () := by
    intro deposit hmem
    cases hbatch : batchVerifyDepositsUnder c ctx deposits with
    | true => exact .inl rfl
    | false =>
      rw [batchVerifyDepositsUnder, Bool.or_eq_false_iff] at hbatch
      exact .inr (verifyDepositDataSigningRoot_of_batch hbatch.2 hmem)
  refine foldlM_congr_ok fun state deposit hmem next => ?_
  rw [errorsWrap_eq_ok, processDeposit_verified (hflag deposit hmem)]

end Vanguard.Beacon
