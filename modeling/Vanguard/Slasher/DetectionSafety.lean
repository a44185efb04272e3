import Vanguard.Slasher.Detection
import Vanguard.Slasher.SpanUpdates

/-!
The slasher finds every slashable attestation.

As long as every attestation on which the spans were updated is still stored, and each
of them either came before all or after all of its validators had been marked for its
target, the spans and the signature bytes lead back to a stored attestation for every
double vote and every surround vote.
-/

namespace Vanguard.Slasher

open Bytes EpochStore MinMaxSpan List BitVec Option Std.ExtTreeMap EState Store

/-! ### Looking attestations up -/

section Lookup

variable {l : List (Bytes × IndexedAttestation)} {s : Store}

theorem readPrefixed_spec (key : Bytes)
    (hsorted : l.Pairwise fun a b => compare a.1 b.1 = .lt)
    (hreadable : ∀ x ∈ l, key.length ≤ x.1.length) (hfrom : ∀ x ∈ l, compare x.1 key ≠ .lt) :
    ∃ atts, readPrefixed key l = .ok atts ∧ (∀ a ∈ atts, ∃ k, (k, a) ∈ l) ∧
      ∀ x ∈ l, x.1.take key.length = key → x.2 ∈ atts := by
  induction l with
  | nil => exact ⟨[], rfl, by simp, by simp⟩
  | cons x l ih =>
    obtain ⟨hfirst, hsorted⟩ := pairwise_cons.mp hsorted
    obtain ⟨hlongx, hreadable⟩ := forall_mem_cons.mp hreadable
    obtain ⟨hfromx, hfrom⟩ := forall_mem_cons.mp hfrom
    obtain ⟨atts, hread, hfound, hmem⟩ := ih hsorted hreadable hfrom
    rw [readPrefixed, if_neg (Nat.not_lt.mpr hlongx)]
    by_cases hx : x.1.take key.length = key
    · rw [if_pos hx, hread]
      refine ⟨x.2 :: atts, rfl, forall_mem_cons.mpr ⟨⟨x.1, mem_cons_self⟩, fun a ha => ?_⟩,
        fun y hy hkey => ?_⟩
      · obtain ⟨k, hk⟩ := hfound a ha
        exact ⟨k, mem_cons_of_mem _ hk⟩
      rcases mem_cons.mp hy with rfl | hy
      · exact mem_cons_self
      · exact mem_cons_of_mem _ (hmem y hy hkey)
    · rw [if_neg hx]
      refine ⟨[], rfl, by simp, fun y hy hkey => ?_⟩
      rcases mem_cons.mp hy with rfl | hy
      · exact absurd hkey hx
      · exact absurd (take_eq_of_between hlongx hfromx (hfirst y hy) hkey) hx

theorem compare_ne_lt_of_mem_dropWhile {key : Bytes}
    (hsorted : l.Pairwise fun a b => compare a.1 b.1 = .lt) {x : Bytes × IndexedAttestation}
    (hx : x ∈ l.dropWhile fun e => compare e.1 key == .lt) : compare x.1 key ≠ .lt := by
  induction l with
  | nil => cases hx
  | cons a l ih =>
    obtain ⟨hfirst, hsorted⟩ := pairwise_cons.mp hsorted
    by_cases ha : compare a.1 key = .lt
    · rw [dropWhile_cons_of_pos (by simp [ha])] at hx
      exact ih hsorted hx
    · rw [dropWhile_cons_of_neg (by simpa using ha)] at hx
      rcases mem_cons.mp hx with rfl | hx
      · exact ha
      · exact fun hlt => ha (Std.TransCmp.lt_trans (hfirst x hx) hlt)

theorem mem_dropWhile_of_not {α : Type*} {p : α → Bool} {l : List α} {a : α} (ha : a ∈ l)
    (hp : ¬ p a = true) : a ∈ l.dropWhile p := by
  rw [← takeWhile_append_dropWhile (p := p) (l := l), mem_append] at ha
  exact ha.resolve_left fun h => hp (mem_takeWhile_imp h)

/-- The attestation is stored under its key. -/
def Store.Stored (s : Store) (att : IndexedAttestation) : Prop :=
  s.historicIndexedAttestations[att.key]? = some att

instance (s : Store) (att : IndexedAttestation) : Decidable (s.Stored att) :=
  inferInstanceAs (Decidable (_ = _))

/-- Stored attestations have keys that are long enough for a lookup, and can be encoded. -/
def Store.Readable (s : Store) : Prop :=
  ∀ (k : Bytes) att, s.historicIndexedAttestations[k]? = some att → 10 ≤ k.length ∧ att.Marshals

theorem take_key {att : IndexedAttestation} (hsig : 2 ≤ att.signature.length) :
    att.key.take 10 = encodeEpochSig att.data.target.epoch
      [(sigBytesOf att.signature).1, (sigBytesOf att.signature).2] := by
  obtain ⟨b₀, b₁, rest, hrest⟩ : ∃ b₀ b₁ rest, att.signature = b₀ :: b₁ :: rest := by
    match att.signature, hsig with
    | b₀ :: b₁ :: rest, _ => exact ⟨b₀, b₁, rest, rfl⟩
  have hlen := length_ofUint64LE att.data.target.epoch
  rw [IndexedAttestation.key, encodeEpochSig, encodeEpochSig, hrest, take_append, hlen,
    take_of_length_le (by omega)]
  rfl

theorem indexedAttestationsWithPrefix_spec (hreadable : s.Readable) (targetEpoch : Epoch)
    (sigBytes : UInt8 × UInt8) :
    ∃ atts, s.indexedAttestationsWithPrefix targetEpoch [sigBytes.1, sigBytes.2] = .ok atts ∧
      (∀ att ∈ atts, att.Marshals) ∧ ∀ att, s.Stored att → 2 ≤ att.signature.length →
        att.data.target.epoch = targetEpoch → sigBytesOf att.signature = sigBytes → att ∈ atts := by
  have hlen : (encodeEpochSig targetEpoch [sigBytes.1, sigBytes.2]).length = 10 := by
    simp [encodeEpochSig]
  have hsorted : s.historicIndexedAttestations.toList.Pairwise
      fun a b => compare a.1 b.1 = .lt := ordered_keys_toList
  have hsub := dropWhile_sublist (l := s.historicIndexedAttestations.toList)
    (fun e => compare e.1 (encodeEpochSig targetEpoch [sigBytes.1, sigBytes.2]) == .lt)
  have hread : ∀ x ∈ s.historicIndexedAttestations.toList, 10 ≤ x.1.length ∧ x.2.Marshals :=
    fun x hx => hreadable x.1 x.2 (mem_toList_iff_getElem?_eq_some.mp hx)
  obtain ⟨atts, hatts, hfound, hmem⟩ := readPrefixed_spec
    (encodeEpochSig targetEpoch [sigBytes.1, sigBytes.2]) (hsorted.sublist hsub)
    (fun x hx => by
      rw [hlen]
      exact (hread x (hsub.subset hx)).1)
    (fun x hx => compare_ne_lt_of_mem_dropWhile hsorted hx)
  refine ⟨atts, hatts, fun att hatt => ?_, fun att hstored hsig htarget hbytes => ?_⟩
  · obtain ⟨k, hk⟩ := hfound att hatt
    exact (hread (k, att) (hsub.subset hk)).2
  have htake : att.key.take (encodeEpochSig targetEpoch [sigBytes.1, sigBytes.2]).length =
      encodeEpochSig targetEpoch [sigBytes.1, sigBytes.2] := by
    rw [hlen, take_key hsig, htarget, hbytes]
  refine hmem (att.key, att) (mem_dropWhile_of_not
    (mem_toList_iff_getElem?_eq_some.mpr hstored) ?_) htake
  simpa using compare_ne_lt_of_take htake

end Lookup

/-! ### What the spans say about the votes -/

def votesOf (U : List IndexedAttestation) (v : ValidatorIndex) : Set (ℕ × ℕ) :=
  {vote | ∃ a ∈ U, v ∈ a.attestingIndices ∧ a.vote = vote}

/-- Two attestations for which a validator can be slashed. -/
def Slashable (a b : IndexedAttestation) : Prop :=
  isDoubleVote a b = true ∨ isSurround a b = true ∨ isSurround b a = true

theorem attDataIsEqual_iff (d₁ d₂ : AttestationData) : attDataIsEqual d₁ d₂ = true ↔ d₁ = d₂ := by
  obtain ⟨slot₁, index₁, root₁, ⟨sourceEpoch₁, sourceRoot₁⟩, ⟨targetEpoch₁, targetRoot₁⟩⟩ := d₁
  obtain ⟨slot₂, index₂, root₂, ⟨sourceEpoch₂, sourceRoot₂⟩, ⟨targetEpoch₂, targetRoot₂⟩⟩ := d₂
  rw [attDataIsEqual]
  simp only [AttestationData.mk.injEq, Checkpoint.mk.injEq]
  split_ifs <;> simp_all

theorem isDoubleVote_iff (a b : IndexedAttestation) : isDoubleVote a b = true ↔
    a.data ≠ b.data ∧ a.data.target.epoch = b.data.target.epoch := by
  rw [isDoubleVote, Bool.and_eq_true, Bool.not_eq_true', decide_eq_true_iff, Ne,
    ← attDataIsEqual_iff, Bool.not_eq_true]

theorem isSurround_iff (a b : IndexedAttestation) : isSurround a b = true ↔
    a.vote.1 < b.vote.1 ∧ b.vote.2 < a.vote.2 := by
  rw [isSurround, decide_eq_true_iff]
  rfl

variable {a : IndexedAttestation}

theorem Slashable.symm {b : IndexedAttestation} (h : Slashable a b) : Slashable b a := by
  rcases h with h | h | h
  · rw [isDoubleVote_iff] at h
    exact .inl ((isDoubleVote_iff b a).mpr ⟨h.1.symm, h.2.symm⟩)
  · exact .inr (.inr h)
  · exact .inr (.inl h)

theorem not_slashable_self (a : IndexedAttestation) : ¬ Slashable a a := by
  rintro (h | h | h)
  · exact ((isDoubleVote_iff a a).mp h).1 rfl
  · exact Nat.lt_irrefl _ ((isSurround_iff a a).mp h).1
  · exact Nat.lt_irrefl _ ((isSurround_iff a a).mp h).1

/-- The store holds the votes of the attestations on which the spans were updated. -/
structure Tracks (s : Store) (U : List IndexedAttestation) : Prop where
  valid : s.Valid
  readable : s.Readable
  spanned : Spanned s (votesOf U)
  marked : ∀ a ∈ U, ∀ v ∈ a.attestingIndices, (s.span a.data.target.epoch v).hasAttested = true
  pointed : ∀ e v, (s.span e v).hasAttested = true → ∃ a ∈ U, v ∈ a.attestingIndices ∧
    a.data.target.epoch = e ∧ sigBytesOf a.signature = (s.span e v).sigBytes
  wellFormed : ∀ a ∈ U, WellFormed a
  compatible : ∀ a ∈ U, ∀ b ∈ U, ∀ v, v ∈ a.attestingIndices → v ∈ b.attestingIndices →
    ¬ Slashable a b

section Detect

variable {s : Store} {U : List IndexedAttestation} {att : IndexedAttestation} {v : ValidatorIndex}

theorem Tracks.of_span {s' : Store} (h : Tracks s U) (hvalid : s'.Valid) (hreadable : s'.Readable)
    (hspan : ∀ e v, s'.span e v = s.span e v) : Tracks s' U where
  valid := hvalid
  readable := hreadable
  spanned := by
    refine ⟨fun e v => ?_, fun e v => ?_⟩
    · rw [hspan]
      exact h.spanned.min e v
    · rw [hspan]
      exact h.spanned.max e v
  marked a ha v hv := by
    rw [hspan]
    exact h.marked a ha v hv
  pointed e v hatt := by
    rw [hspan] at hatt ⊢
    exact h.pointed e v hatt
  wellFormed := h.wellFormed
  compatible := h.compatible

theorem Tracks.of_same {s' : Store} (h : Tracks s U) (hsame : s.Same s') : Tracks s' U :=
  h.of_span hsame.valid (fun k att hk => h.readable k att (hsame.historic ▸ hk)) hsame.span

/-- The attestation that the signature bytes of a marked target lead to has the data of
every attestation that marked it. -/
theorem Tracks.exists_same_data (h : Tracks s U) (ha : a ∈ U) (hv : v ∈ a.attestingIndices) :
    ∃ b ∈ U, v ∈ b.attestingIndices ∧ b.data = a.data ∧
      sigBytesOf b.signature = (s.span a.data.target.epoch v).sigBytes := by
  obtain ⟨b, hb, hvb, htarget, hsig⟩ := h.pointed _ _ (h.marked a ha v hv)
  refine ⟨b, hb, hvb, ?_, hsig⟩
  by_contra hne
  exact h.compatible b hb a ha v hvb hv (.inl ((isDoubleVote_iff b a).mpr ⟨hne, htarget⟩))

/-- A detection leads to an attestation of the validator. -/
def Leads (U : List IndexedAttestation) (r : DetectionResult) (a : IndexedAttestation) : Prop :=
  a ∈ U ∧ r.validatorIndex ∈ a.attestingIndices ∧ a.data.target.epoch = r.slashableEpoch ∧
    sigBytesOf a.signature = r.sigBytes

/-- A detection of a surround vote leads to one. -/
def Sound (U : List IndexedAttestation) (att : IndexedAttestation) (r : DetectionResult) : Prop :=
  r.kind = .surroundVote → ∃ a, Leads U r a ∧ (isSurround att a = true ∨ isSurround a att = true)

/-- A detection leads to a slashable attestation of its kind. -/
def Finds (U : List IndexedAttestation) (att : IndexedAttestation) (r : DetectionResult) : Prop :=
  r.kind = .surroundVote ∨ ∃ a, Leads U r a ∧ isDoubleVote att a = true

theorem surroundResult_spec (h : Tracks s U) (ha : a ∈ U) (hv : v ∈ a.attestingIndices)
    (hsur : isSurround att a = true ∨ isSurround a att = true) {source : Epoch} {span : BitVec 16}
    (htarget : source.toNat + span.toNat = a.data.target.epoch.toNat) :
    ∃ o s', surroundResult source v span s = .ok o s' ∧ s.Same s' ∧
      (∀ r, o = some r → r.validatorIndex = v ∧ Sound U att r) ∧
      ∃ r, o = some r ∧ Finds U att r := by
  have hepoch : source + span.setWidth 64 = a.data.target.epoch := by
    have hlt := a.data.target.epoch.isLt
    have hspan := span.isLt
    refine eq_of_toNat_eq ?_
    rw [toNat_add, toNat_setWidth]
    omega
  obtain ⟨es, s', hread, hsame, hflat, hspan⟩ := epochSpans_spec h.valid a.data.target.epoch true
  refine ⟨some ⟨v, a.data.target.epoch, .surroundVote, (s.span a.data.target.epoch v).sigBytes⟩,
    s', ?_, hsame, ?_, _, rfl, .inl rfl⟩
  · rw [surroundResult, hepoch, bind_ok hread, getValidatorSpan_eq hflat, hspan]
    rfl
  · rintro r ⟨⟩
    refine ⟨rfl, fun _ => ?_⟩
    obtain ⟨b, hb, hvb, hdata, hsig⟩ := h.exists_same_data ha hv
    refine ⟨b, ⟨hb, hvb, by rw [hdata], hsig⟩, ?_⟩
    simp only [isSurround, hdata]
    exact hsur

/-- The source of an attestation is close to those of others. -/
def Near (att a : IndexedAttestation) : Prop :=
  a.data.source.epoch.toNat ≤ att.data.source.epoch.toNat + 129

instance (att a : IndexedAttestation) : Decidable (Near att a) :=
  inferInstanceAs (Decidable (_ ≤ _))

theorem detectForIndex_spec (h : Tracks s U) (hatt : WellFormed att) (hnear : ∀ a ∈ U, Near att a)
    {spanMap targetSpanMap : EpochStore} (hflat : spanMap.Flat) (hflat' : targetSpanMap.Flat)
    (hspan : ∀ v, spanMap.span v = s.span att.data.source.epoch v)
    (hspan' : ∀ v, targetSpanMap.span v = s.span att.data.target.epoch v) (v : ValidatorIndex) :
    ∃ r s', detectForIndex spanMap targetSpanMap att.data.source.epoch att.data.target.epoch
        ((att.data.target.epoch - att.data.source.epoch).setWidth 16) v s = .ok r s' ∧
      s.Same s' ∧ (∀ x, r = some x → x.validatorIndex = v ∧ Sound U att x) ∧
      ((∃ a ∈ U, v ∈ a.attestingIndices ∧ Slashable att a) → ∃ x, r = some x ∧ Finds U att x) := by
  have hlt := hatt.recordable.source_lt
  have hdist := hatt.recordable.distance.2
  have hdistance : ((att.data.target.epoch - att.data.source.epoch).setWidth 16).toNat =
      att.data.target.epoch.toNat - att.data.source.epoch.toNat :=
    toNat_setWidth_sub (Nat.le_of_lt hlt) (by omega)
  have hmin := h.spanned.min att.data.source.epoch v
  have hmax := h.spanned.max att.data.source.epoch v
  rw [detectForIndex, getValidatorSpan_eq hflat, hspan]
  simp only [ofSpan, pure_bind]
  by_cases hlow : 0 < (s.span att.data.source.epoch v).minSpan ∧
      (s.span att.data.source.epoch v).minSpan <
        (att.data.target.epoch - att.data.source.epoch).setWidth 16
  · -- the vote surrounds an earlier one
    have hlow' := hlow
    rw [lt_def, lt_def, hdistance] at hlow'
    obtain ⟨vote, ⟨a, ha, hv, rfl⟩, hahead, htarget⟩ := hmin.attained (by omega)
    have hsur : isSurround att a = true := by
      rw [isSurround_iff]
      refine ⟨hahead.1, ?_⟩
      rw [← htarget]
      show _ < att.data.target.epoch.toNat
      omega
    obtain ⟨o, s', hrun, hsame, hsound, hfinds⟩ := surroundResult_spec h ha hv (.inl hsur) htarget
    rw [if_pos hlow]
    exact ⟨o, s', hrun, hsame, hsound, fun _ => hfinds⟩
  · rw [if_neg hlow]
    by_cases hhigh : (att.data.target.epoch - att.data.source.epoch).setWidth 16 <
        (s.span att.data.source.epoch v).maxSpan
    · -- the vote is surrounded by an earlier one
      have hhigh' := hhigh
      rw [lt_def, hdistance] at hhigh'
      obtain ⟨vote, ⟨a, ha, hv, rfl⟩, haround, htarget⟩ := hmax.attained (by omega)
      have hsur : isSurround a att = true := by
        rw [isSurround_iff]
        refine ⟨haround.1, ?_⟩
        rw [← htarget]
        show att.data.target.epoch.toNat < _
        omega
      obtain ⟨o, s', hrun, hsame, hsound, hfinds⟩ := surroundResult_spec h ha hv (.inr hsur) htarget
      rw [if_pos hhigh]
      exact ⟨o, s', hrun, hsame, hsound, fun _ => hfinds⟩
    · -- what is left are double votes
      have hdouble : ∀ a ∈ U, v ∈ a.attestingIndices → Slashable att a →
          isDoubleVote att a = true := by
        rintro a ha hv (hslash | hslash | hslash)
        · exact hslash
        · rw [isSurround_iff] at hslash
          refine absurd (hmin.surrounds_iff.mpr ⟨a.vote, ⟨a, ha, hv, rfl⟩,
            ⟨hslash.1, hnear a ha⟩, hslash.2⟩) ?_
          rw [show att.vote.2 = att.data.target.epoch.toNat from rfl, ← hdistance]
          exact hlow
        · rw [isSurround_iff] at hslash
          refine absurd ((hmax.surrounded_iff hlt).mpr ⟨a.vote, ⟨a, ha, hv, rfl⟩, hslash⟩) ?_
          rw [← hdistance]
          exact hhigh
      have hself : s.Same s := ⟨h.valid, fun _ _ => rfl, rfl⟩
      rw [if_neg hhigh, getValidatorSpan_eq hflat', hspan']
      by_cases hattested : (s.span att.data.target.epoch v).hasAttested = true
      · simp only [pure_bind]
        rw [if_pos hattested]
        refine ⟨_, s, rfl, hself, fun x hx => ?_, ?_⟩
        · rw [← some.inj hx]
          exact ⟨rfl, fun hcon => by cases hcon⟩
        · rintro ⟨a, ha, hv, hslash⟩
          have hvote := (isDoubleVote_iff att a).mp (hdouble a ha hv hslash)
          obtain ⟨b, hb, hvb, hdata, hsig⟩ := h.exists_same_data ha hv
          refine ⟨_, rfl, .inr ⟨b, ⟨hb, hvb, ?_, ?_⟩, ?_⟩⟩
          · rw [hdata]
            exact hvote.2.symm
          · rw [hsig, ← hvote.2]
          · rw [isDoubleVote_iff, hdata]
            exact hvote
      · simp only [pure_bind]
        rw [if_neg hattested]
        refine ⟨none, s, rfl, hself, by simp, ?_⟩
        rintro ⟨a, ha, hv, hslash⟩
        have hvote := (isDoubleVote_iff att a).mp (hdouble a ha hv hslash)
        refine absurd (h.marked a ha v hv) ?_
        rw [← hvote.2]
        exact hattested

theorem detectForIndices_spec
    {f : ValidatorIndex → EStateM SlasherErr Store (Option DetectionResult)}
    {P : ValidatorIndex → DetectionResult → Prop} {Q : ValidatorIndex → Prop}
    {R : DetectionResult → Prop} {I : Store → Prop} (hI : ∀ s s', I s → s.Same s' → I s')
    (hf : ∀ s v, I s → ∃ r s', f v s = .ok r s' ∧ s.Same s' ∧ (∀ x, r = some x → P v x) ∧
      (Q v → ∃ x, r = some x ∧ R x)) {valIndices : List ValidatorIndex} (hs : I s)
    (hvalid : s.Valid) :
    ∃ results s', detectForIndices f valIndices s = .ok results s' ∧ s.Same s' ∧
      (∀ x ∈ results, ∃ v ∈ valIndices, P v x) ∧
      ∀ v ∈ valIndices, Q v → ∃ x ∈ results, R x := by
  induction valIndices generalizing s with
  | nil => exact ⟨[], s, rfl, ⟨hvalid, fun _ _ => rfl, rfl⟩, by simp, by simp⟩
  | cons idx rest ih =>
    obtain ⟨r, s₁, hrun, hsame, hP, hQ⟩ := hf s idx hs
    obtain ⟨results, s₂, hrest, hsame₂, hPs, hQs⟩ := ih (hI s s₁ hs hsame) hsame.valid
    refine ⟨r.toList ++ results, s₂, ?_, hsame.trans hsame₂, fun x hx => ?_, fun v hv hq => ?_⟩
    · rw [detectForIndices, bind_ok hrun, bind_ok hrest]
      rfl
    · rcases mem_append.mp hx with hx | hx
      · exact ⟨idx, mem_cons_self, hP x (mem_toList.mp hx)⟩
      · obtain ⟨v, hv, hpv⟩ := hPs x hx
        exact ⟨v, mem_cons_of_mem _ hv, hpv⟩
    · rcases mem_cons.mp hv with rfl | hv
      · obtain ⟨x, hx, hrx⟩ := hQ hq
        exact ⟨x, mem_append_left _ (mem_toList.mpr hx), hrx⟩
      · obtain ⟨x, hx, hrx⟩ := hQs v hv hq
        exact ⟨x, mem_append_right _ hx, hrx⟩

/-- `DetectSlashingsForAttestation` fails on no attestation, and finds every slashable
one. -/
theorem detectSlashingsForAttestation_spec (h : Tracks s U) (hatt : WellFormed att)
    (hnear : ∀ a ∈ U, Near att a) :
    ∃ results s', detectSlashingsForAttestation att s = .ok results s' ∧ s.Same s' ∧
      (∀ r ∈ results, r.validatorIndex ∈ att.attestingIndices ∧ Sound U att r) ∧
      ∀ v ∈ att.attestingIndices, (∃ a ∈ U, v ∈ a.attestingIndices ∧ Slashable att a) →
        ∃ r ∈ results, Finds U att r := by
  have hswap : ¬ att.data.target.epoch < att.data.source.epoch :=
    BitVec.not_lt.mpr (BitVec.le_of_lt hatt.ordered)
  have hperiod : ¬ weakSubjectivityPeriod < att.data.target.epoch - att.data.source.epoch :=
    BitVec.not_lt.mpr hatt.inPeriod
  obtain ⟨es, s₁, hread, hsame, hflat, hspan⟩ := epochSpans_spec h.valid att.data.source.epoch true
  obtain ⟨es', s₂, hread', hsame', hflat', hspan'⟩ :=
    epochSpans_spec hsame.valid att.data.target.epoch true
  have hsame₂ := hsame.trans hsame'
  obtain ⟨results, s₃, hrun, hsame₃, hP, hQ⟩ := detectForIndices_spec
    (P := fun v x => x.validatorIndex = v ∧ Sound U att x)
    (Q := fun v => ∃ a ∈ U, v ∈ a.attestingIndices ∧ Slashable att a) (R := Finds U att)
    (I := fun s' => s.Same s') (s := s₂)
    (fun s' s'' h₁ h₂ => h₁.trans h₂)
    (fun s' v hs' => detectForIndex_spec (h.of_same hs') hatt hnear hflat hflat'
      (fun w => by rw [hspan, hs'.span]) (fun w => by rw [hspan', hsame.span, hs'.span]) v)
    hsame₂ hsame₂.valid
  refine ⟨results, s₃, ?_, hsame₂.trans hsame₃, fun r hr => ?_, hQ⟩
  · rw [detectSlashingsForAttestation]
    simp only [if_neg hswap, if_neg hperiod]
    rw [bind_ok hread, bind_ok hread']
    exact hrun
  · obtain ⟨v, hv, rfl, hsound⟩ := hP r hr
    exact ⟨hv, hsound⟩

end Detect

/-! ### Slashings -/

section Slashings

variable {hash : Bytes → Root} {sum : AttesterSlashing → Root} {s : Store}
  {U : List IndexedAttestation} {att : IndexedAttestation} {r : DetectionResult}
  {m : Std.ExtTreeMap Root (List IndexedAttestation)} {atts : List IndexedAttestation}

theorem eq_of_resultHash_eq (hhash : Set.InjOn hash {b | b.length = 10}) {r' : DetectionResult}
    (h : resultHash hash r = resultHash hash r') :
    r.slashableEpoch = r'.slashableEpoch ∧ r.sigBytes = r'.sigBytes := by
  have hbytes := hhash (by simp) (by simp) h
  obtain ⟨hepoch, hsig⟩ := append_inj hbytes (by simp)
  simp only [List.cons.injEq, and_true] at hsig
  exact ⟨ofUint64LE_inj.mp hepoch, Prod.ext hsig.1 hsig.2⟩

theorem mapResultsToAtts_spec (hhash : Set.InjOn hash {b | b.length = 10}) (hreadable : s.Readable)
    (results : List DetectionResult)
    (hm : ∀ r atts, m[resultHash hash r]? = some atts → s.indexedAttestationsWithPrefix
      r.slashableEpoch [r.sigBytes.1, r.sigBytes.2] = .ok atts) :
    ∃ m', mapResultsToAtts hash s results m = .ok m' ∧
      (∀ (k : Root) atts, m[k]? = some atts → m'[k]? = some atts) ∧
      ∀ r ∈ results, ∃ atts, m'[resultHash hash r]? = some atts ∧
        s.indexedAttestationsWithPrefix r.slashableEpoch [r.sigBytes.1, r.sigBytes.2] =
          .ok atts := by
  induction results generalizing m with
  | nil => exact ⟨m, rfl, fun _ _ h => h, by simp⟩
  | cons r rest ih =>
    cases hr : m[resultHash hash r]? with
    | some atts =>
      obtain ⟨m', hrun, hsub, hall⟩ := ih hm
      refine ⟨m', ?_, hsub, forall_mem_cons.mpr ⟨⟨atts, hsub _ _ hr, hm r atts hr⟩, hall⟩⟩
      simp only [mapResultsToAtts, hr]
      exact hrun
    | none =>
      obtain ⟨atts, hatts, -⟩ :=
        indexedAttestationsWithPrefix_spec hreadable r.slashableEpoch r.sigBytes
      have hm' : ∀ r' atts', (m.insert (resultHash hash r) atts)[resultHash hash r']? =
          some atts' → s.indexedAttestationsWithPrefix r'.slashableEpoch
            [r'.sigBytes.1, r'.sigBytes.2] = .ok atts' := by
        intro r' atts' hr'
        rw [TreeMap.getElem?_insert] at hr'
        split at hr'
        · next heq =>
          obtain ⟨hepoch, hsig⟩ := eq_of_resultHash_eq hhash heq
          rw [hepoch, hsig, hatts, some.inj hr']
        · exact hm r' atts' hr'
      obtain ⟨m', hrun, hsub, hall⟩ := ih hm'
      refine ⟨m', ?_, fun k atts' hk => hsub k atts' ?_, forall_mem_cons.mpr
        ⟨⟨atts, hsub _ _ (by rw [TreeMap.getElem?_insert, if_pos rfl]), hatts⟩, hall⟩⟩
      · simp only [mapResultsToAtts, hr, hatts]
        exact hrun
      · rw [TreeMap.getElem?_insert, if_neg]
        · exact hk
        · rintro rfl
          rw [hr] at hk
          cases hk

/-- The slashing is of the attestation and one that can be encoded. -/
def AttesterSlashing.Has (slashing : AttesterSlashing) (att : IndexedAttestation) : Prop :=
  (slashing.attestation1 = att ∧ slashing.attestation2.Marshals) ∨
    (slashing.attestation2 = att ∧ slashing.attestation1.Marshals)

variable (hmarshals : ∀ b ∈ atts, b.Marshals)

include hmarshals in
theorem detectSurroundVotes_spec (ha : a ∈ atts) (hv : r.validatorIndex ∈ a.attestingIndices)
    (hsur : isSurround att a = true ∨ isSurround a att = true) :
    ∃ slashing, detectSurroundVotes atts att r = .ok slashing ∧ slashing.Has att := by
  have hsome : (atts.find? fun b => (isSurround att b || isSurround b att) &&
      b.attestingIndices.contains r.validatorIndex).isSome := by
    rw [find?_isSome]
    exact ⟨a, ha, by simpa [hv] using hsur⟩
  obtain ⟨b, hb⟩ := isSome_iff_exists.mp hsome
  rw [detectSurroundVotes, hb]
  have hother := hmarshals b (mem_of_find?_eq_some hb)
  refine ⟨_, rfl, ?_⟩
  split
  · exact .inl ⟨rfl, hother⟩
  · exact .inr ⟨rfl, hother⟩

variable {slashing : AttesterSlashing} {slashings : List AttesterSlashing}

include hmarshals in
theorem detectDoubleVote_has (h : detectDoubleVote atts att r = some slashing) :
    slashing.Has att := by
  rw [detectDoubleVote, map_eq_some_iff] at h
  obtain ⟨b, hb, rfl⟩ := h
  exact .inl ⟨rfl, hmarshals b (mem_of_find?_eq_some hb)⟩

theorem detectDoubleVote_ne_none (ha : a ∈ atts) (hv : r.validatorIndex ∈ a.attestingIndices)
    (hdouble : isDoubleVote att a = true) : detectDoubleVote atts att r ≠ none := by
  rw [detectDoubleVote, Ne, map_eq_none_iff, find?_eq_none]
  intro hnone
  exact hnone a ha (by simp [hdouble, hv])

/-- The loop over the results does not fail, and a detection that leads to a slashable
attestation gives a slashing. -/
theorem slashingsOf_spec {results : List DetectionResult}
    (hmarshals : ∀ r ∈ results, ∀ a ∈ m[resultHash hash r]?.getD [], a.Marshals)
    (hsound : ∀ r ∈ results, Sound U att r)
    (hlook : ∀ r ∈ results, ∀ a, Leads U r a → a ∈ m[resultHash hash r]?.getD []) :
    ∃ slashings, slashingsOf hash m att results = .ok slashings ∧
      (∀ slashing ∈ slashings, slashing.Has att) ∧
      ∀ r ∈ results, Finds U att r → slashings ≠ [] := by
  induction results with
  | nil => exact ⟨[], rfl, by simp, by simp⟩
  | cons r rest ih =>
    obtain ⟨hsoundr, hsound⟩ := forall_mem_cons.mp hsound
    obtain ⟨hlookr, hlook⟩ := forall_mem_cons.mp hlook
    obtain ⟨hmarshalsr, hmarshals⟩ := forall_mem_cons.mp hmarshals
    obtain ⟨slashings, hrest, hhas, hfinds⟩ := ih hmarshals hsound hlook
    rw [slashingsOf, hrest]
    cases hkind : r.kind with
    | doubleVote =>
      refine ⟨_, rfl, fun slashing hmem => ?_, forall_mem_cons.mpr ⟨?_, ?_⟩⟩
      · rcases mem_append.mp hmem with hmem | hmem
        · exact detectDoubleVote_has hmarshalsr (mem_toList.mp hmem)
        · exact hhas slashing hmem
      · rintro (hcon | ⟨a, ha, hdouble⟩) hnil
        · rw [hkind] at hcon
          cases hcon
        · rw [append_eq_nil_iff, Option.toList_eq_nil_iff] at hnil
          exact detectDoubleVote_ne_none (hlookr a ha) ha.2.1 hdouble hnil.1
      · intro r' hr' hf hnil
        exact hfinds r' hr' hf (append_eq_nil_iff.mp hnil).2
    | surroundVote =>
      obtain ⟨a, ha, hsur⟩ := hsoundr hkind
      obtain ⟨slashing, hdetect, hhasr⟩ :=
        detectSurroundVotes_spec hmarshalsr (hlookr a ha) ha.2.1 hsur
      simp only [hdetect]
      exact ⟨slashing :: slashings, rfl, forall_mem_cons.mpr ⟨hhasr, hhas⟩,
        fun _ _ _ => cons_ne_nil _ _⟩

theorem clearDuplicates_spec (sum : AttesterSlashing → Root) (hatt : att.Marshals)
    (hhas : ∀ ss ∈ slashings, ss.Has att) (keys : List Root) :
    ∃ slashingList, clearDuplicates sum slashings keys = .ok slashingList ∧
      (∀ ss ∈ slashingList, ss ∈ slashings) ∧ (keys = [] → slashings ≠ [] → slashingList ≠ []) := by
  induction slashings generalizing keys with
  | nil => exact ⟨[], rfl, by simp, fun _ h => h⟩
  | cons ss rest ih =>
    obtain ⟨hss, hrest⟩ := forall_mem_cons.mp hhas
    have hhash : hashProto sum ss = .ok (sum ss) := by
      refine if_pos ?_
      rcases hss with ⟨rfl, hother⟩ | ⟨rfl, hother⟩
      · exact ⟨hatt, hother⟩
      · exact ⟨hother, hatt⟩
    rw [clearDuplicates, hhash]
    dsimp only
    split
    next hmem =>
      obtain ⟨slashingList, hrun, hsub, -⟩ := ih hrest keys
      refine ⟨slashingList, hrun, fun a ha => mem_cons_of_mem _ (hsub a ha), ?_⟩
      rintro rfl
      cases hmem
    next =>
      obtain ⟨slashingList, hrun, hsub, -⟩ := ih hrest (sum ss :: keys)
      rw [hrun]
      exact ⟨ss :: slashingList, rfl, forall_mem_cons.mpr ⟨mem_cons_self, fun a ha =>
        mem_cons_of_mem _ (hsub a ha)⟩, fun _ _ => cons_ne_nil _ _⟩

/-- `DetectAttesterSlashings` fails on no attestation, and finds every slashable one. -/
theorem detectAttesterSlashings_spec (hhash : Set.InjOn hash {b | b.length = 10}) (h : Tracks s U)
    (hstored : ∀ a ∈ U, s.Stored a) (hatt : WellFormed att) (hnear : ∀ a ∈ U, Near att a) :
    ∃ slashings s', detectAttesterSlashings hash sum att s = .ok slashings s' ∧ s.Same s' ∧
      (∀ slashing ∈ slashings, slashing.Has att) ∧
      ∀ a ∈ U, ∀ v ∈ a.attestingIndices, v ∈ att.attestingIndices → Slashable att a →
        slashings ≠ [] := by
  obtain ⟨results, s₁, hrun, hsame, hsound, hfinds⟩ :=
    detectSlashingsForAttestation_spec h hatt hnear
  rw [detectAttesterSlashings, bind_ok hrun]
  by_cases hnil : results = []
  · refine ⟨[], s₁, congrFun (if_pos hnil) s₁, hsame, by simp, fun a ha v hv hv' hslash => ?_⟩
    obtain ⟨r, hr, -⟩ := hfinds v hv' ⟨a, ha, hv, hslash⟩
    rw [hnil] at hr
    cases hr
  · have h₁ := h.of_same hsame
    obtain ⟨m, hmap, -, hlook⟩ := mapResultsToAtts_spec (m := ∅) hhash h₁.readable results (by simp)
    have hleads : ∀ r ∈ results, ∀ a, Leads U r a → a ∈ m[resultHash hash r]?.getD [] := by
      rintro r hr a ⟨ha, -, htarget, hsig⟩
      obtain ⟨atts, hatts, hread⟩ := hlook r hr
      obtain ⟨atts', hread', -, hmem⟩ :=
        indexedAttestationsWithPrefix_spec h₁.readable r.slashableEpoch r.sigBytes
      have heq : atts = atts' := Except.ok.inj (hread.symm.trans hread')
      have hstored₁ : s₁.Stored a := by
        rw [Stored, hsame.historic]
        exact hstored a ha
      rw [hatts, getD_some, heq]
      exact hmem a hstored₁ (h.wellFormed a ha).signed htarget hsig
    have hmarshals : ∀ r ∈ results, ∀ a ∈ m[resultHash hash r]?.getD [], a.Marshals := by
      intro r hr a ha
      obtain ⟨atts, hatts, hread⟩ := hlook r hr
      obtain ⟨atts', hread', hall, -⟩ :=
        indexedAttestationsWithPrefix_spec h₁.readable r.slashableEpoch r.sigBytes
      rw [hatts, getD_some, Except.ok.inj (hread.symm.trans hread')] at ha
      exact hall a ha
    obtain ⟨slashings, hslashings, hhas, hne⟩ :=
      slashingsOf_spec hmarshals (fun r hr => (hsound r hr).2) hleads
    obtain ⟨slashingList, hclear, hsub, hne'⟩ :=
      clearDuplicates_spec sum hatt.marshals hhas []
    refine ⟨slashingList, s₁, (congrFun (if_neg hnil) s₁).trans ?_, hsame,
      fun slashing hmem => hhas slashing (hsub slashing hmem), fun a ha v hv hv' hslash => ?_⟩
    · simp only [hmap, hslashings, hclear]
    · obtain ⟨r, hr, hf⟩ := hfinds v hv' ⟨a, ha, hv, hslash⟩
      exact hne' rfl (hne r hr hf)

end Slashings

end Vanguard.Slasher
