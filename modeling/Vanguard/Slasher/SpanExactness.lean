import Vanguard.Slasher.DetectionRun

/-!
What the spans say about surround votes.

After any sequence of updates on attestations that do not contradict each other the min
and max spans of every epoch are those of all votes so far, whatever the span cache has
evicted in between.
-/

namespace Vanguard.Slasher

open EpochStore MinMaxSpan List Prod

section Exactness

variable {s : Store} {U atts : List IndexedAttestation} {att : IndexedAttestation}

/-- No validator could be slashed for two of the attestations. -/
def Compatible (atts : List IndexedAttestation) : Prop :=
  ∀ a ∈ atts, ∀ b ∈ atts, ∀ v ∈ a.attestingIndices, v ∈ b.attestingIndices → ¬ Slashable a b

theorem Spanned.update (h : s.Valid) (hs : Spanned s (votesOf U)) (hatt : Recordable att)
    (hcompat : Compatible (U ++ [att])) :
    ∃ s', updateSpans false att s = .ok () s' ∧ s'.Valid ∧ Spanned s' (votesOf (U ++ [att])) := by
  have hlater : ∀ a ∈ U, ∀ v ∈ a.attestingIndices, v ∈ att.attestingIndices →
      ¬ Slashable att a := fun a ha v hva hv =>
    hcompat att (by simp) a (by simp [ha]) v hv hva
  obtain ⟨s₁, hsig, hsame, -⟩ := saveSigBytes_keeps h hatt.fits
  obtain ⟨s', hrun, hvalid, -, hspanned, -⟩ :=
    updateSpans_spec hatt hs (later_of_compatible hlater) hsig hsame
  refine ⟨s', hrun, hvalid, ?_⟩
  rw [votesOf_concat]
  exact hspanned

theorem Spanned.updates (h : s.Valid) (hs : Spanned s (votesOf U))
    (hatts : ∀ a ∈ atts, Recordable a) (hcompat : Compatible (U ++ atts)) :
    ∃ s', atts.forM (updateSpans false) s = .ok () s' ∧ s'.Valid ∧
      Spanned s' (votesOf (U ++ atts)) := by
  induction atts generalizing s U with
  | nil => exact ⟨s, rfl, h, by rwa [append_nil]⟩
  | cons att rest ih =>
    obtain ⟨hatt, hrest⟩ := forall_mem_cons.mp hatts
    rw [append_cons] at hcompat ⊢
    obtain ⟨s₁, hrun₁, hvalid₁, hspanned₁⟩ := hs.update h hatt fun a ha b hb =>
      hcompat a (mem_append_left _ ha) b (mem_append_left _ hb)
    obtain ⟨s', hrun, hvalid, hspanned⟩ := ih hvalid₁ hspanned₁ hrest hcompat
    refine ⟨s', ?_, hvalid, hspanned⟩
    rw [forM_eq_forM, forM_cons, EState.bind_ok hrun₁]
    exact hrun

theorem Recordable.exact_distances (h : Recordable att) :
    (∀ e ∈ (minSpanEpochs false att.data.source.epoch).map fst,
      0 < att.data.source.epoch.toNat →
      ((att.data.target.epoch - e).setWidth 16).toNat =
        att.data.target.epoch.toNat - e.toNat) ∧
    ∀ e ∈ (maxSpanEpochs att.data.source.epoch att.data.target.epoch).map fst,
      ((att.data.target.epoch - e).setWidth 16).toNat =
        att.data.target.epoch.toNat - e.toNat := by
  have hlt := h.source_lt
  have hdist := h.distance.2
  refine ⟨fun e he hpos => ?_, fun e he => ?_⟩
  · have hone : (att.data.source.epoch - 1).toNat = att.data.source.epoch.toNat - 1 :=
      BitVec.toNat_sub_of_le hpos
    obtain ⟨hle, hge⟩ := ((minSpanEpochs_spec false _).2 e).mp he
    rw [lookbackFloor, if_neg Bool.false_ne_true] at hge
    exact toNat_setWidth_sub (by omega) (by omega)
  · have htarget := att.data.target.epoch.isLt
    have hnext : (att.data.source.epoch + 1).toNat = att.data.source.epoch.toNat + 1 := by
      rw [BitVec.toNat_add, show (1 : Epoch).toNat = 1 from rfl, Nat.mod_eq_of_lt (by omega)]
    obtain ⟨hge, hlt⟩ := ((maxSpanEpochs_spec _ _).2 e).mp he
    exact toNat_setWidth_sub (by omega) (by omega)

theorem exists_mem_votesOf {v : ValidatorIndex} {P : ℕ × ℕ → Prop} :
    (∃ vote ∈ votesOf atts v, P vote) ↔
      ∃ a ∈ atts, v ∈ a.attestingIndices ∧
        P (a.data.source.epoch.toNat, a.data.target.epoch.toNat) := by
  constructor
  · rintro ⟨_, ⟨a, ha, hv, rfl⟩, hP⟩
    exact ⟨a, ha, hv, hP⟩
  · rintro ⟨a, ha, hv, hP⟩
    exact ⟨_, ⟨a, ha, hv, rfl⟩, hP⟩

/-- The spans that detection reads decide surround votes: the min span those that the
attestation surrounds, within the lookback, and the max span those that surround it. -/
theorem spans_decide_surround_votes (spanCacheSize highestCacheSize : ℕ)
    (hatts : ∀ a ∈ atts, Recordable a) (hcompat : Compatible atts) (source target : Epoch)
    (hordered : source < target) (hperiod : target - source ≤ weakSubjectivityPeriod)
    (v : ValidatorIndex) :
    ∃ s spanMap s' span,
      atts.forM (updateSpans false) (Store.new spanCacheSize highestCacheSize) = .ok () s ∧
      epochSpans source true s = .ok spanMap s' ∧ spanMap.getValidatorSpan v = .ok span ∧
      ((0 < span.minSpan ∧ span.minSpan < (target - source).setWidth 16) ↔
        ∃ a ∈ atts, v ∈ a.attestingIndices ∧
          source.toNat < a.data.source.epoch.toNat ∧
          a.data.source.epoch.toNat ≤ source.toNat + 129 ∧
          a.data.target.epoch.toNat < target.toNat) ∧
      ((target - source).setWidth 16 < span.maxSpan ↔
        ∃ a ∈ atts, v ∈ a.attestingIndices ∧
          a.data.source.epoch.toNat < source.toNat ∧
          target.toNat < a.data.target.epoch.toNat) ∧
      ((target - source).setWidth 16).toNat = target.toNat - source.toNat ∧
      ∀ a ∈ atts,
        (∀ e ∈ (minSpanEpochs false a.data.source.epoch).map fst,
          0 < a.data.source.epoch.toNat →
          ((a.data.target.epoch - e).setWidth 16).toNat =
            a.data.target.epoch.toNat - e.toNat) ∧
        ∀ e ∈ (maxSpanEpochs a.data.source.epoch a.data.target.epoch).map fst,
          ((a.data.target.epoch - e).setWidth 16).toNat =
            a.data.target.epoch.toNat - e.toNat := by
  obtain ⟨s, hrun, hvalid, hspanned⟩ := @Spanned.updates _ [] _
    (Store.valid_new spanCacheSize highestCacheSize) (spanned_new _ _) hatts hcompat
  rw [nil_append] at hspanned
  obtain ⟨es, s', hread, -, hflat, hspan⟩ := Store.epochSpans_spec hvalid source true
  have hlt : source.toNat < target.toNat := hordered
  have hdist : ((target - source).setWidth 16).toNat = target.toNat - source.toNat := by
    refine toNat_setWidth_sub (Nat.le_of_lt hlt) ?_
    have hle : (target - source).toNat ≤ 54000 := hperiod
    rw [BitVec.toNat_sub_of_le (Nat.le_of_lt hlt)] at hle
    omega
  refine ⟨s, es, s', s.span source v, hrun, hread, ?_, ?_, ?_, hdist,
    fun a ha => (hatts a ha).exact_distances⟩
  · rw [getValidatorSpan_eq hflat, hspan]
  · rw [BitVec.lt_def, BitVec.lt_def, hdist]
    refine (hspanned.min source v).surrounds_iff.trans (exists_mem_votesOf.trans ?_)
    simp only [Ahead, and_assoc]
  · rw [BitVec.lt_def, hdist]
    exact ((hspanned.max source v).surrounded_iff hlt).trans exists_mem_votesOf

end Exactness

/-- A vote from 3 to 4 is seen to be surrounded by one from 1 to 6. -/
theorem surrounded_vote_seen : Compatible [singleVote 3 4, singleVote 4 7] ∧
    ∃ s spanMap s' span,
      [singleVote 3 4, singleVote 4 7].forM (updateSpans false) (Store.new 2 2) = .ok () s ∧
      epochSpans 1 true s = .ok spanMap s' ∧ spanMap.getValidatorSpan 0 = .ok span ∧
      0 < span.minSpan ∧ span.minSpan < (6 - 1 : Epoch).setWidth 16 := by
  have hpairs : ∀ a ∈ [singleVote 3 4, singleVote 4 7], ∀ b ∈ [singleVote 3 4, singleVote 4 7],
      ¬ Slashable a b := by
    unfold Slashable
    decide
  have hcompat : Compatible [singleVote 3 4, singleVote 4 7] := fun a ha b hb _ _ _ =>
    hpairs a ha b hb
  have hatts : ∀ a ∈ [singleVote 3 4, singleVote 4 7], Recordable a :=
    forall_mem_cons.mpr ⟨⟨by decide, by decide, fits_singleVote 3 4⟩,
      forall_mem_singleton.mpr ⟨by decide, by decide, fits_singleVote 4 7⟩⟩
  obtain ⟨s, spanMap, s', span, hrun, hread, hspan, hmin, -⟩ := @spans_decide_surround_votes
    [singleVote 3 4, singleVote 4 7] 2 2 hatts hcompat 1 6 (by decide) (by decide) 0
  obtain ⟨hpos, hlt⟩ := hmin.mpr
    ⟨singleVote 3 4, mem_cons_self, mem_singleton_self _, by decide⟩
  exact ⟨hcompat, s, spanMap, s', span, hrun, hread, hspan, hpos, hlt⟩

end Vanguard.Slasher
