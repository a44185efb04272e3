import Vanguard.Lib.MinMaxSpan
import Vanguard.Slasher.SpanStore
import Vanguard.Slasher.Spanner

/-!
What `UpdateSpans` does to the spans.

The loops over epochs stop for a validator at the first epoch where its span is not
improved. If no span that is visited later could be improved either, they improve
every span they could.
-/

namespace Vanguard.Slasher

open Bytes EpochStore List BitVec Nat Prod EState

namespace Store

variable {s s' s₁ s₂ : Store} {f : Epoch → ValidatorIndex → Span → Span} {es : EpochStore}
  {g : Epoch → ValidatorIndex → Span → Span}

def span (s : Store) (epoch : Epoch) (v : ValidatorIndex) : Span := spanIn (s.spanBytes epoch) v

/-- Two stores that no reader of spans or attestations can tell apart. -/
structure Same (s s' : Store) : Prop where
  valid : s'.Valid
  span : ∀ e v, s'.span e v = s.span e v
  historic : s'.historicIndexedAttestations = s.historicIndexedAttestations

theorem Same.trans (h₁ : s.Same s₁) (h₂ : s₁.Same s₂) : s.Same s₂ where
  valid := h₂.valid
  span e v := (h₂.span e v).trans (h₁.span e v)
  historic := h₂.historic.trans h₁.historic

/-- A store whose spans are those of another one after a change. -/
structure Updates (f : Epoch → ValidatorIndex → Span → Span) (s s' : Store) : Prop where
  valid : s'.Valid
  span : ∀ e v, s'.span e v = f e v (s.span e v)
  shrinks : s.Shrinks s'

theorem Updates.trans (h₁ : Updates f s s₁)
    (h₂ : Updates g s₁ s₂) : Updates (fun e v sp => g e v (f e v sp)) s s₂ where
  valid := h₂.valid
  span e v := by rw [h₂.span, h₁.span]
  shrinks := h₁.shrinks.trans h₂.shrinks

theorem Same.shrinks (h : s.Same s') : s.Shrinks s' := fun _ _ hk => h.historic ▸ hk

theorem Same.updates (h₁ : s.Same s₁) (h₂ : Updates f s₁ s₂) : Updates f s s₂ where
  valid := h₂.valid
  span e v := by rw [h₂.span, h₁.span]
  shrinks := h₁.shrinks.trans h₂.shrinks

theorem Updates.congr (h : Updates f s s')
    (hfg : ∀ e v, f e v (s.span e v) = g e v (s.span e v)) : Updates g s s' :=
  ⟨h.valid, fun e v => (h.span e v).trans (hfg e v), h.shrinks⟩

theorem epochSpans_spec (h : s.Valid) (epoch : Epoch) (fromCache : Bool) :
    ∃ es s', epochSpans epoch fromCache s = .ok es s' ∧ s.Same s' ∧ es.Flat ∧
      ∀ v, es.span v = s.span epoch v := by
  obtain ⟨es, c, hread, hspans, hflat, hc⟩ := epochSpans_eq_ok h epoch fromCache
  refine ⟨es, _, hread, ⟨⟨fun a es' ha => h.cached a es' ((hc a).symm.trans ha), h.stored⟩,
    fun e v => ?_, rfl⟩, hflat, fun v => ?_⟩
  · rw [span, span, spanBytes, hc]
    rfl
  · rw [EpochStore.span, hspans, span]

theorem writeThrough_spec (h : s.Valid) (hes : es.Flat) (epoch : Epoch) :
    Updates (fun e v sp => if e = epoch ∧ s.hasSpans epoch then es.span v else sp) s
      (s.writeThrough epoch es) := by
  rw [writeThrough]
  split
  · next hhas =>
    refine ⟨h.cacheSpans hes epoch, fun e v => ?_, fun k att hk => ?_⟩
    · rw [span, spanBytes_cacheSpans]
      by_cases he : e = epoch
      · rw [if_pos he, if_pos ⟨he, hhas⟩, EpochStore.span]
      · rw [if_neg he, if_neg fun hcon => he hcon.1, span]
    · rw [historic_cacheSpans] at hk
      exact hk
  · next hhas =>
    exact ⟨h, fun e v => by rw [if_neg fun hcon => hhas hcon.2], Shrinks.refl s⟩

theorem saveEpochSpans_spec (h : s.Valid) (hes : es.Flat) (epoch : Epoch) (toCache : Bool) :
    ∃ s', saveEpochSpans epoch es toCache s = .ok () s' ∧
      Updates (fun e v sp => if e = epoch then es.span v else sp) s s' := by
  obtain ⟨s', hsave, hvalid, hshrinks, hbytes⟩ := saveEpochSpans_eq_ok h hes epoch toCache
  refine ⟨s', hsave, hvalid, fun e v => ?_, hshrinks⟩
  rw [span, hbytes]
  split
  · rfl
  · rfl

theorem saveEpochSpans_writeThrough (h : s.Valid) (hes : es.Flat) (epoch : Epoch) (toCache : Bool) :
    ∃ s', saveEpochSpans epoch es toCache (s.writeThrough epoch es) = .ok () s' ∧
      Updates (fun e v sp => if e = epoch then es.span v else sp) s s' := by
  have hwrite := writeThrough_spec h hes epoch
  obtain ⟨s', hsave, hupdates⟩ := saveEpochSpans_spec hwrite.valid hes epoch toCache
  refine ⟨s', hsave, (hwrite.trans hupdates).congr fun e v => ?_⟩
  by_cases he : e = epoch
  · rw [if_pos he, if_pos he]
  · rw [if_neg he, if_neg he, if_neg fun hcon => he hcon.1]

end Store

/-! ### The loop over epochs -/

variable {sp : Span}

section Sweep

variable {improve : Span → Option Span} {valIndices : List ValidatorIndex} {s : Store}

def improved (improve : Span → Option Span) (sp : Span) : Span := (improve sp).getD sp

theorem improved_of_none (h : improve sp = none) : improved improve sp = sp := by
  rw [improved, h, Option.getD_none]

theorem improved_of_some {sp' : Span} (h : improve sp = some sp') : improved improve sp = sp' := by
  rw [improved, h, Option.getD_some]

/-- A second attempt changes nothing. -/
def Settles (improve : Span → Option Span) : Prop :=
  ∀ sp sp', improve sp = some sp' → improved improve sp' = sp'

theorem improveIndices_spec (hidem : Settles improve) (hfits : ∀ v ∈ valIndices, Fits v)
    {es : EpochStore} (hes : es.Flat) :
    ∃ es' indices, improveIndices improve valIndices es = (es', .ok indices) ∧ es'.Flat ∧
      (∀ v, es'.span v = if v ∈ valIndices then improved improve (es.span v) else es.span v) ∧
      ∀ v, v ∈ indices ↔ v ∈ valIndices ∧ improve (es.span v) ≠ none := by
  induction valIndices generalizing es with
  | nil => exact ⟨es, [], rfl, hes, by simp, by simp⟩
  | cons idx rest ih =>
    obtain ⟨hidx, hrest⟩ := forall_mem_cons.mp hfits
    rw [improveIndices, getValidatorSpan_eq hes]
    cases himp : improve (es.span idx) with
    | none =>
      obtain ⟨es', indices, hrun, hes', hspan, hmem⟩ := ih hrest hes
      refine ⟨es', indices, by simpa [himp] using hrun, hes', fun v => ?_, fun v => ?_⟩
      · rw [hspan]
        by_cases hv : v = idx
        · subst hv
          simp [improved_of_none himp]
        · simp [hv]
      · rw [hmem]
        by_cases hv : v = idx
        · subst hv
          simp [himp]
        · simp [hv]
    | some sp =>
      obtain ⟨es₁, hset, hes₁, hspan₁⟩ := setValidatorSpan_eq_ok hes hidx sp
      obtain ⟨es', indices, hrun, hes', hspan, hmem⟩ := ih hrest hes₁
      refine ⟨es', idx :: indices, by simp [himp, hset, hrun, Except.map], hes', fun v => ?_,
        fun v => ?_⟩
      · rw [hspan, hspan₁]
        by_cases hv : v = idx
        · subst hv
          simp [improved_of_some himp, hidem _ _ himp]
        · simp [hv]
      · rw [mem_cons, hmem, hspan₁]
        by_cases hv : v = idx
        · subst hv
          simp [himp]
        · simp [hv]

theorem sweepEpoch_spec (h : s.Valid) (hidem : Settles improve) (hfits : ∀ v ∈ valIndices, Fits v)
    (epoch : Epoch) (toCache : Bool) :
    ∃ indices s', sweepEpoch improve epoch toCache valIndices s = .ok indices s' ∧
      Store.Updates (fun e v sp =>
        if e = epoch ∧ v ∈ valIndices then improved improve sp else sp) s s' ∧
      ∀ v, v ∈ indices ↔ v ∈ valIndices ∧ improve (s.span epoch v) ≠ none := by
  obtain ⟨es, s₁, hread, hsame, hes, hspan⟩ := Store.epochSpans_spec h epoch true
  obtain ⟨es', indices, himp, hes', hspan', hmem⟩ := improveIndices_spec hidem hfits hes
  obtain ⟨s₂, hsave, hupdates⟩ := Store.saveEpochSpans_writeThrough hsame.valid hes' epoch toCache
  refine ⟨indices, s₂, ?_, (hsame.updates hupdates).congr fun e v => ?_, fun v => ?_⟩
  · rw [sweepEpoch, bind_ok hread, himp]
    exact bind_ok hsave
  · by_cases he : e = epoch
    · subst he
      simp [hspan', hspan]
    · simp [he]
  · rw [hmem, hspan]

/-- The loop tries to improve spans of visited epochs only, and it tries every span of a
validator until one of them is not improved. -/
theorem sweep_visits (improve : Epoch → Span → Option Span) (epochs : List (Epoch × Bool))
    (hidem : ∀ e, Settles (improve e)) (hnodup : (epochs.map fst).Nodup) (h : s.Valid)
    (hfits : ∀ v ∈ valIndices, Fits v) : ∃ s', ∃ tried : Epoch → ValidatorIndex → Bool,
      sweep improve epochs valIndices s = .ok () s' ∧
      Store.Updates (fun e v sp => if tried e v then improved (improve e) sp else sp) s s' ∧
      (∀ e v, tried e v → e ∈ epochs.map fst ∧ v ∈ valIndices) ∧
      ∀ before x after, epochs = before ++ x :: after → ∀ v ∈ valIndices,
        (∀ y ∈ before, improve y.1 (s.span y.1 v) ≠ none) → tried x.1 v := by
  induction epochs generalizing s valIndices with
  | nil => exact ⟨s, fun _ _ => false, rfl, ⟨h, by simp, Store.Shrinks.refl s⟩, by simp, by simp⟩
  | cons head rest ih =>
    obtain ⟨epoch, toCache⟩ := head
    rw [map_cons] at hnodup
    obtain ⟨hnew, hnodupRest⟩ := nodup_cons.mp hnodup
    obtain ⟨indices, s₁, hrun, hhead, hmem⟩ := sweepEpoch_spec h (hidem epoch) hfits epoch toCache
    have hupdates : Store.Updates (fun e v sp =>
        if e = epoch ∧ v ∈ valIndices then improved (improve e) sp else sp) s s₁ :=
      hhead.congr fun e v => ite_congr rfl (fun hcon => by rw [hcon.1]) fun _ => rfl
    rw [sweep, bind_ok hrun]
    by_cases hnil : indices = []
    · rw [if_pos hnil]
      refine ⟨s₁, fun e v => decide (e = epoch ∧ v ∈ valIndices), rfl,
        hupdates.congr fun e v => by simp only [decide_eq_true_eq], fun e v htried => ?_,
        fun before x after hsplit v hv hbefore => ?_⟩
      · obtain ⟨rfl, hv⟩ := of_decide_eq_true htried
        exact ⟨mem_cons_self, hv⟩
      · cases before with
        | nil =>
          rw [nil_append, List.cons.injEq] at hsplit
          exact decide_eq_true ⟨by rw [← hsplit.1], hv⟩
        | cons y before =>
          -- the validator is among those that were improved
          rw [List.cons_append, List.cons.injEq] at hsplit
          have himp := hbefore y mem_cons_self
          rw [← hsplit.1] at himp
          have hin := (hmem v).mpr ⟨hv, himp⟩
          rw [hnil] at hin
          cases hin
    · rw [if_neg hnil]
      have hsub : ∀ v ∈ indices ++ valIndices.drop indices.length, v ∈ valIndices := by
        intro v hv
        rcases mem_append.mp hv with hv | hv
        · exact ((hmem v).mp hv).1
        · exact mem_of_mem_drop hv
      have hspan : ∀ e ∈ rest.map fst, ∀ v, s₁.span e v = s.span e v := by
        intro e he v
        have hne : e ≠ epoch := fun heq => hnew (heq ▸ he)
        rw [hupdates.span, if_neg fun hcon => hne hcon.1]
      obtain ⟨s₂, tried, hrest, hupdates₂, htried, hreach⟩ := ih hnodupRest hupdates.valid
        fun v hv => hfits v (hsub v hv)
      refine ⟨s₂, fun e v => decide (e = epoch ∧ v ∈ valIndices) || tried e v, hrest,
        (hupdates.trans hupdates₂).congr fun e v => ?_, fun e v ht => ?_,
        fun before x after hsplit v hv hbefore => ?_⟩
      · simp only [Bool.or_eq_true, decide_eq_true_eq]
        by_cases ht : tried e v = true
        · have hne : ¬ (e = epoch ∧ v ∈ valIndices) := fun hcon => hnew (hcon.1 ▸ (htried e v ht).1)
          rw [if_pos ht, if_neg hne, if_pos (Or.inr ht)]
        · rw [if_neg ht]
          exact if_congr (by rw [or_iff_left ht]) rfl rfl
      · rcases Bool.or_eq_true_iff.mp ht with ht | ht
        · obtain ⟨rfl, hv⟩ := of_decide_eq_true ht
          exact ⟨mem_cons_self, hv⟩
        · exact ⟨mem_cons_of_mem _ (htried e v ht).1, hsub v (htried e v ht).2⟩
      · refine Bool.or_eq_true_iff.mpr ?_
        cases before with
        | nil =>
          rw [nil_append, List.cons.injEq] at hsplit
          exact Or.inl (decide_eq_true ⟨by rw [← hsplit.1], hv⟩)
        | cons y before =>
          rw [List.cons_append, List.cons.injEq] at hsplit
          obtain ⟨himp, hbefore⟩ := forall_mem_cons.mp hbefore
          rw [← hsplit.1] at himp
          have hin := mem_append_left (valIndices.drop indices.length) ((hmem v).mpr ⟨hv, himp⟩)
          refine Or.inr (hreach before x after hsplit.2 v hin fun z hz => ?_)
          rw [hspan z.1 (mem_map_of_mem (by rw [hsplit.2]; simp [hz]))]
          exact hbefore z hz

/-- The loop improves every span it could, if a span that is not improved says that no
span of the validator that is visited later can be improved either. -/
theorem sweep_spec (improve : Epoch → Span → Option Span) (epochs : List (Epoch × Bool))
    {P : Epoch → Prop} [DecidablePred P] {R : Epoch → Epoch → Prop}
    (hmem : ∀ e, e ∈ epochs.map fst ↔ P e) (horder : (epochs.map fst).Pairwise R)
    (hirrefl : ∀ e, ¬ R e e) (hidem : ∀ e, Settles (improve e)) (h : s.Valid)
    (hfits : ∀ v ∈ valIndices, Fits v)
    (hclosed : ∀ e₁ e₂, P e₁ → P e₂ → R e₁ e₂ → ∀ v ∈ valIndices,
      improve e₁ (s.span e₁ v) = none → improve e₂ (s.span e₂ v) = none) :
    ∃ s', sweep improve epochs valIndices s = .ok () s' ∧
      Store.Updates (fun e v sp =>
        if P e ∧ v ∈ valIndices then improved (improve e) sp else sp) s s' := by
  obtain ⟨s', tried, hrun, hupdates, htried, hreach⟩ := sweep_visits improve epochs hidem
    (horder.imp fun {a b} hab (heq : a = b) => hirrefl a (by rwa [← heq] at hab)) h hfits
  refine ⟨s', hrun, hupdates.congr fun e v => ?_⟩
  by_cases ht : tried e v = true
  · obtain ⟨he, hv⟩ := htried e v ht
    rw [if_pos ht, if_pos ⟨(hmem e).mp he, hv⟩]
  · rw [if_neg ht]
    split
    · next hin =>
      obtain ⟨x, hx, rfl⟩ := mem_map.mp ((hmem e).mpr hin.1)
      obtain ⟨before, after, rfl⟩ := append_of_mem hx
      -- an earlier span of the validator was not improved
      have hstop : ∃ y ∈ before, improve y.1 (s.span y.1 v) = none := by
        by_contra hnone
        push Not at hnone
        exact ht (hreach before x after rfl v hin.2 hnone)
      obtain ⟨y, hy, hnone⟩ := hstop
      have hyP := (hmem y.1).mp (mem_map_of_mem (mem_append_left _ hy))
      rw [map_append, pairwise_append] at horder
      refine (improved_of_none (hclosed y.1 x.1 hyP hin.1 ?_ v hin.2 hnone)).symm
      exact horder.2.2 y.1 (mem_map_of_mem hy) x.1 mem_cons_self
    · rfl

end Sweep

/-! ### Signature bytes -/

def Span.mark (sigBytes : UInt8 × UInt8) (sp : Span) : Span :=
  { sp with hasAttested := true, sigBytes }

theorem markIndices_spec (sigBytes : UInt8 × UInt8) {valIndices : List ValidatorIndex}
    (hfits : ∀ v ∈ valIndices, Fits v) {es : EpochStore} (hes : es.Flat) :
    ∃ es' stopped, markIndices sigBytes valIndices es = (es', .ok stopped) ∧ es'.Flat ∧
      (∀ v, (es'.span v).minSpan = (es.span v).minSpan ∧
        (es'.span v).maxSpan = (es.span v).maxSpan) ∧
      (valIndices.Nodup → (∀ v ∈ valIndices, (es.span v).hasAttested = false) → stopped = false ∧
        ∀ v, es'.span v = if v ∈ valIndices then (es.span v).mark sigBytes else es.span v) := by
  induction valIndices generalizing es with
  | nil => exact ⟨es, false, rfl, hes, fun v => ⟨rfl, rfl⟩, fun _ _ => ⟨rfl, by simp⟩⟩
  | cons idx rest ih =>
    obtain ⟨hidx, hrest⟩ := forall_mem_cons.mp hfits
    rw [markIndices, getValidatorSpan_eq hes]
    dsimp only
    split
    · next hattested =>
      refine ⟨es, true, rfl, hes, fun v => ⟨rfl, rfl⟩, fun _ hnone => ?_⟩
      exact absurd hattested (by rw [hnone idx mem_cons_self]; exact Bool.false_ne_true)
    · obtain ⟨es₁, hset, hes₁, hspan₁⟩ :=
        setValidatorSpan_eq_ok hes hidx ((es.span idx).mark sigBytes)
      obtain ⟨es', stopped, hrun, hes', hkeeps, hmarks⟩ := ih hrest hes₁
      rw [Span.mark] at hset
      refine ⟨es', stopped, by rw [hset]; exact hrun, hes', fun v => ?_, fun hnodup hnone => ?_⟩
      · rw [(hkeeps v).1, (hkeeps v).2, hspan₁]
        split
        · next hv =>
          rw [hv]
          exact ⟨rfl, rfl⟩
        · exact ⟨rfl, rfl⟩
      · obtain ⟨hnew, hnodup⟩ := nodup_cons.mp hnodup
        obtain ⟨hstopped, hspan⟩ := hmarks hnodup fun v hv => by
          rw [hspan₁, if_neg fun heq : v = idx => hnew (heq ▸ hv)]
          exact hnone v (mem_cons_of_mem _ hv)
        refine ⟨hstopped, fun v => ?_⟩
        rw [hspan, hspan₁]
        by_cases hv : v = idx
        · subst hv
          simp [hnew]
        · simp [hv]

section Update

variable {s : Store} {att : IndexedAttestation} (disableLookback : Bool) (target : Epoch)
  {e : Epoch} {V : ValidatorIndex → Set (ℕ × ℕ)} {v : ValidatorIndex}

/-- An attestation whose votes can be recorded. -/
structure WellFormed (att : IndexedAttestation) : Prop where
  ordered : att.data.source.epoch < att.data.target.epoch
  inPeriod : att.data.target.epoch - att.data.source.epoch ≤ weakSubjectivityPeriod
  nodup : att.attestingIndices.Nodup
  fits : ∀ v ∈ att.attestingIndices, Fits v
  marshals : att.Marshals

theorem WellFormed.signed (h : WellFormed att) : 2 ≤ att.signature.length := by
  rw [h.marshals.2.2.2.2]
  decide

instance : Decidable (WellFormed att) :=
  -- not the instance that goes through all indices
  have : Decidable (∀ v ∈ att.attestingIndices, Fits v) := decidableBAll _ _
  decidable_of_iff (att.data.source.epoch < att.data.target.epoch ∧
      att.data.target.epoch - att.data.source.epoch ≤ weakSubjectivityPeriod ∧
      att.attestingIndices.Nodup ∧ (∀ v ∈ att.attestingIndices, Fits v) ∧
      att.Marshals)
    ⟨fun ⟨h₁, h₂, h₃, h₄, h₅⟩ => ⟨h₁, h₂, h₃, h₄, h₅⟩,
      fun h => ⟨h.ordered, h.inPeriod, h.nodup, h.fits, h.marshals⟩⟩

/-- An attestation whose distances fit a span. -/
structure Recordable (att : IndexedAttestation) : Prop where
  ordered : att.data.source.epoch < att.data.target.epoch
  inPeriod : att.data.target.epoch - att.data.source.epoch ≤ weakSubjectivityPeriod
  fits : ∀ v ∈ att.attestingIndices, Fits v

theorem WellFormed.recordable (h : WellFormed att) : Recordable att :=
  ⟨h.ordered, h.inPeriod, h.fits⟩

theorem Recordable.source_lt (h : Recordable att) :
    att.data.source.epoch.toNat < att.data.target.epoch.toNat := h.ordered

theorem Recordable.distance (h : Recordable att) :
    (att.data.target.epoch - att.data.source.epoch).toNat =
      att.data.target.epoch.toNat - att.data.source.epoch.toNat ∧
    att.data.target.epoch.toNat - att.data.source.epoch.toNat ≤ 54000 := by
  have hlt := h.source_lt
  have htoNat : (att.data.target.epoch - att.data.source.epoch).toNat =
      att.data.target.epoch.toNat - att.data.source.epoch.toNat :=
    toNat_sub_of_le (Nat.le_of_lt hlt)
  have hle : (att.data.target.epoch - att.data.source.epoch).toNat ≤ 54000 := h.inPeriod
  exact ⟨htoNat, htoNat ▸ hle⟩

/-- `saveSigBytes` leaves the marked spans in the last epoch of the attestation. If marking stops
early they may not be written. -/
theorem saveSigBytes_spec (h : s.Valid) {last : Epoch}
    (hlast : (if att.data.target.epoch < att.data.source.epoch then att.data.source.epoch
      else att.data.target.epoch) = last) {Q : EpochStore → Bool → Prop}
    (hmark : ∀ es : EpochStore, es.Flat → (∀ v, es.span v = s.span last v) → ∃ es' stopped,
      markIndices (sigBytesOf att.signature) att.attestingIndices es = (es', .ok stopped) ∧
        es'.Flat ∧ Q es' stopped) :
    ∃ s' es' stopped, ∃ written : Bool, saveSigBytes att s = .ok () s' ∧ Q es' stopped ∧
      (stopped = false → written = true) ∧
      Store.Updates (fun e v sp => if e = last ∧ written then es'.span v else sp) s s' := by
  obtain ⟨es, s₁, hread, hsame, hes, hspan⟩ := Store.epochSpans_spec h last true
  obtain ⟨es', stopped, hmarked, hes', hQ⟩ := hmark es hes hspan
  have hrun : saveSigBytes att s =
      (do let stopped ← ofSpan (.ok stopped)
          if stopped then return () else saveEpochSpans last es' true :
        EStateM SlasherErr Store Unit) (s₁.writeThrough last es') := by
    rw [saveSigBytes, hlast, bind_ok hread, hmarked]
    rfl
  cases stopped with
  | true =>
    have hwrite := hsame.updates (Store.writeThrough_spec hsame.valid hes' last)
    exact ⟨_, es', true, _, hrun, hQ, fun hfalse => (nomatch hfalse), hwrite⟩
  | false =>
    obtain ⟨s₂, hsave, hupdates⟩ := Store.saveEpochSpans_writeThrough hsame.valid hes' last true
    refine ⟨s₂, es', false, true, hrun.trans hsave, hQ, fun _ => rfl, ?_⟩
    exact (hsame.updates hupdates).congr fun e v => by simp

theorem WellFormed.last_eq (hatt : WellFormed att) :
    (if att.data.target.epoch < att.data.source.epoch then att.data.source.epoch
      else att.data.target.epoch) = att.data.target.epoch :=
  if_neg (BitVec.not_lt.mpr (BitVec.le_of_lt hatt.ordered))

theorem saveSigBytes_of_unmarked (h : s.Valid) (hatt : WellFormed att)
    (hnone : ∀ v ∈ att.attestingIndices,
      (s.span att.data.target.epoch v).hasAttested = false) :
    ∃ s', saveSigBytes att s = .ok () s' ∧
      Store.Updates (fun e v sp => if e = att.data.target.epoch ∧ v ∈ att.attestingIndices then
        sp.mark (sigBytesOf att.signature) else sp) s s' := by
  obtain ⟨s', es', stopped, written, hrun, ⟨hstopped, hspan⟩, hwritten, hupdates⟩ :=
    saveSigBytes_spec h hatt.last_eq fun es hes hspan => by
      obtain ⟨es', stopped, hrun, hes', -, hmarks⟩ :=
        markIndices_spec (sigBytesOf att.signature) hatt.fits hes
      simp only [hspan] at hmarks
      exact ⟨es', stopped, hrun, hes', hmarks hatt.nodup hnone⟩
  refine ⟨s', hrun, hupdates.congr fun e v => ?_⟩
  by_cases he : e = att.data.target.epoch
  · subst he
    simp [hwritten hstopped, hspan]
  · simp [he]

theorem saveSigBytes_of_marked (h : s.Valid) (hatt : WellFormed att)
    (hne : att.attestingIndices ≠ []) (hall : ∀ v ∈ att.attestingIndices,
      (s.span att.data.target.epoch v).hasAttested = true) :
    ∃ s', saveSigBytes att s = .ok () s' ∧ Store.Updates (fun _ _ sp => sp) s s' := by
  obtain ⟨idx, rest, hidx⟩ := exists_cons_of_ne_nil hne
  obtain ⟨s', es', -, written, hrun, hspan, -, hupdates⟩ :=
    saveSigBytes_spec (Q := fun es' _ => ∀ v, es'.span v = s.span att.data.target.epoch v) h
      hatt.last_eq fun es hes hspan => by
        refine ⟨es, true, ?_, hes, hspan⟩
        rw [hidx, markIndices, getValidatorSpan_eq hes]
        dsimp only
        rw [hspan, hall idx (by simp [hidx]), if_pos rfl]
  refine ⟨s', hrun, hupdates.congr fun e v => ?_⟩
  split
  · next hcon => rw [hspan, hcon.1]
  · rfl

/-- Two stores that differ in marks and signature bytes only. -/
structure Store.SameSpans (s s' : Store) : Prop where
  valid : s'.Valid
  minSpan : ∀ e v, (s'.span e v).minSpan = (s.span e v).minSpan
  maxSpan : ∀ e v, (s'.span e v).maxSpan = (s.span e v).maxSpan
  shrinks : s.Shrinks s'

/-- `saveSigBytes` keeps the distances, and every span but those of the last epoch of the
attestation. -/
theorem saveSigBytes_keeps (h : s.Valid) (hfits : ∀ v ∈ att.attestingIndices, Fits v) :
    ∃ s', saveSigBytes att s = .ok () s' ∧ s.SameSpans s' ∧ ∀ e v,
      e ≠ (if att.data.target.epoch < att.data.source.epoch then att.data.source.epoch
        else att.data.target.epoch) → s'.span e v = s.span e v := by
  generalize hlast : (if att.data.target.epoch < att.data.source.epoch then
    att.data.source.epoch else att.data.target.epoch) = last
  obtain ⟨s', es', -, written, hrun, hkeeps, -, hupdates⟩ :=
    saveSigBytes_spec h hlast fun es hes hspan => by
      obtain ⟨es', stopped, hrun, hes', hkeeps, -⟩ :=
        markIndices_spec (sigBytesOf att.signature) hfits hes
      simp only [hspan] at hkeeps
      exact ⟨es', stopped, hrun, hes', hkeeps⟩
  refine ⟨s', hrun, ⟨hupdates.valid, fun e v => ?_, fun e v => ?_, hupdates.shrinks⟩,
    fun e v he => ?_⟩
  · rw [hupdates.span]
    split
    · next hwritten => rw [(hkeeps v).1, hwritten.1]
    · rfl
  · rw [hupdates.span]
    split
    · next hwritten => rw [(hkeeps v).2, hwritten.1]
    · rfl
  · rw [hupdates.span, if_neg fun hwritten => he hwritten.1]

/-! ### The epochs of the loops -/

theorem toNat_setWidth_sub {a b : Epoch} (hle : b.toNat ≤ a.toNat)
    (hlt : a.toNat - b.toNat < 65536) : ((a - b).setWidth 16).toNat = a.toNat - b.toNat := by
  rw [toNat_setWidth, toNat_sub_of_le hle, mod_eq_of_lt hlt]

/-- The epoch where `updateMinSpan` stops. -/
def lookbackFloor (disableLookback : Bool) (epoch : ℕ) : ℕ :=
  if disableLookback then 0 else epoch - 128

theorem lookbackFloor_le (epoch : ℕ) : lookbackFloor disableLookback epoch ≤ epoch := by
  rw [lookbackFloor]
  split
  · exact Nat.zero_le epoch
  · exact sub_le epoch 128

theorem minSpanEpochs_spec (source : Epoch) :
    ((minSpanEpochs disableLookback source).map fst).Pairwise
        (fun e₁ e₂ => e₂.toNat < e₁.toNat) ∧
      ∀ e, e ∈ (minSpanEpochs disableLookback source).map fst ↔
        e.toNat ≤ (source - 1).toNat ∧
          lookbackFloor disableLookback (source - 1).toNat ≤ e.toNat := by
  set epoch := source - 1 with hepoch
  have hlt := epoch.isLt
  have hfloor := lookbackFloor_le disableLookback epoch.toNat
  have hrounds : (minSpanEpochs disableLookback source).map fst =
      (range (epoch.toNat - lookbackFloor disableLookback epoch.toNat + 1)).map
        fun i => epoch - BitVec.ofNat 64 i := by
    rw [minSpanEpochs, ← hepoch, List.map_map]
    refine congrArg (fun n => (range (n + 1)).map fun i => epoch - BitVec.ofNat 64 i) ?_
    have hlook : epochLookback.toNat = 128 := rfl
    cases disableLookback with
    | true => rw [if_pos rfl, sub_zero, lookbackFloor, if_pos rfl, Nat.sub_zero]
    | false =>
      rw [if_neg Bool.false_ne_true, lookbackFloor, if_neg Bool.false_ne_true]
      split
      · next h =>
        rw [lt_def, hlook] at h
        rw [sub_zero]
        omega
      · next h =>
        rw [lt_def, hlook] at h
        rw [sub_sub_cancel, hlook]
        omega
  have helem : ∀ i ≤ epoch.toNat, (epoch - BitVec.ofNat 64 i).toNat = epoch.toNat - i := by
    intro i hi
    have hi' : (BitVec.ofNat 64 i).toNat = i := by
      rw [toNat_ofNat, mod_eq_of_lt (by omega)]
    rw [toNat_sub_of_le (by rw [BitVec.le_def, hi']; exact hi), hi']
  rw [hrounds]
  refine ⟨?_, fun e => ?_⟩
  · rw [pairwise_map]
    refine pairwise_lt_range.imp_of_mem fun hi hj hij => ?_
    have hi := mem_range.mp hi
    have hj := mem_range.mp hj
    rw [helem _ (by omega), helem _ (by omega)]
    omega
  · simp only [mem_map, mem_range]
    constructor
    · rintro ⟨i, hi, rfl⟩
      rw [helem i (by omega)]
      omega
    · rintro ⟨hle, hge⟩
      refine ⟨epoch.toNat - e.toNat, by omega, eq_of_toNat_eq ?_⟩
      rw [helem _ (by omega)]
      omega

theorem maxSpanEpochs_spec (source target : Epoch) :
    ((maxSpanEpochs source target).map fst).Pairwise (fun e₁ e₂ => e₁.toNat < e₂.toNat) ∧
      ∀ e, e ∈ (maxSpanEpochs source target).map fst ↔
        (source + 1).toNat ≤ e.toNat ∧ e.toNat < target.toNat := by
  rw [maxSpanEpochs]
  set first := source + 1
  have htarget := target.isLt
  split
  · next h =>
    rw [lt_def] at h
    have hn : (target - first).toNat = target.toNat - first.toNat :=
      toNat_sub_of_le (Nat.le_of_lt h)
    have helem : ∀ i < target.toNat - first.toNat,
        (first + BitVec.ofNat 64 i).toNat = first.toNat + i := by
      intro i hi
      rw [toNat_add, toNat_ofNat]
      omega
    rw [hn, List.map_map]
    refine ⟨?_, fun e => ?_⟩
    · rw [pairwise_map]
      refine pairwise_lt_range.imp_of_mem fun hi hj hij => ?_
      simp only [Function.comp_apply]
      rw [helem _ (mem_range.mp hi), helem _ (mem_range.mp hj)]
      omega
    · simp only [mem_map, mem_range, Function.comp_apply]
      constructor
      · rintro ⟨i, hi, rfl⟩
        rw [helem i hi]
        omega
      · rintro ⟨h₁, h₂⟩
        refine ⟨e.toNat - first.toNat, by omega, eq_of_toNat_eq ?_⟩
        rw [helem _ (by omega)]
        omega
  · next h =>
    rw [lt_def] at h
    refine ⟨List.Pairwise.nil, fun e => ?_⟩
    rw [map_nil]
    constructor
    · intro hmem
      cases hmem
    · rintro ⟨h₁, h₂⟩
      omega

/-! ### Min and max spans -/

open MinMaxSpan

/-- The spans are the min and max spans of the votes of every validator. -/
structure Spanned (s : Store) (V : ValidatorIndex → Set (ℕ × ℕ)) : Prop where
  min : ∀ (e : Epoch) v, IsMinSpan 129 (V v) e.toNat (s.span e v).minSpan.toNat
  max : ∀ (e : Epoch) v, IsMaxSpan (V v) e.toNat (s.span e v).maxSpan.toNat

def IndexedAttestation.vote (att : IndexedAttestation) : ℕ × ℕ :=
  (att.data.source.epoch.toNat, att.data.target.epoch.toNat)

theorem settles_ite {P : Span → Prop} [DecidablePred P] {g : Span → Span}
    (hg : ∀ sp, g (g sp) = g sp) : Settles fun sp => if P sp then some (g sp) else none := by
  intro sp sp' h
  dsimp only at h
  split at h
  · cases h
    dsimp only [improved]
    split
    · exact hg sp
    · rfl
  · cases h

theorem settles_lowerMinSpan (e : Epoch) : Settles (lowerMinSpan target e) :=
  settles_ite fun _ => rfl

theorem settles_raiseMaxSpan (e : Epoch) : Settles (raiseMaxSpan target e) :=
  settles_ite fun _ => rfl

theorem lower_iff {target : Epoch} (hle : e.toNat ≤ target.toNat)
    (hlt : target.toNat - e.toNat < 65536) (sp : Span) :
    (sp.minSpan = 0 ∨ (target - e).setWidth 16 < sp.minSpan) ↔
      (sp.minSpan.toNat = 0 ∨ target.toNat - e.toNat < sp.minSpan.toNat) := by
  rw [lt_def, toNat_setWidth_sub hle hlt]
  exact or_congr toNat_inj.symm Iff.rfl

theorem raise_iff {target : Epoch} (hle : e.toNat ≤ target.toNat)
    (hlt : target.toNat - e.toNat < 65536) (sp : Span) :
    sp.maxSpan < (target - e).setWidth 16 ↔ sp.maxSpan.toNat < target.toNat - e.toNat := by
  rw [lt_def, toNat_setWidth_sub hle hlt]

theorem minSpan_improved {target : Epoch} (hle : e.toNat ≤ target.toNat)
    (hlt : target.toNat - e.toNat < 65536) (sp : Span) :
    (improved (lowerMinSpan target e) sp).minSpan.toNat =
      if sp.minSpan.toNat = 0 ∨ target.toNat - e.toNat < sp.minSpan.toNat then
        target.toNat - e.toNat else sp.minSpan.toNat := by
  simp only [improved, lowerMinSpan, lower_iff hle hlt]
  split
  · exact toNat_setWidth_sub hle hlt
  · rfl

theorem maxSpan_improved {target : Epoch} (hle : e.toNat ≤ target.toNat)
    (hlt : target.toNat - e.toNat < 65536) (sp : Span) :
    (improved (raiseMaxSpan target e) sp).maxSpan.toNat =
      if sp.maxSpan.toNat < target.toNat - e.toNat then target.toNat - e.toNat
      else sp.maxSpan.toNat := by
  simp only [improved, raiseMaxSpan, raise_iff hle hlt]
  split
  · exact toNat_setWidth_sub hle hlt
  · rfl

theorem improved_lowerMinSpan (e : Epoch) (sp : Span) :
    ∃ m, improved (lowerMinSpan target e) sp = { sp with minSpan := m } := by
  rw [improved, lowerMinSpan]
  split
  · exact ⟨_, rfl⟩
  · exact ⟨_, rfl⟩

theorem improved_raiseMaxSpan (e : Epoch) (sp : Span) :
    ∃ m, improved (raiseMaxSpan target e) sp = { sp with maxSpan := m } := by
  rw [improved, raiseMaxSpan]
  split
  · exact ⟨_, rfl⟩
  · exact ⟨_, rfl⟩

theorem updateMinSpan_spec (h : s.Valid) (hatt : Recordable att)
    (hmin : ∀ (e : Epoch) v, IsMinSpan 129 (V v) e.toNat (s.span e v).minSpan.toNat)
    (hV : ∀ v ∈ att.attestingIndices, ∀ vote ∈ V v,
      att.data.source.epoch.toNat < vote.1 → att.data.target.epoch.toNat < vote.2) :
    ∃ s', updateMinSpan false att s = .ok () s' ∧
      Store.Updates (fun e v sp =>
        if Ahead 129 e.toNat att.vote ∧ v ∈ att.attestingIndices then
          improved (lowerMinSpan att.data.target.epoch e) sp else sp) s s' := by
  have hlt := hatt.source_lt
  have hdist := hatt.distance.2
  rw [updateMinSpan]
  by_cases hzero : att.data.source.epoch < 1
  · have hsource : att.data.source.epoch.toNat < 1 := hzero
    rw [if_pos hzero]
    refine ⟨s, rfl, h, fun e v => ?_, Store.Shrinks.refl s⟩
    rw [if_neg]
    rintro ⟨hahead, -⟩
    have : e.toNat < att.data.source.epoch.toNat := hahead.1
    omega
  · have hsource : ¬ att.data.source.epoch.toNat < 1 := hzero
    have hswap : ¬ att.data.target.epoch < att.data.source.epoch :=
      BitVec.not_lt.mpr (BitVec.le_of_lt hatt.ordered)
    rw [if_neg hzero, if_neg hswap, if_neg hswap]
    have hone : (att.data.source.epoch - 1).toNat = att.data.source.epoch.toNat - 1 :=
      toNat_sub_of_le (Nat.le_of_not_lt hsource)
    obtain ⟨horder, hmem⟩ := minSpanEpochs_spec false att.data.source.epoch
    -- within the lookback no distance is truncated
    have hnone : ∀ e : Epoch, Ahead 129 e.toNat att.vote → ∀ sp,
        lowerMinSpan att.data.target.epoch e sp = none ↔ ¬ (sp.minSpan.toNat = 0 ∨
          att.data.target.epoch.toNat - e.toNat < sp.minSpan.toNat) := by
      intro e hahead sp
      have h₁ : e.toNat < att.data.source.epoch.toNat := hahead.1
      have h₂ : att.data.source.epoch.toNat ≤ e.toNat + 129 := hahead.2
      rw [lowerMinSpan, ite_eq_right_iff]
      simp only [reduceCtorEq, imp_false]
      exact not_congr (lower_iff (by omega) (by omega) sp)
    refine sweep_spec _ _ (fun e => ?_) horder (fun e => Nat.lt_irrefl _)
      (settles_lowerMinSpan _) h hatt.fits fun e₁ e₂ h₁ h₂ hlt v hv => ?_
    · rw [hmem, hone, lookbackFloor, if_neg Bool.false_ne_true, Ahead, IndexedAttestation.vote]
      omega
    · rw [hnone e₁ h₁, hnone e₂ h₂]
      exact (hmin e₁ v).not_lower_of_le (hmin e₂ v) (hV v hv) (Nat.le_of_lt hlt) h₂.2

theorem updateMaxSpan_spec (h : s.Valid) (hatt : Recordable att)
    (hmax : ∀ (e : Epoch) v, IsMaxSpan (V v) e.toNat (s.span e v).maxSpan.toNat) :
    ∃ s', updateMaxSpan att s = .ok () s' ∧
      Store.Updates (fun e v sp =>
        if Around e.toNat att.vote ∧ v ∈ att.attestingIndices then
          improved (raiseMaxSpan att.data.target.epoch e) sp else sp) s s' := by
  have hlt := hatt.source_lt
  have hdist := hatt.distance.2
  have hswap : ¬ att.data.target.epoch < att.data.source.epoch :=
    BitVec.not_lt.mpr (BitVec.le_of_lt hatt.ordered)
  rw [updateMaxSpan, if_neg hswap, if_neg hswap]
  obtain ⟨horder, hmem⟩ := maxSpanEpochs_spec att.data.source.epoch att.data.target.epoch
  have hfirst : (att.data.source.epoch + 1).toNat = att.data.source.epoch.toNat + 1 := by
    have htarget := att.data.target.epoch.isLt
    rw [toNat_add, show (1 : Epoch).toNat = 1 from rfl, mod_eq_of_lt (by omega)]
  have hnone : ∀ e : Epoch, Around e.toNat att.vote → ∀ sp,
      raiseMaxSpan att.data.target.epoch e sp = none ↔
        ¬ sp.maxSpan.toNat < att.data.target.epoch.toNat - e.toNat := by
    intro e haround sp
    have h₁ : att.data.source.epoch.toNat < e.toNat := haround.1
    have h₂ : e.toNat < att.data.target.epoch.toNat := haround.2
    rw [raiseMaxSpan, ite_eq_right_iff]
    simp only [reduceCtorEq, imp_false]
    exact not_congr (raise_iff (by omega) (by omega) sp)
  refine sweep_spec _ _ (fun e => ?_) horder (fun e => Nat.lt_irrefl _)
    (settles_raiseMaxSpan _) h hatt.fits fun e₁ e₂ h₁ h₂ hlt v hv => ?_
  · rw [hmem, hfirst]
    exact Iff.rfl
  · rw [hnone e₁ h₁, hnone e₂ h₂]
    exact (hmax e₁ v).not_raise_of_le (hmax e₂ v) (Nat.le_of_lt hlt) h₂.2

/-- The votes of every validator with those of a further attestation. -/
def withVote (V : ValidatorIndex → Set (ℕ × ℕ)) (att : IndexedAttestation) (v : ValidatorIndex) :
    Set (ℕ × ℕ) := if v ∈ att.attestingIndices then insert att.vote (V v) else V v

theorem withVote_of_mem (hv : v ∈ att.attestingIndices) :
    withVote V att v = insert att.vote (V v) := if_pos hv

theorem withVote_of_not_mem (hv : v ∉ att.attestingIndices) : withVote V att v = V v := if_neg hv

theorem isMinSpan_lowered (hatt : Recordable att)
    (h : IsMinSpan 129 (V v) e.toNat sp.minSpan.toNat) : IsMinSpan 129 (withVote V att v) e.toNat
      (if Ahead 129 e.toNat att.vote ∧ v ∈ att.attestingIndices then
        improved (lowerMinSpan att.data.target.epoch e) sp else sp).minSpan.toNat := by
  have hlt := hatt.source_lt
  have hdist := hatt.distance.2
  by_cases hv : v ∈ att.attestingIndices
  · rw [withVote_of_mem hv]
    by_cases hahead : Ahead 129 e.toNat att.vote
    · have h₁ : e.toNat < att.data.source.epoch.toNat := hahead.1
      have h₂ : att.data.source.epoch.toNat ≤ e.toNat + 129 := hahead.2
      rw [if_pos ⟨hahead, hv⟩, minSpan_improved (by omega) (by omega)]
      exact h.insert_of_ahead hahead hlt
    · rw [if_neg fun hcon => hahead hcon.1]
      exact h.insert_of_keep fun h => absurd h hahead
  · rw [withVote_of_not_mem hv, if_neg fun hcon => hv hcon.2]
    exact h

theorem isMaxSpan_raised (hatt : Recordable att)
    (h : IsMaxSpan (V v) e.toNat sp.maxSpan.toNat) : IsMaxSpan (withVote V att v) e.toNat
      (if Around e.toNat att.vote ∧ v ∈ att.attestingIndices then
        improved (raiseMaxSpan att.data.target.epoch e) sp else sp).maxSpan.toNat := by
  have hdist := hatt.distance.2
  by_cases hv : v ∈ att.attestingIndices
  · rw [withVote_of_mem hv]
    by_cases haround : Around e.toNat att.vote
    · have h₁ : att.data.source.epoch.toNat < e.toNat := haround.1
      have h₂ : e.toNat < att.data.target.epoch.toNat := haround.2
      rw [if_pos ⟨haround, hv⟩, maxSpan_improved (by omega) (by omega)]
      exact h.insert_of_around haround
    · rw [if_neg fun hcon => haround hcon.1]
      exact h.insert_of_keep fun h => absurd h haround
  · rw [withVote_of_not_mem hv, if_neg fun hcon => hv hcon.2]
    exact h

/-- The spans stay exact under `UpdateSpans`. The signature bytes are those that
`saveSigBytes` leaves. -/
theorem updateSpans_spec (hatt : Recordable att) (hs : Spanned s V)
    (hV : ∀ v ∈ att.attestingIndices, ∀ vote ∈ V v,
      att.data.source.epoch.toNat < vote.1 → att.data.target.epoch.toNat < vote.2)
    {s₁ : Store} (hsig : saveSigBytes att s = .ok () s₁) (hsame : s.SameSpans s₁) :
    ∃ s', updateSpans false att s = .ok () s' ∧ s'.Valid ∧ s.Shrinks s' ∧
      Spanned s' (withVote V att) ∧
      ∀ e v, (s'.span e v).hasAttested = (s₁.span e v).hasAttested ∧
        (s'.span e v).sigBytes = (s₁.span e v).sigBytes := by
  have hmin₁ : ∀ (e : Epoch) v, IsMinSpan 129 (V v) e.toNat (s₁.span e v).minSpan.toNat := by
    intro e v
    rw [hsame.minSpan]
    exact hs.min e v
  obtain ⟨s₂, hrun₂, h₂⟩ := updateMinSpan_spec hsame.valid hatt hmin₁ hV
  have hkeeps₂ : ∀ e v, ∃ m, s₂.span e v = { s₁.span e v with minSpan := m } := by
    intro e v
    rw [h₂.span]
    split
    · exact improved_lowerMinSpan _ _ _
    · exact ⟨_, rfl⟩
  have hmax₂ : ∀ (e : Epoch) v, IsMaxSpan (V v) e.toNat (s₂.span e v).maxSpan.toNat := by
    intro e v
    obtain ⟨m, hm⟩ := hkeeps₂ e v
    rw [hm, hsame.maxSpan]
    exact hs.max e v
  obtain ⟨s₃, hrun₃, h₃⟩ := updateMaxSpan_spec h₂.valid hatt hmax₂
  have hkeeps₃ : ∀ e v, ∃ m, s₃.span e v = { s₂.span e v with maxSpan := m } := by
    intro e v
    rw [h₃.span]
    split
    · exact improved_raiseMaxSpan _ _ _
    · exact ⟨_, rfl⟩
  refine ⟨s₃, ?_, h₃.valid, (hsame.shrinks.trans h₂.shrinks).trans h₃.shrinks, ⟨fun e v => ?_,
    fun e v => ?_⟩, fun e v => ?_⟩
  · rw [updateSpans, bind_ok hsig, bind_ok hrun₂]
    exact hrun₃
  · obtain ⟨m, hm⟩ := hkeeps₃ e v
    rw [hm, h₂.span]
    exact isMinSpan_lowered hatt (hmin₁ e v)
  · rw [h₃.span]
    exact isMaxSpan_raised hatt (hmax₂ e v)
  · obtain ⟨m₃, hm₃⟩ := hkeeps₃ e v
    obtain ⟨m₂, hm₂⟩ := hkeeps₂ e v
    rw [hm₃, hm₂]
    exact ⟨rfl, rfl⟩

end Update

/-- An attestation of the first validator. -/
def singleVote (source target : Epoch) : IndexedAttestation where
  attestingIndices := [0]
  data := ⟨0, 0, [], ⟨source, []⟩, ⟨target, []⟩⟩
  signature := []

theorem fits_singleVote (source target : Epoch) :
    ∀ v ∈ (singleVote source target).attestingIndices, Fits v :=
  forall_mem_singleton.mpr (by decide)

end Vanguard.Slasher
