import Vanguard.Lib.EState
import Vanguard.Lib.Run
import Vanguard.Slasher.Database

/-!
The span cache in front of the database.

Cache and database together hold one array of bytes for every epoch: the one in the
cache if there is one, and else the stored one. Reading and evicting keep all of them,
and saving changes the one of its epoch.
-/

namespace Vanguard.Slasher

open Bytes EState TreeMap Option

namespace Store

variable {s : Store} {epoch : Epoch} {es : EpochStore} {evicted : Option (Epoch × EpochStore)}
  {c : Lru Epoch EpochStore}

def spanBytes (s : Store) (epoch : Epoch) : Bytes :=
  match s.flatSpanCache.peek epoch with
  | some es => es.spans
  | none => s.validatorsMinMaxSpan[ofUint64LE epoch]?.getD []

/-- All arrays consist of whole spans. -/
structure Valid (s : Store) : Prop where
  cached : ∀ epoch es, s.flatSpanCache.peek epoch = some es → es.Flat
  stored : ∀ epoch bytes, s.validatorsMinMaxSpan[ofUint64LE epoch]? = some bytes →
    bytes.length % spannerEncodedLength = 0 ∧ bytes.length < 2 ^ 63

theorem valid_new (m n : ℕ) : (Store.new m n).Valid where
  cached epoch es h := by simp [Store.new] at h
  stored epoch bytes h := by simp [Store.new] at h

theorem spanBytes_new (m n : ℕ) (epoch : Epoch) : (Store.new m n).spanBytes epoch = [] := rfl

theorem spanBytes_persist (base : Epoch → Option EpochStore) (hc : Lru.Evicts base c evicted)
    (epoch : Epoch) : (persistFlatSpanMaps { s with flatSpanCache := c } evicted).spanBytes epoch =
      match base epoch with
      | some es => es.spans
      | none => s.validatorsMinMaxSpan[ofUint64LE epoch]?.getD [] := by
  rcases hc with ⟨rfl, hc⟩ | ⟨x, rfl, hx, hc⟩
  · rw [spanBytes, persistFlatSpanMaps, hc]
  · rw [spanBytes, persistFlatSpanMaps]
    dsimp only
    rw [hc, getElem?_insert]
    simp only [ofUint64LE_inj]
    by_cases hkey : epoch = x.1
    · rw [if_pos hkey, if_pos hkey, hkey, hx]
      rfl
    · rw [if_neg hkey, if_neg hkey]

theorem Valid.persist (h : s.Valid)
    (base : Epoch → Option EpochStore) (hbase : ∀ a es, base a = some es → es.Flat)
    (hc : Lru.Evicts base c evicted) :
    (persistFlatSpanMaps { s with flatSpanCache := c } evicted).Valid := by
  rcases hc with ⟨rfl, hc⟩ | ⟨x, rfl, hx, hc⟩
  · exact ⟨fun a es ha => hbase a es ((hc a).symm.trans ha), h.stored⟩
  · refine ⟨fun a es ha => ?_, fun a bytes ha => ?_⟩
    · have ha' := (hc a).symm.trans ha
      split at ha'
      · cases ha'
      · exact hbase a es ha'
    · rw [persistFlatSpanMaps] at ha
      dsimp only at ha
      rw [getElem?_insert] at ha
      split at ha
      · rw [← some.inj ha]
        exact ⟨hbase _ _ hx, x.2.short⟩
      · exact h.stored a bytes ha

theorem flat_base (h : s.Valid) (hes : es.Flat) (epoch : Epoch) :
    ∀ a es', (if a = epoch then some es else s.flatSpanCache.peek a) = some es' → es'.Flat := by
  intro a es' ha
  split at ha
  · rw [← some.inj ha]
    exact hes
  · exact h.cached a es' ha

theorem Valid.cacheSpans (h : s.Valid) (hes : es.Flat) (epoch : Epoch) :
    (s.cacheSpans epoch es).Valid :=
  h.persist _ (flat_base h hes epoch) (s.flatSpanCache.evicts_add epoch es)

theorem spanBytes_cacheSpans (s : Store) (epoch : Epoch) (es : EpochStore) (a : Epoch) :
    (s.cacheSpans epoch es).spanBytes a = if a = epoch then es.spans else s.spanBytes a := by
  rw [cacheSpans, spanBytes_persist _ (s.flatSpanCache.evicts_add epoch es), spanBytes]
  by_cases ha : a = epoch
  · rw [if_pos ha, if_pos ha]
  · rw [if_neg ha, if_neg ha]

theorem Valid.evictSpans (h : s.Valid) (epoch : Epoch) : (s.evictSpans epoch).Valid :=
  h.persist _ h.cached (s.flatSpanCache.evicts_remove epoch)

theorem spanBytes_evictSpans (s : Store) (epoch a : Epoch) :
    (s.evictSpans epoch).spanBytes a = s.spanBytes a := by
  rw [evictSpans, spanBytes_persist _ (s.flatSpanCache.evicts_remove epoch)]
  rfl

/-! ### Reading and saving -/

theorem epochSpans_eq_ok (h : s.Valid) (epoch : Epoch) (fromCache : Bool) :
    ∃ es c, epochSpans epoch fromCache s = .ok es { s with flatSpanCache := c } ∧
      es.spans = s.spanBytes epoch ∧ es.Flat ∧ ∀ a, c.peek a = s.flatSpanCache.peek a := by
  have hflag : (fromCache && s.hasSpans epoch || s.hasSpans epoch) = s.hasSpans epoch := by
    cases fromCache <;> simp
  rw [epochSpans, hflag]
  cases hpeek : s.flatSpanCache.peek epoch with
  | some es =>
    have hhas : s.hasSpans epoch = true := by rw [hasSpans, hpeek]; rfl
    have hget : (s.flatSpanCache.get epoch).1 = some es := by rw [Lru.fst_get, hpeek]
    refine ⟨es, (s.flatSpanCache.get epoch).2, ?_, ?_, h.cached epoch es hpeek,
      fun a => Lru.peek_get _ _ _⟩
    · rw [if_pos hhas]
      split
      · next es' c hes =>
        rw [hes] at hget
        rw [some.inj hget, hes]
      · next hes =>
        rw [hes] at hget
        cases hget
    · rw [spanBytes, hpeek]
  | none =>
    have hhas : ¬ s.hasSpans epoch = true := by rw [hasSpans, hpeek]; exact Bool.false_ne_true
    rw [if_neg hhas]
    have hbytes : s.spanBytes epoch = s.validatorsMinMaxSpan[ofUint64LE epoch]?.getD [] := by
      rw [spanBytes, hpeek]
    obtain ⟨hflat, hshort⟩ : (s.spanBytes epoch).length % spannerEncodedLength = 0 ∧
        (s.spanBytes epoch).length < 2 ^ 63 := by
      rw [hbytes]
      cases hstored : s.validatorsMinMaxSpan[ofUint64LE epoch]? with
      | none => simp
      | some bytes => exact h.stored epoch bytes hstored
    obtain ⟨es, hes, hspans⟩ := EpochStore.new_eq_ok hflat hshort
    refine ⟨es, s.flatSpanCache, ?_, hspans, ?_, fun a => rfl⟩
    · rw [← hbytes, hes]
    · rw [EpochStore.Flat, hspans]
      exact hflat

/-- The stored attestations of one store are among those of another. -/
def Shrinks (s s' : Store) : Prop :=
  ∀ (k : Bytes) att, s'.historicIndexedAttestations[k]? = some att →
    s.historicIndexedAttestations[k]? = some att

theorem Shrinks.refl (s : Store) : s.Shrinks s := fun _ _ h => h

theorem Shrinks.trans {s₁ s₂ : Store} (h₁ : s.Shrinks s₁) (h₂ : s₁.Shrinks s₂) : s.Shrinks s₂ :=
  fun k att h => h₁ k att (h₂ k att h)

theorem shrinks_pruneAttHistory (s : Store) (epoch age : Epoch) :
    s.Shrinks (s.pruneAttHistory epoch age) := by
  intro k att h
  rw [pruneAttHistory] at h
  split at h
  · exact h
  · dsimp only at h
    rw [deleteWhile, getElem?_foldl_erase] at h
    split at h
    · cases h
    · exact h

theorem setObservedEpochs_eq (s : Store) (epoch : Epoch) :
    ∃ atts highest, s.setObservedEpochs epoch =
        { s with historicIndexedAttestations := atts, highestObservedEpoch := highest } ∧
      s.Shrinks (s.setObservedEpochs epoch) := by
  rw [setObservedEpochs]
  split
  · dsimp only
    split
    · have hshrinks := shrinks_pruneAttHistory { s with highestObservedEpoch := epoch } epoch
        weakSubjectivityPeriod
      refine ⟨(pruneAttHistory { s with highestObservedEpoch := epoch } epoch
        weakSubjectivityPeriod).historicIndexedAttestations, epoch, ?_, hshrinks⟩
      rw [pruneAttHistory]
      dsimp only
      split
      · rfl
      · rfl
    · exact ⟨_, _, rfl, Shrinks.refl s⟩
  · exact ⟨_, _, rfl, Shrinks.refl s⟩

theorem historic_cacheSpans (s : Store) (epoch : Epoch) (es : EpochStore) :
    (s.cacheSpans epoch es).historicIndexedAttestations = s.historicIndexedAttestations := by
  have hpersist : ∀ (s : Store) evicted,
      (s.persistFlatSpanMaps evicted).historicIndexedAttestations =
        s.historicIndexedAttestations := by
    intro s evicted
    cases evicted <;> rfl
  rw [cacheSpans, hpersist]

theorem Valid.of_eq {s' : Store} (h : s.Valid) (hc : s'.flatSpanCache = s.flatSpanCache)
    (hm : s'.validatorsMinMaxSpan = s.validatorsMinMaxSpan) : s'.Valid :=
  ⟨fun a es ha => h.cached a es (hc ▸ ha), fun a bytes ha => h.stored a bytes (hm ▸ ha)⟩

theorem spanBytes_of_eq {s' : Store} (hc : s'.flatSpanCache = s.flatSpanCache)
    (hm : s'.validatorsMinMaxSpan = s.validatorsMinMaxSpan) (a : Epoch) :
    s'.spanBytes a = s.spanBytes a := by
  rw [spanBytes, spanBytes, hc, hm]

theorem Valid.write (h : s.Valid) (hes : es.Flat) (epoch : Epoch) :
    Valid { s with
      validatorsMinMaxSpan := s.validatorsMinMaxSpan.insert (ofUint64LE epoch) es.spans } where
  cached := h.cached
  stored a bytes ha := by
    dsimp only at ha
    rw [getElem?_insert] at ha
    split at ha
    · rw [← some.inj ha]
      exact ⟨hes, es.short⟩
    · exact h.stored a bytes ha

theorem spanBytes_write (s : Store) {bytes : Bytes}
    (h : ∀ es, s.flatSpanCache.peek epoch = some es → es.spans = bytes) (a : Epoch) :
    spanBytes { s with
        validatorsMinMaxSpan := s.validatorsMinMaxSpan.insert (ofUint64LE epoch) bytes } a =
      if a = epoch then bytes else s.spanBytes a := by
  rw [spanBytes, spanBytes]
  dsimp only
  rw [getElem?_insert]
  simp only [ofUint64LE_inj]
  by_cases ha : a = epoch
  · rw [if_pos ha, if_pos ha, ha]
    cases hpeek : s.flatSpanCache.peek epoch with
    | none => rfl
    | some es => exact h es hpeek
  · rw [if_neg ha, if_neg ha]

theorem saveEpochSpans_eq_ok (h : s.Valid) (hes : es.Flat) (epoch : Epoch) (toCache : Bool) :
    ∃ s', saveEpochSpans epoch es toCache s = .ok () s' ∧ s'.Valid ∧ s.Shrinks s' ∧
      ∀ a, s'.spanBytes a = if a = epoch then es.spans else s.spanBytes a := by
  obtain ⟨atts, highest, hobserved, hshrinks⟩ := s.setObservedEpochs_eq epoch
  have hflat : ¬ es.spans.length % spannerEncodedLength ≠ 0 := not_not.mpr hes
  rw [hobserved] at hshrinks
  rw [saveEpochSpans, if_neg hflat, hobserved]
  dsimp only
  set s₁ : Store := { s with historicIndexedAttestations := atts, highestObservedEpoch := highest }
    with hs₁
  have hvalid : s₁.Valid := h.of_eq rfl rfl
  have hbytes : ∀ a, s₁.spanBytes a = s.spanBytes a := spanBytes_of_eq rfl rfl
  have hcache : s₁.Shrinks (s₁.cacheSpans epoch es) := fun k att hk => by
    rw [historic_cacheSpans] at hk
    exact hk
  cases toCache with
  | true =>
    refine ⟨_, rfl, hvalid.cacheSpans hes epoch, hshrinks.trans hcache, fun a => ?_⟩
    rw [Bool.true_or, if_pos rfl, spanBytes_cacheSpans, hbytes]
  | false =>
    rw [Bool.false_or, if_neg Bool.false_ne_true]
    by_cases hhas : s₁.hasSpans epoch = true
    · rw [if_pos hhas]
      refine ⟨_, rfl, (hvalid.cacheSpans hes epoch).write hes epoch, hshrinks.trans hcache,
        fun a => ?_⟩
      rw [spanBytes_write, spanBytes_cacheSpans, hbytes]
      · split
        · rfl
        · rfl
      · intro es' hes'
        have hsame := s₁.spanBytes_cacheSpans epoch es epoch
        rw [if_pos rfl, spanBytes, hes'] at hsame
        exact hsame
    · rw [if_neg hhas]
      refine ⟨_, rfl, hvalid.write hes epoch, hshrinks, fun a => ?_⟩
      rw [spanBytes_write, hbytes]
      intro es' hes'
      rw [hasSpans, hes'] at hhas
      exact absurd rfl hhas

end Store

/-! ### Runs -/

inductive SpanOp where
  | read (epoch : Epoch) (fromCache : Bool)
  | save (epoch : Epoch) (es : EpochStore) (toCache : Bool)
  | evict (epoch : Epoch)
  deriving DecidableEq

namespace SpanOp

def apply (s : Store) : SpanOp → Store
  | read epoch fromCache => final (epochSpans epoch fromCache) s
  | save epoch es toCache => final (saveEpochSpans epoch es toCache) s
  | evict epoch => s.evictSpans epoch

/-- The store that was saved for an epoch after an operation, if it was `saved` before.
A store of the wrong length is not saved. -/
def saved (saved : Option EpochStore) (e : Epoch) : SpanOp → Option EpochStore
  | read _ _ => saved
  | save epoch es _ => if epoch = e ∧ es.Flat then some es else saved
  | evict _ => saved

/-- The store that was saved most recently for an epoch. -/
def lastSaved (ops : List SpanOp) (e : Epoch) : Option EpochStore :=
  ops.foldl (fun es op => op.saved es e) none

theorem lastSaved_concat (ops : List SpanOp) (op : SpanOp) (e : Epoch) :
    lastSaved (ops ++ [op]) e = op.saved (lastSaved ops e) e := by
  rw [lastSaved, List.foldl_append]
  rfl

def bytesOf (saved : Option EpochStore) : Bytes := (saved.map EpochStore.spans).getD []

theorem spanBytes_apply {s : Store} (h : s.Valid) (op : SpanOp) :
    (op.apply s).Valid ∧ ∀ (saved : Option EpochStore) e, s.spanBytes e = bytesOf saved →
      (op.apply s).spanBytes e = bytesOf (op.saved saved e) := by
  cases op with
  | read epoch fromCache =>
    obtain ⟨es, c, hread, -, -, hc⟩ := Store.epochSpans_eq_ok h epoch fromCache
    rw [apply, final_of_ok hread]
    refine ⟨⟨fun a es' ha => h.cached a es' ((hc a).symm.trans ha), h.stored⟩,
      fun saved e hsaved => ?_⟩
    rw [SpanOp.saved, ← hsaved, Store.spanBytes, hc]
    rfl
  | save epoch es toCache =>
    by_cases hes : es.Flat
    · obtain ⟨s', hsave, hvalid, -, hbytes⟩ := Store.saveEpochSpans_eq_ok h hes epoch toCache
      rw [apply, final_of_ok hsave]
      refine ⟨hvalid, fun saved e hsaved => ?_⟩
      rw [hbytes, SpanOp.saved]
      by_cases he : e = epoch
      · rw [if_pos he, if_pos ⟨he.symm, hes⟩]
        rfl
      · rw [if_neg he, if_neg fun hcon => he hcon.1.symm, hsaved]
    · have hsave : saveEpochSpans epoch es toCache s = .error (.span .wrongSize) s := by
        rw [saveEpochSpans]
        exact if_pos hes
      rw [apply, final_of_error hsave]
      refine ⟨h, fun saved e hsaved => ?_⟩
      rw [SpanOp.saved, if_neg fun hcon => hes hcon.2, hsaved]
  | evict epoch =>
    refine ⟨h.evictSpans epoch, fun saved e hsaved => ?_⟩
    rw [apply, Store.spanBytes_evictSpans, SpanOp.saved, hsaved]

end SpanOp

def afterSpans (size : ℕ) (ops : List SpanOp) : Store :=
  ops.foldl SpanOp.apply (Store.new size highestAttCacheSize)

theorem spanBytes_afterSpans (size : ℕ) (ops : List SpanOp) :
    (afterSpans size ops).Valid ∧
      ∀ e, (afterSpans size ops).spanBytes e = SpanOp.bytesOf (SpanOp.lastSaved ops e) := by
  induction ops using List.reverseRecOn with
  | nil => exact ⟨Store.valid_new _ _, Store.spanBytes_new _ _⟩
  | append_singleton ops op ih =>
    obtain ⟨hvalid, hbytes⟩ := ih
    obtain ⟨hvalid', hstep⟩ := SpanOp.spanBytes_apply hvalid op
    have hconcat : afterSpans size (ops ++ [op]) = op.apply (afterSpans size ops) := by
      rw [afterSpans, List.foldl_append]
      rfl
    rw [hconcat]
    refine ⟨hvalid', fun e => ?_⟩
    rw [hstep _ e (hbytes e), SpanOp.lastSaved_concat]

/-- After every run, `EpochSpans` returns a store with the spans of the one that was
saved last for its epoch, and an empty one if there is none. -/
theorem epochSpans_coherent (size : ℕ) (ops : List SpanOp) (epoch : Epoch) (fromCache : Bool) :
    ∃ es s', epochSpans epoch fromCache (afterSpans size ops) = .ok es s' ∧
      match SpanOp.lastSaved ops epoch with
      | some saved => ∀ idx, es.getValidatorSpan idx = saved.getValidatorSpan idx
      | none => es.spans = [] ∧ ∀ idx, es.getValidatorSpan idx = .ok Span.zero := by
  obtain ⟨hvalid, hbytes⟩ := spanBytes_afterSpans size ops
  obtain ⟨es, c, hread, hspans, hflat, -⟩ := Store.epochSpans_eq_ok hvalid epoch fromCache
  refine ⟨es, _, hread, ?_⟩
  rw [hbytes] at hspans
  cases hsaved : SpanOp.lastSaved ops epoch with
  | some saved =>
    rw [hsaved] at hspans
    exact EpochStore.getValidatorSpan_congr hspans
  | none =>
    have hnil : es.spans = [] := by
      rw [hspans, hsaved]
      rfl
    refine ⟨hnil, fun idx => ?_⟩
    rw [EpochStore.getValidatorSpan_eq hflat, EpochStore.span, hnil, EpochStore.spanIn_nil]

end Vanguard.Slasher
