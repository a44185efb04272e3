import Vanguard.Slasher.DetectionSafety

/-!
Runs of the slasher.

Every attestation is stored and then received. The spans keep track of the attestations
on which they were updated as long as none or all of the validators of an attestation
were marked for its target before: `saveSigBytes` stops at the first marked one.
-/

namespace Vanguard.Slasher

open Bytes EpochStore MinMaxSpan List Run Store

section Step

variable {s s' : Store} {U : List IndexedAttestation} {att : IndexedAttestation}

/-! ### Storing an attestation -/

theorem Store.span_eq (hcache : s'.flatSpanCache = s.flatSpanCache)
    (hstored : s'.validatorsMinMaxSpan = s.validatorsMinMaxSpan) (e : Epoch) (v : ValidatorIndex) :
    s'.span e v = s.span e v := by
  rw [Store.span, Store.span, spanBytes_of_eq hcache hstored]

theorem saveIndexedAttestation_spans (s : Store) (att : IndexedAttestation) :
    (s.saveIndexedAttestation att).flatSpanCache = s.flatSpanCache ∧
      (s.saveIndexedAttestation att).validatorsMinMaxSpan = s.validatorsMinMaxSpan := by
  rw [saveIndexedAttestation]
  split
  · exact ⟨rfl, rfl⟩
  · exact ⟨rfl, rfl⟩

theorem Store.Stored.save {a : IndexedAttestation} (h : s.Stored a) (att : IndexedAttestation) :
    (s.saveIndexedAttestation att).Stored a := by
  rw [saveIndexedAttestation]
  split
  · exact h
  · next hnone =>
    rw [Stored, TreeMap.getElem?_insert, if_neg]
    · exact h
    · intro hkey
      rw [Stored, hkey, hnone] at h
      cases h

theorem Store.Readable.save (h : s.Readable) (hatt : WellFormed att) :
    (s.saveIndexedAttestation att).Readable := by
  rw [saveIndexedAttestation]
  split
  · exact h
  · intro k a hk
    rw [TreeMap.getElem?_insert] at hk
    split at hk
    · next hkey =>
      obtain rfl := Option.some.inj hk
      have hsig := hatt.signed
      rw [hkey, IndexedAttestation.key, encodeEpochSig, length_append, length_ofUint64LE]
      exact ⟨by omega, hatt.marshals⟩
    · exact h k a hk

theorem Tracks.save (h : Tracks s U) (hatt : WellFormed att) :
    Tracks (s.saveIndexedAttestation att) U := by
  obtain ⟨hcache, hstored⟩ := saveIndexedAttestation_spans s att
  exact h.of_span (h.valid.of_eq hcache hstored) (h.readable.save hatt)
    (span_eq hcache hstored)

/-! ### Updating the highest attestations -/

section

variable (h : s.Valid)

include h

theorem Store.Valid.same_of_eq (hcache : s'.flatSpanCache = s.flatSpanCache)
    (hstored : s'.validatorsMinMaxSpan = s.validatorsMinMaxSpan)
    (hhistoric : s'.historicIndexedAttestations = s.historicIndexedAttestations) : s.Same s' :=
  ⟨h.of_eq hcache hstored, span_eq hcache hstored, hhistoric⟩

theorem same_highestAttestationOf (v : ValidatorIndex) : s.Same (s.highestAttestationOf v).2 := by
  rw [highestAttestationOf]
  split
  · dsimp only
    split
    · exact h.same_of_eq rfl rfl rfl
    · exact h.same_of_eq rfl rfl rfl
  · exact h.same_of_eq rfl rfl rfl

theorem same_persistHighestAttestations (x : Option (BitVec 64 × HighestSet)) :
    s.Same (s.persistHighestAttestations x) := by
  cases x with
  | none => exact h.same_of_eq rfl rfl rfl
  | some x => exact h.same_of_eq rfl rfl rfl

theorem same_saveHighestAttestation (highest : HighestAttestation) :
    s.Same (s.saveHighestAttestation highest) := by
  rw [saveHighestAttestation]
  split
  · have hcache : s.Same { s with highestAttestationCache :=
        (s.highestAttestationCache.add (highestAttSetkey highest.validatorId)
          (s.setWith (highestAttSetkey highest.validatorId) highest)).1 } :=
      h.same_of_eq rfl rfl rfl
    exact hcache.trans (same_persistHighestAttestations hcache.valid _)
  · exact h.same_of_eq rfl rfl rfl

/-- `UpdateHighestAttestation` touches neither spans nor attestations. -/
theorem same_updateHighestAttestation (att : IndexedAttestation) :
    s.Same (updateHighestAttestation s att) := by
  refine invariant_of_step (I := s.Same) (fun s' idx hs' => ?_) (h.same_of_eq rfl rfl rfl) _
  have hread := hs'.trans (same_highestAttestationOf hs'.valid idx)
  dsimp only
  split
  · exact hread.trans (same_saveHighestAttestation hread.valid _)
  · exact hread

end

/-! ### Updating the spans -/

/-- None or all of the validators of an attestation have attested to its target. -/
def NoneOrAll (U : List IndexedAttestation) (att : IndexedAttestation) : Prop :=
  (∀ v ∈ att.attestingIndices, ∀ a ∈ U, v ∈ a.attestingIndices →
      a.data.target.epoch ≠ att.data.target.epoch) ∨
    ∀ v ∈ att.attestingIndices, ∃ a ∈ U, v ∈ a.attestingIndices ∧
      a.data.target.epoch = att.data.target.epoch

instance (U : List IndexedAttestation) (att : IndexedAttestation) : Decidable (NoneOrAll U att) :=
  have : Decidable (∀ v ∈ att.attestingIndices, ∀ a ∈ U, v ∈ a.attestingIndices →
      a.data.target.epoch ≠ att.data.target.epoch) := decidableBAll _ _
  have : Decidable (∀ v ∈ att.attestingIndices, ∃ a ∈ U, v ∈ a.attestingIndices ∧
      a.data.target.epoch = att.data.target.epoch) := decidableBAll _ _
  inferInstanceAs (Decidable (_ ∨ _))

theorem votesOf_concat (U : List IndexedAttestation) (att : IndexedAttestation) :
    votesOf (U ++ [att]) = withVote (votesOf U) att := by
  ext v vote
  by_cases hv : v ∈ att.attestingIndices
  · simp only [withVote_of_mem hv, votesOf, Set.mem_ofPred_eq, Set.mem_insert_iff, mem_append,
      mem_singleton, or_and_right, exists_or, exists_eq_left, hv, true_and]
    rw [or_comm, eq_comm]
  · simp [withVote_of_not_mem hv, votesOf, or_and_right, exists_or, hv]

theorem later_of_compatible
    (hcompat : ∀ a ∈ U, ∀ v ∈ a.attestingIndices, v ∈ att.attestingIndices → ¬ Slashable att a) :
    ∀ v ∈ att.attestingIndices, ∀ vote ∈ votesOf U v,
      att.data.source.epoch.toNat < vote.1 → att.data.target.epoch.toNat < vote.2 := by
  rintro v hv vote ⟨a, ha, hva, rfl⟩ hsource
  by_contra hle
  rcases Nat.lt_or_eq_of_le (Nat.not_lt.mp hle) with hlt | heq
  · exact hcompat a ha v hva hv (.inr (.inl ((isSurround_iff att a).mpr ⟨hsource, hlt⟩)))
  · refine hcompat a ha v hva hv (.inl ((isDoubleVote_iff att a).mpr ⟨fun hdata => ?_, ?_⟩))
    · rw [hdata] at hsource
      exact Nat.lt_irrefl _ hsource
    · exact BitVec.eq_of_toNat_eq heq.symm

/-- The spans after an attestation that contradicts none of its validators' votes, when
`saveSigBytes` has changed marks and signature bytes by `g`. -/
theorem Tracks.update (h : Tracks s U) (hatt : WellFormed att)
    (hcompat : ∀ a ∈ U, ∀ v ∈ a.attestingIndices, v ∈ att.attestingIndices → ¬ Slashable att a)
    {g : Epoch → ValidatorIndex → Span → Span} {s₁ : Store} (hsig : saveSigBytes att s = .ok () s₁)
    (hg : Updates g s s₁)
    (hrest : ∀ e v sp, (g e v sp).minSpan = sp.minSpan ∧ (g e v sp).maxSpan = sp.maxSpan)
    (hkeep : ∀ e v sp, sp.hasAttested = true → (g e v sp).hasAttested = true)
    (hmark : ∀ v ∈ att.attestingIndices,
      (g att.data.target.epoch v (s.span att.data.target.epoch v)).hasAttested = true)
    (hpoint : ∀ e v, g e v (s.span e v) = s.span e v ∨ (e = att.data.target.epoch ∧
      v ∈ att.attestingIndices ∧ (g e v (s.span e v)).sigBytes = sigBytesOf att.signature)) :
    ∃ s', updateSpans false att s = .ok () s' ∧ Tracks s' (U ++ [att]) := by
  obtain ⟨s', hrun, hvalid, hshrinks, hspanned, hmarks⟩ :=
    updateSpans_spec hatt.recordable h.spanned (later_of_compatible hcompat) hsig ⟨hg.valid,
      fun e v => by rw [hg.span, (hrest _ _ _).1], fun e v => by rw [hg.span, (hrest _ _ _).2],
      hg.shrinks⟩
  simp only [hg.span] at hmarks
  refine ⟨s', hrun, hvalid, fun k a hk => h.readable k a (hshrinks k a hk), ?_, ?_, ?_, ?_, ?_⟩
  · rw [votesOf_concat]
    exact hspanned
  · intro a ha v hv
    rw [(hmarks _ _).1]
    rcases mem_append.mp ha with ha | ha
    · exact hkeep _ _ _ (h.marked a ha v hv)
    · rw [mem_singleton.mp ha] at hv ⊢
      exact hmark v hv
  · intro e v hattested
    rw [(hmarks e v).1] at hattested
    rw [(hmarks e v).2]
    rcases hpoint e v with hsame | ⟨rfl, hv, hbytes⟩
    · rw [hsame] at hattested ⊢
      obtain ⟨a, ha, hpointed⟩ := h.pointed e v hattested
      exact ⟨a, mem_append_left _ ha, hpointed⟩
    · exact ⟨att, mem_append_right _ mem_cons_self, hv, rfl, hbytes.symm⟩
  · exact forall_mem_append.mpr ⟨h.wellFormed, forall_mem_singleton.mpr hatt⟩
  · intro a ha b hb v hva hvb
    rcases mem_append.mp ha with ha | ha <;> rcases mem_append.mp hb with hb | hb
    · exact h.compatible a ha b hb v hva hvb
    · rw [mem_singleton.mp hb] at hvb ⊢
      exact fun hslash => hcompat a ha v hva hvb hslash.symm
    · rw [mem_singleton.mp ha] at hva ⊢
      exact hcompat b hb v hvb hva
    · rw [mem_singleton.mp ha, mem_singleton.mp hb]
      exact not_slashable_self att

/-- `UpdateSpans` on an attestation of which none or all validators are marked. -/
theorem Tracks.updateSpans (h : Tracks s U) (hatt : WellFormed att) (hmarked : NoneOrAll U att)
    (hcompat : ∀ a ∈ U, ∀ v ∈ a.attestingIndices, v ∈ att.attestingIndices →
      ¬ Slashable att a) :
    ∃ s', updateSpans false att s = .ok () s' ∧ Tracks s' (U ++ [att]) := by
  by_cases hnone : ∀ v ∈ att.attestingIndices,
      (s.span att.data.target.epoch v).hasAttested = false
  · obtain ⟨s₁, hsig, hg⟩ := saveSigBytes_of_unmarked h.valid hatt hnone
    refine h.update hatt hcompat hsig hg (fun e v sp => ?_) (fun e v sp hsp => ?_)
      (fun v hv => ?_) fun e v => ?_
    · split
      · exact ⟨rfl, rfl⟩
      · exact ⟨rfl, rfl⟩
    · split
      · rfl
      · exact hsp
    · rw [if_pos ⟨rfl, hv⟩]
      rfl
    · by_cases hev : e = att.data.target.epoch ∧ v ∈ att.attestingIndices
      · rw [if_pos hev]
        exact .inr ⟨hev.1, hev.2, rfl⟩
      · rw [if_neg hev]
        exact .inl rfl
  · push Not at hnone
    obtain ⟨w, hw, hmark⟩ := hnone
    rw [Ne, Bool.not_eq_false] at hmark
    -- one validator is marked, so all of them are
    have hall : ∀ v ∈ att.attestingIndices,
        (s.span att.data.target.epoch v).hasAttested = true := by
      rcases hmarked with hnone | hall
      · obtain ⟨a, ha, hwa, htarget, -⟩ := h.pointed _ w hmark
        exact absurd htarget (hnone w hw a ha hwa)
      · intro v hv
        obtain ⟨a, ha, hva, htarget⟩ := hall v hv
        rw [← htarget]
        exact h.marked a ha v hva
    obtain ⟨s₁, hsig, hg⟩ := saveSigBytes_of_marked h.valid hatt (ne_nil_of_mem hw) hall
    exact h.update hatt hcompat hsig hg (fun _ _ _ => ⟨rfl, rfl⟩) (fun _ _ _ hsp => hsp) hall
      fun _ _ => .inl rfl

end Step

/-! ### Runs -/

section Runs

variable (hash : Bytes → Root) (sum : AttesterSlashing → Root)

/-- The slasher on an empty database. -/
def Service.new (spanCacheSize : ℕ) : Service :=
  ⟨Store.new spanCacheSize highestAttCacheSize, []⟩

/-- Every attestation on which the spans were updated can be read back, and the spans are
updated on an attestation only if none or all of its validators were marked. -/
def Service.Keeps (x : Service) (att : IndexedAttestation) : Prop :=
  (∀ a ∈ (x.receive hash sum false att).updated,
      (x.receive hash sum false att).store.Stored a) ∧
    ((x.receive hash sum false att).updated = x.updated ∨ NoneOrAll x.updated att)

instance (x : Service) (att : IndexedAttestation) : Decidable (x.Keeps hash sum att) :=
  inferInstanceAs (Decidable (_ ∧ _))

/-- The slasher keeps track of the attestations it has updated the spans on, which are
among those it has received. -/
structure Service.Inv (atts : List IndexedAttestation) (x : Service) : Prop where
  tracks : Tracks x.store x.updated
  stored : ∀ a ∈ x.updated, x.store.Stored a
  received : ∀ a ∈ x.updated, a ∈ atts

open Service

theorem spanned_new (m n : ℕ) : Spanned (Store.new m n) (votesOf []) := by
  have hvotes : ∀ v, votesOf [] v = ∅ := fun v => by simp [votesOf]
  refine ⟨fun e v => ?_, fun e v => ?_⟩
  · rw [hvotes, Store.span, spanBytes_new, spanIn_nil]
    exact isMinSpan_empty _ _
  · rw [hvotes, Store.span, spanBytes_new, spanIn_nil]
    exact isMaxSpan_empty _

theorem Service.inv_new (atts : List IndexedAttestation) (spanCacheSize : ℕ) :
    (Service.new spanCacheSize).Inv atts where
  tracks :=
    { valid := valid_new _ _
      readable := by simp [Readable, Service.new, Store.new]
      spanned := spanned_new _ _
      marked := by simp [Service.new]
      pointed := fun e v hattested => by
        rw [Service.new, Store.span, spanBytes_new, spanIn_nil] at hattested
        cases hattested
      wellFormed := by simp [Service.new]
      compatible := by simp [Service.new] }
  stored := by simp [Service.new]
  received := by simp [Service.new]

variable {hash sum} {atts : List IndexedAttestation} {x : Service} {att : IndexedAttestation}

/-- What `DetectAttesterSlashings` returns for an attestation that has been stored. -/
theorem Service.Inv.detect (hhash : Set.InjOn hash {b | b.length = 10}) (h : x.Inv atts)
    (hatt : WellFormed att) (hnear : ∀ a ∈ atts, Near att a) :
    ∃ slashings s', detectAttesterSlashings hash sum att
        (x.store.saveIndexedAttestation att) = .ok slashings s' ∧
      (x.store.saveIndexedAttestation att).Same s' ∧
      (∀ slashing ∈ slashings, slashing.Has att) ∧
      ∀ a ∈ x.updated, ∀ v ∈ a.attestingIndices, v ∈ att.attestingIndices → Slashable att a →
        slashings ≠ [] :=
  detectAttesterSlashings_spec hhash (h.tracks.save hatt) (fun a ha => (h.stored a ha).save att)
    hatt fun a ha => hnear a (h.received a ha)

theorem Service.Inv.receive (hhash : Set.InjOn hash {b | b.length = 10}) (h : x.Inv atts)
    (hmem : att ∈ atts) (hatt : WellFormed att) (hnear : ∀ a ∈ atts, Near att a)
    (hkeeps : x.Keeps hash sum att) : (x.receive hash sum false att).Inv atts := by
  obtain ⟨slashings, s₁, hdetect, hsame, -, hfound⟩ :=
    @Service.Inv.detect hash sum atts x att hhash h hatt hnear
  have htracks₁ := (h.tracks.save hatt).of_same hsame
  obtain ⟨hstored, hmarked⟩ := hkeeps
  have hrun : x.receive hash sum false att = if slashings = [] then
      { store := updateHighestAttestation (EState.final (updateSpans false att) s₁) att
        updated := x.updated ++ [att] }
    else { x with store := updateHighestAttestation s₁ att } := by
    simp only [Service.receive, hdetect]
  refine ⟨?_, hstored, ?_⟩
  · rw [hrun] at hmarked ⊢
    by_cases hnil : slashings = []
    · rw [if_pos hnil] at hmarked ⊢
      obtain ⟨s₂, hupdate, htracks₂⟩ := htracks₁.updateSpans hatt (hmarked.resolve_left (by simp))
        fun a ha v hv hv' hslash => hfound a ha v hv hv' hslash hnil
      rw [EState.final_of_ok hupdate]
      exact htracks₂.of_same (same_updateHighestAttestation htracks₂.valid att)
    · rw [if_neg hnil]
      exact htracks₁.of_same (same_updateHighestAttestation htracks₁.valid att)
  · rw [hrun]
    split
    · exact forall_mem_append.mpr ⟨h.received, forall_mem_singleton.mpr hmem⟩
    · exact h.received

theorem Service.inv_after (hhash : Set.InjOn hash {b | b.length = 10}) {spanCacheSize : ℕ}
    (hatts : ∀ a ∈ atts, WellFormed a) (hnear : ∀ a ∈ atts, ∀ b ∈ atts, Near a b)
    (hkeeps : Admits (Service.receive hash sum false) (Service.Keeps hash sum)
      (Service.new spanCacheSize) atts) :
    (after hash sum false spanCacheSize atts).Inv atts := by
  have hmem : Admits (Service.receive hash sum false) (fun _ att => att ∈ atts)
      (Service.new spanCacheSize) atts := admits_of_forall fun _ h => h
  have hboth := admits_and.mpr ⟨hmem, hkeeps⟩
  refine invariant (fun x att h hok => ?_) (inv_new atts spanCacheSize) hboth
  exact h.receive hhash hok.1 (hatts att hok.1) (hnear att hok.1) hok.2

/-- The slasher misses no attestation that forms a double vote or a surround vote with one
on which it has updated the spans. -/
theorem slashable_attestation_detected (hhash : Set.InjOn hash {b | b.length = 10})
    (spanCacheSize : ℕ) (atts : List IndexedAttestation) (next : IndexedAttestation)
    (hwell : ∀ a ∈ next :: atts, WellFormed a)
    (hnear : ∀ a ∈ next :: atts, ∀ b ∈ next :: atts, Near a b)
    (hkeeps : Admits (Service.receive hash sum false) (Service.Keeps hash sum)
      (Service.new spanCacheSize) atts)
    {a : IndexedAttestation}
    (ha : a ∈ (after hash sum false spanCacheSize atts).updated)
    {v : ValidatorIndex} (hv : v ∈ a.attestingIndices) (hnext : v ∈ next.attestingIndices)
    (hslash : isDoubleVote next a = true ∨ isSurround next a = true ∨ isSurround a next = true) :
    ∃ slashings s', detectAttesterSlashings hash sum next
        ((after hash sum false spanCacheSize atts).store.saveIndexedAttestation
          next) = .ok slashings s' ∧
      ∃ slashing ∈ slashings, slashing.attestation1 = next ∨ slashing.attestation2 = next := by
  have hinv := inv_after hhash (fun a ha => hwell a (mem_cons_of_mem _ ha))
    (fun a ha b hb => hnear a (mem_cons_of_mem _ ha) b (mem_cons_of_mem _ hb)) hkeeps
  obtain ⟨slashings, s', hdetect, -, hhas, hfound⟩ := @Service.Inv.detect hash sum _ _ next
    hhash hinv (hwell next mem_cons_self)
    fun b hb => hnear next mem_cons_self b (mem_cons_of_mem _ hb)
  obtain ⟨slashing, hmem⟩ := exists_mem_of_ne_nil _ (hfound a ha v hv hnext hslash)
  exact ⟨slashings, s', hdetect, slashing, hmem, (hhas slashing hmem).imp And.left And.left⟩

def attesting (attestingIndices : List ValidatorIndex) (source target : Epoch)
    (committeeIndex : BitVec 64) (sig : UInt8) : IndexedAttestation :=
  let root : Bytes := replicate 32 0
  ⟨attestingIndices, ⟨0, committeeIndex, root, ⟨source, root⟩, ⟨target, root⟩⟩, replicate 96 sig⟩

/-- Short strings of bytes, read as numbers. -/
def shortHash (b : Bytes) : Root := BitVec.ofNat 256 (value b)

theorem injOn_shortHash : Set.InjOn shortHash {b | b.length = 10} := by
  intro b hb c hc h
  have hb' := value_lt b
  have hc' := value_lt c
  rw [show b.length = 10 from hb] at hb'
  rw [show c.length = 10 from hc] at hc'
  have hvalue := congrArg BitVec.toNat h
  rw [shortHash, shortHash, BitVec.toNat_ofNat, BitVec.toNat_ofNat, Nat.mod_eq_of_lt (by omega),
    Nat.mod_eq_of_lt (by omega)] at hvalue
  rw [← bigEndian_value b hb, hvalue, bigEndian_value c hc]

def twoAttestations : List IndexedAttestation :=
  [attesting [1] 2 5 0 1, attesting [1, 2] 5 7 0 2]

/-- A vote from 1 to 6 surrounds one from 2 to 5. -/
theorem surrounding_attestation_detected :
    ∃ slashings s', detectAttesterSlashings shortHash (fun _ => 0) (attesting [1] 1 6 1 3)
        ((after shortHash (fun _ => 0) false epochSpansCacheSize
          twoAttestations).store.saveIndexedAttestation (attesting [1] 1 6 1 3)) =
            .ok slashings s' ∧
      ∃ slashing ∈ slashings, slashing.attestation1 = attesting [1] 1 6 1 3 ∨
        slashing.attestation2 = attesting [1] 1 6 1 3 :=
  slashable_attestation_detected injOn_shortHash epochSpansCacheSize twoAttestations
    (attesting [1] 1 6 1 3) (by decide +kernel) (by decide +kernel) (by decide +kernel)
    (a := attesting [1] 2 5 0 1) (by decide +kernel) (v := 1) (by decide) (by decide)
    (.inr (.inl (by decide)))

/-- The slashings that `DetectAttesterSlashings` returns for the next attestation. -/
def slashingsAfter (atts : List IndexedAttestation) (next : IndexedAttestation) :
    Option (List AttesterSlashing) :=
  match detectAttesterSlashings shortHash (fun _ => 0) next
      ((after shortHash (fun _ => 0) false epochSpansCacheSize
        atts).store.saveIndexedAttestation next) with
  | .ok slashings _ => some slashings
  | .error _ _ => none

/-- Validator 1 is already marked when it attests together with validator 2, so validator 2
is not marked, and its double vote is missed. -/
theorem aggregate_double_vote_missed :
    (after shortHash (fun _ => 0) false epochSpansCacheSize
        [attesting [1] 0 2 0 1, attesting [1, 2] 0 2 0 2]).updated =
      [attesting [1] 0 2 0 1, attesting [1, 2] 0 2 0 2] ∧
    isDoubleVote (attesting [2] 0 2 1 3) (attesting [1, 2] 0 2 0 2) = true ∧
    slashingsAfter [attesting [1] 0 2 0 1, attesting [1, 2] 0 2 0 2]
      (attesting [2] 0 2 1 3) = some [] := by
  decide +kernel

end Runs

end Vanguard.Slasher
