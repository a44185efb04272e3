import Vanguard.Validator.RoundTrip

/-!
The record that the doppelganger check sends.

The history of a public key comes in the order of the source epochs, and a vote
with a later source never has an earlier target. So the greatest target is found
among the records at the end, with the last source.
-/

namespace Vanguard.PackedIndex

open List Bytes

theorem flatten_mapM {α β : Type*} {f : α → Option (List β)} {as : List α} {ls : List (List β)}
    (h : as.mapM f = some ls) : ls.flatten = as.flatMap fun a => (f a).getD [] := by
  induction as generalizing ls with
  | nil =>
    obtain rfl : [] = ls := by simpa using h
    rfl
  | cons a as ih =>
    simp only [mapM_cons, Option.bind_eq_bind, Option.bind_eq_some_iff] at h
    obtain ⟨x, hx, ls', hls', heq⟩ := h
    obtain rfl := Option.some.inj heq
    rw [flatten_cons, ih hls', flatMap_cons, hx, Option.getD_some]

theorem Lists.sorted_entries {m : Bucket Bytes} {l : List (Word × Word)} (h : Lists m l) :
    (entries m).Pairwise fun p q => p.1 ≤ q.1 := by
  obtain ⟨ls, hls, heq⟩ := Option.map_eq_some_iff.mp h.readAll_eq
  have hkey : ∀ a, ∀ p ∈ (readEntry a).getD [], p.1 = toUint64 a.1 := by
    intro a p hp
    cases hx : unpack a.2 <;> simp [readEntry, hx] at hp
    obtain ⟨x, -, rfl⟩ := hp
    rfl
  rw [← heq, flatten_mapM hls, pairwise_flatMap]
  refine ⟨fun a _ => pairwise_of_forall_mem_list fun p hp q hq => ?_,
    (pairwise_reverse.mp h.sorted_backwards).imp fun hlt p hp q hq => ?_⟩
  · rw [hkey a p hp, hkey a q hq]
    exact BitVec.le_refl _
  · rw [hkey _ p hp, hkey _ q hq]
    exact Nat.le_of_lt hlt

end Vanguard.PackedIndex

namespace Vanguard.Validator

open PackedIndex Interchange List DB

/-- The loop of `retrieveLatestRecord`, over the records from the last one on. -/
def latestFrom (lastSource : Epoch) (chosenRec : AttestationRecord) :
    List AttestationRecord → AttestationRecord
  | [] => chosenRec
  | r :: recs =>
    if r.source ≠ lastSource then chosenRec
    else latestFrom lastSource (if chosenRec.target < r.target then r else chosenRec) recs

def retrieveLatestRecord (recs : List AttestationRecord) : Option AttestationRecord :=
  match recs.reverse with
  | [] => none
  | last :: rest => some (latestFrom last.source last (last :: rest))

variable {recs : List AttestationRecord} {lastSource : Epoch}

/-- The loop chooses the greatest target of the records with the last source, which
come first. -/
theorem latestFrom_spec (chosen : AttestationRecord)
    (hsorted : recs.Pairwise fun a b => b.source ≤ a.source)
    (hlast : ∀ r ∈ recs, r.source ≤ lastSource) :
    ∃ r, latestFrom lastSource chosen recs = r ∧ r ∈ chosen :: recs ∧
      ∀ b ∈ chosen :: recs, b = chosen ∨ b.source = lastSource → b.target ≤ r.target := by
  fun_induction latestFrom lastSource chosen recs with
  | case1 chosen => simp
  | case2 chosen a recs hsource =>
    -- no later record has the last source
    have hbelow := (pairwise_cons.mp hsorted).1
    refine ⟨chosen, rfl, mem_cons_self, fun b hb hb' => ?_⟩
    grind
  | case3 chosen a recs hsource ih =>
    obtain ⟨r, hr, hmem, hall⟩ := ih (pairwise_cons.mp hsorted).2 (forall_mem_cons.mp hlast).2
    have hbetter := hall _ mem_cons_self (.inl rfl)
    exact ⟨r, hr, by grind, by grind⟩

/-- Among records in the order of their sources, none of which surrounds another, the
latest one has the greatest target. -/
theorem retrieveLatestRecord_spec (hne : recs ≠ [])
    (hsorted : recs.Pairwise fun a b => a.source ≤ b.source)
    (hsafe : ∀ a ∈ recs, ∀ b ∈ recs, a.source < b.source → a.target ≤ b.target) :
    ∃ r ∈ recs, retrieveLatestRecord recs = some r ∧ ∀ r' ∈ recs, r'.target ≤ r.target := by
  obtain ⟨last, rest, heq⟩ := exists_cons_of_ne_nil (reverse_ne_nil_iff.mpr hne)
  have hmem : ∀ r, r ∈ last :: rest ↔ r ∈ recs := fun r => by rw [← heq, mem_reverse]
  have hdown := pairwise_reverse.mpr hsorted
  rw [heq] at hdown
  have hlast : ∀ r ∈ last :: rest, r.source ≤ last.source :=
    forall_mem_cons.mpr ⟨BitVec.le_refl _, (pairwise_cons.mp hdown).1⟩
  obtain ⟨r, hr, hchosen, hall⟩ := latestFrom_spec last hdown hlast
  refine ⟨r, (hmem r).mp (by simpa using hchosen), by rw [retrieveLatestRecord, heq, ← hr],
    fun b hb => ?_⟩
  have hge := hall last mem_cons_self (.inl rfl)
  by_cases hsource : b.source = last.source
  · exact hall b (mem_cons_of_mem _ ((hmem b).mpr hb)) (.inr hsource)
  · have hlt := BitVec.lt_of_le_ne (hlast b ((hmem b).mpr hb)) hsource
    exact BitVec.le_trans (hsafe b hb last ((hmem last).mp mem_cons_self) hlt) hge

theorem Client.run_sane (reqs : List Request) : Sane (Client.fresh.run reqs).db := by
  refine Run.invariant_of_step (I := fun c : Client => Sane c.db) (fun c req hc => ?_)
    ((sane_opened []).congr rfl rfl rfl) reqs
  have hdb : (c.step req).db = c.db.handle (.attest req.env req.att) := by
    rw [Client.step, DB.handle]
    cases slashableAttestationCheck req.env req.att c.db <;> rfl
  rw [hdb]
  exact hc.handle _

/-- Whatever was asked for, the history of a public key can be read, has every
accepted vote, and unless it is empty `retrieveLatestRecord` picks a record of the
key whose target is the greatest. -/
theorem latestRecord_greatest (reqs : List Request) (k : PubKey) :
    ∃ records, (Client.fresh.run reqs).db.attestationHistoryForPubKey k = .ok records ∧
      (∀ a ∈ (Client.fresh.run reqs).accepted, a.pubKey = k →
        ∃ r ∈ records, r.source = a.source ∧ r.target = a.target) ∧
      (records ≠ [] → ∃ r ∈ records, retrieveLatestRecord records = some r ∧ r.pubKey = k ∧
        ∀ r' ∈ records, r'.target ≤ r.target) := by
  have hsane := Client.run_sane reqs
  obtain ⟨recs, hrec, hsafe, hacc⟩ := Client.run_sound Client.fresh_sound reqs
  refine ⟨_, attestationHistoryForPubKey_eq hsane k, fun a ha hk => ?_, fun hne => ?_⟩
  · have hvote : (a.source, a.target) ∈ (Client.fresh.run reqs).db.sourceVotes k :=
      (hrec.source k).mem_entries.mpr (mem_map.mpr ⟨a, mem_ofKey.mpr ⟨hacc ha, hk⟩, rfl⟩)
    exact ⟨_, mem_map.mpr ⟨_, hvote, rfl⟩, rfl, rfl⟩
  · have hvote : ∀ r ∈ history (Client.fresh.run reqs).db k, ∃ a ∈ recs, a.pubKey = k ∧
        a.source = r.source ∧ a.target = r.target := by
      intro r hr
      obtain ⟨a, ha, heq⟩ := mem_map.mp ((hrec.source k).mem_entries.mp (mem_history.mp hr).1)
      obtain ⟨ha, hk⟩ := mem_ofKey.mp ha
      exact ⟨a, ha, hk, congrArg Prod.fst heq, congrArg Prod.snd heq⟩
    obtain ⟨r, hr, hlatest, hall⟩ := retrieveLatestRecord_spec hne
      (pairwise_map.mpr (hsane.source k).sorted_entries) fun a ha b hb hlt => by
        obtain ⟨a', ha', hka, hsa, hta⟩ := hvote a ha
        obtain ⟨b', hb', hkb, hsb, htb⟩ := hvote b hb
        by_contra hgt
        refine hsafe a' ha' b' hb' (hka.trans hkb.symm) (.inr (.inl (isSurround_iff.mpr ?_)))
        rw [hsa, hsb, hta, htb]
        exact ⟨hlt, BitVec.not_le.mp hgt⟩
    exact ⟨r, hr, hlatest, (mem_history.mp hr).2.1, hall⟩

end Vanguard.Validator
