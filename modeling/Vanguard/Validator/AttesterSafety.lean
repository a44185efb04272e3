import Vanguard.Lib.Run
import Vanguard.Validator.AttesterProtection

/-!
Slashing protection of attestations is safe.

Both indexes of a public key list every pair of epochs that was saved, and the
signing root of every target is kept. A cursor that starts at the last key
passes all the votes it has to look at before it stops, so whatever passes the
checks conflicts with nothing that was saved before.
-/

namespace Vanguard.Validator

open PackedIndex EState List PkBucket
open Bytes (ofUint64)

/-! ### Views of the database -/

namespace DB

variable (db : DB) (k : PubKey)

def sourceIndex : Bucket Bytes := (db.pubKeys[k]?.bind (·.sourceEpochs)).getD ∅

def targetIndex : Bucket Bytes := (db.pubKeys[k]?.bind (·.targetEpochs)).getD ∅

def rootsIndex : Bucket Root := (db.pubKeys[k]?.bind (·.signingRoots)).getD ∅

/-- Every public key has a source bucket if it has a target bucket. -/
def Complete : Prop :=
  ∀ b, db.pubKeys[k]? = some b → b.sourceEpochs = none → b.targetEpochs = none

end DB

variable {db : DB} {att : AttestationRecord} {k : PubKey} {l : List (Epoch × Epoch)}
  {m : Bucket Bytes} (a : Attestation) {recs : List AttestationRecord} {r : AttestationRecord}

section

variable (db att k)

theorem DB.saveAttestationRecords_singleton :
    db.saveAttestationRecords [att] = db.saveAttestationRecord att := rfl

theorem getElem?_pubKeys_save :
    (db.saveAttestationRecord att).pubKeys[k]? =
      if k = att.pubKey then some ((created db.pubKeys[att.pubKey]?).save att)
      else db.pubKeys[k]? :=
  TreeMap.getElem?_insert ..

theorem part_save {γ : Type} (part : PkBucket → Option (Bucket γ)) :
    ((db.saveAttestationRecord att).pubKeys[k]?.bind part).getD ∅ =
      if k = att.pubKey then (part ((created db.pubKeys[k]?).save att)).getD ∅
      else (db.pubKeys[k]?.bind part).getD ∅ := by
  rw [getElem?_pubKeys_save]
  split
  next hk => rw [hk, Option.bind_some]
  next => rfl

theorem sourceIndex_save :
    (db.saveAttestationRecord att).sourceIndex k =
      if k = att.pubKey then add (db.sourceIndex k) att.source att.target
      else db.sourceIndex k := by
  rw [DB.sourceIndex, part_save, DB.sourceIndex]
  cases db.pubKeys[k]? <;> simp [created, save]

theorem targetIndex_save :
    (db.saveAttestationRecord att).targetIndex k =
      if k = att.pubKey then add (db.targetIndex k) att.target att.source
      else db.targetIndex k := by
  rw [DB.targetIndex, part_save, DB.targetIndex]
  cases db.pubKeys[k]? <;> simp [created, save]

theorem rootsIndex_save :
    (db.saveAttestationRecord att).rootsIndex k =
      if k = att.pubKey then (db.rootsIndex k).insert (ofUint64 att.target) att.signingRoot
      else db.rootsIndex k := by
  rw [DB.rootsIndex, part_save, DB.rootsIndex]
  cases db.pubKeys[k]? <;> simp [created, save]

end

theorem complete_save (hdb : db.Complete k) (att : AttestationRecord) :
    (db.saveAttestationRecord att).Complete k := by
  intro b hb
  rw [getElem?_pubKeys_save] at hb
  split at hb
  · cases hb
    simp [save]
  · exact hdb b hb

/-! ### The checks -/

theorem isSurround_iff {a b : Attestation} :
    isSurround a b = true ↔ a.source < b.source ∧ b.target < a.target := by
  simp [isSurround]

theorem checkSurroundingVote_iff (h : Lists m l) (a : Attestation) :
    (checkSurroundingVote m a).2 = none ↔ ∀ s t, (s, t) ∈ l → isSurround a ⟨s, t⟩ = false := by
  have habove : ∀ s t : Epoch, isSurround a ⟨s, t⟩ = true → a.source < s :=
    fun s t hs => (isSurround_iff.mp hs).1
  rw [checkSurroundingVote]
  rcases h.search_above a.source habove with ⟨s, t, hfound, hmem, hhit⟩ | ⟨hnone, hall⟩
  · rw [hfound]
    simp only [reduceCtorEq, false_iff, not_forall]
    exact ⟨s, t, hmem, by simp [hhit]⟩
  · rw [hnone]
    exact iff_of_true rfl hall

theorem checkSurroundedVote_iff (h : Lists m l) (a : Attestation) :
    (checkSurroundedVote m a).2 = none ↔ ∀ t s, (t, s) ∈ l → isSurround ⟨s, t⟩ a = false := by
  have habove : ∀ t s : Epoch, isSurround ⟨s, t⟩ a = true → a.target < t :=
    fun t s hs => (isSurround_iff.mp hs).2
  rw [checkSurroundedVote]
  rcases h.search_above a.target habove with ⟨t, s, hfound, hmem, hhit⟩ | ⟨hnone, hall⟩
  · rw [hfound]
    simp only [reduceCtorEq, false_iff, not_forall]
    exact ⟨t, s, hmem, by simp [hhit]⟩
  · rw [hnone]
    exact iff_of_true rfl hall

theorem checkSurroundingVote_empty : (checkSurroundingVote ∅ a).2 = none :=
  (checkSurroundingVote_iff Lists.empty a).mpr (by simp)

theorem checkSurroundedVote_empty : (checkSurroundedVote ∅ a).2 = none :=
  (checkSurroundedVote_iff Lists.empty a).mpr (by simp)

theorem checkDoubleVote_iff {roots : Option (Bucket Root)} {root : Root} {target : Epoch} :
    checkDoubleVote roots root target = none ↔
      ∀ existing, (roots.getD ∅)[ofUint64 target]? = some existing →
        signingRootsDiffer existing root = false := by
  have hget : roots.bind (·[ofUint64 target]?) = (roots.getD ∅)[ofUint64 target]? := by
    cases roots <;> simp
  rw [checkDoubleVote, hget]
  cases (roots.getD ∅)[ofUint64 target]? with
  | none => simp
  | some existing => simp

/-- `CheckSlashableAttestation` passes exactly what conflicts with nothing that
the three buckets list. -/
theorem checkSlashableAttestation_iff {S T : List (Epoch × Epoch)} (hdb : db.Complete k)
    (hS : Lists (db.sourceIndex k) S) (hT : Lists (db.targetIndex k) T) (root : Root)
    (a : Attestation) :
    (db.checkSlashableAttestation false k root a).2 = none ↔
      (∀ existing, (db.rootsIndex k)[ofUint64 a.target]? = some existing →
        signingRootsDiffer existing root = false) ∧
      (∀ s t, (s, t) ∈ S → isSurround a ⟨s, t⟩ = false) ∧
      ∀ t s, (t, s) ∈ T → isSurround ⟨s, t⟩ a = false := by
  rw [← checkSurroundingVote_iff hS, ← checkSurroundedVote_iff hT, DB.rootsIndex,
    ← checkDoubleVote_iff, DB.sourceIndex, DB.targetIndex, DB.checkSlashableAttestation]
  cases hb : db.pubKeys[k]? with
  | none => simp [checkDoubleVote, checkSurroundingVote_empty, checkSurroundedVote_empty]
  | some b =>
    simp only [Option.bind_some, Bool.false_eq_true, if_false]
    cases checkDoubleVote b.signingRoots root a.target with
    | some e => simp
    | none =>
      cases hsource : b.sourceEpochs with
      | none =>
        rw [hdb b hb hsource]
        simp [checkSurroundingVote_empty, checkSurroundedVote_empty]
      | some m =>
        simp only [Option.getD_some, true_and]
        rcases hvote : checkSurroundingVote m a with ⟨kind, _ | e⟩
        · cases b.targetEpochs with
          | none => simp [checkSurroundedVote_empty]
          | some m' => simp
        · simp

theorem slashableAttestationCheck_cases (env : ClientEnv) (att : AttestationRecord) (db : DB) :
    db.refusal env.ctxDone att = none ∧
        (slashableAttestationCheck env att db = .ok () (db.saveAttestationRecord att) ∨
          slashableAttestationCheck env att db =
            .error .externalSlasher (db.saveAttestationRecord att)) ∨
      ∃ e, slashableAttestationCheck env att db = .error e db := by
  rw [slashableAttestationCheck, saveAttestationForPubKey]
  cases db.refusal env.ctxDone att with
  | some e => exact .inr ⟨e, rfl⟩
  | none =>
    cases env.saveFails with
    | true => exact .inr ⟨_, rfl⟩
    | false =>
      by_cases hprotector : env.protector = some false
      · exact .inl ⟨rfl, .inr (by simp [hprotector, DB.saveAttestationRecords_singleton])⟩
      · exact .inl ⟨rfl, .inl (by simp [hprotector, DB.saveAttestationRecords_singleton])⟩

theorem checkLowestSource_iff :
    db.checkLowestSource att = none ↔
      ∀ lowest, db.lowestSignedSourceEpoch att.pubKey = some lowest → lowest ≤ att.source := by
  rw [DB.checkLowestSource]
  cases db.lowestSignedSourceEpoch att.pubKey with
  | none => simp
  | some lowest => simp

theorem checkLowestTarget_iff :
    db.checkLowestTarget att = none ↔
      ∀ lowest, db.lowestSignedTargetEpoch att.pubKey = some lowest →
        signingRootsDiffer (db.signingRootAtTargetEpoch att.pubKey att.target) att.signingRoot =
          true → lowest < att.target := by
  rw [DB.checkLowestTarget]
  cases db.lowestSignedTargetEpoch att.pubKey with
  | none => simp
  | some lowest => simp

theorem refusal_iff {ctxDone : Bool} :
    db.refusal ctxDone att = none ↔
      db.checkLowestSource att = none ∧ db.checkLowestTarget att = none ∧
        (db.checkSlashableAttestation ctxDone att.pubKey att.signingRoot
          ⟨att.source, att.target⟩).2 = none := by
  simp [DB.refusal]

/-! ### What the database records -/

/-- The records of one public key, in the order in which they were saved. -/
def ofKey (k : PubKey) (recs : List AttestationRecord) : List AttestationRecord :=
  recs.filter (·.pubKey = k)

theorem mem_ofKey : r ∈ ofKey k recs ↔ r ∈ recs ∧ r.pubKey = k := by
  simp [ofKey]

theorem ofKey_append (k : PubKey) (recs : List AttestationRecord) (att : AttestationRecord) :
    ofKey k (recs ++ [att]) = if k = att.pubKey then ofKey k recs ++ [att] else ofKey k recs := by
  by_cases hk : k = att.pubKey
  · simp [ofKey, hk]
  · simp [ofKey, hk, Ne.symm hk]

/-- The buckets hold exactly the given records. -/
structure Recorded (db : DB) (recs : List AttestationRecord) : Prop where
  complete : ∀ k, db.Complete k
  source : ∀ k, Lists (db.sourceIndex k) ((ofKey k recs).map fun r => (r.source, r.target))
  target : ∀ k, Lists (db.targetIndex k) ((ofKey k recs).map fun r => (r.target, r.source))
  roots : ∀ k t, (db.rootsIndex k)[ofUint64 t]? =
    ((ofKey k recs).reverse.find? (·.target = t)).map (·.signingRoot)

theorem recorded_empty : Recorded .empty [] where
  complete k b hb := by simp [DB.empty] at hb
  source k := by simpa [DB.sourceIndex, DB.empty, ofKey] using Lists.empty
  target k := by simpa [DB.targetIndex, DB.empty, ofKey] using Lists.empty
  roots k t := by simp [DB.rootsIndex, DB.empty, ofKey]

theorem Recorded.save (h : Recorded db recs) (att : AttestationRecord) :
    Recorded (db.saveAttestationRecord att) (recs ++ [att]) where
  complete k := complete_save (h.complete k) att
  source k := by
    rw [sourceIndex_save, ofKey_append]
    split
    · simpa using (h.source k).add att.source att.target
    · exact h.source k
  target k := by
    rw [targetIndex_save, ofKey_append]
    split
    · simpa using (h.target k).add att.target att.source
    · exact h.target k
  roots k t := by
    rw [rootsIndex_save, ofKey_append]
    split
    · rw [TreeMap.getElem?_insert, reverse_append, reverse_singleton,
        singleton_append, find?_cons, h.roots k t]
      by_cases ht : t = att.target
      · simp [ht]
      · simp [ht, Ne.symm ht]
    · exact h.roots k t

theorem Recorded.saveAll (h : Recorded db recs) (l : List AttestationRecord) :
    Recorded (db.saveAttestationRecords l) (recs ++ l) := by
  induction l generalizing db recs with
  | nil => simpa [DB.saveAttestationRecords] using h
  | cons r l ih => simpa [DB.saveAttestationRecords] using ih (h.save r)

/-- The root that is kept for the target of a record is that of the last record
with this target. -/
theorem Recorded.exists_root (h : Recorded db recs) (hr : r ∈ ofKey k recs) :
    ∃ last ∈ ofKey k recs, last.target = r.target ∧
      (db.rootsIndex k)[ofUint64 r.target]? = some last.signingRoot := by
  rw [h.roots]
  cases hfind : (ofKey k recs).reverse.find? (·.target = r.target) with
  | none =>
    have hnot := find?_eq_none.mp hfind r (mem_reverse.mpr hr)
    simp at hnot
  | some last =>
    exact ⟨last, mem_reverse.mp (mem_of_find?_eq_some hfind),
      by simpa using find?_some hfind, rfl⟩

/-! ### Safety -/

/-- Two votes of one validator that may not both be signed: a double vote or a
surround vote in either direction. -/
def Slashable (a b : AttestationRecord) : Prop :=
  a.target = b.target ∧ a.signingRoot ≠ b.signingRoot ∨
    isSurround ⟨a.source, a.target⟩ ⟨b.source, b.target⟩ = true ∨
    isSurround ⟨b.source, b.target⟩ ⟨a.source, a.target⟩ = true

theorem Slashable.symm {a b : AttestationRecord} (h : Slashable a b) : Slashable b a := by
  rcases h with ⟨ht, hr⟩ | hab | hba
  · exact .inl ⟨ht.symm, hr.symm⟩
  · exact .inr (.inr hab)
  · exact .inr (.inl hba)

theorem not_slashable_self (a : AttestationRecord) : ¬ Slashable a a := by
  rintro (⟨-, hr⟩ | h | h)
  · exact hr rfl
  all_goals exact absurd (isSurround_iff.mp h).1 (BitVec.lt_irrefl _)

/-- No two votes of one key conflict. -/
def Safe (recs : List AttestationRecord) : Prop :=
  ∀ a ∈ recs, ∀ b ∈ recs, a.pubKey = b.pubKey → ¬ Slashable a b

theorem Recorded.not_slashable (h : Recorded db recs) (hsafe : Safe recs) {ctxDone : Bool}
    (hpass : db.refusal ctxDone att = none) (hr : r ∈ recs) (hk : r.pubKey = att.pubKey) :
    ¬ Slashable r att := by
  obtain ⟨-, -, hcheck⟩ := refusal_iff.mp hpass
  have hctx : ctxDone = false := by
    cases ctxDone with
    | false => rfl
    | true => simp [DB.checkSlashableAttestation] at hcheck
  rw [hctx] at hcheck
  obtain ⟨hroots, hsource, htarget⟩ := (checkSlashableAttestation_iff (h.complete att.pubKey)
    (h.source att.pubKey) (h.target att.pubKey) att.signingRoot _).mp hcheck
  have hmem : r ∈ ofKey att.pubKey recs := mem_ofKey.mpr ⟨hr, hk⟩
  rintro (⟨ht, hne⟩ | hsurround | hsurround)
  · obtain ⟨last, hlast, hlt, hget⟩ := h.exists_root hmem
    obtain ⟨hlast, hlk⟩ := mem_ofKey.mp hlast
    have hsame := hroots last.signingRoot (ht ▸ hget)
    have heq : last.signingRoot = att.signingRoot := by
      by_contra hdiffer
      simp [signingRootsDiffer, hdiffer] at hsame
    exact hsafe r hr last hlast (hk.trans hlk.symm) (.inl ⟨hlt.symm, by rwa [heq]⟩)
  · have hnot := htarget r.target r.source (mem_map.mpr ⟨r, hmem, rfl⟩)
    rw [hnot] at hsurround
    cases hsurround
  · have hnot := hsource r.source r.target (mem_map.mpr ⟨r, hmem, rfl⟩)
    rw [hnot] at hsurround
    cases hsurround

theorem Safe.append (hsafe : Safe recs)
    (hnew : ∀ r ∈ recs, r.pubKey = att.pubKey → ¬ Slashable r att) : Safe (recs ++ [att]) := by
  intro a ha b hb hk
  rw [mem_append, mem_singleton] at ha hb
  rcases ha with ha | rfl <;> rcases hb with hb | rfl
  · exact hsafe a ha b hb hk
  · exact hnew a ha hk
  · exact fun hs => hnew b hb hk.symm hs.symm
  · exact not_slashable_self _

/-- The database records a set of votes without conflict, which has all the
accepted ones. -/
def Client.Sound (c : Client) : Prop :=
  ∃ recs, Recorded c.db recs ∧ Safe recs ∧ c.accepted ⊆ recs

theorem Client.fresh_sound : Client.fresh.Sound :=
  ⟨[], recorded_empty, by simp [Safe], by simp [Client.fresh]⟩

theorem Client.step_sound {c : Client} (h : c.Sound) (req : Request) : (c.step req).Sound := by
  obtain ⟨recs, hrec, hsafe, hacc⟩ := h
  rw [step]
  rcases slashableAttestationCheck_cases req.env req.att c.db with
    ⟨hpass, hok | herr⟩ | ⟨e, herr⟩
  · rw [hok]
    refine ⟨recs ++ [req.att], hrec.save _, hsafe.append fun r hr hk =>
      hrec.not_slashable hsafe hpass hr hk, ?_⟩
    exact append_subset.mpr ⟨subset_append_of_subset_left _ hacc, subset_append_right _ _⟩
  · rw [herr]
    exact ⟨recs ++ [req.att], hrec.save _, hsafe.append fun r hr hk =>
      hrec.not_slashable hsafe hpass hr hk, subset_append_of_subset_left _ hacc⟩
  · rw [herr]
    exact ⟨recs, hrec, hsafe, hacc⟩

theorem Client.run_sound {c : Client} (h : c.Sound) (reqs : List Request) : (c.run reqs).Sound :=
  Run.invariant_of_step (I := Client.Sound) (fun _ req hc => step_sound hc req) h reqs

/-- However requests come, no two accepted attestations of one public key are a
double vote or a surround vote. -/
theorem accepted_attestations_not_slashable (reqs : List Request) (a b : AttestationRecord)
    (ha : a ∈ (Client.fresh.run reqs).accepted) (hb : b ∈ (Client.fresh.run reqs).accepted)
    (hk : a.pubKey = b.pubKey) : ¬ Slashable a b := by
  obtain ⟨recs, -, hsafe, hacc⟩ := Client.run_sound Client.fresh_sound reqs
  exact hsafe a (hacc ha) b (hacc hb) hk

/-- Nothing is in the way of a call. -/
def ClientEnv.calm : ClientEnv := ⟨false, false, none⟩

/-- The second vote for target 2, under another root, is refused. -/
def fourVotes : List Request :=
  [⟨.calm, ⟨7, 0, 1, 5⟩⟩, ⟨.calm, ⟨7, 0, 2, 6⟩⟩, ⟨.calm, ⟨7, 1, 2, 8⟩⟩, ⟨.calm, ⟨7, 1, 3, 9⟩⟩]

theorem accepted_attestations_not_slashable_of_fourVotes :
    (Client.fresh.run fourVotes).accepted.length = 3 ∧ ¬ Slashable ⟨7, 0, 2, 6⟩ ⟨7, 1, 3, 9⟩ :=
  ⟨by decide +kernel, accepted_attestations_not_slashable fourVotes _ _ (by decide +kernel)
    (by decide +kernel) rfl⟩

end Vanguard.Validator
