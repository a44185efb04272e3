import Vanguard.Validator.AttesterSafety
import Vanguard.Validator.ProposerSafety

/-!
Pruning of the attester history.

`PruneAttestations` prunes the three buckets of a public key, each by its own
highest key, and leaves the watermarks alone. An attestation that was refused is
still refused exactly if a watermark refuses it or if it conflicts with an entry
that is kept.
-/

namespace Vanguard.Validator

open PackedIndex List Option Std.ExtTreeMap
open Bytes (ofUint64 toUint64)

/-! ### `PruneAttestations` -/

def slashingProtectionPruningEpochs : Epoch := 512

def pruningEpochCutoff (epoch : Epoch) : Epoch :=
  if slashingProtectionPruningEpochs < epoch then epoch - slashingProtectionPruningEpochs else 0

/-- `upperBounds` in `pruneBucket` -/
def cutoff {V : Type} (bkt : Bucket V) : Epoch :=
  pruningEpochCutoff (toUint64 (bkt.keys.getLast?.getD []))

def pruneBucket {V : Type} (bkt : Bucket V) : Bucket V :=
  TreeMap.deleteWhile (fun k => decide (toUint64 k < cutoff bkt)) bkt

/-- `pruneSourceEpochsBucket`, `pruneTargetEpochsBucket` and
`pruneSigningRootsBucket` -/
def PkBucket.prune (b : PkBucket) : PkBucket where
  signingRoots := b.signingRoots.map pruneBucket
  sourceEpochs := b.sourceEpochs.map pruneBucket
  targetEpochs := b.targetEpochs.map pruneBucket

def DB.pruneAttestations (db : DB) : DB :=
  { db with pubKeys := db.pubKeys.map fun _ b => b.prune }

/-! ### Runs -/

/-- What happens to a database: a request to attest, a request to propose, and
the pruning at startup. -/
inductive Event where
  | attest (env : ClientEnv) (att : AttestationRecord)
  | propose (env : ProposerEnv) (b : SignedBlock)
  | pruneAttestations

def DB.handle (db : DB) : Event → DB
  | .attest env att =>
    match slashableAttestationCheck env att db with
    | .ok () db' => db'
    | .error _ db' => db'
  | .propose env b => (Proposer.step ⟨db, []⟩ ⟨env, b⟩).db
  | .pruneAttestations => db.pruneAttestations

/-- A new database, with the genesis validators root that was saved, if any. -/
def DB.opened (gvr : Bytes) : DB := { DB.empty with genesisValidatorsRoot := gvr }

def DB.after (gvr : Bytes) (events : List Event) : DB := events.foldl DB.handle (.opened gvr)

/-! ### Effects on the buckets -/

section Buckets

variable {V : Type} {m m' : Bucket V} {l : List (Epoch × Epoch)}

theorem cutoff_congr {W : Type} {m' : Bucket W} (h : ∀ k, k ∈ m ↔ k ∈ m') :
    cutoff m = cutoff m' := by
  have hmax : m.maxKey? = m'.maxKey? := by
    refine ext fun k => ?_
    rw [maxKey?_eq_some_iff_mem_and_forall, maxKey?_eq_some_iff_mem_and_forall]
    simp only [h]
  rw [cutoff, cutoff, ← maxKey?_eq_getLast?_keys, ← maxKey?_eq_getLast?_keys, hmax]

theorem pruningEpochCutoff_le (e : Epoch) : pruningEpochCutoff e ≤ e := by
  rw [pruningEpochCutoff]
  split
  · rename_i hlt
    have hperiod : slashingProtectionPruningEpochs.toNat = 512 := rfl
    rw [BitVec.lt_def] at hlt
    rw [BitVec.le_def, BitVec.toNat_sub_of_le (BitVec.le_of_lt hlt)]
    omega
  · rw [BitVec.le_def]
    exact Nat.zero_le _

theorem below_downward (c e e' : Word) (hlt : e.toNat < e'.toNat) (h : decide (e' < c) = true) :
    decide (e < c) = true := by
  simp only [decide_eq_true_eq, BitVec.lt_def] at h ⊢
  omega

theorem getElem?_pruneBucket (h : Numbered m) (k : Bytes) :
    (pruneBucket m)[k]? = if toUint64 k < cutoff m then none else m[k]? := by
  have hget := h.getElem?_deleteWhile (below_downward (cutoff m)) k
  simp only [decide_eq_true_eq] at hget
  exact hget

theorem mem_pruneBucket (h : Numbered m) {k : Bytes} :
    k ∈ pruneBucket m ↔ k ∈ m ∧ cutoff m ≤ toUint64 k := by
  rw [← isSome_getElem?_iff_mem, getElem?_pruneBucket h]
  by_cases hk : toUint64 k < cutoff m
  · simp [hk, BitVec.not_le.mpr hk]
  · simp [hk, BitVec.not_lt.mp hk]

theorem pruneBucket_empty : pruneBucket (∅ : Bucket V) = ∅ := by
  rw [pruneBucket, TreeMap.deleteWhile, keys_eq_nil_iff.mpr rfl]
  rfl

theorem numbered_pruneBucket (h : Numbered m) : Numbered (pruneBucket m) :=
  h.deleteWhile (p := fun e => decide (e < cutoff m)) (below_downward (cutoff m))

theorem lists_pruneBucket {m : Bucket Bytes} (h : Lists m l) :
    Lists (pruneBucket m) (l.filter fun a => !decide (a.1 < cutoff m)) :=
  h.deleteWhile (p := fun e => decide (e < cutoff m)) (below_downward (cutoff m))

theorem exists_kept {m : Bucket Bytes} (h : Lists m l) (hl : l ≠ []) : ∃ a ∈ l, cutoff m ≤ a.1 := by
  cases hmax : m.maxKey? with
  | none =>
    rw [maxKey?_eq_none_iff] at hmax
    obtain ⟨a, ha⟩ := exists_mem_of_ne_nil _ hl
    have hmem := h.mem_toList (e := a.1) (x := a.2) ha
    simp [hmax] at hmem
  | some k =>
    have hk := maxKey?_mem hmax
    obtain ⟨e, hkey, -, hne⟩ := h.isEntry (a := (k, m[k]))
      (mem_toList_iff_getElem?_eq_some.mpr (by simp [hk]))
    obtain ⟨x, hx⟩ := exists_mem_of_ne_nil _ hne
    obtain rfl : k = ofUint64 e := hkey
    refine ⟨(e, x), mem_under.mp hx, ?_⟩
    rw [cutoff, ← maxKey?_eq_getLast?_keys, hmax, getD_some, Bytes.toUint64_ofUint64]
    exact pruningEpochCutoff_le e

end Buckets

section Views

variable (db : DB) (k : PubKey)

theorem getElem?_pubKeys_prune :
    db.pruneAttestations.pubKeys[k]? = db.pubKeys[k]?.map PkBucket.prune :=
  Std.ExtTreeMap.getElem?_map

theorem sourceIndex_prune :
    db.pruneAttestations.sourceIndex k = pruneBucket (db.sourceIndex k) := by
  rw [DB.sourceIndex, DB.sourceIndex, getElem?_pubKeys_prune]
  rcases db.pubKeys[k]? with _ | ⟨_, _ | _, _⟩ <;> simp [PkBucket.prune, pruneBucket_empty]

theorem targetIndex_prune :
    db.pruneAttestations.targetIndex k = pruneBucket (db.targetIndex k) := by
  rw [DB.targetIndex, DB.targetIndex, getElem?_pubKeys_prune]
  rcases db.pubKeys[k]? with _ | ⟨_, _, _ | _⟩ <;> simp [PkBucket.prune, pruneBucket_empty]

theorem rootsIndex_prune : db.pruneAttestations.rootsIndex k = pruneBucket (db.rootsIndex k) := by
  rw [DB.rootsIndex, DB.rootsIndex, getElem?_pubKeys_prune]
  rcases db.pubKeys[k]? with _ | ⟨_ | _, _, _⟩ <;> simp [PkBucket.prune, pruneBucket_empty]

end Views

/-! ### What the buckets always satisfy -/

namespace DB

variable (db : DB) (k : PubKey)

/-- The pairs of source and target in the source bucket. -/
def sourceVotes : List (Epoch × Epoch) := entries (db.sourceIndex k)

/-- The pairs of target and source in the target bucket. -/
def targetVotes : List (Epoch × Epoch) := entries (db.targetIndex k)

end DB

/-- All three buckets are there with readable entries, every target has a root,
and the watermarks are not above any vote. -/
structure Sane (db : DB) : Prop where
  created : ∀ (k : PubKey) (b : PkBucket), db.pubKeys[k]? = some b →
    b.signingRoots.isSome ∧ b.sourceEpochs.isSome ∧ b.targetEpochs.isSome
  source : ∀ k, Lists (db.sourceIndex k) (db.sourceVotes k)
  target : ∀ k, Lists (db.targetIndex k) (db.targetVotes k)
  roots : ∀ k, Numbered (db.rootsIndex k)
  keys : ∀ k key, key ∈ db.rootsIndex k ↔ key ∈ db.targetIndex k
  voted : ∀ (k : PubKey) b, db.pubKeys[k]? = some b → db.sourceVotes k ≠ []
  sourceNumbers : Numbers db.lowestSignedSource
  targetNumbers : Numbers db.lowestSignedTarget
  lowestSource : ∀ k, ∀ p ∈ db.sourceVotes k,
    ∃ lowest, db.lowestSignedSourceEpoch k = some lowest ∧ lowest ≤ p.1
  lowestTarget : ∀ k, ∀ p ∈ db.sourceVotes k,
    ∃ lowest, db.lowestSignedTargetEpoch k = some lowest ∧ lowest ≤ p.2
  sourceKnown : ∀ k lowest, db.lowestSignedSourceEpoch k = some lowest →
    ∃ b, db.pubKeys[k]? = some b
  targetKnown : ∀ k lowest, db.lowestSignedTargetEpoch k = some lowest →
    ∃ b, db.pubKeys[k]? = some b

theorem Sane.complete {db : DB} (h : Sane db) (k : PubKey) : db.Complete k := by
  intro b hb hnone
  have hsome := (h.created k b hb).2.1
  rw [hnone] at hsome
  cases hsome

theorem sane_opened (gvr : Bytes) : Sane (.opened gvr) where
  created k b hb := by simp [DB.opened, DB.empty] at hb
  source k := by
    have hempty : (DB.opened gvr).sourceIndex k = ∅ := by simp [DB.sourceIndex, DB.opened, DB.empty]
    rw [DB.sourceVotes, hempty]
    exact Lists.empty.of_entries
  target k := by
    have hempty : (DB.opened gvr).targetIndex k = ∅ := by simp [DB.targetIndex, DB.opened, DB.empty]
    rw [DB.targetVotes, hempty]
    exact Lists.empty.of_entries
  roots k key v hv := by simp [DB.rootsIndex, DB.opened, DB.empty] at hv
  keys k key := by simp [DB.rootsIndex, DB.targetIndex, DB.opened, DB.empty]
  voted k b hb := by simp [DB.opened, DB.empty] at hb
  sourceNumbers := numbers_empty
  targetNumbers := numbers_empty
  lowestSource k p hp := by
    simp [DB.sourceVotes, DB.sourceIndex, DB.opened, DB.empty, Lists.empty.mem_entries] at hp
  lowestTarget k p hp := by
    simp [DB.sourceVotes, DB.sourceIndex, DB.opened, DB.empty, Lists.empty.mem_entries] at hp
  sourceKnown k lowest hl := by
    simp [DB.lowestSignedSourceEpoch, storedNumber, DB.opened, DB.empty] at hl
  targetKnown k lowest hl := by
    simp [DB.lowestSignedTargetEpoch, storedNumber, DB.opened, DB.empty] at hl

variable {p : Epoch × Epoch} {source target : List (Epoch × Epoch)} {root : Option Root}

section Save

variable {db : DB} (h : Sane db) (att : AttestationRecord) (k : PubKey)

include h

theorem Sane.source_save :
    Lists ((db.saveAttestationRecord att).sourceIndex k)
      (if k = att.pubKey then db.sourceVotes k ++ [(att.source, att.target)]
        else db.sourceVotes k) := by
  rw [sourceIndex_save]
  split
  · exact (h.source k).add att.source att.target
  · exact h.source k

theorem Sane.target_save :
    Lists ((db.saveAttestationRecord att).targetIndex k)
      (if k = att.pubKey then db.targetVotes k ++ [(att.target, att.source)]
        else db.targetVotes k) := by
  rw [targetIndex_save]
  split
  · exact (h.target k).add att.target att.source
  · exact h.target k

theorem Sane.mem_sourceVotes_save :
    p ∈ (db.saveAttestationRecord att).sourceVotes k ↔
      p ∈ db.sourceVotes k ∨ k = att.pubKey ∧ p = (att.source, att.target) := by
  rw [DB.sourceVotes, (h.source_save att k).mem_entries]
  by_cases hk : k = att.pubKey <;> simp [hk]

theorem Sane.lowestSource_save :
    (db.saveAttestationRecord att).lowestSignedSourceEpoch k =
      if k = att.pubKey then
        keepBetter (fun x y => decide (x < y)) (db.lowestSignedSourceEpoch att.pubKey) att.source
      else db.lowestSignedSourceEpoch k :=
  storedNumber_storeIfBetter h.sourceNumbers _ _ _

theorem Sane.lowestTarget_save :
    (db.saveAttestationRecord att).lowestSignedTargetEpoch k =
      if k = att.pubKey then
        keepBetter (fun x y => decide (x < y)) (db.lowestSignedTargetEpoch att.pubKey) att.target
      else db.lowestSignedTargetEpoch k :=
  storedNumber_storeIfBetter h.targetNumbers _ _ _

end Save

theorem exists_keepBetter_le {o : Option (BitVec 64)} {x y : BitVec 64}
    (h : (∃ m, o = some m ∧ m ≤ y) ∨ y = x) :
    ∃ m, keepBetter (fun x y => decide (x < y)) o x = some m ∧ m ≤ y := by
  cases o with
  | none =>
    obtain rfl : y = x := h.resolve_left (by simp)
    exact ⟨y, rfl, BitVec.le_refl y⟩
  | some z =>
    by_cases hxz : x < z
    · refine ⟨x, by simp [keepBetter, hxz], ?_⟩
      rcases h with ⟨m, hm, hle⟩ | rfl
      · obtain rfl : z = m := some.inj hm
        exact BitVec.le_trans (BitVec.le_of_lt hxz) hle
      · exact BitVec.le_refl y
    · refine ⟨z, by simp [keepBetter, hxz], ?_⟩
      rcases h with ⟨m, hm, hle⟩ | rfl
      · obtain rfl : z = m := some.inj hm
        exact hle
      · exact BitVec.not_lt.mp hxz

theorem exists_pubKeys_save {db : DB} (att : AttestationRecord) {k : PubKey}
    (h : k = att.pubKey ∨ ∃ b, db.pubKeys[k]? = some b) :
    ∃ b, (db.saveAttestationRecord att).pubKeys[k]? = some b := by
  rw [getElem?_pubKeys_save]
  by_cases hk : k = att.pubKey
  · exact ⟨_, if_pos hk⟩
  · obtain ⟨b, hb⟩ := h.resolve_left hk
    exact ⟨b, by rw [if_neg hk, hb]⟩

theorem Sane.save {db : DB} (h : Sane db) (att : AttestationRecord) :
    Sane (db.saveAttestationRecord att) where
  created k b hb := by
    rw [getElem?_pubKeys_save] at hb
    split at hb
    · cases hb
      simp [PkBucket.save]
    · exact h.created k b hb
  source k := (h.source_save att k).of_entries
  target k := (h.target_save att k).of_entries
  roots k := by
    rw [rootsIndex_save]
    split
    · exact (h.roots k).insert att.target att.signingRoot
    · exact h.roots k
  keys k key := by
    rw [rootsIndex_save, targetIndex_save]
    split
    · rw [← isSome_getElem?_iff_mem, ← isSome_getElem?_iff_mem,
        getElem?_add (h.target k), TreeMap.getElem?_insert]
      by_cases hkey : key = ofUint64 att.target
      · simp [hkey]
      · simpa [hkey] using h.keys k key
    · exact h.keys k key
  voted k b hb := by
    obtain ⟨p, hp⟩ : ∃ p, p ∈ (db.saveAttestationRecord att).sourceVotes k := by
      simp only [h.mem_sourceVotes_save]
      by_cases hk : k = att.pubKey
      · exact ⟨_, .inr ⟨hk, rfl⟩⟩
      · rw [getElem?_pubKeys_save, if_neg hk] at hb
        obtain ⟨p, hp⟩ := exists_mem_of_ne_nil _ (h.voted k b hb)
        exact ⟨p, .inl hp⟩
    exact ne_nil_of_mem hp
  sourceNumbers := h.sourceNumbers.storeIfBetter _ _
  targetNumbers := h.targetNumbers.storeIfBetter _ _
  lowestSource k p hp := by
    rw [h.mem_sourceVotes_save] at hp
    rw [h.lowestSource_save]
    by_cases hk : k = att.pubKey
    · subst hk
      rw [if_pos rfl]
      exact exists_keepBetter_le (hp.imp (h.lowestSource _ p) fun hnew => congrArg Prod.fst hnew.2)
    · rw [if_neg hk]
      exact h.lowestSource k p (hp.resolve_right fun hnew => hk hnew.1)
  lowestTarget k p hp := by
    rw [h.mem_sourceVotes_save] at hp
    rw [h.lowestTarget_save]
    by_cases hk : k = att.pubKey
    · subst hk
      rw [if_pos rfl]
      exact exists_keepBetter_le (hp.imp (h.lowestTarget _ p) fun hnew => congrArg Prod.snd hnew.2)
    · rw [if_neg hk]
      exact h.lowestTarget k p (hp.resolve_right fun hnew => hk hnew.1)
  sourceKnown k lowest hl := by
    refine exists_pubKeys_save att (or_iff_not_imp_left.mpr fun hk => ?_)
    rw [h.lowestSource_save, if_neg hk] at hl
    exact h.sourceKnown k lowest hl
  targetKnown k lowest hl := by
    refine exists_pubKeys_save att (or_iff_not_imp_left.mpr fun hk => ?_)
    rw [h.lowestTarget_save, if_neg hk] at hl
    exact h.targetKnown k lowest hl

theorem Sane.mem_sourceVotes_prune {db : DB} (h : Sane db) {k : PubKey} :
    p ∈ db.pruneAttestations.sourceVotes k ↔
      p ∈ db.sourceVotes k ∧ cutoff (db.sourceIndex k) ≤ p.1 := by
  rw [DB.sourceVotes, sourceIndex_prune, (lists_pruneBucket (h.source k)).mem_entries]
  simp

theorem Sane.prune {db : DB} (h : Sane db) : Sane db.pruneAttestations where
  created k b hb := by
    rw [getElem?_pubKeys_prune] at hb
    obtain ⟨b', hb', rfl⟩ := map_eq_some_iff.mp hb
    simpa [PkBucket.prune] using h.created k b' hb'
  source k := by
    rw [DB.sourceVotes, sourceIndex_prune]
    exact (lists_pruneBucket (h.source k)).of_entries
  target k := by
    rw [DB.targetVotes, targetIndex_prune]
    exact (lists_pruneBucket (h.target k)).of_entries
  roots k := by
    rw [rootsIndex_prune]
    exact numbered_pruneBucket (h.roots k)
  keys k key := by
    rw [rootsIndex_prune, targetIndex_prune, mem_pruneBucket (h.roots k),
      mem_pruneBucket (h.target k).keys, h.keys, cutoff_congr (h.keys k)]
  voted k b hb := by
    rw [getElem?_pubKeys_prune] at hb
    obtain ⟨b', hb', -⟩ := map_eq_some_iff.mp hb
    obtain ⟨p, hp, hle⟩ := exists_kept (h.source k) (h.voted k b' hb')
    exact ne_nil_of_mem (h.mem_sourceVotes_prune.mpr ⟨hp, hle⟩)
  sourceNumbers := h.sourceNumbers
  targetNumbers := h.targetNumbers
  lowestSource k p hp := h.lowestSource k p (h.mem_sourceVotes_prune.mp hp).1
  lowestTarget k p hp := h.lowestTarget k p (h.mem_sourceVotes_prune.mp hp).1
  sourceKnown k lowest hl := by
    obtain ⟨b, hb⟩ := h.sourceKnown k lowest hl
    exact ⟨b.prune, by rw [getElem?_pubKeys_prune, hb, map_some]⟩
  targetKnown k lowest hl := by
    obtain ⟨b, hb⟩ := h.targetKnown k lowest hl
    exact ⟨b.prune, by rw [getElem?_pubKeys_prune, hb, map_some]⟩

theorem Sane.congr {db db' : DB} (h : Sane db) (hkeys : db'.pubKeys = db.pubKeys)
    (hsource : db'.lowestSignedSource = db.lowestSignedSource)
    (htarget : db'.lowestSignedTarget = db.lowestSignedTarget) : Sane db' := by
  obtain ⟨g, hp, dh, ls, lt, lp, hp', sp, pk⟩ := db
  obtain ⟨g', hp₂, dh', ls', lt', lp', hp₃, sp', pk'⟩ := db'
  obtain rfl : pk' = pk := hkeys
  obtain rfl : ls' = ls := hsource
  obtain rfl : lt' = lt := htarget
  exact ⟨h.1, h.2, h.3, h.4, h.5, h.6, h.7, h.8, h.9, h.10, h.11, h.12⟩

theorem Sane.handle {db : DB} (h : Sane db) (e : Event) : Sane (db.handle e) := by
  cases e with
  | attest env att =>
    rw [DB.handle]
    rcases slashableAttestationCheck_cases env att db with ⟨-, hok | herr⟩ | ⟨e, herr⟩
    · rw [hok]
      exact h.save att
    · rw [herr]
      exact h.save att
    · rw [herr]
      exact h
  | propose env b =>
    rw [DB.handle]
    rcases Proposer.step_cases ⟨db, []⟩ ⟨env, b⟩ with ⟨-, heq⟩ | heq
    · rw [heq]
      exact h.congr rfl rfl rfl
    · rw [heq]
      exact h
  | pruneAttestations => exact h.prune

theorem sane_after (gvr : Bytes) (events : List Event) : Sane (.after gvr events) :=
  Run.invariant_of_step (I := Sane) (fun _ e hdb => hdb.handle e) (sane_opened gvr) events

/-! ### Refused attestations -/

/-- `slashableAttestationCheck` returns an error. -/
def Refuses (env : ClientEnv) (db : DB) (att : AttestationRecord) : Prop :=
  ∃ e db', slashableAttestationCheck env att db = .error e db'

/-- Something other than the history is in the way of the call. -/
def ClientEnv.Hindered (env : ClientEnv) : Prop :=
  env.ctxDone = true ∨ env.saveFails = true ∨ env.protector = some false

theorem refuses_iff {env : ClientEnv} {db : DB} {att : AttestationRecord} :
    Refuses env db att ↔ env.Hindered ∨ db.refusal false att ≠ none := by
  rw [Refuses, slashableAttestationCheck, saveAttestationForPubKey, ClientEnv.Hindered]
  cases hctx : env.ctxDone with
  | true =>
    have hrefusal : db.refusal true att ≠ none := fun hnone => by
      have hcheck := (refusal_iff.mp hnone).2.2
      simp [DB.checkSlashableAttestation] at hcheck
    cases hr : db.refusal true att with
    | none => exact absurd hr hrefusal
    | some e => simp
  | false =>
    cases db.refusal false att with
    | some e => simp
    | none =>
      cases env.saveFails with
      | true => simp
      | false => by_cases hp : env.protector = some false <;> simp [hp]

/-- What the source bucket, the target bucket and the roots have against an
attestation. -/
inductive Conflict (source target : List (Epoch × Epoch)) (root : Option Root)
    (att : AttestationRecord) : Prop
  | doubleVote (existing : Root) (h : root = some existing)
      (hdiffer : signingRootsDiffer existing att.signingRoot = true)
  | surrounding (s t : Epoch) (h : (s, t) ∈ source)
      (hsurround : isSurround ⟨att.source, att.target⟩ ⟨s, t⟩ = true)
  | surrounded (t s : Epoch) (h : (t, s) ∈ target)
      (hsurround : isSurround ⟨s, t⟩ ⟨att.source, att.target⟩ = true)

/-- The watermarks refuse an attestation. -/
def BelowWatermark (db : DB) (att : AttestationRecord) : Prop :=
  (∃ lowest, db.lowestSignedSourceEpoch att.pubKey = some lowest ∧ att.source < lowest) ∨
    ∃ lowest, db.lowestSignedTargetEpoch att.pubKey = some lowest ∧ att.target ≤ lowest

theorem not_conflict_iff
    {att : AttestationRecord} :
    ¬ Conflict source target root att ↔
      (∀ existing, root = some existing → signingRootsDiffer existing att.signingRoot = false) ∧
      (∀ s t, (s, t) ∈ source → isSurround ⟨att.source, att.target⟩ ⟨s, t⟩ = false) ∧
      ∀ t s, (t, s) ∈ target → isSurround ⟨s, t⟩ ⟨att.source, att.target⟩ = false := by
  constructor
  · intro h
    refine ⟨fun e he => ?_, fun s t hst => ?_, fun t s hts => ?_⟩
    · exact Bool.eq_false_iff.mpr fun hd => h (.doubleVote e he hd)
    · exact Bool.eq_false_iff.mpr fun hs => h (.surrounding s t hst hs)
    · exact Bool.eq_false_iff.mpr fun hs => h (.surrounded t s hts hs)
  · rintro ⟨hroot, hsource, htarget⟩ (⟨e, he, hd⟩ | ⟨s, t, hst, hs⟩ | ⟨t, s, hts, hs⟩)
    · rw [hroot e he] at hd
      cases hd
    · rw [hsource s t hst] at hs
      cases hs
    · rw [htarget t s hts] at hs
      cases hs

section Refusal

variable {db : DB} {att : AttestationRecord}

def DB.rootFor (db : DB) (att : AttestationRecord) : Option Root :=
  (db.rootsIndex att.pubKey)[ofUint64 att.target]?

theorem signingRootAtTargetEpoch_eq :
    db.signingRootAtTargetEpoch att.pubKey att.target = (db.rootFor att).getD zeroHash := by
  rw [DB.signingRootAtTargetEpoch, DB.rootFor, DB.rootsIndex]
  cases db.pubKeys[att.pubKey]?.bind (·.signingRoots) <;> simp

/-- An attestation is refused by the source watermark, by the target watermark
unless it repeats a vote, or for a conflict. -/
theorem Sane.refusal_ne_none_iff (h : Sane db) :
    db.refusal false att ≠ none ↔
      (∃ lowest, db.lowestSignedSourceEpoch att.pubKey = some lowest ∧ att.source < lowest) ∨
      (∃ lowest, db.lowestSignedTargetEpoch att.pubKey = some lowest ∧ att.target ≤ lowest ∧
        signingRootsDiffer ((db.rootFor att).getD zeroHash) att.signingRoot = true) ∨
      Conflict (db.sourceVotes att.pubKey) (db.targetVotes att.pubKey) (db.rootFor att) att := by
  rw [ne_eq, refusal_iff, checkLowestSource_iff, checkLowestTarget_iff,
    checkSlashableAttestation_iff (h.complete att.pubKey) (h.source att.pubKey)
      (h.target att.pubKey), signingRootAtTargetEpoch_eq]
  rw [← DB.rootFor, ← not_conflict_iff, not_and_or, not_and_or, not_not]
  simp only [not_forall, BitVec.not_le, BitVec.not_lt, exists_prop]
  refine or_congr_right (or_congr_left (exists_congr fun lowest => and_congr_right fun _ => ?_))
  rw [and_comm]

/-- What is recorded after a run decides which attestations are refused. -/
theorem refuses_after_iff (gvr : Bytes) (events : List Event) (env : ClientEnv) :
    let db := DB.after gvr events
    Refuses env db att ↔ env.Hindered ∨
      (∃ lowest, db.lowestSignedSourceEpoch att.pubKey = some lowest ∧ att.source < lowest) ∨
      (∃ lowest, db.lowestSignedTargetEpoch att.pubKey = some lowest ∧ att.target ≤ lowest ∧
        signingRootsDiffer ((db.rootFor att).getD zeroHash) att.signingRoot = true) ∨
      Conflict (db.sourceVotes att.pubKey) (db.targetVotes att.pubKey) (db.rootFor att) att :=
  refuses_iff.trans (or_congr_right (sane_after gvr events).refusal_ne_none_iff)

theorem Conflict.mono {source' target' : List (Epoch × Epoch)}
    {root' : Option Root} (hsource : source ⊆ source') (htarget : target ⊆ target')
    (hroot : ∀ existing, root = some existing → root' = some existing)
    (h : Conflict source target root att) : Conflict source' target' root' att := by
  rcases h with ⟨e, he, hd⟩ | ⟨s, t, hst, hs⟩ | ⟨t, s, hts, hs⟩
  · exact .doubleVote e (hroot e he) hd
  · exact .surrounding s t (hsource hst) hs
  · exact .surrounded t s (htarget hts) hs

/-! ### Pruning -/

/-- The entries of the three buckets that `PruneAttestations` keeps have something
against an attestation. -/
def KeptConflict (db : DB) (att : AttestationRecord) : Prop :=
  Conflict
    ((db.sourceVotes att.pubKey).filter fun p => cutoff (db.sourceIndex att.pubKey) ≤ p.1)
    ((db.targetVotes att.pubKey).filter fun p => cutoff (db.targetIndex att.pubKey) ≤ p.1)
    (if cutoff (db.rootsIndex att.pubKey) ≤ att.target then db.rootFor att else none) att

variable (h : Sane db)

include h

theorem Sane.mem_targetVotes_prune {k : PubKey} :
    p ∈ db.pruneAttestations.targetVotes k ↔
      p ∈ db.targetVotes k ∧ cutoff (db.targetIndex k) ≤ p.1 := by
  rw [DB.targetVotes, targetIndex_prune, (lists_pruneBucket (h.target k)).mem_entries]
  simp

theorem Sane.rootFor_prune :
    db.pruneAttestations.rootFor att =
      if cutoff (db.rootsIndex att.pubKey) ≤ att.target then db.rootFor att else none := by
  rw [DB.rootFor, rootsIndex_prune, getElem?_pruneBucket (h.roots att.pubKey),
    Bytes.toUint64_ofUint64, ← DB.rootFor]
  by_cases hlt : att.target < cutoff (db.rootsIndex att.pubKey)
  · rw [if_pos hlt, if_neg (BitVec.not_le.mpr hlt)]
  · rw [if_neg hlt, if_pos (BitVec.not_lt.mp hlt)]

theorem Sane.differ_prune
    (hdiffer : signingRootsDiffer ((db.rootFor att).getD zeroHash) att.signingRoot = true) :
    signingRootsDiffer ((db.pruneAttestations.rootFor att).getD zeroHash) att.signingRoot =
      true := by
  rw [h.rootFor_prune]
  split
  · exact hdiffer
  · simp [signingRootsDiffer]

theorem Sane.conflict_prune_iff :
    Conflict (db.pruneAttestations.sourceVotes att.pubKey)
        (db.pruneAttestations.targetVotes att.pubKey) (db.pruneAttestations.rootFor att) att ↔
      KeptConflict db att := by
  rw [KeptConflict, h.rootFor_prune]
  constructor
  · refine Conflict.mono (fun p hp => ?_) (fun p hp => ?_) fun _ => id
    · simpa using h.mem_sourceVotes_prune.mp hp
    · simpa using h.mem_targetVotes_prune.mp hp
  · refine Conflict.mono (fun p hp => ?_) (fun p hp => ?_) fun _ => id
    · exact h.mem_sourceVotes_prune.mpr (by simpa using hp)
    · exact h.mem_targetVotes_prune.mpr (by simpa using hp)

/-- An attestation that is not above the target watermark stays refused: if its
root is still there, then so is every vote that surrounds it. -/
theorem Sane.keptConflict_of_repeated {lowest : Epoch}
    (hlowest : db.lowestSignedTargetEpoch att.pubKey = some lowest) (hle : att.target ≤ lowest)
    (hsame : signingRootsDiffer ((db.pruneAttestations.rootFor att).getD zeroHash)
      att.signingRoot = false)
    (hconflict : Conflict (db.sourceVotes att.pubKey) (db.targetVotes att.pubKey)
      (db.rootFor att) att) : KeptConflict db att := by
  rw [h.rootFor_prune] at hsame
  by_cases hkept : cutoff (db.rootsIndex att.pubKey) ≤ att.target
  · rw [if_pos hkept] at hsame
    rcases hconflict with ⟨e, he, hd⟩ | ⟨s, t, hst, hs⟩ | ⟨t, s, hts, hs⟩
    · rw [he, getD_some, hd] at hsame
      cases hsame
    · obtain ⟨lowest', hlowest', hle'⟩ := h.lowestTarget att.pubKey _ hst
      obtain rfl : lowest = lowest' := some.inj (hlowest.symm.trans hlowest')
      have hlt := (isSurround_iff.mp hs).2
      simp only [BitVec.lt_def, BitVec.le_def] at hlt hle hle'
      omega
    · have hlt := (isSurround_iff.mp hs).2
      refine .surrounded t s (List.mem_filter.mpr ⟨hts, decide_eq_true ?_⟩) hs
      rw [← cutoff_congr (h.keys att.pubKey)]
      exact BitVec.le_trans hkept (BitVec.le_of_lt hlt)
  · rw [if_neg hkept] at hsame
    simp [signingRootsDiffer] at hsame

end Refusal

/-- After any run, an attestation that is refused is still refused after
`PruneAttestations` exactly if a watermark or an entry that is kept refuses it, or
if the refusal has nothing to do with the history. -/
theorem refused_after_prune_iff (gvr : Bytes) (events : List Event) (env : ClientEnv)
    (att : AttestationRecord) (hrefused : Refuses env (.after gvr events) att) :
    Refuses env (DB.after gvr events).pruneAttestations att ↔
      env.Hindered ∨ BelowWatermark (.after gvr events) att ∨
        KeptConflict (.after gvr events) att := by
  have h := sane_after gvr events
  rw [refuses_iff] at hrefused ⊢
  refine or_congr_right' fun hfree => ?_
  have hbefore := h.refusal_ne_none_iff.mp (hrefused.resolve_left hfree)
  rw [h.prune.refusal_ne_none_iff, h.conflict_prune_iff, BelowWatermark]
  constructor
  · rintro (hsource | ⟨lowest, hlowest, hle, -⟩ | hkept)
    · exact .inl (.inl hsource)
    · exact .inl (.inr ⟨lowest, hlowest, hle⟩)
    · exact .inr hkept
  · rintro ((hsource | ⟨lowest, hlowest, hle⟩) | hkept)
    · exact .inl hsource
    · by_cases hdiffer : signingRootsDiffer
          (((DB.after gvr events).pruneAttestations.rootFor att).getD zeroHash)
          att.signingRoot = true
      · exact .inr (.inl ⟨lowest, hlowest, hle, hdiffer⟩)
      · rcases hbefore with hsource | ⟨lowest', hlowest', hle', hdiffer'⟩ | hconflict
        · exact .inl hsource
        · exact absurd (h.differ_prune hdiffer') hdiffer
        · exact .inr (.inr (h.keptConflict_of_repeated hlowest hle
            (Bool.eq_false_iff.mpr hdiffer) hconflict))
    · exact .inr (.inr hkept)

/-- Three votes, the last of which is more than 512 epochs later. -/
def sparseVotes : List Event :=
  [.attest .calm ⟨7, 0, 1, 5⟩, .attest .calm ⟨7, 1, 2, 6⟩, .attest .calm ⟨7, 600, 601, 8⟩]

/-- A vote that surrounds the last one is refused before and after. -/
theorem refused_after_prune_of_sparseVotes :
    Refuses .calm (.after [] sparseVotes) ⟨7, 599, 602, 9⟩ ∧
      Refuses .calm (DB.after [] sparseVotes).pruneAttestations ⟨7, 599, 602, 9⟩ := by
  have hbefore : Refuses .calm (.after [] sparseVotes) ⟨7, 599, 602, 9⟩ :=
    refuses_iff.mpr (.inr (by decide +kernel))
  exact ⟨hbefore, (refused_after_prune_iff [] sparseVotes .calm ⟨7, 599, 602, 9⟩ hbefore).mpr
    (.inr (.inr (.surrounding 600 601 (by decide +kernel) (by decide +kernel))))⟩

/-- A double vote for target 2 is refused before and accepted after. -/
theorem double_vote_accepted_after_prune :
    Refuses .calm (.after [] sparseVotes) ⟨7, 1, 2, 9⟩ ∧
      ¬ Refuses .calm (DB.after [] sparseVotes).pruneAttestations ⟨7, 1, 2, 9⟩ := by
  rw [refuses_iff, refuses_iff, ClientEnv.Hindered]
  decide +kernel

end Vanguard.Validator
