import Vanguard.Lib.Fallible
import Vanguard.Validator.AttesterProtection
import Vanguard.Validator.DeprecatedHistory

/-!
Upgrade of attesting histories from the deprecated encoding.

The upgrade writes one target under every source, so of several targets with one
source the last stays, and it takes the zero bytes between two targets for votes with
source 0. It is exact if neither shows: no two votes have the same source, and every
gap comes before a vote with source 0.
-/

namespace Vanguard.Validator

open Bytes PackedIndex List Option Nat Std.ExtTreeMap Except Prod PkBucket
open BitVec hiding not_or

/-! ### `migrateOptimalAttesterProtectionUp` -/

inductive MigrationErr where
  | history (e : HistoryErr)
  /-- The loop over the targets does not end if the latest one is the greatest
  epoch. -/
  | endless
  deriving DecidableEq, Repr

/-- The buckets of a public key that are created first. -/
def PkBucket.createdForMigration (b : Option PkBucket) : PkBucket :=
  let b := created b
  { b with
    sourceEpochs := some (b.sourceEpochs.getD ∅)
    signingRoots := some (b.signingRoots.getD ∅) }

def PkBucket.putTarget (b : PkBucket) (targetEpoch : Epoch) : Option HistoryData → PkBucket
  | none => b
  | some historicalAtt =>
    if historicalAtt.isEmpty then b
    else
      { b with
        sourceEpochs := b.sourceEpochs.map
          (·.insert (ofUint64 historicalAtt.source) (ofUint64 targetEpoch))
        signingRoots := b.signingRoots.map
          (·.insert (ofUint64 targetEpoch) historicalAtt.signingRoot) }

/-- One round of the loop over target epochs. -/
def migrateTarget (attestingHistory : Bytes) (b : PkBucket) (targetEpoch : Epoch) :
    Except HistoryErr PkBucket :=
  match getTargetData attestingHistory targetEpoch with
  | .error e => .error e
  | .ok historicalAtt => .ok (b.putTarget targetEpoch historicalAtt)

/-- The transaction for one public key. -/
def migrateHistory (attestingHistory : Bytes) (b : PkBucket) : Except MigrationErr PkBucket :=
  match getLatestEpochWritten attestingHistory with
  | .error e => .error (.history e)
  | .ok latestEpochWritten =>
    if latestEpochWritten = farFutureEpoch then .error .endless
    else
      ((range (latestEpochWritten.toNat + 1)).foldlM
        (fun b t => migrateTarget attestingHistory b (BitVec.ofNat 64 t)) b).mapError .history

def migrateKeys : List (PubKey × Bytes) → EStateM MigrationErr DB Unit
  | [] => pure ()
  | (publicKey, attestingHistory) :: rest => fun db =>
    match migrateHistory attestingHistory (createdForMigration db.pubKeys[publicKey]?) with
    | .error e => .error e db
    | .ok b => migrateKeys rest { db with pubKeys := db.pubKeys.insert publicKey b }

/-- `migrateOptimalAttesterProtectionUp`, given whether the upgrade was completed
before. It is marked as completed when it returns. -/
def migrateOptimalAttesterProtectionUp (completed : Bool) : EStateM MigrationErr DB Unit :=
  fun db =>
    if completed then .ok () db
    else
      migrateKeys db.deprecatedAttestationHistory.toList
        { db with pubKeys := db.deprecatedAttestationHistory.keys.foldl (fun m k =>
            m.insert k (createdForMigration m[k]?)) db.pubKeys }

/-! ### Histories that are built from votes -/

/-- The greatest target, as the downgrade computes it. -/
def latestTarget (votes : List (Epoch × HistoryData)) : Epoch :=
  votes.foldl (fun maxTargetWritten vote =>
    if maxTargetWritten < vote.1 then vote.1 else maxTargetWritten) 0

def buildHistory (start : Epoch) (votes : List (Epoch × HistoryData)) :
    Except HistoryErr Bytes := do
  let dh ← votes.foldlM (fun dh vote => setTargetData dh vote.1 vote.2)
    (newDeprecatedAttestingHistory start)
  setLatestEpochWritten dh (latestTarget votes)

/-- The entries of such a history. -/
def builtCells (start : Epoch) (votes : List (Epoch × HistoryData)) : List HistoryData :=
  votes.foldl (fun cells vote =>
    setCell cells (vote.1 % weakSubjectivityPeriod).toNat vote.2)
    (List.replicate ((start % weakSubjectivityPeriod).toNat + 1) emptyHistoryData)

theorem foldlM_setTargetData {dh : Bytes} {latest : Epoch} {cells : List HistoryData}
    (h : Represents dh latest cells) (votes : List (Epoch × HistoryData)) :
    ∃ dh', votes.foldlM (fun dh vote => setTargetData dh vote.1 vote.2) dh = .ok dh' ∧
      Represents dh' latest (votes.foldl (fun cells vote =>
        setCell cells (vote.1 % weakSubjectivityPeriod).toNat vote.2) cells) := by
  induction votes generalizing dh cells with
  | nil => exact ⟨dh, rfl, h⟩
  | cons vote votes ih =>
    obtain ⟨dh₁, hset, h₁⟩ := h.setTargetData vote.1 vote.2
    obtain ⟨dh₂, hrest, h₂⟩ := ih h₁
    refine ⟨dh₂, ?_, h₂⟩
    rw [foldlM_cons, hset]
    exact hrest

theorem buildHistory_represents (start : Epoch) (votes : List (Epoch × HistoryData)) :
    ∃ dh, buildHistory start votes = .ok dh ∧
      Represents dh (latestTarget votes) (builtCells start votes) := by
  obtain ⟨dh₁, hset, h₁⟩ := foldlM_setTargetData (represents_new start) votes
  obtain ⟨dh₂, hlatest, h₂⟩ := h₁.setLatestEpochWritten (latestTarget votes)
  refine ⟨dh₂, ?_, h₂⟩
  rw [buildHistory, hset]
  exact hlatest

variable {vote : Epoch × HistoryData} {t : ℕ} {target source : Epoch}

section Cells

variable {votes : List (Epoch × HistoryData)}

/-- All targets are below the weak subjectivity period and different. -/
structure WellTargeted (votes : List (Epoch × HistoryData)) : Prop where
  below : ∀ vote ∈ votes, vote.1 < weakSubjectivityPeriod
  nodup : (votes.map fst).Nodup

theorem relative_of_lt (h : target < weakSubjectivityPeriod) :
    (target % weakSubjectivityPeriod).toNat = target.toNat := by
  rw [toNat_umod, mod_eq_of_lt h]

section

variable (hvotes : WellTargeted votes)

include hvotes

theorem getElem?_setCells (cells : List HistoryData) :
    (∀ vote ∈ votes, (votes.foldl (fun cells vote =>
        setCell cells (vote.1 % weakSubjectivityPeriod).toNat vote.2) cells)[vote.1.toNat]? =
      some vote.2) ∧
    ∀ t, (∀ vote ∈ votes, vote.1.toNat ≠ t) → (votes.foldl (fun cells vote =>
        setCell cells (vote.1 % weakSubjectivityPeriod).toNat vote.2) cells)[t]? =
      if t < cells.length then cells[t]?
      else if ∃ vote ∈ votes, t < vote.1.toNat then some zeroData else none := by
  induction votes generalizing cells with
  | nil =>
    refine ⟨by simp, fun t _ => ?_⟩
    by_cases ht : t < cells.length
    · simp [ht]
    · simp [ht]
  | cons v votes ih =>
    obtain ⟨hv, hnodup⟩ := nodup_cons.mp hvotes.nodup
    have hbelow := hvotes.below v mem_cons_self
    obtain ⟨hin, hout⟩ := ih ⟨fun w hw => hvotes.below w (mem_cons_of_mem _ hw), hnodup⟩
      (setCell cells (v.1 % weakSubjectivityPeriod).toNat v.2)
    rw [relative_of_lt hbelow] at hin hout
    refine ⟨fun w hw => ?_, fun t ht => ?_⟩
    · rw [foldl_cons, relative_of_lt hbelow]
      rcases mem_cons.mp hw with rfl | hw
      · have hother : ∀ u ∈ votes, u.1.toNat ≠ w.1.toNat := fun u hu heq =>
          hv (eq_of_toNat_eq heq ▸ List.mem_map_of_mem hu)
        rw [hout _ hother, length_setCell, if_pos (by omega), getElem?_setCell, if_pos rfl]
      · exact hin w hw
    · have hne : t ≠ v.1.toNat := (ht v mem_cons_self).symm
      rw [foldl_cons, relative_of_lt hbelow,
        hout t fun w hw => ht w (mem_cons_of_mem _ hw), length_setCell, getElem?_setCell,
        if_neg hne]
      simp only [mem_cons, exists_eq_or_imp]
      by_cases hlen : t < cells.length
      · rw [if_pos (by omega), if_pos hlen, if_pos hlen]
      · rw [if_neg hlen, if_neg hlen]
        by_cases hlt : t < v.1.toNat
        · rw [if_pos (by omega), if_pos hlt, if_pos (.inl hlt)]
        · rw [if_neg (by omega)]
          simp only [hlt, false_or]

theorem cell_of_vote (start : Epoch)
    (hvote : vote ∈ votes) : (builtCells start votes)[vote.1.toNat]? = some vote.2 :=
  (getElem?_setCells hvotes _).1 vote hvote

theorem cell_of_gap (start : Epoch) (ht : ∀ vote ∈ votes, vote.1.toNat ≠ t) :
    (builtCells start votes)[t]? =
      if t ≤ (start % weakSubjectivityPeriod).toNat then some emptyHistoryData
      else if ∃ vote ∈ votes, t < vote.1.toNat then some zeroData else none := by
  rw [builtCells, (getElem?_setCells hvotes _).2 t ht, length_replicate]
  simp only [Nat.lt_succ_iff]
  by_cases hle : t ≤ (start % weakSubjectivityPeriod).toNat
  · rw [if_pos hle, if_pos hle, getElem?_replicate, if_pos (by omega)]
  · rw [if_neg hle, if_neg hle]

end

theorem latestTarget_spec (votes : List (Epoch × HistoryData)) :
    (∀ vote ∈ votes, vote.1.toNat ≤ (latestTarget votes).toNat) ∧
      ((latestTarget votes).toNat = 0 ∨
        ∃ vote ∈ votes, vote.1.toNat = (latestTarget votes).toNat) := by
  induction votes using reverseRecOn with
  | nil => exact ⟨by simp, .inl rfl⟩
  | append_singleton votes v ih =>
    obtain ⟨hle, hmax⟩ := ih
    have hlatest : latestTarget (votes ++ [v]) =
        if latestTarget votes < v.1 then v.1 else latestTarget votes := by
      rw [latestTarget, foldl_append]
      rfl
    simp only [mem_append, mem_singleton, hlatest]
    by_cases hlt : latestTarget votes < v.1
    · rw [if_pos hlt]
      refine ⟨fun w hw => ?_, .inr ⟨v, .inr rfl, rfl⟩⟩
      rcases hw with hw | rfl
      · exact Nat.le_trans (hle w hw) (BitVec.le_of_lt hlt)
      · exact Nat.le_refl _
    · rw [if_neg hlt]
      refine ⟨fun w hw => ?_, hmax.imp_right fun ⟨w, hw, h⟩ => ⟨w, .inl hw, h⟩⟩
      rcases hw with hw | rfl
      · exact hle w hw
      · exact BitVec.not_lt.mp hlt

theorem latestTarget_lt (hvotes : WellTargeted votes) : (latestTarget votes).toNat < 54000 := by
  rcases (latestTarget_spec votes).2 with h | ⟨vote, hvote, h⟩
  · omega
  · rw [← h]
    exact hvotes.below vote hvote

end Cells

/-! ### What the upgrade writes -/

/-- The upgrade takes the entry of a target for a vote with the given source. -/
def WrittenAs (cells : List HistoryData) (source : Epoch) (t : ℕ) : Prop :=
  ∃ d, cells[t]? = some d ∧ d.isEmpty = false ∧ d.source = source

/-- A written vote that no later write of the first `n` targets replaces. -/
def Survives (cells : List HistoryData) (n : ℕ) (source : Epoch) (t : ℕ) : Prop :=
  t < n ∧ WrittenAs cells source t ∧ ∀ t', t < t' → t' < n → ¬ WrittenAs cells source t'

/-- The buckets of a public key after the first `n` targets. -/
structure Migrated (cells : List HistoryData) (n : ℕ) (b : PkBucket) : Prop where
  sources : ∃ m l, b.sourceEpochs = some m ∧ Lists m l ∧
    ∀ source target, (source, target) ∈ l ↔ Survives cells n source target.toNat
  roots : ∃ r, b.signingRoots = some r ∧ ∀ (target : Epoch) d, target.toNat < n →
    cells[target.toNat]? = some d → d.isEmpty = false →
      r[ofUint64 target]? = some d.signingRoot

section Migrated

variable {cells : List HistoryData} {n : ℕ} {b : PkBucket}

theorem migrated_zero : Migrated cells 0 (createdForMigration none) where
  sources := ⟨∅, [], rfl, Lists.empty, fun source target => by simp [Survives]⟩
  roots := ⟨∅, rfl, fun target d h => absurd h (Nat.not_lt_zero _)⟩

theorem survives_succ_of_not_written
    (h : ¬ WrittenAs cells source n) :
    Survives cells (n + 1) source t ↔ Survives cells n source t := by
  constructor
  · rintro ⟨hlt, hwritten, hlast⟩
    have hne : t ≠ n := fun heq => h (heq ▸ hwritten)
    exact ⟨by omega, hwritten, fun t' h₁ h₂ => hlast t' h₁ (by omega)⟩
  · rintro ⟨hlt, hwritten, hlast⟩
    refine ⟨by omega, hwritten, fun t' h₁ h₂ => ?_⟩
    rcases Nat.lt_succ_iff_lt_or_eq.mp h₂ with h₂ | rfl
    · exact hlast t' h₁ h₂
    · exact h

theorem survives_succ_of_written (h : WrittenAs cells source n) :
    Survives cells (n + 1) source t ↔ t = n := by
  constructor
  · rintro ⟨hlt, -, hlast⟩
    by_contra hne
    exact hlast n (by omega) (by omega) h
  · rintro rfl
    exact ⟨by omega, h, fun t' h₁ h₂ => by omega⟩

theorem WrittenAs.exists_survives (h : WrittenAs cells source t)
    (hlt : t < n) : ∃ t', t ≤ t' ∧ Survives cells n source t' := by
  induction n with
  | zero => omega
  | succ n ih =>
    by_cases hn : WrittenAs cells source n
    · exact ⟨n, by omega, (survives_succ_of_written hn).mpr rfl⟩
    · have hne : t ≠ n := fun heq => hn (heq ▸ h)
      obtain ⟨t', hle, hsurvives⟩ := ih (by omega)
      exact ⟨t', hle, (survives_succ_of_not_written hn).mpr hsurvives⟩

theorem Migrated.skip (h : Migrated cells n b) (hskip : ∀ source, ¬ WrittenAs cells source n) :
    Migrated cells (n + 1) b where
  sources := by
    obtain ⟨m, l, hm, hl, hmem⟩ := h.sources
    refine ⟨m, l, hm, hl, fun source target => ?_⟩
    rw [hmem, survives_succ_of_not_written (hskip source)]
  roots := by
    obtain ⟨r, hr, hroot⟩ := h.roots
    refine ⟨r, hr, fun target d hlt hd hne => ?_⟩
    have hn : target.toNat ≠ n := fun heq => hskip d.source ⟨d, heq ▸ hd, hne, rfl⟩
    exact hroot target d (by omega) hd hne

theorem Migrated.write (h : Migrated cells n b) (ht : target.toNat = n)
    {d : HistoryData} (hd : cells[n]? = some d) (hne : d.isEmpty = false) :
    Migrated cells (n + 1) (b.putTarget target (some d)) where
  sources := by
    obtain ⟨m, l, hm, hl, hmem⟩ := h.sources
    refine ⟨_, _, ?_, hl.put d.source target, fun source target' => ?_⟩
    · simp [PkBucket.putTarget, hne, hm]
    · rw [mem_append, mem_singleton, List.mem_filter, Prod.mk.injEq, hmem]
      by_cases hs : source = d.source
      · subst hs
        rw [survives_succ_of_written ⟨d, hd, hne, rfl⟩, ← ht]
        simp [toNat_inj]
      · have hnot : ¬ WrittenAs cells source n := by
          rintro ⟨d', hd', -, rfl⟩
          rw [hd] at hd'
          exact hs (congrArg HistoryData.source (some.inj hd').symm)
        rw [survives_succ_of_not_written hnot]
        simp [hs]
  roots := by
    obtain ⟨r, hr, hroot⟩ := h.roots
    refine ⟨r.insert (ofUint64 target) d.signingRoot, ?_, fun target' d' hlt hd' hne' => ?_⟩
    · simp [PkBucket.putTarget, hne, hr]
    · rw [TreeMap.getElem?_insert]
      simp only [ofUint64_inj]
      by_cases htarget : target' = target
      · subst htarget
        rw [ht, hd] at hd'
        rw [if_pos rfl, some.inj hd']
      · have hn : target'.toNat ≠ n := fun heq =>
          htarget (eq_of_toNat_eq (heq.trans ht.symm))
        rw [if_neg htarget]
        exact hroot target' d' (by omega) hd' hne'

theorem Migrated.putTarget (h : Migrated cells n b) (ht : target.toNat = n) :
    Migrated cells (n + 1) (b.putTarget target cells[n]?) := by
  cases hd : cells[n]? with
  | none =>
    refine h.skip fun source => ?_
    rintro ⟨d, hd', -⟩
    rw [hd] at hd'
    cases hd'
  | some d =>
    cases hne : d.isEmpty with
    | true =>
      have hput : b.putTarget target (some d) = b := by simp [PkBucket.putTarget, hne]
      rw [hput]
      refine h.skip fun source => ?_
      rintro ⟨d', hd', hne', -⟩
      rw [hd] at hd'
      rw [← some.inj hd', hne] at hne'
      cases hne'
    | false => exact h.write ht hd hne

theorem migrated_foldl (cells : List HistoryData) {n : ℕ} (hn : n ≤ 54000) :
    Migrated cells n ((range n).foldl
      (fun b t => b.putTarget (BitVec.ofNat 64 t) cells[t]?)
      (createdForMigration none)) := by
  induction n with
  | zero => exact migrated_zero
  | succ n ih =>
    rw [range_succ, foldl_append, foldl_cons, foldl_nil]
    refine (ih (by omega)).putTarget ?_
    rw [toNat_ofNat]
    omega

end Migrated

/-! ### The loops -/

theorem Represents.migrateHistory {dh : Bytes} {latest : Epoch} {cells : List HistoryData}
    (h : Represents dh latest cells) (hlatest : latest.toNat < 54000) (b : PkBucket) :
    migrateHistory dh b = .ok ((range (latest.toNat + 1)).foldl
      (fun b t => b.putTarget (BitVec.ofNat 64 t) cells[t]?) b) := by
  have hfar : latest ≠ farFutureEpoch := by
    rintro rfl
    rw [farFutureEpoch, toNat_allOnes] at hlatest
    omega
  have hloop := Fallible.foldlM_eq_ok (f := fun b t => migrateTarget dh b (BitVec.ofNat 64 t))
    (g := fun (b : PkBucket) t => b.putTarget (BitVec.ofNat 64 t) cells[t]?)
    (l := range (latest.toNat + 1)) (fun b t ht => by
      have hlt := mem_range.mp ht
      rw [migrateTarget, h.getTargetData, relative_toNat (by omega)]) b
  rw [Validator.migrateHistory, h.getLatestEpochWritten]
  dsimp only
  rw [if_neg hfar, hloop]
  rfl

theorem migrateKeys_eq_ok {l : List (PubKey × Bytes)} (hl : (l.map fst).Nodup)
    {f : Bytes → PkBucket → PkBucket} (hf : ∀ c ∈ l, ∀ b, migrateHistory c.2 b = .ok (f c.2 b))
    (db : DB) :
    ∃ db', migrateKeys l db = .ok () db' ∧ (∀ c ∈ l, db'.pubKeys[c.1]? =
        some (f c.2 (createdForMigration db.pubKeys[c.1]?))) ∧
      ∀ k : PubKey, k ∉ l.map fst → db'.pubKeys[k]? = db.pubKeys[k]? := by
  induction l generalizing db with
  | nil => exact ⟨db, rfl, by simp, fun k _ => rfl⟩
  | cons c l ih =>
    obtain ⟨hc, hl⟩ := nodup_cons.mp hl
    obtain ⟨db', hrun, hin, hout⟩ := ih hl (fun d hd => hf d (mem_cons_of_mem _ hd)) { db with
        pubKeys := db.pubKeys.insert c.1
          (f c.2 (createdForMigration db.pubKeys[c.1]?)) }
    refine ⟨db', ?_, fun d hd => ?_, fun k hk => ?_⟩
    · simp only [migrateKeys, hf c mem_cons_self]
      exact hrun
    · rcases mem_cons.mp hd with rfl | hd
      · rw [hout _ hc, TreeMap.getElem?_insert, if_pos rfl]
      · have hne : d.1 ≠ c.1 := fun heq => hc (heq ▸ List.mem_map_of_mem hd)
        rw [hin d hd, TreeMap.getElem?_insert, if_neg hne]
    · rw [map_cons, mem_cons, not_or] at hk
      rw [hout k hk.2, TreeMap.getElem?_insert, if_neg hk.1]

theorem createdForMigration_idem (b : Option PkBucket) :
    createdForMigration (some (createdForMigration b)) =
      createdForMigration b := rfl

/-- A history that is built from votes with different targets below the weak
subjectivity period. -/
def Built (history : Bytes) : Prop :=
  ∃ start votes, WellTargeted votes ∧ buildHistory start votes = .ok history

theorem Built.migrateHistory {history : Bytes} (h : Built history) (b : PkBucket) :
    ∃ b', migrateHistory history b = .ok b' := by
  obtain ⟨start, votes, hvotes, hbuild⟩ := h
  obtain ⟨dh, hdh, hrep⟩ := buildHistory_represents start votes
  obtain rfl : history = dh := ok.inj (hbuild.symm.trans hdh)
  exact ⟨_, hrep.migrateHistory (latestTarget_lt hvotes) b⟩

theorem migrateOptimalAttesterProtectionUp_eq_ok {db : DB}
    (hbuilt : ∀ (k : PubKey) history, db.deprecatedAttestationHistory[k]? = some history →
      Built history) :
    ∃ db', migrateOptimalAttesterProtectionUp false db = .ok () db' ∧
      ∀ (k : PubKey) history, db.deprecatedAttestationHistory[k]? = some history →
        ∃ b, migrateHistory history (createdForMigration db.pubKeys[k]?) = .ok b ∧
          db'.pubKeys[k]? = some b := by
  have hnodup : (db.deprecatedAttestationHistory.toList.map fst).Nodup := by
    rw [map_fst_toList_eq_keys]
    exact nodup_keys
  have hmem : ∀ {k : PubKey} {history}, (k, history) ∈ db.deprecatedAttestationHistory.toList ↔
      db.deprecatedAttestationHistory[k]? = some history :=
    mem_toList_iff_getElem?_eq_some
  let f : Bytes → PkBucket → PkBucket := fun history b =>
    (migrateHistory history b).toOption.getD b
  have hf : ∀ (k : PubKey) history, db.deprecatedAttestationHistory[k]? = some history →
      ∀ b, migrateHistory history b = .ok (f history b) := by
    intro k history hk b
    obtain ⟨b', hb'⟩ := (hbuilt k history hk).migrateHistory b
    simp only [f, hb']
    rfl
  obtain ⟨hcreated, -⟩ := TreeMap.getElem?_foldl_local
    (u := fun m (k : PubKey) => m.insert k (createdForMigration m[k]?))
    (k := id) (f := fun _ b => some (createdForMigration b))
    (fun m c a => by
      rw [TreeMap.getElem?_insert, id]
      by_cases h : a = c
      · rw [if_pos h, if_pos h, h]
      · rw [if_neg h, if_neg h])
    (l := db.deprecatedAttestationHistory.keys) (by
      rw [List.map_id]
      exact nodup_keys) db.pubKeys
  obtain ⟨db', hrun, hin, -⟩ := migrateKeys_eq_ok hnodup (fun c hc b => hf c.1 c.2 (hmem.mp hc) b)
    { db with pubKeys := db.deprecatedAttestationHistory.keys.foldl (fun m k =>
        m.insert k (createdForMigration m[k]?)) db.pubKeys }
  refine ⟨db', hrun, fun k history hk => ⟨_, hf k history hk _, ?_⟩⟩
  have hkey : k ∈ db.deprecatedAttestationHistory.keys := by
    rw [Std.ExtTreeMap.mem_keys, ← isSome_getElem?_iff_mem, hk]
    rfl
  have hk' := hcreated k hkey
  rw [id] at hk'
  rw [hin (k, history) (hmem.mpr hk)]
  dsimp only
  rw [hk', createdForMigration_idem]

/-! ### When the upgrade is exact -/

/-- The votes of a public key as the upgraded database returns them. -/
def recordOf (pubKey : PubKey) (vote : Epoch × HistoryData) : AttestationRecord :=
  ⟨pubKey, vote.2.source, vote.1, vote.2.signingRoot⟩

/-- The upgrade keeps these votes and adds none: no vote is taken for an empty entry,
no two votes have the same source, and a later vote with source 0 replaces what is
read from a gap between the targets. -/
structure Upgradable (start : Epoch) (votes : List (Epoch × HistoryData)) : Prop where
  marked : ∀ vote ∈ votes, vote.2.source ≠ farFutureEpoch
  distinct : ∀ vote ∈ votes, ∀ vote' ∈ votes, vote.2.source = vote'.2.source → vote = vote'
  covered : ∀ t, start % weakSubjectivityPeriod < t → t ≤ latestTarget votes →
    (∀ vote ∈ votes, vote.1 ≠ t) → ∃ vote ∈ votes, vote.2.source = 0 ∧ t < vote.1

section Exact

variable {start : Epoch} {votes : List (Epoch × HistoryData)}

theorem writtenAs_vote (hvotes : WellTargeted votes)
    (hvote : vote ∈ votes) :
    WrittenAs (builtCells start votes) source vote.1.toNat ↔
      vote.2.source = source ∧ source ≠ farFutureEpoch := by
  simp only [WrittenAs, cell_of_vote hvotes start hvote, some.injEq, exists_eq_left',
    HistoryData.isEmpty, decide_eq_false_iff_not]
  constructor
  · rintro ⟨h, rfl⟩
    exact ⟨rfl, h⟩
  · rintro ⟨rfl, h⟩
    exact ⟨h, rfl⟩

theorem writtenAs_gap (hvotes : WellTargeted votes)
    (ht : ∀ vote ∈ votes, vote.1.toNat ≠ t) (hle : t ≤ (latestTarget votes).toNat) :
    WrittenAs (builtCells start votes) source t ↔
      source = 0 ∧ (start % weakSubjectivityPeriod).toNat < t := by
  rw [WrittenAs, cell_of_gap hvotes start ht]
  by_cases hempty : t ≤ (start % weakSubjectivityPeriod).toNat
  · rw [if_pos hempty]
    constructor
    · rintro ⟨d, hd, hne, -⟩
      rw [← some.inj hd] at hne
      cases hne
    · rintro ⟨-, h⟩
      omega
  · have hlater : ∃ vote ∈ votes, t < vote.1.toNat := by
      rcases (latestTarget_spec votes).2 with h | ⟨vote, hvote, h⟩
      · omega
      · have hne := ht vote hvote
        exact ⟨vote, hvote, by omega⟩
    rw [if_neg hempty, if_pos hlater]
    constructor
    · rintro ⟨d, hd, -, rfl⟩
      rw [← some.inj hd]
      exact ⟨rfl, by omega⟩
    · rintro ⟨rfl, -⟩
      exact ⟨zeroData, rfl, rfl, rfl⟩

def SurvivesExactly (start : Epoch) (votes : List (Epoch × HistoryData)) : Prop :=
  (∀ vote ∈ votes, Survives (builtCells start votes) ((latestTarget votes).toNat + 1)
      vote.2.source vote.1.toNat) ∧
    ∀ source (target : Epoch), Survives (builtCells start votes)
      ((latestTarget votes).toNat + 1) source target.toNat →
        ∃ vote ∈ votes, vote.2.source = source ∧ vote.1 = target

section

variable (hvotes : WellTargeted votes)

include hvotes

theorem WellTargeted.eq_of_target {vote' : Epoch × HistoryData}
    (h : vote ∈ votes) (h' : vote' ∈ votes) (heq : vote.1 = vote'.1) : vote = vote' :=
  inj_on_of_nodup_map hvotes.nodup h h' heq

theorem SurvivesExactly.upgradable
    (h : SurvivesExactly start votes) : Upgradable start votes := by
  obtain ⟨hkept, hfrom⟩ := h
  have hmarked : ∀ vote ∈ votes, vote.2.source ≠ farFutureEpoch := fun vote hvote =>
    ((writtenAs_vote hvotes hvote).mp (hkept vote hvote).2.1).2
  have hdistinct : ∀ vote ∈ votes, ∀ vote' ∈ votes, vote.2.source = vote'.2.source →
      ¬ vote.1.toNat < vote'.1.toNat := by
    intro vote hvote vote' hvote' heq hlt
    refine (hkept vote hvote).2.2 _ hlt (hkept vote' hvote').1 ?_
    rw [heq]
    exact (hkept vote' hvote').2.1
  refine ⟨hmarked, fun vote hvote vote' hvote' heq => ?_, fun t hstart hle hgap => ?_⟩
  · have h₁ := hdistinct vote hvote vote' hvote' heq
    have h₂ := hdistinct vote' hvote' vote hvote heq.symm
    exact hvotes.eq_of_target hvote hvote' (eq_of_toNat_eq (by omega))
  · -- the last write with source 0 is a vote, and it is not the one of the gap
    have hgap' : ∀ vote ∈ votes, vote.1.toNat ≠ t.toNat := fun vote hvote heq =>
      hgap vote hvote (eq_of_toNat_eq heq)
    have hwritten : WrittenAs (builtCells start votes) 0 t.toNat :=
      (writtenAs_gap hvotes hgap' hle).mpr ⟨rfl, hstart⟩
    obtain ⟨last, hlater, hsurvives⟩ := hwritten.exists_survives (lt_succ_of_le hle)
    have hlt := (latestTarget votes).isLt
    have htoNat : (BitVec.ofNat 64 last).toNat = last := by
      have hbound := hsurvives.1
      rw [toNat_ofNat, mod_eq_of_lt (by omega)]
    obtain ⟨vote, hvote, hsource, htarget⟩ := hfrom 0 (BitVec.ofNat 64 last) (by
      rw [htoNat]
      exact hsurvives)
    have hne := hgap' vote hvote
    rw [htarget, htoNat] at hne
    refine ⟨vote, hvote, hsource, ?_⟩
    rw [htarget, lt_def, htoNat]
    omega

theorem Upgradable.survivesExactly (h : Upgradable start votes) : SurvivesExactly start votes := by
  have hlatest := (latestTarget_spec votes).1
  refine ⟨fun vote hvote => ?_, fun source target hsurvives => ?_⟩
  · have hle := hlatest vote hvote
    refine ⟨by omega, (writtenAs_vote hvotes hvote).mpr ⟨rfl, h.marked vote hvote⟩,
      fun t hlt hbound hwritten => ?_⟩
    by_cases htarget : ∃ vote' ∈ votes, vote'.1.toNat = t
    · obtain ⟨vote', hvote', rfl⟩ := htarget
      have hsame := ((writtenAs_vote hvotes hvote').mp hwritten).1
      rw [h.distinct vote' hvote' vote hvote hsame] at hlt
      exact Nat.lt_irrefl _ hlt
    · push Not at htarget
      obtain ⟨hzero, hstart⟩ := (writtenAs_gap hvotes htarget (by omega)).mp hwritten
      have hlast := (latestTarget votes).isLt
      have htoNat : (BitVec.ofNat 64 t).toNat = t := by
        rw [toNat_ofNat, mod_eq_of_lt (by omega)]
      obtain ⟨vote', hvote', hsource, hlater⟩ := h.covered (BitVec.ofNat 64 t)
        (by rw [lt_def, htoNat]; exact hstart)
        (by rw [BitVec.le_def, htoNat]; omega)
        (fun vote' hvote' heq => htarget vote' hvote' (by rw [heq, htoNat]))
      rw [h.distinct vote' hvote' vote hvote (hsource.trans hzero.symm), lt_def, htoNat] at hlater
      omega
  · obtain ⟨hlt, hwritten, hlast⟩ := hsurvives
    by_cases htarget : ∃ vote ∈ votes, vote.1 = target
    · obtain ⟨vote, hvote, rfl⟩ := htarget
      exact ⟨vote, hvote, ((writtenAs_vote hvotes hvote).mp hwritten).1, rfl⟩
    · push Not at htarget
      obtain ⟨rfl, hstart⟩ := (writtenAs_gap hvotes
        (fun vote hvote heq => htarget vote hvote (eq_of_toNat_eq heq))
        (by omega)).mp hwritten
      obtain ⟨vote, hvote, hsource, hlater⟩ := h.covered target hstart
        (Nat.lt_succ_iff.mp hlt) htarget
      have hle := hlatest vote hvote
      refine absurd ?_ (hlast vote.1.toNat hlater (by omega))
      exact (writtenAs_vote hvotes hvote).mpr ⟨hsource, by decide⟩

end

theorem Migrated.history {cells : List HistoryData} {n : ℕ} {b : PkBucket}
    (h : Migrated cells n b) {db : DB} {k : PubKey} (hk : db.pubKeys[k]? = some b) :
    ∃ records, db.attestationHistoryForPubKey k = .ok records ∧
      ∀ r, r ∈ records ↔ ∃ d, r = recordOf k (r.target, d) ∧ cells[r.target.toNat]? = some d ∧
        Survives cells n d.source r.target.toNat := by
  obtain ⟨m, l, hm, hl, hmem⟩ := h.sources
  obtain ⟨roots, hroots, hroot⟩ := h.roots
  have hread : db.attestationHistoryForPubKey k = .ok ((entries m).map fun vote =>
      ⟨k, vote.1, vote.2, roots[ofUint64 vote.2]?.getD zeroHash⟩) := by
    rw [DB.attestationHistoryForPubKey, hk]
    dsimp only
    rw [hm, bind_some, hl.readAll_eq, hroots]
  refine ⟨_, hread, fun r => ?_⟩
  rw [List.mem_map]
  constructor
  · rintro ⟨vote, hvote, rfl⟩
    have hsurvives := (hmem _ _).mp (hl.mem_entries.mp hvote)
    obtain ⟨d, hd, hne, hsource⟩ := hsurvives.2.1
    refine ⟨d, ?_, hd, hsource ▸ hsurvives⟩
    rw [recordOf, hsource, hroot vote.2 d hsurvives.1 hd hne, getD_some]
  · rintro ⟨d, hr, hd, hsurvives⟩
    refine ⟨(d.source, r.target), hl.mem_entries.mpr ((hmem _ _).mpr hsurvives), ?_⟩
    obtain ⟨d', hd', hne, -⟩ := hsurvives.2.1
    obtain rfl : d = d' := some.inj (hd.symm.trans hd')
    rw [hroot r.target d hsurvives.1 hd hne, getD_some]
    exact hr.symm

theorem survivesExactly_iff (hvotes : WellTargeted votes) {k : PubKey}
    {records : List AttestationRecord}
    (h : ∀ r, r ∈ records ↔ ∃ d, r = recordOf k (r.target, d) ∧
      (builtCells start votes)[r.target.toNat]? = some d ∧
        Survives (builtCells start votes) ((latestTarget votes).toNat + 1) d.source
          r.target.toNat) :
    (∀ r, r ∈ records ↔ r ∈ votes.map (recordOf k)) ↔ SurvivesExactly start votes := by
  simp only [List.mem_map]
  constructor
  · refine fun hexact => ⟨fun vote hvote => ?_, fun source target hsurvives => ?_⟩
    · obtain ⟨d, -, hd, hsurvives⟩ := (h _).mp ((hexact _).mpr ⟨vote, hvote, rfl⟩)
      rw [recordOf, cell_of_vote hvotes start hvote] at hd
      rw [← some.inj hd] at hsurvives
      exact hsurvives
    · obtain ⟨d, hd, -, rfl⟩ := hsurvives.2.1
      obtain ⟨vote, hvote, heq⟩ :=
        (hexact (recordOf k (target, d))).mp ((h _).mpr ⟨d, rfl, hd, hsurvives⟩)
      exact ⟨vote, hvote, congrArg AttestationRecord.source heq,
        congrArg AttestationRecord.target heq⟩
  · rintro ⟨hkept, hfrom⟩ r
    constructor
    · intro hr
      obtain ⟨d, hrec, hd, hsurvives⟩ := (h r).mp hr
      obtain ⟨vote, hvote, -, htarget⟩ := hfrom _ _ hsurvives
      rw [← htarget, cell_of_vote hvotes start hvote] at hd
      refine ⟨vote, hvote, ?_⟩
      rw [hrec, ← htarget, ← some.inj hd]
    · rintro ⟨vote, hvote, rfl⟩
      exact (h _).mpr ⟨vote.2, rfl, cell_of_vote hvotes start hvote, hkept vote hvote⟩

end Exact

/-- The upgrade of a history that is built from votes returns without an error, and
the records of its public key are these votes exactly if they can be upgraded. -/
theorem upgraded_history_exact_iff {db : DB} {k : PubKey} {start : Epoch}
    {votes : List (Epoch × HistoryData)} {history : Bytes} (hvotes : WellTargeted votes)
    (hbuild : buildHistory start votes = .ok history)
    (hk : db.deprecatedAttestationHistory[k]? = some history) (hnew : db.pubKeys[k]? = none)
    (hbuilt : ∀ (k' : PubKey) history', db.deprecatedAttestationHistory[k']? = some history' →
      Built history') :
    ∃ db' records, migrateOptimalAttesterProtectionUp false db = .ok () db' ∧
      db'.attestationHistoryForPubKey k = .ok records ∧
      ((∀ r, r ∈ records ↔ r ∈ votes.map (recordOf k)) ↔ Upgradable start votes) := by
  obtain ⟨db', hrun, hkeys⟩ := migrateOptimalAttesterProtectionUp_eq_ok hbuilt
  obtain ⟨b, hb, hk'⟩ := hkeys k history hk
  obtain ⟨dh, hdh, hrep⟩ := buildHistory_represents start votes
  obtain rfl : history = dh := ok.inj (hbuild.symm.trans hdh)
  have hlatest := latestTarget_lt hvotes
  rw [hnew, hrep.migrateHistory hlatest] at hb
  have hmigrated := migrated_foldl (builtCells start votes)
    (n := (latestTarget votes).toNat + 1) (by omega)
  rw [ok.inj hb] at hmigrated
  obtain ⟨records, hrecords, hmem⟩ := hmigrated.history hk'
  refine ⟨db', records, hrun, hrecords, ?_⟩
  rw [survivesExactly_iff hvotes hmem]
  exact ⟨fun h => h.upgradable hvotes, fun h => h.survivesExactly hvotes⟩

def oldDatabase (k : PubKey) (start : Epoch) (votes : List (Epoch × HistoryData)) : DB :=
  { DB.empty with
    deprecatedAttestationHistory :=
      empty.insert k ((buildHistory start votes).toOption.getD []) }

def upgradedRecords (k : PubKey) (start : Epoch) (votes : List (Epoch × HistoryData)) :
    Option (List AttestationRecord) :=
  match migrateOptimalAttesterProtectionUp false (oldDatabase k start votes) with
  | .ok () db => (db.attestationHistoryForPubKey k).toOption
  | .error _ _ => none

/-- Votes in which every source is the target before. -/
def chainedVotes : List (Epoch × HistoryData) := [(1, ⟨0, 5⟩), (2, ⟨1, 6⟩)]

theorem upgraded_history_exact_of_chainedVotes :
    WellTargeted chainedVotes ∧ Upgradable 0 chainedVotes ∧
      ∃ db' records,
        migrateOptimalAttesterProtectionUp false (oldDatabase 7 0 chainedVotes) = .ok () db' ∧
        db'.attestationHistoryForPubKey 7 = .ok records ∧
        ((∀ r, r ∈ records ↔ r ∈ chainedVotes.map (recordOf 7)) ↔ Upgradable 0 chainedVotes) := by
  have hvotes : WellTargeted chainedVotes := ⟨by decide, by decide⟩
  have hbuild : buildHistory 0 chainedVotes =
      .ok ((buildHistory 0 chainedVotes).toOption.getD []) := by
    obtain ⟨dh, hdh, -⟩ := buildHistory_represents 0 chainedVotes
    rw [hdh]
    rfl
  have hold : ∀ k' : PubKey, (oldDatabase 7 0 chainedVotes).deprecatedAttestationHistory[k']? =
      if k' = 7 then some ((buildHistory 0 chainedVotes).toOption.getD []) else none := by
    intro k'
    rw [oldDatabase, TreeMap.getElem?_insert]
    rfl
  refine ⟨hvotes, ⟨by decide, by decide, fun t hstart hle hgap => ?_⟩,
    upgraded_history_exact_iff hvotes hbuild (by rw [hold, if_pos rfl]) rfl
      fun k' history' hk' => ?_⟩
  · have hlatest : latestTarget chainedVotes = 2 := by decide
    have hone := hgap (1, ⟨0, 5⟩) (by decide)
    have htwo := hgap (2, ⟨1, 6⟩) (by decide)
    rw [hlatest] at hle
    bv_omega
  · rw [hold] at hk'
    split at hk'
    · rw [← some.inj hk']
      exact ⟨0, chainedVotes, hvotes, hbuild⟩
    · cases hk'

/-- Of two votes with source 0 the first is lost, and a gap before a target makes a
vote. -/
theorem upgrade_loses_and_invents_votes :
    upgradedRecords 7 0 [(1, ⟨0, 5⟩), (2, ⟨0, 6⟩)] = some [⟨7, 0, 2, 6⟩] ∧
      upgradedRecords 7 0 [(3, ⟨2, 5⟩)] = some [⟨7, 0, 2, zeroHash⟩, ⟨7, 2, 3, 5⟩] := by
  decide +kernel

end Vanguard.Validator
