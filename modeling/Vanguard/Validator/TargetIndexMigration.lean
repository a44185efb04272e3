import Vanguard.Lib.Fallible
import Vanguard.Validator.AttesterSafety

/-!
Upgrade of attesting histories to an index by target.

The index from sources to targets is inverted for one public key after the other, in
transactions of 100 keys. A run that is interrupted leaves the keys of the batches so
far with their target buckets, and the next run appends to these.
-/

namespace Vanguard.Validator

open Bytes PackedIndex List Std.ExtTreeMap EState DB

/-! ### `migrateSourceTargetEpochsBucketUp` -/

/-- The database and the mark of the migration in `migrationsBucket`. -/
structure MigrationStore where
  db : DB
  completed : Bool

def publicKeyMigrationBatchSize : ℕ := 100

def insertTargetSource (bkt : Bucket Bytes) (targetEpochBytes sourceEpochBytes : Bytes) :
    Bucket Bytes :=
  match bkt[targetEpochBytes]? with
  | some existing => bkt.insert targetEpochBytes (existing ++ sourceEpochBytes)
  | none => bkt.insert targetEpochBytes sourceEpochBytes

/-- The loop over the targets of a source, eight bytes at a time. -/
def insertTargets (sourceEpochBytes : Bytes) : Bytes → Bucket Bytes → Except Err (Bucket Bytes)
  | [], targetBucket => .ok targetBucket
  | b₀ :: b₁ :: b₂ :: b₃ :: b₄ :: b₅ :: b₆ :: b₇ :: rest, targetBucket =>
    insertTargets sourceEpochBytes rest
      (insertTargetSource targetBucket [b₀, b₁, b₂, b₃, b₄, b₅, b₆, b₇] sourceEpochBytes)
  | _, _ => .error .panic

def invertSources (sourceBucket targetBucket : Bucket Bytes) : Except Err (Bucket Bytes) :=
  sourceBucket.toList.foldlM (fun bkt e => insertTargets e.1 e.2 bkt) targetBucket

/-- The loop body for a public key. -/
def migratePublicKey (db : DB) (pubKey : PubKey) : Except Err DB :=
  match db.pubKeys[pubKey]? with
  | none => .ok db
  | some pkb =>
    match pkb.sourceEpochs with
    | none => .ok db
    | some sourceBucket =>
      (invertSources sourceBucket (pkb.targetEpochs.getD ∅)).map fun targetBucket =>
        { db with
          pubKeys := db.pubKeys.insert pubKey { pkb with targetEpochs := some targetBucket } }

/-- The loop of `batchPublicKeys` from a position on. -/
def batchesFrom {α : Type} (publicKeys : List α) (batchSize : ℕ) : (fuel i : ℕ) → List (List α)
  | 0, _ => []
  | fuel + 1, i =>
    if i < publicKeys.length then
      (if publicKeys.length + 1 ≤ i + batchSize then publicKeys.drop i
        else (publicKeys.drop i).take batchSize) ::
        batchesFrom publicKeys batchSize fuel (i + batchSize)
    else []

/-- `batchPublicKeys`. The loop makes at most as many rounds as there are keys if the
size is positive, and does not end otherwise. -/
def batchPublicKeys {α : Type} (publicKeys : List α) (batchSize : ℕ) : List (List α) :=
  if publicKeys.length < batchSize then [publicKeys]
  else batchesFrom publicKeys batchSize publicKeys.length 0

namespace MigrationStore

def updateBatch (batch : List PubKey) : EStateM Err MigrationStore Unit := fun s =>
  match batch.foldlM migratePublicKey s.db with
  | .error e => .error e s
  | .ok db => .ok () { s with db }

def batchedKeys (s : MigrationStore) : List (List PubKey) :=
  batchPublicKeys (if s.completed then [] else s.db.pubKeys.keys) publicKeyMigrationBatchSize

def migrateSourceTargetEpochsBucketUp : EStateM Err MigrationStore Unit := do
  let s ← get
  s.batchedKeys.forM updateBatch
  modify fun s => { s with completed := true }

/-- The store after a run that was interrupted when some batches were done. -/
def interrupted (s : MigrationStore) (batches : ℕ) : MigrationStore :=
  final ((s.batchedKeys.take batches).forM updateBatch) s

end MigrationStore

section Batches

variable {α : Type} {publicKeys : List α} {batchSize : ℕ}

theorem flatten_batchesFrom (hpos : 0 < batchSize) (fuel i : ℕ)
    (hfuel : publicKeys.length ≤ i + fuel) :
    (batchesFrom publicKeys batchSize fuel i).flatten = publicKeys.drop i := by
  induction fuel generalizing i with
  | zero => rw [batchesFrom, flatten_nil, drop_eq_nil_of_le (by omega)]
  | succ fuel ih =>
    rw [batchesFrom]
    split
    · rw [flatten_cons, ih _ (by omega)]
      split
      · rw [@drop_eq_nil_of_le _ publicKeys (i + batchSize) (by omega), append_nil]
      · rw [← drop_drop, take_append_drop]
    · rw [flatten_nil, drop_eq_nil_of_le (by omega)]

theorem flatten_batchPublicKeys (hpos : 0 < batchSize) :
    (batchPublicKeys publicKeys batchSize).flatten = publicKeys := by
  rw [batchPublicKeys]
  split
  · rw [flatten_singleton]
  · rw [flatten_batchesFrom hpos _ _ (by omega), drop_zero]

end Batches

section Invert

variable {source targets : Bucket Bytes}

theorem insertTargets_pack (h : Packed targets) (e : Epoch) (l : List Epoch) :
    ∃ targets', insertTargets (ofUint64 e) (pack l) targets = .ok targets' ∧ Packed targets' ∧
      ∀ t x, Listed targets' t x ↔ Listed targets t x ∨ (t ∈ l ∧ x = e) := by
  induction l generalizing targets with
  | nil => exact ⟨targets, rfl, h, by simp⟩
  | cons a l ih =>
    obtain ⟨targets', hrun, hpacked, hlisted⟩ := ih (h.add a e)
    refine ⟨targets', ?_, hpacked, fun t x => ?_⟩
    · rw [pack_cons]
      exact hrun
    · rw [hlisted, h.listed_add, mem_cons, or_and_right, or_assoc]

theorem foldlM_insertTargets (h : Packed targets) {entries : List (Bytes × Bytes)}
    (hentries : ∀ x ∈ entries, ∃ e l, x = (ofUint64 e, pack l)) :
    ∃ targets', entries.foldlM (fun bkt e => insertTargets e.1 e.2 bkt) targets = .ok targets' ∧
      Packed targets' ∧ ∀ t e, Listed targets' t e ↔
        Listed targets t e ∨ ∃ l, (ofUint64 e, pack l) ∈ entries ∧ t ∈ l := by
  induction entries generalizing targets with
  | nil => exact ⟨targets, rfl, h, by simp⟩
  | cons entry entries ih =>
    obtain ⟨⟨a, l, rfl⟩, hrest⟩ := forall_mem_cons.mp hentries
    obtain ⟨targets₁, hrun₁, hpacked₁, hlisted₁⟩ := insertTargets_pack h a l
    obtain ⟨targets', hrun, hpacked, hlisted⟩ := ih hpacked₁ hrest
    refine ⟨targets', ?_, hpacked, fun t e => ?_⟩
    · rw [foldlM_cons]
      exact Fallible.bind_eq_ok.mpr ⟨targets₁, hrun₁, hrun⟩
    · rw [hlisted, hlisted₁, or_assoc]
      refine or_congr Iff.rfl ⟨?_, ?_⟩
      · rintro (⟨ht, rfl⟩ | ⟨l', hl', ht⟩)
        · exact ⟨l, mem_cons_self, ht⟩
        · exact ⟨l', mem_cons_of_mem _ hl', ht⟩
      · rintro ⟨l', hl', ht⟩
        rcases mem_cons.mp hl' with heq | hl'
        · obtain ⟨he, hl⟩ := Prod.mk.inj heq
          have hpack := congrArg unpack hl
          rw [unpack_pack, unpack_pack] at hpack
          exact Or.inl ⟨Option.some.inj hpack ▸ ht, ofUint64_injective he⟩
        · exact Or.inr ⟨l', hl', ht⟩

theorem invertSources_spec (hsource : Packed source) (h : Packed targets) :
    ∃ targets', invertSources source targets = .ok targets' ∧ Packed targets' ∧
      ∀ t e, Listed targets' t e ↔ Listed targets t e ∨ Listed source e t := by
  obtain ⟨targets', hrun, hpacked, hlisted⟩ := @foldlM_insertTargets _ h source.toList
    fun x hx => by
      have hx := mem_toList_iff_getElem?_eq_some.mp hx
      obtain ⟨e, l, hk, hv⟩ := hsource x.1 x.2 hx
      exact ⟨e, l, Prod.ext hk hv⟩
  refine ⟨targets', hrun, hpacked, fun t e => ?_⟩
  rw [hlisted]
  simp only [mem_toList_iff_getElem?_eq_some]
  exact Iff.rfl

end Invert

/-! ### All public keys -/

/-- The source buckets list targets, and there are no target buckets yet. -/
def DB.Unmigrated (db : DB) : Prop :=
  ∀ (k : PubKey) b, db.pubKeys[k]? = some b →
    (∀ sources, b.sourceEpochs = some sources → Packed sources) ∧ b.targetEpochs = none

/-- The target buckets hold nothing but what the source buckets hold. -/
structure Migrating (db₀ db : DB) : Prop where
  source : ∀ k, db.sourceIndex k = db₀.sourceIndex k
  packed : ∀ k, Packed (db.targetIndex k)
  sound : ∀ k t e, Listed (db.targetIndex k) t e → Listed (db₀.sourceIndex k) e t

section Migrate

variable {db₀ db : DB} {s : MigrationStore}

theorem DB.Unmigrated.packed (h : db.Unmigrated) (k : PubKey) : Packed (db.sourceIndex k) := by
  rw [sourceIndex]
  cases hb : db.pubKeys[k]? with
  | none => exact packed_empty
  | some b =>
    rw [Option.bind_some]
    cases hsource : b.sourceEpochs with
    | none => exact packed_empty
    | some sources => exact (h k b hb).1 sources hsource

theorem DB.Unmigrated.migrating (h : db.Unmigrated) : Migrating db db := by
  have hempty : ∀ k, db.targetIndex k = ∅ := by
    intro k
    rw [targetIndex]
    cases hb : db.pubKeys[k]? with
    | none => rfl
    | some b =>
      rw [Option.bind_some, (h k b hb).2]
      rfl
  refine ⟨fun k => rfl, fun k => ?_, fun k t e hlisted => ?_⟩
  · rw [hempty]
    exact packed_empty
  · rw [hempty] at hlisted
    exact absurd hlisted (not_listed_empty t e)

/-- The target buckets of some keys get all pairs of their source buckets. -/
structure Inverts (db₀ : DB) (keys : List PubKey) (db db' : DB) : Prop where
  migrating : Migrating db₀ db'
  listed : ∀ k t e, Listed (db'.targetIndex k) t e ↔
    Listed (db.targetIndex k) t e ∨ (k ∈ keys ∧ Listed (db₀.sourceIndex k) e t)

theorem Inverts.refl (h : Migrating db₀ db) : Inverts db₀ [] db db := ⟨h, by simp⟩

theorem Inverts.trans {keys₁ keys₂ : List PubKey} {db₁ db₂ : DB} (h₁ : Inverts db₀ keys₁ db db₁)
    (h₂ : Inverts db₀ keys₂ db₁ db₂) : Inverts db₀ (keys₁ ++ keys₂) db db₂ where
  migrating := h₂.migrating
  listed k t e := by
    rw [h₂.listed, h₁.listed, mem_append, or_and_right, or_assoc]

theorem migratePublicKey_spec (hsource : ∀ k, Packed (db₀.sourceIndex k))
    (h : Migrating db₀ db) (pubKey : PubKey) :
    ∃ db', migratePublicKey db pubKey = .ok db' ∧ Inverts db₀ [pubKey] db db' := by
  -- a key without a source bucket has nothing to invert
  have hkept : db.sourceIndex pubKey = ∅ → Inverts db₀ [pubKey] db db := by
    intro hempty
    refine ⟨h, fun k t e => ⟨Or.inl, ?_⟩⟩
    rintro (hlisted | ⟨hk, hlisted⟩)
    · exact hlisted
    · rw [mem_singleton.mp hk, ← h.source, hempty] at hlisted
      exact absurd hlisted (not_listed_empty e t)
  rw [migratePublicKey]
  cases hb : db.pubKeys[pubKey]? with
  | none => exact ⟨db, rfl, hkept (by rw [sourceIndex, hb]; rfl)⟩
  | some pkb =>
    obtain ⟨signingRoots, sourceEpochs, targetEpochs⟩ := pkb
    cases sourceEpochs with
    | none => exact ⟨db, rfl, hkept (by rw [sourceIndex, hb]; rfl)⟩
    | some sources =>
      have hsources : db₀.sourceIndex pubKey = sources := by
        rw [← h.source, sourceIndex, hb]
        rfl
      have htargets : db.targetIndex pubKey = targetEpochs.getD ∅ := by
        rw [targetIndex, hb]
        rfl
      obtain ⟨targets, hrun, hpacked, hlisted⟩ :=
        invertSources_spec (hsources ▸ hsource pubKey) (htargets ▸ h.packed pubKey)
      rw [← hsources, ← htargets] at hlisted
      set db' : DB := { db with
        pubKeys := db.pubKeys.insert pubKey ⟨signingRoots, some sources, some targets⟩ }
      have hindex : ∀ k, db'.targetIndex k =
          if k = pubKey then targets else db.targetIndex k := by
        intro k
        rw [targetIndex, TreeMap.getElem?_insert]
        split
        · rfl
        · rfl
      have hiff : ∀ k t e, Listed (db'.targetIndex k) t e ↔
          Listed (db.targetIndex k) t e ∨ (k ∈ [pubKey] ∧ Listed (db₀.sourceIndex k) e t) := by
        intro k t e
        rw [hindex, mem_singleton]
        split
        · next hk =>
          rw [hlisted, hk]
          simp only [true_and]
        · next hk => simp only [hk, false_and, or_false]
      refine ⟨db', congrArg (Except.map _) hrun,
        ⟨fun k => ?_, fun k => ?_, fun k t e ht => ?_⟩, hiff⟩
      · rw [sourceIndex, TreeMap.getElem?_insert]
        split
        · next hk =>
          rw [hk, hsources]
          rfl
        · exact h.source k
      · rw [hindex]
        split
        · exact hpacked
        · exact h.packed k
      · rcases (hiff k t e).mp ht with ht | ⟨-, ht⟩
        · exact h.sound k t e ht
        · exact ht

section

variable (hsource : ∀ k, Packed (db₀.sourceIndex k)) (h : Migrating db₀ s.db)

include hsource h

theorem updateBatch_spec
    (batch : List PubKey) :
    ∃ db', MigrationStore.updateBatch batch s = .ok () { s with db := db' } ∧
      Inverts db₀ batch s.db db' := by
  have hfold : ∀ (batch : List PubKey) (db : DB), Migrating db₀ db →
      ∃ db', batch.foldlM migratePublicKey db = .ok db' ∧ Inverts db₀ batch db db' := by
    intro batch
    induction batch with
    | nil => exact fun db h => ⟨db, rfl, Inverts.refl h⟩
    | cons pubKey batch ih =>
      intro db h
      obtain ⟨db₁, hrun₁, hinv₁⟩ := migratePublicKey_spec hsource h pubKey
      obtain ⟨db₂, hrun₂, hinv₂⟩ := ih db₁ hinv₁.migrating
      refine ⟨db₂, ?_, hinv₁.trans hinv₂⟩
      rw [foldlM_cons]
      exact Fallible.bind_eq_ok.mpr ⟨db₁, hrun₁, hrun₂⟩
  obtain ⟨db', hrun, hinv⟩ := hfold batch s.db h
  refine ⟨db', ?_, hinv⟩
  rw [MigrationStore.updateBatch, hrun]

theorem forM_updateBatch
    (batches : List (List PubKey)) :
    ∃ db', batches.forM MigrationStore.updateBatch s = .ok () { s with db := db' } ∧
      Inverts db₀ batches.flatten s.db db' := by
  induction batches generalizing s with
  | nil => exact ⟨s.db, rfl, Inverts.refl h⟩
  | cons batch batches ih =>
    obtain ⟨db₁, hrun₁, hinv₁⟩ := updateBatch_spec hsource h batch
    obtain ⟨db₂, hrun₂, hinv₂⟩ := ih (s := { s with db := db₁ }) hinv₁.migrating
    refine ⟨db₂, ?_, hinv₁.trans hinv₂⟩
    rw [List.forM_eq_forM, forM_cons, bind_ok hrun₁]
    exact hrun₂

theorem migrating_interrupted (hflag : s.completed = false) (stops : List ℕ) :
    Migrating db₀ (stops.foldl MigrationStore.interrupted s).db ∧
      (stops.foldl MigrationStore.interrupted s).completed = false := by
  refine Run.invariant_of_step (I := fun s : MigrationStore =>
    Migrating db₀ s.db ∧ s.completed = false) (fun s n hs => ?_) ⟨h, hflag⟩ stops
  obtain ⟨db', hrun, hinv⟩ := forM_updateBatch hsource hs.1 (s.batchedKeys.take n)
  rw [MigrationStore.interrupted, final_of_ok hrun]
  exact ⟨hinv.migrating, hs.2⟩

theorem migrate_spec
    (hflag : s.completed = false) :
    ∃ db', MigrationStore.migrateSourceTargetEpochsBucketUp s = .ok () ⟨db', true⟩ ∧
      Migrating db₀ db' ∧
      ∀ k t e, Listed (db'.targetIndex k) t e ↔ Listed (db₀.sourceIndex k) e t := by
  obtain ⟨db', hrun, hinv⟩ := forM_updateBatch hsource h s.batchedKeys
  refine ⟨db', ?_, hinv.migrating, fun k t e => ⟨hinv.migrating.sound k t e, fun hlisted => ?_⟩⟩
  · rw [MigrationStore.migrateSourceTargetEpochsBucketUp, get_bind, bind_ok hrun]
    rfl
  · refine (hinv.listed k t e).mpr (Or.inr ⟨?_, hlisted⟩)
    rw [MigrationStore.batchedKeys, hflag, if_neg Bool.false_ne_true,
      flatten_batchPublicKeys (by decide), TreeMap.mem_keys_iff]
    intro hnone
    rw [← h.source, sourceIndex, hnone] at hlisted
    exact not_listed_empty e t hlisted

end

/-- After any number of interrupted runs a run to the end leaves the target index as the
inverse of the source index, and a later run changes nothing. The batches of keys are
consecutive parts of the list of keys. -/
theorem targetIndex_inverts_sourceIndex (h : s.db.Unmigrated) (hflag : s.completed = false)
    (stops : List ℕ) :
    (∃ s', MigrationStore.migrateSourceTargetEpochsBucketUp
          (stops.foldl MigrationStore.interrupted s) = .ok () s' ∧
        MigrationStore.migrateSourceTargetEpochsBucketUp s' = .ok () s' ∧
        (∀ k, s'.db.sourceIndex k = s.db.sourceIndex k) ∧
        ∀ k source target, Listed (s'.db.targetIndex k) target source ↔
          Listed (s.db.sourceIndex k) source target) ∧
      ∀ (publicKeys : List PubKey) (batchSize : ℕ), 0 < batchSize →
        (batchPublicKeys publicKeys batchSize).flatten = publicKeys := by
  refine ⟨?_, fun publicKeys batchSize hpos => flatten_batchPublicKeys hpos⟩
  obtain ⟨hmigrating, hflag'⟩ := migrating_interrupted h.packed h.migrating hflag stops
  obtain ⟨db', hrun, hdone, hlisted⟩ := migrate_spec h.packed hmigrating hflag'
  exact ⟨⟨db', true⟩, hrun, rfl, hdone.source, fun k e t => hlisted k t e⟩

end Migrate

/-- Key 7 has voted from epoch 1 to epochs 2 and 3, key 8 from epoch 4 to epoch 5. -/
def threeVotes : MigrationStore :=
  let seven : PkBucket := ⟨none, some (PackedIndex.add (PackedIndex.add ∅ 1 2) 1 3), none⟩
  let eight : PkBucket := ⟨none, some (PackedIndex.add ∅ 4 5), none⟩
  ⟨{ DB.empty with pubKeys := ((∅ : PubKeyMap PkBucket).insert 7 seven).insert 8 eight }, false⟩

theorem unmigrated_threeVotes : threeVotes.db.Unmigrated := by
  intro k b hb
  have hpacked : ∀ {m}, Packed m → ∀ sources, some m = some sources →
      Packed sources := fun hm _ heq => Option.some.inj heq ▸ hm
  rw [threeVotes, TreeMap.getElem?_insert, TreeMap.getElem?_insert] at hb
  split at hb
  · rw [← Option.some.inj hb]
    exact ⟨hpacked (packed_empty.add 4 5), rfl⟩
  · split at hb
    · rw [← Option.some.inj hb]
      exact ⟨hpacked ((packed_empty.add 1 2).add 1 3), rfl⟩
    · simp at hb

/-- The first run stops after one key. -/
theorem threeVotes_inverted : ∃ s', MigrationStore.migrateSourceTargetEpochsBucketUp
    (threeVotes.interrupted 1) = .ok () s' ∧ Listed (s'.db.targetIndex 7) 2 1 ∧
      Listed (s'.db.targetIndex 7) 3 1 ∧ Listed (s'.db.targetIndex 8) 5 4 := by
  obtain ⟨⟨s', hrun, -, -, hlisted⟩, -⟩ :=
    targetIndex_inverts_sourceIndex unmigrated_threeVotes rfl [1]
  have hseven : threeVotes.db.sourceIndex 7 = PackedIndex.add (PackedIndex.add ∅ 1 2) 1 3 := by
    rw [sourceIndex, threeVotes, TreeMap.getElem?_insert, if_neg (by decide),
      TreeMap.getElem?_insert, if_pos rfl]
    rfl
  have height : threeVotes.db.sourceIndex 8 = PackedIndex.add ∅ 4 5 := by
    rw [sourceIndex, threeVotes, TreeMap.getElem?_insert, if_pos rfl]
    rfl
  refine ⟨s', hrun, (hlisted 7 1 2).mpr ?_, (hlisted 7 1 3).mpr ?_, (hlisted 8 4 5).mpr ?_⟩
  · rw [hseven, (packed_empty.add 1 2).listed_add, packed_empty.listed_add]
    exact .inl (.inr ⟨rfl, rfl⟩)
  · rw [hseven, (packed_empty.add 1 2).listed_add]
    exact .inr ⟨rfl, rfl⟩
  · rw [height, packed_empty.listed_add]
    exact .inr ⟨rfl, rfl⟩

end Vanguard.Validator
