import Vanguard.Validator.AttesterPruning
import Vanguard.Validator.Interchange

/-!
Export of a validator database and import into an empty one.

The export reads the source buckets, so what pruning has left only in the target
buckets or among the roots is lost. Where the source buckets have all votes and
these do not conflict, and no proposal that was kept would be pruned again, the new
database refuses whatever the old one refuses.
-/

namespace Vanguard.Validator

open PackedIndex Interchange Fallible List BitVec Option Std.ExtTreeMap Prod TreeMap Bytes DB
open Text (hexString decimal decodeHex trim0x parseUint)
open Bytes (ofUint64 toUint64)

namespace Interchange

/-! ### Texts -/

theorem fixedFromHex_hexString {bytes : Bytes} {n : ℕ} (h : bytes.length = n) :
    fixedFromHex n (hexString bytes) = .ok bytes := by
  simp [fixedFromHex, h]

@[simp] theorem pubKeyFromHex_pubKeyToHexString (k : PubKey) :
    pubKeyFromHex (pubKeyToHexString k) = .ok k := by
  have hlen : (pubKeyBytes k).length = 48 := length_bigEndian 48 _
  have hlt := k.isLt
  rw [pubKeyFromHex, pubKeyToHexString, fixedFromHex_hexString hlen, Except.map, pubKeyBytes,
    value_bigEndian, Nat.mod_eq_of_lt (by omega), ofNat_toNat, setWidth_eq]

@[simp] theorem rootFromHex_rootBytes (r : Root) :
    rootFromHex (hexString (rootBytes r)) = .ok r := by
  have hlen : (rootBytes r).length = 32 := length_bigEndian 32 _
  have hlt := r.isLt
  rw [rootFromHex, fixedFromHex_hexString hlen, Except.map, rootBytes, value_bigEndian,
    Nat.mod_eq_of_lt (by omega), ofNat_toNat, setWidth_eq]

@[simp] theorem numberFromString_decimal (x : BitVec 64) :
    numberFromString (decimal x) = .ok x := by
  simp [numberFromString]

theorem optionalRoot_rootBytes (r : Root) : optionalRoot (hexString (rootBytes r)) = .ok r := by
  have hne : hexString (rootBytes r) ≠ [] := cons_ne_nil _ _
  rw [optionalRoot, if_neg hne, rootFromHex_rootBytes]

theorem transformSignedBlock_export (p : Proposal) :
    transformSignedBlock ⟨decimal p.slot, hexString (rootBytes p.signingRoot)⟩ = .ok p := by
  rw [transformSignedBlock, numberFromString_decimal, optionalRoot_rootBytes]
  rfl

theorem transformSignedAttestation_export (att : AttestationRecord) :
    transformSignedAttestation att.pubKey (exportAttestation att) = .ok att := by
  have hroot : optionalRoot (exportAttestation att).signingRoot = .ok att.signingRoot := by
    rw [exportAttestation]
    dsimp only
    split
    · rename_i hzero
      rw [hzero]
      rfl
    · exact optionalRoot_rootBytes _
  rw [transformSignedAttestation, hroot, exportAttestation, numberFromString_decimal,
    numberFromString_decimal]
  rfl

/-! ### What is exported -/

/-- The votes of the source bucket with the roots that are left. -/
def history (db : DB) (k : PubKey) : List AttestationRecord :=
  (db.sourceVotes k).map fun vote =>
    ⟨k, vote.1, vote.2, (db.rootsIndex k)[ofUint64 vote.2]?.getD zeroHash⟩

variable {r : AttestationRecord} {α : Type} (o o₁ : MapOrder)
  {m : PubKeyMap (List AttestationRecord)}

theorem mem_history {db : DB} {k : PubKey} :
    r ∈ history db k ↔ (r.source, r.target) ∈ db.sourceVotes k ∧ r.pubKey = k ∧
      r.signingRoot = (db.rootsIndex k)[ofUint64 r.target]?.getD zeroHash := by
  rw [history, List.mem_map]
  constructor
  · rintro ⟨vote, hvote, rfl⟩
    exact ⟨hvote, rfl, rfl⟩
  · rintro ⟨hvote, rfl, hroot⟩
    exact ⟨_, hvote, by rw [← hroot]⟩

theorem sourceVotes_of_none {db : DB} {k : PubKey} (h : db.pubKeys[k]? = none) :
    db.sourceVotes k = [] := by
  have hempty : db.sourceIndex k = ∅ := by rw [sourceIndex, h]; rfl
  rw [sourceVotes, hempty]
  exact eq_nil_iff_forall_not_mem.mpr fun p hp =>
    absurd (Lists.empty.mem_entries.mp hp) not_mem_nil

theorem attestationHistoryForPubKey_eq {db : DB} (h : Sane db) (k : PubKey) :
    db.attestationHistoryForPubKey k = .ok (history db k) := by
  rw [attestationHistoryForPubKey, history]
  cases hb : db.pubKeys[k]? with
  | none => rw [sourceVotes_of_none hb]; rfl
  | some b =>
    obtain ⟨hroots, hsource, -⟩ := h.created k b hb
    obtain ⟨roots, hroots⟩ := isSome_iff_exists.mp hroots
    obtain ⟨source, hsource⟩ := isSome_iff_exists.mp hsource
    have hindex : db.sourceIndex k = source := by simp [sourceIndex, hb, hsource]
    have hrootsIndex : db.rootsIndex k = roots := by simp [rootsIndex, hb, hroots]
    have hread : readAll source = some (db.sourceVotes k) := by
      rw [← hindex]
      exact (h.source k).readAll_eq
    simp only [hsource, hroots, bind_some, hread, hrootsIndex]

/-- The item of a public key, if its history does not start with an entry that is
skipped. -/
def item (db : DB) (k : PubKey) : ProtectionData where
  pubkey := pubKeyToHexString k
  signedBlocks := (signedBlocksByPubKey db k).map some
  signedAttestations := ((history db k).map exportAttestation).map some

theorem signedBlocksByPubKey_of_none {db : DB} {k : PubKey}
    (h : db.historicProposals[k]? = none) : signedBlocksByPubKey db k = [] := by
  rw [signedBlocksByPubKey, proposalHistoryForPubKey, h]
  rfl

theorem history_of_none {db : DB} {k : PubKey} (h : db.pubKeys[k]? = none) : history db k = [] := by
  rw [history, sourceVotes_of_none h]
  rfl

theorem getElem?_exportBlocks (db : DB) (k : PubKey) :
    (exportBlocks db)[k]? =
      if db.historicProposals[k]? = none then none
      else some ⟨pubKeyToHexString k, (signedBlocksByPubKey db k).map some, []⟩ := by
  have hlocal := getElem?_foldl_local (k := id)
    (f := fun k _ => some ⟨pubKeyToHexString k, (signedBlocksByPubKey db k).map some, []⟩)
    (u := fun (m : PubKeyMap ProtectionData) k => m.insert k
      ⟨pubKeyToHexString k, (signedBlocksByPubKey db k).map some, []⟩)
    (fun m c a => by rw [TreeMap.getElem?_insert]; rfl) (l := db.proposedPublicKeys)
    (by rw [List.map_id]; exact nodup_keys) ∅
  rw [List.map_id] at hlocal
  split
  · rename_i hnone
    exact (hlocal.2 k (by simpa [proposedPublicKeys, mem_keys_iff] using hnone)).trans (by simp)
  · rename_i hsome
    exact hlocal.1 k (mem_keys_iff.mpr hsome)

/-- One round of the second loop, if no entry is skipped. -/
def addAttestations (db : DB) (m : PubKeyMap ProtectionData) (k : PubKey) :
    PubKeyMap ProtectionData :=
  m.insert k { m[k]?.getD ⟨pubKeyToHexString k, [], []⟩ with
    signedAttestations := ((history db k).map exportAttestation).map some }

theorem exportAttestations_eq {db : DB} (h : Sane db) {k : PubKey}
    (hskip : skipsFirst (history db k) = false) (hbar : db.proposedPublicKeys ≠ [])
    (m : PubKeyMap ProtectionData) : exportAttestations db m k = .ok (addAttestations db m k) := by
  rw [exportAttestations, signedAttestationsByPubKey, attestationHistoryForPubKey_eq h]
  simp only [hskip, Bool.false_eq_true, if_false, length_eq_zero_iff, hbar]
  rfl

theorem getElem?_addAttestations (db : DB) (k : PubKey) :
    (db.attestedPublicKeys.foldl (addAttestations db) (exportBlocks db))[k]? =
      if db.historicProposals[k]? = none ∧ db.pubKeys[k]? = none then none
      else some (item db k) := by
  have hlocal := getElem?_foldl_local (k := id)
    (f := fun k (o : Option ProtectionData) => some { o.getD ⟨pubKeyToHexString k, [], []⟩ with
      signedAttestations := ((history db k).map exportAttestation).map some })
    (u := addAttestations db)
    (fun m c a => by
      rw [addAttestations, TreeMap.getElem?_insert]
      by_cases ha : a = c
      · simp [ha]
      · simp [ha]) (l := db.attestedPublicKeys)
    (by rw [List.map_id]; exact nodup_keys) (exportBlocks db)
  rw [List.map_id] at hlocal
  by_cases hatt : db.pubKeys[k]? = none
  · rw [hlocal.2 k (by simpa [attestedPublicKeys, mem_keys_iff] using hatt), getElem?_exportBlocks]
    simp only [hatt, and_true, item, history_of_none hatt, map_nil]
  · have hin := hlocal.1 k (mem_keys_iff.mpr hatt)
    simp only [id_eq] at hin
    rw [hin, getElem?_exportBlocks]
    by_cases hprop : db.historicProposals[k]? = none
    · simp [hprop, hatt, item, signedBlocksByPubKey_of_none hprop]
    · simp [hprop, item]

def exported (db : DB) : PubKeyMap ProtectionData :=
  db.attestedPublicKeys.foldl (addAttestations db) (exportBlocks db)

theorem exportStandardProtectionJSON_eq {db : DB} (h : Sane db)
    (hgvr : db.genesisValidatorsRoot.length = 32)
    (hbar : db.proposedPublicKeys ≠ [] ∨ db.attestedPublicKeys = [])
    (hskip : ∀ k, skipsFirst (history db k) = false) :
    exportStandardProtectionJSON db = .ok ⟨interchangeFormatVersion,
      hexString db.genesisValidatorsRoot,
      some ((sortedItems (exported db)).map fun item => some item.2)⟩ := by
  have hroot : rootToHexString db.genesisValidatorsRoot =
      some (hexString db.genesisValidatorsRoot) := by
    simp [rootToHexString, hgvr]
  have hloop : db.attestedPublicKeys.foldlM (exportAttestations db) (exportBlocks db) =
      .ok (exported db) :=
    foldlM_eq_ok (fun m k hk => exportAttestations_eq h (hskip k)
      (hbar.resolve_right (ne_nil_of_mem hk)) m) _
  rw [exportStandardProtectionJSON, hroot]
  simp only [hloop]

/-! ### What is read back -/

/-- The value of a public key in a map of lists, which has no empty ones. -/
def listed {α : Type} (l : List α) : Option (List α) := if l = [] then none else some l

theorem getD_listed (l : List α) : (listed l).getD [] = l := by
  rw [listed]
  split
  · rename_i h
    rw [h]
    rfl
  · rfl

theorem listed_eq_some {l l' : List α} (h : listed l = some l') : l = l' := by
  rw [listed] at h
  split at h
  · cases h
  · exact some.inj h

theorem map_listed {β : Type} {l : List α} {l' : List β} (h : l = [] ↔ l' = []) :
    (listed l).map (fun _ => l') = listed l' := by
  rw [listed, listed]
  by_cases hl : l = []
  · rw [if_pos hl, if_pos (h.mp hl), map_none]
  · rw [if_neg hl, if_neg (mt h.mpr hl), map_some]

theorem getElem?_appendEntries (m : PubKeyMap (List α)) (k a : PubKey) (xs : List α) :
    (appendEntries m k (xs.map some))[a]? =
      if a = k then (listed (m[a]?.getD [] ++ xs)).or m[a]? else m[a]? := by
  rw [appendEntries]
  induction xs generalizing m with
  | nil =>
    by_cases ha : a = k
    · subst ha
      cases hm : m[a]? with
      | none => simp [hm, listed]
      | some l => by_cases hl : l = [] <;> simp [hm, listed, hl]
    · simp [ha]
  | cons x xs ih =>
    rw [map_cons, foldl_cons, ih]
    by_cases ha : a = k
    · subst ha
      simp [listed]
    · simp [ha, TreeMap.getElem?_insert]

theorem parseUnique_eq {err : Text → ParseErr → ImportErr}
    {entries : ProtectionData → List (Option α)} {xs : PubKey → List α}
    {ps : List (PubKey × ProtectionData)} (hkeys : (ps.map fst).Nodup)
    (hps : ∀ p ∈ ps, pubKeyFromHex p.2.pubkey = .ok p.1 ∧ entries p.2 = (xs p.1).map some)
    (hout : ∀ k, k ∉ ps.map fst → xs k = []) :
    ∃ m, parseUnique err entries (ps.map fun p => some p.2) = .ok m ∧
      ∀ k, m[k]? = listed (xs k) := by
  have hlocal := getElem?_foldl_local (k := fst)
    (f := fun p o => (listed (o.getD [] ++ xs p.1)).or o)
    (u := fun (m : PubKeyMap (List α)) (p : PubKey × ProtectionData) =>
      appendEntries m p.1 ((xs p.1).map some))
    (fun m c a => getElem?_appendEntries m c.1 a (xs c.1)) hkeys ∅
  have hloop : parseUnique err entries (ps.map fun p => some p.2) =
      .ok (ps.foldl (fun m p => appendEntries m p.1 ((xs p.1).map some)) ∅) := by
    rw [parseUnique, foldlM_map]
    exact foldlM_eq_ok (fun m p hp => by simp only [parseItem, hps p hp]) ∅
  refine ⟨_, hloop, fun k => ?_⟩
  by_cases hk : k ∈ ps.map fst
  · obtain ⟨p, hp, rfl⟩ := List.mem_map.mp hk
    rw [hlocal.1 p hp]
    simp
  · rw [hlocal.2 k hk, hout k hk]
    simp [listed]

/-- One round of `transformAll` if nothing fails. -/
def transformOne {α β : Type} (m : PubKeyMap α) (g : PubKey → α → β) (acc : PubKeyMap β)
    (k : PubKey) : PubKeyMap β :=
  match m[k]? with
  | none => acc
  | some a => acc.insert k (g k a)

theorem transformAll_eq {β : Type} {f : PubKey → α → Except ImportErr β}
    {m : PubKeyMap α} {g : PubKey → α → β} (hf : ∀ k a, m[k]? = some a → f k a = .ok (g k a)) :
    ∃ m', transformAll o f m = .ok m' ∧ ∀ k, m'[k]? = m[k]?.map (g k) := by
  have hnodup : (o.order m.keys).Nodup := (o.perm _).nodup_iff.mpr nodup_keys
  have hlocal := getElem?_foldl_local (k := id)
    (f := fun k o => (m[k]?.map (g k)).or o) (u := transformOne m g)
    (fun acc c a => by
      rw [transformOne]
      cases hm : m[c]? with
      | none => by_cases ha : a = c <;> simp [ha]
      | some x => by_cases ha : a = c <;> simp [ha, TreeMap.getElem?_insert])
    (l := o.order m.keys) (by rwa [List.map_id]) ∅
  rw [List.map_id] at hlocal
  have hloop : transformAll o f m = .ok ((o.order m.keys).foldl (transformOne m g) ∅) := by
    refine foldlM_eq_ok (fun acc k _ => ?_) ∅
    rw [transformOne]
    cases hm : m[k]? with
    | none => rfl
    | some a => simp only [hf k a hm, Except.map]
  refine ⟨_, hloop, fun k => ?_⟩
  by_cases hk : k ∈ o.order m.keys
  · have hin := hlocal.1 k hk
    simpa using hin
  · have hnone : m[k]? = none := by
      simpa [(o.perm m.keys).mem_iff, mem_keys_iff] using hk
    rw [hlocal.2 k hk, hnone]
    simp

theorem transformAll_listed {β : Type} {f : PubKey → List α → Except ParseErr (List β)}
    (e : PubKey → ParseErr → ImportErr) {m : PubKeyMap (List α)} {xs : PubKey → List α}
    {ys : PubKey → List β} (hm : ∀ k, m[k]? = listed (xs k)) (hf : ∀ k, f k (xs k) = .ok (ys k))
    (hnil : ∀ k, xs k = [] ↔ ys k = []) :
    ∃ m', transformAll o (fun k l => (f k l).mapError (e k)) m = .ok m' ∧
      ∀ k, m'[k]? = listed (ys k) := by
  obtain ⟨m', hm', hget⟩ := transformAll_eq o (f := fun k l => (f k l).mapError (e k))
    (g := fun k _ => ys k) (m := m) fun k l hl => by
      rw [← listed_eq_some ((hm k).symm.trans hl), hf]
      rfl
  refine ⟨m', hm', fun k => ?_⟩
  rw [hget, hm, map_listed (hnil k)]

theorem eq_nil_iff_of_mapM {β ε : Type} {f : α → Except ε β} {l : List α} {bs : List β}
    (h : l.mapM f = .ok bs) : l = [] ↔ bs = [] := by
  rw [← length_eq_zero_iff, ← length_eq_zero_iff, length_of_mapM h]

def filtered (o : Orders) (proposals : PubKeyMap (List Proposal))
    (records : PubKeyMap (List AttestationRecord)) (slashableAttesterKeys : List PubKey) :
    Histories :=
  let slashableProposerKeys := filterSlashablePubKeysFromBlocks o.slashableBlocks proposals
  ⟨slashableProposerKeys.foldl (fun m k => m.erase k) proposals,
    slashableAttesterKeys.foldl (fun m k => m.erase k) records,
    slashableProposerKeys ++ slashableAttesterKeys⟩

theorem readHistories_of_parsed (o : Orders) {data : List (Option ProtectionData)}
    {blocks : PubKey → List SignedBlock} {atts : PubKey → List SignedAttestation}
    {ps : PubKey → List Proposal} {rs : PubKey → List AttestationRecord}
    (hblocks : ∃ m, parseBlocksForUniquePublicKeys data = .ok m ∧ ∀ k, m[k]? = listed (blocks k))
    (hatts : ∃ m, parseAttestationsForUniquePublicKeys data = .ok m ∧ ∀ k, m[k]? = listed (atts k))
    (hps : ∀ k, transformSignedBlocks (blocks k) = .ok (ps k))
    (hrs : ∀ k, transformSignedAttestations k (atts k) = .ok (rs k)) :
    ∃ proposals records, (∀ k, proposals[k]? = listed (ps k)) ∧ (∀ k, records[k]? = listed (rs k)) ∧
      ∀ db, readHistories o data db =
        ((filterSlashablePubKeysFromAttestations o.slashableVotes o.slashableInDB db
          records).mapError .slashable).map (filtered o proposals records) := by
  obtain ⟨m, hm, hget⟩ := hblocks
  obtain ⟨m', hm', hget'⟩ := hatts
  obtain ⟨proposals, hproposals, hlisted⟩ := transformAll_listed o.blocks .signedBlocks hget hps
    fun k => eq_nil_iff_of_mapM (hps k)
  obtain ⟨records, hrecords, hlisted'⟩ := transformAll_listed o.attestations .signedAttestations
    hget' hrs fun k => eq_nil_iff_of_mapM (hrs k)
  refine ⟨proposals, records, hlisted, hlisted', fun db => ?_⟩
  rw [readHistories, hm, hm']
  dsimp only [bind, Except.bind]
  rw [hproposals, hrecords]
  dsimp only
  cases filterSlashablePubKeysFromAttestations o.slashableVotes o.slashableInDB db records with
  | error e => rfl
  | ok keys => rfl

theorem transformSignedBlocks_export (db : DB) (k : PubKey) :
    transformSignedBlocks (signedBlocksByPubKey db k) = .ok (db.proposalHistoryForPubKey k) := by
  rw [transformSignedBlocks, signedBlocksByPubKey, mapM_map]
  exact (mapM_eq_ok (g := id) fun p _ => transformSignedBlock_export p).trans (by rw [List.map_id])

theorem transformSignedAttestations_export (db : DB) (k : PubKey) :
    transformSignedAttestations k ((history db k).map exportAttestation) = .ok (history db k) := by
  have hone : ∀ att ∈ history db k, transformSignedAttestation k (exportAttestation att) =
      .ok (id att) := by
    intro att hatt
    obtain ⟨vote, -, rfl⟩ := List.mem_map.mp hatt
    exact transformSignedAttestation_export _
  rw [transformSignedAttestations, mapM_map]
  exact (mapM_eq_ok hone).trans (by rw [List.map_id])

/-! ### The filters -/

theorem hasDoubleProposal_eq_false {l : List Proposal} {seen : Std.ExtTreeMap Slot Root}
    (hseen : ∀ p ∈ l, seen[p.slot]? = none) (hl : l.Pairwise fun a b => a.slot ≠ b.slot) :
    hasDoubleProposal seen l = false := by
  induction l generalizing seen with
  | nil => rfl
  | cons p l ih =>
    obtain ⟨hp, hl⟩ := pairwise_cons.mp hl
    rw [hasDoubleProposal, hseen p mem_cons_self]
    refine ih (fun q hq => ?_) hl
    rw [TreeMap.getElem?_insert, if_neg (hp q hq).symm]
    exact hseen q (mem_cons_of_mem _ hq)

/-- Two votes of a file that do not make it blacklist their public key. -/
def Compatible (a b : AttestationRecord) : Prop :=
  (a.target = b.target → signingRootsDiffer a.signingRoot b.signingRoot = false) ∧
    isSurround ⟨a.source, a.target⟩ ⟨b.source, b.target⟩ = false ∧
    isSurround ⟨b.source, b.target⟩ ⟨a.source, a.target⟩ = false

instance : DecidableRel Compatible := fun a b => by
  unfold Compatible
  infer_instance

theorem hasSlashableVotes_eq_false {l : List AttestationRecord} {roots : Std.ExtTreeMap Epoch Root}
    {votes : List Attestation}
    (hroots : ∀ att ∈ l, ∀ root, roots[att.target]? = some root →
      signingRootsDiffer root att.signingRoot = false)
    (hvotes : ∀ a ∈ votes, ∀ att ∈ l, isSurround a ⟨att.source, att.target⟩ = false ∧
      isSurround ⟨att.source, att.target⟩ a = false)
    (hl : l.Pairwise Compatible) : hasSlashableVotes roots votes l = false := by
  induction l generalizing roots votes with
  | nil => rfl
  | cons att l ih =>
    obtain ⟨hatt, hl⟩ := pairwise_cons.mp hl
    have hdouble : (roots[att.target]?.any fun root => signingRootsDiffer root att.signingRoot) =
        false := by
      cases hget : roots[att.target]? with
      | none => rfl
      | some root => exact hroots att mem_cons_self root hget
    have hsurround : (votes.any fun a => isSurround a ⟨att.source, att.target⟩ ||
        isSurround ⟨att.source, att.target⟩ a) = false := by
      refine List.any_eq_false.mpr fun a ha => ?_
      obtain ⟨h₁, h₂⟩ := hvotes a ha att mem_cons_self
      simp [h₁, h₂]
    rw [hasSlashableVotes]
    simp only [hdouble, hsurround, Bool.false_eq_true, if_false]
    refine ih (fun b hb root hroot => ?_) (fun a ha b hb => ?_) hl
    · rw [TreeMap.getElem?_insert] at hroot
      split at hroot
      · rename_i ht
        obtain rfl : att.signingRoot = root := some.inj hroot
        exact (hatt b hb).1 ht.symm
      · exact hroots b (mem_cons_of_mem _ hb) root hroot
    · rcases mem_append.mp ha with ha | ha
      · exact hvotes a ha b (mem_cons_of_mem _ hb)
      · rw [mem_singleton.mp ha]
        exact (hatt b hb).2

theorem slashableInDB_of_none {db : DB} {k : PubKey} (hk : db.pubKeys[k]? = none)
    (l : List AttestationRecord) : slashableInDB db k l = .ok false := by
  induction l with
  | nil => rfl
  | cons att l ih =>
    simp only [slashableInDB, checkSlashableAttestation, hk, Bool.false_eq_true, if_false, ih]
    rfl

theorem filterSlashablePubKeysFromAttestations_of_none (o₂ : MapOrder) {db : DB}
    (hdb : ∀ k : PubKey, db.pubKeys[k]? = none) (m : PubKeyMap (List AttestationRecord)) :
    filterSlashablePubKeysFromAttestations o₁ o₂ db m =
      .ok ((o₁.order m.keys).filter fun k => hasSlashableVotes ∅ [] (m[k]?.getD [])) := by
  rw [filterSlashablePubKeysFromAttestations]
  have hloop := foldlM_eq_ok (l := o₂.order m.keys) (g := fun (s : List PubKey) _ => s)
    (f := fun slashablePubKeys k => (slashableInDB db k (m[k]?.getD [])).map fun slashable =>
      if slashable then slashablePubKeys ++ [k] else slashablePubKeys)
    (fun s k _ => by rw [slashableInDB_of_none (hdb k)]; rfl)
  rw [hloop]
  simp

theorem filterSlashablePubKeysFromAttestations_eq_nil (o₂ : MapOrder) {db : DB}
    (hdb : ∀ k : PubKey, db.pubKeys[k]? = none)
    (hm : ∀ k : PubKey, (m[k]?.getD []).Pairwise Compatible) :
    filterSlashablePubKeysFromAttestations o₁ o₂ db m = .ok [] := by
  rw [filterSlashablePubKeysFromAttestations_of_none o₁ o₂ hdb]
  refine congrArg _ (filter_eq_nil_iff.mpr fun k _ => ?_)
  rw [hasSlashableVotes_eq_false (by simp) (by simp) (hm k)]
  exact Bool.false_ne_true

theorem filterSlashablePubKeysFromBlocks_eq_nil {m : PubKeyMap (List Proposal)}
    (hm : ∀ k : PubKey, (m[k]?.getD []).Pairwise fun a b => a.slot ≠ b.slot) :
    filterSlashablePubKeysFromBlocks o m = [] := by
  refine filter_eq_nil_iff.mpr fun k _ => ?_
  rw [hasDoubleProposal_eq_false (by simp) (hm k)]
  exact Bool.false_ne_true

section Proposals

variable {db : DB} {k : PubKey}

theorem proposalHistoryForPubKey_eq :
    db.proposalHistoryForPubKey k =
      (db.proposals k).toList.map fun e => ⟨toUint64 e.1, e.2⟩ := by
  rw [proposalHistoryForPubKey, DB.proposals]
  cases db.historicProposals[k]? with
  | none => simp
  | some m => rfl

theorem mem_proposalHistoryForPubKey (h : Numbered (db.proposals k)) {p : Proposal} :
    p ∈ db.proposalHistoryForPubKey k ↔
      (db.proposals k)[ofUint64 p.slot]? = some p.signingRoot := by
  rw [proposalHistoryForPubKey_eq, List.mem_map]
  constructor
  · rintro ⟨e, he, rfl⟩
    have hget := mem_toList_iff_getElem?_eq_some.mp he
    obtain ⟨slot, hslot⟩ := h e.1 e.2 hget
    rw [hslot, toUint64_ofUint64, ← hslot]
    exact hget
  · intro hget
    exact ⟨(ofUint64 p.slot, p.signingRoot), mem_toList_iff_getElem?_eq_some.mpr hget, by simp⟩

theorem pairwise_proposalHistoryForPubKey (h : Numbered (db.proposals k)) :
    (db.proposalHistoryForPubKey k).Pairwise fun a b => a.slot ≠ b.slot := by
  rw [proposalHistoryForPubKey_eq, pairwise_map]
  refine ordered_keys_toList.imp_of_mem fun {a b} ha hb hlt heq => ?_
  obtain ⟨s, hs⟩ := h a.1 a.2 (mem_toList_iff_getElem?_eq_some.mp ha)
  obtain ⟨s', hs'⟩ := h b.1 b.2 (mem_toList_iff_getElem?_eq_some.mp hb)
  rw [hs, hs', toUint64_ofUint64, toUint64_ofUint64] at heq
  have hslot : s = s' := heq
  rw [hs, hs', hslot, Std.compare_self] at hlt
  cases hlt

end Proposals

theorem sortedItems_exported (db : DB) :
    ((sortedItems (exported db)).map fst).Nodup ∧
      (∀ p ∈ sortedItems (exported db), p.2 = item db p.1) ∧
      ∀ k, k ∉ (sortedItems (exported db)).map fst →
        db.historicProposals[k]? = none ∧ db.pubKeys[k]? = none := by
  have hperm : (sortedItems (exported db)).Perm (exported db).toList := perm_insertionSort _ _
  have hget := getElem?_addAttestations db
  refine ⟨?_, fun p hp => ?_, fun k hk => ?_⟩
  · rw [(hperm.map _).nodup_iff, map_fst_toList_eq_keys]
    exact nodup_keys
  · have hp' := mem_toList_iff_getElem?_eq_some.mp (hperm.mem_iff.mp hp)
    rw [exported, hget] at hp'
    split at hp'
    · cases hp'
    · exact (some.inj hp').symm
  · rw [(hperm.map _).mem_iff, map_fst_toList_eq_keys, mem_keys_iff, exported, hget] at hk
    by_contra hnot
    rw [if_neg hnot] at hk
    exact hk (some_ne_none _)

theorem readHistories_export {db : DB} (hnumbered : ∀ k, Numbered (db.proposals k))
    (hvotes : ∀ k, (history db k).Pairwise Compatible) (o : Orders) {db₁ : DB}
    (hdb₁ : ∀ k : PubKey, db₁.pubKeys[k]? = none) :
    ∃ histories, readHistories o ((sortedItems (exported db)).map fun p => some p.2) db₁ =
        .ok histories ∧
      (∀ k, histories.proposalHistoryByPubKey[k]? = listed (db.proposalHistoryForPubKey k)) ∧
      (∀ k, histories.attestingHistoryByPubKey[k]? = listed (history db k)) ∧
      histories.slashablePublicKeys = [] := by
  obtain ⟨hnodup, hitems, hout⟩ := sortedItems_exported db
  obtain ⟨proposals, records, hproposals, hrecords, hread⟩ := readHistories_of_parsed o
    (parseUnique_eq hnodup (fun p hp => by rw [hitems p hp]; exact ⟨by simp [item], rfl⟩)
      fun k hk => signedBlocksByPubKey_of_none (hout k hk).1)
    (parseUnique_eq hnodup (fun p hp => by rw [hitems p hp]; exact ⟨by simp [item], rfl⟩)
      fun k hk => by rw [history_of_none (hout k hk).2]; rfl)
    (transformSignedBlocks_export db) (transformSignedAttestations_export db)
  have hproposers : filterSlashablePubKeysFromBlocks o.slashableBlocks proposals = [] :=
    filterSlashablePubKeysFromBlocks_eq_nil _ fun k => by
      rw [hproposals, getD_listed]
      exact pairwise_proposalHistoryForPubKey (hnumbered k)
  have hattesters : filterSlashablePubKeysFromAttestations o.slashableVotes o.slashableInDB db₁
      records = .ok [] :=
    filterSlashablePubKeysFromAttestations_eq_nil _ _ hdb₁ fun k => by
      rw [hrecords, getD_listed]
      exact hvotes k
  refine ⟨⟨proposals, records, []⟩, ?_, hproposals, hrecords, rfl⟩
  rw [hread, hattesters, Except.mapError, Except.map, filtered, hproposers]
  rfl

/-! ### The new database -/

def savedRecords (o : MapOrder) (m : PubKeyMap (List AttestationRecord)) :
    List AttestationRecord :=
  (o.order m.keys).flatMap fun k => m[k]?.getD []

theorem saveAttestations_eq (m : PubKeyMap (List AttestationRecord)) (db : DB) :
    saveAttestations o m db = db.saveAttestationRecords (savedRecords o m) := by
  rw [saveAttestations, saveAttestationRecords, savedRecords, foldl_flatMap]
  rfl

def savedBlocks (o : MapOrder) (m : PubKeyMap (List Proposal)) : List Validator.SignedBlock :=
  (o.order m.keys).flatMap fun k => (m[k]?.getD []).map fun p => ⟨k, p.slot, p.signingRoot⟩

def saveBlocks (db : DB) (l : List Validator.SignedBlock) : DB :=
  l.foldl (fun db b => db.saveProposalHistoryForSlot b.pubKey b.slot b.signingRoot) db

theorem saveProposals_eq (m : PubKeyMap (List Proposal)) (db : DB) :
    saveProposals o m db = saveBlocks db (savedBlocks o m) := by
  rw [saveProposals, saveBlocks, savedBlocks, foldl_flatMap]
  simp only [foldl_map]

theorem mem_getD_keys (m : PubKeyMap (List α)) {k : PubKey} {x : α}
    (hx : x ∈ m[k]?.getD []) : k ∈ o.order m.keys := by
  rw [(o.perm _).mem_iff, mem_keys_iff]
  intro hnone
  rw [hnone] at hx
  cases hx

theorem mem_savedRecords {o : MapOrder}
    (hm : ∀ (k : PubKey), ∀ r ∈ m[k]?.getD [], r.pubKey = k) {k : PubKey} :
    r ∈ ofKey k (savedRecords o m) ↔ r ∈ m[k]?.getD [] := by
  rw [mem_ofKey, savedRecords, mem_flatMap]
  constructor
  · rintro ⟨⟨k', -, hr⟩, hk⟩
    obtain rfl : k' = k := (hm k' r hr).symm.trans hk
    exact hr
  · intro hr
    exact ⟨⟨k, mem_getD_keys o m hr, hr⟩, hm k r hr⟩

theorem mem_savedBlocks {o : MapOrder} {m : PubKeyMap (List Proposal)} {k : PubKey} {slot : Slot}
    {root : Root} : ⟨k, slot, root⟩ ∈ savedBlocks o m ↔ ⟨slot, root⟩ ∈ m[k]?.getD [] := by
  rw [savedBlocks, mem_flatMap]
  constructor
  · rintro ⟨k', -, hb⟩
    obtain ⟨p, hp, heq⟩ := List.mem_map.mp hb
    cases heq
    exact hp
  · intro hp
    exact ⟨k, mem_getD_keys o m hp, List.mem_map.mpr ⟨_, hp, rfl⟩⟩

end Interchange

theorem Recorded.congr {db db' : DB} {recs : List AttestationRecord} (h : Recorded db recs)
    (hkeys : db'.pubKeys = db.pubKeys) : Recorded db' recs where
  complete k := by
    rw [Complete, hkeys]
    exact h.complete k
  source k := by
    rw [sourceIndex, hkeys]
    exact h.source k
  target k := by
    rw [targetIndex, hkeys]
    exact h.target k
  roots k t := by
    rw [rootsIndex, hkeys]
    exact h.roots k t

theorem Sane.saveAll {db : DB} (h : Sane db) (l : List AttestationRecord) :
    Sane (db.saveAttestationRecords l) := by
  induction l generalizing db with
  | nil => exact h
  | cons r l ih => exact ih (h.save r)

theorem Sane.isLowest_saveAll {db : DB} (h : Sane db) {k : PubKey} {sources targets : List Epoch}
    (hsource : IsLowest (db.lowestSignedSourceEpoch k) sources)
    (htarget : IsLowest (db.lowestSignedTargetEpoch k) targets) (l : List AttestationRecord) :
    IsLowest ((db.saveAttestationRecords l).lowestSignedSourceEpoch k)
        (sources ++ (ofKey k l).map (·.source)) ∧
      IsLowest ((db.saveAttestationRecords l).lowestSignedTargetEpoch k)
        (targets ++ (ofKey k l).map (·.target)) := by
  induction l generalizing db sources targets with
  | nil => simpa [saveAttestationRecords, ofKey] using ⟨hsource, htarget⟩
  | cons r l ih =>
    by_cases hk : k = r.pubKey
    · subst hk
      have hnext := ih (h.save r)
        (by rw [h.lowestSource_save, if_pos rfl]; exact hsource.append r.source)
        (by rw [h.lowestTarget_save, if_pos rfl]; exact htarget.append r.target)
      simpa [saveAttestationRecords, ofKey] using hnext
    · have hnext := ih (h.save r) (by rw [h.lowestSource_save, if_neg hk]; exact hsource)
        (by rw [h.lowestTarget_save, if_neg hk]; exact htarget)
      simpa [saveAttestationRecords, ofKey, Ne.symm hk] using hnext

variable {signed : List SignedBlock}

theorem Proposed.saveBlocks {db : DB} (h : Proposed db signed)
    (l : List SignedBlock) : Proposed (saveBlocks db l) (signed ++ l) := by
  induction l generalizing db signed with
  | nil => simpa [Interchange.saveBlocks] using h
  | cons b l ih => simpa [Interchange.saveBlocks] using ih (h.save b)

theorem Proposed.congr {db db' : DB} (h : Proposed db signed)
    (hproposals : db'.historicProposals = db.historicProposals)
    (hlowest : db'.lowestSignedProposals = db.lowestSignedProposals) : Proposed db' signed := by
  have hget : ∀ k, db'.proposals k = db.proposals k := fun k => by
    rw [DB.proposals, DB.proposals, hproposals]
  refine ⟨fun k => ?_, fun k => ?_, fun b => ?_, fun b => ?_, ?_, fun k => ?_⟩
  · rw [hget]
    exact h.numbered k
  · rw [hget]
    exact h.stored k
  · rw [hget]
    exact h.kept b
  · rw [hget]
    exact h.alive b
  · rw [hlowest]
    exact h.numbers
  · rw [lowestSignedProposal, hlowest]
    exact h.lowest k

theorem saveAttestationRecords_frame (db : DB) (l : List AttestationRecord) :
    (db.saveAttestationRecords l).historicProposals = db.historicProposals ∧
      (db.saveAttestationRecords l).lowestSignedProposals = db.lowestSignedProposals ∧
      (db.saveAttestationRecords l).slashablePublicKeys = db.slashablePublicKeys := by
  induction l generalizing db with
  | nil => exact ⟨rfl, rfl, rfl⟩
  | cons r l ih => exact ih (db.saveAttestationRecord r)

theorem saveBlocks_frame (db : DB) (l : List SignedBlock) :
    (saveBlocks db l).pubKeys = db.pubKeys ∧
      (saveBlocks db l).lowestSignedSource = db.lowestSignedSource ∧
      (saveBlocks db l).lowestSignedTarget = db.lowestSignedTarget ∧
      (saveBlocks db l).slashablePublicKeys = db.slashablePublicKeys := by
  induction l generalizing db with
  | nil => exact ⟨rfl, rfl, rfl, rfl⟩
  | cons b l ih => exact ih (db.saveProposalHistoryForSlot b.pubKey b.slot b.signingRoot)

/-- The new database has the votes of the source bucket of a public key with the
roots that are left, and no others. -/
structure RestoredVotes (db db' : DB) (k : PubKey) : Prop where
  sane : Sane db'
  recorded : ∃ recs, Recorded db' recs ∧ (∀ r, r ∈ ofKey k recs ↔ r ∈ history db k) ∧
    IsLowest (db'.lowestSignedSourceEpoch k) ((ofKey k recs).map (·.source)) ∧
    IsLowest (db'.lowestSignedTargetEpoch k) ((ofKey k recs).map (·.target))

/-- The new database has the proposals of the old one that are not pruned again. -/
def RestoredProposals (db db' : DB) : Prop :=
  ∃ signed, Proposed db' signed ∧
    ∀ k slot root, ⟨k, slot, root⟩ ∈ signed ↔ (db.proposals k)[ofUint64 slot]? = some root

/-- The votes of a public key go through an export: the first one is not skipped,
no two of them conflict, and every vote of the target bucket is in the source
bucket. -/
def portableVotes (db : DB) (k : PubKey) : Bool :=
  !skipsFirst (history db k) && decide ((history db k).Pairwise Compatible) &&
    (db.targetVotes k).all fun p => (db.sourceVotes k).contains (p.2, p.1)

/-- The proposals of a public key go through an import: only the first one may be
the weak subjectivity period behind another. -/
def portableProposals (db : DB) (k : PubKey) : Bool :=
  let slots := (db.proposalHistoryForPubKey k).map (·.slot)
  slots.all fun a => slots.all fun b => !prunable a b || slots.all fun c => decide (b ≤ c)

/-- The database has a genesis validators root, some key has proposed unless none has attested, and
all votes and proposals go through. -/
def Portable (db : DB) : Prop :=
  db.genesisValidatorsRoot.length = 32 ∧
    (db.proposedPublicKeys ≠ [] ∨ db.attestedPublicKeys = []) ∧
    db.attestedPublicKeys.all (portableVotes db) = true ∧
    db.proposedPublicKeys.all (portableProposals db) = true

theorem Portable.votes {db : DB} (h : Portable db) (k : PubKey) :
    skipsFirst (history db k) = false ∧ (history db k).Pairwise Compatible ∧
      ∀ p ∈ db.targetVotes k, (p.2, p.1) ∈ db.sourceVotes k := by
  cases hk : db.pubKeys[k]? with
  | none =>
    rw [history_of_none hk]
    refine ⟨rfl, .nil, fun p hp => ?_⟩
    have hempty : db.targetIndex k = ∅ := by rw [targetIndex, hk]; rfl
    rw [targetVotes, hempty, Lists.empty.mem_entries] at hp
    cases hp
  | some b =>
    have hall := List.all_eq_true.mp h.2.2.1 k (mem_keys_iff.mpr (by simp [hk]))
    simp only [portableVotes, Bool.and_eq_true, Bool.not_eq_true', decide_eq_true_eq,
      List.all_eq_true, List.contains_iff_mem] at hall
    exact ⟨hall.1.1, hall.1.2, hall.2⟩

theorem Portable.proposals {db : DB} (h : Portable db) {k : PubKey}
    (hnumbered : Numbered (db.proposals k)) {a b c : Slot} {ra rb rc : Root}
    (ha : (db.proposals k)[ofUint64 a]? = some ra) (hb : (db.proposals k)[ofUint64 b]? = some rb)
    (hc : (db.proposals k)[ofUint64 c]? = some rc) (hprune : prunable a b = true) : b ≤ c := by
  have hslot : ∀ {s : Slot} {r : Root}, (db.proposals k)[ofUint64 s]? = some r →
      s ∈ (db.proposalHistoryForPubKey k).map (·.slot) := fun {s r} hs =>
    List.mem_map.mpr ⟨⟨s, r⟩, (mem_proposalHistoryForPubKey hnumbered).mpr hs, rfl⟩
  have hkey : k ∈ db.proposedPublicKeys := by
    refine mem_keys_iff.mpr fun hnone => ?_
    rw [DB.proposals, hnone] at ha
    simp at ha
  have hall := List.all_eq_true.mp h.2.2.2 k hkey
  simp only [portableProposals, List.all_eq_true, Bool.or_eq_true, Bool.not_eq_true',
    decide_eq_true_eq] at hall
  rcases hall a (hslot ha) b (hslot hb) with hnot | hle
  · rw [hprune] at hnot
    cases hnot
  · exact hle c (hslot hc)

/-! ### Refusals -/

section Votes

variable {db db' : DB} {att : AttestationRecord} {recs : List AttestationRecord}

theorem exists_record (hmem : ∀ r, r ∈ ofKey att.pubKey recs ↔ r ∈ history db att.pubKey)
    {p : Epoch × Epoch} (hp : p ∈ db.sourceVotes att.pubKey) :
    ∃ r ∈ ofKey att.pubKey recs, r.source = p.1 ∧ r.target = p.2 :=
  ⟨⟨att.pubKey, p.1, p.2, (db.rootsIndex att.pubKey)[ofUint64 p.2]?.getD zeroHash⟩,
    (hmem _).mpr (mem_history.mpr ⟨hp, rfl, rfl⟩), rfl, rfl⟩

theorem rootFor_restored (hrec : Recorded db' recs)
    (hmem : ∀ r, r ∈ ofKey att.pubKey recs ↔ r ∈ history db att.pubKey) :
    db'.rootFor att = none ∨ db'.rootFor att = some ((db.rootFor att).getD zeroHash) := by
  rw [rootFor, hrec.roots]
  cases hfind : (ofKey att.pubKey recs).reverse.find? (·.target = att.target) with
  | none => exact .inl rfl
  | some last =>
    have hlast := mem_reverse.mp (mem_of_find?_eq_some hfind)
    have htarget : last.target = att.target := by simpa using find?_some hfind
    obtain ⟨-, -, hroot⟩ := mem_history.mp ((hmem last).mp hlast)
    right
    rw [map_some, hroot, htarget]
    rfl

theorem exists_lowest {o o' : Option Epoch} {f : AttestationRecord → Epoch} {lowest : Epoch}
    (ho : o = some lowest) (hlowest : IsLowest o' ((ofKey att.pubKey recs).map f))
    (hrecs : ∃ r, r ∈ ofKey att.pubKey recs)
    (hle : ∀ r ∈ ofKey att.pubKey recs, ∃ lowest, o = some lowest ∧ lowest ≤ f r) :
    ∃ lowest', o' = some lowest' ∧ lowest ≤ lowest' := by
  obtain ⟨r, hr⟩ := hrecs
  obtain ⟨lowest', ho', hmem, -⟩ := hlowest.exists_le (List.mem_map_of_mem hr)
  obtain ⟨r', hr', rfl⟩ := List.mem_map.mp hmem
  obtain ⟨lowest₁, ho₁, hle₁⟩ := hle r' hr'
  obtain rfl : lowest = lowest₁ := some.inj (ho.symm.trans ho₁)
  exact ⟨_, ho', hle₁⟩

theorem Sane.exists_vote (h : Sane db) {k : PubKey} (hk : ∃ b, db.pubKeys[k]? = some b) :
    ∃ p, p ∈ db.sourceVotes k := by
  obtain ⟨b, hb⟩ := hk
  exact exists_mem_of_ne_nil _ (h.voted k b hb)

theorem conflict_restored (hdb : Sane db) (hrec : Recorded db' recs)
    (hmem : ∀ r, r ∈ ofKey att.pubKey recs ↔ r ∈ history db att.pubKey)
    (hcomplete : ∀ p ∈ db.targetVotes att.pubKey, (p.2, p.1) ∈ db.sourceVotes att.pubKey)
    (h : Conflict (db.sourceVotes att.pubKey) (db.targetVotes att.pubKey) (db.rootFor att) att) :
    Conflict (db'.sourceVotes att.pubKey) (db'.targetVotes att.pubKey) (db'.rootFor att) att := by
  rcases h with ⟨e, he, hd⟩ | ⟨s, t, hst, hs⟩ | ⟨t, s, hts, hs⟩
  · -- the target of a root is the target of a vote, which was exported with the root
    have hkey : ofUint64 att.target ∈ db.targetIndex att.pubKey := by
      rw [← hdb.keys, ← isSome_getElem?_iff_mem]
      exact isSome_iff_exists.mpr ⟨e, he⟩
    obtain ⟨s, hs⟩ := (hdb.target att.pubKey).mem_iff.mp hkey
    obtain ⟨r, hr, -, htarget⟩ := exists_record hmem (hcomplete _ hs)
    obtain ⟨last, -, -, hget⟩ := hrec.exists_root hr
    have hsome : db'.rootFor att ≠ none := by
      rw [rootFor, ← show r.target = att.target from htarget, hget]
      exact some_ne_none _
    have hroot := (rootFor_restored hrec hmem).resolve_left hsome
    rw [he, getD_some] at hroot
    exact .doubleVote e hroot hd
  · obtain ⟨r, hr, rfl, rfl⟩ := exists_record hmem hst
    refine .surrounding r.source r.target ?_ hs
    exact (hrec.source att.pubKey).mem_entries.mpr (List.mem_map.mpr ⟨r, hr, rfl⟩)
  · obtain ⟨r, hr, rfl, rfl⟩ := exists_record hmem (hcomplete _ hts)
    refine .surrounded r.target r.source ?_ hs
    exact (hrec.target att.pubKey).mem_entries.mpr (List.mem_map.mpr ⟨r, hr, rfl⟩)

theorem RestoredVotes.refusal (hdb : Sane db) (h : RestoredVotes db db' att.pubKey)
    (hcomplete : ∀ p ∈ db.targetVotes att.pubKey, (p.2, p.1) ∈ db.sourceVotes att.pubKey)
    (hrefused : db.refusal false att ≠ none) : db'.refusal false att ≠ none := by
  obtain ⟨recs, hrec, hmem, hsource, htarget⟩ := h.recorded
  have hrecs : (∃ b, db.pubKeys[att.pubKey]? = some b) → ∃ r, r ∈ ofKey att.pubKey recs := by
    intro hk
    obtain ⟨p, hp⟩ := hdb.exists_vote hk
    obtain ⟨r, hr, -⟩ := exists_record hmem hp
    exact ⟨r, hr⟩
  have hvote : ∀ r ∈ ofKey att.pubKey recs, (r.source, r.target) ∈ db.sourceVotes att.pubKey :=
    fun r hr => (mem_history.mp ((hmem r).mp hr)).1
  rw [hdb.refusal_ne_none_iff] at hrefused
  rw [h.sane.refusal_ne_none_iff]
  rcases hrefused with ⟨lowest, hlowest, hlt⟩ | ⟨lowest, hlowest, hle, hdiffer⟩ | hconflict
  · obtain ⟨lowest', hlowest', hle'⟩ := exists_lowest hlowest hsource
      (hrecs (hdb.sourceKnown _ _ hlowest)) fun r hr => hdb.lowestSource _ _ (hvote r hr)
    refine .inl ⟨lowest', hlowest', ?_⟩
    simp only [lt_def, BitVec.le_def] at hlt hle' ⊢
    omega
  · obtain ⟨lowest', hlowest', hle'⟩ := exists_lowest hlowest htarget
      (hrecs (hdb.targetKnown _ _ hlowest)) fun r hr => hdb.lowestTarget _ _ (hvote r hr)
    refine .inr (.inl ⟨lowest', hlowest', BitVec.le_trans hle hle', ?_⟩)
    rcases rootFor_restored hrec hmem with hnone | hsome
    · rw [hnone]
      simp [signingRootsDiffer]
    · rw [hsome]
      exact hdiffer
  · exact .inr (.inr (conflict_restored hdb hrec hmem hcomplete hconflict))

end Votes

theorem RestoredProposals.refusal {db db' : DB}
    (hdb : Proposed db signed) (h : RestoredProposals db db') (hportable : Portable db)
    {b : SignedBlock} (hrefused : db.proposalRefusal b.pubKey b.slot b.signingRoot ≠ none) :
    db'.proposalRefusal b.pubKey b.slot b.signingRoot ≠ none := by
  obtain ⟨signed', hdb', hmem⟩ := h
  -- the new watermark is the slot of a proposal of the old database
  have hwatermark : ∀ slot root, (db.proposals b.pubKey)[ofUint64 slot]? = some root →
      ∃ lowest root', db'.lowestSignedProposal b.pubKey = some lowest ∧
        (db.proposals b.pubKey)[ofUint64 lowest]? = some root' := by
    intro slot root hroot
    obtain ⟨lowest, hlowest, hslot, -⟩ := (hdb'.lowest b.pubKey).exists_le
      (mem_slotsOf.mpr ⟨_, (hmem _ _ _).mpr hroot, rfl, rfl⟩)
    obtain ⟨⟨k, slot', root'⟩, hb, rfl, rfl⟩ := mem_slotsOf.mp hslot
    exact ⟨slot', root', hlowest, (hmem _ _ _).mp hb⟩
  intro hpass
  refine hrefused (proposalRefusal_eq_none_iff.mpr ?_)
  rcases proposalRefusal_eq_none_iff.mp hpass with ⟨hget, hne⟩ | ⟨hnone, habove⟩
  · exact .inl ⟨(hmem _ _ _).mp (hdb'.stored _ _ _ hget), hne⟩
  · right
    constructor
    · by_contra hsome
      obtain ⟨prev, hprev⟩ := ne_none_iff_exists'.mp hsome
      by_cases hrecent : Recent signed' b.pubKey b.slot
      · obtain ⟨root, hroot⟩ := hdb'.kept _ ((hmem _ _ _).mpr hprev) hrecent
        rw [hnone] at hroot
        cases hroot
      · -- a proposal that is pruned by the import is the first one
        obtain ⟨a, ha, hk, hprune⟩ : ∃ a ∈ signed', a.pubKey = b.pubKey ∧
            prunable a.slot b.slot = true := by
          simpa [Recent] using hrecent
        obtain ⟨lowest, root', hlowest, hroot'⟩ := hwatermark _ _ hprev
        have ha' := (hmem a.pubKey a.slot a.signingRoot).mp ha
        rw [hk] at ha'
        have hle := hportable.proposals (hdb.numbered b.pubKey) ha' hprev hroot' hprune
        exact absurd (habove lowest hlowest) (BitVec.not_lt.mpr hle)
    · intro lowest hlowest
      have hlow := hdb.lowest b.pubKey
      rw [hlowest] at hlow
      obtain ⟨b₀, hb₀, hk₀, -⟩ := mem_slotsOf.mp hlow.1
      obtain ⟨slot, root, hroot⟩ := hdb.alive b₀ hb₀
      rw [hk₀] at hroot
      obtain ⟨lowest', root', hlowest', hroot'⟩ := hwatermark _ _ hroot
      have hle := hlow.2 lowest' (mem_slotsOf.mpr ⟨_, hdb.stored _ _ _ hroot', rfl, rfl⟩)
      have hlt := habove lowest' hlowest'
      simp only [lt_def, BitVec.le_def] at hle hlt ⊢
      omega

/-! ### The round trip -/

theorem validateMetadata_export {gvr : Bytes} (hgvr : gvr.length = 32)
    (data : Option (List (Option ProtectionData))) :
    ∃ root, validateMetadata ⟨interchangeFormatVersion, hexString gvr, data⟩ .empty =
      .ok () (.opened (rootBytes root)) := by
  refine ⟨BitVec.ofNat 256 (value gvr), ?_⟩
  simp only [validateMetadata, rootFromHex, fixedFromHex_hexString hgvr, Except.map]
  rfl

theorem restored_saveHistories {db : DB} (hnumbered : ∀ k, Numbered (db.proposals k)) (o : Orders)
    {histories : Histories}
    (hproposals : ∀ k, histories.proposalHistoryByPubKey[k]? =
      listed (db.proposalHistoryForPubKey k))
    (hrecords : ∀ k, histories.attestingHistoryByPubKey[k]? = listed (history db k))
    (hslashable : histories.slashablePublicKeys = []) (gvr : Bytes) :
    (saveHistories o histories (.opened gvr)).slashablePublicKeys = ∅ ∧
      (∀ k, RestoredVotes db (saveHistories o histories (.opened gvr)) k) ∧
      RestoredProposals db (saveHistories o histories (.opened gvr)) := by
  have hblacklist : saveEIPImportBlacklistedPublicKeys histories.slashablePublicKeys
      (.opened gvr) = .opened gvr := by
    rw [hslashable]
    rfl
  rw [saveHistories, hblacklist, saveProposals_eq, saveAttestations_eq]
  generalize hblocks : savedBlocks o.saveProposals histories.proposalHistoryByPubKey = blocks
  generalize hrecs : savedRecords o.saveAttestations histories.attestingHistoryByPubKey = recs
  obtain ⟨hkeys, hsource, htarget, hlist⟩ := saveBlocks_frame (.opened gvr) blocks
  obtain ⟨hhistoric, hlowest, hlist'⟩ :=
    saveAttestationRecords_frame (saveBlocks (.opened gvr) blocks) recs
  have hsane : Sane (saveBlocks (.opened gvr) blocks) :=
    (sane_opened gvr).congr hkeys hsource htarget
  refine ⟨hlist'.trans hlist, fun k => ⟨hsane.saveAll recs, recs, ?_, fun r => ?_, ?_⟩, ?_⟩
  · exact (recorded_empty.congr hkeys).saveAll recs
  · rw [← hrecs, mem_savedRecords (fun k r hr => ?_), hrecords, getD_listed]
    rw [hrecords, getD_listed] at hr
    exact (mem_history.mp hr).2.1
  · have hnone : ∀ bucket : PubKeyMap Bytes, bucket = ∅ → storedNumber bucket k = none := by
      rintro _ rfl
      simp [storedNumber]
    have hlow : IsLowest ((saveBlocks (.opened gvr) blocks).lowestSignedSourceEpoch k) [] := by
      rw [lowestSignedSourceEpoch, hnone _ hsource]
      rfl
    have hlow' : IsLowest ((saveBlocks (.opened gvr) blocks).lowestSignedTargetEpoch k) [] := by
      rw [lowestSignedTargetEpoch, hnone _ htarget]
      rfl
    exact hsane.isLowest_saveAll hlow hlow' recs
  · have hnew : Proposed (.opened gvr) [] := proposed_empty.congr rfl rfl
    refine ⟨blocks, (hnew.saveBlocks blocks).congr hhistoric hlowest, fun k slot root => ?_⟩
    rw [← hblocks, mem_savedBlocks, hproposals, getD_listed,
      mem_proposalHistoryForPubKey (hnumbered k)]

theorem getElem?_pubKeys_opened (gvr : Bytes) (k : PubKey) : (opened gvr).pubKeys[k]? = none := by
  simp [opened, DB.empty]

theorem import_export {db : DB} (hsane : Sane db) (hnumbered : ∀ k, Numbered (db.proposals k))
    (hportable : Portable db) (o : Orders) :
    ∃ file db', exportStandardProtectionJSON db = .ok file ∧
      importStandardProtectionJSON o file .empty = .ok () db' ∧
      db'.slashablePublicKeys = ∅ ∧ (∀ k, RestoredVotes db db' k) ∧ RestoredProposals db db' := by
  have hexport := exportStandardProtectionJSON_eq hsane hportable.1 hportable.2.1
    fun k => (hportable.votes k).1
  obtain ⟨root, hmeta⟩ := validateMetadata_export hportable.1
    (some ((sortedItems (exported db)).map fun p => some p.2))
  obtain ⟨histories, hread, hproposals, hrecords, hslashable⟩ := readHistories_export hnumbered
    (fun k => (hportable.votes k).2.1) o (getElem?_pubKeys_opened (rootBytes root))
  refine ⟨_, _, hexport, ?_, restored_saveHistories hnumbered o hproposals hrecords hslashable
    (rootBytes root)⟩
  rw [import_of_validateMetadata o rfl hmeta, hread]

theorem exists_proposed_after (gvr : Bytes) (events : List Event) :
    ∃ signed, Proposed (.after gvr events) signed := by
  have hnew : ∃ signed, Proposed (.opened gvr) signed := ⟨[], proposed_empty.congr rfl rfl⟩
  refine Run.invariant_of_step (I := fun db : DB => ∃ signed, Proposed db signed) ?_ hnew events
  rintro db e ⟨signed, h⟩
  cases e with
  | attest env att =>
    rw [handle]
    rcases slashableAttestationCheck_cases env att db with ⟨-, hok | herr⟩ | ⟨e, herr⟩
    · rw [hok]
      exact ⟨signed, h.congr rfl rfl⟩
    · rw [herr]
      exact ⟨signed, h.congr rfl rfl⟩
    · rw [herr]
      exact ⟨signed, h⟩
  | propose env b =>
    rw [handle]
    rcases Proposer.step_cases ⟨db, []⟩ ⟨env, b⟩ with ⟨-, heq⟩ | heq
    · rw [heq]
      exact ⟨signed ++ [b], h.save b⟩
    · rw [heq]
      exact ⟨signed, h⟩
  | pruneAttestations => exact ⟨signed, h.congr rfl rfl⟩

/-- After any run that leaves a portable database, an export of it can be imported
into a new database, which blacklists no key and refuses every attestation and every
block that the old one refuses. -/
theorem round_trip_keeps_protection (gvr : Bytes) (events : List Event) (o : Orders)
    (hportable : Portable (.after gvr events)) :
    ∃ file db', exportStandardProtectionJSON (.after gvr events) = .ok file ∧
      importStandardProtectionJSON o file .empty = .ok () db' ∧
      db'.slashablePublicKeys = ∅ ∧
      (∀ env att, Refuses env (.after gvr events) att → Refuses env db' att) ∧
      ∀ env (b : SignedBlock),
        preBlockSignValidations env (.after gvr events) b.pubKey b.slot b.signingRoot ≠ none →
          preBlockSignValidations env db' b.pubKey b.slot b.signingRoot ≠ none := by
  have hsane := sane_after gvr events
  obtain ⟨signed, hproposed⟩ := exists_proposed_after gvr events
  obtain ⟨file, db', hexport, himport, hlist, hvotes, hproposals⟩ :=
    import_export hsane hproposed.numbered hportable o
  refine ⟨file, db', hexport, himport, hlist, fun env att => ?_, fun env b => ?_⟩
  · rw [refuses_iff, refuses_iff]
    exact Or.imp_right ((hvotes att.pubKey).refusal hsane (hportable.votes att.pubKey).2.2)
  · rw [preBlockSignValidations, preBlockSignValidations, ne_eq, ne_eq, or_eq_none_iff,
      or_eq_none_iff, not_and_or, not_and_or]
    exact Or.imp_left (hproposals.refusal hproposed hportable)

/-- Votes and proposals, of which the first vote is pruned. -/
def portableRun : List Event :=
  [.attest .calm ⟨7, 0, 1, 5⟩, .attest .calm ⟨7, 600, 601, 6⟩, .pruneAttestations,
    .propose ⟨none, false⟩ ⟨7, 10, 1⟩, .propose ⟨none, false⟩ ⟨8, 20, 2⟩]

theorem round_trip_keeps_protection_of_portableRun :
    ∃ file db',
      exportStandardProtectionJSON (.after (List.replicate 32 17) portableRun) = .ok file ∧
      importStandardProtectionJSON .plain file .empty = .ok () db' ∧
      Refuses .calm db' ⟨7, 599, 602, 9⟩ := by
  obtain ⟨file, db', hexport, himport, -, hrefuses, -⟩ :=
    round_trip_keeps_protection (List.replicate 32 17) portableRun .plain (by
      rw [Portable]
      decide +kernel)
  exact ⟨file, db', hexport, himport, hrefuses _ _ (refuses_iff.mpr (.inr (by decide +kernel)))⟩

/-- Export and import into a new database. -/
def roundTrip (o : Orders) (db : DB) : Option DB :=
  match exportStandardProtectionJSON db with
  | .error _ => none
  | .ok file =>
    match importStandardProtectionJSON o file .empty with
    | .error _ _ => none
    | .ok () db' => some db'

/-- After the vote with source 0 was pruned, two more with source 0 are accepted, the
one with the later target first. -/
def skippedRun : List Event :=
  [.propose ⟨none, false⟩ ⟨7, 10, 1⟩, .attest .calm ⟨7, 0, 1, 5⟩, .attest .calm ⟨7, 600, 601, 6⟩,
    .pruneAttestations, .attest .calm ⟨7, 0, 5, 8⟩, .attest .calm ⟨7, 0, 3, 9⟩]

/-- The vote for target 5 is skipped, and the new database accepts another one. If no key has
proposed, the export fails. -/
theorem skipped_vote_is_lost :
    ∃ db', roundTrip .plain (.after (List.replicate 32 17) skippedRun) = some db' ∧
      Refuses .calm (.after (List.replicate 32 17) skippedRun) ⟨7, 0, 5, 10⟩ ∧
      ¬ Refuses .calm db' ⟨7, 0, 5, 10⟩ ∧
      exportStandardProtectionJSON (.after (List.replicate 32 17) [.attest .calm ⟨7, 0, 1, 5⟩]) =
        .error .progress := by
  have hpass : (roundTrip .plain (.after (List.replicate 32 17) skippedRun)).map
      (fun db' => db'.refusal false ⟨7, 0, 5, 10⟩) = some none := by decide +kernel
  obtain ⟨db', hdb', hnone⟩ := map_eq_some_iff.mp hpass
  refine ⟨db', hdb', refuses_iff.mpr (.inr (by decide +kernel)), ?_, by decide +kernel⟩
  rw [refuses_iff, hnone]
  simp [ClientEnv.Hindered, ClientEnv.calm]

end Vanguard.Validator
