import Vanguard.Validator.RoundTrip

/-!
Conflicts that an import of slashing protection data meets.

Within the file, the public keys with two conflicting entries are blacklisted. The filter works on
roots in which the zero root stands for a root that the file leaves out, and it takes two blocks
without a root for the same block. A conflict with the database comes with an error, and then
nothing is imported for any public key.
-/

namespace Vanguard.Validator

open PackedIndex Interchange Fallible List Std.ExtTreeMap Bytes
open Bytes (ofUint64 toUint64)

namespace Interchange

/-! ### The entries of a public key -/

section Entries

variable {α : Type} {entries : ProtectionData → List (Option α)}
  {data : List (Option ProtectionData)}

/-- The entries of a public key over all items that have it, in the order of the file. -/
def entriesOf (entries : ProtectionData → List (Option α)) (k : PubKey) :
    List (Option ProtectionData) → List α
  | [] => []
  | none :: data => entriesOf entries k data
  | some item :: data =>
    if (pubKeyFromHex item.pubkey).toOption = some k then
      (entries item).reduceOption ++ entriesOf entries k data
    else entriesOf entries k data

def Keyed (data : List (Option ProtectionData)) : Prop :=
  ∀ item ∈ data, ∃ validatorData k, item = some validatorData ∧
    pubKeyFromHex validatorData.pubkey = .ok k

theorem appendEntries_reduceOption (m : PubKeyMap (List α)) (k : PubKey)
    (entries : List (Option α)) :
    appendEntries m k entries = appendEntries m k (entries.reduceOption.map some) := by
  induction entries generalizing m with
  | nil => rfl
  | cons entry entries ih =>
    cases entry with
    | none => exact ih m
    | some x => exact ih (m.insert k (m[k]?.getD [] ++ [x]))

theorem getElem?_appendEntries_listed {m : PubKeyMap (List α)} {xs : PubKey → List α}
    (hm : ∀ k, m[k]? = listed (xs k)) (k a : PubKey) (entries : List (Option α)) :
    (appendEntries m k entries)[a]? =
      listed (if a = k then xs a ++ entries.reduceOption else xs a) := by
  rw [appendEntries_reduceOption, getElem?_appendEntries, hm, getD_listed]
  split
  · rw [listed, listed]
    split
    next hnil => rw [(append_eq_nil_iff.mp hnil).1, if_pos rfl, Option.none_or]
    next => rw [Option.some_or]
  · rfl

theorem foldlM_parseItem {err : Text → ParseErr → ImportErr} (hdata : Keyed data)
    {m : PubKeyMap (List α)} {xs : PubKey → List α} (hm : ∀ k, m[k]? = listed (xs k)) :
    ∃ m', data.foldlM (parseItem err entries) m = .ok m' ∧
      ∀ k, m'[k]? = listed (xs k ++ entriesOf entries k data) := by
  induction data generalizing m xs with
  | nil =>
    refine ⟨m, rfl, fun k => ?_⟩
    rw [entriesOf, append_nil, hm]
  | cons item data ih =>
    obtain ⟨⟨validatorData, key, rfl, hkey⟩, hkeyed⟩ := forall_mem_cons.mp hdata
    obtain ⟨m', hrest, hm'⟩ :=
      ih hkeyed fun a => getElem?_appendEntries_listed hm key a (entries validatorData)
    refine ⟨m', ?_, fun k => ?_⟩
    · rw [foldlM_cons, parseItem, hkey]
      exact hrest
    · rw [hm', entriesOf, hkey, Except.toOption]
      rcases eq_or_ne k key with rfl | hne
      · rw [if_pos rfl, if_pos rfl, append_assoc]
      · rw [if_neg hne, if_neg fun heq => hne (Option.some.inj heq).symm]

theorem parseUnique_ok {err : Text → ParseErr → ImportErr} (hdata : Keyed data) :
    ∃ m, parseUnique err entries data = .ok m ∧ ∀ k, m[k]? = listed (entriesOf entries k data) := by
  have hempty : ∀ k : PubKey, (∅ : PubKeyMap (List α))[k]? = listed [] := fun k => by
    simp [listed]
  exact foldlM_parseItem hdata hempty

theorem exists_item_of_mem_entriesOf {k : PubKey} {x : α} (hx : x ∈ entriesOf entries k data) :
    ∃ item, some item ∈ data ∧ some x ∈ entries item := by
  induction data with
  | nil => exact (not_mem_nil hx).elim
  | cons entry data ih =>
    have hrest : x ∈ entriesOf entries k data →
        ∃ item, some item ∈ entry :: data ∧ some x ∈ entries item := by
      intro hx
      obtain ⟨item, hitem, hmem⟩ := ih hx
      exact ⟨item, mem_cons_of_mem _ hitem, hmem⟩
    cases entry with
    | none => exact hrest hx
    | some item =>
      rw [entriesOf] at hx
      split at hx
      · rcases mem_append.mp hx with hx | hx
        · exact ⟨item, mem_cons_self, reduceOption_mem_iff.mp hx⟩
        · exact hrest hx
      · exact hrest hx

end Entries

/-! ### What the file says -/

structure FileBlock where
  slot : Slot
  root : Option Root
  deriving DecidableEq, Repr

/-- An attestation of the file; the root may be left out. -/
structure FileVote where
  source : Epoch
  target : Epoch
  root : Option Root
  deriving DecidableEq, Repr

def fileRoot (str : Text) : Except ParseErr (Option Root) :=
  if str = [] then .ok none else (rootFromHex str).map some

def fileBlock (b : SignedBlock) : Except ParseErr FileBlock := do
  return ⟨← numberFromString b.slot, ← fileRoot b.signingRoot⟩

def fileVote (att : SignedAttestation) : Except ParseErr FileVote := do
  let target ← numberFromString att.targetEpoch
  return ⟨← numberFromString att.sourceEpoch, target, ← fileRoot att.signingRoot⟩

def blocksIn (k : PubKey) (data : List (Option ProtectionData)) : List FileBlock :=
  (entriesOf ProtectionData.signedBlocks k data).filterMap fun b => (fileBlock b).toOption

def votesIn (k : PubKey) (data : List (Option ProtectionData)) : List FileVote :=
  (entriesOf ProtectionData.signedAttestations k data).filterMap fun att => (fileVote att).toOption

/-- Every item has a public key, and every entry can be read. -/
structure WellFormed (data : List (Option ProtectionData)) : Prop where
  keyed : Keyed data
  blocks : ∀ item, some item ∈ data → ∀ b, some b ∈ item.signedBlocks → ∃ x, fileBlock b = .ok x
  votes : ∀ item, some item ∈ data → ∀ att, some att ∈ item.signedAttestations →
    ∃ x, fileVote att = .ok x

def FileBlock.proposal (b : FileBlock) : Proposal := ⟨b.slot, b.root.getD zeroHash⟩

def FileVote.record (k : PubKey) (v : FileVote) : AttestationRecord :=
  ⟨k, v.source, v.target, v.root.getD zeroHash⟩

theorem optionalRoot_of_fileRoot {str : Text} {root : Option Root} (h : fileRoot str = .ok root) :
    optionalRoot str = .ok (root.getD zeroHash) := by
  rw [fileRoot] at h
  rw [optionalRoot]
  split at h
  next hnil =>
    obtain rfl := Except.ok.inj h
    exact if_pos hnil
  next hne =>
    rw [if_neg hne]
    cases hroot : rootFromHex str with
    | error e =>
      rw [hroot] at h
      cases h
    | ok r =>
      rw [hroot] at h
      obtain rfl := Except.ok.inj h
      rfl

theorem transformSignedBlock_of_fileBlock {b : SignedBlock} {x : FileBlock}
    (h : fileBlock b = .ok x) : transformSignedBlock b = .ok x.proposal := by
  obtain ⟨slot, hslot, h⟩ := bind_eq_ok.mp h
  obtain ⟨root, hroot, h⟩ := bind_eq_ok.mp h
  obtain rfl := Except.ok.inj h
  exact bind_eq_ok.mpr ⟨slot, hslot, bind_eq_ok.mpr ⟨_, optionalRoot_of_fileRoot hroot, rfl⟩⟩

theorem transformSignedAttestation_of_fileVote {att : SignedAttestation} {x : FileVote}
    (h : fileVote att = .ok x) (k : PubKey) :
    transformSignedAttestation k att = .ok (x.record k) := by
  obtain ⟨target, htarget, h⟩ := bind_eq_ok.mp h
  obtain ⟨source, hsource, h⟩ := bind_eq_ok.mp h
  obtain ⟨root, hroot, h⟩ := bind_eq_ok.mp h
  obtain rfl := Except.ok.inj h
  exact bind_eq_ok.mpr ⟨target, htarget, bind_eq_ok.mpr ⟨source, hsource,
    bind_eq_ok.mpr ⟨_, optionalRoot_of_fileRoot hroot, rfl⟩⟩⟩

theorem mapM_of_readable {α β γ : Type} {read : α → Except ParseErr β} {f : α → Except ParseErr γ}
    {g : β → γ} (hf : ∀ a x, read a = .ok x → f a = .ok (g x)) {l : List α}
    (hl : ∀ a ∈ l, ∃ x, read a = .ok x) :
    l.mapM f = .ok ((l.filterMap fun a => (read a).toOption).map g) := by
  induction l with
  | nil => rfl
  | cons a l ih =>
    obtain ⟨⟨x, hx⟩, hl⟩ := forall_mem_cons.mp hl
    rw [mapM_cons, hf a x hx, ih hl, filterMap_cons, hx]
    rfl

/-! ### Reading a well-formed file -/

/-- The histories before the filters. -/
structure Read (data : List (Option ProtectionData)) (proposals : PubKeyMap (List Proposal))
    (records : PubKeyMap (List AttestationRecord)) : Prop where
  proposals : ∀ k, proposals[k]? = listed ((blocksIn k data).map FileBlock.proposal)
  records : ∀ k, records[k]? = listed ((votesIn k data).map (FileVote.record k))

theorem readHistories_of_wellFormed (o : Orders) {data : List (Option ProtectionData)}
    (h : WellFormed data) :
    ∃ proposals records, Read data proposals records ∧ ∀ db, readHistories o data db =
      ((filterSlashablePubKeysFromAttestations o.slashableVotes o.slashableInDB db
        records).mapError .slashable).map (filtered o proposals records) := by
  have hreadBlocks : ∀ k, ∀ b ∈ entriesOf ProtectionData.signedBlocks k data,
      ∃ x, fileBlock b = .ok x := by
    intro k b hb
    obtain ⟨item, hitem, hmem⟩ := exists_item_of_mem_entriesOf hb
    exact h.blocks item hitem b hmem
  have hreadVotes : ∀ k, ∀ att ∈ entriesOf ProtectionData.signedAttestations k data,
      ∃ x, fileVote att = .ok x := by
    intro k att hatt
    obtain ⟨item, hitem, hmem⟩ := exists_item_of_mem_entriesOf hatt
    exact h.votes item hitem att hmem
  obtain ⟨proposals, records, hproposals, hrecords, hread⟩ := readHistories_of_parsed o
    (parseUnique_ok h.keyed) (parseUnique_ok h.keyed)
    (fun k => mapM_of_readable (fun _ _ => transformSignedBlock_of_fileBlock) (hreadBlocks k))
    fun k => mapM_of_readable (fun _ _ hx => transformSignedAttestation_of_fileVote hx k)
      (hreadVotes k)
  exact ⟨proposals, records, ⟨hproposals, hrecords⟩, hread⟩

/-- The file is of the supported version and for the chain of the database. -/
structure ForChain (file : File) (db : DB) (gvr : Root) : Prop where
  version : file.interchangeFormatVersion = interchangeFormatVersion
  root : rootFromHex file.genesisValidatorsRoot = .ok gvr
  chain : db.genesisValidatorsRoot = [] ∨ db.genesisValidatorsRoot = rootBytes gvr

theorem validateMetadata_of_forChain {file : File} {db : DB} {gvr : Root}
    (h : ForChain file db gvr) :
    validateMetadata file db = .ok () { db with genesisValidatorsRoot := rootBytes gvr } := by
  rw [validateMetadata, if_neg (not_not.mpr h.version), h.root]
  dsimp only
  rcases h.chain with hnil | heq
  · rw [if_pos hnil]
  · rw [if_neg (heq ▸ rootBytes_ne_nil gvr), if_neg (not_not.mpr heq), ← heq]

/-! ### The filters -/

section Pairs

variable {α β : Type} {R S : α → α → Prop} {l : List α}

/-- An earlier and a later entry of a list are related. -/
def Pairs (R : α → α → Prop) (l : List α) : Prop := ∃ a b, [a, b].Sublist l ∧ R a b

theorem not_pairwise_iff (h : ∀ a b, R a b ↔ ¬ S a b) : ¬ l.Pairwise S ↔ Pairs R l := by
  rw [pairwise_iff_forall_sublist, Pairs]
  simp only [not_forall, h, exists_prop]

theorem pairs_map {R : β → β → Prop} {f : α → β} :
    Pairs R (l.map f) ↔ Pairs (fun a b => R (f a) (f b)) l := by
  rw [← not_pairwise_iff (S := fun a b => ¬ R a b) fun _ _ => not_not.symm, pairwise_map]
  exact not_pairwise_iff fun _ _ => not_not.symm

theorem pairs_or : Pairs (fun a b => R a b ∨ S a b) l ↔ Pairs R l ∨ Pairs S l := by
  constructor
  · rintro ⟨a, b, hsub, h | h⟩
    · exact .inl ⟨a, b, hsub, h⟩
    · exact .inr ⟨a, b, hsub, h⟩
  · rintro (⟨a, b, hsub, h⟩ | ⟨a, b, hsub, h⟩)
    · exact ⟨a, b, hsub, .inl h⟩
    · exact ⟨a, b, hsub, .inr h⟩

theorem pairs_congr (h : ∀ a b, R a b ↔ S a b) : Pairs R l ↔ Pairs S l := by
  simp only [Pairs, h]

end Pairs

/-- Only the last root of a slot is remembered, but a proposal that differs from it ends the
loop. -/
theorem hasDoubleProposal_eq_false_iff {l : List Proposal} {seen : Std.ExtTreeMap Slot Root} :
    hasDoubleProposal seen l = false ↔
      (∀ p ∈ l, ∀ root, seen[p.slot]? = some root → root = p.signingRoot) ∧
      l.Pairwise fun a b => a.slot = b.slot → a.signingRoot = b.signingRoot := by
  induction l generalizing seen with
  | nil => simp [hasDoubleProposal]
  | cons p l ih =>
    have hany : (seen[p.slot]?.any fun root => decide (root ≠ p.signingRoot)) = true ↔
        ¬ ∀ root, seen[p.slot]? = some root → root = p.signingRoot := by
      cases seen[p.slot]? <;> simp
    rw [hasDoubleProposal, forall_mem_cons, pairwise_cons]
    split
    next hdiffer => exact iff_of_false (by simp) fun h => hany.mp hdiffer h.1.1
    next hsame =>
      have hp := not_not.mp (mt hany.mpr hsame)
      rw [ih]
      constructor
      · rintro ⟨hl, hpairs⟩
        have heq : ∀ q ∈ l, p.slot = q.slot → p.signingRoot = q.signingRoot := fun q hq hslot =>
            hl q hq p.signingRoot (by rw [hslot, getElem?_insert_self])
        refine ⟨⟨hp, fun q hq root hroot => ?_⟩, heq, hpairs⟩
        rcases eq_or_ne p.slot q.slot with hslot | hslot
        · exact (hp root (hslot ▸ hroot)).trans (heq q hq hslot)
        · refine hl q hq root ?_
          rw [TreeMap.getElem?_insert, if_neg hslot.symm, hroot]
      · rintro ⟨⟨-, hl⟩, heq, hpairs⟩
        refine ⟨fun q hq root hroot => ?_, hpairs⟩
        rw [TreeMap.getElem?_insert] at hroot
        split at hroot
        next hslot =>
          obtain rfl := Option.some.inj hroot
          exact heq q hq hslot.symm
        next => exact hl q hq root hroot

theorem signingRootsDiffer_eq_false {a b : Root} :
    signingRootsDiffer a b = false ↔ a ≠ zeroHash ∧ a = b := by
  rw [signingRootsDiffer]
  split
  next h => simp [h]
  next h => simp [h]

variable {l : List AttestationRecord} {att : AttestationRecord}

/-- The converse of `hasSlashableVotes_eq_false`: what passes the loop has no conflicts. -/
theorem compatible_of_hasSlashableVotes {roots : Std.ExtTreeMap Epoch Root}
    {votes : List Attestation} (h : hasSlashableVotes roots votes l = false) :
    (∀ att ∈ l, ∀ root, roots[att.target]? = some root →
        signingRootsDiffer root att.signingRoot = false) ∧
      (∀ a ∈ votes, ∀ att ∈ l, isSurround a ⟨att.source, att.target⟩ = false ∧
        isSurround ⟨att.source, att.target⟩ a = false) ∧
      l.Pairwise Compatible := by
  induction l generalizing roots votes with
  | nil => simp
  | cons att l ih =>
    rw [hasSlashableVotes] at h
    split at h
    · cases h
    next hdouble =>
    split at h
    · cases h
    next hsurround =>
      obtain ⟨hroots, hvotes, hpairs⟩ := ih h
      have hatt : ∀ root, roots[att.target]? = some root →
          signingRootsDiffer root att.signingRoot = false := by
        intro root hroot
        rw [hroot] at hdouble
        exact Bool.eq_false_iff.mpr hdouble
      have hsame : ∀ b ∈ l, att.target = b.target →
          signingRootsDiffer att.signingRoot b.signingRoot = false := by
        intro b hb htarget
        refine hroots b hb att.signingRoot ?_
        rw [htarget, getElem?_insert_self]
      refine ⟨forall_mem_cons.mpr ⟨hatt, fun b hb root hroot => ?_⟩, fun a ha => ?_,
        pairwise_cons.mpr ⟨fun b hb => ?_, hpairs⟩⟩
      · rcases eq_or_ne att.target b.target with htarget | htarget
        · obtain ⟨hzero, rfl⟩ := signingRootsDiffer_eq_false.mp (hatt root (htarget ▸ hroot))
          exact hsame b hb htarget
        · refine hroots b hb root ?_
          rw [TreeMap.getElem?_insert, if_neg htarget.symm, hroot]
      · refine forall_mem_cons.mpr ⟨?_, fun b hb => hvotes a (mem_append_left _ ha) b hb⟩
        have hnot := any_eq_false.mp (Bool.eq_false_iff.mpr hsurround) a ha
        simpa using hnot
      · exact ⟨hsame b hb, hvotes _ (mem_append_right _ (mem_singleton_self _)) b hb⟩

theorem hasSlashableVotes_eq_true_iff :
    hasSlashableVotes ∅ [] l = true ↔ ¬ l.Pairwise Compatible := by
  rw [← Bool.not_eq_false, not_iff_not]
  exact ⟨fun h => (compatible_of_hasSlashableVotes h).2.2,
    hasSlashableVotes_eq_false (by simp) (by simp)⟩

theorem hasDoubleProposal_eq_true_iff {l : List Proposal} :
    hasDoubleProposal ∅ l = true ↔
      Pairs (fun a b => a.slot = b.slot ∧ a.signingRoot ≠ b.signingRoot) l := by
  rw [← Bool.not_eq_false, hasDoubleProposal_eq_false_iff]
  simp only [getElem?_empty, reduceCtorEq, false_imp_iff, implies_true, true_and]
  exact not_pairwise_iff fun a b => by rw [Classical.not_imp]

theorem mem_filter_keys {α : Type} (o : MapOrder) {m : PubKeyMap (List α)} {p : List α → Bool}
    (hp : p [] = false) {k : PubKey} :
    k ∈ (o.order m.keys).filter (fun k => p (m[k]?.getD [])) ↔ p (m[k]?.getD []) = true := by
  rw [List.mem_filter, (o.perm _).mem_iff, TreeMap.mem_keys_iff]
  refine ⟨And.right, fun h => ⟨fun hnone => ?_, h⟩⟩
  rw [hnone, Option.getD_none, hp] at h
  cases h

/-! ### Conflicts within a file -/

/-- Two blocks of one slot whose roots differ or of which the earlier has no root. -/
def FileBlock.Conflicts (a b : FileBlock) : Prop :=
  a.slot = b.slot ∧ (a.root ≠ b.root ∨ a.root = none)

/-- Two attestations of one target whose roots differ or of which the earlier has no root, or one
that surrounds the other. -/
def FileVote.Conflicts (a b : FileVote) : Prop :=
  a.target = b.target ∧ (a.root ≠ b.root ∨ a.root = none) ∨
    isSurround ⟨a.source, a.target⟩ ⟨b.source, b.target⟩ = true ∨
    isSurround ⟨b.source, b.target⟩ ⟨a.source, a.target⟩ = true

def Conflicting (k : PubKey) (data : List (Option ProtectionData)) : Prop :=
  Pairs FileBlock.Conflicts (blocksIn k data) ∨ Pairs FileVote.Conflicts (votesIn k data)

/-- Two blocks of one slot whose roots differ when the zero root stands for no root, or two
attestations that conflict. -/
def Detected (k : PubKey) (data : List (Option ProtectionData)) : Prop :=
  Pairs (fun a b => a.slot = b.slot ∧ a.root.getD zeroHash ≠ b.root.getD zeroHash)
      (blocksIn k data) ∨
    Pairs FileVote.Conflicts (votesIn k data)

/-- Two blocks of one slot without a nonzero root, of which one has no root at all. -/
def BlankBlocks (k : PubKey) (data : List (Option ProtectionData)) : Prop :=
  Pairs (fun a b => a.slot = b.slot ∧ (a.root = none ∨ b.root = none) ∧
    a.root.getD zeroHash = zeroHash ∧ b.root.getD zeroHash = zeroHash) (blocksIn k data)

/-- Two attestations of one target for which the file gives the zero root. -/
def ZeroRootVotes (k : PubKey) (data : List (Option ProtectionData)) : Prop :=
  Pairs (fun a b => a.target = b.target ∧ a.root = some zeroHash ∧ b.root = some zeroHash)
    (votesIn k data)

section InFile

variable {k : PubKey} {data : List (Option ProtectionData)}

theorem FileBlock.conflicts_iff (a b : FileBlock) :
    a.Conflicts b ↔ a.slot = b.slot ∧ a.root.getD zeroHash ≠ b.root.getD zeroHash ∨
      a.slot = b.slot ∧ (a.root = none ∨ b.root = none) ∧ a.root.getD zeroHash = zeroHash ∧
        b.root.getD zeroHash = zeroHash := by
  obtain ⟨slot, root⟩ := a
  obtain ⟨slot', root'⟩ := b
  rw [FileBlock.Conflicts, ← and_or_left]
  refine and_congr_right fun _ => ?_
  cases root with
  | none => cases root' <;> simp [eq_comm, em']
  | some r =>
    cases root' with
    | none => simp [em']
    | some r' => simp

theorem FileVote.not_compatible_iff (k : PubKey) (a b : FileVote) :
    ¬ Compatible (a.record k) (b.record k) ↔ a.Conflicts b ∨
      a.target = b.target ∧ a.root = some zeroHash ∧ b.root = some zeroHash := by
  obtain ⟨source, target, root⟩ := a
  obtain ⟨source', target', root'⟩ := b
  have hroots : signingRootsDiffer (root.getD zeroHash) (root'.getD zeroHash) = true ↔
      (root ≠ root' ∨ root = none) ∨ root = some zeroHash ∧ root' = some zeroHash := by
    rw [← Bool.not_eq_false, signingRootsDiffer_eq_false, not_and_or, not_not]
    cases root with
    | none => simp
    | some r =>
      rcases eq_or_ne r zeroHash with rfl | hr
      · simp [eq_comm, em']
      · cases root' with
        | none => simp [hr]
        | some r' => simp [hr]
  simp only [Compatible, FileVote.Conflicts, FileVote.record, not_and_or, Classical.not_imp,
    Bool.not_eq_false, hroots]
  rw [and_or_left, or_right_comm]

theorem conflicting_iff : Conflicting k data ↔ Detected k data ∨ BlankBlocks k data := by
  rw [Conflicting, Detected, BlankBlocks, pairs_congr FileBlock.conflicts_iff, pairs_or]
  tauto

theorem import_blacklists (o : Orders) {file : File} {gvr : Root} (hdata : file.data = some data)
    (hwf : WellFormed data) (hchain : ForChain file .empty gvr) :
    ∃ db', importStandardProtectionJSON o file .empty = .ok () db' ∧
      ∀ k, k ∈ db'.slashablePublicKeys ↔ Detected k data ∨ ZeroRootVotes k data := by
  obtain ⟨proposals, records, hread, hhistories⟩ := readHistories_of_wellFormed o hwf
  have hnone : ∀ k : PubKey, (DB.opened (rootBytes gvr)).pubKeys[k]? = none :=
    getElem?_pubKeys_opened (rootBytes gvr)
  have hread' := hhistories (.opened (rootBytes gvr))
  rw [filterSlashablePubKeysFromAttestations_of_none _ _ hnone] at hread'
  have hmeta : validateMetadata file .empty = .ok () (.opened (rootBytes gvr)) :=
    validateMetadata_of_forChain hchain
  rw [import_of_validateMetadata o hdata hmeta, hread']
  refine ⟨_, rfl, fun k => ?_⟩
  have hproposers : k ∈ filterSlashablePubKeysFromBlocks o.slashableBlocks proposals ↔
      Pairs (fun a b => a.slot = b.slot ∧ a.root.getD zeroHash ≠ b.root.getD zeroHash)
        (blocksIn k data) := by
    rw [filterSlashablePubKeysFromBlocks, mem_filter_keys _ rfl, hread.proposals, getD_listed,
      hasDoubleProposal_eq_true_iff, pairs_map]
    rfl
  have hattesters : k ∈ (o.slashableVotes.order records.keys).filter
        (fun k => hasSlashableVotes ∅ [] (records[k]?.getD [])) ↔
      Pairs FileVote.Conflicts (votesIn k data) ∨ ZeroRootVotes k data := by
    rw [mem_filter_keys _ rfl, hread.records, getD_listed, hasSlashableVotes_eq_true_iff,
      pairwise_map, not_pairwise_iff fun a b => (FileVote.not_compatible_iff k a b).symm,
      pairs_or]
    rfl
  have hempty : k ∉ (DB.opened (rootBytes gvr)).slashablePublicKeys := not_mem_empty
  rw [saveHistories, saveAttestations_eq, (saveAttestationRecords_frame _ _).2.2, saveProposals_eq,
    (saveBlocks_frame _ _).2.2.2, saveEIPImportBlacklistedPublicKeys, TreeMap.mem_foldl_insert,
    or_iff_left hempty, filtered, mem_append, hproposers, hattesters, Detected, or_assoc]

/-- The public keys that an import into a new database blacklists are those with conflicting
entries exactly if a conflict is detected or a public key has blank blocks just when it has votes
for the zero root. -/
theorem blacklisted_iff_conflicting (o : Orders) (file : File)
    (data : List (Option ProtectionData)) (gvr : Root) (hdata : file.data = some data)
    (hwf : WellFormed data) (hchain : ForChain file .empty gvr) :
    ∃ db', importStandardProtectionJSON o file .empty = .ok () db' ∧
      ∀ k, (k ∈ db'.slashablePublicKeys ↔ Conflicting k data) ↔
        Detected k data ∨ (BlankBlocks k data ↔ ZeroRootVotes k data) := by
  obtain ⟨db', himport, hkeys⟩ := import_blacklists o hdata hwf hchain
  refine ⟨db', himport, fun k => ?_⟩
  rw [hkeys, conflicting_iff]
  tauto

end InFile

/-- The text of a public key that repeats one digit. -/
def sampleKey : Text := '0' :: 'x' :: replicate 96 '1'

def sampleData (blocks : List SignedBlock) (atts : List SignedAttestation) :
    List (Option ProtectionData) :=
  [some ⟨sampleKey, blocks.map some, atts.map some⟩]

def sampleFile (blocks : List SignedBlock) (atts : List SignedAttestation) : File :=
  ⟨['5'], sampleRoot '1', some (sampleData blocks atts)⟩

theorem forChain_sampleFile (blocks : List SignedBlock) (atts : List SignedAttestation) :
    ForChain (sampleFile blocks atts) .empty (BitVec.ofNat 256 (value (replicate 32 17)))
    where
  version := rfl
  root := rfl
  chain := .inl rfl

def samplePubKey : PubKey := BitVec.ofNat 384 (value (replicate 48 17))

theorem pubKeyFromHex_sampleKey : pubKeyFromHex sampleKey = .ok samplePubKey := rfl

theorem wellFormed_sample {blocks : List SignedBlock} {atts : List SignedAttestation}
    (hblocks : ∀ b ∈ blocks, ∃ x, fileBlock b = .ok x)
    (hatts : ∀ att ∈ atts, ∃ x, fileVote att = .ok x) :
    WellFormed (sampleData blocks atts) where
  keyed := forall_mem_singleton.mpr ⟨_, _, rfl, pubKeyFromHex_sampleKey⟩
  blocks item hitem b hb := by
    obtain rfl := Option.some.inj (mem_singleton.mp hitem)
    obtain ⟨b', hb', heq⟩ := List.mem_map.mp hb
    exact Option.some.inj heq ▸ hblocks b' hb'
  votes item hitem att hatt := by
    obtain rfl := Option.some.inj (mem_singleton.mp hitem)
    obtain ⟨att', hatt', heq⟩ := List.mem_map.mp hatt
    exact Option.some.inj heq ▸ hatts att' hatt'

/-- Two blocks of slot 5, without roots. -/
def twoBlankBlocks : List SignedBlock := [⟨['5'], []⟩, ⟨['5'], []⟩]

theorem fileBlock_twoBlankBlocks : ∀ b ∈ twoBlankBlocks, ∃ x, fileBlock b = .ok x := by
  simp only [twoBlankBlocks, forall_mem_cons, not_mem_nil, false_imp_iff, implies_true, and_true]
  exact ⟨⟨⟨5, none⟩, rfl⟩, ⟨⟨5, none⟩, rfl⟩⟩

theorem blacklisted_iff_conflicting_two_blank :
    ∃ db', importStandardProtectionJSON .plain (sampleFile twoBlankBlocks []) .empty = .ok () db' ∧
      ∀ k, (k ∈ db'.slashablePublicKeys ↔
          Conflicting k (sampleData twoBlankBlocks [])) ↔
        Detected k (sampleData twoBlankBlocks []) ∨
          (BlankBlocks k (sampleData twoBlankBlocks []) ↔
            ZeroRootVotes k (sampleData twoBlankBlocks [])) :=
  blacklisted_iff_conflicting .plain (sampleFile twoBlankBlocks []) _ _ rfl
    (wellFormed_sample fileBlock_twoBlankBlocks (by simp)) (forChain_sampleFile twoBlankBlocks [])

/-- The earlier of the two blocks has no root, but their public key is not blacklisted. -/
theorem blank_blocks_not_blacklisted :
    ∃ db', importStandardProtectionJSON .plain (sampleFile twoBlankBlocks []) .empty = .ok () db' ∧
      samplePubKey ∉ db'.slashablePublicKeys ∧
      Conflicting samplePubKey (sampleData twoBlankBlocks []) := by
  have hdata : (sampleFile twoBlankBlocks []).data = some (sampleData twoBlankBlocks []) := rfl
  obtain ⟨db', himport, hkeys⟩ := import_blacklists .plain hdata
    (wellFormed_sample fileBlock_twoBlankBlocks (by simp)) (forChain_sampleFile twoBlankBlocks [])
  have hblocks : blocksIn samplePubKey (sampleData twoBlankBlocks []) =
      [⟨5, none⟩, ⟨5, none⟩] := by decide +kernel
  have hvotes : votesIn samplePubKey (sampleData twoBlankBlocks []) = [] := by
    decide +kernel
  refine ⟨db', himport, fun hmem => ?_, .inl ?_⟩
  · rcases (hkeys samplePubKey).mp hmem with (⟨a, b, hsub, -, hroots⟩ | ⟨a, b, hsub, -⟩) |
      ⟨a, b, hsub, -⟩
    · rw [hblocks] at hsub
      obtain ⟨rfl, rfl⟩ : a = ⟨5, none⟩ ∧ b = ⟨5, none⟩ := by simpa using hsub.eq_of_length rfl
      exact hroots rfl
    · rw [hvotes] at hsub
      cases hsub
    · rw [hvotes] at hsub
      cases hsub
  · rw [hblocks]
    exact ⟨_, _, Sublist.refl _, rfl, .inr rfl⟩

/-! ### Conflicts with the database -/

/-- What a check reports: a kind of slashing always comes with an error. -/
def WithError (result : SlashingKind × Option Err) : Prop :=
  result.2 = none → result.1 = .notSlashable

theorem withError_checkSlashableAttestation (db : DB) (k : PubKey) (root : Root)
    (a : Attestation) : WithError (db.checkSlashableAttestation false k root a) := by
  have herror : ∀ kind (e : Err), WithError (kind, some e) := fun _ _ h => by cases h
  have hnone : WithError (.notSlashable, none) := fun _ => rfl
  have hsurrounding : ∀ m, WithError (checkSurroundingVote m a) := by
    intro m
    rw [checkSurroundingVote]
    split
    · exact herror _ _
    · exact hnone
    · exact herror _ _
  have hsurrounded : ∀ m, WithError (checkSurroundedVote m a) := by
    intro m
    rw [checkSurroundedVote]
    split
    · exact herror _ _
    · exact hnone
    · exact herror _ _
  rw [DB.checkSlashableAttestation, if_neg Bool.false_ne_true]
  split
  · exact hnone
  split
  · exact herror _ _
  split
  · exact hnone
  split
  · exact herror _ _
  next kind hvote =>
    split
    · exact hvote ▸ hsurrounding _
    · exact hsurrounded _

theorem exists_slashableInDB_error {db : DB} {k : PubKey} (hatt : att ∈ l)
    (h : (db.checkSlashableAttestation false k att.signingRoot ⟨att.source, att.target⟩).2 ≠ none) :
    ∃ e, slashableInDB db k l = .error e := by
  induction l with
  | nil => exact (not_mem_nil hatt).elim
  | cons b l ih =>
    rw [slashableInDB]
    have hkind := withError_checkSlashableAttestation db k b.signingRoot ⟨b.source, b.target⟩
    split
    next e _ => exact ⟨e, rfl⟩
    next kind hcheck =>
      rw [hcheck] at hkind
      rw [if_neg (not_not.mpr (hkind rfl))]
      refine ih ((mem_cons.mp hatt).resolve_left ?_)
      rintro rfl
      exact h (by rw [hcheck])

theorem exists_filterSlashable_error (o₁ o₂ : MapOrder) {db : DB}
    {m : PubKeyMap (List AttestationRecord)} {k : PubKey}
    (hatt : att ∈ m[k]?.getD [])
    (h : (db.checkSlashableAttestation false k att.signingRoot ⟨att.source, att.target⟩).2 ≠ none) :
    ∃ e, filterSlashablePubKeysFromAttestations o₁ o₂ db m = .error e := by
  obtain ⟨e, he⟩ := exists_slashableInDB_error hatt h
  refine exists_foldlM_error (mem_getD_keys o₂ m hatt) (fun keys => ⟨e, ?_⟩) _
  rw [he]
  rfl

/-- An attestation of the file conflicts with what the database has for its public key. -/
def ConflictsWith (db : DB) (data : List (Option ProtectionData)) (k : PubKey) : Prop :=
  ∃ vote ∈ votesIn k data, Conflict (db.sourceVotes k) (db.targetVotes k)
    (db.rootFor (vote.record k)) (vote.record k)

section WithDatabase

variable {o : Orders} {file : File} {data : List (Option ProtectionData)} {db : DB} {gvr : Root}

theorem import_of_conflictsWith (hdb : Sane db) (hdata : file.data = some data)
    (hwf : WellFormed data) (hchain : ForChain file db gvr) {k : PubKey}
    (hconflict : ConflictsWith db data k) :
    ∃ e, importStandardProtectionJSON o file db =
      .error (.slashable e) { db with genesisValidatorsRoot := rootBytes gvr } := by
  obtain ⟨vote, hvote, hconflict⟩ := hconflict
  obtain ⟨proposals, records, hread, hhistories⟩ := readHistories_of_wellFormed o hwf
  rw [import_of_validateMetadata o hdata (validateMetadata_of_forChain hchain), hhistories]
  have hcheck : (DB.checkSlashableAttestation { db with genesisValidatorsRoot := rootBytes gvr }
      false k (vote.record k).signingRoot ⟨vote.source, vote.target⟩).2 ≠ none := by
    intro hnone
    have hiff := checkSlashableAttestation_iff (hdb.complete k) (hdb.source k) (hdb.target k)
      (vote.record k).signingRoot ⟨vote.source, vote.target⟩
    exact not_conflict_iff.mpr (hiff.mp hnone) hconflict
  have hmem : vote.record k ∈ records[k]?.getD [] := by
    rw [hread.records, getD_listed]
    exact mem_map_of_mem hvote
  obtain ⟨e, he⟩ := exists_filterSlashable_error o.slashableVotes o.slashableInDB hmem hcheck
  rw [he]
  exact ⟨e, rfl⟩

end WithDatabase

/-- If an attestation of the file conflicts with what the database has for its public key, then the
call never succeeds, whatever the order of its loops: it neither blacklists a public key nor saves
the history of one. -/
theorem import_fails_on_conflict (o : Orders) (file : File) (data : List (Option ProtectionData))
    (db : DB) (gvr : Root) (hdb : Sane db) (hdata : file.data = some data)
    (hwf : WellFormed data) (hchain : ForChain file db gvr) (k : PubKey)
    (hconflict : ConflictsWith db data k) :
    ∃ e db', importStandardProtectionJSON o file db = .error (.slashable e) db' ∧
      db'.slashablePublicKeys = db.slashablePublicKeys ∧ db'.pubKeys = db.pubKeys ∧
      db'.historicProposals = db.historicProposals := by
  obtain ⟨e, himport⟩ := import_of_conflictsWith hdb hdata hwf hchain hconflict
  exact ⟨e, _, himport, rfl, rfl, rfl⟩

/-- A vote from source 1 to target 2. -/
def oneVoteDB : DB := DB.empty.saveAttestationRecord ⟨samplePubKey, 1, 2, 7⟩

/-- The vote from source 1 to target 2 under another root, and a vote of a second public key. -/
def doubleVoteData : List (Option ProtectionData) :=
  [some ⟨sampleKey, [], [some ⟨['1'], ['2'], sampleRoot '3'⟩]⟩,
    some ⟨'0' :: 'x' :: replicate 96 '2', [], [some ⟨['1'], ['2'], sampleRoot '3'⟩]⟩]

def doubleVoteFile : File := ⟨['5'], sampleRoot '1', some doubleVoteData⟩

theorem sane_oneVoteDB : Sane oneVoteDB :=
  ((sane_opened []).congr rfl rfl rfl).save ⟨samplePubKey, 1, 2, 7⟩

theorem votesIn_doubleVoteData : votesIn samplePubKey doubleVoteData =
    [⟨1, 2, some (BitVec.ofNat 256 (value (replicate 32 51)))⟩] := by
  decide +kernel

theorem conflictsWith_doubleVoteData : ConflictsWith oneVoteDB doubleVoteData samplePubKey := by
  refine ⟨⟨1, 2, some (BitVec.ofNat 256 (value (replicate 32 51)))⟩, ?_, .doubleVote 7 ?_ ?_⟩
  · rw [votesIn_doubleVoteData]
    exact mem_singleton_self _
  · rw [DB.rootFor, oneVoteDB, rootsIndex_save]
    exact (congrArg (·[ofUint64 2]?) (if_pos rfl)).trans getElem?_insert_self
  · decide +kernel

theorem wellFormed_doubleVoteData : WellFormed doubleVoteData where
  keyed := by
    refine forall_mem_cons.mpr ⟨⟨_, _, rfl, pubKeyFromHex_sampleKey⟩, ?_⟩
    refine forall_mem_singleton.mpr ⟨_, ?_, rfl, ?_⟩
    · exact BitVec.ofNat 384 (value (replicate 48 34))
    · rfl
  blocks item hitem b hb := by
    simp only [doubleVoteData, mem_cons, Option.some.injEq, not_mem_nil, or_false] at hitem
    rcases hitem with rfl | rfl <;> exact (not_mem_nil hb).elim
  votes item hitem att hatt := by
    simp only [doubleVoteData, mem_cons, Option.some.injEq, not_mem_nil, or_false] at hitem
    rcases hitem with rfl | rfl <;>
      obtain rfl := Option.some.inj (mem_singleton.mp hatt) <;> exact ⟨_, rfl⟩

theorem forChain_doubleVoteFile : ForChain doubleVoteFile oneVoteDB
    (BitVec.ofNat 256 (value (replicate 32 17))) where
  version := rfl
  root := rfl
  chain := .inl rfl

theorem import_fails_on_conflict_double_vote :
    ∃ e db', importStandardProtectionJSON .plain doubleVoteFile oneVoteDB =
        .error (.slashable e) db' ∧
      db'.slashablePublicKeys = oneVoteDB.slashablePublicKeys ∧
      db'.pubKeys = oneVoteDB.pubKeys ∧ db'.historicProposals = oneVoteDB.historicProposals :=
  import_fails_on_conflict .plain doubleVoteFile doubleVoteData oneVoteDB _ sane_oneVoteDB rfl
    wellFormed_doubleVoteData forChain_doubleVoteFile samplePubKey conflictsWith_doubleVoteData

/-- The second public key of the file is not in the database, but its vote is not saved, and the
first one is not blacklisted. -/
theorem conflict_blocks_other_keys :
    ConflictsWith oneVoteDB doubleVoteData samplePubKey ∧
      (∃ e db', importStandardProtectionJSON .plain doubleVoteFile oneVoteDB = .error e db' ∧
        samplePubKey ∉ db'.slashablePublicKeys ∧
        db'.pubKeys[BitVec.ofNat 384 (value (replicate 48 34))]? = none) := by
  refine ⟨conflictsWith_doubleVoteData, ?_⟩
  obtain ⟨e, himport⟩ := import_of_conflictsWith (o := .plain) sane_oneVoteDB rfl
    wellFormed_doubleVoteData forChain_doubleVoteFile conflictsWith_doubleVoteData
  refine ⟨_, _, himport, not_mem_empty, ?_⟩
  change oneVoteDB.pubKeys[_]? = none
  rw [oneVoteDB, getElem?_pubKeys_save, if_neg (by decide +kernel)]
  simp [DB.empty]

end Interchange

end Vanguard.Validator
