import Vanguard.Validator.AttesterPruning
import Vanguard.Validator.OptimalMigration

/-!
Downgrade of attesting histories to the deprecated encoding.

The votes of all public keys are extracted into the same two maps, and every public key gets a
history that is built from these. What is written for a public key is determined by its own buckets
only if the maps of all of them come to the same entries.
-/

namespace Vanguard.Validator

open Bytes PackedIndex Slices Fallible List BitVec Option Except

/-! ### `migrateOptimalAttesterProtectionDown` -/

inductive DowngradeErr where
  | history (e : HistoryErr)
  /-- A bucket is missing, or a list of targets is not packed. -/
  | panic
  deriving DecidableEq, Repr

structure Extracted where
  signingRootsByTarget : Std.ExtTreeMap Epoch Root
  targetEpochsBySource : Std.ExtTreeMap Epoch (List Epoch)

def extractRoots (signingRootsBucket : Bucket Root)
    (signingRootsByTarget : Std.ExtTreeMap Epoch Root) :
    Std.ExtTreeMap Epoch Root :=
  signingRootsBucket.toList.foldl (fun m e => m.insert (toUint64 e.1) e.2) signingRootsByTarget

def extractTargets (sourceEpochsBucket : Bucket Bytes)
    (targetEpochsBySource : Std.ExtTreeMap Epoch (List Epoch)) :
    Except DowngradeErr (Std.ExtTreeMap Epoch (List Epoch)) :=
  sourceEpochsBucket.toList.foldlM (fun m e =>
    match unpack e.2 with
    | none => .error .panic
    | some targetEpochs => .ok (m.insert (toUint64 e.1) targetEpochs)) targetEpochsBySource

def extractKey (db : DB) (x : Extracted) (pubKey : PubKey) : Except DowngradeErr Extracted :=
  match db.pubKeys[pubKey]? with
  | none => .ok x
  | some pkBucket =>
    match pkBucket.signingRoots, pkBucket.sourceEpochs with
    | some signingRootsBucket, some sourceEpochsBucket =>
      (extractTargets sourceEpochsBucket x.targetEpochsBySource).map fun targets =>
        ⟨extractRoots signingRootsBucket x.signingRootsByTarget, targets⟩
    | _, _ => .error .panic

/-- An order in which the epochs of a map are ranged over. -/
structure EpochOrder where
  order : List Epoch → List Epoch
  perm : ∀ l, (order l).Perm l

def Extracted.votesOf (x : Extracted) (source : Epoch) : List (Epoch × HistoryData) :=
  (x.targetEpochsBySource[source]?.getD []).map fun target =>
    (target, ⟨source, x.signingRootsByTarget[target]?.getD zeroHash⟩)

def Extracted.votes (x : Extracted) (o : EpochOrder) : List (Epoch × HistoryData) :=
  (o.order x.targetEpochsBySource.keys).flatMap x.votesOf

def writeHistory (o : PubKey → EpochOrder) (x : Extracted) (bucket : PubKeyMap Bytes)
    (pubKey : PubKey) : Except DowngradeErr (PubKeyMap Bytes) :=
  match buildHistory 0 (x.votes (o pubKey)) with
  | .error e => .error (.history e)
  | .ok history => .ok (bucket.insert pubKey history)

/-- `migrateOptimalAttesterProtectionDown`, given whether the upgrade was completed before, which
is undone when it returns. The histories are written in one transaction. -/
def migrateOptimalAttesterProtectionDown (o : PubKey → EpochOrder) (completed : Bool) :
    EStateM DowngradeErr DB Unit := fun db =>
  let pubKeys := if completed then db.pubKeys.keys else []
  match pubKeys.foldlM (extractKey db) ⟨∅, ∅⟩ with
  | .error e => .error e db
  | .ok x =>
    match pubKeys.foldlM (writeHistory o x) db.deprecatedAttestationHistory with
    | .error e => .error e db
    | .ok histories => .ok () { db with deprecatedAttestationHistory := histories }

def downgraded (o : PubKey → EpochOrder) (db : DB) (k : PubKey) : Option Bytes :=
  match migrateOptimalAttesterProtectionDown o true db with
  | .ok () db' => db'.deprecatedAttestationHistory[k]?
  | .error _ _ => none

/-! ### The bytes of a history -/

/-- The last eight bytes of every entry are zero. -/
def Padded (dh : Bytes) (n : ℕ) : Prop :=
  ∀ i < n, slice dh (8 + 48 * i + 40) 8 = List.replicate 8 0

theorem getElem?_of_slice {α : Type} {l l' : List α} {i n j : ℕ} (h : slice l i n = slice l' i n)
    (hi : i ≤ j) (hj : j < i + n) : l[j]? = l'[j]? := by
  have hget := congrArg (·[j - i]?) h
  simp only [getElem?_slice] at hget
  rwa [if_pos (by omega), if_pos (by omega), Nat.add_sub_cancel' hi] at hget

theorem ofNat_value_inj {w n : ℕ} (hw : 256 ^ n ≤ 2 ^ w) {a b : Bytes} (ha : a.length = n)
    (hb : b.length = n) (h : BitVec.ofNat w (value a) = BitVec.ofNat w (value b)) : a = b := by
  have hlt := value_lt a
  have hlt' := value_lt b
  rw [ha] at hlt
  rw [hb] at hlt'
  have hvalue := congrArg BitVec.toNat h
  rw [toNat_ofNat, toNat_ofNat, Nat.mod_eq_of_lt (by omega), Nat.mod_eq_of_lt (by omega)] at hvalue
  rw [← bigEndian_value a ha, ← bigEndian_value b hb, hvalue]

theorem toUint64LE_inj {a b : Bytes} (ha : a.length = 8) (hb : b.length = 8)
    (h : toUint64LE a = toUint64LE b) : a = b := by
  rw [← length_reverse] at ha hb
  rw [toUint64LE, toUint64LE, toUint64, toUint64, if_neg (by omega), if_neg (by omega),
    take_of_length_le (by omega), take_of_length_le (by omega)] at h
  exact reverse_injective (ofNat_value_inj (by decide) ha hb h)

section Bytes

variable {dh dh' : Bytes} {latest : Epoch} {cells : List HistoryData}

theorem Represents.eq_of_padded (h : Represents dh latest cells) (hp : Padded dh cells.length)
    (h' : Represents dh' latest cells) (hp' : Padded dh' cells.length) : dh = dh' := by
  have hlen := h.length
  have hlen' := h'.length
  refine ext_getElem? fun j => ?_
  rcases Nat.lt_or_ge j 8 with hj | hj
  · have hslice : slice dh 0 8 = slice dh' 0 8 :=
      toUint64LE_inj (length_slice (by omega)) (length_slice (by omega))
        (h.latest.trans h'.latest.symm)
    exact getElem?_of_slice hslice (Nat.zero_le j) (by omega)
  rcases Nat.lt_or_ge ((j - 8) / 48) cells.length with hi | hi
  · obtain ⟨d, hd⟩ : ∃ d, cells[(j - 8) / 48]? = some d := ⟨_, List.getElem?_eq_getElem hi⟩
    have hdata := (h.cell _ d hd).trans (h'.cell _ d hd).symm
    have hpad := (hp _ hi).trans (hp' _ hi).symm
    generalize hc : 8 + 48 * ((j - 8) / 48) = c at hdata hpad
    have hsource : slice dh c 8 = slice dh' c 8 :=
      toUint64LE_inj (length_slice (by omega)) (length_slice (by omega))
        (congrArg HistoryData.source hdata)
    have hroot : slice dh (c + 8) 32 = slice dh' (c + 8) 32 :=
      ofNat_value_inj (by decide) (length_slice (by omega)) (length_slice (by omega))
        (congrArg HistoryData.signingRoot hdata)
    rcases Nat.lt_or_ge j (c + 8) with h₁ | h₁
    · exact getElem?_of_slice hsource (by omega) h₁
    rcases Nat.lt_or_ge j (c + 8 + 32) with h₂ | h₂
    · exact getElem?_of_slice hroot h₁ h₂
    · exact getElem?_of_slice hpad (by omega) (by omega)
  · rw [List.getElem?_eq_none (by omega), List.getElem?_eq_none (by omega)]

theorem Padded.setTargetData (hp : Padded dh cells.length) (h : Represents dh latest cells)
    {target : Epoch} {d : HistoryData} (hset : setTargetData dh target d = .ok dh') :
    Padded dh' (setCell cells (target % weakSubjectivityPeriod).toNat d).length := by
  have hlen := h.length
  rw [Validator.setTargetData, h.assertSize, cursor_eq] at hset
  obtain rfl := ok.inj hset
  rw [length_setCell]
  generalize (target % weakSubjectivityPeriod).toNat = i
  have hsource : (ofUint64LE d.source).length = 8 := length_ofUint64LE _
  have hroot : (rootBytes d.signingRoot).length = 32 := length_bigEndian 32 _
  intro j hj
  rw [historySize, sourceSize, signingRootSize, slice_setTargetData hsource hroot (by omega)]
  rcases Nat.lt_or_ge j cells.length with hold | hnew
  · rw [slice_grow_of_le (by omega)]
    exact hp j hold
  · exact slice_grow_new (by omega) (by omega) 0

theorem Padded.setLatestEpochWritten (hp : Padded dh cells.length)
    (h : Represents dh latest cells) {latest' : Epoch}
    (hset : setLatestEpochWritten dh latest' = .ok dh') : Padded dh' cells.length := by
  have hlen := h.length
  have hword : (ofUint64LE latest').length = 8 := length_ofUint64LE _
  rw [Validator.setLatestEpochWritten, h.assertSize] at hset
  obtain rfl := ok.inj hset
  intro j hj
  rw [slice_put_disjoint (by omega) (by omega)]
  exact hp j hj

end Bytes

theorem padded_new : Padded (newDeprecatedAttestingHistory 0) 1 := by
  intro i hi
  obtain rfl : i = 0 := by omega
  decide +kernel

variable {votes : List (Epoch × HistoryData)} {db : DB}

theorem padded_foldlM {dh dh' : Bytes} {latest : Epoch} {cells : List HistoryData}
    (h : Represents dh latest cells) (hp : Padded dh cells.length)
    (hrun : votes.foldlM (fun dh vote => setTargetData dh vote.1 vote.2) dh = .ok dh') :
    Padded dh' (votes.foldl (fun cells vote =>
      setCell cells (vote.1 % weakSubjectivityPeriod).toNat vote.2) cells).length := by
  induction votes generalizing dh cells with
  | nil =>
    obtain rfl := ok.inj hrun
    exact hp
  | cons vote votes ih =>
    obtain ⟨dh₁, hset, h₁⟩ := h.setTargetData vote.1 vote.2
    rw [foldlM_cons, hset] at hrun
    exact ih h₁ (hp.setTargetData h hset) hrun

theorem buildHistory_eq_iff {votes' : List (Epoch × HistoryData)} :
    buildHistory 0 votes = buildHistory 0 votes' ↔
      latestTarget votes = latestTarget votes' ∧ builtCells 0 votes = builtCells 0 votes' := by
  have hbuild : ∀ votes : List (Epoch × HistoryData), ∃ dh, buildHistory 0 votes = .ok dh ∧
      Represents dh (latestTarget votes) (builtCells 0 votes) ∧
      Padded dh (builtCells 0 votes).length := by
    intro votes
    obtain ⟨dh₁, hset, h₁⟩ := foldlM_setTargetData (represents_new 0) votes
    obtain ⟨dh₂, hlatest, h₂⟩ := h₁.setLatestEpochWritten (latestTarget votes)
    refine ⟨dh₂, ?_, h₂, (padded_foldlM (represents_new 0) padded_new hset).setLatestEpochWritten h₁
      hlatest⟩
    rw [buildHistory, hset]
    exact hlatest
  obtain ⟨dh, hdh, hrep, hpad⟩ := hbuild votes
  obtain ⟨dh', hdh', hrep', hpad'⟩ := hbuild votes'
  rw [hdh, hdh', ok.injEq]
  constructor
  · rintro rfl
    have hlen : (builtCells 0 votes).length = (builtCells 0 votes').length := by
      have h₁ := hrep.length
      have h₂ := hrep'.length
      omega
    refine ⟨hrep.latest.symm.trans hrep'.latest, ext_getElem hlen fun i hi hi' => ?_⟩
    rw [← hrep.cell i _ (List.getElem?_eq_getElem hi),
      ← hrep'.cell i _ (List.getElem?_eq_getElem hi')]
  · rintro ⟨hlatest, hcells⟩
    rw [← hlatest, ← hcells] at hrep'
    rw [← hcells] at hpad'
    exact hrep.eq_of_padded hpad hrep' hpad'

/-! ### The entries of a history -/

def position (target : Epoch) : ℕ := (target % weakSubjectivityPeriod).toNat

/-- An entry that no vote is written to. -/
def unwritten (votes : List (Epoch × HistoryData)) (r : ℕ) : Option HistoryData :=
  if r = 0 then some emptyHistoryData
  else if ∃ vote ∈ votes, r < position vote.1 then some zeroData else none

def lastVote (votes : List (Epoch × HistoryData)) (r : ℕ) : Option HistoryData :=
  (votes.reverse.find? fun vote => position vote.1 = r).map Prod.snd

theorem lastVote_append (votes : List (Epoch × HistoryData)) (v : Epoch × HistoryData) (r : ℕ) :
    lastVote (votes ++ [v]) r = if position v.1 = r then some v.2 else lastVote votes r := by
  rw [lastVote, lastVote, List.reverse_append, reverse_singleton, singleton_append, find?_cons]
  by_cases h : position v.1 = r
  · simp [h]
  · simp [h]

theorem getElem?_builtCells (votes : List (Epoch × HistoryData)) (r : ℕ) :
    (builtCells 0 votes)[r]? = (lastVote votes r).or (unwritten votes r) := by
  induction votes using reverseRecOn with
  | nil =>
    rw [builtCells, foldl_nil, getElem?_replicate, unwritten]
    by_cases hr : r = 0
    · rw [if_pos hr, if_pos (by rw [hr]; decide)]
      rfl
    · rw [if_neg hr, if_neg (by simpa using hr)]
      simp [lastVote]
  | append_singleton votes v ih =>
    have hcells : builtCells 0 (votes ++ [v]) =
        setCell (builtCells 0 votes) (position v.1) v.2 := by
      rw [builtCells, foldl_append]
      rfl
    rw [hcells, getElem?_setCell, lastVote_append]
    rcases eq_or_ne r (position v.1) with rfl | hr
    · rw [if_pos rfl, if_pos rfl, some_or]
    rw [if_neg hr, if_neg hr.symm]
    have hexists : (∃ vote ∈ votes ++ [v], r < position vote.1) ↔
        (∃ vote ∈ votes, r < position vote.1) ∨ r < position v.1 := by
      simp only [mem_append, mem_singleton, or_and_right, exists_or, exists_eq_left]
    split
    next hlen =>
      rw [ih]
      cases hlast : lastVote votes r with
      | some d => rfl
      | none =>
        rw [none_or, none_or, unwritten, unwritten]
        rw [hlast, none_or, unwritten] at ih
        by_cases hzero : r = 0
        · rw [if_pos hzero, if_pos hzero]
        · rw [if_neg hzero] at ih ⊢
          by_cases hlater : ∃ vote ∈ votes, r < position vote.1
          · rw [if_pos hlater, if_neg hzero, if_pos (hexists.mpr (.inl hlater))]
          · rw [if_neg hlater, List.getElem?_eq_none_iff] at ih
            omega
    next hlen =>
      have hnone : (lastVote votes r).or (unwritten votes r) = none :=
        ih.symm.trans (List.getElem?_eq_none (by omega))
      obtain ⟨hlast, hnot⟩ := or_eq_none_iff.mp hnone
      have hzero : r ≠ 0 := by
        rintro rfl
        rw [unwritten, if_pos rfl] at hnot
        cases hnot
      have hlater : ¬ ∃ vote ∈ votes, r < position vote.1 := by
        intro hlater
        rw [unwritten, if_neg hzero, if_pos hlater] at hnot
        cases hnot
      rw [hlast, none_or, unwritten, if_neg hzero]
      simp only [hexists, hlater, false_or]

/-! ### Extraction -/

/-- A database in the new format: every public key has signing roots and lists of targets. -/
def NewFormat (db : DB) : Prop :=
  ∀ (k : PubKey) (b : PkBucket), db.pubKeys[k]? = some b →
    ∃ roots sources l, b.signingRoots = some roots ∧ b.sourceEpochs = some sources ∧
      Lists sources l

theorem Sane.newFormat (h : Sane db) : NewFormat db := by
  intro k b hb
  obtain ⟨hroots, hsources, -⟩ := h.created k b hb
  obtain ⟨roots, hroots⟩ := isSome_iff_exists.mp hroots
  obtain ⟨sources, hsources⟩ := isSome_iff_exists.mp hsources
  have hlists := h.source k
  rw [DB.sourceIndex, hb, bind_some, hsources, getD_some] at hlists
  exact ⟨roots, sources, _, hroots, hsources, hlists⟩

/-- The extraction from the buckets of all public keys. -/
def extract (db : DB) : Except DowngradeErr Extracted :=
  db.pubKeys.keys.foldlM (extractKey db) ⟨∅, ∅⟩

theorem extract_ok (h : NewFormat db) : ∃ x, extract db = .ok x := by
  refine exists_foldlM_ok (fun x k _ => ?_) _
  rw [extractKey]
  cases hk : db.pubKeys[k]? with
  | none => exact ⟨x, rfl⟩
  | some b =>
    obtain ⟨roots, sources, l, hroots, hsources, hlists⟩ := h k b hk
    dsimp only
    rw [hroots, hsources]
    obtain ⟨targets, htargets⟩ : ∃ targets,
        extractTargets sources x.targetEpochsBySource = .ok targets := by
      refine exists_foldlM_ok (fun m e he => ?_) _
      obtain ⟨source, -, hpacked, -⟩ := hlists.isEntry he
      rw [hpacked, unpack_pack]
      exact ⟨_, rfl⟩
    dsimp only
    rw [htargets]
    exact ⟨_, rfl⟩

theorem downgraded_eq {x : Extracted} (hx : extract db = .ok x) {k : PubKey}
    (hk : db.pubKeys[k]? ≠ none) (o : PubKey → EpochOrder) :
    downgraded o db k = (buildHistory 0 (x.votes (o k))).toOption := by
  have hbuild : ∀ k, ∃ history, buildHistory 0 (x.votes (o k)) = .ok history := fun k => by
    obtain ⟨dh, hdh, -⟩ := buildHistory_represents 0 (x.votes (o k))
    exact ⟨dh, hdh⟩
  choose history hhistory using hbuild
  have hwrite : db.pubKeys.keys.foldlM (writeHistory o x) db.deprecatedAttestationHistory =
      .ok (db.pubKeys.keys.foldl (fun m k => m.insert k (history k))
        db.deprecatedAttestationHistory) := by
    refine foldlM_eq_ok (fun m k _ => ?_) _
    rw [writeHistory, hhistory]
  have hlocal := TreeMap.getElem?_foldl_local (k := id) (f := fun k _ => some (history k))
    (u := fun (m : PubKeyMap Bytes) k => m.insert k (history k))
    (fun m c a => TreeMap.getElem?_insert m c a (history c)) (l := db.pubKeys.keys)
    (by rw [List.map_id]; exact Std.ExtTreeMap.nodup_keys) db.deprecatedAttestationHistory
  have hextract : db.pubKeys.keys.foldlM (extractKey db) ⟨∅, ∅⟩ = .ok x := hx
  rw [downgraded, migrateOptimalAttesterProtectionDown]
  simp only [if_true, hextract, hwrite, hhistory]
  exact hlocal.1 k (TreeMap.mem_keys_iff.mpr hk)

/-! ### What the maps determine -/

def EpochOrder.plain : EpochOrder := ⟨id, fun _ => .rfl⟩

def EpochOrder.last (source : Epoch) : EpochOrder where
  order l := if source ∈ l then l.erase source ++ [source] else l
  perm l := by
    split
    next h => exact (perm_append_singleton source _).trans (perm_cons_erase h).symm
    next => rfl

namespace Extracted

variable (x : Extracted)

/-- In some order the last vote for a position has the given data. -/
def Writes (r : ℕ) (d : HistoryData) : Prop :=
  ∃ source ∈ x.targetEpochsBySource.keys, lastVote (x.votesOf source) r = some d

/-- In some order the history has the given entry at a position. -/
def Entry (r : ℕ) (e : Option HistoryData) : Prop :=
  (∃ d, x.Writes r d ∧ e = some d) ∨
    (¬ ∃ d, x.Writes r d) ∧ e = unwritten (x.votes .plain) r

/-- Whatever the orders, two histories have the same entries and the same greatest target. -/
def SameEntries (x x' : Extracted) : Prop :=
  latestTarget (x.votes .plain) = latestTarget (x'.votes .plain) ∧
    ∀ r e e', x.Entry r e → x'.Entry r e' → e = e'

variable {x}

variable (o : EpochOrder)

theorem mem_votes {vote : Epoch × HistoryData} :
    vote ∈ x.votes o ↔ ∃ source ∈ x.targetEpochsBySource.keys, vote ∈ x.votesOf source := by
  rw [votes, mem_flatMap]
  simp only [(o.perm _).mem_iff]

theorem unwritten_votes (r : ℕ) : unwritten (x.votes o) r = unwritten (x.votes .plain) r := by
  have hlater : (∃ vote ∈ x.votes o, r < position vote.1) ↔
      ∃ vote ∈ x.votes .plain, r < position vote.1 := by
    simp only [mem_votes]
  rw [unwritten, unwritten]
  exact if_congr Iff.rfl rfl (if_congr hlater rfl rfl)

theorem lastVote_votes (r : ℕ) :
    lastVote (x.votes o) r =
      (o.order x.targetEpochsBySource.keys).reverse.findSome? fun source =>
        lastVote (x.votesOf source) r := by
  rw [lastVote, votes, reverse_flatMap, find?_flatMap, map_findSome?]
  rfl

theorem entry_of_order (r : ℕ) : x.Entry r (builtCells 0 (x.votes o))[r]? := by
  rw [getElem?_builtCells, unwritten_votes, lastVote_votes]
  cases hlast : (o.order x.targetEpochsBySource.keys).reverse.findSome? fun source =>
      lastVote (x.votesOf source) r with
  | some d =>
    obtain ⟨source, hsource, hd⟩ := exists_of_findSome?_eq_some hlast
    rw [mem_reverse, (o.perm _).mem_iff] at hsource
    exact .inl ⟨d, ⟨source, hsource, hd⟩, rfl⟩
  | none =>
    refine .inr ⟨?_, rfl⟩
    rintro ⟨d, source, hsource, hd⟩
    have hnone := findSome?_eq_none_iff.mp hlast source
      (mem_reverse.mpr ((o.perm _).mem_iff.mpr hsource))
    rw [hd] at hnone
    cases hnone

theorem Entry.exists_order {r : ℕ} {e : Option HistoryData} (h : x.Entry r e) :
    ∃ o, (builtCells 0 (x.votes o))[r]? = e := by
  rcases h with ⟨d, ⟨source, hsource, hd⟩, rfl⟩ | ⟨hnot, rfl⟩
  · refine ⟨.last source, ?_⟩
    rw [getElem?_builtCells, lastVote_votes]
    have horder : (EpochOrder.last source).order x.targetEpochsBySource.keys =
        x.targetEpochsBySource.keys.erase source ++ [source] := if_pos hsource
    rw [horder, List.reverse_append, reverse_singleton, singleton_append, findSome?_cons, hd]
    rfl
  · refine ⟨.plain, ?_⟩
    rcases x.entry_of_order .plain r with ⟨d, hd, -⟩ | ⟨-, heq⟩
    · exact (hnot ⟨d, hd⟩).elim
    · exact heq

theorem latestTarget_votes : latestTarget (x.votes o) = latestTarget (x.votes .plain) := by
  have hle : ∀ o o' : EpochOrder,
      (latestTarget (x.votes o)).toNat ≤ (latestTarget (x.votes o')).toNat := by
    intro o o'
    rcases (latestTarget_spec (x.votes o)).2 with hzero | ⟨vote, hvote, heq⟩
    · omega
    · rw [← heq]
      exact (latestTarget_spec (x.votes o')).1 vote ((mem_votes o').mpr ((mem_votes o).mp hvote))
  exact eq_of_toNat_eq (Nat.le_antisymm (hle o .plain) (hle .plain o))

/-- Two pairs of maps give the same history in every order exactly if their entries are the same. -/
theorem buildHistory_eq_iff_sameEntries {x x' : Extracted} :
    (∀ o o', buildHistory 0 (x.votes o) = buildHistory 0 (x'.votes o')) ↔ SameEntries x x' := by
  simp only [buildHistory_eq_iff, latestTarget_votes]
  constructor
  · intro h
    refine ⟨(h .plain .plain).1, fun r e e' he he' => ?_⟩
    obtain ⟨o, rfl⟩ := he.exists_order
    obtain ⟨o', rfl⟩ := he'.exists_order
    rw [(h o o').2]
  · rintro ⟨hlatest, hentries⟩ o o'
    exact ⟨hlatest, ext_getElem? fun r =>
      hentries r _ _ (x.entry_of_order o r) (x'.entry_of_order o' r)⟩

end Extracted

/-- Two databases agree on the buckets of a public key: the downgrade writes the same history for it
exactly if the maps that are extracted from all public keys have the same entries. -/
theorem downgraded_eq_iff (db db' : DB) (k : PubKey) (b : PkBucket) (hdb : NewFormat db)
    (hdb' : NewFormat db') (hk : db.pubKeys[k]? = some b) (hk' : db'.pubKeys[k]? = some b) :
    ∃ x x', extract db = .ok x ∧ extract db' = .ok x' ∧
      ((∀ o o', ∃ history, downgraded o db k = some history ∧
        downgraded o' db' k = some history) ↔ Extracted.SameEntries x x') := by
  obtain ⟨x, hx⟩ := extract_ok hdb
  obtain ⟨x', hx'⟩ := extract_ok hdb'
  refine ⟨x, x', hx, hx', ?_⟩
  rw [← Extracted.buildHistory_eq_iff_sameEntries]
  have hwritten := downgraded_eq hx (k := k) (by rw [hk]; exact some_ne_none b)
  have hwritten' := downgraded_eq hx' (k := k) (by rw [hk']; exact some_ne_none b)
  constructor
  · intro h o o'
    obtain ⟨history, hhistory, hhistory'⟩ := h (fun _ => o) (fun _ => o')
    obtain ⟨dh, hdh, -⟩ := buildHistory_represents 0 (x.votes o)
    obtain ⟨dh', hdh', -⟩ := buildHistory_represents 0 (x'.votes o')
    rw [hwritten, hdh] at hhistory
    rw [hwritten', hdh'] at hhistory'
    rw [hdh, hdh', some.inj hhistory, some.inj hhistory']
  · intro h o o'
    obtain ⟨dh, hdh, -⟩ := buildHistory_represents 0 (x.votes (o k))
    refine ⟨dh, ?_, ?_⟩
    · rw [hwritten, hdh]
      rfl
    · rw [hwritten', ← h (o k) (o' k), hdh]
      rfl

/-- A database with a vote of the public key 7, and with one of the public key 8 as well. -/
def oneVoter : DB := DB.empty.saveAttestationRecord ⟨7, 0, 1, 5⟩

def twoVoters : DB := oneVoter.saveAttestationRecord ⟨8, 1, 2, 6⟩

theorem sane_oneVoter : Sane oneVoter := (sane_opened []).save ⟨7, 0, 1, 5⟩

theorem getElem?_oneVoter : oneVoter.pubKeys[(7 : PubKey)]? =
    some ((PkBucket.created none).save ⟨7, 0, 1, 5⟩) := by
  rw [oneVoter, getElem?_pubKeys_save, if_pos rfl]
  rfl

theorem getElem?_twoVoters :
    twoVoters.pubKeys[(7 : PubKey)]? = oneVoter.pubKeys[(7 : PubKey)]? := by
  rw [twoVoters, getElem?_pubKeys_save, if_neg (by decide +kernel)]

theorem downgraded_eq_iff_two_voters :
    ∃ x x', extract oneVoter = .ok x ∧ extract twoVoters = .ok x' ∧
      ((∀ o o', ∃ history, downgraded o oneVoter 7 = some history ∧
        downgraded o' twoVoters 7 = some history) ↔ Extracted.SameEntries x x') :=
  downgraded_eq_iff oneVoter twoVoters 7 _ sane_oneVoter.newFormat
    (sane_oneVoter.save ⟨8, 1, 2, 6⟩).newFormat getElem?_oneVoter
    (getElem?_twoVoters.trans getElem?_oneVoter)

/-- The vote of the second public key is written into the history of the first one. -/
theorem downgrade_mixes_keys :
    oneVoter.pubKeys[(7 : PubKey)]? = twoVoters.pubKeys[(7 : PubKey)]? ∧
      downgraded (fun _ => .plain) oneVoter 7 ≠ downgraded (fun _ => .plain) twoVoters 7 := by
  refine ⟨getElem?_twoVoters.symm, ?_⟩
  decide +kernel

end Vanguard.Validator
