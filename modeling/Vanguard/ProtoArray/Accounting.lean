import Vanguard.ProtoArray.Weights

/-!
Vote accounting over whole runs.

`Accounted` is the invariant that carries the account from call to call: the
weight of a node is the sum of the balances, as of the last `Head`, of the
validators whose vote was then counted for it. Calls of `Head` replace votes
and balances by the current ones and adjust every weight by the difference.
-/

namespace Vanguard.ProtoArray

open Forest Run List Finset

namespace Store

variable {s : Store} {vote : ℕ → Root} {balances : List Gwei} {i : ℕ}

open Classical in
/-- The sum of the balances whose vote counts for the node at `i`. -/
noncomputable def support (s : Store) (vote : ℕ → Root) (balances : List Gwei) (i : ℕ) : ℕ :=
  ∑ v ∈ Finset.range balances.length,
    if s.CountsFor (vote v) i then (balanceAt balances v).toNat else 0

open Classical in
theorem support_congr {s' : Store} {vote' : ℕ → Root} {i' : ℕ}
    (h : ∀ v, s'.CountsFor (vote' v) i' ↔ s.CountsFor (vote v) i) :
    s'.support vote' balances i' = s.support vote balances i := by
  apply sum_congr rfl
  intro v _
  exact if_congr (h v) rfl rfl

theorem WellFormed.countsFor_inserted (h : s.WellFormed) {n : Node} {r : Root} (hr : r ≠ n.root) :
    (s.inserted n).CountsFor r i ↔ s.CountsFor r i := by
  have hcounts : (s.inserted n).CountsFor = (s.append n).CountsFor :=
    countsFor_congr rfl (carriesTo_relink _ _)
  rw [hcounts]
  exact h.countsFor_append hr

theorem weightAt_inserted (s : Store) (n : Node) (i : ℕ) :
    (s.inserted n).weightAt i = if i = s.nodes.length then n.weight else s.weightAt i := by
  rw [inserted, weightAt_relink]
  split
  · rename_i hi
    simp [hi, weightAt]
  · exact weightAt_append_of_ne ‹_›

theorem rootAt_inserted (s : Store) (n : Node) (i : ℕ) :
    (s.inserted n).rootAt i = if i = s.nodes.length then some n.root else s.rootAt i := by
  rw [inserted, rootAt_relink]
  split
  · rename_i hi
    simp [hi, rootAt]
  · exact rootAt_append_of_ne ‹_›

theorem support_le (s : Store) (vote : ℕ → Root) (balances : List Gwei) (i : ℕ) :
    s.support vote balances i ≤ totalBalance balances := by
  rw [← sum_balanceAt]
  apply Finset.sum_le_sum
  intro v _
  split
  · exact le_rfl
  · exact Nat.zero_le _

theorem dvd_support {e : ℕ} (h : ExactBalances e balances) (vote : ℕ → Root) (i : ℕ) :
    2 ^ e ∣ s.support vote balances i := by
  apply Finset.dvd_sum
  intro v _
  split
  · exact h.dvd_balanceAt v
  · exact dvd_zero _

theorem support_eq_zero (h : ∀ v, ¬ s.CountsFor (vote v) i) : s.support vote balances i = 0 := by
  simp [support, h]

open Classical in
theorem WellFormed.sum_counts (h : s.WellFormed) {n : ℕ} (hvote : ∀ v, n ≤ v → vote v = zeroHash)
    (balances : List Gwei) (hi : s.rootAt i ≠ some zeroHash) :
    (∑ v ∈ Finset.range n, if s.CountsFor (vote v) i then balanceAt balances v else 0) =
      BitVec.ofNat 64 (s.support vote balances i) := by
  have hcast : BitVec.ofNat 64 (s.support vote balances i) =
      ∑ v ∈ Finset.range balances.length,
        if s.CountsFor (vote v) i then balanceAt balances v else 0 := by
    rw [support, ← BitVec.natCast_eq_ofNat, Nat.cast_sum]
    apply sum_congr rfl
    intro v _
    split <;> simp
  -- both sums are the one over all validators that have a vote or a balance
  have hextend : ∀ k ≤ n + balances.length, (∀ v, k ≤ v →
      (if s.CountsFor (vote v) i then balanceAt balances v else 0) = 0) →
      (∑ v ∈ Finset.range k, if s.CountsFor (vote v) i then balanceAt balances v else 0) =
        ∑ v ∈ Finset.range (n + balances.length),
          if s.CountsFor (vote v) i then balanceAt balances v else 0 := by
    intro k hle hk
    apply sum_subset (range_mono hle)
    intro v _ hv
    exact hk v (by simpa using hv)
  rw [hcast, hextend n (by omega), hextend balances.length (by omega)]
  · intro v hv
    rw [balanceAt_of_length_le hv, ite_self]
  · intro v hv
    rw [hvote v hv, if_neg (h.not_countsFor_zeroHash hi)]

end Store

/-! ### Votes -/

variable {r : Root}

namespace ForkChoice

variable {f : ForkChoice} (votes : List Vote)

/-- The vote of a validator; fresh if it has none. -/
def voteAt (f : ForkChoice) (v : ℕ) : Vote := f.votes.getD v Vote.fresh

theorem getD_growVotes (index v : ℕ) :
    (growVotes votes index).getD v Vote.fresh = votes.getD v Vote.fresh := by
  by_cases hv : v < votes.length
  · rw [growVotes, getD_append _ _ _ _ hv]
  · rw [growVotes, getD_append_right _ _ _ _ (Nat.le_of_not_lt hv),
      getD_eq_default votes _ (Nat.le_of_not_lt hv)]
    simp [getD_eq_getElem?_getD, getElem?_replicate]
    split <;> rfl

theorem updateVote_idem (r : Root) (target : Epoch) (vote : Vote) :
    updateVote r target (updateVote r target vote) = updateVote r target vote := by
  by_cases h : (vote.nextRoot = zeroHash ∧ vote.currentRoot = zeroHash) ∨ vote.nextEpoch < target
  · have hupdate : updateVote r target vote =
        { vote with nextEpoch := target, nextRoot := r } := if_pos h
    rw [hupdate]
    exact ite_self _
  · have hkeep : updateVote r target vote = vote := if_neg h
    rw [hkeep, hkeep]

theorem getD_recordVotes (vs : List ℕ) (r : Root) (target : Epoch) (votes : List Vote) (v : ℕ) :
    (recordVotes vs r target votes).getD v Vote.fresh =
      if v ∈ vs then updateVote r target (votes.getD v Vote.fresh)
      else votes.getD v Vote.fresh := by
  unfold recordVotes
  induction vs generalizing votes with
  | nil => simp
  | cons index vs ih =>
    have hlen : index < (growVotes votes index).length := by
      simp only [growVotes, length_append, length_replicate]
      omega
    have hone : ((growVotes votes index).modify index (updateVote r target)).getD v Vote.fresh =
        if v = index then updateVote r target (votes.getD v Vote.fresh)
        else votes.getD v Vote.fresh := by
      rw [← getD_growVotes votes index v, getD_eq_getElem?_getD, getElem?_modify]
      by_cases hv : v = index
      · subst hv
        simp [hlen]
      · simp [hv, Ne.symm hv]
    rw [foldl_cons, ih, hone]
    by_cases hv : v = index
    · simp [hv, updateVote_idem]
    · simp [hv]

theorem voteAt_processAttestation (f : ForkChoice) (vs : List ℕ) (r : Root) (target : Epoch)
    (v : ℕ) : (f.step (.processAttestation vs r target)).voteAt v =
      if v ∈ vs then updateVote r target (f.voteAt v) else f.voteAt v :=
  getD_recordVotes vs r target f.votes v

theorem voteAt_rotate (v : ℕ) :
    (votes.map Vote.rotate).getD v Vote.fresh = (votes.getD v Vote.fresh).rotate := by
  rw [getD_eq_getElem?_getD, getD_eq_getElem?_getD, getElem?_map]
  cases votes[v]? <;> rfl

theorem voteAt_processBlock (h : f.store.WellFormed) (slot : Slot) (b p g : Root) (je fe : Epoch)
    (v : ℕ) : (f.step (.processBlock slot b p g je fe)).voteAt v = f.voteAt v := by
  rw [step_processBlock h]
  rfl

theorem voteAt_prune (h : f.store.WellFormed) (r : Root) (v : ℕ) :
    (f.step (.prune r)).voteAt v = f.voteAt v := by
  rw [step_prune h]
  rfl

theorem voteAt_head (h : f.store.WellFormed) (ctx : Ctx) (je : Epoch) (r : Root)
    (balances : List Gwei) (fe : Epoch) (v : ℕ) :
    (f.step (.head ctx je r balances fe)).voteAt v = (f.voteAt v).rotate := by
  obtain ⟨m, hm⟩ := step_head h ctx je r balances fe
  rw [hm]
  exact voteAt_rotate f.votes v

theorem updateVote_cases (r : Root) (target : Epoch) (vote : Vote) :
    updateVote r target vote = vote ∨
      updateVote r target vote = { vote with nextEpoch := target, nextRoot := r } := by
  unfold updateVote
  dsimp only
  split
  · exact Or.inr rfl
  · exact Or.inl rfl

/-- The delta of a node is the difference between what counts for it now and
what was counted for it before. -/
theorem netDelta_eq_support (h : f.store.WellFormed) (balances : List Gwei) {i : ℕ}
    (hi : i < f.store.nodes.length) (hz : f.store.rootAt i ≠ some zeroHash) :
    f.netDelta balances i =
      BitVec.ofNat 64 (f.store.support (fun v => (f.voteAt v).nextRoot) balances i) -
        BitVec.ofNat 64 (f.store.support (fun v => (f.voteAt v).currentRoot) f.balances i) := by
  classical
  have hfresh : ∀ v, f.votes.length ≤ v → f.voteAt v = Vote.fresh :=
    fun v hv => getD_eq_default _ _ hv
  rw [netDelta_eq h balances hi hz, sum_sub_distrib,
    ← h.sum_counts (n := f.votes.length) (fun v hv => by rw [hfresh v hv]; rfl) balances hz,
    ← h.sum_counts (n := f.votes.length) (fun v hv => by rw [hfresh v hv]; rfl) f.balances hz]
  rfl

theorem adjustWeight_support {e : ℕ} {old new : List Gwei} (hold : ExactBalances e old)
    (hnew : ExactBalances e new) (s : Store) (vote vote' : ℕ → Root) (i : ℕ) :
    Store.adjustWeight (BitVec.ofNat 64 (s.support vote old i))
        (BitVec.ofNat 64 (s.support vote' new i) - BitVec.ofNat 64 (s.support vote old i)) =
      BitVec.ofNat 64 (s.support vote' new i) :=
  Store.adjustWeight_exact (Store.dvd_support hold vote i) (Store.dvd_support hnew vote' i)
    ((s.support_le vote old i).trans hold.total_le)
    ((s.support_le vote old i).trans_lt hold.total_lt)
    ((s.support_le vote' new i).trans_lt hnew.total_lt)

/-- Votes are for known roots, and each node weighs what was last counted for
it. The unit `2 ^ e` keeps the arithmetic exact. -/
structure Accounted (e : ℕ) (known : Root → Prop) (f : ForkChoice) : Prop where
  wellFormed : f.store.WellFormed
  balances : ExactBalances e f.balances
  next : ∀ v, (f.voteAt v).nextRoot = zeroHash ∨ known (f.voteAt v).nextRoot
  current : ∀ v, (f.voteAt v).currentRoot = zeroHash ∨ known (f.voteAt v).currentRoot
  fresh : ∀ v, (f.voteAt v).nextRoot = zeroHash → (f.voteAt v).currentRoot = zeroHash
  weights : ∀ i, f.store.weightAt i =
    if f.store.rootAt i = some zeroHash then 0
    else BitVec.ofNat 64 (f.store.support (fun v => (f.voteAt v).currentRoot) f.balances i)

namespace Accounted

variable {e : ℕ} {known : Root → Prop}

theorem mono (h : Accounted e known f) {known' : Root → Prop} (hk : ∀ r, known r → known' r) :
    Accounted e known' f :=
  { h with
    next := fun v => (h.next v).imp_right (hk _)
    current := fun v => (h.current v).imp_right (hk _) }

theorem new (je fe : Epoch) (r : Root) : Accounted e known (ForkChoice.new je fe r) where
  wellFormed := new_wellFormed je fe r
  balances := ExactBalances.nil e
  next v := Or.inl (by simp [voteAt, ForkChoice.new, Vote.fresh])
  current v := Or.inl (by simp [voteAt, ForkChoice.new, Vote.fresh])
  fresh v _ := by simp [voteAt, ForkChoice.new, Vote.fresh]
  weights i := by simp [Store.weightAt, ForkChoice.new, Store.support, Store.rootAt]

section

variable (h : Accounted e known f)

include h

theorem processAttestation (vs : List ℕ) (hr : r ≠ zeroHash) (hk : known r) (target : Epoch) :
    Accounted e known (f.step (.processAttestation vs r target)) := by
  have hcases : ∀ v, (f.step (.processAttestation vs r target)).voteAt v = f.voteAt v ∨
      (f.step (.processAttestation vs r target)).voteAt v =
        { f.voteAt v with nextEpoch := target, nextRoot := r } := by
    intro v
    rw [voteAt_processAttestation]
    split
    · exact updateVote_cases r target _
    · exact Or.inl rfl
  have hcurrent : ∀ v, ((f.step (.processAttestation vs r target)).voteAt v).currentRoot =
      (f.voteAt v).currentRoot := by
    intro v
    rcases hcases v with hv | hv <;> rw [hv]
  constructor
  · exact h.wellFormed
  · exact h.balances
  · intro v
    rcases hcases v with hv | hv <;> rw [hv]
    · exact h.next v
    · exact Or.inr hk
  · intro v
    rw [hcurrent]
    exact h.current v
  · intro v hv
    rw [hcurrent]
    rcases hcases v with heq | heq <;> rw [heq] at hv
    · exact h.fresh v hv
    · exact absurd hv hr
  · intro i
    simp only [hcurrent]
    exact h.weights i

theorem prune (r : Root) : Accounted e known (f.step (.prune r)) := by
  have hwf := step_wellFormed h.wellFormed (.prune r)
  rw [step_prune h.wellFormed] at hwf ⊢
  refine ⟨hwf, h.balances, h.next, h.current, h.fresh, ?_⟩
  unfold prunedAt
  intro i
  split
  · exact h.weights i
  · split
    · exact h.weights i
    · rename_i k hk _
      have hcut := h.wellFormed.cutFrom_pruned (h.wellFormed.lt_length_of_nodesIndices hk).le
      have hsupport : (f.store.pruned k).support (fun v => (f.voteAt v).currentRoot) f.balances i =
          f.store.support (fun v => (f.voteAt v).currentRoot) f.balances (i + k) :=
        Store.support_congr fun v => hcut.countsFor h.wellFormed (h.wellFormed.pruned k)
      rw [Store.weightAt_pruned, Store.rootAt_pruned, h.weights, ← hsupport]
      rfl

theorem processBlock (slot : Slot) {b : Root} (p g : Root)
    (je fe : Epoch) (hnew : f.store.nodesIndices.contains b = false → ¬ known b) :
    Accounted e known (f.step (.processBlock slot b p g je fe)) := by
  have hwf := step_wellFormed h.wellFormed (.processBlock slot b p g je fe)
  rw [step_processBlock h.wellFormed] at hwf ⊢
  refine ⟨hwf, h.balances, h.next, h.current, h.fresh, ?_⟩
  cases hb : f.store.nodesIndices.contains b with
  | true => simpa using h.weights
  | false =>
    intro i
    let n := f.store.newNode slot b p g je fe
    have hsupport : (f.store.inserted n).rootAt i ≠ some zeroHash →
        (f.store.inserted n).support (fun v => (f.voteAt v).currentRoot) f.balances i =
          f.store.support (fun v => (f.voteAt v).currentRoot) f.balances i := by
      intro hroot
      apply Store.support_congr
      intro v
      by_cases hcur : (f.voteAt v).currentRoot = b
      · -- only the zero hash can be voted for without being known
        have hzero : (f.voteAt v).currentRoot = zeroHash :=
          (h.current v).resolve_right fun hk => hnew hb (hcur ▸ hk)
        have hnone := TreeMap.contains_eq_false_iff.mp hb
        have hold : ¬ f.store.CountsFor b i := by simp [Store.CountsFor, hnone]
        refine iff_of_false ?_ (hcur ▸ hold)
        rw [hb] at hwf
        rw [hzero]
        exact hwf.not_countsFor_zeroHash hroot
      · exact h.wellFormed.countsFor_inserted hcur
    change (f.store.inserted n).weightAt i =
      if (f.store.inserted n).rootAt i = some zeroHash then 0 else BitVec.ofNat 64
        ((f.store.inserted n).support (fun v => (f.voteAt v).currentRoot) f.balances i)
    by_cases hi : i = f.store.nodes.length
    · have hzero : f.store.support (fun v => (f.voteAt v).currentRoot) f.balances i = 0 :=
        Store.support_eq_zero fun v hv =>
          absurd (h.wellFormed.lt_length_of_countsFor hv) (by omega)
      rw [Store.weightAt_inserted, if_pos hi]
      split
      · rfl
      · rw [hsupport ‹_›, hzero]
        rfl
    · rw [Store.rootAt_inserted, if_neg hi] at hsupport ⊢
      rw [Store.weightAt_inserted, if_neg hi, h.weights i]
      split
      · rfl
      · rw [hsupport ‹_›]

/-- `Head` counts the latest votes with the new balances. -/
theorem weightAt_headed {balances : List Gwei}
    (hb : ExactBalances e balances) (je fe : Epoch) (i : ℕ) :
    (f.headed je fe balances).store.weightAt i =
      if f.store.rootAt i = some zeroHash then 0
      else BitVec.ofNat 64 (f.store.support (fun v => (f.voteAt v).nextRoot) balances i) := by
  by_cases hi : i < f.store.nodes.length
  · rw [ForkChoice.weightAt_headed f je fe balances hi, h.weights i]
    split
    · rfl
    · rename_i hroot
      rw [netDelta_eq_support h.wellFormed balances hi hroot]
      exact adjustWeight_support h.balances hb f.store _ _ i
  · have hnone : f.store.nodes[i]? = none := getElem?_eq_none (by omega)
    have hnone' : (f.headed je fe balances).store.nodes[i]? = none := by
      rw [List.getElem?_eq_none_iff, length_headed]
      omega
    rw [Store.support_eq_zero fun v hv => hi (h.wellFormed.lt_length_of_countsFor hv)]
    simp [Store.weightAt, Store.rootAt, hnone, hnone']

end

theorem head (h : Accounted e known f) (ctx : Ctx) (je : Epoch) (r : Root) {balances : List Gwei}
    (hb : ExactBalances e balances) (fe : Epoch) :
    Accounted e known (f.step (.head ctx je r balances fe)) := by
  have hvote := voteAt_head h.wellFormed ctx je r balances fe
  have hwf := step_wellFormed h.wellFormed (.head ctx je r balances fe)
  obtain ⟨m, hm⟩ := step_head h.wellFormed ctx je r balances fe
  rw [hm] at hwf hvote ⊢
  refine ⟨hwf, hb, ?_, ?_, ?_, ?_⟩
  · intro v
    rw [hvote]
    exact h.next v
  · intro v
    rw [hvote]
    exact h.next v
  · intro v hv
    rw [hvote] at hv ⊢
    exact hv
  · intro i
    simp only [hvote, Vote.rotate]
    change (f.headed je fe balances).store.weightAt i =
      if (f.headed je fe balances).store.rootAt i = some zeroHash then 0 else BitVec.ofNat 64
        ((f.headed je fe balances).store.support (fun v => (f.voteAt v).nextRoot) balances i)
    have hsupport : (f.headed je fe balances).store.support (fun v => (f.voteAt v).nextRoot)
        balances i = f.store.support (fun v => (f.voteAt v).nextRoot) balances i :=
      Store.support_congr fun v => by rw [countsFor_headed]
    rw [hsupport, rootAt_headed]
    exact h.weightAt_headed hb je fe i

end Accounted

end ForkChoice

/-! ### Latest votes -/

def Op.blockRoot? : Op → Option Root
  | .processBlock _ root _ _ _ _ => some root
  | _ => none

/-- What a call says about the vote of a validator: root and target epoch. -/
def Op.messages (v : ℕ) : Op → List (Root × Epoch)
  | .processAttestation vs root target => if v ∈ vs then [(root, target)] else []
  | _ => []

/-- The first message of a validator with the highest target epoch. -/
def latestMessage (past : List Op) (v : ℕ) : Option (Root × Epoch) :=
  (past.flatMap (Op.messages v)).argmax fun m => m.2.toNat

def latestVote (past : List Op) (v : ℕ) : Option Root := (latestMessage past v).map Prod.fst

variable {op : Op}

theorem latestMessage_of_silent {past : List Op} {v : ℕ} (h : op.messages v = []) :
    latestMessage (past ++ [op]) v = latestMessage past v := by
  simp [latestMessage, h]

theorem latestMessage_attestation (past : List Op) {vs : List ℕ} (r : Root) (target : Epoch) {v : ℕ}
    (hv : v ∈ vs) :
    latestMessage (past ++ [.processAttestation vs r target]) v =
      match latestMessage past v with
      | none => some (r, target)
      | some m => if m.2 < target then some (r, target) else some m := by
  simp only [latestMessage, flatMap_append, flatMap_singleton, Op.messages, if_pos hv,
    argmax_concat, BitVec.lt_def]
  cases argmax (fun m : Root × Epoch => m.2.toNat) (past.flatMap (Op.messages v)) <;> rfl

namespace ForkChoice

variable {f : ForkChoice} {past : List Op}

/-- The stored next votes are the latest votes of the history. -/
def Tracks (f : ForkChoice) (past : List Op) : Prop :=
  ∀ v, match latestMessage past v with
    | none => f.voteAt v = Vote.fresh
    | some m => m.1 ≠ zeroHash ∧ (f.voteAt v).nextRoot = m.1 ∧ (f.voteAt v).nextEpoch = m.2

theorem Tracks.of_silent (h : f.Tracks past) {f' : ForkChoice}
    (hop : ∀ v, op.messages v = [])
    (hvote : ∀ v, f'.voteAt v = f.voteAt v ∨ f'.voteAt v = (f.voteAt v).rotate) :
    f'.Tracks (past ++ [op]) := by
  intro v
  have hv := h v
  rw [latestMessage_of_silent (hop v)]
  cases hm : latestMessage past v with
  | none =>
    rw [hm] at hv
    dsimp only at hv ⊢
    rcases hvote v with heq | heq <;> rw [heq, hv]
    rfl
  | some m =>
    rw [hm] at hv
    dsimp only at hv ⊢
    rcases hvote v with heq | heq <;> rw [heq]
    · exact hv
    · exact hv

theorem Tracks.processAttestation (h : f.Tracks past) (vs : List ℕ) (hr : r ≠ zeroHash)
    (target : Epoch) : (f.step (.processAttestation vs r target)).Tracks
      (past ++ [.processAttestation vs r target]) := by
  intro v
  have hv := h v
  rw [voteAt_processAttestation]
  by_cases hmem : v ∈ vs
  · rw [if_pos hmem, latestMessage_attestation past r target hmem]
    cases hm : latestMessage past v with
    | none =>
      rw [hm] at hv
      dsimp only at hv ⊢
      rw [hv]
      exact ⟨hr, rfl, rfl⟩
    | some m =>
      rw [hm] at hv
      obtain ⟨hne, hroot, hepoch⟩ := hv
      have hold : (f.voteAt v).nextRoot ≠ zeroHash := hroot ▸ hne
      simp only [updateVote, hold, false_and, false_or, hepoch]
      by_cases hlt : m.2 < target
      · simp [hlt, hr]
      · simp only [if_neg hlt]
        exact ⟨hne, hroot, hepoch⟩
  · rw [if_neg hmem, latestMessage_of_silent (by simp [Op.messages, hmem])]
    exact hv

/-! ### Runs -/

/-- No block has the zero hash as its root or was pruned before, votes are for
blocks in the store, and balances are effective balances: multiples of one
billion, less than `2 ^ 62` in total. -/
def VotesRespected (x : ForkChoice × List Op) : Op → Prop
  | .processBlock _ root _ _ _ _ => root ≠ zeroHash ∧
      (x.1.hasNode root = false → ∀ op ∈ x.2, op.blockRoot? ≠ some root)
  | .processAttestation _ root _ => x.1.hasNode root = true
  | .prune _ => True
  | .head _ _ _ balances _ =>
    (∀ b ∈ balances.map BitVec.toNat, b % 10 ^ 9 = 0) ∧ totalBalance balances < 2 ^ 62

instance (x : ForkChoice × List Op) (op : Op) : Decidable (VotesRespected x op) :=
  match op with
  | .processBlock .. | .processAttestation .. | .prune .. | .head .. => by
    unfold VotesRespected
    infer_instance

theorem exactBalances_of_effective {balances : List Gwei}
    (hunit : ∀ b ∈ balances.map BitVec.toNat, b % 10 ^ 9 = 0)
    (htotal : totalBalance balances < 2 ^ 62) : ExactBalances 9 balances where
  dvd b hb := (show 2 ^ 9 ∣ 10 ^ 9 by norm_num).trans
    (Nat.dvd_of_mod_eq_zero (hunit _ (List.mem_map_of_mem hb)))
  total_le := by omega
  total_lt := by omega

/-- The blocks that were inserted, now or before. -/
def Inserted (past : List Op) (r : Root) : Prop := ∃ op ∈ past, op.blockRoot? = some r

theorem Inserted.append (h : Inserted past r) (op : Op) : Inserted (past ++ [op]) r := by
  obtain ⟨op', hmem, hr⟩ := h
  exact ⟨op', mem_append_left _ hmem, hr⟩

/-- The invariant of runs that respect votes. -/
structure Ledgered (x : ForkChoice × List Op) : Prop where
  accounted : Accounted 9 (Inserted x.2) x.1
  tracks : x.1.Tracks x.2
  stored : ∀ i r, x.1.store.rootAt i = some r → r ≠ zeroHash ∧ Inserted x.2 r

namespace Ledgered

variable {x : ForkChoice × List Op}

theorem inserted_of_hasNode (h : Ledgered x) (hr : x.1.hasNode r = true) :
    r ≠ zeroHash ∧ Inserted x.2 r := by
  obtain ⟨i, n, hn, rfl⟩ := h.accounted.wellFormed.contains_iff.mp hr
  exact h.stored i n.root (by simp [Store.rootAt, hn])

theorem of_silent (h : Ledgered x) (hop : ∀ v, op.messages v = [])
    (hvote : ∀ v, (x.1.step op).voteAt v = x.1.voteAt v ∨
      (x.1.step op).voteAt v = (x.1.voteAt v).rotate)
    (hacc : Accounted 9 (Inserted x.2) (x.1.step op))
    (hroot : ∀ i r, (x.1.step op).store.rootAt i = some r →
      (∃ j, x.1.store.rootAt j = some r) ∨ r ≠ zeroHash ∧ op.blockRoot? = some r) :
    Ledgered (withHistory step x op) where
  accounted := hacc.mono fun _ hr => hr.append op
  tracks := h.tracks.of_silent hop hvote
  stored := by
    intro i r hr
    rcases hroot i r hr with ⟨j, hj⟩ | ⟨hne, hop⟩
    · obtain ⟨hne, hins⟩ := h.stored j r hj
      exact ⟨hne, hins.append op⟩
    · exact ⟨hne, op, mem_append_right _ (by simp), hop⟩

theorem step (h : Ledgered x) (hok : VotesRespected x op) : Ledgered (withHistory step x op) := by
  have hwf := h.accounted.wellFormed
  cases op with
  | processBlock slot b p g je fe =>
    obtain ⟨hb, hnew⟩ := hok
    refine h.of_silent (fun _ => rfl)
      (fun v => Or.inl (voteAt_processBlock hwf slot b p g je fe v)) ?_ ?_
    · refine h.accounted.processBlock slot p g je fe fun hcontains => ?_
      rintro ⟨op, hop, hr⟩
      exact hnew hcontains op hop hr
    · intro i r hr
      rw [step_processBlock hwf] at hr
      dsimp only at hr
      split at hr
      · exact Or.inl ⟨i, hr⟩
      · rw [Store.rootAt_inserted] at hr
        split at hr
        · obtain rfl := Option.some.inj hr
          exact Or.inr ⟨hb, rfl⟩
        · exact Or.inl ⟨i, hr⟩
  | processAttestation vs r target =>
    obtain ⟨hr, hins⟩ := h.inserted_of_hasNode hok
    have hacc := h.accounted.processAttestation vs hr hins target
    refine ⟨hacc.mono fun _ hr => hr.append _, h.tracks.processAttestation vs hr target, ?_⟩
    intro i r' hr'
    obtain ⟨hne, hins'⟩ := h.stored i r' hr'
    exact ⟨hne, hins'.append _⟩
  | prune r =>
    refine h.of_silent (fun _ => rfl) (fun v => Or.inl (voteAt_prune hwf r v))
      (h.accounted.prune r) ?_
    intro i r' hr'
    rw [step_prune hwf] at hr'
    dsimp only [prunedAt] at hr'
    split at hr'
    · exact Or.inl ⟨i, hr'⟩
    · split at hr'
      · exact Or.inl ⟨i, hr'⟩
      · rw [Store.rootAt_pruned] at hr'
        exact Or.inl ⟨_, hr'⟩
  | head ctx je r balances fe =>
    obtain ⟨m, hm⟩ := step_head hwf ctx je r balances fe
    have hexact := exactBalances_of_effective hok.1 hok.2
    refine h.of_silent (fun _ => rfl) (fun v => Or.inr (voteAt_head hwf ctx je r balances fe v))
      (h.accounted.head ctx je r hexact fe) ?_
    intro i r' hr'
    rw [hm] at hr'
    have hsame : x.1.store.rootAt i = some r' := by
      rw [← rootAt_headed x.1 je fe balances]
      exact hr'
    exact Or.inl ⟨i, hsame⟩

theorem new (je fe : Epoch) (r : Root) : Ledgered (ForkChoice.new je fe r, []) where
  accounted := Accounted.new je fe r
  tracks v := by simp [latestMessage, voteAt, ForkChoice.new]
  stored i r' hr' := by simp [Store.rootAt, ForkChoice.new] at hr'

end Ledgered

theorem Ledgered.countsFor_iff {x : ForkChoice × List Op} (h : Ledgered x) (r : Root) (i : ℕ) :
    x.1.store.CountsFor r i ↔
      ∃ d, x.1.store.nodesIndices[r]? = some d ∧ Below x.1.store.parentOf d i := by
  have hcarry : x.1.store.carriesTo = x.1.store.parentOf := by
    funext j
    exact Store.carriesTo_eq_parentOf fun hj => (h.stored j zeroHash hj).1 rfl
  rw [Store.CountsFor, hcarry]

theorem Tracks.next_eq (h : f.Tracks past) (v : ℕ) :
    (f.voteAt v).nextRoot = (latestVote past v).getD zeroHash := by
  have hv := h v
  unfold latestVote
  cases hm : latestMessage past v with
  | none =>
    rw [hm] at hv
    dsimp only at hv
    rw [hv]
    rfl
  | some m =>
    rw [hm] at hv
    exact hv.2.1

open Classical in
/-- A call of `Head` leaves every node with the sum of the balances of the
validators whose latest vote is for the node or for a descendant of it, and
neither the clamp at zero nor the conversion to `float64` changes a weight. -/
def AccountsExactly (f : ForkChoice) (past : List Op) (ctx : Ctx) (j : Epoch) (r : Root)
    (balances : List Gwei) (fin : Epoch) : Prop :=
  let s := (f.step (.head ctx j r balances fin)).store
  (∀ (i : ℕ) (n : Node), s.nodes[i]? = some n → n.weight.toNat =
    ∑ v ∈ Finset.range balances.length with ∃ r' d, latestVote past v = some r' ∧
      s.nodesIndices[r']? = some d ∧ Below s.parentOf d i, (balanceAt balances v).toNat) ∧
  ∀ i < f.store.nodes.length, Store.adjustWeight (f.store.weightAt i) (f.netDelta balances i) =
    f.store.weightAt i + f.netDelta balances i

open Classical in
/-- Vote accounting is exact in every run from `New` that respects votes,
after each call of `Head`. -/
theorem vote_accounting_exact (je₀ fe₀ : Epoch) (finalizedRoot : Root) (ops : List Op) (ctx : Ctx)
    (j fin : Epoch) (r : Root) (balances : List Gwei)
    (hok : Admits (withHistory step) VotesRespected (ForkChoice.new je₀ fe₀ finalizedRoot, [])
      (ops ++ [.head ctx j r balances fin])) :
    ((ForkChoice.new je₀ fe₀ finalizedRoot).run ops).AccountsExactly ops ctx j r balances fin := by
  obtain ⟨hops, hhead, -⟩ := admits_append.mp hok
  have hrun : ops.foldl (withHistory step) (ForkChoice.new je₀ fe₀ finalizedRoot, []) =
      ((ForkChoice.new je₀ fe₀ finalizedRoot).run ops, ops) := foldl_withHistory _ _ _
  rw [hrun] at hhead
  have hbefore : Ledgered ((ForkChoice.new je₀ fe₀ finalizedRoot).run ops, ops) := by
    rw [← hrun]
    exact invariant (fun _ _ h hop => h.step hop) (Ledgered.new je₀ fe₀ finalizedRoot) hops
  generalize (ForkChoice.new je₀ fe₀ finalizedRoot).run ops = f at hhead hbefore ⊢
  have hexact := exactBalances_of_effective hhead.1 hhead.2
  have hwf := hbefore.accounted.wellFormed
  have hafter : Ledgered (f.step (.head ctx j r balances fin),
      ops ++ [.head ctx j r balances fin]) := hbefore.step hhead
  obtain ⟨m, hm⟩ := step_head hwf ctx j r balances fin
  constructor
  · intro i n hn
    let s := (f.step (.head ctx j r balances fin)).store
    have hweight : n.weight = s.weightAt i := by simp [s, Store.weightAt, hn]
    have hroot : s.rootAt i ≠ some zeroHash := fun hz => (hafter.stored i zeroHash hz).1 rfl
    have hcurrent : ∀ v, ((f.step (.head ctx j r balances fin)).voteAt v).currentRoot =
        (latestVote ops v).getD zeroHash := by
      intro v
      rw [← hbefore.tracks.next_eq, voteAt_head hwf]
      rfl
    have hbalances : (f.step (.head ctx j r balances fin)).balances = balances := by
      rw [hm]
      rfl
    have hsupport := hafter.accounted.weights i
    rw [if_neg hroot, hbalances] at hsupport
    simp only [hcurrent] at hsupport
    have hlt : s.support (fun v => (latestVote ops v).getD zeroHash) balances i < 2 ^ 64 :=
      (s.support_le _ balances i).trans_lt (hexact.total_lt.trans (by norm_num))
    rw [hweight, hsupport, BitVec.toNat_ofNat, Nat.mod_eq_of_lt hlt, Store.support,
      sum_filter]
    apply sum_congr rfl
    intro v _
    apply if_congr _ rfl rfl
    cases hv : latestVote ops v with
    | none => simpa using hafter.accounted.wellFormed.not_countsFor_zeroHash hroot
    | some r' => simpa using hafter.countsFor_iff r' i
  · intro i hi
    have hroot : f.store.rootAt i ≠ some zeroHash := fun hz => (hbefore.stored i zeroHash hz).1 rfl
    rw [netDelta_eq_support hwf balances hi hroot, hbefore.accounted.weights i, if_neg hroot,
      adjustWeight_support hbefore.accounted.balances hexact, add_sub_cancel]

/-- A validator moves its vote from one branch to the other. -/
theorem vote_accounting_exact_at_move :
    ((ForkChoice.new 1 1 0).run
      [.processBlock 0 1 0 0 1 1, .processBlock 1 2 1 0 1 1, .processBlock 1 3 1 0 1 1,
        .processAttestation [0, 1] 2 1, .head .background 1 1 [32000000000, 31000000000] 1,
        .processAttestation [0] 3 2]).AccountsExactly
      [.processBlock 0 1 0 0 1 1, .processBlock 1 2 1 0 1 1, .processBlock 1 3 1 0 1 1,
        .processAttestation [0, 1] 2 1, .head .background 1 1 [32000000000, 31000000000] 1,
        .processAttestation [0] 3 2]
      .background 1 1 [32000000000, 30000000000] 1 :=
  vote_accounting_exact 1 1 0 _ .background 1 1 1 [32000000000, 30000000000] (by decide +kernel)

end ForkChoice

end Vanguard.ProtoArray
