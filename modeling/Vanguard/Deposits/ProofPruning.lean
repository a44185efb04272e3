import Vanguard.Deposits.Cache

/-!
Pruning the proofs of cached deposits.

The scan goes down from the requested index and stops at a deposit without a proof, since those
below it have lost theirs before. That holds as long as no scan is cancelled after it has removed
a proof and before it has come to the end.
-/

namespace Vanguard.Deposits

open List Run

variable {δ : Type}

def DepositContainer.pruned (d : DepositContainer δ) : DepositContainer δ :=
  { d with deposit := { d.deposit with proof := [] } }

/-- The loop of `PruneProofs` over the first `n` deposits, from the last one down, and whether the
context ends it. -/
def pruneLoop (ctx : Ctx) : ℕ → ℕ → List (DepositContainer δ) → List (DepositContainer δ) × Bool
  | 0, _, ds => (ds, false)
  | n + 1, poll, ds =>
    if ctx.err poll then (ds, true)
    else
      match ds[n]? with
      | none => (ds, false)
      | some d =>
        if d.deposit.proof = [] then (ds, false)
        else pruneLoop ctx n (poll + 1) (ds.set n d.pruned)

namespace DepositCache

variable (dc : DepositCache δ)

/-- The number of deposits that `PruneProofs` scans at most. -/
def scanLength (untilDepositIndex : ℤ) : ℕ :=
  ((if dc.deposits.length ≤ untilDepositIndex then (dc.deposits.length : ℤ) - 1
    else untilDepositIndex) + 1).toNat

def pruneProofs (ctx : Ctx) (untilDepositIndex : ℤ) : DepositCache δ × Bool :=
  let (deposits, err) := pruneLoop ctx (dc.scanLength untilDepositIndex) 0 dc.deposits
  ({ dc with deposits }, err)

end DepositCache

inductive ProofOp (δ : Type)
  | insertDeposit (d : Deposit δ) (blockNum : BitVec 64) (index : ℤ) (depositRoot : Root)
  | pruneProofs (ctx : Ctx) (untilDepositIndex : ℤ)
  deriving Repr

/-- One call; a deposit that is refused changes nothing. -/
def proofStep (dc : DepositCache δ) : ProofOp δ → DepositCache δ
  | .insertDeposit d blockNum index depositRoot =>
    match dc.insertDeposit d blockNum index depositRoot with
    | .ok dc' => dc'
    | .error _ => dc
  | .pruneProofs ctx untilDepositIndex => (dc.pruneProofs ctx untilDepositIndex).1

def ProofOp.Carries : ProofOp δ → Prop
  | .insertDeposit d _ _ _ => d.proof ≠ []
  | .pruneProofs _ _ => True

/-- A context that is cancelled at a poll other than the first one finds no proof any more at the
place of that poll. -/
def ProofOp.Uninterrupted (dc : DepositCache δ) : ProofOp δ → Prop
  | .insertDeposit _ _ _ _ => True
  | .pruneProofs ctx untilDepositIndex => ∀ k, ctx.cancelledAt = some k → 0 < k →
      k < dc.scanLength untilDepositIndex →
      ∀ d, dc.deposits[dc.scanLength untilDepositIndex - 1 - k]? = some d → d.deposit.proof = []

/-- A call of `PruneProofs` without an error leaves no proof up to its index. -/
def ProofOp.Complete (dc : DepositCache δ) : ProofOp δ → Prop
  | .insertDeposit _ _ _ _ => True
  | .pruneProofs ctx untilDepositIndex => (dc.pruneProofs ctx untilDepositIndex).2 = false →
      ∀ d ∈ (dc.pruneProofs ctx untilDepositIndex).1.deposits, d.index ≤ untilDepositIndex →
        d.deposit.proof = []

/-! ### The scan -/

/-- The deposits lie at their indices, and those at the places `p` have lost their proofs. -/
def Lost (ds : List (DepositContainer δ)) (p : ℕ → Prop) : Prop :=
  ∀ (i : ℕ) d, ds[i]? = some d → d.index = i ∧ (d.deposit.proof = [] ↔ p i)

section

variable {ds : List (DepositContainer δ)} {p q : ℕ → Prop} {m n t : ℕ}

theorem Lost.congr (h : Lost ds p) (hpq : ∀ i, p i ↔ q i) : Lost ds q := fun i d hd =>
  (h i d hd).imp_right fun hp => hp.trans (hpq i)

theorem Lost.set (h : Lost ds p) {d : DepositContainer δ} (hd : ds[n]? = some d) :
    Lost (ds.set n d.pruned) fun i => p i ∨ i = n := by
  intro i e he
  rcases eq_or_ne n i with rfl | hne
  · rw [getElem?_set_self (List.getElem?_eq_some_iff.mp hd).1] at he
    cases he
    exact ⟨(h n d hd).1, iff_of_true rfl (.inr rfl)⟩
  · rw [getElem?_set_ne hne] at he
    exact (h i e he).imp_right fun hp => hp.trans (by simp [hne.symm])

theorem Lost.append (h : Lost ds (· < t)) (ht : t ≤ ds.length) {c : DepositContainer δ}
    (hindex : c.index = ds.length) (hproof : c.deposit.proof ≠ []) : Lost (ds ++ [c]) (· < t) := by
  intro i d hd
  rcases Nat.lt_trichotomy i ds.length with hlt | rfl | hgt
  · rw [getElem?_append_left hlt] at hd
    exact h i d hd
  · rw [getElem?_concat_length] at hd
    cases hd
    exact ⟨hindex, iff_of_false hproof (by omega)⟩
  · rw [getElem?_eq_none (by simp; omega)] at hd
    cases hd

/-- The scan from `m` down to `n` has removed the proofs between. It goes on to `n'`, where it
meets the context, or a deposit that has lost its proof before. -/
theorem pruneLoop_spec {ctx : Ctx} (hn : n ≤ m) (hctx : ∀ c, ctx.cancelledAt = some c → m - n ≤ c)
    (h : Lost ds fun i => i < t ∨ n ≤ i ∧ i < m) (hm : m ≤ ds.length) :
    ∃ n' ≤ n, Lost (pruneLoop ctx n (m - n) ds).1 (fun i => i < t ∨ n' ≤ i ∧ i < m) ∧
      (pruneLoop ctx n (m - n) ds).1.length = ds.length ∧
      if (pruneLoop ctx n (m - n) ds).2 then 0 < n' ∧ ctx.cancelledAt = some (m - n')
      else n' ≤ t := by
  induction n generalizing ds with
  | zero => exact ⟨0, le_rfl, h, rfl, Nat.zero_le t⟩
  | succ n ih =>
    have hd := getElem?_eq_getElem (show n < ds.length by omega)
    rw [pruneLoop, hd]
    split
    next herr =>
      refine ⟨n + 1, le_rfl, h, rfl, Nat.succ_pos n, ?_⟩
      rw [Ctx.err] at herr
      split at herr
      · cases herr
      next c hc =>
        have hle := hctx c hc
        rw [hc, le_antisymm (of_decide_eq_true herr) hle]
    next herr =>
      dsimp only
      split
      next hproof =>
        have hlost := (h n _ hd).2.mp hproof
        exact ⟨n + 1, le_rfl, h, rfl, show n + 1 ≤ t by omega⟩
      next =>
        rw [show m - (n + 1) + 1 = m - n by omega]
        have hnext : ∀ c, ctx.cancelledAt = some c → m - n ≤ c := by
          intro c hc
          simp only [Ctx.err, hc, decide_eq_true_eq] at herr
          omega
        obtain ⟨n', hle, hlost, hlen, hend⟩ := ih (by omega) hnext
          ((h.set hd).congr fun i => by omega) (by simpa using hm)
        exact ⟨n', by omega, hlost, hlen.trans (length_set ..), hend⟩

end

/-! ### Runs -/

/-- The proofs are lost up to some place, which is not above the indices `R`. -/
def PrunedBelow (R : ℤ → Prop) (ds : List (DepositContainer δ)) : Prop :=
  ∃ t ≤ ds.length, Lost ds (· < t) ∧ ∀ i : ℕ, R i → t ≤ i

section

variable {R : ℤ → Prop} {dc : DepositCache δ}

theorem scanLength_le (untilDepositIndex : ℤ) :
    dc.scanLength untilDepositIndex ≤ dc.deposits.length ∧
      (∀ i : ℕ, untilDepositIndex < i → dc.scanLength untilDepositIndex ≤ i) ∧
      ∀ i : ℕ, i < dc.deposits.length → (i : ℤ) ≤ untilDepositIndex →
        i < dc.scanLength untilDepositIndex := by
  rw [DepositCache.scanLength]
  refine ⟨?_, fun i hi => ?_, fun i hi hle => ?_⟩ <;> split <;> omega

theorem pruneProofs_spec {ctx : Ctx} {u : ℤ} (h : PrunedBelow R dc.deposits)
    (hop : (ProofOp.pruneProofs ctx u).Uninterrupted dc) (hR : ∀ x, R x → u < x) :
    PrunedBelow R (dc.pruneProofs ctx u).1.deposits ∧
      (ProofOp.pruneProofs ctx u).Complete dc := by
  obtain ⟨t, ht, hlost, hkept⟩ := h
  obtain ⟨hlen, hhigh, hlow⟩ := @scanLength_le _ dc u
  obtain ⟨n, hn, hscan, hsame, hend⟩ := @pruneLoop_spec _ _ (dc.scanLength u) _ t ctx le_rfl
    (by simp) (hlost.congr fun i => by omega) hlen
  rw [Nat.sub_self] at hscan hsame hend
  have hall : n ≤ t → Lost (dc.pruneProofs ctx u).1.deposits (· < max t (dc.scanLength u)) :=
    fun hle => hscan.congr fun i => by omega
  have hroom : n ≤ t → PrunedBelow R (dc.pruneProofs ctx u).1.deposits := fun hle =>
    ⟨_, (max_le ht hlen).trans hsame.ge, hall hle, fun i hi =>
      max_le (hkept i hi) (hhigh i (hR i hi))⟩
  split at hend
  next herr =>
    refine ⟨?_, fun hok => absurd (herr.symm.trans hok) (by decide)⟩
    rcases Nat.eq_or_lt_of_le hn with rfl | hlt
    · exact ⟨t, ht.trans hsame.ge, hscan.congr fun i => by omega, hkept⟩
    · have hd := getElem?_eq_getElem (show n - 1 < dc.deposits.length by omega)
      have hnil := hop _ hend.2 (by omega) (by omega) _ (by
        rwa [show dc.scanLength u - 1 - (dc.scanLength u - n) = n - 1 by omega])
      have hbelow := (hlost _ _ hd).2.mp hnil
      exact hroom (by omega)
  next =>
    refine ⟨hroom hend, fun _ d hd hle => ?_⟩
    obtain ⟨i, hi⟩ := mem_iff_getElem?.mp hd
    obtain ⟨hindex, hproof⟩ := hall hend i d hi
    have hlt : i < dc.deposits.length := hsame ▸ (List.getElem?_eq_some_iff.mp hi).1
    exact hproof.mpr (lt_max_of_lt_right (hlow i hlt (hindex ▸ hle)))

theorem PrunedBelow.step (h : PrunedBelow R dc.deposits) {op : ProofOp δ} (hcarries : op.Carries)
    (hop : op.Uninterrupted dc) (hR : ∀ ctx n, op = .pruneProofs ctx n → ∀ x, R x → n < x) :
    PrunedBelow R (proofStep dc op).deposits ∧ op.Complete dc := by
  cases op with
  | insertDeposit d blockNum index depositRoot =>
    refine ⟨?_, trivial⟩
    obtain ⟨t, ht, hlost, hkept⟩ := h
    rw [proofStep, insertDeposit_eq fun i c hc => (hlost i c hc).1]
    split
    next heq =>
      split at heq
      · cases heq
      next hindex =>
        cases heq
        exact ⟨t, ht.trans (by simp), hlost.append ht (not_not.mp hindex) hcarries, hkept⟩
    next => exact ⟨t, ht, hlost, hkept⟩
  | pruneProofs ctx u => exact pruneProofs_spec h hop (hR ctx u rfl)

end

/-- A deposit has lost its proof only if a call has asked for its index, and where no scan is
interrupted, every call that returns no error has removed all proofs up to its index. -/
theorem pruneProofs_complete (hash : Bytes → Root) (ops : List (ProofOp δ))
    (hcarries : ∀ op ∈ ops, op.Carries)
    (hops : Admits proofStep (fun dc op => op.Uninterrupted dc) (.new hash) ops) :
    Admits proofStep (fun dc op => op.Complete dc) (.new hash) ops ∧
      ∀ d ∈ (ops.foldl proofStep (.new hash)).deposits,
        (∀ ctx n, .pruneProofs ctx n ∈ ops → n < d.index) → d.deposit.proof ≠ [] := by
  let R : ℤ → Prop := fun x => ∀ ctx n, .pruneProofs ctx n ∈ ops → n < x
  have hok : Admits proofStep (fun dc op => op.Uninterrupted dc ∧ op.Carries ∧
      ∀ ctx n, op = .pruneProofs ctx n → ∀ x, R x → n < x) (.new hash) ops :=
    admits_and.mpr ⟨hops, admits_of_forall fun op hop => ⟨hcarries op hop,
      fun ctx n heq x hx => hx ctx n (heq ▸ hop)⟩⟩
  have hstart : PrunedBelow R (DepositCache.new hash : DepositCache δ).deposits :=
    ⟨0, le_rfl, by simp [Lost, DepositCache.new], fun _ _ => Nat.zero_le _⟩
  have hstep : ∀ (dc : DepositCache δ) op, PrunedBelow R dc.deposits →
      (op.Uninterrupted dc ∧ op.Carries ∧ ∀ ctx n, op = .pruneProofs ctx n → ∀ x, R x → n < x) →
      PrunedBelow R (proofStep dc op).deposits ∧ op.Complete dc :=
    fun dc op h hop => h.step hop.2.1 hop.1 hop.2.2
  refine ⟨admits_of_invariant hstep hstart hok, fun d hd hR => ?_⟩
  obtain ⟨t, -, hlost, hkept⟩ := invariant (fun dc op h hop => (hstep dc op h hop).1) hstart hok
  obtain ⟨i, hi⟩ := mem_iff_getElem?.mp hd
  obtain ⟨hindex, hproof⟩ := hlost i d hi
  exact mt hproof.mp (hkept i (hindex ▸ hR)).not_gt

/-- Two deposits, pruned in one scan. -/
theorem pruneProofs_complete_two : Admits proofStep (fun dc op => op.Complete dc)
    (.new fun _ => 0)
    [.insertDeposit ⟨(), [1]⟩ 0 0 0, .insertDeposit ⟨(), [1]⟩ 0 1 0, .pruneProofs ⟨some 0⟩ 1,
      .pruneProofs .background 1] := by
  refine (pruneProofs_complete _ _ (by simp [ProofOp.Carries]) ?_).1
  exact ⟨trivial, trivial, fun _ hk hpos => absurd (Option.some.inj hk) hpos.ne,
    fun _ hk => (Option.some_ne_none _ hk.symm).elim, trivial⟩

/-- A scan that is cancelled after it has removed a proof: the next one stops at that deposit and
reports success, and the first deposit keeps its proof. -/
theorem interrupted_scan_leaves_proofs : ∃ ops : List (ProofOp Unit), (∀ op ∈ ops, op.Carries) ∧
    ¬ Admits proofStep (fun dc op => op.Complete dc) (.new fun _ => 0) ops :=
  ⟨[.insertDeposit ⟨(), [1]⟩ 0 0 0, .insertDeposit ⟨(), [1]⟩ 0 1 0, .pruneProofs ⟨some 1⟩ 1,
    .pruneProofs .background 1], by simp [ProofOp.Carries], fun ⟨_, _, _, hcomplete, _⟩ =>
    absurd (hcomplete (by decide) _ mem_cons_self (by decide)) (by decide)⟩

end Vanguard.Deposits
