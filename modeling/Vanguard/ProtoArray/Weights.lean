import Vanguard.ProtoArray.Invariant

/-!
What a call of `Head` adds to the weight of a node.

Pushed up the forest, the deltas of the votes amount to the following: each
validator's new balance is added to the nodes its new vote counts for, and its
old balance removed from those its old vote counts for. The arithmetic is that
of 64-bit words. Where all balances are multiples of a common power of two,
and their sum has at most 53 bits over it, neither the conversion to `float64`
nor the clamp at zero is noticed.
-/

namespace Vanguard.ProtoArray

open Forest List BitVec Finset

variable {i : ℕ} {balances : List Gwei}

namespace Store

variable {s : Store} {r : Root}

/-- A vote for `r` counts for the node at `i`: it is for that node or for one
whose deltas are propagated to it. -/
def CountsFor (s : Store) (r : Root) (i : ℕ) : Prop :=
  ∃ d, s.nodesIndices[r]? = some d ∧ Below s.carriesTo d i

theorem carriesTo_eq_none_of_rootAt (h : s.rootAt i = some zeroHash) : s.carriesTo i = none := by
  obtain ⟨n, hn, hr⟩ := Option.map_eq_some_iff.mp h
  simp [carriesTo, hn, hr]

theorem carriesTo_eq_parentOf (h : s.rootAt i ≠ some zeroHash) : s.carriesTo i = s.parentOf i := by
  cases hn : s.nodes[i]? with
  | none => simp [carriesTo, parentOf, hn]
  | some n =>
    have hr : n.root ≠ zeroHash := by
      intro heq
      exact h (by simp [rootAt, hn, heq])
    simp [carriesTo, parentOf, hn, hr]

theorem WellFormed.rootAt_iff (h : s.WellFormed) :
    s.nodesIndices[r]? = some i ↔ s.rootAt i = some r := by
  rw [h.indices, rootAt, Option.map_eq_some_iff]

theorem WellFormed.not_countsFor_zeroHash (h : s.WellFormed)
    (hi : s.rootAt i ≠ some zeroHash) : ¬ s.CountsFor zeroHash i := by
  rintro ⟨d, hd, hbelow⟩
  have hroot := h.rootAt_iff.mp hd
  have hdi := (below_iff_eq_of_none (carriesTo_eq_none_of_rootAt hroot)).mp hbelow
  exact hi (hdi ▸ hroot)

theorem countsFor_congr {s' : Store} (hi : s'.nodesIndices = s.nodesIndices)
    (hp : s'.carriesTo = s.carriesTo) : s'.CountsFor = s.CountsFor := by
  funext r i
  simp [CountsFor, hi, hp]

@[simp] theorem carriesTo_relink (s : Store) (best : BestChild.Links ℕ) :
    (s.relink best).carriesTo = s.carriesTo := by
  funext i
  rw [carriesTo, carriesTo, getElem?_relink]
  cases h : s.nodes[i]? <;> rfl

@[simp] theorem carriesTo_reweigh (s : Store) (weight : ℕ → Gwei) :
    (s.reweigh weight).carriesTo = s.carriesTo := by
  funext i
  cases h : s.nodes[i]? <;> simp [carriesTo, h]

theorem WellFormed.countsFor_append (h : s.WellFormed) {n : Node} (hr : r ≠ n.root) :
    (s.append n).CountsFor r i ↔ s.CountsFor r i := by
  have hlookup : (s.append n).nodesIndices[r]? = s.nodesIndices[r]? := by
    rw [Store.append, TreeMap.getElem?_insert, if_neg hr]
  simp only [CountsFor, hlookup]
  apply exists_congr
  intro d
  apply and_congr_right
  intro hd
  have hlen := h.lt_length_of_nodesIndices hd
  apply below_congr_of_leaf (n := s.nodes.length)
  · intro x hx
    simp [carriesTo, getElem?_append_of_ne hx]
  · intro x hx
    have hp := parentOf_of_carriesTo hx
    have h₁ := h.parentOf_lt hp
    have h₂ := lt_length_of_parentOf hp
    omega
  · omega

theorem WellFormed.lt_length_of_countsFor (h : s.WellFormed)
    (hr : s.CountsFor r i) : i < s.nodes.length := by
  obtain ⟨d, hd, hbelow⟩ := hr
  have hlen := h.lt_length_of_nodesIndices hd
  have hle : i ≤ d := h.ranked_carriesTo.rank_le_of_below hbelow
  omega

namespace CutFrom

variable {k : ℕ} {u p : Store}

variable (h : CutFrom k u p)

include h

theorem nodesIndices (hu : u.WellFormed) (hp : p.WellFormed) :
    p.nodesIndices[r]? = some i ↔ u.nodesIndices[r]? = some (i + k) := by
  rw [hp.rootAt_iff, hu.rootAt_iff, h.rootAt]

theorem carriesTo {c q : ℕ} : p.carriesTo c = some q ↔ u.carriesTo (c + k) = some (q + k) := by
  by_cases hz : u.rootAt (c + k) = some zeroHash
  · rw [carriesTo_eq_none_of_rootAt hz, carriesTo_eq_none_of_rootAt ((h.rootAt c).trans hz)]
    simp
  · rw [carriesTo_eq_parentOf hz, carriesTo_eq_parentOf (by rwa [h.rootAt]), h.parentOf]

theorem countsFor (hu : u.WellFormed) (hp : p.WellFormed) :
    p.CountsFor r i ↔ u.CountsFor r (i + k) := by
  have hbelow : ∀ d, Below p.carriesTo d i ↔ Below u.carriesTo (d + k) (i + k) :=
    fun d => below_shift (fun _ _ => h.carriesTo)
      fun _ _ hc => hu.parentOf_lt (parentOf_of_carriesTo hc)
  constructor
  · rintro ⟨d, hd, hdi⟩
    exact ⟨d + k, (h.nodesIndices hu hp).mp hd, (hbelow d).mp hdi⟩
  · rintro ⟨d, hd, hdi⟩
    have hle : i + k ≤ d := hu.ranked_carriesTo.rank_le_of_below hdi
    obtain ⟨d', rfl⟩ : ∃ d', d = d' + k := ⟨d - k, by omega⟩
    exact ⟨d', (h.nodesIndices hu hp).mpr hd, (hbelow d').mpr hdi⟩

end CutFrom

open Classical in
theorem WellFormed.pushed_eq (h : s.WellFormed) (delta : ℕ → SInt)
    (hi : i < s.nodes.length) :
    s.pushed delta i = ∑ d ∈ Finset.range s.nodes.length with Below s.carriesTo d i, delta d := by
  have hord : ChildrenFirst s.carriesTo (List.range s.nodes.length).reverse := by
    apply childrenFirst_reverse_range
    intro c p hc
    have hp := parentOf_of_carriesTo hc
    exact ⟨h.parentOf_lt hp, lt_length_of_parentOf hp⟩
  have hfin : (List.range s.nodes.length).reverse.toFinset = Finset.range s.nodes.length := by
    ext x
    simp
  rw [pushed, foldl_push h.ranked_carriesTo _ delta hord (by simpa using hi), hfin]

open Classical in
/-- A delta that stands at the node of `r` reaches the nodes it counts for. -/
theorem WellFormed.sum_lookup (h : s.WellFormed) (r : Root) (x : SInt) (i : ℕ) :
    (∑ d ∈ Finset.range s.nodes.length with Below s.carriesTo d i,
      if s.nodesIndices[r]? = some d then x else 0) = if s.CountsFor r i then x else 0 := by
  cases hr : s.nodesIndices[r]? with
  | none =>
    have hno : ¬ s.CountsFor r i := by simp [CountsFor, hr]
    simp only [reduceCtorEq, if_false, sum_const_zero, if_neg hno]
  | some d₀ =>
    have hlen := h.lt_length_of_nodesIndices hr
    have hcounts : s.CountsFor r i ↔ Below s.carriesTo d₀ i := by simp [CountsFor, hr]
    simp only [Option.some.injEq, sum_ite_eq, Finset.mem_filter, Finset.mem_range, hlen,
      true_and, hcounts]

end Store

namespace ForkChoice

variable {f : ForkChoice}

/-- What `Head` adds to the weight of the node at `i`. -/
def netDelta (f : ForkChoice) (newBalances : List Gwei) (i : ℕ) : SInt :=
  f.store.pushed (f.voteDelta newBalances) i

open Classical in
theorem netDelta_eq (h : f.store.WellFormed) (newBalances : List Gwei)
    (hi : i < f.store.nodes.length) (hz : f.store.rootAt i ≠ some zeroHash) :
    f.netDelta newBalances i = ∑ v ∈ Finset.range f.votes.length,
      ((if f.store.CountsFor (f.votes.getD v Vote.fresh).nextRoot i
          then balanceAt newBalances v else 0) -
        (if f.store.CountsFor (f.votes.getD v Vote.fresh).currentRoot i
          then balanceAt f.balances v else 0)) := by
  rw [netDelta, h.pushed_eq _ hi]
  simp only [voteDelta]
  rw [sum_comm]
  apply sum_congr rfl
  intro v _
  by_cases hzero : (f.votes.getD v Vote.fresh).currentRoot = zeroHash ∧
      (f.votes.getD v Vote.fresh).nextRoot = zeroHash
  · -- a validator that never voted: the zero hash counts for no other node
    simp only [contribution, if_pos hzero, sum_const_zero]
    rw [hzero.1, hzero.2, if_neg (h.not_countsFor_zeroHash hz),
      if_neg (h.not_countsFor_zeroHash hz), sub_self]
  · simp only [contribution, if_neg hzero, sum_sub_distrib, h.sum_lookup]

variable (f) (je fe : Epoch) (balances : List Gwei)

@[simp] theorem length_headed :
    (f.headed je fe balances).store.nodes.length = f.store.nodes.length := by
  simp [headed, Store.swept, Store.reweighed]

theorem weightAt_headed
    (hi : i < f.store.nodes.length) :
    (f.headed je fe balances).store.weightAt i =
      if f.store.rootAt i = some zeroHash then f.store.weightAt i
      else Store.adjustWeight (f.store.weightAt i) (f.netDelta balances i) := by
  simp only [headed, Store.swept, Store.reweighed, Store.weightAt_relink]
  exact Store.weightAt_reweigh _ hi

@[simp] theorem rootAt_headed : (f.headed je fe balances).store.rootAt = f.store.rootAt := by
  simp only [headed, Store.swept, Store.reweighed, Store.rootAt_relink, Store.rootAt_reweigh]
  rfl

@[simp] theorem countsFor_headed :
    (f.headed je fe balances).store.CountsFor = f.store.CountsFor := by
  refine Store.countsFor_congr (nodesIndices_headed f je fe balances) ?_
  simp only [headed, Store.swept, Store.reweighed, Store.carriesTo_relink, Store.carriesTo_reweigh]
  rfl

end ForkChoice

/-! ### Exact balances -/

def totalBalance (balances : List Gwei) : ℕ := (balances.map BitVec.toNat).sum

/-- Multiples of `2 ^ e` whose sum fits the 53 bits above and is not
negative as a signed word. -/
structure ExactBalances (e : ℕ) (balances : List Gwei) : Prop where
  dvd : ∀ b ∈ balances, 2 ^ e ∣ b.toNat
  total_le : totalBalance balances ≤ 2 ^ (53 + e)
  total_lt : totalBalance balances < 2 ^ 63

theorem ExactBalances.nil (e : ℕ) : ExactBalances e [] where
  dvd := by simp
  total_le := by simp [totalBalance]
  total_lt := by simp [totalBalance]

theorem sum_balanceAt (balances : List Gwei) :
    ∑ v ∈ Finset.range balances.length, (balanceAt balances v).toNat = totalBalance balances := by
  induction balances with
  | nil => simp [totalBalance]
  | cons b balances ih =>
    rw [length_cons, Finset.sum_range_succ', add_comm]
    simp only [balanceAt, getD_cons_zero, getD_cons_succ] at ih ⊢
    rw [ih]
    simp [totalBalance]

theorem balanceAt_of_length_le {v : ℕ} (h : balances.length ≤ v) : balanceAt balances v = 0 := by
  rw [balanceAt, getD_eq_default _ _ h]

theorem ExactBalances.dvd_balanceAt {e : ℕ} (h : ExactBalances e balances)
    (v : ℕ) : 2 ^ e ∣ (balanceAt balances v).toNat := by
  by_cases hv : v < balances.length
  · rw [balanceAt, getD_eq_getElem _ _ hv]
    exact h.dvd _ (getElem_mem hv)
  · rw [balanceAt_of_length_le (Nat.le_of_not_lt hv)]
    exact dvd_zero _

namespace Store

theorem adjustWeight_exact {e a b : ℕ} (ha : 2 ^ e ∣ a) (hb : 2 ^ e ∣ b) (hale : a ≤ 2 ^ (53 + e))
    (halt : a < 2 ^ 63) (hblt : b < 2 ^ 63) :
    adjustWeight (BitVec.ofNat 64 a) (BitVec.ofNat 64 b - BitVec.ofNat 64 a) =
      BitVec.ofNat 64 b := by
  have hsum : BitVec.ofNat 64 a + (BitVec.ofNat 64 b - BitVec.ofNat 64 a) = BitVec.ofNat 64 b :=
    add_sub_cancel _ _
  have hofNat : ∀ n < 2 ^ 63, (BitVec.ofNat 64 n).toInt = n := by
    intro n hn
    rw [toInt_ofNat', Int.bmod_eq_of_le (by omega) (by omega)]
  have hdelta : (BitVec.ofNat 64 b - BitVec.ofNat 64 a).toInt = (b : ℤ) - a := by
    rw [toInt_sub, hofNat a halt, hofNat b hblt, Int.bmod_eq_of_le (by omega) (by omega)]
  unfold adjustWeight
  rw [hdelta, hsum, hofNat b hblt]
  split
  · rename_i hneg
    rw [if_neg (by omega)]
    have habs : ((b : ℤ) - a).natAbs = a - b := by omega
    have hround : Float64.round (a - b) = a - b :=
      Float64.round_eq_self (Nat.dvd_sub ha hb) (by omega)
    rw [habs, hround, sub_eq_iff_eq_add, ← ofNat_add]
    congr 1
    omega
  · rfl

end Store

end Vanguard.ProtoArray
