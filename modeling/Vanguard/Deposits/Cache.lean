import Vanguard.Beacon.Blocks
import Vanguard.Deposits.SparseMerkleTrie
import Vanguard.Lib.Search

/-!
The deposit cache and the finalized deposit trie in it.

The cache holds the deposits of the contract in order, and a trie over those that a finalized
state has counted. A proposer extends a copy of that trie by the deposits behind the stored
index. The stored index is the one that was asked for: if it is ahead of the deposits cached so
far, the deposits that come later are in neither part.
-/

namespace Vanguard.Deposits

open List Search

open Beacon (depositContractTreeDepth)

variable {δ : Type} {hash : Bytes → Root} {hashTreeRoot : δ → Option Root}

/-- `ethpb.Deposit`; `δ` is the type of the deposit data, and the empty proof is the nil one. -/
structure Deposit (δ : Type) where
  data : δ
  proof : List Root
  deriving DecidableEq, Repr

structure DepositContainer (δ : Type) where
  deposit : Deposit δ
  eth1BlockHeight : BitVec 64
  depositRoot : Root
  index : ℤ
  deriving DecidableEq, Repr

structure FinalizedDeposits where
  deposits : SparseMerkleTrie
  merkleTrieIndex : ℤ
  deriving DecidableEq, Repr

structure DepositCache (δ : Type) where
  pendingDeposits : List (DepositContainer δ)
  deposits : List (DepositContainer δ)
  finalizedDeposits : FinalizedDeposits
  deriving DecidableEq, Repr

inductive Err
  /-- `wanted deposit with index %d to be inserted but received %d` -/
  | wrongIndex (wanted : ℕ) (received : ℤ)
  /-- The deposit data could not be hashed, `could not hash deposit data`. -/
  | hash
  | trie (e : TrieErr)
  deriving DecidableEq, Repr

namespace DepositCache

variable (dc : DepositCache δ)

def insertDeposit (d : Deposit δ) (blockNum : BitVec 64) (index : ℤ) (depositRoot : Root) :
    Except Err (DepositCache δ) :=
  if index ≠ dc.deposits.length then .error (.wrongIndex dc.deposits.length index)
  else
    let heightIdx := searchKey (·.index) dc.deposits index
    let newDeposits := ⟨d, blockNum, depositRoot, index⟩ :: dc.deposits.drop heightIdx
    .ok { dc with deposits := dc.deposits.take heightIdx ++ newDeposits }

def insertPendingDeposit (d : Deposit δ) (blockNum : BitVec 64) (index : ℤ) (depositRoot : Root) :
    DepositCache δ :=
  { dc with pendingDeposits := dc.pendingDeposits ++ [⟨d, blockNum, depositRoot, index⟩] }

/-- Whether a container is at or below a height, if there is one. -/
def upTo (untilBlk : Option (BitVec 64)) (ctnr : DepositContainer δ) : Bool :=
  match untilBlk with
  | none => true
  | some height => decide (ctnr.eth1BlockHeight ≤ height)

@[simp] theorem filter_upTo_none (ctnrs : List (DepositContainer δ)) :
    ctnrs.filter (upTo none) = ctnrs := filter_eq_self.mpr fun _ _ => rfl

def allDeposits (untilBlk : Option (BitVec 64)) : List (Deposit δ) :=
  (dc.deposits.filter (upTo untilBlk)).map (·.deposit)

def nonFinalizedDeposits (untilBlk : Option (BitVec 64)) : List (Deposit δ) :=
  let lastFinalizedDepositIndex := dc.finalizedDeposits.merkleTrieIndex
  (dc.deposits.filter fun d =>
    decide (lastFinalizedDepositIndex < d.index) && upTo untilBlk d).map (·.deposit)

end DepositCache

section

variable (hash : Bytes → Root) (hashTreeRoot : δ → Option Root)

def DepositCache.new : DepositCache δ :=
  { pendingDeposits := []
    deposits := []
    finalizedDeposits := ⟨newTrie hash depositContractTreeDepth, -1⟩ }

/-- The loop of `InsertFinalizedDeposits`; the flag tells whether all data could be hashed. -/
def insertFinalizedLoop (last eth1DepositIndex : ℤ) : List (DepositContainer δ) →
    SparseMerkleTrie → ℤ → Except TrieErr (SparseMerkleTrie × Bool)
  | [], depositTrie, _ => .ok (depositTrie, true)
  | d :: ds, depositTrie, insertIndex =>
    if d.index ≤ last then insertFinalizedLoop last eth1DepositIndex ds depositTrie insertIndex
    else if eth1DepositIndex < d.index then .ok (depositTrie, true)
    else
      match hashTreeRoot d.deposit.data with
      | none => .ok (depositTrie, false)
      | some depHash => do
        let depositTrie ← depositTrie.insert hash depHash insertIndex
        insertFinalizedLoop last eth1DepositIndex ds depositTrie (insertIndex + 1)

/-- `InsertFinalizedDeposits`. The trie is changed in place, also if the index is not stored. -/
def DepositCache.insertFinalizedDeposits (dc : DepositCache δ) (eth1DepositIndex : ℤ) :
    Except TrieErr (DepositCache δ) := do
  let last := dc.finalizedDeposits.merkleTrieIndex
  let (depositTrie, hashed) ← insertFinalizedLoop hash hashTreeRoot last eth1DepositIndex
    dc.deposits dc.finalizedDeposits.deposits (last + 1)
  return { dc with
    finalizedDeposits := ⟨depositTrie, if hashed then eth1DepositIndex else last⟩ }

/-- The loop of the proposer that extends a trie by deposits. -/
def insertDeposits : List (Deposit δ) → SparseMerkleTrie → ℤ → Except Err SparseMerkleTrie
  | [], depositTrie, _ => .ok depositTrie
  | dep :: deps, depositTrie, insertIndex =>
    match hashTreeRoot dep.data with
    | none => .error .hash
    | some depHash =>
      match depositTrie.insert hash depHash insertIndex with
      | .error e => .error (.trie e)
      | .ok depositTrie => insertDeposits deps depositTrie (insertIndex + 1)

inductive Op (δ : Type)
  | insertDeposit (d : Deposit δ) (blockNum : BitVec 64) (index : ℤ) (depositRoot : Root)
  | insertFinalizedDeposits (eth1DepositIndex : ℤ)
  deriving Repr

/-- One call. A deposit that is refused changes nothing; after a panic there is no cache. -/
def step (s : Except TrieErr (DepositCache δ)) (op : Op δ) : Except TrieErr (DepositCache δ) := do
  let dc ← s
  match op with
  | .insertDeposit d blockNum index depositRoot =>
    match dc.insertDeposit d blockNum index depositRoot with
    | .ok dc' => .ok dc'
    | .error _ => .ok dc
  | .insertFinalizedDeposits eth1DepositIndex =>
    dc.insertFinalizedDeposits hash hashTreeRoot eth1DepositIndex

/-- The calls for which the two parts stay complementary: what is cached can be hashed, and
finality asks for deposits that are cached. -/
def Op.Finalizable (hashTreeRoot : δ → Option Root) (s : Except TrieErr (DepositCache δ)) :
    Op δ → Prop
  | .insertDeposit d _ _ _ => (hashTreeRoot d.data).isSome
  | .insertFinalizedDeposits eth1DepositIndex => -1 ≤ eth1DepositIndex ∧
      ∀ dc, s = .ok dc → eth1DepositIndex < dc.deposits.length

end

/-! ### Tries over the first deposits -/

/-- A trie that holds the first `k` of a list of hashes. -/
structure HoldsFirst (hash : Bytes → Root) (hs : List Root) (k : ℕ) (t : SparseMerkleTrie) :
    Prop where
  wellFormed : t.WellFormed hash
  depth : t.depth = depositContractTreeDepth
  le : k ≤ hs.length
  items : t.originalItems = if k = 0 then [zeroHash] else hs.take k

theorem holdsFirst_newTrie (hs : List Root) :
    HoldsFirst hash hs 0 (newTrie hash depositContractTreeDepth) :=
  ⟨wellFormed_newTrie hash _, rfl, Nat.zero_le _, rfl⟩

variable {k j : ℕ} {t : SparseMerkleTrie} {v : Root} {ds : List (DepositContainer δ)}
  {c : DepositContainer δ}

theorem HoldsFirst.append {hs : List Root} (h : HoldsFirst hash hs k t) (hs' : List Root) :
    HoldsFirst hash (hs ++ hs') k t := by
  have hle := h.le
  refine ⟨h.wellFormed, h.depth, hle.trans (by simp), ?_⟩
  rw [h.items, take_append_of_le_length hle]

theorem HoldsFirst.insert {hs : List Root} {x : ℕ} (h : HoldsFirst hash hs k t) (hx : x ≤ k)
    (hv : hs[x]? = some v) : HoldsFirst hash hs (max k (x + 1)) (t.insertNat hash v x) := by
  obtain ⟨hlt, hget⟩ := List.getElem?_eq_some_iff.mp hv
  have hle := h.le
  have hroom : x ≤ t.originalItems.length := by
    rw [h.items]
    split <;> simp <;> omega
  refine ⟨h.wellFormed.insertNat hroom v, h.depth, by omega, ?_⟩
  rw [SparseMerkleTrie.originalItems_insertNat, h.items, if_neg (show max k (x + 1) ≠ 0 by omega)]
  rcases Nat.eq_zero_or_pos k with rfl | hpos
  · obtain rfl : x = 0 := by omega
    obtain ⟨v', hs', rfl⟩ := exists_cons_of_length_pos hlt
    simp_all [Merkle.put]
  · rw [if_neg (by omega), Merkle.put, length_take, Nat.min_eq_left hle]
    split
    next heq =>
      obtain rfl : x = k := by omega
      rw [Nat.max_eq_right (by omega), take_add_one, hv]
      rfl
    next hlt' =>
      have hself : (hs.take k)[x]? = some v := by rw [getElem?_take_of_lt (by omega), hv]
      rw [Nat.max_eq_left (by omega)]
      exact Slices.set_self hself

/-! ### The loops over the cached deposits -/

/-- Containers of consecutive deposits from index `j` to the end of a list of hashes. -/
def Listed (hashTreeRoot : δ → Option Root) (hs : List Root) : ℕ → List (DepositContainer δ) → Prop
  | j, [] => j = hs.length
  | j, d :: ds => d.index = j ∧ (∃ v, hs[j]? = some v ∧ hashTreeRoot d.deposit.data = some v) ∧
      Listed hashTreeRoot hs (j + 1) ds

theorem Listed.length {hs : List Root} (h : Listed hashTreeRoot hs j ds) :
    j + ds.length = hs.length := by
  induction ds generalizing j with
  | nil => exact h
  | cons d ds ih =>
    have hlen := ih h.2.2
    rw [length_cons]
    omega

theorem Listed.append {hs : List Root} (h : Listed hashTreeRoot hs j ds)
    (hc : c.index = hs.length) (hv : hashTreeRoot c.deposit.data = some v) :
    Listed hashTreeRoot (hs ++ [v]) j (ds ++ [c]) := by
  induction ds generalizing j with
  | nil =>
    obtain rfl : j = hs.length := h
    exact ⟨hc, ⟨v, by simp, hv⟩, by simp [Listed]⟩
  | cons d ds ih =>
    obtain ⟨hidx, ⟨w, hw, hd⟩, htail⟩ := h
    refine ⟨hidx, ⟨w, ?_, hd⟩, ih htail⟩
    rw [getElem?_append_left (List.getElem?_eq_some_iff.mp hw).1, hw]

theorem Listed.mapM {hs : List Root} (h : Listed hashTreeRoot hs j ds) :
    (ds.map (·.deposit)).mapM (fun d => hashTreeRoot d.data) = some (hs.drop j) := by
  induction ds generalizing j with
  | nil =>
    obtain rfl : j = hs.length := h
    simp
  | cons d ds ih =>
    obtain ⟨-, ⟨v, hv, hd⟩, htail⟩ := h
    obtain ⟨hlt, rfl⟩ := List.getElem?_eq_some_iff.mp hv
    rw [map_cons, mapM_cons, hd, drop_eq_getElem_cons hlt]
    simp [ih htail]

section

variable {hs : List Root} {P : ℕ → SparseMerkleTrie → Prop} {a e : ℕ}

variable (hstep : ∀ {x t v}, hs[x]? = some v → P x t → P (x + 1) (t.insertNat hash v x))
  (hds : Listed hashTreeRoot hs j ds) (ht : P (max j a) t)

include hstep hds ht

/-- `InsertFinalizedDeposits` from stored index `a - 1` to index `e - 1`, from deposit `j` on. -/
theorem insertFinalizedLoop_run :
    ∃ t', insertFinalizedLoop hash hashTreeRoot (a - 1) (e - 1) ds t (max j a : ℕ) =
      .ok (t', true) ∧ P (max (max j a) (min e hs.length)) t' := by
  induction ds generalizing j t with
  | nil =>
    obtain rfl : j = hs.length := hds
    exact ⟨t, rfl, by rwa [Nat.max_eq_left (by omega)]⟩
  | cons d ds ih =>
    obtain ⟨hidx, ⟨v, hv, hd⟩, htail⟩ := hds
    have hlt := (List.getElem?_eq_some_iff.mp hv).1
    rw [insertFinalizedLoop, hidx]
    rcases Nat.lt_or_ge j a with hskip | hskip
    · rw [if_pos (by omega), show max j a = max (j + 1) a by omega] at *
      exact ih htail ht
    rw [if_neg (by omega)]
    rw [show max j a = j by omega] at ht ⊢
    rcases Nat.lt_or_ge j e with hin | hout
    · obtain ⟨t', hloop, ht'⟩ := ih (t := t.insertNat hash v j) htail (by
        rw [show max (j + 1) a = j + 1 by omega]
        exact hstep hv ht)
      rw [show max (j + 1) a = j + 1 by omega] at hloop ht'
      refine ⟨t', ?_, by rwa [show max j (min e hs.length) = max (j + 1) (min e hs.length)
        by omega]⟩
      rw [if_neg (by omega), hd]
      exact hloop
    · rw [if_pos (by omega)]
      exact ⟨t, rfl, by rwa [Nat.max_eq_left (by omega)]⟩

/-- The proposer's loop over the deposits behind stored index `a - 1`. -/
theorem insertDeposits_run : ∃ t', insertDeposits hash hashTreeRoot
        ((ds.filter fun d => decide ((a : ℤ) - 1 < d.index)).map (·.deposit)) t (max j a : ℕ) =
      .ok t' ∧ P (max hs.length a) t' := by
  induction ds generalizing j t with
  | nil =>
    obtain rfl : j = hs.length := hds
    exact ⟨t, rfl, ht⟩
  | cons d ds ih =>
    obtain ⟨hidx, ⟨v, hv, hd⟩, htail⟩ := hds
    rw [filter_cons, hidx]
    rcases Nat.lt_or_ge j a with hskip | hskip
    · rw [if_neg (by simp; omega), show max j a = max (j + 1) a by omega]
      exact ih htail (by rwa [show max (j + 1) a = max j a by omega])
    · rw [show max j a = j by omega] at ht ⊢
      obtain ⟨t', hloop, ht'⟩ := ih (t := t.insertNat hash v j) htail (by
        rw [show max (j + 1) a = j + 1 by omega]
        exact hstep hv ht)
      refine ⟨t', ?_, ht'⟩
      rw [if_pos (by simp; omega), map_cons, insertDeposits, hd]
      rw [show max (j + 1) a = j + 1 by omega] at hloop
      exact hloop

end

theorem HoldsFirst.insert_ok {hs : List Root} {x : ℕ} (h : HoldsFirst hash hs k t) (hx : x ≤ k)
    (hv : hs[x]? = some v) :
    ∃ t', t.insert hash v x = .ok t' ∧ HoldsFirst hash hs (max k (x + 1)) t' :=
  ⟨_, if_neg (by omega), by simpa using h.insert hx hv⟩

theorem HoldsFirst.insert_next {hs : List Root} {x : ℕ} (hv : hs[x]? = some v)
    (h : ∃ k, x ≤ k ∧ HoldsFirst hash hs k t) :
    ∃ k, x + 1 ≤ k ∧ HoldsFirst hash hs k (t.insertNat hash v x) := by
  obtain ⟨k, hx, ht⟩ := h
  exact ⟨_, le_max_right _ _, ht.insert hx hv⟩

/-! ### The two parts of the deposit list -/

/-- The finalized trie holds the deposits up to some point behind the stored index. -/
structure Complementary (hash : Bytes → Root) (hashTreeRoot : δ → Option Root) (hs : List Root)
    (dc : DepositCache δ) : Prop where
  listed : Listed hashTreeRoot hs 0 dc.deposits
  trie : ∃ k a : ℕ, HoldsFirst hash hs k dc.finalizedDeposits.deposits ∧ a ≤ k ∧
    dc.finalizedDeposits.merkleTrieIndex = (a : ℤ) - 1

theorem Listed.index {hs : List Root} (h : Listed hashTreeRoot hs j ds) {i : ℕ}
    (hc : ds[i]? = some c) : c.index = (j + i : ℕ) := by
  induction ds generalizing j i with
  | nil => simp at hc
  | cons d ds ih =>
    cases i with
    | zero =>
      obtain rfl : d = c := by simpa using hc
      exact h.1
    | succ i =>
      rw [ih h.2.2 (by simpa using hc)]
      congr 1
      omega

theorem Listed.indices {hs : List Root} (h : Listed hashTreeRoot hs 0 ds) (i : ℕ)
    (c : DepositContainer δ) (hc : ds[i]? = some c) : c.index = i := by
  rw [h.index hc, Nat.zero_add]

theorem insertDeposit_eq {dc : DepositCache δ}
    (h : ∀ (i : ℕ) c, dc.deposits[i]? = some c → c.index = i) (d : Deposit δ)
    (blockNum : BitVec 64) (index : ℤ) (depositRoot : Root) :
    dc.insertDeposit d blockNum index depositRoot =
      if index ≠ dc.deposits.length then .error (.wrongIndex dc.deposits.length index)
      else .ok { dc with deposits := dc.deposits ++ [⟨d, blockNum, depositRoot, index⟩] } := by
  rw [DepositCache.insertDeposit]
  split
  · rfl
  next hidx =>
    rw [not_not] at hidx
    rw [searchKey, search_of_false]
    · simp
    · intro i hi
      rw [getElem?_eq_getElem hi]
      have hlt := h i _ (getElem?_eq_getElem hi)
      simp only [decide_eq_false_iff_not]
      omega

theorem complementary_new (hash : Bytes → Root) (hashTreeRoot : δ → Option Root) :
    Complementary hash hashTreeRoot [] (DepositCache.new hash) :=
  ⟨rfl, 0, 0, holdsFirst_newTrie [], le_rfl, rfl⟩

section

variable {hs : List Root} {dc : DepositCache δ}

variable (h : Complementary hash hashTreeRoot hs dc)

include h

theorem Complementary.insertDeposit (d : Deposit δ)
    (blockNum : BitVec 64) (depositRoot : Root) {v : Root} (hv : hashTreeRoot d.data = some v) :
    Complementary hash hashTreeRoot (hs ++ [v])
      { dc with deposits := dc.deposits ++ [⟨d, blockNum, depositRoot, dc.deposits.length⟩] } := by
  obtain ⟨k, a, ht, hak, hm⟩ := h.trie
  have hlen := h.listed.length
  exact ⟨h.listed.append (by simp; omega) hv, k, a, ht.append [v], hak, hm⟩

theorem Complementary.insertFinalizedDeposits {i : ℤ}
    (hlow : -1 ≤ i) (hhigh : i < dc.deposits.length) :
    ∃ dc', dc.insertFinalizedDeposits hash hashTreeRoot i = .ok dc' ∧
      Complementary hash hashTreeRoot hs dc' := by
  obtain ⟨k, a, ht, hak, hm⟩ := h.trie
  obtain ⟨e, he⟩ := Int.eq_ofNat_of_zero_le (show 0 ≤ i + 1 by omega)
  obtain rfl : i = (e : ℤ) - 1 := by omega
  have hlen := h.listed.length
  obtain ⟨t, hloop, k', hk', ht'⟩ := insertFinalizedLoop_run (a := a) (e := e)
    (P := fun x t => ∃ k, x ≤ k ∧ HoldsFirst hash hs k t) HoldsFirst.insert_next h.listed
    ⟨k, by omega, ht⟩
  rw [Nat.zero_max] at hloop
  refine ⟨{ dc with finalizedDeposits := ⟨t, (e : ℤ) - 1⟩ }, ?_, h.listed, k', e, ht',
    by omega, rfl⟩
  rw [DepositCache.insertFinalizedDeposits, hm, Int.sub_add_cancel, hloop]
  rfl

theorem Complementary.insertDeposits :
    ∃ t, insertDeposits hash hashTreeRoot (dc.nonFinalizedDeposits none)
      dc.finalizedDeposits.deposits (dc.finalizedDeposits.merkleTrieIndex + 1) = .ok t ∧
      HoldsFirst hash hs hs.length t := by
  obtain ⟨k, a, ht, hak, hm⟩ := h.trie
  obtain ⟨t, hloop, k', hk', ht'⟩ := insertDeposits_run (a := a)
    (P := fun x t => ∃ k, x ≤ k ∧ HoldsFirst hash hs k t) HoldsFirst.insert_next h.listed
    ⟨k, by omega, ht⟩
  have hle := ht'.le
  obtain rfl : k' = hs.length := by omega
  refine ⟨t, ?_, ht'⟩
  rw [Nat.zero_max] at hloop
  rw [hm, Int.sub_add_cancel, ← hloop, DepositCache.nonFinalizedDeposits]
  simp [hm, DepositCache.upTo]

end

theorem step_insertDeposit {hs : List Root} {dc : DepositCache δ}
    (h : Listed hashTreeRoot hs 0 dc.deposits) (d : Deposit δ) (blockNum : BitVec 64) (index : ℤ)
    (depositRoot : Root) :
    step hash hashTreeRoot (.ok dc) (.insertDeposit d blockNum index depositRoot) = .ok dc ∨
      step hash hashTreeRoot (.ok dc) (.insertDeposit d blockNum index depositRoot) = .ok { dc with
        deposits := dc.deposits ++ [⟨d, blockNum, depositRoot, dc.deposits.length⟩] } := by
  have hstep : step hash hashTreeRoot (.ok dc) (.insertDeposit d blockNum index depositRoot) =
      match dc.insertDeposit d blockNum index depositRoot with
      | .ok dc' => .ok dc'
      | .error _ => .ok dc := rfl
  rw [hstep, insertDeposit_eq h.indices]
  by_cases hidx : index = dc.deposits.length
  · rw [if_neg (not_not.mpr hidx), hidx]
    exact .inr rfl
  · rw [if_pos hidx]
    exact .inl rfl

theorem complementary_step {s : Except TrieErr (DepositCache δ)} {op : Op δ}
    (hs : ∃ dc hs, s = .ok dc ∧ Complementary hash hashTreeRoot hs dc)
    (hop : op.Finalizable hashTreeRoot s) :
    ∃ dc hs, step hash hashTreeRoot s op = .ok dc ∧ Complementary hash hashTreeRoot hs dc := by
  obtain ⟨dc, hs, rfl, h⟩ := hs
  cases op with
  | insertDeposit d blockNum index depositRoot =>
    obtain ⟨v, hv⟩ := Option.isSome_iff_exists.mp hop
    rcases @step_insertDeposit _ hash _ _ _ h.listed d blockNum index depositRoot with heq | heq
    · exact ⟨dc, hs, heq, h⟩
    · exact ⟨_, _, heq, h.insertDeposit d blockNum depositRoot hv⟩
  | insertFinalizedDeposits i =>
    obtain ⟨hlow, hhigh⟩ := hop
    obtain ⟨dc', hins, h'⟩ := h.insertFinalizedDeposits hlow (hhigh dc rfl)
    exact ⟨dc', hs, hins, h'⟩

/-- The finalized trie and the remaining deposits make up the deposit list after every run of
calls in which finality does not ask for deposits that are not cached yet. -/
theorem finalized_and_remaining_make_all_deposits (hash : Bytes → Root)
    (hashTreeRoot : δ → Option Root) (ops : List (Op δ))
    (hops : Run.Admits (step hash hashTreeRoot) (Op.Finalizable hashTreeRoot)
      (.ok (DepositCache.new hash)) ops) :
    ∃ dc, ops.foldl (step hash hashTreeRoot) (.ok (DepositCache.new hash)) = .ok dc ∧
      (dc.deposits ≠ [] → ∃ items t g,
        (dc.allDeposits none).mapM (fun d => hashTreeRoot d.data) = some items ∧
        insertDeposits hash hashTreeRoot (dc.nonFinalizedDeposits none)
          dc.finalizedDeposits.deposits (dc.finalizedDeposits.merkleTrieIndex + 1) = .ok t ∧
        generateTrieFromItems hash items depositContractTreeDepth = .ok g ∧
        t.root hash = g.root hash ∧ t.numOfItems = g.numOfItems) := by
  obtain ⟨dc, hs, hrun, h⟩ := Run.invariant
    (I := fun s => ∃ dc hs, s = .ok dc ∧ Complementary hash hashTreeRoot hs dc)
    (fun _ _ => complementary_step) ⟨_, [], rfl, complementary_new hash hashTreeRoot⟩ hops
  refine ⟨dc, hrun, fun hne => ?_⟩
  have hlen : 0 < hs.length := by
    have := h.listed.length
    have := length_pos_iff.mpr hne
    omega
  obtain ⟨t, hinsert, ht⟩ := h.insertDeposits
  obtain ⟨g, hgen, hg, hitems, hdepth⟩ := generateTrieFromItems_ok hash
    (length_pos_iff.mp hlen) (show depositContractTreeDepth ≤ 100 by decide)
  have hall : t.originalItems = g.originalItems := by
    rw [ht.items, if_neg (by omega), take_length, hitems]
  refine ⟨hs, t, g, ?_, hinsert, hgen, ht.wellFormed.root_congr hg (ht.depth.trans hdepth.symm)
    hall, SparseMerkleTrie.numOfItems_congr hall⟩
  have hmap := h.listed.mapM
  rw [drop_zero] at hmap
  rw [← hmap, DepositCache.allDeposits, DepositCache.filter_upTo_none]

/-- A deposit whose data is its own hash. -/
def plainDeposit (n : ℕ) : Op Root :=
  .insertDeposit ⟨BitVec.ofNat 256 (n + 1), []⟩ (BitVec.ofNat 64 n) n 0

/-- A hash for concrete runs. -/
def plainHash (bytes : Bytes) : Root := BitVec.ofNat 256 (Bytes.value bytes + 1)

theorem finalized_and_remaining_make_all_deposits_three :
    ∃ dc, [plainDeposit 0, plainDeposit 1, .insertFinalizedDeposits 1, plainDeposit 2,
        .insertFinalizedDeposits 0].foldl (step plainHash some)
          (.ok (DepositCache.new plainHash)) = .ok dc ∧
      (dc.deposits ≠ [] → ∃ items t g,
        (dc.allDeposits none).mapM (fun d => some d.data) = some items ∧
        insertDeposits plainHash some (dc.nonFinalizedDeposits none)
          dc.finalizedDeposits.deposits (dc.finalizedDeposits.merkleTrieIndex + 1) = .ok t ∧
        generateTrieFromItems plainHash items depositContractTreeDepth = .ok g ∧
        t.root plainHash = g.root plainHash ∧ t.numOfItems = g.numOfItems) :=
  finalized_and_remaining_make_all_deposits plainHash some _ (by
    refine ⟨rfl, rfl, ⟨by decide, ?_⟩, rfl, ⟨by decide, ?_⟩, trivial⟩
    all_goals
      rintro dc hdc
      injection hdc with hdc
      subst hdc
      decide)

/-- Finality that is ahead of the cached deposits: the second deposit is behind the stored index,
so it is not a remaining one, but it is not in the finalized trie either. -/
theorem finalized_index_ahead_loses_deposit :
    ∃ dc t g, [plainDeposit 0, .insertFinalizedDeposits 1, plainDeposit 1].foldl
        (step plainHash some) (.ok (DepositCache.new plainHash)) = .ok dc ∧
      insertDeposits plainHash some (dc.nonFinalizedDeposits none)
        dc.finalizedDeposits.deposits (dc.finalizedDeposits.merkleTrieIndex + 1) = .ok t ∧
      generateTrieFromItems plainHash ((dc.allDeposits none).map (·.data))
        depositContractTreeDepth = .ok g ∧
      t.numOfItems = 1 ∧ g.numOfItems = 2 :=
  ⟨_, _, _, rfl, rfl, rfl, by decide, by decide⟩

end Vanguard.Deposits
