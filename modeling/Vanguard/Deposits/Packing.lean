import Vanguard.Deposits.TrieProofs

/-!
The deposits a proposer puts into a block.

The deposits are taken from the pending ones, in the order of their indices, and their proofs
from a trie that has to agree with the eth1 data the block will be processed with. The finalized
trie of the cache, extended by the deposits behind its index, is used if its count and root are
the expected ones. Otherwise the trie is built anew from all deposits. A finalized trie with a gap
is told apart by the path of the item that was inserted last.
-/

namespace Vanguard.Deposits

open List Option Nat Merkle DepositCache Fallible
open BitVec hiding and_assoc

open Beacon (BeaconState Crypto DepositData Eth1Data depositContractTreeDepth maxDeposits rootBytes)

variable {κ σ : Type} {c : Crypto κ σ} (hash : Bytes → Root) {t : SparseMerkleTrie} {δ : Type}
  {hashTreeRoot : δ → Option Root} {hs : List Root} {ds : List (DepositContainer δ)}
  {height : BitVec 64} {j : ℕ}

/-- What a proposer asks the eth1 service for. -/
structure Eth1Info where
  mockEth1Votes : Bool
  isConnectedToETH1 : Bool
  /-- `BlockExists`: the height of a block. -/
  blockExists : Root → Option (BitVec 64)
  /-- The block of `Eth2GenesisPowchainInfo`. -/
  genesisEth1Block : BitVec 64

inductive PackErr
  /-- `could not fetch eth1data height` -/
  | blockHeight
  /-- `could not retrieve deposit trie` -/
  | depositTrie (e : Err)
  /-- `could not generate merkle proof for deposit at index %d` -/
  | merkleProof (index : ℤ) (e : TrieErr)
  deriving DecidableEq, Repr

def DepositCache.pendingContainers {δ : Type} (dc : DepositCache δ)
    (untilBlk : Option (BitVec 64)) : List (DepositContainer δ) :=
  (dc.pendingDeposits.filter (upTo untilBlk)).insertionSort fun a b => a.index ≤ b.index

def canonicalEth1Data (info : Eth1Info) (state : BeaconState) (currentVote : Eth1Data) :
    Except PackErr (Eth1Data × BitVec 64) :=
  let state := { state with eth1DataVotes := state.eth1DataVotes ++ [currentVote] }
  let canonical :=
    if Beacon.eth1DataHasEnoughSupport state currentVote then currentVote else state.eth1Data
  match info.blockExists canonical.blockHash with
  | none => .error .blockHeight
  | some height => .ok (canonical, height)

def validateDepositTrie (hash : Bytes → Root) (trie : SparseMerkleTrie)
    (canonicalEth1Data : Eth1Data) : Bool :=
  if (trie.numOfItems : ℤ) ≠ canonicalEth1Data.depositCount.toInt then false
  else decide (trie.hashTreeRoot hash = canonicalEth1Data.depositRoot)

section

variable (c : Crypto κ σ)

/-- `HashTreeRoot` of the deposit data, which fails on a signature of another length. -/
def dataRoot (data : DepositData) : Option Root :=
  if data.signature.length = 96 then some (c.depositDataRoot data) else none

def rebuildDepositTrie (dc : DepositCache DepositData) (canonicalEth1DataHeight : BitVec 64) :
    Except Err SparseMerkleTrie :=
  let deposits := dc.allDeposits (some canonicalEth1DataHeight)
  match deposits.mapM fun dep => dataRoot c dep.data with
  | none => .error .hash
  | some trieItems =>
    -- A trie that does not agree with the eth1 data is logged and used.
    match generateTrieFromItems c.hash trieItems depositContractTreeDepth with
    | .error e => .error (.trie e)
    | .ok depositTrie => .ok depositTrie

/-- The finalized trie with the deposits behind it. -/
def extendedTrie (dc : DepositCache DepositData) (canonicalEth1DataHeight : BitVec 64) :
    Except Err SparseMerkleTrie :=
  let finalizedDeposits := dc.finalizedDeposits
  let upToEth1DataDeposits := dc.nonFinalizedDeposits (some canonicalEth1DataHeight)
  insertDeposits c.hash (dataRoot c) upToEth1DataDeposits
    finalizedDeposits.deposits (finalizedDeposits.merkleTrieIndex + 1)

def depositTrie (dc : DepositCache DepositData) (canonicalEth1Data : Eth1Data)
    (canonicalEth1DataHeight : BitVec 64) : Except Err SparseMerkleTrie := do
  let depositTrie ← extendedTrie c dc canonicalEth1DataHeight
  if validateDepositTrie c.hash depositTrie canonicalEth1Data then .ok depositTrie
  else rebuildDepositTrie c dc canonicalEth1DataHeight

def constructMerkleProof (trie : SparseMerkleTrie) (ctnr : DepositContainer DepositData) :
    Except PackErr Beacon.Deposit :=
  match trie.merkleProof c.hash ctnr.index.toNat with
  | .error e => .error (.merkleProof ctnr.index e)
  | .ok proof => .ok { proof, data := ctnr.deposit.data }

/-- Whether a pending deposit is still to be included under the canonical eth1 data. -/
def isOutstanding (state : BeaconState) (canonicalEth1Data : Eth1Data)
    (dep : DepositContainer DepositData) : Bool :=
  decide (state.eth1DepositIndex ≤ BitVec.ofInt 64 dep.index) &&
    decide (BitVec.ofInt 64 dep.index < canonicalEth1Data.depositCount)

def deposits (info : Eth1Info) (dc : DepositCache DepositData) (state : BeaconState)
    (currentVote : Eth1Data) : Except PackErr (List Beacon.Deposit) := do
  if info.mockEth1Votes || !info.isConnectedToETH1 then return []
  let (canonical, height) ← canonicalEth1Data info state currentVote
  if info.genesisEth1Block = height then return []
  let allPendingContainers := dc.pendingContainers (some height)
  if allPendingContainers.isEmpty then return []
  match depositTrie c dc canonical height with
  | .error e => .error (.depositTrie e)
  | .ok trie =>
    let pendingDeps := allPendingContainers.filter (isOutstanding state canonical)
    (pendingDeps.take maxDeposits.toNat).mapM (constructMerkleProof c trie)

end

def contractRoot (hash : Bytes → Root) (items : List Root) : Root :=
  hashPair hash (Merkle.node (hashPair hash) (leaves zeroHash items)
    depositContractTreeDepth 0) (encodeCount items.length)

/-- A cache that holds the deposits of the contract in order, with those from an index on pending.
The contract takes fewer than `2 ^ 32` deposits. -/
structure HoldsContract {δ : Type} (dc : DepositCache δ) (start : ℕ) : Prop where
  capacity : dc.deposits.length < 2 ^ 32
  index : ∀ (i : ℕ) (d : DepositContainer δ), dc.deposits[i]? = some d → d.index = i
  heights : dc.deposits.Pairwise fun d d' => d.eth1BlockHeight ≤ d'.eth1BlockHeight
  pending_nodup : (dc.pendingDeposits.map (·.index)).Nodup
  pending_cached : ∀ ctnr ∈ dc.pendingDeposits, ∃ d ∈ dc.deposits, d.index = ctnr.index ∧
    d.deposit.data = ctnr.deposit.data ∧ d.eth1BlockHeight = ctnr.eth1BlockHeight
  cached_pending : ∀ d ∈ dc.deposits, (start : ℤ) ≤ d.index →
    ∃ ctnr ∈ dc.pendingDeposits, ctnr.index = d.index

theorem foldl_eq_branchNode (item : Root) (merkleIndex : BitVec 64) {proof : List Root} {n : ℕ}
    (hn : n ≤ proof.length) :
    (proof.take n).zipIdx.foldl (fun node p => if merkleIndex.toNat / 2 ^ p.2 % 2 ≠ 0 then
        hash (rootBytes p.1 ++ rootBytes node) else hash (rootBytes node ++ rootBytes p.1)) item =
      branchNode hash item merkleIndex (proof.map rootBytes) n := by
  induction n with
  | zero => rfl
  | succ n ih =>
    have hget : (proof.map rootBytes).getD n [] = rootBytes proof[n] := by
      simp [getD_eq_getElem?_getD, lt_of_succ_le hn]
    rw [take_succ_eq_append_getElem hn, zipIdx_append, foldl_append, ih (by omega), branchNode,
      branchInput, hget]
    simp only [zipIdx_singleton, foldl_cons, foldl_nil, length_take, Nat.min_eq_left
      (le_of_succ_le hn), Nat.zero_add]
    split <;> rfl

theorem verifyMerkleBranch_rootBytes (c : Crypto κ σ) {root item : Root} {merkleIndex : BitVec 64}
    {proof : List Root} {depth : ℕ} (hdepth : depth < 64) :
    verifyMerkleBranch c.hash (rootBytes root) (rootBytes item) merkleIndex (proof.map rootBytes)
      depth = .ok (Beacon.verifyMerkleBranch c root item merkleIndex proof depth) := by
  rw [verifyMerkleBranch, Beacon.verifyMerkleBranch, length_map,
    if_neg (show ¬ 64 ≤ depth by omega)]
  split
  · rfl
  next hlen =>
    have hfold := foldl_eq_branchNode c.hash item merkleIndex (le_refl proof.length)
    rw [take_length, Classical.not_not.mp hlen] at hfold
    simp only [hfold, toBytes32_rootBytes, rootBytes_injective.eq_iff]

theorem SparseMerkleTrie.WellFormed.root_eq {hash : Bytes → Root} (h : t.WellFormed hash)
    (hdepth : t.depth = depositContractTreeDepth) :
    t.root hash = contractRoot hash t.originalItems := by
  rw [root, h.top_eq, hdepth, contractRoot]

theorem HoldsFirst.verifyMerkleBranch {items : List Root}
    (h : HoldsFirst c.hash items items.length t) {index : BitVec 64} {leaf : Root}
    (hleaf : items[index.toNat]? = some leaf) (hcap : items.length ≤ 2 ^ 32) :
    ∃ proof, t.merkleProof c.hash index.toNat = .ok proof ∧
      Beacon.verifyMerkleBranch c (contractRoot c.hash items) leaf index proof
        depositContractTreeDepth = true := by
  obtain ⟨hlt, -⟩ := List.getElem?_eq_some_iff.mp hleaf
  have hitems : t.originalItems = items := by
    rw [h.items, if_neg (by omega), take_length]
  have hdepth : depositContractTreeDepth < 64 := by decide
  obtain ⟨proof, hproof, hverify⟩ := h.wellFormed.proof_verifies (h.depth ▸ hdepth)
    (by rw [hitems, h.depth]; exact hcap) (by rw [hitems]; exact hleaf)
  rw [h.wellFormed.root_eq h.depth, hitems, h.depth, ofNat_toNat, setWidth_eq,
    verifyMerkleBranch_rootBytes c hdepth] at hverify
  exact ⟨proof, hproof, Except.ok.inj hverify⟩

/-! ### The trie of the canonical eth1 data -/

/-- What calls of the cache make of the finalized trie, when `j` is the next index: it holds the
first deposits, or those after an empty first leaf, or there are fewer items than the index of the
one inserted last. -/
def Built (hash : Bytes → Root) (hs : List Root) (j : ℕ) (t : SparseMerkleTrie) : Prop :=
  (∃ k, HoldsFirst hash hs k t) ∨
    (0 < j ∧ ∃ k, 0 < k ∧ HoldsFirst hash (hs.set 0 zeroHash) k t) ∨
    ∃ m x v, t = SparseMerkleTrie.insertNat hash m v x ∧ m.depth = depositContractTreeDepth ∧
      m.branches.length = depositContractTreeDepth + 1 ∧ hs[x]? = some v ∧
      t.originalItems.length ≤ x ∧ x < j

section Built

variable {hash : Bytes → Root} {v : Root} {k : ℕ}

theorem built_gap (hdepth : t.depth = depositContractTreeDepth)
    (hlen : t.branches.length = depositContractTreeDepth + 1) (hv : hs[j]? = some v)
    (hgap : t.originalItems.length < j) : Built hash hs (j + 1) (t.insertNat hash v j) := by
  refine .inr (.inr ⟨t, j, v, rfl, hdepth, hlen, hv, ?_, Nat.lt_succ_self j⟩)
  rw [SparseMerkleTrie.originalItems_insertNat, Merkle.length_put, if_pos hgap.le]
  exact hgap

theorem HoldsFirst.length_items (h : HoldsFirst hash hs k t) (hk : 0 < k) :
    t.originalItems.length = k := by
  rw [h.items, if_neg hk.ne', length_take, Nat.min_eq_left h.le]

theorem HoldsFirst.length_branches (h : HoldsFirst hash hs k t) :
    t.branches.length = depositContractTreeDepth + 1 := h.depth ▸ h.wellFormed.holds.length

theorem Built.insert (hv : hs[j]? = some v) (h : Built hash hs j t) :
    Built hash hs (j + 1) (t.insertNat hash v j) := by
  have hlt := (List.getElem?_eq_some_iff.mp hv).1
  have hafter : 0 < j → ∀ k, 0 < k → HoldsFirst hash (hs.set 0 zeroHash) k t →
      Built hash hs (j + 1) (t.insertNat hash v j) := by
    intro hj k hk ht
    rcases le_or_gt j k with hle | hgt
    · refine .inr (.inl ⟨Nat.succ_pos j, _, lt_of_lt_of_le hk (le_max_left k (j + 1)),
        ht.insert hle ?_⟩)
      rw [getElem?_set_ne hj.ne, hv]
    · exact built_gap ht.depth ht.length_branches hv (by rwa [ht.length_items hk])
  rcases h with ⟨k, ht⟩ | ⟨hj, k, hk, ht⟩ | ⟨m, x, w, rfl, hdepth, hlen, -, hle, hx⟩
  · rcases le_or_gt j k with hle | hgt
    · exact .inl ⟨_, ht.insert hle hv⟩
    rcases Nat.eq_zero_or_pos k with rfl | hk
    · -- the new trie has an empty leaf in the place of the first deposit
      refine hafter hgt 1 Nat.one_pos ⟨ht.wellFormed, ht.depth, by rw [length_set]; omega, ?_⟩
      obtain ⟨w, hs', rfl⟩ := exists_cons_of_length_pos (show 0 < hs.length by omega)
      rw [ht.items]
      rfl
    · exact built_gap ht.depth ht.length_branches hv (by rwa [ht.length_items hk])
  · exact hafter hj k hk ht
  · refine built_gap hdepth ?_ hv (lt_of_le_of_lt hle hx)
    exact (length_insertLoop ..).trans ((length_set ..).trans hlen)

theorem Built.mono (h : Built hash hs j t) {j' : ℕ} (hj : j ≤ j') : Built hash hs j' t := by
  rcases h with h | ⟨hpos, h⟩ | ⟨m, x, v, ht, hdepth, hlen, hv, hle, hx⟩
  · exact .inl h
  · exact .inr (.inl ⟨by omega, h⟩)
  · exact .inr (.inr ⟨m, x, v, ht, hdepth, hlen, hv, hle, by omega⟩)

theorem Built.append (h : Built hash hs j t) (hs' : List Root) : Built hash (hs ++ hs') j t := by
  rcases h with ⟨k, ht⟩ | ⟨hpos, k, hk, ht⟩ | ⟨m, x, v, ht, hdepth, hlen, hv, hrest⟩
  · exact .inl ⟨k, ht.append hs'⟩
  · have hle := ht.le
    rw [length_set] at hle
    refine .inr (.inl ⟨hpos, k, hk, ?_⟩)
    rw [set_append_left _ _ (by omega)]
    exact ht.append hs'
  · refine .inr (.inr ⟨m, x, v, ht, hdepth, hlen, ?_, hrest⟩)
    rw [getElem?_append_left (List.getElem?_eq_some_iff.mp hv).1, hv]

end Built

theorem Listed.take (h : Listed hashTreeRoot hs j ds) (n : ℕ) :
    Listed hashTreeRoot (hs.take (j + n)) j (ds.take n) := by
  induction ds generalizing j n with
  | nil =>
    obtain rfl : j = hs.length := h
    simp [Listed]
  | cons d ds ih =>
    have hlen := h.length
    rw [length_cons] at hlen
    cases n with
    | zero => simp [Listed]; omega
    | succ n =>
      obtain ⟨hidx, ⟨v, hv, hd⟩, htail⟩ := h
      refine ⟨hidx, ⟨v, ?_, hd⟩, ?_⟩
      · rw [getElem?_take_of_lt (by omega), hv]
      · rw [show j + (n + 1) = j + 1 + n by omega]
        exact ih htail n

section

variable {dc : DepositCache DepositData} {start : ℕ} {δ : Type} {height : BitVec 64}
  {ctnr : DepositContainer DepositData} {state : BeaconState} {canonical : Eth1Data}

theorem HoldsContract.position {dc : DepositCache δ} {start : ℕ} (h : HoldsContract dc start)
    {ctnr : DepositContainer δ} (hctnr : ctnr ∈ dc.pendingDeposits) :
    ∃ (i : ℕ) (d : DepositContainer δ), dc.deposits[i]? = some d ∧ ctnr.index = i ∧
      d.deposit.data = ctnr.deposit.data ∧ d.eth1BlockHeight = ctnr.eth1BlockHeight := by
  obtain ⟨d, hd, hindex, hdata, hheight⟩ := h.pending_cached ctnr hctnr
  obtain ⟨i, hi⟩ := mem_iff_getElem?.mp hd
  exact ⟨i, d, hi, hindex.symm.trans (h.index i d hi), hdata, hheight⟩

def outstanding (dc : DepositCache DepositData) (state : BeaconState) (canonical : Eth1Data)
    (height : BitVec 64) : List (DepositContainer DepositData) :=
  (dc.pendingContainers (some height)).filter (isOutstanding state canonical)

end

/-! ### The packed deposits -/

variable {currentVote : Eth1Data} {info : Eth1Info}

/-- Hash functions for concrete states, without signatures. -/
def plainCrypto : Crypto Unit Unit :=
  { Beacon.plainCrypto with
    hash := plainHash
    depositDataRoot := fun data => BitVec.ofNat 256 (data.amount.toNat + 1)
    publicKeyFromBytes := fun _ => none
    signatureFromBytes := fun _ => none
    verify := fun _ _ _ => false }

def signedData (amount : BitVec 64) : DepositData :=
  { (default : DepositData) with amount, signature := replicate 96 0 }

end Vanguard.Deposits
