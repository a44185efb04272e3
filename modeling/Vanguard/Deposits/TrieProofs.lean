import Vanguard.Deposits.Intake

/-!
Roots and proofs of a trie.

A trie that items were inserted into has the root and the proofs of the trie generated from all
its items. A proof is verified by hashing from the item up to the root, with the number of items
as the last sibling; its elements are byte strings of any length.
-/

namespace Vanguard.Deposits

open List BitVec Nat Bytes

open Beacon (rootBytes)
open Merkle (node node_succ_half leaves put)

/-! ### Insertion and generation -/

/-- Indices at which items go, each at most the number of items at that time. -/
def InsertsAt : ℕ → List (Root × ℕ) → Prop
  | _, [] => True
  | n, op :: ops => op.2 ≤ n ∧ InsertsAt (max n (op.2 + 1)) ops

def itemsAfter (items : List Root) (ops : List (Root × ℕ)) : List Root :=
  ops.foldl (fun items op => put items op.2 op.1) items

variable {i : ℕ}

section

variable {hash : Bytes → Root} {m m' : SparseMerkleTrie}

theorem length_put_max {items : List Root} {x : ℕ} (hx : x ≤ items.length) (v : Root) :
    (put items x v).length = max items.length (x + 1) := by
  rw [Merkle.length_put]
  split <;> omega

theorem SparseMerkleTrie.WellFormed.inserts (h : m.WellFormed hash) {ops : List (Root × ℕ)}
    (hops : InsertsAt m.originalItems.length ops) :
    ∃ m', ops.foldlM (fun m op => m.insert hash op.1 op.2) m = .ok m' ∧ m'.WellFormed hash ∧
      m'.depth = m.depth ∧ m'.originalItems = itemsAfter m.originalItems ops := by
  induction ops generalizing m with
  | nil => exact ⟨m, rfl, h, rfl, rfl⟩
  | cons op ops ih =>
    obtain ⟨hle, hops⟩ := hops
    have hlen := length_put_max hle op.1
    obtain ⟨m', hm', hwf, hdepth, hitems⟩ :=
      ih (h.insertNat hle op.1) (by rwa [originalItems_insertNat, hlen])
    refine ⟨m', ?_, hwf, hdepth, hitems⟩
    rw [foldlM_cons, SparseMerkleTrie.insert, if_neg (by omega)]
    exact hm'

theorem SparseMerkleTrie.WellFormed.merkleProof_congr (h : m.WellFormed hash)
    (h' : m'.WellFormed hash) (hle : m.depth ≤ 64) (hdepth : m.depth = m'.depth)
    (hitems : m.originalItems = m'.originalItems) (hi : i < m.originalItems.length) :
    m.merkleProof hash i = m'.merkleProof hash i := by
  rw [h.merkleProof_ok hle hi, h'.merkleProof_ok (hdepth ▸ hle) (hitems ▸ hi), hdepth, hitems]

/-- The root of the deposit contract over a tree of the given depth, for a count of items. -/
def mixedRoot (hash : Bytes → Root) (items : List Root) (depth count : ℕ) : Root :=
  hash (rootBytes (node (hashPair hash) (leaves zeroHash items) depth 0) ++
    (ofUint64LE (BitVec.ofNat 64 count) ++ List.replicate 24 0))

theorem SparseMerkleTrie.WellFormed.hashTreeRoot_eq (h : m.WellFormed hash) :
    m.hashTreeRoot hash = mixedRoot hash m.originalItems m.depth
      (if m.originalItems = [zeroHash] then 0 else m.originalItems.length) := by
  rw [hashTreeRoot, h.top_eq, mixedRoot]

/-- Inserting into a trie equals rebuilding it. The root is the one of the deposit contract, where
a trie with a zero item only counts as empty. -/
theorem inserts_eq_generated {items : List Root} {depth : ℕ} {m₀ : SparseMerkleTrie}
    {ops : List (Root × ℕ)} (hdepth : depth ≤ 100)
    (hstart : generateTrieFromItems hash items depth = .ok m₀ ∨
      items = [zeroHash] ∧ m₀ = newTrie hash depth)
    (hops : InsertsAt items.length ops) :
    ∃ m g, ops.foldlM (fun m op => m.insert hash op.1 op.2) m₀ = .ok m ∧
      generateTrieFromItems hash (itemsAfter items ops) depth = .ok g ∧
      m.hashTreeRoot hash = g.hashTreeRoot hash ∧
      (depth ≤ 64 → ∀ i < (itemsAfter items ops).length,
        m.merkleProof hash i = g.merkleProof hash i ∧ (g.merkleProof hash i).isOk) ∧
      m.hashTreeRoot hash = mixedRoot hash (itemsAfter items ops) depth
        (if itemsAfter items ops = [zeroHash] then 0 else (itemsAfter items ops).length) := by
  obtain ⟨hwf₀, rfl, rfl⟩ : m₀.WellFormed hash ∧ m₀.originalItems = items ∧ m₀.depth = depth := by
    rcases hstart with hgen | ⟨rfl, rfl⟩
    · have hne : items ≠ [] := by
        rintro rfl
        cases hgen
      obtain ⟨g, hg, hwf, hitems, hd⟩ := generateTrieFromItems_ok hash hne hdepth
      cases hgen.symm.trans hg
      exact ⟨hwf, hitems, hd⟩
    · exact ⟨wellFormed_newTrie hash depth, rfl, rfl⟩
  obtain ⟨m, hm, hwf, hd, hitems⟩ := hwf₀.inserts hops
  have hne : itemsAfter m₀.originalItems ops ≠ [] := hitems ▸ hwf.nonempty
  obtain ⟨g, hg, hgwf, hgitems, hgd⟩ := generateTrieFromItems_ok hash hne hdepth
  have hroot := hwf.hashTreeRoot_eq
  have hgroot := hgwf.hashTreeRoot_eq
  rw [hitems, hd] at hroot
  rw [hgitems, hgd] at hgroot
  refine ⟨m, g, hm, hg, hroot.trans hgroot.symm, fun hle i hi => ⟨?_, ?_⟩, hroot⟩
  · exact hwf.merkleProof_congr hgwf (hd ▸ hle) (hd.trans hgd.symm) (hitems.trans hgitems.symm)
      (hitems ▸ hi)
  · rw [hgwf.merkleProof_ok (hgd ▸ hle) (hgitems ▸ hi)]
    rfl

end

/-- A hash that tells the zero strings from the others. -/
def zeroTest (l : Bytes) : Root := if l.all (· = 0) then 0 else 1

/-- Two items, the second appended to a new trie. -/
theorem inserts_eq_generated_two : ∃ m g,
    [((5 : Root), 1)].foldlM (fun m op => SparseMerkleTrie.insert zeroTest m op.1 op.2)
      (newTrie zeroTest 2) = .ok m ∧
    generateTrieFromItems zeroTest [zeroHash, 5] 2 = .ok g ∧
    m.hashTreeRoot zeroTest = g.hashTreeRoot zeroTest := by
  obtain ⟨m, g, hm, hg, hroot, -⟩ := @inserts_eq_generated zeroTest [zeroHash] 2
    (newTrie zeroTest 2) [(5, 1)] (by decide) (.inr ⟨rfl, rfl⟩) ⟨by decide, trivial⟩
  exact ⟨m, g, hm, hg, hroot⟩

/-- The root of a trie with one item, a zero one, is not mixed with the number of items. At
depth 65 there are no proofs. -/
theorem zero_item_not_counted :
    (∃ m, generateTrieFromItems zeroTest [zeroHash] 0 = .ok m ∧
      m.hashTreeRoot zeroTest ≠ mixedRoot zeroTest [zeroHash] 0 [zeroHash].length) ∧
    (newTrie zeroTest 65).merkleProof zeroTest 0 = .error .panic :=
  ⟨⟨newTrie zeroTest 0, rfl, by decide⟩, rfl⟩

/-! ### Verification -/

/-- `bytesutil.ToBytes32`: the first 32 bytes, with zeros for those that are missing. -/
def toBytes32 (item : Bytes) : Root :=
  BitVec.ofNat 256 (value ((item ++ List.replicate 32 0).take 32))

/-- What is hashed at a level of a branch. -/
def branchInput (merkleIndex : BitVec 64) (proof : List Bytes) (i : ℕ) (node : Root) : Bytes :=
  if merkleIndex.toNat / 2 ^ i % 2 ≠ 0 then proof.getD i [] ++ rootBytes node
  else rootBytes node ++ proof.getD i []

section

variable (hash : Bytes → Root)

def branchNode (item : Root) (merkleIndex : BitVec 64) (proof : List Bytes) : ℕ → Root
  | 0 => item
  | i + 1 => hash (branchInput merkleIndex proof i (branchNode item merkleIndex proof i))

/-- `VerifyMerkleBranch`; `PowerOf2` panics for level 64. -/
def verifyMerkleBranch (root item : Bytes) (merkleIndex : BitVec 64) (proof : List Bytes)
    (depth : ℕ) : Except TrieErr Bool :=
  if proof.length ≠ depth + 1 then .ok false
  else if 64 ≤ depth then .error .panic
  else .ok (decide (root =
    rootBytes (branchNode hash (toBytes32 item) merkleIndex proof (depth + 1))))

/-- What is hashed on the way from a leaf of a trie to its root. -/
def SparseMerkleTrie.pathInput (m : SparseMerkleTrie) (merkleIndex : BitVec 64) (i : ℕ) : Bytes :=
  let tree := node (hashPair hash) (leaves zeroHash m.originalItems)
  if i < m.depth then
    let j := merkleIndex.toNat / 2 ^ (i + 1)
    rootBytes (tree i (2 * j)) ++ rootBytes (tree i (2 * j + 1))
  else rootBytes (tree m.depth 0) ++ rootBytes (encodeCount m.originalItems.length)

/-- The hash is injective on what is hashed for a branch and on the path of the trie, and no hash
in the branch is the encoded count. -/
structure CollisionFree (m : SparseMerkleTrie) (item : Root) (merkleIndex : BitVec 64)
    (proof : List Bytes) : Prop where
  injective : ∀ i ≤ m.depth, ∀ j ≤ m.depth,
    let input := branchInput merkleIndex proof i (branchNode hash item merkleIndex proof i)
    hash input = hash (m.pathInput hash merkleIndex j) → input = m.pathInput hash merkleIndex j
  count : ∀ i < m.depth, branchNode hash item merkleIndex proof (i + 1) ≠
    encodeCount m.originalItems.length

end

theorem rootBytes_injective : Function.Injective rootBytes := fun a b h => by
  have ha := a.isLt
  have hb := b.isLt
  have hval := congrArg value h
  rw [rootBytes, rootBytes, value_bigEndian, value_bigEndian,
    mod_eq_of_lt (by omega), mod_eq_of_lt (by omega)] at hval
  exact eq_of_toNat_eq hval

theorem eq_of_append {a b c : Root} {s : Bytes} :
    (rootBytes a ++ s = rootBytes b ++ rootBytes c → a = b) ∧
      (s ++ rootBytes a = rootBytes b ++ rootBytes c → a = c) := by
  have hlen : ∀ r : Root, (rootBytes r).length = 32 := fun r => length_bigEndian 32 _
  exact ⟨fun h => rootBytes_injective (append_inj h ((hlen a).trans (hlen b).symm)).1,
    fun h => rootBytes_injective (append_inj' h ((hlen a).trans (hlen c).symm)).2⟩

section

variable {hash : Bytes → Root} {m : SparseMerkleTrie} {merkleIndex : BitVec 64}
  {proof : List Bytes} {item : Root}

theorem branchNode_of_succ (h : CollisionFree hash m item merkleIndex proof)
    (hi : i < m.depth)
    (hnode : branchNode hash item merkleIndex proof (i + 1) = node (hashPair hash)
      (leaves zeroHash m.originalItems) (i + 1) (merkleIndex.toNat / 2 ^ (i + 1))) :
    branchNode hash item merkleIndex proof i = node (hashPair hash)
      (leaves zeroHash m.originalItems) i (merkleIndex.toNat / 2 ^ i) := by
  have hdiv : merkleIndex.toNat / 2 ^ (i + 1) = merkleIndex.toNat / 2 ^ i / 2 := by
    rw [Nat.div_div_eq_div_mul, Nat.pow_succ]
  have hinput := h.injective i hi.le i hi.le
  simp only [SparseMerkleTrie.pathInput, if_pos hi] at hinput
  have heq := hinput hnode
  rw [branchInput, hdiv] at heq
  split at heq
  next hbit =>
    rw [eq_of_append.2 heq]
    congr 1
    omega
  next hbit =>
    rw [eq_of_append.1 heq]
    congr 1
    omega

/-- The siblings of the nodes above an item, with the number of items at the end. -/
def siblings (hash : Bytes → Root) (leaf : ℕ → Root) (x d n : ℕ) : List Root :=
  (range d).map (fun i => node (hashPair hash) leaf i ((x / 2 ^ i) ^^^ 1)) ++ [encodeCount n]

theorem branchNode_siblings {leaf : ℕ → Root} {d : ℕ} (n : ℕ) {i : ℕ} (hi : i ≤ d) :
    branchNode hash (leaf merkleIndex.toNat) merkleIndex
        ((siblings hash leaf merkleIndex.toNat d n).map rootBytes) i =
      node (hashPair hash) leaf i (merkleIndex.toNat / 2 ^ i) := by
  induction i with
  | zero => simp [branchNode, node]
  | succ i ih =>
    have hdiv : merkleIndex.toNat / 2 ^ (i + 1) = merkleIndex.toNat / 2 ^ i / 2 := by
      rw [Nat.div_div_eq_div_mul, Nat.pow_succ]
    have hsibling : ((siblings hash leaf merkleIndex.toNat d n).map rootBytes).getD i [] =
        rootBytes (node (hashPair hash) leaf i ((merkleIndex.toNat / 2 ^ i) ^^^ 1)) := by
      simp [siblings, getD_eq_getElem?_getD, getElem?_append_left, lt_of_succ_le hi]
    rw [branchNode, ih (by omega), branchInput, hsibling, hdiv, node_succ_half]
    rcases mod_two_eq_zero_or_one (merkleIndex.toNat / 2 ^ i) with heven | hodd
    · simp [heven, hashPair]
    · simp [hodd, hashPair]

theorem verifyMerkleBranch_eq_true {root : Root} {bytes : Bytes} {depth : ℕ}
    (hdepth : depth < 64) : verifyMerkleBranch hash (rootBytes root) bytes merkleIndex proof depth =
      .ok true ↔ proof.length = depth + 1 ∧
        branchNode hash (toBytes32 bytes) merkleIndex proof (depth + 1) = root := by
  rw [verifyMerkleBranch, if_neg (show ¬ 64 ≤ depth by omega)]
  split
  next hlen => simp [hlen]
  next hlen => simp [not_not.mp hlen, rootBytes_injective.eq_iff, eq_comm]

theorem toBytes32_rootBytes (r : Root) : toBytes32 (rootBytes r) = r := by
  have hlt := r.isLt
  have hlen : (rootBytes r).length = 32 := length_bigEndian 32 _
  rw [toBytes32, take_append_of_le_length hlen.ge, take_of_length_le hlen.le, rootBytes,
    value_bigEndian, mod_eq_of_lt (by omega), ofNat_toNat, setWidth_eq]

theorem SparseMerkleTrie.WellFormed.proof_verifies (h : m.WellFormed hash) (hdepth : m.depth < 64)
    (hcap : m.originalItems.length ≤ 2 ^ m.depth)
    (hi : m.originalItems[i]? = some item) :
    ∃ proof, m.merkleProof hash i = .ok proof ∧ Deposits.verifyMerkleBranch hash
      (rootBytes (m.root hash)) (rootBytes item) (BitVec.ofNat 64 i) (proof.map rootBytes)
        m.depth = .ok true := by
  obtain ⟨hlt, hget⟩ := List.getElem?_eq_some_iff.mp hi
  have hpow : 2 ^ m.depth ≤ 2 ^ 63 := Nat.pow_le_pow_right (by decide) (by omega)
  have hindex : (BitVec.ofNat 64 i).toNat = i := by
    rw [toNat_ofNat, mod_eq_of_lt (by omega)]
  have hitem : leaves zeroHash m.originalItems i = item := by
    rw [leaves, getD_eq_getElem?_getD, hi, Option.getD_some]
  have hnode := @branchNode_siblings hash (BitVec.ofNat 64 i) (leaves zeroHash m.originalItems)
    m.depth m.originalItems.length m.depth le_rfl
  have htop : i / 2 ^ m.depth = 0 := div_eq_of_lt (hlt.trans_le hcap)
  rw [hindex, htop, hitem] at hnode
  have hproof : m.merkleProof hash i = .ok (siblings hash (leaves zeroHash m.originalItems) i
      m.depth m.originalItems.length) := h.merkleProof_ok hdepth.le hlt
  refine ⟨_, hproof, (verifyMerkleBranch_eq_true hdepth).mpr ⟨by simp [siblings], ?_⟩⟩
  have hlast : ((siblings hash (leaves zeroHash m.originalItems) i m.depth
      m.originalItems.length).map rootBytes).getD m.depth [] =
      rootBytes (encodeCount m.originalItems.length) := by
    simp [siblings]
  rw [toBytes32_rootBytes, branchNode, hnode, branchInput, hindex, htop, hlast, root, h.top_eq]
  rfl

theorem SparseMerkleTrie.WellFormed.leaf_of_verified (h : m.WellFormed hash)
    (hdepth : m.depth < 64) (hpos : 0 < m.depth) {bytes : Bytes}
    (hindex : merkleIndex.toNat < 2 ^ (m.depth + 1))
    (hfree : CollisionFree hash m (toBytes32 bytes) merkleIndex proof)
    (hverify : Deposits.verifyMerkleBranch hash (rootBytes (m.root hash)) bytes merkleIndex proof
      m.depth = .ok true) : merkleIndex.toNat < 2 ^ m.depth ∧
      toBytes32 bytes = leaves zeroHash m.originalItems merkleIndex.toNat := by
  obtain ⟨-, hroot⟩ := (verifyMerkleBranch_eq_true hdepth).mp hverify
  have htop := hfree.injective m.depth le_rfl m.depth le_rfl
  simp only [pathInput, lt_irrefl, if_false] at htop
  have heq := htop (by rw [root, h.top_eq] at hroot; exact hroot)
  rw [branchInput] at heq
  split at heq
  next =>
    -- the last node would be the count
    have hcount := hfree.count (m.depth - 1) (by omega)
    rw [Nat.sub_add_cancel hpos] at hcount
    exact absurd (eq_of_append.2 heq) hcount
  next hbit =>
    have hlt : merkleIndex.toNat / 2 ^ m.depth < 2 := by
      rw [Nat.div_lt_iff_lt_mul (Nat.two_pow_pos _), Nat.mul_comm, ← Nat.pow_succ]
      exact hindex
    have hzero : merkleIndex.toNat / 2 ^ m.depth = 0 := by
      generalize merkleIndex.toNat / 2 ^ m.depth = q at hbit hlt
      omega
    refine ⟨(div_eq_zero_iff_lt (Nat.two_pow_pos _)).mp hzero, ?_⟩
    have hnode : ∀ k ≤ m.depth, branchNode hash (toBytes32 bytes) merkleIndex proof (m.depth - k) =
        node (hashPair hash) (leaves zeroHash m.originalItems) (m.depth - k)
          (merkleIndex.toNat / 2 ^ (m.depth - k)) := by
      intro k hk
      induction k with
      | zero => rw [Nat.sub_zero, hzero, eq_of_append.1 heq]
      | succ k ih =>
        refine branchNode_of_succ hfree (by omega) ?_
        rw [show m.depth - (k + 1) + 1 = m.depth - k by omega]
        exact ih (by omega)
    have hleaf := hnode m.depth le_rfl
    rw [Nat.sub_self] at hleaf
    simpa [branchNode, node] using hleaf

/-- Every proof of a trie verifies, and every branch that verifies ends in a leaf of the trie. The
trie has at least one layer above its leaves. -/
theorem branch_verifies_iff_leaf (h : m.WellFormed hash) (hdepth : m.depth < 64)
    (hpos : 0 < m.depth) (hcap : m.originalItems.length ≤ 2 ^ m.depth) :
    (∀ (i : ℕ) (item : Root), m.originalItems[i]? = some item →
      ∃ proof, m.merkleProof hash i = .ok proof ∧ verifyMerkleBranch hash
        (rootBytes (m.root hash)) (rootBytes item) (BitVec.ofNat 64 i) (proof.map rootBytes)
          m.depth = .ok true) ∧
    ∀ (merkleIndex : BitVec 64) (bytes : Bytes) (proof : List Bytes),
      merkleIndex.toNat < 2 ^ (m.depth + 1) →
      CollisionFree hash m (toBytes32 bytes) merkleIndex proof →
      verifyMerkleBranch hash (rootBytes (m.root hash)) bytes merkleIndex proof m.depth =
        .ok true →
      merkleIndex.toNat < 2 ^ m.depth ∧
        toBytes32 bytes = leaves zeroHash m.originalItems merkleIndex.toNat :=
  ⟨fun _ _ hi => h.proof_verifies hdepth hcap hi, fun _ _ _ hindex hfree hverify =>
    h.leaf_of_verified hdepth hpos hindex hfree hverify⟩

/-! ### The item inserted last -/

theorem length_insertLoop (n i currentIndex : ℕ) (r : Root) (b : List (List Root)) :
    (insertLoop hash n i currentIndex r b).length = b.length := by
  induction n generalizing i currentIndex r b with
  | zero => rfl
  | succ n ih => rw [insertLoop, ih, length_set]

end

/-- A hash that keeps the inputs of small trees apart. -/
def sumHash (l : Bytes) : Root := BitVec.ofNat 256 (1000 + value l % 1009)

/-- Two items in a trie of depth one. -/
def pairTrie : SparseMerkleTrie := ⟨1, layersFrom sumHash 1 0 [1, 2], [1, 2]⟩

theorem branch_verifies_iff_leaf_pair : toBytes32 (rootBytes 1) =
    leaves zeroHash pairTrie.originalItems 0 := by
  have hwf : pairTrie.WellFormed sumHash := ⟨holds_layersFrom sumHash [1, 2] 1, by decide⟩
  obtain ⟨hcomplete, hsound⟩ :=
    branch_verifies_iff_leaf hwf (by decide) (by decide) (by decide)
  obtain ⟨proof, hproof, hverify⟩ := hcomplete 0 1 rfl
  have hproof' : pairTrie.merkleProof sumHash 0 = .ok [2, encodeCount 2] := by decide +kernel
  cases hproof'.symm.trans hproof
  exact (hsound 0 (rootBytes 1) _ (by decide) ⟨by decide +kernel, by decide +kernel⟩ hverify).2

/-- Without a layer above the leaf the count itself is accepted as an item, at index one. -/
theorem count_accepted_as_item : ∃ (m : SparseMerkleTrie) (bytes : Bytes) (proof : List Bytes),
    m.WellFormed sumHash ∧ m.originalItems.length ≤ 2 ^ m.depth ∧
      (1 : BitVec 64).toNat < 2 ^ (m.depth + 1) ∧
      CollisionFree sumHash m (toBytes32 bytes) 1 proof ∧
      verifyMerkleBranch sumHash (rootBytes (m.root sumHash)) bytes 1 proof m.depth = .ok true ∧
      ¬ (1 : BitVec 64).toNat < 2 ^ m.depth :=
  ⟨⟨0, [[7]], [7]⟩, rootBytes (encodeCount 1), [rootBytes 7],
    ⟨holds_layersFrom sumHash [7] 0, by decide⟩, by decide, by decide,
    ⟨by decide +kernel, by decide⟩, by decide +kernel, by decide⟩

end Vanguard.Deposits
