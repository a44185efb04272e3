import Vanguard.Beacon.Proposer
import Vanguard.Lib.MerkleTree

/-!
The sparse Merkle trie of `trieutil`, from which deposit roots and proofs are computed.

A trie keeps its nodes in layers and beside them the items it was given. The two are in step
as long as an item is inserted in place of an earlier one or right after the last: the layers
then hold the Merkle tree over the items.
-/

namespace Vanguard.Deposits

open List Function Bytes Merkle

open Beacon (rootBytes)
open Merkle (node node_succ_half node_update_of_ne leaves put)

structure SparseMerkleTrie where
  depth : ℕ
  branches : List (List Root)
  originalItems : List Root
  deriving DecidableEq, Repr

inductive TrieErr
  /-- `no items provided to generate Merkle trie` -/
  | noItems
  /-- `merkle index out of range in trie, max range: %d, received: %d` -/
  | indexOutOfRange (max received : ℕ)
  /-- An index out of range, or a division by zero. -/
  | panic
  deriving DecidableEq, Repr

/-- The 32 bytes that hold a count in little-endian order. -/
def encodeCount (n : ℕ) : Root :=
  BitVec.ofNat 256 (value (ofUint64LE (BitVec.ofNat 64 n) ++ replicate 24 0))

section

variable (hash : Bytes → Root)

def hashPair (a b : Root) : Root := hash (rootBytes a ++ rootBytes b)

/-- `ZeroHashes`, a table in the source -/
def zeroHashes (i : ℕ) : Root := Merkle.zeroHashes (hashPair hash) zeroHash i

/-! ### The functions of the trie -/

/-- A layer, made even. -/
def padded (i : ℕ) (layer : List Root) : List Root :=
  if layer.length % 2 = 1 then layer ++ [zeroHashes hash i] else layer

/-- The loop of `GenerateTrieFromItems`, from layer `i` on. -/
def layersFrom : ℕ → ℕ → List Root → List (List Root)
  | 0, _, layer => [layer]
  | n + 1, i, layer =>
    let layer := padded hash i layer
    layer :: layersFrom n (i + 1) (pairUp (hashPair hash) layer)

def generateTrieFromItems (items : List Root) (depth : ℕ) : Except TrieErr SparseMerkleTrie :=
  if items = [] then .error .noItems
  -- the table of zero hashes ends at height 100
  else if 100 < depth then .error .panic
  else .ok { depth, branches := layersFrom hash depth 0 items, originalItems := items }

def newTrie (depth : ℕ) : SparseMerkleTrie :=
  { depth, branches := layersFrom hash depth 0 [zeroHash], originalItems := [zeroHash] }

/-- The loop of `Insert` over the layers above layer `i`. -/
def insertLoop : ℕ → ℕ → ℕ → Root → List (List Root) → List (List Root)
  | 0, _, _, _, branches => branches
  | n + 1, i, currentIndex, root, branches =>
    let neighbor := (branches.getD i []).getD (currentIndex ^^^ 1) (zeroHashes hash i)
    let root :=
      if currentIndex % 2 = 0 then hashPair hash root neighbor else hashPair hash neighbor root
    let parentIdx := currentIndex / 2
    let layer := put (branches.getD (i + 1) []) parentIdx root
    insertLoop n (i + 1) parentIdx root (branches.set (i + 1) layer)

namespace SparseMerkleTrie

variable (m : SparseMerkleTrie)

/-- `Insert` at an index that is not negative. -/
def insertNat (item : Root) (index : ℕ) : SparseMerkleTrie :=
  let leaves := (Slices.grow (m.branches.getD 0 []) (index + 1) (zeroHashes hash 0)).set index item
  { m with
    branches := insertLoop hash m.depth 0 index item (m.branches.set 0 leaves)
    originalItems := put m.originalItems index item }

def insert (item : Root) (index : ℤ) : Except TrieErr SparseMerkleTrie :=
  if index < 0 then .error .panic else .ok (m.insertNat hash item index.toNat)

/-- The node at the top, `m.branches[len(m.branches)-1][0]`. -/
def top : Root := (m.branches.getD (m.branches.length - 1) []).getD 0 zeroHash

def root : Root := hashPair hash m.top (encodeCount m.originalItems.length)

/-- `NumOfItems`; the trie of `NewTrie` counts as empty. -/
def numOfItems : ℕ := if m.originalItems = [zeroHash] then 0 else m.originalItems.length

def hashTreeRoot : Root :=
  let depositCount := if m.originalItems = [zeroHash] then 0 else m.originalItems.length
  hash (rootBytes m.top ++ (ofUint64LE (BitVec.ofNat 64 depositCount) ++
    replicate 24 0))

def merkleProof (index : ℕ) : Except TrieErr (List Root) :=
  let leaves := m.branches.getD 0 []
  if leaves.length ≤ index then .error (.indexOutOfRange leaves.length index)
  -- the divisor of layer 64 is zero
  else if 64 < m.depth then .error .panic
  else .ok ((range m.depth).map (fun i =>
      (m.branches.getD i []).getD ((index / 2 ^ i) ^^^ 1) (zeroHashes hash i)) ++
    [encodeCount m.originalItems.length])

/-- A trie whose layers hold the tree over its items. -/
structure WellFormed : Prop where
  holds : Holds (hashPair hash) zeroHash m.depth m.branches m.originalItems
  nonempty : m.originalItems ≠ []

end SparseMerkleTrie

end

/-! ### Generated tries -/

section

variable (hash : Bytes → Root)

section

variable (i : ℕ) (layer : List Root)

theorem padded_even : (padded hash i layer).length % 2 = 0 := by
  rw [padded]
  split
  · rw [length_append, length_singleton]
    omega
  · omega

theorem length_le_padded : layer.length ≤ (padded hash i layer).length := by
  rw [padded]
  split <;> simp

theorem getD_padded (j : ℕ) :
    (padded hash i layer).getD j (zeroHashes hash i) = layer.getD j (zeroHashes hash i) := by
  rw [padded]
  split
  · rcases Nat.lt_trichotomy j layer.length with hlt | rfl | hgt
    · rw [getD_append _ _ _ _ hlt]
    · simp
    · rw [getD_eq_default _ _ (by simp; omega), getD_eq_default _ _ (by omega)]
  · rfl

end

theorem length_layersFrom (n i : ℕ) (layer : List Root) :
    (layersFrom hash n i layer).length = n + 1 := by
  induction n generalizing i layer with
  | zero => rfl
  | succ n ih => simp [layersFrom, ih]

/-- The layers above a layer that holds level `i` hold the levels above. -/
theorem layersFrom_read {leaf : ℕ → Root} {i : ℕ} {layer : List Root} (n : ℕ)
    (hlayer : ∀ j, layer.getD j (zeroHashes hash i) = node (hashPair hash) leaf i j) (k : ℕ)
    (hk : k ≤ n) (j : ℕ) :
    ((layersFrom hash n i layer).getD k []).getD j (zeroHashes hash (i + k)) =
      node (hashPair hash) leaf (i + k) j := by
  induction n generalizing i layer k with
  | zero =>
    obtain rfl : k = 0 := by omega
    exact hlayer j
  | succ n ih =>
    have hpadded := fun j => (getD_padded hash i layer j).trans (hlayer j)
    cases k with
    | zero => exact hpadded j
    | succ k =>
      have habove : ∀ j, (pairUp (hashPair hash) (padded hash i layer)).getD j
          (zeroHashes hash (i + 1)) = node (hashPair hash) leaf (i + 1) j := by
        intro j
        rw [node, ← hpadded, ← hpadded]
        exact getD_pairUp (padded_even hash i layer) _ j
      rw [show i + (k + 1) = i + 1 + k by omega]
      exact ih habove k (by omega)

theorem layersFrom_long {i len : ℕ} {layer : List Root} (n : ℕ) (hlen : len ≤ 2 ^ i * layer.length)
    (k : ℕ) (hk : k ≤ n) : len ≤ 2 ^ (i + k) * ((layersFrom hash n i layer).getD k []).length := by
  induction n generalizing i layer k with
  | zero =>
    obtain rfl : k = 0 := by omega
    exact hlen
  | succ n ih =>
    have hle := length_le_padded hash i layer
    have heven := padded_even hash i layer
    have hpadded : len ≤ 2 ^ i * (padded hash i layer).length :=
      hlen.trans (Nat.mul_le_mul_left _ hle)
    cases k with
    | zero => exact hpadded
    | succ k =>
      rw [show i + (k + 1) = i + 1 + k by omega]
      refine ih ?_ k (by omega)
      rw [length_pairUp, Nat.pow_succ, Nat.mul_assoc,
        show 2 * ((padded hash i layer).length / 2) = (padded hash i layer).length by omega]
      exact hpadded

theorem holds_layersFrom (items : List Root) (depth : ℕ) :
    Holds (hashPair hash) zeroHash depth (layersFrom hash depth 0 items) items where
  length := length_layersFrom hash depth 0 items
  read i hi j := by
    have hlayer : ∀ j, items.getD j (zeroHashes hash 0) =
        node (hashPair hash) (leaves zeroHash items) 0 j := fun _ => rfl
    have hread := layersFrom_read hash depth hlayer i hi j
    rwa [Nat.zero_add] at hread
  long i hi := by
    have hlen : items.length ≤ 2 ^ 0 * items.length := by simp
    have hlong := layersFrom_long hash depth hlen i hi
    rwa [Nat.zero_add] at hlong

theorem wellFormed_newTrie (depth : ℕ) : (newTrie hash depth).WellFormed hash :=
  ⟨holds_layersFrom hash [zeroHash] depth, by simp [newTrie]⟩

theorem generateTrieFromItems_ok {items : List Root} (hitems : items ≠ []) {depth : ℕ}
    (hdepth : depth ≤ 100) :
    ∃ m, generateTrieFromItems hash items depth = .ok m ∧ m.WellFormed hash ∧
      m.originalItems = items ∧ m.depth = depth :=
  ⟨⟨depth, layersFrom hash depth 0 items, items⟩,
    by rw [generateTrieFromItems, if_neg hitems, if_neg (by omega)],
    ⟨holds_layersFrom hash items depth, hitems⟩, rfl, rfl⟩

end

/-! ### Insertion -/

variable {hash : Bytes → Root}

/-- The state of the loop of `Insert` when it has come to layer `i`: the layers up to it hold the
tree with the new leaf, the others the tree without it. -/
structure Climbing (hash : Bytes → Root) (leaf : ℕ → Root) (x : ℕ) (v : Root) (d i : ℕ)
    (b : List (List Root)) : Prop where
  length : b.length = d + 1
  low : ∀ k ≤ i, ∀ j, Merkle.read (hashPair hash) zeroHash b k j =
    node (hashPair hash) (update leaf x v) k j
  high : ∀ k, i < k → k ≤ d → ∀ j, Merkle.read (hashPair hash) zeroHash b k j =
    node (hashPair hash) leaf k j
  room : ∀ k, i < k → k ≤ d → x / 2 ^ k ≤ (b.getD k []).length

section

variable {leaf : ℕ → Root} {x : ℕ} {v : Root} {d i : ℕ} {b : List (List Root)}

/-- The layers after one round of the loop at layer `i`. -/
def climbed (hash : Bytes → Root) (leaf : ℕ → Root) (x : ℕ) (v : Root) (i : ℕ)
    (b : List (List Root)) : List (List Root) :=
  b.set (i + 1) (put (b.getD (i + 1) []) (x / 2 ^ (i + 1))
    (node (hashPair hash) (update leaf x v) (i + 1) (x / 2 ^ (i + 1))))

section

variable (h : Climbing hash leaf x v d i b)

include h

theorem Climbing.getD_climbed (hi : i < d) (k : ℕ) :
    (climbed hash leaf x v i b).getD k [] =
      if k = i + 1 then put (b.getD (i + 1) []) (x / 2 ^ (i + 1))
        (node (hashPair hash) (update leaf x v) (i + 1) (x / 2 ^ (i + 1)))
      else b.getD k [] := by
  have hlt : i + 1 < b.length := by
    rw [h.length]
    omega
  exact getD_set hlt _ _ k

theorem Climbing.step (hi : i < d) :
    Climbing hash leaf x v d (i + 1) (climbed hash leaf x v i b) := by
  refine ⟨(length_set ..).trans h.length, ?_, ?_, ?_⟩
  · intro k hk j
    rw [Merkle.read, h.getD_climbed hi]
    split
    next heq =>
      subst heq
      rw [getD_put (h.room _ (Nat.lt_succ_self i) hi)]
      split
      next heq => rw [heq]
      next hne =>
        rw [node_update_of_ne v hne]
        exact h.high _ (Nat.lt_succ_self i) hi j
    next hne => exact h.low k (by omega) j
  · intro k hk hd j
    rw [Merkle.read, h.getD_climbed hi, if_neg (by omega)]
    exact h.high k (by omega) hd j
  · intro k hk hd
    rw [h.getD_climbed hi, if_neg (by omega)]
    exact h.room k (by omega) hd

theorem Climbing.insertLoop_succ (n : ℕ) :
    insertLoop hash (n + 1) i (x / 2 ^ i)
        (node (hashPair hash) (update leaf x v) i (x / 2 ^ i)) b =
      insertLoop hash n (i + 1) (x / 2 ^ (i + 1))
        (node (hashPair hash) (update leaf x v) (i + 1) (x / 2 ^ (i + 1)))
        (climbed hash leaf x v i b) := by
  have hdiv : x / 2 ^ i / 2 = x / 2 ^ (i + 1) := by rw [Nat.div_div_eq_div_mul, Nat.pow_succ]
  have hroot := node_succ_half (h := hashPair hash) (update leaf x v) i (x / 2 ^ i)
  have hneighbor : (b.getD i []).getD (x / 2 ^ i ^^^ 1) (zeroHashes hash i) =
      node (hashPair hash) (update leaf x v) i (x / 2 ^ i ^^^ 1) := h.low i le_rfl _
  rw [hdiv] at hroot
  rw [insertLoop, hneighbor, hdiv, climbed, hroot]

end

theorem Climbing.loop (n : ℕ) {i : ℕ} {b : List (List Root)} (h : Climbing hash leaf x v d i b)
    (hn : i + n = d) :
    Climbing hash leaf x v d d (insertLoop hash n i (x / 2 ^ i)
      (node (hashPair hash) (update leaf x v) i (x / 2 ^ i)) b) ∧
    ∀ k ≤ d, ((insertLoop hash n i (x / 2 ^ i)
      (node (hashPair hash) (update leaf x v) i (x / 2 ^ i)) b).getD k []).length =
        if i < k ∧ (b.getD k []).length ≤ x / 2 ^ k then (b.getD k []).length + 1
        else (b.getD k []).length := by
  induction n generalizing i b with
  | zero =>
    obtain rfl : i = d := hn
    refine ⟨h, fun k hk => ?_⟩
    rw [if_neg (by omega), insertLoop]
  | succ n ih =>
    have hi : i < d := by omega
    obtain ⟨hdone, hlen⟩ := ih (h.step hi) (by omega)
    rw [h.insertLoop_succ]
    refine ⟨hdone, fun k hk => ?_⟩
    rw [hlen k hk, h.getD_climbed hi]
    rcases eq_or_ne k (i + 1) with rfl | hne
    · simp [length_put]
    · rw [if_neg hne]
      rcases Nat.lt_or_ge i k with hik | hik
      · simp [hik, show i + 1 < k by omega]
      · simp [show ¬ i < k by omega, show ¬ i + 1 < k by omega]

end

theorem leaves_put {l : List Root} {x : ℕ} (hx : x ≤ l.length) (v : Root) :
    leaves zeroHash (put l x v) = update (leaves zeroHash l) x v := by
  funext j
  rw [leaves, getD_put hx, update_apply]
  rfl

namespace SparseMerkleTrie

variable {m : SparseMerkleTrie}

/-- The layers at the start of the loop of `Insert`. -/
theorem WellFormed.climbing (h : m.WellFormed hash) {x : ℕ} (hx : x ≤ m.originalItems.length)
    (v : Root) : Climbing hash (leaves zeroHash m.originalItems) x v m.depth 0
      (m.branches.set 0 ((Slices.grow (m.branches.getD 0 []) (x + 1) (zeroHashes hash 0)).set x v))
    := by
  have hlt : 0 < m.branches.length := by
    rw [h.holds.length]
    omega
  have hgrown : x < (Slices.grow (m.branches.getD 0 []) (x + 1) (zeroHashes hash 0)).length := by
    rw [Slices.length_grow]
    omega
  refine ⟨(length_set ..).trans h.holds.length, ?_, ?_, ?_⟩
  · intro k hk j
    obtain rfl : k = 0 := by omega
    rw [Merkle.read, getD_set hlt, if_pos rfl, getD_set hgrown, node, update_apply]
    split
    · rfl
    · exact (Slices.getD_grow _ _ _ j).trans (h.holds.read 0 (Nat.zero_le _) j)
  · intro k hk hd j
    rw [Merkle.read, getD_set hlt, if_neg (by omega)]
    exact h.holds.read k hd j
  · intro k hk hd
    rw [getD_set hlt, if_neg (by omega)]
    exact Nat.div_le_of_le_mul (hx.trans (h.holds.long k hd))

@[simp] theorem originalItems_insertNat (v : Root) (x : ℕ) :
    (m.insertNat hash v x).originalItems = put m.originalItems x v := rfl

theorem WellFormed.insertNat (h : m.WellFormed hash) {x : ℕ} (hx : x ≤ m.originalItems.length)
    (v : Root) : (m.insertNat hash v x).WellFormed hash := by
  have hstart := h.climbing hx v
  obtain ⟨hdone, hlen⟩ := hstart.loop m.depth (Nat.zero_add _)
  have hzero : x / 2 ^ 0 = x := by simp
  have hleaf : node (hashPair hash) (update (leaves zeroHash m.originalItems) x v) 0 x =
      v := update_self ..
  rw [hzero, hleaf] at hdone hlen
  refine ⟨⟨hdone.length, ?_, ?_⟩, ?_⟩
  · intro i hi j
    rw [originalItems_insertNat, leaves_put hx]
    exact hdone.low i hi j
  · intro k hk
    have hlong := h.holds.long k hk
    have hbranches : 0 < m.branches.length := by
      rw [h.holds.length]
      omega
    rw [originalItems_insertNat, length_put]
    refine le_of_le_of_eq ?_ (congrArg (2 ^ k * ·) (hlen k hk).symm)
    rw [getD_set hbranches]
    rcases Nat.eq_zero_or_pos k with rfl | hpos
    · simp only [if_true, lt_self_iff_false, false_and, if_false, length_set, Slices.length_grow]
      rw [Nat.pow_zero, Nat.one_mul] at hlong ⊢
      split <;> omega
    · have hroom := room_put (Nat.two_pow_pos k) hx hlong
      rw [if_neg (show k ≠ 0 by omega)]
      simpa only [hpos, true_and] using hroom
  · rw [originalItems_insertNat, put]
    split <;> simp [h.nonempty]

theorem WellFormed.top_eq (h : m.WellFormed hash) :
    m.top = node (hashPair hash) (leaves zeroHash m.originalItems) m.depth 0 := by
  have hlong := h.holds.long m.depth le_rfl
  have hitems := length_pos_iff.mpr h.nonempty
  have hlayer : 0 < (m.branches.getD m.depth []).length := by
    rcases Nat.eq_zero_or_pos (m.branches.getD m.depth []).length with hzero | hpos
    · rw [hzero] at hlong
      omega
    · exact hpos
  rw [← h.holds.read m.depth le_rfl 0, Merkle.read, top, h.holds.length, Nat.add_sub_cancel,
    getD_eq_getElem _ _ hlayer, getD_eq_getElem _ _ hlayer]

theorem WellFormed.root_congr {m' : SparseMerkleTrie} (h : m.WellFormed hash)
    (h' : m'.WellFormed hash) (hdepth : m.depth = m'.depth)
    (hitems : m.originalItems = m'.originalItems) : m.root hash = m'.root hash := by
  rw [root, root, h.top_eq, h'.top_eq, hdepth, hitems]

theorem numOfItems_congr {m' : SparseMerkleTrie} (hitems : m.originalItems = m'.originalItems) :
    m.numOfItems = m'.numOfItems := by
  rw [numOfItems, numOfItems, hitems]

end SparseMerkleTrie

end Vanguard.Deposits
