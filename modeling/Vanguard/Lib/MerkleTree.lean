import Mathlib

/-!
Merkle trees over a growing list of leaves.

The tree stands over the sequence of all leaves, those of the list first and empty leaves after
them. A program keeps it in layers. Layer `i` holds an initial segment of the nodes of level `i`,
and a node it does not hold is the root of an empty tree, so that reading a layer with that root
as the default gives every node of the level.
-/

namespace Vanguard.Merkle

open List

variable {α : Type} (h : α → α → α) (z : α)

/-- The root of the empty tree of each height. -/
def zeroHashes : ℕ → α
  | 0 => z
  | i + 1 => h (zeroHashes i) (zeroHashes i)

/-- Node `j` of level `i` over a sequence of leaves. -/
def node (leaf : ℕ → α) : ℕ → ℕ → α
  | 0, j => leaf j
  | i + 1, j => h (node leaf i (2 * j)) (node leaf i (2 * j + 1))

def leaves (l : List α) (j : ℕ) : α := l.getD j z

/-- Node `j` of level `i` as layers of nodes hold it. -/
def read (b : List (List α)) (i j : ℕ) : α := (b.getD i []).getD j (zeroHashes h z i)

/-- An element stored in a layer, at the end if its place lies beyond. -/
def put (layer : List α) (j : ℕ) (v : α) : List α :=
  if layer.length ≤ j then layer ++ [v] else layer.set j v

variable {h z}

/-! ### Nodes and the leaves below them -/

variable {leaf : ℕ → α} {x : ℕ}

theorem node_congr {leaf' : ℕ → α} {i j : ℕ}
    (hleaf : ∀ k, k / 2 ^ i = j → leaf k = leaf' k) : node h leaf i j = node h leaf' i j := by
  induction i generalizing j with
  | zero => exact hleaf j (by simp)
  | succ i ih =>
    have hhalf : ∀ k, k / 2 ^ (i + 1) = k / 2 ^ i / 2 := fun k => by
      rw [Nat.div_div_eq_div_mul, Nat.pow_succ]
    have hchild : ∀ c < 2, node h leaf i (2 * j + c) = node h leaf' i (2 * j + c) := by
      intro c hc
      refine ih fun k hk => hleaf k ?_
      rw [hhalf, hk]
      omega
    rw [node, node, hchild 1 (by omega)]
    exact congrArg₂ h (hchild 0 (by omega)) rfl

theorem node_update_of_ne {i j : ℕ} (v : α) (hj : j ≠ x / 2 ^ i) :
    node h (Function.update leaf x v) i j = node h leaf i j := by
  refine node_congr fun k hk => Function.update_of_ne ?_ _ _
  rintro rfl
  exact hj hk.symm

theorem xor_one (j : ℕ) : j ^^^ 1 = if j % 2 = 0 then j + 1 else j - 1 := by
  have hdiv : (j ^^^ 1) / 2 = j / 2 := by simp [Nat.xor_div_two]
  have hmod : (j ^^^ 1) % 2 = (j + 1) % 2 := by simp [Nat.xor_mod_two_eq]
  split <;> omega

theorem node_succ_half (leaf : ℕ → α) (i j : ℕ) : node h leaf (i + 1) (j / 2) =
    if j % 2 = 0 then h (node h leaf i j) (node h leaf i (j ^^^ 1))
    else h (node h leaf i (j ^^^ 1)) (node h leaf i j) := by
  rw [xor_one, node]
  split
  · rw [show 2 * (j / 2) = j by omega]
  · rw [show 2 * (j / 2) + 1 = j by omega, show 2 * (j / 2) = j - 1 by omega]

/-! ### Layers -/

/-- Layers that hold the tree of height `d` over a list of leaves. -/
structure Holds (h : α → α → α) (z : α) (d : ℕ) (b : List (List α)) (l : List α) : Prop where
  length : b.length = d + 1
  read : ∀ i ≤ d, ∀ j, read h z b i j = node h (leaves z l) i j
  /-- No layer has a gap before the node above the next leaf. -/
  long : ∀ i ≤ d, l.length ≤ 2 ^ i * (b.getD i []).length

theorem getD_set {β : Type} {l : List β} (hx : x < l.length) (v d : β) (j : ℕ) :
    (l.set x v).getD j d = if j = x then v else l.getD j d := by
  rw [getD_eq_getElem?_getD, getElem?_set]
  rcases eq_or_ne j x with rfl | hne
  · simp [hx]
  · simp [hne, hne.symm]

theorem getD_put {layer : List α} (hx : x ≤ layer.length) (v d : α) (j : ℕ) :
    (put layer x v).getD j d = if j = x then v else layer.getD j d := by
  rw [put]
  rcases lt_or_ge x layer.length with hlt | hge
  · rw [if_neg (by omega), getD_set hlt]
  · obtain rfl : x = layer.length := by omega
    rw [if_pos le_rfl]
    rcases Nat.lt_trichotomy j layer.length with hlt | rfl | hgt
    · rw [getD_append _ _ _ _ hlt, if_neg (by omega)]
    · simp
    · rw [if_neg (by omega), getD_eq_default _ _ (by simp; omega), getD_eq_default _ _ (by omega)]

theorem length_put (layer : List α) (x : ℕ) (v : α) :
    (put layer x v).length = if layer.length ≤ x then layer.length + 1 else layer.length := by
  rw [put]
  split <;> simp

/-- A layer with a node for every `p` leaves keeps up when the next leaf and the node above it are
stored. -/
theorem room_put {p n len : ℕ} (hp : 0 < p) (hx : x ≤ n) (hlong : n ≤ p * len) :
    (if n ≤ x then n + 1 else n) ≤ p * (if len ≤ x / p then len + 1 else len) := by
  rcases lt_or_ge (x / p) len with hlt | hge
  · have hroom : x < p * len := by
      rw [mul_comm]
      exact (Nat.div_lt_iff_lt_mul hp).mp hlt
    rw [if_neg (show ¬ len ≤ x / p by omega)]
    split <;> omega
  · rw [if_pos hge, Nat.mul_add]
    split <;> omega

/-- The layer above a layer of even length: one node for each pair. -/
def pairUp (h : α → α → α) : List α → List α
  | [] => []
  | [_] => []
  | a :: a' :: l => h a a' :: pairUp h l

theorem length_pairUp (l : List α) : (pairUp h l).length = l.length / 2 := by
  induction l using pairUp.induct with
  | case1 => simp [pairUp]
  | case2 a => simp [pairUp]
  | case3 a a' l ih =>
    simp only [pairUp, length_cons, ih]
    omega

theorem getD_pairUp {l : List α} (hl : l.length % 2 = 0) (e : α) (j : ℕ) :
    (pairUp h l).getD j (h e e) = h (l.getD (2 * j) e) (l.getD (2 * j + 1) e) := by
  induction l using pairUp.induct generalizing j with
  | case1 => simp [pairUp]
  | case2 a => simp at hl
  | case3 a a' l ih =>
    simp only [length_cons] at hl
    cases j with
    | zero => rfl
    | succ j =>
      have htail := ih (by omega) j
      rw [show 2 * (j + 1) = 2 * j + 1 + 1 by omega]
      simpa only [pairUp, getD_cons_succ] using htail

end Vanguard.Merkle
