import Mathlib

/-!
Forests given by a parent map.

Nodes of a type `ι` are linked by `parent : ι → Option ι`. The subtree of a
node consists of the nodes from which it is reached by following parents.
`Ranked` says that parents have smaller rank and that ranks are bounded,
which makes both directions of the tree well founded: towards the root, and
from the leaves up.

The second half pushes values up a forest: every node adds its own value to
its parent's, children before parents, and ends up with the sum over its
subtree.
-/

namespace Vanguard.Forest

open List Function Finset Relation.ReflTransGen

variable {ι : Type*} {parent parent' : ι → Option ι} {a d c p : ι} {order : List ι}

/-- `d` is `a` or a descendant of `a`. -/
def Below (parent : ι → Option ι) (d a : ι) : Prop :=
  Relation.ReflTransGen (fun x y => parent x = some y) d a

@[refl] theorem Below.refl (a : ι) : Below parent a a := Relation.ReflTransGen.refl

theorem Below.trans {m : ι} (h : Below parent d m) (h' : Below parent m a) :
    Below parent d a := Relation.ReflTransGen.trans h h'

theorem Below.of_parent (h : parent c = some p) : Below parent c p :=
  single h

theorem Below.of_parent_below (h : parent c = some p) (h' : Below parent p a) :
    Below parent c a := (Below.of_parent h).trans h'

theorem below_iff_parent : Below parent d a ↔ d = a ∨ ∃ p, parent d = some p ∧ Below parent p a :=
  cases_head_iff

theorem below_iff_child : Below parent d a ↔ d = a ∨ ∃ c, parent c = some a ∧ Below parent d c := by
  rw [Below, cases_tail_iff, eq_comm]
  simp only [and_comm, Below]

theorem below_iff_eq_of_none (h : parent d = none) : Below parent d a ↔ d = a := by
  rw [below_iff_parent]
  simp [h]

theorem below_iff_mem_path {l : List ι}
    (hpath : (d :: l).IsChain fun x y => parent x = some y)
    (hlast : parent ((d :: l).getLast (cons_ne_nil d l)) = none) :
    Below parent d a ↔ a ∈ d :: l := by
  induction l generalizing d with
  | nil => rw [below_iff_eq_of_none (d := d) hlast, List.mem_singleton, eq_comm]
  | cons p l ih =>
    obtain ⟨hp, hpath⟩ := isChain_cons_cons.mp hpath
    rw [List.mem_cons, ← ih hpath hlast, below_iff_parent, hp]
    simp [eq_comm]

theorem Below.total {b : ι} (ha : Below parent d a) (hb : Below parent d b) :
    Below parent a b ∨ Below parent b a := by
  refine total_of_right_unique ?_ ha hb
  intro x y z hy hz
  exact Option.some.inj (hy.symm.trans hz)

theorem Below.mono (hsub : ∀ x y, parent x = some y → parent' x = some y)
    (h : Below parent d a) : Below parent' d a :=
  Relation.ReflTransGen.mono hsub _ _ h

theorem Below.map {κ : Type*} {parent' : κ → Option κ} (g : ι → κ)
    (hg : ∀ x y, parent x = some y → parent' (g x) = some (g y))
    (h : Below parent d a) : Below parent' (g d) (g a) :=
  lift (r := fun x y => parent x = some y)
    (p := fun x y => parent' x = some y) g hg _ _ h

/-- A forest on numbers keeps its subtrees when a prefix is cut off and the
rest is renumbered. -/
theorem below_shift {parent parent' : ℕ → Option ℕ} {k : ℕ}
    (hshift : ∀ c p, parent' c = some p ↔ parent (c + k) = some (p + k))
    (hlt : ∀ c p, parent c = some p → p < c) {d a : ℕ} :
    Below parent' d a ↔ Below parent (d + k) (a + k) := by
  constructor
  · exact fun hb => hb.map (· + k) fun c p hc => (hshift c p).mp hc
  · intro hb
    generalize hx : d + k = x at hb
    induction hb using head_induction_on generalizing d with
    | refl =>
      obtain rfl : d = a := by omega
      exact Below.refl _
    | @head x y hxy hya ih =>
      -- the whole path lies above `a + k`, so it is never cut
      have hle : ∀ {x}, Below parent x (a + k) → a + k ≤ x := by
        intro x hxa
        induction hxa using head_induction_on with
        | refl => exact le_rfl
        | head hxy _ ih => exact ih.trans (hlt _ _ hxy).le
      have hy := hle hya
      subst hx
      obtain ⟨y', rfl⟩ : ∃ y', y = y' + k := ⟨y - k, by omega⟩
      exact Below.of_parent_below ((hshift _ _).mpr hxy) (ih rfl)

/-- Adding a leaf `n` changes no subtree relation between other nodes. -/
theorem below_congr_of_leaf {n : ι} (hne : ∀ x, x ≠ n → parent' x = parent x)
    (hleaf : ∀ x, parent x ≠ some n) (hd : d ≠ n) : Below parent' d a ↔ Below parent d a := by
  constructor
  · intro h
    induction h using head_induction_on with
    | refl => rfl
    | @head x y hxy _ ih =>
      rw [hne x hd] at hxy
      exact Below.of_parent_below hxy (ih (fun hy => hleaf x (hy ▸ hxy)))
  · intro h
    induction h using head_induction_on with
    | refl => rfl
    | @head x y hxy _ ih =>
      exact Below.of_parent_below ((hne x hd).trans hxy) (ih (fun hy => hleaf x (hy ▸ hxy)))

/-- Parents have smaller rank than their children, and the rank of a child
is bounded. -/
structure Ranked (parent : ι → Option ι) (rank : ι → ℕ) (bound : ℕ) : Prop where
  rank_lt : ∀ {c p}, parent c = some p → rank p < rank c
  rank_le : ∀ {c p}, parent c = some p → rank c ≤ bound

namespace Ranked

variable {rank : ι → ℕ} {bound : ℕ}

variable (h : Ranked parent rank bound)

include h

theorem rank_le_of_below (hda : Below parent d a) : rank a ≤ rank d := by
  induction hda with
  | refl => exact le_rfl
  | tail _ hxy ih => exact (h.rank_lt hxy).le.trans ih

theorem parent_ne_self (hc : parent c = some p) : c ≠ p := by
  rintro rfl
  exact lt_irrefl _ (h.rank_lt hc)

/-- Induction from the leaves: a node may assume the claim of its children. -/
theorem leaf_induction {P : ι → Prop}
    (hstep : ∀ p, (∀ c, parent c = some p → P c) → P p) : ∀ p, P p := by
  suffices H : ∀ n p, bound ≤ rank p + n → P p from fun p => H bound p (by omega)
  intro n
  induction n with
  | zero =>
    intro p hp
    refine hstep p fun c hc => ?_
    have := h.rank_lt hc
    have := h.rank_le hc
    omega
  | succ n ih =>
    intro p hp
    refine hstep p fun c hc => ih c ?_
    have := h.rank_lt hc
    omega

end Ranked

/-! ### Visiting orders -/

/-- In `order` no node occurs twice and every node comes after all of its
children. -/
def ChildrenFirst (parent : ι → Option ι) (order : List ι) : Prop :=
  ∀ done c rest, order = done ++ c :: rest →
    c ∉ done ∧ ∀ x, parent x = some c → x ∈ done

theorem ChildrenFirst.of_append {done rest : List ι}
    (h : ChildrenFirst parent (done ++ rest)) : ChildrenFirst parent done := by
  intro done' c rest' heq
  apply h done' c (rest' ++ rest)
  rw [heq, append_assoc, cons_append]

theorem ChildrenFirst.mem_of_parent (h : ChildrenFirst parent order)
    {x : ι} (hc : c ∈ order) (hx : parent x = some c) : x ∈ order := by
  obtain ⟨done, rest, rfl⟩ := append_of_mem hc
  exact mem_append_left _ ((h done c rest rfl).2 x hx)

theorem ChildrenFirst.mem_of_below (h : ChildrenFirst parent order) (ha : a ∈ order)
    (hda : Below parent d a) : d ∈ order := by
  induction hda using head_induction_on with
  | refl => exact ha
  | head hxy _ ih => exact h.mem_of_parent ih hxy

/-- Indices in descending order are a visiting order where parents have
smaller indices. -/
theorem childrenFirst_reverse_range {parent : ℕ → Option ℕ} {n : ℕ}
    (h : ∀ c p, parent c = some p → p < c ∧ c < n) :
    ChildrenFirst parent (List.range n).reverse := by
  intro done c rest heq
  have hpw : (done ++ c :: rest).Pairwise (· > ·) := by
    rw [← heq, pairwise_reverse]
    exact pairwise_lt_range
  rw [pairwise_append, List.pairwise_cons] at hpw
  obtain ⟨-, ⟨hrest, -⟩, hdone⟩ := hpw
  constructor
  · intro hc
    exact lt_irrefl c (hdone c hc c (by simp))
  · intro x hx
    obtain ⟨hcx, hxn⟩ := h x c hx
    have hmem : x ∈ done ++ c :: rest := by
      rw [← heq]
      simpa using hxn
    rcases mem_append.mp hmem with hin | hin
    · exact hin
    · rcases List.mem_cons.mp hin with rfl | hin
      · exact absurd hcx (lt_irrefl _)
      · exact absurd (hrest x hin) (by omega)

/-! ### Pushing values up -/

section Push

variable [DecidableEq ι] {M : Type*} [AddCommMonoid M]

/-- `c` adds its value to its parent's. -/
def push (parent : ι → Option ι) (value : ι → M) (c : ι) : ι → M :=
  match parent c with
  | none => value
  | some p => update value p (value p + value c)

variable {value : ι → M} {i : ι}

theorem push_of_ne (h : parent c ≠ some i) : push parent value c i = value i := by
  unfold push
  cases hp : parent c with
  | none => rfl
  | some p =>
    have hip : i ≠ p := by
      rintro rfl
      exact h hp
    exact update_of_ne hip _ _

theorem foldl_push_of_ne
    (h : ∀ c ∈ order, parent c ≠ some i) : order.foldl (push parent) value i = value i := by
  induction order generalizing value with
  | nil => rfl
  | cons c order ih =>
    rw [foldl_cons, ih fun x hx => h x (List.mem_cons_of_mem _ hx)]
    exact push_of_ne (h c (by simp))

/-- The links that have been used once the nodes of `done` were visited. -/
def visited (parent : ι → Option ι) (done : List ι) (x : ι) : Option ι :=
  if x ∈ done then parent x else none

open Classical in
/-- After the nodes of `done` have pushed, a node holds the sum over those
nodes below it that are linked to it through visited nodes. -/
theorem foldl_push_visited {rank : ι → ℕ} {bound : ℕ} (hr : Ranked parent rank bound)
    (nodes : Finset ι) (value : ι → M) (done : List ι)
    (hord : ChildrenFirst parent done) (hmem : ∀ x ∈ done, x ∈ nodes)
    {i : ι} (hi : i ∈ nodes) :
    done.foldl (push parent) value i =
      ∑ d ∈ nodes with Below (visited parent done) d i, value d := by
  induction done using reverseRecOn generalizing i with
  | nil =>
    have hself : ∀ d, Below (visited parent []) d i ↔ d = i := fun d =>
      below_iff_eq_of_none (by simp [visited])
    simp [hself, sum_filter, hi]
  | append_singleton done c ih =>
    obtain ⟨hc, hchildren⟩ := hord done c [] rfl
    have ih' := @ih hord.of_append (fun x hx => hmem x (mem_append_left _ hx))
    have hcn : c ∈ nodes := hmem c (by simp)
    rw [foldl_append, foldl_cons, foldl_nil]
    have hvc : visited parent (done ++ [c]) c = parent c := by simp [visited]
    have hvx : ∀ x, x ≠ c → visited parent (done ++ [c]) x = visited parent done x := by
      intro x hx
      simp [visited, hx]
    have hcnone : visited parent done c = none := by simp [visited, hc]
    have hpnone : ∀ p, parent c = some p → p ≠ c ∧ visited parent done p = none := by
      intro p hp
      have hpdone : p ∉ done := fun hpd => hc (hord.of_append.mem_of_parent hpd hp)
      exact ⟨(hr.parent_ne_self hp).symm, by simp [visited, hpdone]⟩
    -- the link from `c` to its parent is the only new one, and the parent has no link yet
    have hbelow : ∀ d i, Below (visited parent (done ++ [c])) d i ↔
        Below (visited parent done) d i ∨
          (parent c = some i ∧ Below (visited parent done) d c) := by
      intro d i
      constructor
      · intro h
        induction h using head_induction_on with
        | refl => exact Or.inl (Below.refl _)
        | @head x y hxy hyi ih =>
          by_cases hx : x = c
          · subst hx
            rw [hvc] at hxy
            obtain ⟨hpc, hnone⟩ := hpnone y hxy
            obtain rfl := (below_iff_eq_of_none ((hvx y hpc).trans hnone)).mp hyi
            exact Or.inr ⟨hxy, Below.refl _⟩
          · rw [hvx x hx] at hxy
            exact ih.imp (Below.of_parent_below hxy) (And.imp_right (Below.of_parent_below hxy))
      · have hmono : ∀ x y, visited parent done x = some y →
            visited parent (done ++ [c]) x = some y := by
          intro x y hxy
          by_cases hx : x = c
          · subst hx
            rw [hcnone] at hxy
            exact absurd hxy (by simp)
          · rw [hvx x hx]
            exact hxy
        rintro (h | ⟨hp, h⟩)
        · exact h.mono hmono
        · exact (h.mono hmono).trans (Below.of_parent (hvc.trans hp))
    by_cases hip : parent c = some i
    · obtain ⟨hne, hnone⟩ := hpnone i hip
      simp only [push, hip]
      rw [update_self, ih' hi, ih' hcn, ← sum_union]
      · apply sum_congr _ (fun _ _ => rfl)
        ext d
        simp only [mem_union, Finset.mem_filter, hbelow, hip, true_and]
        tauto
      · rw [disjoint_filter]
        intro d _ hdi hdc
        rcases hdi.total hdc with h | h
        · exact hne ((below_iff_eq_of_none hnone).mp h)
        · exact hne ((below_iff_eq_of_none hcnone).mp h).symm
    · rw [push_of_ne hip, ih' hi]
      apply sum_congr _ (fun _ _ => rfl)
      ext d
      simp [hbelow, hip]

open Classical in
theorem foldl_push {rank : ι → ℕ} {bound : ℕ} (hr : Ranked parent rank bound)
    (order : List ι) (value : ι → M) (hord : ChildrenFirst parent order) (hi : i ∈ order) :
    order.foldl (push parent) value i =
      ∑ d ∈ order.toFinset with Below parent d i, value d := by
  rw [foldl_push_visited hr order.toFinset value order hord
    (fun x hx => mem_toFinset.mpr hx) (mem_toFinset.mpr hi)]
  apply sum_congr _ (fun _ _ => rfl)
  apply Finset.filter_congr
  intro d hd
  constructor
  · exact fun h => h.mono fun x y hxy => by
      simp only [visited] at hxy
      split at hxy
      · exact hxy
      · exact absurd hxy (by simp)
  · intro h
    induction h using head_induction_on with
    | refl => rfl
    | @head x y hxy hyi ih =>
      have hy : y ∈ order := hord.mem_of_below hi hyi
      have hx : x ∈ order := hord.mem_of_parent hy hxy
      exact Below.of_parent_below (by simp [visited, hx, hxy]) (ih (mem_toFinset.mpr hy))

end Push

end Vanguard.Forest
