import Vanguard.ProtoArray.Ghost
import Vanguard.ProtoArray.Skeleton

/-!
Canonical marks.

`updateCanonicalNodes` marks the head and its ancestors, up to the first that
already is marked, and never removes a mark. The marks are those of the chain
of the last head as long as each new head extends the one before; after a
re-org the abandoned branch stays marked.
-/

namespace Vanguard.ProtoArray

open Forest BestChild EState Run TreeMap

variable {x : Root} {n : Node} {h : Root}

namespace Store

variable {s : Store} {i : ℕ}

/-- The node at `i` is marked. -/
def Marked (s : Store) (i : ℕ) : Prop :=
  ∃ n : Node, s.nodes[i]? = some n ∧ s.canonicalNodes.getD n.root false = true

/-- From `i` on, marks are inherited by ancestors. -/
def MarksClosed (s : Store) (i : ℕ) : Prop :=
  ∀ a, Below s.parentOf i a → s.Marked a → ∀ b, Below s.parentOf a b → s.Marked b

/-- The root of the node at `i` or of an ancestor of it. -/
def ChainRoot (s : Store) (i : ℕ) (x : Root) : Prop :=
  ∃ a, Below s.parentOf i a ∧ s.rootAt a = some x

theorem rootAt_eq_some {r : Root} :
    s.rootAt i = some r ↔ ∃ n : Node, s.nodes[i]? = some n ∧ n.root = r :=
  Option.map_eq_some_iff

theorem chainRoot_iff (hn : s.nodes[i]? = some n) :
    s.ChainRoot i x ↔ x = n.root ∨ ∃ p, n.parent = some p ∧ s.ChainRoot p x := by
  have hparent : s.parentOf i = n.parent := by simp [parentOf, hn]
  constructor
  · rintro ⟨a, ha, hx⟩
    rcases below_iff_parent.mp ha with rfl | ⟨p, hp, hpa⟩
    · left
      simpa [rootAt, hn] using hx.symm
    · exact Or.inr ⟨p, hparent ▸ hp, a, hpa, hx⟩
  · rintro (rfl | ⟨p, hp, a, ha, hx⟩)
    · exact ⟨i, Below.refl i, by simp [rootAt, hn]⟩
    · exact ⟨a, Below.of_parent_below (hparent.trans hp) ha, hx⟩

/-- Marking another root below leaves the marks of the chain from `p` alone. -/
theorem MarksClosed.mark {p : ℕ} (hclosed : s.MarksClosed i) (h : s.WellFormed)
    (hn : s.nodes[i]? = some n) (hp : n.parent = some p) :
    p < i ∧ { s with canonicalNodes := s.canonicalNodes.insert n.root true }.MarksClosed p := by
  have hlt := h.parent_lt i n p hn hp
  refine ⟨hlt, ?_⟩
  -- the nodes up from the parent are not the one that is marked
  have hkeep : ∀ a, Below s.parentOf p a →
      ({ s with canonicalNodes := s.canonicalNodes.insert n.root true }.Marked a ↔
        s.Marked a) := by
    intro a ha
    have hle : a ≤ p := h.ranked.rank_le_of_below ha
    constructor <;> rintro ⟨m, hm, hmark⟩ <;> refine ⟨m, hm, ?_⟩
    · rw [getD_insert, if_neg] at hmark
      · exact hmark
      · intro heq
        exact absurd (h.index_unique hm hn heq) (by omega)
    · rw [getD_insert]
      split
      · rfl
      · exact hmark
  intro a ha hmark b hb
  have hup := Below.of_parent_below (parentOf_eq_some.mpr ⟨n, hn, hp⟩) ha
  exact (hkeep b (ha.trans hb)).mpr (hclosed a hup ((hkeep a ha).mp hmark) b hb)

theorem Marked.of_chainRoot (hi : s.Marked i) (hclosed : s.MarksClosed i) (hx : s.ChainRoot i x) :
    s.canonicalNodes.getD x false = true := by
  obtain ⟨a, ha, hroot⟩ := hx
  obtain ⟨n, hn, hmark⟩ := hclosed i (Below.refl i) hi a ha
  obtain ⟨m, hm, rfl⟩ := rootAt_eq_some.mp hroot
  obtain rfl := Option.some.inj (hn.symm.trans hm)
  exact hmark

theorem markAncestors_eq (h : s.WellFormed) (fuel poll : ℕ) (p : Option ℕ)
    (hp : ∀ i, p = some i → i < fuel ∧ i < s.nodes.length ∧ s.MarksClosed i) :
    ∃ m, markAncestors .background fuel poll p s = .ok () { s with canonicalNodes := m } ∧
      ∀ x, m.getD x false = true ↔
        s.canonicalNodes.getD x false = true ∨ ∃ i, p = some i ∧ s.ChainRoot i x := by
  induction fuel generalizing s poll p with
  | zero =>
    cases p with
    | none => exact ⟨s.canonicalNodes, rfl, by simp⟩
    | some i => exact absurd (hp i rfl).1 (by omega)
  | succ fuel ih =>
    cases p with
    | none => exact ⟨s.canonicalNodes, rfl, by simp⟩
    | some i =>
      obtain ⟨hfuel, hlen, hclosed⟩ := hp i rfl
      have hn := List.getElem?_eq_getElem hlen
      have hctx : ¬ Ctx.background.err poll = true := by simp
      rw [markAncestors, if_neg hctx, bind_ok (nodeAt_of_getElem? hn), get_bind]
      by_cases hmark : s.canonicalNodes.getD s.nodes[i].root false = true
      · rw [if_pos hmark]
        refine ⟨s.canonicalNodes, rfl, fun x => ⟨Or.inl, ?_⟩⟩
        rintro (hx | ⟨j, hj, hx⟩)
        · exact hx
        · obtain rfl := Option.some.inj hj
          exact Marked.of_chainRoot ⟨_, hn, hmark⟩ hclosed hx
      · rw [if_neg hmark, set_bind]
        let s₁ : Store :=
          { s with canonicalNodes := s.canonicalNodes.insert s.nodes[i].root true }
        have h₁ : s₁.WellFormed := h.congr rfl rfl
        have hparent : ∀ j, s.nodes[i].parent = some j →
            j < fuel ∧ j < s₁.nodes.length ∧ s₁.MarksClosed j := by
          intro j hj
          obtain ⟨hlt, hmarked⟩ := hclosed.mark h hn hj
          exact ⟨by omega, hlt.trans hlen, hmarked⟩
        obtain ⟨m, hm, hspec⟩ := ih h₁ (poll + 1) _ hparent
        refine ⟨m, hm, fun x => ?_⟩
        rw [hspec, getD_insert]
        simp only [Option.some.injEq, exists_eq_left', chainRoot_iff hn]
        by_cases hx : x = s.nodes[i].root
        · simp [hx]
        · simp only [hx, false_or]
          rfl

/-- `updateCanonicalNodes` marks the chain of a node whose ancestors inherit
marks. -/
theorem updateCanonicalNodes_eq (h : s.WellFormed) (hn : s.nodes[i]? = some n)
    (hclosed : s.MarksClosed i) :
    ∃ m, updateCanonicalNodes .background n.root s = .ok () { s with canonicalNodes := m } ∧
      ∀ x, m.getD x false = true ↔
        s.canonicalNodes.getD x false = true ∨ s.ChainRoot i x := by
  let s₁ : Store := { s with canonicalNodes := s.canonicalNodes.insert n.root true }
  have hlen := (List.getElem?_eq_some_iff.mp hn).1
  have hparent : ∀ j, n.parent = some j →
      j < s.nodes.length + 1 ∧ j < s₁.nodes.length ∧ s₁.MarksClosed j := by
    intro j hj
    obtain ⟨hlt, hmarked⟩ := hclosed.mark h hn hj
    exact ⟨by omega, hlt.trans hlen, hmarked⟩
  obtain ⟨m, hm, hspec⟩ := markAncestors_eq (s := s₁) (h.congr rfl rfl) (s.nodes.length + 1) 0
    n.parent hparent
  refine ⟨m, (updateCanonicalNodes_eq_markAncestors h .background hn).trans hm, fun x => ?_⟩
  rw [hspec, getD_insert, chainRoot_iff hn]
  by_cases hx : x = n.root
  · simp [hx]
  · simp only [hx, false_or]
    rfl

end Store

namespace Store

variable {s s' : Store}

/-- `x` is `h` or an ancestor of `h` by parent links. -/
def OnChainOf (s : Store) (h x : Root) : Prop :=
  ∃ t a, s.nodesIndices[h]? = some t ∧ s.nodesIndices[x]? = some a ∧ Below s.parentOf t a

theorem OnChainOf.refl (hh : s.nodesIndices.contains h = true) : s.OnChainOf h h := by
  rw [contains_iff] at hh
  obtain ⟨t, ht⟩ := hh
  exact ⟨t, t, ht, ht, Below.refl t⟩

theorem OnChainOf.trans {y : Root} (hx : s.OnChainOf h x) (hy : s.OnChainOf x y) :
    s.OnChainOf h y := by
  obtain ⟨t, a, ht, ha, hta⟩ := hx
  obtain ⟨a', b, ha', hb, hab⟩ := hy
  obtain rfl := Option.some.inj (ha.symm.trans ha')
  exact ⟨t, b, ht, hb, hta.trans hab⟩

theorem onChainOf_congr (hi : s'.nodesIndices = s.nodesIndices) (hp : s'.parentOf = s.parentOf) :
    s'.OnChainOf = s.OnChainOf := by
  funext h x
  simp [OnChainOf, hi, hp]

theorem WellFormed.chainRoot_iff_onChainOf (hs : s.WellFormed) {t : ℕ}
    (ht : s.nodes[t]? = some n) : s.ChainRoot t x ↔ s.OnChainOf n.root x := by
  have hlookup : s.nodesIndices[n.root]? = some t := (hs.indices n.root t).mpr ⟨n, ht, rfl⟩
  constructor
  · rintro ⟨a, ha, hx⟩
    exact ⟨t, a, hlookup, hs.rootAt_iff.mpr hx, ha⟩
  · rintro ⟨t', a, ht', ha, hbelow⟩
    obtain rfl := Option.some.inj (hlookup.symm.trans ht')
    exact ⟨a, hbelow, hs.rootAt_iff.mp ha⟩

theorem WellFormed.onChainOf_inserted (hs : s.WellFormed)
    (hh : h ≠ n.root) : (s.inserted n).OnChainOf h x ↔ x ≠ n.root ∧ s.OnChainOf h x := by
  have hview : (s.inserted n).OnChainOf = (s.append n).OnChainOf :=
    onChainOf_congr rfl (parentOf_relink _ _)
  have hlookup : ∀ r, (s.append n).nodesIndices[r]? =
      if r = n.root then some s.nodes.length else s.nodesIndices[r]? :=
    fun r => getElem?_insert _ _ _ _
  rw [hview]
  simp only [OnChainOf, hlookup, if_neg hh]
  constructor
  · rintro ⟨t, a, ht, ha, hbelow⟩
    have htlen := hs.lt_length_of_nodesIndices ht
    rw [hs.below_append n (by omega)] at hbelow
    have hle : a ≤ t := hs.ranked.rank_le_of_below hbelow
    have hx : x ≠ n.root := by
      rintro rfl
      rw [if_pos rfl] at ha
      obtain rfl := Option.some.inj ha
      omega
    rw [if_neg hx] at ha
    exact ⟨hx, t, a, ht, ha, hbelow⟩
  · rintro ⟨hx, t, a, ht, ha, hbelow⟩
    have htlen := hs.lt_length_of_nodesIndices ht
    exact ⟨t, a, ht, by rw [if_neg hx]; exact ha, (hs.below_append n (by omega)).mpr hbelow⟩

theorem contains_inserted :
    (s.inserted n).nodesIndices.contains x = true ↔
      x = n.root ∨ s.nodesIndices.contains x = true := by
  change (s.nodesIndices.insert n.root s.nodes.length).contains x = true ↔ _
  rw [Std.ExtTreeMap.contains_eq_isSome_getElem?, getElem?_insert,
    Std.ExtTreeMap.contains_eq_isSome_getElem?]
  by_cases hx : x = n.root <;> simp [hx]

namespace CutFrom

variable {k : ℕ} {u p : Store}

theorem contains (h : CutFrom k u p) (hu : u.WellFormed) (hp : p.WellFormed)
    (hx : p.nodesIndices.contains x = true) : u.nodesIndices.contains x = true := by
  rw [contains_iff] at hx ⊢
  obtain ⟨i, hi⟩ := hx
  exact ⟨i + k, (h.nodesIndices hu hp).mp hi⟩

theorem onChainOf (h : CutFrom k u p) (hu : u.WellFormed) (hp : p.WellFormed) {b : Root}
    (hx : p.nodesIndices.contains x = true) : p.OnChainOf b x ↔ u.OnChainOf b x := by
  constructor
  · rintro ⟨t, a, ht, ha, hbelow⟩
    exact ⟨t + k, a + k, (h.nodesIndices hu hp).mp ht, (h.nodesIndices hu hp).mp ha,
      (h.below hu).mp hbelow⟩
  · rintro ⟨t, a, ht, ha, hbelow⟩
    rw [contains_iff] at hx
    obtain ⟨a', ha'⟩ := hx
    obtain rfl := Option.some.inj (ha.symm.trans ((h.nodesIndices hu hp).mp ha'))
    have hle : a' + k ≤ t := hu.ranked.rank_le_of_below hbelow
    obtain ⟨t', rfl⟩ : ∃ t', t = t' + k := ⟨t - k, by omega⟩
    exact ⟨t', a', (h.nodesIndices hu hp).mpr ht, ha', (h.below hu).mpr hbelow⟩

end CutFrom

/-- `head` fails without a mark or marks the chain of the root it returns. -/
theorem head_marks (h : s.WellFormed) (hclosed : ∀ i, s.MarksClosed i) (r : Root) :
    (∃ e, head .background r s = .error e s) ∨
      ∃ (i : ℕ) (n : Node) (m : RootMap Bool), s.nodes[i]? = some n ∧
        head .background r s = .ok n.root { s with canonicalNodes := m } ∧
        ∀ x, m.getD x false = true ↔
          s.canonicalNodes.getD x false = true ∨ s.OnChainOf n.root x := by
  cases hr : s.nodesIndices[r]? with
  | none => exact Or.inl ⟨_, head_of_none _ hr⟩
  | some i =>
    obtain ⟨n, hn⟩ := h.getElem?_tip (h.lt_length_of_nodesIndices hr)
    rw [head_of_some h _ hr hn]
    split
    · obtain ⟨m, hm, hspec⟩ := updateCanonicalNodes_eq h hn (hclosed _)
      refine Or.inr ⟨_, n, m, hn, by rw [bind_ok hm, pure_apply], fun x => ?_⟩
      rw [hspec, h.chainRoot_iff_onChainOf hn]
    · exact Or.inl ⟨_, rfl⟩

end Store

namespace ForkChoice

variable {f : ForkChoice} {op : Op}

/-- The root that a call of `Head` returns. -/
def returned (f : ForkChoice) (op : Op) : Option Root :=
  match f.outcome op with
  | .ok h => h
  | .error _ => none

/-- After `h` was returned, exactly `h` and its ancestors are marked among
the blocks in the store. -/
def MarksExactly (f : ForkChoice) (h : Root) : Prop :=
  ∀ x, f.hasNode x = true → (f.isCanonical x = true ↔ f.store.OnChainOf h x)

/-- The marks in the store are those of the chain of the last head. -/
def MarksChainOf (f : ForkChoice) (last : Option Root) : Prop :=
  ∀ x, f.hasNode x = true → (f.isCanonical x = true ↔ ∃ h, last = some h ∧ f.store.OnChainOf h x)

theorem marksChainOf_some : f.MarksChainOf (some h) ↔ f.MarksExactly h := by
  simp [MarksChainOf, MarksExactly]

theorem MarksChainOf.marksClosed {last : Option Root} (hm : f.MarksChainOf last)
    (hs : f.store.WellFormed) (i : ℕ) : f.store.MarksClosed i := by
  have hmarked : ∀ {a : ℕ} {n : Node}, f.store.nodes[a]? = some n →
      (f.isCanonical n.root = true ↔ ∃ h, last = some h ∧ f.store.OnChainOf h n.root) := by
    intro a n hn
    exact hm n.root (hs.contains_iff.mpr ⟨a, n, hn, rfl⟩)
  intro a _ hmark b hab
  obtain ⟨n, hn, hcan⟩ := hmark
  obtain ⟨h, hlast, hchain⟩ := (hmarked hn).mp hcan
  have hlen := (List.getElem?_eq_some_iff.mp hn).1
  have hle : b ≤ a := hs.ranked.rank_le_of_below hab
  obtain ⟨m, hm'⟩ : ∃ m, f.store.nodes[b]? = some m := ⟨_, List.getElem?_eq_getElem (by omega)⟩
  refine ⟨m, hm', (hmarked hm').mpr ⟨h, hlast, hchain.trans ?_⟩⟩
  exact ⟨a, b, (hs.indices _ _).mpr ⟨n, hn, rfl⟩, (hs.indices _ _).mpr ⟨m, hm', rfl⟩, hab⟩

theorem MarksChainOf.headed {last : Option Root} (hm : f.MarksChainOf last) (je fe : Epoch)
    (balances : List Gwei) : (f.headed je fe balances).MarksChainOf last := by
  intro x hx
  rw [Store.onChainOf_congr (nodesIndices_headed f je fe balances)
    (parentOf_headed f je fe balances)]
  exact hm x hx

theorem onChainOf_headed (f : ForkChoice) (je fe : Epoch) (balances : List Gwei) :
    (f.headed je fe balances).store.OnChainOf = f.store.OnChainOf :=
  Store.onChainOf_congr (nodesIndices_headed f je fe balances) (parentOf_headed f je fe balances)

/-- `Head` adds the marks of the chain of the head it returns. -/
theorem step_head_marks (h : f.store.WellFormed) {last : Option Root} (hm : f.MarksChainOf last)
    (je : Epoch) (r : Root) (balances : List Gwei) (fe : Epoch) :
    (f.returned (.head .background je r balances fe) = none ∧
      f.step (.head .background je r balances fe) = f.headed je fe balances) ∨
    ∃ h' marks, f.returned (.head .background je r balances fe) = some h' ∧
      f.hasNode h' = true ∧
      f.step (.head .background je r balances fe) = (f.headed je fe balances).withMarks marks ∧
      ∀ x, marks.getD x false = true ↔ f.isCanonical x = true ∨ f.store.OnChainOf h' x := by
  have hwf := headed_wellFormed h je fe balances
  rcases Store.head_marks hwf ((hm.headed je fe balances).marksClosed hwf) r with
    ⟨e, he⟩ | ⟨i, n, marks, hn, hok, hspec⟩
  · have hhead : ForkChoice.head .background je r balances fe f =
        .error e (f.headed je fe balances) := by
      rw [head_eq h, onStore, he]
    have hcall : (Op.head .background je r balances fe).call f =
        .error e (f.headed je fe balances) := by
      rw [Op.call, bind_error hhead]
    exact Or.inl ⟨by rw [returned, outcome, hcall], by rw [step, hcall]⟩
  · have hhead : ForkChoice.head .background je r balances fe f =
        .ok n.root ((f.headed je fe balances).withMarks marks) := by
      rw [head_eq h, onStore, hok]
      rfl
    have hcall : (Op.head .background je r balances fe).call f =
        .ok (some n.root) ((f.headed je fe balances).withMarks marks) := by
      rw [Op.call, bind_ok hhead, pure_apply]
    refine Or.inr ⟨n.root, marks, by rw [returned, outcome, hcall], ?_, by rw [step, hcall], ?_⟩
    · exact hwf.contains_iff.mpr ⟨i, n, hn, rfl⟩
    · rw [onChainOf_headed] at hspec
      exact hspec

theorem returned_of_not_head (h : f.store.WellFormed) (hop : op.isHead = false) :
    f.returned op = none := by
  cases op with
  | processBlock slot b p g je fe => rw [returned, outcome, call_processBlock h]
  | processAttestation vs r target => rfl
  | prune r =>
    cases hr : f.store.nodesIndices.contains r <;> simp [returned, outcome, call_prune h, hr]
  | head ctx je r balances fe => exact absurd hop (by simp [Op.isHead])

/-! ### Runs -/

/-- Blocks are not inserted again once they were pruned, and contexts are
not cancelled. -/
def MarksRespected (x : ForkChoice × List Op) : Op → Prop
  | .processBlock _ root _ _ _ _ =>
    x.1.hasNode root = false → ∀ op ∈ x.2, op.blockRoot? ≠ some root
  | .head ctx _ _ _ _ => ctx = .background
  | .processAttestation _ _ _ => True
  | .prune _ => True

instance (x : ForkChoice × List Op) (op : Op) : Decidable (MarksRespected x op) :=
  match op with
  | .processBlock .. | .processAttestation .. | .prune .. | .head .. => by
    unfold MarksRespected
    infer_instance

/-- A call that returns a head leaves exactly its chain marked. -/
def ExactAfter (f : ForkChoice) (op : Op) : Prop :=
  ∀ h, f.returned op = some h → (f.step op).MarksExactly h

/-- The object with the last head that was returned. -/
def trackHead (x : ForkChoice × Option Root) (op : Op) : ForkChoice × Option Root :=
  (x.1.step op, (x.1.returned op).or x.2)

/-- A call that returns a head returns the last head or a descendant of it,
as long as the last head is in the store. -/
def KeepsHead (x : ForkChoice × Option Root) (op : Op) : Prop :=
  ∀ h last, x.1.returned op = some h → x.2 = some last → x.1.hasNode last = true →
    x.1.store.OnChainOf h last

/-- The invariant of runs without a re-org. -/
structure Marking (f : ForkChoice) (last : Option Root) (past : List Op) : Prop where
  wellFormed : f.store.WellFormed
  marks : f.MarksChainOf last
  marked : ∀ x, f.isCanonical x = true → Inserted past x
  stored : ∀ x, f.hasNode x = true → Inserted past x
  last : ∀ h, last = some h → Inserted past h

namespace Marking

variable {last : Option Root} {past : List Op}

theorem new (je fe : Epoch) (r : Root) : Marking (ForkChoice.new je fe r) none [] where
  wellFormed := new_wellFormed je fe r
  marks x hx := by simp [hasNode, ForkChoice.new] at hx
  marked x hx := by simp [isCanonical, ForkChoice.new] at hx
  stored x hx := by simp [hasNode, ForkChoice.new] at hx
  last h hh := by simp at hh

variable (hm : Marking f last past)

include hm

theorem append (op : Op) : Marking f last (past ++ [op]) :=
  ⟨hm.wellFormed, hm.marks, fun x hx => (hm.marked x hx).append _,
    fun x hx => (hm.stored x hx).append _, fun h hh => (hm.last h hh).append _⟩

theorem processBlock (slot : Slot) {b : Root} (p g : Root)
    (je fe : Epoch) (hok : MarksRespected (f, past) (.processBlock slot b p g je fe)) :
    Marking (f.step (.processBlock slot b p g je fe)) last
      (past ++ [.processBlock slot b p g je fe]) := by
  have hwf := step_wellFormed hm.wellFormed (.processBlock slot b p g je fe)
  have hsame := hm.append (.processBlock slot b p g je fe)
  rw [step_processBlock hm.wellFormed] at hwf ⊢
  cases hb : f.store.nodesIndices.contains b with
  | true => exact hsame
  | false =>
    rw [hb] at hwf
    have hfresh : ¬ Inserted past b := by
      rintro ⟨op, hop, hr⟩
      exact hok hb op hop hr
    let n := f.store.newNode slot b p g je fe
    have hnode : ∀ x, (f.store.inserted n).nodesIndices.contains x = true ↔
        x = b ∨ f.hasNode x = true := fun x => Store.contains_inserted
    refine ⟨hwf, fun x hx => ?_, hsame.marked, fun x hx => ?_, hsame.last⟩
    · have hchain : ∀ h, last = some h →
          ((f.store.inserted n).OnChainOf h x ↔ x ≠ b ∧ f.store.OnChainOf h x) := by
        intro h hh
        apply hm.wellFormed.onChainOf_inserted
        rintro rfl
        exact hfresh (hm.last _ hh)
      change f.isCanonical x = true ↔ ∃ h, last = some h ∧ (f.store.inserted n).OnChainOf h x
      rw [exists_congr fun h => and_congr_right (hchain h)]
      rcases (hnode x).mp hx with rfl | hold
      · refine iff_of_false (fun hmark => hfresh (hm.marked x hmark)) ?_
        rintro ⟨h, -, hne, -⟩
        exact hne rfl
      · have hne : x ≠ b := by
          rintro rfl
          exact hfresh (hm.stored x hold)
        simp only [hm.marks x hold, and_iff_right hne]
    · rcases (hnode x).mp hx with rfl | hold
      · exact ⟨_, List.mem_append_right _ (List.mem_singleton_self _), rfl⟩
      · exact hsame.stored x hold

theorem prune (r : Root) : Marking (f.step (.prune r)) last (past ++ [.prune r]) := by
  have hwf := step_wellFormed hm.wellFormed (.prune r)
  -- what holds when nothing is pruned
  have hsame := hm.append (.prune r)
  rw [step_prune hm.wellFormed] at hwf ⊢
  unfold prunedAt at hwf ⊢
  cases hr : f.store.nodesIndices[r]? with
  | none => exact hsame
  | some k =>
    rw [hr] at hwf
    by_cases hk : k < f.store.pruneThreshold
    · simp only [if_pos hk]
      exact hsame
    · simp only [if_neg hk] at hwf ⊢
      have hcut := hm.wellFormed.cutFrom_pruned (hm.wellFormed.lt_length_of_nodesIndices hr).le
      have hnode : ∀ x, (f.store.pruned k).nodesIndices.contains x = true →
          f.hasNode x = true := fun x hx => hcut.contains hm.wellFormed hwf hx
      refine ⟨hwf, fun x hx => ?_, hsame.marked, fun x hx => hsame.stored x (hnode x hx),
        hsame.last⟩
      refine (hm.marks x (hnode x hx)).trans ?_
      exact exists_congr fun h => and_congr_right fun _ =>
        (hcut.onChainOf hm.wellFormed hwf hx).symm

/-- After a call of `Head` the marks are exact just if there was no re-org. -/
theorem exactAfter_iff (hok : MarksRespected (f, past) op) :
    f.ExactAfter op ↔ KeepsHead (f, last) op := by
  -- a call that returns no head meets both
  have hboth : f.returned op = none → (f.ExactAfter op ↔ KeepsHead (f, last) op) := fun hnone =>
    iff_of_true (fun h hh => absurd (hnone.symm.trans hh) (by simp))
      fun h l hh => absurd (hnone.symm.trans hh) (by simp)
  cases op with
  | processBlock | processAttestation | prune =>
    exact hboth (returned_of_not_head hm.wellFormed rfl)
  | head ctx je r balances fe =>
    obtain rfl : ctx = .background := hok
    rcases step_head_marks hm.wellFormed hm.marks je r balances fe with
      ⟨hnone, -⟩ | ⟨h', marks, hret, -, hstep, hspec⟩
    · exact hboth hnone
    · have hchain : (f.step (.head .background je r balances fe)).store.OnChainOf =
          f.store.OnChainOf := by
        rw [hstep]
        exact onChainOf_headed f je fe balances
      have hmark : ∀ x, (f.step (.head .background je r balances fe)).isCanonical x = true ↔
          f.isCanonical x = true ∨ f.store.OnChainOf h' x := by
        rw [hstep]
        exact hspec
      have hnode : ∀ x, (f.step (.head .background je r balances fe)).hasNode x =
          f.hasNode x := by
        rw [hstep]
        exact fun _ => rfl
      constructor
      · intro hexact h l hh hl hin
        obtain rfl := Option.some.inj (hret.symm.trans hh)
        have hold : f.isCanonical l = true := (hm.marks l hin).mpr ⟨l, hl, Store.OnChainOf.refl hin⟩
        rw [← hchain]
        exact (hexact h' hret l (by rw [hnode]; exact hin)).mp ((hmark l).mpr (Or.inl hold))
      · intro hkeep h hh x hx
        obtain rfl := Option.some.inj (hret.symm.trans hh)
        rw [hnode] at hx
        rw [hmark, hchain, or_iff_right_iff_imp]
        intro hold
        obtain ⟨l, hl, hlx⟩ := (hm.marks x hx).mp hold
        have hin : f.hasNode l = true := by
          obtain ⟨t, a, ht, -⟩ := hlx
          exact contains_iff.mpr ⟨_, ht⟩
        exact (hkeep h' l hret hl hin).trans hlx

theorem step (hok : MarksRespected (f, past) op) (hexact : f.ExactAfter op) :
    Marking (f.step op) ((f.returned op).or last) (past ++ [op]) := by
  have hwf := step_wellFormed hm.wellFormed op
  have hsame := hm.append op
  cases op with
  | processBlock slot b p g je fe =>
    rw [returned_of_not_head hm.wellFormed rfl]
    exact hm.processBlock slot p g je fe hok
  | processAttestation vs r target =>
    exact ⟨hwf, hsame.marks, hsame.marked, hsame.stored, hsame.last⟩
  | prune r =>
    rw [returned_of_not_head hm.wellFormed rfl]
    exact hm.prune r
  | head ctx je r balances fe =>
    obtain rfl : ctx = .background := hok
    rcases step_head_marks hm.wellFormed hm.marks je r balances fe with
      ⟨hnone, hstep⟩ | ⟨h', marks, hret, hin, hstep, hspec⟩
    · rw [hnone]
      rw [hstep] at hwf ⊢
      exact ⟨hwf, hm.marks.headed je fe balances, hsame.marked, hsame.stored, hsame.last⟩
    · have hmarks := marksChainOf_some.mpr (hexact h' hret)
      rw [hret]
      rw [hstep] at hwf hmarks ⊢
      refine ⟨hwf, hmarks, fun x hx => ?_, hsame.stored, ?_⟩
      · rcases (hspec x).mp hx with hold | ⟨t, a, -, ha, -⟩
        · exact hsame.marked x hold
        · exact hsame.stored x (contains_iff.mpr ⟨_, ha⟩)
      · intro h hh
        obtain rfl := Option.some.inj hh
        exact hsame.stored h' hin

theorem exact_iff_keeps {ops : List Op}
    (hok : Admits (withHistory ForkChoice.step) MarksRespected (f, past) ops) :
    Admits ForkChoice.step ExactAfter f ops ↔ Admits trackHead KeepsHead (f, last) ops := by
  induction ops generalizing f last past with
  | nil => simp
  | cons op ops ih =>
    obtain ⟨hop, hops⟩ := hok
    rw [admits_cons, admits_cons, hm.exactAfter_iff hop]
    refine and_congr_right fun hkeep => ?_
    exact ih (hm.step hop ((hm.exactAfter_iff hop).mpr hkeep)) hops

end Marking

/-- When canonical marking is exact. In a run with live contexts in which no
pruned block is inserted again, every call of `Head` that returns leaves
exactly its head and the ancestors of it marked, if and only if the run has no
re-org: every head that is returned is the head returned before or a
descendant of it, or that one has been pruned. -/
theorem canonical_marks_exact_iff (je fe : Epoch) (r : Root) (ops : List Op)
    (hok : Admits (withHistory step) MarksRespected (ForkChoice.new je fe r, []) ops) :
    Admits step ExactAfter (ForkChoice.new je fe r) ops ↔
      Admits trackHead KeepsHead (ForkChoice.new je fe r, none) ops :=
  (Marking.new je fe r).exact_iff_keeps hok

/-- A run in which the head moves forward. -/
theorem canonical_marks_exact_iff_at_chain :
    let ops : List Op := [.processBlock 0 1 0 0 1 1, .head .background 1 1 [10] 1,
      .processBlock 1 2 1 0 1 1, .processAttestation [0] 2 1, .head .background 1 1 [10] 1]
    Admits step ExactAfter (ForkChoice.new 1 1 0) ops ↔
      Admits trackHead KeepsHead (ForkChoice.new 1 1 0, none) ops :=
  canonical_marks_exact_iff 1 1 0 _ (by decide +kernel)

/-- A re-org from block 2 to its sibling 3: `Head` returns 3, block 2 is
still marked, and it is not an ancestor of 3. -/
theorem canonical_marks_after_reorg :
    let f := (ForkChoice.new 1 1 0).run
      [.processBlock 0 1 0 0 1 1, .processBlock 1 2 1 0 1 1, .processBlock 1 3 1 0 1 1,
        .processAttestation [0] 2 1, .head .background 1 1 [10] 1, .processAttestation [0] 3 2]
    f.returned (.head .background 1 1 [10] 1) = some 3 ∧
      (f.step (.head .background 1 1 [10] 1)).hasNode 2 = true ∧
      (f.step (.head .background 1 1 [10] 1)).isCanonical 2 = true ∧
      ¬ (f.step (.head .background 1 1 [10] 1)).store.OnChainOf 3 2 := by
  intro f
  refine ⟨by decide +kernel, by decide +kernel, by decide +kernel, ?_⟩
  have h₃ : (f.step (.head .background 1 1 [10] 1)).store.nodesIndices[(3 : Root)]? = some 2 := by
    decide +kernel
  have h₂ : (f.step (.head .background 1 1 [10] 1)).store.nodesIndices[(2 : Root)]? = some 1 := by
    decide +kernel
  rintro ⟨t, a, ht, ha, hbelow⟩
  obtain rfl := Option.some.inj (h₃.symm.trans ht)
  obtain rfl := Option.some.inj (h₂.symm.trans ha)
  rw [below_iff_mem_path (l := [0]) (by decide +kernel) (by decide +kernel)] at hbelow
  exact absurd hbelow (by decide)

end ForkChoice

end Vanguard.ProtoArray
