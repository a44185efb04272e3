import Vanguard.Lib.EState
import Vanguard.ProtoArray.WellFormed

/-!
What the operations of the store do to a well-formed store.

Under the representation invariant none of the internal checks fails, and
each operation amounts to a plain transformation of the array: the loop over
best children is a sweep of the links, the loop over deltas pushes them up
the forest, and pruning drops a segment of the array and shifts the indices.
-/

namespace Vanguard.ProtoArray

open Forest BestChild EState List Function Node

namespace Store

variable {s : Store} {i c p : ℕ} {n child : Node} {best : Links ℕ} {root parent graffiti : Root}
  {slot : Slot} {je fe : Epoch}

/-! ### Best children -/

theorem viableAt_of_getElem? (h : s.nodes[i]? = some n) : s.viableAt i = s.viableForHead n := by
  simp [viableAt, h]

theorem keyAt_of_getElem? (h : s.nodes[i]? = some n) :
    s.keyAt i = toLex (n.weight.toNat, n.root.toNat) := by
  simp [keyAt, h]

theorem leadsToViableHead_relink (hb : Sound s.parentOf best) (hc : s.nodes[c]? = some child) :
    (s.relink best).leadsToViableHead (child.withLink (best c)) =
      .ok (leads s.viableAt best c) := by
  cases hbc : best c with
  | none =>
    simp [leadsToViableHead, withLink, leads, tip_of_none hbc, viableAt_of_getElem? hc]
    rfl
  | some bd =>
    obtain ⟨b, d⟩ := bd
    obtain ⟨hparent, hbelow⟩ := hb c b d hbc
    have hd : d < s.nodes.length := lt_length_of_below hbelow (lt_length_of_parentOf hparent)
    obtain ⟨m, hm⟩ : ∃ m, s.nodes[d]? = some m := ⟨_, getElem?_eq_getElem hd⟩
    simp only [leadsToViableHead, withLink, Option.map_some, getElem?_relink, hm, leads,
      tip_of_some hbc, viableAt_of_getElem? hc, viableAt_of_getElem? hm]
    rfl

theorem childWins_eq_wins {b : ℕ} {bestChild : Node} (hc : s.nodes[c]? = some child)
    (hb : s.nodes[b]? = some bestChild) (lc lb : Bool) :
    childWins lc lb child bestChild = wins lc lb (s.keyAt c) (s.keyAt b) := by
  simp only [childWins, wins, keyAt_of_getElem? hc, keyAt_of_getElem? hb,
    Prod.Lex.toLex_lt_toLex, BitVec.lt_def]
  split
  · rfl
  · split
    · rfl
    · by_cases hw : child.weight = bestChild.weight
      · simp [hw]
      · have hne : bestChild.weight.toNat ≠ child.weight.toNat := by
          rwa [Ne, BitVec.toNat_inj, eq_comm]
        simp [hw, hne]

theorem newParentChild_relink (hb : Sound s.parentOf best) {parent : Node}
    (hc : s.nodes[c]? = some child) :
    (s.relink best).newParentChild (parent.withLink (best p)) (child.withLink (best c)) c =
      .ok ((chosen s.viableAt s.keyAt best p c).map Prod.fst,
        (chosen s.viableAt s.keyAt best p c).map Prod.snd) := by
  have htip : ((child.withLink (best c)).bestDescendant).getD c = tip best c := rfl
  simp only [newParentChild, leadsToViableHead_relink hb hc, htip]
  cases hbp : best p with
  | none =>
    cases hl : leads s.viableAt best c <;>
      simp [withLink, chosen, hbp, hl, bind, Except.bind, pure, Except.pure]
  | some bd =>
    obtain ⟨b, d⟩ := bd
    by_cases hbc : b = c
    · subst hbc
      cases hl : leads s.viableAt best b <;>
        simp [withLink, chosen, hbp, hl, bind, Except.bind, pure, Except.pure]
    · have hlen := lt_length_of_parentOf (hb p b d hbp).1
      obtain ⟨m, hm⟩ : ∃ m, s.nodes[b]? = some m := ⟨_, getElem?_eq_getElem hlen⟩
      have hwins : childWins (leads s.viableAt best c) (leads s.viableAt best b)
          (child.withLink (best c)) (m.withLink (best b)) =
          wins (leads s.viableAt best c) (leads s.viableAt best b) (s.keyAt c) (s.keyAt b) :=
        childWins_eq_wins hc hm _ _
      have hlead := leadsToViableHead_relink hb hm
      simp only [withLink, Option.map_some, hbc, if_false, length_relink,
        hlen.not_gt, getElem?_relink, hm] at hlead hwins ⊢
      simp only [bind, Except.bind, hlead, hwins, chosen, hbp, hbc, if_false]
      split <;> simp [pure, Except.pure]

/-- Writing the outcome of a comparison to the parent is one `refresh`. -/
theorem set_relink {parent : Node} (hp : s.nodes[p]? = some parent) (l : Option (ℕ × ℕ)) :
    { s.relink best with nodes := (s.relink best).nodes.set p (parent.withLink l) } =
      s.relink (update best p l) := by
  simp only [relink, Store.mk.injEq, true_and, and_true]
  apply ext_getElem?
  intro i
  by_cases hi : i = p
  · subst hi
    obtain ⟨hlt, rfl⟩ := List.getElem?_eq_some_iff.mp hp
    simp [hlt]
  · rw [getElem?_set_ne (Ne.symm hi)]
    simp [update_of_ne hi]

theorem updateBestChildAndDescendant_relink (h : s.WellFormed) (hb : Sound s.parentOf best)
    (hc : s.parentOf c = some p) : updateBestChildAndDescendant p c (s.relink best) =
      .ok () (s.relink (refresh s.parentOf s.viableAt s.keyAt best c)) := by
  obtain ⟨child, hchild, -⟩ := parentOf_eq_some.mp hc
  have hp : p < s.nodes.length := (h.parentOf_lt hc).trans (lt_length_of_parentOf hc)
  obtain ⟨parent, hparent⟩ : ∃ n, s.nodes[p]? = some n := ⟨_, getElem?_eq_getElem hp⟩
  simp only [updateBestChildAndDescendant, getElem?_relink, hparent, hchild, Option.map_some,
    newParentChild_relink hb hchild, setNode]
  rw [refresh, hc, ← set_relink hparent]
  rfl

theorem nodeAt_of_getElem? (h : s.nodes[i]? = some n) : nodeAt i s = .ok n s := by
  simp [nodeAt, h]

/-- The second loop of `applyWeightChanges` sweeps the links. -/
theorem refreshBest_relink (h : s.WellFormed) {deltaLength : ℕ}
    (hlen : s.nodes.length ≤ deltaLength) (k : ℕ) (hk : k ≤ s.nodes.length)
    (hb : Sound s.parentOf best) : refreshBest deltaLength k (s.relink best) =
      .ok () (s.relink
        (sweep s.parentOf s.viableAt s.keyAt (range k).reverse best)) := by
  induction k generalizing best with
  | zero => rfl
  | succ k ih =>
    obtain ⟨n, hn⟩ : ∃ n, s.nodes[k]? = some n := ⟨_, getElem?_eq_getElem hk⟩
    have hnode : nodeAt k (s.relink best) = .ok (n.withLink (best k)) (s.relink best) :=
      nodeAt_of_getElem? (by simp [hn])
    rw [range_succ, reverse_append, reverse_singleton, singleton_append,
      sweep, foldl_cons, refreshBest, bind_ok hnode]
    cases hp : n.parent with
    | none =>
      have hpk : s.parentOf k = none := by simp [parentOf, hn, hp]
      simp only [parent_withLink, hp, refresh, hpk]
      exact ih (by omega) hb
    | some p =>
      have hpk : s.parentOf k = some p := parentOf_eq_some.mpr ⟨n, hn, hp⟩
      have hplt := h.parentOf_lt hpk
      simp only [parent_withLink, hp, show ¬ deltaLength ≤ p by omega, if_false]
      rw [bind_ok (updateBestChildAndDescendant_relink h hb hpk)]
      exact ih (by omega) (hb.refresh k)

/-! ### Weights -/

def accrue (s : Store) (delta : ℕ → SInt) (weight : ℕ → Gwei) (i : ℕ) : Gwei :=
  if s.nodes[i]?.map Node.root = some zeroHash then weight i
  else adjustWeight (weight i) (delta i)

theorem modify_map_range {α : Type} (n p : ℕ) (f : ℕ → α) (g : α → α) :
    ((range n).map f).modify p g =
      (range n).map (update f p (g (f p))) := by
  apply ext_getElem?
  intro i
  simp only [getElem?_modify, getElem?_map]
  by_cases hi : i < n
  · by_cases hip : i = p
    · subst hip; simp [hi]
    · simp [hi, hip, Ne.symm hip]
  · simp [hi]

theorem set_reweigh {weight : ℕ → Gwei} {k : ℕ} (hn : s.nodes[k]? = some n) (w : Gwei) :
    setNode k { n with weight := w } (s.reweigh weight) =
      .ok () (s.reweigh (update weight k w)) := by
  simp only [setNode, reweigh]
  congr 2
  apply ext_getElem?
  intro i
  by_cases hi : i = k
  · subst hi
    obtain ⟨hlt, rfl⟩ := List.getElem?_eq_some_iff.mp hn
    simp [hlt]
  · rw [getElem?_set_ne (Ne.symm hi)]
    simp [update_of_ne hi]

/-- The first loop of `applyWeightChanges` pushes the deltas up the forest,
and each node accrues the value it holds at the end. -/
theorem applyDeltas_reweigh (h : s.WellFormed) (k : ℕ) (hk : k ≤ s.nodes.length)
    (delta : ℕ → SInt) (weight : ℕ → Gwei) :
    applyDeltas k ((range s.nodes.length).map delta) (s.reweigh weight) =
      .ok ((range s.nodes.length).map
          ((range k).reverse.foldl (push s.carriesTo) delta))
        (s.reweigh fun i =>
          if i < k then
            s.accrue ((range k).reverse.foldl (push s.carriesTo) delta) weight i
          else weight i) := by
  induction k generalizing delta weight with
  | zero => simp [applyDeltas]
  | succ k ih =>
    obtain ⟨n, hn⟩ : ∃ n, s.nodes[k]? = some n := ⟨_, getElem?_eq_getElem hk⟩
    have hnode : nodeAt k (s.reweigh weight) =
        .ok { n with weight := weight k } (s.reweigh weight) :=
      nodeAt_of_getElem? (by simp [hn])
    -- nodes from `k` on receive nothing from the nodes below `k`
    have hkeep : ∀ value : ℕ → SInt,
        (range k).reverse.foldl (push s.carriesTo) value k = value k := by
      intro value
      apply foldl_push_of_ne
      intro c hc hck
      have := h.parentOf_lt (parentOf_of_carriesTo hck)
      simp only [mem_reverse, mem_range] at hc
      omega
    rw [range_succ, reverse_append, reverse_singleton, singleton_append,
      foldl_cons, applyDeltas, bind_ok hnode]
    by_cases hz : n.root = zeroHash
    · have hcarry : s.carriesTo k = none := by simp [carriesTo, hn, hz]
      have hpush : push s.carriesTo delta k = delta := by simp [push, hcarry]
      simp only [hz, if_true, hpush]
      rw [ih (by omega)]
      congr 1
      apply reweigh_congr
      intro i _
      by_cases hik : i = k
      · subst hik; simp [accrue, hn, hz]
      · have : i < k + 1 ↔ i < k := by omega
        simp [this]
    · have hget : ((range s.nodes.length).map delta)[k]? = some (delta k) := by
        simp [show k < s.nodes.length by omega]
      have hpushk : push s.carriesTo delta k k = delta k := by
        apply push_of_ne
        intro hck
        have := h.parentOf_lt (parentOf_of_carriesTo hck)
        omega
      have hlast : ∀ w', w' = update weight k (adjustWeight (weight k) (delta k)) →
          (s.reweigh fun i => if i < k then
            s.accrue ((range k).reverse.foldl (push s.carriesTo)
              (push s.carriesTo delta k)) w' i else w' i) =
          s.reweigh fun i => if i < k + 1 then
            s.accrue ((range k).reverse.foldl (push s.carriesTo)
              (push s.carriesTo delta k)) weight i else weight i := by
        rintro w' rfl
        apply reweigh_congr
        intro i _
        by_cases hik : i = k
        · subst hik
          simp [accrue, hn, hz, hkeep, hpushk]
        · have : i < k + 1 ↔ i < k := by omega
          simp [accrue, hik, this]
      simp only [hz, if_false, hget]
      rw [bind_ok (set_reweigh hn _)]
      cases hp : n.parent with
      | none =>
        have hpush : push s.carriesTo delta k = delta := by
          simp [push, carriesTo, hn, hp]
        simp only
        rw [ih (by omega), ← hlast _ rfl, hpush]
      | some p =>
        have hpk : s.parentOf k = some p := parentOf_eq_some.mpr ⟨n, hn, hp⟩
        have hplt := h.parentOf_lt hpk
        have hpush : push s.carriesTo delta k =
            update delta p (delta p + delta k) := by
          simp [push, carriesTo, hn, hp, hz]
        simp only [List.length_map, List.length_range,
          show ¬ s.nodes.length ≤ p by omega, if_false, modify_map_range]
        rw [← hpush, ih (by omega), ← hlast _ rfl]

/-- The deltas after they have been pushed up the whole forest. -/
def pushed (s : Store) (delta : ℕ → SInt) : ℕ → SInt :=
  (range s.nodes.length).reverse.foldl (push s.carriesTo) delta

/-- The store after the first loop of `applyWeightChanges`. -/
def reweighed (s : Store) (justifiedEpoch finalizedEpoch : Epoch) (delta : ℕ → SInt) : Store :=
  { s with justifiedEpoch := justifiedEpoch, finalizedEpoch := finalizedEpoch }.reweigh
    (s.accrue (s.pushed delta) s.weightAt)

def swept (s : Store) : Store :=
  s.relink (sweep s.parentOf s.viableAt s.keyAt (range s.nodes.length).reverse s.links)

theorem WellFormed.reweighed (h : s.WellFormed) (je fe : Epoch) (delta : ℕ → SInt) :
    (s.reweighed je fe delta).WellFormed := by
  have hepochs : { s with justifiedEpoch := je, finalizedEpoch := fe }.WellFormed := h.congr rfl rfl
  exact hepochs.reweigh _

theorem WellFormed.swept (h : s.WellFormed) : s.swept.WellFormed :=
  h.relink (h.sound.sweep _)

theorem applyWeightChanges_eq (h : s.WellFormed) (je fe : Epoch) (delta : ℕ → SInt) :
    applyWeightChanges je fe ((range s.nodes.length).map delta) s =
      .ok () (s.reweighed je fe delta).swept := by
  let s₁ : Store := { s with justifiedEpoch := je, finalizedEpoch := fe }
  have h₁ : s₁.WellFormed := h.congr rfl rfl
  have hdeltas := applyDeltas_reweigh h₁ s.nodes.length le_rfl delta s.weightAt
  have hs₁ : s₁.reweigh s.weightAt = s₁ := s₁.reweigh_weightAt
  have hw : (s₁.reweigh fun i =>
      if i < s.nodes.length then s₁.accrue (s.pushed delta) s.weightAt i
      else s.weightAt i) = s.reweighed je fe delta := by
    apply reweigh_congr
    intro i hi
    rw [if_pos hi]
    rfl
  rw [hs₁] at hdeltas
  have hlen : (s.reweighed je fe delta).nodes.length = s.nodes.length := by simp [Store.reweighed]
  have hrefresh := refreshBest_relink (h.reweighed je fe delta) hlen.le s.nodes.length hlen.ge
    (h.reweighed je fe delta).sound
  rw [(h.reweighed je fe delta).relink_links] at hrefresh
  simp only [applyWeightChanges, get_bind, List.length_map, List.length_range, ne_eq,
    not_true_eq_false, if_false, set_bind]
  rw [bind_ok hdeltas]
  simp only [List.length_map, List.length_range]
  refine Eq.trans ?_ (hrefresh.trans ?_)
  · rw [← hw]
    rfl
  · simp [Store.swept, Store.reweighed]

/-! ### Inserting -/

/-- The node that `insert` appends. -/
def newNode (s : Store) (slot : Slot) (root parent graffiti : Root)
    (justifiedEpoch finalizedEpoch : Epoch) : Node :=
  { slot := slot
    root := root
    parent := s.nodesIndices[parent]?
    justifiedEpoch := justifiedEpoch
    finalizedEpoch := finalizedEpoch
    weight := 0
    bestChild := none
    bestDescendant := none
    graffiti := graffiti }

def append (s : Store) (n : Node) : Store :=
  { s with
    nodesIndices := s.nodesIndices.insert n.root s.nodes.length
    nodes := s.nodes ++ [n] }

/-- The store after `insert` of a new block. -/
def inserted (s : Store) (n : Node) : Store :=
  (s.append n).relink
    (refresh (s.append n).parentOf (s.append n).viableAt (s.append n).keyAt s.links s.nodes.length)

theorem getElem?_append_of_ne (hi : i ≠ s.nodes.length) : (s.append n).nodes[i]? = s.nodes[i]? := by
  by_cases hlt : i < s.nodes.length
  · simp [append, getElem?_append_left hlt]
  · have h₁ : s.nodes[i]? = none := List.getElem?_eq_none_iff.mpr (by omega)
    rw [h₁, List.getElem?_eq_none_iff]
    simp only [append, length_append, length_singleton]
    omega

@[simp] theorem getElem?_append_length (n : Node) :
    (s.append n).nodes[s.nodes.length]? = some n := by
  simp [append]

theorem parentOf_append_of_ne (hi : i ≠ s.nodes.length) :
    (s.append n).parentOf i = s.parentOf i := by
  simp [parentOf, getElem?_append_of_ne hi]

theorem parentOf_append_length (n : Node) : (s.append n).parentOf s.nodes.length = n.parent := by
  simp [parentOf]

theorem links_append (hn : n.link = none) : (s.append n).links = s.links := by
  funext i
  by_cases hi : i = s.nodes.length
  · subst hi
    simp [links, hn]
  · simp [links, getElem?_append_of_ne hi]

section

variable (hi : i ≠ s.nodes.length)

include hi

theorem rootAt_append_of_ne : (s.append n).rootAt i = s.rootAt i := by
  simp [rootAt, getElem?_append_of_ne hi]

theorem epochsAt_append_of_ne : (s.append n).epochsAt i = s.epochsAt i := by
  simp [epochsAt, getElem?_append_of_ne hi]

theorem weightAt_append_of_ne : (s.append n).weightAt i = s.weightAt i := by
  simp [weightAt, getElem?_append_of_ne hi]

end

section

variable (h : s.WellFormed)

include h

theorem WellFormed.below_append (n : Node) {d a : ℕ} (hd : d ≠ s.nodes.length) :
    Below (s.append n).parentOf d a ↔ Below s.parentOf d a := by
  apply below_congr_of_leaf (n := s.nodes.length)
  · exact fun x hx => parentOf_append_of_ne hx
  · intro x hx
    have h₁ := h.parentOf_lt hx
    have h₂ := lt_length_of_parentOf hx
    omega
  · exact hd

theorem WellFormed.append (hnew : s.nodesIndices[n.root]? = none)
    (hparent : ∀ p, n.parent = some p → p < s.nodes.length) (hchild : n.bestChild = none)
    (hdesc : n.bestDescendant = none) : (s.append n).WellFormed := by
  have hcases : ∀ {i : ℕ} {m : Node}, (s.append n).nodes[i]? = some m →
      (i = s.nodes.length ∧ m = n) ∨ (i ≠ s.nodes.length ∧ s.nodes[i]? = some m) := by
    intro i m hm
    by_cases hi : i = s.nodes.length
    · subst hi
      rw [getElem?_append_length] at hm
      exact Or.inl ⟨rfl, (Option.some.inj hm).symm⟩
    · rw [getElem?_append_of_ne hi] at hm
      exact Or.inr ⟨hi, hm⟩
  constructor
  · intro r i
    have hmap : (s.append n).nodesIndices[r]? =
        if r = n.root then some s.nodes.length else s.nodesIndices[r]? :=
      TreeMap.getElem?_insert _ _ _ _
    rw [hmap]
    constructor
    · intro hi
      by_cases hr : r = n.root
      · rw [if_pos hr] at hi
        obtain rfl := Option.some.inj hi
        exact ⟨n, by simp, hr.symm⟩
      · rw [if_neg hr] at hi
        obtain ⟨m, hm, hmr⟩ := (h.indices r i).mp hi
        have hlt := (List.getElem?_eq_some_iff.mp hm).1
        exact ⟨m, by rw [getElem?_append_of_ne (by omega)]; exact hm, hmr⟩
    · rintro ⟨m, hm, rfl⟩
      rcases hcases hm with ⟨rfl, rfl⟩ | ⟨-, hm⟩
      · simp
      · have hi := (h.indices m.root i).mpr ⟨m, hm, rfl⟩
        have hne : m.root ≠ n.root := by
          intro heq
          rw [heq, hnew] at hi
          exact absurd hi (by simp)
        rw [if_neg hne]
        exact hi
  · intro i m p hm hp
    rcases hcases hm with ⟨rfl, rfl⟩ | ⟨-, hm⟩
    · exact hparent p hp
    · exact h.parent_lt i m p hm hp
  · intro i m hm
    rcases hcases hm with ⟨rfl, rfl⟩ | ⟨-, hm⟩
    · simp [hchild, hdesc]
    · exact h.paired i m hm
  · intro i m c d hm hc hd
    rcases hcases hm with ⟨rfl, rfl⟩ | ⟨-, hm⟩
    · rw [hchild] at hc
      exact absurd hc (by simp)
    · obtain ⟨hpc, hbelow⟩ := h.best i m c d hm hc hd
      have hclen := lt_length_of_parentOf hpc
      have hdlen := lt_length_of_below hbelow hclen
      rw [parentOf_append_of_ne (by omega), h.below_append n (by omega)]
      exact ⟨hpc, hbelow⟩

theorem WellFormed.append_newNode (slot : Slot)
    (hnew : s.nodesIndices[root]? = none) (parent graffiti : Root) (je fe : Epoch) :
    (s.append (s.newNode slot root parent graffiti je fe)).WellFormed := by
  refine h.append hnew ?_ rfl rfl
  intro p hp
  obtain ⟨n, hn, -⟩ := (h.indices parent p).mp hp
  exact (List.getElem?_eq_some_iff.mp hn).1

theorem WellFormed.inserted (hnew : s.nodesIndices[root]? = none) :
    (s.inserted (s.newNode slot root parent graffiti je fe)).WellFormed := by
  have h' := h.append_newNode slot hnew parent graffiti je fe
  apply h'.relink
  have hs := h'.sound
  rw [links_append rfl] at hs
  exact hs.refresh _

end

theorem insert_of_contains (hold : s.nodesIndices.contains root = true) :
    insert slot root parent graffiti je fe s = .ok () s := by
  simp only [insert, get_bind, hold, if_true, pure_apply]

theorem insert_eq (h : s.WellFormed) (hnew : s.nodesIndices[root]? = none) :
    insert slot root parent graffiti je fe s =
      .ok () (s.inserted (s.newNode slot root parent graffiti je fe)) := by
  have hcontains : s.nodesIndices.contains root = false := TreeMap.contains_eq_false_iff.mpr hnew
  have h' := h.append_newNode slot hnew parent graffiti je fe
  have hlinks : (s.append (s.newNode slot root parent graffiti je fe)).links = s.links :=
    links_append rfl
  have hrelink := h'.relink_links
  have hsound := h'.sound
  rw [hlinks] at hrelink hsound
  simp only [insert, get_bind, hcontains, Bool.false_eq_true, if_false, set_bind]
  change (_ : StoreM Unit) (s.append (s.newNode slot root parent graffiti je fe)) = _
  have hparent := parentOf_append_length (s := s) (s.newNode slot root parent graffiti je fe)
  cases hp : s.nodesIndices[parent]? with
  | none => simp only [pure_apply, Store.inserted, refresh, hparent.trans hp, hrelink]
  | some p =>
    have hupd := updateBestChildAndDescendant_relink h' hsound (hparent.trans hp)
    rw [hrelink] at hupd
    exact hupd

end Store

end Vanguard.ProtoArray
