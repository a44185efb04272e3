import Vanguard.Lib.Ancestor
import Vanguard.ProtoArray.Weights

/-!
Queries along parent links.

The nodes of a store have the slots of the blocks that were inserted, and the
parent links are those of the blocks, where both ends are still there. So what
`AncestorRoot` returns is the ancestor in the tree of all blocks.
-/

namespace Vanguard.ProtoArray

open Forest

variable {r : Root}

namespace Store

variable {s : Store} {block : Root → Option (Slot × Root)}

def slotAt (s : Store) (i : ℕ) : Option Slot := s.nodes[i]?.map Node.slot

@[simp] theorem slotAt_relink (s : Store) (best : BestChild.Links ℕ) :
    (s.relink best).slotAt = s.slotAt := by
  funext i
  cases h : s.nodes[i]? <;> simp [slotAt, h, Node.withLink]

@[simp] theorem slotAt_reweigh (s : Store) (weight : ℕ → Gwei) :
    (s.reweigh weight).slotAt = s.slotAt := by
  funext i
  cases h : s.nodes[i]? <;> simp [slotAt, h]

theorem slotAt_append_of_ne {n : Node} {i : ℕ} (hi : i ≠ s.nodes.length) :
    (s.append n).slotAt i = s.slotAt i := by
  simp [slotAt, getElem?_append_of_ne hi]

theorem slotAt_pruned (s : Store) (k i : ℕ) : (s.pruned k).slotAt i = s.slotAt (i + k) := by
  simp [slotAt, getElem?_pruned, Function.comp_def, Node.renumber]

/-- Every node stands for a block of the tree `block` with its slot, and a
parent link leads to the parent of that block. -/
def LinkedAs (block : Root → Option (Slot × Root)) (s : Store) : Prop :=
  ∀ i r, s.rootAt i = some r →
    ∃ slot q, block r = some (slot, q) ∧ s.slotAt i = some slot ∧
      ∀ p, s.parentOf i = some p → s.rootAt p = some q

variable (h : s.LinkedAs block)

include h

theorem LinkedAs.mono {block' : Root → Option (Slot × Root)}
    (hmono : ∀ r x, block r = some x → block' r = some x) : s.LinkedAs block' := by
  intro i r hr
  obtain ⟨slot, q, hq, hrest⟩ := h i r hr
  exact ⟨slot, q, hmono r _ hq, hrest⟩

theorem LinkedAs.congr {s' : Store} (hr : s'.rootAt = s.rootAt)
    (hslot : s'.slotAt = s.slotAt) (hp : s'.parentOf = s.parentOf) : s'.LinkedAs block := by
  intro i r
  rw [hr, hslot, hp]
  exact h i r

theorem LinkedAs.inserted (hs : s.WellFormed) {slot : Slot}
    {q : Root} (hq : block r = some (slot, q)) (g : Root) (je fe : Epoch) :
    (s.inserted (s.newNode slot r q g je fe)).LinkedAs block := by
  have happend : (s.append (s.newNode slot r q g je fe)).LinkedAs block := by
    intro i r' hr'
    by_cases hi : i = s.nodes.length
    · subst hi
      obtain rfl : r = r' := by simpa [rootAt, newNode] using hr'
      refine ⟨slot, q, hq, by simp [slotAt, newNode], fun p hp => ?_⟩
      rw [parentOf_append_length] at hp
      have hlen := hs.lt_length_of_nodesIndices hp
      rw [rootAt_append_of_ne (by omega)]
      exact hs.rootAt_iff.mp hp
    · rw [rootAt_append_of_ne hi] at hr'
      obtain ⟨slot', q', hq', hslot', hp'⟩ := h i r' hr'
      refine ⟨slot', q', hq', (slotAt_append_of_ne hi).trans hslot', fun p hp => ?_⟩
      rw [parentOf_append_of_ne hi] at hp
      have hlt := hs.parentOf_lt hp
      have hlen := lt_length_of_parentOf hp
      rw [rootAt_append_of_ne (by omega)]
      exact hp' p hp
  exact happend.congr (rootAt_relink _ _) (slotAt_relink _ _) (parentOf_relink _ _)

theorem LinkedAs.pruned (k : ℕ) : (s.pruned k).LinkedAs block := by
  intro i r hr
  rw [rootAt_pruned] at hr
  obtain ⟨slot, q, hq, hslot, hp⟩ := h _ r hr
  refine ⟨slot, q, hq, (slotAt_pruned s k i).trans hslot, fun p hp' => ?_⟩
  rw [rootAt_pruned]
  exact hp _ (parentOf_pruned.mp hp')

end Store

namespace ForkChoice

variable {f : ForkChoice} {block : Root → Option (Slot × Root)}

theorem new_linkedAs (je fe : Epoch) (r : Root) :
    (ForkChoice.new je fe r).store.LinkedAs block := by
  intro i r' hr'
  simp [Store.rootAt, ForkChoice.new] at hr'

@[simp] theorem slotAt_headed (f : ForkChoice) (je fe : Epoch) (balances : List Gwei) :
    (f.headed je fe balances).store.slotAt = f.store.slotAt := by
  simp only [headed, Store.swept, Store.reweighed, Store.slotAt_relink, Store.slotAt_reweigh]
  rfl

/-- A call keeps the links, given that a block is inserted with the slot and
the parent it has in the tree. -/
theorem step_linkedAs (hs : f.store.WellFormed) (h : f.store.LinkedAs block) {op : Op}
    (hop : ∀ slot r q g je fe, op = .processBlock slot r q g je fe →
      block r = some (slot, q)) :
    (f.step op).store.LinkedAs block := by
  cases op with
  | processBlock slot r q g je fe =>
    rw [step_processBlock hs]
    dsimp only
    split
    · exact h
    · exact h.inserted hs (hop slot r q g je fe rfl) g je fe
  | processAttestation vs r target => exact h
  | prune r =>
    rw [step_prune hs]
    dsimp only [prunedAt]
    split
    · exact h
    · split
      · exact h
      · exact h.pruned _
  | head ctx je r balances fe =>
    obtain ⟨m, hm⟩ := step_head hs ctx je r balances fe
    rw [hm]
    exact h.congr (rootAt_headed f je fe balances) (slotAt_headed f je fe balances)
      (parentOf_headed f je fe balances)

theorem ancestorRootFrom_sound {nodes : List Node} (h : f.store.LinkedAs block)
    (hnodes : nodes = f.store.nodes) (ctx : Ctx) (slot : Slot) (fuel poll i : ℕ) {a : Root}
    (hr : f.store.rootAt i = some r) (ha : ancestorRootFrom ctx nodes slot fuel poll i = .ok a) :
    AncestorAt block slot r a := by
  induction fuel generalizing poll i r with
  | zero => simp [ancestorRootFrom] at ha
  | succ fuel ih =>
    obtain ⟨n, hn, rfl⟩ := Option.map_eq_some_iff.mp hr
    obtain ⟨slot', q, hq, hslot, hlink⟩ := h i n.root hr
    obtain rfl : n.slot = slot' := by simpa [Store.slotAt, hn] using hslot
    rw [ancestorRootFrom, hnodes, hn] at ha
    dsimp only at ha
    split at ha
    · split at ha
      · exact absurd ha (by simp)
      · cases hp : n.parent with
        | none => simp [hp] at ha
        | some p =>
          rw [hp] at ha
          have hparent : f.store.parentOf i = some p := Store.parentOf_eq_some.mpr ⟨n, hn, hp⟩
          rw [← hnodes] at ha
          exact .up hq (by assumption) (ih (poll + 1) p (hlink p hparent) ha)
    · obtain rfl := Except.ok.inj ha
      exact .here hq (by assumption)

/-- `AncestorRoot` returns the ancestor at the slot. -/
theorem ancestorRoot_sound (hs : f.store.WellFormed) (h : f.store.LinkedAs block) {ctx : Ctx}
    {a : Root} {slot : Slot} (ha : ancestorRoot ctx f r slot = .ok a) :
    AncestorAt block slot r a := by
  unfold ancestorRoot at ha
  split at ha
  · exact absurd ha (by simp)
  · rename_i i hi
    exact ancestorRootFrom_sound h rfl ctx slot _ 0 i (hs.rootAt_iff.mp hi) ha

end ForkChoice

end Vanguard.ProtoArray
