import Vanguard.Lib.Forest

/-!
Ancestors at a level.

Every node of a forest has a level, such as the slot of a block. The ancestor
of a node at level `k` is the first one on the way up whose level is not above
`k`.
-/

namespace Vanguard.Forest

open Option

variable {ι K : Type*} [LT K]

/-- The parents of a forest with levels. -/
def parentIn (node : ι → Option (K × ι)) (i : ι) : Option ι := (node i).map Prod.snd

/-- The ancestor of `i` at level `k` is `a`. -/
inductive AncestorAt (node : ι → Option (K × ι)) (k : K) : ι → ι → Prop
  | here {i p : ι} {x : K} : node i = some (x, p) → ¬ k < x → AncestorAt node k i i
  | up {i a p : ι} {x : K} : node i = some (x, p) → k < x → AncestorAt node k p a →
      AncestorAt node k i a

variable {node : ι → Option (K × ι)} {k : K} {i a b : ι}

theorem AncestorAt.unique (ha : AncestorAt node k i a) (hb : AncestorAt node k i b) : a = b := by
  induction ha with
  | here hi hx =>
    cases hb with
    | here => rfl
    | up hi' hx' =>
      obtain ⟨rfl, -⟩ := Prod.mk.inj (some.inj (hi.symm.trans hi'))
      exact absurd hx' hx
  | up hi hx hrest ih =>
    cases hb with
    | here hi' hx' =>
      obtain ⟨rfl, -⟩ := Prod.mk.inj (some.inj (hi.symm.trans hi'))
      exact absurd hx hx'
    | up hi' hx' hrest' =>
      obtain ⟨-, rfl⟩ := Prod.mk.inj (some.inj (hi.symm.trans hi'))
      exact ih hrest'

theorem AncestorAt.isBelow (h : AncestorAt node k i a) : Below (parentIn node) i a := by
  induction h with
  | here => exact Below.refl _
  | up hi _ _ ih =>
    have hp : parentIn node _ = some _ := congrArg (Option.map Prod.snd) hi
    exact Below.of_parent_below hp ih

theorem AncestorAt.exists_node (h : AncestorAt node k i a) : ∃ x p, node a = some (x, p) := by
  induction h with
  | here hi => exact ⟨_, _, hi⟩
  | up _ _ _ ih => exact ih

end Vanguard.Forest
