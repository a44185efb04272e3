import Vanguard.Lib.Forest

/-!
Best-child links in a forest.

Every node of a forest may carry a link to one of its children, its best
child, together with the node at the end of the chain of best children. The
links are repaired incrementally: each child in turn is compared with the
best child its parent has at that moment, children before parents, by
whether it leads to a viable node and then by its key. The links one starts
from may be arbitrarily stale, as long as they point into the right subtree.

`Walk` says what the links are for: the node reached by moving to the child
with the largest key among those that lead to a viable node. The result of
the module is `tip_sweep`: after a full sweep the links lead to the end of
that walk, provided that no viable node has several children none of which
leads to a viable node.
-/

namespace Vanguard.BestChild

open Forest List Function Option

variable {ι K : Type*} {c p q : ι}

/-- Best child and end of the chain of best children, where there is one. -/
abbrev Links (ι : Type*) := ι → Option (ι × ι)

/-- The end of the chain of best children that starts at a node. -/
def tip (best : Links ι) (c : ι) : ι := ((best c).map Prod.snd).getD c

theorem tip_of_none {best : Links ι} (h : best c = none) : tip best c = c := by
  simp [tip, h]

theorem tip_of_some {best : Links ι} {b d : ι} (h : best c = some (b, d)) : tip best c = d := by
  simp [tip, h]

theorem tip_congr {best best' : Links ι} (h : best' c = best c) : tip best' c = tip best c := by
  simp [tip, h]

/-- What the links say about viability: the node or its tip is viable. -/
def leads (viable : ι → Bool) (best : Links ι) (c : ι) : Bool :=
  viable (tip best c) || viable c

/-- The subtree of `c` contains a viable node. -/
def LeadsTo (parent : ι → Option ι) (viable : ι → Bool) (c : ι) : Prop :=
  ∃ d, Below parent d c ∧ viable d = true

/-- Links point to a child and into that child's subtree. -/
def Sound (parent : ι → Option ι) (best : Links ι) : Prop :=
  ∀ p b d, best p = some (b, d) → parent b = some p ∧ Below parent d b

/-- No viable node has several children that all fail to lead to a viable
node. -/
def Settled (parent : ι → Option ι) (viable : ι → Bool) : Prop :=
  ∀ p c₁ c₂, viable p = true → parent c₁ = some p → parent c₂ = some p → c₁ ≠ c₂ →
    ∃ c, parent c = some p ∧ LeadsTo parent viable c

/-- From `p`, move to the child with the largest key among those that lead
to a viable node, until there is none. -/
inductive Walk [LE K] (parent : ι → Option ι) (viable : ι → Bool) (key : ι → K) :
    ι → ι → Prop
  | stop {p : ι} (h : ∀ c, parent c = some p → ¬ LeadsTo parent viable c) :
      Walk parent viable key p p
  | step {p c h : ι} (hc : parent c = some p) (hlead : LeadsTo parent viable c)
      (hmax : ∀ x, parent x = some p → LeadsTo parent viable x → key x ≤ key c)
      (hrest : Walk parent viable key c h) : Walk parent viable key p h

theorem LeadsTo.of_viable {parent : ι → Option ι} {viable : ι → Bool} (h : viable c = true) :
    LeadsTo parent viable c := ⟨c, Below.refl c, h⟩

theorem LeadsTo.of_child {parent : ι → Option ι} {viable : ι → Bool} (hc : parent c = some p)
    (h : LeadsTo parent viable c) : LeadsTo parent viable p := by
  obtain ⟨d, hd, hv⟩ := h
  exact ⟨d, hd.trans (Below.of_parent hc), hv⟩

theorem leadsTo_iff {parent : ι → Option ι} {viable : ι → Bool} : LeadsTo parent viable p ↔
      viable p = true ∨ ∃ c, parent c = some p ∧ LeadsTo parent viable c := by
  constructor
  · rintro ⟨d, hd, hv⟩
    rcases below_iff_child.mp hd with rfl | ⟨c, hc, hdc⟩
    · exact Or.inl hv
    · exact Or.inr ⟨c, hc, d, hdc, hv⟩
  · rintro (hv | ⟨c, hc, h⟩)
    · exact LeadsTo.of_viable hv
    · exact h.of_child hc

theorem Sound.below_tip {parent : ι → Option ι} {best : Links ι} (hs : Sound parent best) (c : ι) :
    Below parent (tip best c) c := by
  cases hb : best c with
  | none => rw [tip_of_none hb]
  | some bd =>
    obtain ⟨b, d⟩ := bd
    obtain ⟨hparent, hbelow⟩ := hs c b d hb
    rw [tip_of_some hb]
    exact hbelow.trans (Below.of_parent hparent)

theorem Sound.leadsTo_of_leads {parent : ι → Option ι} {viable : ι → Bool} {best : Links ι}
    (hs : Sound parent best) (h : leads viable best c = true) : LeadsTo parent viable c := by
  rcases (Bool.or_eq_true _ _).mp h with htip | hself
  · exact ⟨tip best c, hs.below_tip c, htip⟩
  · exact LeadsTo.of_viable hself

theorem Walk.end_below [LE K] {parent : ι → Option ι} {viable : ι → Bool} {key : ι → K} {h : ι}
    (hw : Walk parent viable key p h) : Below parent h p := by
  induction hw with
  | stop _ => exact Below.refl _
  | step hc _ _ _ ih => exact ih.trans (Below.of_parent hc)

theorem Walk.unique [PartialOrder K] {parent : ι → Option ι} {viable : ι → Bool} {key : ι → K}
    (hkey : ∀ x y p, parent x = some p → parent y = some p → key x = key y → x = y) {h h' : ι}
    (hw : Walk parent viable key p h) (hw' : Walk parent viable key p h') : h = h' := by
  induction hw generalizing h' with
  | stop hstop =>
    cases hw' with
    | stop _ => rfl
    | step hc hlead _ _ => exact absurd hlead (hstop _ hc)
  | step hc hlead hmax _ ih =>
    cases hw' with
    | stop hstop => exact absurd hlead (hstop _ hc)
    | step hc' hlead' hmax' hrest' =>
      have heq := hkey _ _ _ hc hc' (le_antisymm (hmax' _ hc hlead) (hmax _ hc' hlead'))
      subst heq
      exact ih hrest'

section Swept

variable [LinearOrder K] {parent : ι → Option ι} {viable : ι → Bool} {key : ι → K}

/-! ### The sweep

What holds once the nodes of `done` have been compared. A processed child
that leads to a viable node is beaten by the current best child or by a
sibling that is still to come. -/

/-- The state of the links after the comparisons of `done`. -/
structure Swept (parent : ι → Option ι) (viable : ι → Bool) (key : ι → K)
    (done : List ι) (best : Links ι) : Prop where
  sound : Sound parent best
  beaten : ∀ p c, c ∈ done → parent c = some p → LeadsTo parent viable c →
    ∃ b, parent b = some p ∧ LeadsTo parent viable b ∧ key c ≤ key b ∧
      ((∃ d, best p = some (b, d)) ∨ b ∉ done)
  tip_eq : ∀ p b d, best p = some (b, d) → b ∈ done → d = tip best b
  rival : ∀ p b d, best p = some (b, d) → b ∈ done →
    LeadsTo parent viable b ∨ ∃ c, c ≠ b ∧ parent c = some p

variable {done : List ι} {best : Links ι}

/-- Once all children of `q` have been compared, `q` either has no child
that leads to a viable node, or its best child does. -/
theorem Swept.best_of_children (h : Swept parent viable key done best) {c : ι}
    (hq : ∀ x, parent x = some q → x ∈ done) (hc : parent c = some q)
    (hlead : LeadsTo parent viable c) :
    ∃ b d, best q = some (b, d) ∧ LeadsTo parent viable b ∧ key c ≤ key b := by
  obtain ⟨b, hb, hblead, hkey, hbest | hbest⟩ := h.beaten q c (hq c hc) hc hlead
  · obtain ⟨d, hd⟩ := hbest
    exact ⟨b, d, hd, hblead, hkey⟩
  · exact absurd (hq b hb) hbest

/-- A node that leads to a viable node without any child doing so has no
best child once its children have been compared. -/
theorem Swept.best_eq_none (h : Swept parent viable key done best)
    (hsettled : Settled parent viable) (hq : ∀ x, parent x = some q → x ∈ done)
    (hlead : LeadsTo parent viable q) (hno : ∀ c, parent c = some q → ¬ LeadsTo parent viable c) :
    best q = none := by
  have hviable : viable q = true := by
    rcases leadsTo_iff.mp hlead with hv | ⟨c, hc, hcl⟩
    · exact hv
    · exact absurd hcl (hno c hc)
  cases hb : best q with
  | none => rfl
  | some bd =>
    obtain ⟨b, d⟩ := bd
    obtain ⟨hparent, -⟩ := h.sound q b d hb
    rcases h.rival q b d hb (hq b hparent) with hbl | ⟨c, hcb, hc⟩
    · exact absurd hbl (hno b hparent)
    · obtain ⟨x, hx, hxl⟩ := hsettled q c b hviable hc hparent hcb
      exact absurd hxl (hno x hx)

/-- The tip of a node is viable as soon as anything in its subtree is, once
the whole subtree below it has been compared. -/
theorem Swept.viable_tip {rank : ι → ℕ} {bound : ℕ} (hr : Ranked parent rank bound)
    (h : Swept parent viable key done best) (hsettled : Settled parent viable)
    (hclosed : ∀ c ∈ done, ∀ x, parent x = some c → x ∈ done) :
    ∀ q, (∀ x, parent x = some q → x ∈ done) → LeadsTo parent viable q →
      viable (tip best q) = true := by
  -- induction from the leaves: the tip of `q` is the tip of its best child
  refine hr.leaf_induction fun q ih hq hlead => ?_
  by_cases hchild : ∃ c, parent c = some q ∧ LeadsTo parent viable c
  · obtain ⟨c, hc, hcl⟩ := hchild
    obtain ⟨b, d, hb, hbl, -⟩ := h.best_of_children hq hc hcl
    obtain ⟨hparent, -⟩ := h.sound q b d hb
    have hbd := hq b hparent
    rw [tip_of_some hb, h.tip_eq q b d hb hbd]
    exact ih b hparent (hclosed b hbd) hbl
  · have hno : ∀ c, parent c = some q → ¬ LeadsTo parent viable c :=
      fun c hc hcl => hchild ⟨c, hc, hcl⟩
    rw [tip_of_none (h.best_eq_none hsettled hq hlead hno)]
    rcases leadsTo_iff.mp hlead with hv | hex
    · exact hv
    · exact absurd hex hchild

end Swept

section Refresh

variable [DecidableEq ι] [LinearOrder K]
variable (parent : ι → Option ι) (viable : ι → Bool) (key : ι → K)

/-- Whether a child takes over from the current best child. -/
def wins (childLeads bestLeads : Bool) (childKey bestKey : K) : Bool :=
  if childLeads && !bestLeads then true
  else if !childLeads && bestLeads then false
  else decide (bestKey < childKey)

/-- The new link of `p` after its child `c` has been compared with the best
child it has. -/
def chosen (best : Links ι) (p c : ι) : Option (ι × ι) :=
  match best p with
  | none => if leads viable best c then some (c, tip best c) else none
  | some (b, d) =>
    if b = c then
      if leads viable best c then some (c, tip best c) else none
    else if wins (leads viable best c) (leads viable best b) (key c) (key b) then
      some (c, tip best c)
    else some (b, d)

/-- One comparison, written to the parent. -/
def refresh (best : Links ι) (c : ι) : Links ι :=
  match parent c with
  | none => best
  | some p => update best p (chosen viable key best p c)

/-- All comparisons in the given order. -/
def sweep (order : List ι) (best : Links ι) : Links ι :=
  order.foldl (refresh parent viable key) best

variable {parent viable key}

variable {best : Links ι} {c : ι} {rank : ι → ℕ} {bound : ℕ}

theorem refresh_of_ne (h : parent c ≠ some q) : refresh parent viable key best c q = best q := by
  unfold refresh
  cases hp : parent c with
  | none => rfl
  | some p =>
    have hqp : q ≠ p := by
      rintro rfl
      exact h hp
    exact update_of_ne hqp _ _

theorem refresh_parent {p : ι} (h : parent c = some p) :
    refresh parent viable key best c p = chosen viable key best p c := by
  simp [refresh, h]

variable (viable key) in
theorem chosen_cases (best : Links ι) (p c : ι) :
    chosen viable key best p c = none ∨
      chosen viable key best p c = best p ∨
      chosen viable key best p c = some (c, tip best c) := by
  unfold chosen
  cases hb : best p with
  | none => by_cases hl : leads viable best c = true <;> simp [hl]
  | some bd =>
    obtain ⟨b, d⟩ := bd
    dsimp only
    split_ifs <;> simp

theorem Sound.refresh (hs : Sound parent best) (c : ι) :
    Sound parent (refresh parent viable key best c) := by
  intro q b d hq
  by_cases hc : parent c = some q
  · rw [refresh_parent hc] at hq
    rcases chosen_cases viable key best q c with h | h | h
    · rw [h] at hq
      exact absurd hq (by simp)
    · rw [h] at hq
      exact hs q b d hq
    · rw [h] at hq
      obtain ⟨rfl, rfl⟩ := Prod.mk.inj (some.inj hq)
      exact ⟨hc, hs.below_tip c⟩
  · rw [refresh_of_ne hc] at hq
    exact hs q b d hq

theorem Sound.sweep (hs : Sound parent best) (order : List ι) :
    Sound parent (sweep parent viable key order best) := by
  unfold BestChild.sweep
  induction order generalizing best with
  | nil => exact hs
  | cons c order ih => exact ih (hs.refresh c)

variable (viable key best) in
theorem refresh_spec {p : ι} (hp : parent c = some p) :
    (refresh parent viable key best c p = some (c, tip best c) ∧
      (leads viable best c = true ∨ ∃ b d, b ≠ c ∧ best p = some (b, d)) ∧
      ∀ b d, best p = some (b, d) → b ≠ c → leads viable best b = true →
        leads viable best c = true ∧ key b < key c) ∨
    (refresh parent viable key best c p = none ∧ leads viable best c = false ∧
      ∀ b d, best p = some (b, d) → b = c) ∨
    (∃ b d, b ≠ c ∧ best p = some (b, d) ∧ refresh parent viable key best c p = some (b, d) ∧
      (leads viable best c = true → leads viable best b = true ∧ key c ≤ key b)) := by
  rw [refresh_parent hp]
  unfold chosen
  cases hb : best p with
  | none =>
    cases hl : leads viable best c with
    | true => exact Or.inl ⟨by simp, Or.inl rfl, by simp⟩
    | false => exact Or.inr (Or.inl ⟨by simp, rfl, by simp⟩)
  | some bd =>
    obtain ⟨b, d⟩ := bd
    by_cases hbc : b = c
    · subst hbc
      cases hl : leads viable best b with
      | true =>
        refine Or.inl ⟨by simp, Or.inl rfl, ?_⟩
        intro b' d' heq hne
        exact absurd (Prod.mk.inj (some.inj heq)).1.symm hne
      | false =>
        refine Or.inr (Or.inl ⟨by simp, rfl, ?_⟩)
        intro b' d' heq
        exact (Prod.mk.inj (some.inj heq)).1.symm
    · cases hw : wins (leads viable best c) (leads viable best b) (key c) (key b) with
      | true =>
        refine Or.inl ⟨by simp [hbc, hw], Or.inr ⟨b, d, hbc, rfl⟩, ?_⟩
        intro b' d' heq _ hlead
        obtain ⟨rfl, rfl⟩ := Prod.mk.inj (some.inj heq)
        cases hl : leads viable best c <;> simp_all [wins]
      | false =>
        refine Or.inr (Or.inr ⟨b, d, hbc, rfl, by simp [hbc, hw], ?_⟩)
        intro hl
        cases hlb : leads viable best b <;> simp_all [wins]

variable (hr : Ranked parent rank bound)

include hr

/-- The step of the sweep: comparing `c`, all of whose children have been
compared, keeps `Swept`. -/
theorem Swept.refresh {done : List ι}
    (h : Swept parent viable key done best) (hsettled : Settled parent viable)
    (hclosed : ∀ c ∈ done, ∀ x, parent x = some c → x ∈ done) (hc : c ∉ done)
    (hchildren : ∀ x, parent x = some c → x ∈ done) :
    Swept parent viable key (done ++ [c]) (refresh parent viable key best c) := by
  have hfresh : ∀ q, (∀ x, parent x = some q → x ∈ done) → LeadsTo parent viable q →
      leads viable best q = true := by
    intro q hq hlead
    simp [leads, h.viable_tip hr hsettled hclosed q hq hlead]
  have hmem : ∀ {x}, x ∈ done ++ [c] → x ≠ c → x ∈ done := by simp +contextual [or_imp]
  have hne : ∀ {x q}, parent x = some q → parent c ≠ some q → x ≠ c := by
    rintro x q hx hq rfl
    exact hq hx
  -- no visited node is the parent of `c`, so their tips are untouched
  have htip : ∀ x, x ∈ done ++ [c] →
      tip (BestChild.refresh parent viable key best c) x = tip best x := by
    intro x hx
    refine tip_congr (refresh_of_ne fun hcx => hc ?_)
    exact hclosed x (hmem hx (hr.parent_ne_self hcx).symm) c hcx
  have hwinner : ∀ q, parent c = some q → LeadsTo parent viable c → ∃ b, parent b = some q ∧
      LeadsTo parent viable b ∧ key c ≤ key b ∧
      ∃ d, BestChild.refresh parent viable key best c q = some (b, d) := by
    intro q hq hlead
    have hl := hfresh c hchildren hlead
    rcases refresh_spec viable key best hq with
      ⟨heq, -, -⟩ | ⟨-, hno, -⟩ | ⟨b, d, -, hb, heq, hbeat⟩
    · exact ⟨c, hq, hlead, le_rfl, _, heq⟩
    · exact absurd hl (by simp [hno])
    · obtain ⟨hbl, hkey⟩ := hbeat hl
      exact ⟨b, (h.sound q b d hb).1, h.sound.leadsTo_of_leads hbl, hkey, d, heq⟩
  refine ⟨h.sound.refresh c, ?_, ?_, ?_⟩
  · intro q x hx hxq hlead
    by_cases hq : parent c = some q
    · by_cases hxc : x = c
      · subst hxc
        obtain ⟨b, hb, hbl, hkey, hbest⟩ := hwinner q hq hlead
        exact ⟨b, hb, hbl, hkey, Or.inl hbest⟩
      obtain ⟨w, hw, hwl, hkey, hbest⟩ := h.beaten q x (hmem hx hxc) hxq hlead
      by_cases hwc : w = c
      · subst hwc
        obtain ⟨b, hb, hbl, hkey', hbest'⟩ := hwinner q hq hwl
        exact ⟨b, hb, hbl, hkey.trans hkey', Or.inl hbest'⟩
      by_cases hwd : w ∈ done
      · obtain ⟨d, hd⟩ := hbest.resolve_right (fun hn => hn hwd)
        have hwlead := hfresh w (hclosed w hwd) hwl
        rcases refresh_spec viable key best hq with
          ⟨heq, -, hover⟩ | ⟨-, -, honly⟩ | ⟨b, d', -, hb, heq, -⟩
        · obtain ⟨hcl, hlt⟩ := hover w d hd hwc hwlead
          exact ⟨c, hq, h.sound.leadsTo_of_leads hcl, hkey.trans hlt.le, Or.inl ⟨_, heq⟩⟩
        · exact absurd (honly w d hd) hwc
        · obtain ⟨rfl, rfl⟩ := Prod.mk.inj (some.inj (hd.symm.trans hb))
          exact ⟨w, hw, hwl, hkey, Or.inl ⟨d, heq⟩⟩
      · exact ⟨w, hw, hwl, hkey, Or.inr fun hin => hwd (hmem hin hwc)⟩
    · obtain ⟨b, hb, hbl, hkey, hbest⟩ := h.beaten q x (hmem hx (hne hxq hq)) hxq hlead
      refine ⟨b, hb, hbl, hkey, ?_⟩
      rw [refresh_of_ne hq]
      exact hbest.imp_right fun hnot hin => hnot (hmem hin (hne hb hq))
  · intro q b d hb hbd
    rw [htip b hbd]
    by_cases hq : parent c = some q
    · rcases refresh_spec viable key best hq with
        ⟨heq, -, -⟩ | ⟨heq, -, -⟩ | ⟨b', d', hbc, hb', heq, -⟩
      · obtain ⟨rfl, rfl⟩ := Prod.mk.inj (some.inj (heq.symm.trans hb))
        rfl
      · exact absurd (heq.symm.trans hb) (by simp)
      · obtain ⟨rfl, rfl⟩ := Prod.mk.inj (some.inj (heq.symm.trans hb))
        exact h.tip_eq q b' d' hb' (hmem hbd hbc)
    · rw [refresh_of_ne hq] at hb
      exact h.tip_eq q b d hb (hmem hbd (hne (h.sound q b d hb).1 hq))
  · intro q b d hb hbd
    by_cases hq : parent c = some q
    · rcases refresh_spec viable key best hq with
        ⟨heq, hwhy, -⟩ | ⟨heq, -, -⟩ | ⟨b', d', hbc, hb', heq, -⟩
      · obtain ⟨rfl, rfl⟩ := Prod.mk.inj (some.inj (heq.symm.trans hb))
        rcases hwhy with hl | ⟨b', d', hne', hb'⟩
        · exact Or.inl (h.sound.leadsTo_of_leads hl)
        · exact Or.inr ⟨b', hne', (h.sound q b' d' hb').1⟩
      · exact absurd (heq.symm.trans hb) (by simp)
      · obtain ⟨rfl, rfl⟩ := Prod.mk.inj (some.inj (heq.symm.trans hb))
        exact h.rival q b' d' hb' (hmem hbd hbc)
    · rw [refresh_of_ne hq] at hb
      exact h.rival q b d hb (hmem hbd (hne (h.sound q b d hb).1 hq))

theorem swept_sweep (hs : Sound parent best)
    (hsettled : Settled parent viable) (order : List ι) (hord : ChildrenFirst parent order) :
    Swept parent viable key order (sweep parent viable key order best) := by
  induction order using reverseRecOn with
  | nil => exact ⟨hs, by simp, by simp, by simp⟩
  | append_singleton done c ih =>
    obtain ⟨hc, hchildren⟩ := hord done c [] rfl
    have hdone := hord.of_append
    have hstep := (ih hdone).refresh hr hsettled
      (fun x hx y hy => hdone.mem_of_parent hx hy) hc hchildren
    rwa [BestChild.sweep, foldl_append]

/-- After a full sweep the tip of a node is the end of its walk, or neither
of the two is viable. -/
theorem tip_sweep (hs : Sound parent best)
    (hsettled : Settled parent viable) (order : List ι) (hord : ChildrenFirst parent order)
    (hall : ∀ x p, parent x = some p → x ∈ order) (q : ι) : ∃ h, Walk parent viable key q h ∧
      viable (tip (sweep parent viable key order best) q) = viable h ∧
      (viable h = true → tip (sweep parent viable key order best) q = h) := by
  have hsw : Swept parent viable key order (sweep parent viable key order best) :=
    swept_sweep hr hs hsettled order hord
  have hq : ∀ q x, parent x = some q → x ∈ order := fun q x hx => hall x q hx
  have hclosed : ∀ c ∈ order, ∀ x, parent x = some c → x ∈ order := fun c _ => hq c
  revert q
  refine hr.leaf_induction fun q ih => ?_
  by_cases hchild : ∃ c, parent c = some q ∧ LeadsTo parent viable c
  · obtain ⟨c, hc, hcl⟩ := hchild
    obtain ⟨b, d, hb, hbl, -⟩ := hsw.best_of_children (hq q) hc hcl
    obtain ⟨hparent, -⟩ := hsw.sound q b d hb
    obtain ⟨h, hwalk, hviable, htip⟩ := ih b hparent
    have hmax : ∀ x, parent x = some q → LeadsTo parent viable x → key x ≤ key b := by
      intro x hx hxl
      obtain ⟨b', d', hb', -, hkey⟩ := hsw.best_of_children (hq q) hx hxl
      obtain ⟨rfl, rfl⟩ := Prod.mk.inj (some.inj (hb.symm.trans hb'))
      exact hkey
    rw [tip_of_some hb, hsw.tip_eq q b d hb (hq q b hparent)]
    exact ⟨h, Walk.step hparent hbl hmax hwalk, hviable, htip⟩
  · have hno : ∀ c, parent c = some q → ¬ LeadsTo parent viable c :=
      fun c hc hcl => hchild ⟨c, hc, hcl⟩
    refine ⟨q, Walk.stop hno, ?_⟩
    by_cases hlead : LeadsTo parent viable q
    · rw [tip_of_none (hsw.best_eq_none hsettled (hq q) hlead hno)]
      exact ⟨rfl, fun _ => rfl⟩
    · have hnot : ∀ x, Below parent x q → viable x = false := by
        intro x hx
        rw [← Bool.not_eq_true]
        exact fun hv => hlead ⟨x, hx, hv⟩
      rw [hnot q (Below.refl q), hnot _ (hsw.sound.below_tip q)]
      exact ⟨rfl, fun hv => absurd hv (by simp)⟩

end Refresh

/-! ### Sweeping part of a forest -/

section Embedding

variable {κ : Type*} [DecidableEq ι] [DecidableEq κ] [LinearOrder K]

/-- The forest of `parent'` is a part of the forest of `parent` that is closed
under children. The parents of its roots may be cut off. -/
structure Embedding (g : κ → ι) (parent : ι → Option ι) (parent' : κ → Option κ) : Prop where
  inj : Injective g
  parent_iff : ∀ c p, parent' c = some p ↔ parent (g c) = some (g p)
  closed : ∀ c p, parent c = some (g p) → ∃ c', c = g c'

/-- On the embedded nodes the links `best` are the links `best'`. -/
def Embeds (g : κ → ι) (best : Links ι) (best' : Links κ) : Prop :=
  ∀ i, best (g i) = (best' i).map (Prod.map g g)

variable {g : κ → ι} {parent : ι → Option ι} {parent' : κ → Option κ} {viable : ι → Bool}
  {key : ι → K} {best : Links ι} {best' : Links κ}

omit [DecidableEq ι] [DecidableEq κ] in
theorem Embeds.tip (h : Embeds g best best') (c : κ) : tip best (g c) = g (tip best' c) := by
  rw [BestChild.tip, BestChild.tip, h c]
  cases best' c <;> rfl

omit [DecidableEq ι] [DecidableEq κ] in
theorem Embeds.leads (h : Embeds g best best') (viable : ι → Bool) (c : κ) :
    leads viable best (g c) = leads (viable ∘ g) best' c := by
  simp [BestChild.leads, h.tip]

theorem Embeds.chosen (h : Embeds g best best') (hg : Injective g) (p c : κ) :
    chosen viable key best (g p) (g c) =
      (chosen (viable ∘ g) (key ∘ g) best' p c).map (Prod.map g g) := by
  unfold BestChild.chosen
  rw [h p]
  cases best' p with
  | none =>
    simp only [Option.map_none, h.leads, h.tip]
    split <;> rfl
  | some bd =>
    obtain ⟨b, d⟩ := bd
    simp only [Option.map_some, Prod.map_apply, hg.eq_iff, h.leads, h.tip, comp_apply]
    split_ifs <;> rfl

theorem Embeds.refresh (h : Embeds g best best') (hg : Embedding g parent parent') (c : κ) :
    Embeds g (refresh parent viable key best (g c))
      (refresh parent' (viable ∘ g) (key ∘ g) best' c) := by
  intro i
  by_cases hi : parent' c = some i
  · rw [refresh_parent hi, refresh_parent ((hg.parent_iff c i).mp hi)]
    exact h.chosen hg.inj i c
  · rw [refresh_of_ne hi, refresh_of_ne fun hp => hi ((hg.parent_iff c i).mpr hp)]
    exact h i

omit [DecidableEq κ] in
theorem Embeds.refresh_outside (h : Embeds g best best') (hg : Embedding g parent parent') {c : ι}
    (hc : ∀ c', c ≠ g c') : Embeds g (BestChild.refresh parent viable key best c) best' := by
  intro i
  rw [refresh_of_ne]
  · exact h i
  · intro hp
    obtain ⟨c', hc'⟩ := hg.closed c i hp
    exact hc c' hc'

/-- A sweep that visits the embedded nodes first, in some order, sweeps the
part in that order. -/
theorem Embeds.sweep (h : Embeds g best best') (hg : Embedding g parent parent') (order : List κ)
    {rest : List ι} (hrest : ∀ c ∈ rest, ∀ c', c ≠ g c') :
    Embeds g (sweep parent viable key (order.map g ++ rest) best)
      (sweep parent' (viable ∘ g) (key ∘ g) order best') := by
  unfold BestChild.sweep
  induction order generalizing best best' with
  | cons c order ih => exact ih (h.refresh hg c)
  | nil =>
    rw [map_nil, nil_append, foldl_nil]
    induction rest generalizing best with
    | nil => exact h
    | cons c rest ih =>
      exact ih (fun x hx => hrest x (mem_cons_of_mem _ hx))
        (h.refresh_outside hg (hrest c mem_cons_self))

end Embedding

end Vanguard.BestChild
