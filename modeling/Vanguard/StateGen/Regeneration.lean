import Vanguard.StateGen.Replay
import Vanguard.Lib.Run

/-!
Regenerated states are post states.

Whatever the caches, the finalized info and the database hold under a root is
the post state of the block with that root. All calls of the manager keep this,
and a state that `StateByRoot` puts together from it is again the post state of
the block it was asked for.
-/

namespace Vanguard.StateGen

open List
open Option hiding or_assoc

open Blockchain (Block)
open EState Run

variable {σ : Type} {T : Transition σ} {tree : BlockTree T} {ref : Ref} {slot : Slot} {b : Block}
  {index : List (Slot × List Root)} {root : Root} {db : DB σ} {w₀ : Manager σ}
  {x : Slot × List Root} {P : Root → Prop}

/-- Every state of the manager is the post state of its block. -/
structure Sound (tree : BlockTree T) (w : Manager σ) : Prop where
  stored : Stored tree w.beaconDB
  states : ∀ x ∈ w.beaconDB.states, PostState tree x.1 x.2
  genesisState : w.beaconDB.genesisState = some tree.genesisState
  summaries : ∀ {r s b}, w.beaconDB.stateSummary r = some s → tree.block r = some b → s = b.slot
  hot : ∀ {r ref}, w.hotStateCache.peek r = some ref →
    ∃ st, w.heap[ref]? = some st ∧ PostState tree r st
  boundary : ∀ x ∈ w.epochBoundaryStateCache.rootStateCache, PostState tree x.1 x.2
  finalized : ∀ {st}, w.finalizedInfo.state = some st → PostState tree w.finalizedInfo.root st

/-- Reading states only changes the order of the hot-state cache and adds state
summaries. -/
structure SameStore (w₀ w : Manager σ) : Prop where
  blocks : w.beaconDB.blocks = w₀.beaconDB.blocks
  blockSlotIndices : w.beaconDB.blockSlotIndices = w₀.beaconDB.blockSlotIndices
  genesisBlockRoot : w.beaconDB.genesisBlockRoot = w₀.beaconDB.genesisBlockRoot
  states : w.beaconDB.states = w₀.beaconDB.states
  slotsPerArchivedPoint : w.slotsPerArchivedPoint = w₀.slotsPerArchivedPoint
  hot : ∀ r, w.hotStateCache.peek r = w₀.hotStateCache.peek r
  finalizedInfo : w.finalizedInfo = w₀.finalizedInfo
  boundary : w.epochBoundaryStateCache = w₀.epochBoundaryStateCache
  saveHotStateDB : w.saveHotStateDB = w₀.saveHotStateDB
  heap : w.heap = w₀.heap

theorem SameStore.refl (w : Manager σ) : SameStore w w :=
  ⟨rfl, rfl, rfl, rfl, rfl, fun _ => rfl, rfl, rfl, rfl, rfl⟩

theorem SameStore.block_eq {w₀ w : Manager σ} (h : SameStore w₀ w) (r : Root) :
    w.beaconDB.block r = w₀.beaconDB.block r := by
  rw [DB.block, DB.block, h.blocks]

/-- A sound manager that differs from a given one by reads only. -/
def Reading (tree : BlockTree T) (w₀ w : Manager σ) : Prop := Sound tree w ∧ SameStore w₀ w

/-! ### Reading the places where states are -/

theorem Sound.getByRoot {w : Manager σ} (h : Sound tree w) {r : Root} {st : σ}
    (hst : w.epochBoundaryStateCache.getByRoot r = some st) : PostState tree r st :=
  h.boundary (r, st) (Lru.mem_of_lookup hst)

theorem Sound.state {w : Manager σ} (h : Sound tree w) {r : Root} {st : σ}
    (hst : w.beaconDB.state r = some st) : PostState tree r st :=
  h.states (r, st) (Lru.mem_of_lookup hst)

theorem Sound.lt_length {w : Manager σ} (h : Sound tree w) {r : Root}
    (hr : w.hotStateCache.peek r = some ref) : ref < w.heap.length := by
  obtain ⟨st, hst, -⟩ := h.hot hr
  exact (List.getElem?_eq_some_iff.mp hst).1

theorem Sound.of_hot {w : Manager σ} (h : Sound tree w) {c : Lru Root Ref}
    (hc : ∀ r ref, c.peek r = some ref → w.hotStateCache.peek r = some ref) :
    Sound tree { w with hotStateCache := c } :=
  { h with hot := fun {r ref} hr => h.hot (hc r ref hr) }

theorem Sound.saveStateSummary {w : Manager σ} (h : Sound tree w) {r : Root}
    (hslot : ∀ b, tree.block r = some b → slot = b.slot) :
    Sound tree { w with beaconDB := w.beaconDB.saveStateSummary slot r } :=
  { h with
    stored := { h.stored with }
    summaries := by
      intro r' s b hs hb
      simp only [DB.stateSummary, DB.saveStateSummary, Lru.lookup_cons_ite,
        Lru.lookup_filter_ne] at hs
      split at hs
      · rename_i hr
        cases hs
        exact hslot b (hr ▸ hb)
      · exact h.summaries hs hb }

theorem ensures_wrap {α : Type} {I : Manager σ → Prop} {Q : α → Prop} {x : StateGenM σ α}
    {message : String} (h : Ensures I Q x) : Ensures I Q (wrap x message) := by
  intro w hw
  obtain ⟨hfinal, hresult⟩ := h w hw
  unfold EState.final wrap
  unfold EState.final at hfinal
  cases hx : x w with
  | ok a w' =>
    rw [hx] at hfinal
    exact ⟨hfinal, fun b s hb => by cases hb; exact hresult _ _ hx⟩
  | error e w' =>
    rw [hx] at hfinal
    exact ⟨hfinal, fun b s hb => nomatch hb⟩

theorem ensures_ofExcept {α : Type} {I : Manager σ → Prop} {Q : α → Prop} {x : Except Err α}
    (h : ∀ a, x = .ok a → Q a) : Ensures I Q (ofExcept x : StateGenM σ α) := by
  cases x with
  | ok a => exact ensures_pure (h a rfl)
  | error e => exact ensures_throw e

/-- A property of the state that a read returns, if it returns one. -/
def Yields (P : σ → Prop) (o : Option σ) : Prop := ∀ st, o = some st → P st

theorem yields_some {P : σ → Prop} {st : σ} (h : P st) : Yields P (some st) := by
  rintro st' ⟨⟩
  exact h

theorem ensures_getHotStateWithoutCopy (r : Root) :
    Ensures (Reading tree w₀) (fun ref => ref = w₀.hotStateCache.peek r)
      (getHotStateWithoutCopy r : StateGenM σ (Option Ref)) := by
  refine ensures_get.bind fun w hw => ?_
  refine (ensures_set ⟨hw.1.of_hot fun r' ref hr => ?_, { hw.2 with hot := fun r' => ?_ }⟩).bind
    fun _ _ => ensures_pure ?_
  · rw [Lru.fst_get]
    exact hw.2.hot r
  · rw [Lru.peek_get] at hr
    exact hr
  · exact (Lru.peek_get _ _ _).trans (hw.2.hot r')

theorem ensures_contents (ref : Ref) :
    Ensures (Reading tree w₀) (fun st => w₀.heap[ref]? = some st)
      (contents ref : StateGenM σ σ) := by
  refine ensures_get.bind fun w hw => ?_
  split
  · exact ensures_throw _
  · rename_i st hst
    rw [hw.2.heap] at hst
    exact ensures_pure hst

theorem ensures_getHotState (h₀ : Sound tree w₀) (r : Root) :
    Ensures (Reading tree w₀) (Yields (PostState tree r))
      (getHotState r : StateGenM σ (Option σ)) := by
  refine (ensures_getHotStateWithoutCopy r).bind fun o ho => ?_
  cases o with
  | none => exact ensures_pure fun st hst => nomatch hst
  | some ref =>
    refine (ensures_contents ref).map fun st hst => yields_some ?_
    obtain ⟨st', hst', hpost⟩ := h₀.hot ho.symm
    rw [hst] at hst'
    cases hst'
    exact hpost

theorem ensures_finalizedState :
    Ensures (Reading tree w₀) (Yields (PostState tree w₀.finalizedInfo.root))
      (finalizedState : StateGenM σ (Option σ)) := by
  refine ensures_get.bind fun w hw => ?_
  split
  · exact ensures_throw _
  · rename_i st hst
    refine ensures_pure (yields_some ?_)
    rw [← hw.2.finalizedInfo]
    exact hw.1.finalized hst

def AncestorState (tree : BlockTree T) (r : Root) (st : σ) : Prop :=
  ∃ a l, Chain tree a r l ∧ PostState tree a st

theorem AncestorState.of_parent {r : Root} {st : σ} (hb : tree.block r = some b)
    (h : AncestorState tree b.parentRoot st) : AncestorState tree r st := by
  obtain ⟨a, l, hchain, hpost⟩ := h
  exact ⟨a, b :: l, .block hb hchain, hpost⟩

theorem AncestorState.self {r : Root} {st : σ} (h : PostState tree r st) :
    AncestorState tree r st :=
  ⟨r, [], .refl, h⟩

theorem ensures_lastAncestorLoop (h₀ : Sound tree w₀) (fuel : ℕ) {r : Root}
    (hb : w₀.beaconDB.block r = some b) : Ensures (Reading tree w₀) (Yields (AncestorState tree r))
      (lastAncestorLoop fuel b : StateGenM σ (Option σ)) := by
  induction fuel generalizing r b with
  | zero => exact ensures_throw _
  | succ fuel ih =>
    have hup : ∀ st, PostState tree b.parentRoot st → AncestorState tree r st := fun st hst =>
      .of_parent (h₀.stored.block_eq hb) (.self hst)
    refine ensures_get.bind fun w hw => ?_
    split
    · -- the genesis block
      rename_i hzero
      refine ensures_pure fun st hst => .self ?_
      rw [h₀.stored.eq_genesisRoot hb hzero]
      rw [hw.1.genesisState] at hst
      cases hst
      exact .genesis
    · split
      · exact (ensures_getHotState h₀ _).mono fun o ho st hst => hup st (ho st hst)
      · split
        · rename_i hfin
          refine ensures_finalizedState.mono fun o ho st hst => hup st ?_
          rw [hfin, hw.2.finalizedInfo]
          exact ho st hst
        · split
          · rename_i st hst
            exact ensures_pure (yields_some (hup st (hw.1.getByRoot hst)))
          · split
            · rename_i st hst
              exact ensures_pure (yields_some (hup st (hw.1.state hst)))
            · split
              · exact ensures_throw _
              · rename_i parent hparent
                rw [hw.2.block_eq] at hparent
                exact (ih hparent).mono fun o ho st hst =>
                  .of_parent (h₀.stored.block_eq hb) (ho st hst)

theorem ensures_lastAncestorState (h₀ : Sound tree w₀) (r : Root) :
    Ensures (Reading tree w₀) (Yields (AncestorState tree r))
      (lastAncestorState r : StateGenM σ (Option σ)) := by
  refine ensures_get.bind fun w hw => ?_
  split
  · rename_i hfin
    refine ensures_finalizedState.mono fun o ho st hst => .self ?_
    rw [hfin, hw.2.finalizedInfo]
    exact ho st hst
  · split
    · exact ensures_throw _
    · rename_i b hb
      rw [hw.2.block_eq] at hb
      exact ensures_lastAncestorLoop h₀ _ hb

theorem ensures_stateSummary {r : Root} (hb : tree.block r = some b) :
    Ensures (Reading tree w₀) (fun slot => slot = b.slot) (stateSummary r : StateGenM σ Slot) := by
  refine ensures_get.bind fun w hw => ?_
  split
  · refine ensures_get.bind fun w hw => ?_
    split
    · exact ensures_throw _
    · rename_i b' hb'
      have hslot := hw.1.stored.block_eq hb'
      rw [hb] at hslot
      cases hslot
      refine (ensures_set ⟨hw.1.saveStateSummary fun c hc => ?_, { hw.2 with }⟩).bind
        fun _ _ => ensures_pure rfl
      rw [hb] at hc
      cases hc
      rfl
  · rename_i slot hslot
    exact ensures_pure (hw.1.summaries hslot hb)

theorem ensures_replayFrom (h₀ : Sound tree w₀) {r : Root} (hb : w₀.beaconDB.block r = some b)
    {st : σ} (hst : AncestorState tree r st) (loadMessage : String)
    (replayMessage : Option String) :
    Ensures (Reading tree w₀) (PostState tree r)
      (replayFrom T st b.slot r loadMessage replayMessage : StateGenM σ σ) := by
  obtain ⟨a, l, hchain, hpost⟩ := hst
  obtain ⟨c, hc, hslot⟩ := hpost.exists_block
  obtain ⟨p, hp, hlow⟩ := h₀.stored.chain hchain hb (by rw [hc]; rfl)
  have hcp := h₀.stored.block_eq hp
  rw [hc] at hcp
  cases hcp
  refine ensures_get.bind fun w hw => ?_
  split
  · -- only the state of the block itself is at its slot
    rename_i heq
    rcases hlow with rfl | hlt
    · cases hchain
      exact ensures_pure hpost
    · rw [← hslot, heq] at hlt
      exact absurd hlt (BitVec.lt_irrefl _)
  · rename_i hne
    have hlt : c.slot < b.slot := by
      rcases hlow with rfl | hlt
      · cases hchain
        rw [hp] at hb
        cases hb
        exact absurd hslot hne
      · exact hlt
    have hload : ∀ blks, loadBlocks w.beaconDB (T.slot st + 1) b.slot r = .ok blks → blks = l := by
      intro blks hblks
      rw [hslot] at hblks
      exact hw.1.stored.loadBlocks_eq hchain (by rw [hw.2.block_eq, hp])
        (by rw [hw.2.block_eq, hb]) hlt hblks
    refine (ensures_wrap (ensures_ofExcept hload)).bind ?_
    rintro blks rfl
    have hreplayed := ensures_ofExcept (I := Reading tree w₀) fun st' hst' =>
      h₀.stored.replayBlocks_post hchain hpost hb hst'
    cases replayMessage with
    | none => exact hreplayed
    | some message => exact ensures_wrap hreplayed

theorem ensures_loadColdStateByRoot (h₀ : Sound tree w₀) {r : Root}
    (hb : w₀.beaconDB.block r = some b) : Ensures (Reading tree w₀) (Yields (PostState tree r))
      (loadColdStateByRoot T r : StateGenM σ (Option σ)) := by
  refine ensures_get.bind fun w hw => ?_
  split
  · rename_i st hst
    exact ensures_pure (yields_some (hw.1.getByRoot hst))
  · split
    · rename_i st hst
      exact ensures_pure (yields_some (hw.1.state hst))
    · refine (ensures_wrap (ensures_stateSummary (h₀.stored.block_eq hb))).bind ?_
      rintro slot rfl
      refine (ensures_wrap (ensures_lastAncestorState h₀ r)).bind fun o ho => ?_
      cases o with
      | none => exact ensures_throw _
      | some st =>
        exact (ensures_replayFrom h₀ hb (ho st rfl) _ _).map fun st hst => yields_some hst

theorem ensures_stateByRoot (h₀ : Sound tree w₀) {r : Root} (hb : w₀.beaconDB.block r = some b) :
    Ensures (Reading tree w₀) (Yields (PostState tree r))
      (stateByRoot T r : StateGenM σ (Option σ)) := by
  refine ensures_get.bind fun w hw => ?_
  split
  · rename_i hzero
    refine ensures_pure fun st hst => ?_
    exact hw.1.state hst
  · refine (ensures_getHotState h₀ r).bind fun o ho => ?_
    cases o with
    | some st => exact ensures_pure ho
    | none => exact ensures_loadColdStateByRoot h₀ hb

/-! ### Saving blocks -/

def Lists (index : List (Slot × List Root)) (slot : Slot) (r : Root) : Prop :=
  ∃ x ∈ index, x.1 = slot ∧ r ∈ x.2

theorem lists_cons {r : Root} :
    Lists (x :: index) slot r ↔ (x.1 = slot ∧ r ∈ x.2) ∨ Lists index slot r := by
  simp only [Lists, mem_cons, exists_eq_or_imp]

theorem lists_updateValueForIndices {s : Slot} {r : Root} :
    Lists (DB.updateValueForIndices slot root index) s r ↔
      Lists index s r ∨ (s = slot ∧ r = root) := by
  induction index with
  | nil =>
    simp only [DB.updateValueForIndices, lists_cons, mem_singleton, eq_comm]
    exact or_comm
  | cons x index ih =>
    rw [DB.updateValueForIndices]
    split
    · rw [lists_cons, lists_cons]
      simp only [mem_singleton, eq_comm (a := slot)]
      exact or_comm
    · split
      · rename_i heq
        subst heq
        split
        · rename_i hmem
          rw [lists_cons]
          refine ⟨.inl, ?_⟩
          rintro (h | ⟨rfl, rfl⟩)
          · exact h
          · exact .inl ⟨rfl, hmem⟩
        · rw [lists_cons, lists_cons, mem_append, mem_singleton]
          tauto
      · rw [lists_cons, lists_cons, ih, or_assoc]

theorem mem_updateValueForIndices (h : x ∈ DB.updateValueForIndices slot root index) :
    x ∈ index ∨ x = (slot, [root]) ∨
      ∃ roots, (slot, roots) ∈ index ∧ root ∉ roots ∧ x = (slot, roots ++ [root]) := by
  induction index with
  | nil => exact .inr (.inl (mem_singleton.mp h))
  | cons y index ih =>
    rw [DB.updateValueForIndices] at h
    split at h
    · exact (mem_cons.mp h).elim (fun hx => .inr (.inl hx)) .inl
    · split at h
      · rename_i heq
        subst heq
        split at h
        · exact .inl h
        · rename_i hnot
          rcases mem_cons.mp h with rfl | h
          · exact .inr (.inr ⟨_, mem_cons_self, hnot, rfl⟩)
          · exact .inl (mem_cons_of_mem _ h)
      · rcases mem_cons.mp h with rfl | h
        · exact .inl mem_cons_self
        · exact (ih h).imp (mem_cons_of_mem _) (.imp_right fun ⟨roots, hmem, hx⟩ =>
            ⟨roots, mem_cons_of_mem _ hmem, hx⟩)

theorem sorted_updateValueForIndices (h : index.Pairwise fun x y => x.1 < y.1) :
    (DB.updateValueForIndices slot root index).Pairwise fun x y => x.1 < y.1 := by
  induction index with
  | nil => exact pairwise_singleton _ _
  | cons x index ih =>
    obtain ⟨hx, hindex⟩ := pairwise_cons.mp h
    rw [DB.updateValueForIndices]
    split
    · rename_i hlt
      refine pairwise_cons.mpr ⟨forall_mem_cons.mpr ⟨hlt, fun y hy => ?_⟩, h⟩
      exact BitVec.lt_trans hlt (hx y hy)
    · rename_i hge
      split
      · split
        · exact h
        · exact pairwise_cons.mpr ⟨hx, hindex⟩
      · rename_i hne
        refine pairwise_cons.mpr ⟨fun y hy => ?_, ih hindex⟩
        rcases mem_updateValueForIndices hy with hy | rfl | ⟨roots, hmem, -, rfl⟩
        · exact hx y hy
        · bv_omega
        · exact hx (slot, roots) hmem

theorem nodup_updateValueForIndices (h : ∀ x ∈ index, x.2.Nodup) :
    ∀ x ∈ DB.updateValueForIndices slot root index, x.2.Nodup := by
  intro x hx
  rcases mem_updateValueForIndices hx with hx | rfl | ⟨roots, hmem, hnot, rfl⟩
  · exact h x hx
  · exact nodup_singleton _
  · exact concat_eq_append ▸ (h _ hmem).concat hnot

theorem DB.state_saveState (db : DB σ) (st : σ) (root r : Root) :
    (db.saveState st root).state r = if r = root then some st else db.state r := by
  rw [DB.state, DB.state, DB.saveState, Lru.lookup_cons_ite, Lru.lookup_filter_ne]
  rcases eq_or_ne r root with rfl | hne
  · rw [if_pos rfl, if_pos rfl]
  · rw [if_neg hne, if_neg hne, if_neg hne]

theorem block_saveBlock (hnew : db.block root = none) (r : Root) :
    (db.saveBlock root b).block r = if r = root then some b else db.block r := by
  have hsave : db.saveBlock root b = { db with
      blocks := db.blocks ++ [(root, b)]
      blockSlotIndices := DB.updateValueForIndices b.slot root db.blockSlotIndices } := by
    rw [DB.saveBlock, hnew]
    rfl
  rw [hsave]
  change (db.blocks ++ [(root, b)]).lookup r = _
  rw [lookup_append, Lru.lookup_cons_ite, lookup_nil]
  split
  · rename_i hr
    rw [hr, show db.blocks.lookup root = none from hnew, none_or]
  · rw [or_none]
    rfl

theorem Stored.saveBlock (h : Stored tree db) {r : Root} {p : Block} (hb : tree.block r = some b)
    (hp : db.block b.parentRoot = some p) (hlt : p.slot < b.slot) :
    Stored tree (db.saveBlock r b) := by
  cases hnew : db.block r with
  | some c =>
    rw [DB.saveBlock, hnew]
    exact h
  | none =>
    have hblock := block_saveBlock (b := b) hnew
    -- what was stored stays stored
    have hkeep : ∀ {r' c}, db.block r' = some c → (db.saveBlock r b).block r' = some c := by
      intro r' c hc
      rw [hblock, if_neg, hc]
      rintro rfl
      rw [hnew] at hc
      cases hc
    have hindex : (db.saveBlock r b).blockSlotIndices =
        DB.updateValueForIndices b.slot r db.blockSlotIndices := by
      rw [DB.saveBlock, hnew]
      rfl
    refine ⟨fun {r' c} hc => ?_, fun {r' c} hc => ?_, ?_, ?_, ?_, ?_, ?_, fun {r' c} hc => ?_⟩
    · rw [hblock] at hc
      split at hc
      · rename_i hr
        cases hc
        rw [hr, hb]
      · exact h.block_eq hc
    · rw [hblock] at hc
      split at hc
      · cases hc
        exact .inr ⟨p, hkeep hp, hlt⟩
      · exact (h.parent hc).imp id fun ⟨q, hq, hqlt⟩ => ⟨q, hkeep hq, hqlt⟩
    · obtain ⟨g, hg⟩ := isSome_iff_exists.mp h.genesis
      rw [hkeep hg]
      rfl
    · rw [← h.genesisBlockRoot_eq, DB.saveBlock, hnew]
      rfl
    · rw [hindex]
      exact sorted_updateValueForIndices h.sorted
    · intro x hx r' hr'
      rw [hindex] at hx
      have hlists : Lists (DB.updateValueForIndices b.slot r db.blockSlotIndices) x.1 r' :=
        ⟨x, hx, rfl, hr'⟩
      rcases lists_updateValueForIndices.mp hlists with ⟨y, hy, hyx, hmem⟩ | ⟨hslot, rfl⟩
      · obtain ⟨c, hc, hcslot⟩ := h.listed y hy r' hmem
        exact ⟨c, hkeep hc, hcslot.trans hyx⟩
      · exact ⟨b, by rw [hblock, if_pos rfl], hslot.symm⟩
    · rw [hindex]
      exact nodup_updateValueForIndices h.nodup
    · rw [hindex]
      suffices hlists : Lists (DB.updateValueForIndices b.slot r db.blockSlotIndices) c.slot r' by
        obtain ⟨x, hx, hslot, hmem⟩ := hlists
        exact ⟨x, hx, hslot, hmem⟩
      rw [hblock] at hc
      rw [lists_updateValueForIndices]
      split at hc
      · rename_i hr
        cases hc
        exact .inr ⟨rfl, hr⟩
      · obtain ⟨x, hx, hslot, hmem⟩ := h.complete hc
        exact .inl ⟨x, hx, hslot, hmem⟩

/-! ### Saving states -/

namespace Sound

variable {w : Manager σ} {r : Root} {st : σ}

variable (h : Sound tree w)

include h

theorem saveBlock {b p : Block} (hb : tree.block r = some b)
    (hp : w.beaconDB.block b.parentRoot = some p) (hlt : p.slot < b.slot) :
    Sound tree { w with beaconDB := w.beaconDB.saveBlock r b } := by
  have hstates : (w.beaconDB.saveBlock r b).states = w.beaconDB.states ∧
      (w.beaconDB.saveBlock r b).stateSummaries = w.beaconDB.stateSummaries ∧
      (w.beaconDB.saveBlock r b).genesisBlockRoot = w.beaconDB.genesisBlockRoot := by
    unfold DB.saveBlock
    split
    · exact ⟨rfl, rfl, rfl⟩
    · exact ⟨rfl, rfl, rfl⟩
  obtain ⟨hstates, hsummaries, hroot⟩ := hstates
  refine { h with
      stored := h.stored.saveBlock hb hp hlt
      states := ?_
      genesisState := ?_
      summaries := ?_ }
  · intro x hx
    rw [hstates] at hx
    exact h.states x hx
  · rw [DB.genesisState, DB.state, hstates, hroot]
    exact h.genesisState
  · intro r' s c hs hc
    rw [DB.stateSummary, hsummaries] at hs
    exact h.summaries hs hc

theorem saveDBState (hst : PostState tree r st) :
    Sound tree { w with beaconDB := w.beaconDB.saveState st r } := by
  refine { h with
      stored := { h.stored with }
      states := forall_mem_cons.mpr
        ⟨hst, fun x hx => h.states x (mem_of_mem_filter hx)⟩
      genesisState := ?_ }
  · change (w.beaconDB.saveState st r).state w.beaconDB.genesisBlockRoot = _
    rw [DB.state_saveState]
    split
    · rename_i hr
      rw [h.stored.genesisBlockRoot_eq] at hr
      rw [hst.unique (hr ▸ PostState.genesis)]
    · exact h.genesisState

theorem setSaveHotStateDB (config : SaveHotStateDbConfig) :
    Sound tree { w with saveHotStateDB := config } :=
  { h with }

theorem alloc (st : σ) : Sound tree { w with heap := w.heap ++ [st] } :=
  { h with
    hot := fun {r ref} hr => by
      obtain ⟨st', hst', hpost⟩ := h.hot hr
      refine ⟨st', ?_, hpost⟩
      rw [getElem?_append_left (List.getElem?_eq_some_iff.mp hst').1, hst'] }

theorem putHotState (href : w.heap[ref]? = some st) (hst : PostState tree r st) :
    Sound tree { w with hotStateCache := (w.hotStateCache.add r ref).1 } :=
  { h with
    hot := fun {r' ref'} hr' => by
      rcases Lru.peek_add_eq_some hr' with ⟨rfl, rfl⟩ | hr'
      · exact ⟨st, href, hst⟩
      · exact h.hot hr' }

theorem putBoundary (slot : Slot) (hst : PostState tree r st) :
    Sound tree { w with
      epochBoundaryStateCache := w.epochBoundaryStateCache.put r slot st } :=
  { h with
    boundary := fun x hx => by
      have hx := mem_of_mem_drop hx
      unfold addIfNotPresent at hx
      split at hx
      · exact h.boundary x hx
      · rcases mem_append.mp hx with hx | hx
        · exact h.boundary x hx
        · rw [mem_singleton.mp hx]
          exact hst }

theorem saveFinalizedState (fSlot : Slot) (hst : PostState tree r st) :
    Sound tree { w with finalizedInfo := ⟨fSlot, r, some st⟩ } :=
  { h with
    finalized := by
      rintro st' ⟨⟩
      exact hst }

end Sound

/-- `SaveState` of an object with contents `st` keeps what the writes it may do
keep. -/
theorem ensures_saveState_of {I : Manager σ → Prop} {r : Root} {st : σ}
    (hheap : ∀ w, I w → w.heap[ref]? = some st)
    (hdb : ∀ w config, I w → I { w with
      beaconDB := w.beaconDB.saveState st r
      saveHotStateDB := config })
    (hboundary : ∀ w, I w → I { w with
      epochBoundaryStateCache := w.epochBoundaryStateCache.put r (T.slot st) st })
    (hsummary : ∀ w, I w → I { w with beaconDB := w.beaconDB.saveStateSummary (T.slot st) r })
    (hhot : ∀ w, I w → I { w with hotStateCache := (w.hotStateCache.add r ref).1 }) :
    Ensures I (fun _ => True) (saveState T r ref : StateGenM σ Unit) := by
  have hcontents : Ensures I (· = st) (contents ref : StateGenM σ σ) := by
    refine ensures_get.bind fun w hw => ?_
    rw [hheap w hw]
    exact ensures_pure rfl
  have hsaveHot : Ensures I (fun _ => True) (saveHotStateToDB T r st : StateGenM σ Unit) := by
    refine ensures_get.bind fun w hw => ?_
    split
    · exact ensures_set (hdb w _ hw)
    · exact ensures_pure trivial
  have hsave : Ensures I (fun _ => True) (do
      modify fun w => { w with beaconDB := w.beaconDB.saveStateSummary (T.slot st) r }
      putHotState r ref : StateGenM σ Unit) :=
    (ensures_modify hsummary).bind fun _ _ => ensures_modify hhot
  refine hcontents.bind ?_
  rintro st' rfl
  refine hsaveHot.bind fun _ _ => ensures_get.bind fun w _ => ?_
  split
  · exact ensures_pure trivial
  · split
    · exact (ensures_modify hboundary).bind fun _ _ => hsave
    · exact hsave

/-- The manager is sound, and an object has the given contents. -/
def Holding (tree : BlockTree T) (ref : Ref) (st : σ) (w : Manager σ) : Prop :=
  Sound tree w ∧ w.heap[ref]? = some st

theorem ensures_saveState {r : Root} {st : σ} (hst : PostState tree r st) :
    Ensures (Holding tree ref st) (fun _ => True) (saveState T r ref : StateGenM σ Unit) :=
  ensures_saveState_of (fun _ hw => hw.2)
    (fun _ _ hw => ⟨(hw.1.saveDBState hst).setSaveHotStateDB _, hw.2⟩)
    (fun _ hw => ⟨hw.1.putBoundary _ hst, hw.2⟩)
    (fun _ hw => ⟨hw.1.saveStateSummary fun _ hb => hst.slot_eq hb, hw.2⟩)
    fun _ hw => ⟨hw.1.putHotState hw.2 hst, hw.2⟩

/-! ### Migration -/

/-- The root that `MigrateToCold` finds for a slot. -/
def Archivable (w : Manager σ) (slot : Slot) (r : Root) : Prop :=
  (∃ st, w.epochBoundaryStateCache.getBySlot slot = some (r, st)) ∨
    ∃ b, w.beaconDB.highestSlotBlocksBelow slot = some (r, b)

/-- In the middle of `MigrateToCold`: blocks, boundary states and objects are as they
were, and the roots of the states written so far have the property `P`. -/
structure Migrating (tree : BlockTree T) (P : Root → Prop) (w₀ w : Manager σ) : Prop where
  sound : Sound tree w
  blocks : w.beaconDB.blocks = w₀.beaconDB.blocks
  blockSlotIndices : w.beaconDB.blockSlotIndices = w₀.beaconDB.blockSlotIndices
  genesisBlockRoot : w.beaconDB.genesisBlockRoot = w₀.beaconDB.genesisBlockRoot
  boundary : w.epochBoundaryStateCache = w₀.epochBoundaryStateCache
  hot : ∀ r, w.hotStateCache.peek r = w₀.hotStateCache.peek r
  heap : w.heap = w₀.heap
  written : ∀ x ∈ w.beaconDB.states, x ∈ w₀.beaconDB.states ∨ P x.1

theorem Migrating.refl (h : Sound tree w₀) : Migrating tree P w₀ w₀ :=
  ⟨h, rfl, rfl, rfl, rfl, fun _ => rfl, rfl, fun _ hx => .inl hx⟩

theorem Migrating.reading {w w' : Manager σ} (h : Migrating tree P w₀ w) (hr : Reading tree w w') :
    Migrating tree P w₀ w' where
  sound := hr.1
  blocks := hr.2.blocks.trans h.blocks
  blockSlotIndices := hr.2.blockSlotIndices.trans h.blockSlotIndices
  genesisBlockRoot := hr.2.genesisBlockRoot.trans h.genesisBlockRoot
  boundary := hr.2.boundary.trans h.boundary
  hot := fun r => (hr.2.hot r).trans (h.hot r)
  heap := hr.2.heap.trans h.heap
  written := by
    rw [hr.2.states]
    exact h.written

theorem Migrating.highestSlotBlocksBelow_eq {w : Manager σ} (h : Migrating tree P w₀ w)
    (slot : Slot) :
    w.beaconDB.highestSlotBlocksBelow slot = w₀.beaconDB.highestSlotBlocksBelow slot := by
  unfold DB.highestSlotBlocksBelow DB.block
  rw [h.blocks, h.blockSlotIndices, h.genesisBlockRoot]

theorem block_of_highestSlotBlocksBelow {r : Root}
    (h : db.highestSlotBlocksBelow slot = some (r, b)) : db.block r = some b := by
  have hmap : ∀ r', (db.block r').map (r', ·) = some (r, b) → db.block r = some b := by
    intro r' hr'
    obtain ⟨b', hb', hrb⟩ := map_eq_some_iff.mp hr'
    cases hrb
    exact hb'
  rcases or_eq_some_iff.mp h with h | ⟨-, h⟩
  · obtain ⟨r', -, h⟩ := bind_eq_some_iff.mp h
    exact hmap r' h
  · exact hmap _ h

theorem post_of_getBySlot {w : Manager σ} (h : Sound tree w) {r : Root} {st : σ}
    (hget : w.epochBoundaryStateCache.getBySlot slot = some (r, st)) : PostState tree r st := by
  obtain ⟨r', -, hget⟩ := bind_eq_some_iff.mp hget
  obtain ⟨st', hst', hrst⟩ := map_eq_some_iff.mp hget
  cases hrst
  exact h.getByRoot hst'

theorem ensures_archivedState (slot : Slot) :
    Ensures (Migrating tree P w₀)
      (fun x => Yields (PostState tree x.1) x.2 ∧ Archivable w₀ slot x.1)
      (archivedState T slot : StateGenM σ (Root × Option σ)) := by
  refine ensures_get.bind fun w hw => ?_
  split
  · rename_i r st hget
    refine ensures_pure ⟨yields_some (post_of_getBySlot hw.sound hget), .inl ⟨st, ?_⟩⟩
    rw [← hw.boundary]
    exact hget
  · split
    · exact ensures_throw _
    · rename_i r b hbelow
      have hcand : Archivable w₀ slot r := .inr ⟨b, hw.highestSlotBlocksBelow_eq slot ▸ hbelow⟩
      split
      · exact ensures_pure ⟨fun st hst => (nomatch hst), hcand⟩
      · refine Ensures.bind (Q := Yields (PostState tree r)) ?_ fun o ho =>
          ensures_pure ⟨ho, hcand⟩
        have hblock := block_of_highestSlotBlocksBelow hbelow
        refine ensures_from (J := fun s s' => Migrating tree P w₀ s ∧ Reading tree s s')
          (fun s hs => ⟨hs, hs.sound, .refl s⟩) (fun s s' hs => hs.1.reading hs.2) fun s hs => ?_
        have hb : s.beaconDB.block r = some b := by
          rw [DB.block, hs.blocks, ← hw.blocks]
          exact hblock
        intro s' hs'
        obtain ⟨hfinal, hresult⟩ := ensures_stateByRoot hs.sound hb s' hs'.2
        exact ⟨⟨hs, hfinal⟩, hresult⟩

theorem ensures_archive (hP : ∀ r, Archivable w₀ slot r → P r) :
    Ensures (Migrating tree P w₀) (fun _ => True) (archive T slot : StateGenM σ Unit) := by
  refine (ensures_archivedState slot).bind ?_
  rintro ⟨r, o⟩ ⟨hpost, hcand⟩
  refine ensures_get.bind fun w hw => ?_
  split
  · exact ensures_set { hw with sound := hw.sound.setSaveHotStateDB _ }
  · cases o with
    | none => exact ensures_throw _
    | some st =>
      exact ensures_set { hw with
        sound := hw.sound.saveDBState (hpost st rfl)
        written := forall_mem_cons.mpr
          ⟨.inr (hP r hcand), fun x hx => hw.written x (mem_of_mem_filter hx)⟩ }

/-- The slots of the loop of `MigrateToCold` from `slot` on. -/
theorem ensures_migrateLoop (ctx : Ctx) (slotsPerArchivedPoint : Slot) (n : ℕ) (slot : Slot)
    (poll : ℕ) (hslot : slot.toNat + n < 2 ^ 64)
    (hP : ∀ s : Slot, slot ≤ s → s.toNat < slot.toNat + n → s % slotsPerArchivedPoint = 0 →
      s ≠ 0 → ∀ r, Archivable w₀ s r → P r) :
    Ensures (Migrating tree P w₀) (fun _ => True)
      (migrateLoop T ctx slotsPerArchivedPoint n slot poll : StateGenM σ Unit) := by
  induction n generalizing slot poll with
  | zero => exact ensures_pure trivial
  | succ n ih =>
    have hnext : (slot + 1).toNat = slot.toNat + 1 := by bv_omega
    have hrest : Ensures (Migrating tree P w₀) (fun _ => True)
        (migrateLoop T ctx slotsPerArchivedPoint n (slot + 1) (poll + 1) : StateGenM σ Unit) := by
      refine ih (slot + 1) (poll + 1) (by omega) fun s hge hlt => hP s ?_ (by omega)
      rw [BitVec.le_def] at hge ⊢
      omega
    rw [migrateLoop]
    split
    · exact ensures_throw _
    split
    · exact ensures_throw _
    · split
      · rename_i hpoint
        refine (ensures_archive (hP slot (BitVec.le_refl _) (by omega) hpoint.1 hpoint.2)).bind
          fun _ _ => hrest
      · exact hrest

theorem migrating_migrateToCold (h₀ : Sound tree w₀) (ctx : Ctx) (fRoot : Root)
    (hP : ∀ fBlock, w₀.beaconDB.block fRoot = some fBlock → ∀ s, w₀.finalizedInfo.slot ≤ s →
      s < fBlock.slot → s % w₀.slotsPerArchivedPoint = 0 → s ≠ 0 →
      ∀ r, Archivable w₀ s r → P r) :
    Migrating tree P w₀ (final (migrateToCold T ctx fRoot) w₀) := by
  have hself : Migrating tree P w₀ w₀ := .refl h₀
  rw [EState.final, migrateToCold, EState.get_bind]
  change Migrating tree P w₀ (final _ w₀)
  cases hblock : w₀.beaconDB.block fRoot with
  | none => exact hself
  | some fBlock =>
    simp only
    split
    · exact hself
    · rename_i hle
      rw [BitVec.not_lt, BitVec.le_def] at hle
      have hbound := fBlock.slot.isLt
      refine ((?_ : Ensures (Migrating tree P w₀) (fun _ => True) _) w₀ hself).1
      refine (ensures_migrateLoop ctx _ _ _ _ (by omega)
        fun s hge hlt => hP fBlock hblock s hge ?_).bind fun _ _ => ?_
      · rw [BitVec.lt_def]
        omega
      · refine ensures_get.bind fun w hw => ?_
        split
        · exact ensures_pure trivial
        · rename_i st hst
          have hpost := hw.sound.getByRoot hst
          exact ensures_modify fun w hw =>
            { hw with sound := hw.sound.saveFinalizedState _ hpost }

/-! ### Runs -/

/-- What happens to the manager: its calls, and entries that leave the caches. -/
inductive Op (σ : Type) where
  | saveBlock (r : Root)
  | saveState (r : Root) (st : σ)
  | stateByRoot (r : Root)
  | migrateToCold (ctx : Ctx) (fRoot : Root)
  | saveFinalizedState (fSlot : Slot) (fRoot : Root) (fState : σ)
  | enableSaveHotStateToDB
  | evictHotState (r : Root)
  | evictBoundaryRoot (r : Root)
  | evictBoundarySlot (s : Slot)

/-- One call. A saved state is a new object. -/
def step (tree : BlockTree T) (w : Manager σ) : Op σ → Manager σ
  | .saveBlock r =>
    match tree.block r with
    | none => w
    | some b => { w with beaconDB := w.beaconDB.saveBlock r b }
  | .saveState r st => final (do
      let ref ← alloc st
      saveState T r ref) w
  | .stateByRoot r => final (stateByRoot T r) w
  | .migrateToCold ctx fRoot => final (migrateToCold T ctx fRoot) w
  | .saveFinalizedState fSlot fRoot fState => final (saveFinalizedState fSlot fRoot fState) w
  | .enableSaveHotStateToDB => final enableSaveHotStateToDB w
  | .evictHotState r => { w with hotStateCache := (w.hotStateCache.remove r).1 }
  | .evictBoundaryRoot r => { w with
      epochBoundaryStateCache := { w.epochBoundaryStateCache with
        rootStateCache := w.epochBoundaryStateCache.rootStateCache.filter
          fun x => decide (x.1 ≠ r) } }
  | .evictBoundarySlot s => { w with
      epochBoundaryStateCache := { w.epochBoundaryStateCache with
        slotRootCache := w.epochBoundaryStateCache.slotRootCache.filter
          fun x => decide (x.1 ≠ s) } }

/-- A block is saved after its parent and has a greater slot; states are saved
under the roots of their blocks. -/
def Valid (tree : BlockTree T) (w : Manager σ) : Op σ → Prop
  | .saveBlock r => ∃ b, tree.block r = some b ∧
      ∃ p, w.beaconDB.block b.parentRoot = some p ∧ p.slot < b.slot
  | .saveState r st => PostState tree r st
  | .stateByRoot r => (w.beaconDB.block r).isSome
  | .saveFinalizedState _ fRoot fState => PostState tree fRoot fState
  | _ => True

def genesisDB (tree : BlockTree T) : DB σ :=
  let db : DB σ := ⟨[], [], [(tree.genesisRoot, tree.genesisState)], [], tree.genesisRoot⟩
  match tree.block tree.genesisRoot with
  | none => db
  | some b => db.saveBlock tree.genesisRoot b

def start (tree : BlockTree T) (slotsPerArchivedPoint : Slot) : Manager σ :=
  new (genesisDB tree) slotsPerArchivedPoint

theorem sound_start (tree : BlockTree T) (slotsPerArchivedPoint : Slot) :
    Sound tree (start tree slotsPerArchivedPoint) := by
  obtain ⟨g, hg, hzero, hslot⟩ := tree.genesis
  have hdb : genesisDB tree = ⟨[(tree.genesisRoot, g)], [(g.slot, [tree.genesisRoot])],
      [(tree.genesisRoot, tree.genesisState)], [], tree.genesisRoot⟩ := by
    rw [genesisDB, hg]
    rfl
  rw [start, hdb]
  have hblock : ∀ {r b}, [(tree.genesisRoot, g)].lookup r = some b →
      r = tree.genesisRoot ∧ b = g := by
    intro r b hb
    rw [Lru.lookup_cons_ite] at hb
    split at hb
    · rename_i hr
      exact ⟨hr, (Option.some.inj hb).symm⟩
    · cases hb
  refine ⟨⟨fun {r b} hb => ?_, fun {r b} hb => .inl (hblock hb).1, ?_, rfl, pairwise_singleton _ _,
    ?_, ?_, fun {r b} hb => ?_⟩, fun x hx => ?_, lookup_cons_self, ?_, ?_, ?_, ?_⟩
  · obtain ⟨rfl, rfl⟩ := hblock hb
    exact hg
  · exact isSome_iff_exists.mpr ⟨g, lookup_cons_self⟩
  · intro x hx r hr
    rw [mem_singleton.mp hx] at hr ⊢
    rw [mem_singleton.mp hr]
    exact ⟨g, lookup_cons_self, rfl⟩
  · intro x hx
    rw [mem_singleton.mp hx]
    exact nodup_singleton _
  · obtain ⟨rfl, rfl⟩ := hblock hb
    exact ⟨_, mem_singleton_self _, rfl, mem_singleton_self _⟩
  · rw [mem_singleton.mp hx]
    exact .genesis
  · intro r s b hs
    cases hs
  · intro r ref hr
    cases hr
  · exact fun x hx => absurd hx not_mem_nil
  · rintro st ⟨⟩

theorem sound_step {w : Manager σ} {op : Op σ} (h : Sound tree w) (hop : Valid tree w op) :
    Sound tree (step tree w op) := by
  cases op with
  | saveBlock r =>
    obtain ⟨b, hb, p, hp, hlt⟩ := hop
    simp only [step, hb]
    exact h.saveBlock hb hp hlt
  | saveState r st =>
    have hholding : Holding tree w.heap.length st { w with heap := w.heap ++ [st] } :=
      ⟨h.alloc st, getElem?_concat_length⟩
    exact (ensures_saveState hop _ hholding).1.1
  | stateByRoot r =>
    obtain ⟨b, hb⟩ := isSome_iff_exists.mp hop
    exact (ensures_stateByRoot h hb w ⟨h, .refl w⟩).1.1
  | migrateToCold ctx fRoot =>
    exact (migrating_migrateToCold (P := fun _ => True) h ctx fRoot
      fun _ _ _ _ _ _ _ _ _ => trivial).sound
  | saveFinalizedState fSlot fRoot fState => exact h.saveFinalizedState fSlot hop
  | enableSaveHotStateToDB => exact h.setSaveHotStateDB _
  | evictHotState r =>
    refine h.of_hot fun r' ref hr' => ?_
    rw [Lru.peek_remove] at hr'
    split at hr'
    · cases hr'
    · exact hr'
  | evictBoundaryRoot r =>
    exact { h with boundary := fun x hx => h.boundary x (mem_of_mem_filter hx) }
  | evictBoundarySlot s => exact { h with }

theorem sound_run (tree : BlockTree T) (slotsPerArchivedPoint : Slot) (ops : List (Op σ))
    (hops : Admits (step tree) (Valid tree) (start tree slotsPerArchivedPoint) ops) :
    Sound tree (ops.foldl (step tree) (start tree slotsPerArchivedPoint)) :=
  Run.invariant (I := Sound tree) (fun _ _ h hop => sound_step h hop) (sound_start tree _) hops

/-- After any run, a state that `StateByRoot` returns for a stored block is the one
that slot and block processing make of the genesis state along the ancestors of
the block. -/
theorem stateByRoot_returns_post_state (tree : BlockTree T) (slotsPerArchivedPoint : Slot)
    (ops : List (Op σ))
    (hops : Admits (step tree) (Valid tree) (start tree slotsPerArchivedPoint) ops)
    (r : Root) (b : Block) (st : σ) (w' : Manager σ)
    (hstored : (ops.foldl (step tree) (start tree slotsPerArchivedPoint)).beaconDB.block r = some b)
    (hget : stateByRoot T r (ops.foldl (step tree) (start tree slotsPerArchivedPoint)) =
      .ok (some st) w') :
    PostState tree r st ∧ ∀ st', PostState tree r st' → st' = st := by
  have hsound := sound_run tree slotsPerArchivedPoint ops hops
  have hpost := (ensures_stateByRoot hsound hstored _ ⟨hsound, .refl _⟩).2 (some st) w' hget st rfl
  exact ⟨hpost, fun st' hst' => hst'.unique hpost⟩

/-- States that record their slot and the graffiti of the blocks they include. -/
def recordTransition : Transition (Slot × List Root) where
  slot := Prod.fst
  setSlot st n := (n, st.2)
  processSlot := .ok
  canProcessEpoch st := decide ((st.1 + 1) % 32 = 0)
  processEpochPrecompute := .ok
  processBlockForStateRoot st b := .ok (st.1, st.2 ++ [b.graffiti])
  slot_setSlot _ _ := rfl
  slot_processSlot h := by cases h; rfl
  slot_processEpochPrecompute h := by cases h; rfl
  slot_processBlockForStateRoot h := by cases h; rfl

/-- Two children of the genesis block, and a child of the first one. -/
def forkTree : BlockTree recordTransition where
  block r :=
    if r = 1 then some ⟨0, 0, 1, []⟩
    else if r = 2 then some ⟨1, 1, 2, []⟩
    else if r = 3 then some ⟨1, 1, 3, []⟩
    else if r = 4 then some ⟨3, 2, 4, []⟩
    else none
  genesisRoot := 1
  genesisState := (0, [])
  block_zeroHash := rfl
  genesis := ⟨_, rfl, rfl, rfl⟩

/-- The state of block 4 is replayed from genesis past the other branch. -/
theorem stateByRoot_returns_post_state_fork :
    PostState forkTree 4 (3, [2, 4]) ∧ ∀ st', PostState forkTree 4 st' → st' = (3, [2, 4]) :=
  stateByRoot_returns_post_state forkTree 2048
    [.saveBlock 2, .saveBlock 3, .saveState 3 (1, [3]), .saveBlock 4, .evictHotState 3]
    ⟨⟨_, rfl, _, rfl, by decide⟩, ⟨_, rfl, _, rfl, by decide⟩, .block rfl .genesis rfl,
      ⟨_, rfl, _, rfl, by decide⟩, trivial, trivial⟩
    4 ⟨3, 2, 4, []⟩ (3, [2, 4]) _ rfl rfl

end Vanguard.StateGen
