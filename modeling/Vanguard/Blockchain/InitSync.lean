import Vanguard.Blockchain.Types
import Vanguard.Lib.Interleaving

/-!
The initial-sync block cache between its writers and its flushes.

`handleBlockAfterBatchVerify` saves a verified block in the cache before it
puts it in the fork choice store. A flush reads the whole cache, writes what it
read to the database and clears whatever the cache then holds, each under a
lock of its own. Flushes are done by `handleBlockAfterBatchVerify` itself and,
from other goroutines, by `cacheJustifiedStateBalances` and
`verifyBlkPreState`.
-/

namespace Vanguard.Blockchain.InitSync

open Run Interleaving List

/-- A map from roots to blocks, or the blocks bucket of the database. -/
abbrev Blocks := List (Root × Block)

def Blocks.roots (blocks : Blocks) : List Root := blocks.map Prod.fst

structure Shared where
  initSyncBlocks : Blocks
  /-- The blocks bucket of the database. -/
  blocks : Blocks
  /-- The nodes of the fork choice store. -/
  nodes : List Root
  /-- Every root the calls have inserted in the fork choice store so far. -/
  inserted : List Root
  deriving DecidableEq, Repr

/-- A goroutine in one of the calls, by its next atomic step. `flushes` counts
the flushes still to come after the current one. -/
inductive Call where
  | saveInitSyncBlock (b : Block) (fSlot : Slot) (flushes : ℕ)
  | insertBlockToForkChoiceStore (b : Block) (fSlot : Slot) (flushes : ℕ)
  /-- The rate limit of `handleBlockAfterBatchVerify`. -/
  | checkSize (flushes : ℕ)
  | getInitSyncBlocks (flushes : ℕ)
  | saveBlocks (blks : List Block) (flushes : ℕ)
  | clearInitSyncBlocks (flushes : ℕ)
  /-- `ForkChoiceStore.Prune`, with the nodes it keeps. -/
  | prune (kept : List Root)
  deriving DecidableEq, Repr

/-- The calls that are made. Whether the block brings a newer justified or
finalized checkpoint, and the start slot of the finalized epoch, may differ
from call to call. -/
inductive Entry where
  | handleBlockAfterBatchVerify (b : Block) (fSlot : Slot) (newJustified newFinalized : Bool)
  | cacheJustifiedStateBalances
  | verifyBlkPreState (hasState : Bool)
  | prune (kept : List Root)
  deriving DecidableEq, Repr

/-- A call before its first step. `updateJustifiedInitSync` reaches the flush of
`cacheJustifiedStateBalances`, and `updateFinalized` has one of its own. -/
def enter : Entry → Option Call
  | .handleBlockAfterBatchVerify b fSlot newJustified newFinalized =>
    some (.saveInitSyncBlock b fSlot (newJustified.toNat + newFinalized.toNat))
  | .cacheJustifiedStateBalances => some (.getInitSyncBlocks 0)
  | .verifyBlkPreState hasState => if hasState then none else some (.getInitSyncBlocks 0)
  | .prune kept => some (.prune kept)

def initialSyncBlockCacheSize : ℕ := 2 * 32

/-- Assignment to a map. -/
def Blocks.set (blocks : Blocks) (r : Root) (b : Block) : Blocks :=
  (r, b) :: blocks.filter fun x => decide (x.1 ≠ r)

section

variable (hashTreeRoot : Block → Root)

/-- `Store.SaveBlocks`: a block that is there already is left as it is. -/
def saveBlocks (blocks : Blocks) (blks : List Block) : Blocks :=
  blks.foldl (fun blocks b =>
    if hashTreeRoot b ∈ blocks.roots then blocks else (hashTreeRoot b, b) :: blocks) blocks

/-- The first loop of `fillInForkChoiceMissingBlocks`. The ancestors of a block
are distinct, so that the number of stored blocks is fuel enough. -/
def missingRoots (blocks : Blocks) (nodes : List Root) (fSlot : Slot) : ℕ → Root → Slot → List Root
  | 0, _, _ => []
  | fuel + 1, parentRoot, slot =>
    if parentRoot ∈ nodes then []
    else
      match blocks.lookup parentRoot with
      | none => []
      | some b =>
        if fSlot < slot then
          parentRoot :: missingRoots blocks nodes fSlot fuel b.parentRoot b.slot
        else []

/-- The roots that `insertBlockToForkChoiceStore` inserts. -/
def insertedRoots (s : Shared) (b : Block) (fSlot : Slot) : List Root :=
  missingRoots s.blocks s.nodes fSlot s.blocks.length b.parentRoot b.slot ++ [hashTreeRoot b]

/-- A call goes on to its next flush, or returns. -/
def flushOrReturn : ℕ → Option Call
  | 0 => none
  | flushes + 1 => some (.getInitSyncBlocks flushes)

/-- The next atomic step of a call. -/
def next (s : Shared) : Call → Shared × Option Call
  | .saveInitSyncBlock b fSlot flushes =>
    ({ s with initSyncBlocks := s.initSyncBlocks.set (hashTreeRoot b) b },
      some (.insertBlockToForkChoiceStore b fSlot flushes))
  | .insertBlockToForkChoiceStore b fSlot flushes =>
    ({ s with
        nodes := s.nodes ++ insertedRoots hashTreeRoot s b fSlot
        inserted := s.inserted ++ insertedRoots hashTreeRoot s b fSlot },
      some (.checkSize flushes))
  | .checkSize flushes =>
    (s,
      if initialSyncBlockCacheSize < s.initSyncBlocks.length then some (.getInitSyncBlocks flushes)
      else flushOrReturn flushes)
  | .getInitSyncBlocks flushes =>
    (s, some (.saveBlocks (s.initSyncBlocks.map Prod.snd) flushes))
  | .saveBlocks blks flushes =>
    ({ s with blocks := saveBlocks hashTreeRoot s.blocks blks },
      some (.clearInitSyncBlocks flushes))
  | .clearInitSyncBlocks flushes => ({ s with initSyncBlocks := [] }, flushOrReturn flushes)
  | .prune kept => ({ s with nodes := s.nodes.filter fun r => decide (r ∈ kept) }, none)

def step : System Shared Call → Event Entry → System Shared Call :=
  System.step enter (next hashTreeRoot)

end

/-- The service before the calls, with an empty cache. -/
def start (blocks : Blocks) (nodes : List Root) : System Shared Call :=
  ⟨⟨[], blocks, nodes, []⟩, []⟩

/-- The database or the cache has a block with the root. -/
def Shared.Has (s : Shared) (r : Root) : Prop :=
  r ∈ s.blocks.roots ∨ r ∈ s.initSyncBlocks.roots

/-- No block of the fork choice store is lost. -/
def Shared.Kept (s : Shared) : Prop := ∀ r ∈ s.inserted, s.Has r

instance (s : Shared) (r : Root) : Decidable (s.Has r) :=
  inferInstanceAs (Decidable (_ ∨ _))

instance (s : Shared) : Decidable s.Kept :=
  decidableBAll _ s.inserted

/-- The call has read the cache for a flush and has not cleared it yet. -/
def Call.flushing : Call → Bool
  | .saveBlocks _ _ => true
  | .clearInitSyncBlocks _ => true
  | _ => false

/-- No block is saved in the cache between the read and the clear of a flush. -/
def Exclusive (s : System Shared Call) : Event Entry → Prop
  | .resume i =>
    match s.calls[i]? with
    | some (.saveInitSyncBlock _ _ _) => ∀ t ∈ s.calls, t.flushing = false
    | _ => True
  | _ => True

instance (s : System Shared Call) (e : Event Entry) : Decidable (Exclusive s e) := by
  unfold Exclusive
  split
  · split <;> infer_instance
  · infer_instance

/-! ### What the steps do to the roots -/

variable {hashTreeRoot : Block → Root} {blocks : Blocks} {r : Root} {b : Block} {s s' : Shared}
  {t : Call} {blks : List Block}

theorem mem_roots_set {r' : Root} : r' ∈ (blocks.set r b).roots ↔ r' = r ∨ r' ∈ blocks.roots := by
  simp only [Blocks.set, Blocks.roots, map_cons, mem_cons, mem_map, mem_filter, decide_eq_true_eq]
  constructor
  · rintro (h | ⟨x, ⟨hx, -⟩, rfl⟩)
    · exact .inl h
    · exact .inr ⟨x, hx, rfl⟩
  · rintro (h | ⟨x, hx, rfl⟩)
    · exact .inl h
    · by_cases hr : x.1 = r
      · exact .inl hr
      · exact .inr ⟨x, ⟨hx, hr⟩, rfl⟩

theorem mem_roots_saveBlocks : r ∈ (saveBlocks hashTreeRoot blocks blks).roots ↔
      r ∈ blocks.roots ∨ ∃ b ∈ blks, hashTreeRoot b = r := by
  induction blks generalizing blocks with
  | nil => simp [saveBlocks]
  | cons b blks ih =>
    rw [saveBlocks, foldl_cons, ← saveBlocks, ih]
    simp only [mem_cons, exists_eq_or_imp]
    split
    · rename_i hb
      refine ⟨fun h => h.imp id .inr, ?_⟩
      rintro (h | rfl | h)
      · exact .inl h
      · exact .inl hb
      · exact .inr h
    · simp only [Blocks.roots, map_cons, mem_cons]
      tauto

theorem mem_roots_of_lookup (h : blocks.lookup r = some b) : r ∈ blocks.roots := by
  obtain ⟨l, l', rfl, -⟩ := lookup_eq_some_iff.mp h
  simp [Blocks.roots]

theorem mem_roots_of_mem_missingRoots {nodes : List Root} {fSlot : Slot} {fuel : ℕ}
    {parentRoot : Root} {slot : Slot}
    (h : r ∈ missingRoots blocks nodes fSlot fuel parentRoot slot) : r ∈ blocks.roots := by
  induction fuel generalizing parentRoot slot with
  | zero => cases h
  | succ fuel ih =>
    rw [missingRoots] at h
    split at h
    · cases h
    · split at h
      · cases h
      · rename_i b hb
        split at h
        · rcases mem_cons.mp h with rfl | h
          · exact mem_roots_of_lookup hb
          · exact ih h
        · cases h

/-! ### The assertions of the calls -/

/-- The cached blocks are in the cache under their own roots. -/
def Shared.Rooted (hashTreeRoot : Block → Root) (s : Shared) : Prop :=
  ∀ x ∈ s.initSyncBlocks, x.1 = hashTreeRoot x.2

/-- What a call relies on before its next step: the block it inserts is there,
the cache has gained nothing since a flush read it, and it holds nothing that
the database lacks when a flush clears it. -/
def Asserts (hashTreeRoot : Block → Root) (s : Shared) : Call → Prop
  | .insertBlockToForkChoiceStore b _ _ => s.Has (hashTreeRoot b)
  | .saveBlocks blks _ => ∀ r ∈ s.initSyncBlocks.roots, ∃ b ∈ blks, hashTreeRoot b = r
  | .clearInitSyncBlocks _ => ∀ r ∈ s.initSyncBlocks.roots, r ∈ s.blocks.roots
  | _ => True

/-- The assertions survive when blocks only enter the database and, while the call
is flushing, leave the cache. -/
theorem Asserts.mono (h : Asserts hashTreeRoot s t)
    (hcache : t.flushing = true → ∀ r ∈ s'.initSyncBlocks.roots, r ∈ s.initSyncBlocks.roots)
    (hblocks : ∀ r ∈ s.blocks.roots, r ∈ s'.blocks.roots) (hhas : ∀ r, s.Has r → s'.Has r) :
    Asserts hashTreeRoot s' t := by
  cases t with
  | insertBlockToForkChoiceStore b fSlot flushes => exact hhas _ h
  | saveBlocks blks flushes => exact fun r hr => h r (hcache rfl r hr)
  | clearInitSyncBlocks flushes => exact fun r hr => hblocks r (h r (hcache rfl r hr))
  | _ => trivial

/-- The invariant of the shared state. -/
def Sound (hashTreeRoot : Block → Root) (s : Shared) : Prop :=
  s.Rooted hashTreeRoot ∧ s.Kept

theorem asserts_flushOrReturn {flushes : ℕ} :
    ∀ t ∈ flushOrReturn flushes, Asserts hashTreeRoot s t := by
  cases flushes with
  | zero => simp [flushOrReturn]
  | succ n =>
    rintro t ⟨⟩
    trivial

theorem Shared.Kept.of_has (h : s.Kept) (hins : s'.inserted = s.inserted)
    (hhas : ∀ r, s.Has r → s'.Has r) : s'.Kept :=
  fun r hr => hhas r (h r (hins ▸ hr))

theorem Shared.has_set (r' : Root) (h : s.Has r') :
    Shared.Has { s with initSyncBlocks := s.initSyncBlocks.set r b } r' :=
  h.imp id fun h => mem_roots_set.mpr (.inr h)

theorem Shared.has_saveBlocks (r : Root) (h : s.Has r) :
    Shared.Has { s with blocks := saveBlocks hashTreeRoot s.blocks blks } r :=
  h.imp (fun h => mem_roots_saveBlocks.mpr (.inl h)) id

theorem Shared.has_clear (hclear : ∀ r ∈ s.initSyncBlocks.roots, r ∈ s.blocks.roots) (r : Root)
    (h : s.Has r) : Shared.Has { s with initSyncBlocks := [] } r :=
  .inl (h.elim id (hclear r))

/-- A step keeps the blocks of the fork choice store, and the call can rely on
what its next step needs. -/
theorem sound_next (hs : Sound hashTreeRoot s) (ht : Asserts hashTreeRoot s t) :
    Sound hashTreeRoot (next hashTreeRoot s t).1 ∧
      ∀ t' ∈ (next hashTreeRoot s t).2, Asserts hashTreeRoot (next hashTreeRoot s t).1 t' := by
  obtain ⟨hrooted, hkept⟩ := hs
  cases t with
  | saveInitSyncBlock b fSlot flushes =>
    refine ⟨⟨fun x hx => ?_, hkept.of_has rfl Shared.has_set⟩, ?_⟩
    · rcases mem_cons.mp hx with rfl | hx
      · rfl
      · exact hrooted x (mem_of_mem_filter hx)
    · rintro t' ⟨⟩
      exact .inr (mem_roots_set.mpr (.inl rfl))
  | insertBlockToForkChoiceStore b fSlot flushes =>
    refine ⟨⟨hrooted, fun r hr => ?_⟩, ?_⟩
    · rcases mem_append.mp hr with hr | hr
      · exact hkept r hr
      · rcases mem_append.mp hr with hr | hr
        · exact .inl (mem_roots_of_mem_missingRoots hr)
        · rw [mem_singleton.mp hr]
          exact ht
    · rintro t' ⟨⟩
      trivial
  | checkSize flushes =>
    refine ⟨⟨hrooted, hkept⟩, ?_⟩
    simp only [next]
    split
    · rintro t' ⟨⟩
      trivial
    · exact asserts_flushOrReturn
  | getInitSyncBlocks flushes =>
    refine ⟨⟨hrooted, hkept⟩, ?_⟩
    rintro t' ⟨⟩ r hr
    obtain ⟨x, hx, rfl⟩ := mem_map.mp hr
    exact ⟨x.2, mem_map.mpr ⟨x, hx, rfl⟩, (hrooted x hx).symm⟩
  | saveBlocks blks flushes =>
    refine ⟨⟨hrooted, hkept.of_has rfl Shared.has_saveBlocks⟩, ?_⟩
    rintro t' ⟨⟩ r hr
    exact mem_roots_saveBlocks.mpr (.inr (ht r hr))
  | clearInitSyncBlocks flushes =>
    exact ⟨⟨fun x hx => absurd hx not_mem_nil, hkept.of_has rfl (Shared.has_clear ht)⟩,
      asserts_flushOrReturn⟩
  | prune kept => exact ⟨⟨hrooted, hkept⟩, fun t' ht' => nomatch ht'⟩

/-- A step does not interfere with what another call relies on, unless it saves
a block while that call is flushing. -/
theorem asserts_next {u : Call} (ht : Asserts hashTreeRoot s t) (hu : Asserts hashTreeRoot s u)
    (hexcl : ∀ b fSlot flushes, t = .saveInitSyncBlock b fSlot flushes → u.flushing = false) :
    Asserts hashTreeRoot (next hashTreeRoot s t).1 u := by
  cases t with
  | saveInitSyncBlock b fSlot flushes =>
    have hidle := hexcl b fSlot flushes rfl
    exact hu.mono (by simp [hidle]) (fun r hr => hr) Shared.has_set
  | saveBlocks blks flushes =>
    exact hu.mono (fun _ r hr => hr) (fun r hr => mem_roots_saveBlocks.mpr (.inl hr))
      Shared.has_saveBlocks
  | clearInitSyncBlocks flushes =>
    exact hu.mono (fun _ r hr => absurd hr not_mem_nil) (fun r hr => hr) (Shared.has_clear ht)
  | _ => exact hu.mono (fun _ r hr => hr) (fun r hr => hr) fun r hr => hr

theorem asserts_enter {e : Entry} (ht : t ∈ enter e) : Asserts hashTreeRoot s t := by
  cases e with
  | verifyBlkPreState hasState =>
    cases hasState with
    | false =>
      cases ht
      trivial
    | true => cases ht
  | _ =>
    cases ht
    trivial

/-! ### Runs -/

/-- As long as no block is saved between the read and the clear of a flush,
every block inserted in the fork choice store is in the database or in the
cache. -/
theorem inserted_blocks_kept (hashTreeRoot : Block → Root) (blocks : Blocks) (nodes : List Root)
    (es : List (Event Entry))
    (hexcl : Admits (step hashTreeRoot) Exclusive (start blocks nodes) es) :
    (es.foldl (step hashTreeRoot) (start blocks nodes)).shared.Kept := by
  have hstart : Asserted (Sound hashTreeRoot) (Asserts hashTreeRoot) (start blocks nodes) :=
    ⟨⟨fun x hx => absurd hx not_mem_nil, fun r hr => absurd hr not_mem_nil⟩,
      fun t ht => absurd ht not_mem_nil⟩
  refine (asserted_of_steps (fun s e t _ _ ht => asserts_enter ht) ?_ ?_ hstart hexcl).1.2
  · intro s i t ht _ hs
    exact sound_next hs.1 (hs.2 t (mem_of_getElem? ht))
  · intro s i t u ht hok hs hu
    refine asserts_next (hs.2 t (mem_of_getElem? ht))
      (hs.2 u (mem_of_mem_eraseIdx hu)) ?_
    rintro b fSlot flushes rfl
    simp only [Exclusive, ht] at hok
    exact hok u (mem_of_mem_eraseIdx hu)

/-- A block whose root is its graffiti, as in a small tree. -/
def sampleBlock (slot : Slot) (root parentRoot : Root) : Block := ⟨slot, parentRoot, root, []⟩

/-- Two blocks are handled with a flush from another goroutine after each of
them. -/
theorem inserted_blocks_kept_two_blocks :
    let es : List (Event Entry) :=
      [.enter (.handleBlockAfterBatchVerify (sampleBlock 1 1 0) 0 false false),
        .resume 0, .enter .cacheJustifiedStateBalances, .resume 1, .resume 0, .resume 0, .resume 0,
        .resume 0, .enter (.handleBlockAfterBatchVerify (sampleBlock 2 2 1) 0 true false),
        .resume 0, .resume 0, .resume 0, .resume 0]
    (es.foldl (step Block.graffiti) (start [] [])).shared.Kept :=
  inserted_blocks_kept Block.graffiti [] [] _ (by decide)

/-- The second block arrives between the read and the clear of a flush: it is in
the fork choice store, and neither in the database nor in the cache. -/
theorem flush_loses_block :
    ∃ (hashTreeRoot : Block → Root) (blocks : Blocks) (nodes : List Root)
      (es : List (Event Entry)),
      ¬ (es.foldl (step hashTreeRoot) (start blocks nodes)).shared.Kept :=
  ⟨Block.graffiti, [], [],
    [.enter (.handleBlockAfterBatchVerify (sampleBlock 1 1 0) 0 false false),
      .resume 0, .resume 0, .resume 0,
      .enter .cacheJustifiedStateBalances, .resume 0,
      .enter (.handleBlockAfterBatchVerify (sampleBlock 2 2 1) 0 false false),
      .resume 1, .resume 1, .resume 0, .resume 1], by decide⟩

end Vanguard.Blockchain.InitSync
