import Vanguard.Lib.Run
import Vanguard.StateGen.Manager

/-!
The two indices of the epoch boundary state cache.

States are kept by root and roots by slot, in two queues that skip a key they hold and are trimmed
on their own. The queues hold the same entries in the same order as long as no state is put whose
root or slot is held with another slot or root.
-/

namespace Vanguard.StateGen

open Lru List

variable {σ : Type} {slotOf : σ → Slot} {e : EpochBoundaryState σ} {r : Root} {s : Slot} {st : σ}

theorem nodup_keys_trim {κ ν : Type} {queue : List (κ × ν)} (h : (queue.map Prod.fst).Nodup)
    (n : ℕ) : ((trim queue n).map Prod.fst).Nodup := by
  rw [trim, map_drop]
  exact h.drop

theorem nodup_keys_concat {κ ν : Type} [DecidableEq κ] {queue : List (κ × ν)}
    (h : (queue.map Prod.fst).Nodup) {k : κ} {v : ν} (hk : queue.lookup k = none) :
    ((queue ++ [(k, v)]).map Prod.fst).Nodup := by
  rw [map_append]
  exact h.append (nodup_singleton k) (disjoint_singleton.mpr ((lookup_eq_none_iff queue k).mp hk))

namespace EpochBoundaryState

/-- `put` of a state under the root of its block. -/
def putState (slotOf : σ → Slot) (e : EpochBoundaryState σ) (call : Root × σ) :
    EpochBoundaryState σ :=
  e.put call.1 (slotOf call.2) call.2

/-- At most eight states are held, and a state is found by its slot iff one of that slot is held. -/
structure Agrees (slotOf : σ → Slot) (e : EpochBoundaryState σ) : Prop where
  length_le : e.rootStateCache.length ≤ maxCacheSize
  found_iff : ∀ s, (e.getBySlot s).isSome ↔ ∃ r st, e.getByRoot r = some st ∧ slotOf st = s
  slot_eq : ∀ s r st, e.getBySlot s = some (r, st) → slotOf st = s

/-- The root is held under the slot of the state, or both are new. -/
def Paired (slotOf : σ → Slot) (e : EpochBoundaryState σ) (call : Root × σ) : Prop :=
  e.slotRootCache.lookup (slotOf call.2) = some call.1 ∨
    e.rootStateCache.lookup call.1 = none ∧ e.slotRootCache.lookup (slotOf call.2) = none

/-- The queues hold the same entries. -/
structure Aligned (slotOf : σ → Slot) (e : EpochBoundaryState σ) : Prop where
  slots_eq : e.slotRootCache = e.rootStateCache.map fun x => (slotOf x.2, x.1)
  nodup_roots : (e.rootStateCache.map Prod.fst).Nodup
  nodup_slots : (e.slotRootCache.map Prod.fst).Nodup

section

variable (h : Aligned slotOf e)

include h

theorem Aligned.getByRoot_iff : e.getByRoot r = some st ↔ (r, st) ∈ e.rootStateCache :=
  ⟨mem_of_lookup, lookup_of_mem h.nodup_roots⟩

theorem Aligned.getBySlot_iff :
    e.getBySlot s = some (r, st) ↔ e.getByRoot r = some st ∧ slotOf st = s := by
  constructor
  · intro hget
    obtain ⟨r', hr', hst⟩ := Option.bind_eq_some_iff.mp hget
    obtain ⟨st', hst', heq⟩ := Option.map_eq_some_iff.mp hst
    obtain ⟨rfl, rfl⟩ := Prod.mk.inj heq
    have hmem := mem_of_lookup hr'
    rw [h.slots_eq, mem_map] at hmem
    obtain ⟨⟨r₁, st₁⟩, hentry, heq₁⟩ := hmem
    obtain ⟨rfl, rfl⟩ := Prod.mk.inj heq₁
    -- the root has one entry
    obtain rfl : st₁ = st' := Option.some.inj ((h.getByRoot_iff.mpr hentry).symm.trans hst')
    exact ⟨hst', rfl⟩
  · rintro ⟨hst, rfl⟩
    have hslot : e.slotRootCache.lookup (slotOf st) = some r := by
      apply lookup_of_mem h.nodup_slots
      rw [h.slots_eq]
      exact mem_map_of_mem (h.getByRoot_iff.mp hst)
    simp [getBySlot, hslot, hst]

theorem Aligned.agrees (hlength : e.rootStateCache.length ≤ maxCacheSize) :
    Agrees slotOf e where
  length_le := hlength
  found_iff s := by
    simp only [Option.isSome_iff_exists, Prod.exists, h.getBySlot_iff]
  slot_eq s r st hget := (h.getBySlot_iff.mp hget).2

theorem Aligned.trim (n : ℕ) :
    Aligned slotOf ⟨StateGen.trim e.rootStateCache n, StateGen.trim e.slotRootCache n⟩ where
  slots_eq := by simp [StateGen.trim, h.slots_eq]
  nodup_roots := nodup_keys_trim h.nodup_roots n
  nodup_slots := nodup_keys_trim h.nodup_slots n

theorem Aligned.putState {call : Root × σ} (hpaired : Paired slotOf e call) :
    Aligned slotOf (e.putState slotOf call) := by
  refine Aligned.trim (e := ⟨addIfNotPresent e.rootStateCache call.1 call.2,
    addIfNotPresent e.slotRootCache (slotOf call.2) call.1⟩) ?_ _
  rcases hpaired with hheld | ⟨hroot, hslot⟩
  · -- both queues hold their key
    have hmem := mem_of_lookup hheld
    rw [h.slots_eq, mem_map] at hmem
    obtain ⟨⟨r, st⟩, hentry, heq⟩ := hmem
    obtain rfl : r = call.1 := (Prod.mk.inj heq).2
    have hroot := lookup_of_mem h.nodup_roots hentry
    simpa [addIfNotPresent, hheld, hroot] using h
  · simp only [addIfNotPresent, hroot, hslot]
    exact ⟨by simp [h.slots_eq], nodup_keys_concat h.nodup_roots hroot,
      nodup_keys_concat h.nodup_slots hslot⟩

end

theorem length_putState_le (slotOf : σ → Slot) (e : EpochBoundaryState σ) (call : Root × σ) :
    (e.putState slotOf call).rootStateCache.length ≤ maxCacheSize := by
  simp only [EpochBoundaryState.putState, put, trim, length_drop]
  omega

end EpochBoundaryState

open EpochBoundaryState

/-- After any puts each of which is for a new root and a new slot or for a root held under that
slot, the indices agree. -/
theorem boundaryCache_agrees (slotOf : σ → Slot) (calls : List (Root × σ))
    (hpaired : Run.Admits (putState slotOf) (Paired slotOf) ⟨[], []⟩ calls) :
    Agrees slotOf (calls.foldl (putState slotOf) ⟨[], []⟩) := by
  have hnew : Aligned slotOf ⟨[], []⟩ := ⟨rfl, nodup_nil, nodup_nil⟩
  have h := Run.invariant
      (I := fun e => Aligned slotOf e ∧ e.rootStateCache.length ≤ maxCacheSize)
      (fun e call h hcall => ⟨h.1.putState hcall, length_putState_le slotOf e call⟩)
      ⟨hnew, Nat.zero_le _⟩ hpaired
  exact h.1.agrees h.2

theorem boundaryCache_agrees_two :
    Agrees id (([(1, 32), (2, 64), (1, 32)] : List (Root × Slot)).foldl (putState id) ⟨[], []⟩) :=
  boundaryCache_agrees id _ ⟨.inr (by decide), .inr (by decide), .inl (by decide), trivial⟩

/-- Two blocks of slot 32, and seven later ones: the state of the second block is held, and slot 32
still leads to the root of the first. -/
theorem boundaryCache_drifts :
    let e := ([(1, 32), (2, 32), (3, 64), (4, 96), (5, 128), (6, 160), (7, 192), (8, 224),
      (9, 256)] : List (Root × Slot)).foldl (putState id) ⟨[], []⟩
    e.getByRoot 2 = some 32 ∧ e.getBySlot 32 = none ∧ ¬ Agrees id e := by
  intro e
  have hroot : e.getByRoot 2 = some 32 := by decide
  have hslot : e.getBySlot 32 = none := by decide
  refine ⟨hroot, hslot, fun h => ?_⟩
  have hfound := (h.found_iff 32).mpr ⟨2, 32, hroot, rfl⟩
  rw [hslot] at hfound
  cases hfound

end Vanguard.StateGen
