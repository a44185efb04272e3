import Vanguard.Lib.Run
import Vanguard.ProtoArray.Calls

/-!
The representation invariant over whole runs.

Each call is described as a transformation of the object (`step_…`) together
with what it returns (`outcome_…`). Every reachable store is well formed, and
so the internal errors of the package are never returned.
-/

namespace Vanguard.ProtoArray

open Forest BestChild EState

/-- The errors that report a broken array, with the failures Go has no error
value for. -/
def Err.internal : List Err :=
  [.invalidNodeIndex, .invalidBestChildIndex, .invalidBestDescendantIndex, .invalidParentDelta,
    .invalidDeltaLength, .invalidNodeDelta, .invalidJustifiedIndex, .invalidFinalizedIndex,
    .indexOutOfRange, .diverged]

def ForkChoice.withMarks (f : ForkChoice) (marks : RootMap Bool) : ForkChoice :=
  { f with store := { f.store with canonicalNodes := marks } }

namespace Store

variable {s : Store}

/-- `head` changes nothing but the marks and fails with no internal error. -/
theorem head_cases (h : s.WellFormed) (ctx : Ctx) (r : Root) :
    ∃ m, (∃ root, head ctx r s = .ok root { s with canonicalNodes := m }) ∨
      ∃ e ∉ Err.internal, head ctx r s = .error e { s with canonicalNodes := m } := by
  cases hr : s.nodesIndices[r]? with
  | none =>
    exact ⟨s.canonicalNodes, Or.inr ⟨_, by decide, head_of_none ctx hr⟩⟩
  | some i =>
    obtain ⟨j, hj, -⟩ := (h.indices r i).mp hr
    obtain ⟨n, hn⟩ := h.getElem?_tip (List.getElem?_eq_some_iff.mp hj).1
    rw [head_of_some h ctx hr hn]
    split
    · obtain ⟨m, hok | ⟨-, herr⟩⟩ := updateCanonicalNodes_cases h ctx hn
      · exact ⟨m, Or.inl ⟨n.root, by rw [bind_ok hok, pure_apply]⟩⟩
      · exact ⟨m, Or.inr ⟨_, by decide, bind_error herr⟩⟩
    · refine ⟨s.canonicalNodes, Or.inr ⟨_, ?_, rfl⟩⟩
      simp [Err.internal]

end Store

namespace ForkChoice

variable {f : ForkChoice}

/-! ### What the calls do -/

theorem call_processBlock (h : f.store.WellFormed) (slot : Slot) (r p g : Root) (je fe : Epoch) :
    (Op.processBlock slot r p g je fe).call f = .ok none { f with
      store := if f.store.nodesIndices.contains r then f.store
        else f.store.inserted (f.store.newNode slot r p g je fe) } := by
  have hinsert : processBlock slot r p g je fe f = .ok () { f with
      store := if f.store.nodesIndices.contains r then f.store
        else f.store.inserted (f.store.newNode slot r p g je fe) } := by
    cases hr : f.store.nodesIndices.contains r with
    | true => simp [processBlock, onStore, Store.insert_of_contains hr]
    | false =>
      have hnone := TreeMap.contains_eq_false_iff.mp hr
      simp [processBlock, onStore, Store.insert_eq h hnone]
  rw [Op.call, bind_ok hinsert, pure_apply]

theorem step_processBlock (h : f.store.WellFormed) (slot : Slot) (r p g : Root) (je fe : Epoch) :
    f.step (.processBlock slot r p g je fe) = { f with
      store := if f.store.nodesIndices.contains r then f.store
        else f.store.inserted (f.store.newNode slot r p g je fe) } := by
  rw [step, call_processBlock h]

/-- The store that `prune` leaves. -/
def prunedAt (f : ForkChoice) (r : Root) : Store :=
  match f.store.nodesIndices[r]? with
  | none => f.store
  | some k => if k < f.store.pruneThreshold then f.store else f.store.pruned k

theorem call_prune (h : f.store.WellFormed) (r : Root) :
    (Op.prune r).call f =
      if f.store.nodesIndices.contains r then .ok none { f with store := f.prunedAt r }
      else .error .unknownFinalizedRoot { f with store := f.prunedAt r } := by
  rw [Std.ExtTreeMap.contains_eq_isSome_getElem?, Op.call]
  unfold prunedAt
  cases hr : f.store.nodesIndices[r]? with
  | none =>
    have hp : ForkChoice.prune r f = .error .unknownFinalizedRoot f := by
      simp [ForkChoice.prune, onStore, Store.prune_of_none hr]
    rw [bind_error hp]
    rfl
  | some k =>
    by_cases hk : k < f.store.pruneThreshold
    · have hp : ForkChoice.prune r f = .ok () f := by
        simp [ForkChoice.prune, onStore, Store.prune_of_lt hr hk]
      rw [bind_ok hp]
      simp [hk]
    · have hp : ForkChoice.prune r f = .ok () { f with store := f.store.pruned k } := by
        simp [ForkChoice.prune, onStore, Store.prune_eq h hr (Nat.le_of_not_lt hk)]
      rw [bind_ok hp]
      simp [hk]

theorem step_prune (h : f.store.WellFormed) (r : Root) :
    f.step (.prune r) = { f with store := f.prunedAt r } := by
  rw [step, call_prune h]
  split <;> rename_i heq <;> split at heq <;> cases heq <;> rfl

theorem headed_wellFormed (h : f.store.WellFormed) (je fe : Epoch) (balances : List Gwei) :
    (f.headed je fe balances).store.WellFormed :=
  (h.reweighed je fe _).swept

section

variable (f) (je fe : Epoch) (balances : List Gwei)

@[simp] theorem nodesIndices_headed :
    (f.headed je fe balances).store.nodesIndices = f.store.nodesIndices := rfl

@[simp] theorem parentOf_headed : (f.headed je fe balances).store.parentOf = f.store.parentOf := by
  simp only [headed, Store.swept, Store.reweighed, Store.parentOf_relink, Store.parentOf_reweigh]
  rfl

@[simp] theorem epochsAt_headed : (f.headed je fe balances).store.epochsAt = f.store.epochsAt := by
  simp only [headed, Store.swept, Store.reweighed, Store.epochsAt_relink, Store.epochsAt_reweigh]
  rfl

end

section

variable (h : f.store.WellFormed)

include h

theorem call_head (ctx : Ctx) (je : Epoch) (r : Root) (balances : List Gwei) (fe : Epoch) :
    ∃ m, (∃ root, (Op.head ctx je r balances fe).call f =
        .ok (some root) ((f.headed je fe balances).withMarks m)) ∨
      ∃ e ∉ Err.internal, (Op.head ctx je r balances fe).call f =
        .error e ((f.headed je fe balances).withMarks m) := by
  obtain ⟨m, ⟨root, hok⟩ | ⟨e, he, herr⟩⟩ :=
    Store.head_cases (headed_wellFormed h je fe balances) ctx r
  · have hhead : ForkChoice.head ctx je r balances fe f =
        .ok root ((f.headed je fe balances).withMarks m) := by
      rw [head_eq h, onStore, hok]
      rfl
    exact ⟨m, Or.inl ⟨root, by rw [Op.call, bind_ok hhead, pure_apply]⟩⟩
  · have hhead : ForkChoice.head ctx je r balances fe f =
        .error e ((f.headed je fe balances).withMarks m) := by
      rw [head_eq h, onStore, herr]
      rfl
    exact ⟨m, Or.inr ⟨e, he, by rw [Op.call, bind_error hhead]⟩⟩

theorem step_head (ctx : Ctx) (je : Epoch) (r : Root) (balances : List Gwei) (fe : Epoch) :
    ∃ m, f.step (.head ctx je r balances fe) = (f.headed je fe balances).withMarks m := by
  obtain ⟨m, ⟨root, hok⟩ | ⟨e, -, herr⟩⟩ := call_head h ctx je r balances fe
  · exact ⟨m, by rw [step, hok]⟩
  · exact ⟨m, by rw [step, herr]⟩

/-! ### The invariant -/

theorem prunedAt_wellFormed (r : Root) : (f.prunedAt r).WellFormed := by
  unfold prunedAt
  split
  · exact h
  · split
    · exact h
    · exact h.pruned _

theorem step_wellFormed (op : Op) : (f.step op).store.WellFormed := by
  cases op with
  | processBlock slot r p g je fe =>
    rw [step_processBlock h]
    cases hr : f.store.nodesIndices.contains r with
    | true => simpa using h
    | false => exact h.inserted (TreeMap.contains_eq_false_iff.mp hr)
  | processAttestation vs r target => exact h
  | prune r =>
    rw [step_prune h]
    exact prunedAt_wellFormed h r
  | head ctx je r balances fe =>
    obtain ⟨m, hm⟩ := step_head h ctx je r balances fe
    rw [hm]
    exact (headed_wellFormed h je fe balances).congr rfl rfl

end

theorem new_wellFormed (je fe : Epoch) (r : Root) : (ForkChoice.new je fe r).store.WellFormed := by
  constructor <;> simp [ForkChoice.new]

theorem run_wellFormed (h : f.store.WellFormed) (ops : List Op) : (f.run ops).store.WellFormed :=
  Run.invariant_of_step (I := fun f : ForkChoice => f.store.WellFormed)
    (fun _ op hf => step_wellFormed hf op) h ops

theorem outcome_not_internal (h : f.store.WellFormed) (op : Op) {e : Err}
    (he : e ∈ Err.internal) : f.outcome op ≠ .error e := by
  cases op with
  | processBlock slot r p g je fe => simp [outcome, call_processBlock h]
  | processAttestation vs r target => exact fun hout => by cases hout
  | prune r =>
    rw [outcome, call_prune h]
    split <;> rename_i heq <;> split at heq <;> cases heq
    · simp
    · intro hout
      obtain rfl := Except.error.inj hout
      exact absurd he (by decide)
  | head ctx je r balances fe =>
    obtain ⟨m, ⟨root, hok⟩ | ⟨e', he', herr⟩⟩ := call_head h ctx je r balances fe
    · simp [outcome, hok]
    · rw [outcome, herr]
      intro hout
      obtain rfl := Except.error.inj hout
      exact he' he

/-- The representation invariant of the proto-array. In every state that
calls with arbitrary arguments can reach from `New`, the index map lists
exactly the positions of the roots, parents precede their children and the
links lead into the node's own subtree; so no call returns one of the internal
errors or accesses a slice out of range. -/
theorem representation_invariant (je fe : Epoch) (finalizedRoot : Root) (ops : List Op) :
    let f := (ForkChoice.new je fe finalizedRoot).run ops
    f.store.WellFormed ∧ (f.store.nodes.map Node.root).Nodup ∧
      ∀ op, ∀ e ∈ Err.internal, f.outcome op ≠ .error e := by
  have h : ((ForkChoice.new je fe finalizedRoot).run ops).store.WellFormed :=
    run_wellFormed (new_wellFormed je fe finalizedRoot) ops
  exact ⟨h, h.nodup_roots, fun op _ he => outcome_not_internal h op he⟩

end ForkChoice

end Vanguard.ProtoArray
