import Vanguard.Lib.Run
import Vanguard.Lib.Fallible
import Vanguard.Beacon.Types

/-!
The exit queue.

There is no queue in the state: each call computes the last exit epoch and the number of
validators in it from the whole registry. The largest exit epoch never decreases, since exit
epochs are only added, and this is what keeps the exits in order.
-/

namespace Vanguard.Beacon

open List BitVec Run Option

def exitQueueEpoch (state : BeaconState) : Epoch :=
  let exitEpochs := (state.validators.map (·.exitEpoch)).filter (· ≠ farFutureEpoch) ++
    [activationExitEpoch (currentEpoch state)]
  exitEpochs.foldl (fun queueEpoch i => if queueEpoch < i then i else queueEpoch) 0

def exitQueueChurn (state : BeaconState) (epoch : Epoch) : BitVec 64 :=
  BitVec.ofNat 64 (state.validators.countP (·.exitEpoch = epoch))

def nextExitEpoch (activeCount : BitVec 64) (state : BeaconState) : Epoch :=
  let queueEpoch := exitQueueEpoch state
  if validatorChurnLimit activeCount ≤ exitQueueChurn state queueEpoch then queueEpoch + 1
  else queueEpoch

def Validator.exiting (validator : Validator) (queueEpoch : Epoch) : Validator :=
  { validator with
    exitEpoch := queueEpoch
    withdrawableEpoch := queueEpoch + minValidatorWithdrawabilityDelay }

/-- `InitiateValidatorExit`; `activeCount` is what `ActiveValidatorCount` returns, from the
committee cache or by counting. -/
def initiateValidatorExit (activeCount : BitVec 64) (state : BeaconState) (idx : ValidatorIndex) :
    Except BeaconErr BeaconState := do
  let validator ← atIndex state.validators idx
  if validator.exitEpoch ≠ farFutureEpoch then return state
  else
    updateValidatorAtIndex state idx (validator.exiting (nextExitEpoch activeCount state))

/-! ### One call -/

variable {v : Validator}

section Call

variable {state : BeaconState} {activeCount : BitVec 64} {idx : ValidatorIndex}

theorem foldl_larger (l : List Epoch) (a : Epoch) :
    let r := l.foldl (fun m i => if m < i then i else m) a
    a ≤ r ∧ (∀ i ∈ l, i ≤ r) ∧ (r = a ∨ r ∈ l) := by
  induction l generalizing a with
  | nil => exact ⟨BitVec.le_refl a, by simp, .inl rfl⟩
  | cons b l ih =>
    obtain ⟨hle, hall, hmem⟩ := ih (if a < b then b else a)
    rw [foldl_cons]
    have hab : a ≤ (if a < b then b else a) ∧ b ≤ (if a < b then b else a) := by
      split
      · next h => exact ⟨BitVec.le_of_lt h, BitVec.le_refl b⟩
      · next h => exact ⟨BitVec.le_refl a, BitVec.not_lt.mp h⟩
    refine ⟨BitVec.le_trans hab.1 hle, ?_, ?_⟩
    · exact forall_mem_cons.mpr ⟨BitVec.le_trans hab.2 hle, hall⟩
    · rcases hmem with hmem | hmem
      · rw [hmem]
        split
        · exact .inr mem_cons_self
        · exact .inl rfl
      · exact .inr (mem_cons_of_mem b hmem)

theorem exitEpoch_le_exitQueueEpoch (hv : v ∈ state.validators)
    (hne : v.exitEpoch ≠ farFutureEpoch) : v.exitEpoch ≤ exitQueueEpoch state := by
  refine (foldl_larger _ 0).2.1 _ (mem_append_left _ (mem_filter.mpr ⟨?_, ?_⟩))
  · exact mem_map_of_mem hv
  · exact decide_eq_true hne

theorem toNat_activationExitEpoch (state : BeaconState) :
    (activationExitEpoch (currentEpoch state)).toNat = (currentEpoch state).toNat + 1 + 4 := by
  have hlt : (currentEpoch state).toNat < 2 ^ 59 := by
    rw [currentEpoch, toNat_slotToEpoch]
    have := state.slot.isLt
    omega
  rw [activationExitEpoch, toNat_add, toNat_add, show (1 : Epoch).toNat = 1 from rfl,
    show maxSeedLookahead.toNat = 4 from rfl]
  omega

theorem le_exitQueueEpoch (state : BeaconState) :
    (currentEpoch state).toNat + 1 + 4 ≤ (exitQueueEpoch state).toNat := by
  rw [← toNat_activationExitEpoch]
  exact le_def.mp ((foldl_larger _ 0).2.1 _ (mem_append_right _ mem_cons_self))

theorem exitQueueEpoch_ne_far (state : BeaconState) : exitQueueEpoch state ≠ farFutureEpoch := by
  intro hfar
  have hmem := (foldl_larger ((state.validators.map (·.exitEpoch)).filter (· ≠ farFutureEpoch) ++
    [activationExitEpoch (currentEpoch state)]) 0).2.2
  change exitQueueEpoch state = 0 ∨ exitQueueEpoch state ∈ _ at hmem
  rw [hfar] at hmem
  rcases hmem with hzero | hmem
  · exact absurd hzero (by decide)
  · rcases mem_append.mp hmem with hmem | hmem
    · exact absurd rfl (of_decide_eq_true (mem_filter.mp hmem).2)
    · have hlast := congrArg BitVec.toNat (mem_singleton.mp hmem)
      rw [toNat_activationExitEpoch, currentEpoch, toNat_slotToEpoch,
        show farFutureEpoch.toNat = 2 ^ 64 - 1 from rfl] at hlast
      have := state.slot.isLt
      omega

theorem nextExitEpoch_cases (activeCount : BitVec 64) (state : BeaconState) :
    (nextExitEpoch activeCount state = exitQueueEpoch state ∧
      exitQueueChurn state (exitQueueEpoch state) < validatorChurnLimit activeCount) ∨
    (nextExitEpoch activeCount state).toNat = (exitQueueEpoch state).toNat + 1 := by
  rw [nextExitEpoch]
  split
  · right
    have hlt : (exitQueueEpoch state).toNat < 2 ^ 64 - 1 :=
      lt_of_le_of_ne (Nat.le_sub_one_of_lt (exitQueueEpoch state).isLt)
        fun h => exitQueueEpoch_ne_far state (eq_of_toNat_eq h)
    rw [toNat_add, show (1 : Epoch).toNat = 1 from rfl]
    omega
  · next h => exact .inl ⟨rfl, BitVec.not_le.mp h⟩

theorem exitQueueEpoch_le_nextExitEpoch (activeCount : BitVec 64) (state : BeaconState) :
    exitQueueEpoch state ≤ nextExitEpoch activeCount state := by
  rcases nextExitEpoch_cases activeCount state with ⟨h, -⟩ | h
  · rw [h]
    exact BitVec.le_refl _
  · exact le_def.mpr (by omega)

theorem countP_nextExitEpoch_lt (hlen : state.validators.length < 2 ^ 64)
    (hne : nextExitEpoch activeCount state ≠ farFutureEpoch) :
    state.validators.countP (·.exitEpoch = nextExitEpoch activeCount state) <
      (validatorChurnLimit activeCount).toNat := by
  rcases nextExitEpoch_cases activeCount state with ⟨h, hchurn⟩ | h
  · rw [h]
    have hcount := countP_le_length (p := (·.exitEpoch = exitQueueEpoch state))
      (l := state.validators)
    have hlt := lt_def.mp hchurn
    rwa [exitQueueChurn, toNat_ofNat, Nat.mod_eq_of_lt (by omega)] at hlt
  · -- the epoch after the last one is not used
    have hnone : state.validators.countP (·.exitEpoch = nextExitEpoch activeCount state) = 0 := by
      refine countP_eq_zero.mpr fun v hv hcon => ?_
      have heq := of_decide_eq_true hcon
      have hle := le_def.mp (exitEpoch_le_exitQueueEpoch hv (heq ▸ hne))
      rw [heq] at hle
      omega
    rw [hnone]
    exact validatorChurnLimit_pos activeCount

theorem initiateValidatorExit_eq (hv : state.validators[idx.toNat]? = some v) :
    initiateValidatorExit activeCount state idx = .ok
      (if v.exitEpoch ≠ farFutureEpoch then state
      else { state with
        validators := state.validators.set idx.toNat
          (v.exiting (nextExitEpoch activeCount state)) }) := by
  have hlt := (List.getElem?_eq_some_iff.mp hv).1
  rw [initiateValidatorExit, atIndex, hv]
  show (if _ then _ else updateValidatorAtIndex _ _ _) = _
  rw [updateValidatorAtIndex, if_neg (not_le.mpr hlt)]
  split <;> rfl

end Call

/-! ### Runs -/

inductive ExitOp where
  /-- A call of `InitiateValidatorExit`. -/
  | exit (idx : ValidatorIndex) (activeCount : BitVec 64)
  /-- The state goes on to a later slot. -/
  | advance (slot : Slot)
  deriving DecidableEq, Repr

namespace ExitOp

/-- A call that fails leaves the state as it is. -/
def step (state : BeaconState) : ExitOp → BeaconState
  | .exit idx activeCount =>
    match initiateValidatorExit activeCount state idx with
    | .ok state' => state'
    | .error _ => state
  | .advance slot => { state with slot := slot }

/-- Slots only increase, and no epoch overflows. -/
def Ok (state : BeaconState) : ExitOp → Prop
  | .exit _ activeCount => (nextExitEpoch activeCount state).toNat + 256 < 2 ^ 64
  | .advance slot => state.slot ≤ slot

instance (state : BeaconState) : (op : ExitOp) → Decidable (Ok state op)
  | .exit _ activeCount =>
    inferInstanceAs (Decidable ((nextExitEpoch activeCount state).toNat + 256 < 2 ^ 64))
  | .advance slot => inferInstanceAs (Decidable (state.slot ≤ slot))

structure Assignment where
  index : ValidatorIndex
  exitEpoch : Epoch
  withdrawableEpoch : Epoch
  /-- The state before the call. -/
  before : BeaconState
  /-- The number of active validators in the call. -/
  activeCount : BitVec 64

/-- What a call assigns to a validator that had no exit epoch, as it is in the registry
afterwards. -/
def assignment (state : BeaconState) : ExitOp → Option Assignment
  | .exit idx activeCount =>
    (state.validators[idx.toNat]?).bind fun v =>
      if v.exitEpoch = farFutureEpoch then
        ((step state (.exit idx activeCount)).validators[idx.toNat]?).map fun v' =>
          ⟨idx, v'.exitEpoch, v'.withdrawableEpoch, state, activeCount⟩
      else none
  | .advance _ => none

def assignments : BeaconState → List ExitOp → List Assignment
  | _, [] => []
  | state, op :: ops => (assignment state op).toList ++ assignments (step state op) ops

variable {s : BeaconState} {op : ExitOp} {ops : List ExitOp} {a : Assignment}

theorem step_cases (s : BeaconState) (op : ExitOp) :
    (assignment s op = none ∧ (step s op).validators = s.validators) ∨
    ∃ idx activeCount v, op = .exit idx activeCount ∧ s.validators[idx.toNat]? = some v ∧
      v.exitEpoch = farFutureEpoch ∧
      (step s op).validators =
        s.validators.set idx.toNat (v.exiting (nextExitEpoch activeCount s)) ∧
      assignment s op = some ⟨idx, nextExitEpoch activeCount s,
        nextExitEpoch activeCount s + minValidatorWithdrawabilityDelay, s, activeCount⟩ := by
  cases op with
  | advance slot => exact .inl ⟨rfl, rfl⟩
  | exit idx activeCount =>
    cases hv : s.validators[idx.toNat]? with
    | none =>
      refine .inl ⟨by rw [assignment, hv]; rfl, ?_⟩
      rw [step, initiateValidatorExit, atIndex, hv]
      rfl
    | some v =>
      by_cases hfar : v.exitEpoch = farFutureEpoch
      · have hlt := (List.getElem?_eq_some_iff.mp hv).1
        have hstep : (step s (.exit idx activeCount)).validators =
            s.validators.set idx.toNat (v.exiting (nextExitEpoch activeCount s)) := by
          rw [step, initiateValidatorExit_eq hv, if_neg (not_not.mpr hfar)]
        refine .inr ⟨idx, activeCount, v, rfl, hv, hfar, hstep, ?_⟩
        rw [assignment, hv, Option.bind_some, if_pos hfar, hstep, getElem?_set_self hlt]
        rfl
      · refine .inl ⟨?_, ?_⟩
        · rw [assignment, hv, Option.bind_some, if_neg hfar]
        · rw [step, initiateValidatorExit_eq hv, if_pos hfar]

theorem step_keeps {i : ℕ} {v : Validator} (hv : s.validators[i]? = some v)
    (hne : v.exitEpoch ≠ farFutureEpoch) : (step s op).validators[i]? = some v := by
  obtain ⟨-, heq⟩ | ⟨idx, activeCount, w, rfl, hw, hfar, heq, -⟩ := step_cases s op
  · rw [heq, hv]
  · rw [heq, getElem?_set_ne, hv]
    rintro rfl
    obtain rfl := some.inj (hv.symm.trans hw)
    exact hne hfar

theorem run_keeps {i : ℕ} (hv : s.validators[i]? = some v)
    (hne : v.exitEpoch ≠ farFutureEpoch) (ops : List ExitOp) :
    (ops.foldl step s).validators[i]? = some v :=
  invariant_of_step (I := fun s : BeaconState => s.validators[i]? = some v)
    (fun _ _ h => step_keeps h hne) hv ops

theorem step_length (s : BeaconState) (op : ExitOp) :
    (step s op).validators.length = s.validators.length := by
  obtain ⟨-, heq⟩ | ⟨idx, activeCount, w, rfl, hw, hfar, heq, -⟩ := step_cases s op
  · rw [heq]
  · rw [heq, length_set]

theorem assignment_spec (hok : Ok s op)
    (ha : assignment s op = some a) :
    a.before = s ∧ a.exitEpoch = nextExitEpoch a.activeCount s ∧
      a.exitEpoch ≠ farFutureEpoch ∧
      (∃ v, s.validators[a.index.toNat]? = some v ∧ v.exitEpoch = farFutureEpoch ∧
        (step s op).validators[a.index.toNat]? = some (v.exiting a.exitEpoch)) ∧
      a.withdrawableEpoch = a.exitEpoch + minValidatorWithdrawabilityDelay ∧
      a.withdrawableEpoch.toNat = a.exitEpoch.toNat + 256 := by
  obtain ⟨hnone, -⟩ | ⟨idx, activeCount, v, rfl, hv, hfar, heq, hsome⟩ := step_cases s op
  · rw [hnone] at ha
    cases ha
  · have hok : (nextExitEpoch activeCount s).toNat + 256 < 2 ^ 64 := hok
    rw [hsome] at ha
    cases ha
    refine ⟨rfl, rfl, ?_, ⟨v, hv, hfar, ?_⟩, rfl, ?_⟩
    · intro h
      have h : nextExitEpoch activeCount s = farFutureEpoch := h
      rw [h] at hok
      exact absurd hok (by decide)
    · rw [heq, getElem?_set_self (List.getElem?_eq_some_iff.mp hv).1]
    · rw [toNat_add, show minValidatorWithdrawabilityDelay.toNat = 256 from rfl,
        Nat.mod_eq_of_lt hok]

theorem mem_assignments_cons :
    a ∈ assignments s (op :: ops) ↔
      assignment s op = some a ∨ a ∈ assignments (step s op) ops := by
  rw [assignments, mem_append, Option.mem_toList]

theorem far_of_mem_assignments (hok : Admits step Ok s ops) (ha : a ∈ assignments s ops) :
    ∃ v, s.validators[a.index.toNat]? = some v ∧ v.exitEpoch = farFutureEpoch := by
  induction ops generalizing s with
  | nil => cases ha
  | cons op ops ih =>
    rcases mem_assignments_cons.mp ha with ha | ha
    · obtain ⟨-, -, -, ⟨v, hv, hfar, -⟩, -⟩ := assignment_spec hok.1 ha
      exact ⟨v, hv, hfar⟩
    · obtain ⟨v', hv', hfar'⟩ := ih hok.2 ha
      have hlt := (List.getElem?_eq_some_iff.mp hv').1
      rw [step_length] at hlt
      refine ⟨s.validators[a.index.toNat], List.getElem?_eq_getElem hlt, ?_⟩
      by_contra hne
      have hkept := @step_keeps s op _ _ (List.getElem?_eq_getElem hlt) hne
      rw [hv'] at hkept
      exact hne (some.inj hkept ▸ hfar')

theorem le_of_mem_assignments (hok : Admits step Ok s ops) (ha : a ∈ assignments s ops)
    {i : ℕ} (hv : s.validators[i]? = some v)
    (hne : v.exitEpoch ≠ farFutureEpoch) : v.exitEpoch ≤ a.exitEpoch := by
  induction ops generalizing s with
  | nil => cases ha
  | cons op ops ih =>
    rcases mem_assignments_cons.mp ha with ha | ha
    · obtain ⟨-, hnext, -⟩ := assignment_spec hok.1 ha
      rw [hnext]
      exact BitVec.le_trans (exitEpoch_le_exitQueueEpoch (mem_of_getElem? hv) hne)
        (exitQueueEpoch_le_nextExitEpoch _ _)
    · exact ih hok.2 ha (step_keeps hv hne)

theorem assignments_spec (hlen : s.validators.length < 2 ^ 64) (hok : Admits step Ok s ops)
    (ha : a ∈ assignments s ops) :
    (currentEpoch a.before).toNat + 1 + 4 ≤ a.exitEpoch.toNat ∧
    a.before.validators.countP (·.exitEpoch = a.exitEpoch) <
      (validatorChurnLimit a.activeCount).toNat ∧
    a.withdrawableEpoch.toNat = a.exitEpoch.toNat + 256 ∧
    ∃ v, (ops.foldl step s).validators[a.index.toNat]? = some v ∧ v.exitEpoch = a.exitEpoch ∧
      v.withdrawableEpoch = a.withdrawableEpoch := by
  induction ops generalizing s with
  | nil => cases ha
  | cons op ops ih =>
    rcases mem_assignments_cons.mp ha with ha | ha
    · obtain ⟨hbefore, hnext, hne, ⟨v, -, -, hv⟩, hdelay, hwithdrawable⟩ := assignment_spec hok.1 ha
      refine ⟨?_, ?_, hwithdrawable, v.exiting a.exitEpoch, run_keeps hv hne ops, rfl, ?_⟩
      · rw [hbefore, hnext]
        exact (le_exitQueueEpoch s).trans
          (le_def.mp (exitQueueEpoch_le_nextExitEpoch a.activeCount s))
      · rw [hnext] at hne
        rw [hbefore, hnext]
        exact countP_nextExitEpoch_lt hlen hne
      · exact hdelay.symm
    · exact ih (by rwa [step_length]) hok.2 ha

theorem assignments_pairwise (hok : Admits step Ok s ops) :
    (assignments s ops).Pairwise fun a b => a.index ≠ b.index ∧ a.exitEpoch ≤ b.exitEpoch := by
  induction ops generalizing s with
  | nil => exact List.Pairwise.nil
  | cons op ops ih =>
    rw [assignments]
    cases ha : assignment s op with
    | none => exact ih hok.2
    | some a =>
      refine pairwise_cons.mpr ⟨fun b hb => ?_, ih hok.2⟩
      obtain ⟨-, -, hne, ⟨v, -, -, hv⟩, -⟩ := assignment_spec hok.1 ha
      refine ⟨fun heq => ?_, le_of_mem_assignments hok.2 hb hv hne⟩
      obtain ⟨w, hw, hfar⟩ := far_of_mem_assignments hok.2 hb
      rw [← heq, hv] at hw
      obtain rfl := some.inj hw
      exact hne hfar

/-- Exits are first in, first out, and at most the churn limit in an epoch. -/
theorem exit_queue_fifo (s : BeaconState) (hlen : s.validators.length < 2 ^ 64)
    (ops : List ExitOp) (hok : Admits step Ok s ops) :
    (assignments s ops).Pairwise (fun a b => a.index ≠ b.index ∧ a.exitEpoch ≤ b.exitEpoch) ∧
    (∀ a ∈ assignments s ops,
      (currentEpoch a.before).toNat + 1 + 4 ≤ a.exitEpoch.toNat ∧
      a.before.validators.countP (·.exitEpoch = a.exitEpoch) <
        (validatorChurnLimit a.activeCount).toNat ∧
      a.withdrawableEpoch.toNat = a.exitEpoch.toNat + 256 ∧
      ∃ v, (ops.foldl step s).validators[a.index.toNat]? = some v ∧
        v.exitEpoch = a.exitEpoch ∧ v.withdrawableEpoch = a.withdrawableEpoch) ∧
    ∀ (i : ℕ) (v : Validator), s.validators[i]? = some v → v.exitEpoch ≠ farFutureEpoch →
      (ops.foldl step s).validators[i]? = some v :=
  ⟨assignments_pairwise hok, fun _ ha => assignments_spec hlen hok ha,
    fun _ _ hv hne => run_keeps hv hne ops⟩

/-- Six validators of which one after the other exits. -/
def sixValidators : BeaconState :=
  { (default : BeaconState) with
    slot := 70
    validators := List.replicate 6 { (default : Validator) with exitEpoch := farFutureEpoch } }

def sixExits : List ExitOp :=
  [.exit 3 6, .exit 1 6, .exit 0 6, .exit 3 6, .exit 9 6, .exit 5 6, .exit 2 6, .advance 200,
    .exit 4 1]

theorem six_exits_in_order :
    (assignments sixValidators sixExits).map (fun a => (a.index, a.exitEpoch)) =
      [(3, 7), (1, 7), (0, 7), (5, 7), (2, 8), (4, 11)] ∧
    (assignments sixValidators sixExits).Pairwise
      (fun a b => a.index ≠ b.index ∧ a.exitEpoch ≤ b.exitEpoch) :=
  ⟨by decide +kernel, (exit_queue_fifo sixValidators (by decide) sixExits (by decide +kernel)).1⟩

end ExitOp

end Vanguard.Beacon
