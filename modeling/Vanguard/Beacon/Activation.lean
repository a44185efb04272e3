import Vanguard.Beacon.ExitQueue
import Vanguard.Lib.Slices

/-!
The activation queue.

Validators that can be activated are looked for in the whole registry and sorted at each call.
What matters of a validator here is only when it became eligible and when it is activated.
Ejections in the same loop change neither.
-/

namespace Vanguard.Beacon

open List BitVec Option Nat Prod Run

def isEligibleForActivationQueue (validator : Validator) : Bool :=
  decide (validator.activationEligibilityEpoch = farFutureEpoch ∧
    validator.effectiveBalance = maxEffectiveBalance)

def isEligibleForActivation (finalizedEpoch : Epoch) (validator : Validator) : Bool :=
  decide (validator.activationEligibilityEpoch ≤ finalizedEpoch ∧
    validator.activationEpoch = farFutureEpoch)

/-- The validator, with an eligibility epoch if it is to be put into the queue. -/
def becomeEligible (epoch : Epoch) (validator : Validator) : Validator :=
  if isEligibleForActivationQueue validator then
    { validator with activationEligibilityEpoch := epoch }
  else validator

/-- The validator's eligibility epoch is written to the state. -/
def enqueueValidator (epoch : Epoch) (state : BeaconState) (idx : ValidatorIndex)
    (validator : Validator) : Except BeaconErr BeaconState :=
  if isEligibleForActivationQueue validator then
    updateValidatorAtIndex state idx (becomeEligible epoch validator)
  else .ok state

/-- A round of the first loop of `ProcessRegistryUpdates`: eligibility, then ejection. -/
def updateRegistry (activeCount : BitVec 64) (currentEpoch : Epoch) (state : BeaconState)
    (entry : Validator × ℕ) : Except BeaconErr BeaconState := do
  let idx := BitVec.ofNat 64 entry.2
  let validator := becomeEligible (currentEpoch + 1) entry.1
  let state ← enqueueValidator (currentEpoch + 1) state idx entry.1
  if isActiveValidator validator currentEpoch ∧ validator.effectiveBalance ≤ ejectionBalance then
    errorsWrap (initiateValidatorExit activeCount state idx)
      s!"could not initiate exit for validator {entry.2}"
  else return state

/-- `sortableIndices.Less` -/
def lessIndices (eligibility : ValidatorIndex → Epoch) (i j : ValidatorIndex) : Bool :=
  if eligibility i = eligibility j then decide (i < j) else decide (eligibility i < eligibility j)

def eligibilityAt (vals : List Validator) (i : ValidatorIndex) : Epoch :=
  match vals[i.toNat]? with
  | some validator => validator.activationEligibilityEpoch
  | none => farFutureEpoch

/-- The validators that can be activated, sorted. All indices are different, so there is only
one way to sort them. -/
def activationQueue (finalizedEpoch : Epoch) (vals : List Validator) : List ValidatorIndex :=
  (((vals.zipIdx.filter fun entry => isEligibleForActivation finalizedEpoch entry.1).map
    fun entry => BitVec.ofNat 64 entry.2)).insertionSort
      fun i j => lessIndices (eligibilityAt vals) j i = false

/-- A round of the last loop of `ProcessRegistryUpdates`. -/
def activate (epoch : Epoch) (state : BeaconState) (index : ValidatorIndex) :
    Except BeaconErr BeaconState := do
  let validator ← atIndex state.validators index
  updateValidatorAtIndex state index { validator with activationEpoch := epoch }

/-- The part of the queue that the churn limit lets through. -/
def withinChurn (activeCount : BitVec 64) (activationQ : List ValidatorIndex) :
    List ValidatorIndex :=
  let limit := BitVec.ofNat 64 activationQ.length
  let churnLimit := validatorChurnLimit activeCount
  activationQ.take (if churnLimit < limit then churnLimit else limit).toNat

/-- `ProcessRegistryUpdates`; `activeCount` is what `ActiveValidatorCount` returns for the
current epoch. -/
def processRegistryUpdates (activeCount : BitVec 64) (state : BeaconState) :
    Except BeaconErr BeaconState := do
  let epoch := currentEpoch state
  let vals := state.validators
  let state ← vals.zipIdx.foldlM (updateRegistry activeCount epoch) state
  let activationQ := activationQueue state.finalizedCheckpoint.epoch
    (vals.map (becomeEligible (epoch + 1)))
  (withinChurn activeCount activationQ).foldlM (activate (activationExitEpoch epoch)) state

/-! ### One call -/

/-- When a validator became eligible, and when it is activated. -/
def Validator.timing (v : Validator) : Epoch × Epoch :=
  (v.activationEligibilityEpoch, v.activationEpoch)

theorem becomeEligible_activationEpoch (epoch : Epoch) (v : Validator) :
    (becomeEligible epoch v).activationEpoch = v.activationEpoch := by
  rw [becomeEligible]
  split <;> rfl

theorem becomeEligible_cases (epoch : Epoch) (v : Validator) :
    (becomeEligible epoch v).activationEligibilityEpoch = v.activationEligibilityEpoch ∨
      v.activationEligibilityEpoch = farFutureEpoch ∧
        (becomeEligible epoch v).activationEligibilityEpoch = epoch := by
  rw [becomeEligible]
  split
  · next h => exact .inr ⟨(of_decide_eq_true h).1, rfl⟩
  · exact .inl rfl

/-- The same as far as activation is concerned. -/
structure SameTiming (timing : List (Epoch × Epoch)) (s s' : BeaconState) : Prop where
  validators : s'.validators.map (·.timing) = timing
  slot : s'.slot = s.slot
  finalized : s'.finalizedCheckpoint = s.finalizedCheckpoint

section Call

variable {s : BeaconState} {activeCount : BitVec 64} {epoch : Epoch} {v : Validator}
  {idx : ValidatorIndex}

theorem updateValidatorAtIndex_spec (hidx : idx.toNat < s.validators.length) (v : Validator) :
    ∃ s', updateValidatorAtIndex s idx v = .ok s' ∧
      SameTiming ((s.validators.map (·.timing)).set idx.toNat v.timing) s s' := by
  rw [updateValidatorAtIndex, if_neg (not_le.mpr hidx)]
  exact ⟨_, rfl, map_set, rfl, rfl⟩

theorem initiateValidatorExit_timing
    (hidx : idx.toNat < s.validators.length) :
    ∃ s', initiateValidatorExit activeCount s idx = .ok s' ∧
      SameTiming (s.validators.map (·.timing)) s s' := by
  have hv := List.getElem?_eq_getElem hidx
  rw [initiateValidatorExit_eq hv]
  split
  · exact ⟨s, rfl, rfl, rfl, rfl⟩
  · refine ⟨_, rfl, ?_, rfl, rfl⟩
    rw [map_set]
    exact Slices.set_self (by rw [getElem?_map, hv]; rfl)

theorem updateRegistry_spec {i : ℕ} (hi : i < s.validators.length)
    (hlen : s.validators.length < 2 ^ 64)
    (hv : (s.validators.map (·.timing))[i]? = some v.timing) :
    ∃ s', updateRegistry activeCount epoch s (v, i) = .ok s' ∧
      SameTiming ((s.validators.map (·.timing)).set i (becomeEligible (epoch + 1) v).timing)
        s s' := by
  have hidx : (BitVec.ofNat 64 i).toNat = i := by
    rw [toNat_ofNat, mod_eq_of_lt (by omega)]
  have hupdate : ∃ s', enqueueValidator (epoch + 1) s (BitVec.ofNat 64 i) v = .ok s' ∧
      SameTiming ((s.validators.map (·.timing)).set i (becomeEligible (epoch + 1) v).timing)
        s s' := by
    by_cases h : isEligibleForActivationQueue v
    · obtain ⟨s', hs', hsame⟩ := updateValidatorAtIndex_spec (hidx.symm ▸ hi)
        (becomeEligible (epoch + 1) v)
      rw [hidx] at hsame
      exact ⟨s', (if_pos h).trans hs', hsame⟩
    · refine ⟨s, if_neg h, ?_, rfl, rfl⟩
      rw [becomeEligible, if_neg h, Slices.set_self hv]
  obtain ⟨s₁, hs₁, hsame⟩ := hupdate
  rw [updateRegistry]
  simp only [hs₁, bind, Except.bind]
  split
  · have hlen₁ : i < s₁.validators.length := by
      have := congrArg List.length hsame.validators
      rw [length_set, length_map, length_map] at this
      omega
    obtain ⟨s₂, hs₂, hsame₂⟩ := initiateValidatorExit_timing (hidx.symm ▸ hlen₁)
    exact ⟨s₂, errorsWrap_eq_ok.mpr hs₂, hsame₂.validators.trans hsame.validators,
      hsame₂.slot.trans hsame.slot, hsame₂.finalized.trans hsame.finalized⟩
  · exact ⟨s₁, rfl, hsame⟩

theorem SameTiming.length_eq {timing : List (Epoch × Epoch)} {s s' : BeaconState}
    (h : SameTiming timing s s') : s'.validators.length = timing.length := by
  rw [← h.validators, length_map]

theorem foldlM_updateRegistry {s₀ : BeaconState} {done todo : List Validator}
    (hlen : (done ++ todo).length < 2 ^ 64)
    (hs : SameTiming ((done.map (becomeEligible (epoch + 1)) ++ todo).map (·.timing)) s₀ s) :
    ∃ s', (todo.zipIdx done.length).foldlM (updateRegistry activeCount epoch) s = .ok s' ∧
      SameTiming (((done ++ todo).map (becomeEligible (epoch + 1))).map (·.timing)) s₀ s' := by
  induction todo generalizing done s with
  | nil => exact ⟨s, rfl, by simpa using hs⟩
  | cons v todo ih =>
    have hlen' := hs.length_eq
    rw [length_map, length_append, length_map, length_cons] at hlen'
    rw [length_append, length_cons] at hlen
    obtain ⟨s₁, hs₁, hsame⟩ := @updateRegistry_spec s activeCount epoch v done.length
      (by omega) (by omega) (by rw [hs.validators]; simp)
    rw [hs.validators] at hsame
    have hnext : SameTiming (((done ++ [v]).map (becomeEligible (epoch + 1)) ++ todo).map
        (·.timing)) s₀ s₁ := by
      refine ⟨?_, hsame.slot.trans hs.slot, hsame.finalized.trans hs.finalized⟩
      rw [hsame.validators]
      simp
    obtain ⟨s', hs', hend⟩ := ih (by simp; omega) hnext
    refine ⟨s', ?_, by simpa using hend⟩
    rw [length_append, length_singleton] at hs'
    rw [zipIdx_cons, foldlM_cons, hs₁]
    exact hs'

theorem foldlM_activate (l : List ValidatorIndex)
    (hl : ∀ x ∈ l, x.toNat < s.validators.length) :
    ∃ s', l.foldlM (activate epoch) s = .ok s' ∧ s'.slot = s.slot ∧
      s'.validators.length = s.validators.length ∧
      ∀ i, (s'.validators.map (·.timing))[i]? = (s.validators.map (·.timing))[i]?.map fun t =>
        if i ∈ l.map BitVec.toNat then (t.1, epoch) else t := by
  induction l generalizing s with
  | nil => exact ⟨s, rfl, rfl, rfl, fun i => by simp [Function.comp_def]⟩
  | cons x l ih =>
    obtain ⟨hx, hl⟩ := forall_mem_cons.mp hl
    have hv := List.getElem?_eq_getElem hx
    obtain ⟨s₁, hs₁, hsame⟩ := updateValidatorAtIndex_spec hx
      { s.validators[x.toNat] with activationEpoch := epoch }
    have hlen : s₁.validators.length = s.validators.length := by
      rw [hsame.length_eq, length_set, length_map]
    obtain ⟨s', hs', hslot, hlen', htiming⟩ := @ih s₁ (by rwa [hlen])
    refine ⟨s', ?_, hslot.trans hsame.slot, hlen'.trans hlen, fun i => ?_⟩
    · rw [foldlM_cons, activate, atIndex, hv]
      simp only [bind, Except.bind, hs₁]
      exact hs'
    · rw [htiming, hsame.validators]
      by_cases hi : x.toNat = i
      · subst hi
        rw [getElem?_set_self (by simpa using hx), getElem?_map, hv]
        simp [Validator.timing]
      · rw [getElem?_set_ne hi]
        simp [Ne.symm hi]

end Call

/-! ### The queue -/

variable {x : ValidatorIndex}

section Queue

variable {eligibility : ValidatorIndex → Epoch} {vals : List Validator} {finalizedEpoch : Epoch}
  {i j : ValidatorIndex}

theorem lessIndices_iff :
    lessIndices eligibility i j = true ↔ (eligibility i).toNat < (eligibility j).toNat ∨
      (eligibility i).toNat = (eligibility j).toNat ∧ i.toNat < j.toNat := by
  rw [lessIndices]
  split
  · next h => simp [h, lt_def]
  · next h =>
    have hne : (eligibility i).toNat ≠ (eligibility j).toNat := fun hcon =>
      h (eq_of_toNat_eq hcon)
    simp [hne, lt_def]

theorem lessIndices_eq_false_iff :
    lessIndices eligibility j i = false ↔ (eligibility i).toNat < (eligibility j).toNat ∨
      (eligibility i).toNat = (eligibility j).toNat ∧ i.toNat ≤ j.toNat := by
  rw [← Bool.not_eq_true, lessIndices_iff]
  omega

instance : Std.Total fun i j => lessIndices eligibility j i = false where
  total i j := by
    rw [lessIndices_eq_false_iff, lessIndices_eq_false_iff]
    omega

instance : IsTrans ValidatorIndex fun i j => lessIndices eligibility j i = false where
  trans i j k := by
    rw [lessIndices_eq_false_iff, lessIndices_eq_false_iff, lessIndices_eq_false_iff]
    omega

theorem mem_activationQueue (hlen : vals.length < 2 ^ 64) :
    x ∈ activationQueue finalizedEpoch vals ↔
      ∃ v, vals[x.toNat]? = some v ∧ isEligibleForActivation finalizedEpoch v = true := by
  rw [activationQueue, mem_insertionSort]
  constructor
  · intro hx
    obtain ⟨⟨v, i⟩, hmem, rfl⟩ := List.mem_map.mp hx
    obtain ⟨hmem, helig⟩ := mem_filter.mp hmem
    have hv := mem_zipIdx_iff_getElem?.mp hmem
    have hlt := (List.getElem?_eq_some_iff.mp hv).1
    refine ⟨v, ?_, helig⟩
    rw [toNat_ofNat, mod_eq_of_lt (by omega)]
    exact hv
  · rintro ⟨v, hv, helig⟩
    refine List.mem_map.mpr ⟨(v, x.toNat), mem_filter.mpr ⟨?_, helig⟩, ?_⟩
    · exact mem_zipIdx_iff_getElem?.mpr hv
    · exact ofNat_toNat 64 x

theorem withinChurn_eq_take (activeCount : BitVec 64) (queue : List ValidatorIndex) :
    ∃ k ≤ (validatorChurnLimit activeCount).toNat,
      withinChurn activeCount queue = queue.take k := by
  refine ⟨_, ?_, rfl⟩
  split
  · exact Nat.le_refl _
  · next h => exact BitVec.le_def.mp (BitVec.not_lt.mp h)

theorem mem_withinChurn_of_less {activeCount : BitVec 64} {y : ValidatorIndex}
    (hx : x ∈ withinChurn activeCount (activationQueue finalizedEpoch vals))
    (hy : y ∈ activationQueue finalizedEpoch vals)
    (hless : lessIndices (eligibilityAt vals) y x = true) :
    y ∈ withinChurn activeCount (activationQueue finalizedEpoch vals) := by
  obtain ⟨k, -, hk⟩ := withinChurn_eq_take activeCount (activationQueue finalizedEpoch vals)
  rw [hk] at hx ⊢
  rw [← take_append_drop k (activationQueue finalizedEpoch vals), mem_append] at hy
  rcases hy with hy | hy
  · exact hy
  · have hsorted := pairwise_insertionSort (fun i j => lessIndices (eligibilityAt vals) j i = false)
      ((vals.zipIdx.filter fun entry => isEligibleForActivation finalizedEpoch entry.1).map
        fun entry => BitVec.ofNat 64 entry.2)
    change (activationQueue finalizedEpoch vals).Pairwise _ at hsorted
    rw [← take_append_drop k (activationQueue finalizedEpoch vals)] at hsorted
    have hcon := (pairwise_append.mp hsorted).2.2 x hx y hy
    rw [hless] at hcon
    cases hcon

end Queue

/-! ### The whole call -/

section Whole

variable {s : BeaconState} {activeCount : BitVec 64}

def dequeued (activeCount : BitVec 64) (s : BeaconState) : List ValidatorIndex :=
  withinChurn activeCount (activationQueue s.finalizedCheckpoint.epoch
    (s.validators.map (becomeEligible (currentEpoch s + 1))))

theorem mem_queue_iff (hlen : s.validators.length < 2 ^ 64) :
    x ∈ activationQueue s.finalizedCheckpoint.epoch
        (s.validators.map (becomeEligible (currentEpoch s + 1))) ↔
      ∃ v, s.validators[x.toNat]? = some v ∧
        (becomeEligible (currentEpoch s + 1) v).activationEligibilityEpoch ≤
          s.finalizedCheckpoint.epoch ∧ v.activationEpoch = farFutureEpoch := by
  rw [mem_activationQueue (by rwa [length_map])]
  constructor
  · rintro ⟨v', hv', helig⟩
    rw [getElem?_map, map_eq_some_iff] at hv'
    obtain ⟨v, hv, rfl⟩ := hv'
    have helig := of_decide_eq_true helig
    rw [becomeEligible_activationEpoch] at helig
    exact ⟨v, hv, helig⟩
  · rintro ⟨v, hv, helig, hfar⟩
    refine ⟨becomeEligible (currentEpoch s + 1) v, ?_, decide_eq_true ⟨helig, ?_⟩⟩
    · rw [getElem?_map, hv, map_some]
    · rw [becomeEligible_activationEpoch, hfar]

theorem mem_queue_of_mem_dequeued (hx : x ∈ dequeued activeCount s) :
    x ∈ activationQueue s.finalizedCheckpoint.epoch
      (s.validators.map (becomeEligible (currentEpoch s + 1))) := by
  obtain ⟨k, -, hk⟩ := withinChurn_eq_take activeCount (activationQueue
    s.finalizedCheckpoint.epoch (s.validators.map (becomeEligible (currentEpoch s + 1))))
  rw [dequeued, hk] at hx
  exact mem_of_mem_take hx

theorem length_dequeued_le (activeCount : BitVec 64) (s : BeaconState) :
    (dequeued activeCount s).length ≤ (validatorChurnLimit activeCount).toNat := by
  obtain ⟨k, hle, hk⟩ := withinChurn_eq_take activeCount (activationQueue
    s.finalizedCheckpoint.epoch (s.validators.map (becomeEligible (currentEpoch s + 1))))
  rw [dequeued, hk]
  exact (length_take_le k _).trans hle

/-- The index is one of those that the call activates. -/
def Dequeued (activeCount : BitVec 64) (s : BeaconState) (i : ℕ) : Prop :=
  i ∈ (dequeued activeCount s).map BitVec.toNat

instance (activeCount : BitVec 64) (s : BeaconState) (i : ℕ) :
    Decidable (Dequeued activeCount s i) :=
  inferInstanceAs (Decidable (i ∈ (dequeued activeCount s).map BitVec.toNat))

theorem Dequeued.spec (hlen : s.validators.length < 2 ^ 64) {i : ℕ} {v : Validator}
    (hi : Dequeued activeCount s i) (hv : s.validators[i]? = some v) :
    v.activationEpoch = farFutureEpoch ∧
      (becomeEligible (currentEpoch s + 1) v).activationEligibilityEpoch ≤
        s.finalizedCheckpoint.epoch := by
  obtain ⟨x, hx, rfl⟩ := List.mem_map.mp hi
  obtain ⟨v', hv', helig, hfar⟩ := (mem_queue_iff hlen).mp (mem_queue_of_mem_dequeued hx)
  obtain rfl := some.inj (hv.symm.trans hv')
  exact ⟨hfar, helig⟩

theorem eligibilityAt_eq {v : Validator} (hv : s.validators[x.toNat]? = some v) :
    eligibilityAt (s.validators.map (becomeEligible (currentEpoch s + 1))) x =
      (becomeEligible (currentEpoch s + 1) v).activationEligibilityEpoch := by
  rw [eligibilityAt, getElem?_map, hv, map_some]

theorem Dequeued.of_less (hlen : s.validators.length < 2 ^ 64) {i j : ℕ} {v w : Validator}
    (hj : Dequeued activeCount s j) (hv : s.validators[i]? = some v)
    (hw : s.validators[j]? = some w) (hfar : v.activationEpoch = farFutureEpoch)
    (hless : (becomeEligible (currentEpoch s + 1) v).activationEligibilityEpoch.toNat <
        (becomeEligible (currentEpoch s + 1) w).activationEligibilityEpoch.toNat ∨
      (becomeEligible (currentEpoch s + 1) v).activationEligibilityEpoch.toNat =
        (becomeEligible (currentEpoch s + 1) w).activationEligibilityEpoch.toNat ∧ i < j) :
    Dequeued activeCount s i := by
  have helig := BitVec.le_def.mp (hj.spec hlen hw).2
  obtain ⟨y, hy, rfl⟩ := List.mem_map.mp hj
  have hi := (List.getElem?_eq_some_iff.mp hv).1
  have hx : (BitVec.ofNat 64 i).toNat = i := by
    rw [toNat_ofNat, mod_eq_of_lt (by omega)]
  rw [← hx] at hv
  refine List.mem_map.mpr ⟨BitVec.ofNat 64 i, mem_withinChurn_of_less hy ?_ ?_, hx⟩
  · exact (mem_queue_iff hlen).mpr ⟨v, hv, BitVec.le_def.mpr (by omega), hfar⟩
  · rw [lessIndices_iff, eligibilityAt_eq hv, eligibilityAt_eq hw, hx]
    exact hless

structure Updated (activeCount : BitVec 64) (s : BeaconState) (i : ℕ) (v v' : Validator) :
    Prop where
  eligibility : v'.activationEligibilityEpoch =
    (becomeEligible (currentEpoch s + 1) v).activationEligibilityEpoch
  activation : v'.activationEpoch =
    if Dequeued activeCount s i then activationExitEpoch (currentEpoch s) else v.activationEpoch

theorem processRegistryUpdates_spec (activeCount : BitVec 64)
    (hlen : s.validators.length < 2 ^ 64) :
    ∃ s', processRegistryUpdates activeCount s = .ok s' ∧ s'.slot = s.slot ∧
      s'.validators.length = s.validators.length ∧
      ∀ (i : ℕ) (v v' : Validator), s.validators[i]? = some v → s'.validators[i]? = some v' →
        Updated activeCount s i v v' := by
  obtain ⟨s₁, hs₁, hsame⟩ := @foldlM_updateRegistry s activeCount (currentEpoch s) s [] s.validators
    hlen ⟨rfl, rfl, rfl⟩
  have hlen₁ := hsame.length_eq
  rw [length_map, length_map, nil_append] at hlen₁
  have hrange : ∀ x ∈ dequeued activeCount s, x.toNat < s₁.validators.length := by
    intro x hx
    obtain ⟨v, hv, -, -⟩ := (mem_queue_iff hlen).mp (mem_queue_of_mem_dequeued hx)
    rw [hlen₁]
    exact (List.getElem?_eq_some_iff.mp hv).1
  obtain ⟨s₂, hs₂, hslot, hlen₂, htiming⟩ := @foldlM_activate s₁
    (activationExitEpoch (currentEpoch s)) (dequeued activeCount s) hrange
  refine ⟨s₂, ?_, hslot.trans hsame.slot, hlen₂.trans hlen₁, fun i v v' hv hv' => ?_⟩
  · rw [processRegistryUpdates]
    refine Fallible.bind_eq_ok.mpr ⟨s₁, hs₁, ?_⟩
    rw [hsame.finalized]
    exact hs₂
  · have hi := htiming i
    rw [hsame.validators, nil_append, getElem?_map, getElem?_map, getElem?_map,
      hv, hv', map_some, map_some, map_some, map_some] at hi
    have heq := some.inj hi
    refine ⟨?_, ?_⟩
    · have := congrArg fst heq
      rw [apply_ite fst, ite_self] at this
      exact this
    · have := congrArg snd heq
      rw [apply_ite snd] at this
      exact this.trans (if_congr Iff.rfl rfl (becomeEligible_activationEpoch _ v))

end Whole

/-! ### Runs -/

/-- An epoch of a run: the state at its end, after the deposits and other operations, and the
number of active validators. -/
structure RegistryEpoch where
  before : BeaconState
  activeCount : BitVec 64

namespace RegistryEpoch

/-- The registry is updated at the end of the epoch, and the state goes on to the next slot. -/
def step (_ : BeaconState) (e : RegistryEpoch) : BeaconState :=
  match processRegistryUpdates e.activeCount e.before with
  | .ok state => { state with slot := state.slot + 1 }
  | .error _ => e.before

/-- What may happen between two updates: validators are appended, as deposits do, and the old
ones keep their eligibility and activation epochs. -/
structure Ok (s : BeaconState) (e : RegistryEpoch) : Prop where
  slot : s.slot ≤ e.before.slot
  /-- The update is made in the last slot of the epoch. -/
  lastSlot : (e.before.slot.toNat + 1) % 32 = 0
  noOverflow : e.before.slot.toNat + 1 < 2 ^ 64
  length : e.before.validators.length < 2 ^ 64
  finalized : e.before.finalizedCheckpoint.epoch ≠ farFutureEpoch
  old : ∀ (i : ℕ) (v : Validator), s.validators[i]? = some v →
    ∃ v', e.before.validators[i]? = some v' ∧ v'.timing = v.timing
  new : ∀ (i : ℕ) (v' : Validator), s.validators[i]? = none →
    e.before.validators[i]? = some v' → v'.timing = (farFutureEpoch, farFutureEpoch)

/-- The validator is not there yet or has none of the two epochs, so both are set by updates. -/
def Fresh (s : BeaconState) (i : ℕ) : Prop :=
  ∀ v, s.validators[i]? = some v → v.timing = (farFutureEpoch, farFutureEpoch)

/-- The order of the queue. -/
def Precedes (i : ℕ) (v : Validator) (j : ℕ) (w : Validator) : Prop :=
  v.activationEligibilityEpoch.toNat < w.activationEligibilityEpoch.toNat ∨
    v.activationEligibilityEpoch = w.activationEligibilityEpoch ∧ i < j

theorem Precedes.far {i j : ℕ} {v w : Validator} (h : Precedes i v j w)
    (hv : v.activationEligibilityEpoch = farFutureEpoch) :
    w.activationEligibilityEpoch = farFutureEpoch := by
  rcases h with h | ⟨h, -⟩
  · rw [hv, show farFutureEpoch.toNat = 2 ^ 64 - 1 from rfl] at h
    have := w.activationEligibilityEpoch.isLt
    omega
  · exact h.symm.trans hv

structure Inv (s₀ s : BeaconState) : Prop where
  activated_eligible : ∀ i v, Fresh s₀ i → s.validators[i]? = some v →
    v.activationEligibilityEpoch = farFutureEpoch → v.activationEpoch = farFutureEpoch
  eligibility_le : ∀ i v, Fresh s₀ i → s.validators[i]? = some v →
    v.activationEligibilityEpoch ≠ farFutureEpoch →
    v.activationEligibilityEpoch.toNat ≤ (currentEpoch s).toNat
  activation_le : ∀ i v, Fresh s₀ i → s.validators[i]? = some v →
    v.activationEpoch ≠ farFutureEpoch → v.activationEpoch.toNat ≤ (currentEpoch s).toNat + 4
  order : ∀ i v j w, Fresh s₀ i → Fresh s₀ j → s.validators[i]? = some v →
    s.validators[j]? = some w → Precedes i v j w → w.activationEpoch ≠ farFutureEpoch →
    v.activationEpoch ≠ farFutureEpoch ∧ v.activationEpoch ≤ w.activationEpoch

variable {s₀ s : BeaconState} {e : RegistryEpoch}

theorem Inv.initial (s₀ : BeaconState) : Inv s₀ s₀ := by
  have helig : ∀ i v, Fresh s₀ i → s₀.validators[i]? = some v →
      v.activationEligibilityEpoch = farFutureEpoch := fun i v hi hv =>
    congrArg fst (hi v hv)
  have hact : ∀ i v, Fresh s₀ i → s₀.validators[i]? = some v →
      v.activationEpoch = farFutureEpoch := fun i v hi hv => congrArg snd (hi v hv)
  exact ⟨fun i v hi hv _ => hact i v hi hv, fun i v hi hv hne => absurd (helig i v hi hv) hne,
    fun i v hi hv hne => absurd (hact i v hi hv) hne,
    fun i v j w _ hj _ hw _ hne => absurd (hact j w hj hw) hne⟩

theorem Inv.between (hinv : Inv s₀ s) (hok : Ok s e) : Inv s₀ e.before := by
  have hepoch : (currentEpoch s).toNat ≤ (currentEpoch e.before).toNat := by
    rw [currentEpoch, currentEpoch, toNat_slotToEpoch, toNat_slotToEpoch]
    exact Nat.div_le_div_right (BitVec.le_def.mp hok.slot)
  -- a validator has the epochs from before, or none
  have hcases : ∀ (i : ℕ) (v : Validator), e.before.validators[i]? = some v →
      (∃ v₀ : Validator, s.validators[i]? = some v₀ ∧
        v.activationEligibilityEpoch = v₀.activationEligibilityEpoch ∧
        v.activationEpoch = v₀.activationEpoch) ∨
      v.activationEligibilityEpoch = farFutureEpoch ∧ v.activationEpoch = farFutureEpoch := by
    intro i v hv
    cases hv₀ : s.validators[i]? with
    | none =>
      have h := hok.new i v hv₀ hv
      exact .inr ⟨congrArg fst h, congrArg snd h⟩
    | some v₀ =>
      obtain ⟨v', hv', h⟩ := hok.old i v₀ hv₀
      obtain rfl := some.inj (hv.symm.trans hv')
      exact .inl ⟨v₀, rfl, congrArg fst h, congrArg snd h⟩
  refine ⟨?_, ?_, ?_, ?_⟩
  · intro i v hi hv hfar
    rcases hcases i v hv with ⟨v₀, hv₀, helig, hact⟩ | ⟨-, hact⟩
    · rw [hact]
      exact hinv.activated_eligible i v₀ hi hv₀ (helig ▸ hfar)
    · exact hact
  · intro i v hi hv hne
    rcases hcases i v hv with ⟨v₀, hv₀, helig, -⟩ | ⟨helig, -⟩
    · rw [helig]
      exact (hinv.eligibility_le i v₀ hi hv₀ (helig ▸ hne)).trans hepoch
    · exact absurd helig hne
  · intro i v hi hv hne
    rcases hcases i v hv with ⟨v₀, hv₀, -, hact⟩ | ⟨-, hact⟩
    · rw [hact]
      exact (hinv.activation_le i v₀ hi hv₀ (hact ▸ hne)).trans (by omega)
    · exact absurd hact hne
  · intro i v j w hi hj hv hw hprec hne
    rcases hcases j w hw with ⟨w₀, hw₀, heligw, hactw⟩ | ⟨-, hactw⟩
    · rcases hcases i v hv with ⟨v₀, hv₀, helig, hact⟩ | ⟨helig, -⟩
      · rw [Precedes, helig, heligw] at hprec
        rw [hact, hactw]
        exact hinv.order i v₀ j w₀ hi hj hv₀ hw₀ hprec (hactw ▸ hne)
      · have hfar : w.activationEligibilityEpoch = farFutureEpoch := hprec.far helig
        rw [hactw]
        exact absurd (hactw.trans (hinv.activated_eligible j w₀ hj hw₀ (heligw ▸ hfar))) hne
    · exact absurd hactw hne

theorem Inv.update {t t' : BeaconState} (activeCount : BitVec 64) (hinv : Inv s₀ t)
    (hlen : t.validators.length < 2 ^ 64)
    (hfin : t.finalizedCheckpoint.epoch ≠ farFutureEpoch)
    (hepoch : (currentEpoch t').toNat = (currentEpoch t).toNat + 1)
    (hspec : ∀ (i : ℕ) (v' : Validator), t'.validators[i]? = some v' →
      ∃ v : Validator, t.validators[i]? = some v ∧ Updated activeCount t i v v') :
    Inv s₀ t' := by
  have hnext : (currentEpoch t + 1).toNat = (currentEpoch t).toNat + 1 := by
    rw [toNat_add, show (1 : Epoch).toNat = 1 from rfl, currentEpoch, toNat_slotToEpoch]
    have := t.slot.isLt
    omega
  have hexit := toNat_activationExitEpoch t
  have hexit_ne : activationExitEpoch (currentEpoch t) ≠ farFutureEpoch := by
    intro h
    rw [h, currentEpoch, toNat_slotToEpoch,
      show farFutureEpoch.toNat = 2 ^ 64 - 1 from rfl] at hexit
    have := t.slot.isLt
    omega
  refine ⟨?_, ?_, ?_, ?_⟩
  · intro i v' hi hv' hfar
    obtain ⟨v, hv, hupd⟩ := hspec i v' hv'
    rw [hupd.eligibility] at hfar
    rw [hupd.activation]
    split
    · next hdeq =>
      have hle := (hdeq.spec hlen hv).2
      rw [hfar] at hle
      exact absurd (eq_of_toNat_eq (Nat.le_antisymm
        (le_sub_one_of_lt t.finalizedCheckpoint.epoch.isLt) (BitVec.le_def.mp hle))) hfin
    · rcases becomeEligible_cases (currentEpoch t + 1) v with h | ⟨h, -⟩
      · exact hinv.activated_eligible i v hi hv (h ▸ hfar)
      · exact hinv.activated_eligible i v hi hv h
  · intro i v' hi hv' hne
    obtain ⟨v, hv, hupd⟩ := hspec i v' hv'
    rw [hupd.eligibility] at hne ⊢
    rcases becomeEligible_cases (currentEpoch t + 1) v with h | ⟨-, h⟩
    · rw [h] at hne ⊢
      exact (hinv.eligibility_le i v hi hv hne).trans (by omega)
    · rw [h]
      omega
  · intro i v' hi hv' hne
    obtain ⟨v, hv, hupd⟩ := hspec i v' hv'
    rw [hupd.activation] at hne ⊢
    split at hne
    · next hdeq =>
      rw [if_pos hdeq]
      omega
    · next hdeq =>
      rw [if_neg hdeq]
      exact (hinv.activation_le i v hi hv hne).trans (by omega)
  · intro i v' j w' hi hj hv' hw' hprec hne
    obtain ⟨v, hv, hupdv⟩ := hspec i v' hv'
    obtain ⟨w, hw, hupdw⟩ := hspec j w' hw'
    -- a validator that has an activation epoch before the call keeps it
    have hkept : v.activationEpoch ≠ farFutureEpoch → v'.activationEpoch = v.activationEpoch := by
      intro h
      rw [hupdv.activation, if_neg fun hdeq => h (hdeq.spec hlen hv).1]
    rw [Precedes, hupdv.eligibility, hupdw.eligibility, ← toNat_inj] at hprec
    by_cases hdeq : Dequeued activeCount t j
    · have hw'_eq : w'.activationEpoch = activationExitEpoch (currentEpoch t) := by
        rw [hupdw.activation, if_pos hdeq]
      rw [hw'_eq]
      by_cases hfar : v.activationEpoch = farFutureEpoch
      · have hdeqv := hdeq.of_less hlen hv hw hfar hprec
        rw [hupdv.activation, if_pos hdeqv]
        exact ⟨hexit_ne, BitVec.le_refl _⟩
      · rw [hkept hfar]
        have hle := hinv.activation_le i v hi hv hfar
        exact ⟨hfar, BitVec.le_def.mpr (by omega)⟩
    · have hw'_eq : w'.activationEpoch = w.activationEpoch := by
        rw [hupdw.activation, if_neg hdeq]
      rw [hw'_eq] at hne ⊢
      have heligw : w.activationEligibilityEpoch ≠ farFutureEpoch := fun h =>
        hne (hinv.activated_eligible j w hj hw h)
      have hlew := hinv.eligibility_le j w hj hw heligw
      -- both became eligible before this call
      have hprec' : Precedes i v j w := by
        rw [Precedes, ← toNat_inj]
        rcases becomeEligible_cases (currentEpoch t + 1) w with h | ⟨h, -⟩
        · rw [h] at hprec
          rcases becomeEligible_cases (currentEpoch t + 1) v with h' | ⟨-, h'⟩
          · rwa [h'] at hprec
          · rw [h'] at hprec
            omega
        · exact absurd h heligw
      obtain ⟨hv_ne, hle⟩ := hinv.order i v j w hi hj hv hw hprec' hne
      rw [hkept hv_ne]
      exact ⟨hv_ne, hle⟩

theorem step_spec (hok : Ok s e) : ∃ t, processRegistryUpdates e.activeCount e.before = .ok t ∧
    step s e = { t with slot := t.slot + 1 } ∧
    (currentEpoch (step s e)).toNat = (currentEpoch e.before).toNat + 1 ∧
    t.validators.length = e.before.validators.length ∧
    ∀ (i : ℕ) (v v' : Validator), e.before.validators[i]? = some v → t.validators[i]? = some v' →
      Updated e.activeCount e.before i v v' := by
  obtain ⟨t, ht, hslot, hlen, hupd⟩ := processRegistryUpdates_spec e.activeCount hok.length
  have hstep : step s e = { t with slot := t.slot + 1 } := by
    rw [step, ht]
  refine ⟨t, ht, hstep, ?_, hlen, hupd⟩
  have hlast := hok.lastSlot
  rw [hstep, currentEpoch, currentEpoch, toNat_slotToEpoch, toNat_slotToEpoch]
  show (t.slot + 1).toNat / 32 = _
  rw [hslot, toNat_add, show (1 : Slot).toNat = 1 from rfl, mod_eq_of_lt hok.noOverflow]
  omega

theorem Inv.step (hinv : Inv s₀ s) (hok : Ok s e) : Inv s₀ (step s e) := by
  obtain ⟨t, -, hstep, hepoch, hlen, hupd⟩ := step_spec hok
  refine (hinv.between hok).update e.activeCount hok.length hok.finalized hepoch fun i v' hv' => ?_
  rw [hstep] at hv'
  have hi := (List.getElem?_eq_some_iff.mp hv').1
  have hv := List.getElem?_eq_getElem (lt_of_lt_of_eq hi hlen)
  exact ⟨_, hv, hupd i _ v' hv hv'⟩

/-- The validators whose activation epoch differs between two states. -/
def activated (s s' : BeaconState) : List ℕ :=
  (range s.validators.length).filter fun i =>
    s.validators[i]?.map (·.activationEpoch) ≠ s'.validators[i]?.map (·.activationEpoch)

/-- A call activates at most the churn limit, all for the same epoch. -/
structure WithinLimit (e : RegistryEpoch) (s' : BeaconState) : Prop where
  length_le : (activated e.before s').length ≤ (validatorChurnLimit e.activeCount).toNat
  epoch : ∀ i ∈ activated e.before s', ∃ v, s'.validators[i]? = some v ∧
    v.activationEpoch = activationExitEpoch (currentEpoch e.before)

theorem withinLimit (hok : Ok s e) : WithinLimit e (RegistryEpoch.step s e) := by
  obtain ⟨t, -, hstep, -, hlen, hupd⟩ := step_spec hok
  rw [hstep]
  have hmem : ∀ i ∈ activated e.before { t with slot := t.slot + 1 },
      Dequeued e.activeCount e.before i ∧ ∃ v, t.validators[i]? = some v ∧
        v.activationEpoch = activationExitEpoch (currentEpoch e.before) := by
    intro i hi
    obtain ⟨hlt, hne⟩ := mem_filter.mp hi
    rw [mem_range] at hlt
    have hv := List.getElem?_eq_getElem hlt
    have hv' := List.getElem?_eq_getElem (hlen.symm ▸ hlt)
    have hact := (hupd i _ _ hv hv').activation
    have hne := of_decide_eq_true hne
    by_cases hdeq : Dequeued e.activeCount e.before i
    · rw [if_pos hdeq] at hact
      exact ⟨hdeq, _, hv', hact⟩
    · rw [if_neg hdeq] at hact
      refine absurd ?_ hne
      rw [hv, hv', map_some, map_some, hact]
  refine ⟨?_, fun i hi => (hmem i hi).2⟩
  have hnodup : (activated e.before { t with slot := t.slot + 1 }).Nodup := nodup_range.filter _
  calc (activated e.before { t with slot := t.slot + 1 }).length
      ≤ ((dequeued e.activeCount e.before).map BitVec.toNat).length :=
        (subperm_of_subset hnodup fun i hi => (hmem i hi).1).length_le
    _ = (dequeued e.activeCount e.before).length := length_map _
    _ ≤ (validatorChurnLimit e.activeCount).toNat := length_dequeued_le _ _

/-- Activation never overtakes, and is limited by the churn. -/
theorem activation_never_overtakes (s₀ : BeaconState) (epochs : List RegistryEpoch)
    (hok : Admits step Ok s₀ epochs) :
    (∀ i v j w, Fresh s₀ i → Fresh s₀ j →
      (epochs.foldl step s₀).validators[i]? = some v →
      (epochs.foldl step s₀).validators[j]? = some w → Precedes i v j w →
      w.activationEpoch ≠ farFutureEpoch →
      v.activationEpoch ≠ farFutureEpoch ∧ v.activationEpoch ≤ w.activationEpoch) ∧
    Admits step (fun s e => (∃ t, processRegistryUpdates e.activeCount e.before = .ok t) ∧
      WithinLimit e (step s e)) s₀ epochs := by
  refine ⟨?_, ?_⟩
  · exact (invariant (fun _ _ h hok => Inv.step h hok) (Inv.initial s₀) hok).order
  · refine admits_of_invariant (I := Inv s₀) (fun s e hinv hok => ⟨hinv.step hok, ?_, ?_⟩)
      (Inv.initial s₀) hok
    · obtain ⟨t, ht, -⟩ := step_spec hok
      exact ⟨t, ht⟩
    · exact withinLimit hok

/-- Five deposits, and two epochs of which the first activates four of them. -/
def fiveDeposits : BeaconState :=
  { (default : BeaconState) with
    slot := 31
    finalizedCheckpoint := ⟨1, 0⟩
    validators := List.replicate 5 { (default : Validator) with
      effectiveBalance := maxEffectiveBalance
      activationEligibilityEpoch := farFutureEpoch
      activationEpoch := farFutureEpoch
      exitEpoch := farFutureEpoch } }

def twoEpochs : List RegistryEpoch :=
  [⟨fiveDeposits, 0⟩, ⟨{ step fiveDeposits ⟨fiveDeposits, 0⟩ with slot := 63 }, 0⟩]

theorem five_deposits_in_order :
    (twoEpochs.foldl step fiveDeposits).validators.map (·.activationEpoch) = [5, 5, 5, 5, 6] ∧
    ∀ v w, (twoEpochs.foldl step fiveDeposits).validators[0]? = some v →
      (twoEpochs.foldl step fiveDeposits).validators[4]? = some w → Precedes 0 v 4 w →
      w.activationEpoch ≠ farFutureEpoch → v.activationEpoch ≤ w.activationEpoch := by
  have hfresh : ∀ i, Fresh fiveDeposits i := by
    intro i v hv
    rw [eq_of_mem_replicate (mem_of_getElem? hv)]
    rfl
  have hok : Admits step Ok fiveDeposits twoEpochs := by
    refine ⟨⟨BitVec.le_refl _, rfl, by decide, by decide, by decide, ?_, ?_⟩,
      ⟨by decide +kernel, rfl, by decide, by decide +kernel, by decide +kernel, ?_, ?_⟩, trivial⟩
    · exact fun i v hv => ⟨v, hv, rfl⟩
    · exact fun i v hnone hv => absurd (hnone.symm.trans hv) (by simp)
    · exact fun i v hv => ⟨v, hv, rfl⟩
    · exact fun i v hnone hv => absurd (hnone.symm.trans hv) (by simp)
  refine ⟨by decide +kernel, fun v w hv hw hprec hne => ?_⟩
  exact ((activation_never_overtakes fiveDeposits twoEpochs hok).1 0 v 4 w (hfresh 0) (hfresh 4)
    hv hw hprec hne).2

end RegistryEpoch

end Vanguard.Beacon
