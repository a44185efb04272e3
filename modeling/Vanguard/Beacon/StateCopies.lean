import Vanguard.Lib.Run
import Vanguard.Lib.CopyOnWrite
import Vanguard.Beacon.Types

/-!
Copies of a beacon state.

All states of a family live on one heap for each of the ten large fields. `Copy` shares the
slices and the map of public keys; the setters count references before they write to a slice.
Fields that every copy has for itself are left out. A slice that is passed to a setter is
not held by any other state.
-/

namespace Vanguard.Beacon

open CopyOnWrite List Option Function Run CopyOnWrite.World

/-- The fields that copies share, with their `fieldIndex`. -/
inductive SharedField where
  | randaoMixes
  | stateRoots
  | blockRoots
  | previousEpochAttestations
  | currentEpochAttestations
  | slashings
  | eth1DataVotes
  | validators
  | balances
  | historicalRoots
  deriving DecidableEq, Repr

abbrev SharedField.Elem : SharedField → Type
  | .randaoMixes | .stateRoots | .blockRoots | .historicalRoots => Root
  | .previousEpochAttestations | .currentEpochAttestations => PendingAttestation
  | .slashings | .balances => Gwei
  | .eth1DataVotes => Eth1Data
  | .validators => Validator

/-- `ValidatorMapHandler` -/
abbrev KeyMap := PubKey → Option ValidatorIndex

/-- `coreutils.ValidatorIndexMap`: for a key that occurs twice the last index stays. -/
def validatorIndexMap (validators : List Validator) : KeyMap :=
  validators.zipIdx.foldl
    (fun m entry => update m entry.1.publicKey (some (BitVec.ofNat 64 entry.2)))
    fun _ => none

/-- All states, and what they share. State number `0` comes from `InitializeFromProto`. -/
structure Family where
  fields : (f : SharedField) → World f.Elem
  /-- The maps of public keys. -/
  keyMaps : List KeyMap
  /-- Which of the maps each state uses. -/
  handlers : List ℕ

inductive StateErr where
  /-- `invalid index provided %d` -/
  | invalidIndex (idx : BitVec 64)
  /-- `current pending attestation exceeds max length %d` -/
  | tooManyCurrent (max : ℕ)
  /-- `previous pending attestation exceeds max length %d` -/
  | tooManyPrevious (max : ℕ)
  /-- The error of a callback. -/
  | callback
  /-- There is no such state. -/
  | noState
  deriving DecidableEq, Repr

/-- `SlotsPerEpoch * MaxAttestations` -/
def maxPendingAttestations : ℕ := 32 * 128

namespace Family

def initializeFromProto (st : (f : SharedField) → List f.Elem) : Family :=
  ⟨fun f => initial (st f), [validatorIndexMap (st .validators)], [0]⟩

def get (fam : Family) (k : ℕ) (f : SharedField) : Option (List f.Elem) :=
  ((fam.fields f).values[k]?).join

def length (fam : Family) (k : ℕ) (f : SharedField) : ℕ := ((fam.get k f).getD []).length

def onField (fam : Family) (f : SharedField) (k : ℕ)
    (change : World f.Elem → Holder → World f.Elem) : Family :=
  match (fam.fields f).holder? k with
  | some h => { fam with fields := update fam.fields f (change (fam.fields f) h) }
  | none => fam

def copy (fam : Family) (k : ℕ) : Family :=
  match fam.handlers[k]? with
  | some handler =>
    { fam with
      fields := fun f => (fam.fields f).duplicate k
      handlers := fam.handlers ++ [handler] }
  | none => fam

/-- The finalizer of a copy. -/
def finalize (fam : Family) (k : ℕ) : Family :=
  { fam with fields := fun f => (fam.fields f).drop k }

/-! ### Setters -/

def setField (f : SharedField) (fam : Family) (k : ℕ) (val : List f.Elem) : Family :=
  fam.onField f k fun w h => w.move k h val

def updateAtIndex (f : SharedField) (fam : Family) (k : ℕ) (idx : BitVec 64) (val : f.Elem) :
    Except StateErr Family :=
  if fam.length k f ≤ idx.toNat then .error (.invalidIndex idx)
  else .ok (fam.onField f k fun w h => w.modify k h true fun l => l.set idx.toNat val)

/-- A setter that appends an element; `inPlace` says whether the array has room for it. -/
def append (f : SharedField) (fam : Family) (k : ℕ) (inPlace : Bool) (val : f.Elem) : Family :=
  fam.onField f k fun w h => w.modify k h inPlace fun l => l ++ [val]

def setRandaoMixes := setField .randaoMixes

def setStateRoots := setField .stateRoots

def setBlockRoots := setField .blockRoots

def setHistoricalRoots := setField .historicalRoots

def setSlashings := setField .slashings

def setBalances := setField .balances

def setEth1DataVotes := setField .eth1DataVotes

def setPreviousEpochAttestations := setField .previousEpochAttestations

def setCurrentEpochAttestations := setField .currentEpochAttestations

/-- `SetValidators`, which also makes a new map of keys. -/
def setValidators (fam : Family) (k : ℕ) (val : List Validator) : Family :=
  let fam := setField .validators fam k val
  { fam with
    keyMaps := fam.keyMaps ++ [validatorIndexMap val]
    handlers := fam.handlers.set k fam.keyMaps.length }

def updateRandaoMixesAtIndex := updateAtIndex .randaoMixes

def updateStateRootAtIndex := updateAtIndex .stateRoots

def updateBlockRootAtIndex := updateAtIndex .blockRoots

def updateSlashingsAtIndex := updateAtIndex .slashings

def updateBalancesAtIndex := updateAtIndex .balances

def updateValidatorAtIndex := updateAtIndex .validators

def appendHistoricalRoots := append .historicalRoots

def appendEth1DataVotes := append .eth1DataVotes

def appendBalance := append .balances

/-- `AppendValidator`; the key is written to the map that the state uses. -/
def appendValidator (fam : Family) (k : ℕ) (inPlace : Bool) (val : Validator) : Family :=
  let fam := append .validators fam k inPlace val
  let valIdx := BitVec.ofNat 64 (fam.length k .validators - 1)
  match fam.handlers[k]? with
  | some handler =>
    { fam with
      keyMaps := fam.keyMaps.modify handler fun m =>
        update m val.publicKey (some valIdx) }
  | none => fam

def appendCurrentEpochAttestations (fam : Family) (k : ℕ) (inPlace : Bool)
    (val : PendingAttestation) : Except StateErr Family :=
  if maxPendingAttestations ≤ fam.length k .currentEpochAttestations then
    .error (.tooManyCurrent maxPendingAttestations)
  else .ok (append .currentEpochAttestations fam k inPlace val)

def appendPreviousEpochAttestations (fam : Family) (k : ℕ) (inPlace : Bool)
    (val : PendingAttestation) : Except StateErr Family :=
  if maxPendingAttestations ≤ fam.length k .previousEpochAttestations then
    .error (.tooManyPrevious maxPendingAttestations)
  else .ok (append .previousEpochAttestations fam k inPlace val)

def rotateAttestations (fam : Family) (k : ℕ) : Family :=
  let fam := fam.setPreviousEpochAttestations k ((fam.get k .currentEpochAttestations).getD [])
  fam.setCurrentEpochAttestations k []

/-- A callback of `ApplyToEveryValidator`: an error, or the new validator if it is changed. -/
abbrev Callback := ℕ → Validator → Except Unit (Option Validator)

/-- The loop of `ApplyToEveryValidator` from position `i` on, and whether it came to its end. -/
def applyFrom (f : Callback) : ℕ → List Validator → List Validator × Bool
  | _, [] => ([], true)
  | i, val :: vals =>
    match f i val with
    | .error _ => (val :: vals, false)
    | .ok newVal =>
      let rest := applyFrom f (i + 1) vals
      (newVal.getD val :: rest.1, rest.2)

/-- `ApplyToEveryValidator`. If the callback fails, the state keeps its slice. It has got a new
counter if the slice was shared, and the changes so far are in the slice if it was not. -/
def applyToEveryValidator (fam : Family) (k : ℕ) (f : Callback) : Family × Except StateErr Unit :=
  match (fam.fields .validators).holder? k with
  | none => (fam, .error .noState)
  | some h =>
    let w := fam.fields .validators
    let applied := applyFrom f 0 (w.heap.read h.slice)
    if applied.2 then
      (fam.onField .validators k fun w h => w.modify k h true fun _ => applied.1, .ok ())
    else if 1 < w.heap.refs h.ref then
      (fam.onField .validators k fun w h => w.detach k h, .error .callback)
    else (fam.onField .validators k fun w h => w.write k h applied.1, .error .callback)

def validatorIndexByPubkey (fam : Family) (k : ℕ) (key : PubKey) : ValidatorIndex × Bool :=
  match fam.handlers[k]?.bind (fam.keyMaps[·]?) with
  | none => (0, false)
  | some m =>
    match m key with
    | none => (0, false)
    | some idx => if fam.length k .validators ≤ idx.toNat then (0, false) else (idx, true)

end Family

/-! ### Runs -/

inductive StateOp where
  | copy
  | finalize
  | setRandaoMixes (val : List Root)
  | setStateRoots (val : List Root)
  | setBlockRoots (val : List Root)
  | setHistoricalRoots (val : List Root)
  | setSlashings (val : List Gwei)
  | setBalances (val : List Gwei)
  | setEth1DataVotes (val : List Eth1Data)
  | setValidators (val : List Validator)
  | updateRandaoMixesAtIndex (idx : BitVec 64) (val : Root)
  | updateStateRootAtIndex (idx : BitVec 64) (val : Root)
  | updateBlockRootAtIndex (idx : BitVec 64) (val : Root)
  | updateSlashingsAtIndex (idx : BitVec 64) (val : Gwei)
  | updateBalancesAtIndex (idx : BitVec 64) (val : Gwei)
  | updateValidatorAtIndex (idx : BitVec 64) (val : Validator)
  | appendHistoricalRoots (inPlace : Bool) (val : Root)
  | appendEth1DataVotes (inPlace : Bool) (val : Eth1Data)
  | appendBalance (inPlace : Bool) (val : Gwei)
  | appendValidator (inPlace : Bool) (val : Validator)
  | appendCurrentEpochAttestations (inPlace : Bool) (val : PendingAttestation)
  | appendPreviousEpochAttestations (inPlace : Bool) (val : PendingAttestation)
  | rotateAttestations
  | applyToEveryValidator (f : Family.Callback)

namespace Family

/-- A call that fails changes nothing. -/
def orSame (fam : Family) : Except StateErr Family → Family
  | .ok fam' => fam'
  | .error _ => fam

/-- A call on state `k`. -/
def call (fam : Family) (k : ℕ) : StateOp → Family
  | .copy => fam.copy k
  -- the first state has no finalizer
  | .finalize => if k = 0 then fam else fam.finalize k
  | .setRandaoMixes val => fam.setRandaoMixes k val
  | .setStateRoots val => fam.setStateRoots k val
  | .setBlockRoots val => fam.setBlockRoots k val
  | .setHistoricalRoots val => fam.setHistoricalRoots k val
  | .setSlashings val => fam.setSlashings k val
  | .setBalances val => fam.setBalances k val
  | .setEth1DataVotes val => fam.setEth1DataVotes k val
  | .setValidators val => fam.setValidators k val
  | .updateRandaoMixesAtIndex idx val => fam.orSame (fam.updateRandaoMixesAtIndex k idx val)
  | .updateStateRootAtIndex idx val => fam.orSame (fam.updateStateRootAtIndex k idx val)
  | .updateBlockRootAtIndex idx val => fam.orSame (fam.updateBlockRootAtIndex k idx val)
  | .updateSlashingsAtIndex idx val => fam.orSame (fam.updateSlashingsAtIndex k idx val)
  | .updateBalancesAtIndex idx val => fam.orSame (fam.updateBalancesAtIndex k idx val)
  | .updateValidatorAtIndex idx val => fam.orSame (fam.updateValidatorAtIndex k idx val)
  | .appendHistoricalRoots inPlace val => fam.appendHistoricalRoots k inPlace val
  | .appendEth1DataVotes inPlace val => fam.appendEth1DataVotes k inPlace val
  | .appendBalance inPlace val => fam.appendBalance k inPlace val
  | .appendValidator inPlace val => fam.appendValidator k inPlace val
  | .appendCurrentEpochAttestations inPlace val =>
    fam.orSame (fam.appendCurrentEpochAttestations k inPlace val)
  | .appendPreviousEpochAttestations inPlace val =>
    fam.orSame (fam.appendPreviousEpochAttestations k inPlace val)
  | .rotateAttestations => fam.rotateAttestations k
  | .applyToEveryValidator f => (fam.applyToEveryValidator k f).1

def step (fam : Family) (call : ℕ × StateOp) : Family := fam.call call.1 call.2

/-- No callback fails on validators that are shared. -/
def NoSharedFailure (fam : Family) (call : ℕ × StateOp) : Prop :=
  ∀ f, call.2 = .applyToEveryValidator f →
    ∀ h, (fam.fields .validators).holder? call.1 = some h →
      (applyFrom f 0 ((fam.fields .validators).heap.read h.slice)).2 = false →
      (fam.fields .validators).heap.refs h.ref ≤ 1

/-- The counters of every field are right. -/
def WF (fam : Family) : Prop := ∀ f, (fam.fields f).WF

section Calls

variable {fam : Family} {k : ℕ} {f : SharedField} {l : List f.Elem}
  {change : World f.Elem → Holder → World f.Elem}

theorem get_onField_of_ne {f' : SharedField} (hne : f' ≠ f)
    (change : World f.Elem → Holder → World f.Elem) (k' : ℕ) :
    (fam.onField f k change).get k' f' = fam.get k' f' := by
  rw [onField]
  split
  · simp [get, update_of_ne hne]
  · rfl

theorem get_eq_some_iff : fam.get k f = some l ↔
    ∃ h, (fam.fields f).holder? k = some h ∧ (fam.fields f).heap.read h.slice = l := by
  constructor
  · intro hget
    rw [get, values, getElem?_map, join_eq_some_iff, map_eq_some_iff] at hget
    obtain ⟨o, ho, hl⟩ := hget
    obtain ⟨h, rfl, hread⟩ := map_eq_some_iff.mp hl
    exact ⟨h, holder?_eq_some.mpr ho, hread⟩
  · rintro ⟨h, hh, rfl⟩
    rw [get, values_getElem? hh, join_some]

theorem get_onField {h : Holder} (hk : (fam.fields f).holder? k = some h)
    (hvalues : (change (fam.fields f) h).values = (fam.fields f).values.set k (some l)) (k' : ℕ) :
    (fam.onField f k change).get k' f = if k' = k then some l else fam.get k' f := by
  have hlt : k < (fam.fields f).values.length := by
    rw [values, length_map]
    exact lt_of_holder? hk
  rw [onField, hk]
  simp only [get, update_self, hvalues]
  split
  · next heq => rw [heq, getElem?_set_self hlt, join_some]
  · next hne => rw [getElem?_set_ne (Ne.symm hne)]

theorem get_setField (hw : fam.WF) (hget : fam.get k f = some l) (val : List f.Elem) (k' : ℕ) :
    (setField f fam k val).get k' f = if k' = k then some val else fam.get k' f := by
  obtain ⟨h, hk, -⟩ := get_eq_some_iff.mp hget
  exact get_onField hk (values_move (hw f) hk val) k'

theorem get_append (hw : fam.WF) (hget : fam.get k f = some l) (inPlace : Bool) (val : f.Elem)
    (k' : ℕ) :
    (append f fam k inPlace val).get k' f = if k' = k then some (l ++ [val]) else fam.get k' f := by
  obtain ⟨h, hk, rfl⟩ := get_eq_some_iff.mp hget
  exact get_onField hk (values_modify (hw f) hk inPlace _) k'

/-- A call on state `k` that keeps the counters right and the other states as they are. -/
structure Isolated (fam fam' : Family) (k : ℕ) : Prop where
  wf : fam'.WF
  get_eq : ∀ k' f l, k' ≠ k → fam.get k' f = some l → fam'.get k' f = some l

theorem Isolated.refl (hw : fam.WF) (k : ℕ) : Isolated fam fam k :=
  ⟨hw, fun _ _ _ _ h => h⟩

theorem Isolated.trans {fam' fam'' : Family} (h : Isolated fam fam' k)
    (h' : Isolated fam' fam'' k) : Isolated fam fam'' k :=
  ⟨h'.wf, fun k' f l hne hget => h'.get_eq k' f l hne (h.get_eq k' f l hne hget)⟩

theorem Isolated.of_fields_eq {fam' fam'' : Family} (h : Isolated fam fam' k)
    (heq : fam''.fields = fam'.fields) : Isolated fam fam'' k := by
  refine ⟨fun f => ?_, fun k' f l hne hget => ?_⟩
  · rw [heq]
    exact h.wf f
  · rw [get, heq]
    exact h.get_eq k' f l hne hget

variable (hw : fam.WF)

include hw

theorem isolated_onField
    (hchange : ∀ h, (fam.fields f).holder? k = some h → (change (fam.fields f) h).WF ∧
      ∃ l, (change (fam.fields f) h).values = (fam.fields f).values.set k (some l)) :
    Isolated fam (fam.onField f k change) k := by
  cases hk : (fam.fields f).holder? k with
  | none =>
    rw [onField, hk]
    exact Isolated.refl hw k
  | some h =>
    obtain ⟨hwf, l, hvalues⟩ := hchange h hk
    refine ⟨?_, fun k' f' l' hne hget => ?_⟩
    · rw [onField, hk]
      intro f'
      by_cases hf : f' = f
      · subst hf
        simpa using hwf
      · simpa [update_of_ne hf] using hw f'
    · by_cases hf : f' = f
      · subst hf
        rw [← hget, onField, hk]
        simp [get, hvalues, getElem?_set_ne (Ne.symm hne)]
      · rw [get_onField_of_ne hf, hget]

theorem isolated_setField (f : SharedField) (k : ℕ) (val : List f.Elem) :
    Isolated fam (setField f fam k val) k :=
  isolated_onField hw fun _ hk =>
    ⟨move_wf (hw f) hk val, val, values_move (hw f) hk val⟩

theorem isolated_append (f : SharedField) (k : ℕ) (inPlace : Bool) (val : f.Elem) :
    Isolated fam (append f fam k inPlace val) k :=
  isolated_onField hw fun _ hk =>
    ⟨modify_wf (hw f) hk inPlace _, _, values_modify (hw f) hk inPlace _⟩

theorem isolated_updateAtIndex (f : SharedField) (k : ℕ) (idx : BitVec 64)
    (val : f.Elem) : Isolated fam (fam.orSame (updateAtIndex f fam k idx val)) k := by
  rw [updateAtIndex]
  split
  · exact Isolated.refl hw k
  · show Isolated fam (fam.onField f k fun w h =>
      w.modify k h true fun l => l.set idx.toNat val) k
    exact isolated_onField hw fun _ hk =>
      ⟨modify_wf (hw f) hk true _, _, values_modify (hw f) hk true _⟩

theorem isolated_copy (k : ℕ) : Isolated fam (fam.copy k) k := by
  rw [copy]
  cases fam.handlers[k]? with
  | none => exact Isolated.refl hw k
  | some handler =>
    refine ⟨fun f => duplicate_wf (hw f) k, fun k' f l _ hget => ?_⟩
    have hlt := (List.getElem?_eq_some_iff.mp (join_eq_some_iff.mp hget)).1
    rw [get, values_duplicate, getElem?_append_left hlt]
    exact hget

theorem isolated_finalize (k : ℕ) : Isolated fam (fam.finalize k) k := by
  refine ⟨fun f => drop_wf (hw f) k, fun k' f l hne hget => ?_⟩
  rw [get, finalize, values_drop_of_ne hne]
  exact hget

theorem isolated_applyToEveryValidator (k : ℕ) (f : Callback)
    (hok : fam.NoSharedFailure (k, .applyToEveryValidator f)) :
    Isolated fam (fam.applyToEveryValidator k f).1 k := by
  rw [applyToEveryValidator]
  cases hk : (fam.fields .validators).holder? k with
  | none => exact Isolated.refl hw k
  | some h =>
    by_cases hend : (applyFrom f 0 ((fam.fields .validators).heap.read h.slice)).2 = true
    · simp only [if_pos hend]
      exact isolated_onField hw fun h' hk' =>
        ⟨modify_wf (hw _) hk' true _, _, values_modify (hw _) hk' true _⟩
    · have hone := hok f rfl h hk (Bool.not_eq_true _ ▸ hend)
      simp only [if_neg hend, if_neg (not_lt.mpr hone)]
      refine isolated_onField hw fun h' hk' => ?_
      obtain rfl := some.inj (hk.symm.trans hk')
      exact ⟨write_wf (hw _) hk hone _, _, values_write (hw _) hk hone _⟩

theorem isolated_call (k : ℕ) (op : StateOp) (hok : fam.NoSharedFailure (k, op)) :
    Isolated fam (fam.call k op) k := by
  cases op with
  | copy => exact isolated_copy hw k
  | finalize =>
    rw [call]
    split
    · exact Isolated.refl hw k
    · exact isolated_finalize hw k
  | setRandaoMixes val => exact isolated_setField hw .randaoMixes k val
  | setStateRoots val => exact isolated_setField hw .stateRoots k val
  | setBlockRoots val => exact isolated_setField hw .blockRoots k val
  | setHistoricalRoots val => exact isolated_setField hw .historicalRoots k val
  | setSlashings val => exact isolated_setField hw .slashings k val
  | setBalances val => exact isolated_setField hw .balances k val
  | setEth1DataVotes val => exact isolated_setField hw .eth1DataVotes k val
  | setValidators val => exact (isolated_setField hw .validators k val).of_fields_eq rfl
  | updateRandaoMixesAtIndex idx val => exact isolated_updateAtIndex hw .randaoMixes k idx val
  | updateStateRootAtIndex idx val => exact isolated_updateAtIndex hw .stateRoots k idx val
  | updateBlockRootAtIndex idx val => exact isolated_updateAtIndex hw .blockRoots k idx val
  | updateSlashingsAtIndex idx val => exact isolated_updateAtIndex hw .slashings k idx val
  | updateBalancesAtIndex idx val => exact isolated_updateAtIndex hw .balances k idx val
  | updateValidatorAtIndex idx val => exact isolated_updateAtIndex hw .validators k idx val
  | appendHistoricalRoots inPlace val => exact isolated_append hw .historicalRoots k inPlace val
  | appendEth1DataVotes inPlace val => exact isolated_append hw .eth1DataVotes k inPlace val
  | appendBalance inPlace val => exact isolated_append hw .balances k inPlace val
  | appendValidator inPlace val =>
    refine (isolated_append hw .validators k inPlace val).of_fields_eq ?_
    show (appendValidator fam k inPlace val).fields = _
    rw [appendValidator]
    split <;> rfl
  | appendCurrentEpochAttestations inPlace val =>
    show Isolated fam (fam.orSame (fam.appendCurrentEpochAttestations k inPlace val)) k
    rw [appendCurrentEpochAttestations]
    split
    · exact Isolated.refl hw k
    · exact isolated_append hw .currentEpochAttestations k inPlace val
  | appendPreviousEpochAttestations inPlace val =>
    show Isolated fam (fam.orSame (fam.appendPreviousEpochAttestations k inPlace val)) k
    rw [appendPreviousEpochAttestations]
    split
    · exact Isolated.refl hw k
    · exact isolated_append hw .previousEpochAttestations k inPlace val
  | rotateAttestations =>
    have h := isolated_setField hw .previousEpochAttestations k
      ((fam.get k .currentEpochAttestations).getD [])
    exact h.trans (isolated_setField h.wf .currentEpochAttestations k [])
  | applyToEveryValidator f => exact isolated_applyToEveryValidator hw k f hok

end Calls

theorem initializeFromProto_wf (st : (f : SharedField) → List f.Elem) :
    (initializeFromProto st).WF := fun f => initial_wf (st f)

/-- A call on one state does not change what the getters of another state return, if no callback
fails on shared validators. -/
theorem copies_isolated (st : (f : SharedField) → List f.Elem) (calls : List (ℕ × StateOp))
    (hok : Admits step NoSharedFailure (initializeFromProto st) calls) :
    Admits step (fun fam call => ∀ k f l, k ≠ call.1 → fam.get k f = some l →
      (fam.step call).get k f = some l) (initializeFromProto st) calls := by
  refine admits_of_invariant (fun fam call hw hok => ?_) (initializeFromProto_wf st) hok
  have h := isolated_call hw call.1 call.2 hok
  exact ⟨h.wf, fun k f l hne hget => h.get_eq k f l hne hget⟩

/-- A state with one validator. -/
def lonely : (f : SharedField) → List f.Elem
  | .validators => [default]
  | .balances => [32]
  | .randaoMixes | .stateRoots | .blockRoots | .historicalRoots => [0]
  | .previousEpochAttestations | .currentEpochAttestations => []
  | .slashings => [0]
  | .eth1DataVotes => []

/-- A copy that is changed, and a callback that fails on a state that shares nothing. -/
def harmlessCalls : List (ℕ × StateOp) :=
  [(0, .copy), (1, .updateBalancesAtIndex 0 7), (0, .updateValidatorAtIndex 0 default),
    (1, .applyToEveryValidator fun _ _ => .error ()), (1, .appendBalance true 8)]

theorem harmless_calls_isolated :
    ((harmlessCalls.take 4).foldl step (initializeFromProto lonely)).get 0 .balances = some [32] ∧
    (harmlessCalls.foldl step (initializeFromProto lonely)).get 0 .balances = some [32] ∧
    (harmlessCalls.foldl step (initializeFromProto lonely)).get 1 .balances = some [7, 8] := by
  have hok : Admits step NoSharedFailure (initializeFromProto lonely) harmlessCalls := by
    refine ⟨?_, ?_, ?_, ?_, ?_, trivial⟩
    · intro f hf
      cases hf
    · intro f hf
      cases hf
    · intro f hf
      cases hf
    · intro f _ h hh _
      obtain rfl := some.inj hh
      decide
    · intro f hf
      cases hf
  have hall := copies_isolated lonely harmlessCalls hok
  obtain ⟨-, -, -, -, hlast, -⟩ := hall
  refine ⟨rfl, ?_, rfl⟩
  exact hlast 0 .balances [32] (by decide) rfl

/-- After a callback has failed on shared validators, the next change of the state is seen by
its copy. -/
theorem failed_callback_changes_copy :
    let fam := (initializeFromProto lonely).call 0 .copy
    let fam := fam.call 0 (.applyToEveryValidator fun _ _ => .error ())
    let changed : Validator := { (default : Validator) with slashed := true }
    fam.get 1 .validators = some [default] ∧
      (fam.call 0 (.updateValidatorAtIndex 0 changed)).get 1 .validators = some [changed] :=
  ⟨rfl, rfl⟩

end Family

end Vanguard.Beacon
