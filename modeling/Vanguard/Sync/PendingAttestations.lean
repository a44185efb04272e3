import Vanguard.Basic
import Vanguard.Lib.Run

/-!
The queue of attestations whose block is missing.

Single attestations and signed aggregates wait in one list for each block root. An entry is taken
for a repeat if an entry of the list has the same aggregator index, a field that single
attestations leave at zero.
-/

namespace Vanguard.Sync

open Function List

/-- `SLOTS_PER_EPOCH` -/
def attestationSlots : ℕ := 32

/-- What the queue reads of an attestation. -/
structure AttestationView (α : Type) where
  slot : α → Slot
  beaconBlockRoot : α → Root

/-- `SignedAggregateAttestationAndProof` in the two forms in which it is queued; `ρ` stands for the
selection proof and the signature. -/
inductive PendingAtt (α ρ : Type) where
  | unaggregated (att : α)
  | aggregated (aggregatorIndex : BitVec 64) (aggregate : α) (proof : ρ)
  deriving DecidableEq

variable {α ρ : Type}

/-- `Message.AggregatorIndex`, which the wrapping of a single attestation does not set. -/
def PendingAtt.aggregatorIndex : PendingAtt α ρ → BitVec 64
  | .unaggregated _ => 0
  | .aggregated index _ _ => index

/-- `Message.Aggregate` -/
def PendingAtt.aggregate : PendingAtt α ρ → α
  | .unaggregated att => att
  | .aggregated _ att _ => att

/-- `blkRootToPendingAtts` -/
abbrev PendingAtts (α ρ : Type) := Root → Option (List (PendingAtt α ρ))

section Queue

variable (V : AttestationView α)

def savePendingAtt (m : PendingAtts α ρ) (att : PendingAtt α ρ) : PendingAtts α ρ :=
  let root := V.beaconBlockRoot att.aggregate
  match m root with
  | none => update m root (some [att])
  | some atts =>
    if atts.any fun a => a.aggregatorIndex = att.aggregatorIndex then m
    else update m root (some (atts ++ [att]))

/-- The inner loop of `validatePendingAtts`, from the entry before `i` down to the first. -/
def removeStale (slot : Slot) : ℕ → List (PendingAtt α ρ) → List (PendingAtt α ρ)
  | 0, atts => atts
  | i + 1, atts =>
    match atts[i]? with
    | none => removeStale slot i atts
    | some a =>
      if V.slot a.aggregate + BitVec.ofNat 64 attestationSlots ≤ slot then
        removeStale slot i (atts.eraseIdx i)
      else removeStale slot i atts

def validatePendingAtts (m : PendingAtts α ρ) (slot : Slot) : PendingAtts α ρ := fun bRoot =>
  match m bRoot with
  | none => none
  | some atts =>
    let atts := removeStale V slot atts.length atts
    if atts.length = 0 then none else some atts

inductive AttsCall (α ρ : Type) where
  | save (att : PendingAtt α ρ)
  | validate (slot : Slot)

def attsCall (m : PendingAtts α ρ) : AttsCall α ρ → PendingAtts α ρ
  | .save att => savePendingAtt V m att
  | .validate slot => validatePendingAtts V m slot

end Queue

/-! ### The votes that should be waiting -/

theorem removeStale_append (V : AttestationView α) (slot : Slot)
    (l rest : List (PendingAtt α ρ)) :
    removeStale V slot l.length (l ++ rest) =
      l.filter (fun a => slot < V.slot a.aggregate + BitVec.ofNat 64 attestationSlots) ++ rest := by
  induction l using reverseRecOn generalizing rest with
  | nil => rfl
  | append_singleton l a ih =>
    rw [length_append, length_singleton, removeStale, append_assoc]
    simp only [getElem?_append_right le_rfl, Nat.sub_self, singleton_append,
      getElem?_cons_zero, eraseIdx_append_of_length_le le_rfl, eraseIdx_cons_zero]
    split
    next hstale => simp [ih, BitVec.not_lt.mpr hstale]
    next hfresh => simp [ih, BitVec.not_le.mp hfresh]

section Votes

variable [DecidableEq α]

/-- The same single attestation, or two aggregates of one aggregator. -/
def PendingAtt.repeats : PendingAtt α ρ → PendingAtt α ρ → Bool
  | .unaggregated a, .unaggregated b => a = b
  | .aggregated i _ _, .aggregated j _ _ => i = j
  | _, _ => false

variable (V : AttestationView α)

/-- The attestations for a block after a call: those saved that repeat none that waits, without
those that are an epoch old. -/
def waiting (root : Root) (atts : List (PendingAtt α ρ)) : AttsCall α ρ → List (PendingAtt α ρ)
  | .save att =>
    if V.beaconBlockRoot att.aggregate = root ∧ ¬ atts.any att.repeats then atts ++ [att] else atts
  | .validate slot =>
    atts.filter fun a => slot.toNat < (V.slot a.aggregate).toNat + attestationSlots

/-- A saved attestation repeats every waiting one of its block that has its aggregator index; at a
clean-up every waiting attestation is more than an epoch below the largest slot. -/
def Distinct (m : PendingAtts α ρ) : AttsCall α ρ → Prop
  | .save att => ∀ a ∈ (m (V.beaconBlockRoot att.aggregate)).getD [],
      a.aggregatorIndex = att.aggregatorIndex → att.repeats a
  | .validate _ => ∀ root, ∀ a ∈ (m root).getD [],
      (V.slot a.aggregate).toNat + attestationSlots < 2 ^ 64

variable {V} {m : PendingAtts α ρ} {root : Root} {slot : Slot} {att : PendingAtt α ρ}

theorem PendingAtt.aggregatorIndex_eq_of_repeats {a : PendingAtt α ρ} (h : att.repeats a) :
    a.aggregatorIndex = att.aggregatorIndex := by
  cases att <;> cases a <;> simp_all [repeats, aggregatorIndex]

theorem getD_savePendingAtt (hdistinct : Distinct V m (.save att)) :
    (savePendingAtt V m att root).getD [] = waiting V root ((m root).getD []) (.save att) := by
  have hany : (((m (V.beaconBlockRoot att.aggregate)).getD []).any fun a =>
      a.aggregatorIndex = att.aggregatorIndex) ↔
      ((m (V.beaconBlockRoot att.aggregate)).getD []).any att.repeats := by
    simp only [any_eq_true, decide_eq_true_eq]
    exact exists_congr fun a => and_congr_right fun ha =>
      ⟨hdistinct a ha, PendingAtt.aggregatorIndex_eq_of_repeats⟩
  cases hm : m (V.beaconBlockRoot att.aggregate) with
  | none =>
    rcases eq_or_ne root (V.beaconBlockRoot att.aggregate) with rfl | hne
    · simp [savePendingAtt, waiting, hm]
    · simp [savePendingAtt, waiting, hm, hne, hne.symm]
  | some atts =>
    rw [hm, Option.getD_some] at hany
    simp only [savePendingAtt, waiting, hm, hany]
    rcases eq_or_ne root (V.beaconBlockRoot att.aggregate) with rfl | hne
    · split <;> simp_all
    · split <;> simp [hne, hne.symm]

theorem getD_validatePendingAtts (hdistinct : Distinct V m (.validate slot)) :
    (validatePendingAtts V m slot root).getD [] =
      waiting V root ((m root).getD []) (.validate slot) := by
  rw [validatePendingAtts, waiting]
  cases hm : m root with
  | none => rfl
  | some atts =>
    have hloop := removeStale_append V slot atts []
    rw [append_nil, append_nil] at hloop
    have hfilter : atts.filter (fun a =>
          slot < V.slot a.aggregate + BitVec.ofNat 64 attestationSlots) =
        atts.filter fun a => slot.toNat < (V.slot a.aggregate).toNat + attestationSlots := by
      refine filter_congr fun a ha => ?_
      have hlt := hdistinct root a (by simpa [hm] using ha)
      have hadd : (V.slot a.aggregate + BitVec.ofNat 64 attestationSlots).toNat =
          (V.slot a.aggregate).toNat + attestationSlots := BitVec.toNat_add_of_lt hlt
      simp only [BitVec.lt_def, hadd]
    simp only [hloop, hfilter, Option.getD_some]
    split
    next h => simpa using (length_eq_zero_iff.mp h).symm
    next => rfl

end Votes

/-- After any calls in which an attestation meets its aggregator index only in one that it repeats,
the attestations queued for a block are those that should be waiting. -/
theorem pendingAtts_eq_waiting [DecidableEq α] (V : AttestationView α) (root : Root)
    (calls : List (AttsCall α ρ)) (m : PendingAtts α ρ)
    (hdistinct : Run.Admits (attsCall V) (Distinct V) m calls) :
    (calls.foldl (attsCall V) m root).getD [] =
      calls.foldl (waiting V root) ((m root).getD []) := by
  induction calls generalizing m with
  | nil => rfl
  | cons call calls ih =>
    have hcall : (attsCall V m call root).getD [] = waiting V root ((m root).getD []) call := by
      cases call with
      | save att => exact getD_savePendingAtt hdistinct.1
      | validate slot => exact getD_validatePendingAtts hdistinct.1
    rw [foldl_cons, foldl_cons, ih _ hdistinct.2, hcall]

/-- Attestations of one block that are known by their slots. -/
def oneBlock : AttestationView Slot := ⟨id, fun _ => 1⟩

theorem pendingAtts_eq_waiting_two :
    let calls : List (AttsCall Slot Unit) :=
      [.save (.unaggregated 7), .save (.aggregated 5 38 ()), .validate 40]
    (calls.foldl (attsCall oneBlock) (fun _ => none) 1).getD [] =
      calls.foldl (waiting oneBlock 1) [] := by
  refine pendingAtts_eq_waiting oneBlock 1 _ (fun _ => none) ⟨by simp [Distinct], ?_, ?_, trivial⟩
  · change ∀ a ∈ [PendingAtt.unaggregated 7], _
    decide
  · intro root
    by_cases hroot : root = 1
    · subst hroot
      change ∀ a ∈ [PendingAtt.unaggregated 7, .aggregated 5 38 ()], _
      decide
    · have hne : root ≠ 1#256 := hroot
      simp [attsCall, savePendingAtt, oneBlock, PendingAtt.aggregatorIndex, hne]

/-- The second of two single attestations is lost, and so is an aggregate of the first validator. -/
theorem unaggregated_lost :
    let calls : List (AttsCall Slot Unit) :=
      [.save (.unaggregated 7), .save (.unaggregated 8), .save (.aggregated 0 9 ())]
    calls.foldl (attsCall oneBlock) (fun _ => none) 1 = some [.unaggregated 7] ∧
      calls.foldl (waiting oneBlock 1) [] =
        [.unaggregated 7, .unaggregated 8, .aggregated 0 9 ()] := by
  decide

end Vanguard.Sync
