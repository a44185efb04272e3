import Vanguard.Operations.Independence

/-!
The pools of slashings and voluntary exits, and the operations a block takes from them.

Each pool keeps one operation for a validator, sorted by the validator, and checks an operation
against a state on its own. A block applies the proposer slashings, the attester slashings and
the exits one after the other, so an operation is applied to the state that the ones before it
have left.
-/

namespace Vanguard.Operations

open Vanguard.Beacon Fallible List Search

structure PendingAttesterSlashing where
  attesterSlashing : AttesterSlashing
  validatorToSlash : ValidatorIndex
  deriving DecidableEq, Repr

/-- `slashings.Pool`; `included` has the keys of the map. -/
structure SlashingPool where
  pendingProposerSlashing : List ProposerSlashing
  pendingAttesterSlashing : List PendingAttesterSlashing
  included : List ValidatorIndex
  deriving DecidableEq, Repr

open SlashingPool

/-- `voluntaryexits.Pool` -/
structure ExitPool where
  pending : List SignedVoluntaryExit
  deriving DecidableEq, Repr

inductive PoolErr where
  | core (cause : BeaconErr)
  /-- `could not slash any of %d validators in submitted slashing` -/
  | cannotSlashAny (count : ℕ)
  /-- `validator at index %d cannot be slashed` -/
  | cannotBeSlashed (idx : ValidatorIndex)
  /-- `slashing object already exists in pending proposer slashings` -/
  | alreadyPending
  deriving DecidableEq, Repr

/-- The validator by which pending proposer slashings are sorted. -/
def proposerKey (slashing : ProposerSlashing) : ℕ := slashing.header1.header.proposerIndex.toNat

/-- The validator by which pending attester slashings are sorted. -/
def attesterKey (slashing : PendingAttesterSlashing) : ℕ := slashing.validatorToSlash.toNat

/-- The validator by which pending exits are sorted. -/
def exitKey (signed : SignedVoluntaryExit) : ℕ := signed.exit.validatorIndex.toNat

/-- `IntersectionUint64` of the attesting indices, in the order of the second attestation. -/
def slashedVal (slashing : AttesterSlashing) : List ValidatorIndex :=
  (slashing.attestation2.attestingIndices.filter fun k =>
    decide (k ∈ slashing.attestation1.attestingIndices)).eraseDups

/-! ### The slashing pool -/

def validatorSlashingPreconditionCheck (included : List ValidatorIndex) (state : BeaconState)
    (valIdx : ValidatorIndex) : Except BeaconErr Bool :=
  if valIdx ∈ included then .ok false
  else do
    let validator ← atIndex state.validators valIdx
    return isSlashableValidator validator (currentEpoch state)

/-- The loop over pending slashings: those that fail the check leave the pool, until there are
enough. A slashing that is taken marks the validators it slashes. -/
def pendingLoop {α : Type} (check : List ValidatorIndex → α → Except BeaconErr Bool)
    (slashes : α → List ValidatorIndex) (maxSlashings : ℕ) :
    List α → List ValidatorIndex → List α → List α × List α
  | [], _, pending => ([], pending)
  | slashing :: rest, marked, pending =>
    if maxSlashings ≤ pending.length then (slashing :: rest, pending)
    else
      match check marked slashing with
      | .error _ =>
        let (kept, taken) := pendingLoop check slashes maxSlashings rest marked pending
        (slashing :: kept, taken)
      | .ok false => pendingLoop check slashes maxSlashings rest marked pending
      | .ok true =>
        let (kept, taken) := pendingLoop check slashes maxSlashings rest
          (marked ++ slashes slashing) (pending ++ [slashing])
        (slashing :: kept, taken)

def SlashingPool.pendingProposerSlashings (p : SlashingPool) (state : BeaconState)
    (noLimit : Bool) : SlashingPool × List ProposerSlashing :=
  let maxSlashings := if noLimit then p.pendingProposerSlashing.length else maxProposerSlashings
  let (kept, taken) := pendingLoop
    (fun _ slashing =>
      validatorSlashingPreconditionCheck p.included state slashing.header1.header.proposerIndex)
    (fun _ => []) maxSlashings p.pendingProposerSlashing [] []
  ({ p with pendingProposerSlashing := kept }, taken)

def checkPendingAttester (included : List ValidatorIndex) (state : BeaconState)
    (marked : List ValidatorIndex) (slashing : PendingAttesterSlashing) :
    Except BeaconErr Bool := do
  let valid ← validatorSlashingPreconditionCheck included state slashing.validatorToSlash
  return !(decide (slashing.validatorToSlash ∈ marked) || !valid)

def SlashingPool.pendingAttesterSlashings (p : SlashingPool) (state : BeaconState)
    (noLimit : Bool) : SlashingPool × List AttesterSlashing :=
  let maxSlashings := if noLimit then p.pendingAttesterSlashing.length else maxAttesterSlashings
  let (kept, taken) := pendingLoop (checkPendingAttester p.included state)
    (fun slashing => slashedVal slashing.attesterSlashing) maxSlashings
    p.pendingAttesterSlashing [] []
  ({ p with pendingAttesterSlashing := kept }, taken.map (·.attesterSlashing))

section Insert

variable {κ σ : Type} (c : Crypto κ σ)

def SlashingPool.insertProposerSlashing (p : SlashingPool) (state : BeaconState)
    (slashing : ProposerSlashing) : Except PoolErr SlashingPool := do
  (errorsWrap (verifyProposerSlashing c state slashing)
    "could not verify proposer slashing").mapError .core
  let idx := slashing.header1.header.proposerIndex
  let ok ← (validatorSlashingPreconditionCheck p.included state idx).mapError .core
  if !ok then .error (.cannotBeSlashed idx)
  else
    match find proposerKey p.pendingProposerSlashing idx.toNat with
    | some _ => .error .alreadyPending
    | none =>
      let pending := addSorted proposerKey p.pendingProposerSlashing slashing
      .ok { p with pendingProposerSlashing := pending }

/-- The loop of `InsertAttesterSlashing` over the slashed validators; `cantSlash` counts those
that are not inserted. -/
def insertAttesterLoop (state : BeaconState) (slashing : AttesterSlashing) :
    List ValidatorIndex → SlashingPool → ℕ → SlashingPool × Except PoolErr ℕ
  | [], p, cantSlash => (p, .ok cantSlash)
  | val :: rest, p, cantSlash =>
    match validatorSlashingPreconditionCheck p.included state val with
    | .error e => (p, .error (.core e))
    | .ok false => insertAttesterLoop state slashing rest p (cantSlash + 1)
    | .ok true =>
      match find attesterKey p.pendingAttesterSlashing val.toNat with
      | some _ => insertAttesterLoop state slashing rest p (cantSlash + 1)
      | none =>
        let pending := addSorted attesterKey p.pendingAttesterSlashing ⟨slashing, val⟩
        insertAttesterLoop state slashing rest { p with pendingAttesterSlashing := pending }
          cantSlash

/-- `InsertAttesterSlashing`; what it has inserted stays in the pool if it fails. -/
def SlashingPool.insertAttesterSlashing (p : SlashingPool) (state : BeaconState)
    (slashing : AttesterSlashing) : SlashingPool × Except PoolErr Unit :=
  match errorsWrap (verifyAttesterSlashing c state slashing)
    "could not verify attester slashing" with
  | .error e => (p, .error (.core e))
  | .ok () =>
    match insertAttesterLoop state slashing (slashedVal slashing) p 0 with
    | (p, .error e) => (p, .error e)
    | (p, .ok cantSlash) =>
      if cantSlash = (slashedVal slashing).length then
        (p, .error (.cannotSlashAny (slashedVal slashing).length))
      else (p, .ok ())

end Insert

def SlashingPool.markIncludedProposerSlashing (p : SlashingPool) (ps : ProposerSlashing) :
    SlashingPool :=
  { p with
    pendingProposerSlashing :=
      match find proposerKey p.pendingProposerSlashing (proposerKey ps) with
      | some i => p.pendingProposerSlashing.eraseIdx i
      | none => p.pendingProposerSlashing
    included := ps.header1.header.proposerIndex :: p.included }

/-- One validator of an attester slashing that is in a block. -/
def SlashingPool.markIncludedAttester (p : SlashingPool) (val : ValidatorIndex) : SlashingPool :=
  { p with
    pendingAttesterSlashing :=
      match find attesterKey p.pendingAttesterSlashing val.toNat with
      | some i => p.pendingAttesterSlashing.eraseIdx i
      | none => p.pendingAttesterSlashing
    included := val :: p.included }

def SlashingPool.markIncludedAttesterSlashing (p : SlashingPool) (as : AttesterSlashing) :
    SlashingPool :=
  (slashedVal as).foldl markIncludedAttester p

/-! ### The exit pool -/

/-- The loop of `PendingExits`. -/
def pendingExitsLoop (state : BeaconState) (slot : Slot) (maxExits : ℕ) :
    List SignedVoluntaryExit → List SignedVoluntaryExit → List SignedVoluntaryExit
  | [], pending => pending
  | e :: rest, pending =>
    if slotToEpoch slot < e.exit.epoch then pendingExitsLoop state slot maxExits rest pending
    else
      match atIndex state.validators e.exit.validatorIndex with
      | .error _ => pendingExitsLoop state slot maxExits rest pending
      | .ok v =>
        if v.exitEpoch = farFutureEpoch then
          if pending.length + 1 = maxExits then pending ++ [e]
          else pendingExitsLoop state slot maxExits rest (pending ++ [e])
        else pendingExitsLoop state slot maxExits rest pending

def ExitPool.pendingExits (p : ExitPool) (state : BeaconState) (slot : Slot) (noLimit : Bool) :
    List SignedVoluntaryExit :=
  pendingExitsLoop state slot (if noLimit then p.pending.length else maxVoluntaryExits) p.pending []

def ExitPool.insertVoluntaryExit (p : ExitPool) (state : BeaconState)
    (exit : SignedVoluntaryExit) : ExitPool :=
  match find exitKey p.pending (exitKey exit) with
  | some index =>
    match p.pending[index]? with
    | some old => if exit.exit.epoch < old.exit.epoch then ⟨p.pending.set index exit⟩ else p
    | none => p
  | none =>
    match atIndex state.validators exit.exit.validatorIndex with
    | .error _ => p
    | .ok v =>
      if v.exitEpoch ≠ farFutureEpoch then p
      else ⟨addSorted exitKey p.pending exit⟩

def ExitPool.markIncluded (p : ExitPool) (exit : SignedVoluntaryExit) : ExitPool :=
  match find exitKey p.pending (exitKey exit) with
  | some index => ⟨p.pending.eraseIdx index⟩
  | none => p

/-! ### Runs of the pools -/

structure Pools where
  slashings : SlashingPool
  exits : ExitPool
  deriving DecidableEq, Repr

/-- `NewPool` of both packages. -/
def newPools : Pools := ⟨⟨[], [], []⟩, ⟨[]⟩⟩

/-- What happens to the pools; each call comes with the state it reads. -/
inductive PoolCall where
  | insertProposerSlashing (state : BeaconState) (slashing : ProposerSlashing)
  | insertAttesterSlashing (state : BeaconState) (slashing : AttesterSlashing)
  | insertVoluntaryExit (state : BeaconState) (exit : SignedVoluntaryExit)
  | markIncludedProposerSlashing (ps : ProposerSlashing)
  | markIncludedAttesterSlashing (as : AttesterSlashing)
  | markIncluded (exit : SignedVoluntaryExit)
  | pendingProposerSlashings (state : BeaconState) (noLimit : Bool)
  | pendingAttesterSlashings (state : BeaconState) (noLimit : Bool)

section Runs

variable {κ σ : Type} (c : Crypto κ σ) (fuel : ℕ)

def Pools.call (pools : Pools) : PoolCall → Pools
  | .insertProposerSlashing state slashing =>
    match pools.slashings.insertProposerSlashing c state slashing with
    | .ok p => { pools with slashings := p }
    | .error _ => pools
  | .insertAttesterSlashing state slashing =>
    { pools with slashings := (pools.slashings.insertAttesterSlashing c state slashing).1 }
  | .insertVoluntaryExit state exit =>
    { pools with exits := pools.exits.insertVoluntaryExit state exit }
  | .markIncludedProposerSlashing ps =>
    { pools with slashings := pools.slashings.markIncludedProposerSlashing ps }
  | .markIncludedAttesterSlashing as =>
    { pools with slashings := pools.slashings.markIncludedAttesterSlashing as }
  | .markIncluded exit => { pools with exits := pools.exits.markIncluded exit }
  | .pendingProposerSlashings state noLimit =>
    { pools with slashings := (pools.slashings.pendingProposerSlashings state noLimit).1 }
  | .pendingAttesterSlashings state noLimit =>
    { pools with slashings := (pools.slashings.pendingAttesterSlashings state noLimit).1 }

/-- An operation that is inserted is valid on the state, on its own. -/
def PoolCall.ValidOn (s : BeaconState) : PoolCall → Prop
  | .insertProposerSlashing _ slashing => ∃ t, processProposerSlashings c fuel s [slashing] = .ok t
  | .insertAttesterSlashing _ slashing => ∃ t, processAttesterSlashings c fuel s [slashing] = .ok t
  | .insertVoluntaryExit _ exit => ∃ t, processVoluntaryExits c s [exit] = .ok t
  | _ => True

/-- The operations that `GetBlock` takes from the pools. -/
def blockOperations (pools : Pools) (head : BeaconState) (slot : Slot) :
    List ProposerSlashing × List AttesterSlashing × List SignedVoluntaryExit :=
  let (slashings, proposerSlashings) := pools.slashings.pendingProposerSlashings head false
  let (_, attesterSlashings) := slashings.pendingAttesterSlashings head false
  (proposerSlashings, attesterSlashings, pools.exits.pendingExits head slot false)

/-- The operations applied in the order of a block. -/
def processPoolOperations (s : BeaconState)
    (ops : List ProposerSlashing × List AttesterSlashing × List SignedVoluntaryExit) :
    Except BeaconErr BeaconState := do
  let s ← processProposerSlashings c fuel s ops.1
  let s ← processAttesterSlashings c fuel s ops.2.1
  processVoluntaryExits c s ops.2.2

end Runs

/-! ### What the pools keep -/

variable (p : SlashingPool)

section Kept

variable {κ σ : Type} {c : Crypto κ σ} {fuel : ℕ} {s : BeaconState} {pools : Pools}
  {state : BeaconState} {slashing : ProposerSlashing}

/-- A pool keeps one operation for a validator, and the operations are valid on a state. -/
structure Kept (c : Crypto κ σ) (fuel : ℕ) (s : BeaconState) (pools : Pools) : Prop where
  proposers : pools.slashings.pendingProposerSlashing.Pairwise
    fun a b => proposerKey a < proposerKey b
  attesters : pools.slashings.pendingAttesterSlashing.Pairwise
    fun a b => attesterKey a < attesterKey b
  exits : pools.exits.pending.Pairwise fun a b => exitKey a < exitKey b
  slashes : ∀ e ∈ pools.slashings.pendingAttesterSlashing,
    e.validatorToSlash ∈ slashedVal e.attesterSlashing
  validProposers : ∀ p ∈ pools.slashings.pendingProposerSlashing,
    ∃ t, processProposerSlashings c fuel s [p] = .ok t
  validAttesters : ∀ e ∈ pools.slashings.pendingAttesterSlashing,
    ∃ t, processAttesterSlashings c fuel s [e.attesterSlashing] = .ok t
  validExits : ∀ e ∈ pools.exits.pending, ∃ t, processVoluntaryExits c s [e] = .ok t

theorem kept_newPools : Kept c fuel s newPools where
  proposers := List.Pairwise.nil
  attesters := List.Pairwise.nil
  exits := List.Pairwise.nil
  slashes := fun _ h => (not_mem_nil h).elim
  validProposers := fun _ h => (not_mem_nil h).elim
  validAttesters := fun _ h => (not_mem_nil h).elim
  validExits := fun _ h => (not_mem_nil h).elim

theorem Kept.sublist (h : Kept c fuel s pools) {pools' : Pools}
    (hproposers : pools'.slashings.pendingProposerSlashing.Sublist
      pools.slashings.pendingProposerSlashing)
    (hattesters : pools'.slashings.pendingAttesterSlashing.Sublist
      pools.slashings.pendingAttesterSlashing)
    (hexits : pools'.exits.pending.Sublist pools.exits.pending) : Kept c fuel s pools' where
  proposers := h.proposers.sublist hproposers
  attesters := h.attesters.sublist hattesters
  exits := h.exits.sublist hexits
  slashes := fun e he => h.slashes e (hattesters.subset he)
  validProposers := fun p hp => h.validProposers p (hproposers.subset hp)
  validAttesters := fun e he => h.validAttesters e (hattesters.subset he)
  validExits := fun e he => h.validExits e (hexits.subset he)

theorem SlashingPool.insertProposerSlashing_eq_ok {p p' : SlashingPool}
    (hp : p.insertProposerSlashing c state slashing = .ok p') :
    find proposerKey p.pendingProposerSlashing (proposerKey slashing) = none ∧ p' =
      ⟨addSorted proposerKey p.pendingProposerSlashing slashing,
        p.pendingAttesterSlashing, p.included⟩ := by
  rw [SlashingPool.insertProposerSlashing] at hp
  obtain ⟨⟨⟩, -, hp⟩ := bind_eq_ok.mp hp
  obtain ⟨ok, -, hp⟩ := bind_eq_ok.mp hp
  split at hp
  · cases hp
  split at hp
  · cases hp
  next hnone => exact ⟨hnone, (Except.ok.inj hp).symm⟩

section

variable (h : Kept c fuel s pools)

include h

theorem Kept.insertProposerSlashing {p : SlashingPool}
    (hvalid : ∃ t, processProposerSlashings c fuel s [slashing] = .ok t)
    (hp : pools.slashings.insertProposerSlashing c state slashing = .ok p) :
    Kept c fuel s { pools with slashings := p } := by
  obtain ⟨hnone, rfl⟩ := insertProposerSlashing_eq_ok hp
  exact { h with
    proposers := pairwise_addSorted h.proposers hnone
    validProposers := forall_mem_addSorted h.validProposers hvalid }

theorem Kept.insertAttesterLoop
    {slashing : AttesterSlashing}
    (hvalid : ∃ t, processAttesterSlashings c fuel s [slashing] = .ok t)
    {vals : List ValidatorIndex} (hvals : ∀ v ∈ vals, v ∈ slashedVal slashing) (cantSlash : ℕ) :
    Kept c fuel s { pools with
      slashings := (insertAttesterLoop state slashing vals pools.slashings cantSlash).1 } := by
  induction vals generalizing pools cantSlash with
  | nil => exact h
  | cons val rest ih =>
    obtain ⟨hval, hrest⟩ := forall_mem_cons.mp hvals
    rw [Operations.insertAttesterLoop]
    split
    · exact h
    · exact ih h hrest _
    split
    · exact ih h hrest _
    next hnone =>
      let pending := addSorted attesterKey pools.slashings.pendingAttesterSlashing
        ⟨slashing, val⟩
      have hkept : Kept c fuel s
          ⟨{ pools.slashings with pendingAttesterSlashing := pending }, pools.exits⟩ :=
        { h with
          attesters := pairwise_addSorted h.attesters hnone
          slashes := forall_mem_addSorted h.slashes hval
          validAttesters := forall_mem_addSorted h.validAttesters hvalid }
      exact ih hkept hrest cantSlash

theorem Kept.insertAttesterSlashing
    {slashing : AttesterSlashing}
    (hvalid : ∃ t, processAttesterSlashings c fuel s [slashing] = .ok t) :
    Kept c fuel s { pools with
      slashings := (pools.slashings.insertAttesterSlashing c state slashing).1 } := by
  have hloop : Kept c fuel s ⟨(Operations.insertAttesterLoop state slashing _ pools.slashings 0).1,
      _⟩ :=
    h.insertAttesterLoop hvalid (fun _ hv => hv) 0
  rw [SlashingPool.insertAttesterSlashing]
  split
  · exact h
  · split
    next heq =>
      rw [heq] at hloop
      exact hloop
    next heq =>
      rw [heq] at hloop
      split <;> exact hloop

theorem Kept.insertVoluntaryExit
    {exit : SignedVoluntaryExit} (hvalid : ∃ t, processVoluntaryExits c s [exit] = .ok t) :
    Kept c fuel s { pools with exits := pools.exits.insertVoluntaryExit state exit } := by
  rw [ExitPool.insertVoluntaryExit]
  split
  next index hindex =>
    obtain ⟨old, hold, hkey⟩ := find_eq_some hindex
    rw [hold]
    dsimp only
    split
    · refine { h with exits := ?_, validExits := fun e he => ?_ }
      · exact pairwise_set h.exits hold hkey.symm
      · rcases mem_or_eq_of_mem_set he with he | rfl
        · exact h.validExits e he
        · exact hvalid
    · exact h
  next hnone =>
    split
    · exact h
    split
    · exact h
    · exact { h with
        exits := pairwise_addSorted h.exits hnone
        validExits := forall_mem_addSorted h.validExits hvalid }

end

/-- The slashings that a loop takes, one after the other. -/
def Accepted {α : Type} (check : List ValidatorIndex → α → Except BeaconErr Bool)
    (slashes : α → List ValidatorIndex) : List ValidatorIndex → List α → Prop
  | _, [] => True
  | marked, a :: l => check marked a = .ok true ∧ Accepted check slashes (marked ++ slashes a) l

theorem pendingLoop_spec {α : Type} {check : List ValidatorIndex → α → Except BeaconErr Bool}
    {slashes : α → List ValidatorIndex} {maxSlashings : ℕ} (l : List α)
    (marked : List ValidatorIndex) (pending : List α) :
    (pendingLoop check slashes maxSlashings l marked pending).1.Sublist l ∧
      ∃ picked, (pendingLoop check slashes maxSlashings l marked pending).2 = pending ++ picked ∧
        picked.Sublist l ∧ Accepted check slashes marked picked := by
  induction l generalizing marked pending with
  | nil => exact ⟨Sublist.refl _, [], (append_nil _).symm, Sublist.refl _, trivial⟩
  | cons slashing rest ih =>
    rw [pendingLoop]
    split
    · exact ⟨Sublist.refl _, [], (append_nil _).symm, nil_sublist _, trivial⟩
    split
    · obtain ⟨hkept, picked, htaken, hpicked, hacc⟩ := ih marked pending
      exact ⟨hkept.cons_cons _, picked, htaken, hpicked.cons _, hacc⟩
    · obtain ⟨hkept, picked, htaken, hpicked, hacc⟩ := ih marked pending
      exact ⟨hkept.cons _, picked, htaken, hpicked.cons _, hacc⟩
    next hcheck =>
      obtain ⟨hkept, picked, htaken, hpicked, hacc⟩ :=
        ih (marked ++ slashes slashing) (pending ++ [slashing])
      refine ⟨hkept.cons_cons _, slashing :: picked, ?_, hpicked.cons_cons _, hcheck, hacc⟩
      rw [htaken, append_assoc, singleton_append]

theorem sublist_markIncludedAttester (vals : List ValidatorIndex) :
    (vals.foldl markIncludedAttester p).pendingProposerSlashing =
        p.pendingProposerSlashing ∧
      (vals.foldl markIncludedAttester p).pendingAttesterSlashing.Sublist
        p.pendingAttesterSlashing := by
  induction vals generalizing p with
  | nil => exact ⟨rfl, Sublist.refl _⟩
  | cons val vals ih =>
    obtain ⟨hproposers, hattesters⟩ := ih (p.markIncludedAttester val)
    refine ⟨hproposers, hattesters.trans ?_⟩
    rw [markIncludedAttester]
    split
    · exact eraseIdx_sublist ..
    · exact Sublist.refl _

theorem Kept.call (h : Kept c fuel s pools) {call : PoolCall} (hvalid : call.ValidOn c fuel s) :
    Kept c fuel s (pools.call c call) := by
  cases call with
  | insertProposerSlashing state slashing =>
    rw [Pools.call]
    split
    next hp => exact h.insertProposerSlashing hvalid hp
    · exact h
  | insertAttesterSlashing state slashing => exact h.insertAttesterSlashing hvalid
  | insertVoluntaryExit state exit => exact h.insertVoluntaryExit hvalid
  | markIncludedProposerSlashing ps =>
    refine h.sublist ?_ (Sublist.refl _) (Sublist.refl _)
    simp only [Pools.call, SlashingPool.markIncludedProposerSlashing]
    split
    · exact eraseIdx_sublist ..
    · exact Sublist.refl _
  | markIncludedAttesterSlashing as =>
    obtain ⟨hproposers, hattesters⟩ := sublist_markIncludedAttester pools.slashings (slashedVal as)
    exact h.sublist (hproposers ▸ Sublist.refl _) hattesters (Sublist.refl _)
  | markIncluded exit =>
    refine h.sublist (Sublist.refl _) (Sublist.refl _) ?_
    simp only [Pools.call, ExitPool.markIncluded]
    split
    · exact eraseIdx_sublist ..
    · exact Sublist.refl _
  | pendingProposerSlashings state noLimit =>
    exact h.sublist (pendingLoop_spec _ _ _).1 (Sublist.refl _) (Sublist.refl _)
  | pendingAttesterSlashings state noLimit =>
    exact h.sublist (Sublist.refl _) (pendingLoop_spec _ _ _).1 (Sublist.refl _)

end Kept

/-! ### The operations of a block -/

section Fit

variable {κ σ : Type} {c : Crypto κ σ} {fuel : ℕ} {s t : BeaconState} {D : Set ℕ}
  {included marked : List ValidatorIndex}

theorem processProposerSlashings_fit (h : Slashed D s t) {l : List ProposerSlashing}
    (hvalid : ∀ p ∈ l, ∃ u, processProposerSlashings c fuel s [p] = .ok u)
    (hkeys : l.Pairwise fun a b => proposerKey a < proposerKey b)
    (hD : ∀ p ∈ l, proposerKey p ∉ D) (k : ℕ) :
    ∃ t', (l.zipIdx k).foldlM (fun state p => processProposerSlashing c fuel state p.1 p.2) t =
        .ok t' ∧ Slashed (D ∪ {i | ∃ p ∈ l, proposerKey p = i}) s t' := by
  induction l generalizing D t k with
  | nil => exact ⟨t, rfl, by simpa using h⟩
  | cons p l ih =>
    obtain ⟨⟨u, hu⟩, hvalid⟩ := forall_mem_cons.mp hvalid
    obtain ⟨hp, hkeys⟩ := pairwise_cons.mp hkeys
    obtain ⟨hpD, hD⟩ := forall_mem_cons.mp hD
    have hu : processProposerSlashing c fuel s p 0 = .ok u := by
      simpa [processProposerSlashings] using hu
    obtain ⟨t₁, ht₁, h₁⟩ := h.processProposerSlashing hu hpD k
    have hD' : ∀ q ∈ l, proposerKey q ∉ insert (proposerKey p) D := fun q hq hmem =>
      hmem.elim (hp q hq).ne' (hD q hq)
    obtain ⟨t', ht', h'⟩ := ih h₁ hvalid hkeys hD' (k + 1)
    refine ⟨t', ?_, ?_⟩
    · rw [zipIdx_cons, foldlM_cons]
      exact bind_eq_ok.mpr ⟨t₁, ht₁, ht'⟩
    · convert h' using 1
      ext i
      simp only [Set.mem_union, Set.mem_insert_iff, Set.mem_ofPred_eq, mem_cons,
        exists_eq_or_imp, proposerKey, eq_comm (a := i)]
      tauto

theorem slashableAt_of_check {idx : ValidatorIndex}
    (h : validatorSlashingPreconditionCheck included s idx = .ok true) : SlashableAt s idx := by
  rw [validatorSlashingPreconditionCheck] at h
  split at h
  · cases h
  · obtain ⟨v, hv, h⟩ := bind_eq_ok.mp h
    exact ⟨v, atIndex_eq_ok.mp hv, Except.ok.inj h⟩

theorem checkPendingAttester_eq_true
    {e : PendingAttesterSlashing} (h : checkPendingAttester included s marked e = .ok true) :
    e.validatorToSlash ∉ marked ∧ SlashableAt s e.validatorToSlash := by
  obtain ⟨valid, hvalid, h⟩ := bind_eq_ok.mp h
  have h := Except.ok.inj h
  simp only [Bool.not_eq_true', Bool.or_eq_false_iff, decide_eq_false_iff_not,
    Bool.not_eq_false'] at h
  obtain ⟨hmarked, rfl⟩ := h
  exact ⟨hmarked, slashableAt_of_check hvalid⟩

/-- The validators of some attester slashings. -/
def slashedBy (l : List PendingAttesterSlashing) : Set ℕ :=
  {i | ∃ e ∈ l, ∃ idx ∈ slashedVal e.attesterSlashing, idx.toNat = i}

theorem processAttesterSlashings_fit {D₀ : Set ℕ}
    (h : Slashed D s t) {l : List PendingAttesterSlashing}
    (hacc : Accepted (checkPendingAttester included s) (fun e => slashedVal e.attesterSlashing)
      marked l)
    (hD : D ⊆ D₀ ∪ {i | ∃ idx ∈ marked, idx.toNat = i})
    (hvalid : ∀ e ∈ l, ∃ u, processAttesterSlashings c fuel s [e.attesterSlashing] = .ok u)
    (hslashes : ∀ e ∈ l, e.validatorToSlash ∈ slashedVal e.attesterSlashing)
    (hD₀ : ∀ e ∈ l, attesterKey e ∉ D₀) (k : ℕ) :
    ∃ t' D', ((l.map (·.attesterSlashing)).zipIdx k).foldlM
        (fun state p => processAttesterSlashing c fuel state p.1 p.2) t = .ok t' ∧
      Slashed D' s t' ∧ D' ⊆ D ∪ slashedBy l := by
  induction l generalizing D t k marked with
  | nil => exact ⟨t, D, rfl, h, Set.subset_union_left⟩
  | cons e l ih =>
    obtain ⟨⟨u, hu⟩, hvalid⟩ := forall_mem_cons.mp hvalid
    obtain ⟨hslash, hslashes⟩ := forall_mem_cons.mp hslashes
    obtain ⟨he₀, hD₀⟩ := forall_mem_cons.mp hD₀
    obtain ⟨hcheck, hacc⟩ := hacc
    obtain ⟨hmarked, hslashable⟩ := checkPendingAttester_eq_true hcheck
    have hu : processAttesterSlashing c fuel s e.attesterSlashing 0 = .ok u := by
      simpa [processAttesterSlashings] using hu
    -- The validator is neither slashed as a proposer nor by an earlier attester slashing.
    have heD : e.validatorToSlash.toNat ∉ D := by
      intro hmem
      rcases hD hmem with hmem | ⟨idx, hidx, heq⟩
      · exact he₀ hmem
      · rw [BitVec.eq_of_toNat_eq heq] at hidx
        exact hmarked hidx
    have hmem : e.validatorToSlash ∈ slashableAttesterIndices e.attesterSlashing :=
      (mem_insertionSort _).mpr hslash
    obtain ⟨t₁, D₁, ht₁, h₁, hD₁⟩ := h.processAttesterSlashing hu hmem heD hslashable k
    have hindices : ∀ {i : ℕ}, (∃ idx ∈ slashableAttesterIndices e.attesterSlashing,
        idx.toNat = i) → ∃ idx ∈ slashedVal e.attesterSlashing, idx.toNat = i := by
      rintro i ⟨idx, hidx, rfl⟩
      exact ⟨idx, (mem_insertionSort _).mp hidx, rfl⟩
    have hsub : D₁ ⊆ D₀ ∪ {i | ∃ idx ∈ marked ++ slashedVal e.attesterSlashing, idx.toNat = i} := by
      intro i hi
      rcases hD₁ hi with hi | hi
      · rcases hD hi with hi | ⟨idx, hidx, rfl⟩
        · exact Or.inl hi
        · exact Or.inr ⟨idx, mem_append_left _ hidx, rfl⟩
      · obtain ⟨idx, hidx, rfl⟩ := hindices hi
        exact Or.inr ⟨idx, mem_append_right _ hidx, rfl⟩
    obtain ⟨t', D', ht', h', hD'⟩ := ih h₁ hacc hsub hvalid hslashes hD₀ (k + 1)
    refine ⟨t', D', ?_, h', fun i hi => ?_⟩
    · rw [map_cons, zipIdx_cons, foldlM_cons]
      exact bind_eq_ok.mpr ⟨t₁, ht₁, ht'⟩
    · rcases hD' hi with hi | ⟨e', he', hi⟩
      · rcases hD₁ hi with hi | hi
        · exact Or.inl hi
        · exact Or.inr ⟨e, mem_cons_self, hindices hi⟩
      · exact Or.inr ⟨e', mem_cons_of_mem _ he', hi⟩

theorem pendingExitsLoop_spec {slot : Slot} {maxExits : ℕ}
    (l pending : List SignedVoluntaryExit) :
    ∃ picked, pendingExitsLoop s slot maxExits l pending = pending ++ picked ∧
      picked.Sublist l := by
  induction l generalizing pending with
  | nil => exact ⟨[], (append_nil _).symm, Sublist.refl _⟩
  | cons e rest ih =>
    have hskip : ∃ picked, pendingExitsLoop s slot maxExits rest pending = pending ++ picked ∧
        picked.Sublist (e :: rest) := by
      obtain ⟨picked, hpicked, hsub⟩ := ih pending
      exact ⟨picked, hpicked, hsub.cons _⟩
    rw [pendingExitsLoop]
    split
    · exact hskip
    split
    · exact hskip
    split
    · split
      · exact ⟨[e], rfl, (nil_sublist rest).cons_cons e⟩
      · obtain ⟨picked, hpicked, hsub⟩ := ih (pending ++ [e])
        refine ⟨e :: picked, ?_, hsub.cons_cons e⟩
        rw [hpicked, append_assoc, singleton_append]
    · exact hskip

theorem processVoluntaryExits_fit (h : Touched D s t) {l : List SignedVoluntaryExit}
    (hvalid : ∀ e ∈ l, ∃ u, processVoluntaryExits c s [e] = .ok u)
    (hkeys : l.Pairwise fun a b => exitKey a < exitKey b) (hD : ∀ e ∈ l, exitKey e ∉ D) (k : ℕ) :
    ∃ t', (l.zipIdx k).foldlM (fun state p => processVoluntaryExit c state p.1 p.2) t =
      .ok t' := by
  induction l generalizing D t k with
  | nil => exact ⟨t, rfl⟩
  | cons e l ih =>
    obtain ⟨⟨u, hu⟩, hvalid⟩ := forall_mem_cons.mp hvalid
    obtain ⟨he, hkeys⟩ := pairwise_cons.mp hkeys
    obtain ⟨heD, hD⟩ := forall_mem_cons.mp hD
    have hu : processVoluntaryExit c s e 0 = .ok u := by
      simpa [processVoluntaryExits] using hu
    obtain ⟨t₁, ht₁, h₁⟩ := h.processVoluntaryExit hu heD k
    have hD' : ∀ q ∈ l, exitKey q ∉ insert (exitKey e) D := fun q hq hmem =>
      hmem.elim (he q hq).ne' (hD q hq)
    obtain ⟨t', ht'⟩ := ih h₁ hvalid hkeys hD' (k + 1)
    refine ⟨t', ?_⟩
    rw [zipIdx_cons, foldlM_cons]
    exact bind_eq_ok.mpr ⟨t₁, ht₁, ht'⟩

theorem pendingProposerSlashings_sublist (noLimit : Bool) :
    (p.pendingProposerSlashings s noLimit).2.Sublist p.pendingProposerSlashing := by
  obtain ⟨-, picked, hpicked, hsub, -⟩ := pendingLoop_spec _ _ _
  exact (hpicked.trans (nil_append _)) ▸ hsub

theorem pendingAttesterSlashings_spec (noLimit : Bool) :
    ∃ picked, (p.pendingAttesterSlashings s noLimit).2 = picked.map (·.attesterSlashing) ∧
      picked.Sublist p.pendingAttesterSlashing ∧
      Accepted (checkPendingAttester p.included s) (fun e => slashedVal e.attesterSlashing) []
        picked := by
  obtain ⟨-, picked, hpicked, hsub, hacc⟩ := pendingLoop_spec _ _ _
  exact ⟨picked, congrArg _ (hpicked.trans (nil_append _)), hsub, hacc⟩

theorem pendingExits_sublist (p : ExitPool) (slot : Slot) (noLimit : Bool) :
    (p.pendingExits s slot noLimit).Sublist p.pending := by
  obtain ⟨picked, hpicked, hsub⟩ : ∃ picked, p.pendingExits s slot noLimit = [] ++ picked ∧
      picked.Sublist p.pending := pendingExitsLoop_spec _ _
  rw [hpicked]
  exact hsub

/-- No validator has operations of two kinds pending. -/
structure OneKind (pools : Pools) : Prop where
  attesters : ∀ e ∈ pools.slashings.pendingAttesterSlashing,
    ∀ p ∈ pools.slashings.pendingProposerSlashing, attesterKey e ≠ proposerKey p
  exits : ∀ x ∈ pools.exits.pending,
    (∀ p ∈ pools.slashings.pendingProposerSlashing, exitKey x ≠ proposerKey p) ∧
      ∀ e ∈ pools.slashings.pendingAttesterSlashing,
        x.exit.validatorIndex ∉ slashedVal e.attesterSlashing

/-- The operations that a block takes from pools of operations that are valid on the head state
are valid together, if no validator has operations of two kinds pending. -/
theorem block_operations_fit (c : Crypto κ σ) (fuel : ℕ) (head : BeaconState) (slot : Slot)
    (calls : List PoolCall) (hvalid : ∀ call ∈ calls, call.ValidOn c fuel head)
    (hkind : OneKind (calls.foldl (Pools.call c) newPools)) :
    ∃ t, processPoolOperations c fuel head
      (blockOperations (calls.foldl (Pools.call c) newPools) head slot) = .ok t := by
  have hkept : Kept c fuel head (calls.foldl (Pools.call c) newPools) :=
    Run.invariant (fun _ _ hkept hcall => hkept.call hcall) kept_newPools
      (Run.admits_of_forall hvalid)
  generalize calls.foldl (Pools.call c) newPools = pools at hkept hkind
  have hpsub := pendingProposerSlashings_sublist (s := head) pools.slashings false
  obtain ⟨picked, hpicked, hasub, hacc⟩ := pendingAttesterSlashings_spec (s := head)
    (pools.slashings.pendingProposerSlashings head false).1 false
  have hxsub := pendingExits_sublist (s := head) pools.exits slot false
  obtain ⟨t₁, ht₁, h₁⟩ := processProposerSlashings_fit (Slashed.refl head)
    (fun p hp => hkept.validProposers p (hpsub.subset hp)) (hkept.proposers.sublist hpsub)
    (fun _ _ => Set.notMem_empty _) 0
  rw [Set.empty_union] at h₁
  obtain ⟨t₂, D, ht₂, h₂, hD⟩ := processAttesterSlashings_fit h₁ hacc Set.subset_union_left
    (fun e he => hkept.validAttesters e (hasub.subset he))
    (fun e he => hkept.slashes e (hasub.subset he))
    (fun e he => by
      rintro ⟨p, hp, heq⟩
      exact hkind.attesters e (hasub.subset he) p (hpsub.subset hp) heq.symm) 0
  obtain ⟨t₃, ht₃⟩ := processVoluntaryExits_fit h₂.toTouched
    (fun x hx => hkept.validExits x (hxsub.subset hx)) (hkept.exits.sublist hxsub)
    (fun x hx hmem => by
      obtain ⟨hproposer, hattester⟩ := hkind.exits x (hxsub.subset hx)
      rcases hD hmem with ⟨p, hp, heq⟩ | ⟨e, he, idx, hidx, heq⟩
      · exact hproposer p (hpsub.subset hp) heq.symm
      · rw [BitVec.eq_of_toNat_eq heq] at hidx
        exact hattester e (hasub.subset he) hidx) 0
  exact ⟨t₃, bind_eq_ok.mpr ⟨t₁, ht₁, bind_eq_ok.mpr
    ⟨t₂, (congrArg (processAttesterSlashings c fuel t₁) hpicked).trans ht₂, ht₃⟩⟩⟩

end Fit

/-! ### Three validators -/

/-- Signatures that all verify. -/
def acceptingCrypto : Crypto Unit Unit := plainCrypto

def slashableValidator (exitEpoch : Epoch) : Validator :=
  { (default : Validator) with
    effectiveBalance := 32000000000
    exitEpoch := exitEpoch
    withdrawableEpoch := farFutureEpoch }

/-- Epoch 258, with two validators that have exited and one that may exit. -/
def threeValidators : BeaconState :=
  { (default : BeaconState) with
    slot := 8256
    fork := ⟨[0, 0, 0, 0], [0, 0, 0, 0], 0⟩
    stateRoots := replicate 32 0
    validators := [slashableValidator 7, slashableValidator 7, slashableValidator farFutureEpoch]
    balances := replicate 3 32000000000
    randaoMixes := replicate 258 0
    slashings := replicate 259 0 }

def doubleProposal (idx : ValidatorIndex) : ProposerSlashing :=
  ⟨⟨{ (default : BeaconBlockHeader) with proposerIndex := idx }, []⟩,
    ⟨{ (default : BeaconBlockHeader) with proposerIndex := idx, stateRoot := 1 }, []⟩⟩

def doubleVote (idx : ValidatorIndex) : AttesterSlashing :=
  ⟨⟨[idx], default, []⟩, ⟨[idx], { (default : AttestationData) with beaconBlockRoot := 1 }, []⟩⟩

/-- The pools get a slashing of a proposer, a slashing of an attester and an exit. -/
def threeCalls (proposer attester : ValidatorIndex) : List PoolCall :=
  [.insertProposerSlashing threeValidators (doubleProposal proposer),
    .insertAttesterSlashing threeValidators (doubleVote attester),
    .insertVoluntaryExit threeValidators ⟨⟨0, 2⟩, []⟩]

theorem exists_of_isOk {x : Except BeaconErr BeaconState} (h : x.isOk = true) : ∃ t, x = .ok t := by
  cases x with
  | ok t => exact ⟨t, rfl⟩
  | error e => cases h

theorem threeCalls_valid {proposer attester : ValidatorIndex} (hp : proposer = 0 ∨ proposer = 2)
    (ha : attester = 0 ∨ attester = 1) :
    ∀ call ∈ threeCalls proposer attester, call.ValidOn acceptingCrypto 1 threeValidators := by
  simp only [threeCalls, forall_mem_cons, PoolCall.ValidOn, not_mem_nil, false_imp_iff,
    implies_true, and_true]
  refine ⟨?_, ?_, exists_of_isOk (by decide +kernel)⟩
  · rcases hp with rfl | rfl
    · exact exists_of_isOk (by decide +kernel)
    · exact exists_of_isOk (by decide +kernel)
  · rcases ha with rfl | rfl
    · exact exists_of_isOk (by decide +kernel)
    · exact exists_of_isOk (by decide +kernel)

theorem pools_threeCalls : (threeCalls 0 1).foldl (Pools.call acceptingCrypto) newPools =
    ⟨⟨[doubleProposal 0], [⟨doubleVote 1, 1⟩], []⟩, ⟨[⟨⟨0, 2⟩, []⟩]⟩⟩ := by
  decide +kernel

theorem block_operations_fit_three : ∃ t, processPoolOperations acceptingCrypto 1 threeValidators
    (blockOperations ((threeCalls 0 1).foldl (Pools.call acceptingCrypto) newPools)
      threeValidators 8256) = .ok t := by
  refine block_operations_fit acceptingCrypto 1 threeValidators 8256 (threeCalls 0 1)
    (threeCalls_valid (Or.inl rfl) (Or.inr rfl)) ?_
  rw [pools_threeCalls]
  constructor
  · decide
  · decide

/-- A validator that is slashed as a proposer can neither be slashed as an attester nor exit. -/
theorem slashed_proposer_fails_block :
    (∀ call ∈ threeCalls 0 0, call.ValidOn acceptingCrypto 1 threeValidators) ∧
    processPoolOperations acceptingCrypto 1 threeValidators
      (blockOperations ((threeCalls 0 0).foldl (Pools.call acceptingCrypto) newPools)
        threeValidators 8256) = .error .nobodySlashed ∧
    (∀ call ∈ threeCalls 2 1, call.ValidOn acceptingCrypto 1 threeValidators) ∧
    processPoolOperations acceptingCrypto 1 threeValidators
      (blockOperations ((threeCalls 2 1).foldl (Pools.call acceptingCrypto) newPools)
        threeValidators 8256) =
      .error (.wrapped "could not verify exit 0" (.alreadyExited 2 263)) := by
  refine ⟨threeCalls_valid (Or.inl rfl) (Or.inl rfl), ?_,
    threeCalls_valid (Or.inr rfl) (Or.inr rfl), ?_⟩
  · decide +kernel
  · decide +kernel

end Vanguard.Operations
