import Vanguard.Operations.Pools

/-!
What the slashing pool remembers.

A slashing of several validators has an entry for each of them. A read of the pool drops the
entries of validators that a slashing it has taken covers, and the entry of that slashing leaves
the pool with its own validator. So a validator keeps its evidence as long as its entry is not
shadowed by that of another validator when the pool is read.
-/

namespace Vanguard.Operations

open Vanguard.Beacon Fallible List Run Search SlashingPool

def PoolCall.state? : PoolCall → Option BeaconState
  | .insertProposerSlashing state _ => some state
  | .insertAttesterSlashing state _ => some state
  | .insertVoluntaryExit state _ => some state
  | .pendingProposerSlashings state _ => some state
  | .pendingAttesterSlashings state _ => some state
  | _ => none

/-- A slashing that covers the validator is marked included. -/
def PoolCall.Marks (v : ValidatorIndex) : PoolCall → Prop
  | .markIncludedProposerSlashing ps => ps.header1.header.proposerIndex = v
  | .markIncludedAttesterSlashing as => v ∈ slashedVal as
  | _ => False

/-- States along one chain: a validator that is no longer slashable stays so. -/
def OneChain (states : List BeaconState) : Prop :=
  ∀ a b c : BeaconState, [a, b, c].Sublist states → ∀ v, SlashableAt a v → SlashableAt c v →
    SlashableAt b v

/-- The entry of the validator stands after one that covers it too and whose own validator is
slashable. -/
def Shadowed (v : ValidatorIndex) (p : SlashingPool) (state : BeaconState) : Prop :=
  ∃ e e', [e, e'].Sublist p.pendingAttesterSlashing ∧ e'.validatorToSlash = v ∧
    e.validatorToSlash ≠ v ∧ v ∈ slashedVal e.attesterSlashing ∧
    validatorSlashingPreconditionCheck p.included state e.validatorToSlash = .ok true

/-- The pool is not read while the entry of the validator is shadowed. -/
def ReadsUnshadowed (v : ValidatorIndex) (pools : Pools) : PoolCall → Prop
  | .pendingAttesterSlashings state _ => ¬ Shadowed v pools.slashings state
  | _ => True

section Evidence

variable {κ σ : Type} {c : Crypto κ σ} {v : ValidatorIndex} {s : BeaconState} {pools : Pools}
  {included marked : List ValidatorIndex} {p : SlashingPool} {slashing : AttesterSlashing}
  {val : ValidatorIndex} {vals : List ValidatorIndex} {pending l : List PendingAttesterSlashing}
  {maxSlashings : ℕ} {as : AttesterSlashing}

/-- The validator of an entry is one that its slashing covers, and the validator `v` is not
marked. -/
structure Unmarked (v : ValidatorIndex) (p : SlashingPool) : Prop where
  covers : ∀ e ∈ p.pendingAttesterSlashing, e.validatorToSlash ∈ slashedVal e.attesterSlashing
  included : v ∉ p.included

/-- There is an entry for the validator. -/
def Listed (v : ValidatorIndex) (p : SlashingPool) : Prop :=
  ∃ e ∈ p.pendingAttesterSlashing, e.validatorToSlash = v

theorem check_of_slashableAt (hv : v ∉ included) (h : SlashableAt s v) :
    validatorSlashingPreconditionCheck included s v = .ok true := by
  obtain ⟨val, hval, hslashable⟩ := h
  rw [validatorSlashingPreconditionCheck, if_neg hv]
  exact bind_eq_ok.mpr ⟨val, atIndex_eq_ok.mpr hval, congrArg _ hslashable⟩

/-! ### Inserts -/

theorem Unmarked.addSorted (h : Unmarked v p)
    (hval : val ∈ slashedVal slashing) :
    let pending := addSorted attesterKey p.pendingAttesterSlashing ⟨slashing, val⟩
    Unmarked v { p with pendingAttesterSlashing := pending } :=
  ⟨forall_mem_addSorted h.covers hval, h.included⟩

theorem Unmarked.insertAttesterLoop
    (hvals : ∀ i ∈ vals, i ∈ slashedVal slashing) (h : Unmarked v p) (cantSlash : ℕ) :
    Unmarked v (insertAttesterLoop s slashing vals p cantSlash).1 ∧
      p.pendingAttesterSlashing ⊆
        (insertAttesterLoop s slashing vals p cantSlash).1.pendingAttesterSlashing := by
  induction vals generalizing p cantSlash with
  | nil => exact ⟨h, List.Subset.refl _⟩
  | cons val rest ih =>
    obtain ⟨hval, hrest⟩ := forall_mem_cons.mp hvals
    rw [Operations.insertAttesterLoop]
    split
    · exact ⟨h, List.Subset.refl _⟩
    · exact ih hrest h _
    split
    · exact ih hrest h _
    · obtain ⟨hunmarked, hsub⟩ := ih hrest (h.addSorted hval) cantSlash
      exact ⟨hunmarked, fun e he => hsub (mem_addSorted.mpr (Or.inl he))⟩

theorem listed_insertAttesterLoop
    (hvals : ∀ i ∈ vals, i ∈ slashedVal slashing) (hv : v ∈ vals) (hs : SlashableAt s v)
    {p' : SlashingPool} (h : Unmarked v p) {cantSlash count : ℕ}
    (hok : insertAttesterLoop s slashing vals p cantSlash = (p', .ok count)) : Listed v p' := by
  induction vals generalizing p cantSlash with
  | nil => exact (not_mem_nil hv).elim
  | cons val rest ih =>
    obtain ⟨hval, hrest⟩ := forall_mem_cons.mp hvals
    have hkeep : ∀ {q : SlashingPool} {n : ℕ}, Unmarked v q → Listed v q →
        insertAttesterLoop s slashing rest q n = (p', .ok count) → Listed v p' := by
      rintro q n hq ⟨e, he, hev⟩ hrun
      have hsub := (hq.insertAttesterLoop (s := s) hrest n).2
      rw [hrun] at hsub
      exact ⟨e, hsub he, hev⟩
    rw [Operations.insertAttesterLoop] at hok
    rcases eq_or_ne v val with rfl | hne
    · rw [check_of_slashableAt h.included hs] at hok
      dsimp only at hok
      split at hok
      next hfound =>
        obtain ⟨e, he, hkey⟩ := find_eq_some hfound
        exact hkeep h ⟨e, mem_of_getElem? he, BitVec.eq_of_toNat_eq hkey⟩ hok
      next =>
        exact hkeep (h.addSorted hval) ⟨⟨slashing, v⟩, mem_addSorted.mpr (Or.inr rfl), rfl⟩ hok
    · have hv' : v ∈ rest := (mem_cons.mp hv).resolve_left hne
      split at hok
      · cases hok
      · exact ih hrest hv' h hok
      split at hok
      · exact ih hrest hv' h hok
      · exact ih hrest hv' (h.addSorted hval) hok

theorem Unmarked.insertAttesterSlashing (h : Unmarked v p) (slashing : AttesterSlashing) :
    Unmarked v (p.insertAttesterSlashing c s slashing).1 ∧
      p.pendingAttesterSlashing ⊆
        (p.insertAttesterSlashing c s slashing).1.pendingAttesterSlashing := by
  have hloop := h.insertAttesterLoop (s := s) (fun _ (hi : _ ∈ slashedVal slashing) => hi) 0
  rw [SlashingPool.insertAttesterSlashing]
  split
  · exact ⟨h, List.Subset.refl _⟩
  split
  next heq =>
    rw [heq] at hloop
    exact hloop
  next heq =>
    rw [heq] at hloop
    split <;> exact hloop

/-- A slashing that is inserted without error leaves an entry for each slashable validator that it
covers. -/
theorem listed_insertAttesterSlashing (h : Unmarked v p)
    (hok : (p.insertAttesterSlashing c s slashing).2 = .ok ()) (hv : v ∈ slashedVal slashing)
    (hs : SlashableAt s v) : Listed v (p.insertAttesterSlashing c s slashing).1 := by
  rw [SlashingPool.insertAttesterSlashing] at hok ⊢
  split at hok
  · cases hok
  split at hok
  · cases hok
  next heq =>
    have hlisted := listed_insertAttesterLoop (fun _ hi => hi) hv hs h heq
    split
    · exact hlisted
    · exact hlisted

/-! ### Reads and marks -/

theorem checkPendingAttester_of_unmarked {e : PendingAttesterSlashing}
    (hcheck : validatorSlashingPreconditionCheck included s e.validatorToSlash = .ok true)
    (hmarked : e.validatorToSlash ∉ marked) : checkPendingAttester included s marked e = .ok true :=
  bind_eq_ok.mpr ⟨true, hcheck, by simp [hmarked, pure, Except.pure]⟩

theorem pendingLoop_covers
    (hcheck : validatorSlashingPreconditionCheck included s v = .ok true)
    (hmax : pending.length + l.length ≤ maxSlashings)
    (hcovers : ∀ e ∈ l, e.validatorToSlash ∈ slashedVal e.attesterSlashing)
    (hmarked : ∀ i ∈ marked, ∃ a ∈ pending, i ∈ slashedVal a.attesterSlashing)
    (hv : ∃ e ∈ l, e.validatorToSlash = v) : ∃ a ∈ (pendingLoop (checkPendingAttester included s)
      (fun e => slashedVal e.attesterSlashing) maxSlashings l marked pending).2,
      v ∈ slashedVal a.attesterSlashing := by
  induction l generalizing marked pending with
  | nil =>
    obtain ⟨e, he, -⟩ := hv
    exact (not_mem_nil he).elim
  | cons e rest ih =>
    obtain ⟨hcover, hcovers⟩ := forall_mem_cons.mp hcovers
    rw [length_cons] at hmax
    -- What is taken already stays taken.
    have htaken : ∀ {marked' : List ValidatorIndex} {pending' : List PendingAttesterSlashing},
        (∃ a ∈ pending', v ∈ slashedVal a.attesterSlashing) →
        ∃ a ∈ (pendingLoop (checkPendingAttester included s)
          (fun e => slashedVal e.attesterSlashing) maxSlashings rest marked' pending').2,
          v ∈ slashedVal a.attesterSlashing := by
      rintro marked' pending' ⟨a, ha, hva⟩
      obtain ⟨-, picked, hpicked, -⟩ := pendingLoop_spec rest marked' pending'
      exact ⟨a, hpicked ▸ mem_append_left _ ha, hva⟩
    have hadded : ∀ i ∈ marked ++ slashedVal e.attesterSlashing,
        ∃ a ∈ pending ++ [e], i ∈ slashedVal a.attesterSlashing := by
      intro i hi
      rcases mem_append.mp hi with hi | hi
      · obtain ⟨a, ha, hia⟩ := hmarked i hi
        exact ⟨a, mem_append_left _ ha, hia⟩
      · exact ⟨e, mem_append_right _ (mem_singleton_self e), hi⟩
    rw [pendingLoop, if_neg (by omega)]
    rcases eq_or_ne e.validatorToSlash v with rfl | hne
    · rcases Classical.em (e.validatorToSlash ∈ marked) with hmem | hmem
      · have hfalse : checkPendingAttester included s marked e = .ok false :=
          bind_eq_ok.mpr ⟨true, hcheck, by simp [hmem, pure, Except.pure]⟩
        rw [hfalse]
        exact htaken (hmarked _ hmem)
      · rw [checkPendingAttester_of_unmarked hcheck hmem]
        exact htaken ⟨e, mem_append_right _ (mem_singleton_self e), hcover⟩
    · obtain ⟨e', he', hev⟩ := hv
      have hrest : ∃ e ∈ rest, e.validatorToSlash = v :=
        ⟨e', (mem_cons.mp he').resolve_left fun heq => hne (heq ▸ hev), hev⟩
      split
      · exact ih (by omega) hcovers hmarked hrest
      · exact ih (by omega) hcovers hmarked hrest
      · refine ih ?_ hcovers hadded hrest
        rw [length_append, length_singleton]
        omega

theorem pendingLoop_keeps
    (hcheck : validatorSlashingPreconditionCheck included s v = .ok true) (hmarked : v ∉ marked)
    (hshadow : ∀ e e', [e, e'].Sublist l → e'.validatorToSlash = v → e.validatorToSlash ≠ v →
      v ∈ slashedVal e.attesterSlashing →
      validatorSlashingPreconditionCheck included s e.validatorToSlash ≠ .ok true)
    (hv : ∃ e ∈ l, e.validatorToSlash = v) : ∃ e ∈ (pendingLoop (checkPendingAttester included s)
      (fun e => slashedVal e.attesterSlashing) maxSlashings l marked pending).1,
      e.validatorToSlash = v := by
  induction l generalizing marked pending with
  | nil => exact hv
  | cons e rest ih =>
    have hsub : rest.Sublist (e :: rest) := sublist_cons_self e rest
    have hshadow' := fun a b hab => hshadow a b (Sublist.trans hab hsub)
    rw [pendingLoop]
    split
    · exact hv
    rcases eq_or_ne e.validatorToSlash v with rfl | hne
    · rw [checkPendingAttester_of_unmarked hcheck hmarked]
      exact ⟨e, mem_cons_self, rfl⟩
    · obtain ⟨e', he', hev⟩ := hv
      have he' : e' ∈ rest := (mem_cons.mp he').resolve_left fun heq => hne (heq ▸ hev)
      split
      · obtain ⟨a, ha, hav⟩ := ih hmarked hshadow' ⟨e', he', hev⟩
        exact ⟨a, mem_cons_of_mem e ha, hav⟩
      · exact ih hmarked hshadow' ⟨e', he', hev⟩
      next htaken =>
        obtain ⟨valid, hvalid, htaken⟩ := bind_eq_ok.mp htaken
        obtain rfl : valid = true := by simp_all [pure, Except.pure]
        have hcover : v ∉ slashedVal e.attesterSlashing := fun hcover =>
          hshadow e e' ((singleton_sublist.mpr he').cons_cons e) hev hne hcover hvalid
        obtain ⟨a, ha, hav⟩ := ih (not_mem_append hmarked hcover) hshadow' ⟨e', he', hev⟩
        exact ⟨a, mem_cons_of_mem e ha, hav⟩

theorem Listed.markIncludedAttester (h : Listed v p) (hne : val ≠ v) :
    Listed v (p.markIncludedAttester val) := by
  obtain ⟨e, he, hev⟩ := h
  rw [SlashingPool.markIncludedAttester]
  refine ⟨e, ?_, hev⟩
  dsimp only
  split
  next i hfound =>
    obtain ⟨e', he', hkey⟩ := find_eq_some hfound
    refine mem_eraseIdx_iff_getElem?.mpr ?_
    obtain ⟨j, hj⟩ := mem_iff_getElem?.mp he
    refine ⟨j, fun heq => hne ?_, hj⟩
    rw [heq, he'] at hj
    rw [← hev, ← Option.some.inj hj]
    exact (BitVec.eq_of_toNat_eq hkey).symm
  next => exact he

theorem Listed.markIncludedAttesterSlashing (h : Listed v p)
    (hv : v ∉ slashedVal as) : Listed v (p.markIncludedAttesterSlashing as) :=
  invariant (fun _ _ h hne => h.markIncludedAttester hne) h
    (admits_of_forall fun _ hval heq => hv (heq ▸ hval))

theorem Unmarked.markIncludedAttesterSlashing (h : Unmarked v p)
    (hv : v ∉ slashedVal as) : Unmarked v (p.markIncludedAttesterSlashing as) := by
  refine ⟨fun e he => h.covers e ((sublist_markIncludedAttester p _).2.subset he), ?_⟩
  exact invariant (I := fun p : SlashingPool => v ∉ p.included)
    (fun _ _ h hne => not_mem_cons_of_ne_of_not_mem hne h) h.included
    (admits_of_forall fun _ hval heq => hv (heq ▸ hval))

/-! ### Runs -/

theorem Unmarked.call (h : Unmarked v pools.slashings) {call : PoolCall} (hmarks : ¬ call.Marks v) :
    Unmarked v (pools.call c call).slashings := by
  cases call with
  | insertProposerSlashing state slashing =>
    rw [Pools.call]
    split
    next p hp =>
      obtain ⟨-, rfl⟩ := insertProposerSlashing_eq_ok hp
      exact ⟨h.covers, h.included⟩
    · exact h
  | insertAttesterSlashing state slashing => exact (h.insertAttesterSlashing slashing).1
  | insertVoluntaryExit state exit => exact h
  | markIncludedProposerSlashing ps =>
    exact ⟨h.covers, not_mem_cons_of_ne_of_not_mem (fun heq => hmarks heq.symm) h.included⟩
  | markIncludedAttesterSlashing as => exact h.markIncludedAttesterSlashing hmarks
  | markIncluded exit => exact h
  | pendingProposerSlashings state noLimit => exact ⟨h.covers, h.included⟩
  | pendingAttesterSlashings state noLimit =>
    exact ⟨fun e he => h.covers e ((pendingLoop_spec _ _ _).1.subset he), h.included⟩

theorem Listed.call (h : Listed v pools.slashings) (hunmarked : Unmarked v pools.slashings)
    {call : PoolCall} (hmarks : ¬ call.Marks v) (hread : ReadsUnshadowed v pools call)
    (hstate : ∀ state, call.state? = some state → SlashableAt state v) :
    Listed v (pools.call c call).slashings := by
  cases call with
  | insertProposerSlashing state slashing =>
    rw [Pools.call]
    split
    next p hp =>
      obtain ⟨-, rfl⟩ := insertProposerSlashing_eq_ok hp
      exact h
    · exact h
  | insertAttesterSlashing state slashing =>
    obtain ⟨e, he, hev⟩ := h
    exact ⟨e, (hunmarked.insertAttesterSlashing slashing).2 he, hev⟩
  | insertVoluntaryExit state exit => exact h
  | markIncludedProposerSlashing ps => exact h
  | markIncludedAttesterSlashing as => exact h.markIncludedAttesterSlashing hmarks
  | markIncluded exit => exact h
  | pendingProposerSlashings state noLimit => exact h
  | pendingAttesterSlashings state noLimit =>
    refine pendingLoop_keeps (check_of_slashableAt hunmarked.included (hstate state rfl))
      not_mem_nil (fun e e' hsub hev hne hcover hcheck => ?_) h
    exact hread ⟨e, e', hsub, hev, hne, hcover, hcheck⟩

theorem Unmarked.run (h : Unmarked v pools.slashings) {calls : List PoolCall}
    (hmarks : ∀ call ∈ calls, ¬ call.Marks v) :
    Unmarked v (calls.foldl (Pools.call c) pools).slashings :=
  invariant (I := fun pools : Pools => Unmarked v pools.slashings)
    (fun _ _ h hmarks => h.call hmarks) h (admits_of_forall hmarks)

theorem Listed.run (h : Listed v pools.slashings) (hunmarked : Unmarked v pools.slashings)
    {calls : List PoolCall} (hmarks : ∀ call ∈ calls, ¬ call.Marks v)
    (hreads : Admits (Pools.call c) (ReadsUnshadowed v) pools calls)
    (hstates : ∀ state ∈ calls.filterMap PoolCall.state?, SlashableAt state v) :
    Listed v (calls.foldl (Pools.call c) pools).slashings := by
  have hok : ∀ call ∈ calls,
      ¬ call.Marks v ∧ ∀ state, call.state? = some state → SlashableAt state v :=
    fun call hcall => ⟨hmarks call hcall,
      fun state hstate => hstates state (mem_filterMap.mpr ⟨call, hcall, hstate⟩)⟩
  refine (invariant (I := fun pools => Listed v pools.slashings ∧ Unmarked v pools.slashings)
    ?_ ⟨h, hunmarked⟩ (admits_and.mpr ⟨hreads, admits_of_forall hok⟩)).1
  rintro pools call ⟨hlisted, hunmarked⟩ ⟨hread, hmarks, hstate⟩
  exact ⟨hlisted.call hunmarked hmarks hread hstate, hunmarked.call hmarks⟩

/-- A slashing of `v` is inserted on the state `s₀`. As long as `v` is slashable, none of its
slashings is marked and its entry is not shadowed at a read, a read of the whole pool returns a
slashing that covers it. -/
theorem pool_remembers_slashable (c : Crypto κ σ) (v : ValidatorIndex) (pre post : List PoolCall)
    (s₀ now : BeaconState) (slashing : AttesterSlashing)
    (hok : ((pre.foldl (Pools.call c) newPools).slashings.insertAttesterSlashing c s₀
      slashing).2 = .ok ())
    (hv : v ∈ slashedVal slashing) (hs₀ : SlashableAt s₀ v) (hnow : SlashableAt now v)
    (hchain : OneChain
      ((pre ++ .insertAttesterSlashing s₀ slashing :: post).filterMap PoolCall.state? ++ [now]))
    (hmarks : ∀ call ∈ pre ++ post, ¬ call.Marks v)
    (hreads : Admits (Pools.call c) (ReadsUnshadowed v)
      ((pre.foldl (Pools.call c) newPools).call c (.insertAttesterSlashing s₀ slashing)) post) :
    ∃ sl ∈ (((pre ++ .insertAttesterSlashing s₀ slashing :: post).foldl (Pools.call c)
      newPools).slashings.pendingAttesterSlashings now true).2, v ∈ slashedVal sl := by
  have hpre : Unmarked v (pre.foldl (Pools.call c) newPools).slashings :=
    Unmarked.run ⟨fun _ he => (not_mem_nil he).elim, not_mem_nil⟩
      fun call hcall => hmarks call (mem_append_left _ hcall)
  have hpost : ∀ call ∈ post, ¬ call.Marks v :=
    fun call hcall => hmarks call (mem_append_right _ hcall)
  rw [foldl_append, foldl_cons]
  have hinserted : Unmarked v ((pre.foldl (Pools.call c) newPools).call c
      (.insertAttesterSlashing s₀ slashing)).slashings :=
    hpre.call not_false
  -- Every state after the insert lies between `s₀` and `now`.
  have hstates : ∀ state ∈ post.filterMap PoolCall.state?, SlashableAt state v := by
    intro state hstate
    refine hchain s₀ state now ?_ v hs₀ hnow
    have hbetween : [state, now].Sublist (post.filterMap PoolCall.state? ++ [now]) :=
      (singleton_sublist.mpr hstate).append (Sublist.refl [now])
    rw [filterMap_append, append_assoc]
    exact (hbetween.cons_cons s₀).trans (sublist_append_right _ _)
  have hlisted := (listed_insertAttesterSlashing hpre hok hv hs₀).run hinserted hpost hreads hstates
  have hunmarked := hinserted.run (c := c) hpost
  have hmarked : ∀ i ∈ ([] : List ValidatorIndex),
      ∃ a ∈ ([] : List PendingAttesterSlashing), i ∈ slashedVal a.attesterSlashing :=
    fun _ hi => (not_mem_nil hi).elim
  obtain ⟨a, ha, hva⟩ := pendingLoop_covers (check_of_slashableAt hunmarked.included hnow)
    (Nat.le_of_eq (Nat.zero_add _)) hunmarked.covers hmarked hlisted
  exact ⟨a.attesterSlashing, mem_map_of_mem ha, hva⟩

end Evidence

/-- Both validators vote twice. -/
def doubleVotes : AttesterSlashing :=
  ⟨⟨[0, 1], default, []⟩,
    ⟨[0, 1], { (default : AttestationData) with beaconBlockRoot := 1 }, []⟩⟩

/-- The first validator has been slashed. -/
def firstSlashed : BeaconState :=
  { threeValidators with
    validators := [{ slashableValidator 7 with slashed := true }, slashableValidator 7,
      slashableValidator farFutureEpoch] }

theorem slashableAt_second : SlashableAt threeValidators 1 ∧ SlashableAt firstSlashed 1 :=
  ⟨⟨slashableValidator 7, rfl, by decide⟩, ⟨slashableValidator 7, rfl, by decide⟩⟩

theorem oneChain_firstSlashed : OneChain [threeValidators, threeValidators, firstSlashed] := by
  intro a b c hsub v ha _
  obtain ⟨rfl, rfl, -⟩ : a = threeValidators ∧ b = threeValidators ∧ [c] = [firstSlashed] := by
    simpa using hsub.eq_of_length rfl
  exact ha

/-- A slashing of both validators, and one of the second that overlaps with it. The first validator
is slashed before they are read. -/
theorem pool_remembers_slashable_one :
    ∃ sl ∈ (([PoolCall.insertAttesterSlashing threeValidators doubleVotes,
        .insertAttesterSlashing firstSlashed (doubleVote 1),
        .pendingAttesterSlashings firstSlashed false].foldl (Pools.call acceptingCrypto)
      newPools).slashings.pendingAttesterSlashings firstSlashed true).2, 1 ∈ slashedVal sl := by
  have hchain : OneChain [threeValidators, firstSlashed, firstSlashed, firstSlashed] := by
    intro a b c hsub v _ hc
    have hmem : ∀ s ∈ [b, c], s = firstSlashed := fun s hs => by simpa using hsub.tail.mem hs
    rwa [hmem b (by simp), ← hmem c (by simp)]
  refine pool_remembers_slashable acceptingCrypto 1 [] [.insertAttesterSlashing firstSlashed
      (doubleVote 1), .pendingAttesterSlashings firstSlashed false] threeValidators firstSlashed
    doubleVotes (by decide +kernel) (by decide) slashableAt_second.1 slashableAt_second.2 hchain
    ?_ ⟨trivial, ?_, trivial⟩
  · exact forall_mem_cons.mpr ⟨not_false, forall_mem_singleton.mpr not_false⟩
  · rintro ⟨e, e', hsub, -, hne, -, hslashable⟩
    have hentries : ∀ e ∈ ([PoolCall.insertAttesterSlashing threeValidators doubleVotes,
        .insertAttesterSlashing firstSlashed (doubleVote 1)].foldl (Pools.call acceptingCrypto)
          newPools).slashings.pendingAttesterSlashing, e.validatorToSlash = 1 ∨
        validatorSlashingPreconditionCheck [] firstSlashed e.validatorToSlash ≠ .ok true := by
      decide +kernel
    exact (hentries e (hsub.mem mem_cons_self)).elim hne fun hcheck => hcheck hslashable

/-- A slashing of two validators is read once, which drops the entry of the second, and then the
first one is slashed: the pool has nothing left for the second. -/
theorem pool_forgets_slashable :
    (newPools.slashings.insertAttesterSlashing acceptingCrypto threeValidators doubleVotes).2 =
      .ok () ∧
    1 ∈ slashedVal doubleVotes ∧ SlashableAt threeValidators 1 ∧ SlashableAt firstSlashed 1 ∧
    OneChain [threeValidators, threeValidators, firstSlashed] ∧
    (([PoolCall.insertAttesterSlashing threeValidators doubleVotes,
        .pendingAttesterSlashings threeValidators true].foldl (Pools.call acceptingCrypto)
      newPools).slashings.pendingAttesterSlashings firstSlashed true).2 = [] := by
  refine ⟨by decide +kernel, by decide, slashableAt_second.1, slashableAt_second.2,
    oneChain_firstSlashed, ?_⟩
  decide +kernel

end Vanguard.Operations
