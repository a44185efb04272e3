import Vanguard.Lib.Run
import Vanguard.Slasher.Database

/-!
The cache of highest attestations in front of the database.

A set that is not in the cache is started afresh when one of its validators is saved, and an evicted
set replaces what is stored under its key. That key is divided by a thousand once more, so set 0 is
the only one that is stored where it is looked up. Cache and database hold what was saved last as
long as no other set is evicted, and set 0 only with all validators of the stored set.
-/

namespace Vanguard.Slasher

open Bytes

inductive HighestOp where
  | save (highest : HighestAttestation)
  | read (validatorID : ValidatorIndex)
  | evict (setKey : BitVec 64)
  deriving DecidableEq, Repr

namespace HighestOp

def apply (s : Store) : HighestOp → Store
  | save highest => s.saveHighestAttestation highest
  | read validatorID => (s.highestAttestationOf validatorID).2
  | evict setKey => s.evictHighest setKey

/-- The value of a validator after an operation, if it was `h` before. -/
def saved (h : Option HighestAttestation) (v : ValidatorIndex) :
    HighestOp → Option HighestAttestation
  | save highest => if highest.validatorId = v then some highest else h
  | read _ => h
  | evict _ => h

/-- The value that was saved most recently for a validator. -/
def lastSaved (ops : List HighestOp) (v : ValidatorIndex) : Option HighestAttestation :=
  ops.foldl (fun h op => op.saved h v) none

theorem lastSaved_concat (ops : List HighestOp) (op : HighestOp) (v : ValidatorIndex) :
    lastSaved (ops ++ [op]) v = op.saved (lastSaved ops v) v := by
  rw [lastSaved, List.foldl_append]
  rfl

end HighestOp

namespace Store

/-- What the cache holds after an operation, before an entry is evicted. -/
def held (s : Store) : HighestOp → BitVec 64 → Option HighestSet
  | .save highest => fun k =>
    if k = highestAttSetkey highest.validatorId then
      some (s.setWith (highestAttSetkey highest.validatorId) highest)
    else s.highestAttestationCache.peek k
  | .read _ => s.highestAttestationCache.peek
  | .evict _ => s.highestAttestationCache.peek

def evictedBy (s : Store) : HighestOp → Option (BitVec 64 × HighestSet)
  | .save highest =>
    let setKey := highestAttSetkey highest.validatorId
    (s.highestAttestationCache.add setKey (s.setWith setKey highest)).2
  | .read _ => none
  | .evict setKey => (s.highestAttestationCache.peek setKey).map (setKey, ·)

def stored (s : Store) (v : ValidatorIndex) : Option HighestAttestation :=
  s.highestAttestation[highestAttSetkeyBytes v]?.bind (·[v]?)

/-- The value that a call returns. -/
def highest (s : Store) (v : ValidatorIndex) : Option HighestAttestation :=
  ((s.highestAttestationCache.peek (highestAttSetkey v)).bind (·[v]?)).or (s.stored v)

/-- An operation evicts set 0 only, and only with every validator of the stored set. -/
def NoLoss (s : Store) (op : HighestOp) : Prop :=
  ∀ setKey set, s.evictedBy op = some (setKey, set) →
    setKey = 0 ∧ ∀ v, highestAttSetkey v = 0 → s.stored v ≠ none → set[v]? ≠ none

variable {s : Store}

theorem eq_zero_of_highestAttSetkey {k : BitVec 64} (h : highestAttSetkey k = k) : k = 0 := by
  have hdiv : k.toNat / 1000 = k.toNat := by
    conv_rhs => rw [← h, highestAttSetkey, BitVec.toNat_udiv]
    rfl
  refine BitVec.eq_of_toNat_eq ?_
  change k.toNat = 0
  omega

theorem highestAttSetkey_zero : highestAttSetkey 0 = 0 := rfl

theorem fst_highestAttestationOf (h : s.highestAttCacheEnabled = true) (v : ValidatorIndex) :
    (s.highestAttestationOf v).1 = s.highest v := by
  rw [highestAttestationOf, if_pos h, highest, ← Lru.fst_get]
  dsimp only
  cases (s.highestAttestationCache.get (highestAttSetkey v)).1.bind (·[v]?) with
  | none => rfl
  | some highest => rfl

theorem setWith_getElem? (s : Store) (setKey : BitVec 64) (highest : HighestAttestation)
    (v : ValidatorIndex) : (s.setWith setKey highest)[v]? =
      if highest.validatorId = v then some highest
      else (s.highestAttestationCache.peek setKey).bind (·[v]?) := by
  rw [setWith]
  cases s.highestAttestationCache.peek setKey with
  | none =>
    rw [TreeMap.getElem?_insert]
    simp only [@eq_comm _ v]
    rfl
  | some set =>
    rw [TreeMap.getElem?_insert]
    simp only [@eq_comm _ v]
    rfl

theorem stored_persist (s : Store) (x : BitVec 64 × HighestSet) (v : ValidatorIndex) :
    (s.persistHighestAttestations (some x)).stored v =
      if highestAttSetkey v = highestAttSetkey x.1 then x.2[v]? else s.stored v := by
  rw [stored, persistHighestAttestations, highestAttSetkeyBytes, highestAttSetkeyBytes]
  dsimp only
  rw [TreeMap.getElem?_insert]
  simp only [ofUint64_inj]
  split
  · rfl
  · rfl

theorem apply_eq (h : s.highestAttCacheEnabled = true) (op : HighestOp) :
    ∃ c, Lru.Evicts (s.held op) c (s.evictedBy op) ∧ op.apply s =
      persistHighestAttestations { s with highestAttestationCache := c } (s.evictedBy op) := by
  cases op with
  | save highest =>
    refine ⟨_, s.highestAttestationCache.evicts_add _ _, ?_⟩
    rw [HighestOp.apply, saveHighestAttestation, if_pos h]
    rfl
  | read validatorID =>
    refine ⟨(s.highestAttestationCache.get (highestAttSetkey validatorID)).2,
      .inl ⟨rfl, Lru.peek_get _ _⟩, ?_⟩
    rw [HighestOp.apply, highestAttestationOf, if_pos h]
    dsimp only
    split
    · rfl
    · rfl
  | evict setKey => exact ⟨_, s.highestAttestationCache.evicts_remove setKey, rfl⟩

theorem saved_highest (op : HighestOp) (v : ValidatorIndex) : op.saved (s.highest v) v =
      ((s.held op (highestAttSetkey v)).bind (·[v]?)).or (s.stored v) := by
  cases op with
  | save highest =>
    rw [HighestOp.saved, Store.highest, held]
    dsimp only
    by_cases hkey : highestAttSetkey v = highestAttSetkey highest.validatorId
    · rw [if_pos hkey, Option.bind_some, setWith_getElem?, hkey]
      split
      · rfl
      · rfl
    · rw [if_neg hkey, if_neg fun heq => hkey (by rw [heq])]
  | read validatorID => rfl
  | evict setKey => rfl

/-- A set is not empty and has validators of its key only. -/
def OfKey (k : BitVec 64) (set : HighestSet) : Prop :=
  (∃ v : ValidatorIndex, set[v]? ≠ none) ∧
    ∀ v : ValidatorIndex, set[v]? ≠ none → highestAttSetkey v = k

/-- Only validators of set 0 are stored where they are looked up. -/
structure Grouped (s : Store) : Prop where
  enabled : s.highestAttCacheEnabled = true
  cached : ∀ k set, s.highestAttestationCache.peek k = some set → OfKey k set
  stored : ∀ v, s.stored v ≠ none → highestAttSetkey v = 0

theorem grouped_new (size : ℕ) : Grouped (new epochSpansCacheSize size) where
  enabled := rfl
  cached k set h := by cases h
  stored v h := (h rfl).elim

variable (h : Grouped s) (op : HighestOp)

include h

theorem Grouped.held {k : BitVec 64} {set : HighestSet} (hset : s.held op k = some set) :
    OfKey k set := by
  cases op with
  | save highest =>
    rw [Store.held] at hset
    dsimp only at hset
    split at hset
    next hk =>
      obtain rfl := Option.some.inj hset
      refine ⟨⟨highest.validatorId, by simp [setWith_getElem?]⟩, fun v hv => ?_⟩
      rw [setWith_getElem?] at hv
      split at hv
      next heq => rw [hk, heq]
      next =>
        cases hpeek : s.highestAttestationCache.peek (highestAttSetkey highest.validatorId) with
        | none => simp [hpeek] at hv
        | some set =>
          rw [hpeek] at hv
          rw [hk, (h.cached _ set hpeek).2 v hv]
    next => exact h.cached k set hset
  | read validatorID => exact h.cached k set hset
  | evict setKey => exact h.cached k set hset

theorem Grouped.apply : Grouped (op.apply s) := by
  obtain ⟨c, hc, happly⟩ := apply_eq h.enabled op
  rw [happly]
  rcases hc with ⟨hx, hpeek⟩ | ⟨x, hx, hbase, hpeek⟩
  · rw [hx]
    exact ⟨h.enabled, fun k set hset => h.held op (hpeek k ▸ hset), h.stored⟩
  · rw [hx]
    refine ⟨h.enabled, fun k set hset => ?_, fun v hv => ?_⟩
    · have hset : (if k = x.1 then none else s.held op k) = some set := hpeek k ▸ hset
      split at hset
      · cases hset
      · exact h.held op hset
    · rw [stored_persist] at hv
      split at hv
      next hkey =>
        -- the evicted set has validators of its own key only, so that key is 0
        have hv' := (h.held op hbase).2 v hv
        rw [eq_zero_of_highestAttSetkey (hkey.symm.trans hv')] at hv'
        exact hv'
      next => exact h.stored v hv

theorem highest_apply {k : BitVec 64} {set : HighestSet} (hset : s.evictedBy op = some (k, set))
    (v : ValidatorIndex) : s.held op k = some set ∧ (op.apply s).highest v =
      (if highestAttSetkey v = k then none
        else (s.held op (highestAttSetkey v)).bind (·[v]?)).or
      (if highestAttSetkey v = highestAttSetkey k then set[v]? else s.stored v) := by
  obtain ⟨c, hc, happly⟩ := apply_eq h.enabled op
  rcases hc with ⟨hx, -⟩ | ⟨x, hx, hbase, hpeek⟩
  · cases hset.symm.trans hx
  obtain rfl := Option.some.inj (hx.symm.trans hset)
  refine ⟨hbase, ?_⟩
  rw [happly, hx, highest, stored_persist]
  change ((c.peek _).bind _).or _ = _
  rw [hpeek]
  split
  · rfl
  · rfl

theorem highest_apply_iff :
    (∀ v, (op.apply s).highest v = op.saved (s.highest v) v) ↔ s.NoLoss op := by
  simp only [saved_highest]
  constructor
  · intro hkept k set hset
    have hafter := fun v => (highest_apply h op hset v).2.symm.trans (hkept v)
    have hheld := (highest_apply h op hset 0).1
    obtain ⟨⟨v, hv⟩, hown⟩ := h.held op hheld
    have hk : k = 0 := by
      by_contra hne
      have hkey := hown v hv
      have hother : k ≠ highestAttSetkey k := fun heq => hne (eq_zero_of_highestAttSetkey heq.symm)
      have hnone : s.stored v = none := by
        by_contra hstored
        exact hne (hkey.symm.trans (h.stored v hstored))
      have hv' := hafter v
      rw [hkey, if_pos rfl, if_neg hother, hheld, hnone, Option.or_none, Option.or_none] at hv'
      exact hv hv'.symm
    subst hk
    refine ⟨rfl, fun w hw hstored hnone => hstored ?_⟩
    have hw' := hafter w
    rw [hw, if_pos rfl, highestAttSetkey_zero, if_pos rfl, hheld, Option.bind_some, hnone] at hw'
    exact hw'.symm
  · intro hloss v
    cases hev : s.evictedBy op with
    | none =>
      obtain ⟨c, ⟨-, hpeek⟩ | ⟨x, hx, -⟩, happly⟩ := apply_eq h.enabled op
      · rw [happly, hev, highest]
        change ((c.peek _).bind _).or _ = _
        rw [hpeek]
        rfl
      · cases hev.symm.trans hx
    | some x =>
      obtain ⟨k, set⟩ := x
      obtain ⟨rfl, hall⟩ := hloss k set hev
      obtain ⟨hheld, hafter⟩ := highest_apply h op hev v
      rw [hafter, highestAttSetkey_zero]
      by_cases hkey : highestAttSetkey v = 0
      · rw [hkey, if_pos rfl, if_pos rfl, hheld, Option.bind_some]
        cases hset : set[v]? with
        | some highest => rfl
        | none =>
          rw [Option.none_or]
          by_contra hstored
          exact hall v hkey (Ne.symm hstored) hset
      · rw [if_neg hkey, if_neg hkey]

end Store

/-! ### Runs -/

/-- The store after a run with the cache enabled. -/
def afterHighest (size : ℕ) (ops : List HighestOp) : Store :=
  ops.foldl HighestOp.apply (Store.new epochSpansCacheSize size)

theorem afterHighest_concat (size : ℕ) (ops : List HighestOp) (op : HighestOp) :
    afterHighest size (ops ++ [op]) = op.apply (afterHighest size ops) := by
  rw [afterHighest, List.foldl_append]
  rfl

theorem grouped_afterHighest (size : ℕ) (ops : List HighestOp) : (afterHighest size ops).Grouped :=
  Run.invariant_of_step (I := Store.Grouped) (fun _ op h => h.apply op) (Store.grouped_new size) ops

/-- After every part of a run, `HighestAttestation` returns what was saved last, exactly if the run
evicts no set but set 0, and that one only with all validators of the stored set. -/
theorem highestAttestation_coherent_iff (size : ℕ) (ops : List HighestOp) :
    (∀ done left, ops = done ++ left → ∀ v,
        ((afterHighest size done).highestAttestationOf v).1 = HighestOp.lastSaved done v) ↔
      Run.Admits HighestOp.apply Store.NoLoss (Store.new epochSpansCacheSize size) ops := by
  simp only [Store.fst_highestAttestationOf (grouped_afterHighest _ _).enabled]
  induction ops using List.reverseRecOn with
  | nil =>
    refine ⟨fun _ => trivial, fun _ done left hops v => ?_⟩
    obtain ⟨rfl, -⟩ := List.append_eq_nil_iff.mp hops.symm
    rfl
  | append_singleton ops op ih =>
    rw [Run.admits_append, ← ih]
    change _ ↔ _ ∧ (afterHighest size ops).NoLoss op ∧ True
    rw [and_true, ← Store.highest_apply_iff (grouped_afterHighest size ops)]
    constructor
    · intro hcoherent
      refine ⟨fun done left hops => hcoherent done (left ++ [op]) (by simp [hops]), fun v => ?_⟩
      have hafter := hcoherent (ops ++ [op]) [] (by simp) v
      rw [afterHighest_concat, HighestOp.lastSaved_concat] at hafter
      rw [hafter, hcoherent ops [op] rfl v]
    · rintro ⟨hbefore, hstep⟩ done left hops v
      rcases List.eq_nil_or_concat left with rfl | ⟨left, op', rfl⟩
      · rw [List.append_nil] at hops
        rw [← hops, afterHighest_concat, hstep, hbefore ops [] (by simp),
          HighestOp.lastSaved_concat]
      · rw [List.concat_eq_append, ← List.append_assoc] at hops
        exact hbefore done left (List.append_inj' hops rfl).1 v

/-- Set 0 is evicted twice, and is complete each time. -/
def completeSets : List HighestOp :=
  [.save ⟨1, 2, 3⟩, .evict 0, .save ⟨1, 3, 4⟩, .save ⟨1001, 2, 3⟩]

theorem highestAttestation_coherent_complete : ∀ v,
    ((afterHighest 1 completeSets).highestAttestationOf v).1 =
      HighestOp.lastSaved completeSets v := by
  refine (highestAttestation_coherent_iff 1 completeSets).mpr ⟨?_, ?_, ?_, ?_, trivial⟩ _ [] rfl
  · rintro k set ⟨⟩
  · rintro k set ⟨⟩
    exact ⟨rfl, fun v _ hstored => (hstored rfl).elim⟩
  · rintro k set ⟨⟩
  · rintro k set ⟨⟩
    refine ⟨rfl, fun v hv hstored => ?_⟩
    change Store.stored (Store.persistHighestAttestations (Store.new epochSpansCacheSize 1)
      (some (0, (Store.new epochSpansCacheSize 1).setWith 0 ⟨1, 2, 3⟩))) v ≠ none at hstored
    rw [Store.stored_persist, if_pos (hv.trans Store.highestAttSetkey_zero.symm)] at hstored
    dsimp only at hstored
    rw [Store.setWith_getElem?] at hstored
    rw [Store.setWith_getElem?]
    by_cases hv : 1 = v
    · rw [if_pos hv]
      simp
    · rw [if_neg hv] at hstored
      exact (hstored rfl).elim

/-- In a cache for one set, set 1 is lost when it is evicted; and in set 0 a validator is lost when
a neighbour is saved after the eviction of their set and the set is evicted again. -/
theorem neighbour_save_loses_highest :
    let after (ops : List HighestOp) (v : ValidatorIndex) :=
      (((afterHighest 1 ops).highestAttestationOf v).1, HighestOp.lastSaved ops v)
    after [.save ⟨1001, 2, 3⟩, .save ⟨1, 2, 3⟩] 1001 = (none, some ⟨1001, 2, 3⟩) ∧
    after [.save ⟨1, 2, 3⟩, .evict 0, .save ⟨2, 2, 3⟩, .evict 0] 1 = (none, some ⟨1, 2, 3⟩) := by
  decide +kernel

end Vanguard.Slasher
