import Vanguard.Beacon.ShuffleAgreement

/-!
Committees.

Whatever the hash function decides, the shuffled list is a permutation, and the committees cut
it into pieces. The model is that of an empty committee cache.
-/

namespace Vanguard.Beacon

open Shuffle List BitVec Nat Bytes

def shuffleRoundCount : BitVec 64 := 90

def maxCommitteesPerSlot : BitVec 64 := 64

def targetCommitteeSize : BitVec 64 := 128

def maxValidatorsPerCommittee : ℕ := 2048

def slotCommitteeCount (activeValidatorCount : BitVec 64) : BitVec 64 :=
  let committeePerSlot := activeValidatorCount / slotsPerEpoch / targetCommitteeSize
  if maxCommitteesPerSlot < committeePerSlot then maxCommitteesPerSlot
  else if committeePerSlot = 0 then 1
  else committeePerSlot

def beaconCommittee (hash : Bytes → Root) (validatorIndices : List ValidatorIndex) (seed : Root)
    (slot : Slot) (committeeIndex : CommitteeIndex) : Except BeaconErr (List ValidatorIndex) :=
  let committeesPerSlot := slotCommitteeCount (BitVec.ofNat 64 validatorIndices.length)
  let epochOffset := committeeIndex + slot % slotsPerEpoch * committeesPerSlot
  let count := committeesPerSlot * slotsPerEpoch
  computeCommittee hash shuffleRoundCount validatorIndices seed epochOffset count

section Committees

variable {hash : Bytes → Root} {seed : Root} {indices l : List ValidatorIndex} {k n : ℕ}
  {index : CommitteeIndex} {c : ℕ}

theorem slotCommitteeCount_cases (hn : n ≤ 2 ^ 22) :
    ∃ c : ℕ, slotCommitteeCount (BitVec.ofNat 64 n) = BitVec.ofNat 64 c ∧ 1 ≤ c ∧ c ≤ 64 ∧
      (c = 1 ∨ 4096 * c ≤ n) ∧ n ≤ 65536 * c := by
  have hcount : (BitVec.ofNat 64 n / slotsPerEpoch / targetCommitteeSize).toNat = n / 32 / 128 := by
    rw [toNat_udiv, toNat_udiv, toNat_ofNat_of_le hn (by norm_num)]
    rfl
  rw [slotCommitteeCount]
  split
  · next h =>
    have h := lt_def.mp h
    rw [hcount, show maxCommitteesPerSlot.toNat = 64 from rfl] at h
    exact ⟨64, rfl, by omega, by omega, by omega, by omega⟩
  · next h =>
    have h := le_def.mp (BitVec.not_lt.mp h)
    rw [hcount, show maxCommitteesPerSlot.toNat = 64 from rfl] at h
    split
    · next hzero =>
      rw [hzero] at hcount
      have hcount : 0 = n / 32 / 128 := hcount
      exact ⟨1, rfl, by omega, by omega, by omega, by omega⟩
    · next hne =>
      have hpos : n / 32 / 128 ≠ 0 := fun hcon => hne (eq_of_toNat_eq (hcount.trans hcon))
      refine ⟨n / 32 / 128, ?_, by omega, by omega, by omega, by omega⟩
      rw [← hcount, ofNat_toNat, setWidth_eq]

theorem toNat_splitOffset {m : ℕ} (hn : n ≤ 2 ^ 40) (hm : m ≤ 2048) (hk : k ≤ m) :
    (splitOffset (BitVec.ofNat 64 n) (BitVec.ofNat 64 m) (BitVec.ofNat 64 k)).toNat =
      Chunks.offset n m k := by
  have hprod : n * k ≤ 2 ^ 40 * 2048 := Nat.mul_le_mul hn (by omega)
  rw [splitOffset, toNat_udiv, toNat_mul, toNat_ofNat_of_le hn (by norm_num),
    toNat_ofNat_of_le hm (by norm_num), toNat_ofNat_of_le (hk.trans hm) (by norm_num),
    mod_eq_of_lt (by omega), Chunks.offset]

theorem computeCommittee_eq (hl : unshuffleList hash shuffleRoundCount indices seed = .ok l)
    (hlen : l.length = indices.length) (hn : indices.length ≤ 2 ^ 40) {m : ℕ} (hk : k < m)
    (hm : m ≤ 2048) :
    computeCommittee hash shuffleRoundCount indices seed (BitVec.ofNat 64 k) (BitVec.ofNat 64 m) =
      .ok (Chunks.chunk l m k) := by
  have hnext : BitVec.ofNat 64 k + 1 = BitVec.ofNat 64 (k + 1) := (ofNat_add k 1).symm
  have hstart := toNat_splitOffset hn hm hk.le
  have hlast := toNat_splitOffset hn hm (show k + 1 ≤ m by omega)
  have hsize := toNat_ofNat_of_le hn (by norm_num)
  have hmono := Chunks.offset_mono indices.length m (show k ≤ k + 1 by omega)
  have hle := Chunks.offset_le indices.length (show k + 1 ≤ m by omega)
  rw [computeCommittee, hnext, if_neg, hl]
  · show subslice l _ _ = _
    rw [subslice, if_neg, hstart, hlast, Chunks.chunk, hlen]
    rw [lt_def, hstart, hlast]
    omega
  · rw [lt_def, lt_def, hstart, hlast, hsize]
    omega

def committeeNumber (c : ℕ) (slot : Slot) (index : CommitteeIndex) : ℕ :=
  index.toNat + slot.toNat % 32 * c

theorem committeeNumber_lt (slot : Slot) (hindex : index.toNat < c) :
    committeeNumber c slot index < c * 32 := by
  have hmul : (slot.toNat % 32 + 1) * c ≤ 32 * c := Nat.mul_le_mul_right c (mod_lt _ (by norm_num))
  rw [Nat.add_mul, Nat.one_mul] at hmul
  rw [committeeNumber]
  omega

theorem ofNat_committeeNumber (c : ℕ) (slot : Slot) (index : CommitteeIndex) :
    index + slot % slotsPerEpoch * BitVec.ofNat 64 c =
      BitVec.ofNat 64 (committeeNumber c slot index) := by
  have hslot : BitVec.ofNat 64 (slot.toNat % 32) = slot % slotsPerEpoch := by
    apply eq_of_toNat_eq
    rw [toNat_umod, toNat_ofNat, mod_eq_of_lt (by omega)]
    rfl
  rw [committeeNumber, ofNat_add, ofNat_mul, ofNat_toNat, hslot, setWidth_eq]

theorem beaconCommittee_eq (hl : unshuffleList hash shuffleRoundCount indices seed = .ok l)
    (hlen : l.length = indices.length) (hn : indices.length ≤ 2 ^ 40)
    (hc : slotCommitteeCount (BitVec.ofNat 64 indices.length) = BitVec.ofNat 64 c) (hle : c ≤ 64)
    (slot : Slot) (hindex : index.toNat < c) :
    beaconCommittee hash indices seed slot index =
      .ok (Chunks.chunk l (c * 32) (committeeNumber c slot index)) := by
  have hcount : slotCommitteeCount (BitVec.ofNat 64 indices.length) * slotsPerEpoch =
      BitVec.ofNat 64 (c * 32) := by
    rw [hc, ofNat_mul c 32]
    rfl
  have hlt := committeeNumber_lt slot hindex
  rw [beaconCommittee, hcount, hc, ofNat_committeeNumber]
  exact computeCommittee_eq hl hlen hn hlt (by omega)

/-- A slot of the epoch and the index of a committee in it. -/
def IsCommittee (indices : List ValidatorIndex) (epoch : Epoch) (slot : Slot)
    (index : CommitteeIndex) : Prop :=
  slotToEpoch slot = epoch ∧ index < slotCommitteeCount (BitVec.ofNat 64 indices.length)

theorem committeeNumber_injective {slot slot' : Slot} {index' : CommitteeIndex}
    (hslot : slotToEpoch slot = slotToEpoch slot') (hindex : index.toNat < c)
    (hindex' : index'.toNat < c)
    (h : committeeNumber c slot index = committeeNumber c slot' index') :
    slot = slot' ∧ index = index' := by
  have hepoch := congrArg BitVec.toNat hslot
  rw [toNat_slotToEpoch, toNat_slotToEpoch] at hepoch
  have hmod := congrArg (· % c) h
  have hdiv := congrArg (· / c) h
  simp only [committeeNumber, add_mul_mod_self_right, mod_eq_of_lt hindex,
    mod_eq_of_lt hindex'] at hmod
  simp only [committeeNumber, add_mul_div_right _ _ (show 0 < c by omega),
    div_eq_of_lt hindex, div_eq_of_lt hindex', Nat.zero_add] at hdiv
  exact ⟨eq_of_toNat_eq (by omega), eq_of_toNat_eq hmod⟩

theorem exists_committeeNumber (hc : c ≤ 64) (hk : k < c * 32) {epoch : Epoch}
    (hepoch : 32 * epoch.toNat + 31 < 2 ^ 64) :
    ∃ (slot : Slot) (index : CommitteeIndex), slotToEpoch slot = epoch ∧ index.toNat < c ∧
      committeeNumber c slot index = k := by
  obtain ⟨q, r, hr, rfl⟩ : ∃ q r, r < c ∧ k = r + q * c :=
    ⟨k / c, k % c, mod_lt k (by omega), (mod_add_div' k c).symm⟩
  have hq : q < 32 := by
    have hlt : q * c < 32 * c := by omega
    exact Nat.lt_of_mul_lt_mul_right hlt
  have hslot : (BitVec.ofNat 64 (32 * epoch.toNat + q)).toNat = 32 * epoch.toNat + q := by
    rw [toNat_ofNat, mod_eq_of_lt (by omega)]
  have hindex : (BitVec.ofNat 64 r).toNat = r :=
    toNat_ofNat_of_le (show r ≤ 64 by omega) (by norm_num)
  refine ⟨BitVec.ofNat 64 (32 * epoch.toNat + q), BitVec.ofNat 64 r, ?_, ?_, ?_⟩
  · apply eq_of_toNat_eq
    rw [toNat_slotToEpoch, hslot]
    omega
  · rw [hindex]
    exact hr
  · rw [committeeNumber, hslot, hindex, show (32 * epoch.toNat + q) % 32 = q by omega]

/-- The committees of an epoch partition the active validators. -/
theorem committees_partition (hash : Bytes → Root) (seed : Root) (indices : List ValidatorIndex)
    (hnodup : indices.Nodup) (hn : indices.length ≤ 2 ^ 22) :
    ∃ committee : Slot → CommitteeIndex → List ValidatorIndex,
      (∀ slot index, index < slotCommitteeCount (BitVec.ofNat 64 indices.length) →
        beaconCommittee hash indices seed slot index = .ok (committee slot index)) ∧
      ∀ epoch : Epoch, 32 * epoch.toNat + 31 < 2 ^ 64 →
        (∀ slot index slot' index', IsCommittee indices epoch slot index →
          IsCommittee indices epoch slot' index' → (slot, index) ≠ (slot', index') →
          (committee slot index).Disjoint (committee slot' index')) ∧
        (∀ v, v ∈ indices ↔
          ∃ slot index, IsCommittee indices epoch slot index ∧ v ∈ committee slot index) ∧
        (∀ slot index slot' index', IsCommittee indices epoch slot index →
          IsCommittee indices epoch slot' index' →
          (committee slot index).length ≤ (committee slot' index').length + 1) ∧
        ∀ slot index, IsCommittee indices epoch slot index →
          (committee slot index).Nodup ∧
          (committee slot index).length ≤ maxValidatorsPerCommittee ∧
          (slotsPerEpoch.toNat ≤ indices.length → committee slot index ≠ []) := by
  obtain ⟨l, hl, hperm⟩ := @innerShuffleList_perm hash seed indices shuffleRoundCount
    (by decide) (hn.trans (by decide)) false
  obtain ⟨c, hc, hc_pos, hc_le, hc_small, hc_large⟩ := slotCommitteeCount_cases hn
  have hlen := hperm.length_eq
  have hl_nodup : l.Nodup := hperm.nodup_iff.mpr hnodup
  have hindex : ∀ index, index < slotCommitteeCount (BitVec.ofNat 64 indices.length) ↔
      index.toNat < c := by
    intro index
    rw [hc, lt_def, toNat_ofNat_of_le hc_le (by norm_num)]
  have hlt : ∀ epoch slot index, IsCommittee indices epoch slot index →
      committeeNumber c slot index < c * 32 := fun epoch slot index h =>
    committeeNumber_lt slot ((hindex index).mp h.2)
  refine ⟨fun slot index => Chunks.chunk l (c * 32) (committeeNumber c slot index),
    fun slot index h => beaconCommittee_eq hl hlen (hn.trans (by norm_num)) hc hc_le slot
      ((hindex index).mp h),
    fun epoch hepoch => ⟨?_, ?_, ?_, ?_⟩⟩
  · intro slot index slot' index' h h' hne
    refine Chunks.disjoint_chunk hl_nodup fun heq => hne ?_
    obtain ⟨rfl, rfl⟩ := committeeNumber_injective (h.1.trans h'.1.symm) ((hindex _).mp h.2)
      ((hindex _).mp h'.2) heq
    rfl
  · intro v
    rw [← hperm.mem_iff, Chunks.mem_iff_exists_chunk (show 0 < c * 32 by omega)]
    constructor
    · rintro ⟨k, hk, hv⟩
      obtain ⟨slot, index, hslot, hidx, rfl⟩ := exists_committeeNumber hc_le hk hepoch
      exact ⟨slot, index, ⟨hslot, (hindex index).mpr hidx⟩, hv⟩
    · rintro ⟨slot, index, h, hv⟩
      exact ⟨_, hlt epoch slot index h, hv⟩
  · intro slot index slot' index' h h'
    have hbounds := Chunks.length_chunk_bounds (l := l) (hlt epoch slot index h)
    have hbounds' := Chunks.length_chunk_bounds (l := l) (hlt epoch slot' index' h')
    exact hbounds.2.trans (succ_le_succ hbounds'.1)
  · intro slot index h
    have hk := hlt epoch slot index h
    refine ⟨Chunks.nodup_chunk hl_nodup, ?_, fun hmin => ?_⟩
    · refine (Chunks.length_chunk_le hk).trans ?_
      rw [hlen]
      exact le_of_lt_succ ((Nat.div_lt_iff_lt_mul (by omega)).mpr
        (show _ < 2049 * (c * 32) by omega))
    · have hmin : 32 ≤ indices.length := hmin
      have hbounds := Chunks.length_chunk_bounds (l := l) hk
      have hone : 1 ≤ l.length / (c * 32) := by
        rw [Nat.one_le_div_iff (by omega), hlen]
        omega
      exact ne_nil_of_length_pos (lt_of_lt_of_le hone hbounds.1)

theorem forty_validators_partition :
    ∃ l, beaconCommittee (fun _ => 1) ((range 40).map (BitVec.ofNat 64)) 0 35 0 = .ok l ∧
      l ≠ [] ∧ l.length ≤ maxValidatorsPerCommittee := by
  obtain ⟨committee, hok, hall⟩ := committees_partition (fun _ => 1) 0
    ((range 40).map (BitVec.ofNat 64)) (by decide) (by decide)
  have hcommittee := (hall 1 (by decide)).2.2.2 35 0 ⟨rfl, by decide⟩
  exact ⟨committee 35 0, hok 35 0 (by decide), hcommittee.2.2 (by decide), hcommittee.2.1⟩

end Committees

end Vanguard.Beacon
