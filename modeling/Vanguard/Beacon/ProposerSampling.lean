import Vanguard.Beacon.Proposer

/-!
The search for a proposer.

The loop has no bound of its own. In its first pass over the list it meets every
validator once, in the shuffled order, and a validator with the full effective balance
is drawn whatever the random byte is.
-/

namespace Vanguard.Beacon

open Shuffle BitVec Nat Option

section Sampling

variable (hash : Bytes → Root) (validators : List Validator) (indices : List ValidatorIndex)
  (seed : Root)

def shuffledOrder (i : ℕ) : Option ValidatorIndex :=
  (shuffledIndex hash shuffleRoundCount (BitVec.ofNat 64 i) (BitVec.ofNat 64 indices.length)
    seed).toOption.bind (indices[·.toNat]?)

/-- The validator at a place of the shuffled order is drawn by the random byte of the place. -/
def DrawnAt (i : ℕ) (v : ValidatorIndex) : Prop :=
  shuffledOrder hash indices seed i = some v ∧ ∃ validator, validators[v.toNat]? = some validator ∧
    drawn validator.effectiveBalance (randomByteAt hash seed (BitVec.ofNat 64 i)) = true

variable {hash validators indices seed}

theorem drawn_iff {effectiveBal : Gwei} (hbal : effectiveBal.toNat * 255 < 2 ^ 64)
    (randomByte : BitVec 8) :
    drawn effectiveBal randomByte = true ↔
      maxEffectiveBalance.toNat * randomByte.toNat ≤ effectiveBal.toNat * 255 := by
  have hbyte := randomByte.isLt
  have hmax : maxEffectiveBalance.toNat = 32000000000 := rfl
  have hwidth : (randomByte.setWidth 64).toNat = randomByte.toNat := by
    rw [toNat_setWidth, mod_eq_of_lt (by omega)]
  have hleft : (maxEffectiveBalance * randomByte.setWidth 64).toNat =
      maxEffectiveBalance.toNat * randomByte.toNat := by
    rw [toNat_mul, hwidth, hmax, mod_eq_of_lt (by omega)]
  have hright : (effectiveBal * 255).toNat = effectiveBal.toNat * 255 := by
    rw [toNat_mul, show (255 : Gwei).toNat = 255 from rfl, mod_eq_of_lt hbal]
  rw [drawn, decide_eq_true_eq, le_def, hleft, hright]

theorem drawn_maxEffectiveBalance (randomByte : BitVec 8) :
    drawn maxEffectiveBalance randomByte = true := by
  have hbyte := randomByte.isLt
  refine (drawn_iff (by decide) randomByte).mpr (Nat.mul_le_mul_left _ ?_)
  omega

theorem shuffledIndex_nat (hlen : indices.length ≤ 2 ^ 40) {i : ℕ} (hi : i < indices.length) :
    shuffledIndex hash shuffleRoundCount (BitVec.ofNat 64 i) (BitVec.ofNat 64 indices.length) seed =
      .ok (BitVec.ofNat 64
        (runRounds hash seed indices.length (roundOrder shuffleRoundCount true) i)) := by
  have hcount := toNat_ofNat_of_le hlen (by norm_num)
  have hindex := toNat_ofNat_of_le (hi.le.trans hlen) (by norm_num)
  rw [shuffledIndex, computeShuffledIndex_eq _ (by omega) (by omega), hcount, hindex]

theorem candidateAt_eq (hlen : indices.length ≤ 2 ^ 40)
    (hrange : ∀ v ∈ indices, v.toNat < validators.length) {i : ℕ} (hi : i < indices.length) :
    ∃ v validator, candidateAt hash validators indices seed (BitVec.ofNat 64 i) = .ok v ∧
      v ∈ indices ∧ shuffledOrder hash indices seed i = some v ∧
      validators[v.toNat]? = some validator := by
  have hround : BitVec.ofNat 64 i % BitVec.ofNat 64 indices.length = BitVec.ofNat 64 i := by
    apply eq_of_toNat_eq
    rw [toNat_umod, toNat_ofNat_of_le (hi.le.trans hlen) (by norm_num),
      toNat_ofNat_of_le hlen (by norm_num), mod_eq_of_lt hi]
  have hshuffled := @shuffledIndex_nat hash indices seed hlen i hi
  set k := runRounds hash seed indices.length (roundOrder shuffleRoundCount true) i
  have hk : k < indices.length := runRounds_lt hi _
  have hkNat := toNat_ofNat_of_le (hk.le.trans hlen) (by norm_num)
  have hget : indices[k]? = some indices[k] := List.getElem?_eq_getElem hk
  have hmem : indices[k] ∈ indices := List.getElem_mem hk
  have hv := hrange _ hmem
  refine ⟨indices[k], _, ?_, hmem, ?_, List.getElem?_eq_getElem hv⟩
  · rw [candidateAt, hround]
    refine Fallible.bind_eq_ok.mpr ⟨_, hshuffled, ?_⟩
    rw [hkNat, hget]
    dsimp only
    rw [if_neg (Nat.not_le.mpr hv)]
  · rw [shuffledOrder, hshuffled]
    exact (congrArg (indices[·]?) hkNat).trans hget

theorem searchProposer_eq (hlen : indices.length ≤ 2 ^ 40)
    (hrange : ∀ v ∈ indices, v.toNat < validators.length) {i : ℕ} (hi : i < indices.length)
    {v : ValidatorIndex} (hdrawn : DrawnAt hash validators indices seed i v) {j fuel : ℕ}
    (hj : j ≤ i) (hfuel : i < j + fuel)
    (hbefore : ∀ k < i, j ≤ k → ∀ w, ¬ DrawnAt hash validators indices seed k w) :
    searchProposer hash validators indices seed fuel (BitVec.ofNat 64 j) = .ok v := by
  induction fuel generalizing j with
  | zero => omega
  | succ fuel ih =>
    obtain ⟨w, validator, hcandidate, -, horder, hvalidator⟩ :=
      @candidateAt_eq hash validators indices seed hlen hrange j (by omega)
    have hat : atIndex validators w = .ok validator := by rw [atIndex, hvalidator]
    rw [searchProposer]
    refine Fallible.bind_eq_ok.mpr ⟨w, hcandidate, Fallible.bind_eq_ok.mpr ⟨validator, hat, ?_⟩⟩
    by_cases hlast : j = i
    · subst hlast
      obtain ⟨horder', validator', hvalidator', hset⟩ := hdrawn
      obtain rfl := some.inj (horder.symm.trans horder')
      obtain rfl := some.inj (hvalidator.symm.trans hvalidator')
      rw [if_pos hset]
      rfl
    · have hunset : ¬ drawn validator.effectiveBalance
          (randomByteAt hash seed (BitVec.ofNat 64 j)) = true := fun hset =>
        hbefore j (by omega) (le_refl _) w ⟨horder, validator, hvalidator, hset⟩
      have hnext : BitVec.ofNat 64 j + 1 = BitVec.ofNat 64 (j + 1) := (ofNat_add j 1).symm
      rw [if_neg hunset, hnext]
      exact ih (by omega) (by omega) fun k hk hjk => hbefore k hk (by omega)

/-- With a validator of full effective balance the search returns, in its first pass over the
list, the first validator of the shuffled order that is drawn. A balance is compared as a
natural number if its product with 255 does not overflow. -/
theorem computeProposerIndex_terminates (hash : Bytes → Root) (validators : List Validator)
    (indices : List ValidatorIndex) (seed : Root) (hlen : indices.length ≤ 2 ^ 40)
    (hrange : ∀ v ∈ indices, v.toNat < validators.length)
    (hfull : ∃ v ∈ indices, validators[v.toNat]?.map (·.effectiveBalance) =
      some maxEffectiveBalance) :
    (∃ i < indices.length, ∃ proposer ∈ indices,
      DrawnAt hash validators indices seed i proposer ∧
      (∀ j < i, ∀ w, ¬ DrawnAt hash validators indices seed j w) ∧
      ∀ fuel, i < fuel →
        computeProposerIndex hash fuel validators indices seed = .ok proposer) ∧
    ∀ (effectiveBal : Gwei) (randomByte : BitVec 8), effectiveBal.toNat * 255 < 2 ^ 64 →
      (drawn effectiveBal randomByte = true ↔
        maxEffectiveBalance.toNat * randomByte.toNat ≤ effectiveBal.toNat * 255) := by
  refine ⟨?_, fun effectiveBal randomByte hbal => drawn_iff hbal randomByte⟩
  -- the shuffled order reaches the validator with the full balance
  have hreached : ∃ i, i < indices.length ∧ ∃ w, DrawnAt hash validators indices seed i w := by
    obtain ⟨v, hv, hmax⟩ := hfull
    obtain ⟨validator, hvalidator, hbal⟩ := Option.map_eq_some_iff.mp hmax
    obtain ⟨k, hk, rfl⟩ := List.mem_iff_getElem.mp hv
    set p := roundPerm hash seed indices.length (roundOrder shuffleRoundCount true)
    refine ⟨p.symm ⟨k, hk⟩, Fin.isLt _, indices[k], ?_, validator, hvalidator, ?_⟩
    · have hback : runRounds hash seed indices.length (roundOrder shuffleRoundCount true)
          (p.symm ⟨k, hk⟩) = k :=
        congrArg Fin.val (p.apply_symm_apply ⟨k, hk⟩)
      rw [shuffledOrder, shuffledIndex_nat hlen (Fin.isLt _), hback]
      exact (congrArg (indices[·]?) (toNat_ofNat_of_le (hk.le.trans hlen) (by norm_num))).trans
        (List.getElem?_eq_getElem hk)
    · rw [hbal]
      exact drawn_maxEffectiveBalance _
  classical
  obtain ⟨hi, proposer, hdrawn⟩ := Nat.find_spec hreached
  set i := Nat.find hreached with hfind
  have hfirst : ∀ j < i, ∀ w, ¬ DrawnAt hash validators indices seed j w := fun j hj w hw =>
    Nat.find_min hreached hj ⟨hj.trans hi, w, hw⟩
  obtain ⟨w, -, -, hmem, horder, -⟩ := @candidateAt_eq hash validators indices seed hlen hrange i hi
  obtain rfl := some.inj (horder.symm.trans hdrawn.1)
  refine ⟨i, hi, w, hmem, hdrawn, hfirst, fun fuel hfuel => ?_⟩
  rw [computeProposerIndex, if_neg (by omega)]
  exact searchProposer_eq hlen hrange hi hdrawn (zero_le _) (by omega)
    fun k hk _ => hfirst k hk

end Sampling

def fullValidator : Validator :=
  { (default : Validator) with effectiveBalance := maxEffectiveBalance }

theorem full_validator_proposes : ∃ i < 2, ∃ proposer ∈ ([0, 1] : List ValidatorIndex),
    DrawnAt (fun _ => 0) [default, fullValidator] [0, 1] 0 i proposer ∧
    computeProposerIndex (fun _ => 0) 2 [default, fullValidator] [0, 1] 0 = .ok proposer := by
  obtain ⟨⟨i, hi, proposer, hmem, hdrawn, -, hrun⟩, -⟩ :=
    computeProposerIndex_terminates (fun _ => 0) [default, fullValidator] [0, 1] 0 (by decide)
      (by simp) ⟨1, by simp, rfl⟩
  exact ⟨i, hi, proposer, hmem, hdrawn, hrun 2 hi⟩

end Vanguard.Beacon
