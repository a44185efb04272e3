import Mathlib

/-!
Conversion of a natural number to IEEE 754 double precision and back.

A double carries 53 significant bits, so converting `n` keeps its 53 leading
bits and rounds the rest to nearest, ties to even. Numbers whose leading
bits already hold everything survive the detour unchanged.
-/

namespace Vanguard.Float64

/-- The number of low-order bits of `n` that do not fit a 53-bit mantissa. -/
def droppedBits (n : ℕ) : ℕ := Nat.log2 n + 1 - 53

/-- The value of `n` after a conversion to double precision (round to
nearest, ties to even). -/
def round (n : ℕ) : ℕ :=
  let unit := 2 ^ droppedBits n
  let q := n / unit
  let r := n % unit
  if droppedBits n = 0 then n
  else if unit < 2 * r ∨ (2 * r = unit ∧ q % 2 = 1) then (q + 1) * unit
  else q * unit

theorem round_eq_self_of_dvd {n : ℕ} (h : 2 ^ droppedBits n ∣ n) : round n = n := by
  have hr : n % 2 ^ droppedBits n = 0 := Nat.mod_eq_zero_of_dvd h
  have hpos : 0 < 2 ^ droppedBits n := Nat.two_pow_pos _
  simp only [round, hr]
  split
  · rfl
  · rw [if_neg (by omega)]
    exact Nat.div_mul_cancel h

/-- A multiple of `2 ^ k` that is at most `2 ^ (53 + k)` is a double. -/
theorem round_eq_self {n k : ℕ} (hdvd : 2 ^ k ∣ n) (hle : n ≤ 2 ^ (53 + k)) : round n = n := by
  apply round_eq_self_of_dvd
  rcases Nat.eq_zero_or_pos n with rfl | hpos
  · exact dvd_zero _
  rcases hle.lt_or_eq with hlt | rfl
  · have hlog : Nat.log2 n < 53 + k := (Nat.log2_lt hpos.ne').mpr hlt
    exact (pow_dvd_pow 2 (by unfold droppedBits; omega)).trans hdvd
  · apply pow_dvd_pow
    simp only [droppedBits, Nat.log2_two_pow]
    omega

example : round (2 ^ 53 + 1) = 2 ^ 53 := by decide +kernel

end Vanguard.Float64
