import Mathlib

/-!
Fixed-width numbers as byte strings.

A number is written with its most significant byte first, so that byte strings
of one length are ordered like the numbers they stand for. A packed list is the
concatenation of the eight byte strings of its members.
-/

namespace Vanguard

open List Nat

abbrev Bytes := List UInt8

namespace Bytes

/-- The number a byte string stands for, most significant byte first. -/
def value : Bytes → ℕ
  | [] => 0
  | b :: l => b.toNat * 256 ^ l.length + value l

/-- The last `n` bytes of a number, most significant byte first. -/
def bigEndian : ℕ → ℕ → Bytes
  | 0, _ => []
  | n + 1, x => UInt8.ofNat (x / 256 ^ n) :: bigEndian n x

variable (n : ℕ) (x : BitVec 64) (l : List (BitVec 64))

@[simp] theorem length_bigEndian (x : ℕ) : (bigEndian n x).length = n := by
  induction n with
  | zero => rfl
  | succ n ih => rw [bigEndian, length_cons, ih]

theorem value_bigEndian (x : ℕ) : value (bigEndian n x) = x % 256 ^ n := by
  induction n with
  | zero => simp [bigEndian, value, mod_one]
  | succ n ih =>
    have hbyte : (UInt8.ofNat (x / 256 ^ n)).toNat = x / 256 ^ n % 256 := by simp
    rw [bigEndian, value, ih, length_bigEndian, hbyte, Nat.pow_succ, mod_mul]
    ring

theorem value_lt (l : Bytes) : value l < 256 ^ l.length := by
  induction l with
  | nil => simp [value]
  | cons b l ih =>
    have hb := b.toNat_lt
    have hmul : b.toNat * 256 ^ l.length ≤ 255 * 256 ^ l.length := Nat.mul_le_mul_right _ (by omega)
    rw [value, length_cons, Nat.pow_succ]
    omega

theorem bigEndian_value (l : Bytes) {n : ℕ} (hn : l.length = n) : bigEndian n (value l) = l := by
  have hhead : ∀ (m : Bytes) (k : ℕ), bigEndian m.length (k * 256 ^ m.length + value m) = m := by
    intro m
    induction m with
    | nil => simp [bigEndian]
    | cons b m ih =>
      intro k
      have hlt := value_lt m
      have hsum : k * 256 ^ (m.length + 1) + (b.toNat * 256 ^ m.length + value m) =
          (k * 256 + b.toNat) * 256 ^ m.length + value m := by
        rw [Nat.pow_succ]
        ring
      have hdiv : ((k * 256 + b.toNat) * 256 ^ m.length + value m) / 256 ^ m.length =
          k * 256 + b.toNat := by
        rw [Nat.mul_comm, mul_add_div (by positivity), div_eq_of_lt hlt, Nat.add_zero]
      rw [length_cons, value, hsum, bigEndian, hdiv, ih]
      congr 1
      apply UInt8.toNat_inj.mp
      have hb := b.toNat_lt
      simp
  subst hn
  simpa using hhead l 0

theorem compare_eq {l m : Bytes} (hlen : l.length = m.length) :
    compare l m = compare (value l) (value m) := by
  induction l generalizing m with
  | nil =>
    obtain rfl : m = [] := length_eq_zero_iff.mp hlen.symm
    rfl
  | cons b l ih =>
    obtain _ | ⟨c, m⟩ := m
    · simp at hlen
    have hlen' : l.length = m.length := by simpa using hlen
    have hl := value_lt l
    have hm := value_lt m
    have hcons : compare (b :: l) (c :: m) = (compare b c).then (compare l m) :=
      List.compare_cons_cons
    have hbyte : compare b c = compare b.toNat c.toNat := by
      simp only [compare, compareOfLessAndEq, UInt8.lt_iff_toNat_lt, ← UInt8.toNat_inj]
    rw [hcons, hbyte, ih hlen', value, value, hlen']
    rw [hlen'] at hl
    rcases Nat.lt_trichotomy b.toNat c.toNat with hlt | heq | hgt
    · have hmul := Nat.mul_le_mul_right (256 ^ m.length) (succ_le_of_lt hlt)
      rw [succ_mul] at hmul
      have hsum : b.toNat * 256 ^ m.length + value l < c.toNat * 256 ^ m.length + value m := by
        omega
      rw [Nat.compare_eq_lt.mpr hlt, Nat.compare_eq_lt.mpr hsum]
      rfl
    · rw [heq, Nat.compare_eq_eq.mpr rfl, Ordering.eq_then]
      rcases Nat.lt_trichotomy (value l) (value m) with h | h | h
      · rw [Nat.compare_eq_lt.mpr h, Nat.compare_eq_lt.mpr (by omega)]
      · rw [h]
        simp
      · rw [Nat.compare_eq_gt.mpr h, Nat.compare_eq_gt.mpr (by omega)]
    · have hmul := Nat.mul_le_mul_right (256 ^ m.length) (succ_le_of_lt hgt)
      rw [succ_mul] at hmul
      have hsum : c.toNat * 256 ^ m.length + value m < b.toNat * 256 ^ m.length + value l := by
        omega
      rw [Nat.compare_eq_gt.mpr hgt, Nat.compare_eq_gt.mpr hsum]
      rfl

/-! ### Strings with a given start -/

theorem compare_ne_lt_of_take {p k : Bytes} (h : k.take p.length = p) : compare k p ≠ .lt := by
  induction p generalizing k with
  | nil =>
    cases k with
    | nil => decide
    | cons c k => exact fun hlt => by cases hlt
  | cons b p ih =>
    obtain _ | ⟨c, k⟩ := k
    · cases h
    rw [length_cons, take_succ_cons, List.cons.injEq] at h
    have hcons : compare (c :: k) (b :: p) = (compare c b).then (compare k p) :=
      List.compare_cons_cons
    have hself : compare b b = .eq := Std.compare_self
    rw [hcons, h.1, hself]
    exact ih h.2

theorem take_eq_of_between {p k l : Bytes} (hlen : p.length ≤ k.length) (hge : compare k p ≠ .lt)
    (hlt : compare k l = .lt) (hl : l.take p.length = p) : k.take p.length = p := by
  induction p generalizing k l with
  | nil => rfl
  | cons b p ih =>
    obtain _ | ⟨c, k⟩ := k
    · simp at hlen
    obtain _ | ⟨d, l⟩ := l
    · cases hl
    rw [length_cons, take_succ_cons, List.cons.injEq] at hl
    obtain ⟨rfl, hl⟩ := hl
    have hp : compare (c :: k) (d :: p) = (compare c d).then (compare k p) := List.compare_cons_cons
    have hl' : compare (c :: k) (d :: l) = (compare c d).then (compare k l) :=
      List.compare_cons_cons
    rw [hp] at hge
    rw [hl'] at hlt
    cases hcd : compare c d with
    | lt =>
      rw [hcd] at hge
      exact absurd rfl hge
    | gt =>
      rw [hcd] at hlt
      cases hlt
    | eq =>
      rw [hcd] at hge hlt
      rw [Std.compare_eq_iff_eq.mp hcd, length_cons, take_succ_cons,
        ih (by simpa using hlen) hge hlt hl]

/-! ### Words of 64 bits -/

/-- `Uint64ToBytesBigEndian` -/
def ofUint64 (x : BitVec 64) : Bytes := bigEndian 8 x.toNat

/-- `BytesToUint64BigEndian`: 0 if there are fewer than eight bytes. -/
def toUint64 (l : Bytes) : BitVec 64 :=
  if l.length < 8 then 0 else BitVec.ofNat 64 (value (l.take 8))

@[simp] theorem length_ofUint64 : (ofUint64 x).length = 8 := length_bigEndian 8 _

@[simp] theorem value_ofUint64 : value (ofUint64 x) = x.toNat := by
  have hlt := x.isLt
  rw [ofUint64, value_bigEndian]
  omega

@[simp] theorem toUint64_ofUint64 : toUint64 (ofUint64 x) = x := by
  rw [toUint64, length_ofUint64, if_neg (by omega), take_of_length_le (by simp),
    value_ofUint64, BitVec.ofNat_toNat, BitVec.setWidth_eq]

theorem ofUint64_injective : Function.Injective ofUint64 := fun x y h => by
  rw [← toUint64_ofUint64 x, h, toUint64_ofUint64]

@[simp] theorem ofUint64_inj {x y : BitVec 64} : ofUint64 x = ofUint64 y ↔ x = y :=
  ofUint64_injective.eq_iff

/-- Keys that are written with the most significant byte first are sorted like
their numbers. -/
theorem compare_ofUint64 (y : BitVec 64) :
    compare (ofUint64 x) (ofUint64 y) = compare x.toNat y.toNat := by
  rw [compare_eq (by simp), value_ofUint64, value_ofUint64]

/-- `Uint64ToBytesLittleEndian` -/
def ofUint64LE (x : BitVec 64) : Bytes := (ofUint64 x).reverse

/-- `FromBytes8` of eight bytes. -/
def toUint64LE (l : Bytes) : BitVec 64 := toUint64 l.reverse

@[simp] theorem length_ofUint64LE : (ofUint64LE x).length = 8 := by
  simp [ofUint64LE]

@[simp] theorem toUint64LE_ofUint64LE : toUint64LE (ofUint64LE x) = x := by
  simp [toUint64LE, ofUint64LE]

@[simp] theorem ofUint64LE_inj {x y : BitVec 64} : ofUint64LE x = ofUint64LE y ↔ x = y := by
  simp [ofUint64LE]

theorem value_replicate_zero : value (replicate n 0) = 0 := by
  induction n with
  | zero => rfl
  | succ n ih => simp [replicate_succ, value, ih]

theorem toUint64LE_replicate_zero : toUint64LE (replicate 8 0) = 0 := by decide

/-! ### Packed lists -/

def pack (l : List (BitVec 64)) : Bytes := l.flatMap ofUint64

/-- Reads eight bytes at a time; nothing if bytes are left over. -/
def unpack : Bytes → Option (List (BitVec 64))
  | [] => some []
  | b₀ :: b₁ :: b₂ :: b₃ :: b₄ :: b₅ :: b₆ :: b₇ :: rest =>
    (unpack rest).map fun l => toUint64 [b₀, b₁, b₂, b₃, b₄, b₅, b₆, b₇] :: l
  | _ => none

theorem pack_cons (l : List (BitVec 64)) : pack (x :: l) = ofUint64 x ++ pack l := rfl

theorem pack_append (m : List (BitVec 64)) : pack (l ++ m) = pack l ++ pack m :=
  flatMap_append

theorem pack_singleton : pack [x] = ofUint64 x := by simp [pack]

theorem unpack_append (rest : Bytes) :
    unpack (ofUint64 x ++ rest) = (unpack rest).map (x :: ·) := by
  have hword := toUint64_ofUint64 x
  simp only [ofUint64, bigEndian] at hword ⊢
  simp only [cons_append, nil_append, unpack, hword]

@[simp] theorem unpack_pack : unpack (pack l) = some l := by
  induction l with
  | nil => rfl
  | cons x l ih => rw [pack_cons, unpack_append, ih, Option.map_some]

end Bytes

end Vanguard
