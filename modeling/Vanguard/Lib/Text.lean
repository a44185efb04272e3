import Vanguard.Lib.Bytes

/-!
Numbers and byte strings as text: hexadecimal digits for bytes and decimal
digits for numbers. What is written is read back.
-/

namespace Vanguard

abbrev Text := List Char

namespace Text

open Bytes

/-- The digit for a number below 16, in lower case. -/
def digitChar (d : ℕ) : Char := Char.ofNat (if d < 10 then 48 + d else 87 + d)

/-- The value of a hexadecimal digit of either case. -/
def digitValue (c : Char) : Option ℕ :=
  if 48 ≤ c.toNat ∧ c.toNat ≤ 57 then some (c.toNat - 48)
  else if 97 ≤ c.toNat ∧ c.toNat ≤ 102 then some (c.toNat - 87)
  else if 65 ≤ c.toNat ∧ c.toNat ≤ 70 then some (c.toNat - 55)
  else none

variable {d : ℕ}

theorem digitValue_digitChar (hd : d < 16) : digitValue (digitChar d) = some d := by
  have hall : ∀ d : Fin 16, digitValue (digitChar d) = some (d : ℕ) := by decide
  exact hall ⟨d, hd⟩

/-! ### Hexadecimal -/

def hex (l : Bytes) : Text :=
  l.flatMap fun b => [digitChar (b.toNat / 16), digitChar (b.toNat % 16)]

/-- `fmt.Sprintf("%#x", l)` -/
def hexString (l : Bytes) : Text := '0' :: 'x' :: hex l

/-- `hex.DecodeString` -/
def decodeHex : Text → Option Bytes
  | [] => some []
  | [_] => none
  | a :: b :: rest =>
    match digitValue a, digitValue b, decodeHex rest with
    | some x, some y, some l => some (UInt8.ofNat (16 * x + y) :: l)
    | _, _, _ => none

/-- `strings.TrimPrefix(s, "0x")` -/
def trim0x : Text → Text
  | '0' :: 'x' :: rest => rest
  | s => s

@[simp] theorem trim0x_hexString (l : Bytes) : trim0x (hexString l) = hex l := rfl

@[simp] theorem decodeHex_hex (l : Bytes) : decodeHex (hex l) = some l := by
  induction l with
  | nil => rfl
  | cons b l ih =>
    have hb := b.toNat_lt
    have hhigh := digitValue_digitChar (d := b.toNat / 16) (by omega)
    have hlow := digitValue_digitChar (d := b.toNat % 16) (by omega)
    have hsum : 16 * (b.toNat / 16) + b.toNat % 16 = b.toNat := by omega
    have hcons : hex (b :: l) =
        digitChar (b.toNat / 16) :: digitChar (b.toNat % 16) :: hex l := rfl
    rw [hcons, decodeHex, hhigh, hlow, ih]
    dsimp only
    rw [hsum, UInt8.ofNat_toNat]

/-! ### Decimal -/

def decimalFrom : ℕ → ℕ → Text
  | 0, _ => []
  | fuel + 1, n =>
    if n < 10 then [digitChar n] else decimalFrom fuel (n / 10) ++ [digitChar (n % 10)]

/-- `fmt.Sprintf("%d", x)`: a number of 64 bits has at most 20 digits. -/
def decimal (x : BitVec 64) : Text := decimalFrom 20 x.toNat

/-- Reads decimal digits after those that make up `acc`. -/
def readDecimal : ℕ → Text → Option ℕ
  | acc, [] => some acc
  | acc, c :: rest =>
    if 48 ≤ c.toNat ∧ c.toNat ≤ 57 then readDecimal (acc * 10 + (c.toNat - 48)) rest else none

/-- `strconv.ParseUint(s, 10, 64)` -/
def parseUint (s : Text) : Option (BitVec 64) :=
  if s = [] then none
  else
    match readDecimal 0 s with
    | none => none
    | some n => if n < 2 ^ 64 then some (BitVec.ofNat 64 n) else none

theorem toNat_digitChar (hd : d < 10) : (digitChar d).toNat = 48 + d := by
  have hall : ∀ d : Fin 10, (digitChar d).toNat = 48 + (d : ℕ) := by decide
  exact hall ⟨d, hd⟩

theorem readDecimal_digit (acc : ℕ) (hd : d < 10) (rest : Text) :
    readDecimal acc (digitChar d :: rest) = readDecimal (acc * 10 + d) rest := by
  rw [readDecimal, toNat_digitChar hd, if_pos (by omega), Nat.add_sub_cancel_left]

theorem readDecimal_decimalFrom {fuel n : ℕ} (hn : n < 10 ^ fuel) (rest : Text) :
    readDecimal 0 (decimalFrom fuel n ++ rest) = readDecimal n rest := by
  induction fuel generalizing n rest with
  | zero =>
    obtain rfl : n = 0 := by simpa using hn
    rfl
  | succ fuel ih =>
    rw [decimalFrom]
    split
    · rename_i hlt
      rw [List.singleton_append, readDecimal_digit 0 hlt, Nat.zero_mul, Nat.zero_add]
    · rw [Nat.pow_succ] at hn
      have hdigits : n / 10 * 10 + n % 10 = n := by omega
      rw [List.append_assoc, ih (by omega), List.singleton_append,
        readDecimal_digit _ (by omega), hdigits]

theorem decimalFrom_ne_nil {fuel : ℕ} (hfuel : fuel ≠ 0) (n : ℕ) : decimalFrom fuel n ≠ [] := by
  obtain _ | fuel := fuel
  · exact absurd rfl hfuel
  rw [decimalFrom]
  split <;> simp

@[simp] theorem parseUint_decimal (x : BitVec 64) : parseUint (decimal x) = some x := by
  have hlt := x.isLt
  have hread := readDecimal_decimalFrom (show x.toNat < 10 ^ 20 by omega) []
  rw [List.append_nil] at hread
  rw [parseUint, decimal, if_neg (decimalFrom_ne_nil (by omega) _), hread]
  simp only [readDecimal, hlt, if_true, BitVec.ofNat_toNat, BitVec.setWidth_eq]

end Text

end Vanguard
