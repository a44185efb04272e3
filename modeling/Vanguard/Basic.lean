import Mathlib

/-!
Machine words and byte arrays shared by all components.

A `[n]byte` array is represented by the number its bytes spell in big-endian
order, so that `==` is equality and `bytes.Compare` is the order of the
bit vectors. Go's `uint64` and its 64-bit `int` share the representation
`BitVec 64`: a conversion between the two keeps the bits, `toNat` reads a
word as unsigned and `toInt` reads it as signed.
-/

namespace Vanguard

/-- `[32]byte` -/
abbrev Root := BitVec 256

abbrev Epoch := BitVec 64

abbrev Slot := BitVec 64

/-- `uint64` amounts: balances and weights. -/
abbrev Gwei := BitVec 64

/-- Signed 64-bit `int`, read with `toInt`. -/
abbrev SInt := BitVec 64

def zeroHash : Root := 0

-- The laws of comparison and equality at the widths in use, by name, so that a map over words
-- carries a constant.
instance transOrd_word : Std.TransOrd (BitVec 64) := inferInstance

instance transOrd_root : Std.TransOrd Root := inferInstance

instance transOrd_pubKey : Std.TransOrd (BitVec 384) := inferInstance

instance lawfulBEq_word : LawfulBEq (BitVec 64) := inferInstance

instance lawfulBEq_root : LawfulBEq Root := inferInstance

/-- A `context.Context` as the code observes it: `ctx.Err()` is polled, and
from poll number `cancelledAt` on it reports the cancellation. -/
structure Ctx where
  cancelledAt : Option ℕ
  deriving DecidableEq, Repr

/-- `context.Background()` -/
def Ctx.background : Ctx := ⟨none⟩

/-- Whether `ctx.Err() != nil` at the given poll. -/
def Ctx.err (ctx : Ctx) (poll : ℕ) : Bool :=
  match ctx.cancelledAt with
  | none => false
  | some k => decide (k ≤ poll)

@[simp] theorem Ctx.err_background (poll : ℕ) : Ctx.background.err poll = false := rfl

end Vanguard
