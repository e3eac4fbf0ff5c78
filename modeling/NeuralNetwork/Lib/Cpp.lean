import Mathlib.Tactic.Ring

/-!
# Values and faults of a C++ program

`Fault` is how a call can end without a value, `sizeT` the value of an expression of type `size_t`
(64 bits), `Byte` a `char` or `uint8_t`.
-/

namespace Cpp

/-- Why a call stops instead of returning: `std::abort`, a thrown standard exception, an access
outside an object, another undefined operation, or a recursion deeper than its bound. -/
inductive Fault where
  | abort
  | invalidArgument (what : String)
  | lengthError (what : String)
  | outOfBounds
  | undefined
  | outOfFuel
deriving DecidableEq, Repr

/-- The value of a `size_t` expression. -/
def sizeT (n : Nat) : Nat := n % 2 ^ 64

theorem sizeT_of_lt {n : Nat} (h : n < 2 ^ 64) : sizeT n = n := Nat.mod_eq_of_lt h

/-- `a - b` on `size_t`. -/
def subT (a b : Nat) : Nat := sizeT (a + 2 ^ 64 - b)

theorem subT_of_le {a b : Nat} (h : b ≤ a) (ha : a < 2 ^ 64) : subT a b = a - b := by
  unfold subT sizeT
  have : a + 2 ^ 64 - b = a - b + 2 ^ 64 := by omega
  rw [this, Nat.add_mod_right, Nat.mod_eq_of_lt (by omega)]

abbrev Byte := BitVec 8

end Cpp
