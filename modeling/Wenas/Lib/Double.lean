import Mathlib

/-!
# Binary64 scaling of machine integers

The conversion of a natural number to binary64 and the product with one and a
half, rounded to nearest with ties to even, in exact natural arithmetic. The
product is kept in halves, so that no fraction is lost before the program
truncates or compares it.
-/
namespace Wenas.Double

/-- The nearest natural number with at most 53 significant bits, ties to even. -/
def round53 (n : Nat) : Nat :=
  let excess := n.log2 + 1 - 53
  let quotient := n / 2 ^ excess
  let remainder := n % 2 ^ excess
  if excess = 0 then n
  else if 2 ^ excess < 2 * remainder ∨ (2 ^ excess = 2 * remainder ∧ quotient % 2 = 1) then
    (quotient + 1) * 2 ^ excess
  else quotient * 2 ^ excess

/-- Twice the value of `(double)n * 1.5`. -/
def threeHalves (n : Nat) : Nat := round53 (3 * round53 n)

/-- `n *= 1.5` on a 64-bit integer: scale as binary64, truncate back. -/
def scale (n : UInt64) : UInt64 := UInt64.ofNat (threeHalves n.toNat / 2)

/-- `n * 1.5 * 2` assigned to a 64-bit integer. -/
def scaleTwice (n : UInt64) : UInt64 := UInt64.ofNat (threeHalves n.toNat)

/-- The comparison `m > n * 1.5` of two 64-bit integers through binary64. -/
def exceeds (m n : UInt64) : Bool := threeHalves n.toNat < 2 * round53 m.toNat

example : scale 100000001 = 150000001 := by decide

end Wenas.Double
