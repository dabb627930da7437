/-!
The range of double-precision numbers. Natural numbers are rounded to 53 significant bits, and a
number is out of range if it is rounded to two to the power of 1024 or more.
-/

namespace Typestate.Double

/-- The nearest natural number with at most 53 significant bits; of two the one whose last bit is
zero. -/
def round (n : Nat) : Nat :=
  let unit := Nat.pow 2 (Nat.log2 n + 1 - 53)
  let whole := n / unit
  let rest := n % unit
  let up := unit < 2 * rest ∨ (unit = 2 * rest ∧ whole % 2 = 1)
  (if up then whole + 1 else whole) * unit

/-- The first number that is out of range. -/
def limit : Nat :=
  Nat.pow 2 1024 - Nat.pow 2 970

/-- Whether a number times a power of ten is out of range. Where the number of digits already tells
the answer the product is not computed. -/
def isBeyond (mantissa : Nat) (scale : Int) : Bool :=
  let size : Int := (toString mantissa).length + scale
  if mantissa = 0 ∨ size < 300 then false
  else if 320 < size then true
  else if 0 ≤ scale then limit ≤ mantissa * Nat.pow 10 scale.toNat
  else limit * Nat.pow 10 (-scale).toNat ≤ mantissa

end Typestate.Double
