import Flowgraph.Number.Double

/-!
# Numerals worked out in doubles

The double that stepwise rounding makes of a numeral: the digits are rounded to a double, which is
multiplied by the double of a power of ten, or divided by it, and rounded again.  The nearest
double to a numeral (`ofDecimal`) can be a neighbour of it.
-/

namespace Flowgraph.Double

/-- The exponent of the largest power of ten that is no infinity. -/
def lastTen : Nat := 308

/-- The double nearest to `10 ^ k`. -/
def tenPower (k : Nat) : Double := ofRatio false (Nat.pow 10 k) 1

/-- A double divided by `10 ^ k`: by the largest power of ten as long as `k` is larger than its
exponent, and then by the rest.  The first argument bounds the number of divisions and need be no
more than `k`. -/
def divTen : Nat → Double → Nat → Double
  | 0, x, k => x.div (tenPower k)
  | n + 1, x, k =>
    if k ≤ lastTen then x.div (tenPower k)
    else if x.isZero then x
    else divTen n (x.div (tenPower lastTen)) (k - lastTen)

/-- The double that a numeral comes to in steps; it is infinite if it is too large. -/
def scaled (y : Decimal) : Double :=
  let x := ofRatio y.neg y.digits 1
  match y.exponent with
  | .ofNat k =>
    if k ≤ lastTen then x.mul (tenPower k) else if x.isZero then x else infinity y.neg
  | .negSucc k => divTen (k + 1) x (k + 1)

end Flowgraph.Double
