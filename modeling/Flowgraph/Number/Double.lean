import Flowgraph.Number.Decimal

/-!
# Doubles

Binary floating-point numbers with 53 significant bits, infinities included, in
exact arithmetic.  A double is a sign and the bits of its magnitude, and the
order of magnitudes is the order of their bits, so comparing two doubles compares
two integers.  Reading a ratio or a decimal numeral rounds to the nearest double,
a tie to the one with the even last bit.
-/

namespace Flowgraph

/-- How many doubles stand from a power of two up to the next one: `2 ^ 52`. -/
def binade : Nat := 4503599627370496

/-- A double that is not a NaN. -/
structure Double where
  neg : Bool
  /-- The bits of the magnitude: `binade` times the biased exponent plus the fraction. -/
  bits : Nat
  bounded : bits ≤ 2047 * binade
deriving DecidableEq

namespace Double

/-- The magnitude bits of the infinities. -/
def infinityBits : Nat := 2047 * binade

def isFinite (x : Double) : Bool := x.bits < infinityBits

def zero (neg : Bool) : Double := ⟨neg, 0, by decide⟩

def infinity (neg : Bool) : Double := ⟨neg, infinityBits, Nat.le_refl _⟩

def isZero (x : Double) : Bool := x.bits == 0

/-! ## Order -/

/-- Where a double stands among the doubles; both zeros stand at 0. -/
def rank (x : Double) : Int := if x.neg then -(x.bits : Int) else x.bits

def order (x y : Double) : Ordering := compare x.rank y.rank

/-! ## Exact value -/

/-- A finite double is `± significand · 2 ^ scale`. -/
def significand (x : Double) : Nat :=
  if x.bits < binade then x.bits else binade + x.bits % binade

def scale (x : Double) : Int := (max (x.bits / binade) 1 : Nat) - 1075

/-- The magnitude as a ratio of naturals. -/
def ratio (x : Double) : Nat × Nat :=
  match x.scale with
  | .ofNat k => (x.significand * Nat.pow 2 k, 1)
  | .negSucc k => (x.significand, Nat.pow 2 (k + 1))

/-! ## Rounding -/

/-- `n / d` to the nearest natural, a tie to the even one. -/
def roundHalfEven (n d : Nat) : Nat :=
  let q := n / d
  let r := n % d
  if d < 2 * r ∨ (2 * r = d ∧ q % 2 = 1) then q + 1 else q

/-- `n / (d · 2 ^ s)` as a ratio of naturals. -/
def rescale (n d : Nat) : Int → Nat × Nat
  | .ofNat k => (n, d * Nat.pow 2 k)
  | .negSucc k => (n * Nat.pow 2 (k + 1), d)

/-- The power of two that the last bit of the double next to `n / d` stands for: the one that
leaves 53 bits before the point, but at least `2 ^ -1074`. -/
def unitExponent (n d : Nat) : Int :=
  let s : Int := max (-1074) ((n.log2 : Int) - d.log2 - 53)
  let (a, b) := rescale n d s
  if a / b < 2 * binade then s else s + 1

/-- The double nearest to `n / d`. -/
def ofRatio (neg : Bool) (n d : Nat) : Double :=
  if n = 0 then zero neg
  else
    let s := unitExponent n d
    let (a, b) := rescale n d s
    ⟨neg, min ((s + 1074).toNat * binade + roundHalfEven a b) infinityBits, Nat.min_le_right _ _⟩

/-- The double nearest to a numeral.  Numerals above `10 ^ 400` overflow, and those below
`10 ^ -400` vanish, whatever their digits. -/
def ofDecimal (x : Decimal) : Double :=
  if x.digits = 0 then zero x.neg
  else match x.exponent with
    | .ofNat k =>
      if 400 < k then infinity x.neg else ofRatio x.neg (x.digits * Nat.pow 10 k) 1
    | .negSucc k =>
      if (Decimal.digitsOf x.digits).length + 400 < k then zero x.neg
      else ofRatio x.neg x.digits (Nat.pow 10 (k + 1))

def ofInt (i : Int) : Double := ofRatio (i < 0) i.natAbs 1

/-! ## Products and quotients -/

/-- The product of two finite doubles, rounded. -/
def mul (x y : Double) : Double :=
  ofRatio (x.neg != y.neg) (x.ratio.1 * y.ratio.1) (x.ratio.2 * y.ratio.2)

/-- A finite double divided by one that is finite and not zero, rounded. -/
def div (x y : Double) : Double :=
  ofRatio (x.neg != y.neg) (x.ratio.1 * y.ratio.2) (x.ratio.2 * y.ratio.1)

end Double

end Flowgraph
