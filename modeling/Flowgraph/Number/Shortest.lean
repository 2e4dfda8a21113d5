import Flowgraph.Number.Double

/-!
# Shortest decimal of a double

A finite double is printed with the fewest digits to which it is the nearest double;
among numerals with that many digits the nearest to the double is taken.  Every numeral
offered is rounded before it is taken, and the exact expansion stands last.
-/

namespace Flowgraph.Double

/-- The exponent of the leading decimal digit of `n / d`. -/
def leadingExponent (n d : Nat) : Int :=
  if d ≤ n then ((Decimal.digitsOf (n / d)).length : Int) - 1
  else
    let k := (Decimal.digitsOf d).length - (Decimal.digitsOf n).length
    if d ≤ n * Nat.pow 10 k then -(k : Int) else -(k : Int) - 1

/-- `n / (d · 10 ^ e)` as a ratio of naturals. -/
def rescaleTen (n d : Nat) : Int → Nat × Nat
  | .ofNat k => (n, d * Nat.pow 10 k)
  | .negSucc k => (n * Nat.pow 10 (k + 1), d)

/-- The neighbours of `x` on the grid of multiples of `10 ^ e`, the nearer one first; a tie puts
the even one first. -/
def neighbours (x : Double) (e : Int) : List Decimal :=
  let (n, d) := x.ratio
  let (a, b) := rescaleTen n d e
  let q := a / b
  let r := a % b
  if 2 * r < b ∨ (2 * r = b ∧ q % 2 = 0) then [⟨x.neg, q, e⟩, ⟨x.neg, q + 1, e⟩]
  else [⟨x.neg, q + 1, e⟩, ⟨x.neg, q, e⟩]

/-- The numeral equal to a finite double. -/
def exact (x : Double) : Decimal :=
  match x.scale with
  | .ofNat k => ⟨x.neg, x.significand * Nat.pow 2 k, 0⟩
  | .negSucc k => ⟨x.neg, x.significand * Nat.pow 5 (k + 1), -((k + 1 : Nat) : Int)⟩

/-- The first numeral to which `x` is the nearest double, on the grids of 1 to 17 digits. -/
def shortest (x : Double) : Decimal :=
  let (n, d) := x.ratio
  let e := leadingExponent n d
  let offers := (List.range 17).flatMap fun (k : Nat) => x.neighbours (e - k)
  (offers.find? fun c => ofDecimal c = x).getD x.exact

/-! ## Text -/

/-- Drops the zeros at the end of a row of digits. -/
def dropTrailingZeros (ds : List Char) : List Char := (ds.reverse.dropWhile (· = '0')).reverse

/-- The layout of a row of digits whose first stands for `10 ^ e`: with a point where
`-5 ≤ e < 16`, else with an exponent that carries its sign. -/
def layout (ds : List Char) (e : Int) : List Char :=
  if e < -5 ∨ 16 ≤ e then
    let head := ds.take 1
    let tail := ds.drop 1
    let mark := if e < 0 then ['e', '-'] else ['e', '+']
    head ++ (if tail = [] then [] else '.' :: tail) ++ mark ++ Decimal.digitsOf e.natAbs
  else if e < 0 then
    '0' :: '.' :: (List.replicate (e.natAbs - 1) '0' ++ ds)
  else
    let whole := e.natAbs + 1
    if ds.length ≤ whole then ds ++ List.replicate (whole - ds.length) '0' ++ ['.', '0']
    else ds.take whole ++ '.' :: ds.drop whole

/-- The text of a finite double. -/
def text (x : Double) : List Char :=
  let sign := if x.neg then ['-'] else []
  if x.isZero then sign ++ ['0', '.', '0']
  else
    let c := x.shortest
    let ds := Decimal.digitsOf c.digits
    sign ++ layout (dropTrailingZeros ds) (c.exponent + ds.length - 1)

end Flowgraph.Double
