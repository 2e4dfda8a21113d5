import Flowgraph.Number.Shortest

/-!
# Numbers of a JSON value

A number is a whole number that fits a 64-bit word, signed or unsigned, or a
finite double; a whole number and a double are different numbers even where they
have one value (`Number.same`).
-/

namespace Flowgraph

/-- A whole number between `-2 ^ 63` and `2 ^ 64 - 1`. -/
structure Whole where
  val : Int
  lower : -9223372036854775808 ≤ val := by omega
  upper : val < 18446744073709551616 := by omega
deriving DecidableEq

namespace Whole

def ofInt? (i : Int) : Option Whole :=
  if h : -9223372036854775808 ≤ i ∧ i < 18446744073709551616 then some ⟨i, h.1, h.2⟩ else none

def ofWord (w : UInt64) : Whole :=
  ⟨w.toNat, by omega, by have := w.toNat_lt; omega⟩

end Whole

inductive Number where
  | whole (n : Whole)
  | real (x : Double) (finite : x.isFinite)
deriving DecidableEq

namespace Number

def toDouble : Number → Double
  | .whole n => .ofInt n.val
  | .real x _ => x

def isZero : Number → Bool
  | .whole n => n.val == 0
  | .real x _ => x.isZero

/-- Structural equality: whole numbers by value, doubles by value (so that both zeros are one),
and never one with the other. -/
def same : Number → Number → Bool
  | .whole m, .whole n => m.val == n.val
  | .real x _, .real y _ => x.rank == y.rank
  | _, _ => false

def text : Number → List Char
  | .whole n => (if n.val < 0 then ['-'] else []) ++ Decimal.digitsOf n.val.natAbs
  | .real x _ => x.text

/-- The number that fits an unsigned word, if it is one. -/
def word? : Number → Option UInt64
  | .whole n => if 0 ≤ n.val then some (UInt64.ofNat n.val.toNat) else none
  | .real _ _ => none

end Number

end Flowgraph
