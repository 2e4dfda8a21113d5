/-!
# Decimal numerals

Digits, their value, and numerals `± digits · 10 ^ exponent` as texts spell them, with all their
digits or with those that fit a 64-bit word.  `spanDigits` loses nothing: the digits and the rest
are the text.
-/

namespace Flowgraph

/-- A decimal numeral: the sign, and `digits · 10 ^ exponent`. -/
structure Decimal where
  neg : Bool
  digits : Nat
  exponent : Int
deriving DecidableEq, Repr

namespace Decimal

/-- The digits that open a text, and what follows them. -/
def spanDigits (cs : List Char) : List Char × List Char :=
  (cs.takeWhile Char.isDigit, cs.dropWhile Char.isDigit)

theorem spanDigits_append (cs : List Char) : (spanDigits cs).1 ++ (spanDigits cs).2 = cs :=
  List.takeWhile_append_dropWhile

/-- The number that a row of decimal digits denotes. -/
def valueOf (ds : List Char) : Nat := ds.foldl (fun n c => 10 * n + (c.toNat - '0'.toNat)) 0

/-- A number written in decimal digits. -/
def digitsOf (n : Nat) : List Char := Nat.toDigits 10 n

/-- An exponent mark with its sign and digits; a text that opens with no mark has exponent 0,
and a mark without digits is no exponent. -/
def readExponent : List Char → Option (Int × List Char)
  | c :: cs =>
    if c = 'e' ∨ c = 'E' then
      let (neg, cs) := match cs with
        | '+' :: cs => (false, cs)
        | '-' :: cs => (true, cs)
        | cs => (false, cs)
      match spanDigits cs with
      | ([], _) => none
      | (ds, rest) => some (if neg then -(valueOf ds : Int) else valueOf ds, rest)
    else some (0, c :: cs)
  | [] => some (0, [])

/-- The numeral of the digits before the point, those after it, and an exponent. -/
def ofParts (neg : Bool) (before after : List Char) (exponent : Int) : Decimal :=
  ⟨neg, valueOf (before ++ after), exponent - after.length⟩

/-- Puts digits behind the number that they follow as long as it fits a 64-bit word; the digits that
do not go in are left. -/
def takeDigits : Nat → List Char → Nat × List Char
  | n, [] => (n, [])
  | n, c :: cs =>
    let m := 10 * n + (c.toNat - '0'.toNat)
    if m < UInt64.size then takeDigits m cs else (n, c :: cs)

/-- The numeral of the digits that go into a 64-bit word: of the digits that are left, those before
the point count for the exponent, and those behind it do not count. -/
def ofLeading (neg : Bool) (before after : List Char) (exponent : Int) : Decimal :=
  let (n, left) := takeDigits 0 before
  let (m, ignored) := takeDigits n after
  ⟨neg, m, exponent + left.length - (after.length - ignored.length : Nat)⟩

end Decimal

/-- A number below `2 ^ 64` written in digits, with an optional plus sign before them. -/
def readWord (cs : List Char) : Option Nat :=
  let cs := match cs with
    | '+' :: cs => cs
    | cs => cs
  if cs ≠ [] ∧ cs.all Char.isDigit ∧ Decimal.valueOf cs < UInt64.size then some (Decimal.valueOf cs)
  else none

end Flowgraph
