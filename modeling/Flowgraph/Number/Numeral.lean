import Flowgraph.Number.Double

/-!
# Numerals in free text

The lenient spelling of a number inside a string: an optional sign, digits with
an optional point (digits may be missing on one side of it), an optional exponent,
or a word for infinity.  The word for a NaN denotes no double.
-/

namespace Flowgraph.Double

/-- The words for infinity, whatever the case of their letters. -/
def isInfinityWord (cs : List Char) : Bool :=
  let w := cs.map Char.toLower
  w == ['i', 'n', 'f'] || w == ['i', 'n', 'f', 'i', 'n', 'i', 't', 'y']

/-- The double nearest to the number that a whole text spells. -/
def ofText? (cs : List Char) : Option Double :=
  let (neg, cs) := match cs with
    | '+' :: cs => (false, cs)
    | '-' :: cs => (true, cs)
    | cs => (false, cs)
  if isInfinityWord cs then some (.infinity neg)
  else
    let (before, cs) := Decimal.spanDigits cs
    let (after, cs) := match cs with
      | '.' :: cs => Decimal.spanDigits cs
      | cs => ([], cs)
    if before = [] ∧ after = [] then none
    else match Decimal.readExponent cs with
      | some (exponent, []) => some (.ofDecimal (.ofParts neg before after exponent))
      | _ => none

end Flowgraph.Double
