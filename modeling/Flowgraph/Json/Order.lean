import Flowgraph.Json.Compact
import Flowgraph.Number.Numeral
import Flowgraph.Text.Blank

/-!
# Comparing values

Numbers compare as doubles, strings by code points, `false` below `true`, and a
number with a numeric string as numbers; other pairs have no order.  Two values
are loosely equal when they are structurally equal or compare as equal.
-/

namespace Flowgraph.Json

/-- Null, `false`, zero and all that is empty are not truthy. -/
def truthy : Json → Bool
  | .null => false
  | .bool b => b
  | .num n => !n.isZero
  | .str s => s != ""
  | .arr items => !items.isEmpty
  | .obj fields => !fields.isEmpty

/-- The text of a value inside other text: null is empty, and strings stand without quotes. -/
def display : Json → List Char
  | .null => []
  | .str s => s.toList
  | v => v.text

/-- The number that a string spells, blanks around it aside. -/
def numeral? (s : String) : Option Double := Double.ofText? (Text.trim s.toList)

def order : Json → Json → Option Ordering
  | .num a, .num b => some (a.toDouble.order b.toDouble)
  | .str a, .str b => some (compare a b)
  | .bool a, .bool b => some (compare a.toNat b.toNat)
  | .num a, .str b => (numeral? b).map a.toDouble.order
  | .str a, .num b => (numeral? a).map (·.order b.toDouble)
  | .null, .null => some .eq
  | _, _ => none

def looselyEqual (a b : Json) : Bool := same a b || order a b == some .eq

end Flowgraph.Json
