import Flowgraph.Json.Reader

/-!
# Where a text nests too deep

The place of the bracket or brace that opens one level more than may be open at
once.  Brackets inside strings do not count.
-/

namespace Flowgraph.Json

/-- Where a scan stands: outside strings, inside one, or after a backslash inside one. -/
inductive ScanMode where
  | outside
  | inside
  | escaped

/-- The bytes before the first opening that finds no level left, given how many levels are left
and the bytes that stand before the text. -/
def overflowFrom : ScanMode → (left bytes : Nat) → List Char → Option Nat
  | _, _, _, [] => none
  | .escaped, left, bytes, c :: cs => overflowFrom .inside left (bytes + c.utf8Size) cs
  | .inside, left, bytes, c :: cs =>
    let mode := if c = '\\' then .escaped else if c = '"' then .outside else .inside
    overflowFrom mode left (bytes + c.utf8Size) cs
  | .outside, left, bytes, c :: cs =>
    if c = '"' then overflowFrom .inside left (bytes + c.utf8Size) cs
    else if c = '[' ∨ c = '\x7b' then
      match left with
      | 0 => some bytes
      | left + 1 => overflowFrom .outside left (bytes + c.utf8Size) cs
    else if c = ']' ∨ c = '\x7d' then overflowFrom .outside (left + 1) (bytes + c.utf8Size) cs
    else overflowFrom .outside left (bytes + c.utf8Size) cs

/-- How the reader complains about a text of one line that nests too deep. -/
def overflowMessage (cs : List Char) : String :=
  let column := ((overflowFrom .outside depthLimit 0 cs).getD 0) + 1
  "recursion limit exceeded at line 1 column " ++ toString column

end Flowgraph.Json
