import Flowgraph.Json.Basic
import Flowgraph.Text.Word

/-!
# Paths into values

A path is a row of segments between dots.  A segment names a field of an object
or an index of an array; the empty path leads to the value itself.
-/

namespace Flowgraph.Json

/-- One segment further. -/
def child? (v : Json) (segment : String) : Option Json :=
  match v with
  | .obj fields => fields.lookup segment
  | .arr items => do items[← readWord segment.toList]?
  | _ => none

/-- The value at the end of a row of segments. -/
def follow? (v : Json) (segments : List String) : Option Json := segments.foldlM child? v

/-- The value at a dotted path. -/
def atPath? (v : Json) (path : String) : Option Json :=
  if path = "" then some v else v.follow? (Text.segments path)

end Flowgraph.Json
