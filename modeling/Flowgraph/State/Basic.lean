import Flowgraph.Json.Path

/-!
# State of a run

An open map from keys to values.  The head of a dotted path is a key of the state,
and the rest of it leads into the value there.
-/

namespace Flowgraph

/-- The state that a run accumulates. -/
abbrev State := NameMap Json

namespace State

/-- The state with the fields of an object. -/
def ofFields (fields : Fields) : State := NameMap.overlay ∅ fields

def ofJson? : Json → Option State
  | .obj fields => some (ofFields fields)
  | _ => none

def toJson (s : State) : Json := .obj s.toList

/-- The value at a dotted path whose head is a key. -/
def atPath? (s : State) (path : String) : Option Json :=
  match Text.segments path with
  | [] => none
  | head :: tail => do (← s.find? head).follow? (if tail = [""] then [] else tail)

end State

end Flowgraph
