import Flowgraph.Graph.Basic
import Flowgraph.Json.Reader

/-!
# Graph descriptions

A description is an object with a list of node records and a list of edge
records.  Every fault is named: first those of the object, then those of each
record under its own label, then those of the references between the records
that could be read.
-/

namespace Flowgraph

/-! ## Faults -/

/-- What is wrong with one record. -/
inductive RecordFault where
  | notAnObject (found : String)
  | missing (key : String)
  | blank (key : String)
  | notText (key : String) (found : String)
  | notFields (key : String) (found : String)
  | notOptionalText (key : String) (found : String)
deriving DecidableEq

namespace RecordFault

def message : RecordFault → String
  | notAnObject found => "expected an object, got " ++ found
  | missing key => "missing `" ++ key ++ "`"
  | blank key => "`" ++ key ++ "` must not be empty"
  | notText key found => "`" ++ key ++ "` must be a string, got " ++ found
  | notFields key found => "`" ++ key ++ "` must be an object, got " ++ found
  | notOptionalText key found => "`" ++ key ++ "` must be a string or null, got " ++ found

end RecordFault

/-- What is wrong with a description. -/
inductive Fault where
  /-- The parser refused the text, with its complaint. -/
  | notJson (complaint : String)
  | notAnObject (found : String)
  | missingList (key : String)
  | notAList (key : String) (found : String)
  | node (index : Nat) (fault : RecordFault)
  | edge (index : Nat) (fault : RecordFault)
  | reference (fault : ReferenceFault)
deriving DecidableEq

namespace Fault

def message : Fault → String
  | notJson complaint => "graph description is not valid JSON: " ++ complaint
  | notAnObject found => "graph description must be an object, got " ++ found
  | missingList key => "missing required key `" ++ key ++ "`"
  | notAList key found => "`" ++ key ++ "` must be an array, got " ++ found
  | node index fault => "nodes[" ++ toString index ++ "]: " ++ fault.message
  | edge index fault => "edges[" ++ toString index ++ "]: " ++ fault.message
  | reference fault => fault.message

end Fault

/-! ## Records -/

/-- The error of a failed reading, if it failed. -/
def faultOf {ε α : Type} : Except ε α → List ε
  | .ok _ => []
  | .error e => [e]

namespace Description

/-- Text that must be there and must not be empty. -/
def requiredText (fields : Fields) (key : String) : Except RecordFault String :=
  match fields.lookup key with
  | none => .error (.missing key)
  | some (.str s) => if s = "" then .error (.blank key) else .ok s
  | some v => .error (.notText key v.typeName)

/-- Text that may be absent or null, under the first of some spellings that is there. -/
def optionalText (fields : Fields) (keys : List String) : Except RecordFault (Option String) :=
  match keys.findSome? fun key => (fields.lookup key).map fun v => (key, v) with
  | none => .ok none
  | some (_, .null) => .ok none
  | some (_, .str s) => .ok (some s)
  | some (key, v) => .error (.notOptionalText key v.typeName)

/-- The configuration of a node, empty where it is absent or null. -/
def config (fields : Fields) : Except RecordFault Fields :=
  match fields.lookup "config" with
  | none => .ok []
  | some .null => .ok []
  | some (.obj config) => .ok config
  | some v => .error (.notFields "config" v.typeName)

/-- The faults of a node record, and the node if it can be read. -/
def readNode : Json → List RecordFault × Option Node
  | .obj fields =>
    let id := requiredText fields "id"
    let type := requiredText fields "type"
    let config := config fields
    (faultOf id ++ faultOf type ++ faultOf config, do
      let id ← id.toOption
      let type ← type.toOption
      let config ← config.toOption
      return { id, type := .decode type, config, position := fields.lookup "position" })
  | v => ([.notAnObject v.typeName], none)

/-- The faults of an edge record, and the edge if its ends can be read. -/
def readEdge : Json → List RecordFault × Option Edge
  | .obj fields =>
    let source := requiredText fields "source"
    let target := requiredText fields "target"
    let id := optionalText fields ["id"]
    let sourceHandle := optionalText fields ["source_handle", "sourceHandle"]
    let targetHandle := optionalText fields ["target_handle", "targetHandle"]
    (faultOf source ++ faultOf target ++ faultOf id ++ faultOf sourceHandle ++
      faultOf targetHandle, do
      let source ← source.toOption
      let target ← target.toOption
      return {
        id := (id.toOption.join).getD (Edge.defaultId source target)
        source
        target
        sourceHandle := sourceHandle.toOption.join
        targetHandle := targetHandle.toOption.join })
  | v => ([.notAnObject v.typeName], none)

/-- Reads records from the given index on; answers the faults under their labels, and what could
be read. -/
def readRecords {α : Type} (label : Nat → RecordFault → Fault)
    (read : Json → List RecordFault × Option α) : (index : Nat) → List Json → List Fault × List α
  | _, [] => ([], [])
  | index, v :: vs =>
    let (faults, a) := read v
    let (moreFaults, as) := readRecords label read (index + 1) vs
    (faults.map (label index) ++ moreFaults, a.toList ++ as)

/-- A list that a description must have. -/
def requiredList (fields : Fields) (key : String) : Except Fault (List Json) :=
  match fields.lookup key with
  | none => .error (.missingList key)
  | some (.arr items) => .ok items
  | some v => .error (.notAList key v.typeName)

end Description

/-! ## Graphs -/

namespace Graph

open Description

/-- The graph that a description denotes, or everything that is wrong with it.  References are
checked where there is a list of nodes. -/
def ofJson : Json → Except (List Fault) Graph
  | .obj fields =>
    let nodeList := requiredList fields "nodes"
    let edgeList := requiredList fields "edges"
    let (nodeFaults, nodes) := readRecords .node readNode 0 (nodeList.toOption.getD [])
    let (edgeFaults, edges) := readRecords .edge readEdge 0 (edgeList.toOption.getD [])
    let faults := faultOf nodeList ++ faultOf edgeList ++ nodeFaults ++ edgeFaults
    match ofParts nodes edges with
    | .ok g => if faults = [] then .ok g else .error faults
    | .error references =>
      .error (faults ++ (if nodeList.toOption.isSome then references.map .reference else []))
  | v => .error [.notAnObject v.typeName]

/-- The graph that the text of a description denotes.  How a parser words its complaint about a
text is its own affair; three dots stand for it where none is given. -/
def ofText (text : String) (complaint : String → String := fun _ => "...") :
    Except (List Fault) Graph :=
  match Json.ofString? text with
  | none => .error [.notJson (complaint text)]
  | some v => ofJson v

end Graph

end Flowgraph
