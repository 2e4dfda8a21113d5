import Flowgraph.Json.Decode
import Flowgraph.Time

/-!
# Events

What travels over the bus: messages that a node emits while it runs, and the
lifecycle of a run.  Complete, error and input-required events are terminal: no
event of the call follows them.
-/

namespace Flowgraph

/-- A message emitted by a node. -/
structure NodeEvent where
  node : String
  step : UInt64
  scope : String
  message : String
deriving DecidableEq

inductive EventKind where
  | start
  | progress
  | inputRequired
  | complete
  | error
deriving DecidableEq

namespace EventKind

def name : EventKind → String
  | start => "start"
  | progress => "progress"
  | inputRequired => "human_input_required"
  | complete => "complete"
  | error => "error"

def ofName? (name : String) : Option EventKind :=
  [start, progress, inputRequired, complete, error].find? (·.name = name)

def isTerminal : EventKind → Bool
  | start | progress => false
  | inputRequired | complete | error => true

end EventKind

/-- A turn in the life of a run. -/
structure RunEvent where
  kind : EventKind
  data : Json
  timestamp : Timestamp
  run : String
deriving DecidableEq

inductive Event where
  | node (e : NodeEvent)
  | run (e : RunEvent)
deriving DecidableEq

/-! ## Written forms -/

namespace RunEvent

/-- The data of an error event. -/
def errorData (message : String) : Json := .object [("error", .str message)]

def toJson (e : RunEvent) : Json :=
  .object [("type", .str e.kind.name), ("data", e.data), ("timestamp", .str e.timestamp.offsetText),
    ("run_id", .str e.run)]

/-- A frame of a server-sent event stream: one data line and a blank line. -/
def frame (e : RunEvent) : String := "data: " ++ e.toJson.compact ++ "\n\n"

/-- The form it is stored in. -/
def toRecord (e : RunEvent) : Json :=
  .object [("type", .str e.kind.name), ("data", e.data), ("timestamp", .str e.timestamp.text),
    ("run_id", .str e.run)]

end RunEvent

namespace NodeEvent

def recordFields (e : NodeEvent) : Fields :=
  [("node_id", .str e.node), ("step", .ofWord e.step), ("scope", .str e.scope),
    ("message", .str e.message)]

def toJson (e : NodeEvent) : Json := .object (("type", .str "node") :: e.recordFields)

/-- The form it is stored in. -/
def toRecord (e : NodeEvent) : Json := .object e.recordFields

end NodeEvent

namespace Event

def run? : Event → Option RunEvent
  | run e => some e
  | node _ => none

/-- The id of the run, where the event is of one. -/
def runId? (e : Event) : Option String := e.run?.map (·.run)

/-- A short label: the scope of a message, the kind of a turn. -/
def label : Event → String
  | node e => e.scope
  | run e => e.kind.name

def toJson : Event → Json
  | node e => e.toJson
  | run e => e.toJson

/-- The form it is stored in. -/
def toRecord : Event → Json
  | node e => .object [("Node", e.toRecord)]
  | run e => .object [("Workflow", e.toRecord)]

/-- The event on one line for a reader. -/
def display : Event → String
  | node e => "[" ++ e.node ++ "@" ++ toString e.step ++ "] " ++ e.message
  | run e => "[" ++ e.run ++ " " ++ e.kind.name ++ "] " ++ e.data.compact

end Event

/-! ## Reading stored events -/

namespace Timestamp

def decode : Decoder Timestamp
  | .str s =>
    match ofString? s with
    | some t => .ok t
    | none => .error (.invalidValue (.str s) "an RFC 3339 timestamp")
  | v => .error (.invalidType v "an RFC 3339 formatted date and time string or a unix timestamp")

end Timestamp

namespace EventKind

def decodeName (name : String) : Except DecodeError EventKind :=
  match ofName? name with
  | some kind => .ok kind
  | none => .error (.invalidValue (.str name) "an event type")

/-- A kind is its name, or an object whose one field has that name and is null. -/
def decode : Decoder EventKind
  | .str name => decodeName name
  | .obj [(name, .null)] => decodeName name
  | v => .error (.invalidType v "an event type")

end EventKind

namespace NodeEvent

/-- What a record of a message gave so far. -/
structure Draft where
  node : Option String := none
  step : Option UInt64 := none
  scope : Option String := none
  message : Option String := none

def visit (d : Draft) (key : String) (v : Json) : Except DecodeError Draft :=
  match key with
  | "node_id" => do return { d with node := some (← Decoder.text v) }
  | "step" => do return { d with step := some (← Decoder.word v) }
  | "scope" => do return { d with scope := some (← Decoder.text v) }
  | _ => do return { d with message := some (← Decoder.text v) }

def decode : Decoder NodeEvent := fun v => do
  let d ← Decoder.record "struct NodeEvent" [["node_id"], ["step"], ["scope"], ["message"]] {} visit v
  return {
    node := ← d.require "node_id" (·.node)
    step := ← d.require "step" (·.step)
    scope := ← d.require "scope" (·.scope)
    message := ← d.require "message" (·.message) }

end NodeEvent

namespace RunEvent

/-- What a record of a turn gave so far. -/
structure Draft where
  kind : Option EventKind := none
  data : Option Json := none
  timestamp : Option Timestamp := none
  run : Option String := none

def visit (d : Draft) (key : String) (v : Json) : Except DecodeError Draft :=
  match key with
  | "type" => do return { d with kind := some (← EventKind.decode v) }
  | "data" => .ok { d with data := some v }
  | "timestamp" => do return { d with timestamp := some (← Timestamp.decode v) }
  | _ => do return { d with run := some (← Decoder.text v) }

def decode : Decoder RunEvent := fun v => do
  let d ← Decoder.record "struct WorkflowEvent" [["type"], ["data"], ["timestamp"], ["run_id"]] {}
    visit v
  return {
    kind := ← d.require "type" (·.kind)
    data := ← d.require "data" (·.data)
    timestamp := ← d.require "timestamp" (·.timestamp)
    run := ← d.require "run_id" (·.run) }

end RunEvent

/-- An event is stored as an object whose one field names its sort. -/
def Event.decode : Decoder Event
  | .obj [("Node", v)] => (NodeEvent.decode v).map .node
  | .obj [("Workflow", v)] => (RunEvent.decode v).map .run
  | v => .error (.invalidType v "enum Event")

end Flowgraph
