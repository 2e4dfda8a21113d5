import Flowgraph.Json.Decode
import Flowgraph.State.Basic
import Flowgraph.Time

/-!
# Checkpoints

Everything that a suspended run needs to carry on: the merged state, the node that
waits, the nodes to run beside it, and the nodes that have completed.  A checkpoint
is stored as a record and read back from it.
-/

namespace Flowgraph

/-- What the waiting node waits for. -/
inductive Awaiting where
  /-- Input under the node's own key. -/
  | nothing
  /-- Input under a key of its choice. -/
  | externalInput (key : String)
deriving DecidableEq

namespace Awaiting

/-- The key of a node's own input. -/
def ownKey (node : String) : String := node ++ "_human_input"

/-- What a node waits for that asks for input under a key. -/
def ofKey (node key : String) : Awaiting :=
  if key = ownKey node then nothing else externalInput key

/-- The key that the input is stored under. -/
def inputKey (node : String) : Awaiting → String
  | nothing => ownKey node
  | externalInput key => key

theorem inputKey_ofKey (node key : String) : (ofKey node key).inputKey node = key := by
  unfold ofKey
  split
  · rename_i h; exact h.symm
  · rfl

def toRecord : Awaiting → Json
  | nothing => .obj [("kind", .str "nothing")]
  | externalInput key => .obj [("kind", .str "external_input"), ("key", .str key)]

/-- The kind stands beside the fields in an object, or first in an array. -/
def decode : Decoder Awaiting := fun v =>
  match v, v.field? "kind" with
  | .obj _, some (.str "nothing") => .ok nothing
  | .obj fields, some (.str "external_input") =>
    match fields.lookup "key" with
    | some key => (Decoder.text key).map externalInput
    | none => .error (.missingField "key")
  | .obj _, some kind => .error (.invalidValue kind "variant identifier")
  | .obj _, none => .error (.missingField "kind")
  | .arr [.str "nothing"], _ => .ok nothing
  | .arr [.str "external_input", key], _ => (Decoder.text key).map externalInput
  | v, _ => .error (.invalidType v "internally tagged enum Awaiting")

end Awaiting

structure Checkpoint where
  run : String
  /-- The node that waits. -/
  pending : String
  state : State
  awaiting : Awaiting
  /-- What the waiting node shows to whoever is to answer. -/
  payload : Json
  /-- The nodes to run beside the waiting one. -/
  carried : NameSet
  completed : NameSet
  step : UInt64
  createdAt : Timestamp
deriving DecidableEq

namespace Checkpoint

def inputKey (c : Checkpoint) : String := c.awaiting.inputKey c.pending

/-- The nodes that run first when the run goes on. -/
def frontier (c : Checkpoint) : NameSet := c.carried.insert c.pending

/-- The fields it is stored with, without the time it was made. -/
def recordFields (c : Checkpoint) : Fields :=
  [("run_id", .str c.run), ("pending_node", .str c.pending), ("state_snapshot", c.state.toJson),
    ("awaiting", c.awaiting.toRecord), ("payload", c.payload),
    ("carried_frontier", .ofNames c.carried.toList), ("completed", .ofNames c.completed.toList),
    ("step", .ofWord c.step)]

/-- The form it is stored in, the fields in the order of their declaration. -/
def toRecord (c : Checkpoint) : Json :=
  .obj (c.recordFields ++ [("created_at", .str c.createdAt.text)])

/-- What a record gave so far. -/
structure Draft where
  run : Option String := none
  pending : Option String := none
  state : Option State := none
  awaiting : Option Awaiting := none
  payload : Json := .null
  carried : NameSet := ∅
  completed : NameSet := ∅
  step : Option UInt64 := none
  createdAt : Option Timestamp := none

def decodeNames : Decoder NameSet := fun v => do return .ofList (← Decoder.items .text v)

def decodeTime : Decoder Timestamp
  | .str s =>
    match Timestamp.ofString? s with
    | some t => .ok t
    | none => .error (.invalidValue (.str s) "an RFC 3339 timestamp")
  | v => .error (.invalidType v "an RFC 3339 timestamp")

def visit (d : Draft) (key : String) (v : Json) : Except DecodeError Draft :=
  match key with
  | "run_id" => do return { d with run := some (← Decoder.text v) }
  | "pending_node" => do return { d with pending := some (← Decoder.text v) }
  | "state_snapshot" => do return { d with state := some (.ofFields (← Decoder.fields v)) }
  | "awaiting" => do return { d with awaiting := some (← Awaiting.decode v) }
  | "payload" => .ok { d with payload := v }
  | "carried_frontier" => do return { d with carried := ← decodeNames v }
  | "completed" => do return { d with completed := ← decodeNames v }
  | "step" => do return { d with step := some (← Decoder.word v) }
  | _ => do return { d with createdAt := some (← decodeTime v) }

def decode : Decoder Checkpoint := fun v => do
  let d ← Decoder.record "struct Checkpoint"
    [["run_id"], ["pending_node"], ["state_snapshot"], ["awaiting"], ["payload"],
      ["carried_frontier"], ["completed"], ["step"], ["created_at"]] {} visit v
  return {
    run := ← d.require "run_id" (·.run)
    pending := ← d.require "pending_node" (·.pending)
    state := ← d.require "state_snapshot" (·.state)
    awaiting := ← d.require "awaiting" (·.awaiting)
    payload := d.value.payload
    carried := d.value.carried
    completed := d.value.completed
    step := ← d.require "step" (·.step)
    createdAt := ← d.require "created_at" (·.createdAt) }

end Checkpoint

end Flowgraph
