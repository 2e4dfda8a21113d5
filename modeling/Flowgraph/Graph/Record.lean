import Flowgraph.Graph.Basic
import Flowgraph.Json.Decode

/-!
# Typed records of nodes and edges

Nodes and edges in the form they are written in, as objects or as arrays of their
fields.  Other than a description, a record may leave nothing out but what has a
default, and null stands for an absent position or handle only.
-/

namespace Flowgraph

namespace Node

/-- What a record of a node gave so far. -/
structure Draft where
  id : Option String := none
  type : Option NodeType := none
  config : Fields := []
  position : Option Json := none

def visit (d : Draft) (key : String) (v : Json) : Except DecodeError Draft :=
  match key with
  | "id" => do return { d with id := some (← Decoder.text v) }
  | "type" => do return { d with type := some (.decode (← Decoder.text v)) }
  | "config" => do return { d with config := ← Decoder.fields v }
  | _ => do return { d with position := ← Decoder.optional .ok v }

def decode : Decoder Node := fun v => do
  let d ← Decoder.record "struct Node" [["id"], ["type"], ["config"], ["position"]] {} visit v
  return {
    id := ← d.require "id" (·.id)
    type := ← d.require "type" (·.type)
    config := d.value.config
    position := d.value.position }

end Node

namespace Edge

/-- What a record of an edge gave so far. -/
structure Draft where
  id : Option String := none
  source : Option String := none
  target : Option String := none
  sourceHandle : Option String := none
  targetHandle : Option String := none

def visit (d : Draft) (key : String) (v : Json) : Except DecodeError Draft :=
  match key with
  | "id" => do return { d with id := some (← Decoder.text v) }
  | "source" => do return { d with source := some (← Decoder.text v) }
  | "target" => do return { d with target := some (← Decoder.text v) }
  | "source_handle" => do return { d with sourceHandle := ← Decoder.optional .text v }
  | _ => do return { d with targetHandle := ← Decoder.optional .text v }

def decode : Decoder Edge := fun v => do
  let d ← Decoder.record "struct Edge"
    [["id"], ["source"], ["target"], ["source_handle", "sourceHandle"],
      ["target_handle", "targetHandle"]] {} visit v
  return {
    id := ← d.require "id" (·.id)
    source := ← d.require "source" (·.source)
    target := ← d.require "target" (·.target)
    sourceHandle := d.value.sourceHandle
    targetHandle := d.value.targetHandle }

end Edge

end Flowgraph
