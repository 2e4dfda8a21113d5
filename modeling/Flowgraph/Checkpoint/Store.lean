import Flowgraph.Checkpoint.Basic
import Flowgraph.Json.Depth

/-!
# Stores of checkpoints

A store keeps at most one checkpoint per run.  Any of its operations may fail, and
a store may change as it likes over its content `τ`; `memory` is the plain map, and
`text` keeps every checkpoint as JSON text and reads it back when it is loaded.
-/

namespace Flowgraph

/-- Why a store refused. -/
inductive StoreError where
  | backend (text : String)
  /-- What is stored cannot be read. -/
  | malformed (text : String)
  | other (text : String)
deriving DecidableEq

namespace StoreError

def message : StoreError → String
  | backend text => "checkpoint backend error: " ++ text
  | malformed text => "checkpoint serialization error: " ++ text
  | other text => "checkpointer error: " ++ text

end StoreError

/-- The operations of a store with content `τ`. -/
structure CheckpointStore (τ : Type) where
  /-- Puts a checkpoint in the place of the one of its run. -/
  save : Checkpoint → τ → Except StoreError Unit × τ
  load : String → τ → Except StoreError (Option Checkpoint) × τ
  /-- Answers whether there was a checkpoint to remove. -/
  delete : String → τ → Except StoreError Bool × τ
  /-- The runs that have a checkpoint, in ascending order. -/
  list : τ → Except StoreError (List String) × τ

namespace CheckpointStore

/-- A plain map from runs to checkpoints. -/
def memory : CheckpointStore (NameMap Checkpoint) where
  save c m := (.ok (), m.insert c.run c)
  load run m := (.ok (m.find? run), m)
  delete run m := (.ok (m.contains run), m.erase run)
  list m := (.ok m.keys.toList, m)

/-- The checkpoint that a stored text denotes. -/
def ofText (text : String) : Except StoreError Checkpoint :=
  match Json.ofString? text with
  | none => .error (.malformed (Json.overflowMessage text.toList))
  | some v =>
    match Checkpoint.decode v with
    | .ok c => .ok c
    | .error e => .error (.malformed e.message)

/-- A map from runs to the texts of checkpoints. -/
def text : CheckpointStore (NameMap String) where
  save c m := (.ok (), m.insert c.run c.toRecord.compact)
  load run m :=
    (match m.find? run with
      | none => .ok none
      | some t => (ofText t).map some, m)
  delete run m := (.ok (m.contains run), m.erase run)
  list m := (.ok m.keys.toList, m)

end CheckpointStore

end Flowgraph
