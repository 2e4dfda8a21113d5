import Flowgraph.Event.Basic
import Flowgraph.Graph.Basic
import Flowgraph.State.Basic

/-!
# Steps

What backs a node.  A step is executed on a snapshot of the state and answers with
an update or a request to wait for input; a conditional one then names a handle.
A step may keep a memory `σ` of its own between executions: all steps of a workflow
share one, and nothing is assumed about what they do with it.
-/

namespace Flowgraph

/-! ## Errors -/

/-- Why a step failed, or could not be made. -/
inductive StepError where
  | missingInput (what : String)
  | invalidConfig (text : String)
  | unknownKind (kind : String)
  | provider (name : String) (text : String)
  | json (text : String)
  | busUnavailable
  | other (text : String)
deriving DecidableEq

namespace StepError

def message : StepError → String
  | missingInput what => "missing expected input: " ++ what
  | invalidConfig text => "invalid step configuration: " ++ text
  | unknownKind kind => "no step registered for type `" ++ kind ++ "`"
  | provider name text => "provider error (" ++ name ++ "): " ++ text
  | json text => text
  | busUnavailable => "event bus error: failed to emit event: event bus unavailable"
  | other text => text

/-- The error for a task that crashed. -/
def crashed (report : String) : StepError := .other ("step task failed: " ++ report)

end StepError

/-! ## Execution -/

/-- What an execution knows of its surroundings. -/
structure StepContext where
  node : String
  run : String
  step : UInt64
  /-- Whether events can still be sent. -/
  busOpen : Bool := true

namespace StepContext

/-- The key that a field of this node has in the state. -/
def key (ctx : StepContext) (field : String) : String := ctx.node ++ "_" ++ field

/-- The event that emitting a message sends. -/
def emit (ctx : StepContext) (scope message : String) : Except StepError NodeEvent :=
  if ctx.busOpen then .ok ⟨ctx.node, ctx.step, scope, message⟩ else .error .busUnavailable

end StepContext

/-- What a step answers. -/
inductive StepOutcome where
  /-- Fields to merge into the state; a value that is no object changes nothing. -/
  | update (v : Json)
  /-- Input is needed under a key. -/
  | suspend (key : String) (payload : Json)
deriving DecidableEq

/-- How an execution ended. -/
inductive Attempt where
  | done (outcome : StepOutcome)
  | failed (error : StepError)
  /-- The task broke down without an answer. -/
  | crashed (report : String)
deriving DecidableEq

/-- An execution: how it ended, and the messages it emitted, in order. -/
structure Execution where
  attempt : Attempt
  events : List NodeEvent := []
deriving DecidableEq

namespace Execution

def update (fields : Fields) : Execution := ⟨.done (.update (.object fields)), []⟩

end Execution

/-- A step with a memory. -/
structure Step (σ : Type) where
  execute : StepContext → State → σ → Execution × σ
  /-- The handle that a conditional node leaves through, read off the merged state. -/
  decision : State → σ → Option String := fun _ _ => none

namespace Step

/-- A step that leaves the memory alone. -/
def pure {σ : Type} (execute : StepContext → State → Execution)
    (decision : State → Option String := fun _ => none) : Step σ where
  execute ctx s memory := (execute ctx s, memory)
  decision s _ := decision s

/-- Reads the configuration of a node. -/
def config {α : Type} (decode : Decoder α) (n : Node) : Except StepError α :=
  match decode (.obj n.config) with
  | .ok a => .ok a
  | .error e => .error (.invalidConfig ("node `" ++ n.id ++ "`: " ++ e.message))

end Step

end Flowgraph
