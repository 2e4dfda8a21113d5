import Flowgraph.Checkpoint.Store
import Flowgraph.Workflow

/-!
# Runs

How a call on a run ends: with the final state, with a signal that the run waits
for input, or with an error.  An error inside a run carries the state merged so far.
-/

namespace Flowgraph

/-- Told to whoever has to answer a suspended run. -/
structure SuspendSignal where
  run : String
  pending : String
  /-- The key that the input will be stored under. -/
  key : String
  payload : Json
deriving DecidableEq

inductive RunOutcome where
  | completed (run : String) (state : State)
  | suspended (signal : SuspendSignal)
deriving DecidableEq

def RunOutcome.isSuspended : RunOutcome → Bool
  | completed .. => false
  | suspended _ => true

inductive RunError where
  | stepExecution (node : String) (source : StepError)
  | plan (source : PlanError)
  | store (source : StoreError)
  | checkpointNotFound (run : String)
  | stepLimitExceeded (limit : UInt64)
  | unknownNode (node : String)
  | compile (source : CompileError)
  /-- A run stopped on an error; the state is the one merged up to then. -/
  | failed (run : String) (error : RunError) (state : State)
deriving DecidableEq

namespace RunError

def message : RunError → String
  | stepExecution node source => "step `" ++ node ++ "` failed: " ++ source.message
  | plan source => source.message
  | store source => source.message
  | checkpointNotFound run => "no checkpoint found for run " ++ run
  | stepLimitExceeded limit => "run exceeded the limit of " ++ toString limit ++ " scheduler steps"
  | unknownNode node => "node `" ++ node ++ "` is not part of this workflow"
  | compile source => source.message
  | failed run error _ => "run " ++ run ++ " failed: " ++ error.message

/-- The underlying cause. -/
def root : RunError → RunError
  | failed _ error _ => error.root
  | e => e

/-- The state that a failed run left. -/
def partialState? : RunError → Option State
  | failed _ _ state => some state
  | _ => none

end RunError

end Flowgraph
