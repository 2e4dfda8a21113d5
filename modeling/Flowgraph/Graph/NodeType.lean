/-!
# Node types

What a node does: start, end, branch and approval are built in, and every other
type name is the kind of a registered step.  Built-in names are read whatever the
case of their letters.
-/

namespace Flowgraph

inductive NodeType where
  | start
  | finish
  | branch
  | approval
  | step (kind : String)
deriving DecidableEq

namespace NodeType

/-- The name of a type in graph descriptions. -/
def encode : NodeType → String
  | start => "start"
  | finish => "end"
  | branch => "branch"
  | approval => "human_approval"
  | step kind => kind

/-- The type that a name denotes. -/
def decode (name : String) : NodeType :=
  let lower := String.ofList (name.toList.map Char.toLower)
  if lower = "start" then start
  else if lower = "end" then finish
  else if lower = "branch" then branch
  else if lower = "human_approval" ∨ lower = "human_in_loop" then approval
  else step name

/-- Conditional nodes choose one outgoing handle when they have run. -/
def isConditional : NodeType → Bool
  | branch | approval => true
  | _ => false

/-- A step without outgoing edges leads to the end. -/
def isStep : NodeType → Bool
  | step _ => true
  | _ => false

end NodeType

end Flowgraph
