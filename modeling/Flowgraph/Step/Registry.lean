import Flowgraph.Step.Approval
import Flowgraph.Step.Branch
import Flowgraph.Step.Ends

/-!
# Registering steps

A registry says how the step of each node type is made.  Registering a type again
replaces what was there, and nothing else.
-/

namespace Flowgraph

/-- Makes the step of a node. -/
abbrev StepFactory (σ : Type) := Node → Except StepError (Step σ)

/-- The factories of the registered types, in the order of their registration. -/
structure Registry (σ : Type) where
  factories : List (NodeType × StepFactory σ) := []

namespace Registry

variable {σ : Type}

def find? (r : Registry σ) (type : NodeType) : Option (StepFactory σ) := r.factories.lookup type

def contains (r : Registry σ) (type : NodeType) : Bool := (r.find? type).isSome

def register (r : Registry σ) (type : NodeType) (factory : StepFactory σ) : Registry σ :=
  ⟨(type, factory) :: r.factories.filter (·.1 != type)⟩

/-- The registered types by name, in ascending order. -/
def kinds (r : Registry σ) : List String := (NameSet.ofList (r.factories.map (·.1.encode))).toList

/-- Makes the step of a node. -/
def create (r : Registry σ) (n : Node) : Except StepError (Step σ) :=
  match r.find? n.type with
  | some factory => factory n
  | none => .error (.unknownKind n.type.encode)

/-- The built-in types, given how branches evaluate their conditions. -/
def builtin (evaluator : Evaluator) : Registry σ where
  factories := [
    (.start, fun n => do return (← Step.config StartConfig.decode n).step),
    (.finish, fun n => do return (← Step.config EndConfig.decode n).step),
    (.branch, fun n => do return (← Step.config BranchConfig.decode n).step evaluator n.id),
    (.approval, fun n => do return (← Step.config ApprovalConfig.decode n).step n.id)]

/-- The built-in types with the predicates of this library. -/
def standard : Registry σ := builtin fun expression s => Predicate.evaluateString s expression

def display (r : Registry σ) : String :=
  "StepRegistry \x7b kinds: " ++ Text.quotedList r.kinds ++ " \x7d"

end Registry

end Flowgraph
