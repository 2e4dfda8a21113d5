import Flowgraph.Predicate.Evaluate
import Flowgraph.Step.Basic

/-!
# Branching

A branch step decides for the first of its conditions that holds, and otherwise
for its else path or the default.  A condition is an expression, or a variable (its
subject), an operator and a value; it is rendered as a template and then evaluated, and a
condition that has no truth value does not hold.
-/

namespace Flowgraph

structure BranchCondition where
  condition : String := ""
  subject : String := ""
  operator : String := "=="
  value : String := ""
deriving DecidableEq

namespace BranchCondition

def visit (d : BranchCondition) (key : String) (v : Json) : Except DecodeError BranchCondition :=
  match key with
  | "condition" => do return { d with condition := ← Decoder.text v }
  | "variable" => do return { d with subject := ← Decoder.text v }
  | "operator" => do return { d with operator := ← Decoder.text v }
  | _ => do return { d with value := ← Decoder.text v }

def decode : Decoder BranchCondition := fun v => do
  let d ← Decoder.record "struct BranchCondition"
    [["condition"], ["variable"], ["operator"], ["value"]] {} visit v
  return d.value

/-- The condition that an expression states. -/
def ofExpression (condition : String) : BranchCondition := { condition }

/-- A value as an operand: a number, a truth value or null as it stands, all else as a string. -/
def operandText (value : String) : String :=
  let trimmed := Text.trimmed value
  match Json.ofString? trimmed with
  | some (.num _) => trimmed
  | some (.bool _) => trimmed
  | some .null => trimmed
  | _ => (Json.str value).compact

/-- The expression to evaluate; it is put together where none is given and there is a variable. -/
def expression (c : BranchCondition) : String :=
  if Text.trimmed c.condition ≠ "" ∨ c.subject = "" then c.condition
  else "state['" ++ c.subject ++ "'] " ++ c.operator ++ " " ++ operandText c.value

def toJson (c : BranchCondition) : Json :=
  .object [("condition", .str c.condition), ("variable", .str c.subject),
    ("operator", .str c.operator), ("value", .str c.value)]

end BranchCondition

structure BranchConfig where
  conditions : List BranchCondition := []
  hasElse : Bool := false
deriving DecidableEq

/-- How predicates are given a truth value. -/
abbrev Evaluator := String → State → Except Predicate.EvaluationError Bool

namespace BranchConfig

def decode : Decoder BranchConfig := fun v => do
  let d ← Decoder.record "struct BranchConfig" [["conditions"], ["hasElse", "has_else"]]
    ({} : BranchConfig) (fun d key v => do
      if key = "conditions" then
        return { d with conditions := ← Decoder.items BranchCondition.decode v }
      else return { d with hasElse := ← Decoder.flag v }) v
  return d.value

/-- Whether a condition holds in a state. -/
def holds (evaluator : Evaluator) (s : State) (c : BranchCondition) : Bool :=
  match evaluator (Template.renderString s c.expression) s with
  | .ok b => b
  | .error _ => false

/-- The handle that is decided for. -/
def decide (evaluator : Evaluator) (c : BranchConfig) (s : State) : String :=
  match c.conditions.findIdx? (holds evaluator s) with
  | some i => "branch-" ++ toString i
  | none => if c.hasElse then "else" else "default"

/-- The key that a node's decision is stored under. -/
def decisionKey (id : String) : String := id ++ "_decision"

def step {σ : Type} (evaluator : Evaluator) (id : String) (c : BranchConfig) : Step σ :=
  .pure (fun _ s => .update [(decisionKey id, .str (c.decide evaluator s))])
    fun s => (s.find? (decisionKey id)).bind Json.string?

end BranchConfig

end Flowgraph
