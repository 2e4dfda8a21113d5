import Flowgraph.Predicate.Basic

/-!
# Evaluating predicates

A single operand holds when its value is truthy.  `==` and `!=` are loose equality
and its negation; the other comparisons follow the order of values and fail where
there is none.  The left operand is read and resolved before the right one.
-/

namespace Flowgraph.Predicate

/-- Why a predicate has no truth value. -/
inductive EvaluationError where
  | empty
  | unsupported (expression : String)
  | unknownVariable (path : String)
  | incomparable (left : String) (op : Operator) (right : String)
deriving DecidableEq

namespace EvaluationError

def message : EvaluationError → String
  | empty => "empty predicate"
  | unsupported expression => "unsupported expression: `" ++ expression ++ "`"
  | unknownVariable path => "variable `" ++ path ++ "` is not present in state"
  | incomparable left op right => "cannot compare " ++ left ++ " " ++ op.text ++ " " ++ right

end EvaluationError

/-- The value of an operand in a state. -/
def Operand.resolve (s : State) : Operand → Except EvaluationError Json
  | .literal v => .ok v
  | .path segments =>
    let found := match segments with
      | [] => none
      | head :: tail => do (← s.find? head).follow? tail
    match found with
    | some v => .ok v
    | none => .error (.unknownVariable (".".intercalate segments))

/-- The value of an operand text. -/
def evaluateOperand (s : State) (cs : List Char) : Except EvaluationError Json :=
  let cs := Text.trim cs
  match operand? cs with
  | some o => o.resolve s
  | none => .error (.unsupported (String.ofList cs))

/-- Whether a comparison of two values holds. -/
def Operator.holds (op : Operator) (a b : Json) : Except EvaluationError Bool :=
  let ordered (test : Ordering → Bool) : Except EvaluationError Bool :=
    match a.order b with
    | some o => .ok (test o)
    | none => .error (.incomparable a.typeName op b.typeName)
  match op with
  | .eq => .ok (a.looselyEqual b)
  | .ne => .ok (!a.looselyEqual b)
  | .gt => ordered (· == .gt)
  | .ge => ordered (· != .lt)
  | .lt => ordered (· == .lt)
  | .le => ordered (· != .gt)

/-- The truth value of a predicate text in a state. -/
def evaluate (s : State) (cs : List Char) : Except EvaluationError Bool :=
  let cs := Text.trim cs
  if cs = [] then .error .empty
  else match splitComparison cs with
    | none => do return (← evaluateOperand s cs).truthy
    | some (l, op, r) => do
      let a ← evaluateOperand s l
      let b ← evaluateOperand s r
      op.holds a b

/-- The truth value of a predicate in a state. -/
def evaluateString (s : State) (expression : String) : Except EvaluationError Bool :=
  evaluate s expression.toList

end Flowgraph.Predicate
