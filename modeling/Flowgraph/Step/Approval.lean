import Flowgraph.Step.Basic
import Flowgraph.Template

/-!
# Human approval

An approval step asks for a reviewer's input and waits.  Once the input is in the
state it records the decision, and a decision that is already there it repeats.
Input that is no object, and a decision without the comment that is required, count
as a rejection.
-/

namespace Flowgraph

structure ApprovalConfig where
  message : String := "Please review and approve or reject."
  inputLabel : String := "Comments"
  approvalLabel : String := "Approve"
  rejectionLabel : String := "Reject"
  requireComment : Bool := false
deriving DecidableEq

namespace ApprovalConfig

def visit (d : ApprovalConfig) (key : String) (v : Json) : Except DecodeError ApprovalConfig :=
  match key with
  | "message" => do return { d with message := ← Decoder.text v }
  | "input_label" => do return { d with inputLabel := ← Decoder.text v }
  | "approval_label" => do return { d with approvalLabel := ← Decoder.text v }
  | "rejection_label" => do return { d with rejectionLabel := ← Decoder.text v }
  | _ => do return { d with requireComment := ← Decoder.flag v }

def decode : Decoder ApprovalConfig := fun v => do
  let d ← Decoder.record "struct HumanApprovalConfig"
    [["message"], ["input_label"], ["approval_label"], ["rejection_label"], ["require_comment"]]
    {} visit v
  return d.value

/-! ## Keys and words -/

def approved : String := "approved"
def rejected : String := "rejected"

def decisionKey (id : String) : String := id ++ "_decision"
def inputKey (id : String) : String := id ++ "_human_input"

/-- The handle that a recorded decision leads through. -/
def handleOf (decision : String) : String :=
  if decision = approved then "approval"
  else if decision = rejected then "rejection"
  else "error_path"

/-! ## The step -/

/-- The request shown to the reviewer, its texts rendered. -/
def request (c : ApprovalConfig) (id : String) (s : State) : Json :=
  let shown (t : String) : Json := .str (Template.renderString s t)
  .object [("node_id", .str id), ("message", shown c.message), ("input_label", shown c.inputLabel),
    ("approval_label", shown c.approvalLabel), ("rejection_label", shown c.rejectionLabel),
    ("require_comment", .bool c.requireComment), ("type", .str "human_in_loop_interrupt")]

/-- A text in the reviewer's input. -/
def inputText? (input : Json) (key : String) : Option String := (input.field? key).bind Json.string?

/-- Whether a comment is required of this input and missing. -/
def lacksComment (c : ApprovalConfig) (input : Json) : Bool :=
  input.isObject && c.requireComment &&
    Text.trimmed ((inputText? input "comment").getD "") == "" &&
    (inputText? input "decision").getD rejected != rejected

/-- Why an input counts as a rejection whatever it says. -/
def complaint? (c : ApprovalConfig) (input : Json) : Option String :=
  if !input.isObject then some "reviewer input must be an object"
  else if c.lacksComment input then some "a comment is required for this approval"
  else none

/-- The decision that an input is recorded as. -/
def recorded (c : ApprovalConfig) (input : Json) : String :=
  if c.lacksComment input then rejected else (inputText? input "decision").getD rejected

/-- What is stored of an input. -/
def record (c : ApprovalConfig) (id : String) (s : State) (input : Json) : Fields :=
  ((c.complaint? input).map fun text => (id ++ "_error", Json.str text)).toList ++
    [(decisionKey id, .str (c.recorded input)),
      (id ++ "_comment", .str ((inputText? input "comment").getD "")),
      (id ++ "_user_input", input),
      (id ++ "_hilp_info", c.request id s)]

def execute (c : ApprovalConfig) (id : String) (ctx : StepContext) (s : State) : Execution :=
  match s.find? (decisionKey id) with
  | some decision => .update [(decisionKey id, decision)]
  | none =>
    match s.find? (inputKey id) with
    | some input => .update (c.record id s input)
    | none =>
      { attempt := .done (.suspend (inputKey id) (c.request id s))
        events := (ctx.emit "human_approval" ("awaiting approval at " ++ id)).toOption.toList }

/-- The handle that the state's decision leads through; no decision is a rejection. -/
def decision (id : String) (s : State) : String :=
  handleOf (((s.find? (decisionKey id)).bind Json.string?).getD rejected)

def step {σ : Type} (c : ApprovalConfig) (id : String) : Step σ :=
  .pure (c.execute id) fun s => some (decision id s)

end ApprovalConfig

end Flowgraph
