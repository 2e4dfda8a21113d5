import Flowgraph.Run.Basic
import Flowgraph.State.Reduce

/-!
# Rounds of a run

A run goes in rounds.  A round executes the nodes of a frontier in ascending order,
all on one snapshot of the state, merges their updates, and routes the nodes that
gave one.  What comes next is another frontier, a checkpoint if a node asked for
input, or an error; of several failing nodes the least one is reported.
-/

namespace Flowgraph

/-- Where a run stands between rounds. -/
structure Progress where
  state : State
  /-- The nodes that have given an update. -/
  completed : NameSet := ∅
  /-- The number of the last round. -/
  step : UInt64 := 0
deriving DecidableEq

/-- What follows a round. -/
inductive Verdict where
  | ready (frontier : NameSet)
  | suspended (checkpoint : Checkpoint)
  | failed (error : RunError)
deriving DecidableEq

/-! ## Executing a frontier -/

/-- The executions of a round by node, in ascending order. -/
abbrev Executions := List (String × Execution)

namespace Executions

/-- The updates that were given, objects or not. -/
def updates (es : Executions) : List (String × Json) :=
  es.filterMap fun e =>
    match e.2.attempt with
    | .done (.update v) => some (e.1, v)
    | _ => none

/-- The nodes that gave an update. -/
def ran (es : Executions) : List String := es.updates.map (·.1)

/-- The nodes that asked for input, with the key and the payload of each. -/
def suspensions (es : Executions) : List (String × String × Json) :=
  es.filterMap fun e =>
    match e.2.attempt with
    | .done (.suspend key payload) => some (e.1, key, payload)
    | _ => none

/-- The error of an execution. -/
def errorOf? (e : String × Execution) : Option RunError :=
  match e.2.attempt with
  | .failed error => some (.stepExecution e.1 error)
  | .crashed report => some (.stepExecution e.1 (.crashed report))
  | .done _ => none

def failure? (es : Executions) : Option RunError := es.findSome? errorOf?

/-- The messages that were emitted, those of one node after those of another. -/
def messages (es : Executions) : List NodeEvent := es.flatMap (·.2.events)

end Executions

variable {σ : Type}

/-- Executes steps one after the other on one snapshot. -/
def executeAll (context : String → StepContext) (snapshot : State) :
    List (String × Step σ) → σ → Executions × σ
  | [], memory => ([], memory)
  | (id, step) :: rest, memory =>
    let (e, memory) := step.execute (context id) snapshot memory
    let (es, memory) := executeAll context snapshot rest memory
    ((id, e) :: es, memory)

/-! ## Routing -/

namespace Plan

/-- Whether a node may run as far as its join is concerned. -/
def isReady (p : Plan) (completed : NameSet) (id : String) : Bool :=
  match p.joins.find? id with
  | some sources => decide (sources ⊆ completed)
  | none => true

/-- The end, when it waits for a join in which some but not all sources have completed.  Once
nothing else can run the others never will, so the end is released. -/
def releasedExit? (p : Plan) (completed : NameSet) : Option String :=
  if p.exit ∈ completed then none
  else match p.joins.find? p.exit with
    | some sources => if sources.toList.any (· ∈ completed) then some p.exit else none
    | none => none

end Plan

namespace Workflow

/-- What a conditional node decides on the merged state; a node that does not say decides for the
empty text. -/
def decisionOf (w : Workflow σ) (s : State) (memory : σ) (id : String) : String :=
  ((w.steps.find? id).bind (·.decision s memory)).getD ""

/-- Where a completed node leads to now. -/
def route (w : Workflow σ) (p : Progress) (memory : σ) (id : String) : Except PlanError (List String) :=
  match w.plan.routing.find? id with
  | none => .ok []
  | some (.all targets) => .ok (targets.toList.filter (w.plan.isReady p.completed))
  | some (.choice _) =>
    match w.plan.resolve id (w.decisionOf p.state memory id) with
    | .ok target => .ok [target]
    | .error error => .error error

/-- The next frontier, from the nodes that have just completed. -/
def routeAll (w : Workflow σ) (p : Progress) (memory : σ) : List String → Except PlanError NameSet
  | [] => .ok ∅
  | id :: ids =>
    match w.route p memory id with
    | .error error => .error error
    | .ok targets =>
      match w.routeAll p memory ids with
      | .error error => .error error
      | .ok next => .ok (NameSet.ofList targets ∪ next)

/-- The nodes of a frontier that have a step, with it. -/
def staffed (w : Workflow σ) (frontier : NameSet) : List (String × Step σ) :=
  frontier.toList.filterMap fun id => (w.steps.find? id).map fun step => (id, step)

/-- The least node of a frontier that has no step. -/
def unstaffed? (w : Workflow σ) (frontier : NameSet) : Option String :=
  frontier.toList.find? fun id => (w.steps.find? id).isNone

end Workflow

/-! ## Rounds -/

/-- A round: what it started from, what was executed, and what came of it. -/
structure Round where
  number : UInt64
  frontier : NameSet
  snapshot : State
  executions : Executions
  /-- The keys that were written. -/
  updatedKeys : NameSet
  after : Progress
  verdict : Verdict
deriving DecidableEq

namespace Round

/-- What the progress event of a round says. -/
def progressData (r : Round) : Json :=
  .object [("step", .ofWord r.number), ("ran", .ofNames r.executions.ran),
    ("updates", .ofNames r.updatedKeys.toList),
    ("suspended", .ofNames (r.executions.suspensions.map (·.1)))]

/-- The event of a round that did not fail. -/
def progress? (run : String) (now : Timestamp) (r : Round) : Option RunEvent :=
  match r.verdict with
  | .failed _ => none
  | _ => some ⟨.progress, r.progressData, now, run⟩

/-- The events of a round: its nodes' messages, then its own. -/
def events (run : String) (now : Timestamp) (r : Round) : List Event :=
  r.executions.messages.map .node ++ (r.progress? run now).toList.map .run

end Round

/-- The checkpoint for the least suspended node, with the others carried beside what is next. -/
def checkpointOf (run : String) (now : Timestamp) (p : Progress) (next : NameSet)
    (pending key : String) (payload : Json) (others : List String) : Checkpoint where
  run
  pending
  state := p.state
  awaiting := .ofKey pending key
  payload
  carried := next ∪ NameSet.ofList others
  completed := p.completed
  step := p.step
  createdAt := now

namespace Workflow

/-- What follows once the updates are merged. -/
def conclude (w : Workflow σ) (run : String) (now : Timestamp) (p : Progress) (memory : σ)
    (es : Executions) : Verdict :=
  match es.failure? with
  | some error => .failed error
  | none =>
    match w.routeAll p memory es.ran with
    | .error error => .failed (.plan error)
    | .ok next =>
      match es.suspensions with
      | [] => .ready next
      | (pending, key, payload) :: others =>
        .suspended (checkpointOf run now p next pending key payload (others.map (·.1)))

/-- The progress after executions: their updates merged, their nodes completed. -/
def advance (p : Progress) (es : Executions) : Progress where
  state := (p.state.reduce (es.updates.map (·.2))).1
  completed := NameSet.ofList es.ran ∪ p.completed
  step := p.step + 1

/-- One round.  Nothing is executed if a node of the frontier has no step. -/
def round (w : Workflow σ) (run : String) (now : Timestamp) (p : Progress) (frontier : NameSet)
    (memory : σ) : Round × σ :=
  let number := p.step + 1
  match w.unstaffed? frontier with
  | some id =>
    ({ number, frontier, snapshot := p.state, executions := [], updatedKeys := ∅,
       after := { p with step := number }, verdict := .failed (.unknownNode id) }, memory)
  | none =>
    let (es, memory) :=
      executeAll (fun node => { node, run, step := number }) p.state (w.staffed frontier) memory
    let after := advance p es
    ({ number, frontier, snapshot := p.state, executions := es,
       updatedKeys := (p.state.reduce (es.updates.map (·.2))).2.updatedKeys, after,
       verdict := w.conclude run now after memory es }, memory)

end Workflow

end Flowgraph
