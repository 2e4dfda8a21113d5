import Flowgraph.Graph.Analysis
import Flowgraph.Text.Quoted

/-!
# Execution plans

The routing table that a run walks.  A node routes to all targets of its edges,
or, if it is conditional, to the target of the handle it decides for; a step
without edges routes to the end.  A target with two or more sources that route to
all their targets is a join and waits for them.
-/

namespace Flowgraph

/-- Where a completed node leads. -/
inductive Routing where
  | all (targets : NameSet)
  | choice (handles : NameMap String)
deriving DecidableEq

namespace Routing

def isChoice : Routing → Bool
  | choice _ => true
  | all _ => false

/-- Every node that a routing can lead to. -/
def targets : Routing → List String
  | all targets => targets.toList
  | choice handles => handles.values

def toJson : Routing → Json
  | all targets => .object [("Static", .ofNames targets.toList)]
  | choice handles => .object [("Conditional", .obj (handles.map fun _ t => .str t).toList)]

end Routing

/-- A decision that matches no outgoing handle. -/
structure PlanError where
  node : String
  decision : String
  available : List String
deriving DecidableEq

namespace PlanError

def message (e : PlanError) : String :=
  "node `" ++ e.node ++ "` decided `" ++ e.decision ++ "`, which matches no outgoing route"

def help (e : PlanError) : String :=
  "Available handles: " ++ Text.quotedList e.available ++
    ". Add an edge with this source handle or fix the node's decision."

end PlanError

structure Plan where
  entry : String
  exit : String
  routing : NameMap Routing
  joins : NameMap NameSet
  order : List String
deriving DecidableEq

namespace Graph

/-- The handles of a conditional node; of edges with one handle the last one counts. -/
def handlesOf (g : Graph) (id : String) : NameMap String :=
  .ofList ((g.outgoing id).map fun e => (e.handle, e.target))

/-- The targets of a node's edges. -/
def targetsOf (g : Graph) (id : String) : NameSet := .ofList ((g.outgoing id).map (·.target))

/-- The routing of a node, given the end. -/
def routingOf (g : Graph) (finish : String) (n : Node) : Routing :=
  if n.type.isConditional then .choice (g.handlesOf n.id)
  else
    let targets := g.targetsOf n.id
    .all (if targets.isEmpty && n.type.isStep then .singleton finish else targets)

/-- The tables of a plan under way: where each node entered so far routes to, and, for each target of
edges, which of these nodes route to all their targets and to it. -/
structure Tables where
  routing : NameMap Routing := ∅
  sources : NameMap NameSet := ∅

/-- The sources noted at a target. -/
def noted (sources : NameMap NameSet) (target : String) : NameSet := (sources.find? target).getD ∅

/-- Notes the source of an edge at its target. -/
def noteSource (sources : NameMap NameSet) (e : Edge) : NameMap NameSet :=
  sources.insert e.target ((noted sources e.target).insert e.source)

/-- Enters a node.  A conditional one is noted at no target, and a leaf is not noted at the end. -/
def enter (g : Graph) (finish : String) (t : Tables) (n : Node) : Tables where
  routing := t.routing.insert n.id (g.routingOf finish n)
  sources :=
    if n.type.isConditional then t.sources else (g.outgoing n.id).foldl noteSource t.sources

/-- The tables of all nodes, entered in the order of their declaration. -/
def tables (g : Graph) (finish : String) : Tables := g.nodes.foldl (g.enter finish) {}

/-- The joins: targets with at least two sources. -/
def Tables.joins (t : Tables) : NameMap NameSet := t.sources.filter fun _ sources => 1 < sources.size

/-- The plan of a graph, given its analysis. -/
def planFrom (g : Graph) (a : Analysis) : Plan :=
  let t := g.tables a.finish
  { entry := a.start, exit := a.finish, routing := t.routing, joins := t.joins, order := a.order }

def plan (g : Graph) : Except GraphError Plan := return g.planFrom (← g.analyze)

end Graph

namespace Plan

def isConditional (p : Plan) (id : String) : Bool := ((p.routing.find? id).map Routing.isChoice).getD false

/-- The target of a conditional node's decision. -/
def resolve (p : Plan) (id decision : String) : Except PlanError String :=
  match p.routing.find? id with
  | some (.choice handles) =>
    match handles.find? decision with
    | some target => .ok target
    | none => .error ⟨id, decision, handles.keys.toList⟩
  | _ => .error ⟨id, decision, []⟩

def toJson (p : Plan) : Json :=
  .object [
    ("entry", .str p.entry),
    ("exit", .str p.exit),
    ("routing", .obj (p.routing.map fun _ r => r.toJson).toList),
    ("joins", .obj (p.joins.map fun _ s => .ofNames s.toList).toList),
    ("topological_order", .ofNames p.order)]

end Plan

end Flowgraph
