import Flowgraph.Graph.Description

/-!
# Analysis of a graph

A graph to be planned has one start and one end, connects its other nodes, and
has no cycle.  The topological order counts the edges that hold each node back and
always takes the least node that none does; when there is none, the nodes not taken
are the ones that a cycle holds back.
-/

namespace Flowgraph

/-! ## Errors -/

/-- What is wrong with the shape of a graph. -/
inductive StructureFault where
  | noNode (role : String)
  | manyNodes (role : String) (ids : List String)
  | startWithoutOutgoing (id : String)
  | orphan (id : String)
  | noIncoming (id : String)
  | noOutgoing (id : String)
deriving DecidableEq

namespace StructureFault

def message : StructureFault → String
  | noNode role => "graph must contain exactly one " ++ role ++ " node, found none"
  | manyNodes role ids =>
    "graph must contain exactly one " ++ role ++ " node, found " ++ toString ids.length ++ ": " ++
      ", ".intercalate ids
  | startWithoutOutgoing id => "start node " ++ id ++ " has no outgoing connections"
  | orphan id => "orphaned node detected: " ++ id
  | noIncoming id => "node " ++ id ++ " has no incoming connections"
  | noOutgoing id => "node " ++ id ++ " has no outgoing connections"

/-- The node at fault, where it is one. -/
def node? : StructureFault → Option String
  | noNode _ => none
  | manyNodes _ _ => none
  | startWithoutOutgoing id => some id
  | orphan id => some id
  | noIncoming id => some id
  | noOutgoing id => some id

end StructureFault

/-- Why a graph has no plan. -/
inductive GraphError where
  | invalid (faults : List Fault)
  | structural (fault : StructureFault)
  | cycle (remaining : List String)
deriving DecidableEq

namespace GraphError

/-- The wording for a list of faults. -/
def invalidMessage (faults : List String) : String :=
  "invalid graph description (" ++ toString faults.length ++ " problem(s)): " ++
    "; ".intercalate faults

def message : GraphError → String
  | invalid faults => invalidMessage (faults.map Fault.message)
  | structural fault => "invalid graph structure: " ++ fault.message
  | cycle remaining => "cycle detected in graph; remaining nodes: " ++ ", ".intercalate remaining

end GraphError

namespace Graph

/-! ## Topological order -/

/-- Counts an edge at its target. -/
def countTarget (degrees : NameMap Nat) (e : Edge) : NameMap Nat :=
  degrees.insert e.target ((degrees.find? e.target).getD 0 + 1)

/-- How many edges enter each node. -/
def degrees (g : Graph) : NameMap Nat :=
  g.edges.foldl countTarget (.ofList (g.ids.map fun id => (id, 0)))

/-- An order under way: how many edges still hold each node back, and the nodes to be taken that
none does. -/
structure Sorting where
  degrees : NameMap Nat
  ready : NameSet

/-- Before a node is taken. -/
def sorting (g : Graph) : Sorting where
  degrees := g.degrees
  ready := (g.degrees.filter fun _ degree => degree == 0).keys

namespace Sorting

/-- One edge less holds a node back; the last one makes it ready. -/
def release (s : Sorting) (id : String) : Sorting :=
  match s.degrees.find? id with
  | none => s
  | some degree =>
    { degrees := s.degrees.insert id (degree - 1)
      ready := if degree - 1 = 0 then s.ready.insert id else s.ready }

/-- Takes a ready node, which then holds no other back. -/
def take (s : Sorting) (g : Graph) (id : String) : Sorting :=
  ((g.outgoing id).map (·.target)).foldl release { s with ready := s.ready.erase id }

/-- Takes the least ready node, up to a number of times; answers the nodes taken, in order. -/
def run (g : Graph) : Nat → Sorting → List String
  | 0, _ => []
  | n + 1, s =>
    match s.ready.toList with
    | [] => []
    | id :: _ => id :: run g n (s.take g id)

end Sorting

/-- Every node in an order that follows the edges, the least node first wherever there is a
choice; or else the nodes that no order reaches. -/
def topologicalOrder (g : Graph) : Except GraphError (List String) :=
  let order := g.sorting.run g g.degrees.size
  if order.length < g.degrees.size then
    .error (.cycle (g.degrees.keys.filter (!order.contains ·)).toList)
  else .ok order

/-! ## Shape -/

/-- The one node of a type. -/
def theNode (g : Graph) (type : NodeType) (role : String) : Except GraphError String :=
  match (g.nodes.filter (·.type = type)).map (·.id) with
  | [id] => .ok id
  | [] => .error (.structural (.noNode role))
  | ids => .error (.structural (.manyNodes role ids))

/-- What is wrong with how a node is connected, if anything. -/
def connectionFault? (g : Graph) (n : Node) : Option StructureFault :=
  let entered := g.edges.any (·.target == n.id)
  let left := g.edges.any (·.source == n.id)
  match n.type with
  | .finish => none
  | .start => if left then none else some (.startWithoutOutgoing n.id)
  | type =>
    if !entered && !left then some (.orphan n.id)
    else if !entered then some (.noIncoming n.id)
    else if !left && !type.isStep then some (.noOutgoing n.id)
    else none

/-- Finds the first node that is not connected as it should be. -/
def checkConnections (g : Graph) : Except GraphError Unit :=
  match g.nodes.findSome? g.connectionFault? with
  | some fault => .error (.structural fault)
  | none => .ok ()

/-- What an analysis finds out. -/
structure Analysis where
  start : String
  finish : String
  order : List String
deriving DecidableEq

def analyze (g : Graph) : Except GraphError Analysis := do
  let start ← g.theNode .start "start"
  let finish ← g.theNode .finish "end"
  g.checkConnections
  let order ← g.topologicalOrder
  return { start, finish, order }

end Graph

end Flowgraph
