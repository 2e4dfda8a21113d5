import Flowgraph.Graph.NodeType
import Flowgraph.Json.Basic
import Flowgraph.Names.Sightings

/-!
# Workflow graphs

Typed nodes and directed edges between them.  A graph's nodes have distinct ids
and its edges join nodes it has; `Graph.ofParts` makes a graph of any nodes and
edges that do, and otherwise names every fault.
-/

namespace Flowgraph

/-- A node; its configuration is read by the step it is backed by. -/
structure Node where
  id : String
  type : NodeType
  config : Fields := []
  position : Option Json := none
deriving DecidableEq

/-- An edge; the source handle names the way out of a conditional node it stands for. -/
structure Edge where
  id : String
  source : String
  target : String
  sourceHandle : Option String := none
  targetHandle : Option String := none
deriving DecidableEq

namespace Edge

/-- The id of an edge that is given none. -/
def defaultId (source target : String) : String := source ++ "->" ++ target

def between (source target : String) : Edge := { id := defaultId source target, source, target }

/-- The edge leaving through a handle, with an id that shows it. -/
def through (e : Edge) (handle : String) : Edge :=
  { e with id := e.source ++ "-[" ++ handle ++ "]->" ++ e.target, sourceHandle := some handle }

/-- The handle of an edge that names none. -/
def defaultHandle : String := "default"

def handle (e : Edge) : String := e.sourceHandle.getD defaultHandle

end Edge

/-! ## References -/

/-- A fault in how nodes and edges refer to each other. -/
inductive ReferenceFault where
  | duplicateId (id : String)
  | danglingSource (index : Nat) (edge : Edge)
  | danglingTarget (index : Nat) (edge : Edge)
deriving DecidableEq

namespace ReferenceFault

def edgeLabel (index : Nat) (edge : Edge) : String :=
  "edges[" ++ toString index ++ "] (`" ++ edge.id ++ "`)"

def message : ReferenceFault → String
  | duplicateId id => "duplicate node id `" ++ id ++ "`"
  | danglingSource index edge =>
    edgeLabel index edge ++ ": source `" ++ edge.source ++ "` does not reference an existing node"
  | danglingTarget index edge =>
    edgeLabel index edge ++ ": target `" ++ edge.target ++ "` does not reference an existing node"

/-- The faults of edges from the given index on. -/
def danglingEdges (ids : NameSet) : (index : Nat) → List Edge → List ReferenceFault
  | _, [] => []
  | index, e :: es =>
    (if e.source ∈ ids then [] else [danglingSource index e]) ++
    (if e.target ∈ ids then [] else [danglingTarget index e]) ++
    danglingEdges ids (index + 1) es

/-- Every repeated id once, then every dangling end of an edge. -/
def check (nodes : List Node) (edges : List Edge) : List ReferenceFault :=
  let s := Sightings.ofIds (nodes.map (·.id))
  s.repeated.map duplicateId ++ danglingEdges s.seen 0 edges

theorem danglingEdges_eq_nil_iff {ids : NameSet} {index : Nat} {edges : List Edge} :
    danglingEdges ids index edges = [] ↔ ∀ e ∈ edges, e.source ∈ ids ∧ e.target ∈ ids := by
  induction edges generalizing index with
  | nil => simp [danglingEdges]
  | cons e es ih =>
    simp only [danglingEdges, List.append_eq_nil_iff, List.forall_mem_cons, ih]
    refine and_congr_left fun _ => and_congr ?_ ?_ <;> split <;> simp_all

/-- Nothing is at fault exactly when ids are distinct and edges join nodes. -/
theorem check_eq_nil_iff {nodes : List Node} {edges : List Edge} :
    check nodes edges = [] ↔ (nodes.map (·.id)).Nodup ∧
      ∀ e ∈ edges, e.source ∈ nodes.map (·.id) ∧ e.target ∈ nodes.map (·.id) := by
  have hcounts := Sightings.counts_ofIds (nodes.map (·.id))
  simp only [check, List.append_eq_nil_iff, List.map_eq_nil_iff, danglingEdges_eq_nil_iff,
    Sightings.mem_seen_ofIds]
  refine and_congr_left fun _ => ?_
  rw [List.eq_nil_iff_forall_not_mem, List.nodup_iff_count]
  simp only [hcounts.repeated, hcounts.reported, Nat.not_le, Nat.lt_succ_iff]

end ReferenceFault

/-! ## Graphs -/

/-- Nodes with distinct ids, and edges between them. -/
structure Graph where
  nodes : List Node
  edges : List Edge
  distinct : (nodes.map (·.id)).Nodup
  closed : ∀ e ∈ edges, e.source ∈ nodes.map (·.id) ∧ e.target ∈ nodes.map (·.id)
deriving DecidableEq

namespace Graph

/-- The graph of given nodes and edges, or everything that is wrong with them. -/
def ofParts (nodes : List Node) (edges : List Edge) : Except (List ReferenceFault) Graph :=
  match h : ReferenceFault.check nodes edges with
  | [] => .ok ⟨nodes, edges, (ReferenceFault.check_eq_nil_iff.1 h).1,
      (ReferenceFault.check_eq_nil_iff.1 h).2⟩
  | fault :: faults => .error (fault :: faults)

def ids (g : Graph) : List String := g.nodes.map (·.id)

/-- Entries for the nodes have distinct keys. -/
theorem nodup_keys_nodes {α : Type} (g : Graph) (f : Node → α) :
    ((g.nodes.map fun n => (n.id, f n)).map (·.1)).Nodup := by
  rw [List.map_map]
  exact g.distinct

/-- Entries for the ids have distinct keys. -/
theorem nodup_keys_ids {α : Type} (g : Graph) (f : String → α) :
    ((g.ids.map fun id => (id, f id)).map (·.1)).Nodup := by
  rw [ids, List.map_map, List.map_map]
  exact g.distinct

def node? (g : Graph) (id : String) : Option Node := g.nodes.find? (·.id == id)

/-- The edges that leave a node, in the order of their declaration. -/
def outgoing (g : Graph) (id : String) : List Edge := g.edges.filter (·.source == id)

/-- The edges that enter a node, in the order of their declaration. -/
def incoming (g : Graph) (id : String) : List Edge := g.edges.filter (·.target == id)

end Graph

/-! ## Written form -/

namespace Node

def toJson (n : Node) : Json :=
  .object ([("id", .str n.id), ("type", .str n.type.encode), ("config", .obj n.config)] ++
    (n.position.map fun p => ("position", p)).toList)

end Node

namespace Edge

def handleJson : Option String → Json
  | some h => .str h
  | none => .null

def toJson (e : Edge) : Json :=
  .object [("id", .str e.id), ("source", .str e.source), ("target", .str e.target),
    ("source_handle", handleJson e.sourceHandle), ("target_handle", handleJson e.targetHandle)]

end Edge

def Graph.toJson (g : Graph) : Json :=
  .object [("nodes", .arr (g.nodes.map Node.toJson)), ("edges", .arr (g.edges.map Edge.toJson))]

end Flowgraph
