import Flowgraph.Graph.Analysis

/-!
# Other forms of a graph

A graph as numbered nodes with edges between the numbers, and as the text of a
drawing.  Whether there is a cycle is read off the numbered form: the nodes on
one are never all peeled off.
-/

namespace Flowgraph

/-- A directed multigraph on the numbers below the number of its nodes. -/
structure NumberedGraph where
  nodes : List String
  /-- Source, target and source handle of each edge. -/
  edges : List (Nat × Nat × Option String)
deriving DecidableEq

namespace NumberedGraph

def index? (g : NumberedGraph) (id : String) : Option Nat := g.nodes.idxOf? id

/-- Drops the numbers that no remaining number has an edge to, up to a number of times. -/
def prune (edges : List (Nat × Nat × Option String)) : Nat → List Nat → List Nat
  | 0, left => left
  | n + 1, left =>
    prune edges n (left.filter fun v => edges.any fun e => e.2.1 == v && left.contains e.1)

/-- Whether some walk along the edges comes back to where it started: pruning as often as there
are nodes leaves the numbers that such a walk leads to. -/
def isCyclic (g : NumberedGraph) : Bool :=
  !(prune g.edges g.nodes.length (List.range g.nodes.length)).isEmpty

end NumberedGraph

namespace Graph

/-- Nodes are numbered in the order of their declaration, and edges keep theirs. -/
def numbered (g : Graph) : NumberedGraph where
  nodes := g.ids
  edges := g.edges.filterMap fun e => do
    return (← g.ids.idxOf? e.source, ← g.ids.idxOf? e.target, e.sourceHandle)

def isCyclic (g : Graph) : Bool := g.numbered.isCyclic

/-! ## Drawing -/

/-- How a node is drawn. -/
def drawingStyle : NodeType → String
  | .start => " style=\"filled\" fillcolor=\"lightgreen\""
  | .finish => " style=\"filled\" fillcolor=\"lightcoral\""
  | .branch => " shape=diamond"
  | .approval => " shape=diamond"
  | .step _ => ""

def drawNode (n : Node) : String :=
  "    \"" ++ n.id ++ "\" [ label=\"" ++ n.id ++ " (" ++ n.type.encode ++ ")\"" ++
    drawingStyle n.type ++ " ];\n"

def drawEdge (e : Edge) : String :=
  let ends := "    \"" ++ e.source ++ "\" -> \"" ++ e.target ++ "\""
  match e.sourceHandle with
  | some handle => ends ++ " [ label=\"" ++ handle ++ "\" ];\n"
  | none => ends ++ ";\n"

/-- The drawing in the DOT language; named handles label their edges. -/
def drawing (g : Graph) : String :=
  "digraph \x7b\n    rankdir=TB;\n    node [shape=box, style=rounded];\n" ++
    String.join (g.nodes.map drawNode) ++ "\n" ++ String.join (g.edges.map drawEdge) ++ "\x7d\n"

end Graph

end Flowgraph
