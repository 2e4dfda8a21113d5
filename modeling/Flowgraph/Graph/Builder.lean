import Flowgraph.Graph.Basic

/-!
# Building graphs

A builder collects nodes and edges in the order they are added; building checks
how they refer to each other.
-/

namespace Flowgraph

structure GraphBuilder where
  nodes : List Node := []
  edges : List Edge := []
deriving DecidableEq

namespace GraphBuilder

def node (b : GraphBuilder) (id : String) (type : NodeType) : GraphBuilder :=
  { b with nodes := b.nodes ++ [{ id, type }] }

/-- Adds a node with a configuration; a configuration that is no object is left out. -/
def nodeWith (b : GraphBuilder) (id : String) (type : NodeType) (config : Json) : GraphBuilder :=
  { b with nodes := b.nodes ++ [{ id, type, config := config.fields?.getD [] }] }

def edge (b : GraphBuilder) (e : Edge) : GraphBuilder := { b with edges := b.edges ++ [e] }

def connect (b : GraphBuilder) (source target : String) : GraphBuilder :=
  b.edge (.between source target)

/-- Adds an edge that leaves a conditional node through a handle. -/
def connectThrough (b : GraphBuilder) (source handle target : String) : GraphBuilder :=
  b.edge ((Edge.between source target).through handle)

def build (b : GraphBuilder) : Except (List ReferenceFault) Graph :=
  Graph.ofParts b.nodes b.edges

end GraphBuilder

end Flowgraph
