import Flowgraph.Proofs.Plan.Paths
import Mathlib.Data.List.Perm.Basic

/-!
# The order of declarations

A plan does not show in which order the nodes and edges of its graph were declared, but
for the edges that leave a conditional node through one handle, of which the last counts:

    Rearranged nodes nodes' edges edges' → Graph.ofParts nodes edges = .ok g →
      g.plan = .ok p → ∃ g', Graph.ofParts nodes' edges' = .ok g' ∧ g'.plan = .ok p
                                                                  (plan_of_rearranged)

Each part of a plan reads the declarations by whether some edge is there, or collects
them into sets and maps, and these forget the order (`ofList_perm`, `ofList_eq_of_perm`).
-/

namespace Flowgraph

/-- Whether an edge leaves the same node through the same handle. -/
def Edge.sharesHandle (e f : Edge) : Bool := f.source == e.source && f.handle == e.handle

/-- The same nodes and edges in another order; the edges that leave a conditional node through one
handle keep theirs. -/
structure Rearranged (nodes nodes' : List Node) (edges edges' : List Edge) : Prop where
  sameNodes : nodes.Perm nodes'
  sameEdges : edges.Perm edges'
  sameHandles : ∀ e ∈ edges, (∃ n ∈ nodes, n.id = e.source ∧ n.type.isConditional = true) →
    edges.filter e.sharesHandle = edges'.filter e.sharesHandle

/-! ## Sets and maps -/

theorem NameSet.ofList_eq_of_perm {l l' : List String} (h : l.Perm l') : ofList l = ofList l' := by
  refine ext fun a => ?_
  rw [mem_ofList, mem_ofList, h.mem_iff]

namespace NameMap

variable {α : Type}

/-- Where no key repeats, the map of a list does not depend on its order. -/
theorem ofList_eq_of_perm {l l' : List (String × α)} (hnodup : (l.map (·.1)).Nodup)
    (h : l.Perm l') : ofList l = ofList l' := by
  have hnodup' : (l'.map (·.1)).Nodup := (h.map _).nodup_iff.1 hnodup
  refine ext fun k => Option.ext fun v => ?_
  rw [find?_ofList_of_nodup hnodup, find?_ofList_of_nodup hnodup', h.mem_iff]

end NameMap

namespace Graph

theorem ofParts_eq_ok_iff {nodes : List Node} {edges : List Edge} {g : Graph} :
    ofParts nodes edges = .ok g ↔ g.nodes = nodes ∧ g.edges = edges := by
  unfold ofParts
  constructor
  · intro h
    split at h
    · rw [← Except.ok.inj h]
      exact ⟨rfl, rfl⟩
    · cases h
  · rintro ⟨rfl, rfl⟩
    split
    · rfl
    · rename_i fault faults hfaults
      rw [ReferenceFault.check_eq_nil_iff.2 ⟨g.distinct, g.closed⟩] at hfaults
      cases hfaults

/-- A rearranged graph is a graph. -/
theorem exists_rearranged {g : Graph} {nodes' : List Node} {edges' : List Edge}
    (h : Rearranged g.nodes nodes' g.edges edges') :
    ∃ g' : Graph, g'.nodes = nodes' ∧ g'.edges = edges' := by
  have hids : (g.nodes.map (·.id)).Perm (nodes'.map (·.id)) := h.sameNodes.map _
  refine ⟨⟨nodes', edges', hids.nodup_iff.1 g.distinct, fun e he => ?_⟩, rfl, rfl⟩
  obtain ⟨hs, ht⟩ := g.closed e (h.sameEdges.mem_iff.2 he)
  exact ⟨hids.mem_iff.1 hs, hids.mem_iff.1 ht⟩

/-- A handle leads to the target of the last edge through it. -/
theorem find?_handlesOf (g : Graph) (id handle : String) :
    (g.handlesOf id).find? handle =
      ((g.edges.filter fun e => e.source == id && e.handle == handle).getLast?).map (·.target) := by
  have hboth : (g.outgoing id).filter (·.handle == handle) =
      g.edges.filter fun e => e.source == id && e.handle == handle := by
    rw [outgoing, List.filter_filter]
    exact List.filter_congr fun e _ => Bool.and_comm _ _
  rw [← hboth, handlesOf, NameMap.find?_ofList_eq_getLast?, List.filter_map, List.getLast?_map,
    Option.map_map]
  rfl

section

variable {g g' : Graph} (h : Rearranged g.nodes g'.nodes g.edges g'.edges)

include h

/-! ## The analysis -/

theorem theNode_of_rearranged {type : NodeType} {role id : String}
    (hid : g.theNode type role = .ok id) : g'.theNode type role = .ok id := by
  have hperm := (h.sameNodes.filter (·.type = type)).map (·.id)
  unfold theNode at hid ⊢
  split at hid
  · rename_i id' hone
    rw [hone] at hperm
    rw [← List.singleton_perm.1 hperm]
    exact hid
  · cases hid
  · cases hid

theorem connectionFault?_of_rearranged (n : Node) :
    g.connectionFault? n = g'.connectionFault? n := by
  unfold connectionFault?
  rw [h.sameEdges.any_eq, h.sameEdges.any_eq]

theorem checkConnections_of_rearranged (hc : g.checkConnections = .ok ()) :
    g'.checkConnections = .ok () := by
  have hnone : g'.nodes.findSome? g'.connectionFault? = none := by
    rw [List.findSome?_eq_none_iff]
    intro n hn
    rw [← connectionFault?_of_rearranged h]
    exact checkConnections_eq_ok g hc n (h.sameNodes.mem_iff.2 hn)
  unfold checkConnections
  rw [hnone]

theorem peel_of_rearranged (n : Nat) (waiting : List String) :
    peel g.edges n waiting = peel g'.edges n waiting := by
  have hheld : ∀ waiting, isHeldBack g.edges waiting = isHeldBack g'.edges waiting := by
    intro waiting
    funext id
    exact h.sameEdges.any_eq
  induction n generalizing waiting with
  | zero => rfl
  | succ n ih => simp only [peel, hheld, ih]

theorem topologicalOrder_of_rearranged : g.topologicalOrder = g'.topologicalOrder := by
  have hids : NameSet.ofList g.ids = NameSet.ofList g'.ids :=
    NameSet.ofList_eq_of_perm (h.sameNodes.map _)
  rw [topologicalOrder_eq_peel, topologicalOrder_eq_peel, peel_of_rearranged h, hids,
    h.sameNodes.length_eq]

theorem analyze_of_rearranged {a : Analysis} (ha : g.analyze = .ok a) : g'.analyze = .ok a := by
  obtain ⟨hs, hf, hc, ho⟩ := analyze_eq_ok ha
  rw [topologicalOrder_of_rearranged h] at ho
  unfold analyze
  rw [theNode_of_rearranged h hs, theNode_of_rearranged h hf, checkConnections_of_rearranged h hc, ho]
  rfl

/-! ## The routing table -/

theorem handlesOf_of_rearranged {n : Node} (hn : n ∈ g.nodes) (hc : n.type.isConditional = true) :
    g.handlesOf n.id = g'.handlesOf n.id := by
  refine NameMap.ext fun handle => ?_
  rw [find?_handlesOf, find?_handlesOf]
  by_cases hused : ∃ e ∈ g.edges, e.source = n.id ∧ e.handle = handle
  · obtain ⟨e, he, hs, rfl⟩ := hused
    have hsame := h.sameHandles e he ⟨n, hn, hs.symm, hc⟩
    unfold Edge.sharesHandle at hsame
    rw [hs] at hsame
    rw [hsame]
  · have hnone : ∀ e ∈ g.edges, ¬ (e.source == n.id && e.handle == handle) = true := by
      intro e he hboth
      rw [Bool.and_eq_true, beq_iff_eq, beq_iff_eq] at hboth
      exact hused ⟨e, he, hboth⟩
    rw [List.filter_eq_nil_iff.2 hnone, List.filter_eq_nil_iff.2 fun e he => hnone e
      (h.sameEdges.mem_iff.2 he)]

theorem routingOf_of_rearranged (finish : String) {n : Node} (hn : n ∈ g.nodes) :
    g.routingOf finish n = g'.routingOf finish n := by
  have htargets : g.targetsOf n.id = g'.targetsOf n.id :=
    NameSet.ofList_eq_of_perm ((h.sameEdges.filter _).map _)
  unfold routingOf
  by_cases hc : n.type.isConditional = true
  · rw [if_pos hc, if_pos hc, handlesOf_of_rearranged h hn hc]
  · rw [if_neg hc, if_neg hc, htargets]

theorem isConditionalId_of_rearranged (id : String) :
    g.isConditionalId id = g'.isConditionalId id := h.sameNodes.any_eq

theorem staticSources_of_rearranged (id : String) : g.staticSources id = g'.staticSources id := by
  refine NameSet.ext fun a => ?_
  rw [mem_staticSources, mem_staticSources, isConditionalId_of_rearranged h]
  simp only [h.sameEdges.mem_iff]

theorem joins_of_rearranged (finish : String) :
    (g.tables finish).joins = (g'.tables finish).joins := by
  refine NameMap.ext fun target => Option.ext fun s => ?_
  rw [find?_joins_tables, find?_joins_tables, staticSources_of_rearranged h]

theorem planFrom_of_rearranged (a : Analysis) : g.planFrom a = g'.planFrom a := by
  have hrouting : g.nodes.map (fun n => (n.id, g.routingOf a.finish n)) =
      g.nodes.map fun n => (n.id, g'.routingOf a.finish n) := by
    refine List.map_congr_left fun n hn => ?_
    rw [routingOf_of_rearranged h a.finish hn]
  unfold planFrom
  dsimp only
  rw [routing_tables, routing_tables, hrouting,
    NameMap.ofList_eq_of_perm (g.nodup_keys_nodes _) (h.sameNodes.map _), joins_of_rearranged h]

end

/-- Nodes and edges declared in another order have the same plan, if the edges that leave a
conditional node through one handle keep theirs. -/
theorem plan_of_rearranged {nodes nodes' : List Node} {edges edges' : List Edge} {g : Graph}
    {p : Plan} (hparts : ofParts nodes edges = .ok g) (h : Rearranged nodes nodes' edges edges')
    (hp : g.plan = .ok p) : ∃ g', ofParts nodes' edges' = .ok g' ∧ g'.plan = .ok p := by
  obtain ⟨rfl, rfl⟩ := ofParts_eq_ok_iff.1 hparts
  obtain ⟨g', rfl, rfl⟩ := exists_rearranged h
  refine ⟨g', ofParts_eq_ok_iff.2 ⟨rfl, rfl⟩, ?_⟩
  obtain ⟨a, ha, rfl⟩ := plan_eq_ok hp
  unfold plan
  rw [analyze_of_rearranged h ha, planFrom_of_rearranged h]
  rfl

/-! ## The branch with a handle used twice -/

/-- The edges of `rerouted` in another order. -/
def reroutedEdges : List Edge :=
  [.between "y" "z", (Edge.between "b" "x").through "go", .between "start" "x",
    (Edge.between "b" "y").through "go", .between "x" "z", .between "start" "b"]

theorem rerouted_rearranged :
    Rearranged rerouted.nodes rerouted.nodes.reverse rerouted.edges reroutedEdges where
  sameNodes := (List.reverse_perm _).symm
  sameEdges := by decide +kernel
  sameHandles := by decide +kernel

theorem plan_of_rearranged_rerouted :
    ofParts rerouted.nodes rerouted.edges = .ok rerouted ∧
      Rearranged rerouted.nodes rerouted.nodes.reverse rerouted.edges reroutedEdges ∧
      rerouted.plan = .ok reroutedPlan ∧
      ∃ g', ofParts rerouted.nodes.reverse reroutedEdges = .ok g' ∧ g'.plan = .ok reroutedPlan := by
  have hparts : ofParts rerouted.nodes rerouted.edges = .ok rerouted :=
    ofParts_eq_ok_iff.2 ⟨rfl, rfl⟩
  exact ⟨hparts, rerouted_rearranged, rerouted_plan,
    plan_of_rearranged hparts rerouted_rearranged rerouted_plan⟩

end Graph

end Flowgraph
