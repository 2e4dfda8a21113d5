import Flowgraph.Graph.Drawing
import Flowgraph.Proofs.Plan.LeastOrder

/-!
# Graphs by numbers

The numbered form of a graph has its nodes in the order of their declaration and its edges between
their numbers, each with its handle (`Graph.numbered_represents`).  So its cycles are those of the
graph, and whatever decides them agrees with the topological order, which counts edges between names:

    n.Represents g → (n.HasCycle ↔ ∃ a, TransGen g.Joined a a)               (Represents.hasCycle_iff)
    g.isCyclic = true ↔ ∃ left, g.topologicalOrder = .error (.cycle left)        (cyclic_iff_unordered)

Pruning decides them: a number on a cycle always has an edge from a number that remains, and where
pruning has come to its end each number that remains has one (`isCyclic_iff`).
-/

namespace Flowgraph

open Relation

namespace NumberedGraph

variable {n : NumberedGraph}

/-- An edge leads from one number to another. -/
def Joined (n : NumberedGraph) (i j : Nat) : Prop := ∃ e ∈ n.edges, e.1 = i ∧ e.2.1 = j

/-- Edges join numbers that nodes have. -/
def Closed (n : NumberedGraph) : Prop :=
  ∀ e ∈ n.edges, e.1 < n.nodes.length ∧ e.2.1 < n.nodes.length

/-- Some walk along the edges comes back to where it started; an edge from a number to itself is one. -/
def HasCycle (n : NumberedGraph) : Prop := ∃ i, TransGen n.Joined i i

/-! ## Pruning -/

section Pruning

variable {edges : List (Nat × Nat × Option String)}

/-- Numbers that hold each other are never dropped. -/
theorem mem_prune {S : Nat → Prop} (hS : ∀ j, S j → ∃ e ∈ edges, e.2.1 = j ∧ S e.1) (times : Nat)
    {left : List Nat} (hleft : ∀ j, S j → j ∈ left) {j : Nat} (hj : S j) :
    j ∈ prune edges times left := by
  induction times generalizing left with
  | zero => exact hleft j hj
  | succ times ih =>
    refine ih fun i hi => ?_
    obtain ⟨e, he, htarget, hsource⟩ := hS i hi
    refine List.mem_filter.2 ⟨hleft i hi, List.any_eq_true.2 ⟨e, he, ?_⟩⟩
    simpa [htarget] using hleft e.1 hsource

theorem prune_eq_self {left : List Nat}
    (h : left.filter (fun v => edges.any fun e => e.2.1 == v && left.contains e.1) = left)
    (times : Nat) : prune edges times left = left := by
  induction times with
  | zero => rfl
  | succ times ih => rw [prune, h, ih]

/-- Pruning as often as there are numbers comes to an end: each that remains has an edge from one that
remains. -/
theorem exists_edge_of_mem_prune {times : Nat} {left : List Nat} (htimes : left.length ≤ times)
    {j : Nat} (hj : j ∈ prune edges times left) :
    ∃ e ∈ edges, e.2.1 = j ∧ e.1 ∈ prune edges times left := by
  induction times generalizing left with
  | zero =>
    rw [List.length_eq_zero_iff.1 (Nat.le_zero.1 htimes)] at hj
    cases hj
  | succ times ih =>
    by_cases hstuck : left.filter (fun v => edges.any fun e => e.2.1 == v && left.contains e.1) = left
    · rw [prune_eq_self hstuck] at hj ⊢
      rw [← hstuck] at hj
      obtain ⟨e, he, hedge⟩ := List.any_eq_true.1 (List.mem_filter.1 hj).2
      exact ⟨e, he, by simpa using hedge⟩
    · have hsublist := List.filter_sublist (l := left)
        (p := fun v => edges.any fun e => e.2.1 == v && left.contains e.1)
      have hlt := Nat.lt_of_le_of_ne hsublist.length_le fun h => hstuck (hsublist.eq_of_length h)
      exact ih (by omega) hj

end Pruning

/-- Pruning finds out whether there is a cycle. -/
theorem isCyclic_iff (h : n.Closed) : n.isCyclic = true ↔ n.HasCycle := by
  rw [isCyclic, Bool.not_eq_true', List.isEmpty_eq_false_iff]
  constructor
  · intro hne
    by_contra hnone
    refine hne (Graph.eq_nil_of_acyclic (R := n.Joined) (fun i hi => hnone ⟨i, hi⟩) fun j hj => ?_)
    obtain ⟨e, he, htarget, hsource⟩ :=
      exists_edge_of_mem_prune (Nat.le_of_eq List.length_range) hj
    exact ⟨e.1, hsource, e, he, rfl, htarget⟩
  · rintro ⟨i, hi⟩
    -- what is reached from the cycle is reached from another number that is
    have hheld : ∀ j, TransGen n.Joined i j → ∃ e ∈ n.edges, e.2.1 = j ∧ TransGen n.Joined i e.1 := by
      intro j hj
      obtain ⟨k, hk, e, he, rfl, htarget⟩ := TransGen.tail'_iff.1 hj
      exact ⟨e, he, htarget, hi.trans_left hk⟩
    have hrange : ∀ j, TransGen n.Joined i j → j ∈ List.range n.nodes.length := by
      intro j hj
      obtain ⟨e, he, rfl, -⟩ := hheld j hj
      exact List.mem_range.2 (h e he).2
    exact List.ne_nil_of_mem (mem_prune hheld _ hrange hi)

/-! ## Numbers for names -/

/-- The numbered nodes are those of a graph, a name has the number of its place, and each edge joins
the numbers of its ends and carries its handle. -/
structure Represents (n : NumberedGraph) (g : Graph) : Prop where
  nodes : n.nodes = g.ids
  index : ∀ id i, n.index? id = some i ↔ n.nodes[i]? = some id
  edges : (n.edges.map fun e => (n.nodes[e.1]?, n.nodes[e.2.1]?, e.2.2)) =
    g.edges.map fun e => (some e.source, some e.target, e.sourceHandle)

namespace Represents

variable {g : Graph}

/-- Each numbered edge is one of the graph. -/
theorem edge (h : n.Represents g) {e : Nat × Nat × Option String} (he : e ∈ n.edges) :
    ∃ f ∈ g.edges, n.nodes[e.1]? = some f.source ∧ n.nodes[e.2.1]? = some f.target := by
  have hmem := List.mem_map_of_mem (f := fun e => (n.nodes[e.1]?, n.nodes[e.2.1]?, e.2.2)) he
  rw [h.edges] at hmem
  obtain ⟨f, hf, heq⟩ := List.mem_map.1 hmem
  obtain ⟨hsource, htarget⟩ := Prod.mk.inj heq
  exact ⟨f, hf, hsource.symm, (Prod.mk.inj htarget).1.symm⟩

theorem closed (h : n.Represents g) : n.Closed := by
  intro e he
  obtain ⟨f, -, hsource, htarget⟩ := h.edge he
  exact ⟨(List.getElem?_eq_some_iff.1 hsource).1, (List.getElem?_eq_some_iff.1 htarget).1⟩

/-- A walk between numbers is one between the names that they stand for. -/
theorem names (h : n.Represents g) {i j : Nat} (hwalk : TransGen n.Joined i j) :
    ∃ a b, n.nodes[i]? = some a ∧ n.nodes[j]? = some b ∧ TransGen g.Joined a b := by
  have hedge : ∀ {i j}, n.Joined i j →
      ∃ a b, n.nodes[i]? = some a ∧ n.nodes[j]? = some b ∧ g.Joined a b := by
    rintro _ _ ⟨e, he, rfl, rfl⟩
    obtain ⟨f, hf, hsource, htarget⟩ := h.edge he
    exact ⟨_, _, hsource, htarget, f, hf, rfl, rfl⟩
  induction hwalk with
  | single hj =>
    obtain ⟨a, b, ha, hb, hab⟩ := hedge hj
    exact ⟨a, b, ha, hb, .single hab⟩
  | tail _ hj ih =>
    obtain ⟨a, b, ha, hb, hab⟩ := ih
    obtain ⟨b', c, hb', hc, hbc⟩ := hedge hj
    obtain rfl : b = b' := Option.some.inj (hb.symm.trans hb')
    exact ⟨a, c, ha, hc, hab.tail hbc⟩

/-- A walk between names is one between their numbers. -/
theorem numbers (h : n.Represents g) {a b : String} (hwalk : TransGen g.Joined a b) :
    ∃ i j, n.index? a = some i ∧ n.index? b = some j ∧ TransGen n.Joined i j := by
  have hedge : ∀ {a b}, g.Joined a b →
      ∃ i j, n.index? a = some i ∧ n.index? b = some j ∧ n.Joined i j := by
    rintro _ _ ⟨f, hf, rfl, rfl⟩
    have hmem := List.mem_map_of_mem
      (f := fun f : Edge => (some f.source, some f.target, f.sourceHandle)) hf
    rw [← h.edges] at hmem
    obtain ⟨e, he, heq⟩ := List.mem_map.1 hmem
    obtain ⟨hsource, htarget⟩ := Prod.mk.inj heq
    exact ⟨e.1, e.2.1, (h.index _ _).2 hsource, (h.index _ _).2 (Prod.mk.inj htarget).1,
      e, he, rfl, rfl⟩
  induction hwalk with
  | single hj =>
    obtain ⟨i, j, hi, hj, hij⟩ := hedge hj
    exact ⟨i, j, hi, hj, .single hij⟩
  | tail _ hj ih =>
    obtain ⟨i, j, hi, hj, hij⟩ := ih
    obtain ⟨j', k, hj', hk, hjk⟩ := hedge ‹_›
    obtain rfl : j = j' := Option.some.inj (hj.symm.trans hj')
    exact ⟨i, k, hi, hk, hij.tail hjk⟩

theorem hasCycle_iff (h : n.Represents g) : n.HasCycle ↔ ∃ a, TransGen g.Joined a a := by
  constructor
  · rintro ⟨i, hi⟩
    obtain ⟨a, b, ha, hb, hab⟩ := h.names hi
    obtain rfl : a = b := Option.some.inj (ha.symm.trans hb)
    exact ⟨a, hab⟩
  · rintro ⟨a, ha⟩
    obtain ⟨i, j, hi, hj, hij⟩ := h.numbers ha
    obtain rfl : i = j := Option.some.inj (hi.symm.trans hj)
    exact ⟨i, hij⟩

end Represents

end NumberedGraph

namespace Graph

/-- A node has the number of its place. -/
theorem idxOf?_ids_iff (g : Graph) {id : String} {i : Nat} :
    g.ids.idxOf? id = some i ↔ g.ids[i]? = some id := by
  rw [List.idxOf?_eq_some_iff, List.getElem?_eq_some_iff]
  constructor
  · rintro ⟨hi, hid, -⟩
    exact ⟨hi, hid⟩
  · rintro ⟨hi, rfl⟩
    refine ⟨hi, rfl, fun j hj heq => ?_⟩
    exact Nat.ne_of_lt hj ((List.getElem_inj g.distinct).1 heq)

theorem exists_idxOf? (g : Graph) {id : String} (hid : id ∈ g.ids) :
    ∃ i, g.ids.idxOf? id = some i ∧ g.ids[i]? = some id := by
  obtain ⟨i, hi⟩ := List.mem_iff_getElem?.1 hid
  exact ⟨i, g.idxOf?_ids_iff.2 hi, hi⟩

theorem numbered_represents (g : Graph) : g.numbered.Represents g where
  nodes := rfl
  index _ _ := g.idxOf?_ids_iff
  edges := by
    rw [numbered, List.map_filterMap, ← List.filterMap_eq_map]
    apply List.filterMap_congr
    intro e he
    obtain ⟨i, hi, hsource⟩ := g.exists_idxOf? (g.closed e he).1
    obtain ⟨j, hj, htarget⟩ := g.exists_idxOf? (g.closed e he).2
    simp [hi, hj, hsource, htarget]

/-- An order is missing only for a cycle. -/
theorem exists_cycle_error_iff {g : Graph} :
    (∃ left, g.topologicalOrder = .error (.cycle left)) ↔ ∃ a, TransGen g.Joined a a := by
  have hcases : (∃ left, g.topologicalOrder = .error (.cycle left)) ↔
      ¬ ∃ order, g.topologicalOrder = .ok order := by
    unfold topologicalOrder
    dsimp only
    split
    · exact iff_of_true ⟨_, rfl⟩ nofun
    · exact iff_of_false nofun (not_not_intro ⟨_, rfl⟩)
  rw [hcases, exists_topologicalOrder_iff, not_forall_not]

/-- **Cycles.**  The numbered form of a graph has its nodes and edges and no others; and whatever decides
for numbered graphs whether there is a cycle, as pruning does, finds one in it exactly if no topological
order of the graph is found. -/
theorem cyclic_iff_unordered (g : Graph) {cyclic : NumberedGraph → Bool}
    (decides : ∀ n : NumberedGraph, n.Closed → (cyclic n = true ↔ n.HasCycle)) :
    g.numbered.Represents g ∧
      (cyclic g.numbered = true ↔ ∃ left, g.topologicalOrder = .error (.cycle left)) ∧
      (g.isCyclic = true ↔ ∃ left, g.topologicalOrder = .error (.cycle left)) := by
  have hclosed := g.numbered_represents.closed
  rw [exists_cycle_error_iff, ← g.numbered_represents.hasCycle_iff]
  exact ⟨g.numbered_represents, decides _ hclosed, NumberedGraph.isCyclic_iff hclosed⟩

/-- A node that an edge joins to itself, apart from nodes that two edges join one way. -/
def looped : Graph where
  nodes := ["c", "b", "a"].map fun id => { id, type := .step "task" }
  edges := [.between "a" "b", (.through (.between "a" "b") "go"), .between "c" "c"]
  distinct := by decide
  closed := by decide

theorem cyclic_iff_unordered_looped :
    (∀ n : NumberedGraph, n.Closed → (n.isCyclic = true ↔ n.HasCycle)) ∧
      looped.numbered.Represents looped ∧
      looped.numbered.edges = [(2, 1, none), (2, 1, some "go"), (0, 0, none)] ∧
      looped.isCyclic = true ∧ looped.topologicalOrder = .error (.cycle ["c"]) := by
  have hdecides : ∀ n : NumberedGraph, n.Closed → (n.isCyclic = true ↔ n.HasCycle) :=
    fun _ => NumberedGraph.isCyclic_iff
  obtain ⟨hrepresents, hcyclic, -⟩ := cyclic_iff_unordered looped hdecides
  have herror : looped.topologicalOrder = .error (.cycle ["c"]) := by decide +kernel
  exact ⟨hdecides, hrepresents, by decide +kernel, hcyclic.2 ⟨_, herror⟩, herror⟩

end Graph

end Flowgraph
